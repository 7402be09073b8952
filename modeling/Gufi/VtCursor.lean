import Gufi.Pipe
import Gufi.QueryRowsFraming

/-!
# Cursors of a virtual table

A cursor of a `gufi_vt` table starts `gufi_query`, reads the rows that it prints from a pipe, and
waits for its end: when there are no more rows, and when the cursor is closed. Nothing is waited for
when a cursor is filtered again. Reads from the pipe do not fail.
-/

namespace Gufi.VtCursor

open Stdio Pipe QueryRows

abbrev Bytes := List UInt8

section Popen

/-- `popen_argv_t`, which is the number of the child and of the pipe from it. -/
abbrev Output := ℕ

/-- The pipe or the process cannot be made if there is no child. -/
def popen_argv : Option Pipe.Child → Program (Option Output)
  | none => return none
  | some child => .start child fun pid => return some pid

/-- First `waitpid`, then `close`. -/
def popen_argv_close : Option Output → Program ℤ
  | none => return 0
  | some pid => .wait pid fun status => .close pid (return (status.elim (-1) fun n => (n : ℤ)))

def read_size (fd : Output) (size : ℕ) : Program Bytes := .read fd size [] fun bytes => return bytes

end Popen

section Cursor

structure Cursor where
  output : Option Output
  rowid : ℕ
  len : ℕ
  cols : List (UInt8 × Bytes)

def gufi_vtOpen : Cursor := ⟨none, 0, 0, []⟩

def gufi_vtab_cursor_fini (cur : Cursor) : Cursor := { cur with len := 0, cols := [] }

/-- A negative `char` as a `size_t`. -/
def toSize (c : UInt8) : ℕ := if c.toNat < 128 then c.toNat else 2 ^ 64 - 256 + c.toNat

/-- The loop over the columns. That they are in the buffer for the row is not checked. -/
def readCols (fd : Output) : ℕ → Program (Option (List (UInt8 × Bytes)))
  | 0 => return some []
  | count + 1 => do
    match ← read_size fd 2 with
    | [type, lol] =>
      let len_of_len := lol - 48
      let digits ← read_size fd (toSize len_of_len)
      if 128 ≤ len_of_len.toNat ∨ digits.length ≠ len_of_len.toNat then return none
      else match scanHex len_of_len.toNat digits with
        | none => return none
        | some (len, _) =>
          let data ← read_size fd len
          if data.length ≠ len then return none
          else match ← readCols fd count with
            | none => return none
            | some cols => return some ((type - 48, data) :: cols)
    | _ => return none

/-- An `int` that was read as an `unsigned int`, where a negative one ends the loop at once. -/
def columnCount (count : ℕ) : ℕ := if count % 2 ^ 32 < 2 ^ 31 then count % 2 ^ 32 else 0

/-- The row of `gufi_query_read_row`: its length without the prefix, modulo the size of a `size_t`,
and its columns. -/
def readRow (fd : Output) : Program (Option (ℕ × List (UInt8 × Bytes))) := do
  let head ← read_size fd 12
  if head.length ≠ 12 then return none
  else match scanHex 8 head with
    | none => return none
    | some (row_len, _) =>
      match scanHex 4 (head.drop 8) with
      | none => return none
      | some (col_count, _) =>
        match ← readCols fd (columnCount col_count) with
        | none => return none
        | some cols => return some ((row_len + 2 ^ 64 - 12) % 2 ^ 64, cols)

/-- Whether there was a row, for the return value 0. -/
def gufi_query_read_row (cur : Cursor) : Program (Cursor × Bool) :=
  match cur.output with
  | none => return (gufi_vtab_cursor_fini cur, false)
  | some fd => do
    match ← readRow fd with
    | none => return (gufi_vtab_cursor_fini cur, false)
    | some (len, cols) => return ({ cur with len := len, cols := cols }, true)

inductive Rc
  | ok
  | error
deriving DecidableEq

/-- What `gufi_query` writes depends on the arguments. It is not started if they are not right. -/
def gufi_vtFilter (child : Option Pipe.Child) (cur : Cursor) : Program (Cursor × Rc) := do
  match ← popen_argv child with
  | none => return (cur, .error)
  | some output =>
    let (cur, row) ← gufi_query_read_row ⟨some output, 0, 0, []⟩
    if row then return (cur, .ok)
    else
      let ret ← popen_argv_close cur.output
      return ({ cur with output := none }, if ret ≠ 0 then .error else .ok)

def gufi_vtNext (cur : Cursor) : Program Cursor := do
  let (cur, row) ← gufi_query_read_row (gufi_vtab_cursor_fini cur)
  return { cur with rowid := cur.rowid + row.toNat }

def gufi_vtEof (cur : Cursor) : Program (Cursor × Bool) :=
  if cur.len = 0 then do
    let _ ← popen_argv_close cur.output
    return ({ cur with output := none }, true)
  else return (cur, false)

def gufi_vtClose (cur : Cursor) : Program Unit := do
  let _ ← popen_argv_close (gufi_vtab_cursor_fini cur).output
  return ()

end Cursor

section Scans

/-- What `gufi_query` does when the cursor is filtered, and how many rows are wanted after the
first. -/
structure Scan where
  child : Option Pipe.Child
  rows : ℕ

/-- As SQLite does it: the end of the rows is asked for before each row. -/
def scanRows : ℕ → Cursor → Program Cursor
  | 0, cur => do return (← gufi_vtEof cur).1
  | rows + 1, cur => do
    let (cur, eof) ← gufi_vtEof cur
    if eof then return cur
    else scanRows rows (← gufi_vtNext cur)

/-- A cursor that is filtered again and again, and closed. An error ends the statement. -/
def useCursor : List Scan → Cursor → Program Unit
  | [], cur => gufi_vtClose cur
  | scan :: scans, cur => do
    let (cur, rc) ← gufi_vtFilter scan.child cur
    if rc = .error then gufi_vtClose cur
    else useCursor scans (← scanRows scan.rows cur)

end Scans

end Gufi.VtCursor
