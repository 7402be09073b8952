import Gufi.ByteBuffer
import Gufi.TraceColumns

/-!
# Rows of query results

`print_parallel` writes the rows of a query to a buffer, and flushes it to a file when the next
row does not fit. A row that is longer than the buffer goes to the file directly. With the types of
the columns, a row starts with its length and the number of its columns, and each column with its
type, the length of its length, and its length. `gufi_query_read_row` reads them.
-/

namespace Gufi.QueryRows

open Stdio ByteBuffer

abbrev Bytes := List UInt8

section Write

/-- A value as text, `NULL` is `none`, and the type of its column. -/
structure Column where
  type : UInt8
  data : Option Bytes
deriving DecidableEq

abbrev Row := List Column

/-- The bytes that are written: those before the NUL. -/
def Column.text (c : Column) : Bytes := Trace.cString (c.data.getD [])

/-- The loop of `len_of_len`, with the number of digits that may still be counted. -/
def lenOfLenLoop : ℕ → ℕ → ℕ
  | 0, _ => 0
  | c + 1, len => if len = 0 then 0 else lenOfLenLoop c (len / 16) + 1

/-- The number of hexadecimal digits, up to eight. -/
def lenOfLen (len : ℕ) : ℕ := lenOfLenLoop 7 (len / 16) + 1

def Column.lenOfLen (c : Column) : ℕ := QueryRows.lenOfLen c.text.length

/-- The type, the length of the length, the length, and the data. -/
def Column.length (c : Column) : ℕ := 1 + (1 + c.lenOfLen) + c.text.length

def TLV_ROW_LEN_LEN : ℕ := 8

def TLV_COL_COUNT_LEN : ℕ := 4

/-- The row length counts the prefix. -/
def rowLen (row : Row) : ℕ := (row.map Column.length).sum + TLV_ROW_LEN_LEN + TLV_COL_COUNT_LEN

def Column.typeByte (c : Column) : UInt8 := c.type + 48

def Column.lenOfLenByte (c : Column) : UInt8 := UInt8.ofNat c.lenOfLen + 48

/-- The writes of a row that bypasses the buffer. The loop over the columns and the code for the
last column are the same when there are types. -/
def columnToFile (c : Column) : Bytes :=
  c.typeByte :: c.lenOfLenByte :: (numeral 16 c.text.length ++ c.text)

def rowToFile (row : Row) : Bytes :=
  padded 8 16 (rowLen row) ++ (padded 4 16 row.length ++ row.flatMap columnToFile)

/-- `struct OutputBuffer`; the capacity is the length of `buf`. -/
structure OutputBuffer where
  buf : Bytes
  filled : ℕ

/-- `buf[filled] = byte; filled++`, and `memcpy`. -/
def OutputBuffer.write (ob : OutputBuffer) (bytes : Bytes) : OutputBuffer :=
  ⟨put ob.buf ob.filled bytes, ob.filled + bytes.length⟩

/-- `snprintf` with the room that is left; `filled` grows by the length that was computed. -/
def OutputBuffer.print (ob : OutputBuffer) (text : Bytes) (length : ℕ) : OutputBuffer :=
  ⟨snprintf ob.buf ob.filled (ob.buf.length - ob.filled) text, ob.filled + length⟩

def columnToBuffer (ob : OutputBuffer) (c : Column) : OutputBuffer :=
  (((ob.write [c.typeByte]).write [c.lenOfLenByte]).print
    (numeral 16 c.text.length) c.lenOfLen).write c.text

def rowToBuffer (ob : OutputBuffer) (row : Row) : OutputBuffer :=
  row.foldl columnToBuffer ((ob.print (padded 8 16 (rowLen row)) TLV_ROW_LEN_LEN).print
    (padded 4 16 row.length) TLV_COL_COUNT_LEN)

/-- The buffer, and what was written to the file. -/
structure PrintArgs where
  outputBuffer : OutputBuffer
  outfile : Bytes

/-- `OutputBuffer_flush`. -/
def PrintArgs.flush (print : PrintArgs) : PrintArgs :=
  ⟨{ print.outputBuffer with filled := 0 },
    print.outfile ++ print.outputBuffer.buf.take print.outputBuffer.filled⟩

def PrintArgs.capacity (print : PrintArgs) : ℕ := print.outputBuffer.buf.length

/-- `print_parallel` with types. -/
def printParallel (print : PrintArgs) (row : Row) : PrintArgs :=
  let print :=
    if print.capacity - print.outputBuffer.filled < rowLen row then print.flush else print
  if print.capacity < rowLen row then { print with outfile := print.outfile ++ rowToFile row }
  else { print with outputBuffer := rowToBuffer print.outputBuffer row }

/-- All rows of a query and the final flush, from an empty buffer with any bytes in it. -/
def printRows (buf : Bytes) (rows : List Row) : Bytes :=
  (rows.foldl printParallel ⟨⟨buf, 0⟩, []⟩).flush.outfile

end Write

section Read

/-- The messages of `gufi_query_read_row`, with the number of the column, and a read past the
buffer for the row, which no check stops. -/
inductive ReadError
  /-- `Error: Could not read row prefix` -/
  | rowPrefix
  /-- `Error: Could not parse row length from \"%.*s\"` -/
  | rowLength
  /-- `Error: Could not parse column count from \"%s\"` -/
  | columnCount
  /-- `Error: Could not read type and length of column length %d` -/
  | typeAndLengthOfLength (column : ℕ)
  /-- `Error: Could not read length of column %d` -/
  | lengthOfColumn (column : ℕ)
  /-- `Error: Could not parse length of column %d from \"%s\"` -/
  | parseLength (column : ℕ)
  /-- `Error: Could not read %zu octets` -/
  | octets (len : ℕ)
  | outOfRow
deriving DecidableEq

/-- The loop over the columns: the types with the values, and the bytes behind the row. `room` is
what is left of the buffer for the row, without the byte for the NUL. -/
def readColumns (i : ℕ) : ℕ → ℕ → Bytes → Except ReadError (List (UInt8 × Bytes) × Bytes)
  | 0, _, input => .ok ([], input)
  | count + 1, room, input =>
    match input with
    | type :: lol :: input =>
      let lenOfLen := (lol - 48).toNat
      -- a `char` from 128 on is negative, and never the number of bytes read
      if 128 ≤ lenOfLen ∨ input.length < lenOfLen then .error (.lengthOfColumn i)
      else match scanHex lenOfLen (input.take lenOfLen) with
        | none => .error (.parseLength i)
        | some (len, _) =>
          if (input.drop lenOfLen).length < len then .error (.octets len)
          else if room < 2 + lenOfLen + len then .error .outOfRow
          else do
            let rest ← readColumns (i + 1) count (room - (2 + lenOfLen + len))
              ((input.drop lenOfLen).drop len)
            return ((type - 48, (input.drop lenOfLen).take len) :: rest.1, rest.2)
    | _ => .error (.typeAndLengthOfLength i)

/-- `gufi_query_read_row` on input that is not at its end. -/
def readRow (input : Bytes) : Except ReadError (List (UInt8 × Bytes) × Bytes) :=
  if input.length < TLV_ROW_LEN_LEN + TLV_COL_COUNT_LEN then .error .rowPrefix
  else match scanHex 8 (input.take 12) with
    | none => .error .rowLength
    | some (len, _) =>
      match scanHex 4 ((input.take 12).drop 8) with
      | none => .error .columnCount
      | some (count, _) =>
        if len < TLV_ROW_LEN_LEN + TLV_COL_COUNT_LEN then .error .outOfRow
        else readColumns 0 count (len - (TLV_ROW_LEN_LEN + TLV_COL_COUNT_LEN)) (input.drop 12)

/-- Rows are read until the input is at its end. A row has at least a prefix, so the fuel is enough
if it is the length of the input. -/
def readRowsLoop : ℕ → Bytes → Except ReadError (List (List (UInt8 × Bytes)))
  | _, [] => .ok []
  | 0, _ :: _ => .error .outOfRow
  | fuel + 1, input => do
    let row ← readRow input
    let rows ← readRowsLoop fuel row.2
    return row.1 :: rows

def readRows (input : Bytes) : Except ReadError (List (List (UInt8 × Bytes))) :=
  readRowsLoop input.length input

end Read

end Gufi.QueryRows
