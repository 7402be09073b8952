import Gufi.TextLines
import Gufi.Trace

/-!
# Scouting a trace

A trace file is a sequence of stanzas: the line of a directory and the lines of its entries. The
scouts look for the directory lines, and hand each one on with the offset behind it and the number
of its entries, or with the lines of its entries where the trace cannot be read twice.
`gufi_trace2index` then reads the lines of one stanza.
-/

namespace Gufi.Trace

open Stdio TextLines

section Lines

/-- What the scouts make of a line: the types `d` and `e`, any other type, and a line in which
`find_first_delim` finds no delimiter. -/
inductive LineKind
  | directory
  | external
  | entry
  | bad
deriving DecidableEq

/-- What the scouts read of `struct ScoutTraceArgs`. -/
structure ScoutTraceArgs where
  delim : UInt8
  oldFormat : Bool

/-- The kind of an entry with the byte that follows the first delimiter. -/
def kindOfType (type : UInt8) : LineKind :=
  if type = 100 then .directory else if type = 101 then .external else .entry

/-- `find_first_delim`, its two checks by the callers, and the type behind the delimiter. A line
ends with a NUL. -/
def ScoutTraceArgs.lineKind (sta : ScoutTraceArgs) (line : Bytes) : LineKind :=
  if sta.oldFormat then
    match split sta.delim line with
    | none => .bad
    | some (_, rest) => kindOfType (rest.headD 0)
  else
    match scanHex 4 line with
    | none => .bad
    | some (firstLen, chars) =>
      if chars ≠ 4 then .bad
      else if line.length - 4 < firstLen then .bad
      else match (line ++ [0]).drop (4 + firstLen) with
        | [] => .bad
        | c :: rest => if c ≠ sta.delim then .bad else kindOfType (rest.headD 0)

/-- `struct row`: a directory line, the offset behind it, the number of lines that belong to it,
and the lines themselves if the trace is a stream. -/
structure Row where
  line : Bytes
  offset : ℕ
  entries : ℕ
  entryLines : List Bytes
deriving DecidableEq

/-- `row_init`. -/
def Row.init (line : Bytes) (offset : ℕ) : Row := ⟨line, offset, 0, []⟩

end Lines

section Scouts

variable (sta : ScoutTraceArgs)

/-- The loop of `scout_trace` over the lines behind the first, with the current directory and the
external databases counted for it. External databases are added to the entries when the directory
is enqueued. The result is what was enqueued, and whether the return code is 0. -/
def scoutTraceLoop : Row → ℕ → List (Bytes × ℕ) → List Row × Bool
  | work, external, [] => ([{ work with entries := work.entries + external }], true)
  | work, external, (line, offset) :: lines =>
    if line = [] then scoutTraceLoop work external lines
    else match sta.lineKind line with
      -- where the directory ends is not known, so it is not enqueued
      | .bad => ([], false)
      | .directory =>
        let rest := scoutTraceLoop (Row.init line offset) 0 lines
        ({ work with entries := work.entries + external } :: rest.1, rest.2)
      | .external => scoutTraceLoop work (external + 1) lines
      | .entry => scoutTraceLoop { work with entries := work.entries + 1 } external lines

/-- `scout_trace` on the range `[start, stop)` of the file. An empty file is no error. -/
def scoutTrace (file : Bytes) (start stop : ℕ) : List Row × Bool :=
  if stop < start then ([], false)
  else match readUpTo 10 file stop start with
    | [] => ([], decide (start = 0))
    | (line, offset) :: lines =>
      if line = [] then ([], false)
      else match sta.lineKind line with
        | .directory => scoutTraceLoop sta (Row.init line offset) 0 lines
        | _ => ([], false)

/-- The loop of `scout_stream`, which keeps the lines of the entries. -/
def scoutStreamLoop : Row → ℕ → List Bytes → List Row × Bool
  | work, external, [] => ([{ work with entries := work.entries + external }], true)
  | work, external, line :: lines =>
    if line = [] then scoutStreamLoop work external lines
    else match sta.lineKind line with
      | .bad => ([], false)
      | .directory =>
        let rest := scoutStreamLoop (Row.init line 0) 0 lines
        ({ work with entries := work.entries + external } :: rest.1, rest.2)
      | .external =>
        scoutStreamLoop { work with entryLines := work.entryLines ++ [line] } (external + 1) lines
      | .entry =>
        scoutStreamLoop
          { work with entries := work.entries + 1, entryLines := work.entryLines ++ [line] }
          external lines

/-- `scout_stream` on the lines of the stream. -/
def scoutStream (lines : List Bytes) : List Row × Bool :=
  match lines with
  | [] => ([], false)
  | line :: lines =>
    if line = [] then ([], false)
    else match sta.lineKind line with
      | .directory => scoutStreamLoop sta (Row.init line 0) 0 lines
      | _ => ([], false)

end Scouts

section Stanzas

/-- The lines that `processdir` of `gufi_trace2index` reads from a seekable trace: as many as were
counted, up to the first that is empty. -/
def stanzaLines (file : Bytes) : ℕ → ℕ → List Bytes
  | 0, _ => []
  | entries + 1, offset =>
    match readAt 10 file offset with
    | none => []
    | some (line, next) => if line = [] then [] else line :: stanzaLines file entries next

/-- The directory line and the entry lines that `processdir` parses for a row of a file. -/
def Row.stanza (file : Bytes) (row : Row) : Bytes × List Bytes :=
  (row.line, stanzaLines file row.entries row.offset)

/-- The same for a row of a stream. -/
def Row.streamStanza (row : Row) : Bytes × List Bytes := (row.line, row.entryLines)

/-- The stanzas that are processed when a file is scouted as one range. -/
def seekableStanzas (sta : ScoutTraceArgs) (file : Bytes) : List (Bytes × List Bytes) :=
  (scoutTrace sta file 0 file.length).1.map (Row.stanza file)

/-- The lines of a stream are those of a file with the same content. -/
def streamedStanzas (sta : ScoutTraceArgs) (file : Bytes) : List (Bytes × List Bytes) :=
  (scoutStream sta ((readUpTo 10 file file.length 0).map Prod.fst)).1.map Row.streamStanza

/-- The lines at which a file may be cut, from the one at `before` on. An empty line counts as the
end of the range, behind it. -/
def stanzaEnd (sta : ScoutTraceArgs) : ℕ → List (Bytes × ℕ) → Option ℕ
  | _, [] => none
  | before, (line, next) :: lines =>
    if line = [] then some next
    else match sta.lineKind line with
      | .bad => none
      | .directory => some before
      | _ => stanzaEnd sta next lines

/-- `find_stanza_end`. The rest of the line at `stop` is dropped. -/
def findStanzaEnd (sta : ScoutTraceArgs) (file : Bytes) (stop : ℕ) : Option ℕ :=
  let before := match readAt 10 file stop with
    | none => stop
    | some (_, next) => next
  stanzaEnd sta before (readUpTo 10 file file.length before)

/-- The loop of `split_file` and the last range. Each round starts behind the one before, so the
fuel is enough if it is at least the size of the file. -/
def splitFileLoop (sta : ScoutTraceArgs) (file : Bytes) (jump : ℕ) :
    ℕ → ℕ → ℕ → List (ℕ × ℕ)
  | 0, _, _ => []
  | fuel + 1, start, stop =>
    if start < file.length then
      match findStanzaEnd sta file stop with
      | some stop => (start, stop) :: splitFileLoop sta file jump fuel stop (stop + jump)
      | none => [(start, file.length)]
    else []

/-- `split_file` with `find_stanza_end`: the ranges that are scouted. -/
def splitFile (sta : ScoutTraceArgs) (file : Bytes) (maxParts : ℕ) : List (ℕ × ℕ) :=
  let jump := file.length / maxParts + if file.length % maxParts = 0 then 0 else 1
  splitFileLoop sta file jump file.length 0 jump

end Stanzas

end Gufi.Trace
