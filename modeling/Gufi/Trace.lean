import Gufi.LineReader
import Gufi.Schema
import Gufi.Stdio

/-!
# Trace lines

A trace file has one line for each entry of a file system tree. `worktofile` writes the line of
an entry, and `linetowork` reads it. The line mixes texts behind a length of four hexadecimal
digits, texts and numbers that end in the delimiter, and the list of the extended attributes,
which has a length, a count and a delimiter of its own.
-/

namespace Gufi.Trace

open Stdio

section Data

/-- The fields of `struct stat` that a trace line holds, as on 64 bit Linux. -/
structure Stat where
  ino : UInt64
  mode : UInt32
  nlink : UInt64
  uid : UInt32
  gid : UInt32
  size : Int64
  blksize : Int64
  blocks : Int64
  atime : Int64
  mtime : Int64
  ctime : Int64
deriving DecidableEq

/-- `calloc` leaves all fields zero. -/
def Stat.zero : Stat := ⟨0, 0, 0, 0, 0, 0, 0, 0, 0, 0, 0⟩

/-- What a trace line holds of `struct work`. -/
structure Work where
  name : Bytes
  basenameLen : ℕ
  statuso : Stat
  crtime : Int64
  pinode : Int64
deriving DecidableEq

/-- The bytes of a buffer that are counted by its length field. -/
structure Xattr where
  name : Bytes
  value : Bytes
deriving DecidableEq

/-- What a trace line holds of `struct entry_data`. Texts are without their final NUL. -/
structure EntryData where
  type : UInt8
  linkname : Bytes
  xattrs : List Xattr
  ossint1 : Int32
  ossint2 : Int32
  ossint3 : Int32
  ossint4 : Int32
  osstext1 : Bytes
  osstext2 : Bytes
deriving DecidableEq

/-- A `struct entry_data` that is set to zeros. -/
def EntryData.zero : EntryData := ⟨0, [], [], 0, 0, 0, 0, [], []⟩

def MAXPATH : ℕ := 4096

def MAXXATTR : ℕ := 65536

/-- ASCII record separator, the default of `-d`. -/
def fielddelim : UInt8 := 0x1E

/-- ASCII unit separator. -/
def XATTRDELIM : UInt8 := 0x1F

/-- The names and the values, without separators. -/
def xattrsLen (xattrs : List Xattr) : ℕ :=
  (xattrs.map fun x => x.name.length + x.value.length).sum

/-- The length after the last `/`. -/
def basenameLen (name : Bytes) : ℕ :=
  (name.reverse.takeWhile (· ≠ 47)).length

end Data

section Write

variable (delim : UInt8)

/-- `%04zx`: the length of a text or of a list. -/
def lengthPrefix (n : ℕ) : Bytes := padded 4 16 n

def prefixed (text : Bytes) : Bytes := lengthPrefix text.length ++ (text ++ [delim])

def field (text : Bytes) : Bytes := text ++ [delim]

def xattrToFile (x : Xattr) : Bytes :=
  x.name ++ [XATTRDELIM] ++ (x.value ++ [XATTRDELIM])

def pairsToFile (xattrs : List Xattr) : Bytes := (xattrs.map xattrToFile).flatten

/-- The length counts the names, the values, their separators and the pair count. -/
def xattrsToFile (xattrs : List Xattr) : Bytes :=
  lengthPrefix (xattrsLen xattrs + 2 * xattrs.length + 4) ++
    (lengthPrefix xattrs.length ++ pairsToFile xattrs)

def statToFile (s : Stat) : Bytes :=
  field delim (numeral 10 s.ino.toNat) ++ (field delim (numeral 10 s.mode.toNat) ++
  (field delim (numeral 10 s.nlink.toNat) ++ (field delim (numeral 10 s.uid.toNat) ++
  (field delim (numeral 10 s.gid.toNat) ++ (field delim (signed s.size.toInt) ++
  (field delim (signed s.blksize.toInt) ++ (field delim (signed s.blocks.toInt) ++
  (field delim (signed s.atime.toInt) ++ (field delim (signed s.mtime.toInt) ++
  field delim (signed s.ctime.toInt))))))))))

/-- The columns behind the type. -/
def entryToFile (work : Work) (ed : EntryData) : Bytes :=
  statToFile delim work.statuso ++ (prefixed delim ed.linkname ++
  (xattrsToFile ed.xattrs ++ ([delim] ++
  (field delim (signed work.crtime.toInt) ++ (field delim (signed ed.ossint1.toInt) ++
  (field delim (signed ed.ossint2.toInt) ++ (field delim (signed ed.ossint3.toInt) ++
  (field delim (signed ed.ossint4.toInt) ++ (prefixed delim ed.osstext1 ++
  (prefixed delim ed.osstext2 ++ field delim (signed work.pinode.toInt)))))))))))

/-- A line without its newline. The first `prefixLen` bytes of the name are left out. -/
def columns (prefixLen : ℕ) (work : Work) (ed : EntryData) : Bytes :=
  prefixed delim (work.name.drop prefixLen) ++ (field delim [ed.type] ++ entryToFile delim work ed)

/-- The bytes written to the file. -/
def worktofile (prefixLen : ℕ) (work : Work) (ed : EntryData) : Bytes :=
  columns delim prefixLen work ed ++ [10]

end Write

section Read

inductive TextColumn
  | linkname
  | osstext1
  | osstext2
deriving DecidableEq

/-- The messages of the readers, and what no check stops: a `NULL` that is read from, and a read
or a write past the end of the line. -/
inductive TraceError
  /-- `Bad name len` -/
  | badNameLen
  /-- `Name len %zu too long (line length is %zu)` -/
  | nameTooLong (nameLen len : ℕ)
  /-- `Name len %zu does not end at delimiter` -/
  | nameNotAtDelimiter (nameLen : ℕ)
  /-- `Bad %s` -/
  | badPrefix (column : TextColumn)
  /-- `%s length goes past end of line: %zu (max: %zu)` -/
  | pastEnd (column : TextColumn) (len max : ℕ)
  /-- `%s len %zu does not end at delimiter` -/
  | notAtDelimiter (column : TextColumn) (len : ℕ)
  /-- `Bad xattr column length` -/
  | badXattrsLength
  /-- `Bad length` -/
  | xattrsPastEnd (len : ℕ)
  /-- `Bad xattr pairs count` -/
  | badXattrsCount
  | null
  | outOfLine
deriving DecidableEq

abbrev Reader := LineReader TraceError

/-- The bytes before the delimiter and those behind it. The delimiter becomes a NUL. -/
def split (delim : UInt8) (src : Bytes) : Option (Bytes × Bytes) :=
  match src with
  | [] => none
  | c :: cs => if c = delim then some ([], cs) else
    (split delim cs).map fun r => (c :: r.1, r.2)

/-- `%s`: the bytes before the first NUL. -/
def cString (cs : Bytes) : Bytes := cs.takeWhile (· ≠ 0)

/-- `p = q; q = split(p, &delim, 1, end);` and the bytes at `p`, which is read from afterwards.
Without a delimiter they reach to the end of the line and `q` is `NULL`. -/
def readField (delim : UInt8) : Reader Bytes := fun
  | none => .error .null
  | some p =>
    match split delim p with
    | some (text, q) => .ok (text, some q)
    | none => .ok (p, none)

/-- The name of an entry; `len` is the length of the line. -/
def readName (delim : UInt8) (len : ℕ) : Reader Bytes := fun
  | none => .error .null
  | some p =>
    match scanHex 4 p with
    | none => .error .badNameLen
    | some (nameLen, chars) =>
      if chars ≠ 4 then .error .badNameLen
      else if len < nameLen then .error (.nameTooLong nameLen len)
      else if (p.drop 4).length < nameLen then .error .outOfLine
      else match (p.drop 4).drop nameLen with
        -- the NUL behind the line may be the delimiter
        | [] => .error (if delim = 0 then .outOfLine else .nameNotAtDelimiter nameLen)
        | c :: q =>
          if c ≠ delim then .error (.nameNotAtDelimiter nameLen)
          else .ok ((p.drop 4).take nameLen, some q)

/-- `read_prefixed`: a text behind its length, copied to a buffer of the given size. -/
def readPrefixed (delim : UInt8) (column : TextColumn) (size : ℕ) : Reader Bytes := fun
  | none => .error .null
  | some p =>
    match scanHex 4 p with
    | none => .error (.badPrefix column)
    | some (len, chars) =>
      if chars ≠ 4 then .error (.badPrefix column)
      else if (p.drop 4).length < len then .error (.pastEnd column len (p.drop 4).length)
      else match (p.drop 4).drop len with
        | [] => .error (if delim = 0 then .outOfLine else .notAtDelimiter column len)
        | c :: q =>
          if c ≠ delim then .error (.notAtDelimiter column len)
          else .ok ((p.drop 4).take (min len (size - 1)), some q)

/-- `q++`. -/
def skipDelim : Reader Unit := fun
  | none => .error .null
  | some [] => .error .outOfLine
  | some (_ :: q) => .ok ((), some q)

/-- What the loop over the pairs leaves: the pairs, `len + 2 * count`, and the bytes it went
over, in which every delimiter it found is now a NUL. -/
structure Pairs where
  xattrs : List Xattr
  offset : ℕ
  line : Bytes

/-- The value at `next`, the bytes before the byte behind it, and those from there to `end`.
Without a delimiter before `end` the value is what `%s` finds, which may reach past `end`, and
the new `start` is `NULL`. -/
def extractValue (past : Bool) (after before next : Bytes) :
    Except TraceError (Bytes × Bytes × Option Bytes) :=
  match split XATTRDELIM next with
  | some (value, rest) => .ok (cString value, before ++ (value ++ [0]), some rest)
  | none => if past then .error .outOfLine else .ok (cString (next ++ after), before ++ next, none)

/-- The loop over the pairs of `xattrs_from_line`, with the number of pairs left, the bytes
before `start` and those from `start` to `end`, which are `none` when `start` is `NULL`.
`after` are the bytes of the line from `end` on, and `past` says that `end` is past the NUL
behind the line. -/
def extractPairs (past : Bool) (after : Bytes) : ℕ → Bytes → Option Bytes → Except TraceError Pairs
  | 0, before, start => .ok ⟨[], 0, before ++ start.getD []⟩
  | _ + 1, before, none => .ok ⟨[], 0, before⟩
  | count + 1, before, some start =>
    match split XATTRDELIM start with
    | none => if past then .error .outOfLine else .ok ⟨[], 0, before ++ start⟩
    | some (name, next) =>
      if next = [] then .ok ⟨[], 0, before ++ (name ++ [0])⟩
      else do
        let (value, before, start) ← extractValue past after (before ++ (name ++ [0])) next
        let pairs ← extractPairs past after count before start
        -- `SNPRINTF` returns the length of the whole string and copies what fits
        return ⟨⟨(cString name).take (MAXXATTR - 1), value.take (MAXXATTR - 1)⟩ :: pairs.xattrs,
          (cString name).length + value.length + 2 + pairs.offset, pairs.line⟩

/-- `xattrs_from_line`. The pointer returned is computed from the lengths of the strings. -/
def xattrsFromLine : Reader (List Xattr) := fun
  | none => .error .null
  | some start =>
    match scanHex 4 start with
    | none => .error .badXattrsLength
    | some (len, chars) =>
      if chars ≠ 4 then .error .badXattrsLength
      else if start.length < len then .error (.xattrsPastEnd len)
      else match scanHex 4 (start.drop 4) with
        | none => .error .badXattrsCount
        | some (count, chars) =>
          if chars ≠ 4 then .error .badXattrsCount
          else
            let orig := start.drop 8
            -- `end = start + len - 4`, up to four bytes past the end of the line or before `start`
            let past := decide (orig.length + 1 < len - 4)
            let region := if len < 4 then none else some ((orig ++ [0]).take (len - 4))
            do
              let pairs ← extractPairs past (orig.drop (len - 4)) count [] region
              let line := if len < 4 then orig else pairs.line ++ orig.drop (len - 4)
              if line.length < pairs.offset then .error .outOfLine
              else .ok (pairs.xattrs, some (line.drop pairs.offset))

/-- A field that `sscanf` reads with `%lu` or `%u`. The variable keeps its 0 where there is no
number, and a narrower variable takes the lower bits. -/
def readUnsigned (delim : UInt8) : Reader ℕ :=
  (fun text => (strtoul text).getD 0) <$> readField delim

/-- A field that is read with `%ld`, or with `atol`, which returns 0 where there is no number. -/
def readLong (delim : UInt8) : Reader ℤ :=
  (fun text => (strtol text).getD 0) <$> readField delim

def readStat (delim : UInt8) : Reader Stat := do
  let ino ← readUnsigned delim
  let mode ← readUnsigned delim
  let nlink ← readUnsigned delim
  let uid ← readUnsigned delim
  let gid ← readUnsigned delim
  let size ← readLong delim
  let blksize ← readLong delim
  let blocks ← readLong delim
  let atime ← readLong delim
  let mtime ← readLong delim
  let ctime ← readLong delim
  return ⟨UInt64.ofNat ino, UInt32.ofNat mode, UInt64.ofNat nlink, UInt32.ofNat uid,
    UInt32.ofNat gid, Int64.ofInt size, Int64.ofInt blksize, Int64.ofInt blocks,
    Int64.ofInt atime, Int64.ofInt mtime, Int64.ofInt ctime⟩

/-- The columns behind the type of an entry that is not an external database. -/
def readEntry (delim : UInt8) (name : Bytes) (type : UInt8) : Reader (Work × EntryData) := do
  let statuso ← readStat delim
  let linkname ← readPrefixed delim .linkname MAXPATH
  let xattrs ← xattrsFromLine
  -- `xattrs_from_line` returns the delimiter, which is not checked
  skipDelim
  let crtime ← readLong delim
  let ossint1 ← readLong delim
  let ossint2 ← readLong delim
  let ossint3 ← readLong delim
  let ossint4 ← readLong delim
  let osstext1 ← readPrefixed delim .osstext1 MAXXATTR
  let osstext2 ← readPrefixed delim .osstext2 MAXXATTR
  let pinode ← readLong delim
  return (⟨name, basenameLen name, statuso, Int64.ofInt crtime, Int64.ofInt pinode⟩,
    ⟨type, linkname, xattrs, Int32.ofInt ossint1, Int32.ofInt ossint2, Int32.ofInt ossint3,
      Int32.ofInt ossint4, osstext1, osstext2⟩)

/-- `linetowork` in the current format. `ed₀` is what the caller's `struct entry_data` holds
before: of the line of an external database only the name and the type are read. -/
def readLine (delim : UInt8) (len : ℕ) (ed₀ : EntryData) : Reader (Work × EntryData) := do
  let name ← readName delim len
  -- the type is read after its delimiter became a NUL
  let type ← (fun text => text.headD 0) <$> readField delim
  if type = 101 then
    return (⟨name, name.length, Stat.zero, 0, 0⟩, { ed₀ with type })
  else
    readEntry delim name type

def linetowork (delim : UInt8) (line : Bytes) (ed₀ : EntryData) :
    Except TraceError (Work × EntryData) :=
  Prod.fst <$> readLine delim line.length ed₀ (some line)

/-- The line that `getline` hands to `linetowork` from the front of a file. -/
def getline (file : Bytes) : Bytes := file.takeWhile (· ≠ 10)

end Read

end Gufi.Trace
