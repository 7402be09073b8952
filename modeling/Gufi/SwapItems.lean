import Gufi.ByteBuffer
import Gufi.ObjectLayout
import Gufi.Schema

/-!
# Work items in swap files

Work items that do not fit into memory go to a file and come back from there. Items of the walks
are structures with their names behind them and pointers to these. They may have been compressed
when they were queued. Rows of traces have pointers to their lines.

Allocations succeed. What a new block has in it and what lies behind it is not known.
-/

namespace Gufi.Swap

open ObjectLayout

section Memory

/-- A block on the heap and the bytes up to the end of what can be read. -/
structure Mem where
  addr : UInt64
  bytes : Bytes
  behind : Bytes

def Mem.tail (m : Mem) (p : UInt64) : Bytes := (m.bytes ++ m.behind).drop (p - m.addr).toNat

/-- `n` bytes from a pointer on. They need not be in the block. -/
def Mem.read (m : Mem) (p : UInt64) (n : ℕ) : Option Bytes :=
  if ((m.tail p).take n).length = n then some ((m.tail p).take n) else none

/-- The structure at the start of a block. -/
def Mem.load {α : Type} (m : Mem) (x : Layout α) : Option α := (x.read m.bytes).map Prod.fst

def Mem.store {α : Type} (m : Mem) (x : Layout α) (a : α) : Mem :=
  { m with bytes := ByteBuffer.put m.bytes 0 (x.encode a) }

structure Malloc where
  block : ℕ → Mem
  length_block : ∀ n, (block n).bytes.length = n

/-- Nothing can be read behind its blocks. -/
def lastBlocks : Malloc := ⟨fun n => ⟨0, List.replicate n 0, []⟩, fun _ => List.length_replicate⟩

/-- All blocks are at one address. -/
def blocksAt (addr : UInt64) : Malloc :=
  ⟨fun n => ⟨addr, List.replicate n 0, []⟩, fun _ => List.length_replicate⟩

/-- A new block and what is then read into it. -/
def Malloc.filled (heap : Malloc) (n : ℕ) (data : Bytes) : Mem :=
  { heap.block n with bytes := data }

def Malloc.realloc (heap : Malloc) (m : Mem) (n : ℕ) : Mem :=
  { heap.block n with bytes := m.bytes.take n ++ (heap.block n).bytes.drop m.bytes.length }

end Memory

section Structures

/-- `compressed_t` -/
structure Compressed where
  yes : UInt8
  origLen : UInt16
  len : UInt64
deriving DecidableEq

def Compressed.layout : Layout Compressed :=
  ((Layout.uint8.padded 1).pair <| (Layout.uint16.padded 4).pair Layout.uint64).record
    (fun c => (c.yes, c.origLen, c.len)) (fun (yes, origLen, len) => ⟨yes, origLen, len⟩)
    fun _ => rfl

/-- `str_t` -/
structure Str where
  data : UInt64
  len : UInt64
  free : UInt64
deriving DecidableEq

def Str.layout : Layout Str :=
  (Layout.uint64.pair <| Layout.uint64.pair Layout.uint64).record
    (fun s => (s.data, s.len, s.free)) (fun (data, len, free) => ⟨data, len, free⟩) fun _ => rfl

structure Timespec where
  sec : Int64
  nsec : Int64
deriving DecidableEq

def Timespec.layout : Layout Timespec :=
  (Layout.int64.pair Layout.int64).record (fun t => (t.sec, t.nsec))
    (fun (sec, nsec) => ⟨sec, nsec⟩) fun _ => rfl

/-- `struct stat`, as on 64 bit Linux. -/
structure Stat where
  dev : UInt64
  ino : UInt64
  nlink : UInt64
  mode : UInt32
  uid : UInt32
  gid : UInt32
  rdev : UInt64
  size : Int64
  blksize : Int64
  blocks : Int64
  atim : Timespec
  mtim : Timespec
  ctim : Timespec
deriving DecidableEq

def Stat.layout : Layout Stat :=
  (Layout.uint64.pair <| Layout.uint64.pair <| Layout.uint64.pair <| Layout.uint32.pair <|
    Layout.uint32.pair <| (Layout.uint32.padded 4).pair <| Layout.uint64.pair <|
    Layout.int64.pair <| Layout.int64.pair <| Layout.int64.pair <| Timespec.layout.pair <|
    Timespec.layout.pair (Timespec.layout.padded 24)).record
    (fun s => (s.dev, s.ino, s.nlink, s.mode, s.uid, s.gid, s.rdev, s.size, s.blksize, s.blocks,
      s.atim, s.mtim, s.ctim))
    (fun (dev, ino, nlink, mode, uid, gid, rdev, size, blksize, blocks, atim, mtim, ctim) =>
      ⟨dev, ino, nlink, mode, uid, gid, rdev, size, blksize, blocks, atim, mtim, ctim⟩)
    fun _ => rfl

/-- `struct work`. The name is behind it. -/
structure Work where
  compressed : Compressed
  origRoot : Str
  rootParent : Str
  rootBasenameLen : UInt64
  level : UInt64
  name : UInt64
  nameLen : UInt64
  basenameLen : UInt64
  statuso : Stat
  crtime : Int64
  statCalled : UInt32
  pinode : Int64
  recursionLevel : UInt64
  fullpath : UInt64
  fullpathLen : UInt64
deriving DecidableEq

def Work.layout : Layout Work :=
  (Compressed.layout.pair <| Str.layout.pair <| Str.layout.pair <| Layout.uint64.pair <|
    Layout.uint64.pair <| Layout.uint64.pair <| Layout.uint64.pair <| Layout.uint64.pair <|
    Stat.layout.pair <| Layout.int64.pair <| (Layout.uint32.padded 4).pair <|
    Layout.int64.pair <| Layout.uint64.pair <| Layout.uint64.pair Layout.uint64).record
    (fun w => (w.compressed, w.origRoot, w.rootParent, w.rootBasenameLen, w.level, w.name,
      w.nameLen, w.basenameLen, w.statuso, w.crtime, w.statCalled, w.pinode, w.recursionLevel,
      w.fullpath, w.fullpathLen))
    (fun (compressed, origRoot, rootParent, rootBasenameLen, level, name, nameLen, basenameLen,
        statuso, crtime, statCalled, pinode, recursionLevel, fullpath, fullpathLen) =>
      ⟨compressed, origRoot, rootParent, rootBasenameLen, level, name, nameLen, basenameLen,
        statuso, crtime, statCalled, pinode, recursionLevel, fullpath, fullpathLen⟩)
    fun _ => rfl

/-- `gqw_t`. The name and the name for SQLite are behind it. -/
structure Gqw where
  comp : Compressed
  work : Work
  idMatch : Int32
  sqlite3Name : UInt64
  sqlite3NameLen : UInt64
deriving DecidableEq

def Gqw.layout : Layout Gqw :=
  (Compressed.layout.pair <| Work.layout.pair <| (Layout.int32.padded 4).pair <|
    Layout.uint64.pair Layout.uint64).record
    (fun g => (g.comp, g.work, g.idMatch, g.sqlite3Name, g.sqlite3NameLen))
    (fun (comp, work, idMatch, sqlite3Name, sqlite3NameLen) =>
      ⟨comp, work, idMatch, sqlite3Name, sqlite3NameLen⟩)
    fun _ => rfl

/-- `sll_t` -/
structure Sll where
  head : UInt64
  tail : UInt64
  size : UInt64
deriving DecidableEq

def Sll.layout : Layout Sll :=
  (Layout.uint64.pair <| Layout.uint64.pair Layout.uint64).record
    (fun s => (s.head, s.tail, s.size)) (fun (head, tail, size) => ⟨head, tail, size⟩) fun _ => rfl

/-- `struct row` -/
structure Row where
  trace : Int32
  firstDelim : UInt64
  line : UInt64
  len : UInt64
  offset : Int64
  entries : UInt64
  entryLines : Sll
deriving DecidableEq

def Row.layout : Layout Row :=
  ((Layout.int32.padded 4).pair <| Layout.uint64.pair <| Layout.uint64.pair <|
    Layout.uint64.pair <| Layout.int64.pair <| Layout.uint64.pair Sll.layout).record
    (fun r => (r.trace, r.firstDelim, r.line, r.len, r.offset, r.entries, r.entryLines))
    (fun (trace, firstDelim, line, len, offset, entries, entryLines) =>
      ⟨trace, firstDelim, line, len, offset, entries, entryLines⟩)
    fun _ => rfl

/-- The offset of what is compressed. -/
def COMP_OFFSET : ℕ := Compressed.layout.size

example : (Compressed.layout.size, Work.layout.size, Gqw.layout.size, Row.layout.size) =
    (16, 296, 336, 72) := by decide

end Structures

section Compression

/-- `compress` and `uncompress` with what is read and the room for what is written. -/
structure Zlib where
  compress : Bytes → ℕ → Option Bytes
  uncompress : Bytes → ℕ → Option Bytes

/-- What is compressed can be got back if there is enough room. What follows it is not looked at,
and no byte of it may be missing. -/
structure Zlib.Documented (zlib : Zlib) : Prop where
  inverse : ∀ {src room out}, zlib.compress src room = some out → ∀ rest room',
    zlib.uncompress (out ++ rest) room' = if src.length ≤ room' then some src else none
  incomplete : ∀ {src room out}, zlib.compress src room = some out → ∀ part rest,
    out = part ++ rest → rest ≠ [] → ∀ room', zlib.uncompress part room' = none

variable (zlib : Zlib) (heap heap' : Malloc)

/-- `compress_struct`. The block is the result of the second allocation. -/
def compressStruct (comp : Bool) (src : Mem) (structLen : ℕ) : Mem :=
  if comp then
    match zlib.compress ((src.bytes.drop COMP_OFFSET).take (structLen - COMP_OFFSET))
        (structLen - COMP_OFFSET) with
    | none => src
    | some out =>
        let len := out.length + COMP_OFFSET
        let header : Compressed := ⟨1, UInt16.ofNat structLen, UInt64.ofNat len⟩
        let dst := (heap.block structLen).store Compressed.layout header
        if len < structLen then
          heap'.realloc { dst with bytes := ByteBuffer.put dst.bytes COMP_OFFSET out }
            (COMP_OFFSET + len)
        else src
  else src

/-- `decompress_struct`. It ends the program where there is an error, and nothing may be written
behind the new block. -/
def decompressStruct (src : Mem) : Option Mem :=
  match src.load Compressed.layout with
  | none => none
  | some comp =>
      if comp.yes ≠ 0 then
        let decomp := heap.block comp.origLen.toNat
        let room := comp.origLen.toUInt64 - UInt64.ofNat COMP_OFFSET
        match zlib.uncompress ((src.tail (src.addr + UInt64.ofNat COMP_OFFSET)).take comp.len.toNat)
            room.toNat with
        | none => none
        | some out =>
            let bytes := ByteBuffer.put decomp.bytes 8 (Layout.uint64.encode
              (UInt64.ofNat out.length))
            if COMP_OFFSET + out.length ≤ comp.origLen.toNat then
              some { decomp with bytes := ByteBuffer.put bytes COMP_OFFSET out }
            else none
      else some src

/-- The name is behind the structure. -/
def Work.setName (w : Work) (addr : UInt64) : Work :=
  { w with name := addr + UInt64.ofNat Work.layout.size }

def decompressWork (src : Mem) : Option Mem :=
  (decompressStruct zlib heap src).bind fun m =>
    (m.load Work.layout).map fun w => m.store Work.layout (w.setName m.addr)

def Gqw.setNames (g : Gqw) (addr : UInt64) : Gqw :=
  let name := addr + UInt64.ofNat Gqw.layout.size
  { g with
    work := { g.work with name := name }
    sqlite3Name := if g.sqlite3Name ≠ 0 then name + g.work.nameLen + 1 else 0 }

def decompressGqw (src : Mem) : Option Mem :=
  (decompressStruct zlib heap src).bind fun m =>
    (m.load Gqw.layout).map fun g => m.store Gqw.layout (g.setNames m.addr)

end Compression

section Callbacks

variable (func : UInt64)

/-- What `QPTPool_generic_serialize_and_free` writes. -/
def genericSerialize (work : Mem) (len : ℕ) : Option Bytes :=
  (work.read work.addr len).map fun data =>
    Layout.uint64.encode func ++ (Layout.uint64.encode (UInt64.ofNat len) ++ data)

/-- `QPTPool_generic_alloc_and_deserialize`, with what is left of the file. -/
def genericDeserialize (heap : Malloc) (file : Bytes) : Option (UInt64 × Mem × Bytes) :=
  (Layout.uint64.read file).bind fun (func, file) =>
    (Layout.uint64.read file).bind fun (len, file) =>
      if len.toNat ≤ file.length then
        some (func, heap.filled len.toNat (file.take len.toNat), file.drop len.toNat)
      else none

/-- The length in the header, or that of the structure without the name. -/
def workLen (w : Compressed) : ℕ := if w.yes ≠ 0 then w.len.toNat else Work.layout.size

def workSerialize (work : Mem) : Option Bytes :=
  (work.load Compressed.layout).bind fun w => genericSerialize func work (workLen w)

/-- The header is not `comp` but the one in `work`. -/
def gqwLen (work : Compressed) : ℕ := if work.yes ≠ 0 then work.len.toNat else Gqw.layout.size

def gqwSerialize (gqw : Mem) : Option Bytes :=
  (Compressed.layout.read (gqw.bytes.drop COMP_OFFSET)).bind fun (work, _) =>
    genericSerialize func gqw (gqwLen work)

/-- `sqlite_uri_path` -/
def sqliteUriPath (src : Bytes) : Bytes :=
  src.flatMap fun c =>
    if c = 35 then [37, 50, 51] -- %23
    else if c = 63 then [37, 51, 102] -- %3f
    else if c = 37 then [37, 50, 53] -- %25
    else [c]

end Callbacks

section Rows

/-- The nodes of linked lists on the heap, with their strings. -/
abbrev Nodes := UInt64 → Option (Bytes × UInt64)

/-- What `sll_loop` visits. -/
inductive Chain (nodes : Nodes) : UInt64 → List Bytes → Prop
  | null : Chain nodes 0 []
  | node {p next line lines} : p ≠ 0 → nodes p = some (line, next) → Chain nodes next lines →
      Chain nodes p (line :: lines)

/-- `sll_destroy` of a list with a number of nodes. -/
def sllDestroy : ℕ → UInt64 → Nodes → Nodes
  | 0, _, nodes => nodes
  | k + 1, p, nodes =>
      if p = 0 then nodes
      else
        match nodes p with
        | none => nodes
        | some (_, next) => sllDestroy k next (Function.update nodes p none)

/-- What `row_serialize_and_free` writes. -/
def rowSerialize (func : UInt64) (row : Row) (line : Bytes) : Bytes :=
  Layout.uint64.encode func ++ (Row.layout.encode row ++ line)

/-- `row_destroy` frees the lines of the entries. -/
def rowFree (row : Row) (nodes : Nodes) : Nodes :=
  sllDestroy row.entryLines.size.toNat row.entryLines.head nodes

/-- `row_alloc_and_deserialize`, with the block of the line. -/
def rowDeserialize (heap : Malloc) (file : Bytes) : Option (UInt64 × Row × Mem × Bytes) :=
  (Layout.uint64.read file).bind fun (func, file) =>
    (Row.layout.read file).bind fun (row, file) =>
      if row.len.toNat ≤ file.length then
        let line := heap.filled row.len.toNat (file.take row.len.toNat)
        some (func, { row with line := line.addr }, line, file.drop row.len.toNat)
      else none

end Rows

end Gufi.Swap
