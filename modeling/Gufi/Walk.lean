import Gufi.DescendSafety
import Gufi.SwapRoundTrip
import Gufi.Worklist

/-!
# Walking a tree

`processdir` of `gufi_dir2index` opens a directory and has its entries gone over. The items that
`descend` enqueues may be written to swap files, from which they are read back any number of times
before they are processed in any order. What an item comes to does not depend on other items, so
they are processed one after the other here.
-/

namespace Gufi.Walk

open Descend Swap

section Program

/-- The longest path with its NUL that system calls accept. -/
def PATH_MAX : ℕ := 4096

/-- The program, and what `readdir` and `lstat` return for the paths of directories. -/
structure Config where
  ins : Input
  skipDb : Bool
  mem : Memory
  decompressed : Malloc
  deserialized : Malloc
  func : UInt64
  dFd : ℤ
  opendir : Bytes → Option (List Observed)
  lstat : Bytes → Option (Stat × Int64)

/-- A directory that is gone over, an entry for which the callback is called, and the counters that
`descend` returns. -/
inductive Event
  | directory (path : Bytes) (level : ℕ)
  | nondir (path : Bytes) (type : UInt8)
  | counters (path : Bytes) (ctrs : Counters)
deriving DecidableEq

variable (cfg : Config)

/-- `process_nondir` is given to `descend` in the range of levels. -/
def Config.arguments (level : UInt64) : Arguments where
  ins := cfg.ins
  mem := cfg.mem
  dFd := cfg.dFd
  skipDb := cfg.skipDb
  wrapDir := none
  processdir := true
  processnondir := cfg.ins.minLevel ≤ level ∧ level ≤ cfg.ins.maxLevel

/-- The item in a block, when it has been decompressed. -/
def Config.readItem (block : Mem) : Option Named :=
  (decompressWork cfg.mem.zlib cfg.decompressed block).bind fun m =>
    (m.load Work.layout).bind fun work =>
      (m.read work.name work.nameLen.toNat).map fun name => ⟨work, name⟩

/-- `processdir` up to the return of `descend`. -/
def Config.descendItem (block : Mem) : Option (Named × List Call × Counters) :=
  (cfg.readItem block).bind fun item =>
    (cfg.opendir item.name).bind fun entries =>
      (lstatWrapper (cfg.lstat item.name) item.work).bind fun work =>
        (descend (cfg.arguments work.level) ⟨work, item.name⟩ entries).map fun r =>
          (⟨work, item.name⟩, r)

/-- What a call comes to at once, and what it enqueues. -/
def runCall (processdir : Mem → List Event × List Mem) : Call → List Event × List Mem
  | .enqueue work => ([], [work])
  | .enqueueSwappable copy => ([], [copy])
  | .processdir work => processdir work
  | .processnondir child ed => ([.nondir child.name ed.type], [])

/-- `processdir` with a bound on how often it calls itself. -/
def Config.processdir : ℕ → Mem → List Event × List Mem
  | 0, _ => ([], [])
  | n + 1, block =>
      match cfg.descendItem block with
      | none => ([], [])
      | some (item, calls, ctrs) =>
          let results := calls.map (runCall (Config.processdir n))
          (.directory item.name item.work.level.toNat :: results.flatMap Prod.fst ++
            [.counters item.name ctrs], results.flatMap Prod.snd)

/-- Into a swap file and back from there. -/
def Config.throughSwapFile (block : Mem) : Option Mem :=
  (workSerialize cfg.func block).bind fun file =>
    (genericDeserialize cfg.deserialized file).map fun (_, m, _) => m

def Config.trips : ℕ → Mem → Option Mem
  | 0, block => some block
  | k + 1, block => (cfg.throughSwapFile block).bind (Config.trips k)

/-- The header says that the item is compressed. -/
def IsCompressed (block : Mem) : Prop :=
  ∃ c, block.load Compressed.layout = some c ∧ c.yes ≠ 0

/-- An item is processed after some trips. Nothing comes of it if it cannot be read back. Longer
paths cannot be opened, so the bound is never reached. -/
def Config.Processes (k : ℕ) (block : Mem) (log : List Event) (r : List Event × List Mem) : Prop :=
  r = match cfg.trips k block with
    | none => (log, [])
    | some block => (log ++ (cfg.processdir PATH_MAX block).1, (cfg.processdir PATH_MAX block).2)

/-- A step of the walk. -/
def Config.AnyStep : List Mem × List Event → List Mem × List Event → Prop :=
  Worklist.ChoiceStep fun block log r => ∃ k, cfg.Processes k block log r

/-- A step in which only a compressed item may have been in a swap file. -/
def Config.SparedStep : List Mem × List Event → List Mem × List Event → Prop :=
  Worklist.ChoiceStep fun block log r => ∃ k, (k ≠ 0 → IsCompressed block) ∧
    cfg.Processes k block log r

/-- The queue with the root. -/
def Config.start (root : Named) : List Mem × List Event :=
  ([compressStruct cfg.mem.zlib cfg.mem.malloc cfg.mem.realloc cfg.ins.compress
    (root.block cfg.mem) root.bytes.length], [])

end Program

section Statement

variable (cfg : Config)

/-- What the entry is, unless it is skipped. -/
def Config.kind (o : Observed) : Option Kind :=
  if skips (cfg.arguments 0) o.dirent then none else o.lstat.map fun (st, _) => kindOfMode st.mode

/-- A directory and one in it that is not skipped and not too deep, with their levels. -/
def Config.Subdir (d d' : Bytes × ℕ) : Prop :=
  ∃ entries o, cfg.opendir d.1 = some entries ∧ o ∈ entries ∧ cfg.kind o = some .dir ∧
    d.2 + 1 ≤ cfg.ins.maxLevel.toNat ∧ d' = (d.1 ++ 47 :: o.dirent.name, d.2 + 1)

/-- The directories of level at most `max_level` that are not skipped. -/
def Config.InWalk (root : Bytes) (d : Bytes × ℕ) : Prop :=
  Relation.ReflTransGen cfg.Subdir (root, 0) d

/-- The type that is reported, if one is, is that of the entry. -/
def Observed.HonestType (o : Observed) (k : Kind) : Prop :=
  match o.dirent.type with
  | .unknown => True
  | .dir => k = .dir
  | .lnk => k = .link
  | .reg => k = .file
  | .fifo | .sock | .chr | .blk => k = .other

/-- All system calls succeed for a directory and its entries. -/
structure Config.Succeeds (path : Bytes) (entries : List Observed) : Prop where
  opendir : cfg.opendir path = some entries
  lstat : (cfg.lstat path).isSome
  short : path.length < PATH_MAX
  names : (entries.map fun o => o.dirent.name).Nodup
  noSlash : ∀ o ∈ entries, 47 ∉ o.dirent.name
  entries : ∀ o ∈ entries, ∃ st crtime, o.lstat = some (st, crtime) ∧
    Observed.HonestType o (kindOfMode st.mode) ∧
    (kindOfMode st.mode = .link → ∃ l, o.readlink = some l ∧ l.target.length < MAXPATH)

/-- A tree on which they succeed, and the item of its root. -/
structure Config.Tree (root : Named) : Prop where
  succeeds : ∀ d, cfg.InWalk root.name d → ∃ entries, cfg.Succeeds d.1 entries
  notEmpty : root.name ≠ []
  level : root.work.level = 0
  nameLen : root.work.nameLen.toNat = root.name.length
  plain : root.work.compressed.yes = 0

/-- It happens once if it should happen, and otherwise not at all. -/
def Once (p : Prop) (n : ℕ) : Prop := (p → n = 1) ∧ (¬p → n = 0)

/-- The counters are the numbers of subdirectories and of other entries that are handled. -/
def Config.Counted (d : Bytes × ℕ) (entries : List Observed) (ctrs : Counters) : Prop :=
  ctrs.dirs = (if d.2 + 1 ≤ cfg.ins.maxLevel.toNat then
    entries.countP fun o => decide (cfg.kind o = some .dir) else 0) ∧
  ctrs.nondirs = (if cfg.ins.minLevel.toNat ≤ d.2 then entries.countP fun o =>
    decide (cfg.kind o = some .link ∨ cfg.kind o = some .file) else 0) ∧
  ctrs.nondirsProcessed = ctrs.nondirs ∧
  ctrs.dirsInsitu = if cfg.ins.subdirLimit = 0 then 0 else ctrs.dirs - cfg.ins.subdirLimit.toNat

structure Config.VisitsOnce (root : Bytes) (log : List Event) : Prop where
  directories : ∀ path level, Once (cfg.InWalk root (path, level))
    (log.count (.directory path level))
  nondirs : ∀ path type, Once
    (∃ d entries o, cfg.InWalk root d ∧ cfg.ins.minLevel.toNat ≤ d.2 ∧
      cfg.opendir d.1 = some entries ∧ o ∈ entries ∧ path = d.1 ++ 47 :: o.dirent.name ∧
      (cfg.kind o = some .link ∧ type = 108 ∨ cfg.kind o = some .file ∧ type = 102))
    (log.count (.nondir path type))
  counters : ∀ path ctrs, Once
    (∃ level entries, cfg.InWalk root (path, level) ∧ cfg.opendir path = some entries ∧
      cfg.Counted (path, level) entries ctrs)
    (log.count (.counters path ctrs))

end Statement

end Gufi.Walk
