import Gufi.GetXattrs
import Gufi.NameTrie
import Gufi.SwapItems
import Mathlib.Data.List.DropRight

/-!
# Going over the entries of a directory

`descend` makes a work item of each entry that is not skipped. Directories are put into a queue, or
processed on the spot when there have been too many of them; files and links are given to a
function. What it calls is listed in `Call`, and what the system calls for an entry return goes with
the entry, since each is made at most once for it. What is read or written outside of a buffer ends
the model.
-/

namespace Gufi.Descend

open Swap

section Input

def MAXPATH : ℕ := 4096

/-- The names that are skipped: those of a file in addition to `.` and `..`. -/
def setupDirectorySkip (lines : List Bytes) : Trie UInt8 :=
  ((lines.map fun line => line.rdropWhile fun c => c = 13 ∨ c = 10).filter fun line =>
    line ≠ []).foldl Trie.insert ((Trie.alloc.insert [46]).insert [46, 46])

/-- The options, with the lines of the file of names to skip. -/
structure Input where
  minLevel : UInt64
  maxLevel : UInt64
  subdirLimit : UInt64
  compress : Bool
  processXattrs : Bool
  skipFile : List Bytes

def Input.skip (ins : Input) : Trie UInt8 := setupDirectorySkip ins.skipFile

/-- `d_type` -/
inductive DType
  | unknown
  | fifo
  | chr
  | dir
  | blk
  | reg
  | lnk
  | sock
deriving DecidableEq

structure Dirent where
  ino : UInt64
  type : DType
  name : Bytes

/-- What `readlink` writes without a NUL. -/
structure LinkTarget where
  target : Bytes
  fits : target.length ≤ MAXPATH

/-- An entry that `readdir` returns, and what the calls for it will return. -/
structure Observed where
  dirent : Dirent
  lstat : Option (Stat × Int64)
  readlink : Option LinkTarget
  listxattr : Option NameList
  getxattr : ℕ → Option XattrValue

end Input

section Items

/-- The library, and the blocks that are allocated for new items and in `compress_struct`. -/
structure Memory where
  zlib : Zlib
  calloc : Malloc
  malloc : Malloc
  realloc : Malloc

/-- `struct work` with the name that it points to. -/
structure Named where
  work : Work
  name : Bytes

def Named.bytes (w : Named) : Bytes := Work.layout.encode w.work ++ (w.name ++ [0])

def Named.block (mem : Memory) (w : Named) : Mem := mem.calloc.filled w.bytes.length w.bytes

def zeroWork : Work :=
  ⟨⟨0, 0, 0⟩, ⟨0, 0, 0⟩, ⟨0, 0, 0⟩, 0, 0, 0, 0, 0,
    ⟨0, 0, 0, 0, 0, 0, 0, 0, 0, 0, ⟨0, 0⟩, ⟨0, 0⟩, ⟨0, 0⟩⟩, 0, 0, 0, 0, 0, 0⟩

def newWorkWithName (mem : Memory) (dirname basename : Bytes) : Named :=
  let nameTotal := dirname.length + 1 + basename.length
  let name := if dirname.length = 0 then basename else dirname ++ 47 :: basename
  { name := name
    work := { zeroWork with
      name := (mem.calloc.block (Work.layout.size + nameTotal + 1)).addr +
        UInt64.ofNat Work.layout.size
      nameLen := UInt64.ofNat name.length
      basenameLen := UInt64.ofNat basename.length } }

def S_IFMT : UInt32 := 0o170000
def S_IFDIR : UInt32 := 0o040000
def S_IFLNK : UInt32 := 0o120000
def S_IFREG : UInt32 := 0o100000

def STATX_CALLED : UInt32 := 2

/-- `lstat_wrapper` does not call `statx` a second time. -/
def lstatWrapper (lstat : Option (Stat × Int64)) (work : Work) : Option Work :=
  if work.statCalled ≠ 0 then some work
  else lstat.map fun (st, crtime) =>
    { work with statuso := st, crtime := crtime, statCalled := STATX_CALLED }

def setMode (work : Work) (mode : UInt32) : Work :=
  { work with statuso := { work.statuso with mode := mode } }

def trySkipLstat (entry : Dirent) (lstat : Option (Stat × Int64)) (work : Work) : Option Work :=
  let work := { work with statuso := { work.statuso with ino := entry.ino } }
  match entry.type with
  | .dir => some (setMode work S_IFDIR)
  | .lnk => some (setMode work S_IFLNK)
  | .reg => some (setMode work S_IFREG)
  | .fifo | .sock | .chr | .blk => some work
  | .unknown => lstatWrapper lstat work

theorem trySkipLstat_keeps {entry : Dirent} {lstat : Option (Stat × Int64)} {w w' : Work}
    (h : trySkipLstat entry lstat w = some w') :
    w'.name = w.name ∧ w'.compressed = w.compressed ∧ w'.nameLen = w.nameLen := by
  rw [trySkipLstat] at h
  cases hentry : entry.type with
  | unknown =>
      rw [hentry] at h
      dsimp only at h
      rw [lstatWrapper] at h
      split at h
      · cases h
        exact ⟨rfl, rfl, rfl⟩
      · obtain ⟨st, -, rfl⟩ := Option.map_eq_some_iff.mp h
        exact ⟨rfl, rfl, rfl⟩
  | _ =>
      rw [hentry] at h
      cases h
      exact ⟨rfl, rfl, rfl⟩

/-- `struct entry_data`. The name of the link is in a buffer of its own length. -/
structure EntryData where
  parentFd : ℤ
  type : UInt8
  linkname : Bytes
  xattrs : Xattrs

def zeroEntryData : EntryData := ⟨0, 0, List.replicate MAXPATH 0, xattrsSetup⟩

/-- The name of the link, which is ended with a NUL at the index that `readlink` returns. -/
def EntryData.readLink (ed : EntryData) (readlink : Option LinkTarget) : Option EntryData :=
  let (linkname, linkLen) : Bytes × ℤ :=
    match readlink with
    | none => (ed.linkname, -1)
    | some l => (l.target ++ ed.linkname.drop l.target.length, l.target.length)
  if 0 ≤ linkLen ∧ linkLen < linkname.length then
    some { ed with linkname := linkname.set linkLen.toNat 0 }
  else none

end Items

section Program

inductive Call
  | enqueue (work : Mem)
  | enqueueSwappable (copy : Mem)
  | processdir (work : Mem)
  | processnondir (child : Named) (ed : EntryData)

/-- `struct descend_counters` -/
structure Counters where
  dirs : ℕ
  dirsInsitu : ℕ
  nondirs : ℕ
  nondirsProcessed : ℕ
deriving DecidableEq

/-- The arguments of `descend` besides the directory. -/
structure Arguments where
  ins : Input
  mem : Memory
  dFd : ℤ
  skipDb : Bool
  wrapDir : Option (Mem → Mem)
  processdir : Bool
  processnondir : Bool

variable (args : Arguments) (work : Named)

/-- The work item of a subdirectory that is put into the queue. -/
def enqueueChild (child : Named) : Call :=
  match args.wrapDir with
  | some wrapDir => .enqueue (wrapDir (child.block args.mem))
  | none => .enqueueSwappable (compressStruct args.mem.zlib args.mem.malloc args.mem.realloc
      args.ins.compress (child.block args.mem) child.bytes.length)

/-- The work item of a subdirectory that is processed on the spot. -/
def processChild (child : Named) : Call :=
  let child :=
    { child with work.recursionLevel := work.work.recursionLevel + 1 }
  match args.wrapDir with
  | some wrapDir => .processdir (wrapDir (child.block args.mem))
  | none => .processdir (child.block args.mem)

/-- What is done with a directory. -/
def descendDir (child : Named) (ctrs : Counters) : List Call × Counters :=
  if work.work.level + 1 ≤ args.ins.maxLevel then
    if args.processdir then
      if args.ins.subdirLimit = 0 ∨ ctrs.dirs < args.ins.subdirLimit.toNat then
        ([enqueueChild args child], { ctrs with dirs := ctrs.dirs + 1 })
      else ([processChild args work child],
        { ctrs with dirsInsitu := ctrs.dirsInsitu + 1, dirs := ctrs.dirs + 1 })
    else ([], { ctrs with dirs := ctrs.dirs + 1 })
  else ([], ctrs)

/-- What is done with a file or a link. -/
def descendNondir (o : Observed) (child : Named) (ed : EntryData) (ctrs : Counters) :
    Option (List Call × Counters) :=
  if args.ins.minLevel ≤ work.work.level then
    let ctrs := { ctrs with nondirs := ctrs.nondirs + 1 }
    if args.processnondir then
      let xattrs := if args.ins.processXattrs then
        xattrsGet o.listxattr o.getxattr xattrsSetup else some ed.xattrs
      xattrs.map fun xattrs =>
        ([.processnondir child { ed with xattrs := xattrs, parentFd := args.dFd }],
          { ctrs with nondirsProcessed := ctrs.nondirsProcessed + 1 })
    else some ([], ctrs)
  else some ([], ctrs)

/-- The name is in the trie, or it is that of the database. -/
def skips (d : Dirent) : Bool :=
  args.ins.skip.search d.name || (args.skipDb && d.name == dbname)

/-- The item of an entry, if its type can be found out. -/
def childOf (o : Observed) : Option Named :=
  let child := newWorkWithName args.mem work.name o.dirent.name
  (trySkipLstat o.dirent o.lstat child.work).map fun childWork =>
    { child with work := { childWork with
      origRoot := work.work.origRoot
      basenameLen := UInt64.ofNat o.dirent.name.length
      level := work.work.level + 1
      rootParent := work.work.rootParent
      rootBasenameLen := work.work.rootBasenameLen
      pinode := work.work.statuso.ino.toInt64 } }

/-- One run through the loop. -/
def descendEntry (o : Observed) (ctrs : Counters) : Option (List Call × Counters) :=
  if skips args o.dirent then some ([], ctrs)
  else
    match childOf args work o with
    | none => some ([], ctrs)
    | some child =>
        let ed : EntryData := { zeroEntryData with parentFd := -1 }
        let type := child.work.statuso.mode &&& S_IFMT
        if type = S_IFDIR then some (descendDir args work child ctrs)
        else if type = S_IFLNK then
          ({ ed with type := 108 } : EntryData).readLink o.readlink |>.bind fun ed =>
            descendNondir args work o child ed ctrs
        else if type = S_IFREG then descendNondir args work o child { ed with type := 102 } ctrs
        else some ([], ctrs) -- other types are not stored

def descendLoop : List Observed → Counters → Option (List Call × Counters)
  | [], ctrs => some ([], ctrs)
  | o :: entries, ctrs =>
      (descendEntry args work o ctrs).bind fun (calls, ctrs) =>
        (descendLoop entries ctrs).map fun (rest, ctrs) => (calls ++ rest, ctrs)

def descend (entries : List Observed) : Option (List Call × Counters) :=
  if work.work.level ≤ args.ins.maxLevel then descendLoop args work entries ⟨0, 0, 0, 0⟩
  else some ([], ⟨0, 0, 0, 0⟩)

end Program

end Gufi.Descend
