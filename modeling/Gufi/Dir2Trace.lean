import Gufi.Reindex
import Gufi.Stanzas
import Gufi.TaskStreams

/-!
# Writing a trace

`gufi_dir2trace` writes the line of a directory and then goes over its entries. Subdirectories
become tasks of their own, until there are too many: those are processed on the spot, in the middle
of the directory. Each thread writes to a file of its own, or all write to `stdout`. There the lines
of a directory are kept in a buffer, except for those of external databases.
-/

namespace Gufi.Dir2Trace

open TaskStreams

section Tree

/-- A line of `external.gufi`, what `realpath` makes of it, and whether it is a database. -/
structure ExternalLine where
  line : Bytes
  realpath : Option Bytes
  isDb : Bool
deriving DecidableEq

/-- What is read of a directory that can be opened. -/
structure Opened where
  statuso : Trace.Stat
  crtime : Int64
  xattrs : List Trace.Xattr
deriving DecidableEq

/-- What `readdir` still returns. A directory that cannot be opened, or for which `lstat` fails, has
`none`. -/
inductive Listing
  | done
  | nondir (d : Dirent) (externals : List ExternalLine) (rest : Listing)
  | subdir (name : Bytes) (opened : Option Opened) (children : Listing) (rest : Listing)
deriving DecidableEq

/-- A directory of the tree as a work item. -/
structure SourceDir where
  path : Bytes
  basenameLen : ℕ
  pinode : Int64
  level : ℕ
  opened : Option Opened
  listing : Listing
deriving DecidableEq

/-- A line of the trace with the directory for which it is written. -/
inductive TraceLine
  | directory (dir : SourceDir) (work : Trace.Work) (ed : Trace.EntryData)
  | entry (dir : SourceDir) (work : Trace.Work) (ed : Trace.EntryData)
  | external (dir : SourceDir) (path : Bytes)
deriving DecidableEq

def TraceLine.isDirectory : TraceLine → Bool
  | .directory .. => true
  | _ => false

def TraceLine.isExternal : TraceLine → Bool
  | .external .. => true
  | _ => false

end Tree

section Lines

/-- The options of the program. -/
structure TraceConfig where
  options : IndexOptions
  toStdout : Bool
  minLevel : ℕ
  maxLevel : ℕ
  subdirLimit : ℕ
  validate : Bool

variable (cfg : TraceConfig) (dir : SourceDir)

def SourceDir.work (o : Opened) : Trace.Work :=
  ⟨dir.path, dir.basenameLen, o.statuso, o.crtime, dir.pinode⟩

/-- The work item of a subdirectory. -/
def SourceDir.child (work : Trace.Work) (name : Bytes) (opened : Option Opened)
    (children : Listing) : SourceDir :=
  ⟨dir.path ++ 47 :: name, name.length, work.statuso.ino.toInt64, dir.level + 1, opened, children⟩

def TraceConfig.Processes (level : ℕ) : Prop := cfg.minLevel ≤ level ∧ level ≤ cfg.maxLevel

instance (level : ℕ) : Decidable (cfg.Processes level) := inferInstanceAs (Decidable (_ ∧ _))

def externalUserFile : Bytes := [101, 120, 116, 101, 114, 110, 97, 108, 46, 103, 117, 102, 105]

/-- The paths for which `external_read_file` calls back. The file is read up to an empty line. -/
def externalReadFile (lines : List ExternalLine) : List Bytes :=
  (lines.takeWhile fun x => x.line ≠ []).filterMap fun x =>
    let path := if x.line.head? = some 47 then some (Trace.cString x.line) else x.realpath
    path.filter fun _ => !cfg.validate || x.isDb

/-- The line of a file or a link. -/
def entryLines (work : Trace.Work) (d : Dirent) : List TraceLine :=
  match direntItem cfg.options work d with
  | some (entry, ed) => [.entry dir entry ed]
  | none => []

/-- The lines of the databases that a file names. -/
def externalLines (work : Trace.Work) (d : Dirent) (externals : List ExternalLine) :
    List TraceLine :=
  if (direntItem cfg.options work d).isSome ∧ d.name = externalUserFile then
    (externalReadFile cfg externals).map (.external dir)
  else []

def directoryLine (o : Opened) : TraceLine :=
  .directory dir (dir.work o) (directoryData cfg.options o.xattrs)

end Lines

section Program

variable (cfg : TraceConfig)

abbrev TraceAction := Action SourceDir TraceLine

/-- `processdir` around the call of `descend`, which gets the work item and the buffer. -/
def processdirWith (dir : SourceDir)
    (descend : Trace.Work → List TraceLine → List TraceAction × List TraceLine) :
    List TraceAction :=
  match dir.opened with
  | none => []
  | some o =>
    if cfg.Processes dir.level then
      if cfg.toStdout then
        let r := descend (dir.work o) [directoryLine cfg dir o]
        r.1 ++ [.write r.2]
      else .write [directoryLine cfg dir o] :: (descend (dir.work o) []).1
    else (descend (dir.work o) []).1

/-- `process_nondir`: what is written at once, and the buffer. -/
def processNondir (dir : SourceDir) (work : Trace.Work) (buf : List TraceLine) (d : Dirent)
    (externals : List ExternalLine) : List TraceAction × List TraceLine :=
  let external := (externalLines cfg dir work d externals).map fun l => .write [l]
  if cfg.toStdout then (external, buf ++ entryLines cfg dir work d)
  else ((entryLines cfg dir work d).map (fun l => .write [l]) ++ external, buf)

/-- `descend`, with the number of subdirectories so far. -/
def descend (dir : SourceDir) (work : Trace.Work) (dirs : ℕ) (buf : List TraceLine) :
    Listing → List TraceAction × List TraceLine
  | .done => ([], buf)
  | .nondir d externals rest =>
    if dir2indexSkips cfg.options d.name ∨ ¬cfg.Processes dir.level then
      descend dir work dirs buf rest
    else
      let entry := processNondir cfg dir work buf d externals
      let r := descend dir work dirs entry.2 rest
      (entry.1 ++ r.1, r.2)
  | .subdir name opened children rest =>
    if dir2indexSkips cfg.options name ∨ cfg.maxLevel < dir.level + 1 then
      descend dir work dirs buf rest
    else
      let child := dir.child work name opened children
      let r := descend dir work (dirs + 1) buf rest
      if cfg.subdirLimit = 0 ∨ dirs < cfg.subdirLimit then (.enqueue child :: r.1, r.2)
      else
        (processdirWith cfg child (fun work buf => descend child work 0 buf children) ++ r.1, r.2)

/-- `processdir`. -/
def processdir (dir : SourceDir) : List TraceAction :=
  processdirWith cfg dir fun work buf => descend cfg dir work 0 buf dir.listing

/-- The stream of a thread. -/
def TraceConfig.sink {n : ℕ} (i : Fin n) : ℕ := if cfg.toStdout then 0 else i

end Program

section Statement

variable (cfg : TraceConfig) (dir : SourceDir) (work : Trace.Work)

/-- The lines of the files, links and external databases that are left. -/
def Listing.ownLines : Listing → List TraceLine
  | .done => []
  | .nondir d externals rest =>
    (if dir2indexSkips cfg.options d.name then []
      else entryLines cfg dir work d ++ externalLines cfg dir work d externals) ++ rest.ownLines
  | .subdir _ _ _ rest => rest.ownLines

/-- The lines that belong to a directory. -/
def SourceDir.ownLines : List TraceLine :=
  match dir.opened with
  | none => []
  | some o => dir.listing.ownLines cfg dir (dir.work o)

/-- The lines that a line asks for. -/
def TraceLine.body : TraceLine → List TraceLine
  | .directory dir _ _ => dir.ownLines cfg
  | _ => []

/-- The directories below, as far as the program goes. -/
def Listing.reached (dir : SourceDir) (work : Trace.Work) : Listing → List SourceDir
  | .done => []
  | .nondir _ _ rest => rest.reached dir work
  | .subdir name opened children rest =>
    if dir2indexSkips cfg.options name ∨ cfg.maxLevel < dir.level + 1 then rest.reached dir work
    else
      let child := dir.child work name opened children
      child :: (match opened with
        | none => []
        | some o => children.reached child (child.work o)) ++ rest.reached dir work

def SourceDir.reached : List SourceDir :=
  dir :: match dir.opened with
    | none => []
    | some o => dir.listing.reached cfg dir (dir.work o)

/-- No file or link comes after a subdirectory that is processed on the spot. -/
def Listing.LinesFirst (dirs : ℕ) : Listing → Prop
  | .done => True
  | .nondir _ _ rest => rest.LinesFirst dirs
  | .subdir name opened _ rest =>
    if dir2indexSkips cfg.options name ∨ cfg.maxLevel < dir.level + 1 then rest.LinesFirst dirs
    else
      (cfg.subdirLimit ≠ 0 → cfg.subdirLimit ≤ dirs → opened.isSome →
        rest.ownLines cfg dir work = []) ∧ rest.LinesFirst (dirs + 1)

/-- In files, the lines of a directory are written before its subdirectories. On `stdout`, it names
no external databases. -/
def SourceDir.Framed : Prop :=
  ∀ o, dir.opened = some o → cfg.Processes dir.level →
    if cfg.toStdout then ∀ l ∈ dir.ownLines cfg, l.isExternal = false
    else dir.listing.LinesFirst cfg dir (dir.work o) 0

/-- Every directory line is followed by exactly the lines of the directory. -/
abbrev WellFramed (lines : List TraceLine) : Prop :=
  Stanzas.WellFramed TraceLine.isDirectory (TraceLine.body cfg) lines

end Statement

end Gufi.Dir2Trace
