import Gufi.Schema

/-!
# Directories that are duplicated at the same time

`gufi_trace2index` calls `dupdir` for each directory of a trace, in any order and on several
threads. A call whose parent is missing makes the directories above it with its own permissions. The
calls `mkdir`, `chmod` and `chown` of the threads interleave, and the process may do all of them.
-/

namespace Gufi.Dupdir

section Calls

abbrev Path := List Bytes

structure Attrs where
  mode : UInt32
  uid : UInt32
  gid : UInt32
deriving DecidableEq

inductive Node
  | dir (attrs : Attrs)
  | other
deriving DecidableEq

/-- What is at each path. -/
abbrev Fs := Path → Option Node

inductive Errno
  | exist
  | noent
  | notdir

def isDir (fs : Fs) (path : Path) : Bool :=
  match fs path with
  | some (.dir _) => true
  | _ => false

/-- The directories above are looked up from the top, and nothing is below a file. `made` gives the
permissions and the owner of a new directory, which depend on the mode, the process and the
directory above. -/
def mkdir (made : Fs → Path → UInt32 → Attrs) (fs : Fs) (path : Path) (mode : UInt32) :
    Except Errno Fs :=
  let above := path.dropLast.inits
  if above.any fun q => fs q = some .other then .error .notdir
  else if above.any fun q => fs q = none then .error .noent
  else if fs path ≠ none then .error .exist
  else .ok (Function.update fs path (some (.dir (made fs path mode))))

/-- The bits of the type are left out. -/
def chmod (fs : Fs) (path : Path) (mode : UInt32) : Option Fs :=
  match fs path with
  | some (.dir attrs) =>
    some (Function.update fs path (some (.dir { attrs with mode := mode &&& 0o7777 })))
  | some .other => some fs
  | none => none

def chown (fs : Fs) (path : Path) (uid gid : UInt32) : Option Fs :=
  match fs path with
  | some (.dir attrs) =>
    some (Function.update fs path (some (.dir { attrs with uid := uid, gid := gid })))
  | some .other => some fs
  | none => none

end Calls

section Threads

/-- The arguments of `dupdir`. -/
structure Task where
  path : Path
  mode : UInt32
  uid : UInt32
  gid : UInt32
deriving DecidableEq

/-- The permissions that the directory should have. -/
def Task.attrs (t : Task) : Attrs := ⟨t.mode &&& 0o7777, t.uid, t.gid⟩

/-- The call that is next. Those of the loop in `mkpath` have the number of the names of the
ancestor. -/
inductive Pc
  | mkdir
  | lstat
  | pathMkdir (k : ℕ)
  | pathChmod (k : ℕ)
  | pathChown (k : ℕ)
  | lastMkdir
  | chmod
  | chown
  | done
deriving DecidableEq

/-- A `dupdir` on its way, and whether one of its calls failed in a way that it does not handle. -/
structure Call where
  pc : Pc
  failed : Bool
deriving DecidableEq

def Task.nextPath (t : Task) (k : ℕ) : Pc :=
  if k < t.path.length then .pathMkdir k else .lastMkdir

variable (made : Fs → Path → UInt32 → Attrs)

/-- The next call of a `dupdir`. `mkpath` returns at an error, and what it returns is not looked
at, as are the results of `chmod` and `chown`. -/
def Task.call (t : Task) (fs : Fs) (c : Call) : Option (Fs × Call) :=
  match c.pc with
  | .mkdir =>
    match Dupdir.mkdir made fs t.path t.mode with
    | .ok fs' => some (fs', ⟨.chmod, c.failed⟩)
    | .error .noent => some (fs, ⟨t.nextPath 1, c.failed⟩)
    | .error .exist => some (fs, ⟨.lstat, c.failed⟩)
    | .error .notdir => some (fs, ⟨.done, true⟩)
  | .lstat => if isDir fs t.path then some (fs, ⟨.chmod, c.failed⟩) else some (fs, ⟨.done, true⟩)
  | .pathMkdir k =>
    match Dupdir.mkdir made fs (t.path.take k) t.mode with
    | .ok fs' => some (fs', ⟨.pathChmod k, c.failed⟩)
    | .error .exist => some (fs, ⟨t.nextPath (k + 1), c.failed⟩)
    | .error _ => some (fs, ⟨.chmod, true⟩)
  | .pathChmod k =>
    match Dupdir.chmod fs (t.path.take k) t.mode with
    | some fs' => some (fs', ⟨.pathChown k, c.failed⟩)
    | none => some (fs, ⟨.pathChown k, true⟩)
  | .pathChown k =>
    match Dupdir.chown fs (t.path.take k) t.uid t.gid with
    | some fs' => some (fs', ⟨t.nextPath (k + 1), c.failed⟩)
    | none => some (fs, ⟨t.nextPath (k + 1), true⟩)
  | .lastMkdir =>
    match Dupdir.mkdir made fs t.path t.mode with
    | .ok fs' => some (fs', ⟨.chmod, c.failed⟩)
    | .error .exist => some (fs, ⟨.chmod, c.failed⟩)
    | .error _ => some (fs, ⟨.chmod, true⟩)
  | .chmod =>
    match Dupdir.chmod fs t.path t.mode with
    | some fs' => some (fs', ⟨.chown, c.failed⟩)
    | none => some (fs, ⟨.chown, true⟩)
  | .chown =>
    match Dupdir.chown fs t.path t.uid t.gid with
    | some fs' => some (fs', ⟨.done, c.failed⟩)
    | none => some (fs, ⟨.done, true⟩)
  | .done => none

structure State where
  fs : Fs
  calls : Task → Call

def State.start (fs : Fs) : State := ⟨fs, fun _ => ⟨.mkdir, false⟩⟩

variable (tasks : List Task)

/-- One of the tasks makes its next call. -/
inductive Step : State → State → Prop
  | call (s : State) (t : Task) (ht : t ∈ tasks) (fs : Fs) (c : Call)
      (h : t.call made s.fs (s.calls t) = some (fs, c)) :
      Step s ⟨fs, Function.update s.calls t c⟩

/-- All calls have finished without error. -/
def State.Finished (s : State) : Prop := ∀ t ∈ tasks, s.calls t = ⟨.done, false⟩

end Threads

section Statement

/-- The root is a directory, and so is what something is in. -/
structure WellFormed (fs : Fs) : Prop where
  root : isDir fs []
  above : ∀ path n, fs (path ++ [n]) ≠ none → isDir fs path

/-- Whatever the order of the calls, directories end with their own permissions. -/
def KeepOwn (made : Fs → Path → UInt32 → Attrs) (tasks : List Task) (fs : Fs) : Prop :=
  ∀ s, Relation.ReflTransGen (Step made tasks) (.start fs) s → s.Finished tasks →
    ∀ t ∈ tasks, s.fs t.path = some (.dir t.attrs)

end Statement

end Gufi.Dupdir
