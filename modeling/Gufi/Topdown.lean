import Gufi.Run
import Gufi.TreeSummary

/-!
# Runs of gufi_rollup_topdown

The walk stops at the directories that are marked as able to roll up, and all directories below
such a target are listed. Afterwards every target is cleaned, and each directory below it is
copied by a task of its own into one of the target's staging databases, of which the first is the
target's `db.db`. A task copies the tables and then, under the target's lock, one external xattr
database after the other straight into the target's. The task that ends last merges the other
staging databases into `db.db`.

No two tasks write to one staging database at a time, and each of them waits for its turn in any
order. A step is a task's copy of the tables, its copy of one external database, its end, or the
merge. The row name is put into the statement between single quotes as it is; a task whose name
holds a single quote runs other statements than those given here, and has no step.
-/

namespace Gufi

open SqlTable

structure TopdownConfig where
  entriesLimit : ℕ
  minLevel : ℕ
  maxthreads : ℕ
  umask : ℕ

section FindTop

/-- `SELECT canrollup, isrolledup FROM summary WHERE isroot == 1`. -/
def getRollup (db : Db) : Bool :=
  (db.rootRows.map (·.canrollup)).getLastD false

/-- `SELECT totfiles + totlinks FROM summary WHERE isroot == 1`. -/
def entriesBefore (db : Db) : ℕ :=
  (db.rootRows.map fun s => s.totfiles + s.totlinks).getLastD 0

/-- The totals of the rows of `treesummary` that are those of the directory. -/
def entriesAfter (db : Db) : ℤ :=
  ((db.ownTreesummary.map fun row => Sums.ofCols row.cols).map fun sums =>
    sums.totfiles + sums.totlinks).getLastD 0

inductive FindTop
  | descend
  | top
  | error
deriving DecidableEq

/-- `find_top` on one directory. -/
def findTop (cfg : TopdownConfig) (level : ℕ) (db : Option Db) : FindTop :=
  if level < cfg.minLevel then .descend
  else match db with
    | none => .descend
    | some db =>
        if cfg.entriesLimit ≠ 0 ∧ cfg.entriesLimit < entriesBefore db then .descend
        else if cfg.entriesLimit ≠ 0 ∧ db.treesummary.isNone then .error
        else if cfg.entriesLimit ≠ 0 ∧ (cfg.entriesLimit : ℤ) < entriesAfter db then .descend
        else if getRollup db then .top
        else .descend

mutual

/-- The targets of a tree, whose root is at the level. -/
def DirTree.tops (cfg : TopdownConfig) (ix : Index) : ℕ → DirTree → List DirTree
  | l, .node p cs =>
      match findTop cfg l (ix p).db with
      | .top => [.node p cs]
      | .descend => topsList cfg ix (l + 1) cs
      | .error => []

def DirTree.topsList (cfg : TopdownConfig) (ix : Index) : ℕ → List DirTree → List DirTree
  | _, [] => []
  | l, c :: cs => tops cfg ix l c ++ topsList cfg ix l cs

end

variable {cfg : TopdownConfig} {ix : Index}

theorem DirTree.topsList_eq (l : ℕ) (cs : List DirTree) :
    DirTree.topsList cfg ix l cs = cs.flatMap (DirTree.tops cfg ix l) := by
  induction cs with
  | nil => rfl
  | cons c cs ih => rw [topsList, ih, List.flatMap_cons]

theorem DirTree.mem_subtrees_of_mem_tops {t top : DirTree} {l : ℕ} (h : top ∈ t.tops cfg ix l) :
    top ∈ t.subtrees := by
  induction t using DirTree.induct generalizing l with
  | node p cs ih =>
      rw [tops] at h
      split at h
      · rw [List.mem_singleton.mp h]
        exact self_mem_subtrees _
      · rw [topsList_eq] at h
        obtain ⟨c, hc, htop⟩ := List.mem_flatMap.mp h
        exact subtrees_subset_of_mem (subdir_mem_subtrees (self_mem_subtrees _) hc) (ih c hc htop)
      · cases h

end FindTop

section Copy

/-- `rollup_init` with the path of `db.db` in place of that of the directory: the files it looks
for are below a file, which is an error other than a missing file. -/
def topdownInit (own : Dir) : Dir × Bool :=
  match own.db with
  | none => (own, false)
  | some db =>
      if db.rolledXattrDbs = [] then (rollupInit own, true)
      else (own.setDb { db with pentriesRollup := [], summary := db.rootRows, xattrsRollup := [] },
        false)

/-- The template has all tables, also `treesummary`, and no rows. -/
def stagingDb : Db where
  entries := []
  summary := []
  pentriesRollup := []
  treesummary := some []
  xattrsPwd := []
  xattrsRollup := []
  externalDbsPwd := []
  externalDbsRollup := []

/-- `db.db.%zu`. -/
def stagingName (i : ℕ) : Bytes := dbname ++ 46 :: decimal i

/-- The path of the directory from the target's name on. -/
def rolledupPath (top dir : DirTree) : Bytes :=
  dir.path.drop (top.path.length - top.name.length)

section Merge

variable (flt : ChildFaults) (src db : Db)

def mergeSummary : Db × Bool :=
  let res := insertSelect flt.summary db.summary src.summary
  ({ db with summary := res.1 }, res.2)

/-- The insert into `external_dbs_rollup`, which has a primary key. -/
def mergeExternalDbs : Db × Bool :=
  match flt.externalDbs, insertUnique ExternalDb.key db.externalDbsRollup src.externalDbs with
  | none, some rows => ({ db with externalDbsRollup := rows }, true)
  | _, _ => (db, false)

/-- The insert statements of one round of the loop of `rollup_merge`. -/
def mergeStaging : Db × Bool :=
  thenIfOk (mergeSummary flt src db) fun db =>
  thenIfOk (insertPentries flt src db) fun db =>
  thenIfOk (insertXattrs flt src db) fun db =>
  mergeExternalDbs flt src db

end Merge

/-- One round of the loop, with whether all statements so far succeeded. A staging database that
could not be opened is passed over, and a failing round is not the last. -/
def mergeRound (flt : DirFaults) (staging : ℕ → Option Db) (res : Db × Bool) (i : ℕ) : Db × Bool :=
  match staging i with
  | none => res
  | some src =>
      if (flt i).attach then (res.1, false)
      else
        let merged := mergeStaging (flt i) src res.1
        (merged.1, res.2 && merged.2)

def rollupMerge (flt : DirFaults) (staging : ℕ → Option Db) (threadsUsed : ℕ) (db : Db) :
    Db × Bool :=
  (List.range' 1 (threadsUsed - 1)).foldl (mergeRound flt staging) (db, true)

/-- The tasks of a target: those that wait for a staging database, the one that runs on it with
the external databases it has yet to copy, and how many have not ended. -/
structure Copy where
  threadsUsed : ℕ
  remaining : ℕ
  waiting : ℕ → List DirTree
  running : ℕ → Option (DirTree × List ExternalDb)
  staging : ℕ → Option Db
  merged : Bool

/-- A target that is not copied into. -/
def Copy.skipped : Copy := ⟨0, 0, fun _ => [], fun _ => none, fun _ => none, true⟩

/-- The tasks for the listed directories, which get the staging databases in turn. A staging
database cannot be created where a subdirectory has its name. -/
def Copy.enqueue (flt : DirFaults) (maxthreads : ℕ) (top : DirTree) (dirs : List DirTree) :
    Copy where
  threadsUsed := min dirs.length maxthreads
  remaining := dirs.length
  waiting i := (dirs.zipIdx.filter fun d => d.2 % min dirs.length maxthreads = i).map (·.1)
  running _ := none
  staging i :=
    if (flt i).attach = true ∨ ∃ c ∈ top.subdirs, c.name = stagingName i then none
    else some stagingDb
  merged := dirs.isEmpty

end Copy

structure TopdownState where
  ix : Index
  copies : Bytes → Option Copy
  failed : Bytes → Bool

namespace TopdownState

def init (ix : Index) : TopdownState := ⟨ix, fun _ => none, fun _ => false⟩

section Functions

variable (s : TopdownState) (top : DirTree)

/-- The target after a step: its directory, its tasks, and whether a statement failed. -/
def set (own : Dir) (copy : Copy) (ok : Bool) : TopdownState where
  ix := Function.update s.ix top.path own
  copies := Function.update s.copies top.path (some copy)
  failed := Function.update s.failed top.path (s.failed top.path || !ok)

/-- `enqueue_rollup_copy`. -/
def enqueueRollupCopy (cfg : TopdownConfig) (flt : DirFaults) (dirs : List DirTree) :
    TopdownState :=
  let init := topdownInit (s.ix top.path)
  if init.2 then s.set top init.1 (Copy.enqueue flt cfg.maxthreads top dirs) true
  else s.set top init.1 Copy.skipped false

/-- The database a task writes to. -/
def tdb (copy : Copy) (i : ℕ) : Option Db :=
  if i = 0 then (s.ix top.path).db else copy.staging i

/-- A task has copied the tables. It goes on with the external databases of the directory. -/
def setTdb (copy : Copy) (i : ℕ) (db : Db) (dir : DirTree) (rows : List ExternalDb) (ok : Bool) :
    TopdownState :=
  let copy := { copy with running := Function.update copy.running i (some (dir, rows)) }
  if i = 0 then s.set top ((s.ix top.path).setDb db) copy ok
  else
    s.set top (s.ix top.path)
      { copy with staging := Function.update copy.staging i (some db) } ok

/-- `copy_to_top` up to the external databases. -/
def copyToTop (flt : ChildFaults) (copy : Copy) (i : ℕ) (dir : DirTree) : TopdownState :=
  match s.tdb top copy i, s.ix.attachDb (sqliteUriPath dir.path), flt.attach with
  | some db, some sub, false =>
      let res := rollupOneSubdir flt (fun _ _ => rolledupPath top dir) sub db
      s.setTdb top copy i res.1 dir (if res.2 then sub.externalXattrs else []) res.2
  | _, _, _ =>
      s.set top (s.ix top.path)
        { copy with running := Function.update copy.running i (some (dir, [])) } false

/-- The callback for one external database. -/
def copyExternal (cfg : TopdownConfig) (flt : Option ExternalFault) (copy : Copy) (i : ℕ)
    (dir : DirTree) (row : ExternalDb) (rows : List ExternalDb) : TopdownState :=
  let res := rollupExternalXattrs cfg.umask (s.ix.attachXattr top.path) flt dir.path
    (s.ix top.path) row
  let running := Function.update copy.running i (some (dir, if res.2 then rows else []))
  s.set top res.1 { copy with running } res.2

/-- The end of `copy_to_top`. -/
def endCopy (copy : Copy) (i : ℕ) : TopdownState :=
  s.set top (s.ix top.path)
    { copy with
      running := Function.update copy.running i none
      remaining := copy.remaining - 1 } true

/-- `rollup_merge`. -/
def merge (flt : DirFaults) (copy : Copy) : TopdownState :=
  match (s.ix top.path).db with
  | none => s.set top (s.ix top.path) { copy with merged := true } false
  | some db =>
      let res := rollupMerge flt copy.staging copy.threadsUsed db
      s.set top ((s.ix top.path).setDb res.1) { copy with merged := true } res.2

end Functions

end TopdownState

section Steps

variable (cfg : TopdownConfig) (F : ChildFaults → Prop) (root : DirTree) (ix : Index)

/-- A step of a run over the index. The targets were found before the first is enqueued. -/
inductive TopdownStep : TopdownState → TopdownState → Prop
  | enqueue {s : TopdownState} {top : DirTree} {dirs : List DirTree} {flt : DirFaults}
      (htop : top ∈ root.tops cfg ix 0) (hnew : s.copies top.path = none)
      (hdirs : (top :: dirs).Perm top.subtrees) (hflt : ∀ i, F (flt i)) :
      TopdownStep s (s.enqueueRollupCopy top cfg flt dirs)
  | copy {s : TopdownState} {top dir : DirTree} {copy : Copy} {i : ℕ} {before after : List DirTree}
      {flt : ChildFaults} (htop : top ∈ root.tops cfg ix 0) (hcopy : s.copies top.path = some copy)
      (hidle : copy.running i = none) (hwaiting : copy.waiting i = before ++ dir :: after)
      (hquote : 39 ∉ rolledupPath top dir) (hflt : F flt) :
      TopdownStep s (s.copyToTop top flt
        { copy with waiting := Function.update copy.waiting i (before ++ after) } i dir)
  | external {s : TopdownState} {top dir : DirTree} {copy : Copy} {i k : ℕ} {row : ExternalDb}
      {rows : List ExternalDb} {flt : ChildFaults} (htop : top ∈ root.tops cfg ix 0)
      (hcopy : s.copies top.path = some copy)
      (hrunning : copy.running i = some (dir, row :: rows)) (hflt : F flt) :
      TopdownStep s (s.copyExternal top cfg (flt.external k) copy i dir row rows)
  | endCopy {s : TopdownState} {top dir : DirTree} {copy : Copy} {i : ℕ}
      (htop : top ∈ root.tops cfg ix 0) (hcopy : s.copies top.path = some copy)
      (hrunning : copy.running i = some (dir, [])) : TopdownStep s (s.endCopy top copy i)
  | merge {s : TopdownState} {top : DirTree} {copy : Copy} {flt : DirFaults}
      (htop : top ∈ root.tops cfg ix 0) (hcopy : s.copies top.path = some copy)
      (hremaining : copy.remaining = 0) (hmerged : copy.merged = false)
      (hflt : ∀ i, F (flt i)) : TopdownStep s (s.merge top flt copy)

end Steps

end Gufi
