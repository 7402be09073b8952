import Gufi.Index

/-!
# Rolling a directory up into its database

The functions of `rollup.c` and `gufi_rollup.c` on one directory. The directory's own content is
the state; its subdirectories are read through the databases SQLite opens for them. A rollup may
fail at any statement: `ChildFaults` says where, and a failing statement may have inserted any
number of its rows.

Subdirectories are attached read-only, as without `--delete-below`, and every directory is
reprocessed. The directory itself can be stat'ed. The two computations of a `treesummary` row are
parameters: nothing here depends on what they compute from the databases they read.
-/

namespace Gufi

open UnixAccess SqlTable

section Permission

/-- Mode `0005` is o+rx, `0550` ug+rx, `0555` ugo+rx and `0500` u+rx. -/
def checkPairPermissions (parent child : Permissions) : Bool :=
  (parent.mode &&& 0o005 = 0o005 && child.mode &&& 0o005 = 0o005 &&
    parent.uid = child.uid && parent.gid = child.gid) ||
  (parent.mode &&& 0o555 = child.mode &&& 0o555 &&
    parent.uid = child.uid && parent.gid = child.gid) ||
  (parent.mode &&& 0o550 = child.mode &&& 0o550 &&
    parent.uid = child.uid && parent.gid = child.gid) ||
  (parent.mode &&& 0o500 = child.mode &&& 0o500 && parent.uid = child.uid)

theorem uid_eq_of_checkPairPermissions {p c : Permissions}
    (h : checkPairPermissions p c = true) : p.uid = c.uid := by
  simp only [checkPairPermissions, Bool.or_eq_true, Bool.and_eq_true, decide_eq_true_eq] at h
  rcases h with ((⟨⟨_, h⟩, _⟩ | ⟨⟨_, h⟩, _⟩) | ⟨⟨_, h⟩, _⟩) | ⟨_, h⟩ <;> exact h

/-- `SELECT mode, uid, gid FROM summary`: the callback runs for every row, so the permissions of
the last row remain. -/
def getPermissions (db : Db) : Permissions :=
  (db.summary.map (·.perms)).getLastD ⟨0, 0, 0⟩

/-- `SELECT mode, uid, gid, ... FROM summary WHERE isroot == 1`. -/
def getRootPermissions (db : Db) : Permissions :=
  (db.rootRows.map (·.perms)).getLastD ⟨0, 0, 0⟩

/-- `SELECT SUM(totfiles + totlinks) FROM summary`. -/
def getNondirs (db : Db) : ℕ :=
  (db.summary.map fun s => s.totfiles + s.totlinks).sum

/-- `SELECT canrollup, isrolledup FROM summary WHERE isroot == 1`, with the callback. -/
def getIsrolledup (db : Db) : Bool :=
  (db.rootRows.map fun s => s.canrollup && s.isrolledup).getLastD false

end Permission

/-- The result of statements of which the first failing one ends the sequence. -/
def thenIfOk {α : Type*} (res : α × Bool) (f : α → α × Bool) : α × Bool :=
  if res.2 then f res.1 else res

@[simp] theorem thenIfOk_true {α : Type*} (a : α) (f : α → α × Bool) :
    thenIfOk (a, true) f = f a := rfl

@[simp] theorem thenIfOk_false {α : Type*} (a : α) (f : α → α × Bool) :
    thenIfOk (a, false) f = (a, false) := rfl

section Faults

/-- Where copying one external xattr database fails. A failing insert is reported on standard
error only. -/
inductive ExternalFault
  | stat
  | copyTemplate
  | opendb
  | attach
  | insert (n : ℕ)
deriving DecidableEq

/-- Where rolling up one child fails: at its attachment, after some rows of one of the copied
tables, or at the external xattr databases by position. -/
structure ChildFaults where
  attach : Bool := false
  pentries : Option ℕ := none
  summary : Option ℕ := none
  treesummary : Option ℕ := none
  xattrs : Option ℕ := none
  externalDbs : Option ℕ := none
  external : ℕ → Option ExternalFault := fun _ => none

end Faults

section OneSubdir

/-- The copy of a subdirectory's summary row under the given name. -/
def rollupSummaryRow (name : Bytes) (sub : SummaryRow) : SummaryRow :=
  { sub with
    name := name
    depth := sub.depth + 1
    isroot := false
    canrollup := true
    isrolledup := true }

variable (flt : ChildFaults) (rowName : Db → SummaryRow → Bytes) (sub db : Db)

def insertPentries : Db × Bool :=
  let res := insertSelect flt.pentries db.pentriesRollup sub.pentries
  ({ db with pentriesRollup := res.1 }, res.2)

def insertSummary : Db × Bool :=
  let res := insertSelect flt.summary db.summary
    (sub.summary.map fun s => rollupSummaryRow (rowName db s) s)
  ({ db with summary := res.1 }, res.2)

def insertTreesummary : Db × Bool :=
  match db.treesummary, sub.treesummary with
  | some dst, some src =>
      let res := insertSelect flt.treesummary dst src
      ({ db with treesummary := some res.1 }, res.2)
  | _, _ => (db, false)

def insertXattrs : Db × Bool :=
  let res := insertSelect flt.xattrs db.xattrsRollup sub.xattrsAvail
  ({ db with xattrsRollup := res.1 }, res.2)

def insertExternalDbs : Db × Bool :=
  match flt.externalDbs with
  | none =>
      ({ db with externalDbsRollup :=
          insertOrIgnore ExternalDb.key db.externalDbsRollup sub.externalDbs }, true)
  | some n =>
      ({ db with externalDbsRollup :=
          insertOrIgnore ExternalDb.key db.externalDbsRollup (sub.externalDbs.take n) }, false)

/-- The insert statements between `ROLLUP_ONE_SUBDIR_FRONT` and `ROLLUP_ONE_SUBDIR_BACK`. -/
def rollupOneSubdir : Db × Bool :=
  thenIfOk (insertPentries flt sub db) fun db =>
  thenIfOk (insertSummary flt rowName sub db) fun db =>
  thenIfOk (insertTreesummary flt sub db) fun db =>
  thenIfOk (insertXattrs flt sub db) fun db =>
  insertExternalDbs flt sub db

/-- `(SELECT name FROM summary WHERE isroot == 1) || '/' || sub.name`. -/
def bottomupRowName (db : Db) (s : SummaryRow) : Bytes :=
  db.rootName ++ slash :: s.name

end OneSubdir

section ExternalXattrs

/-- The permission bits a new file keeps under the process umask. -/
def applyUmask (umask mode : ℕ) : ℕ :=
  mode &&& (0o777 ^^^ (umask &&& 0o777))

/-- The file `copy_template` creates: opened with mode `0664` and given to `uid` and `gid`. -/
def copyTemplate (umask uid gid : ℕ) : XattrDb where
  perms := ⟨applyUmask umask 0o664, uid, gid⟩
  pwd := []
  rollup := []

/-- What `ATTACH` opens for a raw path, given the directory as changed so far. -/
abbrev AttachXattr := Dir → Bytes → Option XattrDb

/-- The parent's database of the given name, created from the template when it is missing. -/
def ensureXattrDb (umask : ℕ) (flt : Option ExternalFault) (own : Dir) (row : ExternalDb) :
    Dir × Bool :=
  if flt = some .stat then (own, false)
  else match own.xattrDbs row.filename with
    | some _ => (own, true)
    | none =>
        if flt = some .copyTemplate then (own, false)
        else (own.setXattrDb row.filename
          (some (copyTemplate umask row.perms.uid row.perms.gid)), true)

/-- `INSERT INTO xattrs_rollup SELECT * FROM <child>.xattrs_avail` in the parent's database. -/
def appendXattrRollup (own : Dir) (f : Bytes) (rows : List XattrRow) : Dir :=
  own.setXattrDb f ((own.xattrDbs f).map fun x => { x with rollup := x.rollup ++ rows })

/-- Copy one external xattr database of the child into the parent's of the same name. -/
def rollupExternalXattrs (umask : ℕ) (attach : AttachXattr) (flt : Option ExternalFault)
    (child : Bytes) (own : Dir) (row : ExternalDb) : Dir × Bool :=
  thenIfOk (ensureXattrDb umask flt own row) fun own =>
    if flt = some .opendb ∨ flt = some .attach then (own, false)
    else match attach own (child ++ slash :: row.filename) with
      | none => (own, false)
      | some x =>
          match flt with
          | some (.insert n) => (appendXattrRollup own row.filename (x.avail.take n), true)
          | _ => (appendXattrRollup own row.filename x.avail, true)

/-- The callback for each row of `SELECT filename, uid, gid FROM subdir.external_dbs`. -/
def rollupExternals (umask : ℕ) (attach : AttachXattr) (flt : ℕ → Option ExternalFault)
    (child : Bytes) : ℕ → List ExternalDb → Dir → Dir × Bool
  | _, [], own => (own, true)
  | k, row :: rows, own =>
      thenIfOk (rollupExternalXattrs umask attach (flt k) child own row)
        (rollupExternals umask attach flt child (k + 1) rows)

end ExternalXattrs

section Cleanup

/-- Empty the rolled-up rows of one xattr database and remove it when nothing else is in it. -/
def xattrsRollupCleanup (own : Dir) (f : Bytes) : Dir :=
  match own.xattrDbs f with
  | none => own
  | some x =>
      if x.pwd = [] then own.setXattrDb f none else own.setXattrDb f (some { x with rollup := [] })

/-- `SELECT filename FROM external_dbs_rollup WHERE type == 'xattrs'`. -/
def Db.rolledXattrDbs (db : Db) : List Bytes :=
  (db.externalDbsRollup.filter (·.type = .xattrs)).map (·.filename)

/-- The tables after `ROLLUP_CLEANUP`, whose last statement sets the two flags. -/
def Db.rollupCleanup (isrolledup : Bool) (db : Db) : Db :=
  { db with
    pentriesRollup := []
    summary := db.rootRows.map fun s => { s with canrollup := true, isrolledup := isrolledup }
    xattrsRollup := []
    externalDbsRollup := [] }

/-- `ROLLUP_CLEANUP` with `xattrs_rollup_cleanup` as callback. -/
def rollupCleanup (isrolledup : Bool) (own : Dir) : Dir :=
  match own.db with
  | none => own
  | some db => (db.rolledXattrDbs.foldl xattrsRollupCleanup own).setDb (db.rollupCleanup isrolledup)

/-- The cleanup statement with `isrolledup` already set to 1. -/
def rollupInit (own : Dir) : Dir :=
  rollupCleanup true own

end Cleanup

/-- A subdirectory as its parent's rollup sees it: its path, its database opened by that path and
attached by its escaped path, its in-memory state, and the failures met while copying it. -/
structure Child where
  path : Bytes
  db : Option Db
  attached : Option Db
  rolledup : Bool
  faults : ChildFaults := {}

section DoRollup

/-- The two computations of `bottomup_collect_treesummary`: from the rolled-up tables, or from
the directory's and the children's databases. -/
structure TreeSummaryCode where
  rolledUp : Db → List TreeSummaryRow
  children : Bytes → Db → List (Option Db) → List TreeSummaryRow

/-- Options of `gufi_rollup` and the umask of its process. -/
structure Config where
  entriesLimit : ℕ
  minLevel : ℕ
  umask : ℕ

/-- `DELETE FROM treesummary WHERE inode == ...` followed by the insert of the computed rows. -/
def Db.setTreesummary (db : Db) (rows : List TreeSummaryRow) : Db :=
  { db with treesummary := db.treesummary.map fun old =>
      old.filter (fun x => (db.rootRows.map (·.inode)).head? ≠ some x.inode) ++ rows }

def rollupChildProcess (umask : ℕ) (attach : AttachXattr) (rowName : Db → SummaryRow → Bytes)
    (flt : ChildFaults) (child : Bytes) (sub : Db) (own : Dir) : Dir × Bool :=
  match own.db with
  | none => (own, false)
  | some db =>
      let res := rollupOneSubdir flt rowName sub db
      thenIfOk (own.setDb res.1, res.2)
        (rollupExternals umask attach flt.external child 0 sub.externalXattrs)

/-- Attach one child and copy it. -/
def rollupChild (umask : ℕ) (attach : AttachXattr) (c : Child) (own : Dir) : Dir × Bool :=
  if c.faults.attach then (own, false)
  else match c.attached with
    | none => (own, false)
    | some sub => rollupChildProcess umask attach bottomupRowName c.faults c.path sub own

def rollupChildren (umask : ℕ) (attach : AttachXattr) : List Child → Dir → Dir × Bool
  | [], own => (own, true)
  | c :: cs, own => thenIfOk (rollupChild umask attach c own) (rollupChildren umask attach cs)

/-- The directory afterwards and whether `do_rollup` returned 0. -/
def doRollup (ts : TreeSummaryCode) (umask : ℕ) (attach : AttachXattr) (own : Dir)
    (children : List Child) : Dir × Bool :=
  thenIfOk (rollupChildren umask attach children (rollupInit own)) fun own =>
    match own.db with
    | none => (own, true)
    | some db => (own.setDb (db.setTreesummary (ts.rolledUp db)), true)

end DoRollup

section Ascend

/-- `can_rollup`: -1 when a child's database cannot be read, 1 when the rollup is allowed, and the
entries of the children. -/
def canRollup (dst : Db) (children : List Child) : ℤ × ℕ :=
  match children with
  | [] => (1, 0)
  | _ =>
      if children.countP (·.rolledup) ≠ children.length then (0, 0)
      else if children.all (·.db.isSome) then
        let dbs := children.filterMap (·.db)
        let legal := dbs.countP fun db =>
          checkPairPermissions (getPermissions dst) (getRootPermissions db)
        (if legal = children.length then 1 else 0, (dbs.map (·.pentries.length)).sum)
      else (-1, 0)

def shouldRollup (cfg : Config) (level : ℕ) (dst : Db) (children : List Child) : ℤ :=
  if level < cfg.minLevel then 0
  else if cfg.entriesLimit ≠ 0 ∧ cfg.entriesLimit < getNondirs dst then 0
  else
    let legal := canRollup dst children
    if legal.1 = 1 ∧ cfg.entriesLimit ≠ 0 ∧ cfg.entriesLimit < getNondirs dst + legal.2 then 0
    else legal.1

/-- What `rollup_ascend` leaves: the directory, its in-memory `rolledup`, the score, and whether
no error was reported. -/
structure Ascended where
  dir : Dir
  rolledup : Bool
  score : ℤ
  ok : Bool

/-- `db.db` is opened with `create_treesummary_tables`, which empties `treesummary`. -/
def rollupAscend (ts : TreeSummaryCode) (cfg : Config) (attach : AttachXattr) (level : ℕ)
    (path : Bytes) (own : Dir) (children : List Child) : Ascended :=
  match own.db with
  | none => ⟨own, false, 0, false⟩
  | some db₀ =>
      let db := { db₀ with treesummary := some [] }
      let score := shouldRollup cfg level db children
      if 0 < score then
        let res := doRollup ts cfg.umask attach (own.setDb db) children
        ⟨res.1, res.2, score, res.2⟩
      else if score = 0 then
        ⟨own.setDb (db.setTreesummary (ts.children path db (children.map (·.db)))),
          false, score, true⟩
      else ⟨own.setDb db, false, score, false⟩

end Ascend

end Gufi
