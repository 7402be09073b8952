import Gufi.Index
import Gufi.Rollup
import Gufi.Tsumit
import Mathlib.Tactic.Ring

/-!
# Rows of treesummary

`querytsdb` adds up the rows of `summary`, or the row of `treesummary` of the directory, and
`bottomup_collect_treesummary` computes the row of a directory from the databases of its
subdirectories, or in SQL from its own tables when they are rolled up.

The columns of a `summary` row that the rest of the model carries unchanged are read by `columns`.
A `treesummary` row is kept with its inode and the columns of `struct sum`. Every row of the two
tables is written with `rectype` 0, which is what the queries select.
-/

namespace Gufi

open Aggregates UnixAccess

section Columns

namespace Sums

/-- The values in the order of the table. -/
def cols (s : Sums) : List ℤ :=
  [s.totsubdirs, s.maxsubdir .files, s.maxsubdir .links, s.maxsubdir .size,
    s.totfiles, s.totlinks,
    s.minval .uid, s.maxval .uid, s.minval .gid, s.maxval .gid,
    s.minval .size, s.maxval .size,
    s.tot .zero, s.tot .ltk, s.tot .mtk, s.tot .ltm, s.tot .mtm, s.tot .mtg, s.tot .mtt,
    s.totsize,
    s.minval .ctime, s.maxval .ctime, s.tottime .ctime,
    s.minval .mtime, s.maxval .mtime, s.tottime .mtime,
    s.minval .atime, s.maxval .atime, s.tottime .atime,
    s.minval .blocks, s.maxval .blocks, s.tot .blocks,
    s.tot .xattr,
    s.minval .crtime, s.maxval .crtime, s.tottime .crtime,
    s.minval .ossint1, s.maxval .ossint1, s.tot .ossint1,
    s.minval .ossint2, s.maxval .ossint2, s.tot .ossint2,
    s.minval .ossint3, s.maxval .ossint3, s.tot .ossint3,
    s.minval .ossint4, s.maxval .ossint4, s.tot .ossint4,
    s.totextdbs]

/-- What a query with all of the columns reads. -/
def ofCols (c : List ℤ) : Sums where
  totsubdirs := c.getD 0 0
  maxsubdir
    | .files => c.getD 1 0
    | .links => c.getD 2 0
    | .size => c.getD 3 0
  totfiles := c.getD 4 0
  totlinks := c.getD 5 0
  totsize := c.getD 19 0
  minval
    | .uid => c.getD 6 0
    | .gid => c.getD 8 0
    | .size => c.getD 10 0
    | .ctime => c.getD 20 0
    | .mtime => c.getD 23 0
    | .atime => c.getD 26 0
    | .blocks => c.getD 29 0
    | .crtime => c.getD 33 0
    | .ossint1 => c.getD 36 0
    | .ossint2 => c.getD 39 0
    | .ossint3 => c.getD 42 0
    | .ossint4 => c.getD 45 0
  maxval
    | .uid => c.getD 7 0
    | .gid => c.getD 9 0
    | .size => c.getD 11 0
    | .ctime => c.getD 21 0
    | .mtime => c.getD 24 0
    | .atime => c.getD 27 0
    | .blocks => c.getD 30 0
    | .crtime => c.getD 34 0
    | .ossint1 => c.getD 37 0
    | .ossint2 => c.getD 40 0
    | .ossint3 => c.getD 43 0
    | .ossint4 => c.getD 46 0
  tottime
    | .ctime => c.getD 22 0
    | .mtime => c.getD 25 0
    | .atime => c.getD 28 0
    | .crtime => c.getD 35 0
  tot
    | .zero => c.getD 12 0
    | .ltk => c.getD 13 0
    | .mtk => c.getD 14 0
    | .ltm => c.getD 15 0
    | .mtm => c.getD 16 0
    | .mtg => c.getD 17 0
    | .mtt => c.getD 18 0
    | .blocks => c.getD 31 0
    | .xattr => c.getD 32 0
    | .ossint1 => c.getD 38 0
    | .ossint2 => c.getD 41 0
    | .ossint3 => c.getD 44 0
    | .ossint4 => c.getD 47 0
  totextdbs := c.getD 48 0

/-- What is inserted is read back. -/
@[simp]
theorem ofCols_cols (s : Sums) : ofCols s.cols = s := by
  apply eq_of_fields
  · intro d
    cases d <;> rfl
  · intro f
    cases f <;> rfl
  · intro f
    cases f <;> rfl
  · intro f
    cases f <;> rfl
  · intro f
    cases f <;> rfl
  · rfl
  · intro d
    cases d <;> rfl
  · rfl

end Sums

end Columns

variable (columns : List Bytes → SumColumns)

def SummaryRow.dirSummary (r : SummaryRow) (externalDbs : ℕ) : DirSummary :=
  { columns r.cols with
    totfiles := r.totfiles
    totlinks := r.totlinks
    externalDbs := externalDbs }

section Querytsdb

namespace Db

/-- The rows of `summary` with `(SELECT COUNT(*) FROM external_dbs)` in each. -/
def dirSummaries (db : Db) : List DirSummary :=
  db.summary.map fun r => r.dirSummary columns db.externalDbs.length

/-- `FROM treesummary AS t, summary AS s WHERE (s.isroot == 1) AND (s.inode == t.inode)`. -/
def ownTreesummary (db : Db) : List TreeSummaryRow :=
  db.rootRows.flatMap fun s => (db.treesummary.getD []).filter fun t => t.inode = s.inode

/-- The rows of the query on `summary`, and of the one on `treesummary`. -/
def querytsdbRows (db : Db) (ts : Bool) : List Sums :=
  if ts then db.ownTreesummary.map fun t => Sums.ofCols t.cols
  else (db.dirSummaries columns).map DirSummary.sums

end Db

/-- The sum with the rows added and the number of rows. -/
def querytsdb (db : Db) (ts : Bool) (sum : Sums) : Sums × ℕ :=
  ((db.querytsdbRows columns ts).foldl (fun sum curr => (tsumit curr sum).dropSubdir) sum,
    (db.querytsdbRows columns ts).length)

variable {columns} {db : Db} {ts : Bool} {U : Multiset Sums} {k : ℤ} {s : Sums}

theorem Summarizes.foldl {rows : List Sums} (h : Summarizes U k s)
    (hvalid : ∀ u ∈ rows, u.Valid) :
    Summarizes (U + rows) (k + rows.length)
      (rows.foldl (fun sum curr => (Gufi.tsumit curr sum).dropSubdir) s) := by
  induction rows generalizing U k s with
  | nil => simpa using h
  | cons u rows ih =>
      have hstep := (h.tsumit (hvalid u (List.mem_cons_self ..))).dropSubdir
      have hrest := ih hstep fun v hv => hvalid v (List.mem_cons_of_mem u hv)
      have hU : u ::ₘ U + (rows : Multiset Sums) =
          U + ((u :: rows : List Sums) : Multiset Sums) := by
        rw [← Multiset.cons_coe, Multiset.add_cons, Multiset.cons_add]
      have hk : k + 1 + rows.length = k + (u :: rows).length := by
        rw [List.length_cons]
        push_cast
        ring
      rw [List.foldl_cons]
      rwa [hU, hk] at hrest

theorem Summarizes.querytsdb (h : Summarizes U k s)
    (hvalid : ∀ u ∈ db.querytsdbRows columns ts, u.Valid) :
    Summarizes (U + db.querytsdbRows columns ts) (k + (db.querytsdbRows columns ts).length)
      (Gufi.querytsdb columns db ts s).1 :=
  h.foldl hvalid

/-- The caller may count the directories itself. -/
theorem Summarizes.setSubdirs (h : Summarizes U k s) {j m : ℤ}
    (hm : m + j = (foldUnits U).totsubdirs) : Summarizes U j { s with totsubdirs := m } where
  total d := by
    rw [← h.total d]
    cases d <;> rfl
  minval := h.minval
  maxval := h.maxval
  tottime := h.tottime
  tot := h.tot
  totsubdirs := hm
  maxsubdir := h.maxsubdir
  maxsubdirIdle := h.maxsubdirIdle
  totextdbs := h.totextdbs

theorem totsubdirs_querytsdbRows_summary (columns : List Bytes → SumColumns) (db : Db) :
    (foldUnits (db.querytsdbRows columns false)).totsubdirs =
      (db.querytsdbRows columns false).length := by
  have hrows : (db.querytsdbRows columns false : Multiset Sums) =
      Multiset.map DirSummary.sums (db.dirSummaries columns : List DirSummary) := rfl
  rw [hrows, foldUnits_map_sums]
  simp [Db.querytsdbRows]

theorem valid_querytsdbRows_summary (columns : List Bytes → SumColumns) (db : Db) :
    ∀ u ∈ db.querytsdbRows columns false, u.Valid := by
  intro u hu
  obtain ⟨r, -, rfl⟩ := List.mem_map.mp hu
  exact r.sums_valid

end Querytsdb

/-- The row of the directory that is inserted. -/
def inserttreesumdb (db : Db) (su : Sums) : TreeSummaryRow :=
  ⟨(db.rootRows.map (·.inode)).getLastD 0, su.cols⟩

section Sql

/-- `(double)` of an integer: the nearest number with 53 significant bits, and of two the one with
an even significand. -/
def toDouble (n : ℤ) : ℤ :=
  let unit := 2 ^ (Nat.log2 n.natAbs - 52)
  let q := n.natAbs / unit
  let r := n.natAbs % unit
  n.sign * ((if unit < 2 * r ∨ 2 * r = unit ∧ q % 2 = 1 then q + 1 else q) * unit : ℕ)

/-- A double holds the number. -/
def HeldByDouble (n : ℤ) : Prop :=
  2 ^ (Nat.log2 n.natAbs - 52) ∣ n.natAbs

theorem heldByDouble_of_natAbs_lt {n : ℤ} (h : n.natAbs < 2 ^ 53) : HeldByDouble n := by
  have hexp : Nat.log2 n.natAbs - 52 = 0 := by
    rcases eq_or_ne n.natAbs 0 with hzero | hzero
    · rw [hzero]
      rfl
    · have hlog := (Nat.log2_lt hzero).mpr h
      omega
  rw [HeldByDouble, hexp]
  exact one_dvd _

theorem toDouble_eq_iff (n : ℤ) : toDouble n = n ↔ HeldByDouble n := by
  unfold toDouble HeldByDouble
  generalize hunit : 2 ^ (Nat.log2 n.natAbs - 52) = unit
  have hpos : 0 < unit := by
    rw [← hunit]
    exact Nat.two_pow_pos _
  have hself : n = n.sign * (n.natAbs : ℤ) := (Int.sign_mul_natAbs n).symm
  dsimp only
  constructor
  · intro h
    rcases eq_or_ne n 0 with rfl | hn
    · simp
    · have hsign : n.sign ≠ 0 := fun hzero => hn (Int.sign_eq_zero_iff_zero.mp hzero)
      have hnat := mul_left_cancel₀ hsign (h.trans hself)
      exact Dvd.intro_left _ (Int.ofNat_inj.mp hnat)
  · intro h
    have hr : n.natAbs % unit = 0 := Nat.mod_eq_zero_of_dvd h
    rw [hr, if_neg (by omega), Nat.div_mul_cancel h]
    exact hself.symm

/-- `TOTAL`: the integers are added up exactly and the sum is returned as a double. The table
stores it as an integer again. -/
def sqlTotal (l : List ℤ) : ℤ :=
  toDouble l.sum

/-- `MIN` of 64-bit integers. -/
def sqlMin (l : List ℤ) : ℤ :=
  l.foldr min llongMax

/-- `MAX` of 64-bit integers. -/
def sqlMax (l : List ℤ) : ℤ :=
  l.foldr max llongMin

/-- The row of `TREESUMMARY_ROLLUP_COMPUTE_INSERT`. -/
def rollupCompute (rows : List DirSummary) (externalDbs : ℕ) : Sums where
  totsubdirs := rows.length - 1
  maxsubdir
    | .files => sqlMax (rows.map fun r => (r.totfiles : ℤ))
    | .links => sqlMax (rows.map fun r => (r.totlinks : ℤ))
    | .size => sqlMax (rows.map fun r => (r.size : ℤ))
  totfiles := sqlTotal (rows.map fun r => (r.totfiles : ℤ))
  totlinks := sqlTotal (rows.map fun r => (r.totlinks : ℤ))
  totsize := sqlTotal (rows.map fun r => (r.totsize : ℤ))
  minval f := sqlMin (rows.map fun r => r.minval f)
  maxval f := sqlMax (rows.map fun r => r.maxval f)
  tottime f := sqlTotal (rows.map fun r => r.tottime f)
  tot f := sqlTotal (rows.map fun r => r.tot f)
  totextdbs := externalDbs

end Sql

section Collect

inductive CheckIsRolledUp
  | check
  | dontCheck
  | knownYes
  | knownNo
deriving DecidableEq

/-- What is taken for `isrolledup`. -/
def CheckIsRolledUp.isrolledup (checkIsrolledup : CheckIsRolledUp) (db : Db) : Bool :=
  match checkIsrolledup with
  | .check => getIsrolledup db
  | .knownYes => true
  | .dontCheck | .knownNo => false

/-- `SELECT ..., canrollup FROM summary WHERE isroot == 1`. -/
def getCanrollup (db : Db) : Bool :=
  (db.rootRows.map (·.canrollup)).getLastD false

/-- The insert of the rolled-up branch: one row for the one `rectype`, if there are rows. -/
def rollupComputeRows (db : Db) : List TreeSummaryRow :=
  if db.summary = [] then []
  else [inserttreesumdb db (rollupCompute (db.dirSummaries columns) db.externalDbs.length)]

/-- What a subdirectory adds. One whose database cannot be opened is passed over. -/
def collectSubdir (subdir : Option Db) (tsum : Sums) : Sums :=
  match subdir with
  | none => tsum
  | some sub => tsumit (querytsdb columns sub sub.treesummary.isSome zeroit).1 tsum

/-- The loop over the subdirectories and the directory's own row. -/
def collectSubdirs (db : Db) (subdirs : List (Option Db)) : Sums :=
  let tsum := subdirs.foldl (fun tsum subdir => collectSubdir columns subdir tsum) zeroit
  (tsumit zeroit (querytsdb columns db false tsum).1).dropSubdir

/-- A subdirectory counts when it can be rolled up and may be rolled up into its parent. -/
def countsCanrollup (parent : Permissions) (subdir : Option Db) : Bool :=
  match subdir with
  | none => false
  | some sub => getCanrollup sub && checkPairPermissions parent (getRootPermissions sub)

/-- The two computations for `gufi_rollup`. -/
def treeSummaryCode : TreeSummaryCode where
  rolledUp db := rollupComputeRows columns db
  children _ db subdirs := [inserttreesumdb db (collectSubdirs columns db subdirs)]

/-- The database, the value left in `canrollup` and whether 0 was returned. The table must be
there. -/
def bottomupCollectTreesummary (checkIsrolledup : CheckIsRolledUp) (db : Db)
    (subdirs : List (Option Db)) (canrollup : Bool) : Db × Bool × Bool :=
  if db.treesummary.isNone then (db, canrollup, false)
  else if checkIsrolledup.isrolledup db then
    (db.setTreesummary (rollupComputeRows columns db),
      canrollup || checkIsrolledup ≠ .knownYes, true)
  else
    let legal := subdirs.countP (countsCanrollup (getPermissions db))
    (db.setTreesummary [inserttreesumdb db (collectSubdirs columns db subdirs)],
      if checkIsrolledup = .check then legal = subdirs.length else canrollup, true)

end Collect

section Tree

/-- The summary of the directory itself. -/
def Dir.dirSummary (d : Dir) : Option DirSummary :=
  d.db.bind fun db => (db.rootRows.map fun r =>
    r.dirSummary columns db.externalDbs.length).head?

def DirTree.dirSummaries (ix : Index) (t : DirTree) : Multiset DirSummary :=
  (t.subtrees.filterMap fun s => (ix s.path).dirSummary columns : List DirSummary)

variable {columns} {ix : Index}

theorem DirTree.dirSummaries_eq (t : DirTree) :
    t.dirSummaries columns ix = ((ix t.path).dirSummary columns).toList +
      (t.subdirs.map fun c => c.dirSummaries columns ix).sum := by
  have hsum (cs : List DirTree) : (cs.map fun c => c.dirSummaries columns ix).sum =
      ((cs.flatMap DirTree.subtrees).filterMap fun s => (ix s.path).dirSummary columns :
        List DirSummary) := by
    induction cs with
    | nil => rfl
    | cons c cs ih =>
        rw [List.map_cons, List.sum_cons, ih, List.flatMap_cons, List.filterMap_append]
        rfl
  rw [hsum, DirTree.dirSummaries, DirTree.subtrees_eq, List.filterMap_cons]
  cases (ix t.path).dirSummary columns <;> rfl

end Tree

section Example

/-- A directory with a subdirectory `l`. -/
def linkTree : DirTree :=
  .node [114] [.node [114, 47, 108] []]

/-- Every entry was changed at the time 5. -/
def linkColumns : List Bytes → SumColumns :=
  fun _ => ⟨0, 0, fun _ => 5, fun _ => 5, fun _ => 5, fun _ => 0⟩

/-- A file in the directory, and in the subdirectory a link or a file. -/
def linkDb (files : ℕ) (p : Bytes) : Db where
  entries := []
  summary :=
    [{ name := p
       inode := p.length
       perms := ⟨0, 0, 0⟩
       totfiles := if p = [114] then 1 else files
       totlinks := if p = [114] then 0 else 1 - files
       depth := 0
       cols := []
       pinode := 0
       isroot := true
       canrollup := false
       isrolledup := false }]
  pentriesRollup := []
  treesummary := none
  xattrsPwd := []
  xattrsRollup := []
  externalDbsPwd := []
  externalDbsRollup := []

def linkIndex (files : ℕ) : Index :=
  fun p => ⟨some (linkDb files p), fun _ => none⟩

end Example

end Gufi
