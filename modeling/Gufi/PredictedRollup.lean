import Gufi.CollectTreeSummary
import Gufi.SecondRun

/-!
# Predicted and actual rollups

`gufi_treesummary_all` records in `canrollup` of every directory whether it could be rolled up. It
reads the answers of the subdirectories back from their databases, `gufi_rollup` keeps them in
memory. Without a limit of entries and a minimum level both follow the same rule: every
subdirectory rolls up and passes the permission check.
-/

namespace Gufi

open Relation UnixAccess

section Program

/-- `UPDATE summary SET canrollup = ... WHERE isroot == 1`. -/
def Db.setCanrollup (db : Db) (canrollup : Bool) : Db :=
  { db with summary := db.summary.map fun s => if s.isroot then { s with canrollup } else s }

/-- `treesummary_ascend` on a directory. The table is created if it is missing, and the old row of
the directory is deleted. -/
def Index.treesummaryAscend (columns : List Bytes → SumColumns) (ix : Index) (t : DirTree) :
    Index :=
  match (ix t.path).db with
  | none => ix
  | some db =>
      let db := ({ db with treesummary := some (db.treesummary.getD []) } : Db).setTreesummary []
      let res := bottomupCollectTreesummary columns .check db
        (t.subdirs.map fun c => (ix c.path).db) false
      Function.update ix t.path ((ix t.path).setDb
        (if db.rootRows.length ≠ 1 then db
        else if res.2.2 then res.1.setCanrollup res.2.1
        else res.1))

/-- The index and the directories that have been ascended. -/
structure TreesummaryState where
  ix : Index
  ascended : Bytes → Bool

def TreesummaryState.ascend (columns : List Bytes → SumColumns) (s : TreesummaryState)
    (t : DirTree) : TreesummaryState where
  ix := s.ix.treesummaryAscend columns t
  ascended := Function.update s.ascended t.path true

@[simp]
theorem TreesummaryState.ix_ascend (columns : List Bytes → SumColumns) (s : TreesummaryState)
    (t : DirTree) : (s.ascend columns t).ix = s.ix.treesummaryAscend columns t := rfl

@[simp]
theorem TreesummaryState.ascended_ascend (columns : List Bytes → SumColumns)
    (s : TreesummaryState) (t : DirTree) :
    (s.ascend columns t).ascended = Function.update s.ascended t.path true := rfl

/-- One ascent of `ascend_to_top`, after those of the subdirectories. -/
inductive TreesummaryStep (columns : List Bytes → SumColumns) (root : DirTree) :
    TreesummaryState → TreesummaryState → Prop
  | ascend {s : TreesummaryState} {t : DirTree} (ht : t ∈ root.subtrees)
      (hnew : s.ascended t.path = false) (hdone : ∀ c ∈ t.subdirs, s.ascended c.path = true) :
      TreesummaryStep columns root s (s.ascend columns t)

/-- States of a run of `gufi_treesummary_all` that started from the index. -/
def TreesummaryReaches (columns : List Bytes → SumColumns) (root : DirTree) (ix : Index) :
    TreesummaryState → Prop :=
  ReflTransGen (TreesummaryStep columns root) ⟨ix, fun _ => false⟩

/-- The recorded `canrollup` of a directory. -/
def Index.canrollup (ix : Index) (t : DirTree) : Bool :=
  ((ix t.path).db.map getCanrollup).getD false

end Program

section Ascend

variable {columns : List Bytes → SumColumns} {cfg : Config} {ix : Index} {root t : DirTree}
  {s : TreesummaryState} {db : Db} {row : SummaryRow}

/-- The directory is as it was, but for its `treesummary` table and its `canrollup`. -/
def Predicted (ix ix' : Index) (t : DirTree) : Prop :=
  ∀ db row, (ix t.path).db = some db → db.SingleRow row → ∃ rows canrollup,
    (ix' t.path).db = some { db with treesummary := rows, summary := [{ row with canrollup }] }

theorem Db.SingleRow.countsCanrollup_iff (h : db.SingleRow row) (parent : Permissions)
    (rows : Option (List TreeSummaryRow)) (canrollup : Bool) :
    countsCanrollup parent
        (some { db with treesummary := rows, summary := [{ row with canrollup }] }) = true ↔
      canrollup = true ∧ checkPairPermissions parent row.perms = true := by
  have hroot : ({ db with treesummary := rows, summary := [{ row with canrollup }] } :
      Db).rootRows = [{ row with canrollup }] := by
    simp [Db.rootRows, h.isroot]
  rw [countsCanrollup, getCanrollup, getRootPermissions, hroot]
  simp

/-- `canrollup` becomes 1 exactly when every subdirectory counts. -/
theorem treesummaryAscend_spec (columns : List Bytes → SumColumns) (h : db.SingleRow row)
    (hdb : (ix t.path).db = some db) :
    ∃ rows canrollup, ix.treesummaryAscend columns t = Function.update ix t.path
        ((ix t.path).setDb
          { db with treesummary := rows, summary := [{ row with canrollup }] }) ∧
      (canrollup = true ↔
        ∀ c ∈ t.subdirs, countsCanrollup row.perms (ix c.path).db = true) := by
  set opened := ({ db with treesummary := some (db.treesummary.getD []) } : Db).setTreesummary []
    with hopened
  have hsummary : opened.summary = [row] := h.summary
  have hsingle : opened.SingleRow row := ⟨hsummary, h.isroot, h.isrolledup⟩
  have hperm : getPermissions opened = row.perms := by
    rw [getPermissions, hsummary]
    rfl
  have htable : opened.treesummary.isNone = false := rfl
  let subs := t.subdirs.map fun c => (ix c.path).db
  have hcollect : (bottomupCollectTreesummary columns .check opened subs false).2 =
      (decide (subs.countP (countsCanrollup row.perms) = subs.length), true) := by
    rw [bottomupCollectTreesummary, if_neg (by simp [htable]), CheckIsRolledUp.isrolledup,
      hsingle.getIsrolledup, if_neg (by simp), hperm]
    rfl
  have hdbs : ∃ rows, (bottomupCollectTreesummary columns .check opened subs false).1 =
      { db with treesummary := rows } := by
    have hsome : opened.treesummary.isSome = true := rfl
    obtain ⟨old, hold⟩ := Option.isSome_iff_exists.mp hsome
    exact ⟨_, hsingle.bottomupCollectTreesummary (by simp) hold subs false⟩
  obtain ⟨rows, hdbs⟩ := hdbs
  refine ⟨rows, decide (subs.countP (countsCanrollup row.perms) = subs.length), ?_, ?_⟩
  · have hset (c : Bool) : ({ db with treesummary := rows } : Db).setCanrollup c =
        { db with treesummary := rows, summary := [{ row with canrollup := c }] } := by
      rw [Db.setCanrollup, h.summary]
      simp [h.isroot]
    simp only [Index.treesummaryAscend, hdb, ← hopened]
    rw [if_neg (by simp [hsingle.rootRows]), hcollect, if_pos rfl, hdbs, hset]
  · rw [decide_eq_true_iff, List.countP_eq_length]
    simp [subs]

theorem Db.SingleRow.getRootPermissions (h : db.SingleRow row) :
    getRootPermissions db = row.perms := by
  rw [Gufi.getRootPermissions, h.rootRows]
  rfl

theorem Predicted.canrollup {ix' : Index} (h : Predicted ix ix' t) (hdb : (ix t.path).db = some db)
    (hrow : db.SingleRow row) (parent : Permissions) :
    countsCanrollup parent (ix' t.path).db = true ↔
      ix'.canrollup t = true ∧ checkPairPermissions parent (ix t.path).permissions = true := by
  obtain ⟨rows, canrollup, heq⟩ := h db row hdb hrow
  have hflag : ix'.canrollup t = canrollup := by
    rw [Index.canrollup, heq, Option.map_some, Option.getD_some, getCanrollup, Db.rootRows]
    simp [hrow.isroot]
  rw [hflag, heq, hrow.countsCanrollup_iff, Dir.permissions, hdb, Option.map_some, Option.getD_some,
    hrow.getRootPermissions]

end Ascend

section Run

variable {columns : List Bytes → SumColumns} {cfg : Config} {ix : Index} {root t : DirTree}
  {s : TreesummaryState}

/-- The recorded values of the ascended directories follow the rules. -/
structure PredictedBy (cfg : Config) (ix : Index) (root : DirTree) (s : TreesummaryState) :
    Prop where
  kept : ∀ t ∈ root.subtrees, Predicted ix s.ix t
  decided : ∀ t ∈ root.subtrees, s.ascended t.path = true →
    ∀ l, s.ix.canrollup t = true ↔ t.RollsUp cfg ix l

theorem PredictedBy.start (cfg : Config) (ix : Index) (root : DirTree) :
    PredictedBy cfg ix root ⟨ix, fun _ => false⟩ where
  kept t _ db row hdb hrow := by
    refine ⟨db.treesummary, row.canrollup, hdb.trans ?_⟩
    rw [← hrow.summary]
  decided _ _ h := absurd h (by simp)

theorem PredictedBy.step (hroot : root.WellFormed) (hix : UnrolledTree ix root)
    (hlimit : cfg.entriesLimit = 0) (hlevel : cfg.minLevel = 0) (h : PredictedBy cfg ix root s)
    {s' : TreesummaryState} (hstep : TreesummaryStep columns root s s') :
    PredictedBy cfg ix root s' := by
  cases hstep with
  | @ascend t ht hnew hdone =>
      obtain ⟨db, row, hdb, hrow⟩ := hix t ht
      obtain ⟨old, flag, hat⟩ := h.kept t ht db row hdb hrow
      have hsingle : ({ db with treesummary := old, summary := [{ row with canrollup := flag }] } :
          Db).SingleRow { row with canrollup := flag } := ⟨rfl, hrow.isroot, hrow.isrolledup⟩
      obtain ⟨rows, canrollup, hcall, hcan⟩ := 
        treesummaryAscend_spec columns hsingle hat
      have hother : ∀ x ∈ root.subtrees, x ≠ t →
          s.ix.treesummaryAscend columns t x.path = s.ix x.path := by
        intro x hx hne
        rw [hcall, Function.update_of_ne fun hpath => hne (hroot.eq_of_path_eq hx ht hpath)]
      have hself : (s.ix.treesummaryAscend columns t t.path).db =
          some { db with treesummary := rows, summary := [{ row with canrollup }] } := by
        rw [hcall, Function.update_self, Dir.setDb_db]
      constructor
      · intro x hx
        by_cases hxt : x = t
        · subst hxt
          intro db' row' hdb' hrow'
          obtain rfl := Option.some.inj (hdb.symm.trans hdb')
          obtain rfl : row = row' := List.singleton_inj.mp (hrow.summary.symm.trans hrow'.summary)
          exact ⟨rows, canrollup, hself⟩
        · intro db' row' hdb' hrow'
          rw [TreesummaryState.ix_ascend, hother x hx hxt]
          exact h.kept x hx db' row' hdb' hrow'
      · intro x hx hasc l
        by_cases hxt : x = t
        · subst hxt
          have hflag : (s.ix.treesummaryAscend columns x).canrollup x = canrollup := by
            rw [Index.canrollup, hself, Option.map_some, Option.getD_some, getCanrollup,
              Db.rootRows]
            simp [hrow.isroot]
          have hperm : (ix x.path).permissions = row.perms := by
            rw [Dir.permissions, hdb, Option.map_some, Option.getD_some, hrow.getRootPermissions]
          have hchild : ∀ c ∈ x.subdirs, (countsCanrollup row.perms (s.ix c.path).db = true ↔
              c.RollsUp cfg ix (l + 1) ∧
                checkPairPermissions row.perms (ix c.path).permissions = true) := by
            intro c hc
            have hcmem := DirTree.subdir_mem_subtrees ht hc
            obtain ⟨dbc, rowc, hdbc, hrowc⟩ := hix c hcmem
            rw [(h.kept c hcmem).canrollup hdbc hrowc, h.decided c hcmem (hdone c hc) (l + 1)]
          rw [TreesummaryState.ix_ascend, hflag, hcan, DirTree.rollsUp_iff, hperm]
          constructor
          · intro hcounts
            exact ⟨fun c hc => ((hchild c hc).mp (hcounts c hc)).1, by omega,
              fun c hc => ((hchild c hc).mp (hcounts c hc)).2, Or.inl hlimit⟩
          · rintro ⟨hrolls, -, hpass, -⟩ c hc
            exact (hchild c hc).mpr ⟨hrolls c hc, hpass c hc⟩
        · have hpath : x.path ≠ t.path := fun hpath => hxt (hroot.eq_of_path_eq hx ht hpath)
          rw [TreesummaryState.ascended_ascend, Function.update_of_ne hpath] at hasc
          have hsame : (s.ix.treesummaryAscend columns t).canrollup x = s.ix.canrollup x := by
            rw [Index.canrollup, hother x hx hxt]
            rfl
          rw [TreesummaryState.ix_ascend, hsame]
          exact h.decided x hx hasc l

theorem TreesummaryReaches.predictedBy (hroot : root.WellFormed) (hix : UnrolledTree ix root)
    (hlimit : cfg.entriesLimit = 0) (hlevel : cfg.minLevel = 0)
    (h : TreesummaryReaches columns root ix s) : PredictedBy cfg ix root s := by
  induction h with
  | refl => exact PredictedBy.start cfg ix root
  | tail _ hstep ih => exact ih.step hroot hix hlimit hlevel hstep

theorem UnrolledTree.of_unrolled (h : ∀ t ∈ root.subtrees, (ix t.path).Unrolled) :
    UnrolledTree ix root := by
  intro t ht
  obtain ⟨db, hdb, hun⟩ := (h t ht).db
  obtain ⟨row, hsummary, hisroot, hrolled⟩ := hun.summary
  exact ⟨db, row, hdb, hsummary, hisroot, hrolled⟩

/-- What `gufi_treesummary_all` records for a directory says whether an error-free run of
`gufi_rollup` over the same index rolls it up. -/
theorem canrollup_iff_rolledup {ts : TreeSummaryCode} {F : DirFaults → Prop} {r : RunState}
    (hroot : root.WellFormed) (hix : ∀ t ∈ root.subtrees, (ix t.path).Unrolled)
    (hlimit : cfg.entriesLimit = 0) (hlevel : cfg.minLevel = 0)
    (hpredict : TreesummaryReaches columns root ix s) (hpredicted : ∀ t ∈ root.subtrees,
      s.ascended t.path = true)
    (hrun : RunReaches ts cfg F root ix r) (hdone : r.Complete root) (hok : r.ok = true)
    (ht : t ∈ root.subtrees) :
    s.ix.canrollup t = true ↔ r.rolledup t.path = true := by
  have hinv := hpredict.predictedBy hroot (UnrolledTree.of_unrolled hix) hlimit hlevel
  obtain ⟨l, hl⟩ := DirTree.exists_level ht 0
  rw [hinv.decided t ht (hpredicted t ht) l,
    hrun.rolledup_iff_rollsUp hroot hix hok hl (hdone t ht)]

end Run

section Example

/-- `gufi_treesummary_all` on `/r` and its subdirectory `a`. -/
def predictedPair : TreesummaryState :=
  (pairTree [97] :: (pairTree [97]).subdirs).foldr
    (fun t s => s.ascend linkColumns t) ⟨emptyIndex, fun _ => false⟩

theorem canrollup_iff_rolledup_pairTree :
    predictedPair.ix.canrollup (pairTree [97]) = true ↔
      (sequentialRun (treeSummaryCode linkColumns) ⟨0, 0, 0⟩ (pairTree [97])
        emptyIndex).rolledup (pairTree [97]).path = true := by
  have hroot : (pairTree [97]).WellFormed := wellFormed_pairTree (by decide)
  have hself := (pairTree [97]).self_mem_subtrees
  obtain ⟨hrun, hdone⟩ :=
    sequentialRun_spec (treeSummaryCode linkColumns) ⟨0, 0, 0⟩ hroot emptyIndex
  have hleaf : TreesummaryReaches linkColumns (pairTree [97]) emptyIndex
      (TreesummaryState.ascend linkColumns ⟨emptyIndex, fun _ => false⟩
        (.node ([47, 114, 47] ++ [97]) [])) :=
    .single (.ascend (DirTree.subdir_mem_subtrees hself (List.mem_cons_self ..)) rfl
      (fun c hc => by cases hc))
  have hpair : TreesummaryReaches linkColumns (pairTree [97]) emptyIndex predictedPair := by
    refine .tail hleaf (.ascend hself (by decide) fun c hc => ?_)
    obtain rfl := List.mem_singleton.mp hc
    rfl
  apply canrollup_iff_rolledup hroot (fun t _ => unrolled_emptyIndex t.path) rfl rfl hpair ?_ hrun
    hdone (by decide) hself
  intro t ht
  rcases mem_subtrees_pairTree.mp ht with rfl | rfl <;> decide

end Example

end Gufi
