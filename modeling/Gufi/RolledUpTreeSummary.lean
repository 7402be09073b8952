import Gufi.TreeSummaryWalk

/-!
# The tree summary of a rolled-up directory

A rolled-up directory holds the summaries of its tree. `bottomup_collect_treesummary` aggregates
them in SQL, `gufi_treesummary` with `querytsdb` and `tsumit`. The two differ in four places: SQL
takes the largest `size` of a directory for `maxsubdirsize`, counts the external databases once and
not for every row, reads minima, maxima and time totals of the rows without files too, and returns
totals as doubles.
-/

namespace Gufi

open Aggregates

/-- The rows on which none of the differences shows. -/
structure AgreesInSql (rows : List DirSummary) (externalDbs : ℕ) : Prop where
  size : sqlMax (rows.map fun r => (r.size : ℤ)) = sqlMax (rows.map fun r => (r.totsize : ℤ))
  externalDbs : rows.length = 1 ∨ externalDbs = 0
  minval : ∀ f, ∀ r ∈ rows, r.totfiles = 0 → (flatFold rows).minval f ≤ r.minval f
  maxval : ∀ f, ∀ r ∈ rows, r.totfiles = 0 → r.maxval f ≤ (flatFold rows).maxval f
  tottime : ∀ f, toDouble (rows.map fun r => r.tottime f).sum =
    ((rows.filter fun r => 0 < r.totfiles).map fun r => r.tottime f).sum
  total : ∀ d, HeldByDouble ((flatFold rows).total d)
  tot : ∀ f, HeldByDouble ((flatFold rows).tot f)

section Aggregate

variable {rows : List DirSummary}

theorem sqlMax_map (g : DirSummary → ℤ) :
    sqlMax (rows.map g) = agg max llongMin (fun _ => True) g (rows : Multiset DirSummary) := by
  rw [agg, Multiset.filter_true, Multiset.map_coe, Multiset.coe_fold_r]
  rfl

theorem sqlMin_map (g : DirSummary → ℤ) :
    sqlMin (rows.map g) = agg min llongMax (fun _ => True) g (rows : Multiset DirSummary) := by
  rw [agg, Multiset.filter_true, Multiset.map_coe, Multiset.coe_fold_r]
  rfl

theorem tottime_add_lostTime (rows : List DirSummary) (f : TimeField) :
    ((rows.filter fun r => 0 < r.totfiles).map fun r => r.tottime f).sum +
      lostTime (rows.map DirSummary.sums : List Sums) f = (flatFold rows).tottime f := by
  induction rows with
  | nil => rfl
  | cons r rows ih =>
      have hcons : (flatFold ((r :: rows : List DirSummary) : Multiset DirSummary)).tottime f =
          r.tottime f + (flatFold rows).tottime f := by
        simp [flatFold]
      rw [hcons, ← ih, List.map_cons, ← Multiset.cons_coe]
      by_cases hfiles : 0 < r.totfiles
      · have hhas : r.sums.HasFiles := Int.natCast_pos.mpr hfiles
        rw [lostTime_cons_of_hasFiles hhas, List.filter_cons_of_pos (by simpa using hfiles),
          List.map_cons, List.sum_cons, add_assoc]
      · have hhas : ¬r.sums.HasFiles := fun h => hfiles (Int.natCast_pos.mp h)
        rw [lostTime_cons_of_not_hasFiles hhas, List.filter_cons_of_neg (by simpa using hfiles)]
        change _ + (r.tottime f + _) = _
        omega

section Fold

variable {s : Sums} {n : ℕ}

/-- What the fold over the rows of directories leaves. -/
theorem Summarizes.eq_flatFold_fields (h : Summarizes (rows.map DirSummary.sums : List Sums) 1 s)
    (hrows : rows ≠ []) : s = { flatFold rows with
      tottime := fun f =>
        ((rows.filter fun r => 0 < r.totfiles).map fun r => r.tottime f).sum } := by
  have hfold : foldUnits (rows.map DirSummary.sums : List Sums) = _ := foldUnits_map_sums rows
  have hne : ((rows.map DirSummary.sums : List Sums) : Multiset Sums) ≠ 0 := by
    simpa using hrows
  apply Sums.eq_of_fields
  · intro d
    rw [h.total, hfold]
    cases d <;> rfl
  · intro f
    rw [h.minval, hfold]
  · intro f
    rw [h.maxval, hfold]
  · intro f
    have htime := h.tottime f
    have hsplit := tottime_add_lostTime rows f
    rw [hfold] at htime
    exact add_right_cancel (htime.trans hsplit.symm)
  · intro f
    rw [h.tot, hfold]
  · have hsub := h.totsubdirs
    rw [hfold] at hsub
    exact eq_sub_of_add_eq hsub
  · intro d
    rw [h.maxsubdir hne, hfold]
  · rw [h.totextdbs, hfold]

theorem total_rollupCompute (rows : List DirSummary) (n : ℕ) (d : SubdirField) :
    (rollupCompute rows n).total d = toDouble ((flatFold rows).total d) := by
  cases d <;> rfl

theorem maxsubdir_rollupCompute_iff :
    (∀ d, (rollupCompute rows n).maxsubdir d = (flatFold rows).maxsubdir d) ↔
      sqlMax (rows.map fun r => (r.size : ℤ)) = sqlMax (rows.map fun r => (r.totsize : ℤ)) := by
  have htotsize : (flatFold rows).maxsubdir .size = sqlMax (rows.map fun r => (r.totsize : ℤ)) :=
    (sqlMax_map _).symm
  rw [← htotsize]
  constructor
  · exact fun h => h .size
  · intro h d
    cases d with
    | files => exact sqlMax_map _
    | links => exact sqlMax_map _
    | size => exact h

theorem totextdbs_flatFold (hn : ∀ r ∈ rows, r.externalDbs = n) :
    (flatFold rows).totextdbs = rows.length * n := by
  have hmap : (rows.map fun r => (r.externalDbs : ℤ)) = rows.map fun _ => (n : ℤ) :=
    List.map_congr_left fun r hr => by rw [hn r hr]
  change (rows.map fun r => (r.externalDbs : ℤ)).sum = _
  rw [hmap, List.map_const', List.sum_replicate, nsmul_eq_mul]

theorem totextdbs_rollupCompute_iff (hrows : rows ≠ []) (hn : ∀ r ∈ rows, r.externalDbs = n) :
    (rollupCompute rows n).totextdbs = (flatFold rows).totextdbs ↔ rows.length = 1 ∨ n = 0 := by
  have hpos : 0 < rows.length := List.length_pos_iff.mpr hrows
  rw [totextdbs_flatFold hn]
  change (n : ℤ) = _ ↔ _
  constructor
  · intro h
    rcases Nat.eq_zero_or_pos n with hzero | hnpos
    · exact Or.inr hzero
    · left
      have hone : (rows.length : ℤ) = 1 := by
        apply mul_right_cancel₀ (Int.natCast_ne_zero.mpr hnpos.ne')
        rw [one_mul, ← h]
      exact_mod_cast hone
  · rintro (h | rfl)
    · rw [h, Nat.cast_one, one_mul]
    · simp

theorem minval_rollupCompute_iff (f : RangeField) :
    (rollupCompute rows n).minval f = (flatFold rows).minval f ↔
      ∀ r ∈ rows, r.totfiles = 0 → (flatFold rows).minval f ≤ r.minval f := by
  change sqlMin _ = _ ↔ _
  rw [sqlMin_map]
  have hagg : agg min llongMax (fun _ => True) _ (rows : Multiset DirSummary) =
      (flatFold rows).minval f ↔ _ := agg_min_eq_filter_iff fun r : DirSummary => r.minval f
  simp only [not_lt, Nat.le_zero, Multiset.mem_coe] at hagg
  exact hagg

theorem maxval_rollupCompute_iff (f : RangeField) :
    (rollupCompute rows n).maxval f = (flatFold rows).maxval f ↔
      ∀ r ∈ rows, r.totfiles = 0 → r.maxval f ≤ (flatFold rows).maxval f := by
  change sqlMax _ = _ ↔ _
  rw [sqlMax_map]
  have hagg : agg max llongMin (fun _ => True) _ (rows : Multiset DirSummary) =
      (flatFold rows).maxval f ↔ _ := agg_max_eq_filter_iff fun r : DirSummary => r.maxval f
  simp only [not_lt, Nat.le_zero, Multiset.mem_coe] at hagg
  exact hagg

/-- The two computations agree on the rows that the condition describes, and on no others. -/
theorem rollupCompute_eq_iff (hrows : rows ≠ []) (hn : ∀ r ∈ rows, r.externalDbs = n)
    (h : Summarizes (rows.map DirSummary.sums : List Sums) 1 s) :
    rollupCompute rows n = s ↔ AgreesInSql rows n := by
  rw [h.eq_flatFold_fields hrows]
  constructor
  · intro heq
    constructor
    · exact maxsubdir_rollupCompute_iff.mp fun d => congrArg (fun s => s.maxsubdir d) heq
    · exact (totextdbs_rollupCompute_iff hrows hn).mp (congrArg (fun s => s.totextdbs) heq)
    · exact fun f => (minval_rollupCompute_iff f).mp (congrArg (fun s => s.minval f) heq)
    · exact fun f => (maxval_rollupCompute_iff f).mp (congrArg (fun s => s.maxval f) heq)
    · exact fun f => congrArg (fun s => s.tottime f) heq
    · intro d
      have hd := congrArg (fun s => s.total d) heq
      rw [total_rollupCompute] at hd
      exact (toDouble_eq_iff _).mp (hd.trans (by cases d <;> rfl))
    · exact fun f => (toDouble_eq_iff _).mp (congrArg (fun s => s.tot f) heq)
  · intro hagree
    apply Sums.eq_of_fields
    · intro d
      rw [total_rollupCompute, (toDouble_eq_iff _).mpr (hagree.total d)]
      cases d <;> rfl
    · exact fun f => (minval_rollupCompute_iff f).mpr (hagree.minval f)
    · exact fun f => (maxval_rollupCompute_iff f).mpr (hagree.maxval f)
    · exact hagree.tottime
    · exact fun f => (toDouble_eq_iff _).mpr (hagree.tot f)
    · rfl
    · exact maxsubdir_rollupCompute_iff.mpr hagree.size
    · exact (totextdbs_rollupCompute_iff hrows hn).mpr hagree.externalDbs

end Fold

end Aggregate

section Result

variable {columns : List Bytes → SumColumns} {db : Db} {row : SummaryRow}
  {checkIsrolledup : CheckIsRolledUp}

theorem summary_ne_nil_of_rolledup (hroll : getIsrolledup db = true) : db.summary ≠ [] := by
  intro hnil
  rw [getIsrolledup, Db.rootRows, hnil] at hroll
  cases hroll

/-- The row of the rolled-up branch. -/
theorem ownTreesummary_of_rolledup (hroot : db.rootRows = [row]) (hroll : getIsrolledup db = true)
    (htable : db.treesummary.isSome = true) (hcheck : checkIsrolledup.isrolledup db = true)
    (subdirs : List (Option Db)) (canrollup : Bool) :
    (bottomupCollectTreesummary columns checkIsrolledup db subdirs canrollup).1.ownTreesummary =
      [⟨row.inode, (rollupCompute (db.dirSummaries columns) db.externalDbs.length).cols⟩] := by
  obtain ⟨rows, hrows⟩ := Option.isSome_iff_exists.mp htable
  have hwritten : (bottomupCollectTreesummary columns checkIsrolledup db subdirs canrollup).1 =
      db.setTreesummary (rollupComputeRows columns db) := by
    rw [bottomupCollectTreesummary, if_neg (by simp [hrows]), if_pos hcheck]
  have hown : (db.setTreesummary (rollupComputeRows columns db)).rootRows = [row] := hroot
  rw [hwritten, Db.ownTreesummary, hown, rollupComputeRows,
    if_neg (summary_ne_nil_of_rolledup hroll), Db.setTreesummary, hrows, hroot]
  simp [inserttreesumdb, hroot, List.filter_filter, eq_comm (a := row.inode)]

/-- The row that `bottomup_collect_treesummary` computes in SQL for a rolled-up directory is the
sum that `gufi_treesummary` computes with `tsumit` exactly when none of the differences shows. -/
theorem rolledup_treesummary_eq_iff (hroot : db.rootRows = [row])
    (hroll : getIsrolledup db = true) (htable : db.treesummary.isSome = true)
    (hcheck : checkIsrolledup.isrolledup db = true) (subdirs : List (Option Db))
    (canrollup : Bool) (level : ℕ) :
    ((bottomupCollectTreesummary columns checkIsrolledup db subdirs canrollup).1.ownTreesummary.map
        fun r => Sums.ofCols r.cols) = [processdirSum columns db level] ↔
      AgreesInSql (db.dirSummaries columns) db.externalDbs.length := by
  have hrows : db.dirSummaries columns ≠ [] := by
    simpa [Db.dirSummaries] using summary_ne_nil_of_rolledup hroll
  have hn : ∀ r ∈ db.dirSummaries columns, r.externalDbs = db.externalDbs.length := by
    intro r hr
    obtain ⟨row, -, rfl⟩ := List.mem_map.mp hr
    rfl
  have hsum : Summarizes (db.querytsdbRows columns false) 1 (processdirSum columns db level) := by
    have hquery := Summarizes.zeroit.querytsdb (valid_querytsdbRows_summary columns db)
    rw [zero_add, zero_add] at hquery
    rw [processdirSum, if_pos hroll]
    apply hquery.setSubdirs
    rw [totsubdirs_querytsdbRows_summary]
    exact sub_add_cancel _ _
  rw [ownTreesummary_of_rolledup hroot hroll htable hcheck, List.map_singleton, Sums.ofCols_cols,
    List.singleton_inj]
  exact rollupCompute_eq_iff hrows hn hsum

end Result

section Example

/-- A rolled-up directory without subdirectories. -/
def rolledupDb : Db :=
  { linkDb 1 [114] with
    summary := (linkDb 1 [114]).summary.map fun s =>
      { s with canrollup := true, isrolledup := true }
    treesummary := some [] }

theorem rolledup_treesummary_eq_rolledupDb :
    ((bottomupCollectTreesummary linkColumns .check rolledupDb [] false).1.ownTreesummary.map
      fun r => Sums.ofCols r.cols) = [processdirSum linkColumns rolledupDb 0] := by
  apply (rolledup_treesummary_eq_iff rfl rfl rfl rfl [] false 0).mpr
  constructor
  · rfl
  · exact Or.inl rfl
  · rintro f r hr hfiles
    obtain rfl := List.mem_singleton.mp hr
    cases hfiles
  · rintro f r hr hfiles
    obtain rfl := List.mem_singleton.mp hr
    cases hfiles
  · exact fun _ => (toDouble_eq_iff 5).mpr (heldByDouble_of_natAbs_lt (by decide))
  · intro d
    apply heldByDouble_of_natAbs_lt
    cases d <;> decide
  · exact fun _ => heldByDouble_of_natAbs_lt (n := 0) (by decide)

/-- A directory of one block with an empty file. -/
theorem rolledup_treesummary_size :
    ¬∀ (columns : List Bytes → SumColumns) (checkIsrolledup : CheckIsRolledUp) (db : Db)
      (row : SummaryRow) (subdirs : List (Option Db)) (canrollup : Bool) (level : ℕ),
      db.rootRows = [row] → getIsrolledup db = true → db.treesummary.isSome = true →
      checkIsrolledup.isrolledup db = true →
      ((bottomupCollectTreesummary columns checkIsrolledup db subdirs
        canrollup).1.ownTreesummary.map fun r => Sums.ofCols r.cols) =
          [processdirSum columns db level] := by
  intro h
  have heq := h (fun cols => { linkColumns cols with size := 4096 }) .check rolledupDb _ [] false 0
    rfl rfl rfl rfl
  have hsize := congrArg (List.map fun s : Sums => s.maxsubdir .size) heq
  have hcode : ([4096] : List ℤ) = [0] := hsize
  simp at hcode

end Example

end Gufi
