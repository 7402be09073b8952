import Gufi.BottomUp
import Gufi.TreeSummary

/-!
# Tree summaries collected upwards

`bottomup_collect_treesummary` is called on the directories of a tree, the subdirectories of a
directory before the directory. A subdirectory hands up its `treesummary` row, or its summary row
when it has no subdirectories and no table.

What a directory's row lacks is decided by the directory alone: a subdirectory that has a row hands
up a struct without files only with the time totals already left out.
-/

namespace Gufi

variable (columns : List Bytes → SumColumns)

section Program

/-- The call on one directory. Both callers create the table before. -/
def Index.collectTreesummary (checkIsrolledup : CheckIsRolledUp) (ix : Index) (t : DirTree) :
    Index :=
  match (ix t.path).db with
  | none => ix
  | some db =>
      Function.update ix t.path ((ix t.path).setDb
        (bottomupCollectTreesummary columns checkIsrolledup
          { db with treesummary := some (db.treesummary.getD []) }
          (t.subdirs.map fun c => (ix c.path).db) false).1)

/-- The rows of the directory in its `treesummary` table. -/
def Index.ownTreesummary (ix : Index) (t : DirTree) : List Sums :=
  ((ix t.path).db.map fun db => db.ownTreesummary.map fun row => Sums.ofCols row.cols).getD []

end Program

/-- The only row of `summary` is that of the directory, and it is not rolled up. -/
structure Db.SingleRow (db : Db) (row : SummaryRow) : Prop where
  summary : db.summary = [row]
  isroot : row.isroot = true
  isrolledup : row.isrolledup = false

/-- The index has nothing rolled up. -/
def UnrolledTree (ix : Index) (root : DirTree) : Prop :=
  ∀ t ∈ root.subtrees, ∃ db row, (ix t.path).db = some db ∧ db.SingleRow row

/-- Subdirectories come before their parents. Those without subdirectories of their own and
without a table need not come at all. -/
structure SubdirsFirst (ix : Index) (root : DirTree) (order : List DirTree) : Prop where
  mem : ∀ t ∈ order, t ∈ root.subtrees
  nodup : order.Nodup
  first : ∀ pre t post, order = pre ++ t :: post → ∀ c ∈ t.subdirs, c ∈ pre ∨
    c ∉ order ∧ c.subdirs = [] ∧ ∀ db, (ix c.path).db = some db → db.treesummary = none

section Collect

variable {columns} {db : Db} {U : Multiset Sums} {s : Sums}

/-- A subdirectory with one row adds it. -/
theorem Summarizes.collectSubdir (h : Summarizes U 0 s) (hU : ∀ u ∈ U, u.Valid) {sub : Db}
    {u : Sums} (hrow : sub.querytsdbRows columns sub.treesummary.isSome = [u]) (hu : u.Valid) :
    Summarizes (u ::ₘ U) 0 (Gufi.collectSubdir columns (some sub) s) := by
  have hvalid : ∀ v ∈ sub.querytsdbRows columns sub.treesummary.isSome, v.Valid := by
    intro v hv
    rw [hrow] at hv
    obtain rfl := List.mem_singleton.mp hv
    exact hu
  have hquery := Summarizes.zeroit.querytsdb hvalid
  rw [hrow] at hquery
  have hmerge := hquery.merge h (by simpa using hu) hU (Or.inr ⟨rfl, by simp⟩)
  simpa [Gufi.collectSubdir] using hmerge

theorem summarizes_collectSubdirs (db : Db) {cs : List DirTree} {sub : DirTree → Db}
    {u : DirTree → Sums}
    (hrows : ∀ c ∈ cs, (sub c).querytsdbRows columns (sub c).treesummary.isSome = [u c] ∧
      (u c).Valid) {own : DirSummary} (hown : db.dirSummaries columns = [own]) :
    Summarizes (own.sums ::ₘ (cs.map u : List Sums)) 1
      (collectSubdirs columns db (cs.map fun c => some (sub c))) := by
  have hloop {U : Multiset Sums} {s : Sums} (h : Summarizes U 0 s) (hU : ∀ u ∈ U, u.Valid) :
      Summarizes (U + (cs.map u : List Sums)) 0 ((cs.map fun c => some (sub c)).foldl
        (fun tsum sub => collectSubdir columns sub tsum) s) := by
    induction cs generalizing U s with
    | nil => simpa using h
    | cons c cs ih =>
        obtain ⟨hrow, hu⟩ := hrows c (List.mem_cons_self ..)
        have hrest := ih (fun x hx => hrows x (List.mem_cons_of_mem c hx))
          (h.collectSubdir hU hrow hu) (by simpa using ⟨hu, hU⟩)
        rw [List.map_cons, List.map_cons, List.foldl_cons, ← Multiset.cons_coe, Multiset.add_cons,
          ← Multiset.cons_add]
        exact hrest
  have hall := hloop Summarizes.zeroit fun u hu => absurd hu (Multiset.notMem_zero u)
  have hvalid : ∀ v ∈ (cs.map u : List Sums), v.Valid := by
    intro v hv
    obtain ⟨c, hc, rfl⟩ := List.mem_map.mp hv
    exact (hrows c hc).2
  have hquery := hall.querytsdb (valid_querytsdbRows_summary columns db)
  have hrow : db.querytsdbRows columns false = [own.sums] := by
    rw [Db.querytsdbRows, if_neg (by simp), hown]
    rfl
  rw [hrow, zero_add, zero_add, add_comm] at hquery
  have hboth : ∀ v ∈ ({own.sums} : Multiset Sums) + (cs.map u : List Sums), v.Valid := by
    intro v hv
    rcases Multiset.mem_add.mp hv with hv | hv
    · obtain rfl := Multiset.mem_singleton.mp hv
      exact own.sums_valid
    · exact hvalid v hv
  have hzero := (Summarizes.zeroit.merge hquery
    (fun v hv => absurd hv (Multiset.notMem_zero v)) hboth (Or.inl rfl)).dropSubdir
  exact hzero

end Collect

section Step

variable {columns} {db : Db} {row : SummaryRow} {checkIsrolledup : CheckIsRolledUp}

namespace Db.SingleRow

theorem rootRows (h : db.SingleRow row) : db.rootRows = [row] := by
  rw [Db.rootRows, h.summary]
  simp [h.isroot]

theorem dirSummaries (h : db.SingleRow row) :
    db.dirSummaries columns = [row.dirSummary columns db.externalDbs.length] := by
  rw [Db.dirSummaries, h.summary]
  rfl

theorem getIsrolledup (h : db.SingleRow row) : getIsrolledup db = false := by
  rw [Gufi.getIsrolledup, h.rootRows]
  simp [h.isrolledup]

/-- The old rows of the directory are replaced by the new one. -/
theorem bottomupCollectTreesummary (h : db.SingleRow row)
    (hcheck : checkIsrolledup ≠ .knownYes) {rows : List TreeSummaryRow}
    (hrows : db.treesummary = some rows) (subdirs : List (Option Db)) (canrollup : Bool) :
    (bottomupCollectTreesummary columns checkIsrolledup db subdirs canrollup).1 =
      { db with
        treesummary := some (rows.filter (fun x => x.inode ≠ row.inode) ++
          [⟨row.inode, (collectSubdirs columns db subdirs).cols⟩]) } := by
  have hroll : checkIsrolledup.isrolledup db = false := by
    cases checkIsrolledup with
    | check => exact h.getIsrolledup
    | dontCheck => rfl
    | knownYes => exact absurd rfl hcheck
    | knownNo => rfl
  have hold : rows.filter (fun x => (db.rootRows.map (·.inode)).head? ≠ some x.inode) =
      rows.filter (fun x => x.inode ≠ row.inode) := by
    rw [h.rootRows]
    apply List.filter_congr
    intro x _
    simp [eq_comm (a := row.inode)]
  unfold Gufi.bottomupCollectTreesummary
  rw [if_neg (by simp [hrows]), if_neg (by simp [hroll]), Db.setTreesummary, hrows,
    Option.map_some, hold, inserttreesumdb, h.rootRows]
  rfl

theorem ownTreesummary (h : db.SingleRow row) (rows : List TreeSummaryRow) (s : Sums) :
    ({ db with
        treesummary := some (rows.filter (fun x => x.inode ≠ row.inode) ++
          [⟨row.inode, s.cols⟩]) } : Db).ownTreesummary = [⟨row.inode, s.cols⟩] := by
  have hroot : ({ db with
        treesummary := some (rows.filter (fun x => x.inode ≠ row.inode) ++
          [⟨row.inode, s.cols⟩]) } : Db).rootRows = [row] := h.rootRows
  rw [Db.ownTreesummary, hroot]
  simp [List.filter_append, List.filter_filter]

end Db.SingleRow

end Step

section Run

variable {columns} {ix ix₁ : Index} {root t : DirTree} {order pre : List DirTree}
  {checkIsrolledup : DirTree → CheckIsRolledUp}

def Index.collectAll (columns : List Bytes → SumColumns)
    (checkIsrolledup : DirTree → CheckIsRolledUp) (order : List DirTree) (ix : Index) : Index :=
  order.foldl (fun ix t => ix.collectTreesummary columns (checkIsrolledup t) t) ix

/-- The summary of the directory itself as it is read. -/
def DirTree.ownSums (columns : List Bytes → SumColumns) (ix : Index) (t : DirTree) : List Sums :=
  (((ix t.path).dirSummary columns).map DirSummary.sums).toList

/-- The summary rows that are read for the row of a directory: its own and those of the
subdirectories that are not processed. -/
def DirTree.rowsAlone (columns : List Bytes → SumColumns) (ix : Index) (order : List DirTree)
    (t : DirTree) : Multiset Sums :=
  ((t :: t.subdirs.filter fun c => c ∉ order).flatMap fun s => s.ownSums columns ix : List Sums)

/-- The row of the directory is the flat fold of the summaries of its tree. -/
def FlatAt (columns : List Bytes → SumColumns) (ix ix₁ : Index) (t : DirTree) : Prop :=
  ix₁.ownTreesummary t = [flatFold (t.dirSummaries columns ix)]

/-- After the directories in `pre`: each has one row, which adds up structs that say what the
directories below say if the rows of the subdirectories do, and that loses the times of the rows
that were read alone. Nothing else has changed. -/
structure Collected (columns : List Bytes → SumColumns) (ix : Index) (root : DirTree)
    (order pre : List DirTree) (ix₁ : Index) : Prop where
  kept : ∀ t ∈ root.subtrees, ∀ db, (ix t.path).db = some db →
    ∃ rows, (ix₁ t.path).db = some { db with treesummary := rows }
  fresh : ∀ t ∈ root.subtrees, t ∉ pre → (ix₁ t.path).db = (ix t.path).db
  done : ∀ t ∈ pre, ∃ s U, ix₁.ownTreesummary t = [s] ∧ Summarizes U 1 s ∧
    (∀ u ∈ U, u.Valid) ∧ U ≠ 0 ∧ (∀ f, lostTime U f = lostTime (t.rowsAlone columns ix order) f) ∧
    ((∀ c ∈ t.subdirs, c ∈ order → FlatAt columns ix ix₁ c) →
      foldUnits U = foldUnits ((t.dirSummaries columns ix).map DirSummary.sums))

theorem UnrolledTree.dirSummary (columns : List Bytes → SumColumns) (h : UnrolledTree ix root)
    (ht : t ∈ root.subtrees) :
    ∃ db row, (ix t.path).db = some db ∧ db.SingleRow row ∧
      (ix t.path).dirSummary columns = some (row.dirSummary columns db.externalDbs.length) := by
  obtain ⟨db, row, hdb, hrow⟩ := h t ht
  refine ⟨db, row, hdb, hrow, ?_⟩
  rw [Dir.dirSummary, hdb, Option.bind_some, hrow.rootRows]
  rfl

theorem UnrolledTree.dirSummaries_ne_zero (h : UnrolledTree ix root) (ht : t ∈ root.subtrees) :
    t.dirSummaries columns ix ≠ 0 := by
  obtain ⟨db, row, -, -, hown⟩ := h.dirSummary columns ht
  rw [DirTree.dirSummaries_eq, hown]
  intro hzero
  have hcard := congrArg Multiset.card hzero
  simp at hcard

/-- What a subdirectory hands up: the row of a processed one, which has lost its times already,
or the summary row of one without subdirectories. -/
structure HandsUp (columns : List Bytes → SumColumns) (ix ix₁ : Index) (order : List DirTree)
    (c : DirTree) (sub : Db) (u : Sums) : Prop where
  db : (ix₁ c.path).db = some sub
  rows : sub.querytsdbRows columns sub.treesummary.isSome = [u]
  valid : u.Valid
  processed : c ∈ order → ix₁.ownTreesummary c = [u] ∧ ∀ f, lostTime {u} f = 0
  alone : c ∉ order → c.ownSums columns ix = [u] ∧
    foldUnits {u} = foldUnits ((c.dirSummaries columns ix).map DirSummary.sums)

theorem Collected.handsUp (hix : UnrolledTree ix root) (horder : SubdirsFirst ix root order)
    (h : Collected columns ix root order pre ix₁) {post : List DirTree}
    (hpre : order = pre ++ t :: post) {c : DirTree} (hc : c ∈ t.subdirs) :
    ∃ sub u, HandsUp columns ix ix₁ order c sub u := by
  have ht : t ∈ root.subtrees := horder.mem t (by simp [hpre])
  have hcmem := DirTree.subdir_mem_subtrees ht hc
  obtain ⟨db, row, hdb, hrow, hown⟩ := hix.dirSummary columns hcmem
  obtain ⟨rows, hsub⟩ := h.kept c hcmem db hdb
  rcases horder.first pre t post hpre c hc with hcpre | ⟨hcorder, hleaf, hnone⟩
  · obtain ⟨s, U, hs, hsum, hvalid, hU, -, -⟩ := h.done c hcpre
    have hread : ({ db with treesummary := rows } : Db).ownTreesummary.map
        (fun row => Sums.ofCols row.cols) = [s] := by
      rw [Index.ownTreesummary, hsub] at hs
      exact hs
    have hsome : rows.isSome = true := by
      cases rows with
      | none =>
          have hnil : ({ db with treesummary := none } : Db).ownTreesummary = [] :=
            List.flatMap_eq_nil_iff.mpr fun _ _ => rfl
          rw [hnil] at hread
          cases hread
      | some rows => rfl
    refine ⟨_, s, hsub, ?_, hsum.valid hvalid (Or.inr rfl), ?_, ?_⟩
    · rw [Db.querytsdbRows, if_pos hsome, hread]
    · exact fun _ => ⟨hs, hsum.lostTime_singleton hvalid⟩
    · exact fun hnot => absurd (by simp [hpre, hcpre]) hnot
  · have hfresh := h.fresh c hcmem (fun hcpre => hcorder (by simp [hpre, hcpre]))
    rw [hdb] at hfresh
    refine ⟨db, (row.dirSummary columns db.externalDbs.length).sums, hfresh, ?_,
      DirSummary.sums_valid _, ?_, ?_⟩
    · rw [Db.querytsdbRows, hnone db hdb, if_neg (by simp), hrow.dirSummaries]
      rfl
    · exact fun hin => absurd hin hcorder
    · refine fun _ => ⟨?_, ?_⟩
      · rw [DirTree.ownSums, hown]
        rfl
      · rw [DirTree.dirSummaries_eq, hown, hleaf]
        rfl

variable {cs : List DirTree} {u : DirTree → Sums}

/-- The times that are lost among what the subdirectories hand up. -/
theorem lostTime_handsUp {sub : DirTree → Db}
    (hup : ∀ c ∈ cs, HandsUp columns ix ix₁ order c (sub c) (u c)) (f : TimeField) :
    lostTime (cs.map u : List Sums) f = lostTime ((cs.filter fun c => c ∉ order).flatMap fun s =>
      s.ownSums columns ix : List Sums) f := by
  induction cs with
  | nil => rfl
  | cons c cs ih =>
      have hrest := ih fun x hx => hup x (List.mem_cons_of_mem c hx)
      have hc := hup c (List.mem_cons_self ..)
      have hcons : lostTime ((c :: cs).map u : List Sums) f =
          lostTime {u c} f + lostTime (cs.map u : List Sums) f := by
        rw [← lostTime_add]
        rfl
      rw [hcons, hrest]
      by_cases hmem : c ∈ order
      · rw [(hc.processed hmem).2, zero_add, List.filter_cons_of_neg (by simpa using hmem)]
      · rw [List.filter_cons_of_pos (by simpa using hmem), List.flatMap_cons,
          (hc.alone hmem).1, ← lostTime_add]
        rfl

theorem foldUnits_handsUp {sub : DirTree → Db} (hix : UnrolledTree ix root)
    (hmem : ∀ c ∈ cs, c ∈ root.subtrees)
    (hup : ∀ c ∈ cs, HandsUp columns ix ix₁ order c (sub c) (u c))
    (hflat : ∀ c ∈ cs, c ∈ order → FlatAt columns ix ix₁ c) :
    foldUnits (cs.map u : List Sums) =
      foldUnits ((cs.map fun c : DirTree => c.dirSummaries columns ix).sum.map
        DirSummary.sums) := by
  have hsum : ((cs.map u : List Sums) : Multiset Sums) = (cs.map fun c => {u c}).sum := by
    induction cs with
    | nil => rfl
    | cons c cs ih =>
        rw [List.map_cons, List.map_cons, List.sum_cons, ← ih
          (fun x hx => hmem x (List.mem_cons_of_mem c hx))
          (fun x hx => hup x (List.mem_cons_of_mem c hx))
          (fun x hx => hflat x (List.mem_cons_of_mem c hx))]
        rfl
  rw [hsum, map_sum_map]
  apply foldUnits_map_sum_congr
  intro c hc
  by_cases horder : c ∈ order
  · have hone := (hup c hc).processed horder |>.1
    rw [hflat c hc horder] at hone
    rw [← List.singleton_inj.mp hone]
    exact foldUnits_flatFold (hix.dirSummaries_ne_zero (hmem c hc))
  · exact ((hup c hc).alone horder).2

theorem ownTreesummary_congr {ix₂ : Index} (h : ix₂ t.path = ix₁ t.path) :
    ix₂.ownTreesummary t = ix₁.ownTreesummary t := by
  rw [Index.ownTreesummary, h]
  rfl

/-- What the call writes when the subdirectories hand up one row each. -/
theorem collectTreesummary_spec {db : Db} {row : SummaryRow} {rows : Option (List TreeSummaryRow)}
    (hrow : db.SingleRow row) (hdb : (ix₁ t.path).db = some { db with treesummary := rows })
    {how : CheckIsRolledUp} (hhow : how ≠ .knownYes) {sub : DirTree → Db}
    (hup : ∀ c ∈ t.subdirs, HandsUp columns ix ix₁ order c (sub c) (u c)) :
    ∃ s rows', (∀ p, p ≠ t.path → ix₁.collectTreesummary columns how t p = ix₁ p) ∧
      (ix₁.collectTreesummary columns how t t.path).db =
        some { db with treesummary := some rows' } ∧
      (ix₁.collectTreesummary columns how t).ownTreesummary t = [s] ∧
      Summarizes ((row.dirSummary columns db.externalDbs.length).sums ::ₘ
        (t.subdirs.map u : List Sums)) 1 s := by
  let opened : Db := { db with treesummary := some (rows.getD []) }
  have hopened : opened.SingleRow row := ⟨hrow.summary, hrow.isroot, hrow.isrolledup⟩
  have hsubs : (t.subdirs.map fun c => (ix₁ c.path).db) = t.subdirs.map fun c => some (sub c) :=
    List.map_congr_left fun c hc => (hup c hc).db
  have hsum := summarizes_collectSubdirs opened
    (fun c hc => ⟨(hup c hc).rows, (hup c hc).valid⟩) hopened.dirSummaries
  set s := collectSubdirs columns opened (t.subdirs.map fun c => some (sub c))
  set rows' := (rows.getD []).filter (fun x => x.inode ≠ row.inode) ++ [⟨row.inode, s.cols⟩]
  have hcall : ix₁.collectTreesummary columns how t = Function.update ix₁ t.path
      ((ix₁ t.path).setDb { db with treesummary := some rows' }) := by
    simp only [Index.collectTreesummary, hdb, hsubs]
    rw [hopened.bottomupCollectTreesummary hhow rfl]
  have hat : (ix₁.collectTreesummary columns how t t.path).db =
      some { db with treesummary := some rows' } := by
    rw [hcall, Function.update_self, Dir.setDb_db]
  refine ⟨s, rows', ?_, hat, ?_, hsum⟩
  · intro p hp
    rw [hcall, Function.update_of_ne hp]
  · have hread := hrow.ownTreesummary (rows.getD []) s
    rw [Index.ownTreesummary, hat, Option.map_some, Option.getD_some, hread, List.map_singleton,
      Sums.ofCols_cols]

theorem Collected.collectTreesummary (hroot : root.WellFormed) (hix : UnrolledTree ix root)
    (horder : SubdirsFirst ix root order) (hcheck : ∀ t, checkIsrolledup t ≠ .knownYes)
    (h : Collected columns ix root order pre ix₁) {post : List DirTree}
    (hpre : order = pre ++ t :: post) :
    Collected columns ix root order (pre ++ [t])
      (ix₁.collectTreesummary columns (checkIsrolledup t) t) := by
  have ht : t ∈ root.subtrees := horder.mem t (by simp [hpre])
  have hnew : t ∉ pre := by
    intro hmem
    have hnodup := horder.nodup
    rw [hpre] at hnodup
    exact (List.nodup_append.mp hnodup).2.2 t hmem t (List.mem_cons_self ..) rfl
  obtain ⟨db, row, hdb, hrow, hown⟩ := hix.dirSummary columns ht
  obtain ⟨rows₁, hdb₁⟩ := h.kept t ht db hdb
  choose! sub u hup using fun c (hc : c ∈ t.subdirs) => h.handsUp hix horder hpre hc
  obtain ⟨s, rows, hsame, hat, hread, hsum⟩ :=
    collectTreesummary_spec hrow hdb₁ (hcheck t) hup
  have hother : ∀ x ∈ root.subtrees, x ≠ t →
      ix₁.collectTreesummary columns (checkIsrolledup t) t x.path = ix₁ x.path :=
    fun x hx hne => hsame x.path fun hpath => hne (hroot.eq_of_path_eq hx ht hpath)
  constructor
  · intro x hx db' hdb'
    by_cases hxt : x = t
    · subst hxt
      obtain rfl := Option.some.inj (hdb.symm.trans hdb')
      exact ⟨some rows, hat⟩
    · rw [hother x hx hxt]
      exact h.kept x hx db' hdb'
  · intro x hx hxpre
    have hxt : x ≠ t := fun heq => hxpre (by simp [heq])
    rw [hother x hx hxt]
    exact h.fresh x hx fun hmem => hxpre (List.mem_append_left _ hmem)
  · intro x hx
    rcases List.mem_append.mp hx with hxpre | hx
    · have hxmem := horder.mem x (by simp [hpre, hxpre])
      have hxt : x ≠ t := fun heq => hnew (heq ▸ hxpre)
      obtain ⟨s', U, hs', hsum', hvalid', hU', hlost', hfold'⟩ := h.done x hxpre
      refine ⟨s', U, (ownTreesummary_congr (hother x hxmem hxt)).trans hs', hsum', hvalid', hU',
        hlost', fun hflat => hfold' fun c hc hcorder => ?_⟩
      have hct : c ≠ t := by
        rintro rfl
        obtain ⟨p₁, p₂, rfl⟩ := List.append_of_mem hxpre
        rcases horder.first p₁ x (p₂ ++ c :: post) (by simp [hpre]) c hc with hc | hc
        · exact hnew (List.mem_append_left _ hc)
        · exact hc.1 hcorder
      have hcflat := hflat c hc hcorder
      rwa [FlatAt, ownTreesummary_congr (hother c (DirTree.subdir_mem_subtrees hxmem hc) hct)]
        at hcflat
    · obtain rfl := List.mem_singleton.mp hx
      have hownSums : x.ownSums columns ix =
          [(row.dirSummary columns db.externalDbs.length).sums] := by
        rw [DirTree.ownSums, hown]
        rfl
      refine ⟨s, _, hread, hsum, ?_, Multiset.cons_ne_zero, ?_, ?_⟩
      · intro v hv
        rcases Multiset.mem_cons.mp hv with rfl | hv
        · exact DirSummary.sums_valid _
        · obtain ⟨c, hc, rfl⟩ := List.mem_map.mp hv
          exact (hup c hc).valid
      · intro f
        rw [← Multiset.singleton_add, lostTime_add, lostTime_handsUp hup, DirTree.rowsAlone,
          List.flatMap_cons, hownSums, ← lostTime_add]
        rfl
      · intro hflat
        rw [← Multiset.singleton_add, DirTree.dirSummaries_eq, hown, Multiset.map_add]
        apply foldUnits_add_congr rfl
        apply foldUnits_handsUp hix (fun c hc => DirTree.subdir_mem_subtrees ht hc) hup
        intro c hc hcorder
        have hcmem := DirTree.subdir_mem_subtrees ht hc
        have hct : c ≠ x := by
          rintro rfl
          exact absurd (hroot.length_path_lt ht hc) (lt_irrefl _)
        have hcflat := hflat c hc hcorder
        rwa [FlatAt, ownTreesummary_congr (hother c hcmem hct)] at hcflat

theorem Collected.start (ix : Index) (root : DirTree) (order : List DirTree) :
    Collected columns ix root order [] ix where
  kept _ _ db hdb := ⟨db.treesummary, hdb⟩
  fresh _ _ _ := rfl
  done _ ht := absurd ht List.not_mem_nil

theorem collected_collectAll (columns : List Bytes → SumColumns) (hroot : root.WellFormed)
    (hix : UnrolledTree ix root)
    (horder : SubdirsFirst ix root order) (hcheck : ∀ t, checkIsrolledup t ≠ .knownYes) :
    Collected columns ix root order order (ix.collectAll columns checkIsrolledup order) := by
  have hprefix {post : List DirTree} : ∀ {pre : List DirTree} {ix₁ : Index}, order = pre ++ post →
      Collected columns ix root order pre ix₁ →
      Collected columns ix root order order (ix₁.collectAll columns checkIsrolledup post) := by
    induction post with
    | nil =>
        intro pre ix₁ hpre h
        rw [hpre, List.append_nil] at h ⊢
        exact h
    | cons t post ih =>
        intro pre ix₁ hpre h
        exact ih (by simpa using hpre) (h.collectTreesummary hroot hix horder hcheck hpre)
  exact hprefix (List.nil_append order).symm (Collected.start ix root order)

/-- The rows that `bottomup_collect_treesummary` writes are the flat folds of the summaries of
their trees exactly when, for every directory that it processes, the time totals of those of its
own row and the rows of unprocessed subdirectories that count no files are zero together. -/
theorem collectAll_flat_iff (hroot : root.WellFormed) (hix : UnrolledTree ix root)
    (horder : SubdirsFirst ix root order) (hcheck : ∀ t, checkIsrolledup t ≠ .knownYes) :
    (∀ t ∈ order, FlatAt columns ix (ix.collectAll columns checkIsrolledup order) t) ↔
      ∀ t ∈ order, ∀ f, lostTime (t.rowsAlone columns ix order) f = 0 := by
  have h := collected_collectAll columns hroot hix horder hcheck
  set ix₁ := ix.collectAll columns checkIsrolledup order
  have hone : ∀ t ∈ order, (∀ c ∈ t.subdirs, c ∈ order → FlatAt columns ix ix₁ c) →
      (FlatAt columns ix ix₁ t ↔ ∀ f, lostTime (t.rowsAlone columns ix order) f = 0) := by
    intro t ht hbelow
    obtain ⟨s, U, hread, hsum, -, hU, hlost, hfold⟩ := h.done t ht
    rw [FlatAt, hread, List.singleton_inj, hsum.eq_flatFold_iff hU (hfold hbelow)]
    exact forall_congr' fun f => by rw [hlost]
  constructor
  · intro hflat t ht
    exact (hone t ht fun c _ hc => hflat c hc).mp (hflat t ht)
  · intro hzero t ht
    induction t using DirTree.induct with
    | node p cs ih =>
        exact (hone _ ht fun c hc hcorder => ih c hc hcorder).mpr (hzero _ ht)

end Run

section Example

theorem wellFormed_linkTree : linkTree.WellFormed := by
  constructor
  · intro t ht c hc
    simp only [linkTree, DirTree.subtrees_eq, DirTree.subdirs, List.flatMap_cons, List.flatMap_nil,
      List.append_nil, List.mem_cons, List.not_mem_nil, or_false] at ht
    rcases ht with rfl | rfl
    · obtain rfl := List.mem_singleton.mp hc
      exact ⟨[108], by decide, rfl⟩
    · cases hc
  · decide

theorem unrolledTree_linkIndex (files : ℕ) (root : DirTree) :
    UnrolledTree (linkIndex files) root :=
  fun t _ => ⟨linkDb files t.path, _, rfl, rfl, rfl, rfl⟩

/-- The subdirectory and then the directory. -/
theorem subdirsFirst_linkTree (files : ℕ) :
    SubdirsFirst (linkIndex files) linkTree (linkTree.subdirs ++ [linkTree]) where
  mem := by
    intro t ht
    rcases List.mem_append.mp ht with ht | ht
    · exact DirTree.subdir_mem_subtrees linkTree.self_mem_subtrees ht
    · obtain rfl := List.mem_singleton.mp ht
      exact linkTree.self_mem_subtrees
  nodup := by decide
  first := by
    intro pre t post hpre c hc
    left
    rcases pre with _ | ⟨a, _ | ⟨b, pre⟩⟩
    · obtain ⟨rfl, -⟩ := List.cons.inj hpre
      cases hc
    · obtain ⟨rfl, -⟩ := List.cons.inj (List.cons.inj hpre).2
      obtain rfl := List.mem_singleton.mp hc
      rw [← (List.cons.inj hpre).1]
      exact List.mem_cons_self ..
    · have hlen := congrArg List.length hpre
      simp [linkTree, DirTree.subdirs] at hlen

theorem collectAll_flat_linkIndex :
    FlatAt linkColumns (linkIndex 1) ((linkIndex 1).collectAll linkColumns (fun _ => .check)
      (linkTree.subdirs ++ [linkTree])) linkTree := by
  refine (collectAll_flat_iff wellFormed_linkTree (unrolledTree_linkIndex 1 _)
    (subdirsFirst_linkTree 1) (by simp)).mpr ?_ linkTree (by simp)
  intro t ht f
  rcases List.mem_append.mp ht with ht | ht
  · obtain rfl := List.mem_singleton.mp ht
    rfl
  · obtain rfl := List.mem_singleton.mp ht
    rfl

/-- The row of a directory that holds links only lacks their times. -/
theorem collectAll_loses_times :
    ¬∀ (columns : List Bytes → SumColumns) (ix : Index) (root : DirTree) (order : List DirTree)
      (checkIsrolledup : DirTree → CheckIsRolledUp), root.WellFormed → UnrolledTree ix root →
      SubdirsFirst ix root order → (∀ t, checkIsrolledup t ≠ .knownYes) →
      ∀ t ∈ order, FlatAt columns ix (ix.collectAll columns checkIsrolledup order) t := by
  intro h
  have hflat := h linkColumns _ _ _ (fun _ => .check) wellFormed_linkTree
    (unrolledTree_linkIndex 0 _) (subdirsFirst_linkTree 0) (by simp)
    (.node [114, 47, 108] []) (List.mem_cons_self ..)
  have htimes := congrArg (List.map fun s : Sums => s.tottime .ctime) hflat
  have hcode : ([0] : List ℤ) = [5] := htimes
  simp at hcode

end Example

end Gufi
