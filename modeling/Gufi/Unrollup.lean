import Gufi.FailedRollup
import Gufi.RollupPermissions
import Gufi.Worklist
import Mathlib.Algebra.Order.BigOperators.Group.List

/-!
# gufi_unrollup after gufi_rollup

`gufi_unrollup` walks the tree downwards with its own filter on names, hands the flag of a
rolled-up directory on to everything below, and cleans every directory that carries the flag. A
rolled-up directory that the walk reaches is undone, in whatever order the queue is worked off and
whatever failed in the rollup. What the filter keeps from the walk stays rolled up.

The walk has no level limits, and its own file system calls succeed.
-/

namespace Gufi

open Relation

section Walk

/-- `struct Unrollup`: a directory and the flag set by its parent. -/
structure Unrollup where
  dir : DirTree
  rolledup : Bool

/-- `.db`. -/
def dbSuffix : Bytes := [46, 100, 98]

/-- The entries `processdir` passes over by their name. -/
def skipsEntry (name : Bytes) : Bool :=
  if name.length < 3 then name = [46] || name = [46, 46]
  else 3 < name.length && name.drop (name.length - 3) = dbSuffix

/-- Enqueue the subdirectories, then clean the directory when it is rolled up. -/
def processdir (work : Unrollup) (ix : Index) : Index × List Unrollup :=
  let rolledup := work.rolledup || (ix work.dir.path).isrolledup
  (if rolledup then
      Function.update ix work.dir.path (rollupCleanup false (ix work.dir.path))
    else ix,
    (work.dir.subdirs.filter fun c => !skipsEntry c.name).map fun c => ⟨c, rolledup⟩)

/-- A finished run of gufi_unrollup on the root. -/
def Unrolls (root : DirTree) (ix ix' : Index) : Prop :=
  Worklist.Reaches processdir ([⟨root, false⟩], ix) ([], ix')

/-- The subdirectories the walk enqueues. -/
def Descends (t c : DirTree) : Prop :=
  c ∈ t.subdirs ∧ skipsEntry c.name = false

/-- The directories the walk reaches. -/
def Walked : DirTree → DirTree → Prop :=
  ReflTransGen Descends

theorem mem_processdir_items {work : Unrollup} {ix : Index} {b : Unrollup} :
    b ∈ (processdir work ix).2 ↔ Descends work.dir b.dir ∧
      b.rolledup = (work.rolledup || (ix work.dir.path).isrolledup) := by
  simp only [processdir, List.mem_map, List.mem_filter, Bool.not_eq_true', Descends]
  constructor
  · rintro ⟨c, hc, rfl⟩
    exact ⟨hc, rfl⟩
  · rintro ⟨hc, hr⟩
    exact ⟨b.dir, hc, by rw [← hr]⟩

theorem sum_length_subtrees_lt (t : DirTree) (f : DirTree → Bool) :
    ((t.subdirs.filter f).map fun c => c.subtrees.length).sum < t.subtrees.length := by
  have hle : ∀ cs : List DirTree, ((cs.filter f).map fun c => c.subtrees.length).sum ≤
      (cs.flatMap DirTree.subtrees).length := by
    intro cs
    rw [List.length_flatMap]
    exact List.Sublist.sum_le_sum (List.filter_sublist.map _) (fun _ _ => Nat.zero_le _)
  rw [DirTree.subtrees_eq, List.length_cons]
  exact Nat.lt_succ_of_le (hle t.subdirs)

/-- gufi_unrollup finishes. -/
theorem exists_unrolls (root : DirTree) (ix : Index) : ∃ ix', Unrolls root ix ix' := by
  apply Worklist.exists_reaches_nil (fun work : Unrollup => work.dir.subtrees.length)
  intro work x
  simp only [processdir, List.map_map]
  exact sum_length_subtrees_lt work.dir _

theorem Walked.mem_subtrees {t u : DirTree} (h : Walked t u) : u ∈ t.subtrees := by
  induction h with
  | refl => exact t.self_mem_subtrees
  | tail _ hdesc ih => exact DirTree.subdir_mem_subtrees ih hdesc.1

/-- Nothing below a directory that the walk does not reach is reached. -/
theorem Walked.of_mem_subtrees {root : DirTree} (hroot : root.WellFormed) {t u : DirTree}
    (ht : t ∈ root.subtrees) (hu : u ∈ t.subtrees) (h : Walked root u) : Walked root t := by
  induction t using DirTree.induct with
  | node p cs ih =>
      rw [DirTree.subtrees_eq] at hu
      rcases List.mem_cons.mp hu with rfl | hu
      · exact h
      · obtain ⟨c, hc, huc⟩ := List.mem_flatMap.mp hu
        have hcroot := DirTree.subdir_mem_subtrees ht hc
        have hwalked : Walked root c := ih c hc hcroot huc
        rcases ReflTransGen.cases_tail hwalked with rfl | ⟨t', ht', hdesc⟩
        · have hlt := hroot.length_path_lt ht hc
          have hle := hroot.length_path_le ht
          omega
        · rw [hroot.parent_unique ht (Walked.mem_subtrees ht') hc hdesc.1]
          exact ht'

end Walk

section Undone

/-- The directory is as it was before, `treesummary` and `canrollup` aside: it is not rolled up,
nothing is rolled up into it, its own tables are the same, and so are its xattr databases. -/
structure Undone (d₀ d : Dir) : Prop where
  unrolled : d.Unrolled
  tables : d.db.map Db.content = d₀.db.map Db.content
  xattrDbs : d.xattrDbs = d₀.xattrDbs

theorem Dir.Unrolled.isrolledup_eq_false {d : Dir} (h : d.Unrolled) : d.isrolledup = false := by
  obtain ⟨db, hdb, hun⟩ := h.db
  obtain ⟨row, hrow, hroot, hroll⟩ := hun.summary
  simp [Dir.isrolledup, hdb, getIsrolledup, Db.rootRows, hrow, hroot, hroll]

theorem Dir.Unrolled.listed_eq_nil {d : Dir} (h : d.Unrolled) : d.listed = [] := by
  obtain ⟨db, hdb, hun⟩ := h.db
  simp [Dir.listed, hdb, Db.rolledXattrDbs, hun.externalDbsRollup]

theorem Dir.Unrolled.content_xattrDbs {d : Dir} (h : d.Unrolled) :
    d.content.xattrDbs = d.xattrDbs := by
  funext f
  simp [Dir.content, h.listed_eq_nil]

theorem Dir.Unrolled.rootRows_ne_nil {d : Dir} {db : Db} (h : d.Unrolled) (hdb : d.db = some db) :
    db.rootRows ≠ [] := by
  obtain ⟨db', hdb', hun⟩ := h.db
  obtain rfl := Option.some.inj (hdb.symm.trans hdb')
  obtain ⟨row, hrow, hroot, -⟩ := hun.summary
  simp [Db.rootRows, hrow, hroot]

theorem Undone.refl {d : Dir} (h : d.Unrolled) : Undone d d :=
  ⟨h, rfl, rfl⟩

theorem Undone.setTreesummary {d : Dir} {db : Db} (h : d.Unrolled) (hdb : d.db = some db)
    (rows : List TreeSummaryRow) : Undone d (d.setDb { db with treesummary := some rows }) := by
  obtain ⟨db', hdb', hun⟩ := h.db
  obtain rfl := Option.some.inj (hdb.symm.trans hdb')
  constructor
  · exact ⟨⟨_, rfl, hun.summary, hun.pentriesRollup, hun.xattrsRollup, hun.externalDbsRollup⟩,
      h.xattrDbs⟩
  · rw [hdb]
    rfl
  · rfl

theorem unrolled_rollupCleanup {db db₀ : Db} (h : db.content = db₀.content) (h₀ : db₀.Unrolled) :
    (db.rollupCleanup false).Unrolled := by
  obtain ⟨row, hrow, hroot, -⟩ := h₀.summary
  have hrows : (db.rollupCleanup false).summary =
      db₀.rootRows.map fun s => { s with canrollup := true, isrolledup := false } :=
    congrArg Db.summary h
  rw [Db.rootRows, hrow, List.filter_cons_of_pos hroot] at hrows
  exact ⟨⟨_, hrows, hroot, rfl⟩, rfl, rfl, rfl⟩

/-- Cleaning a directory brings it back, whatever has been rolled up into it. -/
theorem undone_rollupCleanup {d₀ d : Dir} (h₀ : d₀.Unrolled) (h : d.content = d₀.content) :
    Undone d₀ (rollupCleanup false d) := by
  have hfiles : (rollupCleanup false d).xattrDbs = d₀.xattrDbs := by
    funext f
    rw [Dir.rollupCleanup_xattrDbs, h, h₀.content_xattrDbs]
  have htables : (rollupCleanup false d).db.map Db.content = d₀.db.map Db.content := by
    have hdb := congrArg Dir.db ((Dir.content_rollupCleanup false d).trans h)
    exact hdb
  refine ⟨⟨?_, ?_⟩, htables, hfiles⟩
  · obtain ⟨db₀, hdb₀, hun⟩ := h₀.db
    have hcontent : d.db.map Db.content = some db₀.content := by
      rw [← Option.map_some, ← hdb₀]
      exact congrArg Dir.db h
    obtain ⟨db, hdb, heq⟩ := Option.map_eq_some_iff.mp hcontent
    refine ⟨db.rollupCleanup false, ?_, unrolled_rollupCleanup heq hun⟩
    rw [Dir.rollupCleanup_db, hdb]
    rfl
  · rw [hfiles]
    exact h₀.xattrDbs

end Undone

section RolledUp

/-- Files and links of a directory. -/
def Dir.nondirs (d : Dir) : ℕ :=
  (d.db.map getNondirs).getD 0

/-- The options let a directory without subdirectories roll up. -/
def Config.RollsUpLeaf (cfg : Config) (level : ℕ) (d : Dir) : Prop :=
  cfg.minLevel ≤ level ∧ (cfg.entriesLimit = 0 ∨ d.nondirs ≤ cfg.entriesLimit)

theorem rollsUpLeaf_of_shouldRollup_pos {cfg : Config} {level : ℕ} {dst : Db}
    {children : List Child} (h : 0 < shouldRollup cfg level dst children) :
    cfg.minLevel ≤ level ∧ (cfg.entriesLimit = 0 ∨ getNondirs dst ≤ cfg.entriesLimit) := by
  unfold shouldRollup at h
  split_ifs at h with hmin hlimit
  · exact absurd h (lt_irrefl 0)
  · exact absurd h (lt_irrefl 0)
  · constructor <;> omega

theorem shouldRollup_leaf {cfg : Config} {level : ℕ} {dst : Db} (hmin : cfg.minLevel ≤ level)
    (hlimit : cfg.entriesLimit = 0 ∨ getNondirs dst ≤ cfg.entriesLimit) :
    0 < shouldRollup cfg level dst [] := by
  have hno : ¬(cfg.entriesLimit ≠ 0 ∧ cfg.entriesLimit < getNondirs dst) := by omega
  rw [shouldRollup, if_neg (not_lt.mpr hmin), if_neg hno]
  change 0 < if (1 : ℤ) = 1 ∧ cfg.entriesLimit ≠ 0 ∧ cfg.entriesLimit < getNondirs dst + 0 then
    (0 : ℤ) else 1
  rw [if_neg (fun h => hno h.2)]
  exact one_pos

variable {ts : TreeSummaryCode} {cfg : Config} {F : DirFaults → Prop} {root : DirTree} {ix : Index}
  {s : RunState}

/-- What a rollup leaves of a directory at the given level. -/
structure LeftBy (cfg : Config) (ix : Index) (s : RunState) (l : ℕ) (t : DirTree) : Prop where
  undone : (s.ix t.path).isrolledup = false → Undone (ix t.path) (s.ix t.path)
  children : (s.ix t.path).isrolledup = true →
    ∀ c ∈ t.subdirs, (s.ix c.path).isrolledup = true
  allowed : (s.ix t.path).isrolledup = true → cfg.RollsUpLeaf l (ix t.path)
  leaf : t.subdirs = [] → cfg.RollsUpLeaf l (ix t.path) → (s.ix t.path).isrolledup = true
  rolledup : s.rolledup t.path = true → (s.ix t.path).isrolledup = true

theorem AscendedFrom.leftBy {s₀ : RunState} {flt : DirFaults} {l : ℕ} {t : DirTree}
    (h : AscendedFrom ts cfg F root ix s₀ flt l t s) (ht : (ix t.path).Unrolled)
    (hchild : ∀ c ∈ t.subdirs, s.rolledup c.path = true → (s.ix c.path).isrolledup = true) :
    LeftBy cfg ix s l t := by
  have hown : s₀.ix t.path = ix t.path := h.run.ix_eq_of_not_ascended h.fresh
  obtain ⟨db, hdb, hun⟩ := ht.db
  have hnondirs : (ix t.path).nondirs = getNondirs db := by
    rw [Dir.nondirs, hdb]
    rfl
  have hunrolled (d : Dir) (hd : Undone (ix t.path) d) (hdir : s.ix t.path = d)
      (hroll : s.rolledup t.path = false)
      (hleaf : t.subdirs = [] → ¬cfg.RollsUpLeaf l (ix t.path)) : LeftBy cfg ix s l t := by
    have hfalse : (s.ix t.path).isrolledup = false := by
      rw [hdir]
      exact hd.unrolled.isrolledup_eq_false
    refine ⟨fun _ => hdir ▸ hd, ?_, ?_, fun hl hr => absurd hr (hleaf hl), ?_⟩
    · intro htrue
      rw [hfalse] at htrue
      cases htrue
    · intro htrue
      rw [hfalse] at htrue
      cases htrue
    · intro htrue
      rw [hroll] at htrue
      cases htrue
  have hdir := h.dir
  have hroll := h.rolledup
  rw [RunState.ascendResult] at hdir hroll
  by_cases hlevel : l < cfg.minLevel
  · rw [if_pos hlevel] at hdir hroll
    apply hunrolled (ix t.path) (Undone.refl ht) (hdir.trans hown) hroll
    rintro - ⟨hmin, -⟩
    omega
  · rw [if_neg hlevel, hown] at hdir hroll
    rcases rollupAscend_cases ts cfg (s₀.ix.attachXattr t.path) l t.path hdb
      (s₀.children flt t) with ⟨hpos, heq⟩ | ⟨hzero, rows, ok, heq⟩
    · rw [heq] at hdir hroll
      have htrue : (s.ix t.path).isrolledup = true := by
        have hroot : ({ db with treesummary := some [] } : Db).rootRows ≠ [] := by
          change db.rootRows ≠ []
          exact ht.rootRows_ne_nil hdb
        rw [hdir]
        exact isrolledup_doRollup ts (Dir.setDb_db _ _) hroot _
      have hallowed : cfg.RollsUpLeaf l (ix t.path) := by
        rw [Config.RollsUpLeaf, hnondirs]
        exact rollsUpLeaf_of_shouldRollup_pos hpos
      refine ⟨?_, ?_, fun _ => hallowed, fun _ _ => htrue, fun _ => htrue⟩
      · intro hfalse
        rw [hfalse] at htrue
        cases htrue
      · intro _ c hc
        have hcan := canRollup_eq_one_iff.mp (canRollup_of_shouldRollup_pos hpos)
        obtain ⟨i, hi⟩ := List.getElem?_of_mem hc
        obtain ⟨hr, -⟩ := hcan _ (RunState.mem_children.mpr ⟨i, c, hi, rfl⟩)
        apply hchild c hc
        rw [(h.kept c.path (h.below c hc)).2.1]
        exact hr
    · rw [heq] at hdir hroll
      apply hunrolled _ (Undone.setTreesummary ht hdb rows) hdir hroll
      rintro hleaf ⟨hmin, hlimit⟩
      have hnil : s₀.children flt t = [] := by
        rw [RunState.children, hleaf]
        rfl
      rw [hnil] at hzero
      rw [hnondirs] at hlimit
      exact absurd (shouldRollup_leaf hmin hlimit) (not_lt.mpr hzero)

/-- What a run left of every directory of the tree. -/
theorem RunReaches.leftBy (hroot : root.WellFormed)
    (hix : ∀ t ∈ root.subtrees, (ix t.path).Unrolled) (hrun : RunReaches ts cfg F root ix s)
    (hdone : s.Complete root) {l : ℕ} {t : DirTree} (ht : (l, t) ∈ root.levels 0) :
    LeftBy cfg ix s l t := by
  induction t using DirTree.induct generalizing l with
  | node p cs ih =>
      have hmem := DirTree.mem_subtrees_of_mem_levels ht
      obtain ⟨s₀, flt, hfrom⟩ := hrun.ascendedFrom hroot ht (hdone _ hmem)
      apply hfrom.leftBy (hix _ hmem)
      intro c hc
      obtain ⟨l', hl'⟩ := DirTree.exists_level (DirTree.subdir_mem_subtrees hmem hc) 0
      exact (ih c hc hl').rolledup

/-- A rolled-up directory has a rolled-up directory without subdirectories below it. -/
theorem exists_rolledup_leaf (hleft : ∀ l t, (l, t) ∈ root.levels 0 → LeftBy cfg ix s l t)
    {t : DirTree} (ht : t ∈ root.subtrees) (h : (s.ix t.path).isrolledup = true) :
    ∃ u ∈ t.subtrees, u.subdirs = [] ∧ (s.ix u.path).isrolledup = true := by
  induction t using DirTree.induct with
  | node p cs ih =>
      cases cs with
      | nil => exact ⟨_, DirTree.self_mem_subtrees _, rfl, h⟩
      | cons c cs =>
          obtain ⟨l, hl⟩ := DirTree.exists_level ht 0
          have hc : c ∈ c :: cs := List.mem_cons_self ..
          obtain ⟨u, hu, hleaf⟩ := ih c hc (DirTree.subdir_mem_subtrees ht hc)
            ((hleft l _ hl).children h c hc)
          refine ⟨u, ?_, hleaf⟩
          exact DirTree.subtrees_subset_of_mem
            (DirTree.subdir_mem_subtrees (DirTree.self_mem_subtrees _) hc) hu

end RolledUp

section Run

variable {root : DirTree} {ix₀ ix : Index}

/-- A directory as a rollup and part of an unrollup may leave it: its own content is there, and
without the flag nothing is rolled up. -/
def Undoable (d₀ d : Dir) : Prop :=
  d.content = d₀.content ∧ (d.isrolledup = false → Undone d₀ d)

theorem undoable_of_undone {d₀ d : Dir} (h₀ : d₀.Unrolled) (h : Undone d₀ d) : Undoable d₀ d := by
  refine ⟨?_, fun _ => h⟩
  rw [Dir.ext_iff']
  refine ⟨h.tables, fun f => ?_⟩
  rw [h.unrolled.content_xattrDbs, h₀.content_xattrDbs, h.xattrDbs]

theorem undone_processdir {work : Unrollup} (h₀ : (ix₀ work.dir.path).Unrolled)
    (h : Undoable (ix₀ work.dir.path) (ix work.dir.path)) :
    Undone (ix₀ work.dir.path) ((processdir work ix).1 work.dir.path) := by
  simp only [processdir]
  split_ifs with hroll
  · rw [Function.update_self]
    exact undone_rollupCleanup h₀ h.1
  · simp only [Bool.or_eq_true, not_or, Bool.not_eq_true] at hroll
    exact h.2 hroll.2

theorem processdir_of_ne {work : Unrollup} {p : Bytes} (h : p ≠ work.dir.path) :
    (processdir work ix).1 p = ix p := by
  simp only [processdir]
  split_ifs
  · exact Function.update_of_ne h ..
  · rfl

theorem keeps_processdir (ix : Index) (hroot : root.WellFormed)
    (h₀ : ∀ t ∈ root.subtrees, (ix₀ t.path).Unrolled) :
    Worklist.Keeps processdir
      (fun x => (∀ t ∈ root.subtrees, Undoable (ix₀ t.path) (x t.path)) ∧
        ∀ t ∈ root.subtrees, ¬Walked root t → x t.path = ix t.path)
      (fun work => Walked root work.dir) := by
  constructor
  · rintro work x hwork ⟨hundo, hsame⟩
    constructor
    · intro t ht
      by_cases hp : t.path = work.dir.path
      · rw [hroot.eq_of_path_eq ht hwork.mem_subtrees hp]
        exact undoable_of_undone (h₀ _ hwork.mem_subtrees)
          (undone_processdir (h₀ _ hwork.mem_subtrees) (hundo _ hwork.mem_subtrees))
      · rw [processdir_of_ne hp]
        exact hundo t ht
    · intro t ht hnot
      have hp : t.path ≠ work.dir.path := by
        intro hp
        rw [hroot.eq_of_path_eq ht hwork.mem_subtrees hp] at hnot
        exact hnot hwork
      rw [processdir_of_ne hp]
      exact hsame t ht hnot
  · intro work x hwork _ b hb
    exact hwork.tail (mem_processdir_items.mp hb).1

/-- gufi_unrollup undoes what it reaches and leaves the rest as it is. -/
theorem Unrolls.spec {ix' : Index} (hroot : root.WellFormed)
    (h₀ : ∀ t ∈ root.subtrees, (ix₀ t.path).Unrolled)
    (hix : ∀ t ∈ root.subtrees, Undoable (ix₀ t.path) (ix t.path))
    (h : Unrolls root ix ix') {t : DirTree} (ht : t ∈ root.subtrees) :
    (Walked root t → Undone (ix₀ t.path) (ix' t.path)) ∧
      (¬Walked root t → ix' t.path = ix t.path) := by
  have hkeeps := keeps_processdir ix hroot h₀
  have hstart : (∀ a ∈ [(⟨root, false⟩ : Unrollup)], Walked root a.dir) ∧
      (∀ t ∈ root.subtrees, Undoable (ix₀ t.path) (ix t.path)) ∧
        ∀ t ∈ root.subtrees, ¬Walked root t → ix t.path = ix t.path := by
    refine ⟨?_, hix, fun _ _ _ => rfl⟩
    intro a ha
    rw [List.mem_singleton.mp ha]
    exact ReflTransGen.refl
  constructor
  · intro hwalked
    apply Worklist.Reaches.covers (P := fun (u : DirTree) x => Undone (ix₀ u.path) (x u.path))
      (W := fun (a : Unrollup) u => Walked a.dir u) hkeeps h hstart
    · rintro work x u hwork ⟨hundo, -⟩ hu
      by_cases hp : u.path = work.dir.path
      · rw [hp]
        exact undone_processdir (h₀ _ hwork.mem_subtrees) (hundo _ hwork.mem_subtrees)
      · rw [processdir_of_ne hp]
        exact hu
    · rintro work x u hwork ⟨hundo, -⟩ hu
      rcases ReflTransGen.cases_head hu with rfl | ⟨c, hdesc, hcu⟩
      · exact Or.inl (undone_processdir (h₀ _ hwork.mem_subtrees) (hundo _ hwork.mem_subtrees))
      · exact Or.inr ⟨⟨c, _⟩, mem_processdir_items.mpr ⟨hdesc, rfl⟩, hcu⟩
    · exact Or.inr ⟨_, List.mem_singleton.mpr rfl, hwalked⟩
  · exact (Worklist.Reaches.keeps hkeeps h hstart).2.2 t ht

variable {ts : TreeSummaryCode} {cfg : Config} {F : DirFaults → Prop} {s : RunState} {ix' : Index}

theorem RunReaches.undoable (hroot : root.WellFormed)
    (hix : ∀ t ∈ root.subtrees, (ix t.path).Unrolled) (hrun : RunReaches ts cfg F root ix s)
    (hdone : s.Complete root) {t : DirTree} (ht : t ∈ root.subtrees) :
    Undoable (ix t.path) (s.ix t.path) := by
  obtain ⟨l, hl⟩ := DirTree.exists_level ht 0
  exact ⟨hrun.content_eq (hix t ht).settled, (hrun.leftBy hroot hix hdone hl).undone⟩

end Run

section Example

/-- `/r` with one subdirectory. -/
def pairTree (name : Bytes) : DirTree :=
  .node [47, 114] [.node ([47, 114, 47] ++ name) []]

theorem mem_subtrees_pairTree {name : Bytes} {t : DirTree} :
    t ∈ (pairTree name).subtrees ↔
      t = pairTree name ∨ t = .node ([47, 114, 47] ++ name) [] := by
  simp [DirTree.subtrees_eq, pairTree, DirTree.subdirs]

theorem wellFormed_pairTree {name : Bytes} (h : LegalName name) : (pairTree name).WellFormed := by
  constructor
  · intro t ht c hc
    rcases mem_subtrees_pairTree.mp ht with rfl | rfl
    · obtain rfl := List.mem_singleton.mp hc
      exact ⟨name, h, rfl⟩
    · cases hc
  · simp [DirTree.paths, DirTree.subtrees_eq, pairTree, DirTree.subdirs, DirTree.path]

def noTreesummary : TreeSummaryCode :=
  ⟨fun _ => [], fun _ _ _ => []⟩

/-- Every directory is empty. -/
def emptyIndex : Index :=
  fun _ => ⟨some (emptyDb [] 1), fun _ => none⟩

theorem unrolled_emptyIndex (p : Bytes) : (emptyIndex p).Unrolled :=
  ⟨⟨emptyDb [] 1, rfl, ⟨⟨_, rfl, rfl, rfl⟩, rfl, rfl, rfl⟩⟩, by rintro f x ⟨⟩⟩

end Example

end Gufi
