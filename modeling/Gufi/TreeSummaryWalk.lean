import Gufi.Custody
import Gufi.TreeSummary
import Gufi.Worklist
import Mathlib.Algebra.BigOperators.Fin

/-!
# gufi_treesummary

`processdir` walks down from the root on the threads of the pool. It stops at directories that are
rolled up and at those that have a `treesummary` table, and the thread that runs it adds what the
directory's database says to the thread's own struct. `compute_treesummary` adds up the structs of
the threads and writes the row.

The row says what one pass over the summaries of all directories says when no time total is lost.
A time total is lost when `tsumit` reads it from a struct that counts no files.
-/

namespace Gufi

open Aggregates

variable (columns : List Bytes → SumColumns)

section Program

/-- `processdir` goes on to the subdirectories. The root is descended even if it has the table. -/
def Db.descends (db : Db) (level : ℕ) : Bool :=
  !getIsrolledup db && (db.treesummary.isNone || level == 0)

/-- `sum` in `processdir`. -/
def processdirSum (db : Db) (level : ℕ) : Sums :=
  if getIsrolledup db then
    let res := querytsdb columns db false zeroit
    { res.1 with totsubdirs := res.2 - 1 }
  else if db.descends level then (querytsdb columns db false zeroit).1
  else (querytsdb columns db true zeroit).1

/-- A queued directory, or one whose thread has enqueued the subdirectories and is about to add
the directory's sum. -/
inductive ProcessdirTask
  | processdir (level : ℕ) (t : DirTree)
  | tsumit (level : ℕ) (t : DirTree)

variable {n : ℕ} (ix : Index) (thread : Bytes → Fin n)

/-- Any thread may run any directory. -/
def TreeSummary.processdir : ProcessdirTask → (Fin n → Sums) → (Fin n → Sums) × List ProcessdirTask
  | .processdir level t, sums =>
      match (ix t.path).db with
      | none => (sums, [])
      | some db =>
          (sums, .tsumit level t ::
            if db.descends level then t.subdirs.map (.processdir (level + 1)) else [])
  | .tsumit level t, sums =>
      match (ix t.path).db with
      | none => (sums, [])
      | some db =>
          let id := thread t.path
          (Function.update sums id (tsumit (processdirSum columns db level) (sums id)), [])

/-- `sumout` in `compute_treesummary`. -/
def sumThreads (sums : Fin n → Sums) : Sums :=
  let sumout := (List.finRange n).foldl (fun out i => (tsumit (sums i) out).dropSubdir) zeroit
  if sumout.totsubdirs ≠ 0 then sumout.dropSubdir else sumout

/-- The table is created anew with the one row. -/
def computeTreesummary (db : Db) (sums : Fin n → Sums) : Db :=
  { db with treesummary := some [inserttreesumdb db (sumThreads sums)] }

end Program

section Tree

/-- An index in which some directories are rolled up, with the summaries of their trees in their
tables, and some below the root have a `treesummary` row. -/
structure SummaryTree (ix : Index) (root : DirTree) : Prop where
  own : ∀ t ∈ root.subtrees, ∃ db row, (ix t.path).db = some db ∧ db.rootRows = [row]
  unrolled : ∀ t ∈ root.subtrees, ∀ db, (ix t.path).db = some db → getIsrolledup db = false →
    db.summary = db.rootRows
  rolledup : ∀ t ∈ root.subtrees, ∀ db, (ix t.path).db = some db → getIsrolledup db = true →
    Multiset.map DirSummary.noExternalDbs (db.dirSummaries columns : List DirSummary) =
      (t.dirSummaries columns ix).map DirSummary.noExternalDbs
  treesummary : ∀ l t, (l + 1, t) ∈ root.levels 0 → ∀ db, (ix t.path).db = some db →
    getIsrolledup db = false → db.treesummary.isSome →
    db.ownTreesummary.map (fun row => (Sums.ofCols row.cols).noExtdbs) =
      [(flatFold (t.dirSummaries columns ix)).noExtdbs]

/-- The rows that `processdir` reads from the directory's database. -/
def Db.rowsRead (db : Db) (level : ℕ) : List Sums :=
  db.querytsdbRows columns (!getIsrolledup db && !db.descends level)

/-- The rows that are read in the tree. -/
def DirTree.rowsRead (ix : Index) : DirTree → ℕ → Multiset Sums :=
  DirTree.fold fun p below level =>
    match (ix p).db with
    | none => 0
    | some db => db.rowsRead columns level +
        if db.descends level then (below.map fun read => read (level + 1)).sum else 0

end Tree

section Rows

variable {columns} {ix : Index} {root t : DirTree} {db : Db} {l : ℕ}

theorem DirTree.rowsRead_eq (hdb : (ix t.path).db = some db) :
    t.rowsRead columns ix l = db.rowsRead columns l +
      if db.descends l then (t.subdirs.map fun c => c.rowsRead columns ix (l + 1)).sum else 0 := by
  rw [DirTree.rowsRead, DirTree.fold_eq]
  simp only [hdb, List.map_map]
  rfl

namespace SummaryTree

theorem own_eq (h : SummaryTree columns ix root) (ht : t ∈ root.subtrees)
    (hdb : (ix t.path).db = some db) : ∃ row, db.rootRows = [row] ∧
      (ix t.path).dirSummary columns = some (row.dirSummary columns db.externalDbs.length) := by
  obtain ⟨db', row, hdb', hrow⟩ := h.own t ht
  obtain rfl := Option.some.inj (hdb.symm.trans hdb')
  refine ⟨row, hrow, ?_⟩
  rw [Dir.dirSummary, hdb, Option.bind_some, hrow]
  rfl

theorem dirSummaries_ne_zero (h : SummaryTree columns ix root) (ht : t ∈ root.subtrees) :
    t.dirSummaries columns ix ≠ 0 := by
  obtain ⟨db, row, hdb, -⟩ := h.own t ht
  obtain ⟨row, -, hown⟩ := h.own_eq ht hdb
  rw [DirTree.dirSummaries_eq, hown]
  intro hzero
  have hcard := congrArg Multiset.card hzero
  simp at hcard

/-- A directory that is not rolled up has one row in `summary`, and one in the `treesummary` that
is read instead. -/
theorem rowsRead_unrolled (h : SummaryTree columns ix root) (ht : (l, t) ∈ root.levels 0)
    (hdb : (ix t.path).db = some db) (hroll : getIsrolledup db = false) :
    (db.descends l = true ∧ ∃ r, (ix t.path).dirSummary columns = some r ∧
        db.rowsRead columns l = [r.sums]) ∨
      (db.descends l = false ∧ ∃ u, db.rowsRead columns l = [u] ∧
        u.noExtdbs = (flatFold (t.dirSummaries columns ix)).noExtdbs) := by
  have hmem := DirTree.mem_subtrees_of_mem_levels ht
  cases hdesc : db.descends l with
  | true =>
      obtain ⟨row, hrow, hown⟩ := h.own_eq hmem hdb
      refine Or.inl ⟨rfl, _, hown, ?_⟩
      rw [Db.rowsRead, hdesc, hroll, Db.querytsdbRows, if_neg (by simp), Db.dirSummaries,
        h.unrolled t hmem db hdb hroll, hrow]
      rfl
  | false =>
      have hstop : db.treesummary.isSome = true ∧ l ≠ 0 := by
        rw [Db.descends, hroll] at hdesc
        simpa using hdesc
      obtain ⟨l', rfl⟩ := Nat.exists_eq_succ_of_ne_zero hstop.2
      have hone := h.treesummary l' t ht db hdb hroll hstop.1
      obtain ⟨row, hrow, hfold⟩ := List.map_eq_singleton_iff.mp hone
      refine Or.inr ⟨rfl, Sums.ofCols row.cols, ?_, hfold⟩
      rw [Db.rowsRead, hdesc, hroll, Db.querytsdbRows, if_pos (by rfl), hrow]
      rfl

theorem valid_rowsRead (h : SummaryTree columns ix root) (ht : (l, t) ∈ root.levels 0)
    (hdb : (ix t.path).db = some db) : ∀ u ∈ db.rowsRead columns l, u.Valid := by
  have hmem := DirTree.mem_subtrees_of_mem_levels ht
  cases hroll : getIsrolledup db with
  | true =>
      rw [Db.rowsRead, hroll]
      exact valid_querytsdbRows_summary columns db
  | false =>
      intro u hu
      rcases h.rowsRead_unrolled ht hdb hroll with ⟨-, r, -, heq⟩ | ⟨-, v, heq, hfold⟩
      · rw [heq] at hu
        obtain rfl := List.mem_singleton.mp hu
        exact r.sums_valid
      · rw [heq] at hu
        obtain rfl := List.mem_singleton.mp hu
        apply Sums.Valid.of_noExtdbs
        rw [hfold, ← flatFold_noExternalDbs]
        exact flatFold_valid fun hzero =>
          h.dirSummaries_ne_zero hmem (Multiset.map_eq_zero.mp hzero)

theorem rowsRead_ne_nil (h : SummaryTree columns ix root) (ht : (l, t) ∈ root.levels 0)
    (hdb : (ix t.path).db = some db) : db.rowsRead columns l ≠ [] := by
  cases hroll : getIsrolledup db with
  | true =>
      obtain ⟨row, hrow, -⟩ := h.own_eq (DirTree.mem_subtrees_of_mem_levels ht) hdb
      have hmem : row ∈ db.summary := List.mem_of_mem_filter (hrow ▸ List.mem_singleton_self row)
      rw [Db.rowsRead, hroll]
      simpa [Db.querytsdbRows, Db.dirSummaries] using List.ne_nil_of_mem hmem
  | false =>
      rcases h.rowsRead_unrolled ht hdb hroll with ⟨-, r, -, heq⟩ | ⟨-, u, heq, -⟩ <;>
        simp [heq]

/-- Whatever is read in a tree says the same as the summaries of its directories. -/
theorem foldUnits_rowsRead (h : SummaryTree columns ix root) (ht : (l, t) ∈ root.levels 0) :
    foldUnits ((t.rowsRead columns ix l).map Sums.noExtdbs) =
      foldUnits (((t.dirSummaries columns ix).map DirSummary.noExternalDbs).map
        DirSummary.sums) := by
  induction t using DirTree.induct generalizing l with
  | node p cs ih =>
      have hmem := DirTree.mem_subtrees_of_mem_levels ht
      obtain ⟨db, -, hdb, -⟩ := h.own _ hmem
      rw [DirTree.rowsRead_eq hdb]
      cases hroll : getIsrolledup db with
      | true =>
          have hdesc : db.descends l = false := by
            rw [Db.descends, hroll]
            rfl
          have hrows : (db.rowsRead columns l : Multiset Sums) =
              Multiset.map DirSummary.sums (db.dirSummaries columns : List DirSummary) := by
            rw [Db.rowsRead, hroll]
            rfl
          have hext (R : Multiset DirSummary) : (R.map DirSummary.sums).map Sums.noExtdbs =
              (R.map DirSummary.noExternalDbs).map DirSummary.sums := by
            rw [Multiset.map_map, Multiset.map_map]
            rfl
          rw [hdesc, if_neg (by simp), add_zero, hrows, hext, h.rolledup _ hmem db hdb hroll]
      | false =>
          rcases h.rowsRead_unrolled ht hdb hroll with ⟨hdesc, r, hown, hread⟩ |
            ⟨hdesc, u, hread, hfold⟩
          · have hbelow := foldUnits_map_sum_congr (l := cs)
              (f := fun c => (c.rowsRead columns ix (l + 1)).map Sums.noExtdbs)
              (g := fun c => ((c.dirSummaries columns ix).map DirSummary.noExternalDbs).map
                DirSummary.sums)
              fun c hc => ih c hc (DirTree.mem_levels_subdir ht hc)
            rw [hread, if_pos hdesc, DirTree.dirSummaries_eq, hown]
            simp only [Multiset.map_add, map_sum_map]
            exact foldUnits_add_congr rfl hbelow
          · have hrows : (DirTree.node p cs).dirSummaries columns ix ≠ 0 :=
              h.dirSummaries_ne_zero hmem
            rw [hread, if_neg (by simp [hdesc]), add_zero, ← foldUnits_flatFold
              (fun hzero => hrows (Multiset.map_eq_zero.mp hzero)), flatFold_noExternalDbs, ← hfold]
            rfl

/-- The sum of one directory. -/
theorem summarizes_processdirSum (h : SummaryTree columns ix root) (ht : (l, t) ∈ root.levels 0)
    (hdb : (ix t.path).db = some db) :
    Summarizes (db.rowsRead columns l) 1 (processdirSum columns db l) := by
  have hvalid := h.valid_rowsRead ht hdb
  rw [Db.rowsRead] at hvalid
  have hquery := Summarizes.zeroit.querytsdb hvalid
  rw [zero_add, zero_add] at hquery
  unfold processdirSum Db.rowsRead
  cases hroll : getIsrolledup db with
  | true =>
      rw [hroll] at hquery
      rw [if_pos rfl]
      apply hquery.setSubdirs
      rw [Bool.not_true, Bool.false_and, totsubdirs_querytsdbRows_summary]
      exact sub_add_cancel _ _
  | false =>
      have hone : (db.rowsRead columns l).length = 1 := by
        rcases h.rowsRead_unrolled ht hdb hroll with ⟨-, r, -, heq⟩ | ⟨-, u, heq, -⟩ <;>
          rw [heq] <;> rfl
      rw [Db.rowsRead] at hone
      rw [hone, hroll] at hquery
      rw [if_neg (by simp)]
      cases hdesc : db.descends l with
      | true =>
          rw [hdesc] at hquery
          exact hquery
      | false =>
          rw [hdesc] at hquery
          exact hquery

end SummaryTree

end Rows

section Walk

variable {columns} {ix : Index} {root t : DirTree} {db : Db} {l n : ℕ} {thread : Bytes → Fin n}
  {sums : Fin n → Sums}

/-- The structs of the threads hold the rows between them. -/
def ThreadsHold (m : Multiset Sums) (sums : Fin n → Sums) : Prop :=
  ∃ U : Fin n → Multiset Sums, m = ∑ i, U i ∧
    ∀ i, Summarizes (U i) 0 (sums i) ∧ ∀ u ∈ U i, u.Valid

namespace ProcessdirTask

def InTree (root : DirTree) : ProcessdirTask → Prop
  | .processdir l t | .tsumit l t => (l, t) ∈ root.levels 0

/-- The rows that the task will add, with those of the tasks it enqueues. -/
def worth (columns : List Bytes → SumColumns) (ix : Index) : ProcessdirTask → Multiset Sums
  | .processdir l t => t.rowsRead columns ix l
  | .tsumit l t => ((ix t.path).db.map fun db => (db.rowsRead columns l : Multiset Sums)).getD 0

end ProcessdirTask

theorem keeps_treesummary_processdir (columns : List Bytes → SumColumns) (ix : Index)
    (root : DirTree) (thread : Bytes → Fin n) :
    Worklist.Keeps (TreeSummary.processdir columns ix thread) (fun _ => True)
      (ProcessdirTask.InTree root) where
  state _ _ _ _ := trivial
  items := by
    rintro (⟨l, t⟩ | ⟨l, t⟩) sums ht _ b hb
    · simp only [TreeSummary.processdir] at hb
      cases hdb : (ix t.path).db with
      | none => simp [hdb] at hb
      | some db =>
          simp only [hdb] at hb
          rcases List.mem_cons.mp hb with rfl | hb
          · exact ht
          · split_ifs at hb
            · obtain ⟨c, hc, rfl⟩ := List.mem_map.mp hb
              exact DirTree.mem_levels_subdir ht hc
            · cases hb
    · simp only [TreeSummary.processdir] at hb
      cases hdb : (ix t.path).db <;> simp [hdb] at hb

theorem ThreadsHold.processdir (h : SummaryTree columns ix root) {task : ProcessdirTask}
    (htask : task.InTree root) {m : Multiset Sums} (hm : ThreadsHold m sums) :
    ∃ m', ThreadsHold m' (TreeSummary.processdir columns ix thread task sums).1 ∧
      m' + (((TreeSummary.processdir columns ix thread task sums).2).map
        (ProcessdirTask.worth columns ix)).sum = m + task.worth columns ix := by
  cases task with
  | processdir l t =>
      obtain ⟨db, -, hdb, -⟩ := h.own t (DirTree.mem_subtrees_of_mem_levels htask)
      refine ⟨m, ?_, ?_⟩
      · simp only [TreeSummary.processdir, hdb]
        exact hm
      · simp only [TreeSummary.processdir, hdb, ProcessdirTask.worth, DirTree.rowsRead_eq hdb,
          List.map_cons, List.sum_cons, Option.map_some, Option.getD_some]
        split_ifs
        · rw [List.map_map]
          rfl
        · rfl
  | tsumit l t =>
      obtain ⟨db, -, hdb, -⟩ := h.own t (DirTree.mem_subtrees_of_mem_levels htask)
      obtain ⟨U, rfl, hU⟩ := hm
      have hsum := h.summarizes_processdirSum htask hdb
      have hvalid := h.valid_rowsRead htask hdb
      refine ⟨∑ i, U i + db.rowsRead columns l, ?_, ?_⟩
      · simp only [TreeSummary.processdir, hdb]
        refine ⟨Function.update U (thread t.path) (db.rowsRead columns l + U (thread t.path)),
          ?_, ?_⟩
        · have hupdate := Custody.sum_update_add id U (thread t.path)
            (db.rowsRead columns l + U (thread t.path))
          simp only [id_eq] at hupdate
          rw [← add_assoc] at hupdate
          exact (add_right_cancel hupdate).symm
        · intro i
          rcases eq_or_ne i (thread t.path) with rfl | hi
          · rw [Function.update_self, Function.update_self]
            constructor
            · exact hsum.merge (hU _).1 hvalid (hU _).2
                (Or.inr ⟨rfl, fun hzero => h.rowsRead_ne_nil htask hdb (by simpa using hzero)⟩)
            · intro u hu
              rcases Multiset.mem_add.mp hu with hu | hu
              · exact hvalid u hu
              · exact (hU _).2 u hu
          · rw [Function.update_of_ne hi, Function.update_of_ne hi]
            exact hU i
      · simp only [TreeSummary.processdir, hdb, ProcessdirTask.worth, Option.map_some,
          Option.getD_some, List.map_nil, List.sum_nil, add_zero]

/-- Adding up the threads takes back what each call of `tsumit` counts. -/
theorem Summarizes.foldl_threads {U : Fin n → Multiset Sums}
    (hU : ∀ i, Summarizes (U i) 0 (sums i) ∧ ∀ u ∈ U i, u.Valid) (is : List (Fin n))
    {V : Multiset Sums} {out : Sums} (hV : Summarizes V 0 out) (hvalid : ∀ u ∈ V, u.Valid) :
    Summarizes (V + (is.map U).sum) 0
      (is.foldl (fun out i => (Gufi.tsumit (sums i) out).dropSubdir) out) := by
  induction is generalizing V out with
  | nil => simpa using hV
  | cons i is ih =>
      have hstep := ((hU i).1.merge hV (hU i).2 hvalid (Or.inl rfl)).dropSubdir
      have hboth : ∀ u ∈ U i + V, u.Valid := by
        intro u hu
        rcases Multiset.mem_add.mp hu with hu | hu
        · exact (hU i).2 u hu
        · exact hvalid u hu
      have hrest := ih hstep hboth
      rw [List.map_cons, List.sum_cons, List.foldl_cons, ← add_assoc, add_comm V]
      exact hrest

theorem ThreadsHold.sumThreads {m : Multiset Sums} (h : ThreadsHold m sums) (hm : m ≠ 0) :
    Summarizes m 1 (sumThreads sums) := by
  obtain ⟨U, rfl, hU⟩ := h
  have hall := Summarizes.foldl_threads hU (List.finRange n) Summarizes.zeroit
    fun u hu => absurd hu (Multiset.notMem_zero u)
  rw [zero_add, ← List.ofFn_eq_map, List.sum_ofFn] at hall
  have hcard := card_le_totsubdirs (∑ i, U i)
  have hpos := Multiset.card_pos.mpr hm
  have hsub := hall.totsubdirs
  unfold Gufi.sumThreads
  rw [if_pos (by omega)]
  exact hall.dropSubdir

end Walk

section Result

variable {columns} {ix : Index} {root : DirTree} {db : Db} {n : ℕ} {thread : Bytes → Fin n}
  {sums : Fin n → Sums}

/-- The row that gufi_treesummary writes is the flat fold of the summaries of all directories,
except in `totextdbs`, exactly when the rows that were read without counting files had no time
totals, or totals that cancel out. -/
theorem treesummary_eq_flatFold_iff (h : SummaryTree columns ix root)
    (hrun : Worklist.Reaches (TreeSummary.processdir columns ix thread)
      ([.processdir 0 root], fun _ => zeroit) ([], sums))
    (hdb : (ix root.path).db = some db) :
    ((computeTreesummary db sums).ownTreesummary.map fun row =>
        (Sums.ofCols row.cols).noExtdbs) =
      [(flatFold (root.dirSummaries columns ix)).noExtdbs] ↔
    ∀ f, lostTime (root.rowsRead columns ix 0) f = 0 := by
  have hroot : (0, root) ∈ root.levels 0 := by
    rw [DirTree.levels_eq]
    exact List.mem_cons_self ..
  obtain ⟨row, hrow, -⟩ := h.own_eq root.self_mem_subtrees hdb
  have hzero : ThreadsHold 0 (fun _ : Fin n => zeroit) :=
    ⟨fun _ => 0, by simp, fun _ =>
      ⟨Summarizes.zeroit, fun u hu => absurd hu (Multiset.notMem_zero u)⟩⟩
  obtain ⟨m, hm, heq⟩ := Worklist.Reaches.account
    (keeps_treesummary_processdir columns ix root thread)
    (fun task _ _ htask _ hm => hm.processdir h htask) hrun
    ⟨by simpa [ProcessdirTask.InTree] using hroot, trivial⟩ hzero
  obtain rfl : m = root.rowsRead columns ix 0 := by
    simpa [ProcessdirTask.worth] using heq
  have hne : root.rowsRead columns ix 0 ≠ 0 := by
    intro hempty
    rw [DirTree.rowsRead_eq hdb] at hempty
    have hread := Multiset.le_zero.mp (hempty ▸ Multiset.le_add_right _ _)
    exact h.rowsRead_ne_nil hroot hdb (Multiset.coe_eq_zero _ |>.mp hread)
  have hwritten : (computeTreesummary db sums).ownTreesummary =
      [inserttreesumdb db (sumThreads sums)] := by
    have hown : (computeTreesummary db sums).rootRows = [row] := hrow
    rw [Db.ownTreesummary, hown]
    simp [computeTreesummary, inserttreesumdb, hrow]
  have hsum := (hm.sumThreads hne).noExtdbs
  have hlost := hsum.eq_flatFold_iff (fun hzero => hne (Multiset.map_eq_zero.mp hzero))
    (h.foldUnits_rowsRead hroot)
  simp only [lostTime_map_noExtdbs, flatFold_noExternalDbs] at hlost
  rw [hwritten, List.map_singleton, inserttreesumdb, Sums.ofCols_cols, List.singleton_inj, hlost]

/-- The walk comes to an end. -/
theorem exists_processdir_finished (columns : List Bytes → SumColumns) (ix : Index)
    (root : DirTree) (thread : Bytes → Fin n) :
    ∃ sums, Worklist.Reaches (TreeSummary.processdir columns ix thread)
      ([.processdir 0 root], fun _ => zeroit) ([], sums) := by
  let weight : ProcessdirTask → ℕ
    | .processdir _ t => 2 * t.subtrees.length
    | .tsumit _ _ => 1
  refine Worklist.exists_reaches_nil weight ?_ _
  rintro (⟨l, t⟩ | ⟨l, t⟩) sums
  · have hpos : 0 < t.subtrees.length := List.length_pos_of_mem t.self_mem_subtrees
    have hlen : t.subtrees.length = 1 + (t.subdirs.map fun c => c.subtrees.length).sum := by
      rw [DirTree.subtrees_eq, List.length_cons, List.length_flatMap, add_comm]
    have hbelow : (t.subdirs.map fun c => 2 * c.subtrees.length).sum =
        2 * (t.subdirs.map fun c => c.subtrees.length).sum := List.sum_map_mul_left ..
    simp only [TreeSummary.processdir]
    cases (ix t.path).db with
    | none => simpa [weight] using hpos
    | some db =>
        have htask (level : ℕ) : weight ∘ ProcessdirTask.processdir level =
            fun c => 2 * c.subtrees.length := rfl
        dsimp only
        split_ifs
        · rw [List.map_cons, List.sum_cons, List.map_map, htask, hbelow]
          change 1 + _ < 2 * _
          omega
        · change 1 + 0 < 2 * _
          omega
  · simp only [TreeSummary.processdir]
    cases (ix t.path).db <;> exact Nat.one_pos

end Result

section Example

theorem summaryTree_linkIndex (files : ℕ) (root : DirTree) :
    SummaryTree linkColumns (linkIndex files) root where
  own t _ := ⟨linkDb files t.path, _, rfl, rfl⟩
  unrolled := by
    rintro t - db ⟨⟩ -
    rfl
  rolledup := by
    rintro t - db ⟨⟩ hroll
    cases hroll
  treesummary := by
    rintro l t - db ⟨⟩ - hsome
    cases hsome

/-- The walk with one thread. -/
def linkSums (files : ℕ) : Fin 1 → Sums :=
  (Worklist.drain (TreeSummary.processdir linkColumns (linkIndex files) fun _ => 0) 4
    ([.processdir 0 linkTree], fun _ => zeroit)).2

theorem treesummary_eq_flatFold_linkIndex :
    (computeTreesummary (linkDb 1 [114]) (linkSums 1)).ownTreesummary.map
      (fun row => (Sums.ofCols row.cols).noExtdbs) =
    [(flatFold (linkTree.dirSummaries linkColumns (linkIndex 1))).noExtdbs] := by
  have hrun := Worklist.reaches_drain
    (TreeSummary.processdir linkColumns (linkIndex 1) fun _ => 0) 4
    ([.processdir 0 linkTree], fun _ : Fin 1 => zeroit)
  apply (treesummary_eq_flatFold_iff (summaryTree_linkIndex 1 linkTree) hrun rfl).mpr
  intro f
  rfl

/-- The times of a directory that holds links only are missing. -/
theorem treesummary_loses_times :
    ¬∀ (columns : List Bytes → SumColumns) (n : ℕ) (ix : Index) (root : DirTree)
      (thread : Bytes → Fin n) (sums : Fin n → Sums) (db : Db), SummaryTree columns ix root →
      Worklist.Reaches (TreeSummary.processdir columns ix thread)
        ([.processdir 0 root], fun _ => zeroit) ([], sums) →
      (ix root.path).db = some db →
      (computeTreesummary db sums).ownTreesummary.map
          (fun row => (Sums.ofCols row.cols).noExtdbs) =
        [(flatFold (root.dirSummaries columns ix)).noExtdbs] := by
  intro h
  have hrun := Worklist.reaches_drain
    (TreeSummary.processdir linkColumns (linkIndex 0) fun _ => 0) 4
    ([.processdir 0 linkTree], fun _ : Fin 1 => zeroit)
  have heq := h _ 1 _ _ _ _ (linkDb 0 [114]) (summaryTree_linkIndex 0 linkTree) hrun rfl
  have htimes := congrArg (List.map fun s : Sums => s.tottime .ctime) heq
  have hcode : ([5] : List ℤ) = [10] := htimes
  simp at hcode

end Example

end Gufi
