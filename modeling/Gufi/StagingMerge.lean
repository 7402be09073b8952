import Gufi.RolledUpContent
import Gufi.Topdown

/-!
# Copies into staging databases and their merge

The rows that a target gets pass through staging databases, so their order is that of the threads.
`Db.Gathers` says that tables hold the rows of given children in some order. A copy adds one child
and the merge adds the children of one staging database after the other; no statement of it fails
and no view drops a row as long as no row and no key occurs twice.
-/

namespace Gufi

open SqlTable

section RoundRobin

variable {α : Type*}

theorem flatMap_range_filter_perm (l : List α) (f : α → ℕ) (n : ℕ) :
    ((List.range n).flatMap fun k => l.filter (f · = k)).Perm (l.filter (f · < n)) := by
  induction n with
  | zero => simp
  | succ n ih =>
      rw [List.range_succ, List.flatMap_append, List.flatMap_singleton]
      have hlow : (l.filter (f · < n + 1)).filter (f · < n) = l.filter (f · < n) := by
        rw [List.filter_filter]
        apply List.filter_congr
        intro x _
        rw [Bool.eq_iff_iff]
        simp only [Bool.and_eq_true, decide_eq_true_eq]
        omega
      have hhigh : (l.filter (f · < n + 1)).filter (fun x => !decide (f x < n)) =
          l.filter (f · = n) := by
        rw [List.filter_filter]
        apply List.filter_congr
        intro x _
        rw [Bool.eq_iff_iff]
        simp only [Bool.and_eq_true, Bool.not_eq_true', decide_eq_true_eq, decide_eq_false_iff_not]
        omega
      have hsplit := List.filter_append_perm (f · < n) (l.filter (f · < n + 1))
      rw [hlow, hhigh] at hsplit
      exact (ih.append_right _).trans hsplit

/-- The items that one of `n` threads gets in turn. -/
def dealt (l : List α) (n k : ℕ) : List α :=
  (l.zipIdx.filter fun x => x.2 % n = k).map (·.1)

theorem perm_flatMap_dealt (l : List α) {n : ℕ} (hn : 0 < n) :
    ((List.range n).flatMap (dealt l n)).Perm l := by
  have hall : l.zipIdx.filter (fun x => decide (x.2 % n < n)) = l.zipIdx :=
    List.filter_eq_self.mpr fun x _ => by simpa using Nat.mod_lt x.2 hn
  have hperm := (flatMap_range_filter_perm l.zipIdx (fun x => x.2 % n) n).map (·.1)
  rw [hall, List.zipIdx_map_fst, List.map_flatMap] at hperm
  exact hperm

theorem dealt_eq_nil {l : List α} {n k : ℕ} (hn : 0 < n) (hk : n ≤ k) : dealt l n k = [] := by
  rw [dealt, List.map_eq_nil_iff, List.filter_eq_nil_iff]
  intro x _
  have hlt := Nat.mod_lt x.2 hn
  simp only [decide_eq_true_eq]
  omega

end RoundRobin

section Names

/-- The name of a child's row in the target. -/
def topdownName (name : Bytes) : Bytes → SummaryRow → Bytes :=
  fun _ s => name ++ slash :: s.name

theorem name_suffix (t : DirTree) : t.name <:+ t.path := by
  rw [DirTree.name, splitPath, ← List.reverse_prefix, List.reverse_reverse]
  exact List.takeWhile_prefix _

variable {top c : DirTree}

/-- The path that the target's task puts into the statement for a child. -/
theorem rolledupPath_subdir (htop : top.WellFormed) (hc : c ∈ top.subdirs) :
    rolledupPath top c = top.name ++ slash :: c.name := by
  obtain ⟨n, ⟨-, -, hslash, -⟩, hn⟩ := htop.legal top top.self_mem_subtrees c hc
  have hname : c.name = n := by rw [DirTree.name, hn, splitPath_append hslash]
  obtain ⟨d, hd⟩ := name_suffix top
  have hlen : top.path.length - top.name.length = d.length := by
    rw [← hd, List.length_append, Nat.add_sub_cancel]
  rw [rolledupPath, hlen, hn, hname, ← hd, List.append_assoc, List.drop_left]

/-- Only the rows of the child's summary are named. -/
theorem rollupOneSubdir_congr {name name' : Db → SummaryRow → Bytes} {sub : Db}
    (h : ∀ db, ∀ s ∈ sub.summary, name db s = name' db s) (flt : ChildFaults) (db : Db) :
    rollupOneSubdir flt name sub db = rollupOneSubdir flt name' sub db := by
  have hsummary (db : Db) : insertSummary flt name sub db = insertSummary flt name' sub db := by
    have hmap : (sub.summary.map fun s => rollupSummaryRow (name db s) s) =
        sub.summary.map fun s => rollupSummaryRow (name' db s) s :=
      List.map_congr_left fun s hs => by rw [h db s hs]
    rw [insertSummary, insertSummary, hmap]
  unfold rollupOneSubdir
  simp only [hsummary]

end Names

section Gathers

/-- No row of the tables and no key of `external_dbs` occurs twice. -/
structure Rows.Distinct (r : Rows) : Prop where
  pentries : r.pentries.Nodup
  xattrs : r.xattrs.Nodup
  externalDbs : (r.externalDbs.map ExternalDb.key).Nodup

/-- The tables hold the rows of the children besides the own rows of `base`, in some order. -/
structure Db.Gathers (name : Bytes) (base db : Db) (subs : List Db) : Prop where
  pentries : db.pentriesRollup.Perm (tableRows subs).pentries
  summary : db.summary.Perm
    (base.summary ++ (tableRows subs).summary.map (renameRow (topdownName name) []))
  xattrs : db.xattrsRollup.Perm (tableRows subs).xattrs
  externalDbs : db.externalDbsRollup.Perm (tableRows subs).externalDbs
  entries : db.entries = base.entries
  rootRows : db.rootRows = base.rootRows
  xattrsPwd : db.xattrsPwd = base.xattrsPwd
  externalDbsPwd : db.externalDbsPwd = base.externalDbsPwd

theorem tableRows_append (a b : List Db) :
    tableRows (a ++ b) = (tableRows a).append (tableRows b) := by
  simp [tableRows, Rows.append]

variable {name : Bytes} {base db src : Db} {a b : List Db}

theorem Rows.Distinct.of_append_left {r r' : Rows} (h : (r.append r').Distinct) : r.Distinct where
  pentries := h.pentries.of_append_left
  xattrs := h.xattrs.of_append_left
  externalDbs := by
    have hkeys := h.externalDbs
    rw [Rows.append, List.map_append] at hkeys
    exact hkeys.of_append_left

theorem Rows.Distinct.of_append_right {r r' : Rows} (h : (r.append r').Distinct) :
    r'.Distinct where
  pentries := h.pentries.of_append_right
  xattrs := h.xattrs.of_append_right
  externalDbs := by
    have hkeys := h.externalDbs
    rw [Rows.append, List.map_append] at hkeys
    exact hkeys.of_append_right

theorem Rows.Distinct.perm (h : (tableRows a).Distinct) (hab : a.Perm b) :
    (tableRows b).Distinct where
  pentries := (hab.flatMap_right _).nodup_iff.mp h.pentries
  xattrs := (hab.flatMap_right _).nodup_iff.mp h.xattrs
  externalDbs := ((hab.flatMap_right _).map _).nodup_iff.mp h.externalDbs

theorem Db.Gathers.perm (h : base.Gathers name db a) (hab : a.Perm b) :
    base.Gathers name db b :=
  { h with
    pentries := h.pentries.trans (hab.flatMap_right _)
    summary := h.summary.trans (((hab.flatMap_right _).map _).append_left _)
    xattrs := h.xattrs.trans (hab.flatMap_right _)
    externalDbs := h.externalDbs.trans (hab.flatMap_right _) }

theorem gathers_foldl_absorb (hp : base.pentriesRollup = []) (hx : base.xattrsRollup = [])
    (he : base.externalDbsRollup = []) (hd : (tableRows a).Distinct) :
    base.Gathers name (a.foldl (Db.absorb (topdownName name)) base) a := by
  have happ := appends_foldl_absorb (topdownName name) a base
  constructor
  · rw [happ.pentries, hp, List.nil_append]
  · rw [happ.summary]
    rfl
  · rw [happ.xattrs, hx, List.nil_append]
  · rw [happ.externalDbs, he, insertOrIgnore_eq_append _ (by simpa using hd.externalDbs),
      List.nil_append]
  · exact happ.entries
  · exact happ.rootRows
  · exact happ.xattrsPwd
  · exact happ.externalDbsPwd

/-- The views of a staging database show its rows. -/
theorem Db.Gathers.views_staging (h : stagingDb.Gathers name src b) (hd : (tableRows b).Distinct) :
    src.pentries = src.pentriesRollup ∧ src.xattrsAvail = src.xattrsRollup ∧
      src.externalDbs = src.externalDbsRollup := by
  have hkeys := List.Nodup.of_map _ hd.externalDbs
  refine ⟨?_, ?_, ?_⟩
  · rw [Db.pentries, Db.ownPentries, h.entries]
    exact union_eq_append (h.pentries.nodup_iff.mpr hd.pentries)
  · rw [Db.xattrsAvail, h.xattrsPwd]
    exact union_eq_append (h.xattrs.nodup_iff.mpr hd.xattrs)
  · rw [Db.externalDbs, h.externalDbsPwd]
    exact union_eq_append (h.externalDbs.nodup_iff.mpr hkeys)

/-- A round of the merge succeeds and adds the rows of one staging database. -/
theorem Db.Gathers.mergeStaging (h : base.Gathers name db a) (hsrc : stagingDb.Gathers name src b)
    (hd : (tableRows (a ++ b)).Distinct) : (mergeStaging {} src db).2 = true ∧
      base.Gathers name (mergeStaging {} src db).1 (a ++ b) := by
  rw [tableRows_append] at hd
  obtain ⟨hviewp, hviewx, hviewe⟩ := hsrc.views_staging hd.of_append_right
  have hkeys : ((db.externalDbsRollup ++ src.externalDbs).map ExternalDb.key).Nodup := by
    rw [hviewe]
    exact ((h.externalDbs.append hsrc.externalDbs).map _).nodup_iff.mpr hd.externalDbs
  have hinsert : insertUnique ExternalDb.key db.externalDbsRollup src.externalDbs =
      some (db.externalDbsRollup ++ src.externalDbs) := by
    rw [List.map_append, List.nodup_append] at hkeys
    obtain ⟨-, hnew, hdisj⟩ := hkeys
    rw [insertUnique, if_pos fun x hx hold => hdisj _ hold _ (List.mem_map_of_mem hx) rfl,
      if_pos hnew]
  have hmerge : Gufi.mergeStaging {} src db = ({ db with
      summary := db.summary ++ src.summary
      pentriesRollup := db.pentriesRollup ++ src.pentries
      xattrsRollup := db.xattrsRollup ++ src.xattrsAvail
      externalDbsRollup := db.externalDbsRollup ++ src.externalDbs }, true) := by
    simp only [Gufi.mergeStaging, mergeSummary, insertPentries, insertXattrs, mergeExternalDbs,
      insertSelect_none, thenIfOk_true, hinsert]
  have hroot : src.summary.filter (·.isroot) = [] := hsrc.rootRows
  rw [hmerge]
  refine ⟨rfl, ?_⟩
  constructor
  · rw [hviewp, tableRows_append]
    exact h.pentries.append hsrc.pentries
  · rw [tableRows_append, Rows.append, List.map_append, ← List.append_assoc]
    exact h.summary.append hsrc.summary
  · rw [hviewx, tableRows_append]
    exact h.xattrs.append hsrc.xattrs
  · rw [hviewe, tableRows_append]
    exact h.externalDbs.append hsrc.externalDbs
  · exact h.entries
  · rw [← h.rootRows, Db.rootRows, List.filter_append, hroot, List.append_nil]
    rfl
  · exact h.xattrsPwd
  · exact h.externalDbsPwd

/-- The whole merge succeeds and adds the rows of all staging databases. -/
theorem Db.Gathers.rollupMerge (subs : ℕ → List Db) (h : base.Gathers name db (subs 0))
    {staging : ℕ → Option Db} {threadsUsed : ℕ} (hthreads : 0 < threadsUsed)
    (hstaging : ∀ k, 0 < k → k < threadsUsed →
      ∃ src, staging k = some src ∧ stagingDb.Gathers name src (subs k))
    (hd : (tableRows ((List.range threadsUsed).flatMap subs)).Distinct) :
    (rollupMerge (fun _ => {}) staging threadsUsed db).2 = true ∧
      base.Gathers name (rollupMerge (fun _ => {}) staging threadsUsed db).1
        ((List.range threadsUsed).flatMap subs) := by
  have hrounds (rounds : List ℕ) (hrounds : ∀ k ∈ rounds,
      ∃ src, staging k = some src ∧ stagingDb.Gathers name src (subs k)) (db : Db) (a : List Db)
      (h : base.Gathers name db a) (hd : (tableRows (a ++ rounds.flatMap subs)).Distinct) :
      (rounds.foldl (mergeRound (fun _ => {}) staging) (db, true)).2 = true ∧
        base.Gathers name (rounds.foldl (mergeRound (fun _ => {}) staging) (db, true)).1
          (a ++ rounds.flatMap subs) := by
    induction rounds generalizing db a with
    | nil => simpa using h
    | cons k rounds ih =>
        obtain ⟨src, hsrc, hgathers⟩ := hrounds k (List.mem_cons_self ..)
        rw [List.flatMap_cons, ← List.append_assoc] at hd ⊢
        have hleft := hd
        rw [tableRows_append] at hleft
        obtain ⟨hok, hmerged⟩ := h.mergeStaging hgathers hleft.of_append_left
        have hround : mergeRound (fun _ => {}) staging (db, true) k =
            ((Gufi.mergeStaging {} src db).1, true) := by
          simp [mergeRound, hsrc, hok]
        rw [List.foldl_cons, hround]
        exact ih (fun j hj => hrounds j (List.mem_cons_of_mem k hj)) _ _ hmerged hd
  obtain ⟨n, rfl⟩ := Nat.exists_eq_add_of_lt hthreads
  have hrange : List.range (0 + n + 1) = 0 :: List.range' 1 n := by
    rw [Nat.zero_add, List.range_eq_range', List.range'_succ]
  rw [hrange, List.flatMap_cons] at hd ⊢
  rw [Gufi.rollupMerge, show 0 + n + 1 - 1 = n by omega]
  refine hrounds (List.range' 1 n) (fun k hk => ?_) db (subs 0) h hd
  obtain ⟨h₁, h₂⟩ := List.mem_range'_1.mp hk
  exact hstaging k (by omega) (by omega)

end Gathers

end Gufi
