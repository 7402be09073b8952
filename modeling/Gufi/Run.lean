import Gufi.Rollup
import Mathlib.Logic.Relation

/-!
# Runs of gufi_rollup over an index tree

`parallel_bottomup` ascends every directory once, after all of its subdirectories have ascended
and in no other fixed order. `RollupStep` is one ascent, and a run is any sequence of them. The
failures a run may meet are given by a predicate; `NoFaults` is the run on a file system where
every statement succeeds unless the databases themselves make it fail.

A directory whose level is below the minimum is passed without being opened.
-/

namespace Gufi

open Relation

/-- `ATTACH` of a raw path while the directory at `p` is being changed. -/
def Index.attachXattr (ix : Index) (p : Bytes) : AttachXattr :=
  fun own uri => Index.xattrDbAt (Function.update ix p own) (sqliteUriDecode uri)

/-- The index with the in-memory states of the directories. -/
structure RunState where
  ix : Index
  ascended : Bytes → Bool
  rolledup : Bytes → Bool
  score : Bytes → ℤ
  ok : Bool

def RunState.init (ix : Index) : RunState where
  ix := ix
  ascended := fun _ => false
  rolledup := fun _ => false
  score := fun _ => 0
  ok := true

/-- Failures of the rollup of one directory, by the position of the child. -/
abbrev DirFaults := ℕ → ChildFaults

def NoFaults : DirFaults → Prop :=
  fun flt => flt = fun _ => {}

namespace RunState

/-- The subdirectories as the ascending directory finds them. -/
def children (s : RunState) (flt : DirFaults) (t : DirTree) : List Child :=
  t.subdirs.zipIdx.map fun c =>
    { path := c.1.path
      db := (s.ix c.1.path).db
      attached := s.ix.attachDb (sqliteUriPath c.1.path)
      rolledup := s.rolledup c.1.path
      faults := flt c.2 }

/-- Every subdirectory is found, attached through its escaped path, and nothing else is. -/
theorem mem_children {s : RunState} {flt : DirFaults} {t : DirTree} {ch : Child} :
    ch ∈ s.children flt t ↔ ∃ i c, t.subdirs[i]? = some c ∧ ch =
      { path := c.path
        db := (s.ix c.path).db
        attached := (s.ix c.path).db
        rolledup := s.rolledup c.path
        faults := flt i } := by
  simp only [children, List.mem_map, attachDb_sqliteUriPath, Prod.exists,
    List.mem_zipIdx_iff_getElem?]
  constructor
  · rintro ⟨c, i, hc, rfl⟩
    exact ⟨i, c, hc, rfl⟩
  · rintro ⟨i, c, hc, rfl⟩
    exact ⟨c, i, hc, rfl⟩

variable (ts : TreeSummaryCode) (cfg : Config)

/-- The result of `rollup_ascend` on the directory. -/
def ascendResult (flt : DirFaults) (level : ℕ) (t : DirTree) (s : RunState) : Ascended :=
  if level < cfg.minLevel then ⟨s.ix t.path, false, 0, true⟩
  else rollupAscend ts cfg (s.ix.attachXattr t.path) level t.path (s.ix t.path)
    (s.children flt t)

/-- One ascent of `ascend_to_top`. -/
def ascend (flt : DirFaults) (level : ℕ) (t : DirTree) (s : RunState) : RunState :=
  let res := s.ascendResult ts cfg flt level t
  { ix := Function.update s.ix t.path res.dir
    ascended := Function.update s.ascended t.path true
    rolledup := Function.update s.rolledup t.path res.rolledup
    score := Function.update s.score t.path res.score
    ok := s.ok && res.ok }

end RunState

variable (ts : TreeSummaryCode) (cfg : Config) (F : DirFaults → Prop) (root : DirTree)

inductive RollupStep : RunState → RunState → Prop
  | ascend {s : RunState} {l : ℕ} {t : DirTree} {flt : DirFaults} (ht : (l, t) ∈ root.levels 0)
      (hnew : s.ascended t.path = false) (hdone : ∀ c ∈ t.subdirs, s.ascended c.path = true)
      (hflt : F flt) : RollupStep s (s.ascend ts cfg flt l t)

/-- States of a run that started from the index. -/
def RunReaches (ix : Index) : RunState → Prop :=
  ReflTransGen (RollupStep ts cfg F root) (RunState.init ix)

/-- Every directory has ascended. -/
def RunState.Complete (root : DirTree) (s : RunState) : Prop :=
  ∀ t ∈ root.subtrees, s.ascended t.path = true

/-- Invariants of runs: what holds at the start and is kept by every ascent holds throughout. -/
theorem RunReaches.invariant {ts : TreeSummaryCode} {cfg : Config} {F : DirFaults → Prop}
    {root : DirTree} {ix : Index} {P : RunState → Prop} (h0 : P (RunState.init ix))
    (hstep : ∀ s l t flt, P s → (l, t) ∈ root.levels 0 → s.ascended t.path = false →
      (∀ c ∈ t.subdirs, s.ascended c.path = true) → F flt → P (s.ascend ts cfg flt l t))
    {s : RunState} (h : RunReaches ts cfg F root ix s) : P s := by
  induction h with
  | refl => exact h0
  | tail _ hs ih =>
      cases hs with
      | ascend ht hnew hdone hflt => exact hstep _ _ _ _ ih ht hnew hdone hflt

section Sequential

variable {ts : TreeSummaryCode} {cfg : Config} {F : DirFaults → Prop} {root : DirTree}

mutual

/-- The directories of a tree with their levels, each after those below it. -/
def DirTree.postorder : ℕ → DirTree → List (ℕ × DirTree)
  | l, .node p cs => postorderList (l + 1) cs ++ [(l, .node p cs)]

def DirTree.postorderList : ℕ → List DirTree → List (ℕ × DirTree)
  | _, [] => []
  | l, c :: cs => c.postorder l ++ postorderList l cs

end

/-- Directories ascending one after the other without a failure. -/
def RunState.ascendAll (ts : TreeSummaryCode) (cfg : Config) (order : List (ℕ × DirTree))
    (s : RunState) : RunState :=
  order.foldl (fun s x => s.ascend ts cfg (fun _ => {}) x.1 x.2) s

/-- A run with one thread on a file system where everything succeeds. -/
def sequentialRun (ts : TreeSummaryCode) (cfg : Config) (root : DirTree) (ix : Index) : RunState :=
  (RunState.init ix).ascendAll ts cfg (root.postorder 0)

theorem ascendAll_append (a b : List (ℕ × DirTree)) (s : RunState) :
    s.ascendAll ts cfg (a ++ b) = (s.ascendAll ts cfg a).ascendAll ts cfg b :=
  List.foldl_append

/-- The steps of a run that ascend exactly the given paths. -/
def AscendsExactly (ts : TreeSummaryCode) (cfg : Config) (F : DirFaults → Prop) (root : DirTree)
    (paths : List Bytes) (s s' : RunState) : Prop :=
  ReflTransGen (RollupStep ts cfg F root) s s' ∧
    ∀ p, s'.ascended p = true ↔ s.ascended p = true ∨ p ∈ paths

theorem ascendsExactly_postorderList {l : ℕ} (cs : List DirTree)
    (hcs : ∀ c ∈ cs, ∀ s : RunState, (∀ p ∈ c.paths, s.ascended p = false) →
      AscendsExactly ts cfg F root c.paths s (s.ascendAll ts cfg (c.postorder l)))
    (hnodup : (cs.flatMap DirTree.paths).Nodup) (s : RunState)
    (hnew : ∀ p ∈ cs.flatMap DirTree.paths, s.ascended p = false) :
    AscendsExactly ts cfg F root (cs.flatMap DirTree.paths) s
      (s.ascendAll ts cfg (DirTree.postorderList l cs)) := by
  induction cs generalizing s with
  | nil => exact ⟨ReflTransGen.refl, fun p => by simp [RunState.ascendAll, DirTree.postorderList]⟩
  | cons c cs ih =>
      rw [List.flatMap_cons] at hnodup hnew ⊢
      obtain ⟨-, htail, hdisj⟩ := List.nodup_append.mp hnodup
      obtain ⟨hrun, hasc⟩ := hcs c (List.mem_cons_self ..) s
        (fun p hp => hnew p (List.mem_append_left _ hp))
      obtain ⟨hrun', hasc'⟩ := ih (fun x hx => hcs x (List.mem_cons_of_mem c hx)) htail
        (s.ascendAll ts cfg (c.postorder l)) (by
          intro p hp
          rw [← Bool.not_eq_true, hasc]
          rintro (h | h)
          · rw [hnew p (List.mem_append_right _ hp)] at h
            cases h
          · exact hdisj p h p hp rfl)
      rw [DirTree.postorderList, ascendAll_append]
      refine ⟨hrun.trans hrun', fun p => ?_⟩
      rw [hasc', hasc, List.mem_append, or_assoc]

theorem ascendsExactly_postorder (hF : F fun _ => {}) (hroot : root.WellFormed) {l : ℕ}
    {t : DirTree} (ht : (l, t) ∈ root.levels 0) (s : RunState)
    (hnew : ∀ p ∈ t.paths, s.ascended p = false) :
    AscendsExactly ts cfg F root t.paths s (s.ascendAll ts cfg (t.postorder l)) := by
  induction t using DirTree.induct generalizing l s with
  | node p cs ih =>
      have hpaths : (DirTree.node p cs).paths = p :: cs.flatMap DirTree.paths := by
        rw [DirTree.paths, DirTree.subtrees_eq, List.map_cons, List.map_flatMap]
        rfl
      have hwf := hroot.subtree (DirTree.mem_subtrees_of_mem_levels ht)
      have hnodup := hwf.nodup
      rw [hpaths] at hnodup hnew ⊢
      obtain ⟨hp, hcs⟩ := List.nodup_cons.mp hnodup
      obtain ⟨hrun, hasc⟩ := ascendsExactly_postorderList cs
        (fun c hc s hs => ih c hc (DirTree.mem_levels_subdir ht hc) s hs) hcs s
        (fun q hq => hnew q (List.mem_cons_of_mem p hq))
      have hfresh : (s.ascendAll ts cfg (DirTree.postorderList (l + 1) cs)).ascended p = false := by
        rw [← Bool.not_eq_true, hasc]
        rintro (h | h)
        · rw [hnew p (List.mem_cons_self ..)] at h
          cases h
        · exact hp h
      have hbelow : ∀ c ∈ cs,
          (s.ascendAll ts cfg (DirTree.postorderList (l + 1) cs)).ascended c.path = true := by
        intro c hc
        rw [hasc]
        exact Or.inr (List.mem_flatMap.mpr ⟨c, hc, List.mem_map_of_mem c.self_mem_subtrees⟩)
      rw [DirTree.postorder, ascendAll_append]
      refine ⟨hrun.tail (RollupStep.ascend ht hfresh hbelow hF), fun q => ?_⟩
      change Function.update (_ : Bytes → Bool) p true q = true ↔ _
      by_cases hq : q = p
      · simp [hq]
      · rw [Function.update_of_ne hq, hasc, List.mem_cons]
        simp [hq]

/-- The sequential run is a run, and it ascends every directory. -/
theorem sequentialRun_spec (ts : TreeSummaryCode) (cfg : Config) (hroot : root.WellFormed)
    (ix : Index) : RunReaches ts cfg NoFaults root ix (sequentialRun ts cfg root ix) ∧
      (sequentialRun ts cfg root ix).Complete root := by
  have hmem : (0, root) ∈ root.levels 0 := by
    rw [DirTree.levels_eq]
    exact List.mem_cons_self ..
  have hF : NoFaults fun _ => {} := rfl
  obtain ⟨hrun, hasc⟩ : AscendsExactly ts cfg NoFaults root root.paths (RunState.init ix) _ :=
    ascendsExactly_postorder hF hroot hmem (RunState.init ix) (fun _ _ => rfl)
  exact ⟨hrun, fun t ht => (hasc t.path).mpr (Or.inr (List.mem_map_of_mem ht))⟩

end Sequential

section AscendedFrom

variable {ts : TreeSummaryCode} {cfg : Config} {F : DirFaults → Prop} {root : DirTree} {ix : Index}

/-- The directory ascended in state `s₀` of the run to `s`, and neither it nor any directory that
had ascended before it changed since. -/
structure AscendedFrom (ts : TreeSummaryCode) (cfg : Config) (F : DirFaults → Prop)
    (root : DirTree) (ix : Index) (s₀ : RunState) (flt : DirFaults) (l : ℕ) (t : DirTree)
    (s : RunState) : Prop where
  run : RunReaches ts cfg F root ix s₀
  fault : F flt
  fresh : s₀.ascended t.path = false
  below : ∀ c ∈ t.subdirs, s₀.ascended c.path = true
  dir : s.ix t.path = (s₀.ascendResult ts cfg flt l t).dir
  rolledup : s.rolledup t.path = (s₀.ascendResult ts cfg flt l t).rolledup
  score : s.score t.path = (s₀.ascendResult ts cfg flt l t).score
  ok : s.ok = true → (s₀.ascendResult ts cfg flt l t).ok = true
  kept : ∀ p, s₀.ascended p = true → s.ix p = s₀.ix p ∧ s.rolledup p = s₀.rolledup p ∧
    s.ascended p = true

/-- Every directory that has ascended did so in one step of the run. -/
theorem RunReaches.ascendedFrom (hroot : root.WellFormed) {s : RunState}
    (h : RunReaches ts cfg F root ix s) {l : ℕ} {t : DirTree} (ht : (l, t) ∈ root.levels 0)
    (hasc : s.ascended t.path = true) :
    ∃ s₀ flt, AscendedFrom ts cfg F root ix s₀ flt l t s := by
  induction h with
  | refl => cases hasc
  | @tail s s' hrun hstep ih =>
      cases hstep with
      | @ascend l' t' flt' ht' hnew hdone hflt =>
          have hkept : ∀ p, s.ascended p = true → p ≠ t'.path := by
            rintro p hp rfl
            rw [hnew] at hp
            cases hp
          by_cases hp : t.path = t'.path
          · obtain ⟨rfl, rfl⟩ := Prod.mk.inj (hroot.levels_eq_of_path_eq ht ht' hp)
            refine ⟨s, flt', hrun, hflt, hnew, hdone, Function.update_self ..,
              Function.update_self .., Function.update_self ..,
              fun hok => (Bool.and_eq_true_iff.mp hok).2, ?_⟩
            intro p hasc
            have hne := hkept p hasc
            exact ⟨Function.update_of_ne hne .., Function.update_of_ne hne ..,
              (Function.update_of_ne hne ..).trans hasc⟩
          · change Function.update s.ascended t'.path true t.path = true at hasc
            rw [Function.update_of_ne hp] at hasc
            obtain ⟨s₀, flt, hfrom⟩ := ih hasc
            refine ⟨s₀, flt, hfrom.run, hfrom.fault, hfrom.fresh, hfrom.below,
              (Function.update_of_ne hp ..).trans hfrom.dir,
              (Function.update_of_ne hp ..).trans hfrom.rolledup,
              (Function.update_of_ne hp ..).trans hfrom.score,
              fun hok => hfrom.ok (Bool.and_eq_true_iff.mp hok).1, ?_⟩
            intro p hp₀
            obtain ⟨hix, hroll, hasc'⟩ := hfrom.kept p hp₀
            have hne := hkept p hasc'
            exact ⟨(Function.update_of_ne hne ..).trans hix,
              (Function.update_of_ne hne ..).trans hroll,
              (Function.update_of_ne hne ..).trans hasc'⟩

end AscendedFrom

end Gufi
