import Gufi.BottomUp
import Mathlib.Algebra.Group.Action.Defs
import Mathlib.Algebra.Order.BigOperators.Group.List
import Mathlib.Tactic.Ring

/-!
# The order of a bottom-up walk

What a directory is owed is accounted for in three ways. A directory arrives once: as a task, as a
child still to be enqueued, or as one that was descended, could not be opened or was dropped. The
counter of a directory whose subdirectories were enqueued, together with the subdirectories that
are settled, makes up their number and the calls of `ascend_to_top` that are queued. The calls of
its ascend function, running and finished, are none until the counter is zero, and then one.

`Ordered` collects these accounts. Every step keeps it.
-/

namespace Gufi

namespace BottomUpTask

/-- How often a task still has to descend into a directory. -/
@[simp]
def arriving (x : BottomUp) : BottomUpTask → ℕ
  | .descend b => if x = b then 1 else 0
  | .descending b => if x = b then 1 else 0
  | .enqueueing _ rest => rest.count x
  | .ascend _ => 0
  | .ascending _ => 0

/-- The calls of `ascend_to_top` on a directory that have not started. -/
@[simp]
def calling (x : BottomUp) : BottomUpTask → ℕ
  | .ascend b => if x = b then 1 else 0
  | _ => 0

/-- The calls of the ascend function on a directory that are running. -/
@[simp]
def rising (x : BottomUp) : BottomUpTask → ℕ
  | .ascending b => if x = b then 1 else 0
  | _ => 0

end BottomUpTask

namespace BottomUpWalk

open BottomUpTask

variable {ua : UserArgs} {level : ℕ} {roots : List DirTree} {s s' : BottomUpWalk}

section Accounts

def total (tasks : Multiset BottomUpTask) (w : BottomUpTask → ℕ) : ℕ :=
  (tasks.map w).sum

@[simp]
theorem total_cons (a : BottomUpTask) (t : Multiset BottomUpTask) (w : BottomUpTask → ℕ) :
    total (a ::ₘ t) w = w a + total t w := by
  simp [total]

@[simp]
theorem total_add (t u : Multiset BottomUpTask) (w : BottomUpTask → ℕ) :
    total (t + u) w = total t w + total u w := by
  simp [total]

theorem le_total {t : Multiset BottomUpTask} {a : BottomUpTask} (ha : a ∈ t)
    (w : BottomUpTask → ℕ) : w a ≤ total t w := by
  obtain ⟨rest, rfl⟩ := Multiset.exists_cons_of_mem ha
  simp

/-- How often the roots and the directories that went down ask for a directory. -/
def offered (ua : UserArgs) (level : ℕ) (roots : List DirTree) (s : BottomUpWalk)
    (x : BottomUp) : ℕ :=
  (roots.map (BottomUp.root level)).count x +
    ((s.descended.filter ua.GoesDown).map fun d => d.subdirs.count x).sum

/-- The subdirectories that completed their ascend or failed to open. -/
def settled (s : BottomUpWalk) (x : BottomUp) : ℕ :=
  (x.subdirs.map fun c => s.ascended.count c + s.unopened.count c).sum

/-- The directory is one of the trees that are walked. -/
def InRoots (roots : List DirTree) (x : BottomUp) : Prop :=
  ∃ t ∈ roots, x.dir ∈ t.subtrees

structure Ordered (ua : UserArgs) (level : ℕ) (roots : List DirTree) (s : BottomUpWalk) :
    Prop where
  arrived : ∀ x, total s.tasks (arriving x) + s.descended.count x + s.unopened.count x +
    s.dropped.count x = s.offered ua level roots x
  inRoots : ∀ x ∈ s.descended, InRoots roots x
  fresh : ∀ x, s.descended.count x = 0 → s.remaining x = 0
  counted : ∀ x, ua.GoesDown x → s.remaining x + s.settled x =
    s.descended.count x * x.subdirs.length + total s.tasks (calling x)
  risen : ∀ x, ua.GoesDown x → total s.tasks (rising x) + s.ascended.count x =
    if s.remaining x = 0 then s.descended.count x else 0
  turned : ∀ x, ¬ua.GoesDown x → s.remaining x = 0 ∧
    total s.tasks (calling x) + total s.tasks (rising x) + s.ascended.count x =
      s.descended.count x

end Accounts

section Subdirs

theorem parent_of_mem_subdirs {x c : BottomUp} (hc : c ∈ x.subdirs) : c.parent = some x := by
  obtain ⟨d, -, rfl⟩ := List.mem_map.mp hc
  exact BottomUp.parent_child x d

theorem exists_parent_of_length_above {x : BottomUp} {n : ℕ} (hn : x.above.length = n + 1) :
    ∃ p, x.parent = some p ∧ p.above.length = n := by
  obtain ⟨d, above, habove⟩ := List.exists_cons_of_length_eq_add_one hn
  refine ⟨⟨d, x.level - 1, above⟩, ?_, ?_⟩
  · rw [BottomUp.parent, habove]
  · simpa [habove] using hn

theorem InRoots.subdir {x c : BottomUp} (hx : InRoots roots x) (hc : c ∈ x.subdirs) :
    InRoots roots c := by
  obtain ⟨t, ht, hxt⟩ := hx
  obtain ⟨d, hd, rfl⟩ := List.mem_map.mp hc
  exact ⟨t, ht, DirTree.subdir_mem_subtrees hxt hd⟩

theorem nodup_subdirs (hwf : ∀ t ∈ roots, t.WellFormed) {x : BottomUp} (hx : InRoots roots x) :
    x.subdirs.Nodup := by
  obtain ⟨t, ht, hxt⟩ := hx
  have hpaths := ((hwf t ht).subtree hxt).nodup
  rw [DirTree.paths, DirTree.subtrees_eq, List.map_cons, List.nodup_cons, List.map_flatMap]
    at hpaths
  have hdirs : x.dir.subdirs.Nodup := by
    refine (List.nodup_flatMap.mp hpaths.2).2.imp ?_
    rintro c d hdisjoint rfl
    have hc : c.path ∈ c.subtrees.map DirTree.path :=
      List.mem_map_of_mem (DirTree.self_mem_subtrees c)
    exact hdisjoint hc hc
  exact hdirs.map x.child_injective

/-- The subdirectories that one directory asks for are asked for by no other. -/
theorem sum_count_subdirs (M : Multiset BottomUp) (x : BottomUp) :
    (M.map fun d => d.subdirs.count x).sum =
      match x.parent with
      | none => 0
      | some p => M.count p * p.subdirs.count x := by
  induction M using Multiset.induction with
  | empty => cases x.parent <;> simp
  | cons d M ih =>
      rw [Multiset.map_cons, Multiset.sum_cons, ih]
      by_cases hd : x ∈ d.subdirs
      · rw [parent_of_mem_subdirs hd]
        simp only [Multiset.count_cons_self]
        ring
      · rw [List.count_eq_zero_of_not_mem hd, Nat.zero_add]
        cases hp : x.parent with
        | none => rfl
        | some p =>
            by_cases hpd : p = d
            · subst hpd
              simp [List.count_eq_zero_of_not_mem hd]
            · simp only [Multiset.count_cons_of_ne hpd]

end Subdirs

section Offered

theorem offered_of_parent_eq_none {x : BottomUp} (hx : x.parent = none) :
    s.offered ua level roots x = (roots.map (BottomUp.root level)).count x := by
  rw [offered, sum_count_subdirs, hx]
  rfl

theorem offered_of_parent_eq {x p : BottomUp} (hx : x.parent = some p) :
    s.offered ua level roots x =
      if ua.GoesDown p then s.descended.count p * p.subdirs.count x else 0 := by
  have hroot : (roots.map (BottomUp.root level)).count x = 0 := by
    rw [List.count_eq_zero]
    intro hmem
    obtain ⟨t, -, rfl⟩ := List.mem_map.mp hmem
    cases hx
  rw [offered, sum_count_subdirs, hx, hroot, Nat.zero_add]
  simp only [Multiset.count_filter]
  split_ifs <;> simp

/-- What is asked for is asked for by its parent, which went down. -/
theorem goesDown_of_offered_pos {x p : BottomUp} (hx : x.parent = some p)
    (hpos : 0 < s.offered ua level roots x) :
    ua.GoesDown p ∧ p ∈ s.descended ∧ x ∈ p.subdirs := by
  rw [offered_of_parent_eq hx] at hpos
  split_ifs at hpos with hdown
  · refine ⟨hdown, ?_, ?_⟩
    · exact Multiset.count_pos.mp (Nat.pos_of_mul_pos_right hpos)
    · exact List.count_pos_iff.mp (Nat.pos_of_mul_pos_left hpos)
  · cases hpos

end Offered

namespace Ordered

variable (h : Ordered ua level roots s) (hwf : ∀ t ∈ roots, t.WellFormed) (hroots : roots.Nodup)
include h

theorem inRoots_of_offered {x : BottomUp} (hpos : 0 < s.offered ua level roots x) :
    InRoots roots x := by
  cases hx : x.parent with
  | none =>
      rw [offered_of_parent_eq_none hx] at hpos
      obtain ⟨t, ht, rfl⟩ := List.mem_map.mp (List.count_pos_iff.mp hpos)
      exact ⟨t, ht, DirTree.self_mem_subtrees t⟩
  | some p =>
      obtain ⟨-, hp, hmem⟩ := goesDown_of_offered_pos hx hpos
      exact (h.inRoots p hp).subdir hmem

theorem descended_le_offered (x : BottomUp) :
    s.descended.count x ≤ s.offered ua level roots x := by
  have := h.arrived x
  omega

include hwf in
theorem count_subdirs_eq_one {x p : BottomUp} (hx : x.parent = some p)
    (hpos : 0 < s.offered ua level roots x) : p.subdirs.count x = 1 := by
  obtain ⟨-, hp, hmem⟩ := goesDown_of_offered_pos hx hpos
  exact List.count_eq_one_of_mem (nodup_subdirs hwf (h.inRoots p hp)) hmem

include hwf hroots in
/-- No directory is asked for twice. -/
theorem offered_le_one (x : BottomUp) : s.offered ua level roots x ≤ 1 := by
  induction hn : x.above.length generalizing x with
  | zero =>
      have hx : x.parent = none := by
        rw [BottomUp.parent, List.length_eq_zero_iff.mp hn]
      rw [offered_of_parent_eq_none hx]
      exact List.nodup_iff_count_le_one.mp (hroots.map fun _ _ ht => congrArg BottomUp.dir ht) x
  | succ n ih =>
      by_contra hlt
      obtain ⟨p, hx, hp⟩ := exists_parent_of_length_above hn
      have hpos : 0 < s.offered ua level roots x := by omega
      have hone := h.count_subdirs_eq_one hwf hx hpos
      have hdown := (goesDown_of_offered_pos hx hpos).1
      rw [offered_of_parent_eq hx, if_pos hdown, hone, mul_one] at hlt
      have hle := h.descended_le_offered p
      have hle' := ih p hp
      omega

include hwf in
/-- A directory that settles is one subdirectory of its parent, which it then calls. -/
theorem count_subdirs_eq {b : BottomUp} (hpos : 0 < s.offered ua level roots b) (x : BottomUp) :
    x.subdirs.count b = total (ascendParent b) (calling x) := by
  by_cases hb : b.parent = some x
  · rw [h.count_subdirs_eq_one hwf hb hpos]
    simp [ascendParent, hb, total]
  · have hnot : b ∉ x.subdirs := fun hmem => hb (parent_of_mem_subdirs hmem)
    rw [List.count_eq_zero_of_not_mem hnot]
    cases hp : b.parent with
    | none => simp [ascendParent, hp, total]
    | some p =>
        have hne : x ≠ p := by
          rintro rfl
          exact hb hp
        simp [ascendParent, hp, total, hne]

theorem ascended_le (x : BottomUp) :
    total s.tasks (rising x) + s.ascended.count x ≤ s.descended.count x := by
  by_cases hx : ua.GoesDown x
  · rw [h.risen x hx]
    split_ifs <;> omega
  · have := (h.turned x hx).2
    omega

include hwf in
theorem settled_le (x : BottomUp) (hx : ua.GoesDown x) :
    s.settled x ≤ s.descended.count x * x.subdirs.length := by
  have hle : ∀ n ∈ x.subdirs.map fun c => s.ascended.count c + s.unopened.count c,
      n ≤ s.descended.count x := by
    intro n hn
    obtain ⟨c, hc, rfl⟩ := List.mem_map.mp hn
    have harrived := h.arrived c
    have hascended := h.ascended_le c
    have hoffered : s.offered ua level roots c ≤ s.descended.count x := by
      rcases Nat.eq_zero_or_pos (s.offered ua level roots c) with hzero | hpos
      · omega
      · rw [offered_of_parent_eq (parent_of_mem_subdirs hc), if_pos hx,
          h.count_subdirs_eq_one hwf (parent_of_mem_subdirs hc) hpos, mul_one]
    omega
  calc
    s.settled x ≤ (x.subdirs.map fun c => s.ascended.count c + s.unopened.count c).length •
        s.descended.count x := List.sum_le_card_nsmul _ _ hle
    _ = s.descended.count x * x.subdirs.length := by
      rw [List.length_map, smul_eq_mul, mul_comm]

end Ordered

section Steps

@[simp]
theorem total_ascendParent_arriving (b x : BottomUp) :
    total (ascendParent b) (arriving x) = 0 := by
  unfold ascendParent
  cases b.parent <;> simp [total]

@[simp]
theorem total_ascendParent_rising (b x : BottomUp) :
    total (ascendParent b) (rising x) = 0 := by
  unfold ascendParent
  cases b.parent <;> simp [total]

theorem offered_goDown {b : BottomUp} (hdown : ua.GoesDown b) {t : BottomUpWalk}
    (ht : t.descended = b ::ₘ s.descended) (x : BottomUp) :
    t.offered ua level roots x = s.offered ua level roots x + b.subdirs.count x := by
  rw [offered, offered, ht, Multiset.filter_cons_of_pos _ hdown, Multiset.map_cons,
    Multiset.sum_cons]
  omega

theorem offered_turn {b : BottomUp} (hdown : ¬ua.GoesDown b) {t : BottomUpWalk}
    (ht : t.descended = b ::ₘ s.descended) (x : BottomUp) :
    t.offered ua level roots x = s.offered ua level roots x := by
  rw [offered, offered, ht, Multiset.filter_cons_of_neg _ hdown]

theorem settled_cons {b : BottomUp} {t : BottomUpWalk} (x : BottomUp)
    (ht : t.ascended + t.unopened = b ::ₘ (s.ascended + s.unopened)) :
    t.settled x = s.settled x + x.subdirs.count b := by
  have hcount : ∀ c, t.ascended.count c + t.unopened.count c =
      s.ascended.count c + s.unopened.count c + if c = b then 1 else 0 := by
    intro c
    rw [← Multiset.count_add, ht, Multiset.count_cons, Multiset.count_add]
  unfold settled
  induction x.subdirs with
  | nil => rfl
  | cons c cs ih =>
      rw [List.map_cons, List.sum_cons, List.map_cons, List.sum_cons, ih, hcount, List.count_cons]
      simp only [beq_iff_eq]
      omega

theorem offered_of_descend (h : Ordered ua level roots s) {b : BottomUp}
    (hb : .descend b ∈ s.tasks) : 0 < s.offered ua level roots b := by
  have harrived := h.arrived b
  have hle := le_total hb (arriving b)
  simp only [arriving, if_pos] at hle
  omega

theorem offered_of_descending (h : Ordered ua level roots s) {b : BottomUp}
    (hb : .descending b ∈ s.tasks) : 0 < s.offered ua level roots b := by
  have harrived := h.arrived b
  have hle := le_total hb (arriving b)
  simp only [arriving, if_pos] at hle
  omega

theorem offered_of_ascending (h : Ordered ua level roots s) {b : BottomUp}
    (hb : .ascending b ∈ s.tasks) : 0 < s.offered ua level roots b := by
  have hascended := h.ascended_le b
  have hdescended := h.descended_le_offered b
  have hle := le_total hb (rising b)
  simp only [rising, if_pos] at hle
  omega

theorem arrived_step (h : Ordered ua level roots s) (hstep : Step ua s s') (x : BottomUp) :
    total s'.tasks (arriving x) + s'.descended.count x + s'.unopened.count x +
      s'.dropped.count x = s'.offered ua level roots x := by
  have hx := h.arrived x
  cases hstep with
  | openFails b rest htask hopen =>
      change _ = s.offered ua level roots x
      simp only [htask, total_cons, total_add, total_ascendParent_arriving, arriving,
        Multiset.count_cons] at hx ⊢
      omega
  | statFails b rest htask hopen hstat =>
      change _ = s.offered ua level roots x
      simp only [htask, total_cons, arriving, Multiset.count_cons] at hx ⊢
      omega
  | descend b rest htask hopen hstat =>
      change _ = s.offered ua level roots x
      simpa only [htask, total_cons, arriving] using hx
  | descendFails b rest htask hrc =>
      change _ = s.offered ua level roots x
      simp only [htask, total_cons, arriving, Multiset.count_cons] at hx ⊢
      omega
  | goDown b rest htask hrc hdown =>
      rw [offered_goDown hdown rfl]
      simp only [htask, total_cons, arriving, Multiset.count_cons] at hx ⊢
      omega
  | turn b rest htask hrc hdown =>
      rw [offered_turn hdown rfl]
      simp only [htask, total_cons, arriving, Multiset.count_cons] at hx ⊢
      omega
  | enqueue b c cs rest htask =>
      change _ = s.offered ua level roots x
      simp only [htask, total_cons, arriving, List.count_cons, beq_iff_eq] at hx ⊢
      simp only [eq_comm (a := c)] at hx
      omega
  | unlock b rest htask =>
      change _ = s.offered ua level roots x
      simpa only [htask, total_cons, arriving, List.count_nil, Nat.zero_add] using hx
  | countDown b rest htask hlock hremaining =>
      change _ = s.offered ua level roots x
      simpa only [htask, total_cons, arriving, Nat.zero_add] using hx
  | ascend b rest htask hlock hremaining =>
      change _ = s.offered ua level roots x
      simpa only [htask, total_cons, arriving, Nat.zero_add] using hx
  | ascended b rest htask =>
      change _ = s.offered ua level roots x
      simpa only [htask, total_cons, total_add, total_ascendParent_arriving, arriving,
        Nat.zero_add] using hx

theorem inRoots_step (h : Ordered ua level roots s) (hstep : Step ua s s') :
    ∀ x ∈ s'.descended, InRoots roots x := by
  have hnew : ∀ b, .descending b ∈ s.tasks → ∀ x ∈ b ::ₘ s.descended, InRoots roots x := by
    intro b hb x hx
    rcases Multiset.mem_cons.mp hx with rfl | hx
    · exact h.inRoots_of_offered (offered_of_descending h hb)
    · exact h.inRoots x hx
  cases hstep with
  | goDown b rest htask hrc hdown => exact hnew b (htask ▸ Multiset.mem_cons_self _ _)
  | turn b rest htask hrc hdown => exact hnew b (htask ▸ Multiset.mem_cons_self _ _)
  | _ => exact h.inRoots

/-- A directory that is about to be descended has not been before. -/
theorem descended_eq_zero (h : Ordered ua level roots s) (hwf : ∀ t ∈ roots, t.WellFormed)
    (hroots : roots.Nodup) {b : BottomUp} (hb : .descending b ∈ s.tasks) :
    s.descended.count b = 0 := by
  have harrived := h.arrived b
  have hone := h.offered_le_one hwf hroots b
  have hle := le_total hb (arriving b)
  simp only [arriving, if_pos] at hle
  omega

/-- A call of `ascend_to_top` on a directory that went down finds something to count. -/
theorem remaining_pos (h : Ordered ua level roots s) (hwf : ∀ t ∈ roots, t.WellFormed)
    {b : BottomUp} (hb : .ascend b ∈ s.tasks) (hdown : ua.GoesDown b) : 0 < s.remaining b := by
  have hcounted := h.counted b hdown
  have hsettled := h.settled_le hwf b hdown
  have hcall : 1 ≤ total s.tasks (calling b) := by
    simpa using le_total hb (calling b)
  omega

theorem fresh_step (h : Ordered ua level roots s) (hstep : Step ua s s') (x : BottomUp)
    (hx : s'.descended.count x = 0) : s'.remaining x = 0 := by
  cases hstep with
  | goDown b rest htask hrc hdown =>
      rw [Multiset.count_eq_zero, Multiset.mem_cons, not_or] at hx
      change Function.update s.remaining b _ x = 0
      rw [Function.update_of_ne hx.1]
      exact h.fresh x (Multiset.count_eq_zero.mpr hx.2)
  | turn b rest htask hrc hdown =>
      rw [Multiset.count_eq_zero, Multiset.mem_cons, not_or] at hx
      change Function.update s.remaining b _ x = 0
      rw [Function.update_of_ne hx.1]
      exact h.fresh x (Multiset.count_eq_zero.mpr hx.2)
  | countDown b rest htask hlock hremaining =>
      have hzero := h.fresh x hx
      change Function.update s.remaining b _ x = 0
      by_cases hxb : x = b
      · subst hxb
        rw [Function.update_self, hzero]
      · rw [Function.update_of_ne hxb, hzero]
  | ascend b rest htask hlock hremaining =>
      have hzero := h.fresh x hx
      change Function.update s.remaining b _ x = 0
      by_cases hxb : x = b
      · subst hxb
        rw [Function.update_self]
      · rw [Function.update_of_ne hxb, hzero]
  | _ => exact h.fresh x hx

section Accounting

variable (h : Ordered ua level roots s) (hwf : ∀ t ∈ roots, t.WellFormed) (hroots : roots.Nodup)
include h hwf hroots

theorem counted_step (hstep : Step ua s s') (x : BottomUp) (hx : ua.GoesDown x) :
    s'.remaining x + s'.settled x =
      s'.descended.count x * x.subdirs.length + total s'.tasks (calling x) := by
  have hcounted := h.counted x hx
  cases hstep with
  | openFails b rest htask hopen =>
      have hb : BottomUpTask.descend b ∈ s.tasks := htask ▸ Multiset.mem_cons_self _ _
      rw [settled_cons (s := s) (b := b) x (Multiset.add_cons ..),
        h.count_subdirs_eq hwf (offered_of_descend h hb) x]
      simp only [htask, total_cons, total_add, calling] at hcounted ⊢
      omega
  | goDown b rest htask hrc hdown =>
      have hb : BottomUpTask.descending b ∈ s.tasks := htask ▸ Multiset.mem_cons_self _ _
      change _ + s.settled x = _
      by_cases hxb : x = b
      · subst hxb
        have hzero := descended_eq_zero h hwf hroots hb
        have hfresh := h.fresh x hzero
        simp only [htask, total_cons, calling, Function.update_self,
          Multiset.count_cons_self, hzero, hfresh, Nat.zero_mul, Nat.zero_add, Nat.one_mul]
          at hcounted ⊢
        have hsettled := h.settled_le hwf x hx
        rw [hzero, Nat.zero_mul] at hsettled
        omega
      · simpa only [htask, total_cons, calling, Function.update_of_ne hxb,
          Multiset.count_cons_of_ne hxb] using hcounted
  | turn b rest htask hrc hdown =>
      have hxb : x ≠ b := by
        rintro rfl
        exact hdown hx
      change _ + s.settled x = _
      simpa only [htask, total_cons, calling, Function.update_of_ne hxb, if_neg hxb,
        Multiset.count_cons_of_ne hxb, Nat.zero_add] using hcounted
  | countDown b rest htask hlock hremaining =>
      change _ + s.settled x = s.descended.count x * _ + _
      by_cases hxb : x = b
      · subst hxb
        simp only [htask, total_cons, calling, Function.update_self, if_pos] at hcounted ⊢
        omega
      · simpa only [htask, total_cons, calling, Function.update_of_ne hxb, if_neg hxb,
          Nat.zero_add] using hcounted
  | ascend b rest htask hlock hremaining =>
      have hb : BottomUpTask.ascend b ∈ s.tasks := htask ▸ Multiset.mem_cons_self _ _
      change _ + s.settled x = s.descended.count x * _ + _
      by_cases hxb : x = b
      · subst hxb
        have hpos := remaining_pos h hwf hb hx
        simp only [htask, total_cons, calling, Function.update_self, if_pos] at hcounted ⊢
        omega
      · simpa only [htask, total_cons, calling, Function.update_of_ne hxb, if_neg hxb,
          Nat.zero_add] using hcounted
  | ascended b rest htask =>
      have hb : BottomUpTask.ascending b ∈ s.tasks := htask ▸ Multiset.mem_cons_self _ _
      rw [settled_cons (s := s) (b := b) x (Multiset.cons_add ..),
        h.count_subdirs_eq hwf (offered_of_ascending h hb) x]
      simp only [htask, total_cons, total_add, calling] at hcounted ⊢
      omega
  | statFails b rest htask hopen hstat =>
      change _ + s.settled x = _
      simpa only [htask, total_cons, calling, Nat.zero_add] using hcounted
  | descend b rest htask hopen hstat =>
      change _ + s.settled x = _
      simpa only [htask, total_cons, calling, Nat.zero_add] using hcounted
  | descendFails b rest htask hrc =>
      change _ + s.settled x = _
      simpa only [htask, total_cons, calling, Nat.zero_add] using hcounted
  | enqueue b c cs rest htask =>
      change _ + s.settled x = _
      simpa only [htask, total_cons, calling, Nat.zero_add] using hcounted
  | unlock b rest htask =>
      change _ + s.settled x = _
      simpa only [htask, total_cons, calling, Nat.zero_add] using hcounted

theorem risen_step (hstep : Step ua s s') (x : BottomUp) (hx : ua.GoesDown x) :
    total s'.tasks (rising x) + s'.ascended.count x =
      if s'.remaining x = 0 then s'.descended.count x else 0 := by
  have hrisen := h.risen x hx
  cases hstep with
  | openFails b rest htask hopen =>
      simpa only [htask, total_cons, total_add, total_ascendParent_rising, rising,
        Nat.zero_add] using hrisen
  | statFails b rest htask hopen hstat =>
      simpa only [htask, total_cons, rising, Nat.zero_add] using hrisen
  | descend b rest htask hopen hstat =>
      simpa only [htask, total_cons, rising, Nat.zero_add] using hrisen
  | descendFails b rest htask hrc =>
      simpa only [htask, total_cons, rising, Nat.zero_add] using hrisen
  | goDown b rest htask hrc hdown =>
      have hb : BottomUpTask.descending b ∈ s.tasks := htask ▸ Multiset.mem_cons_self _ _
      by_cases hxb : x = b
      · subst hxb
        have hzero := descended_eq_zero h hwf hroots hb
        have hlength : x.subdirs.length ≠ 0 := by
          rw [Ne, List.length_eq_zero_iff]
          exact hdown.2.2
        simp only [htask, total_cons, rising, Nat.zero_add, hzero, ite_self] at hrisen ⊢
        rw [Function.update_self, if_neg hlength]
        exact hrisen
      · simpa only [htask, total_cons, rising, Nat.zero_add, Function.update_of_ne hxb,
          Multiset.count_cons_of_ne hxb] using hrisen
  | turn b rest htask hrc hdown =>
      have hxb : x ≠ b := by
        rintro rfl
        exact hdown hx
      simpa only [htask, total_cons, rising, Nat.zero_add, Function.update_of_ne hxb,
        Multiset.count_cons_of_ne hxb] using hrisen
  | enqueue b c cs rest htask =>
      simpa only [htask, total_cons, rising, Nat.zero_add] using hrisen
  | unlock b rest htask =>
      simpa only [htask, total_cons, rising, Nat.zero_add] using hrisen
  | countDown b rest htask hlock hremaining =>
      by_cases hxb : x = b
      · subst hxb
        have hne : s.remaining x ≠ 0 := by omega
        simp only [htask, total_cons, rising, Nat.zero_add, if_neg hne] at hrisen ⊢
        rw [Function.update_self, if_neg hremaining]
        exact hrisen
      · simpa only [htask, total_cons, rising, Nat.zero_add, Function.update_of_ne hxb]
          using hrisen
  | ascend b rest htask hlock hremaining =>
      have hb : BottomUpTask.ascend b ∈ s.tasks := htask ▸ Multiset.mem_cons_self _ _
      by_cases hxb : x = b
      · subst hxb
        have hpos := remaining_pos h hwf hb hx
        have hdescended : s.descended.count x = 1 := by
          have hone := h.offered_le_one hwf hroots x
          have hle := h.descended_le_offered x
          have hfresh := h.fresh x
          omega
        simp only [htask, total_cons, rising, Nat.zero_add, if_neg hpos.ne', if_pos]
          at hrisen ⊢
        rw [Function.update_self, if_pos rfl, hdescended]
        omega
      · simpa only [htask, total_cons, rising, Nat.zero_add, Function.update_of_ne hxb,
          if_neg hxb] using hrisen
  | ascended b rest htask =>
      simp only [htask, total_cons, total_add, total_ascendParent_rising, rising,
        Multiset.count_cons] at hrisen ⊢
      omega

omit hroots in
theorem turned_step (hstep : Step ua s s') (x : BottomUp) (hx : ¬ua.GoesDown x) :
    s'.remaining x = 0 ∧
      total s'.tasks (calling x) + total s'.tasks (rising x) + s'.ascended.count x =
        s'.descended.count x := by
  have hturned := h.turned x hx
  have hnocall : ∀ b, 0 < s.offered ua level roots b →
      total (ascendParent b) (calling x) = 0 := by
    intro b hb
    rw [← h.count_subdirs_eq hwf hb x, List.count_eq_zero]
    intro hmem
    exact hx (goesDown_of_offered_pos (parent_of_mem_subdirs hmem) hb).1
  cases hstep with
  | openFails b rest htask hopen =>
      have hb : BottomUpTask.descend b ∈ s.tasks := htask ▸ Multiset.mem_cons_self _ _
      have hcall := hnocall b (offered_of_descend h hb)
      simp only [htask, total_cons, total_add, total_ascendParent_rising, calling, rising,
        hcall] at hturned ⊢
      omega
  | statFails b rest htask hopen hstat =>
      simpa only [htask, total_cons, calling, rising, Nat.zero_add] using hturned
  | descend b rest htask hopen hstat =>
      simpa only [htask, total_cons, calling, rising, Nat.zero_add] using hturned
  | descendFails b rest htask hrc =>
      simpa only [htask, total_cons, calling, rising, Nat.zero_add] using hturned
  | goDown b rest htask hrc hdown =>
      have hxb : x ≠ b := by
        rintro rfl
        exact hx hdown
      simpa only [htask, total_cons, calling, rising, Nat.zero_add, Function.update_of_ne hxb,
        Multiset.count_cons_of_ne hxb] using hturned
  | turn b rest htask hrc hdown =>
      by_cases hxb : x = b
      · subst hxb
        simp only [htask, total_cons, calling, rising, Function.update_self,
          Multiset.count_cons_self, if_pos, true_and] at hturned ⊢
        omega
      · simpa only [htask, total_cons, calling, rising, Nat.zero_add, if_neg hxb,
          Function.update_of_ne hxb, Multiset.count_cons_of_ne hxb] using hturned
  | enqueue b c cs rest htask =>
      simpa only [htask, total_cons, calling, rising, Nat.zero_add] using hturned
  | unlock b rest htask =>
      simpa only [htask, total_cons, calling, rising, Nat.zero_add] using hturned
  | countDown b rest htask hlock hremaining =>
      have hxb : x ≠ b := by
        rintro rfl
        omega
      simpa only [htask, total_cons, calling, rising, Nat.zero_add, if_neg hxb,
        Function.update_of_ne hxb] using hturned
  | ascend b rest htask hlock hremaining =>
      by_cases hxb : x = b
      · subst hxb
        simp only [htask, total_cons, calling, rising, Function.update_self, if_pos, true_and]
          at hturned ⊢
        omega
      · simpa only [htask, total_cons, calling, rising, Nat.zero_add, if_neg hxb,
          Function.update_of_ne hxb] using hturned
  | ascended b rest htask =>
      have hb : BottomUpTask.ascending b ∈ s.tasks := htask ▸ Multiset.mem_cons_self _ _
      have hcall := hnocall b (offered_of_ascending h hb)
      simp only [htask, total_cons, total_add, total_ascendParent_rising, calling, rising,
        hcall, Multiset.count_cons] at hturned ⊢
      omega

theorem ordered_step (hstep : Step ua s s') : Ordered ua level roots s' where
  arrived := arrived_step h hstep
  inRoots := inRoots_step h hstep
  fresh := fresh_step h hstep
  counted := counted_step h hwf hroots hstep
  risen := risen_step h hwf hroots hstep
  turned := turned_step h hwf hstep

end Accounting

end Steps

section Runs

theorem total_start (w : BottomUpTask → ℕ) :
    total (start level roots).tasks w =
      ((roots.map (BottomUp.root level)).map fun b => w (.descend b)).sum := by
  simp [total, start, Function.comp_def]

theorem total_start_eq_zero {w : BottomUpTask → ℕ} (hw : ∀ b, w (.descend b) = 0) :
    total (start level roots).tasks w = 0 := by
  rw [total_start]
  apply List.sum_eq_zero
  intro n hn
  obtain ⟨b, -, rfl⟩ := List.mem_map.mp hn
  exact hw b

theorem ordered_start (ua : UserArgs) (level : ℕ) (roots : List DirTree) :
    Ordered ua level roots (start level roots) where
  arrived x := by
    rw [total_start]
    simp only [start, offered, arriving, Multiset.count_zero, Nat.add_zero, Multiset.filter_zero,
      Multiset.map_zero, Multiset.sum_zero]
    induction roots.map (BottomUp.root level) with
    | nil => rfl
    | cons b bs ih =>
        rw [List.map_cons, List.sum_cons, ih, List.count_cons]
        simp only [beq_iff_eq, eq_comm (a := b)]
        omega
  inRoots x hx := by cases Multiset.notMem_zero x hx
  fresh x _ := rfl
  counted x _ := by
    have hcall : total (start level roots).tasks (calling x) = 0 :=
      total_start_eq_zero fun _ => rfl
    rw [hcall]
    simp [start, settled]
  risen x _ := by
    have hrise : total (start level roots).tasks (rising x) = 0 :=
      total_start_eq_zero fun _ => rfl
    rw [hrise]
    simp [start]
  turned x _ := by
    have hcall : total (start level roots).tasks (calling x) = 0 :=
      total_start_eq_zero fun _ => rfl
    have hrise : total (start level roots).tasks (rising x) = 0 :=
      total_start_eq_zero fun _ => rfl
    rw [hcall, hrise]
    simp [start]

theorem ordered_of_reaches (hwf : ∀ t ∈ roots, t.WellFormed) (hroots : roots.Nodup)
    (hrun : Reaches ua (start level roots) s) : Ordered ua level roots s := by
  induction hrun with
  | refl => exact ordered_start ua level roots
  | tail _ hstep ih => exact ordered_step ih hwf hroots hstep

end Runs

section Order

theorem total_rising (tasks : Multiset BottomUpTask) (b : BottomUp) :
    total tasks (rising b) = tasks.count (.ascending b) := by
  induction tasks using Multiset.induction with
  | empty => simp [total]
  | cons a tasks ih =>
      rw [total_cons, ih, Multiset.count_cons]
      cases a <;> simp [Nat.add_comm]

/-- Numbers that are at most one and add up to their count are all one. -/
theorem eq_one_of_length_le_sum {α : Type*} {f : α → ℕ} {l : List α} (hle : ∀ x ∈ l, f x ≤ 1)
    (hsum : l.length ≤ (l.map f).sum) : ∀ x ∈ l, f x = 1 := by
  induction l with
  | nil => simp
  | cons a l ih =>
      have ha := hle a (List.mem_cons_self ..)
      have hl : ∀ x ∈ l, f x ≤ 1 := fun x hx => hle x (List.mem_cons_of_mem a hx)
      have hrest : (l.map f).sum ≤ l.length := by
        have hcard := List.sum_le_card_nsmul (l.map f) 1 (by simpa using hl)
        simpa using hcard
      rw [List.length_cons, List.map_cons, List.sum_cons] at hsum
      intro x hx
      rcases List.mem_cons.mp hx with rfl | hx
      · omega
      · exact ih hl (by omega) x hx

variable (h : Ordered ua level roots s) (hwf : ∀ t ∈ roots, t.WellFormed) (hroots : roots.Nodup)
include h hwf hroots

theorem Ordered.settled_le_one (c : BottomUp) : s.ascended.count c + s.unopened.count c ≤ 1 := by
  have harrived := h.arrived c
  have hone := h.offered_le_one hwf hroots c
  have hascended := h.ascended_le c
  omega

/-- Once the counter of a directory that went down is zero, its subdirectories are settled. -/
theorem Ordered.settled_of_remaining_eq_zero {b : BottomUp} (hdown : ua.GoesDown b)
    (hb : b ∈ s.descended) (hzero : s.remaining b = 0) :
    ∀ c ∈ b.subdirs, s.ascended.count c + s.unopened.count c = 1 := by
  apply eq_one_of_length_le_sum (fun c _ => h.settled_le_one hwf hroots c)
  have hcounted := h.counted b hdown
  have hpos := Multiset.count_pos.mpr hb
  have hone := h.offered_le_one hwf hroots b
  have hle := h.descended_le_offered b
  have hdescended : s.descended.count b = 1 := by omega
  rw [hzero, hdescended, Nat.one_mul, Nat.zero_add] at hcounted
  change _ ≤ s.settled b
  omega

end Order

/-- In every walk the ascend function of a directory runs at most once. It runs after the
directory was descended and after its subdirectories, if they were enqueued, ascended or failed to
open. A call that counts down a subdirectory finds the counter above zero. -/
theorem ascend_after_subdirs (hwf : ∀ t ∈ roots, t.WellFormed) (hroots : roots.Nodup)
    (hrun : Reaches ua (start level roots) s) (b : BottomUp) :
    s.ascended.count b + s.tasks.count (.ascending b) ≤ 1 ∧
    (b ∈ s.ascended ∨ .ascending b ∈ s.tasks →
      b ∈ s.descended ∧
        (ua.GoesDown b → ∀ c ∈ b.subdirs, c ∈ s.ascended ∨ c ∈ s.unopened)) ∧
    (.ascend b ∈ s.tasks → ua.GoesDown b → 0 < s.remaining b) := by
  have h := ordered_of_reaches hwf hroots hrun
  have hle := h.ascended_le b
  rw [total_rising] at hle
  refine ⟨?_, ?_, ?_⟩
  · have hone := h.offered_le_one hwf hroots b
    have hdescended := h.descended_le_offered b
    omega
  · intro hb
    have hpos : 0 < s.ascended.count b + s.tasks.count (.ascending b) := by
      rcases hb with hb | hb
      · exact Nat.add_pos_left (Multiset.count_pos.mpr hb) _
      · exact Nat.add_pos_right _ (Multiset.count_pos.mpr hb)
    have hdescended : b ∈ s.descended := Multiset.count_pos.mp (by omega)
    refine ⟨hdescended, ?_⟩
    intro hdown c hc
    have hrisen := h.risen b hdown
    rw [total_rising] at hrisen
    have hzero : s.remaining b = 0 := by
      by_contra hne
      rw [if_neg hne] at hrisen
      omega
    have hone := h.settled_of_remaining_eq_zero hwf hroots hdown hdescended hzero c hc
    rcases Nat.eq_zero_or_pos (s.ascended.count c) with hasc | hasc
    · exact Or.inr (Multiset.count_pos.mp (by omega))
    · exact Or.inl (Multiset.count_pos.mp hasc)
  · exact fun hb hdown => remaining_pos h hwf hb hdown

section Example

/-- `/r` with the one subdirectory `/r/a`. -/
def lineTree : DirTree :=
  .node [47, 114] [.node [47, 114, 47, 97] []]

theorem wellFormed_lineTree : lineTree.WellFormed := by
  have hsubtrees : lineTree.subtrees = [lineTree, .node [47, 114, 47, 97] []] := by
    simp [DirTree.subtrees_eq, lineTree, DirTree.subdirs]
  constructor
  · intro t ht c hc
    rw [hsubtrees] at ht
    rcases List.mem_pair.mp ht with rfl | rfl
    · rw [List.mem_singleton.mp hc]
      exact ⟨[97], by decide, rfl⟩
    · cases hc
  · rw [DirTree.paths, hsubtrees]
    decide

/-- Everything opens, and the user's descend function fails on the directories below a root. -/
def failBelow : UserArgs where
  minLevel := 0
  maxLevel := 10
  opens _ := true
  stats _ := true
  descend b := if b.level = 0 then (0, true) else (1, true)

def lineRoot : BottomUp := BottomUp.root 0 lineTree

def lineChild : BottomUp := lineRoot.child (.node [47, 114, 47, 97] [])

/-- The walk of `lineTree` after the root was descended and its subdirectory was dropped. -/
def lineWalk : BottomUpWalk where
  tasks := 0
  remaining := Function.update (fun _ => 0) lineRoot 1
  descended := {lineRoot}
  ascended := 0
  unopened := 0
  dropped := {lineChild}

theorem reaches_lineWalk : Reaches failBelow (start 0 [lineTree]) lineWalk := by
  apply Relation.ReflTransGen.head (Step.descend _ lineRoot 0 rfl rfl rfl)
  apply Relation.ReflTransGen.head (Step.goDown _ lineRoot 0 rfl rfl (by decide))
  apply Relation.ReflTransGen.head (Step.enqueue _ lineRoot lineChild [] 0 rfl)
  apply Relation.ReflTransGen.head (Step.descend _ lineChild {.enqueueing lineRoot []} rfl rfl rfl)
  apply Relation.ReflTransGen.head
    (Step.descendFails _ lineChild {.enqueueing lineRoot []} rfl (by decide))
  apply Relation.ReflTransGen.head (Step.unlock _ lineRoot 0 rfl)
  exact Relation.ReflTransGen.refl

theorem ascend_after_subdirs_lineWalk :
    lineWalk.ascended.count lineRoot + lineWalk.tasks.count (.ascending lineRoot) ≤ 1 :=
  (ascend_after_subdirs (by simpa using wellFormed_lineTree) (by simp) reaches_lineWalk
    lineRoot).1

end Example

end BottomUpWalk

end Gufi
