import Mathlib.Algebra.Group.Nat.Defs
import Mathlib.Data.List.Nodup
import Mathlib.Order.Basic
import Mathlib.Tactic.Common

/-!
# Names from a counter

Things are held under names, and a counter says which name comes next. Acquiring uses the next name
up also when nothing can be held under it. Releasing gives back the last name that was used up,
held or not, so as many releases as acquisitions lead back to where they began.
-/

namespace NameCounter

structure Held (ν : Type) where
  held : List ν
  next : ℕ
deriving DecidableEq

namespace Held

variable {ν : Type} (name : ℕ → ν)

/-- No name is held that the counter still has to give out. -/
def Free (s : Held ν) : Prop := ∀ i, s.next ≤ i → name i ∉ s.held

/-- What is held beyond an earlier state has its name from the counter since then. -/
structure Above (base s : Held ν) : Prop where
  next : base.next ≤ s.next
  held : ∃ extra, s.held = base.held ++ extra ∧
    ∀ x ∈ extra, ∃ i, base.next ≤ i ∧ i < s.next ∧ x = name i

variable {name} {s base : Held ν}

theorem Above.refl (s : Held ν) : s.Above name s :=
  ⟨Nat.le_refl _, [], (List.append_nil _).symm, fun _ hx => absurd hx List.not_mem_nil⟩

theorem Above.subset (h : base.Above name s) : base.held ⊆ s.held := by
  obtain ⟨extra, hheld, -⟩ := h.held
  rw [hheld]
  exact List.subset_append_left _ _

theorem Above.free (hinj : Function.Injective name) (hfree : base.Free name)
    (h : base.Above name s) : s.Free name := by
  obtain ⟨extra, hheld, hextra⟩ := h.held
  intro i hi hmem
  rw [hheld] at hmem
  rcases List.mem_append.mp hmem with hmem | hmem
  · exact hfree i (Nat.le_trans h.next hi) hmem
  · obtain ⟨j, -, hj, hij⟩ := hextra _ hmem
    have : i = j := hinj hij
    omega

/-- With the counter back, everything is as it was. -/
theorem Above.eq_of_next (h : base.Above name s) (hnext : s.next = base.next) : s = base := by
  obtain ⟨extra, hheld, hextra⟩ := h.held
  have hnil : extra = [] := by
    refine List.eq_nil_iff_forall_not_mem.mpr fun x hx => ?_
    obtain ⟨i, hfrom, hto, -⟩ := hextra x hx
    omega
  rw [hnil, List.append_nil] at hheld
  cases s
  cases base
  simp_all

section Counting

variable [DecidableEq ν]

variable (name) in
/-- Nothing can be held twice under one name. -/
def acquire (ok : Bool) (s : Held ν) : Held ν :=
  ⟨if ok ∧ name s.next ∉ s.held then s.held ++ [name s.next] else s.held, s.next + 1⟩

variable (name) in
/-- The counter is a machine word, and wraps around below 0. -/
def release (s : Held ν) : Held ν :=
  let last := if s.next = 0 then 2 ^ 64 - 1 else s.next - 1
  ⟨s.held.filter (· ≠ name last), last⟩

@[simp] theorem next_acquire (ok : Bool) : (s.acquire name ok).next = s.next + 1 := rfl

theorem next_release (h : 0 < s.next) : (s.release name).next = s.next - 1 := by
  rw [release]
  exact if_neg (Nat.pos_iff_ne_zero.mp h)

theorem subset_held_acquire (ok : Bool) : s.held ⊆ (s.acquire name ok).held := by
  rw [acquire]
  split_ifs
  · exact List.subset_append_left _ _
  · exact List.Subset.refl _

theorem mem_held_acquire {x : ν} {ok : Bool} (h : x ∈ (s.acquire name ok).held) :
    x ∈ s.held ∨ x = name s.next := by
  rw [acquire] at h
  split_ifs at h
  · rcases List.mem_append.mp h with hx | hx
    · exact .inl hx
    · exact .inr (List.mem_singleton.mp hx)
  · exact .inl h

theorem nodup_acquire (ok : Bool) (h : s.held.Nodup) : (s.acquire name ok).held.Nodup := by
  rw [acquire]
  split_ifs with hok
  · exact h.append (List.nodup_singleton _) (List.disjoint_singleton.mpr hok.2)
  · exact h

theorem nodup_release (h : s.held.Nodup) : (s.release name).held.Nodup := h.filter _

theorem Free.acquire (hinj : Function.Injective name) (h : s.Free name) (ok : Bool) :
    (s.acquire name ok).Free name := by
  intro i hi hmem
  rw [next_acquire] at hi
  rcases mem_held_acquire hmem with hx | hx
  · exact h i (by omega) hx
  · have : i = s.next := hinj hx
    omega

theorem Above.acquire (h : base.Above name s) (ok : Bool) :
    base.Above name (s.acquire name ok) := by
  obtain ⟨extra, hheld, hextra⟩ := h.held
  have hlater : ∀ x ∈ extra, ∃ i, base.next ≤ i ∧ i < s.next + 1 ∧ x = name i := by
    intro x hx
    obtain ⟨i, hfrom, hto, rfl⟩ := hextra x hx
    exact ⟨i, hfrom, by omega, rfl⟩
  refine ⟨Nat.le_succ_of_le h.next, ?_⟩
  rw [Held.acquire]
  split_ifs
  · refine ⟨extra ++ [name s.next], by rw [hheld, List.append_assoc], fun x hx => ?_⟩
    rcases List.mem_append.mp hx with hx | hx
    · exact hlater x hx
    · exact ⟨s.next, h.next, Nat.lt_succ_self _, List.mem_singleton.mp hx⟩
  · exact ⟨extra, hheld, hlater⟩

/-- A name above the earlier state is given back, and what was held then stays. -/
theorem Above.release (hfree : base.Free name) (h : base.Above name s) (hlt : base.next < s.next) :
    base.Above name (s.release name) := by
  obtain ⟨extra, hheld, hextra⟩ := h.held
  have hlast : (s.release name).held = s.held.filter (· ≠ name (s.next - 1)) := by
    rw [Held.release, if_neg (by omega)]
  refine ⟨by rw [next_release (by omega)]; omega, extra.filter (· ≠ name (s.next - 1)), ?_, ?_⟩
  · have hbase : base.held.filter (· ≠ name (s.next - 1)) = base.held := by
      refine List.filter_eq_self.mpr fun x hx => decide_eq_true ?_
      rintro rfl
      exact hfree _ (by omega) hx
    rw [hlast, hheld, List.filter_append, hbase]
  · intro x hx
    obtain ⟨hmem, hne⟩ := List.mem_filter.mp hx
    obtain ⟨i, hfrom, hto, rfl⟩ := hextra x hmem
    have : i ≠ s.next - 1 := fun h => of_decide_eq_true hne (by rw [h])
    exact ⟨i, hfrom, by rw [next_release (by omega)]; omega, rfl⟩

end Counting

end Held

end NameCounter
