import Mathlib.Algebra.BigOperators.Group.Finset.Piecewise
import Mathlib.Algebra.Order.BigOperators.Group.Finset
import Mathlib.Data.Multiset.Count
import Mathlib.Algebra.Order.Group.Multiset
import Mathlib.Tactic.Abel

/-!
# Custody of items

Finitely many holders keep lists of items. `held` is everything they keep, with multiplicity. A
holder may reorder its list or receive items, and two holders may exchange items; the lemmas say
what becomes of `held`. As long as nothing is held twice, every item has exactly one holder.
-/

namespace Custody

variable {ι α : Type*} [Fintype ι]

def held (f : ι → List α) : Multiset α :=
  ∑ i, (f i : Multiset α)

theorem mem_held {f : ι → List α} {x : α} : x ∈ held f ↔ ∃ i, x ∈ f i := by
  simp [held, Multiset.mem_sum]

theorem held_nil : held (fun _ : ι => ([] : List α)) = 0 := by
  simp [held]

theorem held_eq_of_perm {f f' : ι → List α} (h : ∀ k, (f' k).Perm (f k)) : held f' = held f :=
  Finset.sum_congr rfl fun k _ => Multiset.coe_eq_coe.mpr (h k)

section CountP

variable {p : α → Prop} [DecidablePred p] {f : ι → List α}

theorem countP_held (f : ι → List α) : (held f).countP p = ∑ i, (f i).countP p := by
  rw [held, ← Multiset.coe_countPAddMonoidHom, map_sum]
  simp

theorem countP_held_eq_zero (h : ∀ i, ∀ x ∈ f i, ¬p x) : (held f).countP p = 0 := by
  rw [Multiset.countP_eq_zero]
  intro x hx
  obtain ⟨i, hi⟩ := mem_held.mp hx
  exact h i x hi

theorem not_of_countP_held_eq_zero (h : (held f).countP p = 0) {i : ι} {x : α} (hx : x ∈ f i) :
    ¬p x :=
  Multiset.countP_eq_zero.mp h x (mem_held.mpr ⟨i, hx⟩)

theorem countP_held_pos {i : ι} {x : α} (hx : x ∈ f i) (hp : p x) : 0 < (held f).countP p :=
  Multiset.countP_pos.mpr ⟨x, mem_held.mpr ⟨i, hx⟩, hp⟩

theorem two_le_countP_held [DecidableEq ι] {i j : ι} {x y : α} (hij : i ≠ j) (hx : x ∈ f i)
    (hpx : p x) (hy : y ∈ f j) (hpy : p y) : 2 ≤ (held f).countP p := by
  rw [countP_held]
  have hi : 0 < (f i).countP p := List.countP_pos_iff.mpr ⟨x, hx, by simpa using hpx⟩
  have hj : 0 < (f j).countP p := List.countP_pos_iff.mpr ⟨y, hy, by simpa using hpy⟩
  calc
    2 ≤ (f i).countP p + (f j).countP p := by omega
    _ = ∑ k ∈ {i, j}, (f k).countP p :=
      (Finset.sum_pair (f := fun k => (f k).countP p) hij).symm
    _ ≤ ∑ k, (f k).countP p := Finset.sum_le_sum_of_subset (Finset.subset_univ _)

end CountP

section SumUpdate

variable [DecidableEq ι] {β M : Type*} [AddCommMonoid M]

/-- What one holder's change does to a sum over all holders. -/
theorem sum_update_add (f : β → M) (g : ι → β) (i : ι) (b : β) :
    ∑ k, f (Function.update g i b k) + f (g i) = ∑ k, f (g k) + f b := by
  have hi := Finset.mem_univ i
  have hrest : ∑ k ∈ Finset.univ.erase i, f (Function.update g i b k) =
      ∑ k ∈ Finset.univ.erase i, f (g k) :=
    Finset.sum_congr rfl fun k hk => by rw [Function.update_of_ne (Finset.ne_of_mem_erase hk)]
  rw [← Finset.add_sum_erase _ _ hi, hrest, Function.update_self, ← Finset.add_sum_erase _ _ hi]
  abel

end SumUpdate

section Update

variable [DecidableEq ι] {i j : ι} {x : List α}

theorem held_update (f : ι → List α) (i : ι) (l : List α) :
    held (Function.update f i l) + f i = held f + l := by
  have hcoe : (fun k => (Function.update f i l k : Multiset α)) =
      Function.update (fun k => (f k : Multiset α)) i l := by
    funext k
    by_cases hk : k = i
    · subst hk
      simp
    · simp [Function.update_of_ne hk]
  have hi := Finset.mem_univ i
  rw [held, hcoe, Finset.sum_update_of_mem hi, Finset.sdiff_singleton_eq_erase, held,
    ← Finset.add_sum_erase _ _ hi]
  abel

theorem held_eq_add {f f' : ι → List α} (hne : ∀ k, k ≠ i → f' k = f k)
    (hi : (f' i).Perm (f i ++ x)) : held f' = held f + x := by
  have hf' : f' = Function.update f i (f' i) := by
    funext k
    by_cases hk : k = i
    · subst hk
      simp
    · rw [Function.update_of_ne hk, hne k hk]
  have hsum := held_update f i (f' i)
  rw [← hf', Multiset.coe_eq_coe.mpr hi, ← Multiset.coe_add] at hsum
  have hcomm : held f + ((f i : Multiset α) + x) = held f + x + f i := by abel
  rw [hcomm] at hsum
  exact add_right_cancel hsum

/-- What one holder gives up and another one receives is held as before. -/
theorem held_eq_of_transfer {f f' : ι → List α} (hij : i ≠ j)
    (hne : ∀ k, k ≠ i → k ≠ j → f' k = f k) (hi : (f' i).Perm (f i ++ x))
    (hj : (f j).Perm (f' j ++ x)) : held f' = held f := by
  have hgain : held (Function.update f' j (f j)) = held f + x := by
    refine held_eq_add (i := i) (fun k hk => ?_) ?_
    · by_cases hkj : k = j
      · subst hkj
        simp
      · rw [Function.update_of_ne hkj, hne k hk hkj]
    · rwa [Function.update_of_ne hij]
  have hloss : held (Function.update f' j (f j)) = held f' + x :=
    held_eq_add (i := j) (fun k hk => Function.update_of_ne hk _ _) (by simpa using hj)
  exact add_right_cancel (hloss.symm.trans hgain)

end Update

section Nodup

variable [DecidableEq ι] {f : ι → List α}

theorem nodup_of_nodup_held (h : (held f).Nodup) (i : ι) : (f i).Nodup := by
  have hle : (f i : Multiset α) ≤ held f := by
    rw [held, ← Finset.add_sum_erase _ _ (Finset.mem_univ i)]
    exact Multiset.le_add_right _ _
  exact Multiset.coe_nodup.mp (Multiset.nodup_of_le hle h)

theorem eq_of_mem_of_nodup_held (h : (held f).Nodup) {i j : ι} {x : α} (hi : x ∈ f i)
    (hj : x ∈ f j) : i = j := by
  by_contra hij
  rw [held, ← Finset.add_sum_erase _ _ (Finset.mem_univ i), Multiset.nodup_add] at h
  have hmem : j ∈ Finset.univ.erase i := Finset.mem_erase.mpr ⟨fun he => hij he.symm,
    Finset.mem_univ j⟩
  have hrest : x ∈ ∑ k ∈ Finset.univ.erase i, (f k : Multiset α) :=
    Multiset.mem_sum.mpr ⟨j, hmem, hj⟩
  exact Multiset.disjoint_left.mp h.2.2 hi hrest

/-- An item that is held once has exactly one holder. -/
theorem existsUnique_holder (h : (held f).Nodup) {x : α} (hx : x ∈ held f) : ∃! i, x ∈ f i := by
  obtain ⟨i, hi⟩ := mem_held.mp hx
  exact ⟨i, hi, fun j hj => eq_of_mem_of_nodup_held h hj hi⟩

end Nodup

end Custody
