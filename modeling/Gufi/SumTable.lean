import Mathlib.Algebra.BigOperators.Group.List.Basic
import Mathlib.Data.List.Nodup
import Mathlib.Tactic.Common

/-!
# Tables of sums

A list of keys with a value for each of them. What is added to a key that is not in the list yet
goes to its end. The value of a key is the sum of what was added to it, so that tables with the same
additions have the same entries, in some order.
-/

namespace SumTable

variable {κ ν : Type*} [DecidableEq κ]

section Table

/-- The place of a key. -/
def position (t : List (κ × ν)) (k : κ) : Option ℕ := t.findIdx? fun p => p.1 = k

variable [AddCommMonoid ν]

/-- The value of a key, which is 0 if it is not there. -/
def value : List (κ × ν) → κ → ν
  | [], _ => 0
  | (k', v) :: t, k => if k' = k then v else value t k

def add : List (κ × ν) → κ → ν → List (κ × ν)
  | [], k, x => [(k, x)]
  | (k', v) :: t, k, x => if k' = k then (k', v + x) :: t else (k', v) :: add t k x

/-- Several additions, one after the other. -/
def addAll (t xs : List (κ × ν)) : List (κ × ν) := xs.foldl (fun t p => add t p.1 p.2) t

/-- What is added to a key. -/
def total (xs : List (κ × ν)) (k : κ) : ν := ((xs.filter fun p => p.1 = k).map Prod.snd).sum

end Table

section Position

variable {t : List (κ × ν)} {k : κ} {i : ℕ}

theorem position_cons (p : κ × ν) (t : List (κ × ν)) (k : κ) :
    position (p :: t) k = if p.1 = k then some 0 else (position t k).map (· + 1) := by
  simp [position, List.findIdx?_cons]

theorem position_eq_none_iff : position t k = none ↔ k ∉ t.map Prod.fst := by
  simp only [position, List.findIdx?_eq_none_iff, decide_eq_false_iff_not, List.mem_map, not_exists,
    not_and]

/-- Only the keys matter. -/
theorem position_congr {t t' : List (κ × ν)} (h : t.map Prod.fst = t'.map Prod.fst) (k : κ) :
    position t k = position t' k := by
  have hkeys : ∀ t : List (κ × ν), position t k = (t.map Prod.fst).findIdx? (· = k) := fun t => by
    rw [position, List.findIdx?_map]
    rfl
  rw [hkeys, hkeys, h]

theorem position_concat (h : k ∉ t.map Prod.fst) (x : ν) (k' : κ) :
    position (t ++ [(k, x)]) k' = if k' = k then some t.length else position t k' := by
  induction t with
  | nil => simp [position, eq_comm]
  | cons p t ih =>
      rw [List.map_cons, List.mem_cons, not_or] at h
      rw [List.cons_append, position_cons, position_cons, ih h.2]
      by_cases hk : k' = k
      · subst hk
        simp [Ne.symm h.1]
      · simp [hk]

theorem lt_length_of_position (h : position t k = some i) : i < t.length :=
  (List.findIdx?_eq_some_iff_getElem.mp h).1

end Position

section Values

variable [AddCommMonoid ν] {t xs : List (κ × ν)} {k : κ} {v x : ν} {i : ℕ}

theorem value_of_notMem (h : k ∉ t.map Prod.fst) : value t k = 0 := by
  induction t with
  | nil => rfl
  | cons p t ih =>
      rw [List.map_cons, List.mem_cons, not_or] at h
      rw [value, if_neg (Ne.symm h.1), ih h.2]

theorem value_of_mem (hnodup : (t.map Prod.fst).Nodup) (h : (k, v) ∈ t) : value t k = v := by
  induction t with
  | nil => cases h
  | cons p t ih =>
      obtain ⟨k', v'⟩ := p
      rw [List.map_cons, List.nodup_cons] at hnodup
      rcases List.mem_cons.mp h with heq | hmem
      · obtain ⟨rfl, rfl⟩ := Prod.mk.inj heq
        rw [value, if_pos rfl]
      · have hne : k' ≠ k := fun heq =>
          hnodup.1 (List.mem_map.mpr ⟨_, hmem, heq.symm⟩)
        rw [value, if_neg hne, ih hnodup.2 hmem]

theorem mem_of_mem_keys (h : k ∈ t.map Prod.fst) : (k, value t k) ∈ t := by
  induction t with
  | nil => cases h
  | cons p t ih =>
      obtain ⟨k', v'⟩ := p
      by_cases hk : k' = k
      · subst hk
        rw [value, if_pos rfl]
        exact List.mem_cons_self
      · rw [value, if_neg hk]
        rw [List.map_cons, List.mem_cons, or_iff_right (Ne.symm hk)] at h
        exact List.mem_cons_of_mem _ (ih h)

/-- The entry at the place of a key is that of the key. -/
theorem getElem?_position (h : position t k = some i) : t[i]? = some (k, value t k) := by
  induction t generalizing i with
  | nil => cases h
  | cons p t ih =>
      obtain ⟨k', v'⟩ := p
      rw [position_cons] at h
      by_cases hk : k' = k
      · rw [if_pos hk] at h
        obtain rfl := Option.some.inj h
        rw [value, if_pos hk, ← hk, List.getElem?_cons_zero]
      · rw [if_neg hk] at h
        obtain ⟨j, hj, rfl⟩ := Option.map_eq_some_iff.mp h
        rw [value, if_neg hk, List.getElem?_cons_succ, ih hj]

/-- Tables with the same keys and values have the same entries. -/
theorem perm_of_value {t t' : List (κ × ν)} (hnodup : (t.map Prod.fst).Nodup)
    (hnodup' : (t'.map Prod.fst).Nodup)
    (hkeys : ∀ k, k ∈ t.map Prod.fst ↔ k ∈ t'.map Prod.fst)
    (hvalue : ∀ k, value t k = value t' k) : t.Perm t' := by
  have hmem : ∀ t : List (κ × ν), (t.map Prod.fst).Nodup → ∀ p : κ × ν,
      p ∈ t ↔ p.1 ∈ t.map Prod.fst ∧ value t p.1 = p.2 := by
    intro t ht p
    constructor
    · exact fun hp => ⟨List.mem_map_of_mem hp, value_of_mem ht hp⟩
    · rintro ⟨hk, hv⟩
      have := mem_of_mem_keys hk
      rwa [hv] at this
  rw [List.perm_ext_iff_of_nodup (hnodup.of_map _) (hnodup'.of_map _)]
  intro p
  rw [hmem t hnodup, hmem t' hnodup', hkeys, hvalue]

end Values

section Additions

variable [AddCommMonoid ν] {t xs : List (κ × ν)} {k : κ} {x : ν} {i : ℕ}

theorem add_of_notMem (h : k ∉ t.map Prod.fst) (x : ν) : add t k x = t ++ [(k, x)] := by
  induction t with
  | nil => rfl
  | cons p t ih =>
      rw [List.map_cons, List.mem_cons, not_or] at h
      rw [add, if_neg (Ne.symm h.1), ih h.2, List.cons_append]

theorem keys_add_of_mem (h : k ∈ t.map Prod.fst) (x : ν) :
    (add t k x).map Prod.fst = t.map Prod.fst := by
  induction t with
  | nil => cases h
  | cons p t ih =>
      rw [add]
      by_cases hk : p.1 = k
      · rw [if_pos hk, List.map_cons, List.map_cons]
      · rw [List.map_cons, List.mem_cons, or_iff_right (Ne.symm hk)] at h
        rw [if_neg hk, List.map_cons, List.map_cons, ih h]

/-- The value of a key that is there is changed in its place. -/
theorem values_add_of_position (h : position t k = some i) (x : ν) :
    (add t k x).map Prod.snd = (t.map Prod.snd).modify i (· + x) := by
  induction t generalizing i with
  | nil => cases h
  | cons p t ih =>
      rw [position_cons] at h
      rw [add]
      by_cases hk : p.1 = k
      · rw [if_pos hk] at h
        obtain rfl := Option.some.inj h
        rw [if_pos hk, List.map_cons, List.map_cons, List.modify_zero_cons]
      · rw [if_neg hk] at h
        obtain ⟨j, hj, rfl⟩ := Option.map_eq_some_iff.mp h
        rw [if_neg hk, List.map_cons, List.map_cons, List.modify_succ_cons, ih hj]

theorem mem_keys_add {k' : κ} : k' ∈ (add t k x).map Prod.fst ↔ k' ∈ t.map Prod.fst ∨ k' = k := by
  by_cases h : k ∈ t.map Prod.fst
  · rw [keys_add_of_mem h, or_iff_left_of_imp fun heq => heq ▸ h]
  · rw [add_of_notMem h]
    simp

theorem nodup_add (h : (t.map Prod.fst).Nodup) : ((add t k x).map Prod.fst).Nodup := by
  by_cases hk : k ∈ t.map Prod.fst
  · rwa [keys_add_of_mem hk]
  · rw [add_of_notMem hk, List.map_append]
    exact List.nodup_append'.mpr ⟨h, List.nodup_singleton _, by simpa using hk⟩

theorem value_add (t : List (κ × ν)) (k : κ) (x : ν) (k' : κ) :
    value (add t k x) k' = value t k' + if k' = k then x else 0 := by
  induction t with
  | nil =>
      rw [add, value, value, value, zero_add]
      simp only [eq_comm]
  | cons p t ih =>
      obtain ⟨k₀, v₀⟩ := p
      rw [add]
      by_cases hk : k₀ = k
      · subst hk
        rw [if_pos rfl, value, value]
        by_cases hk' : k₀ = k'
        · subst hk'
          rw [if_pos rfl, if_pos rfl, if_pos rfl]
        · rw [if_neg hk', if_neg hk', if_neg (Ne.symm hk'), add_zero]
      · rw [if_neg hk, value, value]
        by_cases hk' : k₀ = k'
        · subst hk'
          rw [if_pos rfl, if_pos rfl, if_neg hk, add_zero]
        · rw [if_neg hk', if_neg hk', ih]

theorem mem_keys_addAll {k : κ} :
    k ∈ (addAll t xs).map Prod.fst ↔ k ∈ t.map Prod.fst ∨ k ∈ xs.map Prod.fst := by
  induction xs generalizing t with
  | nil => simp [addAll]
  | cons p xs ih =>
      rw [addAll, List.foldl_cons, ← addAll, ih, mem_keys_add, List.map_cons, List.mem_cons,
        or_assoc]

theorem nodup_addAll (h : (t.map Prod.fst).Nodup) : ((addAll t xs).map Prod.fst).Nodup := by
  induction xs generalizing t with
  | nil => exact h
  | cons p xs ih => exact ih (nodup_add h)

theorem value_addAll (t xs : List (κ × ν)) (k : κ) :
    value (addAll t xs) k = value t k + total xs k := by
  induction xs generalizing t with
  | nil => rw [total, List.filter_nil, List.map_nil, List.sum_nil, add_zero, addAll, List.foldl_nil]
  | cons p xs ih =>
      rw [addAll, List.foldl_cons, ← addAll, ih, value_add, total, total, List.filter_cons,
        add_assoc]
      by_cases hk : p.1 = k
      · simp [hk]
      · simp [hk, Ne.symm hk]

/-- With each key once, the total of a key is its value. -/
theorem total_eq_value (h : (xs.map Prod.fst).Nodup) (k : κ) : total xs k = value xs k := by
  induction xs with
  | nil => rfl
  | cons p xs ih =>
      obtain ⟨k', v'⟩ := p
      rw [List.map_cons, List.nodup_cons] at h
      rw [total, List.filter_cons, value]
      by_cases hk : k' = k
      · have hzero := ih h.2
        rw [value_of_notMem (hk ▸ h.1), total] at hzero
        simp [hk, hzero]
      · have hrest := ih h.2
        rw [total] at hrest
        simp [hk, hrest]

end Additions

end SumTable
