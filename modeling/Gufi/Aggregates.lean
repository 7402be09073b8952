import Mathlib.Algebra.BigOperators.Group.Multiset.Basic
import Mathlib.Algebra.Order.BigOperators.Group.Multiset
import Mathlib.Data.Multiset.Fold
import Mathlib.Order.MinMax
import Mathlib.Tactic.Tauto

/-!
# Aggregates over selected rows

`agg op init p col` folds a column over the rows that satisfy `p`, as the aggregate of a query
with a filter does. An idempotent operation may meet its initial value once for every part, so the
aggregates of the parts of a table combine to the aggregate of the table.
-/

namespace Aggregates

variable {α γ β : Type*} (op : β → β → β) [hc : Std.Commutative op] [ha : Std.Associative op]
  (init : β) (p : α → Prop) [DecidablePred p] (col : α → β)

def agg (rows : Multiset α) : β :=
  ((rows.filter p).map col).fold op init

@[simp]
theorem agg_zero : agg op init p col 0 = init := rfl

variable {p}

theorem agg_cons_of_pos {a : α} (h : p a) (rows : Multiset α) :
    agg op init p col (a ::ₘ rows) = op (col a) (agg op init p col rows) := by
  rw [agg, Multiset.filter_cons_of_pos _ h, Multiset.map_cons, Multiset.fold_cons_left]
  rfl

theorem agg_cons_of_neg {a : α} (h : ¬p a) (rows : Multiset α) :
    agg op init p col (a ::ₘ rows) = agg op init p col rows := by
  rw [agg, Multiset.filter_cons_of_neg _ h]
  rfl

theorem agg_of_forall_not {rows : Multiset α} (h : ∀ a ∈ rows, ¬p a) :
    agg op init p col rows = init := by
  rw [agg, Multiset.filter_eq_nil.mpr h]
  rfl

theorem agg_map (g : γ → α) (rows : Multiset γ) :
    agg op init p col (rows.map g) = agg op init (fun c => p (g c)) (fun c => col (g c)) rows := by
  unfold agg
  rw [Multiset.filter_map, Multiset.map_map]
  rfl

theorem agg_congr {q : α → Prop} [DecidablePred q] {col' : α → β} {rows : Multiset α}
    (hp : ∀ a ∈ rows, (p a ↔ q a)) (hcol : ∀ a ∈ rows, col a = col' a) :
    agg op init p col rows = agg op init q col' rows := by
  unfold agg
  rw [Multiset.filter_congr hp, Multiset.map_congr rfl]
  exact fun a h => hcol a (Multiset.mem_of_mem_filter h)

variable [hi : Std.IdempotentOp op]

theorem agg_add (M N : Multiset α) :
    agg op init p col (M + N) = op (agg op init p col M) (agg op init p col N) := by
  unfold agg
  have hfold := Multiset.fold_add op init init ((M.filter p).map col) ((N.filter p).map col)
  rw [hi.idempotent] at hfold
  rw [Multiset.filter_add, Multiset.map_add, hfold]

/-- The initial value is already part of the aggregate. -/
theorem op_agg_init (rows : Multiset α) :
    op (agg op init p col rows) init = agg op init p col rows := by
  have h := agg_add op init (p := p) col rows 0
  rwa [add_zero, agg_zero, eq_comm] at h

/-- A row whose value is the aggregate of a part stands for the part. -/
theorem agg_singleton_of_eq {a : α} {rows : Multiset γ} {q : γ → Prop} [DecidablePred q]
    {col' : γ → β} (hp : p a ↔ ∃ c ∈ rows, q c) (hcol : p a → col a = agg op init q col' rows) :
    agg op init p col {a} = agg op init q col' rows := by
  rw [← Multiset.cons_zero]
  by_cases h : p a
  · rw [agg_cons_of_pos op init col h, agg_zero, hcol h, op_agg_init op]
  · rw [agg_cons_of_neg op init col h, agg_zero, agg_of_forall_not]
    exact fun c hc hq => h (hp.mpr ⟨c, hc, hq⟩)

end Aggregates

namespace Aggregates

section LinearOrder

variable {α β : Type*} [LinearOrder β] {init : β} {p : α → Prop} [DecidablePred p]

theorem agg_max_le_iff (col : α → β) {x : β} {rows : Multiset α} :
    agg max init p col rows ≤ x ↔ init ≤ x ∧ ∀ a ∈ rows, p a → col a ≤ x := by
  induction rows using Multiset.induction with
  | empty => simp
  | cons a rows ih =>
      by_cases h : p a
      · rw [agg_cons_of_pos max init col h, max_le_iff, ih]
        simp only [Multiset.forall_mem_cons, h, true_imp_iff]
        tauto
      · rw [agg_cons_of_neg max init col h, ih]
        simp only [Multiset.forall_mem_cons, h, false_imp_iff, true_and]

theorem le_agg_max (col : α → β) {a : α} {rows : Multiset α} (h : a ∈ rows) (hp : p a) :
    col a ≤ agg max init p col rows :=
  ((agg_max_le_iff col).mp le_rfl).2 a h hp

/-- A filter does not change a maximum when the rows it leaves out do not exceed it. -/
theorem agg_max_eq_filter_iff (col : α → β) {rows : Multiset α} :
    agg max init (fun _ => True) col rows = agg max init p col rows ↔
      ∀ a ∈ rows, ¬p a → col a ≤ agg max init p col rows := by
  have hle : agg max init p col rows ≤ agg max init (fun _ => True) col rows :=
    (agg_max_le_iff col).mpr ⟨((agg_max_le_iff col).mp le_rfl).1,
      fun a ha _ => le_agg_max col ha trivial⟩
  rw [le_antisymm_iff, and_iff_left hle, agg_max_le_iff]
  constructor
  · exact fun h a ha _ => h.2 a ha trivial
  · refine fun h => ⟨((agg_max_le_iff col).mp le_rfl).1, fun a ha _ => ?_⟩
    by_cases hp : p a
    · exact le_agg_max col ha hp
    · exact h a ha hp

theorem agg_min_eq_filter_iff (col : α → β) {rows : Multiset α} :
    agg min init (fun _ => True) col rows = agg min init p col rows ↔
      ∀ a ∈ rows, ¬p a → agg min init p col rows ≤ col a :=
  agg_max_eq_filter_iff (β := βᵒᵈ) col

end LinearOrder

section Total

variable {α β : Type*} [AddCommGroup β] [PartialOrder β] [IsOrderedAddMonoid β] (col : α → β)

/-- A total of values that are not negative is positive exactly when one of them is. -/
theorem sum_pos_iff {rows : Multiset α} (h : ∀ a ∈ rows, 0 ≤ col a) :
    0 < (rows.map col).sum ↔ ∃ a ∈ rows, 0 < col a := by
  induction rows using Multiset.induction with
  | empty => simp
  | cons a rows ih =>
      have ha : 0 ≤ col a := h a (Multiset.mem_cons_self a rows)
      have hrows : ∀ b ∈ rows, 0 ≤ col b := fun b hb => h b (Multiset.mem_cons_of_mem hb)
      have hsum : 0 ≤ (rows.map col).sum := by
        apply Multiset.sum_nonneg
        simpa using hrows
      rw [Multiset.map_cons, Multiset.sum_cons]
      constructor
      · intro hpos
        rcases ha.lt_or_eq with hlt | heq
        · exact ⟨a, Multiset.mem_cons_self a rows, hlt⟩
        · rw [← heq, zero_add] at hpos
          obtain ⟨b, hb, hbpos⟩ := (ih hrows).mp hpos
          exact ⟨b, Multiset.mem_cons_of_mem hb, hbpos⟩
      · rintro ⟨b, hb, hbpos⟩
        rcases Multiset.mem_cons.mp hb with rfl | hb
        · exact add_pos_of_pos_of_nonneg hbpos hsum
        · exact add_pos_of_nonneg_of_pos ha ((ih hrows).mpr ⟨b, hb, hbpos⟩)

end Total

end Aggregates
