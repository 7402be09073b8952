import Mathlib.Logic.Relation
import Mathlib.Data.List.Basic
import Mathlib.Algebra.BigOperators.Group.List.Basic
import Mathlib.Tactic.Abel

/-!
# Worklists

A walk keeps a queue of items. Processing an item changes the state and enqueues more items, and
any queued item may be next. `Reaches.keeps` carries an invariant of the state and of the items
through a walk. `Reaches.covers` is the rule for walks that must get somewhere: when every item
that promises a goal either attains it or hands the promise to an item it enqueues, and no item
undoes a goal, an empty queue leaves every promised goal attained. `Reaches.account` is the rule
for walks that add something up: what the state accounts for and what the queued items are worth
stays the same.
-/

namespace Worklist

open Relation

variable {α σ τ : Type*} (process : α → σ → σ × List α)

/-- Any queued item is processed. -/
inductive Step : List α × σ → List α × σ → Prop
  | process (done : List α) (a : α) (rest : List α) (s : σ) :
      Step (done ++ a :: rest, s) (done ++ rest ++ (process a s).2, (process a s).1)

def Reaches : List α × σ → List α × σ → Prop :=
  ReflTransGen (Step process)

/-- Processing an allowed item in an allowed state leaves both allowed. -/
structure Keeps (I : σ → Prop) (J : α → Prop) : Prop where
  state : ∀ a s, J a → I s → I (process a s).1
  items : ∀ a s, J a → I s → ∀ b ∈ (process a s).2, J b

variable {process} {I : σ → Prop} {J : α → Prop}

theorem Step.keeps (h : Keeps process I J) {x y : List α × σ} (hstep : Step process x y)
    (hx : (∀ a ∈ x.1, J a) ∧ I x.2) : (∀ a ∈ y.1, J a) ∧ I y.2 := by
  cases hstep with
  | process done a rest s =>
      obtain ⟨hitems, hs⟩ := hx
      have ha : J a := hitems a (List.mem_append_right done (List.mem_cons_self ..))
      constructor
      · intro b hb
        rcases List.mem_append.mp hb with hb | hb
        · apply hitems
          rcases List.mem_append.mp hb with hb | hb
          · exact List.mem_append_left _ hb
          · exact List.mem_append_right _ (List.mem_cons_of_mem a hb)
        · exact h.items a s ha hs b hb
      · exact h.state a s ha hs

theorem Reaches.keeps (h : Keeps process I J) {x y : List α × σ} (hrun : Reaches process x y)
    (hx : (∀ a ∈ x.1, J a) ∧ I x.2) : (∀ a ∈ y.1, J a) ∧ I y.2 := by
  induction hrun with
  | refl => exact hx
  | tail _ hstep ih => exact hstep.keeps h ih

/-- A goal is attained or some queued item promises it. -/
def Covered (P : τ → σ → Prop) (W : α → τ → Prop) (x : List α × σ) (g : τ) : Prop :=
  P g x.2 ∨ ∃ a ∈ x.1, W a g

variable {P : τ → σ → Prop} {W : α → τ → Prop}

theorem Step.covers {x y : List α × σ} (hstep : Step process x y)
    (hx : (∀ a ∈ x.1, J a) ∧ I x.2)
    (hkeep : ∀ a s g, J a → I s → P g s → P g (process a s).1)
    (hwork : ∀ a s g, J a → I s → W a g →
      P g (process a s).1 ∨ ∃ b ∈ (process a s).2, W b g) {g : τ}
    (hg : Covered P W x g) : Covered P W y g := by
  cases hstep with
  | process done a rest s =>
      obtain ⟨hitems, hs⟩ := hx
      have ha : J a := hitems a (List.mem_append_right done (List.mem_cons_self ..))
      rcases hg with hg | ⟨b, hb, hbg⟩
      · exact Or.inl (hkeep a s g ha hs hg)
      · rcases List.mem_append.mp hb with hb | hb
        · exact Or.inr ⟨b, List.mem_append_left _ (List.mem_append_left _ hb), hbg⟩
        · rcases List.mem_cons.mp hb with rfl | hb
          · rcases hwork b s g ha hs hbg with hg | ⟨c, hc, hcg⟩
            · exact Or.inl hg
            · exact Or.inr ⟨c, List.mem_append_right _ hc, hcg⟩
          · exact Or.inr ⟨b, List.mem_append_left _ (List.mem_append_right _ hb), hbg⟩

/-- A finished walk has attained every goal that the first items promised. -/
theorem Reaches.covers (h : Keeps process I J) {x : List α × σ} {s : σ}
    (hrun : Reaches process x ([], s)) (hx : (∀ a ∈ x.1, J a) ∧ I x.2)
    (hkeep : ∀ a s g, J a → I s → P g s → P g (process a s).1)
    (hwork : ∀ a s g, J a → I s → W a g →
      P g (process a s).1 ∨ ∃ b ∈ (process a s).2, W b g) {g : τ}
    (hg : Covered P W x g) : P g s := by
  have hcovered : ∀ y, Reaches process x y → Covered P W y g := by
    intro y hy
    induction hy with
    | refl => exact hg
    | tail hxy hstep ih => exact hstep.covers (Reaches.keeps h hxy hx) hkeep hwork ih
  rcases hcovered _ hrun with hP | ⟨a, ha, -⟩
  · exact hP
  · cases ha

section Account

variable {M : Type*} [AddCommMonoid M] {μ : α → M} {R : M → σ → Prop}

theorem Step.account (hwork : ∀ a s m, J a → I s → R m s →
      ∃ m', R m' (process a s).1 ∧ m' + ((process a s).2.map μ).sum = m + μ a)
    {x y : List α × σ} (hstep : Step process x y) (hx : (∀ a ∈ x.1, J a) ∧ I x.2) {m : M}
    (hm : R m x.2) : ∃ m', R m' y.2 ∧ m' + (y.1.map μ).sum = m + (x.1.map μ).sum := by
  cases hstep with
  | process done a rest s =>
      obtain ⟨hitems, hs⟩ := hx
      have ha : J a := hitems a (List.mem_append_right done (List.mem_cons_self ..))
      obtain ⟨m', hm', heq⟩ := hwork a s m ha hs hm
      refine ⟨m', hm', ?_⟩
      simp only [List.map_append, List.map_cons, List.sum_append, List.sum_cons]
      calc m' + ((done.map μ).sum + (rest.map μ).sum + ((process a s).2.map μ).sum)
          = m' + ((process a s).2.map μ).sum + ((done.map μ).sum + (rest.map μ).sum) := by
            abel
        _ = m + μ a + ((done.map μ).sum + (rest.map μ).sum) := by rw [heq]
        _ = m + ((done.map μ).sum + (μ a + (rest.map μ).sum)) := by abel

/-- What the state accounts for and what the items are worth stays the same together. -/
theorem Reaches.account (h : Keeps process I J) (hwork : ∀ a s m, J a → I s → R m s →
      ∃ m', R m' (process a s).1 ∧ m' + ((process a s).2.map μ).sum = m + μ a)
    {x y : List α × σ} (hrun : Reaches process x y) (hx : (∀ a ∈ x.1, J a) ∧ I x.2) {m : M}
    (hm : R m x.2) : ∃ m', R m' y.2 ∧ m' + (y.1.map μ).sum = m + (x.1.map μ).sum := by
  induction hrun with
  | refl => exact ⟨m, hm, rfl⟩
  | tail hxy hstep ih =>
      obtain ⟨m₁, hm₁, heq₁⟩ := ih
      obtain ⟨m₂, hm₂, heq₂⟩ := hstep.account hwork (Reaches.keeps h hxy hx) hm₁
      exact ⟨m₂, hm₂, heq₂.trans heq₁⟩

end Account

section Choices

/-! Processing an item may leave a choice. -/

variable {M : Type*} [AddCommMonoid M] (choose : α → σ → σ × List α → Prop)

inductive ChoiceStep : List α × σ → List α × σ → Prop
  | process (done rest : List α) {a : α} {s : σ} {r : σ × List α} (h : choose a s r) :
      ChoiceStep (done ++ a :: rest, s) (done ++ rest ++ r.2, r.1)

variable {choose} {μ : α → M} {ν : σ → M}

/-- What the state and the items are worth stays the same, and so does what is allowed. -/
theorem account_of_choices (hwork : ∀ a s r, J a → choose a s r →
      (∀ b ∈ r.2, J b) ∧ ν r.1 + (r.2.map μ).sum = ν s + μ a)
    {x y : List α × σ} (hrun : ReflTransGen (ChoiceStep choose) x y) (hx : ∀ a ∈ x.1, J a) :
    (∀ a ∈ y.1, J a) ∧ ν y.2 + (y.1.map μ).sum = ν x.2 + (x.1.map μ).sum := by
  induction hrun with
  | refl => exact ⟨hx, rfl⟩
  | tail _ hstep ih =>
      obtain ⟨hitems, hsum⟩ := ih
      cases hstep with
      | @process done rest a s r h =>
          rw [List.forall_mem_append, List.forall_mem_cons] at hitems
          obtain ⟨hdone, ha, hrest⟩ := hitems
          obtain ⟨hnew, heq⟩ := hwork a s r ha h
          refine ⟨?_, ?_⟩
          · rw [List.forall_mem_append, List.forall_mem_append]
            exact ⟨⟨hdone, hrest⟩, hnew⟩
          · rw [← hsum]
            simp only [List.map_append, List.map_cons, List.sum_append, List.sum_cons]
            calc ν r.1 + ((done.map μ).sum + (rest.map μ).sum + (r.2.map μ).sum)
                = ν r.1 + (r.2.map μ).sum + ((done.map μ).sum + (rest.map μ).sum) := by abel
              _ = ν s + μ a + ((done.map μ).sum + (rest.map μ).sum) := by rw [heq]
              _ = ν s + ((done.map μ).sum + (μ a + (rest.map μ).sum)) := by abel

end Choices

/-- A walk can be finished when an item outweighs the items it enqueues. -/
theorem exists_reaches_nil (m : α → ℕ)
    (hm : ∀ a s, ((process a s).2.map m).sum < m a) (x : List α × σ) :
    ∃ s, Reaches process x ([], s) := by
  obtain ⟨q, s⟩ := x
  induction hn : (q.map m).sum using Nat.strongRecOn generalizing q s with
  | ind n ih =>
      cases q with
      | nil => exact ⟨s, ReflTransGen.refl⟩
      | cons a rest =>
          have hstep : Step process (a :: rest, s) _ := Step.process [] a rest s
          have hlt : ((rest ++ (process a s).2).map m).sum < n := by
            have ha := hm a s
            rw [List.map_cons, List.sum_cons] at hn
            rw [List.map_append, List.sum_append]
            omega
          obtain ⟨s', hs'⟩ := ih _ hlt _ (process a s).1 rfl
          exact ⟨s', ReflTransGen.head hstep hs'⟩

/-- The walk that takes the first item each time. -/
def drain (process : α → σ → σ × List α) : ℕ → List α × σ → List α × σ
  | 0, x => x
  | _ + 1, ([], s) => ([], s)
  | n + 1, (a :: rest, s) => drain process n (rest ++ (process a s).2, (process a s).1)

theorem reaches_drain (process : α → σ → σ × List α) (n : ℕ) (x : List α × σ) :
    Reaches process x (drain process n x) := by
  induction n generalizing x with
  | zero => exact ReflTransGen.refl
  | succ n ih =>
      obtain ⟨q, s⟩ := x
      cases q with
      | nil => exact ReflTransGen.refl
      | cons a rest => exact ReflTransGen.head (Step.process [] a rest s) (ih _)

end Worklist
