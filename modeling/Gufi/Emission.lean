import Gufi.Worklist
import Mathlib.Algebra.Order.BigOperators.Group.List
import Mathlib.Algebra.Order.Group.Nat

/-!
# What a walk emits

Where processing an item does not depend on the other items, it emits something and enqueues more
items. Whatever the order of the items, a finished walk has emitted what it would have emitted if
each item were followed by those that it enqueues.
-/

namespace Worklist

open Relation

variable {α β γ σ : Type*} (expand : α → List β × List α)

/-- What items emit, each followed by those that it enqueues. -/
inductive Emits : List α → List β → Prop
  | nil : Emits [] []
  | cons {a : α} {rest : List α} {below out : List β} (hbelow : Emits (expand a).2 below)
      (hrest : Emits rest out) : Emits (a :: rest) ((expand a).1 ++ below ++ out)

variable {expand} {items rest : List α} {a : α} {out out' : List β}

theorem emits_singleton {below : List β} (h : Emits expand (expand a).2 below) :
    Emits expand [a] ((expand a).1 ++ below) := by
  simpa using h.cons .nil

/-- Items emit something when they outweigh the items that they enqueue. -/
theorem exists_emits (m : α → ℕ) (hm : ∀ a, ∀ b ∈ (expand a).2, m b < m a) (items : List α) :
    ∃ out, Emits expand items out := by
  have hsingle (n : ℕ) : ∀ items : List α, (∀ a ∈ items, m a < n) →
      ∃ out, Emits expand items out := by
    induction n with
    | zero =>
        intro items hitems
        cases items with
        | nil => exact ⟨[], .nil⟩
        | cons a items => exact absurd (hitems a (List.mem_cons_self ..)) (Nat.not_lt_zero _)
    | succ n ih =>
        intro items hitems
        induction items with
        | nil => exact ⟨[], .nil⟩
        | cons a items ihitems =>
            rw [List.forall_mem_cons] at hitems
            obtain ⟨below, hbelow⟩ := ih (expand a).2 fun b hb => by
              have hb := hm a b hb
              omega
            obtain ⟨out, hout⟩ := ihitems hitems.2
            exact ⟨_, hbelow.cons hout⟩
  apply hsingle ((items.map m).sum + 1)
  intro a ha
  exact Nat.lt_succ_of_le (List.single_le_sum (fun _ _ => Nat.zero_le _) _ (List.mem_map_of_mem ha))

theorem Emits.append (h : Emits expand items out) (h' : Emits expand rest out') :
    Emits expand (items ++ rest) (out ++ out') := by
  induction h with
  | nil => exact h'
  | cons hbelow _ _ ih =>
      rw [List.append_assoc]
      exact hbelow.cons ih

theorem Emits.split (h : Emits expand (items ++ rest) out) :
    ∃ out₁ out₂, Emits expand items out₁ ∧ Emits expand rest out₂ ∧ out = out₁ ++ out₂ := by
  induction items generalizing out with
  | nil => exact ⟨[], out, .nil, h, rfl⟩
  | cons a items ih =>
      cases h with
      | @cons _ _ below _ hbelow hrest =>
          obtain ⟨out₁, out₂, h₁, h₂, rfl⟩ := ih hrest
          exact ⟨_, out₂, hbelow.cons h₁, h₂, by rw [← List.append_assoc]⟩

theorem Emits.unique (h : Emits expand items out) (h' : Emits expand items out') : out = out' := by
  induction h generalizing out' with
  | nil =>
      cases h'
      rfl
  | cons _ _ ihbelow ihrest =>
      cases h' with
      | cons hbelow hrest => rw [ihbelow hbelow, ihrest hrest]

/-- Items that emit nothing can be left out for those that they enqueue. -/
theorem Emits.enqueued (h : Emits expand items out) (hnone : ∀ a ∈ items, (expand a).1 = []) :
    Emits expand (items.flatMap fun a => (expand a).2) out := by
  induction h with
  | nil => exact .nil
  | cons hbelow _ _ ih =>
      rw [List.forall_mem_cons] at hnone
      rw [List.flatMap_cons, hnone.1, List.nil_append]
      exact hbelow.append (ih hnone.2)

/-- Items that correspond, and enqueue items that correspond, emit the same. -/
theorem Emits.map {α' : Type*} {expand' : α' → List β × List α'} {J : α → Prop} {φ : α → α'}
    (hJ : ∀ a, J a → ∀ b ∈ (expand a).2, J b)
    (hφ : ∀ a, J a → expand' (φ a) = ((expand a).1, (expand a).2.map φ))
    (h : Emits expand items out) (hitems : ∀ a ∈ items, J a) :
    Emits expand' (items.map φ) out := by
  induction h with
  | nil => exact .nil
  | @cons a rest below out _ _ ihbelow ihrest =>
      rw [List.forall_mem_cons] at hitems
      obtain ⟨ha, hrest⟩ := hitems
      have hbelow := ihbelow (hJ a ha)
      have heq := hφ a ha
      have hcons := Emits.cons (by rwa [heq]) (ihrest hrest)
      rwa [heq] at hcons

/-- Items may be reordered. -/
theorem Emits.perm {items' : List α} (hperm : items.Perm items') (h : Emits expand items out) :
    ∃ out', Emits expand items' out' ∧ out.Perm out' := by
  induction hperm generalizing out with
  | nil => exact ⟨out, h, .refl _⟩
  | cons a _ ih =>
      cases h with
      | cons hbelow hrest =>
          obtain ⟨out', h', hout⟩ := ih hrest
          exact ⟨_, hbelow.cons h', hout.append_left _⟩
  | swap a b _ =>
      cases h with
      | cons hb hrest =>
          cases hrest with
          | cons ha hrest =>
              refine ⟨_, ha.cons (hb.cons hrest), ?_⟩
              exact List.perm_append_comm_assoc ..
  | trans _ _ ih₁ ih₂ =>
      obtain ⟨out₁, h₁, hout₁⟩ := ih₁ h
      obtain ⟨out₂, h₂, hout₂⟩ := ih₂ h₁
      exact ⟨out₂, h₂, hout₁.trans hout₂⟩

/-- The items that are processed when these are. -/
def Below (expand : α → List β × List α) (items : List α) (a : α) : Prop :=
  ∃ b ∈ items, ReflTransGen (fun a b => b ∈ (expand a).2) b a

theorem below_of_mem (ha : a ∈ items) : Below expand items a := ⟨a, ha, .refl⟩

theorem Below.enqueued {b : α} (h : Below expand items a) (hb : b ∈ (expand a).2) :
    Below expand items b := by
  obtain ⟨c, hc, hrun⟩ := h
  exact ⟨c, hc, hrun.tail hb⟩

theorem below_cons_iff {b : α} : Below expand (a :: items) b ↔
    b = a ∨ Below expand (expand a).2 b ∨ Below expand items b := by
  constructor
  · rintro ⟨c, hc, hrun⟩
    rcases List.mem_cons.mp hc with rfl | hc
    · rcases ReflTransGen.cases_head hrun with rfl | ⟨d, hd, hrun⟩
      · exact Or.inl rfl
      · exact Or.inr (Or.inl ⟨d, hd, hrun⟩)
    · exact Or.inr (Or.inr ⟨c, hc, hrun⟩)
  · rintro (rfl | ⟨c, hc, hrun⟩ | ⟨c, hc, hrun⟩)
    · exact ⟨b, List.mem_cons_self .., .refl⟩
    · exact ⟨a, List.mem_cons_self .., .head hc hrun⟩
    · exact ⟨c, List.mem_cons_of_mem _ hc, hrun⟩

/-- What is emitted is emitted by one of the items that are processed. -/
theorem Emits.mem_iff (h : Emits expand items out) {x : β} :
    x ∈ out ↔ ∃ a, Below expand items a ∧ x ∈ (expand a).1 := by
  induction h with
  | nil =>
      constructor
      · intro hx
        cases hx
      · rintro ⟨_, ⟨b, hb, -⟩, -⟩
        cases hb
  | cons _ _ ihbelow ihrest =>
      rw [List.mem_append, List.mem_append, ihbelow, ihrest]
      constructor
      · rintro ((hx | ⟨b, hb, hx⟩) | ⟨b, hb, hx⟩)
        · exact ⟨_, below_of_mem (List.mem_cons_self ..), hx⟩
        · exact ⟨b, below_cons_iff.mpr (.inr (.inl hb)), hx⟩
        · exact ⟨b, below_cons_iff.mpr (.inr (.inr hb)), hx⟩
      · rintro ⟨b, hb, hx⟩
        rcases below_cons_iff.mp hb with rfl | hb | hb
        · exact Or.inl (Or.inl hx)
        · exact Or.inl (Or.inr ⟨b, hb, hx⟩)
        · exact Or.inr ⟨b, hb, hx⟩

theorem step_of_eq {process : α → σ → σ × List α} {s s' : σ} {new : List α}
    (h : process a s = (s', new)) (done rest : List α) :
    Step process (done ++ a :: rest, s) (done ++ rest ++ new, s') := by
  have hstep : Step process _ _ := .process done a rest s
  rwa [h] at hstep

/-- Without a choice, the steps are those of a function. -/
theorem reaches_iff_choice {process : α → σ → σ × List α} {x y : List α × σ} :
    Reaches process x y ↔ ReflTransGen (ChoiceStep fun a s r => r = process a s) x y := by
  constructor
  · intro h
    induction h with
    | refl => exact .refl
    | tail _ hstep ih =>
        cases hstep with
        | process done a rest s => exact ih.tail (.process done rest rfl)
  · intro h
    induction h with
    | refl => exact .refl
    | tail _ hstep ih =>
        cases hstep with
        | process done rest hr =>
            subst hr
            exact ih.tail (.process done _ rest _)

/-- In the allowed states, what an allowed item emits is added to a log, in a form of its own that
`view` takes off. What is allowed may depend on the state, and stays allowed. -/
structure Logs (expand : α → List β × List α) (I : σ → Prop) (J : α → σ → Prop)
    (log : σ → List γ) (view : γ → β) (choose : α → σ → σ × List α → Prop) : Prop where
  state : ∀ a s r, I s → J a s → choose a s r → I r.1
  keep : ∀ a b s r, I s → J a s → J b s → choose a s r → J b r.1
  items : ∀ a s r, I s → J a s → choose a s r → ∀ b ∈ r.2, J b r.1
  step : ∀ a s r, I s → J a s → choose a s r → ∃ new, log r.1 = log s ++ new ∧
    new.map view = (expand a).1 ∧ r.2 = (expand a).2

variable {I : σ → Prop} {J : α → σ → Prop} {log : σ → List γ} {view : γ → β}
  {choose : α → σ → σ × List α → Prop}

/-- What is allowed stays allowed. -/
theorem Logs.allowed_step (h : Logs expand I J log view choose) {x y : List α × σ}
    (hstep : ChoiceStep choose x y) (hs : I x.2) (hitems : ∀ a ∈ x.1, J a x.2) :
    I y.2 ∧ ∀ a ∈ y.1, J a y.2 := by
  cases hstep with
  | @process done rest a s r hchoose =>
      dsimp only at hs hitems ⊢
      rw [List.forall_mem_append, List.forall_mem_cons] at hitems
      obtain ⟨hdone, ha, hrest⟩ := hitems
      refine ⟨h.state a s r hs ha hchoose, ?_⟩
      rw [List.forall_mem_append, List.forall_mem_append]
      exact ⟨⟨fun b hb => h.keep a b s r hs ha (hdone b hb) hchoose,
        fun b hb => h.keep a b s r hs ha (hrest b hb) hchoose⟩, h.items a s r hs ha hchoose⟩

theorem Logs.allowed (h : Logs expand I J log view choose) {x y : List α × σ}
    (hrun : ReflTransGen (ChoiceStep choose) x y) (hs : I x.2) (hitems : ∀ a ∈ x.1, J a x.2) :
    I y.2 ∧ ∀ a ∈ y.1, J a y.2 := by
  induction hrun with
  | refl => exact ⟨hs, hitems⟩
  | tail _ hstep ih => exact h.allowed_step hstep ih.1 ih.2

/-- A finished walk has emitted what its items emit, in some order. -/
theorem Logs.emits (h : Logs expand I J log view choose) {s s' : σ} (hs : I s)
    (hallowed : ∀ a ∈ items, J a s)
    (hrun : ReflTransGen (ChoiceStep choose) (items, s) ([], s')) :
    ∃ out, Emits expand items out ∧
      ((log s').map view).Perm ((log s).map view ++ out) := by
  suffices hgen : ∀ x y : List α × σ, ReflTransGen (ChoiceStep choose) x y → y.1 = [] → I x.2 →
      (∀ a ∈ x.1, J a x.2) → ∃ out, Emits expand x.1 out ∧
        ((log y.2).map view).Perm ((log x.2).map view ++ out) from
    hgen _ _ hrun rfl hs hallowed
  intro x y hxy hnil
  induction hxy using ReflTransGen.head_induction_on with
  | refl => exact fun _ _ => ⟨[], hnil ▸ .nil, by rw [List.append_nil]⟩
  | head hstep _ ih =>
      intro hx hxitems
      obtain ⟨hy, hyitems⟩ := h.allowed_step hstep hx hxitems
      obtain ⟨out, hout, hperm⟩ := ih hy hyitems
      cases hstep with
      | @process done rest a s r hchoose =>
          have ha : J a s := hxitems a (List.mem_append_right _ (List.mem_cons_self ..))
          obtain ⟨new, hlog, hnew, hitems⟩ := h.step a s r hx ha hchoose
          obtain ⟨outQ, below, hqueue, hbelow, rfl⟩ := hout.split
          obtain ⟨outD, outR, hdone, hrest, rfl⟩ := hqueue.split
          rw [hitems] at hbelow
          refine ⟨_, hdone.append (hbelow.cons hrest), hperm.trans ?_⟩
          rw [hlog, List.map_append, hnew, List.append_assoc]
          refine List.Perm.append_left _ ?_
          calc (expand a).1 ++ (outD ++ outR ++ below)
              = (expand a).1 ++ (outD ++ (outR ++ below)) := by rw [List.append_assoc outD]
            _ |>.Perm ((expand a).1 ++ (outD ++ (below ++ outR))) :=
              (List.perm_append_comm.append_left _).append_left _
            _ |>.Perm ((expand a).1 ++ ((below ++ outR) ++ outD)) :=
              List.perm_append_comm.append_left _
            _ = ((expand a).1 ++ below ++ outR) ++ outD := by simp only [List.append_assoc]
            _ |>.Perm (outD ++ ((expand a).1 ++ below ++ outR)) := List.perm_append_comm

/-- What items emit can be emitted by a walk, if no item blocks. -/
theorem Logs.exists_finished (h : Logs expand I J log view choose)
    (hchoose : ∀ a s, I s → J a s → ∃ r, choose a s r) (hemits : Emits expand items out) {s : σ}
    (hs : I s) (hallowed : ∀ a ∈ items, J a s) :
    ∃ s', ReflTransGen (ChoiceStep choose) (items, s) ([], s') := by
  suffices hgen : ∀ rest s, I s → (∀ a ∈ rest ++ items, J a s) →
      ∃ s', ReflTransGen (ChoiceStep choose) (rest ++ items, s) (rest, s') by
    exact hgen [] s hs hallowed
  clear hs hallowed s
  induction hemits with
  | nil => exact fun rest s _ _ => ⟨s, by rw [List.append_nil]⟩
  | @cons a items below out _ _ ihbelow ihrest =>
      intro rest s hs hallowed
      obtain ⟨r, hr⟩ := hchoose a s hs (hallowed a (by simp))
      obtain ⟨_, -, -, hitems⟩ := h.step a s r hs (hallowed a (by simp)) hr
      have hfirst := ChoiceStep.process rest items hr
      obtain ⟨hs₁, hallowed₁⟩ := h.allowed_step hfirst hs hallowed
      rw [hitems] at hfirst hallowed₁
      obtain ⟨s₁, hrun₁⟩ := ihbelow (rest ++ items) r.1 hs₁ hallowed₁
      obtain ⟨hs₂, hallowed₂⟩ := h.allowed hrun₁ hs₁ hallowed₁
      obtain ⟨s₂, hrun₂⟩ := ihrest rest s₁ hs₂ hallowed₂
      exact ⟨s₂, (ReflTransGen.head hfirst hrun₁).trans hrun₂⟩

end Worklist
