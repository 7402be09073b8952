import Mathlib.Data.List.Induction
import Mathlib.Data.List.Perm.Basic
import Mathlib.Logic.Function.Basic
import Mathlib.Logic.Relation

/-!
# Critical sections

Threads make calls. A call changes the state that its thread has for itself, and goes through
critical sections of one mutex, in which it writes to a common output. The threads take the mutex in
any order, and between two writes of one thread the others may do anything but write.
`Finished.out_eq` says what this leaves: the output is made of whole sections, and those of each
thread are in the order of its calls.
-/

namespace CriticalSections

open Relation

variable {ι κ σ α β γ : Type*} [DecidableEq ι]

section OfThread

/-- What one thread does. -/
def ofThread (t : ι) (l : List (ι × α)) : List α :=
  (l.filter fun x => x.1 = t).map Prod.snd

variable {t t' : ι} {l l' : List (ι × α)} {x : α}

@[simp]
theorem ofThread_nil (t : ι) : ofThread t ([] : List (ι × α)) = [] := rfl

@[simp]
theorem ofThread_append (t : ι) (l l' : List (ι × α)) :
    ofThread t (l ++ l') = ofThread t l ++ ofThread t l' := by
  rw [ofThread, List.filter_append, List.map_append]
  rfl

@[simp]
theorem ofThread_cons_self (t : ι) (x : α) (l : List (ι × α)) :
    ofThread t ((t, x) :: l) = x :: ofThread t l := by
  rw [ofThread, List.filter_cons_of_pos (by simp)]
  rfl

theorem ofThread_cons_of_ne (h : t' ≠ t) (x : α) (l : List (ι × α)) :
    ofThread t ((t', x) :: l) = ofThread t l := by
  rw [ofThread, List.filter_cons_of_neg (by simpa using h)]
  rfl

theorem mem_ofThread : x ∈ ofThread t l ↔ (t, x) ∈ l := by
  simp [ofThread]

theorem ofThread_map_mk (t : ι) (l : List α) : ofThread t (l.map (Prod.mk t)) = l := by
  induction l with
  | nil => rfl
  | cons x l ih => rw [List.map_cons, ofThread_cons_self, ih]

theorem ofThread_map_mk_of_ne (h : t' ≠ t) (l : List α) :
    ofThread t (l.map (Prod.mk t')) = [] := by
  induction l with
  | nil => rfl
  | cons x l ih => rw [List.map_cons, ofThread_cons_of_ne h, ih]

theorem ofThread_flatMap (t : ι) (f : α → List β) (l : List (ι × α)) :
    ofThread t (l.flatMap fun x => (f x.2).map (Prod.mk x.1)) = (ofThread t l).flatMap f := by
  induction l with
  | nil => rfl
  | cons x l ih =>
      obtain ⟨t', x⟩ := x
      rw [List.flatMap_cons, ofThread_append, ih]
      by_cases h : t' = t
      · subst h
        rw [ofThread_cons_self, List.flatMap_cons, ofThread_map_mk]
      · rw [ofThread_cons_of_ne h, ofThread_map_mk_of_ne h, List.nil_append]

theorem ofThread_flatMap_threads {threads : List ι} (h : threads.Nodup) (f : ι → List α) (t : ι) :
    ofThread t (threads.flatMap fun t => (f t).map (Prod.mk t)) = if t ∈ threads then f t else [] := by
  induction threads with
  | nil => rfl
  | cons t' threads ih =>
      rw [List.nodup_cons] at h
      rw [List.flatMap_cons, ofThread_append, ih h.2]
      by_cases htt : t' = t
      · subst htt
        rw [ofThread_map_mk, if_neg h.1, List.append_nil, if_pos (List.mem_cons_self ..)]
      · simp [ofThread_map_mk_of_ne htt, Ne.symm htt]

/-- What the threads do is the same up to the order if it is the same for each thread. -/
theorem perm_of_ofThread (h : ∀ t, ofThread t l = ofThread t l') : l.Perm l' := by
  classical
  apply List.perm_iff_count.mpr
  rintro ⟨t, x⟩
  have hcount (l : List (ι × α)) : l.count (t, x) = (ofThread t l).count x := by
    induction l with
    | nil => rfl
    | cons y l ih =>
        obtain ⟨t', y⟩ := y
        by_cases ht : t' = t
        · subst ht
          rw [ofThread_cons_self, List.count_cons, List.count_cons, ih]
          simp
        · rw [ofThread_cons_of_ne ht, List.count_cons, ih]
          simp [ht]
  rw [hcount, hcount, h]

/-- A relation of what each thread does with a list of its own carries over to an order of the
lists. -/
theorem exists_order {R : α → β → Prop} {b : ι → List β}
    (h : ∀ t, List.Forall₂ R (ofThread t l) (b t)) :
    ∃ order : List (ι × β), List.Forall₂ (fun x y => x.1 = y.1 ∧ R x.2 y.2) l order ∧
      ∀ t, ofThread t order = b t := by
  induction l generalizing b with
  | nil => exact ⟨[], .nil, fun t => (List.forall₂_nil_left_iff.mp (h t)).symm⟩
  | cons x l ih =>
      obtain ⟨t, x⟩ := x
      have ht := h t
      rw [ofThread_cons_self] at ht
      obtain ⟨y, ys, hxy, hys, hb⟩ := List.forall₂_cons_left_iff.mp ht
      obtain ⟨order, horder, hof⟩ := @ih (Function.update b t ys) (by
        intro t'
        by_cases htt : t' = t
        · subst htt
          rwa [Function.update_self]
        · have ht' := h t'
          rw [ofThread_cons_of_ne (Ne.symm htt)] at ht'
          rwa [Function.update_of_ne htt])
      refine ⟨(t, y) :: order, .cons ⟨rfl, hxy⟩ horder, fun t' => ?_⟩
      by_cases htt : t' = t
      · subst htt
        rw [ofThread_cons_self, hof, Function.update_self, hb]
      · rw [ofThread_cons_of_ne (Ne.symm htt), hof, Function.update_of_ne htt]

end OfThread

section System

/-- `pending` has the critical sections of a thread's call that it has not entered, each with its
writes, and `holder` the thread that has the mutex with the writes that are left to it. -/
structure State (ι κ σ β : Type*) where
  own : ι → σ
  pending : ι → List (List (List β))
  holder : Option (ι × List (List β))
  out : List β
  calls : List (ι × κ)

variable (call : κ → σ → σ × List (List (List β)))

inductive Step (s : State ι κ σ β) : State ι κ σ β → Prop
  | call {t : ι} (k : κ) (hidle : s.pending t = []) (hout : ∀ w, s.holder ≠ some (t, w)) :
      Step s { s with
        own := Function.update s.own t (call k (s.own t)).1
        pending := Function.update s.pending t (call k (s.own t)).2
        calls := s.calls ++ [(t, k)] }
  | lock {t : ι} {writes : List (List β)} {rest : List (List (List β))} (hfree : s.holder = none)
      (hpending : s.pending t = writes :: rest) :
      Step s { s with
        pending := Function.update s.pending t rest
        holder := some (t, writes) }
  | write {t : ι} {text : List β} {rest : List (List β)}
      (hholder : s.holder = some (t, text :: rest)) :
      Step s { s with holder := some (t, rest), out := s.out ++ text }
  | unlock {t : ι} (hholder : s.holder = some (t, [])) : Step s { s with holder := none }

def State.init (own : ι → σ) : State ι κ σ β := ⟨own, fun _ => [], none, [], []⟩

/-- All calls have returned. -/
structure Finished (own : ι → σ) (s : State ι κ σ β) : Prop where
  run : ReflTransGen (Step call) (State.init own) s
  pending : ∀ t, s.pending t = []
  holder : s.holder = none

/-- The state that calls one after the other leave, and the critical sections they go through. -/
def runCalls (own : σ) (ks : List κ) : σ × List (List (List β)) :=
  ks.foldl (fun r k => ((call k r.1).1, r.2 ++ (call k r.1).2)) (own, [])

variable {call} {own : ι → σ} {s s' : State ι κ σ β}

theorem runCalls_concat (own : σ) (ks : List κ) (k : κ) : runCalls call own (ks ++ [k]) =
    ((call k (runCalls call own ks).1).1,
      (runCalls call own ks).2 ++ (call k (runCalls call own ks).1).2) := by
  rw [runCalls, List.foldl_append]
  rfl

/-- The writes that are left to the thread that has the mutex. -/
def State.left (s : State ι κ σ β) : List β := (s.holder.map fun h => h.2.flatten).getD []

/-- The threads have entered the critical sections of their calls except for those pending, and
have written what was to be written in them except for what is left to the last one. -/
structure Entered (call : κ → σ → σ × List (List (List β))) (own : ι → σ) (s : State ι κ σ β)
    (entered : List (ι × List (List β))) : Prop where
  own_eq : ∀ t, s.own t = (runCalls call (own t) (ofThread t s.calls)).1
  sections : ∀ t, ofThread t entered ++ s.pending t =
    (runCalls call (own t) (ofThread t s.calls)).2
  out : s.out ++ s.left = entered.flatMap fun x => x.2.flatten

theorem Step.entered {entered : List (ι × List (List β))} (h : Step call s s')
    (he : Entered call own s entered) : ∃ entered', Entered call own s' entered' := by
  cases h with
  | @call t k hidle _ =>
      have hcalls (t' : ι) : runCalls call (own t') (ofThread t' (s.calls ++ [(t, k)])) =
          (Function.update s.own t (call k (s.own t)).1 t',
            ofThread t' entered ++ Function.update s.pending t (call k (s.own t)).2 t') := by
        by_cases htt : t' = t
        · subst htt
          have hsections := he.sections t'
          rw [hidle, List.append_nil] at hsections
          rw [ofThread_append, ofThread_cons_self, ofThread_nil, runCalls_concat,
            Function.update_self, Function.update_self, ← he.own_eq, hsections]
        · rw [ofThread_append, ofThread_cons_of_ne (Ne.symm htt), ofThread_nil, List.append_nil,
            Function.update_of_ne htt, Function.update_of_ne htt, he.own_eq, he.sections]
      exact ⟨entered, fun t' => by rw [hcalls], fun t' => by rw [hcalls], he.out⟩
  | @lock t writes rest hfree hpending =>
      refine ⟨entered ++ [(t, writes)], he.own_eq, fun t' => ?_, ?_⟩
      · rw [← he.sections]
        change _ ++ Function.update s.pending t rest t' = _
        by_cases htt : t' = t
        · subst htt
          rw [ofThread_append, ofThread_cons_self, ofThread_nil, Function.update_self, hpending,
            List.append_assoc, List.singleton_append]
        · rw [ofThread_append, ofThread_cons_of_ne (Ne.symm htt), ofThread_nil, List.append_nil,
            Function.update_of_ne htt]
      · have hout := he.out
        rw [State.left, hfree, Option.map_none, Option.getD_none, List.append_nil] at hout
        rw [List.flatMap_append, ← hout]
        simp [State.left]
  | @write t text rest hholder =>
      refine ⟨entered, he.own_eq, he.sections, ?_⟩
      rw [← he.out]
      simp [State.left, hholder]
  | @unlock t hholder =>
      refine ⟨entered, he.own_eq, he.sections, ?_⟩
      rw [← he.out]
      simp [State.left, hholder]

theorem exists_entered (h : ReflTransGen (Step call) (State.init own) s) :
    ∃ entered, Entered call own s entered := by
  induction h with
  | refl => exact ⟨[], fun t => rfl, fun t => rfl, rfl⟩
  | tail _ hstep ih =>
      obtain ⟨entered, he⟩ := ih
      exact hstep.entered he

/-- When all calls have returned, the output is made of whole critical sections, those of each
thread in the order of its calls. -/
theorem Finished.out_eq (h : Finished call own s) :
    ∃ entered : List (ι × List (List β)), s.out = (entered.flatMap fun x => x.2.flatten) ∧
      (∀ t, ofThread t entered = (runCalls call (own t) (ofThread t s.calls)).2) ∧
      ∀ t, s.own t = (runCalls call (own t) (ofThread t s.calls)).1 := by
  obtain ⟨entered, he⟩ := exists_entered h.run
  refine ⟨entered, ?_, fun t => ?_, he.own_eq⟩
  · rw [← he.out, State.left, h.holder, Option.map_none, Option.getD_none, List.append_nil]
  · rw [← he.sections, h.pending, List.append_nil]

/-- A thread that waits for nobody goes through its critical sections. -/
theorem exists_drained {t : ι} (hfree : s.holder = none) (hother : ∀ t', t' ≠ t → s.pending t' = []) :
    ∃ s', ReflTransGen (Step call) s s' ∧ s'.holder = none ∧ (∀ t', s'.pending t' = []) ∧
      s'.calls = s.calls := by
  have hwrites (writes : List (List β)) (s : State ι κ σ β) (hholder : s.holder = some (t, writes)) :
      ∃ out, ReflTransGen (Step call) s { s with holder := none, out := out } := by
    induction writes generalizing s with
    | nil => exact ⟨s.out, .single (.unlock hholder)⟩
    | cons text rest ih =>
        obtain ⟨out, hout⟩ := ih { s with holder := some (t, rest), out := s.out ++ text } rfl
        exact ⟨out, .head (.write hholder) hout⟩
  generalize hsections : s.pending t = sections
  induction sections generalizing s with
  | nil =>
      refine ⟨s, .refl, hfree, fun t' => ?_, rfl⟩
      by_cases htt : t' = t
      · rw [htt, hsections]
      · exact hother t' htt
  | cons writes rest ih =>
      have hlock : Step call s _ := .lock hfree hsections
      obtain ⟨out, hout⟩ := hwrites writes
        { s with pending := Function.update s.pending t rest, holder := some (t, writes) } rfl
      obtain ⟨s', hrun, hdone⟩ := @ih { s with
          pending := Function.update s.pending t rest, holder := none, out := out } rfl
        (fun t' htt => (Function.update_of_ne htt ..).trans (hother t' htt))
        (Function.update_self ..)
      exact ⟨s', (ReflTransGen.head hlock hout).trans hrun, hdone⟩

/-- The threads can make any calls in any order. -/
theorem exists_finished (own : ι → σ) (calls : List (ι × κ)) :
    ∃ s, Finished call own s ∧ s.calls = calls := by
  induction calls using List.reverseRecOn with
  | nil => exact ⟨.init own, ⟨.refl, fun _ => rfl, rfl⟩, rfl⟩
  | append_singleton calls c ih =>
      obtain ⟨s, hs, hcalls⟩ := ih
      obtain ⟨t, k⟩ := c
      have hcall : Step call s _ := .call k (hs.pending t) fun w h => by
        rw [hs.holder] at h
        cases h
      obtain ⟨s', hrun, hholder, hpending, hcalls'⟩ := @exists_drained _ _ _ _ _ call
        { s with
          own := Function.update s.own t (call k (s.own t)).1
          pending := Function.update s.pending t (call k (s.own t)).2
          calls := s.calls ++ [(t, k)] } t hs.holder
        fun t' htt => (Function.update_of_ne htt ..).trans (hs.pending t')
      exact ⟨s', ⟨(hs.run.tail hcall).trans hrun, hpending, hholder⟩, by rw [hcalls', hcalls]⟩

end System

end CriticalSections
