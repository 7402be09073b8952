import Mathlib.Data.Multiset.AddSub
import Mathlib.Logic.Relation
import Mathlib.Logic.Function.Basic

/-!
# Tasks that write to streams

A fixed number of threads takes tasks in any order. A task is a list of actions: it enqueues other
tasks and writes chunks of lines, each in one piece, to the stream of its thread. In a complete run
the tasks that were run are those that can be spawned from the first one. A stream of one thread
is the output of its tasks one after the other; of a shared stream only the order of the lines of
one task is known.
-/

namespace TaskStreams

open Relation

section Programs

variable {Task Line : Type*}

inductive Action (Task Line : Type*)
  | enqueue (t : Task)
  | write (lines : List Line)

/-- The tasks that a list of actions enqueues. -/
def enqueued : List (Action Task Line) → List Task
  | [] => []
  | .enqueue t :: as => t :: enqueued as
  | .write _ :: as => enqueued as

/-- The lines that a list of actions writes. -/
def written : List (Action Task Line) → List Line
  | [] => []
  | .enqueue _ :: as => written as
  | .write lines :: as => lines ++ written as

variable {as bs : List (Action Task Line)} {t : Task} {lines : List Line}

@[simp] theorem enqueued_nil : enqueued ([] : List (Action Task Line)) = [] := rfl

@[simp] theorem written_nil : written ([] : List (Action Task Line)) = [] := rfl

@[simp] theorem enqueued_enqueue : enqueued (.enqueue t :: as) = t :: enqueued as := rfl

@[simp] theorem enqueued_write : enqueued (.write lines :: as) = enqueued as := rfl

@[simp] theorem written_enqueue : written (.enqueue t :: as) = written as := rfl

@[simp] theorem written_write : written (.write lines :: as) = lines ++ written as := rfl

@[simp] theorem enqueued_append : enqueued (as ++ bs) = enqueued as ++ enqueued bs := by
  induction as with
  | nil => rfl
  | cons a as ih => cases a <;> simp [ih]

@[simp] theorem written_append : written (as ++ bs) = written as ++ written bs := by
  induction as with
  | nil => rfl
  | cons a as ih => cases a <;> simp [ih]

@[simp] theorem enqueued_map_write :
    enqueued (lines.map fun l => (.write [l] : Action Task Line)) = [] := by
  induction lines with
  | nil => rfl
  | cons l lines ih => simp [ih]

@[simp] theorem written_map_write :
    written (lines.map fun l => (.write [l] : Action Task Line)) = lines := by
  induction lines with
  | nil => rfl
  | cons l lines ih => simp [ih]

/-- The tasks that come of a first one. -/
inductive Spawned (program : Task → List (Action Task Line)) (root : Task) : Task → Prop
  | root : Spawned program root root
  | spawn {t t' : Task} (h : Spawned program root t) (ht' : t' ∈ enqueued (program t)) :
      Spawned program root t'

theorem Spawned.trans {program : Task → List (Action Task Line)} {a b c : Task}
    (hab : Spawned program a b) (hbc : Spawned program b c) : Spawned program a c := by
  induction hbc with
  | root => exact hab
  | spawn _ ht' ih => exact ih.spawn ht'

theorem spawned_iff {program : Task → List (Action Task Line)} {a c : Task} :
    Spawned program a c ↔ c = a ∨ ∃ b ∈ enqueued (program a), Spawned program b c := by
  constructor
  · intro h
    induction h with
    | root => exact .inl rfl
    | @spawn t t' _ ht' ih =>
        rcases ih with rfl | ⟨b, hb, hbt⟩
        · exact .inr ⟨t', ht', .root⟩
        · exact .inr ⟨b, hb, hbt.spawn ht'⟩
  · rintro (rfl | ⟨b, hb, hbc⟩)
    · exact .root
    · exact (Spawned.root.spawn hb).trans hbc

theorem forall_spawned_iff {program : Task → List (Action Task Line)} {a : Task} {P : Task → Prop} :
    (∀ c, Spawned program a c → P c) ↔
      P a ∧ ∀ b ∈ enqueued (program a), ∀ c, Spawned program b c → P c := by
  simp only [spawned_iff (a := a)]
  constructor
  · intro h
    exact ⟨h a (.inl rfl), fun b hb c hc => h c (.inr ⟨b, hb, hc⟩)⟩
  · rintro ⟨ha, hspawned⟩ c (rfl | ⟨b, hb, hc⟩)
    · exact ha
    · exact hspawned b hb c hc

end Programs

section Runs

variable {n : ℕ} {Stream Task Line : Type*}

/-- The tasks that wait, what each thread still has to do, and what was written. -/
structure State (n : ℕ) (Stream Task Line : Type*) where
  pending : Multiset Task
  threads : Fin n → List (Action Task Line)
  streams : Stream → List Line

def State.init (n : ℕ) (Stream Line : Type*) (root : Task) : State n Stream Task Line :=
  ⟨{root}, fun _ => [], fun _ => []⟩

/-- Nothing waits and no thread has anything left to do. -/
def State.Complete (s : State n Stream Task Line) : Prop :=
  s.pending = 0 ∧ ∀ i, s.threads i = []

variable [DecidableEq Stream] (program : Task → List (Action Task Line)) (sink : Fin n → Stream)

inductive Step : State n Stream Task Line → State n Stream Task Line → Prop
  | start {s : State n Stream Task Line} {i : Fin n} {t : Task} {rest : Multiset Task}
      (hidle : s.threads i = []) (hpending : s.pending = t ::ₘ rest) :
      Step s { s with pending := rest, threads := Function.update s.threads i (program t) }
  | enqueue {s : State n Stream Task Line} {i : Fin n} {t : Task} {as : List (Action Task Line)}
      (hthread : s.threads i = .enqueue t :: as) :
      Step s { s with pending := t ::ₘ s.pending, threads := Function.update s.threads i as }
  | write {s : State n Stream Task Line} {i : Fin n} {lines : List Line}
      {as : List (Action Task Line)} (hthread : s.threads i = .write lines :: as) :
      Step s
        { s with
          threads := Function.update s.threads i as
          streams := Function.update s.streams (sink i) (s.streams (sink i) ++ lines) }

/-- States of a run that began with one task. -/
def Reaches (root : Task) : State n Stream Task Line → Prop :=
  ReflTransGen (Step program sink) (.init n Stream Line root)

end Runs

section Accounts

variable {n : ℕ} {Stream Task Line : Type*} (program : Task → List (Action Task Line))
  (sink : Fin n → Stream)

/-- A task that waits, is about to be enqueued, or was given to a thread. -/
def State.Knows (s : State n Stream Task Line) (ran : Fin n → List Task) (t : Task) : Prop :=
  t ∈ s.pending ∨ ∃ i, t ∈ enqueued (s.threads i) ∨ t ∈ ran i

/-- The tasks that were given to each thread account for the state. -/
structure Accounts (root : Task) (s : State n Stream Task Line) (ran : Fin n → List Task) :
    Prop where
  first : s.Knows ran root
  closed : ∀ i, ∀ t ∈ ran i, ∀ t' ∈ enqueued (program t), s.Knows ran t'
  spawned : ∀ t, s.Knows ran t → Spawned program root t
  lines : ∀ i, ∀ t ∈ ran i, ∀ l ∈ written (program t),
    l ∈ s.streams (sink i) ∨ l ∈ written (s.threads i)
  own : sink.Injective → ∀ i,
    s.streams (sink i) ++ written (s.threads i) = (ran i).flatMap fun t => written (program t)

variable {program sink} {root : Task} {s s' : State n Stream Task Line} {ran : Fin n → List Task}

theorem accounts_init : Accounts program sink root (.init n Stream Line root) fun _ => [] where
  first := .inl (Multiset.mem_singleton_self root)
  closed i t ht := nomatch ht
  spawned t ht := by
    rcases ht with ht | ⟨i, ht | ht⟩
    · rw [Multiset.mem_singleton.mp ht]
      exact .root
    · exact nomatch ht
    · exact nomatch ht
  lines i t ht := nomatch ht
  own _ i := rfl

/-- A step that keeps what is known of each place keeps it of all. -/
theorem State.Knows.mono {ran' : Fin n → List Task} {t : Task} (h : s.Knows ran t)
    (hpending : ∀ t ∈ s.pending, s'.Knows ran' t)
    (hthreads : ∀ i, ∀ t ∈ enqueued (s.threads i), s'.Knows ran' t)
    (hran : ∀ i, ∀ t ∈ ran i, s'.Knows ran' t) : s'.Knows ran' t := by
  rcases h with h | ⟨i, h | h⟩
  · exact hpending t h
  · exact hthreads i t h
  · exact hran i t h

/-- In a complete run the tasks that were run are those that come of the first one. -/
theorem Accounts.ran_iff_spawned (h : Accounts program sink root s ran) (hdone : s.Complete)
    (t : Task) : (∃ i, t ∈ ran i) ↔ Spawned program root t := by
  have hknows (u : Task) (hu : s.Knows ran u) : ∃ i, u ∈ ran i := by
    rcases hu with hu | ⟨i, hu | hu⟩
    · simp [hdone.1] at hu
    · simp [hdone.2 i] at hu
    · exact ⟨i, hu⟩
  constructor
  · rintro ⟨i, ht⟩
    exact h.spawned t (.inr ⟨i, .inr ht⟩)
  · intro ht
    induction ht with
    | root => exact hknows root h.first
    | spawn _ ht' ih =>
        obtain ⟨i, hi⟩ := ih
        exact hknows _ (h.closed i _ hi _ ht')

/-- The stream of a thread of its own is the output of the tasks that it ran. -/
theorem Accounts.stream_eq (h : Accounts program sink root s ran) (hdone : s.Complete)
    (hsink : sink.Injective) (i : Fin n) :
    s.streams (sink i) = (ran i).flatMap fun t => written (program t) := by
  have hown := h.own hsink i
  rwa [hdone.2 i, written_nil, List.append_nil] at hown

theorem Accounts.start (h : Accounts program sink root s ran) {i : Fin n} {t : Task}
    {rest : Multiset Task} (hidle : s.threads i = []) (hpending : s.pending = t ::ₘ rest) :
    Accounts program sink root
      { s with pending := rest, threads := Function.update s.threads i (program t) }
      (Function.update ran i (ran i ++ [t])) := by
  set s' : State n Stream Task Line :=
    { s with pending := rest, threads := Function.update s.threads i (program t) }
  set ran' := Function.update ran i (ran i ++ [t]) with hran'
  have hself : ran' i = ran i ++ [t] := Function.update_self ..
  have hother (j : Fin n) (hj : j ≠ i) : ran' j = ran j := Function.update_of_ne hj ..
  have hthread : s'.threads i = program t := Function.update_self ..
  have hthreads (j : Fin n) (hj : j ≠ i) : s'.threads j = s.threads j := Function.update_of_ne hj ..
  have hknows (u : Task) (hu : s.Knows ran u) : s'.Knows ran' u := by
    refine hu.mono ?_ ?_ ?_
    · intro u hu
      rw [hpending] at hu
      rcases Multiset.mem_cons.mp hu with rfl | hu
      · exact .inr ⟨i, .inr (by simp [hself])⟩
      · exact .inl hu
    · intro j u hu
      by_cases hj : j = i
      · subst hj
        simp [hidle] at hu
      · exact .inr ⟨j, .inl (by rwa [hthreads j hj])⟩
    · intro j u hu
      by_cases hj : j = i
      · subst hj
        exact .inr ⟨j, .inr (by simp [hself, hu])⟩
      · exact .inr ⟨j, .inr (by rwa [hother j hj])⟩
  have ht : Spawned program root t := h.spawned t (.inl (by simp [hpending]))
  refine ⟨hknows root h.first, ?_, ?_, ?_, ?_⟩
  · intro j u hu v hv
    by_cases hj : j = i
    · subst hj
      rw [hself, List.mem_append, List.mem_singleton] at hu
      rcases hu with hu | rfl
      · exact hknows v (h.closed j u hu v hv)
      · exact .inr ⟨j, .inl (by rwa [hthread])⟩
    · rw [hother j hj] at hu
      exact hknows v (h.closed j u hu v hv)
  · rintro u (hu | ⟨j, hu | hu⟩)
    · exact h.spawned u (.inl (by rw [hpending]; exact Multiset.mem_cons_of_mem hu))
    · by_cases hj : j = i
      · subst hj
        rw [hthread] at hu
        exact ht.spawn hu
      · rw [hthreads j hj] at hu
        exact h.spawned u (.inr ⟨j, .inl hu⟩)
    · by_cases hj : j = i
      · subst hj
        rw [hself, List.mem_append, List.mem_singleton] at hu
        rcases hu with hu | rfl
        · exact h.spawned u (.inr ⟨j, .inr hu⟩)
        · exact ht
      · rw [hother j hj] at hu
        exact h.spawned u (.inr ⟨j, .inr hu⟩)
  · intro j u hu l hl
    by_cases hj : j = i
    · subst hj
      rw [hself, List.mem_append, List.mem_singleton] at hu
      rcases hu with hu | rfl
      · have hold := h.lines j u hu l hl
        rw [hidle] at hold
        exact .inl (hold.resolve_right (by simp))
      · exact .inr (by rwa [hthread])
    · rw [hother j hj] at hu
      rw [hthreads j hj]
      exact h.lines j u hu l hl
  · intro hsink j
    have hold := h.own hsink j
    by_cases hj : j = i
    · subst hj
      rw [hidle, written_nil, List.append_nil] at hold
      rw [hthread, hself, List.flatMap_append, ← hold, List.flatMap_singleton]
    · rw [hthreads j hj, hother j hj]
      exact hold

/-- The enqueueing of a task moves it from a thread to those that wait. -/
theorem Accounts.enqueue (h : Accounts program sink root s ran) {i : Fin n} {t : Task}
    {as : List (Action Task Line)} (hthread : s.threads i = .enqueue t :: as) :
    Accounts program sink root
      { s with pending := t ::ₘ s.pending, threads := Function.update s.threads i as } ran := by
  set s' : State n Stream Task Line :=
    { s with pending := t ::ₘ s.pending, threads := Function.update s.threads i as }
  have hself : s'.threads i = as := Function.update_self ..
  have hother (j : Fin n) (hj : j ≠ i) : s'.threads j = s.threads j := Function.update_of_ne hj ..
  have hwritten (j : Fin n) : written (s'.threads j) = written (s.threads j) := by
    by_cases hj : j = i
    · subst hj
      rw [hself, hthread, written_enqueue]
    · rw [hother j hj]
  have hknows (u : Task) : s'.Knows ran u ↔ s.Knows ran u := by
    constructor
    · rintro (hu | ⟨j, hu | hu⟩)
      · rcases Multiset.mem_cons.mp hu with rfl | hu
        · exact .inr ⟨i, .inl (by simp [hthread])⟩
        · exact .inl hu
      · by_cases hj : j = i
        · subst hj
          exact .inr ⟨j, .inl (by rw [hthread]; rw [hself] at hu; exact .tail _ hu)⟩
        · exact .inr ⟨j, .inl (by rwa [hother j hj] at hu)⟩
      · exact .inr ⟨j, .inr hu⟩
    · intro hu
      refine hu.mono (fun u hu => .inl (Multiset.mem_cons_of_mem hu)) ?_
        fun j u hu => .inr ⟨j, .inr hu⟩
      intro j u hu
      by_cases hj : j = i
      · subst hj
        rw [hthread, enqueued_enqueue] at hu
        rcases List.mem_cons.mp hu with rfl | hu
        · exact .inl (Multiset.mem_cons_self ..)
        · exact .inr ⟨j, .inl (by rwa [hself])⟩
      · exact .inr ⟨j, .inl (by rwa [hother j hj])⟩
  exact ⟨(hknows root).mpr h.first, fun j u hu v hv => (hknows v).mpr (h.closed j u hu v hv),
    fun u hu => h.spawned u ((hknows u).mp hu),
    fun j u hu l hl => by rw [hwritten j]; exact h.lines j u hu l hl,
    fun hsink j => by rw [hwritten j]; exact h.own hsink j⟩

end Accounts

section Steps

variable {n : ℕ} {Stream Task Line : Type*} [DecidableEq Stream]
  {program : Task → List (Action Task Line)} {sink : Fin n → Stream} {root : Task}
  {s s' : State n Stream Task Line} {ran : Fin n → List Task}

/-- The writing of a chunk moves its lines from a thread to a stream. -/
theorem Accounts.write (h : Accounts program sink root s ran) {i : Fin n} {lines : List Line}
    {as : List (Action Task Line)} (hthread : s.threads i = .write lines :: as) :
    Accounts program sink root
      { s with
        threads := Function.update s.threads i as
        streams := Function.update s.streams (sink i) (s.streams (sink i) ++ lines) } ran := by
  set s' : State n Stream Task Line :=
    { s with
      threads := Function.update s.threads i as
      streams := Function.update s.streams (sink i) (s.streams (sink i) ++ lines) }
  have hself : s'.threads i = as := Function.update_self ..
  have hother (j : Fin n) (hj : j ≠ i) : s'.threads j = s.threads j := Function.update_of_ne hj ..
  have hstream : s'.streams (sink i) = s.streams (sink i) ++ lines := Function.update_self ..
  have henqueued (j : Fin n) : enqueued (s'.threads j) = enqueued (s.threads j) := by
    by_cases hj : j = i
    · subst hj
      rw [hself, hthread, enqueued_write]
    · rw [hother j hj]
  have hknows (u : Task) : s'.Knows ran u ↔ s.Knows ran u := by
    simp only [State.Knows, henqueued]
    rfl
  refine ⟨(hknows root).mpr h.first, fun j u hu v hv => (hknows v).mpr (h.closed j u hu v hv),
    fun u hu => h.spawned u ((hknows u).mp hu), ?_, ?_⟩
  · intro j u hu l hl
    by_cases hj : j = i
    · subst hj
      rw [hself, hstream]
      have hold := h.lines j u hu l hl
      rw [hthread, written_write, List.mem_append, ← or_assoc] at hold
      rwa [List.mem_append]
    · rw [hother j hj]
      refine (h.lines j u hu l hl).imp_left fun hold => ?_
      by_cases hsame : sink j = sink i
      · rw [hsame, hstream, List.mem_append]
        exact .inl (hsame ▸ hold)
      · rwa [show s'.streams (sink j) = s.streams (sink j) from Function.update_of_ne hsame ..]
  · intro hsink j
    have hold := h.own hsink j
    by_cases hj : j = i
    · subst hj
      rw [hself, hstream, ← hold, hthread, written_write, List.append_assoc]
    · rw [hother j hj, show s'.streams (sink j) = s.streams (sink j) from
        Function.update_of_ne (hsink.ne hj) ..]
      exact hold

theorem Accounts.step (h : Accounts program sink root s ran) (hstep : Step program sink s s') :
    ∃ ran', Accounts program sink root s' ran' := by
  cases hstep with
  | start hidle hpending => exact ⟨_, h.start hidle hpending⟩
  | enqueue hthread => exact ⟨_, h.enqueue hthread⟩
  | write hthread => exact ⟨_, h.write hthread⟩

theorem Reaches.accounts (h : Reaches program sink root s) :
    ∃ ran, Accounts program sink root s ran := by
  induction h with
  | refl => exact ⟨_, accounts_init⟩
  | tail _ hstep ih =>
      obtain ⟨ran, hran⟩ := ih
      exact hran.step hstep

/-- Every line of a task that comes of the first one is in some stream in the end. -/
theorem Reaches.mem_streams (h : Reaches program sink root s) (hdone : s.Complete) {t : Task}
    (ht : Spawned program root t) {l : Line} (hl : l ∈ written (program t)) :
    ∃ i, l ∈ s.streams (sink i) := by
  obtain ⟨ran, hran⟩ := h.accounts
  obtain ⟨i, hi⟩ := (hran.ran_iff_spawned hdone t).mpr ht
  have hline := hran.lines i t hi l hl
  rw [hdone.2 i] at hline
  exact ⟨i, hline.resolve_right (by simp)⟩

theorem reaches_init (program : Task → List (Action Task Line)) (sink : Fin n → Stream)
    (root : Task) : Reaches program sink root ⟨root ::ₘ 0, fun _ => [], fun _ => []⟩ :=
  ReflTransGen.refl

/-- A thread can go on to the end of what it has to do. -/
theorem Reaches.finish {as : List (Action Task Line)} {pending : Multiset Task}
    {streams : Stream → List Line} (i : Fin n)
    (h : Reaches program sink root ⟨pending, Function.update (fun _ => []) i as, streams⟩) :
    Reaches program sink root ⟨enqueued as + pending, fun _ => [],
      Function.update streams (sink i) (streams (sink i) ++ written as)⟩ := by
  induction as generalizing pending streams with
  | nil =>
      have hthreads : Function.update (fun _ => []) i [] =
          (fun _ => [] : Fin n → List (Action Task Line)) := Function.update_eq_self i _
      have hstreams : Function.update streams (sink i) (streams (sink i) ++ written
          ([] : List (Action Task Line))) = streams := by simp
      rw [hthreads] at h
      rw [hstreams]
      simpa using h
  | cons a as ih =>
      have hthread : Function.update (fun _ => []) i (a :: as) i = a :: as :=
        Function.update_self ..
      cases a with
      | enqueue t =>
          have hstep := h.tail (.enqueue hthread)
          rw [Function.update_idem] at hstep
          have hdone := ih hstep
          rw [Multiset.add_cons] at hdone
          rwa [enqueued_enqueue, ← Multiset.cons_coe, Multiset.cons_add]
      | write lines =>
          have hstep := h.tail (.write hthread)
          rw [Function.update_idem] at hstep
          have hdone := ih hstep
          rw [Function.update_self, Function.update_idem, List.append_assoc] at hdone
          exact hdone

/-- With all threads idle, a thread can run a task that waits. -/
theorem Reaches.run {t : Task} {rest : Multiset Task} {streams : Stream → List Line} (i : Fin n)
    (h : Reaches program sink root ⟨t ::ₘ rest, fun _ => [], streams⟩) :
    Reaches program sink root ⟨enqueued (program t) + rest, fun _ => [],
      Function.update streams (sink i) (streams (sink i) ++ written (program t))⟩ :=
  Reaches.finish i (h.tail (.start (i := i) rfl rfl))

end Steps

section Chunks

variable {n : ℕ} {Stream Task Line : Type*} [DecidableEq Stream]
  {program : Task → List (Action Task Line)} {sink : Fin n → Stream} {root : Task}
  {s s' : State n Stream Task Line}

/-- What holds of the programs and of what is left of them holds of every thread. -/
theorem Reaches.thread_of_tail (Q : List (Action Task Line) → Prop) (hnil : Q [])
    (hprogram : ∀ t, Spawned program root t → Q (program t))
    (htail : ∀ a as, Q (a :: as) → Q as) (h : Reaches program sink root s) (i : Fin n) :
    Q (s.threads i) := by
  induction h with
  | refl => exact hnil
  | tail hreach hstep ih =>
      have hupdate {threads : Fin n → List (Action Task Line)} {j : Fin n}
          {as : List (Action Task Line)} (hold : Q (threads i)) (hnew : Q as) :
          Q (Function.update threads j as i) := by
        by_cases hj : i = j
        · subst hj
          rwa [Function.update_self]
        · rwa [Function.update_of_ne hj]
      cases hstep with
      | start _ hpending =>
          obtain ⟨ran, hran⟩ := Reaches.accounts hreach
          exact hupdate ih (hprogram _ (hran.spawned _ (.inl (by simp [hpending]))))
      | @enqueue j _ _ hthread | @write j _ _ hthread =>
          by_cases hj : i = j
          · subst hj
            exact hupdate ih (htail _ _ (hthread ▸ ih))
          · simpa only [Function.update_of_ne hj] using ih

/-- What holds of every chunk and of two texts together if of each holds of the streams. -/
theorem Reaches.stream_of_chunks (P : List Line → Prop) (hnil : P [])
    (happend : ∀ a b, P a → P b → P (a ++ b))
    (hchunk : ∀ t, Spawned program root t → ∀ lines, .write lines ∈ program t → P lines)
    (h : Reaches program sink root s) (j : Stream) : P (s.streams j) := by
  have hthread (s : State n Stream Task Line) (hs : Reaches program sink root s) (i : Fin n) :
      ∀ lines, .write lines ∈ s.threads i → P lines :=
    hs.thread_of_tail (fun as => ∀ lines, .write lines ∈ as → P lines) (by simp) hchunk
      (fun _ _ has lines hlines => has lines (.tail _ hlines)) i
  induction h with
  | refl => exact hnil
  | tail hreach hstep ih =>
      cases hstep with
      | start | enqueue => exact ih
      | @write i lines _ hwrite =>
          have hlines : P lines := hthread _ hreach i lines (by simp [hwrite])
          by_cases hj : j = sink i
          · subst hj
            simpa only [Function.update_self] using happend _ _ ih hlines
          · simpa only [Function.update_of_ne hj] using ih

/-- Every line that has an answer has it after it. -/
def Answered (answer : Line → Option Line) (lines : List Line) : Prop :=
  ∀ before l after l', lines = before ++ l :: after → answer l = some l' → l' ∈ after

theorem Answered.of_append {answer : Line → Option Line} {a b : List Line}
    (h : Answered answer (a ++ b)) : Answered answer b := by
  intro before l after l' hb hl
  exact h (a ++ before) l after l' (by rw [hb, List.append_assoc]) hl

theorem answered_nil {answer : Line → Option Line} : Answered answer [] := by
  intro before l after l' hnil
  simp at hnil

/-- Lines whose answers come later can stand in front. -/
theorem Answered.append_left {answer : Line → Option Line} {a b : List Line}
    (hb : Answered answer b) (ha : ∀ x ∈ a, ∀ l', answer x = some l' → l' ∈ b) :
    Answered answer (a ++ b) := by
  intro before l after l' hlines hl
  rcases List.append_eq_append_iff.mp hlines with ⟨x, -, hx⟩ | ⟨x, hx, hafter⟩
  · exact hb x l after l' hx hl
  · cases x with
    | nil => exact hb [] l after l' hafter.symm hl
    | cons y x =>
        obtain ⟨rfl, rfl⟩ := List.cons.inj hafter
        exact List.mem_append_right _ (ha l (by simp [hx]) l' hl)

/-- An answer that is not yet in the stream is with a thread that has still to write it. -/
theorem Reaches.answered_or_written {answer : Line → Option Line}
    (hprogram : ∀ t, Spawned program root t → Answered answer (written (program t)))
    (h : Reaches program sink root s) (j : Stream) : ∀ before l after l',
      s.streams j = before ++ l :: after → answer l = some l' →
        l' ∈ after ∨ ∃ i, sink i = j ∧ l' ∈ written (s.threads i) := by
  have hthread (s : State n Stream Task Line) (hs : Reaches program sink root s) (i : Fin n) :
      Answered answer (written (s.threads i)) := by
    refine hs.thread_of_tail (fun as => Answered answer (written as)) ?_ hprogram ?_ i
    · exact answered_nil
    · intro a as has
      cases a with
      | enqueue t => exact has
      | write lines => exact has.of_append
  induction h with
  | refl =>
      intro before l after l' hnil
      simp [State.init] at hnil
  | @tail s s' hreach hstep ih =>
      intro before l after l' hstream hl
      cases hstep with
      | @start i t rest hidle hpending =>
          refine (ih before l after l' hstream hl).imp_right ?_
          rintro ⟨k, hk, hl'⟩
          have hki : k ≠ i := by
            rintro rfl
            simp [hidle] at hl'
          exact ⟨k, hk, by simpa only [Function.update_of_ne hki] using hl'⟩
      | @enqueue i t as hi =>
          refine (ih before l after l' hstream hl).imp_right ?_
          rintro ⟨k, hk, hl'⟩
          refine ⟨k, hk, ?_⟩
          by_cases hki : k = i
          · subst hki
            rw [hi, written_enqueue] at hl'
            simpa only [Function.update_self] using hl'
          · simpa only [Function.update_of_ne hki] using hl'
      | @write i lines as hi =>
          have hrest (k : Fin n) (hk : l' ∈ written (s.threads k)) : l' ∈ lines ∨
              l' ∈ written (Function.update s.threads i as k) := by
            by_cases hki : k = i
            · subst hki
              rw [hi, written_write, List.mem_append] at hk
              simpa only [Function.update_self] using hk
            · exact .inr (by simpa only [Function.update_of_ne hki] using hk)
          by_cases hj : j = sink i
          · subst hj
            simp only [Function.update_self] at hstream
            have hown : Answered answer (lines ++ written as) := by
              simpa only [hi, written_write] using hthread s hreach i
            -- the line is in the chunk that is written, or it was in the stream before
            have hnew (x : List Line) (hx : lines = x ++ l :: after) : l' ∈ after ∨
                ∃ k, sink k = sink i ∧ l' ∈ written (Function.update s.threads i as k) := by
              have hafter := hown x l (after ++ written as) l' (by simp [hx]) hl
              refine (List.mem_append.mp hafter).imp_right fun has => ⟨i, rfl, ?_⟩
              rwa [Function.update_self]
            rcases List.append_eq_append_iff.mp hstream with ⟨x, -, hx⟩ | ⟨x, hx, hafter⟩
            · exact hnew x hx
            · cases x with
              | nil => exact hnew [] hafter.symm
              | cons y x =>
                  obtain ⟨rfl, rfl⟩ := List.cons.inj hafter
                  rcases ih before l x l' hx hl with hl' | ⟨k, hk, hl'⟩
                  · exact .inl (List.mem_append_left _ hl')
                  · rcases hrest k hl' with hl' | hl'
                    · exact .inl (List.mem_append_right _ hl')
                    · exact .inr ⟨k, hk, hl'⟩
          · simp only [Function.update_of_ne hj] at hstream
            rcases ih before l after l' hstream hl with hl' | ⟨k, hk, hl'⟩
            · exact .inl hl'
            · have hki : k ≠ i := by
                rintro rfl
                exact hj hk.symm
              exact .inr ⟨k, hk, by simpa only [Function.update_of_ne hki] using hl'⟩

/-- In a complete run each stream has the answers that the programs have. -/
theorem Reaches.answered {answer : Line → Option Line}
    (hprogram : ∀ t, Spawned program root t → Answered answer (written (program t)))
    (h : Reaches program sink root s) (hdone : s.Complete) (j : Stream) :
    Answered answer (s.streams j) := by
  intro before l after l' hstream hl
  refine (h.answered_or_written hprogram j before l after l' hstream hl).resolve_right ?_
  rintro ⟨i, -, hl'⟩
  simp [hdone.2 i] at hl'

end Chunks

end TaskStreams
