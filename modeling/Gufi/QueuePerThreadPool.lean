import Gufi.Custody
import Mathlib.Logic.Relation

/-!
# The thread pool

`QPTPool` gives every thread a waiting queue that others push into and a claimed queue that the
thread works off. The steps are the critical sections of `QueuePerThreadPool.c`: pushing under the
lock of the target queue, one pass of `maybe_steal_work`, leaving `wait_for_work`, `claim_work`,
popping from the claimed queue, the end of a work item, and the decrement after a batch. Which
neighbours `pthread_mutex_trylock` passes over is not determined, so a thread may steal from any
neighbour that has something, or from none.

A queue item carries the number of items enqueued before it, and a thread's finished items are
kept. Nothing is swapped out and no work item fails.
-/

namespace Gufi

open Custody

section SinglyLinkedList

variable {α : Type*}

def sllPushBack (l : List α) (x : α) : List α :=
  l ++ [x]

/-- Both lists after moving the first `n` nodes, for a positive `n`. -/
def sllMoveAppendFirst (dst src : List α) (n : ℕ) : List α × List α :=
  (dst ++ src.take n, src.drop n)

def sllMoveAppend (dst src : List α) : List α × List α :=
  sllMoveAppendFirst dst src src.length

end SinglyLinkedList

structure QueueItem (α : Type*) where
  id : ℕ
  work : α

inductive PoolState
  | initialized
  | running
  | stopping
deriving DecidableEq

/-- Where a thread is in the loop of `worker_function`. -/
inductive Phase
  | looking
  | waiting
  | claiming
  | processing
  | exited
deriving DecidableEq

inductive QueueKind
  | waiting
  | claimed
deriving DecidableEq

/-- The context of one thread. -/
structure Worker (n : ℕ) (α : Type*) where
  claimed : List (QueueItem α)
  waiting : List (QueueItem α)
  nextQueue : Fin n
  stealFrom : Fin n
  phase : Phase
  running : Option (QueueItem α)
  ran : List (QueueItem α)
  workCount : ℕ

structure Pool (n : ℕ) (α : Type*) where
  workers : Fin n → Worker n α
  incomplete : ℕ
  state : PoolState
  enqueued : List (QueueItem α)

/-- The steal ratio and the function that selects the next thread to push to. -/
structure PoolConfig (n : ℕ) (α : Type*) where
  stealNum : ℕ
  stealDenom : ℕ
  next : Fin n → Fin n → α → Fin n

variable {n : ℕ} {α : Type*}

def qptpoolRoundRobin (_id prev : Fin n) (_work : α) : Fin n :=
  if h : prev.val + 1 = n then ⟨0, prev.pos⟩ else ⟨prev.val + 1, by omega⟩

namespace Worker

def queue (w : Worker n α) : QueueKind → List (QueueItem α)
  | .waiting => w.waiting
  | .claimed => w.claimed

def setQueue (w : Worker n α) (l : List (QueueItem α)) : QueueKind → Worker n α
  | .waiting => { w with waiting := l }
  | .claimed => { w with claimed := l }

/-- Everything queued at this thread, and everything it is running or has run. -/
def items (w : Worker n α) : List (QueueItem α) :=
  w.waiting ++ (w.claimed ++ (w.running.toList ++ w.ran))

end Worker

namespace Pool

/-- `QPTPool_init`. -/
def init (n : ℕ) (α : Type*) : Pool n α where
  workers i :=
    { claimed := []
      waiting := []
      nextQueue := i
      stealFrom := i
      phase := .exited
      running := none
      ran := []
      workCount := 0 }
  incomplete := 0
  state := .initialized
  enqueued := []

def modify (s : Pool n α) (t : Fin n) (f : Worker n α → Worker n α) : Pool n α :=
  { s with workers := Function.update s.workers t (f (s.workers t)) }

@[simp] theorem modify_workers_self {s : Pool n α} {t : Fin n} {f : Worker n α → Worker n α} :
    (s.modify t f).workers t = f (s.workers t) := by
  simp [modify]

theorem modify_workers_of_ne {s : Pool n α} {t i : Fin n} {f : Worker n α → Worker n α}
    (h : i ≠ t) : (s.modify t f).workers i = s.workers i :=
  Function.update_of_ne h _ _

theorem modify_workers_apply {s : Pool n α} {t i : Fin n} {f : Worker n α → Worker n α} :
    (s.modify t f).workers i = if i = t then f (s.workers i) else s.workers i := by
  split_ifs with hi
  · rw [hi, modify_workers_self]
  · exact modify_workers_of_ne hi

section Functions

variable (cfg : PoolConfig n α) (t : Fin n) (s : Pool n α)

/-- `QPTPool_start`. -/
def start : Pool n α :=
  { s with
    workers := fun i => { s.workers i with phase := .looking }
    state := .running }

/-- Push a new item into the waiting queue of a thread. -/
def pushWaiting (work : α) : Pool n α :=
  let item : QueueItem α := ⟨s.enqueued.length, work⟩
  { s.modify t fun w => { w with waiting := sllPushBack w.waiting item } with
    incomplete := s.incomplete + 1
    enqueued := s.enqueued ++ [item] }

/-- `QPTPool_enqueue` through the context of thread `t`. -/
def enqueue (work : α) : Pool n α :=
  let next := (s.workers t).nextQueue
  (s.modify t fun w => { w with nextQueue := cfg.next t next work }).pushWaiting next work

/-- `QPTPool_enqueue_here`. -/
def enqueueHere (work : α) : Pool n α :=
  s.pushWaiting t work

/-- The guard of `maybe_steal_work`. -/
def MaySteal : Prop :=
  cfg.stealNum ≠ 0 ∧ 2 ≤ n ∧ (s.workers t).waiting = [] ∧ s.incomplete ≠ 0

/-- The number of items to take, computed in 64 bits. -/
def take (size : ℕ) : ℕ :=
  max (size * cfg.stealNum % 2 ^ 64 / cfg.stealDenom) 1

/-- Take items from the front of a queue of thread `curr`. -/
def steal (curr : Fin n) (q : QueueKind) : Pool n α :=
  let victim := (s.workers curr).queue q
  let moved := sllMoveAppendFirst (s.workers t).waiting victim (take cfg victim.length)
  (s.modify t fun w => { w with waiting := moved.1 }).modify curr fun w => w.setQueue moved.2 q

def setPhase (p : Phase) : Pool n α :=
  s.modify t fun w => { w with phase := p }

/-- The end of `maybe_steal_work`. -/
def stealDone : Pool n α :=
  s.modify t fun w =>
    { w with
      stealFrom := ⟨(w.stealFrom.val + 1) % n, Nat.mod_lt _ w.stealFrom.pos⟩
      phase := .waiting }

def claimWork : Pool n α :=
  s.modify t fun w =>
    let moved := sllMoveAppend w.claimed w.waiting
    { w with claimed := moved.1, waiting := moved.2, phase := .processing }

/-- `sll_pop_front` on the claimed queue, whose first node and remaining nodes are given. -/
def pop (x : QueueItem α) (xs : List (QueueItem α)) : Pool n α :=
  s.modify t fun w => { w with claimed := xs, running := some x }

/-- The work function has returned. -/
def finish (x : QueueItem α) : Pool n α :=
  s.modify t fun w =>
    { w with running := none, ran := w.ran ++ [x], workCount := w.workCount + 1 }

/-- `incomplete` after a batch. -/
def decrement : Pool n α :=
  { s.modify t fun w => { w with phase := .looking, workCount := 0 } with
    incomplete := s.incomplete - (s.workers t).workCount }

end Functions

section Enqueue

variable (cfg : PoolConfig n α) (t i : Fin n) (s : Pool n α) (work : α)

/-- The thread behind the context moves on, and the thread it pointed to gets the item. -/
theorem workers_enqueue : (s.enqueue cfg t work).workers i =
    { s.workers i with
      nextQueue := if i = t then cfg.next t (s.workers t).nextQueue work
        else (s.workers i).nextQueue
      waiting := if i = (s.workers t).nextQueue then
          sllPushBack (s.workers i).waiting ⟨s.enqueued.length, work⟩
        else (s.workers i).waiting } := by
  simp only [enqueue, pushWaiting, modify_workers_apply]
  split_ifs with hi ht ht
  · subst ht
    rfl
  · rfl
  · subst ht
    rfl
  · rfl

end Enqueue

/-- The steps of the pool itself. A thread may steal only when the steal ratio is a ratio. -/
inductive InternalStep (cfg : PoolConfig n α) : Pool n α → Pool n α → Prop
  | start {s} (hs : s.state ≠ .running) (hp : ∀ t, (s.workers t).phase = .exited) :
      InternalStep cfg s s.start
  | look {s t} (hp : (s.workers t).phase = .looking) (hno : ¬s.MaySteal cfg t) :
      InternalStep cfg s (s.setPhase t .waiting)
  | stealNothing {s t} (hp : (s.workers t).phase = .looking) (hmay : s.MaySteal cfg t) :
      InternalStep cfg s (s.stealDone t)
  | steal {s t curr q} (hp : (s.workers t).phase = .looking) (hmay : s.MaySteal cfg t)
      (hdenom : cfg.stealDenom ≠ 0) (hne : curr ≠ t) (hq : (s.workers curr).queue q ≠ []) :
      InternalStep cfg s ((s.steal cfg t curr q).stealDone t)
  | wake {s t} (hp : (s.workers t).phase = .waiting) (hi : s.incomplete ≠ 0)
      (hw : (s.workers t).claimed ≠ [] ∨ (s.workers t).waiting ≠ []) :
      InternalStep cfg s (s.setPhase t .claiming)
  | exit {s t} (hp : (s.workers t).phase = .waiting) (hs : s.state = .stopping)
      (hi : s.incomplete = 0) : InternalStep cfg s (s.setPhase t .exited)
  | claim {s t} (hp : (s.workers t).phase = .claiming) : InternalStep cfg s (s.claimWork t)
  | pop {s t x xs} (hp : (s.workers t).phase = .processing) (hr : (s.workers t).running = none)
      (hc : (s.workers t).claimed = x :: xs) : InternalStep cfg s (s.pop t x xs)
  | decrement {s t} (hp : (s.workers t).phase = .processing) (hr : (s.workers t).running = none)
      (hc : (s.workers t).claimed = []) : InternalStep cfg s (s.decrement t)
  | stop {s} (hs : s.state = .running) : InternalStep cfg s { s with state := .stopping }

/-- The steps of the pool, of callers that enqueue, and of work items that end. -/
inductive Step (cfg : PoolConfig n α) : Pool n α → Pool n α → Prop
  | internal {s s'} (h : InternalStep cfg s s') : Step cfg s s'
  | enqueue {s} (t : Fin n) (work : α) : Step cfg s (s.enqueue cfg t work)
  | enqueueHere {s} (t : Fin n) (work : α) : Step cfg s (s.enqueueHere t work)
  | finish {s t x} (hr : (s.workers t).running = some x) : Step cfg s (s.finish t x)

/-- States of a pool of `n` threads. -/
def Reaches (cfg : PoolConfig n α) : Pool n α → Prop :=
  Relation.ReflTransGen (Step cfg) (init n α)

section Custody

/-- Everything any thread has queued, is running or has run. -/
def inCustody (s : Pool n α) : Multiset (QueueItem α) :=
  held fun t => (s.workers t).items

theorem inCustody_modify_of_receive {s : Pool n α} {t : Fin n} {f : Worker n α → Worker n α}
    {x : List (QueueItem α)} (h : (f (s.workers t)).items.Perm ((s.workers t).items ++ x)) :
    (s.modify t f).inCustody = s.inCustody + x := by
  refine held_eq_add (i := t) (fun k hk => ?_) ?_
  · rw [modify_workers_of_ne hk]
  · rwa [modify_workers_self]

theorem inCustody_modify_of_perm {s : Pool n α} {t : Fin n} {f : Worker n α → Worker n α}
    (h : (f (s.workers t)).items.Perm (s.workers t).items) :
    (s.modify t f).inCustody = s.inCustody := by
  have hadd := inCustody_modify_of_receive (x := []) (by simpa using h)
  simpa using hadd

theorem inCustody_pushWaiting (t : Fin n) (work : α) (s : Pool n α) :
    (s.pushWaiting t work).inCustody =
      s.inCustody + ([⟨s.enqueued.length, work⟩] : List (QueueItem α)) := by
  change (s.modify t fun w => { w with
    waiting := sllPushBack w.waiting ⟨s.enqueued.length, work⟩ }).inCustody = _
  refine inCustody_modify_of_receive ?_
  simp only [Worker.items, sllPushBack, List.append_assoc]
  refine List.Perm.append_left _ ?_
  exact List.perm_append_comm.trans (by simp)

theorem inCustody_enqueue (cfg : PoolConfig n α) (t : Fin n) (work : α) (s : Pool n α) :
    (s.enqueue cfg t work).inCustody =
      s.inCustody + ([⟨s.enqueued.length, work⟩] : List (QueueItem α)) := by
  rw [enqueue, inCustody_pushWaiting, inCustody_modify_of_perm (List.Perm.refl _)]
  rfl

theorem perm_items_setQueue {w : Worker n α} {q : QueueKind} {l x : List (QueueItem α)}
    (h : w.queue q = x ++ l) : w.items.Perm ((w.setQueue l q).items ++ x) := by
  cases q with
  | waiting =>
      change w.waiting = x ++ l at h
      simp only [Worker.items, Worker.setQueue, h, List.append_assoc]
      exact List.perm_append_comm.trans (by simp)
  | claimed =>
      change w.claimed = x ++ l at h
      simp only [Worker.items, Worker.setQueue, h, List.append_assoc]
      refine List.Perm.append_left _ (List.perm_append_comm.trans (by simp))

/-- Stealing moves items between two threads. -/
theorem inCustody_steal (cfg : PoolConfig n α) {t curr : Fin n} (hne : curr ≠ t) (q : QueueKind)
    (s : Pool n α) : (s.steal cfg t curr q).inCustody = s.inCustody := by
  set victim := (s.workers curr).queue q with hvictim
  have htake := List.take_append_drop (take cfg victim.length) victim
  refine held_eq_of_transfer (Ne.symm hne) (x := victim.take (take cfg victim.length)) ?_ ?_ ?_
  · intro k ht hcurr
    simp only [steal, modify_workers_of_ne hcurr, modify_workers_of_ne ht]
  · simp only [steal, modify_workers_of_ne (Ne.symm hne), modify_workers_self, Worker.items,
      sllMoveAppendFirst, List.append_assoc]
    exact List.Perm.append_left _ (List.perm_append_comm.trans (by simp [hvictim]))
  · simp only [steal, modify_workers_self, modify_workers_of_ne hne]
    exact perm_items_setQueue htake.symm

theorem InternalStep.inCustody_eq {cfg : PoolConfig n α} {s s' : Pool n α}
    (h : InternalStep cfg s s') : s'.inCustody = s.inCustody ∧ s'.enqueued = s.enqueued := by
  cases h with
  | start => exact ⟨rfl, rfl⟩
  | look => exact ⟨inCustody_modify_of_perm (List.Perm.refl _), rfl⟩
  | stealNothing => exact ⟨inCustody_modify_of_perm (List.Perm.refl _), rfl⟩
  | steal _ _ _ hne _ =>
      refine ⟨?_, rfl⟩
      rw [stealDone, inCustody_modify_of_perm (List.Perm.refl _)]
      exact inCustody_steal cfg hne _ _
  | wake => exact ⟨inCustody_modify_of_perm (List.Perm.refl _), rfl⟩
  | exit => exact ⟨inCustody_modify_of_perm (List.Perm.refl _), rfl⟩
  | claim =>
      refine ⟨inCustody_modify_of_perm ?_, rfl⟩
      simp only [Worker.items, sllMoveAppend, sllMoveAppendFirst, List.take_length,
        List.drop_length, List.nil_append, List.append_assoc]
      exact List.perm_append_comm_assoc _ _ _
  | pop _ hr hc =>
      refine ⟨inCustody_modify_of_perm ?_, rfl⟩
      simp only [Worker.items, hr, hc, Option.toList_some, Option.toList_none, List.nil_append]
      refine List.Perm.append_left _ ?_
      simp
  | @decrement t _ _ _ =>
      refine ⟨?_, rfl⟩
      change (s.modify t fun w => { w with phase := .looking, workCount := 0 }).inCustody = _
      exact inCustody_modify_of_perm (List.Perm.refl _)
  | stop => exact ⟨rfl, rfl⟩

/-- Every step keeps what was enqueued in custody and adds what it enqueues. -/
theorem Step.inCustody_eq {cfg : PoolConfig n α} {s s' : Pool n α} (h : Step cfg s s')
    (hs : s.inCustody = s.enqueued) : s'.inCustody = s'.enqueued := by
  cases h with
  | internal h =>
      obtain ⟨hc, he⟩ := h.inCustody_eq
      rw [hc, he, hs]
  | enqueue t work =>
      rw [inCustody_enqueue, hs, Multiset.coe_add]
      rfl
  | enqueueHere t work =>
      rw [Pool.enqueueHere, inCustody_pushWaiting, hs, Multiset.coe_add]
      rfl
  | @finish t x hr =>
      have hfin : (s.finish t x).inCustody = s.inCustody := by
        refine inCustody_modify_of_perm ?_
        simp only [Worker.items, hr, Option.toList_some, Option.toList_none, List.nil_append]
        refine List.Perm.append_left _ (List.Perm.append_left _ ?_)
        exact List.perm_append_comm
      rw [hfin, hs]
      rfl

theorem Step.ids_enqueued {cfg : PoolConfig n α} {s s' : Pool n α} (h : Step cfg s s')
    (hs : s.enqueued.map QueueItem.id = List.range s.enqueued.length) :
    s'.enqueued.map QueueItem.id = List.range s'.enqueued.length := by
  have hpush (work : α) :
      (s.enqueued ++ [QueueItem.mk s.enqueued.length work]).map QueueItem.id =
        List.range (s.enqueued ++ [QueueItem.mk s.enqueued.length work]).length := by
    rw [List.map_append, hs, List.length_append, List.length_singleton, List.range_succ]
    rfl
  cases h with
  | internal h =>
      rw [h.inCustody_eq.2]
      exact hs
  | enqueue t work => exact hpush work
  | enqueueHere t work => exact hpush work
  | finish => exact hs

/-- In every state, exactly what was enqueued is in custody, and no two items are the same. -/
theorem Reaches.inCustody_eq {cfg : PoolConfig n α} {s : Pool n α} (h : Reaches cfg s) :
    s.inCustody = s.enqueued ∧ s.enqueued.Nodup := by
  have hinv : s.inCustody = s.enqueued ∧
      s.enqueued.map QueueItem.id = List.range s.enqueued.length := by
    induction h with
    | refl => exact ⟨held_nil, rfl⟩
    | tail _ hstep ih => exact ⟨hstep.inCustody_eq ih.1, hstep.ids_enqueued ih.2⟩
  refine ⟨hinv.1, List.Nodup.of_map QueueItem.id ?_⟩
  rw [hinv.2]
  exact List.nodup_range

end Custody

section Places

/-- Where a thread keeps an item: in one of its queues, or run or being run. -/
inductive Station
  | waiting
  | claimed
  | thread
deriving DecidableEq

def itemsAt (s : Pool n α) (p : Fin n × Station) : List (QueueItem α) :=
  match p.2 with
  | .waiting => (s.workers p.1).waiting
  | .claimed => (s.workers p.1).claimed
  | .thread => (s.workers p.1).running.toList ++ (s.workers p.1).ran

theorem mem_items_iff {s : Pool n α} {t : Fin n} {x : QueueItem α} :
    x ∈ (s.workers t).items ↔ ∃ k, x ∈ s.itemsAt (t, k) := by
  simp only [Worker.items, List.mem_append]
  constructor
  · rintro (h | h | h)
    · exact ⟨.waiting, h⟩
    · exact ⟨.claimed, h⟩
    · exact ⟨.thread, List.mem_append.mpr h⟩
  · rintro ⟨k, h⟩
    cases k with
    | waiting => exact Or.inl h
    | claimed => exact Or.inr (Or.inl h)
    | thread => exact Or.inr (Or.inr (List.mem_append.mp h))

theorem nodup_itemsAt {s : Pool n α} {t : Fin n} (h : (s.workers t).items.Nodup) (k : Station) :
    (s.itemsAt (t, k)).Nodup := by
  simp only [Worker.items, List.nodup_append'] at h
  cases k with
  | waiting => exact h.1
  | claimed => exact h.2.1.1
  | thread => exact List.nodup_append'.mpr h.2.1.2.1

theorem station_eq {s : Pool n α} {t : Fin n} (h : (s.workers t).items.Nodup) {k k' : Station}
    {x : QueueItem α} (hk : x ∈ s.itemsAt (t, k)) (hk' : x ∈ s.itemsAt (t, k')) : k = k' := by
  rw [Worker.items, List.nodup_append', List.nodup_append'] at h
  obtain ⟨-, ⟨-, -, hclaimed⟩, hwaiting⟩ := h
  have hw (hx : x ∈ (s.workers t).waiting) (k : Station) (hk : x ∈ s.itemsAt (t, k)) :
      k = .waiting := by
    cases k with
    | waiting => rfl
    | claimed => exact absurd (List.mem_append_left _ hk) (hwaiting hx)
    | thread => exact absurd (List.mem_append_right _ hk) (hwaiting hx)
  cases k with
  | waiting => exact (hw hk k' hk').symm
  | claimed =>
      cases k' with
      | waiting => exact hw hk' _ hk
      | claimed => rfl
      | thread => exact absurd hk' (hclaimed hk)
  | thread =>
      cases k' with
      | waiting => exact hw hk' _ hk
      | claimed => exact absurd hk (hclaimed hk')
      | thread => rfl

/-- Whatever the threads do and in whatever order, every enqueued item is in one waiting queue, in
one claimed queue, or with the one thread that runs or has run it, and it is there once. -/
theorem reaches_exactly_once {cfg : PoolConfig n α} {s : Pool n α} (h : Reaches cfg s) :
    (∀ x ∈ s.enqueued, ∃! p, x ∈ s.itemsAt p) ∧ (∀ p, (s.itemsAt p).Nodup) ∧
      (∀ p, ∀ x ∈ s.itemsAt p, x ∈ s.enqueued) ∧ s.enqueued.Nodup := by
  obtain ⟨hcustody, hnodup⟩ := Reaches.inCustody_eq h
  have hheld : (held fun t => (s.workers t).items).Nodup := by
    change s.inCustody.Nodup
    rw [hcustody]
    exact Multiset.coe_nodup.mpr hnodup
  refine ⟨?_, ?_, ?_, hnodup⟩
  · intro x hx
    have hmem : x ∈ s.inCustody := by
      rw [hcustody]
      exact hx
    obtain ⟨t, ht, huniq⟩ := existsUnique_holder hheld hmem
    obtain ⟨k, hk⟩ := mem_items_iff.mp ht
    refine ⟨(t, k), hk, ?_⟩
    rintro ⟨t', k'⟩ hk'
    obtain rfl := huniq t' (mem_items_iff.mpr ⟨k', hk'⟩)
    rw [station_eq (nodup_of_nodup_held hheld t') hk' hk]
  · rintro ⟨t, k⟩
    exact nodup_itemsAt (nodup_of_nodup_held hheld t) k
  · rintro ⟨t, k⟩ x hx
    have hmem : x ∈ s.inCustody := mem_held.mpr ⟨t, mem_items_iff.mpr ⟨k, hx⟩⟩
    rw [hcustody] at hmem
    exact hmem

/-- Two threads that steal half of a neighbour's items, pushed to in turn. -/
def halfSteal : PoolConfig 2 Unit where
  stealNum := 1
  stealDenom := 2
  next := qptpoolRoundRobin

/-- The first thread's item after the second thread has stolen it. -/
theorem reaches_exactly_once_of_stolen :
    ∃! p, (⟨0, ()⟩ : QueueItem Unit) ∈
      ((((init 2 Unit).enqueue halfSteal 0 ()).start.steal halfSteal 1 0 .waiting).stealDone
        1).itemsAt p := by
  have hstart : Reaches halfSteal ((init 2 Unit).enqueue halfSteal 0 ()).start := by
    refine (Relation.ReflTransGen.single (Step.enqueue 0 ())).tail (.internal (.start ?_ ?_))
    · decide
    · decide
  have hsteal : Reaches halfSteal
      ((((init 2 Unit).enqueue halfSteal 0 ()).start.steal halfSteal 1 0 .waiting).stealDone 1) :=
    hstart.tail (.internal (.steal (by decide) (by simp [MaySteal, halfSteal, init, start, enqueue,
      pushWaiting, modify, Function.update]) (by decide) (by decide) (by simp [init, start, enqueue,
      pushWaiting, modify, sllPushBack, Worker.queue])))
  exact (reaches_exactly_once hsteal).1 ⟨0, ()⟩ (List.mem_singleton.mpr rfl)

end Places

end Pool

end Gufi
