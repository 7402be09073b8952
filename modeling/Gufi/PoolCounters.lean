import Gufi.PoolThreads

/-!
# The counters of the pool

`incomplete` is the number of items in the waiting and claimed queues together with the items that
each thread has popped since its last decrement. `swapped` is the number of unread records together
with the records that the drains in progress have read so far.
-/

namespace Gufi

open Custody

namespace ThreadData

/-- The items popped and not finished. -/
def inHand : ThreadPhase → ℕ
  | .running _ | .preparing | .draining _ => 1
  | _ => 0

/-- The items that a thread has popped since its last decrement. -/
def popped (w : ThreadData) : ℕ :=
  w.workCount + inHand w.phase

/-- What a thread contributes to `incomplete`. -/
def load (w : ThreadData) : ℕ :=
  w.waiting.length + w.claimed.length + w.popped

/-- The records that are in a thread's swap files. -/
def unread (w : ThreadData) : ℕ :=
  w.write.length + w.read.length

/-- The records that a drain has read so far. -/
def drainCount : ThreadPhase → ℕ
  | .draining c => c
  | _ => 0

/-- What a thread contributes to `swapped`. -/
def records (w : ThreadData) : ℕ :=
  w.unread + drainCount w.phase

section Signal

variable (w : ThreadData)

theorem signal_eq : ∃ p, w.signal = { w with phase := p } ∧ inHand p = inHand w.phase ∧
    drainCount p = drainCount w.phase := by
  unfold signal
  split
  · next b hb => exact ⟨.blocked true, rfl, by rw [hb]; rfl, by rw [hb]; rfl⟩
  · exact ⟨w.phase, rfl, rfl, rfl⟩

@[simp]
theorem load_signal : w.signal.load = w.load := by
  obtain ⟨p, hp, hhand, -⟩ := w.signal_eq
  simp [hp, load, popped, hhand]

@[simp]
theorem records_signal : w.signal.records = w.records := by
  obtain ⟨p, hp, -, hcount⟩ := w.signal_eq
  simp [hp, records, unread, hcount]

@[simp]
theorem load_push (x : PoolWork) : (w.push x).load = w.load + 1 := by
  rw [push, load_signal]
  simp only [load, popped, sllPushBack, List.length_append, List.length_singleton]
  omega

@[simp]
theorem records_push (x : PoolWork) : (w.push x).records = w.records := by
  rw [push, records_signal]
  rfl

@[simp]
theorem load_writeSwap (id : ℕ) : (w.writeSwap id).load = w.load := by
  rw [writeSwap, load_signal]
  rfl

@[simp]
theorem records_writeSwap (id : ℕ) : (w.writeSwap id).records = w.records + 1 := by
  rw [writeSwap, records_signal]
  simp only [records, unread, List.length_append, List.length_singleton]
  omega

end Signal

theorem load_finish {w : ThreadData} (h : inHand w.phase = 1) : w.finish.load = w.load := by
  rw [load, popped, load, popped, h]
  simp only [finish, inHand, Nat.add_zero]

theorem records_finish (w : ThreadData) : w.finish.records = w.unread := rfl

theorem records_finish_of_eq_zero {w : ThreadData} (h : drainCount w.phase = 0) :
    w.finish.records = w.records := by
  rw [records_finish, records, h, Nat.add_zero]

theorem load_begun {w : ThreadData} {x : PoolWork} {xs : List PoolWork}
    (hp : w.phase = .processing) (hc : w.claimed = x :: xs) :
    load { w with claimed := xs, phase := begun x } = w.load := by
  cases x <;> simp only [load, popped, begun, hp, hc, inHand, List.length_cons] <;> omega

theorem records_begun {w : ThreadData} {x : PoolWork} {xs : List PoolWork}
    (hp : w.phase = .processing) :
    records { w with claimed := xs, phase := begun x } = w.records := by
  cases x <;> simp only [records, unread, begun, hp, drainCount]

theorem load_claimWork {w : ThreadData} (hp : w.phase = .claiming) :
    w.claimWork.load = w.load := by
  simp only [claimWork, sllMoveAppend, sllMoveAppendFirst, load, popped, hp, inHand,
    List.length_append, List.take_length, List.drop_length, List.length_nil]
  omega

end ThreadData

namespace QPTPool

open ThreadData

variable {n : ℕ} {cfg : QPTPoolProps} {s s' : QPTPool n}

section Total

variable {M : Type*} [AddCommMonoid M]

def total (s : QPTPool n) (f : ThreadData → M) : M :=
  ∑ i, f (s.data i)

theorem total_set (s : QPTPool n) (f : ThreadData → M) (i : Fin n) (w : ThreadData) :
    (s.set i w).total f + f (s.data i) = s.total f + f w :=
  sum_update_add f s.data i w

theorem le_total (s : QPTPool n) (f : ThreadData → ℕ) (i : Fin n) : f (s.data i) ≤ s.total f :=
  Finset.single_le_sum (f := fun k => f (s.data k)) (fun _ _ => Nat.zero_le _)
    (Finset.mem_univ i)

theorem total_eq_zero_iff (s : QPTPool n) (f : ThreadData → ℕ) :
    s.total f = 0 ↔ ∀ i, f (s.data i) = 0 := by
  simp [total]

theorem set_data_self (s : QPTPool n) (i : Fin n) (w : ThreadData) : (s.set i w).data i = w :=
  Function.update_self ..

theorem set_data_of_ne (s : QPTPool n) {i k : Fin n} (w : ThreadData) (h : k ≠ i) :
    (s.set i w).data k = s.data k :=
  Function.update_of_ne h ..

/-- Stealing moves items from the front of one queue to the end of another. -/
theorem steal_eq (cfg : QPTPoolProps) (s : QPTPool n) (i j : Fin n) (q : QueueKind) :
    ∃ l₁ l₂, (s.data j).queue q = l₁ ++ l₂ ∧
      s.steal cfg i j q =
        (s.set i { s.data i with waiting := (s.data i).waiting ++ l₁ }).set j
          ((s.data j).setQueue l₂ q) :=
  ⟨_, _, (List.take_append_drop _ _).symm, rfl⟩

/-- Stealing keeps a total when it takes from one thread what it gives to the other. -/
theorem total_steal {M : Type*} [AddCancelCommMonoid M] {f : ThreadData → M} {i j : Fin n}
    (hij : i ≠ j) (q : QueueKind)
    (hf : ∀ v w l₁ l₂, w.queue q = l₁ ++ l₂ →
      f { v with waiting := v.waiting ++ l₁ } + f (w.setQueue l₂ q) = f v + f w) :
    (s.steal cfg i j q).total f = s.total f := by
  obtain ⟨l₁, l₂, hq, hsteal⟩ := steal_eq cfg s i j q
  have hi := total_set s f i { s.data i with waiting := (s.data i).waiting ++ l₁ }
  have hj := total_set (s.set i { s.data i with waiting := (s.data i).waiting ++ l₁ }) f j
    ((s.data j).setQueue l₂ q)
  rw [set_data_of_ne _ _ hij.symm] at hj
  rw [hsteal]
  apply add_right_cancel (b := f (s.data i) + f (s.data j))
  calc
    _ = (s.set i { s.data i with waiting := (s.data i).waiting ++ l₁ }).total f +
        f ((s.data j).setQueue l₂ q) + f (s.data i) := by
      rw [← hj]
      abel
    _ = s.total f + (f { s.data i with waiting := (s.data i).waiting ++ l₁ } +
        f ((s.data j).setQueue l₂ q)) := by
      rw [← add_assoc, ← hi]
      abel
    _ = _ := by rw [hf _ _ l₁ l₂ hq]

end Total

section Counted

theorem load_steal (q : QueueKind) (v w : ThreadData) (l₁ l₂ : List PoolWork)
    (hq : w.queue q = l₁ ++ l₂) :
    load { v with waiting := v.waiting ++ l₁ } + load (w.setQueue l₂ q) = load v + load w := by
  cases q with
  | waiting =>
      change w.waiting = _ at hq
      simp only [load, popped, setQueue, hq, List.length_append]
      omega
  | claimed =>
      change w.claimed = _ at hq
      simp only [load, popped, setQueue, hq, List.length_append]
      omega

theorem records_steal (q : QueueKind) (v w : ThreadData) (l₁ l₂ : List PoolWork)
    (_ : w.queue q = l₁ ++ l₂) :
    records { v with waiting := v.waiting ++ l₁ } + records (w.setQueue l₂ q) =
      records v + records w := by
  cases q <;> rfl

theorem load_enqueueWait (s : QPTPool n) (j : Fin n) (x : PoolWork) :
    (s.enqueueWait j x).total load = s.total load + 1 := by
  have hset := total_set s load j ((s.data j).push x)
  rw [load_push] at hset
  change (s.set j _).total load = _
  omega

theorem records_enqueueWait (s : QPTPool n) (j : Fin n) (x : PoolWork) :
    (s.enqueueWait j x).total records = s.total records := by
  have hset := total_set s records j ((s.data j).push x)
  rw [records_push] at hset
  change (s.set j _).total records = _
  omega

/-- The two counters are what the queues and the swap files say. -/
structure Counted (s : QPTPool n) : Prop where
  incomplete : s.incomplete = s.total load
  swapped : s.swapped = s.total records

theorem Counted.enqueueWait (h : Counted s) (j : Fin n) (x : PoolWork) :
    Counted (s.enqueueWait j x) where
  incomplete := by
    rw [load_enqueueWait, ← h.incomplete]
    rfl
  swapped := by
    rw [records_enqueueWait, ← h.swapped]
    rfl

theorem Counted.enqueueSwappable (h : Counted s) (cfg : QPTPoolProps) (j : Fin n) (id : ℕ) :
    Counted (s.enqueueSwappable cfg j id) := by
  unfold QPTPool.enqueueSwappable
  split_ifs
  · exact h.enqueueWait j _
  · have hload := total_set s load j ((s.data j).writeSwap id)
    have hrecords := total_set s records j ((s.data j).writeSwap id)
    rw [load_writeSwap] at hload
    rw [records_writeSwap] at hrecords
    constructor
    · change s.incomplete = (s.set j _).total load
      have := h.incomplete
      omega
    · change s.swapped + 1 = (s.set j _).total records
      have := h.swapped
      omega

theorem Counted.signal (h : Counted s) (k : Fin n) : Counted (s.signal k) := by
  have hload := total_set s load k (s.data k).signal
  have hrecords := total_set s records k (s.data k).signal
  rw [load_signal] at hload
  rw [records_signal] at hrecords
  constructor
  · change s.incomplete = (s.set k _).total load
    have := h.incomplete
    omega
  · change s.swapped = (s.set k _).total records
    have := h.swapped
    omega

theorem Counted.set (h : Counted s) {i : Fin n} {w : ThreadData} (hload : w.load = (s.data i).load)
    (hrecords : w.records = (s.data i).records) : Counted (s.set i w) := by
  have htotal := total_set s load i w
  have htotal' := total_set s records i w
  constructor
  · change s.incomplete = _
    have := h.incomplete
    omega
  · change s.swapped = _
    have := h.swapped
    omega

theorem Counted.setPhase (h : Counted s) {i : Fin n} {p : ThreadPhase}
    (hhand : inHand p = inHand (s.data i).phase)
    (hcount : drainCount p = drainCount (s.data i).phase) : Counted (s.setPhase i p) := by
  apply h.set
  · simp only [load, popped, hhand]
  · simp only [records, unread, hcount]

end Counted

section Lifecycle

theorem forall_set {P : ThreadData → Prop} (h : ∀ k, P (s.data k)) {i : Fin n} {w : ThreadData}
    (hw : P w) (k : Fin n) : P ((s.set i w).data k) := by
  by_cases hk : k = i
  · subst hk
    rwa [set_data_self]
  · rw [set_data_of_ne s w hk]
    exact h k

theorem forall_steal {P : ThreadData → Prop} (h : ∀ k, P (s.data k)) (cfg : QPTPoolProps)
    {i j : Fin n} {q : QueueKind}
    (hi : ∀ l, P { s.data i with waiting := l }) (hj : ∀ l, P ((s.data j).setQueue l q))
    (k : Fin n) : P ((s.steal cfg i j q).data k) :=
  forall_set (forall_set h (hi _)) (hj _) k

theorem forall_enqueueSwappable {P : ThreadData → Prop} (h : ∀ k, P (s.data k))
    (cfg : QPTPoolProps) {j : Fin n} {id : ℕ} (hpush : P ((s.data j).push (.job id)))
    (hwrite : P ((s.data j).writeSwap id)) (k : Fin n) :
    P ((s.enqueueSwappable cfg j id).data k) := by
  unfold QPTPool.enqueueSwappable
  split_ifs
  · exact forall_set h hpush k
  · exact forall_set h hwrite k

/-- A file is only being read while it is drained. -/
def ReadsOnlyDraining (w : ThreadData) : Prop :=
  (∀ c, w.phase ≠ .draining c) → w.read = []

theorem ReadsOnlyDraining.signal {w : ThreadData} (h : ReadsOnlyDraining w) :
    ReadsOnlyDraining w.signal := by
  unfold ThreadData.signal
  split
  · next b hb =>
      intro _
      exact h (by simp [hb])
  · exact h

theorem ReadsOnlyDraining.push {w : ThreadData} (h : ReadsOnlyDraining w) (x : PoolWork) :
    ReadsOnlyDraining (w.push x) :=
  ReadsOnlyDraining.signal h

theorem ReadsOnlyDraining.writeSwap {w : ThreadData} (h : ReadsOnlyDraining w) (id : ℕ) :
    ReadsOnlyDraining (w.writeSwap id) :=
  ReadsOnlyDraining.signal h

theorem phase_signal_of_unstarted {w : ThreadData} (h : w.phase = .unstarted) :
    w.signal.phase = .unstarted := by
  unfold ThreadData.signal
  split
  · next b hb =>
      rw [h] at hb
      cases hb
  · exact h

theorem signal_data_of_exiting {i : Fin n} {m : ℕ} (h : (s.data i).phase = .exiting m)
    (k : Fin n) : (s.signal k).data i = s.data i := by
  by_cases hk : i = k
  · subst hk
    rw [QPTPool.signal, set_data_self, ThreadData.signal, h]
  · exact set_data_of_ne s _ hk

/-- What the caller's call says about the state of the pool. -/
def CallerPhase.Agrees : CallerPhase → PoolState → Prop
  | .idle, st => st ≠ .stopping
  | .waitMem _, st | .checkSwapped _, st | .enqueueDrains _ _, st | .stopping, st => st = .running
  | .broadcasting _, st | .joining, st | .stopped, st => st = .stopping

structure Lifecycle (s : QPTPool n) : Prop where
  unstarted : s.state = .initialized → ∀ i, (s.data i).phase = .unstarted
  reads : ∀ k, ReadsOnlyDraining (s.data k)
  caller : CallerPhase.Agrees s.caller s.state

theorem reads_step (h : Lifecycle s) (hstep : Step cfg s s') :
    ∀ k, ReadsOnlyDraining (s'.data k) := by
  have hr := h.reads
  cases hstep with
  | start hs => exact fun k _ => hr k (by simp [h.unstarted hs k])
  | @enqueue j _ _ => exact forall_set hr ((hr j).push _)
  | @enqueueSwappable j _ _ =>
      exact forall_enqueueSwappable hr cfg ((hr j).push _) ((hr j).writeSwap _)
  | @look i hp | @leave i hp _ _ | @doze i hp _ | @goOn i hp _ _ | @sleep i hp | @wake i _ hp
  | @popNothing i hp _ | @exit i hp | @claim i hp | @pop i _ _ hp _ | @finish i _ hp
  | @fail i _ hp _ | @prepareNothing i hp _ | @decrement i hp =>
      exact forall_set hr fun _ => hr i (by simp [hp])
  | @steal i j q hp _ _ hne _ _ =>
      apply forall_set (forall_steal hr cfg (fun _ => hr i) fun l => by cases q <;> exact hr j)
      intro _
      rw [QPTPool.steal, set_data_of_ne _ _ hne, set_data_self]
      exact hr i (by simp [hp])
  | @prepare i _ _ => exact forall_set hr fun hdrain => absurd rfl (hdrain 0)
  | @drain i j c id rest _ _ _ =>
      have hset := forall_set hr (i := i)
        (w := { s.data i with read := rest, phase := .draining (c + 1) })
        fun hdrain => absurd rfl (hdrain (c + 1))
      exact forall_enqueueSwappable hset cfg ((hset j).push _) ((hset j).writeSwap _)
  | @drainRejected i c id rest _ _ _ =>
      exact forall_set hr fun hdrain => absurd rfl (hdrain (c + 1))
  | @drained i c _ hnil => exact forall_set hr fun _ => hnil
  | @rouse i k hp _ =>
      have hsignal := forall_set hr (i := k) (hr k).signal
      apply forall_set hsignal
      intro _
      rw [signal_data_of_exiting hp]
      exact hr i (by simp [hp])
  | call c _ _ | waitedMem _ _ | waited _ _ | waitedToStop _ _ | readSwapped _ _
  | enqueueDrainRejected _ _ | drainsEnqueued _ | stop _ | broadcasted _ | join _ _ => exact hr
  | @enqueueDrain c k _ _ => exact forall_set hr ((hr k).push _)
  | @broadcast k _ _ => exact forall_set hr (hr k).signal

theorem unstarted_step (h : Lifecycle s) (hstep : Step cfg s s') :
    s'.state = .initialized → ∀ i, (s'.data i).phase = .unstarted := by
  intro hs
  cases hstep with
  | start _ => cases hs
  | stop _ => cases hs
  | @enqueue j _ _ =>
      have hu := h.unstarted hs
      exact forall_set (P := fun w => w.phase = .unstarted) hu (phase_signal_of_unstarted (hu j))
  | @enqueueSwappable j _ _ =>
      have hu := h.unstarted (by
        unfold QPTPool.enqueueSwappable at hs
        split_ifs at hs <;> exact hs)
      exact forall_enqueueSwappable (P := fun w => w.phase = .unstarted) hu cfg
        (phase_signal_of_unstarted (hu j)) (phase_signal_of_unstarted (hu j))
  | @look i hp | @steal i _ _ hp _ _ _ _ _ | @leave i hp _ _ | @doze i hp _ | @goOn i hp _ _
  | @sleep i hp | @wake i _ hp | @popNothing i hp _ | @exit i hp | @claim i hp
  | @pop i _ _ hp _ | @finish i _ hp | @fail i _ hp _ | @prepareNothing i hp _
  | @decrement i hp | @prepare i hp _ | @drainRejected i _ _ _ hp _ _ | @drained i _ hp _
  | @rouse i _ hp _ =>
      have hu := h.unstarted hs i
      rw [hp] at hu
      cases hu
  | @drain i j c id rest hp _ _ =>
      have hu := h.unstarted (by
        unfold QPTPool.enqueueSwappable at hs
        split_ifs at hs <;> exact hs) i
      rw [hp] at hu
      cases hu
  | call c _ _ | waitedMem _ _ | waited _ _ | waitedToStop _ _ | readSwapped _ _
  | enqueueDrainRejected _ _ | drainsEnqueued _ | broadcasted _ | join _ _ =>
      exact h.unstarted hs
  | @enqueueDrain c k _ _ =>
      have hu := h.unstarted hs
      exact forall_set (P := fun w => w.phase = .unstarted) hu (phase_signal_of_unstarted (hu k))
  | @broadcast k _ _ =>
      have hu := h.unstarted hs
      exact forall_set (P := fun w => w.phase = .unstarted) hu (phase_signal_of_unstarted (hu k))

theorem enqueueSwappable_fixed (cfg : QPTPoolProps) (s : QPTPool n) (j : Fin n) (id : ℕ) :
    (s.enqueueSwappable cfg j id).state = s.state ∧
      (s.enqueueSwappable cfg j id).caller = s.caller ∧
      (s.enqueueSwappable cfg j id).errored = s.errored ∧
      (s.enqueueSwappable cfg j id).ran = s.ran ∧
      (s.enqueueSwappable cfg j id).settled = s.settled ∧
      (s.enqueueSwappable cfg j id).enqueued = s.enqueued := by
  unfold QPTPool.enqueueSwappable
  split_ifs <;> exact ⟨rfl, rfl, rfl, rfl, rfl, rfl⟩

theorem callerAgrees_step (h : Lifecycle s) (hstep : Step cfg s s') :
    CallerPhase.Agrees s'.caller s'.state := by
  have ha := h.caller
  cases hstep with
  | start hs =>
      have hidle : s.caller = .idle := by
        revert ha
        rw [hs]
        cases s.caller <;> simp [CallerPhase.Agrees]
      change CallerPhase.Agrees s.caller .running
      rw [hidle]
      exact PoolState.noConfusion
  | @enqueueSwappable j _ _ | @drain i j c id rest _ _ _ =>
      obtain ⟨hstate, hcaller, -⟩ := enqueueSwappable_fixed cfg _ j _
      change CallerPhase.Agrees (QPTPool.enqueueSwappable cfg _ j _).caller
        (QPTPool.enqueueSwappable cfg _ j _).state
      rw [hstate, hcaller]
      exact ha
  | call c hc hs => exact hs
  | stop hc => rfl
  | waited hc _ =>
      rw [hc] at ha
      intro hstop
      exact PoolState.noConfusion (ha.symm.trans hstop)
  | waitedMem hc _ | waitedToStop hc _ | readSwapped hc _ | enqueueDrain hc _
  | enqueueDrainRejected hc _ | drainsEnqueued hc | broadcast hc _ | broadcasted hc
  | join hc _ =>
      rw [hc] at ha
      exact ha
  | _ => exact ha

theorem lifecycle_step (h : Lifecycle s) (hstep : Step cfg s s') : Lifecycle s' where
  unstarted := unstarted_step h hstep
  reads := reads_step h hstep
  caller := callerAgrees_step h hstep

theorem lifecycle_init (n : ℕ) : Lifecycle (init n) where
  unstarted _ _ := rfl
  reads _ _ := rfl
  caller := fun h => by cases h

end Lifecycle

section CountedStep

theorem counted_step (hlife : Lifecycle s) (h : Counted s) (hstep : Step cfg s s') :
    Counted s' := by
  cases hstep with
  | start hs =>
      have hu := hlife.unstarted hs
      constructor
      · rw [h.incomplete]
        exact Finset.sum_congr rfl fun i _ => by simp [load, popped, hu i, inHand]
      · rw [h.swapped]
        exact Finset.sum_congr rfl fun i _ => by simp [records, unread, hu i, drainCount]
  | @enqueue j _ _ =>
      have hq := h.enqueueWait j (.job s.enqueued)
      exact ⟨hq.incomplete, hq.swapped⟩
  | @enqueueSwappable j _ _ =>
      have hq := h.enqueueSwappable cfg j s.enqueued
      exact ⟨hq.incomplete, hq.swapped⟩
  | @look i hp | @leave i hp _ _ | @doze i hp _ | @goOn i hp _ _ | @sleep i hp | @wake i _ hp
  | @popNothing i hp _ | @exit i hp =>
      apply h.setPhase <;> rw [hp] <;> rfl
  | @steal i j q hp _ _ hne _ _ =>
      have hsteal : Counted (s.steal cfg i j q) := by
        constructor
        · rw [total_steal hne q (load_steal q)]
          exact h.incomplete
        · rw [total_steal hne q (records_steal q)]
          exact h.swapped
      have hphase : ((s.steal cfg i j q).data i).phase = .looking := by
        rw [QPTPool.steal, set_data_of_ne _ _ hne, set_data_self]
        exact hp
      apply hsteal.setPhase <;> rw [hphase] <;> rfl
  | @claim i hp =>
      apply h.set (load_claimWork hp)
      simp only [claimWork, records, unread, hp, drainCount]
  | @pop i x xs hp hc => exact h.set (load_begun hp hc) (records_begun hp)
  | @finish i id hp =>
      have hset : Counted (s.set i (s.data i).finish) := by
        exact h.set (load_finish (by rw [hp]; rfl)) (records_finish_of_eq_zero (by rw [hp]; rfl))
      exact ⟨hset.incomplete, hset.swapped⟩
  | @fail i id hp _ =>
      have hset : Counted (s.set i { (s.data i).finish with phase := .decrementing }) := by
        apply h.set
        · exact load_finish (by rw [hp]; rfl)
        · simp only [records, unread, ThreadData.finish, hp, drainCount]
      exact ⟨hset.incomplete, hset.swapped⟩
  | @prepareNothing i hp _ =>
      exact h.set (load_finish (by rw [hp]; rfl)) (records_finish_of_eq_zero (by rw [hp]; rfl))
  | @prepare i hp _ =>
      apply h.set
      · simp only [swapReadPrep, load, popped, hp, inHand]
      · have hnil := hlife.reads i (by simp [hp])
        simp only [swapReadPrep, records, unread, hp, drainCount, hnil, List.length_nil]
        omega
  | @drain i j c id rest hp hr _ =>
      have hset : Counted
          (s.set i { s.data i with read := rest, phase := .draining (c + 1) }) := by
        apply h.set
        · simp only [load, popped, hp, inHand]
        · simp only [records, unread, hp, hr, drainCount, List.length_cons]
          omega
      exact hset.enqueueSwappable cfg j id
  | @drainRejected i c id rest hp hr _ =>
      apply h.set
      · simp only [load, popped, hp, inHand]
      · simp only [records, unread, hp, hr, drainCount, List.length_cons]
        omega
  | @drained i c hp hr =>
      have hload := total_set s load i (s.data i).finish
      have hrecords := total_set s records i (s.data i).finish
      rw [load_finish (by rw [hp]; rfl)] at hload
      rw [records_finish, records, hp, drainCount] at hrecords
      have hincomplete := h.incomplete
      have hswapped := h.swapped
      constructor
      · change s.incomplete = (s.set i (s.data i).finish).total load
        omega
      · change s.swapped - c = (s.set i (s.data i).finish).total records
        omega
  | @decrement i hp =>
      have hload := total_set s load i { s.data i with phase := .looking, workCount := 0 }
      have hrecords := total_set s records i { s.data i with phase := .looking, workCount := 0 }
      have hold : load (s.data i) =
          load { s.data i with phase := .looking, workCount := 0 } + (s.data i).workCount := by
        simp only [load, popped, hp, inHand]
        omega
      have hsame : records { s.data i with phase := .looking, workCount := 0 } =
          records (s.data i) := by
        simp only [records, unread, hp, drainCount]
      have hincomplete := h.incomplete
      have hswapped := h.swapped
      constructor
      · change s.incomplete - (s.data i).workCount = (s.set i _).total load
        omega
      · change s.swapped = (s.set i _).total records
        omega
  | @rouse i k hp _ =>
      apply (h.signal k).setPhase <;> rw [signal_data_of_exiting hp, hp] <;> rfl
  | call c _ _ | waitedMem _ _ | waited _ _ | waitedToStop _ _ | readSwapped _ _
  | enqueueDrainRejected _ _ | drainsEnqueued _ | stop _ | broadcasted _ | join _ _ =>
      exact ⟨h.incomplete, h.swapped⟩
  | @enqueueDrain c k _ _ =>
      have hq := h.enqueueWait k .waitSwappedOnce
      exact ⟨hq.incomplete, hq.swapped⟩
  | @broadcast k _ _ =>
      have hq := h.signal k
      exact ⟨hq.incomplete, hq.swapped⟩

theorem counted_init (n : ℕ) : Counted (init n) where
  incomplete := ((total_eq_zero_iff _ _).mpr fun _ => rfl).symm
  swapped := ((total_eq_zero_iff _ _).mpr fun _ => rfl).symm

theorem lifecycle_of_reaches (hrun : Reaches cfg s) : Lifecycle s := by
  induction hrun with
  | refl => exact lifecycle_init n
  | tail _ hstep ih => exact lifecycle_step ih hstep

theorem counted_of_reaches (hrun : Reaches cfg s) : Counted s := by
  induction hrun with
  | refl => exact counted_init n
  | tail hrun hstep ih => exact counted_step (lifecycle_of_reaches hrun) ih hstep

end CountedStep

section Incomplete

/-- Nothing is queued in memory, and no item has been popped without having been counted off. -/
def Quiet (s : QPTPool n) : Prop :=
  ∀ i, (s.data i).waiting = [] ∧ (s.data i).claimed = [] ∧ (s.data i).popped = 0

theorem Counted.quiet (h : Counted s) (hz : s.incomplete = 0) : s.Quiet := by
  intro i
  have hload := (total_eq_zero_iff s load).mp (h.incomplete.symm.trans hz) i
  rw [load] at hload
  refine ⟨?_, ?_, ?_⟩
  · exact List.length_eq_zero_iff.mp (by omega)
  · exact List.length_eq_zero_iff.mp (by omega)
  · omega

/-- `incomplete` counts the queued items and those popped since the last decrements. It is at
least what any thread is about to subtract. When `QPTPool_wait_mem` may return from a running pool
and when a thread leaves its loop in a stopping one, in neither case because of an error, nothing
in memory is queued or running. -/
theorem incomplete_sound (hrun : Reaches cfg s) :
    s.incomplete = ∑ i, ((s.data i).waiting.length + (s.data i).claimed.length +
      (s.data i).popped) ∧
    (∀ i, (s.data i).phase = .decrementing → (s.data i).workCount ≤ s.incomplete) ∧
    (s.state = .running → ¬s.StoppedOnError cfg → ¬s.WaitMem cfg → s.Quiet) ∧
    (∀ i, (s.data i).phase = .checking → ¬s.WaitForWork cfg i → s.LeaveLoop cfg →
      s.state = .stopping → ¬s.StoppedOnError cfg → s.Quiet) := by
  have h := counted_of_reaches hrun
  refine ⟨h.incomplete, ?_, ?_, ?_⟩
  · intro i _
    have hle := le_total s load i
    rw [← h.incomplete, load, popped] at hle
    omega
  · intro hstate herr hwait
    apply h.quiet
    by_contra hne
    exact hwait ⟨herr, hstate, Nat.pos_of_ne_zero hne⟩
  · intro i _ _ hleave _ herr
    rcases hleave with hstopped | ⟨-, hz, -⟩
    · exact absurd hstopped herr
    · exact h.quiet hz

end Incomplete

/-- One enqueue on a pool that has not been started. -/
def oneJobProps : QPTPoolProps where
  queueLimit := 1
  stealNum := 1
  stealDenom := 2
  stopOnError := false
  outside c := c = none

def oneJobPool : QPTPool 2 :=
  { (init 2).enqueueWait 0 (.job 0) with enqueued := 1 }

theorem reaches_oneJobPool : Reaches oneJobProps oneJobPool :=
  Relation.ReflTransGen.single (Step.enqueue (Or.inl rfl) (by decide))

theorem incomplete_sound_oneJobPool : oneJobPool.incomplete =
    ∑ i, ((oneJobPool.data i).waiting.length + (oneJobPool.data i).claimed.length +
      (oneJobPool.data i).popped) :=
  (incomplete_sound reaches_oneJobPool).1

end QPTPool

end Gufi
