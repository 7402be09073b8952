import Gufi.PoolSwap

/-!
# No lost wake-ups

A thread that sleeps, or is about to, has nothing in its own queues: whoever pushes into them holds
the thread's mutex and signals it. Once an error has stopped the pool, every sleeping thread has
another one that will still get to it, because the thread that ran into the error leaves its loop
and broadcasts, and so does every thread it wakes. Once the caller has stopped the pool, nothing is
left to do, and the caller still has to broadcast to any thread that sleeps.
-/

namespace Gufi

namespace ThreadData

/-- The thread is blocked without a pending signal, or about to be. -/
def Asleep (w : ThreadData) : Prop :=
  w.phase = .dozing ∨ w.phase = .blocked false

def EmptyQueues (w : ThreadData) : Prop :=
  w.waiting = [] ∧ w.claimed = []

/-- A thread that sleeps has nothing to do. -/
def SleepsEmpty (w : ThreadData) : Prop :=
  w.Asleep → w.EmptyQueues

theorem not_asleep_signal {w : ThreadData} (hlock : ¬w.Locked) : ¬w.signal.Asleep := by
  unfold signal
  split
  · rintro (h | h) <;> cases h
  · next hnot =>
      rintro (h | h)
      · exact hlock (Or.inr (Or.inl h))
      · exact hnot false h

theorem not_asleep_push {w : ThreadData} (hlock : ¬w.Locked) (x : PoolWork) :
    ¬(w.push x).Asleep :=
  not_asleep_signal (w := { w with waiting := sllPushBack w.waiting x }) hlock

theorem not_asleep_writeSwap {w : ThreadData} (hlock : ¬w.Locked) (id : ℕ) :
    ¬(w.writeSwap id).Asleep :=
  not_asleep_signal (w := { w with write := w.write ++ [id] }) hlock

/-- A thread in this phase will still signal thread `i` if the pool has stopped on an error. -/
def Rouses : ThreadPhase → ℕ → Prop
  | .unstarted, _ | .dozing, _ | .blocked false, _ | .exited, _ => False
  | .exiting k, i => k ≤ i
  | _, _ => True

theorem rouses_signal {w : ThreadData} {i : ℕ} (h : Rouses w.phase i) :
    Rouses w.signal.phase i := by
  unfold signal
  split
  · trivial
  · exact h

theorem rouses_push {w : ThreadData} {i : ℕ} (x : PoolWork) (h : Rouses w.phase i) :
    Rouses (w.push x).phase i :=
  rouses_signal (w := { w with waiting := sllPushBack w.waiting x }) h

theorem rouses_writeSwap {w : ThreadData} {i : ℕ} (id : ℕ) (h : Rouses w.phase i) :
    Rouses (w.writeSwap id).phase i :=
  rouses_signal (w := { w with write := w.write ++ [id] }) h

end ThreadData

namespace QPTPool

open ThreadData

variable {n : ℕ} {cfg : QPTPoolProps} {s s' : QPTPool n}

section Asleep

theorem emptyQueues_of_waitForWork (hcount : Counted s) {i : Fin n}
    (hwait : s.WaitForWork cfg i) : (s.data i).EmptyQueues := by
  obtain ⟨-, ⟨-, hidle⟩ | ⟨-, -, hc, hw⟩⟩ := hwait
  · have hle := le_total s load i
    rw [← hcount.incomplete, load] at hle
    constructor
    · by_contra hne
      have hpos := List.length_pos_of_ne_nil hne
      exact hidle ⟨Or.inl (by omega), Or.inr hne⟩
    · by_contra hne
      have hpos := List.length_pos_of_ne_nil hne
      exact hidle ⟨Or.inl (by omega), Or.inl hne⟩
  · exact ⟨hw, hc⟩

theorem not_locked_set_draining {i j : Fin n} {m : ℕ} {l : List ℕ}
    (hlock : ¬(s.data j).Locked) :
    ¬((s.set i { s.data i with read := l, phase := .draining m }).data j).Locked := by
  by_cases hj : j = i
  · subst hj
    rw [set_data_self]
    rintro (h | h | h) <;> cases h
  · rwa [set_data_of_ne _ _ hj]

theorem sleepsEmpty_step (hcount : Counted s) (h : ∀ k, (s.data k).SleepsEmpty)
    (hstep : Step cfg s s') : ∀ k, (s'.data k).SleepsEmpty := by
  cases hstep with
  | start hs => exact fun k hk => by rcases hk with hk | hk <;> cases hk
  | @enqueue j _ hlock | @enqueueDrain _ j _ hlock =>
      exact forall_set h fun hk => absurd hk (not_asleep_push hlock _)
  | @enqueueSwappable j _ hlock =>
      exact forall_enqueueSwappable h cfg (fun hk => absurd hk (not_asleep_push hlock _))
        (fun hk => absurd hk (not_asleep_writeSwap hlock _))
  | @look i hp | @leave i hp _ _ | @goOn i hp _ _ | @wake i _ hp | @popNothing i hp _
  | @exit i hp | @claim i hp | @finish i _ hp | @fail i _ hp _ | @prepareNothing i hp _
  | @prepare i hp _ | @drainRejected i _ _ _ hp _ _ | @drained i _ hp _ | @decrement i hp =>
      exact forall_set h fun hk => by rcases hk with hk | hk <;> cases hk
  | @pop i x xs hp _ =>
      exact forall_set h fun hk => by cases x <;> rcases hk with hk | hk <;> cases hk
  | @doze i hp hwait => exact forall_set h fun _ => emptyQueues_of_waitForWork hcount hwait
  | @sleep i hp => exact forall_set h fun _ => h i (Or.inl hp)
  | @steal i j q hp _ _ hne hlock hq =>
      apply forall_set (forall_steal h cfg ?_ ?_)
      · rintro (hk | hk) <;> cases hk
      · rintro l (hk | hk)
        · cases hp.symm.trans hk
        · cases hp.symm.trans hk
      · intro l hk
        have hasleep : (s.data j).Asleep := by cases q <;> exact hk
        obtain ⟨hw, hc⟩ := h j hasleep
        cases q with
        | waiting => exact absurd hw hq
        | claimed => exact absurd hc hq
  | @drain i j c id rest hp hr hlock =>
      have hset : ∀ k, ((s.set i { s.data i with read := rest, phase := .draining (c + 1) }).data
          k).SleepsEmpty := forall_set h fun hk => by rcases hk with hk | hk <;> cases hk
      have hlock' := not_locked_set_draining (i := i) (m := c + 1) (l := rest) hlock
      exact forall_enqueueSwappable hset cfg (fun hk => absurd hk (not_asleep_push hlock' _))
        (fun hk => absurd hk (not_asleep_writeSwap hlock' _))
  | @rouse i k hp hlock =>
      have hsignal : ∀ l, ((s.signal k).data l).SleepsEmpty :=
        forall_set h fun hk => absurd hk (not_asleep_signal hlock)
      exact forall_set hsignal fun hk => by rcases hk with hk | hk <;> cases hk
  | @broadcast k _ hlock => exact forall_set h fun hk => absurd hk (not_asleep_signal hlock)
  | call c _ _ | waitedMem _ _ | waited _ _ | waitedToStop _ _ | readSwapped _ _
  | enqueueDrainRejected _ _ | drainsEnqueued _ | stop _ | broadcasted _ | join _ _ => exact h

end Asleep

section Rouses

variable {P : ThreadData → Prop}

theorem keeps_set {i : Fin n} {w : ThreadData} (hw : P (s.data i) → P w) (k : Fin n)
    (hk : P (s.data k)) : P ((s.set i w).data k) := by
  by_cases hki : k = i
  · subst hki
    rw [set_data_self]
    exact hw hk
  · rwa [set_data_of_ne _ _ hki]

theorem keeps_enqueueSwappable {j : Fin n} {id : ℕ}
    (hpush : P (s.data j) → P ((s.data j).push (.job id)))
    (hwrite : P (s.data j) → P ((s.data j).writeSwap id)) (k : Fin n) (hk : P (s.data k)) :
    P ((s.enqueueSwappable cfg j id).data k) := by
  unfold QPTPool.enqueueSwappable
  split_ifs
  · exact keeps_set hpush k hk
  · exact keeps_set hwrite k hk

theorem keeps_steal {i j : Fin n} {q : QueueKind} (hne : i ≠ j)
    (hi : ∀ l, P (s.data i) → P { s.data i with waiting := l })
    (hj : ∀ l, P (s.data j) → P ((s.data j).setQueue l q)) (k : Fin n) (hk : P (s.data k)) :
    P ((s.steal cfg i j q).data k) := by
  obtain ⟨l₁, l₂, -, hsteal⟩ := steal_eq cfg s i j q
  rw [hsteal]
  apply keeps_set
  · rw [set_data_of_ne _ _ hne.symm]
    exact hj l₂
  · exact keeps_set (hi _) k hk

/-- Threads fall asleep only where `wait_for_work` makes them wait. -/
theorem not_asleep_step (hno : ∀ i, ¬s.WaitForWork cfg i) (hstep : Step cfg s s') (k : Fin n)
    (hk : ¬(s.data k).Asleep) : ¬(s'.data k).Asleep := by
  cases hstep with
  | start hs => rintro (h | h) <;> cases h
  | @enqueue j _ hlock | @enqueueDrain _ j _ hlock =>
      exact keeps_set (P := fun w => ¬w.Asleep) (fun _ => not_asleep_push hlock _) k hk
  | @enqueueSwappable j _ hlock =>
      exact keeps_enqueueSwappable (P := fun w => ¬w.Asleep) (fun _ => not_asleep_push hlock _)
        (fun _ => not_asleep_writeSwap hlock _) k hk
  | @look i _ | @leave i _ _ _ | @goOn i _ _ _ | @wake i _ _ | @popNothing i _ _ | @exit i _
  | @claim i _ | @finish i _ _ | @fail i _ _ _ | @prepareNothing i _ _ | @prepare i _ _
  | @drainRejected i _ _ _ _ _ _ | @drained i _ _ _ | @decrement i _ =>
      exact keeps_set (P := fun w => ¬w.Asleep) (fun _ => by rintro (h | h) <;> cases h) k hk
  | @pop i x xs _ _ =>
      exact keeps_set (P := fun w => ¬w.Asleep)
        (fun _ => by cases x <;> rintro (h | h) <;> cases h) k hk
  | @doze i _ hwait => exact absurd hwait (hno i)
  | @sleep i hp =>
      exact keeps_set (P := fun w => ¬w.Asleep) (fun hnot => absurd (Or.inl hp) hnot) k hk
  | @steal i j q hp _ _ hne _ _ =>
      apply keeps_set (P := fun w => ¬w.Asleep) (fun _ => by rintro (h | h) <;> cases h)
      exact keeps_steal (P := fun w => ¬w.Asleep) hne (fun _ hnot => hnot)
        (fun _ hnot => by cases q <;> exact hnot) k hk
  | @drain i j c id rest hp hr hlock =>
      have hlock' := not_locked_set_draining (i := i) (m := c + 1) (l := rest) hlock
      apply keeps_enqueueSwappable (P := fun w => ¬w.Asleep)
        (fun _ => not_asleep_push hlock' _) (fun _ => not_asleep_writeSwap hlock' _)
      exact keeps_set (P := fun w => ¬w.Asleep) (fun _ => by rintro (h | h) <;> cases h) k hk
  | @rouse i m hp hlock =>
      apply keeps_set (P := fun w => ¬w.Asleep) (fun _ => by rintro (h | h) <;> cases h)
      exact keeps_set (P := fun w => ¬w.Asleep) (fun _ => not_asleep_signal hlock) k hk
  | @broadcast m _ hlock =>
      exact keeps_set (P := fun w => ¬w.Asleep) (fun _ => not_asleep_signal hlock) k hk
  | call c _ _ | waitedMem _ _ | waited _ _ | waitedToStop _ _ | readSwapped _ _
  | enqueueDrainRejected _ _ | drainsEnqueued _ | stop _ | broadcasted _ | join _ _ => exact hk

/-- A thread that will get to a sleeping thread keeps on, until it has got there. -/
theorem rouses_step (hstopped : s.StoppedOnError cfg) (hstep : Step cfg s s') {i : Fin n}
    (hasleep : (s'.data i).Asleep) (k : Fin n) (hk : Rouses (s.data k).phase i) :
    Rouses (s'.data k).phase i := by
  cases hstep with
  | start hs => trivial
  | @enqueue j _ _ | @enqueueDrain _ j _ _ =>
      exact keeps_set (P := fun w => Rouses w.phase i) (rouses_push _) k hk
  | @enqueueSwappable j _ _ =>
      exact keeps_enqueueSwappable (P := fun w => Rouses w.phase i) (rouses_push _)
        (rouses_writeSwap _) k hk
  | @look m _ | @goOn m _ _ _ | @wake m _ _ | @popNothing m _ _ | @claim m _ | @finish m _ _
  | @fail m _ _ _ | @prepareNothing m _ _ | @prepare m _ _ | @drainRejected m _ _ _ _ _ _
  | @drained m _ _ _ | @decrement m _ =>
      exact keeps_set (P := fun w => Rouses w.phase i) (fun _ => by trivial) k hk
  | @leave m _ _ _ =>
      exact keeps_set (P := fun w => Rouses w.phase i) (fun _ => by exact Nat.zero_le _) k hk
  | @pop m x xs _ _ =>
      exact keeps_set (P := fun w => Rouses w.phase i) (fun _ => by cases x <;> trivial) k hk
  | @doze m _ hwait => exact absurd hstopped hwait.1
  | @sleep m hp =>
      apply keeps_set (P := fun w => Rouses w.phase i) _ k hk
      intro h
      rw [hp] at h
      exact h
  | @exit m hp =>
      apply keeps_set (P := fun w => Rouses w.phase i) _ k hk
      intro h
      rw [hp] at h
      exact absurd i.isLt (Nat.not_lt_of_le h)
  | @steal m j q hp _ _ hne _ _ =>
      apply keeps_set (P := fun w => Rouses w.phase i) (fun _ => by trivial)
      exact keeps_steal (P := fun w => Rouses w.phase i) hne (fun _ h => h)
        (fun _ h => by cases q <;> exact h) k hk
  | @drain m j c id rest hp hr hlock =>
      apply keeps_enqueueSwappable (P := fun w => Rouses w.phase i) (rouses_push _)
        (rouses_writeSwap _)
      exact keeps_set (P := fun w => Rouses w.phase i) (fun _ => by trivial) k hk
  | @rouse m j hp hlock =>
      have hij : i ≠ j := by
        rintro rfl
        apply keeps_set (P := fun w => ¬w.Asleep) _ i _ hasleep
        · exact fun _ => by rintro (h | h) <;> cases h
        · rw [QPTPool.signal, set_data_self]
          exact not_asleep_signal hlock
      have hsignal : Rouses ((s.signal j).data k).phase i :=
        keeps_set (P := fun w => Rouses w.phase i) rouses_signal k hk
      apply keeps_set (P := fun w => Rouses w.phase i) _ k hsignal
      intro h
      rw [signal_data_of_exiting hp, hp] at h
      have hle : (j : ℕ) ≤ i := h
      have hne : (j : ℕ) ≠ i := fun heq => hij (Fin.ext heq.symm)
      change (j : ℕ) + 1 ≤ i
      omega
  | @broadcast m _ hlock =>
      exact keeps_set (P := fun w => Rouses w.phase i) rouses_signal k hk
  | call c _ _ | waitedMem _ _ | waited _ _ | waitedToStop _ _ | readSwapped _ _
  | enqueueDrainRejected _ _ | drainsEnqueued _ | stop _ | broadcasted _ | join _ _ => exact hk

/-- An error that stops the pool is followed by a signal to every sleeping thread. -/
def SleepersRoused (cfg : QPTPoolProps) (s : QPTPool n) : Prop :=
  s.StoppedOnError cfg → ∀ i : Fin n, (s.data i).Asleep → ∃ k, Rouses (s.data k).phase i

theorem sleepersRoused_step (h : SleepersRoused cfg s) (hstep : Step cfg s s') :
    SleepersRoused cfg s' := by
  intro hstopped' i hasleep
  by_cases hstopped : s.StoppedOnError cfg
  · have hbefore : (s.data i).Asleep := by
      by_contra hnot
      exact not_asleep_step (fun _ hwait => hwait.1 hstopped) hstep i hnot hasleep
    obtain ⟨k, hk⟩ := h hstopped i hbefore
    exact ⟨k, rouses_step hstopped hstep hasleep k hk⟩
  · cases hstep with
    | @fail j id hp hstop =>
        refine ⟨j, ?_⟩
        change Rouses ((s.set j _).data j).phase i
        rw [set_data_self]
        trivial
    | @enqueueSwappable j _ _ =>
        obtain ⟨-, -, herrored, -⟩ := enqueueSwappable_fixed cfg s j s.enqueued
        exact absurd ⟨hstopped'.1, herrored.symm.trans hstopped'.2⟩ hstopped
    | @drain m j c id rest _ _ _ =>
        obtain ⟨-, -, herrored, -⟩ := enqueueSwappable_fixed cfg
          (s.set m { s.data m with read := rest, phase := .draining (c + 1) }) j id
        exact absurd ⟨hstopped'.1, herrored.symm.trans hstopped'.2⟩ hstopped
    | _ => exact absurd hstopped' hstopped

end Rouses

section Stopping

/-- A thread that has left its loop. -/
def HasLeft (w : ThreadData) : Prop :=
  w.phase = .exited ∨ ∃ k, w.phase = .exiting k

theorem not_hasLeft_signal {w : ThreadData} (h : ¬HasLeft w) : ¬HasLeft w.signal := by
  unfold ThreadData.signal
  split
  · rintro (hp | ⟨k, hp⟩) <;> cases hp
  · exact h

theorem stopping_step (hstep : Step cfg s s') (hs : s.state = .stopping) :
    s'.state = .stopping := by
  cases hstep with
  | start hinit => cases hs.symm.trans hinit
  | stop _ => rfl
  | @enqueueSwappable j _ _ => exact (enqueueSwappable_fixed cfg s j s.enqueued).1.trans hs
  | @drain i j c id rest _ _ _ =>
      exact (enqueueSwappable_fixed cfg
        (s.set i { s.data i with read := rest, phase := .draining (c + 1) }) j id).1.trans hs
  | _ => exact hs

/-- Threads leave their loops after an error or after the pool has been stopped. -/
theorem hasLeft_step (h : ∀ k, HasLeft (s.data k) → s.StoppedOnError cfg ∨ s.state = .stopping)
    (hstep : Step cfg s s') (k : Fin n) (hk : HasLeft (s'.data k)) :
    s'.StoppedOnError cfg ∨ s'.state = .stopping := by
  by_cases hbefore : s.StoppedOnError cfg ∨ s.state = .stopping
  · exact hbefore.imp (stoppedOnError_step hstep) (stopping_step hstep)
  · have hnone : ∀ k, ¬HasLeft (s.data k) := fun k hk => hbefore (h k hk)
    exfalso
    revert k
    cases hstep with
    | start hs => rintro k (hp | ⟨m, hp⟩) <;> cases hp
    | @enqueue j _ _ | @enqueueDrain _ j _ _ | @broadcast j _ _ =>
        exact forall_set (P := fun w => ¬HasLeft w) hnone
          (not_hasLeft_signal (hnone j))
    | @enqueueSwappable j _ _ =>
        exact forall_enqueueSwappable (P := fun w => ¬HasLeft w) hnone cfg
          (not_hasLeft_signal (hnone j)) (not_hasLeft_signal (hnone j))
    | @leave i _ _ hleave => exact absurd (hleave.imp_right And.left) hbefore
    | @exit i hp => exact absurd (Or.inr ⟨n, hp⟩) (hnone i)
    | @rouse i m hp _ => exact absurd (Or.inr ⟨m, hp⟩) (hnone i)
    | @look i _ | @goOn i _ _ _ | @wake i _ _ | @popNothing i _ _ | @doze i _ _ | @sleep i _
    | @claim i _ | @finish i _ _ | @fail i _ _ _ | @prepareNothing i _ _ | @prepare i _ _
    | @drainRejected i _ _ _ _ _ _ | @drained i _ _ _ | @decrement i _ =>
        exact forall_set (P := fun w => ¬HasLeft w) hnone
          (by rintro (hp | ⟨m, hp⟩) <;> cases hp)
    | @pop i x xs _ _ =>
        exact forall_set (P := fun w => ¬HasLeft w) hnone
          (by cases x <;> rintro (hp | ⟨m, hp⟩) <;> cases hp)
    | @steal i j q _ _ _ _ _ _ =>
        apply forall_set (P := fun w => ¬HasLeft w) (forall_steal (P := fun w => ¬HasLeft w) hnone
          cfg (fun _ => hnone i) fun _ => by cases q <;> exact hnone j)
        rintro (hp | ⟨m, hp⟩) <;> cases hp
    | @drain i j c id rest _ _ _ =>
        have hset : ∀ k, ¬HasLeft ((s.set i
            { s.data i with read := rest, phase := .draining (c + 1) }).data k) :=
          forall_set (P := fun w => ¬HasLeft w) hnone
          (by rintro (hp | ⟨m, hp⟩) <;> cases hp)
        exact forall_enqueueSwappable (P := fun w => ¬HasLeft w) hset cfg
          (not_hasLeft_signal (hset j)) (not_hasLeft_signal (hset j))
    | call c _ _ | waitedMem _ _ | waited _ _ | waitedToStop _ _ | readSwapped _ _
    | enqueueDrainRejected _ _ | drainsEnqueued _ | stop _ | broadcasted _ | join _ _ =>
        exact hnone

/-- Nothing is in memory and nothing is swapped out. -/
def Drained (s : QPTPool n) : Prop :=
  s.incomplete = 0 ∧ s.swapped = 0

/-- The caller has found nothing left to do and is on its way to join the threads. -/
def FinishesStop : CallerPhase → Prop
  | .stopping | .broadcasting _ | .joining | .stopped => True
  | _ => False

theorem drained_step (hout : cfg.outside (some .stop) = false) (hcount : Counted s)
    (hcaller : FinishesStop s.caller) (h : Drained s) (hstep : Step cfg s s') : Drained s' := by
  have hquiet := hcount.quiet h.1
  have hmay : ¬s.MayEnqueue cfg := by
    rintro (hmay | ⟨i, id, hp⟩)
    · have hcall : s.caller.call = some .stop := by
        cases hc : s.caller <;> rw [hc] at hcaller <;> first | rfl | exact hcaller.elim
      rw [hcall, hout] at hmay
      cases hmay
    · have hpopped := (hquiet i).2.2
      simp [popped, hp, inHand] at hpopped
  obtain ⟨hincomplete, hswapped⟩ := h
  cases hstep with
  | enqueue hm _ => exact absurd hm hmay
  | enqueueSwappable hm _ => exact absurd hm hmay
  | @drain i j c id rest hp _ _ =>
      have hpopped := (hquiet i).2.2
      simp [popped, hp, inHand] at hpopped
  | @drained i c hp _ =>
      have hpopped := (hquiet i).2.2
      simp [popped, hp, inHand] at hpopped
  | @decrement i _ =>
      refine ⟨?_, hswapped⟩
      change s.incomplete - _ = 0
      omega
  | enqueueDrain hc _ =>
      rw [hc] at hcaller
      exact hcaller.elim
  | _ => exact ⟨hincomplete, hswapped⟩

/-- A pool that is stopped without an error has nothing left to do, and its caller still has to
get to every sleeping thread. -/
structure StopsDrained (cfg : QPTPoolProps) (s : QPTPool n) : Prop where
  drained : FinishesStop s.caller → ¬s.StoppedOnError cfg → Drained s
  sleepers : s.state = .stopping → ¬s.StoppedOnError cfg → ∀ i : Fin n, (s.data i).Asleep →
    ∃ k ≤ (i : ℕ), s.caller = .broadcasting k

theorem finishesStop_of_stopping (hlife : Lifecycle s) (hs : s.state = .stopping) :
    FinishesStop s.caller := by
  have hagrees := hlife.caller
  rw [hs] at hagrees
  cases hc : s.caller with
  | stopping | broadcasting _ | joining | stopped => trivial
  | idle =>
      rw [hc] at hagrees
      exact absurd rfl hagrees
  | waitMem _ | checkSwapped _ | enqueueDrains _ _ =>
      rw [hc] at hagrees
      cases hagrees

theorem stopsDrained_step (hout : cfg.outside (some .stop) = false) (hrun : Reaches cfg s)
    (h : StopsDrained cfg s) (hstep : Step cfg s s') : StopsDrained cfg s' := by
  have hlife := lifecycle_of_reaches hrun
  have hcount := counted_of_reaches hrun
  constructor
  · intro hfinish herr'
    have herr := fun h => herr' (stoppedOnError_step hstep h)
    by_cases hbefore : FinishesStop s.caller
    · exact drained_step hout hcount hbefore (h.drained hbefore herr) hstep
    · cases hstep with
      | @enqueueSwappable j _ _ =>
          change FinishesStop (s.enqueueSwappable cfg j s.enqueued).caller at hfinish
          rw [(enqueueSwappable_fixed cfg s j s.enqueued).2.1] at hfinish
          exact absurd hfinish hbefore
      | @drain i j c id rest _ _ _ =>
          rw [(enqueueSwappable_fixed cfg
            (s.set i { s.data i with read := rest, phase := .draining (c + 1) }) j id).2.1]
            at hfinish
          exact absurd hfinish hbefore
      | waitedToStop hc hs =>
          have hsettled := settled_of_reaches hrun .stop hc herr
          exact ⟨(hsettled.calm hout).1, hs⟩
      | waitedMem hc _ | waited hc _ | readSwapped hc _ | enqueueDrain hc _
      | enqueueDrainRejected hc _ | drainsEnqueued hc | call _ hc _ => exact hfinish.elim
      | stop hc | broadcast hc _ | broadcasted hc | join hc _ =>
          rw [hc] at hbefore
          exact absurd trivial hbefore
      | _ => exact absurd hfinish hbefore
  · intro hs' herr' i hasleep
    have herr := fun h => herr' (stoppedOnError_step hstep h)
    by_cases hs : s.state = .stopping
    · have hdrained := h.drained (finishesStop_of_stopping hlife hs) herr
      have hno : ∀ k, ¬s.WaitForWork cfg k := by
        rintro k ⟨-, ⟨hrunning, -⟩ | ⟨-, hwork, -⟩⟩
        · cases hs.symm.trans hrunning
        · exact hwork.elim (absurd hdrained.1) (absurd hdrained.2)
      have hbefore : (s.data i).Asleep := by
        by_contra hnot
        exact not_asleep_step hno hstep i hnot hasleep
      obtain ⟨k, hk, hcaller⟩ := h.sleepers hs herr i hbefore
      cases hstep with
      | @broadcast j hc hlock =>
          rw [hc] at hcaller
          cases hcaller
          have hne : (j : ℕ) ≠ i := by
            intro heq
            have hij : i = j := Fin.ext heq.symm
            subst hij
            change (((s.set i (s.data i).signal).data i)).Asleep at hasleep
            rw [set_data_self] at hasleep
            exact not_asleep_signal hlock hasleep
          exact ⟨j + 1, by omega, rfl⟩
      | broadcasted hc =>
          rw [hc] at hcaller
          cases hcaller
          exact absurd i.isLt (Nat.not_lt_of_le hk)
      | @enqueueSwappable j _ _ =>
          exact ⟨k, hk, (enqueueSwappable_fixed cfg s j s.enqueued).2.1.trans hcaller⟩
      | @drain m j c id rest _ _ _ =>
          exact ⟨k, hk, (enqueueSwappable_fixed cfg
            (s.set m { s.data m with read := rest, phase := .draining (c + 1) })
            j id).2.1.trans hcaller⟩
      | waitedMem hc _ | waited hc _ | waitedToStop hc _ | readSwapped hc _ | enqueueDrain hc _
      | enqueueDrainRejected hc _ | drainsEnqueued hc | call _ hc _ | stop hc | join hc _ =>
          cases hc.symm.trans hcaller
      | _ => exact ⟨k, hk, hcaller⟩
    · cases hstep with
      | stop _ => exact ⟨0, Nat.zero_le _, rfl⟩
      | start _ => cases hs'
      | @enqueueSwappable j _ _ =>
          exact absurd ((enqueueSwappable_fixed cfg s j s.enqueued).1.symm.trans hs') hs
      | @drain m j c id rest _ _ _ =>
          exact absurd ((enqueueSwappable_fixed cfg
            (s.set m { s.data m with read := rest, phase := .draining (c + 1) })
            j id).1.symm.trans hs') hs
      | _ => exact absurd hs' hs

end Stopping

section Main

theorem sleepsEmpty_of_reaches (hrun : Reaches cfg s) (k : Fin n) : (s.data k).SleepsEmpty := by
  induction hrun generalizing k with
  | refl => rintro (hk | hk) <;> cases hk
  | tail hrun hstep ih => exact sleepsEmpty_step (counted_of_reaches hrun) ih hstep k

theorem sleepersRoused_of_reaches (hrun : Reaches cfg s) : SleepersRoused cfg s := by
  induction hrun with
  | refl => exact fun h => Bool.noConfusion h.2
  | tail hrun hstep ih => exact sleepersRoused_step ih hstep

theorem hasLeft_of_reaches (hrun : Reaches cfg s) (k : Fin n) (hk : HasLeft (s.data k)) :
    s.StoppedOnError cfg ∨ s.state = .stopping := by
  induction hrun generalizing k with
  | refl => rcases hk with hk | ⟨m, hk⟩ <;> cases hk
  | tail hrun hstep ih => exact hasLeft_step ih hstep k hk

theorem stopsDrained_of_reaches (hout : cfg.outside (some .stop) = false)
    (hrun : Reaches cfg s) : StopsDrained cfg s := by
  induction hrun with
  | refl => exact ⟨False.elim, PoolState.noConfusion⟩
  | tail hrun hstep ih => exact stopsDrained_step hout hrun ih hstep

/-- Every thread that has not exited is blocked without a pending signal, and there is one. -/
def AllBlocked (s : QPTPool n) : Prop :=
  (∃ i, (s.data i).phase ≠ .exited) ∧
    ∀ i, (s.data i).phase ≠ .exited → (s.data i).phase = .blocked false

theorem AllBlocked.exists_asleep (h : s.AllBlocked) : ∃ i, (s.data i).Asleep := by
  obtain ⟨⟨i, hi⟩, hall⟩ := h
  exact ⟨i, Or.inr (hall i hi)⟩

/-- The pool has not stopped on an error when all threads are blocked. -/
theorem AllBlocked.not_stoppedOnError (h : s.AllBlocked) (hrun : Reaches cfg s) :
    ¬s.StoppedOnError cfg := by
  intro hstopped
  obtain ⟨i, hi⟩ := h.exists_asleep
  obtain ⟨k, hk⟩ := sleepersRoused_of_reaches hrun hstopped i hi
  by_cases hexit : (s.data k).phase = .exited
  · rw [hexit] at hk
    exact hk
  · rw [h.2 k hexit] at hk
    exact hk

/-- When nobody outside the pool enqueues once `QPTPool_stop` has been called, there is no
reachable state in which an item is queued while every thread that has not exited is blocked
without a pending signal, and none in which the pool is stopping, every thread that has not exited
is blocked without a pending signal, and the caller has no broadcast left to make. -/
theorem no_lost_wakeup (hout : cfg.outside (some .stop) = false) (hrun : Reaches cfg s) :
    ¬((∃ i, (s.data i).waiting ≠ [] ∨ (s.data i).claimed ≠ []) ∧ s.AllBlocked) ∧
    ¬(s.state = .stopping ∧ s.AllBlocked ∧ ∀ k, s.caller ≠ .broadcasting k) := by
  have hstops := stopsDrained_of_reaches hout hrun
  constructor
  · rintro ⟨⟨i, hi⟩, hblocked⟩
    have herr := hblocked.not_stoppedOnError hrun
    by_cases hexit : (s.data i).phase = .exited
    · have hstate := (hasLeft_of_reaches hrun i (Or.inl hexit)).resolve_left herr
      have hfinish := finishesStop_of_stopping (lifecycle_of_reaches hrun) hstate
      have hquiet := (counted_of_reaches hrun).quiet (hstops.drained hfinish herr).1
      exact hi.elim (absurd (hquiet i).1) (absurd (hquiet i).2.1)
    · obtain ⟨hw, hc⟩ := sleepsEmpty_of_reaches hrun i (Or.inr (hblocked.2 i hexit))
      exact hi.elim (absurd hw) (absurd hc)
  · rintro ⟨hstate, hblocked, hbroadcast⟩
    obtain ⟨i, hi⟩ := hblocked.exists_asleep
    obtain ⟨k, -, hk⟩ := hstops.sleepers hstate (hblocked.not_stoppedOnError hrun) i hi
    exact hbroadcast k hk

theorem no_lost_wakeup_twoJobsPool :
    ¬((∃ i, (twoJobsPool.data i).waiting ≠ [] ∨ (twoJobsPool.data i).claimed ≠ []) ∧
      twoJobsPool.AllBlocked) :=
  (no_lost_wakeup rfl reaches_twoJobsPool).1

end Main

section LateEnqueue

/-- Threads outside the pool go on enqueuing while the pool is stopped. -/
def lateProps : QPTPoolProps where
  queueLimit := 0
  stealNum := 1
  stealDenom := 2
  stopOnError := false
  outside _ := true

/-- Two threads are blocked when the pool is stopped and roused. The first exits, and a job is
pushed into its queue. The second wakes up to find work in the pool that is not its own. -/
theorem late_enqueue_is_lost :
    ¬∀ (n : ℕ) (cfg : QPTPoolProps) (s : QPTPool n), Reaches cfg s → s.state ≠ .initialized →
      ¬((∃ i, (s.data i).waiting ≠ [] ∨ (s.data i).claimed ≠ []) ∧ s.AllBlocked) := by
  intro hclaim
  have hinit : Reaches lateProps (init 2) := Relation.ReflTransGen.refl
  have h0 := hinit.tail (Step.start rfl)
  have h1 := h0.tail (Step.look (i := 0) rfl)
  have h2 := h1.tail (Step.doze (i := 0) rfl (by decide))
  have h3 := h2.tail (Step.sleep (i := 0) rfl)
  have h4 := h3.tail (Step.look (i := 1) rfl)
  have h5 := h4.tail (Step.doze (i := 1) rfl (by decide))
  have h6 := h5.tail (Step.sleep (i := 1) rfl)
  have h7 := h6.tail (Step.call .stop rfl rfl)
  have h8 := h7.tail (Step.waitedMem rfl (by decide))
  have h9 := h8.tail (Step.waitedToStop rfl rfl)
  have h10 := h9.tail (Step.stop rfl)
  have h11 := h10.tail (Step.broadcast (k := 0) rfl (by decide))
  have h12 := h11.tail (Step.broadcast (k := 1) rfl (by decide))
  have h13 := h12.tail (Step.broadcasted rfl)
  have h14 := h13.tail (Step.wake (i := 0) rfl)
  have h15 := h14.tail (Step.leave (i := 0) rfl (by decide) (by decide))
  have h16 := h15.tail (Step.rouse (i := 0) (k := 0) rfl (by decide))
  have h17 := h16.tail (Step.rouse (i := 0) (k := 1) rfl (by decide))
  have h18 := h17.tail (Step.exit (i := 0) rfl)
  have h19 := h18.tail (Step.enqueue (j := 0) (Or.inl rfl) (by decide))
  have h20 := h19.tail (Step.wake (i := 1) rfl)
  have h21 := h20.tail (Step.doze (i := 1) rfl (by decide))
  have h22 := h21.tail (Step.sleep (i := 1) rfl)
  apply hclaim 2 lateProps _ h22 (by decide)
  refine ⟨⟨0, by decide⟩, ⟨1, by decide⟩, ?_⟩
  decide

end LateEnqueue

end QPTPool

end Gufi
