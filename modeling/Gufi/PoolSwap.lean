import Gufi.PoolCounters

/-!
# What becomes of swapped jobs

As long as no error has stopped the pool, every job that was enqueued is in one place: in a queue,
being run, in a swap file, or among the jobs that have been run. A drain only moves it. When
`QPTPool_wait_mem` returns, nothing is in memory, so the jobs that have not been run are in the
files that are written to; when the caller then finds `swapped` to be zero, there are none.
-/

namespace Gufi

namespace ThreadData

def jobId : PoolWork → Option ℕ
  | .job id => some id
  | .waitSwappedOnce => none

def jobs (l : List PoolWork) : Multiset ℕ :=
  (l.filterMap jobId : List ℕ)

/-- The job that is being run. -/
def jobInHand : ThreadPhase → Multiset ℕ
  | .running id => {id}
  | _ => 0

/-- The jobs that are with a thread or in its swap files. -/
def held (w : ThreadData) : Multiset ℕ :=
  jobs w.waiting + jobs w.claimed + jobInHand w.phase + w.write + w.read

@[simp]
theorem jobs_append (l₁ l₂ : List PoolWork) : jobs (l₁ ++ l₂) = jobs l₁ + jobs l₂ := by
  simp [jobs]

@[simp]
theorem jobs_nil : jobs [] = 0 := rfl

@[simp]
theorem jobs_job (id : ℕ) : jobs [.job id] = {id} := rfl

@[simp]
theorem jobs_waitSwappedOnce : jobs [.waitSwappedOnce] = 0 := rfl

section Held

variable (w : ThreadData)

theorem held_signal : w.signal.held = w.held := by
  unfold signal
  split
  · next b hb => simp [held, hb, jobInHand]
  · rfl

theorem held_push (x : PoolWork) : (w.push x).held = w.held + jobs [x] := by
  rw [push, held_signal]
  simp only [held, sllPushBack, jobs_append]
  abel

theorem held_writeSwap (id : ℕ) : (w.writeSwap id).held = w.held + {id} := by
  rw [writeSwap, held_signal]
  simp only [held, ← Multiset.coe_add, Multiset.coe_singleton]
  abel

theorem held_steal (q : QueueKind) (v w : ThreadData) (l₁ l₂ : List PoolWork)
    (hq : w.queue q = l₁ ++ l₂) :
    held { v with waiting := v.waiting ++ l₁ } + held (w.setQueue l₂ q) = held v + held w := by
  cases q with
  | waiting =>
      change w.waiting = _ at hq
      simp only [held, setQueue, hq, jobs_append]
      abel
  | claimed =>
      change w.claimed = _ at hq
      simp only [held, setQueue, hq, jobs_append]
      abel

variable {w}

theorem held_claimWork (hp : w.phase = .claiming) : w.claimWork.held = w.held := by
  simp only [claimWork, sllMoveAppend, sllMoveAppendFirst, held, hp, jobInHand, List.take_length,
    List.drop_length, jobs_append, jobs_nil]
  abel

theorem held_begun {x : PoolWork} {xs : List PoolWork} (hp : w.phase = .processing)
    (hc : w.claimed = x :: xs) : held { w with claimed := xs, phase := begun x } = w.held := by
  have hjobs : jobs w.claimed = jobs [x] + jobs xs := by
    rw [hc, ← jobs_append]
    rfl
  cases x <;> simp only [held, begun, hp, jobInHand, hjobs, jobs_job, jobs_waitSwappedOnce] <;> abel

theorem held_finish (hp : jobInHand w.phase = 0) : w.finish.held = w.held := by
  rw [held, held, hp]
  rfl

theorem held_finish_running {id : ℕ} (hp : w.phase = .running id) :
    w.finish.held + {id} = w.held := by
  simp only [held, finish, hp, jobInHand]
  abel

end Held

end ThreadData

namespace QPTPool

open ThreadData

variable {n : ℕ} {cfg : QPTPoolProps} {s s' : QPTPool n}

section Conserved

/-- Every enqueued job is in one place. -/
def Conserved (s : QPTPool n) : Prop :=
  s.total held + s.ran = Multiset.range s.enqueued

theorem total_set_eq_add {f : ThreadData → Multiset ℕ} {i : Fin n} {w : ThreadData}
    {m : Multiset ℕ} (hw : f w = f (s.data i) + m) : (s.set i w).total f = s.total f + m := by
  have hset := total_set s f i w
  rw [hw] at hset
  apply add_right_cancel (b := f (s.data i))
  rw [hset]
  abel

theorem total_set_eq {f : ThreadData → Multiset ℕ} {i : Fin n} {w : ThreadData}
    (hw : f w = f (s.data i)) : (s.set i w).total f = s.total f := by
  rw [total_set_eq_add (m := 0) (by rw [hw, add_zero]), add_zero]

theorem total_set_add_eq {f : ThreadData → Multiset ℕ} {i : Fin n} {w : ThreadData}
    {m : Multiset ℕ} (hw : f w + m = f (s.data i)) : (s.set i w).total f + m = s.total f := by
  have hset := total_set s f i w
  rw [← hw] at hset
  apply add_right_cancel (b := f w)
  rw [← hset]
  abel

theorem total_held_signal (s : QPTPool n) (k : Fin n) :
    (s.signal k).total held = s.total held :=
  total_set_eq (held_signal _)

theorem total_held_enqueueWait (s : QPTPool n) (j : Fin n) (x : PoolWork) :
    (s.enqueueWait j x).total held = s.total held + jobs [x] :=
  total_set_eq_add (held_push _ x)

theorem total_held_enqueueSwappable (cfg : QPTPoolProps) (s : QPTPool n) (j : Fin n) (id : ℕ) :
    (s.enqueueSwappable cfg j id).total held = s.total held + {id} := by
  unfold QPTPool.enqueueSwappable
  split_ifs
  · exact total_held_enqueueWait s j (.job id)
  · exact total_set_eq_add (held_writeSwap _ id)

theorem total_held_setPhase {i : Fin n} {p : ThreadPhase}
    (hp : jobInHand p = jobInHand (s.data i).phase) :
    (s.setPhase i p).total held = s.total held := by
  apply total_set_eq
  simp only [held, hp]

theorem range_eq_of_enqueue {m : Multiset ℕ} {k : ℕ} (h : m + s.ran = Multiset.range k) :
    m + {k} + s.ran = Multiset.range (k + 1) := by
  rw [Multiset.range_succ, ← h, ← Multiset.singleton_add]
  abel

theorem conserved_step (hlife : Lifecycle s) (h : Conserved s) (hstep : Step cfg s s')
    (herr : ¬s'.StoppedOnError cfg) : Conserved s' := by
  unfold Conserved at h ⊢
  cases hstep with
  | start hs =>
      have hu := hlife.unstarted hs
      rw [← h]
      congr 1
      exact Finset.sum_congr rfl fun i _ => by simp only [held, hu i, jobInHand]
  | @enqueue j _ _ =>
      have hq := total_held_enqueueWait s j (.job s.enqueued)
      change (s.enqueueWait j _).total held + s.ran = _
      rw [hq]
      exact range_eq_of_enqueue h
  | @enqueueSwappable j _ _ =>
      have hq := total_held_enqueueSwappable cfg s j s.enqueued
      obtain ⟨-, -, -, hran, -⟩ := enqueueSwappable_fixed cfg s j s.enqueued
      change (s.enqueueSwappable cfg j _).total held + (s.enqueueSwappable cfg j _).ran = _
      rw [hq, hran]
      exact range_eq_of_enqueue h
  | @look i hp | @leave i hp _ _ | @doze i hp _ | @goOn i hp _ _ | @sleep i hp | @wake i _ hp
  | @popNothing i hp _ | @exit i hp =>
      rw [total_held_setPhase (by rw [hp]; rfl)]
      exact h
  | @steal i j q hp _ _ hne _ _ =>
      have hphase : ((s.steal cfg i j q).data i).phase = .looking := by
        rw [QPTPool.steal, set_data_of_ne _ _ hne, set_data_self]
        exact hp
      rw [total_held_setPhase (by rw [hphase]; rfl), total_steal hne q (held_steal q)]
      exact h
  | @claim i hp =>
      rw [total_set_eq (held_claimWork hp)]
      exact h
  | @pop i x xs hp hc =>
      rw [total_set_eq (held_begun hp hc)]
      exact h
  | @finish i id hp =>
      have hset := total_set_add_eq (held_finish_running hp)
      change (s.set i _).total held + (id ::ₘ s.ran) = _
      rw [← Multiset.singleton_add, ← add_assoc, hset]
      exact h
  | @fail i id hp hstop => exact absurd ⟨hstop, rfl⟩ herr
  | @prepareNothing i hp _ =>
      rw [total_set_eq (held_finish (by rw [hp]; rfl))]
      exact h
  | @prepare i hp _ =>
      have hnil := hlife.reads i (by simp [hp])
      have hw : (s.data i).swapReadPrep.held = (s.data i).held := by
        simp only [held, swapReadPrep, hp, hnil, jobInHand, Multiset.coe_nil]
        abel
      rw [total_set_eq hw]
      exact h
  | @drain i j c id rest hp hr _ =>
      have hw : held { s.data i with read := rest, phase := .draining (c + 1) } + {id} =
          (s.data i).held := by
        simp only [held, hp, hr, jobInHand, ← Multiset.cons_coe, ← Multiset.singleton_add]
        abel
      obtain ⟨-, -, -, hran, -, henqueued⟩ := enqueueSwappable_fixed cfg
        (s.set i { s.data i with read := rest, phase := .draining (c + 1) }) j id
      rw [total_held_enqueueSwappable, total_set_add_eq hw, hran, henqueued]
      exact h
  | @drainRejected i c id rest _ _ hstopped => exact absurd hstopped herr
  | @drained i c hp hr =>
      have hset := total_set_eq (s := s) (held_finish (w := s.data i) (by rw [hp]; rfl))
      change (s.set i _).total held + s.ran = _
      rw [hset]
      exact h
  | @decrement i hp =>
      have hw : held { s.data i with phase := .looking, workCount := 0 } = (s.data i).held := by
        simp only [held, hp, jobInHand]
      have hset := total_set_eq (s := s) hw
      change (s.set i _).total held + s.ran = _
      rw [hset]
      exact h
  | @rouse i k hp _ =>
      rw [total_held_setPhase (by rw [signal_data_of_exiting hp, hp]; rfl), total_held_signal]
      exact h
  | call c _ _ | waitedMem _ _ | waited _ _ | waitedToStop _ _ | readSwapped _ _
  | enqueueDrainRejected _ _ | drainsEnqueued _ | stop _ | broadcasted _ | join _ _ => exact h
  | @enqueueDrain c k _ _ =>
      have hq := total_held_enqueueWait s k .waitSwappedOnce
      rw [jobs_waitSwappedOnce, add_zero] at hq
      change (s.enqueueWait k _).total held + s.ran = _
      rw [hq]
      exact h
  | @broadcast k _ _ =>
      have hq := total_held_signal s k
      change (s.signal k).total held + s.ran = _
      rw [hq]
      exact h

end Conserved

section Errors

theorem stoppedOnError_step (hstep : Step cfg s s') (h : s.StoppedOnError cfg) :
    s'.StoppedOnError cfg := by
  refine ⟨h.1, ?_⟩
  have herr := h.2
  cases hstep with
  | fail hp hstop => rfl
  | @enqueueSwappable j _ _ | @drain i j c id rest _ _ _ =>
      obtain ⟨-, -, herrored, -⟩ := enqueueSwappable_fixed cfg _ j _
      exact herrored.trans herr
  | _ => exact herr

theorem conserved_of_reaches (hrun : Reaches cfg s) (herr : ¬s.StoppedOnError cfg) :
    Conserved s := by
  induction hrun with
  | refl =>
      have hzero : (init n).total held = 0 := Finset.sum_eq_zero fun _ _ => rfl
      rw [Conserved, hzero]
      rfl
  | tail hrun hstep ih =>
      have hbefore := fun h => herr (stoppedOnError_step hstep h)
      exact conserved_step (lifecycle_of_reaches hrun) (ih hbefore) hstep herr

end Errors

section Settled

/-- Nothing at a thread drains a swap file or will do so. -/
structure DrainFree (w : ThreadData) : Prop where
  waiting : .waitSwappedOnce ∉ w.waiting
  claimed : .waitSwappedOnce ∉ w.claimed
  preparing : w.phase ≠ .preparing
  draining : ∀ c, w.phase ≠ .draining c

theorem drainFree_of_quiet {w : ThreadData} (hw : w.waiting = []) (hc : w.claimed = [])
    (hp : w.popped = 0) : DrainFree w where
  waiting := by simp [hw]
  claimed := by simp [hc]
  preparing h := by simp [popped, h, inHand] at hp
  draining c h := by simp [popped, h, inHand] at hp

/-- The jobs below a number have been run or are in files that are written to. -/
def SettledBelow (s : QPTPool n) (m : ℕ) : Prop :=
  ∀ id < m, id ∈ s.ran ∨ ∃ k, id ∈ (s.data k).write

/-- What holds when the caller is about to look at `swapped`. -/
structure Settled (cfg : QPTPoolProps) (s : QPTPool n) (c : PoolCall) : Prop where
  drainFree : ∀ k, DrainFree (s.data k)
  below : s.SettledBelow s.settled
  calm : cfg.outside (some c) = false → s.incomplete = 0 ∧ s.settled = s.enqueued

variable {c : PoolCall}

theorem DrainFree.signal {w : ThreadData} (h : DrainFree w) : DrainFree w.signal := by
  unfold ThreadData.signal
  split
  · exact ⟨h.waiting, h.claimed, ThreadPhase.noConfusion, fun _ => ThreadPhase.noConfusion⟩
  · exact h

theorem DrainFree.push {w : ThreadData} (h : DrainFree w) (id : ℕ) :
    DrainFree (w.push (.job id)) := by
  apply DrainFree.signal
  refine ⟨?_, h.claimed, h.preparing, h.draining⟩
  simpa [sllPushBack] using h.waiting

theorem DrainFree.writeSwap {w : ThreadData} (h : DrainFree w) (id : ℕ) :
    DrainFree (w.writeSwap id) :=
  DrainFree.signal ⟨h.waiting, h.claimed, h.preparing, h.draining⟩

theorem DrainFree.withPhase {w : ThreadData} (h : DrainFree w) {p : ThreadPhase}
    (hp : p ≠ .preparing) (hd : ∀ m, p ≠ .draining m) : DrainFree { w with phase := p } :=
  ⟨h.waiting, h.claimed, hp, hd⟩

theorem write_signal (w : ThreadData) : w.signal.write = w.write := by
  unfold ThreadData.signal
  split <;> rfl

theorem Settled.set (h : Settled cfg s c) {i : Fin n} {w : ThreadData} (hw : DrainFree w)
    (hwrite : ∀ id ∈ (s.data i).write, id ∈ w.write) : Settled cfg (s.set i w) c where
  drainFree := forall_set h.drainFree hw
  below id hid := by
    rcases h.below id hid with hran | ⟨k, hk⟩
    · exact Or.inl hran
    · refine Or.inr ⟨k, ?_⟩
      by_cases hki : k = i
      · subst hki
        rw [set_data_self]
        exact hwrite id hk
      · rwa [set_data_of_ne _ _ hki]
  calm := h.calm

theorem Settled.setPhase (h : Settled cfg s c) {i : Fin n} {p : ThreadPhase}
    (hp : p ≠ .preparing) (hd : ∀ m, p ≠ .draining m) : Settled cfg (s.setPhase i p) c :=
  h.set ((h.drainFree i).withPhase hp hd) fun _ hid => hid

theorem Settled.signal (h : Settled cfg s c) (k : Fin n) : Settled cfg (s.signal k) c :=
  h.set (h.drainFree k).signal fun id hid => by rwa [write_signal]

theorem Settled.push (h : Settled cfg s c) (j : Fin n) (id : ℕ) :
    Settled cfg (s.set j ((s.data j).push (.job id))) c :=
  h.set ((h.drainFree j).push id) fun x hx => by
    rw [ThreadData.push, write_signal]
    exact hx

theorem Settled.writeSwap (h : Settled cfg s c) (j : Fin n) (id : ℕ) :
    Settled cfg (s.set j ((s.data j).writeSwap id)) c :=
  h.set ((h.drainFree j).writeSwap id) fun x hx => by
    rw [ThreadData.writeSwap, write_signal]
    exact List.mem_append_left _ hx

theorem Settled.enqueueSwappable (h : Settled cfg s c) (j : Fin n) (id : ℕ) :
    (∀ k, DrainFree ((s.enqueueSwappable cfg j id).data k)) ∧
      (s.enqueueSwappable cfg j id).SettledBelow s.settled := by
  unfold QPTPool.enqueueSwappable
  split_ifs
  · exact ⟨(h.push j id).drainFree, (h.push j id).below⟩
  · exact ⟨(h.writeSwap j id).drainFree, (h.writeSwap j id).below⟩

theorem Settled.steal (h : Settled cfg s c) {i j : Fin n} (hne : i ≠ j) (q : QueueKind) :
    Settled cfg (s.steal cfg i j q) c := by
  obtain ⟨l₁, l₂, hq, hsteal⟩ := steal_eq cfg s i j q
  have hjob : .waitSwappedOnce ∉ l₁ ∧ .waitSwappedOnce ∉ l₂ := by
    have hnot : .waitSwappedOnce ∉ (s.data j).queue q := by
      cases q with
      | waiting => exact (h.drainFree j).waiting
      | claimed => exact (h.drainFree j).claimed
    rw [hq, List.mem_append, not_or] at hnot
    exact hnot
  have hi := h.drainFree i
  have hj := h.drainFree j
  have hset : Settled cfg (s.set i { s.data i with waiting := (s.data i).waiting ++ l₁ }) c := by
    have hwaiting : .waitSwappedOnce ∉ (s.data i).waiting ++ l₁ := by
      rw [List.mem_append, not_or]
      exact ⟨hi.waiting, hjob.1⟩
    exact h.set ⟨hwaiting, hi.claimed, hi.preparing, hi.draining⟩ fun _ hid => hid
  rw [hsteal]
  apply hset.set
  · cases q with
    | waiting => exact ⟨hjob.2, hj.claimed, hj.preparing, hj.draining⟩
    | claimed => exact ⟨hj.waiting, hjob.2, hj.preparing, hj.draining⟩
  · intro id hid
    rw [set_data_of_ne _ _ hne.symm] at hid
    cases q <;> exact hid

theorem DrainFree.claimWork {w : ThreadData} (h : DrainFree w) : DrainFree w.claimWork where
  waiting := by simp [ThreadData.claimWork, sllMoveAppend, sllMoveAppendFirst]
  claimed := by
    simp only [ThreadData.claimWork, sllMoveAppend, sllMoveAppendFirst, List.take_length,
      List.mem_append, not_or]
    exact ⟨h.claimed, h.waiting⟩
  preparing := ThreadPhase.noConfusion
  draining _ := ThreadPhase.noConfusion

theorem DrainFree.pop {w : ThreadData} (h : DrainFree w) {x : PoolWork} {xs : List PoolWork}
    (hc : w.claimed = x :: xs) : DrainFree { w with claimed := xs, phase := begun x } := by
  have hnot := h.claimed
  rw [hc, List.mem_cons, not_or] at hnot
  cases x with
  | job id => exact ⟨h.waiting, hnot.2, ThreadPhase.noConfusion, fun _ => ThreadPhase.noConfusion⟩
  | waitSwappedOnce => exact absurd rfl hnot.1

/-- Without anybody outside to enqueue, a pool with nothing in memory gets nothing. -/
theorem Settled.outside_of_mayEnqueue (h : Settled cfg s c) (hcount : Counted s)
    (hcaller : s.caller = .checkSwapped c) (hmay : s.MayEnqueue cfg) :
    cfg.outside (some c) = true := by
  by_contra hout
  have hzero := (h.calm (Bool.eq_false_of_not_eq_true hout)).1
  rcases hmay with hmay | ⟨i, id, hp⟩
  · rw [hcaller] at hmay
    exact hout hmay
  · have hpopped := (hcount.quiet hzero i).2.2
    simp [popped, hp, inHand] at hpopped

theorem settledBelow_of_quiet (hlife : Lifecycle s) (hcons : Conserved s) (hquiet : s.Quiet) :
    s.SettledBelow s.enqueued := by
  intro id hid
  have hmem : id ∈ s.total held + s.ran := by
    rw [hcons]
    exact Multiset.mem_range.mpr hid
  rcases Multiset.mem_add.mp hmem with hheld | hran
  · obtain ⟨k, -, hk⟩ := Multiset.mem_sum.mp hheld
    obtain ⟨hw, hc, hp⟩ := hquiet k
    have hfree := drainFree_of_quiet hw hc hp
    have hread := hlife.reads k hfree.draining
    have hhand : jobInHand (s.data k).phase = 0 := by
      cases hphase : (s.data k).phase <;> try rfl
      simp [popped, hphase, inHand] at hp
    rw [held, hw, hc, hread, hhand] at hk
    exact Or.inr ⟨k, by simpa using hk⟩
  · exact Or.inl hran

theorem settled_step (hlife : Lifecycle s) (hcount : Counted s)
    (hcons : ¬s.StoppedOnError cfg → Conserved s)
    (h : ∀ c, s.caller = .checkSwapped c → ¬s.StoppedOnError cfg → Settled cfg s c)
    (hstep : Step cfg s s') (c : PoolCall) (hcaller : s'.caller = .checkSwapped c)
    (herr' : ¬s'.StoppedOnError cfg) : Settled cfg s' c := by
  have herr := fun h => herr' (stoppedOnError_step hstep h)
  cases hstep with
  | start hs =>
      have hagrees := hlife.caller
      change s.caller = _ at hcaller
      rw [hcaller, hs] at hagrees
      cases hagrees
  | @enqueue j hmay _ =>
      have hS := h c hcaller herr
      have hset := hS.push j s.enqueued
      refine ⟨hset.drainFree, hset.below, fun hout => ?_⟩
      rw [hS.outside_of_mayEnqueue hcount hcaller hmay] at hout
      cases hout
  | @enqueueSwappable j hmay _ =>
      obtain ⟨-, hcaller', -, -, hsettled, -⟩ := enqueueSwappable_fixed cfg s j s.enqueued
      have hcaller := hcaller'.symm.trans hcaller
      have hS := h c hcaller herr
      obtain ⟨hfree, hbelow⟩ := hS.enqueueSwappable j s.enqueued
      refine ⟨hfree, ?_, fun hout => ?_⟩
      · change SettledBelow _ (s.enqueueSwappable cfg j s.enqueued).settled
        rw [hsettled]
        exact hbelow
      · rw [hS.outside_of_mayEnqueue hcount hcaller hmay] at hout
        cases hout
  | @look i _ | @leave i _ _ _ | @doze i _ _ | @goOn i _ _ _ | @sleep i _ | @wake i _ _
  | @popNothing i _ _ | @exit i _ =>
      exact (h c hcaller herr).setPhase ThreadPhase.noConfusion fun _ => ThreadPhase.noConfusion
  | @steal i j q hp _ _ hne _ hq =>
      exact ((h c hcaller herr).steal hne q).setPhase ThreadPhase.noConfusion
        fun _ => ThreadPhase.noConfusion
  | @claim i hp =>
      have hS := h c hcaller herr
      exact hS.set (hS.drainFree i).claimWork fun _ hid => hid
  | @pop i x xs hp hc =>
      have hS := h c hcaller herr
      exact hS.set ((hS.drainFree i).pop hc) fun _ hid => hid
  | @finish i id hp =>
      have hS := h c hcaller herr
      have hfree : DrainFree (s.data i).finish :=
        ⟨(hS.drainFree i).waiting, (hS.drainFree i).claimed, ThreadPhase.noConfusion,
          fun _ => ThreadPhase.noConfusion⟩
      have hset := hS.set hfree fun _ hid => hid
      refine ⟨hset.drainFree, fun x hx => ?_, hset.calm⟩
      rcases hset.below x hx with hran | hwrite
      · exact Or.inl (Multiset.mem_cons_of_mem hran)
      · exact Or.inr hwrite
  | @fail i id hp hstop => exact absurd ⟨hstop, rfl⟩ herr'
  | @prepareNothing i hp _ | @prepare i hp _ =>
      exact absurd hp ((h c hcaller herr).drainFree i).preparing
  | @drain i j m id rest hp _ _ =>
      have hcaller' := (enqueueSwappable_fixed cfg (s.set i
        { s.data i with read := rest, phase := .draining (m + 1) }) j id).2.1
      have hS := h c (hcaller'.symm.trans hcaller) herr
      exact absurd hp ((hS.drainFree i).draining m)
  | @drainRejected i m id rest hp _ _ | @drained i m hp _ =>
      exact absurd hp (((h c hcaller herr).drainFree i).draining m)
  | @decrement i hp =>
      have hS := h c hcaller herr
      have hfree : DrainFree { s.data i with phase := .looking, workCount := 0 } :=
        ⟨(hS.drainFree i).waiting, (hS.drainFree i).claimed, ThreadPhase.noConfusion,
          fun _ => ThreadPhase.noConfusion⟩
      have hset := hS.set hfree fun _ hid => hid
      refine ⟨hset.drainFree, hset.below, fun hout => ?_⟩
      obtain ⟨hzero, hsettled⟩ := hS.calm hout
      refine ⟨?_, hsettled⟩
      change s.incomplete - _ = 0
      omega
  | @rouse i k hp _ =>
      exact ((h c hcaller herr).signal k).setPhase ThreadPhase.noConfusion
        fun _ => ThreadPhase.noConfusion
  | @waitedMem c' hc hwait =>
      cases hcaller
      have hrunning := hlife.caller
      rw [hc] at hrunning
      have hzero : s.incomplete = 0 := by
        by_contra hne
        exact hwait ⟨herr, hrunning, Nat.pos_of_ne_zero hne⟩
      have hquiet := hcount.quiet hzero
      refine ⟨fun k => ?_, ?_, fun _ => ⟨hzero, rfl⟩⟩
      · exact drainFree_of_quiet (hquiet k).1 (hquiet k).2.1 (hquiet k).2.2
      · have hbelow := settledBelow_of_quiet hlife (hcons herr) hquiet
        exact hbelow
  | call c _ _ | waited _ _ | waitedToStop _ _ | readSwapped _ _
  | enqueueDrainRejected _ _ | drainsEnqueued _ | stop _ | broadcasted _ | join _ _
  | enqueueDrain _ _ | broadcast _ _ => cases hcaller

theorem settled_of_reaches (hrun : Reaches cfg s) (c : PoolCall)
    (hcaller : s.caller = .checkSwapped c) (herr : ¬s.StoppedOnError cfg) : Settled cfg s c := by
  induction hrun generalizing c with
  | refl => cases hcaller
  | tail hrun hstep ih =>
      exact settled_step (lifecycle_of_reaches hrun) (counted_of_reaches hrun)
        (conserved_of_reaches hrun) ih hstep c hcaller herr

end Settled

/-- As long as no error has stopped the pool, `swapped` is at least the number of unread records.
It is that number when no drain is in progress, and it is at least what a drain will subtract.
When `QPTPool_wait` returns, every job that had been enqueued when nothing was left in memory has
been run exactly once. These are all jobs unless somebody outside enqueues during the call. -/
theorem swapped_work_conserved (hrun : Reaches cfg s) (herr : ¬s.StoppedOnError cfg) :
    s.total unread ≤ s.swapped ∧
    ((∀ i c, (s.data i).phase ≠ .draining c) → s.swapped = s.total unread) ∧
    (∀ i c, (s.data i).phase = .draining c → c ≤ s.swapped) ∧
    (∀ c, s.caller = .checkSwapped c → s.swapped = 0 →
      (∀ id < s.settled, s.ran.count id = 1) ∧
        (cfg.outside (some c) = false → s.settled = s.enqueued)) := by
  have hcount := (counted_of_reaches hrun).swapped
  refine ⟨?_, ?_, ?_, ?_⟩
  · rw [hcount]
    exact Finset.sum_le_sum fun i _ => Nat.le_add_right _ _
  · intro hdrain
    rw [hcount]
    apply Finset.sum_congr rfl
    intro i _
    have hzero : drainCount (s.data i).phase = 0 := by
      cases hphase : (s.data i).phase with
      | draining c => exact absurd hphase (hdrain i c)
      | _ => rfl
    rw [records, hzero, Nat.add_zero]
  · intro i c hphase
    have hle := le_total s records i
    rw [← hcount, records, hphase, drainCount] at hle
    omega
  · intro c hcaller hzero
    have hsettled := settled_of_reaches hrun c hcaller herr
    refine ⟨fun id hid => ?_, fun hout => (hsettled.calm hout).2⟩
    have hran : id ∈ s.ran := by
      rcases hsettled.below id hid with hran | ⟨k, hk⟩
      · exact hran
      · have hrecords := (total_eq_zero_iff s records).mp (hcount.symm.trans hzero) k
        have hlength := List.length_pos_of_mem hk
        rw [records, unread] at hrecords
        omega
    have hle : s.ran ≤ Multiset.range s.enqueued := by
      rw [← conserved_of_reaches hrun herr]
      exact Multiset.le_add_left _ _
    have hnodup := Multiset.nodup_of_le hle (Multiset.nodup_range _)
    exact Multiset.count_eq_one_of_mem hnodup hran

/-- The queue limit is reached, and the second job is swapped out. -/
def twoJobsPool : QPTPool 2 :=
  { oneJobPool.enqueueSwappable oneJobProps ⟨0, Nat.two_pos⟩ 1 with enqueued := 2 }

theorem reaches_twoJobsPool : Reaches oneJobProps twoJobsPool :=
  Relation.ReflTransGen.tail reaches_oneJobPool
    (Step.enqueueSwappable (Or.inl rfl) (by decide))

theorem swapped_work_conserved_twoJobsPool : twoJobsPool.swapped = twoJobsPool.total unread := by
  apply (swapped_work_conserved reaches_twoJobsPool (by decide)).2.1
  intro i c
  have hlife := (lifecycle_of_reaches reaches_twoJobsPool).unstarted rfl i
  rw [hlife]
  exact ThreadPhase.noConfusion

end QPTPool

end Gufi
