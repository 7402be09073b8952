import Gufi.PoolWakeups

/-!
# The loop that drains the swap files

`QPTPool_wait` enqueues a drain for every thread and waits, again and again while `swapped` is not
zero. Here writing a record, getting a file ready to be read and reading a record may fail.

A record that a drain puts into a file instead of a queue goes to a thread which has work waiting.
Either this is a job, which will be run in the same round, or it is the thread's own drain, which
will read the record later in the round. So a round in which no job is run leaves nothing in the
files, unless a thread that has records has lost its drain to another one, or records are lost
while they are still counted.
-/

namespace Gufi.QPTPool

open ThreadData

variable {n : ℕ}

section Steps

/-- What can fail with a swap file: `write_swap`, `swap_read_prep`, and `read_swap`. -/
inductive SwapFault
  | write
  | prep
  | read
deriving DecidableEq

/-- One record of a file has been read. -/
def readOne (s : QPTPool n) (i : Fin n) (c : ℕ) (rest : List ℕ) : QPTPool n :=
  s.set i { s.data i with read := rest, phase := .draining (c + 1) }

/-- A step of the pool, with what fails in it. A job that cannot be written is not enqueued. What
`swap_read_prep` has moved and a drain has not read is given up. -/
inductive SwapStep (cfg : QPTPoolProps) : Option SwapFault → QPTPool n → QPTPool n → Prop
  | step {s s'} (h : Step cfg s s') : SwapStep cfg none s s'
  | enqueueFailed {s j} (hmay : s.MayEnqueue cfg) (hlock : ¬(s.data j).Locked)
      (hfull : cfg.queueLimit ≠ 0 ∧ cfg.queueLimit ≤ (s.data j).waiting.length) :
      SwapStep cfg (some .write) s (s.signal j)
  | drainFailed {s i j c id rest} (hp : (s.data i).phase = .draining c)
      (hr : (s.data i).read = id :: rest) (hlock : ¬(s.data j).Locked)
      (hfull : cfg.queueLimit ≠ 0 ∧ cfg.queueLimit ≤ (s.data j).waiting.length) :
      SwapStep cfg (some .write) s ((s.readOne i c rest).signal j)
  | prepareFailed {s i} (hp : (s.data i).phase = .preparing) (hw : (s.data i).write ≠ []) :
      SwapStep cfg (some .prep) s (s.set i { (s.data i).finish with write := [] })
  | readFailed {s i c} (hp : (s.data i).phase = .draining c) (hr : (s.data i).read ≠ []) :
      SwapStep cfg (some .read) s
        { s.set i { (s.data i).finish with read := [] } with swapped := s.swapped - c }

def AnyStep (cfg : QPTPoolProps) (s s' : QPTPool n) : Prop := ∃ fault, SwapStep cfg fault s s'

/-- The thread has a drain in its queues. -/
def DrainQueued (w : ThreadData) : Prop :=
  .waitSwappedOnce ∈ w.waiting ∨ .waitSwappedOnce ∈ w.claimed

instance (w : ThreadData) : Decidable (DrainQueued w) := inferInstanceAs (Decidable (_ ∨ _))

/-- A thread with records keeps a drain until it begins one. -/
def KeepsDrains (s s' : QPTPool n) : Prop :=
  ∀ k, (s.data k).write ≠ [] → DrainQueued (s.data k) →
    DrainQueued (s'.data k) ∨ (s'.data k).phase = .preparing

instance (s s' : QPTPool n) : Decidable (KeepsDrains s s') :=
  inferInstanceAs (Decidable (∀ _, _))

/-- Only writing fails, and no thread that has records loses its drain. -/
def SparedStep (cfg : QPTPoolProps) (s s' : QPTPool n) : Prop :=
  ∃ fault, SwapStep cfg fault s s' ∧ fault ≠ some .prep ∧ fault ≠ some .read ∧ KeepsDrains s s'

/-- The caller enqueues the drains or waits for them. -/
def InRound (c : PoolCall) (s : QPTPool n) : Prop :=
  match s.caller with
  | .waitMem c' | .enqueueDrains c' _ => c' = c
  | _ => False

/-- One round of the loop, from one test of `swapped` to the next. -/
structure Round (R : QPTPool n → QPTPool n → Prop) (c : PoolCall) (s s' : QPTPool n) : Prop where
  begins : s.caller = .checkSwapped c
  ends : s'.caller = .checkSwapped c
  goes : ∃ t u, R s t ∧ InRound c t ∧
    Relation.ReflTransGen (fun a b => R a b ∧ InRound c b) t u ∧ R u s'

end Steps

section Faults

variable {cfg : QPTPoolProps} {s s' : QPTPool n}

theorem Lifecycle.signal (h : Lifecycle s) (k : Fin n) : Lifecycle (s.signal k) where
  unstarted hs := forall_set (P := fun w => w.phase = .unstarted) (h.unstarted hs)
    (phase_signal_of_unstarted (h.unstarted hs k))
  reads := forall_set h.reads (h.reads k).signal
  caller := h.caller

variable {i : Fin n} {c id : ℕ} {rest : List ℕ}

theorem Lifecycle.readOne (h : Lifecycle s) (hp : (s.data i).phase = .draining c) :
    Lifecycle (s.readOne i c rest) where
  unstarted hs := by
    have hu := h.unstarted hs i
    rw [hp] at hu
    cases hu
  reads := forall_set h.reads fun hdrain => absurd rfl (hdrain (c + 1))
  caller := h.caller

theorem Counted.readOne (h : Counted s) (hp : (s.data i).phase = .draining c)
    (hr : (s.data i).read = id :: rest) : Counted (s.readOne i c rest) := by
  apply h.set
  · simp only [load, popped, hp, inHand]
  · simp only [records, unread, hp, hr, drainCount, List.length_cons]
    omega

theorem lifecycle_sparedStep (h : Lifecycle s) (hstep : SparedStep cfg s s') : Lifecycle s' := by
  obtain ⟨fault, hstep, hprep, hread, -⟩ := hstep
  cases hstep with
  | step hstep => exact lifecycle_step h hstep
  | enqueueFailed _ _ _ => exact h.signal _
  | drainFailed hp _ _ _ => exact (h.readOne hp).signal _
  | prepareFailed _ _ => exact absurd rfl hprep
  | readFailed _ _ => exact absurd rfl hread

theorem counted_sparedStep (hlife : Lifecycle s) (h : Counted s) (hstep : SparedStep cfg s s') :
    Counted s' := by
  obtain ⟨fault, hstep, hprep, hread, -⟩ := hstep
  cases hstep with
  | step hstep => exact counted_step hlife h hstep
  | enqueueFailed _ _ _ => exact h.signal _
  | drainFailed hp hr _ _ => exact (h.readOne hp hr).signal _
  | prepareFailed _ _ => exact absurd rfl hprep
  | readFailed _ _ => exact absurd rfl hread

theorem counted_of_sparedRun (hrun : Relation.ReflTransGen (SparedStep cfg) (init n) s) :
    Lifecycle s ∧ Counted s := by
  induction hrun with
  | refl => exact ⟨lifecycle_init n, counted_init n⟩
  | tail _ hstep ih =>
      exact ⟨lifecycle_sparedStep ih.1 hstep, counted_sparedStep ih.1 ih.2 hstep⟩

end Faults

section Track

variable {cfg : QPTPoolProps} {s s' : QPTPool n} {v w : ThreadData}

def JobInMemory (w : ThreadData) : Prop :=
  ∃ id, .job id ∈ w.waiting ∨ .job id ∈ w.claimed ∨ w.phase = .running id

/-- A drain of the thread's file is still to be begun. -/
def DrainAhead (w : ThreadData) : Prop :=
  DrainQueued w ∨ w.phase = .preparing

/-- The caller has not enqueued the thread's drain yet. -/
def DrainComing (s : QPTPool n) (k : Fin n) : Prop :=
  ∃ c m, s.caller = .enqueueDrains c m ∧ m ≤ k.val

/-- A job will be run, or all records will be read. -/
def OnTrack (s : QPTPool n) : Prop :=
  (∃ k, JobInMemory (s.data k)) ∨
    ∀ k, (s.data k).write ≠ [] → DrainComing s k ∨ DrainAhead (s.data k)

/-- What a thread does by itself. -/
structure KeepsTrack (v w : ThreadData) : Prop where
  job : JobInMemory v → JobInMemory w
  write : w.write ≠ [] → v.write ≠ []
  drain : w.write ≠ [] → DrainAhead v → DrainAhead w

theorem keepsTrack_refl (w : ThreadData) : KeepsTrack w w := ⟨id, id, fun _ => id⟩

/-- The queues and files are the same, and the thread is not at a job or about to begin a drain. -/
theorem keepsTrack_of_phase {p : ThreadPhase} (hwaiting : w.waiting = v.waiting)
    (hclaimed : w.claimed = v.claimed) (hwrite : w.write = v.write) (hp : v.phase = p)
    (hjob : ∀ id, p ≠ .running id) (hprep : p ≠ .preparing) : KeepsTrack v w where
  job := by
    rintro ⟨id, hjobs | hjobs | hjobs⟩
    · exact ⟨id, .inl (hwaiting ▸ hjobs)⟩
    · exact ⟨id, .inr (.inl (hclaimed ▸ hjobs))⟩
    · exact absurd (hp.symm.trans hjobs) (hjob id)
  write := by rw [hwrite]; exact id
  drain := by
    rintro - ((hqueued | hqueued) | hqueued)
    · exact .inl (.inl (hwaiting ▸ hqueued))
    · exact .inl (.inr (hclaimed ▸ hqueued))
    · exact absurd (hp.symm.trans hqueued) hprep

theorem keepsTrack_signal (w : ThreadData) : KeepsTrack w w.signal := by
  unfold ThreadData.signal
  split
  · next b hb => exact keepsTrack_of_phase rfl rfl rfl hb nofun nofun
  · exact keepsTrack_refl w

theorem OnTrack.set (h : OnTrack s) {i : Fin n} (hw : KeepsTrack (s.data i) w) :
    OnTrack (s.set i w) := by
  obtain ⟨k, hk⟩ | hdrains := h
  · exact .inl ⟨k, keeps_set hw.job k hk⟩
  · refine .inr fun k hwrite => ?_
    by_cases hk : k = i
    · subst hk
      rw [set_data_self] at hwrite ⊢
      exact (hdrains k (hw.write hwrite)).imp_right (hw.drain hwrite)
    · rw [set_data_of_ne _ _ hk] at hwrite ⊢
      exact hdrains k hwrite

theorem OnTrack.readOne (h : OnTrack s) {i : Fin n} {c : ℕ} (hp : (s.data i).phase = .draining c)
    (rest : List ℕ) : OnTrack (s.readOne i c rest) :=
  h.set (keepsTrack_of_phase rfl rfl rfl hp nofun nofun)

theorem jobInMemory_push (w : ThreadData) (id : ℕ) : JobInMemory (w.push (.job id)) := by
  refine (keepsTrack_signal _).job ⟨id, .inl ?_⟩
  exact List.mem_append_right _ (List.mem_singleton_self _)

/-- A record is written only for a thread that has work waiting. -/
theorem OnTrack.enqueueSwappable (h : OnTrack s) (j : Fin n) (id : ℕ) :
    OnTrack (s.enqueueSwappable cfg j id) := by
  unfold QPTPool.enqueueSwappable
  split_ifs with hroom
  · refine .inl ⟨j, ?_⟩
    change JobInMemory ((s.set j _).data j)
    rw [set_data_self]
    exact jobInMemory_push _ id
  · have hwork : (s.data j).waiting ≠ [] := by
      intro hnil
      rw [hnil] at hroom
      exact hroom (by simp only [List.length_nil]; omega)
    obtain ⟨x, xs, hx⟩ := List.exists_cons_of_ne_nil hwork
    have hmem : x ∈ (s.data j).waiting := hx ▸ List.mem_cons_self
    have hsignal := keepsTrack_signal { s.data j with write := (s.data j).write ++ [id] }
    change OnTrack { s.set j ((s.data j).writeSwap id) with swapped := s.swapped + 1 }
    cases x with
    | job job =>
        refine .inl ⟨j, ?_⟩
        change JobInMemory ((s.set j _).data j)
        rw [set_data_self]
        exact hsignal.job ⟨job, .inl hmem⟩
    | waitSwappedOnce =>
        obtain ⟨k, job, hjob⟩ | hdrains := h
        · refine .inl ⟨k, ?_⟩
          exact keeps_set (P := JobInMemory) (fun hjob => hsignal.job hjob) k ⟨job, hjob⟩
        · refine .inr fun k hwrite => ?_
          by_cases hk : k = j
          · subst hk
            refine .inr ?_
            change DrainAhead ((s.set k _).data k)
            change ((s.set k _).data k).write ≠ [] at hwrite
            rw [set_data_self] at hwrite ⊢
            exact hsignal.drain hwrite (.inl (.inl hmem))
          · change ((s.set j _).data k).write ≠ [] at hwrite
            change DrainComing s k ∨ DrainAhead ((s.set j _).data k)
            rw [set_data_of_ne _ _ hk] at hwrite ⊢
            exact hdrains k hwrite

/-- A round that has begun with fewer jobs run, or in which every record will be read. -/
structure RoundOnTrack (cfg : QPTPoolProps) (m : ℕ) (s : QPTPool n) : Prop where
  le : m ≤ Multiset.card s.ran
  onTrack : Multiset.card s.ran = m → ¬s.StoppedOnError cfg ∧ OnTrack s

theorem keepsTrack_pop {x : PoolWork} {xs : List PoolWork} (hp : w.phase = .processing)
    (hc : w.claimed = x :: xs) : KeepsTrack w { w with claimed := xs, phase := begun x } where
  job := by
    rintro ⟨id, hjob | hjob | hjob⟩
    · exact ⟨id, .inl hjob⟩
    · rw [hc, List.mem_cons] at hjob
      obtain rfl | hjob := hjob
      · exact ⟨id, .inr (.inr rfl)⟩
      · exact ⟨id, .inr (.inl hjob)⟩
    · rw [hp] at hjob
      cases hjob
  write := id
  drain := by
    rintro - ((hdrain | hdrain) | hdrain)
    · exact .inl (.inl hdrain)
    · rw [hc, List.mem_cons] at hdrain
      obtain rfl | hdrain := hdrain
      · exact .inr rfl
      · exact .inl (.inr hdrain)
    · rw [hp] at hdrain
      cases hdrain

theorem keepsTrack_claimWork (hp : w.phase = .claiming) : KeepsTrack w w.claimWork where
  job := by
    rintro ⟨id, hjob | hjob | hjob⟩
    · exact ⟨id, .inr (.inl (List.mem_append_right _ (by rwa [List.take_length])))⟩
    · exact ⟨id, .inr (.inl (List.mem_append_left _ hjob))⟩
    · rw [hp] at hjob
      cases hjob
  write := id
  drain := by
    rintro - ((hdrain | hdrain) | hdrain)
    · exact .inl (.inr (List.mem_append_right _ (by rwa [List.take_length])))
    · exact .inl (.inr (List.mem_append_left _ hdrain))
    · rw [hp] at hdrain
      cases hdrain

/-- There is nothing in the file that is written to. -/
theorem keepsTrack_of_write_nil {p : ThreadPhase} (hwaiting : w.waiting = v.waiting)
    (hclaimed : w.claimed = v.claimed) (hwrite : w.write = []) (hp : v.phase = p)
    (hjob : ∀ id, p ≠ .running id) : KeepsTrack v w where
  job := by
    rintro ⟨id, hjobs | hjobs | hjobs⟩
    · exact ⟨id, .inl (hwaiting ▸ hjobs)⟩
    · exact ⟨id, .inr (.inl (hclaimed ▸ hjobs))⟩
    · exact absurd (hp.symm.trans hjobs) (hjob id)
  write h := absurd hwrite h
  drain h := absurd hwrite h

/-- A job that is stolen is still in memory. -/
theorem OnTrack.steal (h : OnTrack s) {i j : Fin n} {q : QueueKind}
    (hp : (s.data i).phase = .looking) (hne : i ≠ j)
    (hkeep : KeepsDrains s ((s.steal cfg i j q).setPhase i .checking)) :
    OnTrack ((s.steal cfg i j q).setPhase i .checking) := by
  obtain ⟨l₁, l₂, hq, hsteal⟩ := steal_eq cfg s i j q
  have hi : (((s.steal cfg i j q).setPhase i .checking).data i) =
      { s.data i with waiting := (s.data i).waiting ++ l₁, phase := .checking } := by
    rw [QPTPool.setPhase, set_data_self, hsteal, set_data_of_ne _ _ hne, set_data_self]
  have hj : (((s.steal cfg i j q).setPhase i .checking).data j) = (s.data j).setQueue l₂ q := by
    rw [QPTPool.setPhase, set_data_of_ne _ _ hne.symm, hsteal, set_data_self]
  have hk : ∀ k, k ≠ i → k ≠ j →
      (((s.steal cfg i j q).setPhase i .checking).data k) = s.data k := by
    intro k hki hkj
    rw [QPTPool.setPhase, set_data_of_ne _ _ hki, hsteal, set_data_of_ne _ _ hkj,
      set_data_of_ne _ _ hki]
  have hwrite : ∀ k, (((s.steal cfg i j q).setPhase i .checking).data k).write =
      (s.data k).write := by
    intro k
    by_cases hki : k = i
    · rw [hki, hi]
    · by_cases hkj : k = j
      · rw [hkj, hj]
        cases q <;> rfl
      · rw [hk k hki hkj]
  have hcaller : ((s.steal cfg i j q).setPhase i .checking).caller = s.caller := by
    rw [hsteal]
    rfl
  generalize (s.steal cfg i j q).setPhase i .checking = s' at *
  obtain ⟨k, id, hjob⟩ | hdrains := h
  · left
    by_cases hki : k = i
    · subst hki
      refine ⟨k, id, ?_⟩
      rw [hi]
      obtain hjob | hjob | hjob := hjob
      · exact .inl (List.mem_append_left _ hjob)
      · exact .inr (.inl hjob)
      · rw [hp] at hjob
        cases hjob
    · by_cases hkj : k = j
      · subst hkj
        -- what is taken from the queue comes to the thief
        have hqueue : .job id ∈ (s.data k).queue q →
            .job id ∈ (s'.data i).waiting ∨ .job id ∈ (s'.data k).queue q := by
          rw [hq, hi, hj, List.mem_append]
          rintro (hstolen | hleft)
          · exact .inl (List.mem_append_right _ hstolen)
          · exact .inr (by cases q <;> exact hleft)
        cases q with
        | waiting =>
            obtain hjob | hjob | hjob := hjob
            · obtain hstolen | hleft := hqueue hjob
              · exact ⟨i, id, .inl hstolen⟩
              · exact ⟨k, id, .inl hleft⟩
            · exact ⟨k, id, by rw [hj]; exact .inr (.inl hjob)⟩
            · exact ⟨k, id, by rw [hj]; exact .inr (.inr hjob)⟩
        | claimed =>
            obtain hjob | hjob | hjob := hjob
            · exact ⟨k, id, by rw [hj]; exact .inl hjob⟩
            · obtain hstolen | hleft := hqueue hjob
              · exact ⟨i, id, .inl hstolen⟩
              · exact ⟨k, id, .inr (.inl hleft)⟩
            · exact ⟨k, id, by rw [hj]; exact .inr (.inr hjob)⟩
      · exact ⟨k, id, by rwa [hk k hki hkj]⟩
  · refine .inr fun k hw => ?_
    rw [hwrite] at hw
    obtain hcoming | hqueued | hprep := hdrains k hw
    · rw [DrainComing, hcaller]
      exact .inl hcoming
    · exact .inr (hkeep k hw hqueued)
    · refine .inr (.inr ?_)
      have hki : k ≠ i := by
        rintro rfl
        rw [hp] at hprep
        cases hprep
      by_cases hkj : k = j
      · subst hkj
        rw [hj]
        cases q <;> exact hprep
      · rwa [hk k hki hkj]

theorem ran_le_step (hstep : Step cfg s s') : s.ran ≤ s'.ran := by
  cases hstep with
  | finish _ => exact Multiset.le_cons_self _ _
  | fail _ _ => exact Multiset.le_cons_self _ _
  | enqueueSwappable _ _ => rw [show s.ran = _ from (enqueueSwappable_fixed cfg s _ _).2.2.2.1.symm]
  | drain _ _ _ => rw [(enqueueSwappable_fixed cfg _ _ _).2.2.2.1]; rfl
  | _ => exact le_rfl

theorem OnTrack.of_data (h : OnTrack s) (hdata : s'.data = s.data)
    (hcoming : ∀ k, DrainComing s k → DrainComing s' k) : OnTrack s' := by
  obtain ⟨k, hk⟩ | hdrains := h
  · exact .inl ⟨k, by rwa [hdata]⟩
  · refine .inr fun k hwrite => ?_
    rw [hdata] at hwrite ⊢
    exact (hdrains k hwrite).imp_left (hcoming k)

theorem keepsTrack_push_drain (w : ThreadData) : KeepsTrack w (w.push .waitSwappedOnce) := by
  have hsignal := keepsTrack_signal
    { w with waiting := sllPushBack w.waiting .waitSwappedOnce }
  refine ⟨fun hjob => hsignal.job ?_, hsignal.write, fun hwrite _ => hsignal.drain hwrite ?_⟩
  · obtain ⟨id, hjob | hjob⟩ := hjob
    · exact ⟨id, .inl (List.mem_append_left _ hjob)⟩
    · exact ⟨id, .inr hjob⟩
  · exact .inl (.inl (List.mem_append_right _ (List.mem_singleton_self _)))

theorem OnTrack.enqueueDrain (h : OnTrack s) {c : PoolCall} {k : Fin n}
    (hc : s.caller = .enqueueDrains c k) :
    OnTrack { s.enqueueWait k .waitSwappedOnce with caller := .enqueueDrains c (k + 1) } := by
  obtain ⟨k', hk'⟩ | hdrains := h
  · exact .inl ⟨k', keeps_set (P := JobInMemory) (keepsTrack_push_drain _).job k' hk'⟩
  · refine .inr fun k' hwrite => ?_
    change ((s.set k _).data k').write ≠ [] at hwrite
    change _ ∨ DrainAhead ((s.set k _).data k')
    by_cases hk : k' = k
    · subst hk
      rw [set_data_self] at hwrite ⊢
      refine .inr ((keepsTrack_signal _).drain hwrite (.inl (.inl ?_)))
      exact List.mem_append_right _ (List.mem_singleton_self _)
    · rw [set_data_of_ne _ _ hk] at hwrite ⊢
      refine (hdrains k' hwrite).imp_left ?_
      rintro ⟨c', m, hc', hm⟩
      rw [hc, CallerPhase.enqueueDrains.injEq] at hc'
      have hne : k'.val ≠ k.val := fun h => hk (Fin.ext h)
      exact ⟨c, k.val + 1, rfl, by omega⟩

theorem card_ne_of_cons {id : ℕ} {m : Multiset ℕ} : Multiset.card (id ::ₘ m) ≠ Multiset.card m := by
  rw [Multiset.card_cons]
  exact Nat.succ_ne_self _

theorem Lifecycle.running_of_inRound (h : Lifecycle s) {c : PoolCall} (hround : InRound c s) :
    s.state = .running := by
  have hcaller := h.caller
  unfold InRound at hround
  cases hc : s.caller with
  | waitMem c' | enqueueDrains c' k =>
      rw [hc] at hcaller
      exact hcaller
  | _ =>
      rw [hc] at hround
      exact hround.elim

/-- A step in a round in which no job ends. -/
theorem onTrack_step {c : PoolCall} (hlife : Lifecycle s) (hround : InRound c s)
    (hround' : InRound c s') (herr : ¬s.StoppedOnError cfg) (h : OnTrack s)
    (hkeep : KeepsDrains s s') (hstep : Step cfg s s')
    (hran : Multiset.card s'.ran = Multiset.card s.ran) : OnTrack s' := by
  have hrunning := hlife.running_of_inRound hround
  unfold InRound at hround hround'
  cases hstep with
  | start hs =>
      rw [hs] at hrunning
      cases hrunning
  | @enqueue j hmay hlock =>
      refine .inl ⟨j, ?_⟩
      change JobInMemory ((s.set j _).data j)
      rw [set_data_self]
      exact jobInMemory_push _ _
  | enqueueSwappable hmay hlock => exact h.enqueueSwappable _ _
  | look hp => exact h.set (keepsTrack_of_phase rfl rfl rfl hp nofun nofun)
  | steal hp hmay hdenom hne hlock hq => exact h.steal hp hne hkeep
  | doze hp hwait => exact h.set (keepsTrack_of_phase rfl rfl rfl hp nofun nofun)
  | leave hp hwait hleave => exact h.set (keepsTrack_of_phase rfl rfl rfl hp nofun nofun)
  | goOn hp hwait hleave => exact h.set (keepsTrack_of_phase rfl rfl rfl hp nofun nofun)
  | sleep hp => exact h.set (keepsTrack_of_phase rfl rfl rfl hp nofun nofun)
  | wake hp => exact h.set (keepsTrack_of_phase rfl rfl rfl hp nofun nofun)
  | claim hp => exact h.set (keepsTrack_claimWork hp)
  | pop hp hc => exact h.set (keepsTrack_pop hp hc)
  | popNothing hp hc => exact h.set (keepsTrack_of_phase rfl rfl rfl hp nofun nofun)
  | finish hp => exact absurd hran card_ne_of_cons
  | fail hp hstop => exact absurd hran card_ne_of_cons
  | prepareNothing hp hw => exact h.set (keepsTrack_of_write_nil rfl rfl hw hp nofun)
  | prepare hp hw => exact h.set (keepsTrack_of_write_nil rfl rfl rfl hp nofun)
  | drain hp hr hlock => exact (h.readOne hp _).enqueueSwappable _ _
  | drainRejected hp hr hstopped => exact absurd hstopped herr
  | drained hp hr => exact h.set (keepsTrack_of_phase rfl rfl rfl hp nofun nofun)
  | decrement hp => exact h.set (keepsTrack_of_phase rfl rfl rfl hp nofun nofun)
  | @rouse i k hp hlock =>
      have hsignal : OnTrack (s.signal k) := h.set (keepsTrack_signal _)
      exact hsignal.set (keepsTrack_of_phase rfl rfl rfl
        ((congrArg ThreadData.phase (signal_data_of_exiting hp k)).trans hp) nofun nofun)
  | exit hp => exact h.set (keepsTrack_of_phase rfl rfl rfl hp nofun nofun)
  | enqueueDrain hc hlock => exact h.enqueueDrain hc
  | enqueueDrainRejected hc hstopped => exact absurd hstopped herr
  | drainsEnqueued hc =>
      refine h.of_data rfl ?_
      rintro k ⟨c', m, hc', hm⟩
      rw [hc, CallerPhase.enqueueDrains.injEq] at hc'
      exact absurd k.isLt (by omega)
  | waitedMem hc hwait => exact hround'.elim
  | broadcast hc hlock | call _ hc hs | waited hc hs | waitedToStop hc hs | readSwapped hc hs
  | stop hc | broadcasted hc | join hc hexit =>
      rw [hc] at hround
      exact hround.elim

theorem errored_of_step (hstep : Step cfg s s') (herr : ¬s.StoppedOnError cfg)
    (hran : Multiset.card s'.ran = Multiset.card s.ran) : ¬s'.StoppedOnError cfg := by
  cases hstep with
  | fail hp hstop => exact absurd hran card_ne_of_cons
  | enqueueSwappable hmay hlock =>
      rwa [StoppedOnError, (enqueueSwappable_fixed cfg s _ _).2.2.1]
  | drain hp hr hlock => rwa [StoppedOnError, (enqueueSwappable_fixed cfg _ _ _).2.2.1]
  | _ => exact herr

theorem roundOnTrack_step {c : PoolCall} {m : ℕ} (hlife : Lifecycle s) (hround : InRound c s)
    (hround' : InRound c s') (h : RoundOnTrack cfg m s) (hstep : SparedStep cfg s s') :
    RoundOnTrack cfg m s' := by
  obtain ⟨fault, hstep, hprep, hread, hkeep⟩ := hstep
  cases hstep with
  | step hstep =>
      have hle := Multiset.card_le_card (ran_le_step hstep)
      refine ⟨h.le.trans hle, fun hm => ?_⟩
      obtain ⟨herr, htrack⟩ := h.onTrack (Nat.le_antisymm (hle.trans hm.le) h.le)
      have hran := hm.trans (Nat.le_antisymm h.le (hle.trans hm.le))
      exact ⟨errored_of_step hstep herr hran,
        onTrack_step hlife hround hround' herr htrack hkeep hstep hran⟩
  | enqueueFailed hmay hlock hfull =>
      exact ⟨h.le, fun hm => ⟨(h.onTrack hm).1, (h.onTrack hm).2.set (keepsTrack_signal _)⟩⟩
  | drainFailed hp hr hlock hfull =>
      exact ⟨h.le, fun hm => ⟨(h.onTrack hm).1,
        ((h.onTrack hm).2.readOne hp _).set (keepsTrack_signal _)⟩⟩
  | prepareFailed _ _ => exact absurd rfl hprep
  | readFailed _ _ => exact absurd rfl hread

end Track

section Main

variable {cfg : QPTPoolProps} {s s' t u : QPTPool n} {c : PoolCall}

theorem not_inRound {c' : PoolCall} (hc : s.caller = .checkSwapped c') : ¬InRound c s := by
  unfold InRound
  rw [hc]
  exact id

/-- A round begins with no drain enqueued. -/
theorem eq_of_begins (hc : s.caller = .checkSwapped c) (hstep : Step cfg s t)
    (hround : InRound c t) : s.swapped ≠ 0 ∧ t = { s with caller := .enqueueDrains c 0 } := by
  cases hstep with
  | readSwapped hc' hs =>
      rw [hc, CallerPhase.checkSwapped.injEq] at hc'
      rw [hc']
      exact ⟨hs, rfl⟩
  | call c' hc' hs => cases hc.symm.trans hc'
  | waitedMem hc' hwait | enqueueDrain hc' hlock | enqueueDrainRejected hc' hstopped
  | drainsEnqueued hc' => cases hc.symm.trans hc'
  | enqueueSwappable hmay hlock =>
      exact absurd hround (not_inRound ((enqueueSwappable_fixed cfg s _ _).2.1.trans hc))
  | drain hp hr hlock =>
      exact absurd hround (not_inRound ((enqueueSwappable_fixed cfg _ _ _).2.1.trans hc))
  | waited _ _ | waitedToStop _ _ | stop _ | broadcast _ _ | broadcasted _ | join _ _ =>
      exact False.elim hround
  | _ => exact absurd hround (not_inRound hc)

/-- Nothing is left when the memory is empty and no job has ended. -/
theorem swapped_eq_zero_of_onTrack (hlife : Lifecycle u) (hcount : Counted u)
    (hc : u.caller = .waitMem c) (hz : u.incomplete = 0) (h : OnTrack u) : u.swapped = 0 := by
  have hquiet := hcount.quiet hz
  have hphase : ∀ k, inHand (u.data k).phase = 0 := fun k =>
    (Nat.add_eq_zero_iff.mp (hquiet k).2.2).2
  have hdrains : ∀ k, (u.data k).write = [] := by
    obtain ⟨k, id, hjob | hjob | hjob⟩ | hdrains := h
    · rw [(hquiet k).1] at hjob
      cases hjob
    · rw [(hquiet k).2.1] at hjob
      cases hjob
    · have hz := hphase k
      rw [hjob] at hz
      cases hz
    · intro k
      by_contra hne
      obtain ⟨c', m, hc', -⟩ | ((hqueued | hqueued) | hprep) := hdrains k hne
      · rw [hc] at hc'
        cases hc'
      · rw [(hquiet k).1] at hqueued
        cases hqueued
      · rw [(hquiet k).2.1] at hqueued
        cases hqueued
      · have hz := hphase k
        rw [hprep] at hz
        cases hz
  rw [hcount.swapped, total_eq_zero_iff]
  intro k
  have hdraining : ∀ c', (u.data k).phase ≠ .draining c' := by
    intro c' hp
    have hz := hphase k
    rw [hp] at hz
    cases hz
  have hzero : drainCount (u.data k).phase = 0 := by
    cases hp : (u.data k).phase with
    | draining c' => exact absurd hp (hdraining c')
    | _ => rfl
  rw [records, unread, hdrains k, hlife.reads k hdraining, hzero]
  rfl

theorem eq_of_ends (hround : InRound c u) (hc : s'.caller = .checkSwapped c)
    (hstep : SparedStep cfg u s') :
    u.caller = .waitMem c ∧ ¬u.WaitMem cfg ∧ s'.swapped = u.swapped ∧ s'.ran = u.ran := by
  obtain ⟨fault, hstep, -, -, -⟩ := hstep
  cases hstep with
  | step hstep =>
      cases hstep with
      | waitedMem hc' hwait =>
          rw [CallerPhase.checkSwapped.injEq] at hc
          exact ⟨hc ▸ hc', hwait, rfl, rfl⟩
      | enqueueSwappable hmay hlock =>
          exact absurd hround (not_inRound ((enqueueSwappable_fixed cfg u _ _).2.1.symm.trans hc))
      | drain hp hr hlock =>
          have hstay := (enqueueSwappable_fixed cfg _ _ _).2.1.symm.trans hc
          exact absurd hround (not_inRound hstay)
      | waited _ _ | waitedToStop _ _ | readSwapped _ _ | stop _ | broadcast _ _ | broadcasted _
      | join _ _ | call _ _ _ | enqueueDrain _ _ | enqueueDrainRejected _ _ | drainsEnqueued _ =>
          cases hc
      | _ => exact absurd hround (not_inRound hc)
  | _ => exact absurd hround (not_inRound hc)

/-- A round of the loop in which no job ends leaves nothing in the swap files, so it is the last. -/
theorem drain_round_progresses (hrun : Relation.ReflTransGen (SparedStep cfg) (init n) s)
    (herr : ¬s.StoppedOnError cfg) (hround : Round (SparedStep cfg) c s s') :
    s'.swapped = 0 ∨ Multiset.card s.ran < Multiset.card s'.ran := by
  obtain ⟨t, u, hbegin, ht, hsteps, hend⟩ := hround.goes
  have hstart : RoundOnTrack cfg (Multiset.card s.ran) t := by
    obtain ⟨fault, hstep, -⟩ := hbegin
    cases hstep with
    | step hstep =>
        obtain ⟨-, rfl⟩ := eq_of_begins hround.begins hstep ht
        exact ⟨le_rfl, fun _ => ⟨herr, .inr fun k _ => .inl ⟨c, 0, rfl, Nat.zero_le _⟩⟩⟩
    | _ => exact absurd ht (not_inRound hround.begins)
  have hcounted := counted_of_sparedRun (hrun.tail hbegin)
  have hinvariant : Lifecycle u ∧ Counted u ∧ InRound c u ∧
      RoundOnTrack cfg (Multiset.card s.ran) u := by
    clear hend
    induction hsteps with
    | refl => exact ⟨hcounted.1, hcounted.2, ht, hstart⟩
    | tail _ hstep ih =>
        obtain ⟨hlife, hcount, hin, htrack⟩ := ih
        exact ⟨lifecycle_sparedStep hlife hstep.1, counted_sparedStep hlife hcount hstep.1,
          hstep.2, roundOnTrack_step hlife hin hstep.2 htrack hstep.1⟩
  obtain ⟨hlife, hcount, hin, htrack⟩ := hinvariant
  obtain ⟨hc, hwait, hswapped, hran⟩ := eq_of_ends hin hround.ends hend
  rw [hswapped, hran]
  by_cases hm : Multiset.card u.ran = Multiset.card s.ran
  · obtain ⟨hgood, honTrack⟩ := htrack.onTrack hm
    have hz : u.incomplete = 0 := by
      by_contra hne
      exact hwait ⟨hgood, hlife.running_of_inRound hin, Nat.pos_of_ne_zero hne⟩
    exact .inl (swapped_eq_zero_of_onTrack hlife hcount hc hz honTrack)
  · exact .inr (lt_of_le_of_ne htrack.le (Ne.symm hm))

/-- One thread, of which one job fits into the queue. Somebody else enqueues at any time. -/
def oneThreadProps : QPTPoolProps where
  queueLimit := 1
  stealNum := 0
  stealDenom := 1
  stopOnError := true
  outside _ := true

theorem SparedStep.of_step {s s' : QPTPool n} (h : Step cfg s s') (hkeep : KeepsDrains s s') :
    SparedStep cfg s s' :=
  ⟨none, .step h, nofun, nofun, hkeep⟩

/-- A job is being run and another one is in the swap file when the round begins. -/
theorem drain_round_progresses_oneThread : ∃ s s' : QPTPool 1,
    Relation.ReflTransGen (SparedStep oneThreadProps) (init 1) s ∧ s.swapped ≠ 0 ∧
      Round (SparedStep oneThreadProps) .wait s s' ∧
      (s'.swapped = 0 ∨ Multiset.card s.ran < Multiset.card s'.ran) := by
  have h0 : Relation.ReflTransGen (SparedStep oneThreadProps) (init 1) (init 1) := .refl
  have h1 := h0.tail (.of_step (Step.start rfl) (by decide))
  have h2 := h1.tail (.of_step (Step.call .wait rfl rfl) (by decide))
  have h3 := h2.tail (.of_step (Step.waitedMem rfl (by decide)) (by decide))
  have h4 := h3.tail (.of_step (Step.enqueue (j := 0) (.inl rfl) (by decide)) (by decide))
  have h5 := h4.tail (.of_step (Step.enqueueSwappable (j := 0) (.inl rfl) (by decide)) (by decide))
  have h6 := h5.tail (.of_step (Step.look (i := 0) rfl) (by decide))
  have h7 := h6.tail (.of_step (Step.goOn (i := 0) rfl (by decide) (by decide)) (by decide))
  have h8 := h7.tail (.of_step (Step.claim (i := 0) rfl) (by decide))
  have h9 := h8.tail (.of_step (Step.pop (i := 0) rfl rfl) (by decide))
  obtain ⟨s, s', hrun, hswapped, herr, hround⟩ : ∃ s s' : QPTPool 1,
      Relation.ReflTransGen (SparedStep oneThreadProps) (init 1) s ∧ s.swapped ≠ 0 ∧
        ¬s.StoppedOnError oneThreadProps ∧ Round (SparedStep oneThreadProps) .wait s s' :=
    ⟨_, _, h9, by decide, by decide, by rfl, by rfl, _, _,
      .of_step (Step.readSwapped rfl (by decide)) (by decide), by rfl,
      ((Relation.ReflTransGen.refl.tail
        ⟨.of_step (Step.fail (i := 0) rfl rfl) (by decide), by rfl⟩).tail
        ⟨.of_step (Step.enqueueDrainRejected (k := 0) rfl (by decide)) (by decide), by rfl⟩).tail
        ⟨.of_step (Step.drainsEnqueued rfl) (by decide), by rfl⟩,
      .of_step (Step.waitedMem rfl (by decide)) (by decide)⟩
  exact ⟨s, s', hrun, hswapped, hround, drain_round_progresses hrun herr hround⟩

/-- A job fails while another one is in the swap file. The drain is not enqueued, nothing is waited
for, and the loop is where it was. -/
theorem not_drain_round_progresses : ∃ s : QPTPool 1,
    Relation.ReflTransGen (AnyStep oneThreadProps) (init 1) s ∧ s.swapped ≠ 0 ∧
      Round (AnyStep oneThreadProps) .stop s s := by
  have h0 : Relation.ReflTransGen (AnyStep oneThreadProps) (init 1) (init 1) := .refl
  have h1 := h0.tail ⟨none, .step (Step.start rfl)⟩
  have h2 := h1.tail ⟨none, .step (Step.enqueue (j := 0) (.inl rfl) (by decide))⟩
  have h3 := h2.tail ⟨none, .step (Step.enqueueSwappable (j := 0) (.inl rfl) (by decide))⟩
  have h4 := h3.tail ⟨none, .step (Step.call .stop rfl rfl)⟩
  have h5 := h4.tail ⟨none, .step (Step.look (i := 0) rfl)⟩
  have h6 := h5.tail ⟨none, .step (Step.goOn (i := 0) rfl (by decide) (by decide))⟩
  have h7 := h6.tail ⟨none, .step (Step.claim (i := 0) rfl)⟩
  have h8 := h7.tail ⟨none, .step (Step.pop (i := 0) rfl rfl)⟩
  have h9 := h8.tail ⟨none, .step (Step.fail (i := 0) rfl rfl)⟩
  have h10 := h9.tail ⟨none, .step (Step.waitedMem rfl (by decide))⟩
  exact ⟨_, h10, by decide, by rfl, by rfl, _, _,
    ⟨none, .step (Step.readSwapped rfl (by decide))⟩, by rfl,
    (Relation.ReflTransGen.refl.tail
      ⟨⟨none, .step (Step.enqueueDrainRejected (k := 0) rfl (by decide))⟩, by rfl⟩).tail
      ⟨⟨none, .step (Step.drainsEnqueued rfl)⟩, by rfl⟩,
    ⟨none, .step (Step.waitedMem rfl (by decide))⟩⟩

end Main

end Gufi.QPTPool
