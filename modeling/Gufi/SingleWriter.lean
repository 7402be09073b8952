import Gufi.RollupCopyTasks
import Mathlib.Data.Nat.ModEq

/-!
# One writer for every staging database

Two counters go around independently: the database index of the subtree and the pool's
round-robin index. The invariant keeps the position of every task, from which both follow, and
for every subtree the number of tasks that are still to be counted.
-/

namespace Gufi

open Custody

variable {n : ℕ}

/-- The task is one of the subtree's enqueued ones and has the database of its position. -/
structure Subtree.Task (sub : Subtree) (x : QueueItem CopyTask) : Prop where
  first : sub.first ≤ x.id
  last : x.id < sub.first + sub.enqueued
  tdb : x.work.tdb = (x.id - sub.first) % sub.threadsUsed

namespace CopyState

section Count

variable (s : CopyState n)

/-- The items of a thread whose copy has not been counted yet. -/
def pendingAt (t : Fin n) : List (QueueItem CopyTask) :=
  if s.stage t = .copying ∨ s.stage t = .copied then (s.pool.workers t).unfinished
  else (s.pool.workers t).queued

/-- The item a thread merges for. -/
def mergingAt (t : Fin n) : List (QueueItem CopyTask) :=
  if s.stage t = .merging then (s.pool.workers t).running.toList else []

def pending (k : ℕ) : ℕ :=
  (held s.pendingAt).countP (fun x => x.work.subtree = k)

def merging (k : ℕ) : ℕ :=
  (held s.mergingAt).countP (fun x => x.work.subtree = k)

theorem countP_add_singleton {m m' : Multiset (QueueItem CopyTask)} {x : QueueItem CopyTask}
    (h : m' = m + ([x] : List (QueueItem CopyTask))) (k : ℕ) :
    m'.countP (fun x => x.work.subtree = k) =
      m.countP (fun x => x.work.subtree = k) + if x.work.subtree = k then 1 else 0 := by
  rw [h, Multiset.countP_add, Multiset.coe_singleton]
  rw [← Multiset.cons_zero, Multiset.countP_cons, Multiset.countP_zero, zero_add]

end Count

/-- The counters of a started subtree. -/
structure SubtreeInv (s : CopyState n) (k : ℕ) : Prop where
  pos : 0 < (s.subtrees k).subdirCount
  threadsUsed : (s.subtrees k).threadsUsed = min (s.subtrees k).subdirCount n
  enqueued : (s.subtrees k).enqueued ≤ (s.subtrees k).subdirCount
  dbOffset : (s.subtrees k).dbOffset = (s.subtrees k).enqueued % (s.subtrees k).threadsUsed
  last : k + 1 = s.started →
    (s.subtrees k).first + (s.subtrees k).enqueued = s.pool.enqueued.length
  remaining : (s.subtrees k).remaining + (s.subtrees k).enqueued =
    (s.subtrees k).subdirCount + s.pending k
  merged : s.merging k + (s.subtrees k).merged = if (s.subtrees k).remaining = 0 then 1 else 0

/-- What holds throughout the copying, for a main thread that first pushes to `q`. -/
structure Inv (ctx q : Fin n) (s : CopyState n) : Prop where
  next : (s.pool.workers ctx).nextQueue.val = (q.val + s.pool.enqueued.length) % n
  place : ∀ t, ∀ x ∈ (s.pool.workers t).items, t.val = (q.val + x.id) % n
  task : ∀ t, ∀ x ∈ (s.pool.workers t).items, x.work.subtree < s.started ∧
    (s.subtrees x.work.subtree).Task x
  idle : ∀ t, (s.pool.workers t).running = none → s.stage t = .copying
  subtree : ∀ k < s.started, SubtreeInv s k

variable {ctx q : Fin n} {s : CopyState n}

theorem Inv.internal (hs : Inv ctx q s) {pool : Pool n CopyTask}
    (h : Pool.InternalStep (copyConfig n) s.pool pool) : Inv ctx q { s with pool := pool } := by
  have hsame := h.sameItems rfl
  have henq : pool.enqueued = s.pool.enqueued := h.inCustody_eq.2
  have hpending : ∀ k, pending { s with pool := pool } k = s.pending k := by
    intro k
    refine congrArg _ (held_eq_of_perm fun t => ?_)
    rcases (hsame t).running with hr | ⟨-, hq⟩
    · simp only [pendingAt, hs.idle t hr, true_or, if_true]
      exact (hsame t).unfinished
    · simp only [pendingAt]
      split_ifs
      · exact (hsame t).unfinished
      · exact hq
  have hmerging : ∀ k, merging { s with pool := pool } k = s.merging k := by
    intro k
    refine congrArg _ (held_eq_of_perm fun t => ?_)
    rcases (hsame t).running with hr | ⟨hr, -⟩
    · simp [mergingAt, hs.idle t hr]
    · simp only [mergingAt, hr]
      exact List.Perm.refl _
  refine ⟨?_, ?_, ?_, ?_, ?_⟩
  · simp only [(hsame ctx).nextQueue, henq]
    exact hs.next
  · intro t x hx
    exact hs.place t x (((hsame t).mem_items x).mp hx)
  · intro t x hx
    exact hs.task t x (((hsame t).mem_items x).mp hx)
  · intro t ht
    rcases (hsame t).running with hr | ⟨hr, -⟩
    · exact hs.idle t hr
    · exact hs.idle t (hr.symm.trans ht)
  · intro k hk
    have hsub := hs.subtree k hk
    refine ⟨hsub.pos, hsub.threadsUsed, hsub.enqueued, hsub.dbOffset, ?_, ?_, ?_⟩
    · intro hlast
      simp only [henq]
      exact hsub.last hlast
    · rw [hpending]
      exact hsub.remaining
    · rw [hmerging]
      exact hsub.merged

theorem mem_items_of_mem_pendingAt {t : Fin n} {x : QueueItem CopyTask}
    (h : x ∈ s.pendingAt t) : x ∈ (s.pool.workers t).items := by
  rw [pendingAt] at h
  split_ifs at h
  · exact Worker.mem_items_iff_unfinished.mpr (Or.inl h)
  · simp only [Worker.queued, List.mem_append] at h
    simp only [Worker.items, List.mem_append]
    tauto

theorem mem_items_of_mem_mergingAt {t : Fin n} {x : QueueItem CopyTask}
    (h : x ∈ s.mergingAt t) : x ∈ (s.pool.workers t).items := by
  rw [mergingAt] at h
  split_ifs at h
  · simp only [Worker.items, List.mem_append]
    exact Or.inr (Or.inr (Or.inl h))
  · cases h

theorem Inv.begin (hs : Inv ctx q s) {count : ℕ} {todo : List ℕ} (hc : 0 < count) :
    Inv ctx q (s.begin count todo) := by
  have hne : ∀ {k}, k < s.started → (s.begin count todo).subtrees k = s.subtrees k :=
    fun hk => Function.update_of_ne (Nat.ne_of_lt hk) _ _
  have hnew : (s.begin count todo).subtrees s.started =
      { subdirCount := count
        threadsUsed := min count n
        remaining := count
        first := s.pool.enqueued.length } := Function.update_self _ _ _
  have hitems : ∀ t, ∀ x ∈ (s.pool.workers t).items, x.work.subtree ≠ s.started :=
    fun t x hx => Nat.ne_of_lt (hs.task t x hx).1
  have hpending : (s.begin count todo).pending s.started = 0 :=
    countP_held_eq_zero fun t x hx => hitems t x (mem_items_of_mem_pendingAt (s := s) hx)
  have hmerging : (s.begin count todo).merging s.started = 0 :=
    countP_held_eq_zero fun t x hx => hitems t x (mem_items_of_mem_mergingAt (s := s) hx)
  refine ⟨hs.next, hs.place, ?_, hs.idle, ?_⟩
  · intro t x hx
    obtain ⟨hlt, htask⟩ := hs.task t x hx
    rw [hne hlt]
    exact ⟨Nat.lt_succ_of_lt hlt, htask⟩
  · intro k hk
    rcases Nat.lt_succ_iff_lt_or_eq.mp hk with hlt | rfl
    · have hsub := hs.subtree k hlt
      refine ⟨?_, ?_, ?_, ?_, ?_, ?_, ?_⟩ <;> rw [hne hlt]
      · exact hsub.pos
      · exact hsub.threadsUsed
      · exact hsub.enqueued
      · exact hsub.dbOffset
      · intro hlast
        exact absurd (Nat.succ.inj hlast) (Nat.ne_of_lt hlt)
      · exact hsub.remaining
      · exact hsub.merged
    · refine ⟨?_, ?_, ?_, ?_, ?_, ?_, ?_⟩ <;> rw [hnew]
      · exact hc
      · exact Nat.zero_le _
      · exact (Nat.zero_mod _).symm
      · exact fun _ => rfl
      · rw [hpending]
      · rw [hmerging]
        exact (if_neg (Nat.ne_of_gt hc)).symm

theorem qptpoolRoundRobin_val (id prev : Fin n) (work : CopyTask) :
    (qptpoolRoundRobin id prev work).val = (prev.val + 1) % n := by
  unfold qptpoolRoundRobin
  split_ifs with h
  · rw [h, Nat.mod_self]
  · have hlt := prev.isLt
    exact (Nat.mod_eq_of_lt (by omega)).symm

/-- The task the main thread enqueues next. -/
def nextCopy (s : CopyState n) (k : ℕ) : QueueItem CopyTask :=
  ⟨s.pool.enqueued.length, ⟨k, (s.subtrees k).dbOffset⟩⟩

theorem workers_enqueueCopy (s : CopyState n) (ctx : Fin n) (k : ℕ) (t : Fin n) :
    (s.enqueueCopy ctx k).pool.workers t =
      { s.pool.workers t with
        nextQueue := if t = ctx then
            qptpoolRoundRobin ctx (s.pool.workers ctx).nextQueue (s.nextCopy k).work
          else (s.pool.workers t).nextQueue
        waiting := if t = (s.pool.workers ctx).nextQueue then
            sllPushBack (s.pool.workers t).waiting (s.nextCopy k)
          else (s.pool.workers t).waiting } :=
  Pool.workers_enqueue (copyConfig n) ctx t s.pool (s.nextCopy k).work

theorem mem_items_enqueueCopy {k : ℕ} {t : Fin n} {x : QueueItem CopyTask} :
    x ∈ ((s.enqueueCopy ctx k).pool.workers t).items ↔ x ∈ (s.pool.workers t).items ∨
      (t = (s.pool.workers ctx).nextQueue ∧ x = s.nextCopy k) := by
  rw [workers_enqueueCopy]
  by_cases ht : t = (s.pool.workers ctx).nextQueue
  · simp only [Worker.items, sllPushBack, ht, if_true, List.mem_append, List.mem_singleton,
      true_and]
    tauto
  · simp [Worker.items, ht]

theorem held_pendingAt_enqueueCopy (k : ℕ) :
    held (s.enqueueCopy ctx k).pendingAt =
      held s.pendingAt + ([s.nextCopy k] : List (QueueItem CopyTask)) := by
  refine held_eq_add (i := (s.pool.workers ctx).nextQueue) (fun t ht => ?_) ?_
  · simp only [pendingAt, workers_enqueueCopy, if_neg ht]
    rfl
  · simp only [pendingAt, workers_enqueueCopy, if_true, sllPushBack, Worker.unfinished,
      Worker.queued]
    change List.Perm (if s.stage _ = .copying ∨ s.stage _ = .copied then _ else _) _
    split_ifs
    · rw [List.append_assoc, List.append_assoc]
      exact List.Perm.append_left _ (List.perm_append_comm.trans (by simp))
    · rw [List.append_assoc, List.append_assoc]
      exact List.Perm.append_left _ List.perm_append_comm

theorem mergingAt_enqueueCopy (k : ℕ) : (s.enqueueCopy ctx k).mergingAt = s.mergingAt := by
  funext t
  simp only [mergingAt, workers_enqueueCopy]
  rfl

theorem Inv.enqueueCopy (hs : Inv ctx q s) {k : ℕ} (hk : k + 1 = s.started)
    (hlt : (s.subtrees k).enqueued < (s.subtrees k).subdirCount) :
    Inv ctx q (s.enqueueCopy ctx k) := by
  have hself : (s.enqueueCopy ctx k).subtrees k = { s.subtrees k with
      dbOffset := ((s.subtrees k).dbOffset + 1) % (s.subtrees k).threadsUsed
      enqueued := (s.subtrees k).enqueued + 1 } := Function.update_self _ _ _
  have hne : ∀ {j}, j ≠ k → (s.enqueueCopy ctx k).subtrees j = s.subtrees j :=
    fun hj => Function.update_of_ne hj _ _
  have henq : (s.enqueueCopy ctx k).pool.enqueued.length = s.pool.enqueued.length + 1 := by
    change (s.pool.enqueued ++ [_]).length = _
    simp
  have hsubk := hs.subtree k (by omega)
  refine ⟨?_, ?_, ?_, ?_, ?_⟩
  · rw [workers_enqueueCopy, henq]
    simp only [if_true, qptpoolRoundRobin_val, hs.next, Nat.mod_add_mod, add_assoc]
  · intro t x hx
    rcases mem_items_enqueueCopy.mp hx with hx | ⟨rfl, rfl⟩
    · exact hs.place t x hx
    · exact hs.next
  · intro t x hx
    rcases mem_items_enqueueCopy.mp hx with hx | ⟨rfl, rfl⟩
    · obtain ⟨hstarted, htask⟩ := hs.task t x hx
      refine ⟨hstarted, ?_⟩
      by_cases hxk : x.work.subtree = k
      · rw [hxk] at htask ⊢
        rw [hself]
        exact ⟨htask.first, Nat.lt_succ_of_lt htask.last, htask.tdb⟩
      · rw [hne hxk]
        exact htask
    · have hlast := hsubk.last hk
      refine ⟨(by omega : k < s.started), ?_⟩
      change ((s.enqueueCopy ctx k).subtrees k).Task _
      rw [hself]
      refine ⟨?_, ?_, ?_⟩
      · change (s.subtrees k).first ≤ s.pool.enqueued.length
        omega
      · change s.pool.enqueued.length < (s.subtrees k).first + ((s.subtrees k).enqueued + 1)
        omega
      · change (s.subtrees k).dbOffset =
          (s.pool.enqueued.length - (s.subtrees k).first) % (s.subtrees k).threadsUsed
        rw [hsubk.dbOffset, ← hlast, Nat.add_sub_cancel_left]
  · intro t ht
    rw [workers_enqueueCopy] at ht
    exact hs.idle t ht
  · intro j hj
    have hpending : (s.enqueueCopy ctx k).pending j = s.pending j + if k = j then 1 else 0 :=
      countP_add_singleton (held_pendingAt_enqueueCopy k) j
    have hmerging : (s.enqueueCopy ctx k).merging j = s.merging j := by
      rw [merging, mergingAt_enqueueCopy]
      rfl
    by_cases hjk : j = k
    · subst hjk
      refine ⟨?_, ?_, ?_, ?_, ?_, ?_, ?_⟩ <;> rw [hself]
      · exact hsubk.pos
      · exact hsubk.threadsUsed
      · exact hlt
      · change ((s.subtrees j).dbOffset + 1) % (s.subtrees j).threadsUsed = _
        rw [hsubk.dbOffset, Nat.mod_add_mod]
      · intro hlast
        have hlast := hsubk.last hlast
        rw [henq]
        change (s.subtrees j).first + ((s.subtrees j).enqueued + 1) = _
        omega
      · rw [hpending, if_pos rfl]
        have hrem := hsubk.remaining
        change (s.subtrees j).remaining + ((s.subtrees j).enqueued + 1) =
          (s.subtrees j).subdirCount + _
        omega
      · rw [hmerging]
        exact hsubk.merged
    · have hsub := hs.subtree j hj
      refine ⟨?_, ?_, ?_, ?_, ?_, ?_, ?_⟩ <;> rw [hne hjk]
      · exact hsub.pos
      · exact hsub.threadsUsed
      · exact hsub.enqueued
      · exact hsub.dbOffset
      · intro hlast
        exact absurd (Nat.succ.inj (hlast.trans hk.symm)) hjk
      · rw [hpending, if_neg (Ne.symm hjk)]
        exact hsub.remaining
      · rw [hmerging]
        exact hsub.merged

theorem ne_of_running {t i : Fin n} {x : QueueItem CopyTask}
    (hr : (s.pool.workers t).running = some x) (hi : (s.pool.workers i).running = none) :
    i ≠ t := by
  rintro rfl
  rw [hr] at hi
  cases hi

theorem Inv.copied (hs : Inv ctx q s) {t : Fin n} {x : QueueItem CopyTask}
    (hr : (s.pool.workers t).running = some x) (hst : s.stage t = .copying) :
    Inv ctx q (s.setStage t .copied) := by
  have hpending : (s.setStage t .copied).pendingAt = s.pendingAt := by
    funext i
    by_cases hi : i = t
    · subst hi
      simp [pendingAt, setStage, hst]
    · simp [pendingAt, setStage, Function.update_of_ne hi]
  have hmerging : (s.setStage t .copied).mergingAt = s.mergingAt := by
    funext i
    by_cases hi : i = t
    · subst hi
      simp [mergingAt, setStage, hst]
    · simp [mergingAt, setStage, Function.update_of_ne hi]
  refine ⟨hs.next, hs.place, hs.task, ?_, ?_⟩
  · intro i hi
    have hne : i ≠ t := ne_of_running hr hi
    change Function.update s.stage t _ i = _
    rw [Function.update_of_ne hne]
    exact hs.idle i hi
  · intro k hk
    have hsub := hs.subtree k hk
    refine ⟨hsub.pos, hsub.threadsUsed, hsub.enqueued, hsub.dbOffset, hsub.last, ?_, ?_⟩
    · rw [pending, hpending]
      exact hsub.remaining
    · rw [merging, hmerging]
      exact hsub.merged

/-- The running item moves from the pending to the merging ones, or to neither. -/
theorem held_pendingAt_decrement {t : Fin n} {x : QueueItem CopyTask}
    (hr : (s.pool.workers t).running = some x) (hst : s.stage t = .copied) (k : ℕ) :
    held s.pendingAt = held (s.decrement t k).pendingAt + ([x] : List (QueueItem CopyTask)) := by
  refine held_eq_add (i := t) (fun i hi => ?_) ?_
  · simp [pendingAt, decrement, setStage, modifySubtree, Function.update_of_ne hi]
  · have hstage :
        ¬((s.decrement t k).stage t = .copying ∨ (s.decrement t k).stage t = .copied) := by
      simp only [decrement, setStage, Function.update_self]
      split_ifs <;> simp
    rw [pendingAt, pendingAt, if_pos (Or.inr hst), if_neg hstage]
    change (s.pool.workers t).unfinished.Perm ((s.pool.workers t).queued ++ [x])
    simp only [Worker.unfinished, Worker.queued, hr, Option.toList_some, List.append_assoc]
    exact List.Perm.refl _

theorem held_mergingAt_decrement {t : Fin n} {x : QueueItem CopyTask}
    (hr : (s.pool.workers t).running = some x) (hst : s.stage t = .copied) (k : ℕ) :
    held (s.decrement t k).mergingAt = held s.mergingAt +
      ((if (s.subtrees k).remaining - 1 = 0 then [x] else []) : List (QueueItem CopyTask)) := by
  refine held_eq_add (i := t) (fun i hi => ?_) ?_
  · simp [mergingAt, decrement, setStage, modifySubtree, Function.update_of_ne hi]
  · simp only [mergingAt, decrement, setStage, modifySubtree, Function.update_self, hst]
    split_ifs <;> simp_all

theorem Inv.decrement (hs : Inv ctx q s) {t : Fin n} {x : QueueItem CopyTask}
    (hr : (s.pool.workers t).running = some x) (hst : s.stage t = .copied) :
    Inv ctx q (s.decrement t x.work.subtree) := by
  set k := x.work.subtree with hk
  have hself : (s.decrement t k).subtrees k =
      { s.subtrees k with remaining := (s.subtrees k).remaining - 1 } := Function.update_self _ _ _
  have hne : ∀ {j}, j ≠ k → (s.decrement t k).subtrees j = s.subtrees j :=
    fun hj => Function.update_of_ne hj _ _
  refine ⟨hs.next, hs.place, ?_, ?_, ?_⟩
  · intro i y hy
    obtain ⟨hstarted, htask⟩ := hs.task i y hy
    refine ⟨hstarted, ?_⟩
    by_cases hyk : y.work.subtree = k
    · rw [hyk] at htask ⊢
      rw [hself]
      exact ⟨htask.first, htask.last, htask.tdb⟩
    · rw [hne hyk]
      exact htask
  · intro i hi
    have hit : i ≠ t := ne_of_running hr hi
    change Function.update s.stage t _ i = _
    rw [Function.update_of_ne hit]
    exact hs.idle i hi
  · intro j hj
    have hsub := hs.subtree j hj
    have hpending : s.pending j = (s.decrement t k).pending j + if k = j then 1 else 0 :=
      countP_add_singleton (held_pendingAt_decrement hr hst k) j
    have hmerging : (s.decrement t k).merging j =
        s.merging j + if k = j ∧ (s.subtrees k).remaining - 1 = 0 then 1 else 0 := by
      have hheld := held_mergingAt_decrement hr hst k
      by_cases hzero : (s.subtrees k).remaining - 1 = 0
      · rw [if_pos hzero] at hheld
        simp only [hzero, and_true]
        exact countP_add_singleton hheld j
      · rw [if_neg hzero] at hheld
        simp [merging, hheld, hzero]
    by_cases hjk : j = k
    · subst hjk
      have hrem := hsub.remaining
      have hmerged := hsub.merged
      have henq := hsub.enqueued
      rw [if_pos rfl] at hpending
      refine ⟨?_, ?_, ?_, ?_, ?_, ?_, ?_⟩ <;> rw [hself]
      · exact hsub.pos
      · exact hsub.threadsUsed
      · exact henq
      · exact hsub.dbOffset
      · exact hsub.last
      · change (s.subtrees k).remaining - 1 + (s.subtrees k).enqueued =
          (s.subtrees k).subdirCount + (s.decrement t k).pending k
        omega
      · rw [if_neg (by omega)] at hmerged
        rw [hmerging]
        change s.merging k + _ + (s.subtrees k).merged =
          if (s.subtrees k).remaining - 1 = 0 then 1 else 0
        split_ifs with h₁ h₂ h₂
        · omega
        · exact absurd h₁.2 h₂
        · exact absurd ⟨rfl, h₂⟩ h₁
        · omega
    · rw [if_neg (Ne.symm hjk)] at hpending
      rw [if_neg (fun h => hjk h.1.symm)] at hmerging
      refine ⟨?_, ?_, ?_, ?_, ?_, ?_, ?_⟩ <;> rw [hne hjk]
      · exact hsub.pos
      · exact hsub.threadsUsed
      · exact hsub.enqueued
      · exact hsub.dbOffset
      · exact hsub.last
      · rw [← Nat.add_zero ((s.decrement t k).pending j), ← hpending]
        exact hsub.remaining
      · rw [hmerging]
        exact hsub.merged

theorem Inv.merge (hs : Inv ctx q s) {t : Fin n} {x : QueueItem CopyTask}
    (hr : (s.pool.workers t).running = some x) (hst : s.stage t = .merging) :
    Inv ctx q (s.merge t x.work.subtree) := by
  set k := x.work.subtree with hk
  have hself : (s.merge t k).subtrees k =
      { s.subtrees k with merged := (s.subtrees k).merged + 1 } := Function.update_self _ _ _
  have hne : ∀ {j}, j ≠ k → (s.merge t k).subtrees j = s.subtrees j :=
    fun hj => Function.update_of_ne hj _ _
  have hpending : (s.merge t k).pendingAt = s.pendingAt := by
    funext i
    by_cases hi : i = t
    · subst hi
      simp [pendingAt, CopyState.merge, setStage, modifySubtree, hst]
    · simp [pendingAt, CopyState.merge, setStage, modifySubtree, Function.update_of_ne hi]
  have hheld : held s.mergingAt =
      held (s.merge t k).mergingAt + ([x] : List (QueueItem CopyTask)) := by
    refine held_eq_add (i := t) (fun i hi => ?_) ?_
    · simp [mergingAt, CopyState.merge, setStage, modifySubtree, Function.update_of_ne hi]
    · simp [mergingAt, CopyState.merge, setStage, modifySubtree, hst, hr]
  refine ⟨hs.next, hs.place, ?_, ?_, ?_⟩
  · intro i y hy
    obtain ⟨hstarted, htask⟩ := hs.task i y hy
    refine ⟨hstarted, ?_⟩
    by_cases hyk : y.work.subtree = k
    · rw [hyk] at htask ⊢
      rw [hself]
      exact ⟨htask.first, htask.last, htask.tdb⟩
    · rw [hne hyk]
      exact htask
  · intro i hi
    have hit : i ≠ t := ne_of_running hr hi
    change Function.update s.stage t _ i = _
    rw [Function.update_of_ne hit]
    exact hs.idle i hi
  · intro j hj
    have hsub := hs.subtree j hj
    have hmerging : s.merging j = (s.merge t k).merging j + if k = j then 1 else 0 :=
      countP_add_singleton hheld j
    by_cases hjk : j = k
    · subst hjk
      rw [if_pos rfl] at hmerging
      refine ⟨?_, ?_, ?_, ?_, ?_, ?_, ?_⟩ <;> rw [hself]
      · exact hsub.pos
      · exact hsub.threadsUsed
      · exact hsub.enqueued
      · exact hsub.dbOffset
      · exact hsub.last
      · rw [pending, hpending]
        exact hsub.remaining
      · rw [← hsub.merged, hmerging]
        change (s.merge t k).merging k + ((s.subtrees k).merged + 1) = _
        omega
    · rw [if_neg (Ne.symm hjk), Nat.add_zero] at hmerging
      refine ⟨?_, ?_, ?_, ?_, ?_, ?_, ?_⟩ <;> rw [hne hjk]
      · exact hsub.pos
      · exact hsub.threadsUsed
      · exact hsub.enqueued
      · exact hsub.dbOffset
      · exact hsub.last
      · rw [pending, hpending]
        exact hsub.remaining
      · rw [← hmerging]
        exact hsub.merged

theorem Inv.finish (hs : Inv ctx q s) {t : Fin n} {x : QueueItem CopyTask}
    (hr : (s.pool.workers t).running = some x) (hst : s.stage t = .done) :
    Inv ctx q (s.finish t x) := by
  have hitems : ∀ i y, y ∈ ((s.pool.finish t x).workers i).items ↔
      y ∈ (s.pool.workers i).items := by
    intro i y
    rw [Pool.finish, Pool.modify_workers_apply]
    split_ifs with hi
    · subst hi
      simp only [Worker.items, hr, Option.toList_some, Option.toList_none, List.mem_append,
        List.mem_singleton, List.not_mem_nil, false_or]
      tauto
    · rfl
  have hpending : (s.finish t x).pendingAt = s.pendingAt := by
    funext i
    by_cases hi : i = t
    · subst hi
      simp [pendingAt, CopyState.finish, setStage, Pool.finish, hst, Worker.unfinished,
        Worker.queued]
    · simp [pendingAt, CopyState.finish, setStage, Pool.finish, Pool.modify_workers_of_ne hi,
        Function.update_of_ne hi]
  have hmerging : (s.finish t x).mergingAt = s.mergingAt := by
    funext i
    by_cases hi : i = t
    · subst hi
      simp [mergingAt, CopyState.finish, setStage, hst]
    · simp [mergingAt, CopyState.finish, setStage, Pool.finish, Pool.modify_workers_of_ne hi,
        Function.update_of_ne hi]
  refine ⟨?_, ?_, ?_, ?_, ?_⟩
  · change ((s.pool.finish t x).workers ctx).nextQueue.val = _
    rw [Pool.finish, Pool.modify_workers_apply]
    split_ifs <;> exact hs.next
  · intro i y hy
    exact hs.place i y ((hitems i y).mp hy)
  · intro i y hy
    exact hs.task i y ((hitems i y).mp hy)
  · intro i hi
    change Function.update s.stage t _ i = _
    by_cases hit : i = t
    · rw [hit, Function.update_self]
    · rw [Function.update_of_ne hit]
      change ((s.pool.finish t x).workers i).running = none at hi
      rw [Pool.finish, Pool.modify_workers_of_ne hit] at hi
      exact hs.idle i hi
  · intro k hk
    have hsub := hs.subtree k hk
    refine ⟨hsub.pos, hsub.threadsUsed, hsub.enqueued, hsub.dbOffset, hsub.last, ?_, ?_⟩
    · rw [pending, hpending]
      exact hsub.remaining
    · rw [merging, hmerging]
      exact hsub.merged

theorem Inv.step (hs : Inv ctx q s) {s' : CopyState n} (h : Step ctx s s') : Inv ctx q s' := by
  cases h with
  | internal h => exact hs.internal h
  | skip => exact ⟨hs.next, hs.place, hs.task, hs.idle, fun k hk =>
      ⟨(hs.subtree k hk).pos, (hs.subtree k hk).threadsUsed, (hs.subtree k hk).enqueued,
        (hs.subtree k hk).dbOffset, (hs.subtree k hk).last, (hs.subtree k hk).remaining,
        (hs.subtree k hk).merged⟩⟩
  | begin _ hc => exact hs.begin hc
  | enqueue hk hlt => exact hs.enqueueCopy hk hlt
  | copied hr hst => exact hs.copied hr hst
  | decrement hr hst => exact hs.decrement hr hst
  | merge hr hst => exact hs.merge hr hst
  | finish hr hst => exact hs.finish hr hst

theorem Reaches.inv {pool : Pool n CopyTask} {counts : List ℕ} (hpool : pool.Quiet)
    (h : Reaches ctx pool counts s) : Inv ctx (pool.workers ctx).nextQueue s := by
  induction h with
  | refl =>
      have hnone : ∀ t, ∀ x, x ∉ (pool.workers t).items := by
        intro t x
        rw [hpool.items t]
        exact List.not_mem_nil
      refine ⟨?_, fun t x hx => absurd hx (hnone t x), fun t x hx => absurd hx (hnone t x),
        fun _ _ => rfl, fun k hk => absurd hk (Nat.not_lt_zero k)⟩
      change _ = (_ + pool.enqueued.length) % n
      rw [hpool.enqueued, List.length_nil, Nat.add_zero]
      exact (Nat.mod_eq_of_lt (Fin.isLt _)).symm
  | tail _ hstep ih => exact ih.step hstep

section SingleWriter

/-- The thread writes to the staging database: it copies into it, or it merges all of the
subtree's. -/
def Writes (s : CopyState n) (t : Fin n) (tdb : CopyTask) : Prop :=
  ∃ x, (s.pool.workers t).running = some x ∧
    ((s.stage t = .copying ∧ x.work = tdb) ∨
      (s.stage t = .merging ∧ x.work.subtree = tdb.subtree))

/-- Database index and round-robin index stay in step: with as many databases as threads both go
around together, and with fewer every task has its own. -/
theorem Inv.home_eq (hs : Inv ctx q s) {t t' : Fin n} {x x' : QueueItem CopyTask}
    (hx : x ∈ (s.pool.workers t).items) (hx' : x' ∈ (s.pool.workers t').items)
    (hw : x.work = x'.work) : t = t' := by
  have hplace := hs.place t x hx
  have hplace' := hs.place t' x' hx'
  obtain ⟨hstarted, htask⟩ := hs.task t x hx
  obtain ⟨-, htask'⟩ := hs.task t' x' hx'
  rw [← hw] at htask'
  have hsub := hs.subtree _ hstarted
  set sub := s.subtrees x.work.subtree
  have htdb : (x.id - sub.first) % sub.threadsUsed = (x'.id - sub.first) % sub.threadsUsed :=
    htask.tdb.symm.trans ((congrArg CopyTask.tdb hw).trans htask'.tdb)
  have hfirst := htask.first
  have hfirst' := htask'.first
  have hid : (q.val + x.id) % n = (q.val + x'.id) % n := by
    rcases Nat.lt_or_ge sub.subdirCount n with hlt | hge
    · have hlast := htask.last
      have hlast' := htask'.last
      have henq : sub.enqueued ≤ sub.subdirCount := hsub.enqueued
      rw [hsub.threadsUsed, Nat.min_eq_left hlt.le, Nat.mod_eq_of_lt (by omega),
        Nat.mod_eq_of_lt (by omega)] at htdb
      have heq : x.id = x'.id := by omega
      rw [heq]
    · rw [hsub.threadsUsed, Nat.min_eq_right hge] at htdb
      have hmod : Nat.ModEq n x.id x'.id := by
        have hadd := Nat.ModEq.add_left sub.first (show Nat.ModEq n (x.id - sub.first) _ from htdb)
        rwa [Nat.add_sub_cancel' hfirst, Nat.add_sub_cancel' hfirst'] at hadd
      exact hmod.add_left q.val
  exact Fin.ext (hplace.trans (hid.trans hplace'.symm))

theorem mem_items_of_running {t : Fin n} {x : QueueItem CopyTask}
    (hr : (s.pool.workers t).running = some x) : x ∈ (s.pool.workers t).items := by
  simp [Worker.items, hr]

theorem mem_pendingAt_of_copying {t : Fin n} {x : QueueItem CopyTask}
    (hr : (s.pool.workers t).running = some x) (hst : s.stage t = .copying) :
    x ∈ s.pendingAt t := by
  simp [pendingAt, hst, Worker.unfinished, hr]

theorem mem_mergingAt {t : Fin n} {x : QueueItem CopyTask}
    (hr : (s.pool.workers t).running = some x) (hst : s.stage t = .merging) :
    x ∈ s.mergingAt t := by
  simp [mergingAt, hst, hr]

/-- While a task merges, all copies of its subtree have been enqueued and have ended. -/
theorem Inv.ended_of_merging (hs : Inv ctx q s) {t : Fin n} {x : QueueItem CopyTask}
    (hr : (s.pool.workers t).running = some x) (hst : s.stage t = .merging) :
    (s.subtrees x.work.subtree).remaining = 0 ∧
      (s.subtrees x.work.subtree).enqueued = (s.subtrees x.work.subtree).subdirCount ∧
      s.pending x.work.subtree = 0 := by
  have hsub := hs.subtree _ (hs.task t x (mem_items_of_running hr)).1
  have hpos : 0 < s.merging x.work.subtree := countP_held_pos (mem_mergingAt hr hst) rfl
  have hmerged := hsub.merged
  have hrem := hsub.remaining
  have henq := hsub.enqueued
  have hzero : (s.subtrees x.work.subtree).remaining = 0 := by
    by_contra hne
    rw [if_neg hne] at hmerged
    omega
  refine ⟨hzero, ?_, ?_⟩ <;> omega

theorem Inv.eq_of_writes (hs : Inv ctx q s) {t t' : Fin n} {tdb : CopyTask}
    (h : s.Writes t tdb) (h' : s.Writes t' tdb) : t = t' := by
  obtain ⟨x, hr, hx⟩ := h
  obtain ⟨x', hr', hx'⟩ := h'
  rcases hx with ⟨hst, hwork⟩ | ⟨hst, hsubtree⟩
  · rcases hx' with ⟨hst', hwork'⟩ | ⟨hst', hsubtree'⟩
    · exact hs.home_eq (mem_items_of_running hr) (mem_items_of_running hr')
        (hwork.trans hwork'.symm)
    · have hended := (hs.ended_of_merging hr' hst').2.2
      refine absurd ?_ (not_of_countP_held_eq_zero hended (mem_pendingAt_of_copying hr hst))
      rw [hwork, hsubtree']
  · rcases hx' with ⟨hst', hwork'⟩ | ⟨hst', hsubtree'⟩
    · have hended := (hs.ended_of_merging hr hst).2.2
      refine absurd ?_ (not_of_countP_held_eq_zero hended (mem_pendingAt_of_copying hr' hst'))
      rw [hwork', hsubtree]
    · by_contra hne
      have hsub := hs.subtree _ (hs.task t x (mem_items_of_running hr)).1
      have htwo : 2 ≤ s.merging x.work.subtree :=
        two_le_countP_held hne (mem_mergingAt hr hst) rfl (mem_mergingAt hr' hst')
          (hsubtree'.trans hsubtree.symm)
      have hmerged := hsub.merged
      split_ifs at hmerged <;> omega

/-- Tasks with the same staging database of the same subtree are with the same thread, so no two
threads write to it at the same time. A subtree is merged by one task, once its `remaining` is
zero, and then all its tasks have been enqueued and none has a copy left to do. -/
theorem reaches_single_writer {pool : Pool n CopyTask} {counts : List ℕ} (hpool : pool.Quiet)
    (h : Reaches ctx pool counts s) :
    (∀ t t' x x', x ∈ (s.pool.workers t).items → x' ∈ (s.pool.workers t').items →
      x.work = x'.work → t = t') ∧
    (∀ t t' tdb, s.Writes t tdb → s.Writes t' tdb → t = t') ∧
    (∀ k < s.started, s.merging k + (s.subtrees k).merged =
      if (s.subtrees k).remaining = 0 then 1 else 0) ∧
    (∀ t x, (s.pool.workers t).running = some x → s.stage t = .merging →
      (s.subtrees x.work.subtree).enqueued = (s.subtrees x.work.subtree).subdirCount ∧
      ∀ t', ∀ y ∈ s.pendingAt t', y.work.subtree ≠ x.work.subtree) := by
  have hs := h.inv hpool
  refine ⟨?_, ?_, ?_, ?_⟩
  · intro t t' x x' hx hx' hw
    exact hs.home_eq hx hx' hw
  · intro t t' tdb ht ht'
    exact hs.eq_of_writes ht ht'
  · intro k hk
    exact (hs.subtree k hk).merged
  · intro t x hr hst
    obtain ⟨-, henq, hpending⟩ := hs.ended_of_merging hr hst
    exact ⟨henq, fun t' y hy => not_of_countP_held_eq_zero hpending hy⟩

/-- Two threads and a subtree with three directories, whose first and third task share a
staging database. -/
def threeCopies : CopyState 2 :=
  ((((init (Pool.init 2 CopyTask).start [3]).begin 3 []).enqueueCopy ⟨0, Nat.two_pos⟩
    0).enqueueCopy ⟨0, Nat.two_pos⟩ 0).enqueueCopy ⟨0, Nat.two_pos⟩ 0

theorem reaches_single_writer_of_three :
    ¬∃ t t' x x', x ∈ (threeCopies.pool.workers t).items ∧
      x' ∈ (threeCopies.pool.workers t').items ∧ x.work = x'.work ∧ t ≠ t' := by
  have hquiet : (Pool.init 2 CopyTask).start.Quiet := ⟨fun _ => rfl, rfl⟩
  have hbegin : Reaches 0 (Pool.init 2 CopyTask).start [3]
      ((init (Pool.init 2 CopyTask).start [3]).begin 3 []) :=
    .single (.begin rfl (by decide) (fun k hk => absurd hk (Nat.not_lt_zero k)) (by decide))
  have hthree : Reaches 0 (Pool.init 2 CopyTask).start [3] threeCopies :=
    ((hbegin.tail (.enqueue (k := 0) rfl (by decide))).tail
      (.enqueue (k := 0) rfl (by decide))).tail (.enqueue (k := 0) rfl (by decide))
  rintro ⟨t, t', x, x', hx, hx', hwork, hne⟩
  exact hne ((reaches_single_writer hquiet hthree).1 t t' x x' hx hx' hwork)

end SingleWriter

end CopyState

end Gufi
