import Gufi.QueuePerThreadPool

/-!
# The copy tasks of gufi_rollup_topdown

The main thread enqueues one `copy_to_top` task for every directory below the top of a subtree,
and gives the tasks of a subtree its staging databases in turn. The pool gives the tasks of all
subtrees its threads in turn. Nothing locks a staging database, so two tasks with the same one
must not run at the same time. Every task decrements the subtree's `remaining` when its copy has
ended, and the one that reaches zero merges the staging databases.

The model starts when all subtrees have been found: nothing is queued, and only the main thread
enqueues from then on. The history of the pool starts there too.
-/

namespace Gufi

open Custody

/-- A `copy_to_top` work item: the subtree it belongs to and the staging database it writes to. -/
structure CopyTask where
  subtree : ℕ
  tdb : ℕ
deriving DecidableEq

/-- What the work item a thread runs has done. -/
inductive Stage
  | copying
  | copied
  | merging
  | done
deriving DecidableEq

/-- A subtree with the position of its first task among all tasks, the number of its tasks that
have been enqueued, and the number of merges that have ended. -/
structure Subtree where
  subdirCount : ℕ := 0
  threadsUsed : ℕ := 0
  remaining : ℕ := 0
  dbOffset : ℕ := 0
  enqueued : ℕ := 0
  first : ℕ := 0
  merged : ℕ := 0

structure CopyState (n : ℕ) where
  pool : Pool n CopyTask
  stage : Fin n → Stage
  subtrees : ℕ → Subtree
  started : ℕ
  todo : List ℕ
  activeDbs : ℕ

variable {n : ℕ}

/-- `QPTPool_set_steal(pool, 0, 0)` and the default placement. -/
def copyConfig (n : ℕ) : PoolConfig n CopyTask where
  stealNum := 0
  stealDenom := 0
  next := qptpoolRoundRobin

namespace CopyState

/-- Nothing is queued or running, and the subtrees have the given numbers of directories. -/
def init (pool : Pool n CopyTask) (counts : List ℕ) : CopyState n where
  pool := pool
  stage := fun _ => .copying
  subtrees := fun _ => {}
  started := 0
  todo := counts
  activeDbs := 0

section Functions

variable (s : CopyState n)

/-- `enqueue_rollup_copy` up to its loop, for a subtree with directories. -/
def begin (count : ℕ) (todo : List ℕ) : CopyState n :=
  { s with
    subtrees := Function.update s.subtrees s.started
      { subdirCount := count
        threadsUsed := min count n
        remaining := count
        first := s.pool.enqueued.length }
    started := s.started + 1
    todo := todo
    activeDbs := s.activeDbs + min count n }

def modifySubtree (k : ℕ) (f : Subtree → Subtree) : CopyState n :=
  { s with subtrees := Function.update s.subtrees k (f (s.subtrees k)) }

/-- One round of the loop, through the context of the main thread. -/
def enqueueCopy (ctx : Fin n) (k : ℕ) : CopyState n :=
  let sub := s.subtrees k
  { s.modifySubtree k fun sub =>
      { sub with
        dbOffset := (sub.dbOffset + 1) % sub.threadsUsed
        enqueued := sub.enqueued + 1 } with
    pool := s.pool.enqueue (copyConfig n) ctx ⟨k, sub.dbOffset⟩ }

def setStage (t : Fin n) (stage : Stage) : CopyState n :=
  { s with stage := Function.update s.stage t stage }

/-- `--(*subtree->remaining)`, after which the task merges or has nothing left to do. -/
def decrement (t : Fin n) (k : ℕ) : CopyState n :=
  let remaining := (s.subtrees k).remaining - 1
  (s.modifySubtree k fun sub => { sub with remaining := remaining }).setStage t
    (if remaining = 0 then .merging else .done)

/-- `rollup_merge`. -/
def merge (t : Fin n) (k : ℕ) : CopyState n :=
  { (s.modifySubtree k fun sub => { sub with merged := sub.merged + 1 }).setStage t .done with
    activeDbs := s.activeDbs - (s.subtrees k).threadsUsed }

def finish (t : Fin n) (x : QueueItem CopyTask) : CopyState n :=
  { s.setStage t .copying with pool := s.pool.finish t x }

end Functions

/-- The steps of the main thread, the pool and the running tasks. The main thread skips a subtree
without directories, and one whose top cannot be opened or cleaned. -/
inductive Step (ctx : Fin n) : CopyState n → CopyState n → Prop
  | internal {s pool} (h : Pool.InternalStep (copyConfig n) s.pool pool) :
      Step ctx s { s with pool := pool }
  | skip {s count todo} (ht : s.todo = count :: todo)
      (hall : ∀ k < s.started, (s.subtrees k).enqueued = (s.subtrees k).subdirCount) :
      Step ctx s { s with todo := todo }
  | begin {s count todo} (ht : s.todo = count :: todo) (hc : 0 < count)
      (hall : ∀ k < s.started, (s.subtrees k).enqueued = (s.subtrees k).subdirCount)
      (hact : s.activeDbs < n) : Step ctx s (s.begin count todo)
  | enqueue {s k} (hk : k + 1 = s.started)
      (hlt : (s.subtrees k).enqueued < (s.subtrees k).subdirCount) :
      Step ctx s (s.enqueueCopy ctx k)
  | copied {s t x} (hr : (s.pool.workers t).running = some x) (hs : s.stage t = .copying) :
      Step ctx s (s.setStage t .copied)
  | decrement {s t x} (hr : (s.pool.workers t).running = some x) (hs : s.stage t = .copied) :
      Step ctx s (s.decrement t x.work.subtree)
  | merge {s t x} (hr : (s.pool.workers t).running = some x) (hs : s.stage t = .merging) :
      Step ctx s (s.merge t x.work.subtree)
  | finish {s t x} (hr : (s.pool.workers t).running = some x) (hs : s.stage t = .done) :
      Step ctx s (s.finish t x)

def Reaches (ctx : Fin n) (pool : Pool n CopyTask) (counts : List ℕ) : CopyState n → Prop :=
  Relation.ReflTransGen (Step ctx) (init pool counts)

end CopyState

/-- A pool after `QPTPool_wait`. -/
structure Pool.Quiet (pool : Pool n CopyTask) : Prop where
  items : ∀ t, (pool.workers t).items = []
  enqueued : pool.enqueued = []

section NoStealing

variable {α : Type*}

/-- Queued or running. -/
def Worker.unfinished (w : Worker n α) : List (QueueItem α) :=
  w.waiting ++ (w.claimed ++ w.running.toList)

def Worker.queued (w : Worker n α) : List (QueueItem α) :=
  w.waiting ++ w.claimed

/-- Without stealing a step of the pool leaves every item with its thread. -/
structure SameItems (w w' : Worker n α) : Prop where
  nextQueue : w'.nextQueue = w.nextQueue
  ran : w'.ran = w.ran
  unfinished : w'.unfinished.Perm w.unfinished
  running : w.running = none ∨ (w'.running = w.running ∧ w'.queued.Perm w.queued)

theorem SameItems.of_eq {w w' : Worker n α} (hn : w'.nextQueue = w.nextQueue)
    (hran : w'.ran = w.ran) (hw : w'.waiting = w.waiting) (hc : w'.claimed = w.claimed)
    (hr : w'.running = w.running) : SameItems w w' := by
  refine ⟨hn, hran, ?_, Or.inr ⟨hr, ?_⟩⟩
  · rw [Worker.unfinished, Worker.unfinished, hw, hc, hr]
  · rw [Worker.queued, Worker.queued, hw, hc]

theorem sameItems_modify {s : Pool n α} {t : Fin n} {f : Worker n α → Worker n α}
    (h : SameItems (s.workers t) (f (s.workers t))) (i : Fin n) :
    SameItems (s.workers i) ((s.modify t f).workers i) := by
  by_cases hi : i = t
  · subst hi
    rwa [Pool.modify_workers_self]
  · rw [Pool.modify_workers_of_ne hi]
    exact .of_eq rfl rfl rfl rfl rfl

theorem Pool.InternalStep.sameItems {cfg : PoolConfig n α} (hcfg : cfg.stealNum = 0)
    {s s' : Pool n α} (h : InternalStep cfg s s') (i : Fin n) :
    SameItems (s.workers i) (s'.workers i) := by
  cases h with
  | start => exact .of_eq rfl rfl rfl rfl rfl
  | look => exact sameItems_modify (.of_eq rfl rfl rfl rfl rfl) i
  | stealNothing => exact sameItems_modify (.of_eq rfl rfl rfl rfl rfl) i
  | steal _ hmay => exact absurd hcfg hmay.1
  | wake => exact sameItems_modify (.of_eq rfl rfl rfl rfl rfl) i
  | exit => exact sameItems_modify (.of_eq rfl rfl rfl rfl rfl) i
  | claim =>
      refine sameItems_modify ⟨rfl, rfl, ?_, Or.inr ⟨rfl, ?_⟩⟩ i
      · simp only [Worker.unfinished, sllMoveAppend, sllMoveAppendFirst, List.take_length,
          List.drop_length, List.nil_append, List.append_assoc]
        exact List.perm_append_comm_assoc _ _ _
      · simp only [Worker.queued, sllMoveAppend, sllMoveAppendFirst, List.take_length,
          List.drop_length, List.nil_append]
        exact List.perm_append_comm
  | pop _ hr hc =>
      refine sameItems_modify ⟨rfl, rfl, ?_, Or.inl hr⟩ i
      simp only [Worker.unfinished, hr, hc, Option.toList_some, Option.toList_none,
        List.append_nil]
      exact List.Perm.append_left _ (List.perm_append_singleton _ _)
  | @decrement t =>
      exact sameItems_modify (s := s) (t := t)
        (f := fun w => { w with phase := .looking, workCount := 0 }) (.of_eq rfl rfl rfl rfl rfl) i
  | stop => exact .of_eq rfl rfl rfl rfl rfl

theorem Worker.mem_items_iff_unfinished {w : Worker n α} {x : QueueItem α} :
    x ∈ w.items ↔ x ∈ w.unfinished ∨ x ∈ w.ran := by
  simp [Worker.items, Worker.unfinished, or_assoc]

theorem SameItems.mem_items {w w' : Worker n α} (h : SameItems w w')
    (x : QueueItem α) : x ∈ w'.items ↔ x ∈ w.items := by
  rw [Worker.mem_items_iff_unfinished, Worker.mem_items_iff_unfinished, h.ran, h.unfinished.mem_iff]

end NoStealing

end Gufi
