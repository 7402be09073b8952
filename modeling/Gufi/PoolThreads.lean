import Gufi.QueuePerThreadPool

/-!
# The threads of the pool and the swap files

This is `QPTPool` with its condition variables, its swap files and its errors. The steps are the
critical sections. A thread holds its own mutex from the moment it looks for work until it has
claimed some or sleeps, and a step that takes the mutex of such a thread cannot happen; the pool's
mutex and the mutex of a claimed queue are held within one step only. An enqueue is one step under
the mutex of the target. Any thread may be the target, whatever function selects it, and
`pthread_cond_wait` may return without a signal.

The thread that calls `QPTPool_wait` and `QPTPool_stop` is the caller. Other threads outside the
pool may enqueue at any time or only while the caller is in neither call; `outside` says which.
Swap files are read, written, opened and rewound without failing, and a record is the job it
was written for.
-/

namespace Gufi

inductive PoolWork
  | job (id : ℕ)
  | waitSwappedOnce
deriving DecidableEq

/-- Where a thread is in `worker_function` and in the functions that it calls. -/
inductive ThreadPhase
  | unstarted
  | looking
  | checking
  | dozing
  | blocked (signaled : Bool)
  | claiming
  | processing
  | running (id : ℕ)
  | preparing
  | draining (count : ℕ)
  | decrementing
  | exiting (next : ℕ)
  | exited
deriving DecidableEq

/-- The calls that wait for the pool. -/
inductive PoolCall
  | wait
  | stop
deriving DecidableEq

/-- Where the caller is in `QPTPool_wait` and `QPTPool_stop_threads`. -/
inductive CallerPhase
  | idle
  | waitMem (call : PoolCall)
  | checkSwapped (call : PoolCall)
  | enqueueDrains (call : PoolCall) (next : ℕ)
  | stopping
  | broadcasting (next : ℕ)
  | joining
  | stopped
deriving DecidableEq

def CallerPhase.call : CallerPhase → Option PoolCall
  | .idle => none
  | .waitMem c | .checkSwapped c | .enqueueDrains c _ => some c
  | .stopping | .broadcasting _ | .joining | .stopped => some .stop

/-- The context of a thread. `write` has the records of the swap file that is written to, `read`
the ones not read yet of the file that is drained. -/
structure ThreadData where
  waiting : List PoolWork
  claimed : List PoolWork
  write : List ℕ
  read : List ℕ
  phase : ThreadPhase
  workCount : ℕ
deriving DecidableEq

/-- A pool of `n` threads. The jobs are numbered in the order they were enqueued in. `ran` has the
jobs whose function has returned, and `settled` counts the jobs that had been enqueued when
`QPTPool_wait_mem` last returned to the caller. -/
structure QPTPool (n : ℕ) where
  data : Fin n → ThreadData
  incomplete : ℕ
  swapped : ℕ
  errored : Bool
  state : PoolState
  caller : CallerPhase
  enqueued : ℕ
  ran : Multiset ℕ
  settled : ℕ

structure QPTPoolProps where
  queueLimit : ℕ
  stealNum : ℕ
  stealDenom : ℕ
  stopOnError : Bool
  outside : Option PoolCall → Bool

namespace ThreadData

def init : ThreadData where
  waiting := []
  claimed := []
  write := []
  read := []
  phase := .unstarted
  workCount := 0

/-- The thread holds its own mutex. -/
def Locked (w : ThreadData) : Prop :=
  w.phase = .checking ∨ w.phase = .dozing ∨ w.phase = .claiming

instance (w : ThreadData) : Decidable w.Locked :=
  inferInstanceAs (Decidable (_ ∨ _))

/-- `pthread_cond_broadcast` on the thread's condition variable. -/
def signal (w : ThreadData) : ThreadData :=
  match w.phase with
  | .blocked _ => { w with phase := .blocked true }
  | _ => w

def push (w : ThreadData) (x : PoolWork) : ThreadData :=
  { w with waiting := sllPushBack w.waiting x }.signal

def writeSwap (w : ThreadData) (id : ℕ) : ThreadData :=
  { w with write := w.write ++ [id] }.signal

def queue (w : ThreadData) : QueueKind → List PoolWork
  | .waiting => w.waiting
  | .claimed => w.claimed

def setQueue (w : ThreadData) (l : List PoolWork) : QueueKind → ThreadData
  | .waiting => { w with waiting := l }
  | .claimed => { w with claimed := l }

def claimWork (w : ThreadData) : ThreadData :=
  let moved := sllMoveAppend w.claimed w.waiting
  { w with claimed := moved.1, waiting := moved.2, phase := .processing }

/-- Where a thread is after it has popped an item. -/
def begun : PoolWork → ThreadPhase
  | .job id => .running id
  | .waitSwappedOnce => .preparing

/-- `swap_read_prep` on a file with records. -/
def swapReadPrep (w : ThreadData) : ThreadData :=
  { w with read := w.write, write := [], phase := .draining 0 }

/-- The work function has returned, and the batch goes on. -/
def finish (w : ThreadData) : ThreadData :=
  { w with phase := .processing, workCount := w.workCount + 1 }

end ThreadData

namespace QPTPool

variable {n : ℕ}

def init (n : ℕ) : QPTPool n where
  data _ := ThreadData.init
  incomplete := 0
  swapped := 0
  errored := false
  state := .initialized
  caller := .idle
  enqueued := 0
  ran := 0
  settled := 0

section Functions

variable (cfg : QPTPoolProps) (s : QPTPool n) (i j : Fin n)

def set (w : ThreadData) : QPTPool n :=
  { s with data := Function.update s.data i w }

def setPhase (p : ThreadPhase) : QPTPool n :=
  s.set i { s.data i with phase := p }

def signal : QPTPool n :=
  s.set i (s.data i).signal

/-- An error has occurred and the pool stops on errors. -/
def StoppedOnError : Prop :=
  cfg.stopOnError = true ∧ s.errored = true

instance : Decidable (s.StoppedOnError cfg) :=
  inferInstanceAs (Decidable (_ ∧ _))

/-- The condition of the loop of `wait_for_work`. -/
def WaitForWork : Prop :=
  ¬s.StoppedOnError cfg ∧
    ((s.state = .running ∧
        ¬((s.incomplete ≠ 0 ∨ s.swapped ≠ 0) ∧
          ((s.data i).claimed ≠ [] ∨ (s.data i).waiting ≠ []))) ∨
      (s.state = .stopping ∧
        ((s.incomplete ≠ 0 ∨ s.swapped ≠ 0) ∧
          ((s.data i).claimed = [] ∧ (s.data i).waiting = []))))

instance : Decidable (s.WaitForWork cfg i) :=
  inferInstanceAs (Decidable (_ ∧ _))

/-- The condition under which a thread leaves the loop of `worker_function`. -/
def LeaveLoop : Prop :=
  s.StoppedOnError cfg ∨ (s.state = .stopping ∧ s.incomplete = 0 ∧ s.swapped = 0)

instance : Decidable (s.LeaveLoop cfg) :=
  inferInstanceAs (Decidable (_ ∨ _))

/-- The condition of the loop of `QPTPool_wait_mem`. -/
def WaitMem : Prop :=
  ¬s.StoppedOnError cfg ∧ s.state = .running ∧ 0 < s.incomplete

instance : Decidable (s.WaitMem cfg) :=
  inferInstanceAs (Decidable (_ ∧ _))

/-- The guard of `maybe_steal_work`. -/
def MaySteal : Prop :=
  cfg.stealNum ≠ 0 ∧ 2 ≤ n ∧ (s.data i).waiting = [] ∧ s.incomplete ≠ 0

instance : Decidable (s.MaySteal cfg i) :=
  inferInstanceAs (Decidable (_ ∧ _))

/-- The number of items to take, computed in 64 bits. -/
def take (size : ℕ) : ℕ :=
  max (size * cfg.stealNum % 2 ^ 64 / cfg.stealDenom) 1

/-- Take items from the front of a queue of thread `j`. -/
def steal (q : QueueKind) : QPTPool n :=
  let moved := sllMoveAppendFirst (s.data i).waiting ((s.data j).queue q)
    (take cfg ((s.data j).queue q).length)
  (s.set i { s.data i with waiting := moved.1 }).set j ((s.data j).setQueue moved.2 q)

/-- `QPTPool_enqueue` and `QPTPool_enqueue_here` after they have chosen the target. -/
def enqueueWait (x : PoolWork) : QPTPool n :=
  { s.set j ((s.data j).push x) with incomplete := s.incomplete + 1 }

/-- `QPTPool_enqueue_swappable` after it has chosen the target. -/
def enqueueSwappable (id : ℕ) : QPTPool n :=
  if cfg.queueLimit = 0 ∨ (s.data j).waiting.length < cfg.queueLimit then
    s.enqueueWait j (.job id)
  else
    { s.set j ((s.data j).writeSwap id) with swapped := s.swapped + 1 }

/-- Someone is there who may enqueue a new job: a thread outside the pool or a running job. -/
def MayEnqueue : Prop :=
  cfg.outside s.caller.call = true ∨ ∃ i id, (s.data i).phase = .running id

end Functions

/-- The critical sections of the threads, of the caller, and of whoever enqueues. -/
inductive Step (cfg : QPTPoolProps) : QPTPool n → QPTPool n → Prop
  | start {s} (hs : s.state = .initialized) :
      Step cfg s
        { s with data := fun i => { s.data i with phase := .looking }, state := .running }
  | enqueue {s j} (hmay : s.MayEnqueue cfg) (hlock : ¬(s.data j).Locked) :
      Step cfg s { s.enqueueWait j (.job s.enqueued) with enqueued := s.enqueued + 1 }
  | enqueueSwappable {s j} (hmay : s.MayEnqueue cfg) (hlock : ¬(s.data j).Locked) :
      Step cfg s { s.enqueueSwappable cfg j s.enqueued with enqueued := s.enqueued + 1 }
  | look {s i} (hp : (s.data i).phase = .looking) : Step cfg s (s.setPhase i .checking)
  | steal {s i j q} (hp : (s.data i).phase = .looking) (hmay : s.MaySteal cfg i)
      (hdenom : cfg.stealDenom ≠ 0) (hne : i ≠ j) (hlock : q = .waiting → ¬(s.data j).Locked)
      (hq : (s.data j).queue q ≠ []) :
      Step cfg s ((s.steal cfg i j q).setPhase i .checking)
  | doze {s i} (hp : (s.data i).phase = .checking) (hwait : s.WaitForWork cfg i) :
      Step cfg s (s.setPhase i .dozing)
  | leave {s i} (hp : (s.data i).phase = .checking) (hwait : ¬s.WaitForWork cfg i)
      (hleave : s.LeaveLoop cfg) : Step cfg s (s.setPhase i (.exiting 0))
  | goOn {s i} (hp : (s.data i).phase = .checking) (hwait : ¬s.WaitForWork cfg i)
      (hleave : ¬s.LeaveLoop cfg) : Step cfg s (s.setPhase i .claiming)
  | sleep {s i} (hp : (s.data i).phase = .dozing) : Step cfg s (s.setPhase i (.blocked false))
  | wake {s i b} (hp : (s.data i).phase = .blocked b) : Step cfg s (s.setPhase i .checking)
  | claim {s i} (hp : (s.data i).phase = .claiming) : Step cfg s (s.set i (s.data i).claimWork)
  | pop {s i x xs} (hp : (s.data i).phase = .processing) (hc : (s.data i).claimed = x :: xs) :
      Step cfg s (s.set i { s.data i with claimed := xs, phase := ThreadData.begun x })
  | popNothing {s i} (hp : (s.data i).phase = .processing) (hc : (s.data i).claimed = []) :
      Step cfg s (s.setPhase i .decrementing)
  | finish {s i id} (hp : (s.data i).phase = .running id) :
      Step cfg s { s.set i (s.data i).finish with ran := id ::ₘ s.ran }
  | fail {s i id} (hp : (s.data i).phase = .running id) (hstop : cfg.stopOnError = true) :
      Step cfg s
        { s.set i { (s.data i).finish with phase := .decrementing } with
          ran := id ::ₘ s.ran
          errored := true }
  | prepareNothing {s i} (hp : (s.data i).phase = .preparing) (hw : (s.data i).write = []) :
      Step cfg s (s.set i (s.data i).finish)
  | prepare {s i} (hp : (s.data i).phase = .preparing) (hw : (s.data i).write ≠ []) :
      Step cfg s (s.set i (s.data i).swapReadPrep)
  | drain {s i j c id rest} (hp : (s.data i).phase = .draining c)
      (hr : (s.data i).read = id :: rest) (hlock : ¬(s.data j).Locked) :
      Step cfg s
        ((s.set i { s.data i with read := rest, phase := .draining (c + 1) }).enqueueSwappable
          cfg j id)
  | drainRejected {s i c id rest} (hp : (s.data i).phase = .draining c)
      (hr : (s.data i).read = id :: rest) (herr : s.StoppedOnError cfg) :
      Step cfg s (s.set i { s.data i with read := rest, phase := .draining (c + 1) })
  | drained {s i c} (hp : (s.data i).phase = .draining c) (hr : (s.data i).read = []) :
      Step cfg s { s.set i (s.data i).finish with swapped := s.swapped - c }
  | decrement {s i} (hp : (s.data i).phase = .decrementing) :
      Step cfg s
        { s.set i { s.data i with phase := .looking, workCount := 0 } with
          incomplete := s.incomplete - (s.data i).workCount }
  | rouse {s i} {k : Fin n} (hp : (s.data i).phase = .exiting k) (hlock : ¬(s.data k).Locked) :
      Step cfg s ((s.signal k).setPhase i (.exiting (k + 1)))
  | exit {s i} (hp : (s.data i).phase = .exiting n) : Step cfg s (s.setPhase i .exited)
  | call {s} (c : PoolCall) (hc : s.caller = .idle) (hs : s.state = .running) :
      Step cfg s { s with caller := .waitMem c }
  | waitedMem {s c} (hc : s.caller = .waitMem c) (hwait : ¬s.WaitMem cfg) :
      Step cfg s { s with caller := .checkSwapped c, settled := s.enqueued }
  | waited {s} (hc : s.caller = .checkSwapped .wait) (hs : s.swapped = 0) :
      Step cfg s { s with caller := .idle }
  | waitedToStop {s} (hc : s.caller = .checkSwapped .stop) (hs : s.swapped = 0) :
      Step cfg s { s with caller := .stopping }
  | readSwapped {s c} (hc : s.caller = .checkSwapped c) (hs : s.swapped ≠ 0) :
      Step cfg s { s with caller := .enqueueDrains c 0 }
  | enqueueDrain {s c} {k : Fin n} (hc : s.caller = .enqueueDrains c k)
      (hlock : ¬(s.data k).Locked) :
      Step cfg s { s.enqueueWait k .waitSwappedOnce with caller := .enqueueDrains c (k + 1) }
  | enqueueDrainRejected {s c} {k : Fin n} (hc : s.caller = .enqueueDrains c k)
      (herr : s.StoppedOnError cfg) :
      Step cfg s { s with caller := .enqueueDrains c (k + 1) }
  | drainsEnqueued {s c} (hc : s.caller = .enqueueDrains c n) :
      Step cfg s { s with caller := .waitMem c }
  | stop {s} (hc : s.caller = .stopping) :
      Step cfg s { s with caller := .broadcasting 0, state := .stopping }
  | broadcast {s} {k : Fin n} (hc : s.caller = .broadcasting k) (hlock : ¬(s.data k).Locked) :
      Step cfg s { s.signal k with caller := .broadcasting (k + 1) }
  | broadcasted {s} (hc : s.caller = .broadcasting n) : Step cfg s { s with caller := .joining }
  | join {s} (hc : s.caller = .joining) (hexit : ∀ i, (s.data i).phase = .exited) :
      Step cfg s { s with caller := .stopped }

/-- States of a pool of `n` threads. -/
def Reaches (cfg : QPTPoolProps) : QPTPool n → Prop :=
  Relation.ReflTransGen (Step cfg) (init n)

end QPTPool

end Gufi
