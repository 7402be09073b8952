import Gufi.Index
import Mathlib.Data.Multiset.Count
import Mathlib.Logic.Relation

/-!
# The parallel bottom-up walk

`parallel_bottomup` walks directory trees with tasks on the thread pool. `descend_to_bottom` runs
the user's descend function on a directory and enqueues itself on the subdirectories.
`ascend_to_top` counts down the subdirectories that are outstanding. The last one runs the user's
ascend function and passes the call on to the parent.

The steps are the parts of the two functions that other threads can come between: the part of
`descend_to_bottom` before the user's function, the user's function, each of the enqueues made
under the mutex of the reference counter, the critical section of `ascend_to_top`, and its user's
function. Any task of the pool may take the next step, as if there were a thread for each of them.
-/

namespace Gufi

section DecidableEq

mutual

def DirTree.decEq : (s t : DirTree) → Decidable (s = t)
  | .node p cs, .node q ds =>
      match (inferInstance : Decidable (p = q)), DirTree.decEqList cs ds with
      | isTrue hp, isTrue hcs => isTrue (by rw [hp, hcs])
      | isFalse hp, _ => isFalse fun h => hp (DirTree.node.inj h).1
      | _, isFalse hcs => isFalse fun h => hcs (DirTree.node.inj h).2

def DirTree.decEqList : (cs ds : List DirTree) → Decidable (cs = ds)
  | [], [] => isTrue rfl
  | [], _ :: _ => isFalse nofun
  | _ :: _, [] => isFalse nofun
  | c :: cs, d :: ds =>
      match DirTree.decEq c d, DirTree.decEqList cs ds with
      | isTrue hc, isTrue hcs => isTrue (by rw [hc, hcs])
      | isFalse hc, _ => isFalse fun h => hc (List.cons.inj h).1
      | _, isFalse hcs => isFalse fun h => hcs (List.cons.inj h).2

end

instance : DecidableEq DirTree := DirTree.decEq

end DecidableEq

/-- `struct BottomUp`: a directory, its level, and the directories above it up to the root. -/
structure BottomUp where
  dir : DirTree
  level : ℕ
  above : List DirTree
deriving DecidableEq

namespace BottomUp

def child (b : BottomUp) (c : DirTree) : BottomUp where
  dir := c
  level := b.level + 1
  above := b.dir :: b.above

def parent (b : BottomUp) : Option BottomUp :=
  match b.above with
  | [] => none
  | d :: above => some { dir := d, level := b.level - 1, above := above }

/-- The list that `descend_to_bottom` fills from `readdir`. -/
def subdirs (b : BottomUp) : List BottomUp :=
  b.dir.subdirs.map b.child

def root (level : ℕ) (t : DirTree) : BottomUp where
  dir := t
  level := level
  above := []

@[simp]
theorem parent_child (b : BottomUp) (c : DirTree) : (b.child c).parent = some b := rfl

@[simp]
theorem parent_root (level : ℕ) (t : DirTree) : (root level t).parent = none := rfl

theorem child_injective (b : BottomUp) : Function.Injective b.child := by
  intro c d h
  exact congrArg dir h

end BottomUp

/-- The arguments of the walk, and what the file system and the user's descend function answer
for each directory. The second part of an answer of `descend` is what it leaves in `keep_going`. -/
structure UserArgs where
  minLevel : ℕ
  maxLevel : ℕ
  opens : BottomUp → Bool
  stats : BottomUp → Bool
  descend : BottomUp → ℤ × Bool

namespace UserArgs

variable (ua : UserArgs)

/-- The descend function is not called outside the levels. -/
def descendRc (b : BottomUp) : ℤ × Bool :=
  if ua.minLevel ≤ b.level ∧ b.level ≤ ua.maxLevel then ua.descend b else (0, true)

/-- The subdirectories are enqueued after a descend function that succeeded. -/
def GoesDown (b : BottomUp) : Prop :=
  (ua.descendRc b).2 ∧ b.level + 1 ≤ ua.maxLevel ∧ b.subdirs ≠ []

instance (b : BottomUp) : Decidable (ua.GoesDown b) :=
  inferInstanceAs (Decidable (_ ∧ _))

end UserArgs

/-- A queued call of `descend_to_bottom` or `ascend_to_top`, or one in progress. -/
inductive BottomUpTask
  | descend (b : BottomUp)
  | descending (b : BottomUp)
  | enqueueing (b : BottomUp) (rest : List BottomUp)
  | ascend (b : BottomUp)
  | ascending (b : BottomUp)
deriving DecidableEq

/-- The tasks, the reference counters, and which directories have been descended and ascended,
could not be opened, or were dropped. -/
structure BottomUpWalk where
  tasks : Multiset BottomUpTask
  remaining : BottomUp → ℕ
  descended : Multiset BottomUp
  ascended : Multiset BottomUp
  unopened : Multiset BottomUp
  dropped : Multiset BottomUp

namespace BottomUpWalk

/-- `parallel_bottomup_enqueue` for each root. -/
def start (level : ℕ) (roots : List DirTree) : BottomUpWalk where
  tasks := (roots.map fun t => BottomUpTask.descend (BottomUp.root level t) : List BottomUpTask)
  remaining _ := 0
  descended := 0
  ascended := 0
  unopened := 0
  dropped := 0

/-- What a call hands to the parent, if there is one. -/
def ascendParent (b : BottomUp) : Multiset BottomUpTask :=
  match b.parent with
  | none => 0
  | some p => {BottomUpTask.ascend p}

/-- The mutex of the directory's reference counter is held. -/
def Locked (s : BottomUpWalk) (b : BottomUp) : Prop :=
  ∃ rest, BottomUpTask.enqueueing b rest ∈ s.tasks

/-- One of the tasks takes its next step. -/
inductive Step (ua : UserArgs) : BottomUpWalk → BottomUpWalk → Prop
  | openFails (s : BottomUpWalk) (b : BottomUp) (rest : Multiset BottomUpTask)
      (htask : s.tasks = .descend b ::ₘ rest) (hopen : ua.opens b = false) :
      Step ua s { s with tasks := ascendParent b + rest, unopened := b ::ₘ s.unopened }
  | statFails (s : BottomUpWalk) (b : BottomUp) (rest : Multiset BottomUpTask)
      (htask : s.tasks = .descend b ::ₘ rest) (hopen : ua.opens b = true)
      (hstat : ua.stats b = false) :
      Step ua s { s with tasks := rest, dropped := b ::ₘ s.dropped }
  | descend (s : BottomUpWalk) (b : BottomUp) (rest : Multiset BottomUpTask)
      (htask : s.tasks = .descend b ::ₘ rest) (hopen : ua.opens b = true)
      (hstat : ua.stats b = true) :
      Step ua s { s with tasks := .descending b ::ₘ rest }
  | descendFails (s : BottomUpWalk) (b : BottomUp) (rest : Multiset BottomUpTask)
      (htask : s.tasks = .descending b ::ₘ rest) (hrc : (ua.descendRc b).1 ≠ 0) :
      Step ua s { s with tasks := rest, dropped := b ::ₘ s.dropped }
  | goDown (s : BottomUpWalk) (b : BottomUp) (rest : Multiset BottomUpTask)
      (htask : s.tasks = .descending b ::ₘ rest) (hrc : (ua.descendRc b).1 = 0)
      (hdown : ua.GoesDown b) :
      Step ua s
        { s with
          tasks := .enqueueing b b.subdirs ::ₘ rest
          remaining := Function.update s.remaining b b.subdirs.length
          descended := b ::ₘ s.descended }
  | turn (s : BottomUpWalk) (b : BottomUp) (rest : Multiset BottomUpTask)
      (htask : s.tasks = .descending b ::ₘ rest) (hrc : (ua.descendRc b).1 = 0)
      (hdown : ¬ua.GoesDown b) :
      Step ua s
        { s with
          tasks := .ascend b ::ₘ rest
          remaining := Function.update s.remaining b 0
          descended := b ::ₘ s.descended }
  | enqueue (s : BottomUpWalk) (b c : BottomUp) (cs : List BottomUp)
      (rest : Multiset BottomUpTask) (htask : s.tasks = .enqueueing b (c :: cs) ::ₘ rest) :
      Step ua s { s with tasks := .descend c ::ₘ .enqueueing b cs ::ₘ rest }
  | unlock (s : BottomUpWalk) (b : BottomUp) (rest : Multiset BottomUpTask)
      (htask : s.tasks = .enqueueing b [] ::ₘ rest) :
      Step ua s { s with tasks := rest }
  | countDown (s : BottomUpWalk) (b : BottomUp) (rest : Multiset BottomUpTask)
      (htask : s.tasks = .ascend b ::ₘ rest) (hlock : ¬s.Locked b)
      (hremaining : s.remaining b - 1 ≠ 0) :
      Step ua s
        { s with tasks := rest, remaining := Function.update s.remaining b (s.remaining b - 1) }
  | ascend (s : BottomUpWalk) (b : BottomUp) (rest : Multiset BottomUpTask)
      (htask : s.tasks = .ascend b ::ₘ rest) (hlock : ¬s.Locked b)
      (hremaining : s.remaining b - 1 = 0) :
      Step ua s
        { s with tasks := .ascending b ::ₘ rest, remaining := Function.update s.remaining b 0 }
  | ascended (s : BottomUpWalk) (b : BottomUp) (rest : Multiset BottomUpTask)
      (htask : s.tasks = .ascending b ::ₘ rest) :
      Step ua s { s with tasks := ascendParent b + rest, ascended := b ::ₘ s.ascended }

def Reaches (ua : UserArgs) : BottomUpWalk → BottomUpWalk → Prop :=
  Relation.ReflTransGen (Step ua)

end BottomUpWalk

end Gufi
