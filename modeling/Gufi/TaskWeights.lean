import Gufi.TaskStreams
import Mathlib.Algebra.BigOperators.Fin
import Mathlib.Tactic.Abel

/-!
# What tasks come to in the end

When the lines are weighed, and each task weighs as much as its lines and the tasks that it
enqueues, a run keeps the sum: in the end all that was written weighs as much as the first task,
whichever thread wrote what.
-/

namespace TaskStreams

open Relation

variable {n : ℕ} {Stream Task Line M : Type*} [AddCommMonoid M] (μ : Task → M) (ν : Line → M)

/-- What a list of actions still comes to. -/
def weightOf (as : List (Action Task Line)) : M :=
  ((enqueued as).map μ).sum + ((written as).map ν).sum

/-- What has been written, and what is still to come. -/
def State.total (sink : Fin n → Stream) (s : State n Stream Task Line) : M :=
  (s.pending.map μ).sum +
    ∑ i, (weightOf μ ν (s.threads i) + ((s.streams (sink i)).map ν).sum)

variable {μ ν} {program : Task → List (Action Task Line)} {sink : Fin n → Stream} {root : Task}
  {s s' : State n Stream Task Line}

/-- A thread moves something of the sum, and the other ones do not. -/
theorem State.total_eq {i : Fin n} (hthreads : ∀ j, j ≠ i → s'.threads j = s.threads j)
    (hstreams : ∀ j, j ≠ i → s'.streams (sink j) = s.streams (sink j))
    (hself : (s'.pending.map μ).sum +
        (weightOf μ ν (s'.threads i) + ((s'.streams (sink i)).map ν).sum) =
      (s.pending.map μ).sum +
        (weightOf μ ν (s.threads i) + ((s.streams (sink i)).map ν).sum)) :
    s'.total μ ν sink = s.total μ ν sink := by
  have hothers : ∑ j ∈ {i}ᶜ, (weightOf μ ν (s'.threads j) + ((s'.streams (sink j)).map ν).sum) =
      ∑ j ∈ {i}ᶜ, (weightOf μ ν (s.threads j) + ((s.streams (sink j)).map ν).sum) := by
    apply Finset.sum_congr rfl
    intro j hj
    have hne : j ≠ i := by simpa using hj
    rw [hthreads j hne, hstreams j hne]
  rw [State.total, State.total, Fintype.sum_eq_add_sum_compl i, Fintype.sum_eq_add_sum_compl i,
    hothers, ← add_assoc, hself, add_assoc]

@[simp] theorem weightOf_nil : weightOf μ ν [] = 0 := by simp [weightOf]

theorem weightOf_append (as bs : List (Action Task Line)) :
    weightOf μ ν (as ++ bs) = weightOf μ ν as + weightOf μ ν bs := by
  simp only [weightOf, enqueued_append, written_append, List.map_append, List.sum_append]
  abel

theorem weightOf_enqueue (t : Task) (as : List (Action Task Line)) :
    weightOf μ ν (.enqueue t :: as) = μ t + weightOf μ ν as := by
  simp only [weightOf, enqueued_enqueue, written_enqueue, List.map_cons, List.sum_cons, add_assoc]

theorem weightOf_write (lines : List Line) (as : List (Action Task Line)) :
    weightOf μ ν (.write lines :: as) = (lines.map ν).sum + weightOf μ ν as := by
  simp only [weightOf, enqueued_write, written_write, List.map_append, List.sum_append]
  abel

variable [DecidableEq Stream]

theorem Step.total (hμ : ∀ t, weightOf μ ν (program t) = μ t) (hsink : sink.Injective)
    (h : Step program sink s s') : s'.total μ ν sink = s.total μ ν sink := by
  cases h with
  | @start i t rest hidle hpending =>
      apply State.total_eq (i := i)
      · exact fun j hj => Function.update_of_ne hj ..
      · exact fun _ _ => rfl
      · dsimp only
        rw [hpending, hidle, weightOf_nil, Function.update_self, hμ, Multiset.map_cons, Multiset.sum_cons]
        abel
  | @enqueue i t as hthread =>
      apply State.total_eq (i := i)
      · exact fun j hj => Function.update_of_ne hj ..
      · exact fun _ _ => rfl
      · dsimp only
        rw [hthread, Function.update_self, weightOf_enqueue, Multiset.map_cons, Multiset.sum_cons]
        abel
  | @write i lines as hthread =>
      apply State.total_eq (i := i)
      · exact fun j hj => Function.update_of_ne hj ..
      · exact fun j hj => Function.update_of_ne (hsink.ne hj) ..
      · dsimp only
        rw [hthread, Function.update_self, Function.update_self, weightOf_write, List.map_append,
          List.sum_append]
        abel

/-- In the end all that was written weighs as much as the first task. -/
theorem Reaches.sum_streams (hμ : ∀ t, weightOf μ ν (program t) = μ t) (hsink : sink.Injective)
    (h : Reaches program sink root s) (hdone : s.Complete) :
    ∑ i, ((s.streams (sink i)).map ν).sum = μ root := by
  have htotal : s.total μ ν sink = (State.init n Stream Line root).total μ ν sink := by
    clear hdone
    induction h with
    | refl => rfl
    | tail _ hstep ih => exact (hstep.total hμ hsink).trans ih
  have hend : s.total μ ν sink = ∑ i, ((s.streams (sink i)).map ν).sum := by
    rw [State.total, hdone.1, Multiset.map_zero, Multiset.sum_zero, zero_add]
    exact Finset.sum_congr rfl fun i _ => by rw [hdone.2 i, weightOf_nil, zero_add]
  have hinit : (State.init n Stream Line root).total μ ν sink = μ root := by
    rw [State.total, State.init, Multiset.map_singleton, Multiset.sum_singleton]
    simp
  rw [← hend, htotal, hinit]

end TaskStreams
