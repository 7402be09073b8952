import Mathlib.Data.List.Basic
import Mathlib.Logic.Relation

/-!
# Programs that read what their children write

A program starts children, reads their output from pipes, waits for their ends and closes the pipes.
What it reads does not depend on when the children write. It can wait for a child that is blocked at
a full pipe just if, at a wait of its, more of the output is left than the pipe can hold.
-/

namespace Gufi.Pipe

open Relation

abbrev Bytes := List UInt8

section Programs

/-- What a child writes, and its exit status. -/
structure Child where
  output : Bytes
  status : ℕ
deriving DecidableEq

/-- Children and the pipes from them are numbered as they are started. A `read` goes on until it has
`size` more bytes or is at the end of the output, or fails, and `got` is what it has so far. What
`wait` finds is `none` for a child that a signal has ended. -/
inductive Program (α : Type)
  | ret (a : α)
  | start (child : Child) (next : ℕ → Program α)
  | read (fd size : ℕ) (got : Bytes) (next : Bytes → Program α)
  | wait (pid : ℕ) (next : Option ℕ → Program α)
  | close (fd : ℕ) (next : Program α)

variable {α β : Type}

def Program.bind : Program α → (α → Program β) → Program β
  | .ret a, f => f a
  | .start child next, f => .start child fun pid => (next pid).bind f
  | .read fd size got next, f => .read fd size got fun bytes => (next bytes).bind f
  | .wait pid next, f => .wait pid fun status => (next status).bind f
  | .close fd next, f => .close fd (next.bind f)

theorem Program.bind_assoc {γ : Type} (p : Program α) (f : α → Program β) (g : β → Program γ) :
    (p.bind f).bind g = p.bind fun a => (f a).bind g := by
  induction p with
  | ret a => rfl
  | start child next ih => exact congrArg (Program.start child) (funext ih)
  | read fd size got next ih => exact congrArg (Program.read fd size got) (funext ih)
  | wait pid next ih => exact congrArg (Program.wait pid) (funext ih)
  | close fd next ih => exact congrArg (Program.close fd) ih

instance : Monad Program where
  pure := .ret
  bind := .bind

/-- A child with its pipe: what it has not written, what has not been read, how it has ended, and
whether the program has closed its side. -/
structure Process where
  unwritten : Bytes
  pipe : Bytes
  ended : Option (Option ℕ)
  closed : Bool
  status : ℕ
deriving DecidableEq

def Process.write (p : Process) (n : ℕ) : Process :=
  { p with unwritten := p.unwritten.drop n, pipe := p.pipe ++ p.unwritten.take n }

def Process.read (p : Process) (size : ℕ) : Process := { p with pipe := p.pipe.drop size }

structure State (α : Type) where
  processes : List Process
  program : Program α

/-- The children write when there is room, and end. A child that writes to a closed pipe gets a
signal. -/
inductive Step (capacity : ℕ) : State α → State α → Prop
  | write (ps : List Process) (program : Program α) (i : ℕ) (p : Process) (n : ℕ)
      (hp : ps[i]? = some p) (hrun : p.ended = none) (hopen : p.closed = false) (hpos : 0 < n)
      (hn : n ≤ p.unwritten.length) (hroom : p.pipe.length + n ≤ capacity) :
      Step capacity ⟨ps, program⟩ ⟨ps.set i (p.write n), program⟩
  | exit (ps : List Process) (program : Program α) (i : ℕ) (p : Process)
      (hp : ps[i]? = some p) (hrun : p.ended = none) (hdone : p.unwritten = []) :
      Step capacity ⟨ps, program⟩ ⟨ps.set i { p with ended := some (some p.status) }, program⟩
  | signal (ps : List Process) (program : Program α) (i : ℕ) (p : Process)
      (hp : ps[i]? = some p) (hrun : p.ended = none) (hclosed : p.closed = true)
      (hleft : p.unwritten ≠ []) :
      Step capacity ⟨ps, program⟩
        ⟨ps.set i { p with unwritten := [], ended := some none }, program⟩
  | start (ps : List Process) (child : Child) (next : ℕ → Program α) :
      Step capacity ⟨ps, .start child next⟩
        ⟨ps ++ [⟨child.output, [], none, false, child.status⟩], next ps.length⟩
  | read (ps : List Process) (fd size : ℕ) (got : Bytes) (next : Bytes → Program α) (p : Process)
      (hp : ps[fd]? = some p) (hopen : p.closed = false) (hsize : 0 < size) (hpipe : p.pipe ≠ []) :
      Step capacity ⟨ps, .read fd size got next⟩
        ⟨ps.set fd (p.read size),
          .read fd (size - (p.pipe.take size).length) (got ++ p.pipe.take size) next⟩
  | readFull (ps : List Process) (fd : ℕ) (got : Bytes) (next : Bytes → Program α) :
      Step capacity ⟨ps, .read fd 0 got next⟩ ⟨ps, next got⟩
  | readEnd (ps : List Process) (fd size : ℕ) (got : Bytes) (next : Bytes → Program α)
      (p : Process) (hp : ps[fd]? = some p) (hopen : p.closed = false) (hpipe : p.pipe = [])
      (hended : p.ended ≠ none) :
      Step capacity ⟨ps, .read fd size got next⟩ ⟨ps, next got⟩
  | readFail (ps : List Process) (fd size : ℕ) (got : Bytes) (next : Bytes → Program α)
      (hbad : ∀ p, ps[fd]? = some p → p.closed = true) :
      Step capacity ⟨ps, .read fd size got next⟩ ⟨ps, next got⟩
  | wait (ps : List Process) (pid : ℕ) (next : Option ℕ → Program α) (p : Process)
      (status : Option ℕ) (hp : ps[pid]? = some p) (hended : p.ended = some status) :
      Step capacity ⟨ps, .wait pid next⟩ ⟨ps, next status⟩
  | waitFail (ps : List Process) (pid : ℕ) (next : Option ℕ → Program α) (hp : ps[pid]? = none) :
      Step capacity ⟨ps, .wait pid next⟩ ⟨ps, next none⟩
  | close (ps : List Process) (fd : ℕ) (next : Program α) :
      Step capacity ⟨ps, .close fd next⟩
        ⟨ps.modify fd fun p => { p with closed := true }, next⟩

/-- The program waits for a child that cannot write. -/
def State.Deadlock (capacity : ℕ) (s : State α) : Prop :=
  ∃ pid next p, s.program = .wait pid next ∧ s.processes[pid]? = some p ∧ p.ended = none ∧
    p.closed = false ∧ p.unwritten ≠ [] ∧ capacity ≤ p.pipe.length

def NeverDeadlocks (capacity : ℕ) (program : Program α) : Prop :=
  ∀ s, ReflTransGen (Step capacity) ⟨[], program⟩ s → ¬ s.Deadlock capacity

end Programs

section Outputs

variable {α β : Type}

/-- What has not been read from a child. -/
structure Source where
  unread : Bytes
  closed : Bool
  status : ℕ
deriving DecidableEq

/-- Of no child that the program waits for is more left than fits into the pipe, where it reads
whatever the children write. -/
def Program.Fits (capacity : ℕ) : List Source → Program α → Prop
  | _, .ret _ => True
  | cs, .start child next =>
    (next cs.length).Fits capacity (cs ++ [⟨child.output, false, child.status⟩])
  | cs, .read fd size got next =>
    match cs[fd]? with
    | none => (next got).Fits capacity cs
    | some c =>
      if c.closed then (next got).Fits capacity cs
      else (next (got ++ c.unread.take size)).Fits capacity
        (cs.set fd { c with unread := c.unread.drop size })
  | cs, .wait pid next =>
    match cs[pid]? with
    | none => (next none).Fits capacity cs
    | some c => c.unread.length ≤ capacity ∧ (next (some c.status)).Fits capacity cs
  | cs, .close fd next => next.Fits capacity (cs.modify fd fun c => { c with closed := true })

/-- A pipe is closed only after its child has been waited for. -/
def Program.ClosesWaited : List ℕ → Program α → Prop
  | _, .ret _ => True
  | waited, .start _ next => ∀ pid, (next pid).ClosesWaited (waited.filter (· ≠ pid))
  | waited, .read _ _ _ next => ∀ bytes, (next bytes).ClosesWaited waited
  | waited, .wait pid next => ∀ status, (next status).ClosesWaited (pid :: waited)
  | waited, .close fd next => fd ∈ waited ∧ next.ClosesWaited waited

theorem Program.ClosesWaited.mono {p : Program α} {waited waited' : List ℕ}
    (h : p.ClosesWaited waited) (hsub : waited ⊆ waited') : p.ClosesWaited waited' := by
  induction p generalizing waited waited' with
  | ret a => trivial
  | start child next ih =>
      refine fun pid => ih pid (h pid) fun i hi => ?_
      obtain ⟨hmem, hne⟩ := List.mem_filter.mp hi
      exact List.mem_filter.mpr ⟨hsub hmem, hne⟩
  | read fd size got next ih => exact fun bytes => ih bytes (h bytes) hsub
  | wait pid next ih => exact fun status => ih status (h status) (List.cons_subset_cons pid hsub)
  | close fd next ih => exact ⟨hsub h.1, ih h.2 hsub⟩

theorem Program.ClosesWaited.bind {p : Program α} {f : α → Program β} {waited : List ℕ}
    (h : p.ClosesWaited waited) (hf : ∀ a, (f a).ClosesWaited []) :
    (p.bind f).ClosesWaited waited := by
  induction p generalizing waited with
  | ret a => exact (hf a).mono (List.nil_subset waited)
  | start child next ih => exact fun pid => ih pid (h pid)
  | read fd size got next ih => exact fun bytes => ih bytes (h bytes)
  | wait pid next ih => exact fun status => ih status (h status)
  | close fd next ih => exact ⟨h.1, ih h.2⟩

theorem set_self {γ : Type} {xs : List γ} {x : γ} {i : ℕ} (hx : xs[i]? = some x) :
    xs.set i x = xs := by
  obtain ⟨h, rfl⟩ := List.getElem?_eq_some_iff.mp hx
  exact List.set_getElem_self h

/-- A program that only reads from one child, where it reads whatever the child writes: its result,
and what is left of the output. -/
def Program.runOn (fd : ℕ) : Program α → Bytes → Option (α × Bytes)
  | .ret a, unread => some (a, unread)
  | .read fd' size got next, unread =>
    if fd' = fd then (next (got ++ unread.take size)).runOn fd (unread.drop size) else none
  | .start _ _, _ => none
  | .wait _ _, _ => none
  | .close _ _, _ => none

theorem Program.runOn_bind (p : Program α) (f : α → Program β) (fd : ℕ) (unread : Bytes) :
    (p.bind f).runOn fd unread = (p.runOn fd unread).bind fun r => (f r.1).runOn fd r.2 := by
  induction p generalizing unread with
  | ret a => rfl
  | start child next ih => rfl
  | read fd' size got next ih =>
      simp only [Program.bind, Program.runOn]
      split
      · exact ih ..
      · rfl
  | wait pid next ih => rfl
  | close fd next ih => rfl

/-- After such a program, the rest of the output is left. -/
theorem Program.fits_bind {p : Program α} {f : α → Program β} {capacity fd : ℕ} {cs : List Source}
    {c : Source} {a : α} {rest : Bytes} (hc : cs[fd]? = some c) (hopen : c.closed = false)
    (h : p.runOn fd c.unread = some (a, rest)) :
    (p.bind f).Fits capacity cs ↔ (f a).Fits capacity (cs.set fd { c with unread := rest }) := by
  induction p generalizing cs c with
  | ret a' =>
      obtain ⟨rfl, rfl⟩ := Prod.mk.inj (Option.some.inj h)
      rw [Program.bind, set_self hc]
  | start child next ih => exact nomatch h
  | read fd' size got next ih =>
      simp only [Program.runOn] at h
      split at h
      · rename_i hsame
        subst hsame
        simp only [Program.bind, Program.Fits, hc]
        rw [if_neg (Bool.eq_false_iff.mp hopen)]
        have hself : (cs.set fd' { c with unread := c.unread.drop size })[fd']? =
            some { c with unread := c.unread.drop size } :=
          List.getElem?_set_self (List.getElem?_eq_some_iff.mp hc).1
        have ih' := ih _ hself hopen h
        rwa [List.set_set] at ih'
      · exact nomatch h
  | wait pid next ih => exact nomatch h
  | close fd next ih => exact nomatch h

end Outputs

section Runs

variable {α : Type} {capacity : ℕ} {ps : List Process} {p : Process} {s s' : State α}
  {waited : List ℕ} {i : ℕ}

def Process.source (p : Process) : Source := ⟨p.pipe ++ p.unwritten, p.closed, p.status⟩

structure Process.Sound (capacity : ℕ) (p : Process) : Prop where
  room : p.pipe.length ≤ capacity
  ended : p.ended ≠ none → p.unwritten = [] ∧ p.ended = some (some p.status)
  closed : p.closed = true → p.ended ≠ none

theorem Process.source_write (p : Process) (n : ℕ) : (p.write n).source = p.source := by
  simp [Process.write, Process.source]

theorem Process.length_pipe_write {n : ℕ} (hn : n ≤ p.unwritten.length) :
    (p.write n).pipe.length = p.pipe.length + n := by
  rw [Process.write, List.length_append, List.length_take_of_le hn]

theorem Process.Sound.write (h : p.Sound capacity) {n : ℕ} (hrun : p.ended = none)
    (hn : n ≤ p.unwritten.length) (hroom : p.pipe.length + n ≤ capacity) :
    (p.write n).Sound capacity :=
  ⟨by rwa [Process.length_pipe_write hn], fun h => absurd hrun h, h.closed⟩

theorem Process.Sound.exit (h : p.Sound capacity) (hdone : p.unwritten = []) :
    ({ p with ended := some (some p.status) } : Process).Sound capacity :=
  ⟨h.room, fun _ => ⟨hdone, rfl⟩, fun _ => nofun⟩

theorem Process.Sound.read (h : p.Sound capacity) {size : ℕ} : (p.read size).Sound capacity := by
  refine ⟨?_, h.ended, h.closed⟩
  rw [Process.read, List.length_drop]
  exact Nat.le_trans (Nat.sub_le ..) h.room

/-- The children that were waited for have ended. -/
structure State.Sound (capacity : ℕ) (waited : List ℕ) (s : State α) : Prop where
  processes : ∀ (i : ℕ) (p : Process), s.processes[i]? = some p → p.Sound capacity
  ended : ∀ i ∈ waited, ∀ p : Process, s.processes[i]? = some p → p.ended ≠ none
  closes : s.program.ClosesWaited waited

theorem State.Sound.set {program : Program α} (h : (⟨ps, program⟩ : State α).Sound capacity waited)
    {q : Process} (hp : ps[i]? = some p) (hq : q.Sound capacity)
    (hended : p.ended ≠ none → q.ended ≠ none) :
    (⟨ps.set i q, program⟩ : State α).Sound capacity waited := by
  have hlt := (List.getElem?_eq_some_iff.mp hp).1
  refine ⟨fun j r hr => ?_, fun j hj r hr => ?_, h.closes⟩
  · by_cases hsame : i = j
    · subst hsame
      rw [List.getElem?_set_self hlt] at hr
      obtain rfl := Option.some.inj hr
      exact hq
    · rw [List.getElem?_set_ne hsame] at hr
      exact h.processes j r hr
  · by_cases hsame : i = j
    · subst hsame
      rw [List.getElem?_set_self hlt] at hr
      obtain rfl := Option.some.inj hr
      exact hended (h.ended i hj p hp)
    · rw [List.getElem?_set_ne hsame] at hr
      exact h.ended j hj r hr

theorem State.Sound.start {child : Child} {next : ℕ → Program α}
    (h : (⟨ps, .start child next⟩ : State α).Sound capacity waited) :
    (⟨ps ++ [⟨child.output, [], none, false, child.status⟩], next ps.length⟩ : State α).Sound
      capacity (waited.filter (· ≠ ps.length)) := by
  refine ⟨fun i p hp => ?_, fun i hi p hp => ?_, h.closes _⟩
  · rcases Nat.lt_or_ge i ps.length with hlt | hge
    · exact h.processes i p (by rwa [List.getElem?_append_left hlt] at hp)
    · rw [List.getElem?_append_right hge] at hp
      obtain rfl := List.mem_singleton.mp (List.mem_of_getElem? hp)
      exact ⟨Nat.zero_le _, fun h => absurd rfl h, nofun⟩
  · obtain ⟨hmem, hne⟩ := List.mem_filter.mp hi
    rcases Nat.lt_or_ge i ps.length with hlt | hge
    · exact h.ended i hmem p (by rwa [List.getElem?_append_left hlt] at hp)
    · have hlen := (List.getElem?_eq_some_iff.mp hp).1
      rw [List.length_append, List.length_singleton] at hlen
      exact absurd (by omega) (of_decide_eq_true hne)

theorem State.Sound.next {program program' : Program α}
    (h : (⟨ps, program⟩ : State α).Sound capacity waited) (hcloses : program'.ClosesWaited waited) :
    (⟨ps, program'⟩ : State α).Sound capacity waited :=
  ⟨h.processes, h.ended, hcloses⟩

theorem map_source_set {q : Process} (hp : ps[i]? = some p) (hq : q.source = p.source) :
    (ps.set i q).map Process.source = ps.map Process.source := by
  rw [List.map_set, hq]
  refine List.ext_getElem? fun j => ?_
  by_cases hsame : i = j
  · subst hsame
    have hlt := (List.getElem?_eq_some_iff.mp hp).1
    rw [List.getElem?_set_self (by rwa [List.length_map]), List.getElem?_map, hp]
    rfl
  · rw [List.getElem?_set_ne hsame]

theorem getElem?_map_source (hp : ps[i]? = some p) :
    (ps.map Process.source)[i]? = some p.source := by
  rw [List.getElem?_map, hp]
  rfl

theorem set_source_self (hp : ps[i]? = some p) :
    (ps.map Process.source).set i p.source = ps.map Process.source := by
  rw [← List.map_set]
  exact map_source_set hp rfl

theorem fits_read_open {fd size : ℕ} {got : Bytes} {next : Bytes → Program α}
    (hp : ps[fd]? = some p) (hopen : p.closed = false) :
    (Program.read fd size got next).Fits capacity (ps.map Process.source) ↔
      (next (got ++ p.source.unread.take size)).Fits capacity ((ps.map Process.source).set fd
        { p.source with unread := p.source.unread.drop size }) := by
  have hclosed : p.source.closed = false := hopen
  simp only [Program.Fits, getElem?_map_source hp, hclosed, Bool.false_eq_true, if_false]

theorem fits_read_fail {fd size : ℕ} {got : Bytes} {next : Bytes → Program α}
    (hbad : ∀ p, ps[fd]? = some p → p.closed = true) :
    (Program.read fd size got next).Fits capacity (ps.map Process.source) ↔
      (next got).Fits capacity (ps.map Process.source) := by
  cases hp : ps[fd]? with
  | none =>
      have hnone : (ps.map Process.source)[fd]? = none := by
        rw [List.getElem?_map, hp]
        rfl
      simp only [Program.Fits, hnone]
  | some p =>
      have hclosed : p.source.closed = true := hbad p hp
      simp only [Program.Fits, getElem?_map_source hp, hclosed, if_true]

theorem take_part (p : Process) (size : ℕ) :
    p.pipe.take size ++ (p.read size).source.unread.take (size - (p.pipe.take size).length) =
      p.source.unread.take size := by
  rw [Process.source, Process.read, Process.source, List.length_take]
  rcases Nat.le_total size p.pipe.length with hle | hle
  · rw [Nat.min_eq_left hle, Nat.sub_self, List.take_zero, List.append_nil,
      List.take_append_of_le_length hle]
  · rw [Nat.min_eq_right hle, List.drop_eq_nil_of_le hle, List.take_of_length_le hle,
      List.nil_append, List.take_append, List.take_of_length_le hle]

theorem drop_part (p : Process) (size : ℕ) :
    (p.read size).source.unread.drop (size - (p.pipe.take size).length) =
      p.source.unread.drop size := by
  rw [Process.source, Process.read, Process.source, List.length_take]
  rcases Nat.le_total size p.pipe.length with hle | hle
  · rw [Nat.min_eq_left hle, Nat.sub_self, List.drop_zero, List.drop_append_of_le_length hle]
  · rw [Nat.min_eq_right hle, List.drop_eq_nil_of_le hle, List.nil_append, List.drop_append,
      List.drop_eq_nil_of_le hle, List.nil_append]

/-- A part of what is to be read. -/
theorem fits_read_part {fd size : ℕ} {got : Bytes} {next : Bytes → Program α}
    (hp : ps[fd]? = some p) (hopen : p.closed = false) :
    (Program.read fd size got next).Fits capacity (ps.map Process.source) ↔
      (Program.read fd (size - (p.pipe.take size).length) (got ++ p.pipe.take size) next).Fits
        capacity ((ps.set fd (p.read size)).map Process.source) := by
  have hlt := (List.getElem?_eq_some_iff.mp hp).1
  have hself : (ps.set fd (p.read size))[fd]? = some (p.read size) := List.getElem?_set_self hlt
  rw [fits_read_open hp hopen, fits_read_open hself hopen, List.map_set, List.set_set,
    List.append_assoc, take_part, drop_part]
  rfl

theorem map_source_close (ps : List Process) (fd : ℕ) :
    (ps.modify fd fun p => { p with closed := true }).map Process.source =
      (ps.map Process.source).modify fd fun c => { c with closed := true } := by
  refine List.ext_getElem? fun i => ?_
  simp only [List.getElem?_map, List.getElem?_modify]
  cases ps[i]? with
  | none => rfl
  | some q =>
      by_cases hsame : fd = i
      · simp only [hsame, if_true]
        rfl
      · simp only [hsame, if_false]
        rfl

theorem fits_wait {pid : ℕ} {next : Option ℕ → Program α} (hp : ps[pid]? = some p) :
    (Program.wait pid next).Fits capacity (ps.map Process.source) ↔
      p.source.unread.length ≤ capacity ∧
        (next (some p.status)).Fits capacity (ps.map Process.source) := by
  simp only [Program.Fits, getElem?_map_source hp]
  rfl

theorem Step.sound (h : Step capacity s s') (hsound : s.Sound capacity waited) :
    ∃ waited', s'.Sound capacity waited' := by
  cases h with
  | write ps program i p n hp hrun hopen hpos hn hroom =>
      exact ⟨waited, hsound.set hp ((hsound.processes i p hp).write hrun hn hroom) id⟩
  | exit ps program i p hp hrun hdone =>
      exact ⟨waited, hsound.set hp ((hsound.processes i p hp).exit hdone) fun _ => nofun⟩
  | signal ps program i p hp hrun hclosed hleft =>
      exact absurd hrun ((hsound.processes i p hp).closed hclosed)
  | start ps child next => exact ⟨_, hsound.start⟩
  | read ps fd size got next p hp hopen hsize hpipe =>
      exact ⟨waited, (hsound.set hp (hsound.processes fd p hp).read id).next hsound.closes⟩
  | readFull ps fd got next => exact ⟨waited, hsound.next (hsound.closes _)⟩
  | readEnd ps fd size got next p hp hopen hpipe hended =>
      exact ⟨waited, hsound.next (hsound.closes _)⟩
  | readFail ps fd size got next hbad => exact ⟨waited, hsound.next (hsound.closes _)⟩
  | wait ps pid next p status hp hended =>
      refine ⟨pid :: waited, ⟨hsound.processes, fun i hi q hq => ?_, hsound.closes status⟩⟩
      rcases List.mem_cons.mp hi with rfl | hi
      · obtain rfl : p = q := Option.some.inj (hp.symm.trans hq)
        rw [hended]
        exact nofun
      · exact hsound.ended i hi q hq
  | waitFail ps pid next hp =>
      refine ⟨pid :: waited, ⟨hsound.processes, fun i hi q hq => ?_, hsound.closes none⟩⟩
      rcases List.mem_cons.mp hi with rfl | hi
      · exact nomatch hp.symm.trans hq
      · exact hsound.ended i hi q hq
  | close ps fd next =>
      refine ⟨waited, ⟨fun i p hp => ?_, fun i hi p hp => ?_, hsound.closes.2⟩⟩
      · rw [List.getElem?_modify] at hp
        obtain ⟨q, hq, rfl⟩ := Option.map_eq_some_iff.mp hp
        have hq' := hsound.processes i q hq
        split
        · rename_i hsame
          have hended := hsound.ended fd hsound.closes.1 q (hsame ▸ hq)
          exact ⟨hq'.room, hq'.ended, fun _ => hended⟩
        · exact hq'
      · rw [List.getElem?_modify] at hp
        obtain ⟨q, hq, rfl⟩ := Option.map_eq_some_iff.mp hp
        have hended := hsound.ended i hi q hq
        split <;> exact hended

theorem run_sound (hrun : ReflTransGen (Step capacity) s s') (hsound : s.Sound capacity waited) :
    ∃ waited', s'.Sound capacity waited' := by
  induction hrun with
  | refl => exact ⟨waited, hsound⟩
  | tail _ hstep ih =>
      obtain ⟨waited', hsound'⟩ := ih
      exact hstep.sound hsound'

/-- The writes and the ends of the children change nothing of what the program is to read. -/
theorem Step.fits (h : Step capacity s s') (hsound : s.Sound capacity waited)
    (hfits : s.program.Fits capacity (s.processes.map Process.source)) :
    s'.program.Fits capacity (s'.processes.map Process.source) := by
  cases h with
  | write ps program i p n hp hrun hopen hpos hn hroom =>
      exact (map_source_set hp (p.source_write n)).symm ▸ hfits
  | exit ps program i p hp hrun hdone =>
      have hsource : (ps.set i { p with ended := some (some p.status) }).map Process.source =
        ps.map Process.source := map_source_set hp rfl
      exact hsource.symm ▸ hfits
  | signal ps program i p hp hrun hclosed hleft =>
      exact absurd hrun ((hsound.processes i p hp).closed hclosed)
  | start ps child next =>
      simpa only [Program.Fits, List.length_map, List.map_append, List.map_cons, List.map_nil,
        Process.source, List.nil_append] using hfits
  | read ps fd size got next p hp hopen hsize hpipe => exact (fits_read_part hp hopen).mp hfits
  | readFull ps fd got next =>
      by_cases hbad : ∀ p, ps[fd]? = some p → p.closed = true
      · exact (fits_read_fail hbad).mp hfits
      · push Not at hbad
        obtain ⟨p, hp, hopen⟩ := hbad
        have hfits' := (fits_read_open hp (Bool.eq_false_iff.mpr hopen)).mp hfits
        rw [List.take_zero, List.append_nil, List.drop_zero] at hfits'
        rwa [set_source_self hp] at hfits'
  | readEnd ps fd size got next p hp hopen hpipe hended =>
      have hnone : p.source.unread = [] := by
        rw [Process.source, hpipe, ((hsound.processes fd p hp).ended hended).1]
        rfl
      have hfits' := (fits_read_open hp hopen).mp hfits
      rw [hnone, List.take_nil, List.append_nil, List.drop_nil, ← hnone] at hfits'
      rwa [set_source_self hp] at hfits'
  | readFail ps fd size got next hbad => exact (fits_read_fail hbad).mp hfits
  | wait ps pid next p status hp hended =>
      have hstatus := ((hsound.processes pid p hp).ended (by rw [hended]; exact nofun)).2
      obtain rfl : status = some p.status := Option.some.inj (hended.symm.trans hstatus)
      exact ((fits_wait hp).mp hfits).2
  | waitFail ps pid next hp =>
      have hnone : (ps.map Process.source)[pid]? = none := by
        rw [List.getElem?_map, hp]
        rfl
      simpa only [Program.Fits, hnone] using hfits
  | close ps fd next =>
      exact (map_source_close ps fd) ▸ hfits

theorem not_deadlock
    (hfits : s.program.Fits capacity (s.processes.map Process.source)) : ¬ s.Deadlock capacity := by
  rintro ⟨pid, next, p, hprogram, hp, hrun, hopen, hleft, hfull⟩
  rw [hprogram] at hfits
  have hlen := ((fits_wait hp).mp hfits).1
  have hpos := List.length_pos_of_ne_nil hleft
  rw [Process.source, List.length_append] at hlen
  omega

end Runs

section Schedules

variable {α : Type} {capacity : ℕ} {ps : List Process} {p : Process} {waited : List ℕ}

/-- A child writes until there is something to read, or it has ended. -/
theorem exists_some (hcapacity : 0 < capacity) (program : Program α) {fd : ℕ}
    (hp : ps[fd]? = some p) (hopen : p.closed = false) (hsound : p.Sound capacity) :
    ∃ q : Process, q.source = p.source ∧ q.closed = false ∧ q.Sound capacity ∧
      (q.pipe ≠ [] ∨ q.ended ≠ none) ∧
      ReflTransGen (Step capacity) (⟨ps, program⟩ : State α) ⟨ps.set fd q, program⟩ := by
  by_cases hdone : p.pipe ≠ [] ∨ p.ended ≠ none
  · exact ⟨p, rfl, hopen, hsound, hdone, by rw [set_self hp]⟩
  obtain ⟨hpipe, hrun⟩ := not_or.mp hdone
  rw [not_not] at hpipe hrun
  by_cases hleft : p.unwritten = []
  · refine ⟨{ p with ended := some (some p.status) }, rfl, hopen,
      ⟨hsound.room, fun _ => ⟨hleft, rfl⟩, fun _ => nofun⟩, .inr nofun, ?_⟩
    exact .single (.exit ps program fd p hp hrun hleft)
  · have hpos := List.length_pos_of_ne_nil hleft
    have hroom : p.pipe.length + 1 ≤ capacity := by
      rw [hpipe]
      exact hcapacity
    refine ⟨p.write 1, p.source_write 1, hopen, hsound.write hrun hpos hroom, .inl ?_,
      .single (.write ps program fd p 1 hp hrun hopen Nat.one_pos hpos hroom)⟩
    refine List.ne_nil_of_length_pos ?_
    rw [Process.length_pipe_write hpos]
    exact Nat.succ_pos _

/-- A read gets all it asks for if the child goes on writing. -/
theorem exists_read (hcapacity : 0 < capacity) {fd : ℕ} (size : ℕ) (got : Bytes)
    (next : Bytes → Program α) (hp : ps[fd]? = some p) (hopen : p.closed = false)
    (hsound : p.Sound capacity) :
    ∃ q : Process, q.source = { p.source with unread := p.source.unread.drop size } ∧
      ReflTransGen (Step capacity) ⟨ps, .read fd size got next⟩
        ⟨ps.set fd q, next (got ++ p.source.unread.take size)⟩ := by
  induction size using Nat.strongRecOn generalizing ps p got with
  | _ size ih =>
  rcases Nat.eq_zero_or_pos size with rfl | hsize
  · refine ⟨p, rfl, ?_⟩
    rw [set_self hp, List.take_zero, List.append_nil]
    exact .single (.readFull ps fd got next)
  have hlt := (List.getElem?_eq_some_iff.mp hp).1
  obtain ⟨q, hsource, hqopen, hqsound, hsome, hrun⟩ :=
    exists_some hcapacity (.read fd size got next) hp hopen hsound
  have hq : (ps.set fd q)[fd]? = some q := List.getElem?_set_self hlt
  rw [← hsource]
  by_cases hpipe : q.pipe = []
  · have hended := hsome.resolve_left fun h => h hpipe
    have hnone : q.source.unread = [] := by
      rw [Process.source, hpipe, (hqsound.ended hended).1]
      rfl
    refine ⟨q, by rw [hnone, List.drop_nil, ← hnone], ?_⟩
    rw [hnone, List.take_nil, List.append_nil]
    exact hrun.tail (.readEnd _ fd size got next q hq hqopen hpipe hended)
  · have hread := @Step.read α capacity _ fd size got next q hq hqopen hsize hpipe
    have hpos : 0 < (q.pipe.take size).length := by
      rw [List.length_take]
      exact Nat.lt_min.mpr ⟨hsize, List.length_pos_of_ne_nil hpipe⟩
    have hr : ((ps.set fd q).set fd (q.read size))[fd]? = some (q.read size) :=
      List.getElem?_set_self (by rwa [List.length_set])
    obtain ⟨r, hrsource, hrest⟩ := ih (size - (q.pipe.take size).length)
      (Nat.sub_lt hsize hpos) (got ++ q.pipe.take size) hr hqopen hqsound.read
    rw [drop_part] at hrsource
    rw [List.append_assoc, take_part, List.set_set, List.set_set] at hrest
    rw [List.set_set] at hread
    exact ⟨r, hrsource, (hrun.tail hread).trans hrest⟩

/-- A child writes all that fits. -/
theorem exists_write (program : Program α) {pid : ℕ} (hp : ps[pid]? = some p)
    (hopen : p.closed = false) (hrun : p.ended = none) (hsound : p.Sound capacity) :
    ∃ q : Process, q.source = p.source ∧ q.closed = false ∧ q.ended = none ∧
      (q.unwritten = [] ∨ q.unwritten ≠ [] ∧ capacity ≤ q.pipe.length) ∧
      q.pipe.length ≤ capacity ∧
      ReflTransGen (Step capacity) (⟨ps, program⟩ : State α) ⟨ps.set pid q, program⟩ := by
  by_cases hleft : p.unwritten = []
  · exact ⟨p, rfl, hopen, hrun, .inl hleft, hsound.room, by rw [set_self hp]⟩
  by_cases hfull : capacity ≤ p.pipe.length
  · exact ⟨p, rfl, hopen, hrun, .inr ⟨hleft, hfull⟩, hsound.room, by rw [set_self hp]⟩
  have hpos := List.length_pos_of_ne_nil hleft
  obtain ⟨n, hn⟩ : ∃ n, n = min p.unwritten.length (capacity - p.pipe.length) := ⟨_, rfl⟩
  have hroom : p.pipe.length + n ≤ capacity := by omega
  refine ⟨p.write n, p.source_write n, hopen, hrun, ?_, ?_,
    .single (.write ps program pid p n hp hrun hopen (by omega) (by omega) hroom)⟩
  · rw [Process.length_pipe_write (by omega), Process.write]
    by_cases hall : p.unwritten.length ≤ n
    · exact .inl (List.drop_eq_nil_of_le hall)
    · refine .inr ⟨fun h => hall (List.drop_eq_nil_iff.mp h), by omega⟩
  · rwa [Process.length_pipe_write (by omega)]

/-- Where too much is left at a wait, some run comes there with a full pipe. -/
theorem exists_deadlock (hcapacity : 0 < capacity) (program : Program α)
    (hsound : (⟨ps, program⟩ : State α).Sound capacity waited)
    (hfits : ¬ program.Fits capacity (ps.map Process.source)) :
    ∃ s, ReflTransGen (Step capacity) ⟨ps, program⟩ s ∧ s.Deadlock capacity := by
  induction program generalizing ps waited with
  | ret a => exact absurd trivial hfits
  | start child next ih =>
      have hstep := @Step.start α capacity ps child next
      obtain ⟨s, hrun, hdead⟩ := ih ps.length hsound.start (by
        simpa only [Program.Fits, List.length_map, List.map_append, List.map_cons, List.map_nil,
          Process.source, List.nil_append] using hfits)
      exact ⟨s, .head hstep hrun, hdead⟩
  | read fd size got next ih =>
      by_cases hbad : ∀ p, ps[fd]? = some p → p.closed = true
      · have hstep := @Step.readFail α capacity ps fd size got next hbad
        rw [fits_read_fail hbad] at hfits
        obtain ⟨s, hrun, hdead⟩ := ih got (hsound.next (hsound.closes _)) hfits
        exact ⟨s, .head hstep hrun, hdead⟩
      · push Not at hbad
        obtain ⟨p, hp, hopen⟩ := hbad
        replace hopen := Bool.eq_false_iff.mpr hopen
        obtain ⟨q, hsource, hread⟩ :=
          exists_read hcapacity size got next hp hopen (hsound.processes fd p hp)
        rw [fits_read_open hp hopen, ← hsource, ← List.map_set] at hfits
        obtain ⟨waited', hsound'⟩ := run_sound hread hsound
        obtain ⟨s, hrun, hdead⟩ := ih _ hsound' hfits
        exact ⟨s, hread.trans hrun, hdead⟩
  | wait pid next ih =>
      cases hp : ps[pid]? with
      | none =>
          have hnone : (ps.map Process.source)[pid]? = none := by
            rw [List.getElem?_map, hp]
            rfl
          have hstep := @Step.waitFail α capacity ps pid next hp
          obtain ⟨waited', hsound'⟩ := hstep.sound hsound
          obtain ⟨s, hrun, hdead⟩ := ih none hsound' (by
            simpa only [Program.Fits, hnone] using hfits)
          exact ⟨s, .head hstep hrun, hdead⟩
      | some p =>
          have hp' := hsound.processes pid p hp
          cases hended : p.ended with
          | some status =>
              obtain ⟨hdone, hstatus⟩ := hp'.ended (by rw [hended]; exact nofun)
              obtain rfl : status = some p.status := Option.some.inj (hended.symm.trans hstatus)
              have hstep := @Step.wait α capacity ps pid next p _ hp hended
              obtain ⟨waited', hsound'⟩ := hstep.sound hsound
              have hlen : p.source.unread.length ≤ capacity := by
                rw [Process.source, hdone, List.append_nil]
                exact hp'.room
              rw [fits_wait hp, not_and] at hfits
              obtain ⟨s, hrun, hdead⟩ := ih _ hsound' (hfits hlen)
              exact ⟨s, .head hstep hrun, hdead⟩
          | none =>
              have hopen : p.closed = false :=
                Bool.eq_false_iff.mpr fun hclosed => hp'.closed hclosed hended
              obtain ⟨q, hsource, hqopen, hqrun, hend, hroom, hwrite⟩ :=
                exists_write (.wait pid next) hp hopen hended hp'
              have hlt := (List.getElem?_eq_some_iff.mp hp).1
              have hq : (ps.set pid q)[pid]? = some q := List.getElem?_set_self hlt
              rcases hend with hdone | ⟨hleft, hfull⟩
              · -- the child ends
                obtain ⟨r, hr⟩ : ∃ r : Process, r = { q with ended := some (some q.status) } :=
                  ⟨_, rfl⟩
                have hexit := @Step.exit α capacity _ (.wait pid next) pid q hq hqrun
                  hdone
                rw [← hr, List.set_set] at hexit
                have hr' : (ps.set pid r)[pid]? = some r := List.getElem?_set_self hlt
                have hwait := @Step.wait α capacity _ pid next r (some r.status) hr'
                  (by rw [hr])
                have hrun := (hwrite.tail hexit).tail hwait
                obtain ⟨waited', hsound'⟩ := run_sound hrun hsound
                have hrsource : r.source = p.source := by
                  rw [← hsource, hr]
                  rfl
                have hlen : r.source.unread.length ≤ capacity := by
                  rw [hr, Process.source, hdone, List.append_nil]
                  exact hroom
                rw [← map_source_set hp hrsource, fits_wait hr', not_and] at hfits
                obtain ⟨s, hrest, hdead⟩ := ih _ hsound' (hfits hlen)
                exact ⟨s, hrun.trans hrest, hdead⟩
              · exact ⟨_, hwrite, pid, next, q, rfl, hq, hqrun, hqopen, hleft, hfull⟩
  | close fd next ih =>
      have hstep := @Step.close α capacity ps fd next
      obtain ⟨waited', hsound'⟩ := hstep.sound hsound
      obtain ⟨s, hrun, hdead⟩ := ih hsound' (by rwa [map_source_close])
      exact ⟨s, .head hstep hrun, hdead⟩

/-- A program that closes pipes after its waits never comes to a deadlock just if at each wait the
rest of the output fits. -/
theorem neverDeadlocks_iff (hcapacity : 0 < capacity) {program : Program α}
    (hcloses : program.ClosesWaited []) :
    NeverDeadlocks capacity program ↔ program.Fits capacity [] := by
  have hsound : (⟨[], program⟩ : State α).Sound capacity [] := ⟨nofun, nofun, hcloses⟩
  constructor
  · intro hnever
    by_contra hfits
    obtain ⟨s, hrun, hdead⟩ := exists_deadlock hcapacity program hsound hfits
    exact hnever s hrun hdead
  · intro hfits s hrun
    have hkept : s.program.Fits capacity (s.processes.map Process.source) := by
      induction hrun with
      | refl => exact hfits
      | tail hrun hstep ih =>
          obtain ⟨waited, hsound'⟩ := run_sound hrun hsound
          exact hstep.fits hsound' ih
    obtain ⟨waited, hsound'⟩ := run_sound hrun hsound
    exact not_deadlock hkept

end Schedules

end Gufi.Pipe
