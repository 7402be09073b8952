import Gufi.BottomUpCompleteness

/-!
# Trees are removed in parallel

`parallel_rmr` removes trees with a bottom-up walk: `rm_nondir` unlinks the entries of a directory
that are no directories, on the way down, and `rm_dir` removes the directory, on the way up. Where
an entry cannot be unlinked, the subdirectories are left alone. A finished run has removed what
could be removed below directories that the walk got through, and reports whether this is all.
-/

namespace Gufi

namespace BottomUpWalk

open BottomUpTask

section Remove

/-- What the file system answers, and the entries of the directories that are no directories. -/
structure Removal where
  opens : BottomUp → Bool
  stats : BottomUp → Bool
  nondirs : BottomUp → List Bytes
  unlinks : BottomUp → Bytes → Bool
  rmdirs : BottomUp → Bool

/-- `rm_nondir` goes on after an entry that it cannot unlink. -/
def Removal.rmNondir (fs : Removal) (b : BottomUp) : ℤ × Bool :=
  let keepGoing := (fs.nondirs b).all (fs.unlinks b)
  (if keepGoing then 0 else 1, keepGoing)

/-- The levels are `0` and `(size_t) -1`. -/
def Removal.userArgs (fs : Removal) : UserArgs where
  minLevel := 0
  maxLevel := 2 ^ 64 - 1
  opens := fs.opens
  stats := fs.stats
  descend := fs.rmNondir

/-- The entries that are left in the directories, the directories that were removed, and those that
`rmdir` failed on. -/
structure Files where
  nondirs : BottomUp → List Bytes
  removed : List BottomUp
  refused : List BottomUp

def Files.start (fs : Removal) : Files := ⟨fs.nondirs, [], []⟩

/-- What `rm_nondir` leaves. -/
def Files.unlink (fs : Removal) (files : Files) (b : BottomUp) : Files :=
  { files with nondirs :=
      Function.update files.nondirs b ((files.nondirs b).filter fun n => !fs.unlinks b n) }

/-- `rm_dir`: a directory is only removed if nothing is left in it. -/
def Files.rmdir (fs : Removal) (files : Files) (b : BottomUp) : Files :=
  if files.nondirs b = [] ∧ (∀ c ∈ b.subdirs, c ∈ files.removed) ∧ fs.rmdirs b = true then
    { files with removed := b :: files.removed }
  else { files with refused := b :: files.refused }

/-- The call returns in this step. -/
def Returns (task : BottomUpTask) (s s' : BottomUpWalk) : Prop :=
  s'.tasks.count task < s.tasks.count task

/-- The walk takes a step, and the functions of `parallel_rmr` act when they return. -/
inductive RmrStep (fs : Removal) : BottomUpWalk × Files → BottomUpWalk × Files → Prop
  | nondir {s s' : BottomUpWalk} (files : Files) (b : BottomUp) (h : Step fs.userArgs s s')
      (hret : Returns (.descending b) s s') : RmrStep fs (s, files) (s', files.unlink fs b)
  | dir {s s' : BottomUpWalk} (files : Files) (b : BottomUp) (h : Step fs.userArgs s s')
      (hret : Returns (.ascending b) s s') : RmrStep fs (s, files) (s', files.rmdir fs b)
  | walk {s s' : BottomUpWalk} (files : Files) (h : Step fs.userArgs s s')
      (hret : ∀ b, ¬Returns (.descending b) s s' ∧ ¬Returns (.ascending b) s s') :
      RmrStep fs (s, files) (s', files)

def Removes (fs : Removal) (roots : List DirTree) (x : BottomUpWalk × Files) : Prop :=
  Relation.ReflTransGen (RmrStep fs) (start 0 roots, .start fs) x

/-- Every task of the walk has returned 0. -/
def Succeeded (x : BottomUpWalk × Files) : Prop :=
  x.1.unopened = 0 ∧ x.1.dropped = 0 ∧ x.2.refused = []

/-- Everything in the directory, and the directory itself, can be removed. -/
inductive Clears (fs : Removal) : BottomUp → Prop
  | dir {b : BottomUp} (hopen : fs.opens b = true) (hstat : fs.stats b = true)
      (hnondirs : ∀ n ∈ fs.nondirs b, fs.unlinks b n = true) (hrmdir : fs.rmdirs b = true)
      (hsubdirs : ∀ c ∈ b.subdirs, Clears fs c) : Clears fs b

end Remove

section Steps

variable {ua : UserArgs} {s s' : BottomUpWalk} {b : BottomUp}

/-- The directory's descend function returns: the directory is descended or dropped. -/
def Descends (b : BottomUp) (s s' : BottomUpWalk) : Prop :=
  s'.ascended = s.ascended ∧ s'.unopened = s.unopened ∧
    (s'.descended = b ::ₘ s.descended ∧ s'.dropped = s.dropped ∨
      s'.descended = s.descended ∧ s'.dropped = b ::ₘ s.dropped)

/-- The directory's ascend function returns. -/
def Ascends (b : BottomUp) (s s' : BottomUpWalk) : Prop :=
  s'.ascended = b ::ₘ s.ascended ∧ s'.descended = s.descended ∧ s'.dropped = s.dropped ∧
    s'.unopened = s.unopened

/-- Neither of the user's functions returns. -/
def Moves (ua : UserArgs) (s s' : BottomUpWalk) : Prop :=
  s'.ascended = s.ascended ∧ s'.descended = s.descended ∧
    (s'.dropped = s.dropped ∨ ∃ b, ua.stats b = false ∧ s'.dropped = b ::ₘ s.dropped)

/-- A step takes one task off and adds others. -/
theorem Step.consumes (h : Step ua s s') : ∃ a rest added, s.tasks = a ::ₘ rest ∧
    s'.tasks = added + rest ∧
      ((∃ b, a = .descending b ∧ a ∉ added ∧ Descends b s s') ∨
        (∃ b, a = .ascending b ∧ a ∉ added ∧ Ascends b s s') ∨
        (∀ b, a ≠ .descending b ∧ a ≠ .ascending b) ∧ Moves ua s s') := by
  cases h with
  | openFails b rest htask =>
      exact ⟨_, rest, _, htask, rfl, .inr (.inr ⟨fun _ => ⟨nofun, nofun⟩, rfl, rfl, .inl rfl⟩)⟩
  | statFails b rest htask _ hstat =>
      exact ⟨_, rest, 0, htask, (zero_add rest).symm,
        .inr (.inr ⟨fun _ => ⟨nofun, nofun⟩, rfl, rfl, .inr ⟨b, hstat, rfl⟩⟩)⟩
  | descend b rest htask =>
      exact ⟨_, rest, {.descending b}, htask, rfl,
        .inr (.inr ⟨fun _ => ⟨nofun, nofun⟩, rfl, rfl, .inl rfl⟩)⟩
  | descendFails b rest htask =>
      exact ⟨_, rest, 0, htask, (zero_add rest).symm,
        .inl ⟨b, rfl, Multiset.notMem_zero _, rfl, rfl, .inr ⟨rfl, rfl⟩⟩⟩
  | goDown b rest htask =>
      exact ⟨_, rest, {.enqueueing b b.subdirs}, htask, rfl,
        .inl ⟨b, rfl, by simp, rfl, rfl, .inl ⟨rfl, rfl⟩⟩⟩
  | turn b rest htask =>
      exact ⟨_, rest, {.ascend b}, htask, rfl,
        .inl ⟨b, rfl, by simp, rfl, rfl, .inl ⟨rfl, rfl⟩⟩⟩
  | enqueue b c cs rest htask =>
      exact ⟨_, rest, {.descend c, .enqueueing b cs}, htask, by simp,
        .inr (.inr ⟨fun _ => ⟨nofun, nofun⟩, rfl, rfl, .inl rfl⟩)⟩
  | unlock b rest htask =>
      exact ⟨_, rest, 0, htask, (zero_add rest).symm,
        .inr (.inr ⟨fun _ => ⟨nofun, nofun⟩, rfl, rfl, .inl rfl⟩)⟩
  | countDown b rest htask =>
      exact ⟨_, rest, 0, htask, (zero_add rest).symm,
        .inr (.inr ⟨fun _ => ⟨nofun, nofun⟩, rfl, rfl, .inl rfl⟩)⟩
  | ascend b rest htask =>
      exact ⟨_, rest, {.ascending b}, htask, rfl,
        .inr (.inr ⟨fun _ => ⟨nofun, nofun⟩, rfl, rfl, .inl rfl⟩)⟩
  | ascended b rest htask =>
      have hadded : .ascending b ∉ ascendParent b := by
        unfold ascendParent
        cases b.parent <;> simp
      exact ⟨_, rest, _, htask, rfl, .inr (.inl ⟨b, rfl, hadded, rfl, rfl, rfl, rfl⟩)⟩

/-- The calls that return in a step are the task that it takes off, if it does not add it again. -/
theorem eq_of_returns {a task : BottomUpTask} {rest added : Multiset BottomUpTask}
    (hs : s.tasks = a ::ₘ rest) (hs' : s'.tasks = added + rest) (h : Returns task s s') :
    task = a := by
  by_contra hne
  rw [Returns, hs, hs', Multiset.count_cons_of_ne hne, Multiset.count_add] at h
  omega

theorem returns_of_notMem {a : BottomUpTask} {rest added : Multiset BottomUpTask}
    (hs : s.tasks = a ::ₘ rest) (hs' : s'.tasks = added + rest) (h : a ∉ added) :
    Returns a s s' := by
  rw [Returns, hs, hs', Multiset.count_cons_self, Multiset.count_add,
    Multiset.count_eq_zero.mpr h]
  omega

theorem Step.descends (h : Step ua s s') (hret : Returns (.descending b) s s') :
    Descends b s s' := by
  obtain ⟨a, rest, added, hs, hs', hcases⟩ := h.consumes
  have ha := eq_of_returns hs hs' hret
  rcases hcases with ⟨b', rfl, -, h⟩ | ⟨b', rfl, -⟩ | ⟨hne, -⟩
  · cases ha
    exact h
  · cases ha
  · exact absurd ha.symm (hne b).1

theorem Step.ascends (h : Step ua s s') (hret : Returns (.ascending b) s s') : Ascends b s s' := by
  obtain ⟨a, rest, added, hs, hs', hcases⟩ := h.consumes
  have ha := eq_of_returns hs hs' hret
  rcases hcases with ⟨b', rfl, -⟩ | ⟨b', rfl, -, h⟩ | ⟨hne, -⟩
  · cases ha
  · cases ha
    exact h
  · exact absurd ha.symm (hne b).2

theorem Step.moves (h : Step ua s s')
    (hret : ∀ b, ¬Returns (.descending b) s s' ∧ ¬Returns (.ascending b) s s') : Moves ua s s' := by
  obtain ⟨a, rest, added, hs, hs', hcases⟩ := h.consumes
  rcases hcases with ⟨b, rfl, hnot, -⟩ | ⟨b, rfl, hnot, -⟩ | ⟨-, h⟩
  · exact absurd (returns_of_notMem hs hs' hnot) (hret b).1
  · exact absurd (returns_of_notMem hs hs' hnot) (hret b).2
  · exact h

end Steps

section Invariant

variable {fs : Removal} {roots : List DirTree} {s s' : BottomUpWalk} {files : Files} {b c : BottomUp}

/-- The entries of the directory have been tried. -/
def Tried (fs : Removal) (s : BottomUpWalk) (b : BottomUp) : Prop :=
  b ∈ s.descended ∨ b ∈ s.dropped ∧ fs.stats b = true

/-- What the files say of the walk: the directories that were ascended are removed or refused. -/
structure Recorded (fs : Removal) (s : BottomUpWalk) (files : Files) : Prop where
  tried : ∀ b, Tried fs s b →
    files.nondirs b = (fs.nondirs b).filter fun n => !fs.unlinks b n
  kept : ∀ b, ¬Tried fs s b → files.nondirs b = fs.nondirs b
  removed : ∀ b, b ∈ files.removed ↔
    b ∈ s.ascended ∧ fs.rmdirs b = true ∧ ∀ c ∈ b.subdirs, c ∈ files.removed
  refused : ∀ b, b ∈ files.refused ↔ b ∈ s.ascended ∧ b ∉ files.removed

theorem Removes.reaches {x : BottomUpWalk × Files} (h : Removes fs roots x) :
    Reaches fs.userArgs (start 0 roots) x.1 := by
  induction h with
  | refl => exact .refl
  | tail _ hstep ih =>
      cases hstep with
      | nondir _ _ h _ => exact ih.tail h
      | dir _ _ h _ => exact ih.tail h
      | walk _ h _ => exact ih.tail h

theorem mem_levels_of_visited (h : Visited fs.userArgs 0 roots b) :
    ∃ t ∈ roots, (b.level, b.dir) ∈ t.levels 0 := by
  induction h with
  | @root t ht =>
      refine ⟨t, ht, ?_⟩
      rw [DirTree.levels_eq]
      exact List.mem_cons_self ..
  | subdir _ _ _ hc ih =>
      obtain ⟨t, ht, hlevel⟩ := ih
      obtain ⟨d, hd, rfl⟩ := List.mem_map.mp hc
      exact ⟨t, ht, DirTree.mem_levels_subdir hlevel hd⟩

theorem descendRc_eq_zero_iff (hlevel : b.level ≤ 2 ^ 64 - 1) :
    (fs.userArgs.descendRc b).1 = 0 ↔ ∀ n ∈ fs.nondirs b, fs.unlinks b n = true := by
  rw [UserArgs.descendRc, if_pos ⟨Nat.zero_le _, hlevel⟩]
  change (if (fs.nondirs b).all (fs.unlinks b) then (0 : ℤ) else 1) = 0 ↔ _
  rw [← List.all_eq_true]
  split_ifs with h <;> simp [h]

section Depth

variable (hdepth : ∀ t ∈ roots, ∀ x ∈ t.levels 0, x.1 < 2 ^ 64)
include hdepth

theorem level_le (h : Visited fs.userArgs 0 roots b) : b.level ≤ 2 ^ 64 - 1 := by
  obtain ⟨t, ht, hlevel⟩ := mem_levels_of_visited h
  have hlt := hdepth t ht _ hlevel
  dsimp only at hlt
  omega

theorem succeeds_iff (h : Visited fs.userArgs 0 roots b) : Succeeds fs.userArgs b ↔
    fs.opens b = true ∧ fs.stats b = true ∧ ∀ n ∈ fs.nondirs b, fs.unlinks b n = true := by
  rw [Succeeds, descendRc_eq_zero_iff (level_le hdepth h)]
  rfl

/-- The walk goes down where there is something below. -/
theorem goesDown_of_succeeds (h : Visited fs.userArgs 0 roots b)
    (hsucceeds : Succeeds fs.userArgs b) (hc : c ∈ b.subdirs) : fs.userArgs.GoesDown b := by
  have hlevel := level_le hdepth h
  refine ⟨?_, ?_, List.ne_nil_of_mem hc⟩
  · have hall := (descendRc_eq_zero_iff hlevel).mp hsucceeds.2.2
    rw [UserArgs.descendRc, if_pos ⟨Nat.zero_le _, hlevel⟩]
    exact List.all_eq_true.mpr hall
  · obtain ⟨t, ht, hmem⟩ := mem_levels_of_visited h
    obtain ⟨d, hd, rfl⟩ := List.mem_map.mp hc
    have hlt := hdepth t ht _ (DirTree.mem_levels_subdir hmem hd)
    change b.level + 1 ≤ 2 ^ 64 - 1
    dsimp only at hlt
    omega

section Recorded

variable (h : Ordered fs.userArgs 0 roots s) (ha : Answered fs.userArgs s)
include h ha

omit hdepth in
theorem visited_of_descended (hb : b ∈ s.descended) : Visited fs.userArgs 0 roots b := by
  have hle := h.descended_le_offered b
  have hpos := Multiset.count_pos.mpr hb
  exact visited_of_offered h ha (by omega)

omit hdepth ha in
theorem descended_of_ascended (hb : b ∈ s.ascended) : b ∈ s.descended := by
  have hle := h.ascended_le b
  have hpos := Multiset.count_pos.mpr hb
  exact Multiset.count_pos.mp (by omega)

/-- What is below a directory that was ascended, or is being ascended, is settled. -/
theorem settled_of_rising (hwf : ∀ t ∈ roots, t.WellFormed) (hroots : roots.Nodup)
    (hb : 0 < total s.tasks (rising b) + s.ascended.count b) (hc : c ∈ b.subdirs) :
    c ∈ s.ascended ∨ c ∈ s.unopened := by
  have hle := h.ascended_le b
  have hdescended : b ∈ s.descended := Multiset.count_pos.mp (by omega)
  have hdown := goesDown_of_succeeds hdepth (visited_of_descended h ha hdescended)
    (ha.descended b hdescended) hc
  have hzero : s.remaining b = 0 := by
    by_contra hne
    have hrisen := h.risen b hdown
    rw [if_neg hne] at hrisen
    omega
  have hone := h.settled_of_remaining_eq_zero hwf hroots hdown hdescended hzero c hc
  rcases Nat.eq_zero_or_pos (s.ascended.count c) with hasc | hasc
  · exact Or.inr (Multiset.count_pos.mp (by omega))
  · exact Or.inl (Multiset.count_pos.mp hasc)

/-- Nothing is left in a directory that was descended but its subdirectories. -/
theorem nondirs_eq_nil (hr : Recorded fs s files) (hb : b ∈ s.descended) :
    files.nondirs b = [] := by
  rw [hr.tried b (Or.inl hb), List.filter_eq_nil_iff]
  intro n hn
  have hsucceeds := (succeeds_iff hdepth (visited_of_descended h ha hb)).mp (ha.descended b hb)
  rw [hsucceeds.2.2 n hn]
  exact Bool.false_ne_true

end Recorded

end Depth

/-- `rm_nondir` on a directory of the walk. -/
theorem Recorded.unlink (hr : Recorded fs s files) (hstat : fs.stats b = true)
    (hstep : Descends b s s') : Recorded fs s' (files.unlink fs b) := by
  obtain ⟨hascended, -, hcase⟩ := hstep
  have htried (x : BottomUp) : Tried fs s' x ↔ x = b ∨ Tried fs s x := by
    unfold Tried
    rcases hcase with ⟨hdesc, hdrop⟩ | ⟨hdesc, hdrop⟩
    · rw [hdesc, hdrop, Multiset.mem_cons, or_assoc]
    · rw [hdesc, hdrop, Multiset.mem_cons]
      constructor
      · rintro (hx | ⟨rfl | hx, hs⟩)
        · exact Or.inr (Or.inl hx)
        · exact Or.inl rfl
        · exact Or.inr (Or.inr ⟨hx, hs⟩)
      · rintro (rfl | hx | hx)
        · exact Or.inr ⟨Or.inl rfl, hstat⟩
        · exact Or.inl hx
        · exact Or.inr ⟨Or.inr hx.1, hx.2⟩
  constructor
  · intro x hx
    change Function.update files.nondirs b _ x = _
    by_cases hxb : x = b
    · subst hxb
      rw [Function.update_self]
      by_cases hold : Tried fs s x
      · rw [hr.tried x hold, List.filter_filter]
        simp
      · rw [hr.kept x hold]
    · rw [Function.update_of_ne hxb]
      exact hr.tried x (((htried x).mp hx).resolve_left hxb)
  · intro x hx
    change Function.update files.nondirs b _ x = _
    rw [htried, not_or] at hx
    rw [Function.update_of_ne hx.1]
    exact hr.kept x hx.2
  · intro x
    rw [hascended]
    exact hr.removed x
  · intro x
    rw [hascended]
    exact hr.refused x

/-- A step in which neither function returns. -/
theorem Recorded.move (hr : Recorded fs s files) (hstep : Moves fs.userArgs s s') :
    Recorded fs s' files := by
  obtain ⟨hascended, hdescended, hdropped⟩ := hstep
  have htried (x : BottomUp) : Tried fs s' x ↔ Tried fs s x := by
    unfold Tried
    rw [hdescended]
    rcases hdropped with hdropped | ⟨b, hstat, hdropped⟩
    · rw [hdropped]
    · rw [hdropped, Multiset.mem_cons]
      constructor
      · rintro (hx | ⟨rfl | hx, hs⟩)
        · exact Or.inl hx
        · change fs.stats x = false at hstat
          rw [hs] at hstat
          cases hstat
        · exact Or.inr ⟨hx, hs⟩
      · rintro (hx | hx)
        · exact Or.inl hx
        · exact Or.inr ⟨Or.inr hx.1, hx.2⟩
  constructor
  · intro x hx
    exact hr.tried x ((htried x).mp hx)
  · intro x hx
    exact hr.kept x (mt (htried x).mpr hx)
  · intro x
    rw [hascended]
    exact hr.removed x
  · intro x
    rw [hascended]
    exact hr.refused x

/-- `rm_dir` on a directory of the walk. -/
theorem Recorded.rmdir (hr : Recorded fs s files) (hnil : files.nondirs b = [])
    (hnew : b ∉ s.ascended)
    (hsettled : ∀ x ∈ s.ascended, b ∉ x.subdirs) (hstep : Ascends b s s') :
    Recorded fs s' (files.rmdir fs b) := by
  obtain ⟨hascended, hdescended, hdropped, -⟩ := hstep
  have hnondirs : (files.rmdir fs b).nondirs = files.nondirs := by
    unfold Files.rmdir
    split_ifs <;> rfl
  have htried (x : BottomUp) : Tried fs s' x ↔ Tried fs s x := by
    unfold Tried
    rw [hdescended, hdropped]
  have hself : b ∉ b.subdirs := by
    intro hmem
    obtain ⟨d, -, hd⟩ := List.mem_map.mp hmem
    have hlevel := congrArg BottomUp.level hd
    change b.level + 1 = b.level at hlevel
    omega
  -- what is removed changes for the directory only
  have hother {x : BottomUp} (hx : x ≠ b) :
      x ∈ (files.rmdir fs b).removed ↔ x ∈ files.removed := by
    unfold Files.rmdir
    split_ifs
    · exact List.mem_cons.trans (or_iff_right hx)
    · rfl
  have hsubdirs {x : BottomUp} (hx : b ∉ x.subdirs) :
      (∀ c ∈ x.subdirs, c ∈ (files.rmdir fs b).removed) ↔ ∀ c ∈ x.subdirs, c ∈ files.removed := by
    refine forall₂_congr fun c hc => hother ?_
    rintro rfl
    exact hx hc
  have hnotRemoved : b ∉ files.removed := fun hmem => hnew ((hr.removed b).mp hmem).1
  have hnotRefused : b ∉ files.refused := fun hmem => hnew ((hr.refused b).mp hmem).1
  have hb : b ∈ (files.rmdir fs b).removed ↔
      (∀ c ∈ b.subdirs, c ∈ files.removed) ∧ fs.rmdirs b = true := by
    unfold Files.rmdir
    rw [hnil]
    split_ifs with hcan
    · exact iff_of_true (List.mem_cons_self ..) hcan.2
    · exact iff_of_false hnotRemoved fun hall => hcan ⟨rfl, hall⟩
  constructor
  · intro x hx
    rw [hnondirs]
    exact hr.tried x ((htried x).mp hx)
  · intro x hx
    rw [hnondirs]
    exact hr.kept x (mt (htried x).mpr hx)
  · intro x
    rw [hascended, Multiset.mem_cons]
    by_cases hxb : x = b
    · subst hxb
      rw [hb, hsubdirs hself]
      tauto
    · rw [hother hxb, hr.removed x]
      constructor
      · rintro ⟨hasc, hrm, hsub⟩
        exact ⟨Or.inr hasc, hrm, (hsubdirs (hsettled x hasc)).mpr hsub⟩
      · rintro ⟨hasc, hrm, hsub⟩
        have hasc := hasc.resolve_left hxb
        exact ⟨hasc, hrm, (hsubdirs (hsettled x hasc)).mp hsub⟩
  · intro x
    rw [hascended, Multiset.mem_cons]
    by_cases hxb : x = b
    · subst hxb
      have hrefused : x ∈ (files.rmdir fs x).refused ↔ x ∉ (files.rmdir fs x).removed := by
        unfold Files.rmdir
        split_ifs
        · exact iff_of_false hnotRefused fun hnot => hnot (List.mem_cons_self ..)
        · exact iff_of_true (List.mem_cons_self ..) hnotRemoved
      rw [hrefused]
      tauto
    · have hrefused : x ∈ (files.rmdir fs b).refused ↔ x ∈ files.refused := by
        unfold Files.rmdir
        split_ifs
        · rfl
        · exact List.mem_cons.trans (or_iff_right hxb)
      rw [hrefused, hr.refused x, hother hxb]
      tauto

end Invariant

section Runs

variable {fs : Removal} {roots : List DirTree} {x : BottomUpWalk × Files} {b : BottomUp}

/-- The files record the walk in every run. -/
theorem Removes.recorded (hwf : ∀ t ∈ roots, t.WellFormed) (hroots : roots.Nodup)
    (hdepth : ∀ t ∈ roots, ∀ y ∈ t.levels 0, y.1 < 2 ^ 64) (hrun : Removes fs roots x) :
    Recorded fs x.1 x.2 := by
  induction hrun with
  | refl =>
      have htried (b : BottomUp) : ¬Tried fs (start 0 roots) b := by
        rintro (hb | ⟨hb, -⟩) <;> exact absurd hb (Multiset.notMem_zero b)
      constructor
      · intro b hb
        exact absurd hb (htried b)
      · exact fun _ _ => rfl
      · intro b
        exact iff_of_false List.not_mem_nil fun hb => absurd hb.1 (Multiset.notMem_zero b)
      · intro b
        exact iff_of_false List.not_mem_nil fun hb => absurd hb.1 (Multiset.notMem_zero b)
  | @tail y z hy hstep ih =>
      have hreaches := Removes.reaches hy
      have h := ordered_of_reaches hwf hroots hreaches
      have ha := answered_of_reaches hreaches
      cases hstep with
      | @nondir s s' files b hwalk hret =>
          have hmem : .descending b ∈ s.tasks := Multiset.count_pos.mp (by
            unfold Returns at hret
            omega)
          exact ih.unlink (ha.descending b hmem).2 (hwalk.descends hret)
      | @dir s s' files b hwalk hret =>
          have hmem : .ascending b ∈ s.tasks := Multiset.count_pos.mp (by
            unfold Returns at hret
            omega)
          have hrising : 0 < total s.tasks (rising b) := by
            rw [total_rising]
            exact Multiset.count_pos.mpr hmem
          dsimp only at h ha ih
          have hle := h.ascended_le b
          have hone := h.offered_le_one hwf hroots b
          have hoffered := h.descended_le_offered b
          have hdescended : b ∈ s.descended := Multiset.count_pos.mp (by omega)
          apply ih.rmdir (nondirs_eq_nil hdepth h ha ih hdescended) _ _ (hwalk.ascends hret)
          · apply Multiset.count_eq_zero.mp
            omega
          · intro x hx hsub
            have hpos := Multiset.count_pos.mpr hx
            rcases settled_of_rising hdepth h ha hwf hroots (by omega) hsub with hasc | hun
            · have hasc := Multiset.count_pos.mpr hasc
              omega
            · have hopen := (ha.descended b hdescended).1
              rw [ha.unopened b hun] at hopen
              cases hopen
      | walk files hwalk hret => exact ih.move (hwalk.moves hret)

section Finished

/-- Below a directory in which everything can be removed, every directory is visited. -/
theorem Clears.visited_subdir (hdepth : ∀ t ∈ roots, ∀ y ∈ t.levels 0, y.1 < 2 ^ 64)
    (hclears : Clears fs b) (hb : Visited fs.userArgs 0 roots b) :
    ∀ c ∈ b.subdirs, Visited fs.userArgs 0 roots c := by
  intro c hc
  cases hclears with
  | dir hopen hstat hnondirs _ _ =>
      have hsucceeds := (succeeds_iff hdepth hb).mpr ⟨hopen, hstat, hnondirs⟩
      exact hb.subdir hsucceeds (goesDown_of_succeeds hdepth hb hsucceeds hc) hc

/-- A directory in which everything can be removed is ascended. -/
theorem Clears.ascended (hwf : ∀ t ∈ roots, t.WellFormed) (hroots : roots.Nodup)
    (hdepth : ∀ t ∈ roots, ∀ y ∈ t.levels 0, y.1 < 2 ^ 64) {s : BottomUpWalk}
    (h : Ordered fs.userArgs 0 roots s) (ha : Answered fs.userArgs s) (hdone : s.tasks = 0)
    (hclears : Clears fs b) (hb : Visited fs.userArgs 0 roots b) : s.ascended.count b = 1 := by
  induction hclears with
  | @dir b hopen hstat hnondirs hrmdir hsubdirs ih =>
      have hclears := Clears.dir hopen hstat hnondirs hrmdir hsubdirs
      have hsucceeds := (succeeds_iff hdepth hb).mpr ⟨hopen, hstat, hnondirs⟩
      have hdescended := descended_of_finished h ha hdone
        (offered_pos_of_visited h ha hdone hb) hsucceeds
      have hone := descended_eq_one h hwf hroots hdescended
      by_cases hdown : fs.userArgs.GoesDown b
      · have hsettled : ∀ c ∈ b.subdirs, 1 ≤ s.ascended.count c + s.unopened.count c := by
          intro c hc
          rw [ih c hc (hclears.visited_subdir hdepth hb c hc)]
          omega
        have hsum : b.subdirs.length ≤ s.settled b := by
          unfold settled
          have hcard := List.card_nsmul_le_sum
            (b.subdirs.map fun c => s.ascended.count c + s.unopened.count c) 1
            (by simpa using hsettled)
          simpa using hcard
        have hcounted := h.counted b hdown
        have hrisen := h.risen b hdown
        rw [hdone, hone] at hcounted hrisen
        simp only [total, Multiset.map_zero, Multiset.sum_zero] at hcounted hrisen
        have hzero : s.remaining b = 0 := by omega
        rw [if_pos hzero] at hrisen
        omega
      · have hturned := (h.turned b hdown).2
        rw [hdone] at hturned
        simp only [total, Multiset.map_zero, Multiset.sum_zero] at hturned
        omega

/-- What has been removed could be removed. -/
theorem clears_of_removed (hdepth : ∀ t ∈ roots, ∀ y ∈ t.levels 0, y.1 < 2 ^ 64)
    {s : BottomUpWalk} {files : Files} (h : Ordered fs.userArgs 0 roots s)
    (ha : Answered fs.userArgs s) (hr : Recorded fs s files) (hb : b ∈ files.removed) :
    Visited fs.userArgs 0 roots b ∧ Clears fs b := by
  induction hdir : b.dir using DirTree.induct generalizing b with
  | node path subdirs ih =>
      obtain ⟨hascended, hrmdir, hsubdirs⟩ := (hr.removed b).mp hb
      have hdescended := descended_of_ascended h hascended
      have hvisited := visited_of_descended h ha hdescended
      obtain ⟨hopen, hstat, hnondirs⟩ :=
        (succeeds_iff hdepth hvisited).mp (ha.descended b hdescended)
      refine ⟨hvisited, .dir hopen hstat hnondirs hrmdir fun c hc => ?_⟩
      obtain ⟨d, hd, rfl⟩ := List.mem_map.mp hc
      rw [hdir] at hd
      exact (ih d hd (hsubdirs _ hc) rfl).2

/-- What can be removed and is visited has been removed in the end. -/
theorem Clears.removed (hwf : ∀ t ∈ roots, t.WellFormed) (hroots : roots.Nodup)
    (hdepth : ∀ t ∈ roots, ∀ y ∈ t.levels 0, y.1 < 2 ^ 64) {s : BottomUpWalk} {files : Files}
    (h : Ordered fs.userArgs 0 roots s) (ha : Answered fs.userArgs s) (hr : Recorded fs s files)
    (hdone : s.tasks = 0) (hclears : Clears fs b) (hb : Visited fs.userArgs 0 roots b) :
    b ∈ files.removed := by
  induction hclears with
  | @dir b hopen hstat hnondirs hrmdir hsubdirs ih =>
      have hclears := Clears.dir hopen hstat hnondirs hrmdir hsubdirs
      have hone := hclears.ascended hwf hroots hdepth h ha hdone hb
      apply (hr.removed b).mpr
      refine ⟨Multiset.count_pos.mp (by omega), hrmdir, fun c hc => ?_⟩
      exact ih c hc (hclears.visited_subdir hdepth hb c hc)

/-- The entries that are left in the directories of a finished walk. -/
theorem notMem_nondirs_iff {s : BottomUpWalk} {files : Files}
    (h : Ordered fs.userArgs 0 roots s) (ha : Answered fs.userArgs s) (hr : Recorded fs s files)
    (hdone : s.tasks = 0) (hb : Visited fs.userArgs 0 roots b) {n : Bytes}
    (hn : n ∈ fs.nondirs b) : n ∉ files.nondirs b ↔
      fs.opens b = true ∧ fs.stats b = true ∧ fs.unlinks b n = true := by
  have htried : Tried fs s b ↔ fs.opens b = true ∧ fs.stats b = true := by
    constructor
    · rintro (hmem | ⟨hmem, hstat⟩)
      · exact ⟨(ha.descended b hmem).1, (ha.descended b hmem).2.1⟩
      · exact ⟨(ha.dropped b hmem).1, hstat⟩
    · rintro ⟨hopen, hstat⟩
      have hpos := offered_pos_of_visited h ha hdone hb
      have heq := offered_eq_of_finished h hdone b
      have hopened := count_unopened_eq_zero ha hopen
      rcases Nat.eq_zero_or_pos (s.descended.count b) with hzero | hpos
      · exact Or.inr ⟨Multiset.count_pos.mp (by omega), hstat⟩
      · exact Or.inl (Multiset.count_pos.mp hpos)
  by_cases hmem : Tried fs s b
  · rw [hr.tried b hmem, List.mem_filter]
    obtain ⟨hopen, hstat⟩ := htried.mp hmem
    simp [hn, hopen, hstat]
  · rw [hr.kept b hmem]
    exact iff_of_false (not_not.mpr hn) fun hall => hmem (htried.mpr ⟨hall.1, hall.2.1⟩)

/-- The exit status says whether the roots have been removed. -/
theorem succeeded_iff (hwf : ∀ t ∈ roots, t.WellFormed) (hroots : roots.Nodup)
    (hdepth : ∀ t ∈ roots, ∀ y ∈ t.levels 0, y.1 < 2 ^ 64)
    (h : Ordered fs.userArgs 0 roots x.1) (ha : Answered fs.userArgs x.1)
    (hr : Recorded fs x.1 x.2) (hdone : x.1.tasks = 0) :
    Succeeded x ↔ ∀ t ∈ roots, BottomUp.root 0 t ∈ x.2.removed := by
  constructor
  · rintro ⟨hunopened, hdropped, hrefused⟩ t ht
    have hroot : Visited fs.userArgs 0 roots (.root 0 t) := .root ht
    have hdescended {b : BottomUp} (hb : Visited fs.userArgs 0 roots b) : b ∈ x.1.descended := by
      have hpos := offered_pos_of_visited h ha hdone hb
      have heq := offered_eq_of_finished h hdone b
      rw [hunopened, hdropped] at heq
      exact Multiset.count_pos.mp (by simpa [heq] using hpos)
    have hkeep : ∀ c p, Visited fs.userArgs 0 roots c → c.parent = some p →
        ¬Drops fs.userArgs c := by
      intro c p hc _ hdrops
      exact hdrops.2 (ha.descended c (hdescended hc)).2
    have hone := ascended_eq_one h ha hdone hwf hroots hkeep (hdescended hroot)
    by_contra hnot
    have hmem := (hr.refused _).mpr ⟨Multiset.count_pos.mp (by omega), hnot⟩
    rw [hrefused] at hmem
    cases hmem
  · intro hall
    have hclears {b : BottomUp} (hb : Visited fs.userArgs 0 roots b) : Clears fs b := by
      induction hb with
      | root ht => exact (clears_of_removed hdepth h ha hr (hall _ ht)).2
      | subdir _ _ _ hc ih =>
          cases ih with
          | dir _ _ _ _ hsubdirs => exact hsubdirs _ hc
    have hoffered {b : BottomUp} (hb : 0 < x.1.unopened.count b + x.1.dropped.count b) :
        Visited fs.userArgs 0 roots b := by
      have heq := offered_eq_of_finished h hdone b
      exact visited_of_offered h ha (by omega)
    refine ⟨?_, ?_, ?_⟩
    · apply Multiset.eq_zero_of_forall_notMem
      intro b hb
      have hpos := Multiset.count_pos.mpr hb
      cases hclears (hoffered (b := b) (by omega)) with
      | dir hopen _ _ _ _ =>
          have hclosed := ha.unopened b hb
          change fs.opens b = false at hclosed
          rw [hopen] at hclosed
          cases hclosed
    · apply Multiset.eq_zero_of_forall_notMem
      intro b hb
      have hpos := Multiset.count_pos.mpr hb
      have hvisited := hoffered (b := b) (by omega)
      cases hclears hvisited with
      | dir hopen hstat hnondirs _ _ =>
          exact (ha.dropped b hb).2
            ((succeeds_iff hdepth hvisited).mpr ⟨hopen, hstat, hnondirs⟩).2
    · apply List.eq_nil_iff_forall_not_mem.mpr
      intro b hb
      obtain ⟨hascended, hnot⟩ := (hr.refused b).mp hb
      have hvisited := visited_of_descended h ha (descended_of_ascended h hascended)
      exact hnot ((hclears hvisited).removed hwf hroots hdepth h ha hr hdone hvisited)

end Finished

/-- A finished run has removed the directories that the walk got to and in which everything could be
removed, and no others; the entries that could be unlinked are gone from every directory that the
walk got to and could read; and the exit status is 0 exactly if nothing is left. -/
theorem rmr_removes (hwf : ∀ t ∈ roots, t.WellFormed)
    (hpaths : (roots.flatMap DirTree.paths).Nodup)
    (hdepth : ∀ t ∈ roots, ∀ y ∈ t.levels 0, y.1 < 2 ^ 64) (hrun : Removes fs roots x)
    (hdone : x.1.tasks = 0) :
    (∀ b, b ∈ x.2.removed ↔ Visited fs.userArgs 0 roots b ∧ Clears fs b) ∧
      (∀ b, Visited fs.userArgs 0 roots b → ∀ n ∈ fs.nondirs b, (n ∉ x.2.nondirs b ↔
        fs.opens b = true ∧ fs.stats b = true ∧ fs.unlinks b n = true)) ∧
      (Succeeded x ↔ ∀ t ∈ roots, BottomUp.root 0 t ∈ x.2.removed) := by
  have hroots : roots.Nodup := by
    apply (List.nodup_flatMap.mp hpaths).2.imp
    rintro t _ hdisjoint rfl
    have hself : t.path ∈ t.paths := List.mem_map_of_mem t.self_mem_subtrees
    exact hdisjoint hself hself
  have hreaches := Removes.reaches hrun
  have h := ordered_of_reaches hwf hroots hreaches
  have ha := answered_of_reaches hreaches
  have hr := Removes.recorded hwf hroots hdepth hrun
  refine ⟨fun b => ⟨clears_of_removed hdepth h ha hr, fun hb => ?_⟩, fun b hb n hn => ?_, ?_⟩
  · exact hb.2.removed hwf hroots hdepth h ha hr hdone hb.1
  · exact notMem_nondirs_iff h ha hr hdone hb hn
  · exact succeeded_iff hwf hroots hdepth h ha hr hdone

section Example

/-- A walk can be followed by the files. -/
theorem exists_removes {s : BottomUpWalk} (h : Reaches fs.userArgs (start 0 roots) s) :
    ∃ files, Removes fs roots (s, files) := by
  induction h with
  | refl => exact ⟨_, .refl⟩
  | @tail s s' _ hstep ih =>
      obtain ⟨files, hrun⟩ := ih
      by_cases hdesc : ∃ b, Returns (.descending b) s s'
      · obtain ⟨b, hret⟩ := hdesc
        exact ⟨_, hrun.tail (.nondir files b hstep hret)⟩
      · by_cases hasc : ∃ b, Returns (.ascending b) s s'
        · obtain ⟨b, hret⟩ := hasc
          exact ⟨_, hrun.tail (.dir files b hstep hret)⟩
        · exact ⟨_, hrun.tail (.walk files hstep fun b =>
            ⟨not_exists.mp hdesc b, not_exists.mp hasc b⟩)⟩

/-- Every directory has an entry `x`, and everything can be removed. -/
def allRemovable : Removal where
  opens _ := true
  stats _ := true
  nondirs _ := [[120]]
  unlinks _ _ := true
  rmdirs _ := true

/-- The walk of `lineTree` when both directories were ascended. -/
def lineRemoved : BottomUpWalk where
  tasks := 0
  remaining := Function.update (Function.update (Function.update
    (Function.update (fun _ => 0) lineRoot 1) lineChild 0) lineChild 0) lineRoot 0
  descended := {lineChild, lineRoot}
  ascended := {lineRoot, lineChild}
  unopened := 0
  dropped := 0

theorem reaches_lineRemoved :
    Reaches allRemovable.userArgs (start 0 [lineTree]) lineRemoved := by
  apply Relation.ReflTransGen.head (Step.descend _ lineRoot 0 rfl rfl rfl)
  apply Relation.ReflTransGen.head (Step.goDown _ lineRoot 0 rfl rfl (by decide))
  apply Relation.ReflTransGen.head (Step.enqueue _ lineRoot lineChild [] 0 rfl)
  apply Relation.ReflTransGen.head (Step.descend _ lineChild {.enqueueing lineRoot []} rfl rfl rfl)
  apply Relation.ReflTransGen.head
    (Step.turn _ lineChild {.enqueueing lineRoot []} rfl rfl (by decide))
  apply Relation.ReflTransGen.head
    (Step.unlock _ lineRoot {.ascend lineChild}
      (Multiset.cons_swap (BottomUpTask.ascend lineChild) (.enqueueing lineRoot []) 0))
  apply Relation.ReflTransGen.head (Step.ascend _ lineChild 0 rfl (by simp [Locked]) rfl)
  apply Relation.ReflTransGen.head (Step.ascended _ lineChild 0 rfl)
  apply Relation.ReflTransGen.head (Step.ascend _ lineRoot 0 rfl (by simp [Locked, ascendParent, lineChild]) rfl)
  apply Relation.ReflTransGen.head (Step.ascended _ lineRoot 0 rfl)
  exact Relation.ReflTransGen.refl

theorem rmr_removes_lineTree : ∃ x, Removes allRemovable [lineTree] x ∧
    (∀ b, b ∈ x.2.removed ↔
      Visited allRemovable.userArgs 0 [lineTree] b ∧ Clears allRemovable b) ∧
    (∀ b, Visited allRemovable.userArgs 0 [lineTree] b → ∀ n ∈ allRemovable.nondirs b,
      (n ∉ x.2.nondirs b ↔ allRemovable.opens b = true ∧ allRemovable.stats b = true ∧
        allRemovable.unlinks b n = true)) ∧
    (Succeeded x ↔ ∀ t ∈ [lineTree], BottomUp.root 0 t ∈ x.2.removed) := by
  obtain ⟨files, hrun⟩ := exists_removes reaches_lineRemoved
  refine ⟨_, hrun, rmr_removes ?_ ?_ ?_ hrun rfl⟩
  · intro t ht
    obtain rfl := List.mem_singleton.mp ht
    exact wellFormed_lineTree
  · rw [List.flatMap_singleton]
    exact wellFormed_lineTree.nodup
  · intro t ht y hy
    obtain rfl := List.mem_singleton.mp ht
    have hlevels : lineTree.levels 0 = [(0, lineTree), (1, .node [47, 114, 47, 97] [])] := by
      simp [DirTree.levels_eq, lineTree, DirTree.subdirs]
    rw [hlevels] at hy
    rcases List.mem_pair.mp hy with rfl | rfl <;> decide

end Example

end Runs

end BottomUpWalk

end Gufi
