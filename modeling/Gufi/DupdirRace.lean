import Gufi.Dupdir

/-!
# Permissions that are lost in a race

A call that makes a directory above its own sets the permissions of that directory later, and in
between the directory's own call may begin and end. This goes wrong exactly if a directory that was
missing and one below it have different permissions.
-/

namespace Gufi.Dupdir

open Relation

section Files

variable {made : Fs → Path → UInt32 → Attrs} {fs fs' : Fs} {path q : Path} {mode : UInt32}
  {node : Option Node}

theorem isDir_iff : isDir fs path = true ↔ ∃ attrs, fs path = some (.dir attrs) := by
  unfold isDir
  split <;> simp_all

theorem WellFormed.isDir_of_prefix (h : WellFormed fs) (hpath : fs path ≠ none)
    (hq : q <+: path) (hne : q ≠ path) : isDir fs q := by
  induction path using List.reverseRecOn with
  | nil => exact absurd (List.prefix_nil.mp hq) hne
  | append_singleton path n ih =>
      have habove := h.above path n hpath
      rcases List.prefix_concat_iff.mp hq with rfl | hq
      · exact absurd rfl hne
      · by_cases hsame : q = path
        · rwa [hsame]
        · obtain ⟨attrs, hattrs⟩ := isDir_iff.mp habove
          exact ih (by rw [hattrs]; exact nofun) hq hsame

theorem WellFormed.eq_none_of_prefix (h : WellFormed fs) (hq : q <+: path) (hnone : fs q = none) :
    fs path = none := by
  by_contra hpath
  by_cases hne : q = path
  · exact hpath (hne ▸ hnone)
  · obtain ⟨attrs, hattrs⟩ := isDir_iff.mp (h.isDir_of_prefix hpath hq hne)
    rw [hnone] at hattrs
    exact nomatch hattrs

/-- Where the directory above is there, `mkdir` looks at the path itself. -/
theorem WellFormed.mkdir_eq (h : WellFormed fs) (habove : isDir fs path.dropLast) :
    mkdir made fs path mode = if fs path ≠ none then .error .exist
      else .ok (Function.update fs path (some (.dir (made fs path mode)))) := by
  have hdirs (q : Path) (hq : q ∈ path.dropLast.inits) : isDir fs q := by
    by_cases hne : q = path.dropLast
    · rwa [hne]
    · obtain ⟨attrs, hattrs⟩ := isDir_iff.mp habove
      exact h.isDir_of_prefix (by rw [hattrs]; exact nofun) ((List.mem_inits _ _).mp hq) hne
  have hother : (path.dropLast.inits.any fun q => fs q = some .other) = false := by
    rw [List.any_eq_false]
    intro q hq hother
    obtain ⟨attrs, hattrs⟩ := isDir_iff.mp (hdirs q hq)
    rw [decide_eq_true_eq, hattrs] at hother
    exact nomatch hother
  have hnone : (path.dropLast.inits.any fun q => fs q = none) = false := by
    rw [List.any_eq_false]
    intro q hq hnone
    obtain ⟨attrs, hattrs⟩ := isDir_iff.mp (hdirs q hq)
    rw [decide_eq_true_eq, hattrs] at hnone
    exact nomatch hnone
  simp only [mkdir, hother, hnone, Bool.false_eq_true, if_false]

/-- No file stands in the way of the directory. -/
def Clear (fs : Fs) (path : Path) : Prop := ∀ q, q <+: path → fs q ≠ some .other

/-- What `mkdir` says of the directories above. -/
theorem WellFormed.mkdir_cases (h : WellFormed fs) (path : Path) (mode : UInt32) :
    (isDir fs path.dropLast ∧ mkdir made fs path mode = if fs path ≠ none then .error .exist
      else .ok (Function.update fs path (some (.dir (made fs path mode))))) ∨
    (mkdir made fs path mode = .error .noent ∧ fs path = none ∧ Clear fs path) ∨
    (mkdir made fs path mode = .error .notdir ∧ ¬ Clear fs path) := by
  by_cases hother : path.dropLast.inits.any fun q => fs q = some .other
  · refine .inr (.inr ⟨if_pos hother, fun hclear => ?_⟩)
    obtain ⟨q, hq, hnode⟩ := List.any_eq_true.mp hother
    exact hclear q (((List.mem_inits _ _).mp hq).trans (List.dropLast_prefix path))
      (of_decide_eq_true hnode)
  · by_cases hnone : path.dropLast.inits.any fun q => fs q = none
    · obtain ⟨q, hq, hmissing⟩ := List.any_eq_true.mp hnone
      have hq' := (List.mem_inits _ _).mp hq
      have hpath : fs path = none :=
        h.eq_none_of_prefix (hq'.trans (List.dropLast_prefix path)) (of_decide_eq_true hmissing)
      refine .inr (.inl ⟨(if_neg hother).trans (if_pos hnone), hpath, fun r hr hnode => ?_⟩)
      by_cases hsame : r = path
      · rw [hsame, hpath] at hnode
        exact nomatch hnode
      · have hr' : r ∈ path.dropLast.inits := by
          refine (List.mem_inits _ _).mpr (List.prefix_of_prefix_length_le hr
            (List.dropLast_prefix path) ?_)
          have hlt := hr.length_le.lt_of_ne fun hlen => hsame (hr.eq_of_length hlen)
          rw [List.length_dropLast]
          omega
        exact hother (List.any_eq_true.mpr ⟨r, hr', decide_eq_true hnode⟩)
    · refine .inl ⟨?_, (if_neg hother).trans (if_neg hnone)⟩
      have hmem : path.dropLast ∈ path.dropLast.inits := (List.mem_inits _ _).mpr List.prefix_rfl
      cases hnode : fs path.dropLast with
      | none => exact absurd (List.any_eq_true.mpr ⟨_, hmem, decide_eq_true hnode⟩) hnone
      | some node =>
          cases node with
          | dir attrs => exact isDir_iff.mpr ⟨attrs, hnode⟩
          | other => exact absurd (List.any_eq_true.mpr ⟨_, hmem, decide_eq_true hnode⟩) hother

end Files

section Effects

variable {made : Fs → Path → UInt32 → Attrs} {fs₀ fs fs' : Fs} {t : Task} {pc : Pc} {c c' : Call}

/-- What a call may change. -/
inductive Effect (t : Task) (fs : Fs) : Pc → Fs → Prop
  | same (pc : Pc) (hchmod : pc ≠ .chmod) (hchown : pc ≠ .chown) : Effect t fs pc fs
  | mkdir (pc : Pc) (hchmod : pc ≠ .chmod) (hchown : pc ≠ .chown) (p : Path) (attrs : Attrs)
      (hnone : fs p = none) (habove : isDir fs p.dropLast) :
      Effect t fs pc (Function.update fs p (some (.dir attrs)))
  | chmod (pc : Pc) (p : Path) (attrs : Attrs) (hdir : fs p = some (.dir attrs))
      (hpc : pc = .chmod ∧ p = t.path ∨ ∃ k, pc = .pathChmod k ∧ p = t.path.take k) :
      Effect t fs pc (Function.update fs p (some (.dir { attrs with mode := t.attrs.mode })))
  | chown (pc : Pc) (p : Path) (attrs : Attrs) (hdir : fs p = some (.dir attrs))
      (hpc : pc = .chown ∧ p = t.path ∨ ∃ k, pc = .pathChown k ∧ p = t.path.take k) :
      Effect t fs pc (Function.update fs p
        (some (.dir { attrs with uid := t.attrs.uid, gid := t.attrs.gid })))

/-- Directories are made and nothing else becomes of a path. -/
structure Grown (fs₀ fs : Fs) : Prop where
  wellFormed : WellFormed fs
  kept : ∀ path, fs₀ path ≠ none → fs path ≠ none
  dirs : ∀ path, isDir fs₀ path → isDir fs path
  other : ∀ path, fs path = some .other ↔ fs₀ path = some .other

theorem Grown.refl (h : WellFormed fs) : Grown fs fs :=
  ⟨h, fun _ h => h, fun _ h => h, fun _ => Iff.rfl⟩

theorem Grown.trans (h : Grown fs₀ fs) (h' : Grown fs fs') : Grown fs₀ fs' where
  wellFormed := h'.wellFormed
  kept path hpath := h'.kept path (h.kept path hpath)
  dirs path hpath := h'.dirs path (h.dirs path hpath)
  other path := (h'.other path).trans (h.other path)

/-- A directory that is put where a directory was, or where nothing was below a directory. -/
theorem Grown.update (h : WellFormed fs) {p : Path} (attrs : Attrs)
    (hp : isDir fs p ∨ fs p = none ∧ isDir fs p.dropLast) :
    Grown fs (Function.update fs p (some (.dir attrs))) := by
  have hdirs (path : Path) (hpath : isDir fs path) :
      isDir (Function.update fs p (some (.dir attrs))) path := by
    by_cases hsame : path = p
    · rw [hsame, isDir_iff]
      exact ⟨attrs, Function.update_self ..⟩
    · obtain ⟨a, ha⟩ := isDir_iff.mp hpath
      exact isDir_iff.mpr ⟨a, by rwa [Function.update_of_ne hsame]⟩
  refine ⟨⟨hdirs _ h.root, fun path n hpath => hdirs path ?_⟩, fun path hpath => ?_, hdirs,
    fun path => ?_⟩
  · by_cases hsame : path ++ [n] = p
    · rcases hp with hp | ⟨-, hp⟩
      · obtain ⟨a, ha⟩ := isDir_iff.mp hp
        exact h.above path n (by rw [hsame, ha]; exact nofun)
      · rwa [← hsame, List.dropLast_concat] at hp
    · rw [Function.update_of_ne hsame] at hpath
      exact h.above path n hpath
  · by_cases hsame : path = p
    · rw [hsame, Function.update_self]
      exact nofun
    · rwa [Function.update_of_ne hsame]
  · by_cases hsame : path = p
    · rw [hsame, Function.update_self]
      refine iff_of_false nofun fun hother => ?_
      rcases hp with hp | ⟨hp, -⟩
      · obtain ⟨a, ha⟩ := isDir_iff.mp hp
        rw [ha] at hother
        exact nomatch hother
      · rw [hp] at hother
        exact nomatch hother
    · rw [Function.update_of_ne hsame]

theorem Effect.grown (h : Effect t fs pc fs') (hwf : WellFormed fs) : Grown fs fs' := by
  cases h with
  | same hchmod hchown => exact .refl hwf
  | mkdir hchmod hchown p attrs hnone habove => exact .update hwf attrs (.inr ⟨hnone, habove⟩)
  | chmod p attrs hdir hpc => exact .update hwf _ (.inl (isDir_iff.mpr ⟨attrs, hdir⟩))
  | chown p attrs hdir hpc => exact .update hwf _ (.inl (isDir_iff.mpr ⟨attrs, hdir⟩))

/-- What holds before each call of a task that has not failed. An ancestor whose permissions are set
was missing at the start. -/
def Task.Fine (t : Task) (fs₀ fs : Fs) : Pc → Prop
  | .mkdir => True
  | .lstat => fs t.path ≠ none
  | .pathMkdir k => 1 ≤ k ∧ k < t.path.length ∧ isDir fs (t.path.take (k - 1)) ∧
    fs₀ t.path = none ∧ Clear fs₀ t.path
  | .pathChmod k => 1 ≤ k ∧ k < t.path.length ∧ isDir fs (t.path.take k) ∧
    fs₀ (t.path.take k) = none ∧ fs₀ t.path = none ∧ Clear fs₀ t.path
  | .pathChown k => 1 ≤ k ∧ k < t.path.length ∧ isDir fs (t.path.take k) ∧
    fs₀ (t.path.take k) = none ∧ fs₀ t.path = none ∧ Clear fs₀ t.path
  | .lastMkdir => isDir fs t.path.dropLast ∧ fs₀ t.path = none ∧ Clear fs₀ t.path
  | .chmod => isDir fs t.path
  | .chown => isDir fs t.path
  | .done => isDir fs t.path

theorem Task.Fine.mono (h : t.Fine fs₀ fs pc) (hgrown : Grown fs fs') : t.Fine fs₀ fs' pc := by
  cases pc with
  | mkdir => trivial
  | lstat => exact hgrown.kept _ h
  | pathMkdir k => exact ⟨h.1, h.2.1, hgrown.dirs _ h.2.2.1, h.2.2.2⟩
  | pathChmod k => exact ⟨h.1, h.2.1, hgrown.dirs _ h.2.2.1, h.2.2.2⟩
  | pathChown k => exact ⟨h.1, h.2.1, hgrown.dirs _ h.2.2.1, h.2.2.2⟩
  | lastMkdir => exact ⟨hgrown.dirs _ h.1, h.2⟩
  | chmod => exact hgrown.dirs _ h
  | chown => exact hgrown.dirs _ h
  | done => exact hgrown.dirs _ h

theorem dropLast_take {k : ℕ} (hk : k < t.path.length) :
    (t.path.take k).dropLast = t.path.take (k - 1) := by
  rw [List.dropLast_eq_take, List.length_take, List.take_take]
  congr 1
  omega

/-- The loop goes on with the next ancestor, or ends below the last one. -/
theorem Task.fine_nextPath {k : ℕ} (hk : k < t.path.length) (hdir : isDir fs (t.path.take k))
    (hnone : fs₀ t.path = none) (hclear : Clear fs₀ t.path) :
    t.Fine fs₀ fs (t.nextPath (k + 1)) := by
  rw [Task.nextPath]
  split_ifs with hnext
  · exact ⟨Nat.le_add_left 1 k, hnext, hdir, hnone, hclear⟩
  · have hlast : t.path.dropLast = t.path.take k := by
      rw [List.dropLast_eq_take]
      congr 1
      omega
    exact ⟨by rwa [hlast], hnone, hclear⟩

/-- A path that is there and no file is a directory. -/
theorem isDir_of_clear (hgrown : Grown fs₀ fs) {path p : Path} (hclear : Clear fs₀ path)
    (hp : p <+: path) (hpath : fs p ≠ none) : isDir fs p := by
  cases hnode : fs p with
  | none => exact absurd hnode hpath
  | some node =>
      cases node with
      | dir attrs => exact isDir_iff.mpr ⟨attrs, hnode⟩
      | other => exact absurd ((hgrown.other p).mp hnode) (hclear p hp)

theorem isDir_update {p : Path} {attrs : Attrs} :
    isDir (Function.update fs p (some (.dir attrs))) p :=
  isDir_iff.mpr ⟨attrs, Function.update_self ..⟩

/-- One call of a task that has not failed. Without files in the way it does not fail. -/
theorem Task.call_spec (hgrown : Grown fs₀ fs) (hfine : t.Fine fs₀ fs c.pc)
    (hok : c.failed = false) (h : t.call made fs c = some (fs', c')) :
    Effect t fs c.pc fs' ∧ (c'.failed = false → t.Fine fs₀ fs' c'.pc) ∧
      (Clear fs₀ t.path → c'.failed = false) := by
  have hwf := hgrown.wellFormed
  obtain ⟨pc, failed⟩ := c
  obtain rfl : failed = false := hok
  cases pc with
  | mkdir =>
      simp only [Task.call] at h
      rcases @WellFormed.mkdir_cases made _ hwf t.path t.mode with
        ⟨habove, hmkdir⟩ | ⟨hmkdir, hnone, hclear⟩ | ⟨hmkdir, hnot⟩
      · by_cases hpath : fs t.path = none
        · rw [hmkdir, if_neg (not_not.mpr hpath)] at h
          obtain ⟨rfl, rfl⟩ := Prod.mk.inj (Option.some.inj h)
          exact ⟨.mkdir .mkdir Pc.noConfusion Pc.noConfusion _ _ hpath habove,
            fun _ => isDir_update, fun _ => rfl⟩
        · rw [hmkdir, if_pos hpath] at h
          obtain ⟨rfl, rfl⟩ := Prod.mk.inj (Option.some.inj h)
          exact ⟨.same _ nofun nofun, fun _ => hpath, fun _ => rfl⟩
      · rw [hmkdir] at h
        obtain ⟨rfl, rfl⟩ := Prod.mk.inj (Option.some.inj h)
        have hnone₀ : fs₀ t.path = none := by
          by_contra hthere
          exact hgrown.kept _ hthere hnone
        have hclear₀ : Clear fs₀ t.path := fun q hq hother =>
          hclear q hq ((hgrown.other q).mpr hother)
        refine ⟨.same _ nofun nofun, fun _ => ?_, fun _ => rfl⟩
        have hpos : 0 < t.path.length := by
          refine List.length_pos_of_ne_nil fun hnil => ?_
          obtain ⟨attrs, hattrs⟩ := isDir_iff.mp hwf.root
          rw [hnil, hattrs] at hnone
          exact nomatch hnone
        exact Task.fine_nextPath hpos hwf.root hnone₀ hclear₀
      · rw [hmkdir] at h
        obtain ⟨rfl, rfl⟩ := Prod.mk.inj (Option.some.inj h)
        exact ⟨.same _ nofun nofun, nofun, fun hclear => absurd (fun q hq hother =>
          hclear q hq ((hgrown.other q).mp hother)) hnot⟩
  | lstat =>
      simp only [Task.call] at h
      split_ifs at h with hdir
      · obtain ⟨rfl, rfl⟩ := Prod.mk.inj (Option.some.inj h)
        exact ⟨.same _ nofun nofun, fun _ => hdir, fun _ => rfl⟩
      · obtain ⟨rfl, rfl⟩ := Prod.mk.inj (Option.some.inj h)
        exact ⟨.same _ nofun nofun, nofun, fun hclear =>
          absurd (isDir_of_clear hgrown hclear List.prefix_rfl hfine) hdir⟩
  | pathMkdir k =>
      obtain ⟨hpos, hk, habove, hnone, hclear⟩ := hfine
      rw [← dropLast_take hk] at habove
      simp only [Task.call, @WellFormed.mkdir_eq made _ _ t.mode hwf habove] at h
      by_cases hpath : fs (t.path.take k) = none
      · rw [if_neg (not_not.mpr hpath)] at h
        obtain ⟨rfl, rfl⟩ := Prod.mk.inj (Option.some.inj h)
        have hnone₀ : fs₀ (t.path.take k) = none := by
          by_contra hthere
          exact hgrown.kept _ hthere hpath
        exact ⟨.mkdir (.pathMkdir k) Pc.noConfusion Pc.noConfusion _ _ hpath habove,
          fun _ => ⟨hpos, hk, isDir_update, hnone₀, hnone, hclear⟩, fun _ => rfl⟩
      · rw [if_pos hpath] at h
        obtain ⟨rfl, rfl⟩ := Prod.mk.inj (Option.some.inj h)
        have hdir := isDir_of_clear hgrown hclear (List.take_prefix k _) hpath
        exact ⟨.same _ nofun nofun, fun _ => Task.fine_nextPath hk hdir hnone hclear, fun _ => rfl⟩
  | pathChmod k =>
      obtain ⟨hpos, hk, hdir, hnone⟩ := hfine
      obtain ⟨attrs, hattrs⟩ := isDir_iff.mp hdir
      simp only [Task.call, Dupdir.chmod, hattrs] at h
      obtain ⟨rfl, rfl⟩ := Prod.mk.inj (Option.some.inj h)
      exact ⟨.chmod _ _ attrs hattrs (.inr ⟨k, rfl, rfl⟩),
        fun _ => ⟨hpos, hk, isDir_update, hnone⟩, fun _ => rfl⟩
  | pathChown k =>
      obtain ⟨hpos, hk, hdir, -, hnone, hclear⟩ := hfine
      obtain ⟨attrs, hattrs⟩ := isDir_iff.mp hdir
      simp only [Task.call, Dupdir.chown, hattrs] at h
      obtain ⟨rfl, rfl⟩ := Prod.mk.inj (Option.some.inj h)
      exact ⟨.chown _ _ attrs hattrs (.inr ⟨k, rfl, rfl⟩),
        fun _ => Task.fine_nextPath hk isDir_update hnone hclear, fun _ => rfl⟩
  | lastMkdir =>
      obtain ⟨habove, hnone, hclear⟩ := hfine
      simp only [Task.call, @WellFormed.mkdir_eq made _ _ t.mode hwf habove] at h
      by_cases hpath : fs t.path = none
      · rw [if_neg (not_not.mpr hpath)] at h
        obtain ⟨rfl, rfl⟩ := Prod.mk.inj (Option.some.inj h)
        exact ⟨.mkdir .lastMkdir Pc.noConfusion Pc.noConfusion _ _ hpath habove,
          fun _ => isDir_update, fun _ => rfl⟩
      · rw [if_pos hpath] at h
        obtain ⟨rfl, rfl⟩ := Prod.mk.inj (Option.some.inj h)
        exact ⟨.same _ nofun nofun,
          fun _ => isDir_of_clear hgrown hclear List.prefix_rfl hpath, fun _ => rfl⟩
  | chmod =>
      obtain ⟨attrs, hattrs⟩ := isDir_iff.mp hfine
      simp only [Task.call, Dupdir.chmod, hattrs] at h
      obtain ⟨rfl, rfl⟩ := Prod.mk.inj (Option.some.inj h)
      exact ⟨.chmod _ _ attrs hattrs (.inl ⟨rfl, rfl⟩), fun _ => isDir_update, fun _ => rfl⟩
  | chown =>
      obtain ⟨attrs, hattrs⟩ := isDir_iff.mp hfine
      simp only [Task.call, Dupdir.chown, hattrs] at h
      obtain ⟨rfl, rfl⟩ := Prod.mk.inj (Option.some.inj h)
      exact ⟨.chown _ _ attrs hattrs (.inl ⟨rfl, rfl⟩), fun _ => isDir_update, fun _ => rfl⟩
  | done => exact nomatch h

end Effects

section Invariant

variable {made : Fs → Path → UInt32 → Attrs} {tasks : List Task} {fs₀ fs fs' : Fs} {t d : Task}
  {pc : Pc} {c c' : Call} {s s' : State}

theorem Task.call_failed (hfailed : c.failed = true) (h : t.call made fs c = some (fs', c')) :
    c'.failed = true := by
  unfold Task.call at h
  split at h <;> (try split at h) <;> cases h <;> first | rfl | exact hfailed

/-- One task makes a call, and the others are where they were. -/
theorem Step.exists_call (h : Step made tasks s s') :
    ∃ t ∈ tasks, t.call made s.fs (s.calls t) = some (s'.fs, s'.calls t) ∧
      ∀ u, u ≠ t → s'.calls u = s.calls u := by
  obtain ⟨t, ht, fs', c', h⟩ := h
  refine ⟨t, ht, ?_, fun u hu => Function.update_of_ne hu _ _⟩
  change t.call made s.fs (s.calls t) = some (fs', Function.update s.calls t c' t)
  rw [Function.update_self, h]

/-- What holds of all tasks while none has failed. -/
structure Good (tasks : List Task) (fs₀ : Fs) (s : State) : Prop where
  grown : Grown fs₀ s.fs
  unfailed : ∀ t ∈ tasks, (s.calls t).failed = false
  fine : ∀ t ∈ tasks, t.Fine fs₀ s.fs (s.calls t).pc

theorem Good.step (hgood : Good tasks fs₀ s) (hstep : Step made tasks s s') :
    (∃ t ∈ tasks, (s'.calls t).failed = true) ∨ Good tasks fs₀ s' := by
  obtain ⟨t, ht, h, hother⟩ := hstep.exists_call
  obtain ⟨heffect, hfine, -⟩ :=
    Task.call_spec hgood.grown (hgood.fine t ht) (hgood.unfailed t ht) h
  by_cases hok : (s'.calls t).failed = true
  · exact .inl ⟨t, ht, hok⟩
  · have hgrown := heffect.grown hgood.grown.wellFormed
    refine .inr ⟨hgood.grown.trans hgrown, fun u hu => ?_, fun u hu => ?_⟩
    · by_cases hsame : u = t
      · rw [hsame]
        exact Bool.eq_false_iff.mpr hok
      · rw [hother u hsame]
        exact hgood.unfailed u hu
    · by_cases hsame : u = t
      · rw [hsame]
        exact hfine (Bool.eq_false_iff.mpr hok)
      · rw [hother u hsame]
        exact (hgood.fine u hu).mono hgrown

theorem good_start (hwf : WellFormed fs₀) : Good tasks fs₀ (.start fs₀) :=
  ⟨.refl hwf, fun _ _ => rfl, fun _ _ => trivial⟩

/-- A task that has failed stays so. -/
theorem failed_step (hstep : Step made tasks s s')
    (hfailed : ∃ t ∈ tasks, (s.calls t).failed = true) :
    ∃ t ∈ tasks, (s'.calls t).failed = true := by
  obtain ⟨u, hu, hfailed⟩ := hfailed
  obtain ⟨t, ht, h, hother⟩ := hstep.exists_call
  refine ⟨u, hu, ?_⟩
  by_cases hsame : u = t
  · rw [hsame]
    exact Task.call_failed (hsame ▸ hfailed) h
  · rwa [hother u hsame]

theorem good_of_run (hwf : WellFormed fs₀) (hrun : ReflTransGen (Step made tasks) (.start fs₀) s) :
    (∃ t ∈ tasks, (s.calls t).failed = true) ∨ Good tasks fs₀ s := by
  induction hrun with
  | refl => exact .inr (good_start hwf)
  | tail _ hstep ih =>
      rcases ih with hfailed | hgood
      · exact .inl (failed_step hstep hfailed)
      · exact hgood.step hstep

theorem State.Finished.unfailed (h : s.Finished tasks) :
    ¬ ∃ t ∈ tasks, (s.calls t).failed = true := by
  rintro ⟨t, ht, hfailed⟩
  rw [h t ht] at hfailed
  exact nomatch hfailed

/-- A file above a directory that is to be made lets a call fail. -/
theorem clear_of_finished (hwf : WellFormed fs₀)
    (hrun : ReflTransGen (Step made tasks) (.start fs₀) s) (hfinished : s.Finished tasks)
    (ht : t ∈ tasks) : Clear fs₀ t.path := by
  have hgood := (good_of_run hwf hrun).resolve_left hfinished.unfailed
  have hdone := hgood.fine t ht
  rw [hfinished t ht] at hdone
  obtain ⟨attrs, hattrs⟩ := isDir_iff.mp hdone
  intro q hq hother
  rw [← hgood.grown.other q] at hother
  by_cases hsame : q = t.path
  · rw [hsame, hattrs] at hother
    exact nomatch hother
  · have hq' := hgood.grown.wellFormed.isDir_of_prefix (by rw [hattrs]; exact nofun) hq hsame
    obtain ⟨a, ha⟩ := isDir_iff.mp hq'
    rw [ha] at hother
    exact nomatch hother

/-- What its own calls have done to a directory. -/
def Task.Right (t : Task) (fs : Fs) : Pc → Prop
  | .chown => ∃ attrs, fs t.path = some (.dir attrs) ∧ attrs.mode = t.attrs.mode
  | .done => fs t.path = some (.dir t.attrs)
  | _ => True

theorem Task.call_right (hfine : t.Fine fs₀ fs c.pc) (hright : t.Right fs c.pc)
    (h : t.call made fs c = some (fs', c')) (hok : c'.failed = false) : t.Right fs' c'.pc := by
  obtain ⟨pc, failed⟩ := c
  cases pc with
  | chmod =>
      obtain ⟨attrs, hattrs⟩ := isDir_iff.mp hfine
      simp only [Task.call, Dupdir.chmod, hattrs] at h
      obtain ⟨rfl, rfl⟩ := Prod.mk.inj (Option.some.inj h)
      exact ⟨_, Function.update_self .., rfl⟩
  | chown =>
      obtain ⟨attrs, hattrs, hmode⟩ := hright
      simp only [Task.call, Dupdir.chown, hattrs] at h
      obtain ⟨rfl, rfl⟩ := Prod.mk.inj (Option.some.inj h)
      change Function.update fs t.path _ t.path = _
      rw [Function.update_self, hmode]
      rfl
  | done => exact nomatch h
  | mkdir =>
      simp only [Task.call] at h
      split at h <;> cases h <;> first | trivial | (unfold Task.nextPath; split <;> trivial)
  | lstat =>
      simp only [Task.call] at h
      split at h <;> cases h <;> trivial
  | pathMkdir k =>
      simp only [Task.call] at h
      split at h <;> cases h <;> first | trivial | (unfold Task.nextPath; split <;> trivial)
  | pathChmod k =>
      simp only [Task.call] at h
      split at h <;> cases h <;> trivial
  | pathChown k =>
      simp only [Task.call] at h
      split at h <;> cases h <;> (unfold Task.nextPath; split <;> trivial)
  | lastMkdir =>
      simp only [Task.call] at h
      split at h <;> cases h <;> trivial

/-- A directory that was missing and the ones below it are to have the same permissions. -/
def Agree (tasks : List Task) (fs₀ : Fs) : Prop :=
  ∀ c ∈ tasks, ∀ d ∈ tasks, d.path <+: c.path → d ≠ c → fs₀ d.path = none → d.attrs = c.attrs

/-- A call of another task sets the same permissions, if it sets any. -/
theorem Task.Right.of_effect (hagree : Agree tasks fs₀) (hnodup : (tasks.map Task.path).Nodup)
    (ht : t ∈ tasks) (hd : d ∈ tasks) (hne : d ≠ t) (hfine : t.Fine fs₀ fs pc)
    (h : Effect t fs pc fs') {pc' : Pc} (hright : d.Right fs pc') (hdir : d.Fine fs₀ fs pc') :
    d.Right fs' pc' := by
  -- what the call sets at the directory of `d`, if it is there
  have hkept : isDir fs d.path → fs' d.path = fs d.path ∨
      ∃ attrs, fs d.path = some (.dir attrs) ∧
        (fs' d.path = some (.dir { attrs with mode := d.attrs.mode }) ∨
          fs' d.path = some (.dir { attrs with uid := d.attrs.uid, gid := d.attrs.gid })) := by
    intro hdir
    obtain ⟨attrs, hattrs⟩ := isDir_iff.mp hdir
    have hpath : d.path ≠ t.path := fun h => hne (List.inj_on_of_nodup_map hnodup hd ht h)
    cases h with
    | same => exact .inl rfl
    | mkdir hchmod hchown p a hnone habove =>
        refine .inl (Function.update_of_ne (fun hsame => ?_) _ _)
        rw [← hsame, hattrs] at hnone
        exact nomatch hnone
    | chmod p a ha hpc =>
        by_cases hsame : d.path = p
        · rcases hpc with ⟨rfl, rfl⟩ | ⟨k, rfl, rfl⟩
          · exact absurd hsame hpath
          · have hsame' := hagree t ht d hd (hsame ▸ List.take_prefix k _) hne
              (hsame ▸ hfine.2.2.2.1)
            rw [hsame, Function.update_self, hsame']
            exact .inr ⟨a, ha, .inl rfl⟩
        · exact .inl (Function.update_of_ne hsame _ _)
    | chown p a ha hpc =>
        by_cases hsame : d.path = p
        · rcases hpc with ⟨rfl, rfl⟩ | ⟨k, rfl, rfl⟩
          · exact absurd hsame hpath
          · have hsame' := hagree t ht d hd (hsame ▸ List.take_prefix k _) hne
              (hsame ▸ hfine.2.2.2.1)
            rw [hsame, Function.update_self, hsame']
            exact .inr ⟨a, ha, .inr rfl⟩
        · exact .inl (Function.update_of_ne hsame _ _)
  cases pc' with
  | chown =>
      obtain ⟨attrs, hattrs, hmode⟩ := hright
      rcases hkept hdir with hsame | ⟨a, ha, hset | hset⟩
      · exact ⟨attrs, hsame.trans hattrs, hmode⟩
      · exact ⟨_, hset, rfl⟩
      · obtain rfl : a = attrs := by rw [hattrs] at ha; cases ha; rfl
        exact ⟨_, hset, hmode⟩
  | done =>
      rcases hkept hdir with hsame | ⟨a, ha, hset | hset⟩
      · exact hsame.trans hright
      · obtain rfl : d.attrs = a := by rw [show fs d.path = _ from hright] at ha; cases ha; rfl
        exact hset
      · obtain rfl : d.attrs = a := by rw [show fs d.path = _ from hright] at ha; cases ha; rfl
        exact hset
  | _ => trivial

theorem right_of_run (hwf : WellFormed fs₀) (hagree : Agree tasks fs₀)
    (hnodup : (tasks.map Task.path).Nodup)
    (hrun : ReflTransGen (Step made tasks) (.start fs₀) s) :
    (∃ t ∈ tasks, (s.calls t).failed = true) ∨
      ∀ t ∈ tasks, t.Right s.fs (s.calls t).pc := by
  induction hrun with
  | refl => exact .inr fun _ _ => trivial
  | @tail s s' hrun hstep ih =>
      rcases ih with hfailed | hright
      · exact .inl (failed_step hstep hfailed)
      rcases good_of_run hwf hrun with hfailed | hgood
      · exact .inl (failed_step hstep hfailed)
      rcases hgood.step hstep with hfailed | hgood'
      · exact .inl hfailed
      obtain ⟨t, ht, h, hother⟩ := hstep.exists_call
      have hfine := hgood.fine t ht
      obtain ⟨heffect, -, -⟩ := Task.call_spec hgood.grown hfine (hgood.unfailed t ht) h
      refine .inr fun d hd => ?_
      by_cases hsame : d = t
      · rw [hsame]
        exact Task.call_right hfine (hright t ht) h (hgood'.unfailed t ht)
      · rw [hother d hsame]
        exact (hright d hd).of_effect hagree hnodup ht hd hsame hfine heffect (hgood.fine d hd)

theorem keepOwn_of_agree (hwf : WellFormed fs₀) (hagree : Agree tasks fs₀)
    (hnodup : (tasks.map Task.path).Nodup) : KeepOwn made tasks fs₀ := by
  intro s hrun hfinished t ht
  have hright := (right_of_run hwf hagree hnodup hrun).resolve_left hfinished.unfailed t ht
  rwa [hfinished t ht] at hright

end Invariant

section Solo

variable {made : Fs → Path → UInt32 → Attrs} {tasks : List Task} {fs₀ fs fs' : Fs} {t : Task}
  {c c' : Call} {s : State}

theorem Good.of_clear (hwf : WellFormed fs₀) (hclear : ∀ t ∈ tasks, Clear fs₀ t.path)
    (hrun : ReflTransGen (Step made tasks) (.start fs₀) s) : Good tasks fs₀ s := by
  induction hrun with
  | refl => exact good_start hwf
  | tail _ hstep ih =>
      refine (ih.step hstep).resolve_left fun ⟨u, hu, hfailed⟩ => ?_
      obtain ⟨t, ht, h, hother⟩ := hstep.exists_call
      by_cases hsame : u = t
      · obtain ⟨-, -, hok⟩ := Task.call_spec ih.grown (ih.fine t ht) (ih.unfailed t ht) h
        rw [hsame, hok (hclear t ht)] at hfailed
        exact nomatch hfailed
      · rw [hother u hsame, ih.unfailed u hu] at hfailed
        exact nomatch hfailed

/-- A bound on the number of calls that are left. -/
def Task.rank (t : Task) : Pc → ℕ
  | .mkdir => 3 * t.path.length + 7
  | .lstat => 3
  | .pathMkdir k => 3 * (t.path.length - k) + 6
  | .pathChmod k => 3 * (t.path.length - k) + 5
  | .pathChown k => 3 * (t.path.length - k) + 4
  | .lastMkdir => 3
  | .chmod => 2
  | .chown => 1
  | .done => 0

theorem Task.rank_nextPath (k : ℕ) : t.rank (t.nextPath (k + 1)) < t.rank (.pathChown k) := by
  unfold Task.nextPath
  split <;> simp only [Task.rank] <;> omega

theorem Task.rank_call (h : t.call made fs c = some (fs', c')) : t.rank c'.pc < t.rank c.pc := by
  obtain ⟨pc, failed⟩ := c
  cases pc with
  | mkdir =>
      have hnext : t.rank (t.nextPath 1) < t.rank (.pathChown 0) := t.rank_nextPath 0
      have hchown : t.rank (.pathChown 0) ≤ t.rank .mkdir := by
        simp only [Task.rank]
        omega
      simp only [Task.call] at h
      split at h <;> cases h <;> first | exact hnext.trans_le hchown |
        (simp only [Task.rank]; omega)
  | pathMkdir k =>
      have hnext := t.rank_nextPath k
      simp only [Task.call] at h
      split at h <;> cases h <;> simp only [Task.rank] at hnext ⊢ <;> omega
  | pathChown k =>
      have hnext := t.rank_nextPath k
      simp only [Task.call] at h
      split at h <;> cases h <;> exact hnext
  | done => exact nomatch h
  | _ =>
      simp only [Task.call] at h
      split at h <;> cases h <;> simp only [Task.rank] <;> omega

theorem Task.call_isSome (hpc : c.pc ≠ .done) : ∃ fs' c', t.call made fs c = some (fs', c') := by
  unfold Task.call
  split <;> (try split) <;> first | exact ⟨_, _, rfl⟩ | exact absurd ‹_› hpc

/-- A task may run alone until it is where it is wanted, or done. -/
theorem exists_solo (hwf : WellFormed fs₀) (hclear : ∀ t ∈ tasks, Clear fs₀ t.path)
    (hrun : ReflTransGen (Step made tasks) (.start fs₀) s) (ht : t ∈ tasks) (goal : Pc → Prop)
    (P : Fs → Pc → Prop) (hP : P s.fs (s.calls t).pc)
    (hstep : ∀ fs c fs' c', Grown fs₀ fs → t.Fine fs₀ fs c.pc → c.failed = false → P fs c.pc →
      ¬ goal c.pc → t.call made fs c = some (fs', c') → P fs' c'.pc) :
    ∃ s', ReflTransGen (Step made tasks) (.start fs₀) s' ∧ P s'.fs (s'.calls t).pc ∧
      (goal (s'.calls t).pc ∨ (s'.calls t).pc = .done) ∧ ∀ u, u ≠ t → s'.calls u = s.calls u := by
  induction hrank : t.rank (s.calls t).pc using Nat.strong_induction_on generalizing s with
  | _ rank ih =>
  by_cases hend : goal (s.calls t).pc ∨ (s.calls t).pc = .done
  · exact ⟨s, hrun, hP, hend, fun _ _ => rfl⟩
  obtain ⟨hgoal, hpc⟩ := not_or.mp hend
  obtain ⟨fs', c', hcall⟩ := @Task.call_isSome made s.fs t (s.calls t) hpc
  have hgood := Good.of_clear hwf hclear hrun
  have hP' := hstep _ _ _ _ hgood.grown (hgood.fine t ht) (hgood.unfailed t ht) hP hgoal hcall
  have hself : (⟨fs', Function.update s.calls t c'⟩ : State).calls t = c' :=
    Function.update_self ..
  obtain ⟨s', hrun', hPend, hend', hother⟩ :=
    ih (t.rank c'.pc) (hrank ▸ Task.rank_call hcall)
      (s := ⟨fs', Function.update s.calls t c'⟩) (hrun.tail (.call s t ht fs' c' hcall))
      (by rwa [hself]) (by rw [hself])
  refine ⟨s', hrun', hPend, hend', fun u hu => (hother u hu).trans ?_⟩
  exact Function.update_of_ne hu _ _

/-- The tasks of a list run to their ends, one after the other. -/
theorem exists_all_done (hwf : WellFormed fs₀) (hclear : ∀ t ∈ tasks, Clear fs₀ t.path)
    (hrun : ReflTransGen (Step made tasks) (.start fs₀) s) (ts : List Task)
    (hts : ∀ t ∈ ts, t ∈ tasks) :
    ∃ s', ReflTransGen (Step made tasks) (.start fs₀) s' ∧
      (∀ t ∈ ts, (s'.calls t).pc = .done) ∧ ∀ u, u ∉ ts → s'.calls u = s.calls u := by
  induction ts generalizing s with
  | nil => exact ⟨s, hrun, nofun, fun _ _ => rfl⟩
  | cons t ts ih =>
      obtain ⟨s', hrun', -, hdone, hother⟩ := exists_solo hwf hclear hrun (hts t List.mem_cons_self)
        (fun _ => False) (fun _ _ => True) trivial fun _ _ _ _ _ _ _ _ _ _ => trivial
      obtain ⟨s'', hrun'', hall, hrest⟩ := ih hrun' fun u hu => hts u (List.mem_cons_of_mem t hu)
      refine ⟨s'', hrun'', fun u hu => ?_, fun u hu => ?_⟩
      · by_cases hmem : u ∈ ts
        · exact hall u hmem
        · obtain rfl : u = t := (List.mem_cons.mp hu).resolve_right hmem
          rw [hrest u hmem]
          exact hdone.resolve_left id
      · obtain ⟨hne, hmem⟩ := not_or.mp (mt List.mem_cons.mpr hu)
        exact (hrest u hmem).trans (hother u hne)

end Solo

section Race

variable {made : Fs → Path → UInt32 → Attrs} {tasks : List Task} {fs₀ fs fs' : Fs} {t d : Task}
  {k : ℕ} {pc : Pc} {c c' : Call} {s : State}

/-- The calls before the one that sets the permissions of an ancestor. -/
def Early (k : ℕ) : Pc → Prop
  | .mkdir => True
  | .pathMkdir j => j ≤ k
  | .pathChmod j => j < k
  | .pathChown j => j < k
  | _ => False

/-- The calls after the permissions of an ancestor are set. -/
def Late (k : ℕ) : Pc → Prop
  | .mkdir => False
  | .lstat => False
  | .pathMkdir j => k < j
  | .pathChmod j => k < j
  | .pathChown j => k < j
  | _ => True

theorem take_ne {j : ℕ} (hj : j < t.path.length) (hk : k < t.path.length) (hne : j ≠ k) :
    t.path.take k ≠ t.path.take j := by
  intro h
  have hlen := congrArg List.length h
  rw [List.length_take_of_le hk.le, List.length_take_of_le hj.le] at hlen
  exact hne hlen.symm

theorem take_ne_path (hk : k < t.path.length) : t.path.take k ≠ t.path := by
  intro h
  have hlen := congrArg List.length h
  rw [List.length_take_of_le hk.le] at hlen
  omega

theorem early_nextPath {j : ℕ} (hj : j < k) (hk : k < t.path.length) :
    Early k (t.nextPath (j + 1)) := by
  rw [Task.nextPath, if_pos (by omega)]
  exact hj

theorem late_nextPath {j : ℕ} (hj : k ≤ j) : Late k (t.nextPath (j + 1)) := by
  rw [Task.nextPath]
  split
  · exact Nat.lt_succ_of_le hj
  · trivial

/-- A task runs until it has made the ancestor. -/
theorem Task.early_call (hgrown : Grown fs₀ fs) (hfine : t.Fine fs₀ fs c.pc)
    (hpos : 0 < k) (hk : k < t.path.length) (hclear : Clear fs₀ t.path) (hearly : Early k c.pc)
    (hnone : fs (t.path.take k) = none) (h : t.call made fs c = some (fs', c')) :
    Early k c'.pc ∧ fs' (t.path.take k) = none ∨ c'.pc = .pathChmod k := by
  have hwf := hgrown.wellFormed
  obtain ⟨pc, failed⟩ := c
  cases pc with
  | mkdir =>
      simp only [Task.call] at h
      rcases @WellFormed.mkdir_cases made _ hwf t.path t.mode with
        ⟨habove, -⟩ | ⟨hmkdir, -, -⟩ | ⟨-, hnot⟩
      · have hbelow : t.path.take k <+: t.path.dropLast := by
          rw [List.dropLast_eq_take]
          exact List.take_prefix_take_left (by omega)
        have hmissing := hwf.eq_none_of_prefix hbelow hnone
        obtain ⟨attrs, hattrs⟩ := isDir_iff.mp habove
        rw [hmissing] at hattrs
        exact nomatch hattrs
      · rw [hmkdir] at h
        obtain ⟨rfl, rfl⟩ := Prod.mk.inj (Option.some.inj h)
        exact .inl ⟨early_nextPath hpos hk, hnone⟩
      · exact absurd (fun q hq hother => hclear q hq ((hgrown.other q).mp hother)) hnot
  | pathMkdir j =>
      obtain ⟨-, hj, habove, -⟩ := hfine
      rw [← dropLast_take hj] at habove
      simp only [Task.call, @WellFormed.mkdir_eq made _ _ t.mode hwf habove] at h
      rcases Nat.eq_or_lt_of_le (show j ≤ k from hearly) with rfl | hlt
      · rw [if_neg (not_not.mpr hnone)] at h
        obtain ⟨rfl, rfl⟩ := Prod.mk.inj (Option.some.inj h)
        exact .inr rfl
      · by_cases hpath : fs (t.path.take j) = none
        · rw [if_neg (not_not.mpr hpath)] at h
          obtain ⟨rfl, rfl⟩ := Prod.mk.inj (Option.some.inj h)
          exact .inl ⟨hlt, by rwa [Function.update_of_ne (take_ne hj hk hlt.ne)]⟩
        · rw [if_pos hpath] at h
          obtain ⟨rfl, rfl⟩ := Prod.mk.inj (Option.some.inj h)
          exact .inl ⟨early_nextPath hlt hk, hnone⟩
  | pathChmod j =>
      obtain ⟨-, hj, hdir, -⟩ := hfine
      obtain ⟨attrs, hattrs⟩ := isDir_iff.mp hdir
      simp only [Task.call, Dupdir.chmod, hattrs] at h
      obtain ⟨rfl, rfl⟩ := Prod.mk.inj (Option.some.inj h)
      exact .inl ⟨hearly, by rwa [Function.update_of_ne (take_ne hj hk (Nat.ne_of_lt hearly))]⟩
  | pathChown j =>
      obtain ⟨-, hj, hdir, -⟩ := hfine
      obtain ⟨attrs, hattrs⟩ := isDir_iff.mp hdir
      simp only [Task.call, Dupdir.chown, hattrs] at h
      obtain ⟨rfl, rfl⟩ := Prod.mk.inj (Option.some.inj h)
      exact .inl ⟨early_nextPath hearly hk,
        by rwa [Function.update_of_ne (take_ne hj hk (Nat.ne_of_lt hearly))]⟩
  | _ => exact hearly.elim

/-- A task that has set the permissions of an ancestor leaves it alone. -/
theorem Task.late_call (hfine : t.Fine fs₀ fs c.pc) (hk : k < t.path.length)
    (hlate : Late k c.pc) (hdir : isDir fs (t.path.take k)) (heffect : Effect t fs c.pc fs')
    (h : t.call made fs c = some (fs', c')) :
    Late k c'.pc ∧ fs' (t.path.take k) = fs (t.path.take k) := by
  constructor
  · obtain ⟨pc, failed⟩ := c
    cases pc with
    | mkdir => exact hlate.elim
    | lstat => exact hlate.elim
    | pathMkdir j =>
        simp only [Task.call] at h
        split at h <;> cases h
        · exact hlate
        · exact late_nextPath (Nat.le_of_lt hlate)
        · trivial
    | pathChmod j =>
        simp only [Task.call] at h
        split at h <;> cases h <;> exact hlate
    | pathChown j =>
        simp only [Task.call] at h
        split at h <;> cases h <;> exact late_nextPath (Nat.le_of_lt hlate)
    | done => exact nomatch h
    | _ =>
        simp only [Task.call] at h
        split at h <;> cases h <;> trivial
  · obtain ⟨attrs, hattrs⟩ := isDir_iff.mp hdir
    obtain ⟨pc, failed⟩ := c
    cases heffect with
    | same => rfl
    | mkdir hchmod hchown p a hnone habove =>
        refine Function.update_of_ne (fun hsame => ?_) _ _
        rw [← hsame, hattrs] at hnone
        exact nomatch hnone
    | chmod p a ha hpc =>
        refine Function.update_of_ne ?_ _ _
        rcases hpc with ⟨rfl, rfl⟩ | ⟨j, rfl, rfl⟩
        · exact take_ne_path hk
        · exact take_ne hfine.2.1 hk (Nat.ne_of_gt hlate)
    | chown p a ha hpc =>
        refine Function.update_of_ne ?_ _ _
        rcases hpc with ⟨rfl, rfl⟩ | ⟨j, rfl, rfl⟩
        · exact take_ne_path hk
        · exact take_ne hfine.2.1 hk (Nat.ne_of_gt hlate)

/-- From the permissions of the ancestor on: they stay as this task sets them. -/
def Owning (t : Task) (k : ℕ) (fs : Fs) (pc : Pc) : Prop :=
  pc = .pathChmod k ∨
  (pc = .pathChown k ∧ ∃ attrs, fs (t.path.take k) = some (.dir attrs) ∧
    attrs.mode = t.attrs.mode) ∨
  (Late k pc ∧ fs (t.path.take k) = some (.dir t.attrs))

theorem Task.owning_call (hgrown : Grown fs₀ fs) (hfine : t.Fine fs₀ fs c.pc)
    (hok : c.failed = false) (hk : k < t.path.length) (howning : Owning t k fs c.pc)
    (h : t.call made fs c = some (fs', c')) : Owning t k fs' c'.pc := by
  obtain ⟨heffect, -, -⟩ := Task.call_spec hgrown hfine hok h
  rcases howning with hpc | ⟨hpc, attrs, hattrs, hmode⟩ | ⟨hlate, hset⟩
  · obtain ⟨pc, failed⟩ := c
    obtain rfl : pc = .pathChmod k := hpc
    obtain ⟨-, -, hdir, -⟩ := hfine
    obtain ⟨attrs, hattrs⟩ := isDir_iff.mp hdir
    simp only [Task.call, Dupdir.chmod, hattrs] at h
    obtain ⟨rfl, rfl⟩ := Prod.mk.inj (Option.some.inj h)
    exact .inr (.inl ⟨rfl, _, Function.update_self .., rfl⟩)
  · obtain ⟨pc, failed⟩ := c
    obtain rfl : pc = .pathChown k := hpc
    simp only [Task.call, Dupdir.chown, hattrs] at h
    obtain ⟨rfl, rfl⟩ := Prod.mk.inj (Option.some.inj h)
    refine .inr (.inr ⟨late_nextPath le_rfl, ?_⟩)
    rw [Function.update_self, hmode]
    rfl
  · obtain ⟨hlate', hkept⟩ :=
      Task.late_call hfine hk hlate (isDir_iff.mpr ⟨_, hset⟩) heffect h
    exact .inr (.inr ⟨hlate', hkept.trans hset⟩)

/-- The task below makes the directory of the other and stops, all others come to their ends, and
it goes on. -/
theorem exists_overwritten (made : Fs → Path → UInt32 → Attrs) (hwf : WellFormed fs₀)
    (hclear : ∀ t ∈ tasks, Clear fs₀ t.path) (ht : t ∈ tasks) (hbelow : d.path <+: t.path)
    (hne : d.path ≠ t.path) (hnone : fs₀ d.path = none) :
    ∃ s, ReflTransGen (Step made tasks) (.start fs₀) s ∧ s.Finished tasks ∧
      s.fs d.path = some (.dir t.attrs) := by
  obtain ⟨k, hkpath⟩ : ∃ k, k = d.path.length := ⟨_, rfl⟩
  have htake : t.path.take k = d.path := by
    rw [hkpath]
    exact (List.prefix_iff_eq_take.mp hbelow).symm
  have hk : k < t.path.length := by
    rw [hkpath]
    exact hbelow.length_le.lt_of_ne fun hlen => hne (hbelow.eq_of_length hlen)
  have hpos : 0 < k := by
    rw [hkpath]
    refine List.length_pos_of_ne_nil fun hnil => ?_
    obtain ⟨attrs, hattrs⟩ := isDir_iff.mp hwf.root
    rw [hnil, hattrs] at hnone
    exact nomatch hnone
  obtain ⟨s₁, hrun₁, hP₁, hend₁, -⟩ := exists_solo hwf hclear
    (.refl : ReflTransGen (Step made tasks) (.start fs₀) (.start fs₀)) ht (· = .pathChmod k)
    (fun fs pc => Early k pc ∧ fs (t.path.take k) = none ∨ pc = .pathChmod k)
    (.inl ⟨trivial, by rwa [htake]⟩) fun fs c fs' c' hgrown hfine _ hP hgoal hcall => by
      obtain ⟨hearly, hmissing⟩ := hP.resolve_right hgoal
      exact Task.early_call hgrown hfine hpos hk (hclear t ht) hearly hmissing hcall
  have hpc₁ : (s₁.calls t).pc = .pathChmod k := by
    refine hP₁.resolve_left fun ⟨hearly, _⟩ => ?_
    rcases hend₁ with hgoal | hdone
    · rw [hgoal] at hearly
      exact Nat.lt_irrefl k hearly
    · rw [hdone] at hearly
      exact hearly
  obtain ⟨s₂, hrun₂, hdone₂, hother₂⟩ := exists_all_done hwf hclear hrun₁
    (tasks.filter (· ≠ t)) fun u hu => (List.mem_filter.mp hu).1
  have hpc₂ : (s₂.calls t).pc = .pathChmod k := by
    have hself : t ∉ tasks.filter (· ≠ t) := fun hmem =>
      of_decide_eq_true (List.mem_filter.mp hmem).2 rfl
    rwa [hother₂ t hself]
  obtain ⟨s₃, hrun₃, howning₃, hend₃, hother₃⟩ := exists_solo hwf hclear hrun₂ ht
    (fun _ => False) (Owning t k) (.inl hpc₂)
    fun fs c fs' c' hgrown hfine hok hP _ hcall =>
      Task.owning_call hgrown hfine hok hk hP hcall
  have hpc₃ : (s₃.calls t).pc = .done := hend₃.resolve_left id
  have hgood := Good.of_clear hwf hclear hrun₃
  refine ⟨s₃, hrun₃, fun u hu => ?_, ?_⟩
  · have hpc : (s₃.calls u).pc = .done := by
      by_cases hsame : u = t
      · rwa [hsame]
      · rw [hother₃ u hsame]
        exact hdone₂ u (List.mem_filter.mpr ⟨hu, decide_eq_true hsame⟩)
    have hok := hgood.unfailed u hu
    generalize s₃.calls u = call at hpc hok
    obtain ⟨pc, failed⟩ := call
    obtain rfl : pc = .done := hpc
    obtain rfl : failed = false := hok
    rfl
  · rw [hpc₃] at howning₃
    rcases howning₃ with h | ⟨h, -⟩ | ⟨-, hset⟩
    · exact nomatch h
    · exact nomatch h
    · rwa [htake] at hset

/-- Directories keep their own permissions in every order of the calls just if those that were
missing and those below them are to have the same, or if a file is in the way and no run ends
without error. -/
theorem keepOwn_iff (made : Fs → Path → UInt32 → Attrs) (tasks : List Task) (fs₀ : Fs)
    (hwf : WellFormed fs₀) (hnodup : (tasks.map Task.path).Nodup) :
    KeepOwn made tasks fs₀ ↔ (∃ t ∈ tasks, ¬ Clear fs₀ t.path) ∨ Agree tasks fs₀ := by
  constructor
  · intro hkeep
    by_contra hnot
    obtain ⟨hobstructed, hagree⟩ := not_or.mp hnot
    have hclear : ∀ t ∈ tasks, Clear fs₀ t.path := fun t ht => by
      by_contra hfile
      exact hobstructed ⟨t, ht, hfile⟩
    refine hagree fun c hc d hd hbelow hne hnone => ?_
    have hpath : d.path ≠ c.path := fun h => hne (List.inj_on_of_nodup_map hnodup hd hc h)
    obtain ⟨s, hrun, hfinished, hset⟩ :=
      exists_overwritten made hwf hclear hc hbelow hpath hnone
    have hown := hkeep s hrun hfinished d hd
    rw [hset] at hown
    exact (Node.dir.inj (Option.some.inj hown)).symm
  · rintro (⟨t, ht, hfile⟩ | hagree)
    · exact fun s hrun hfinished => absurd (clear_of_finished hwf hrun hfinished ht) hfile
    · exact keepOwn_of_agree hwf hagree hnodup

end Race

section Examples

/-- Only the root is there. -/
def rootOnly : Fs := fun path => if path = [] then some (.dir ⟨0o755, 0, 0⟩) else none

theorem wellFormed_rootOnly : WellFormed rootOnly where
  root := rfl
  above path n h := absurd (if_neg (List.concat_ne_nil n path)) h

theorem clear_rootOnly (path : Path) : Clear rootOnly path := by
  intro q _ hother
  unfold rootOnly at hother
  split at hother <;> exact nomatch hother

def byRoot (_ : Fs) (_ : Path) (mode : UInt32) : Attrs := ⟨mode &&& 0o7777 &&& 0o755, 0, 0⟩

def siblings : List Task := [⟨[[1]], 0o40700, 1000, 1000⟩, ⟨[[2]], 0o40755, 1001, 1001⟩]

theorem keepOwn_siblings : WellFormed rootOnly ∧ (siblings.map Task.path).Nodup ∧
    KeepOwn byRoot siblings rootOnly := by
  refine ⟨wellFormed_rootOnly, by decide, (keepOwn_iff byRoot siblings rootOnly wellFormed_rootOnly
    (by decide)).mpr (.inr ?_)⟩
  have hapart : ∀ c ∈ siblings, ∀ d ∈ siblings, d.path <+: c.path → d = c := by decide
  exact fun c hc d hd hbelow hne _ => absurd (hapart c hc d hd hbelow) hne

/-- A private directory of the user 1000. -/
def owned : Task := ⟨[[1]], 0o40700, 1000, 1000⟩

/-- A public one of the user 1001 in it. -/
def inside : Task := ⟨[[1], [2]], 0o40755, 1001, 1001⟩

/-- The private directory may end with the permissions of the public one. -/
theorem not_keepOwn : ¬ KeepOwn byRoot [owned, inside] rootOnly := by
  intro hkeep
  have hbelow : owned.path <+: inside.path := by decide
  have hmem : inside ∈ [owned, inside] := List.mem_cons_of_mem _ List.mem_cons_self
  obtain ⟨s, hrun, hfinished, hset⟩ := exists_overwritten byRoot wellFormed_rootOnly
    (fun t _ => clear_rootOnly t.path) hmem hbelow (by decide) rfl
  have hown := hkeep s hrun hfinished owned List.mem_cons_self
  rw [hset] at hown
  exact absurd (Node.dir.inj (Option.some.inj hown)) (by decide)

end Examples

end Gufi.Dupdir
