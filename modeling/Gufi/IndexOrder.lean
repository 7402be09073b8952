import Gufi.IndexBuild

/-!
# When the order of an index run shows

A directory of the index gets the mode of its source while its subdirectories may still be waiting
to be made. If the program may not write to a directory with that mode, a subdirectory gets into the
index in one run and is missing in another.
-/

namespace Gufi.IndexBuild

open UnixAccess Worklist Relation

section Order

variable (ins : Input) (src : Source) (sys : System)

def Task.place : Task → Place
  | .process w => w.place ins
  | .finish w _ _ => w.place ins

variable {ins src sys} {s₀ s : State} {w c : DirWork} {work : Trace.Work} {dirents : List Dirent}

/-- A task changes its own place, removes nothing, and enqueues tasks there and below. -/
theorem process_at (a : Task) (s : State) :
    (∀ p, p ≠ a.place ins → (process ins src sys a s).1.dirs p = s.dirs p) ∧
    (∀ p, (s.dirs p).isSome → ((process ins src sys a s).1.dirs p).isSome) ∧
    ∀ b ∈ (process ins src sys a s).2, a.place ins <+: b.place ins := by
  have hchange (p : Place) (c : Change) : (∀ q, q ≠ p → (s.change p c).dirs q = s.dirs q) ∧
      ∀ q, (s.dirs q).isSome → ((s.change p c).dirs q).isSome := by
    refine ⟨fun q hq => s.dirs_change_of_ne c hq, fun q hq => ?_⟩
    by_cases hqp : q = p
    · rw [hqp, s.dirs_change_self]
      rfl
    · rwa [s.dirs_change_of_ne c hqp]
  cases a with
  | finish w work dirents => exact ⟨(hchange _ _).1, (hchange _ _).2, by intro b hb; cases hb⟩
  | process w =>
      rcases processdir_cases ins src sys w s with heq | ⟨work, dirents, hopen, heq, htasks⟩
      · change (∀ p, _ → (processdir ins src sys w s).1.dirs p = _) ∧
          (∀ p, _ → ((processdir ins src sys w s).1.dirs p).isSome) ∧
          ∀ b ∈ (processdir ins src sys w s).2, _
        rw [heq]
        exact ⟨fun _ _ => rfl, fun _ hp => hp, by intro b hb; cases hb⟩
      · change (∀ p, _ → (processdir ins src sys w s).1.dirs p = _) ∧
          (∀ p, _ → ((processdir ins src sys w s).1.dirs p).isSome) ∧
          ∀ b ∈ (processdir ins src sys w s).2, _
        rw [heq]
        refine ⟨(hchange _ _).1, (hchange _ _).2, fun b hb => ?_⟩
        rcases htasks with hnil | htasks
        · rw [hnil] at hb
          cases hb
        · rw [htasks] at hb
          rcases List.mem_cons.mp hb with rfl | hb
          · exact List.prefix_refl _
          · obtain ⟨c, hc, rfl⟩ := List.mem_map.mp hb
            obtain ⟨-, -, d, -, -, hplace⟩ := mem_subdirs hopen hc
            change w.place ins <+: c.place ins
            rw [hplace]
            exact List.prefix_append ..

theorem keeps_absent (p : Place) : Keeps (process ins src sys) (fun s => s.dirs p = none)
    (fun a => ¬a.place ins <+: p) where
  state a s ha hs := by
    have hne : p ≠ a.place ins := fun heq => ha (heq ▸ List.prefix_refl _)
    rw [(process_at a s).1 p hne]
    exact hs
  items a s ha _ b hb hpre := ha (((process_at a s).2.2 b hb).trans hpre)

theorem keeps_present (p : Place) : Keeps (process ins src sys) (fun s => (s.dirs p).isSome)
    (fun _ => True) where
  state a s _ hs := (process_at a s).2.1 p hs
  items _ _ _ _ _ _ := trivial

/-- When the program may not write to the directory any more once it has the mode and the owner of
its source, it depends on the order whether a subdirectory gets into the index. -/
theorem order_shows (hopen : opened src w = some (work, dirents))
    (hmkdir : mkdir sys s₀ (w.place ins) = true) (hgo : continues ins sys w = true)
    (hc : c ∈ subdirs ins w work dirents) (hcopen : (opened src c).isSome)
    (hcmkdir : sys.mkdir (c.place ins) = true) (hfresh : s₀.dirs (c.place ins) = none)
    (hbefore : sys.mayWrite ((s₀.dirs (w.place ins)).getD .new).attributes = true)
    (hafter : sys.mayWrite
      ((finishOf ins src sys w work dirents).apply (s₀.dirs (w.place ins))).attributes = false) :
    (∃ s, Runs ins src sys [w] s₀ ([], s) ∧ s.dirs (c.place ins) = none) ∧
      ∃ s, Runs ins src sys [w] s₀ ([], s) ∧ (s.dirs (c.place ins)).isSome := by
  obtain ⟨-, -, d, -, -, hplace⟩ := mem_subdirs hopen hc
  have hne : c.place ins ≠ w.place ins := by
    intro heq
    rw [hplace] at heq
    exact absurd (congrArg List.length heq) (by simp)
  have habove : (c.place ins).dropLast = w.place ins := by rw [hplace, List.dropLast_concat]
  obtain ⟨pre, post, hsplit⟩ := List.append_of_mem hc
  have hapart : (subdirs ins w work dirents).Pairwise (Apart ins) := pairwise_subdirs hopen
  rw [hsplit, List.pairwise_append, List.pairwise_cons] at hapart
  obtain ⟨-, ⟨hpost, -⟩, hpre⟩ := hapart
  let made : Change := .made (if w.inRange ins then some .template else none)
  let s₁ := s₀.change (w.place ins) made
  let s₂ := s₁.change (w.place ins) (finishOf ins src sys w work dirents)
  let rest : List Task := pre.map .process ++ post.map .process
  have hdir₁ : s₁.dirs (w.place ins) = some (made.apply (s₀.dirs (w.place ins))) :=
    s₀.dirs_change_self ..
  have hdir₂ : s₂.dirs (w.place ins) =
      some ((finishOf ins src sys w work dirents).apply (s₁.dirs (w.place ins))) :=
    s₁.dirs_change_self ..
  have habsent₁ : s₁.dirs (c.place ins) = none := (s₀.dirs_change_of_ne _ hne).trans hfresh
  have habsent₂ : s₂.dirs (c.place ins) = none := (s₁.dirs_change_of_ne _ hne).trans habsent₁
  have hfirst : Step (process ins src sys) ([.process w], s₀)
      (.finish w work dirents :: (pre.map .process ++ .process c :: post.map .process), s₁) := by
    apply step_of_eq _ [] []
    simp only [process, processdir, hopen, hmkdir, if_true, descend_of_continues hgo, hsplit,
      List.map_append, List.map_cons]
    rfl
  constructor
  -- the directory is finished before the subdirectory is made
  · have hlost : process ins src sys (.process c) s₂ = (s₂, []) := by
      have hmay : sys.mayWrite ((finishOf ins src sys w work dirents).apply
          (some (made.apply (s₀.dirs (w.place ins))))).attributes = false := hafter
      have hno : mkdir sys s₂ (c.place ins) = false := by
        rw [mkdir, habsent₂, habove, hdir₂, Option.any_some, hdir₁, hmay, Bool.and_false]
        rfl
      change processdir ins src sys c s₂ = (s₂, [])
      unfold processdir
      cases opened src c with
      | none => rfl
      | some x => exact if_neg (by rw [hno]; exact Bool.false_ne_true)
    have hsecond : Step (process ins src sys)
        (.finish w work dirents :: (pre.map .process ++ .process c :: post.map .process), s₁)
        (pre.map .process ++ .process c :: post.map .process, s₂) := by
      have hfinish : process ins src sys (.finish w work dirents) s₁ = (s₂, []) := rfl
      have hstep := step_of_eq hfinish [] (pre.map .process ++ .process c :: post.map .process)
      rwa [List.append_nil] at hstep
    have hthird : Step (process ins src sys)
        (pre.map .process ++ .process c :: post.map .process, s₂) (rest, s₂) := by
      have hstep := step_of_eq hlost (pre.map .process) (post.map .process)
      rwa [List.append_nil] at hstep
    obtain ⟨s, hs⟩ : ∃ s, Reaches (process ins src sys) (rest, s₂) ([], s) := exists_finished _
    have habsent : s.dirs (c.place ins) = none := by
      refine (hs.keeps (keeps_absent (c.place ins)) ⟨?_, habsent₂⟩).2
      intro a ha
      rcases List.mem_append.mp ha with ha | ha
      · obtain ⟨v, hv, rfl⟩ := List.mem_map.mp ha
        exact (hpre v hv c (List.mem_cons_self ..)).1
      · obtain ⟨v, hv, rfl⟩ := List.mem_map.mp ha
        exact (hpost v hv).2
    exact ⟨s, .head hfirst (.head hsecond (.head hthird hs)), habsent⟩
  -- the subdirectory is made first
  · have hyes : mkdir sys s₁ (c.place ins) = true := by
      rw [mkdir, habove, hdir₁, Option.any_some, hcmkdir]
      exact Bool.or_eq_true_iff.mpr (Or.inr hbefore)
    have hmade : ((process ins src sys (.process c) s₁).1.dirs (c.place ins)).isSome := by
      obtain ⟨x, hx⟩ := Option.isSome_iff_exists.mp hcopen
      simp only [process, processdir, hx, hyes, if_true]
      rw [s₁.dirs_change_self]
      rfl
    obtain ⟨s, hs⟩ : ∃ s, Reaches (process ins src sys) _ ([], s) := exists_finished _
    have hstep : Step (process ins src sys)
        (Task.finish w work dirents ::
          (pre.map Task.process ++ Task.process c :: post.map Task.process), s₁) _ :=
      .process (Task.finish w work dirents :: pre.map Task.process) (Task.process c)
        (post.map Task.process) s₁
    exact ⟨s, .head hfirst (.head hstep hs),
      (hs.keeps (keeps_present (c.place ins)) ⟨fun _ _ => trivial, hmade⟩).2⟩

/-- The directory `t` is not writable, and `t/d` is lost if it is waited for. -/
theorem order_shows_small :
    (∃ s, Runs smallInput (smallSource 0o40555)
        (smallSystem fun a => a.mode.all fun mode => mode &&& 0o200 ≠ 0) [smallRoot] smallStart
        ([], s) ∧ s.dirs [[105], [116], [100]] = none) ∧
      ∃ s, Runs smallInput (smallSource 0o40555)
        (smallSystem fun a => a.mode.all fun mode => mode &&& 0o200 ≠ 0) [smallRoot] smallStart
        ([], s) ∧ (s.dirs [[105], [116], [100]]).isSome := by
  have hopen : opened (smallSource 0o40555) smallRoot = some
      (⟨[116], 1, ⟨1, 0o40555, 2, 1000, 1000, 4096, 4096, 8, 0, 0, 0⟩, 0, 0⟩,
        smallOpendir [116]) := rfl
  exact order_shows (c := childOf smallRoot ⟨[116], 1,
    ⟨1, 0o40555, 2, 1000, 1000, 4096, 4096, 8, 0, 0, 0⟩, 0, 0⟩ ⟨[100], .directory, none, [], []⟩)
    hopen (by decide) (by decide) (List.mem_singleton.mpr rfl) rfl rfl (by decide) (by decide)
    (by decide)

end Order

end Gufi.IndexBuild
