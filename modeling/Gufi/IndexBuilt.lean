import Gufi.IndexBuild
import Mathlib.Data.List.Permutation

/-!
# The index that is built

Whatever the threads do first, and whatever cannot be read or made, a directory of the source that
is reached gets what it should in the index, and nothing else is changed. The directory above is
made before its subdirectories are enqueued, so the order does not matter for a program that may
write to every directory of the index.
-/

namespace Gufi.IndexBuild

open UnixAccess Worklist Relation

section Tasks

variable (ins : Input) (src : Source) (sys : System)

/-- What a task does when the directory above has been made. -/
def expand : Task → List (Place × Change) × List Task
  | .process w =>
      match opened src w with
      | none => ([], [])
      | some (work, dirents) =>
          if sys.mkdir (w.place ins) then
            let r := descend ins sys w work dirents
            ([(w.place ins, .made r.1)], r.2)
          else ([], [])
  | .finish w work dirents => ([(w.place ins, finishOf ins src sys w work dirents)], [])

/-- What is made of the places that have been changed. -/
def changed (log : List (Place × Change)) (p : Place) (old : Option IndexDir) : Option IndexDir :=
  (log.filter fun x => x.1 = p).foldl (fun dir x => some (x.2.apply dir)) old

/-- The program may make something in every directory of the index: in those that were there, in
new ones, and in those that have got the mode and the owner of their source. -/
structure MayWrite (s₀ : State) : Prop where
  start : ∀ p dir, s₀.dirs p = some dir → sys.mayWrite dir.attributes = true
  new : sys.mayWrite IndexDir.new.attributes = true
  finished : ∀ w x, opened src w = some x → ∀ dir : IndexDir, sys.mayWrite dir.attributes = true →
    sys.mayWrite ((finishOf ins src sys w x.1 x.2).apply (some dir)).attributes = true

/-- The directories are what has happened to them, and are finished after they have been made. -/
structure Sound (s₀ s : State) : Prop where
  mkdir : ∀ p, (s.dirs p).isSome → sys.mkdir p = true
  mayWrite : ∀ p dir, s.dirs p = some dir → sys.mayWrite dir.attributes = true
  dirs : ∀ p, s.dirs p = changed s.log p (s₀.dirs p)
  ordered : ∀ l l' p attributes db, s.log = l ++ (p, .finished attributes db) :: l' →
    ∃ x, (p, .made x) ∈ l

/-- The directory above has been made, or the directory itself. -/
def Ready : Task → State → Prop
  | .process w, s => (s.dirs (w.place ins).dropLast).isSome
  | .finish w work dirents, s => opened src w = some (work, dirents) ∧
      (s.dirs (w.place ins)).isSome ∧ ∃ x, (w.place ins, .made x) ∈ s.log

variable {ins src sys} {s₀ s : State} {w : DirWork} {work : Trace.Work} {dirents : List Dirent}

theorem changed_concat (log : List (Place × Change)) (p q : Place) (c : Change)
    (old : Option IndexDir) : changed (log ++ [(p, c)]) q old =
      if p = q then some (c.apply (changed log q old)) else changed log q old := by
  unfold changed
  rw [List.filter_append, List.foldl_append]
  split_ifs with h
  · rw [List.filter_cons_of_pos (by simpa using h)]
    rfl
  · rw [List.filter_cons_of_neg (by simpa using h)]
    rfl

theorem Sound.change (h : Sound sys s₀ s) {p : Place} {c : Change} (hmkdir : sys.mkdir p = true)
    (hmay : sys.mayWrite (c.apply (s.dirs p)).attributes = true)
    (hmade : ∀ attributes db, c = .finished attributes db → ∃ x, (p, .made x) ∈ s.log) :
    Sound sys s₀ (s.change p c) where
  mkdir q hq := by
    by_cases hqp : q = p
    · rw [hqp]
      exact hmkdir
    · rw [s.dirs_change_of_ne c hqp] at hq
      exact h.mkdir q hq
  mayWrite q dir hq := by
    by_cases hqp : q = p
    · rw [hqp, s.dirs_change_self] at hq
      cases hq
      exact hmay
    · rw [s.dirs_change_of_ne c hqp] at hq
      exact h.mayWrite q dir hq
  dirs q := by
    change _ = changed (s.log ++ [(p, c)]) q (s₀.dirs q)
    rw [changed_concat, ← h.dirs]
    split_ifs with hpq
    · rw [hpq, s.dirs_change_self]
    · exact s.dirs_change_of_ne c (Ne.symm hpq)
  ordered l l' q attributes db heq := by
    rcases List.eq_nil_or_concat l' with rfl | ⟨l', x, rfl⟩
    · obtain ⟨rfl, hlast⟩ := List.append_inj' heq rfl
      cases hlast
      exact hmade attributes db rfl
    · rw [State.change, List.concat_eq_append, ← List.cons_append, ← List.append_assoc] at heq
      exact h.ordered l l' q attributes db (List.append_inj' heq rfl).1

/-- What is enqueued has what it waits for. -/
theorem ready_descend (hopen : opened src w = some (work, dirents)) {c : Change}
    (hc : ∃ x, c = .made x) : ∀ a ∈ (descend ins sys w work dirents).2,
      Ready ins src a (s.change (w.place ins) c) := by
  obtain ⟨x, rfl⟩ := hc
  have hdir : ((s.change (w.place ins) (.made x)).dirs (w.place ins)).isSome := by
    rw [s.dirs_change_self]
    rfl
  have htasks : ∀ a ∈ Task.finish w work dirents :: (subdirs ins w work dirents).map .process,
      Ready ins src a (s.change (w.place ins) (.made x)) := by
    rw [List.forall_mem_cons]
    constructor
    · exact ⟨hopen, hdir, x, List.mem_append_right _ (List.mem_singleton.mpr rfl)⟩
    · intro a ha
      obtain ⟨child, hchild, rfl⟩ := List.mem_map.mp ha
      obtain ⟨-, -, d, -, -, hplace⟩ := mem_subdirs hopen hchild
      rw [Ready, hplace, List.dropLast_concat]
      exact hdir
  unfold descend
  split_ifs
  · exact htasks
  · intro a ha
    cases ha
  · exact htasks

theorem Ready.change {a : Task} (h : Ready ins src a s) (p : Place) (c : Change) :
    Ready ins src a (s.change p c) := by
  have hkeep {q : Place} (hq : (s.dirs q).isSome) : ((s.change p c).dirs q).isSome := by
    by_cases hqp : q = p
    · rw [hqp, s.dirs_change_self]
      rfl
    · rwa [s.dirs_change_of_ne c hqp]
  cases a with
  | process w => exact hkeep h
  | finish w work dirents =>
      obtain ⟨hopen, hdir, x, hx⟩ := h
      exact ⟨hopen, hkeep hdir, x, List.mem_append_left _ hx⟩

/-- With the directory above at hand, `mkdir` fails only for reasons of its own. -/
theorem mkdir_eq (hs : Sound sys s₀ s) {p : Place} (hparent : (s.dirs p.dropLast).isSome) :
    mkdir sys s p = sys.mkdir p := by
  unfold mkdir
  obtain ⟨dir, hdir⟩ := Option.isSome_iff_exists.mp hparent
  rw [hdir, Option.any_some, hs.mayWrite _ _ hdir, Bool.and_true]
  cases hp : (s.dirs p).isSome with
  | true => exact (hs.mkdir p hp).symm
  | false => rfl

/-- What a task does, when it is ready. -/
theorem process_cases (hs : Sound sys s₀ s) {a : Task} (ha : Ready ins src a s) :
    (process ins src sys a s = (s, []) ∧ expand ins src sys a = ([], [])) ∨
    (∃ w work dirents, a = .process w ∧ opened src w = some (work, dirents) ∧
      sys.mkdir (w.place ins) = true ∧
      process ins src sys a s = (s.change (w.place ins)
        (.made (descend ins sys w work dirents).1), (descend ins sys w work dirents).2) ∧
      expand ins src sys a = ([(w.place ins, .made (descend ins sys w work dirents).1)],
        (descend ins sys w work dirents).2)) ∨
    (∃ w work dirents, a = .finish w work dirents ∧
      process ins src sys a s =
        (s.change (w.place ins) (finishOf ins src sys w work dirents), []) ∧
      expand ins src sys a = ([(w.place ins, finishOf ins src sys w work dirents)], [])) := by
  cases a with
  | process w =>
      have hmkdir := mkdir_eq hs ha
      cases hopen : opened src w with
      | none =>
          exact Or.inl ⟨by simp only [process, processdir, hopen], by simp only [expand, hopen]⟩
      | some x =>
          obtain ⟨work, dirents⟩ := x
          cases hp : sys.mkdir (w.place ins) with
          | false =>
              rw [hp] at hmkdir
              exact Or.inl ⟨by simp [process, processdir, hopen, hmkdir],
                by simp [expand, hopen, hp]⟩
          | true =>
              rw [hp] at hmkdir
              exact Or.inr (Or.inl ⟨w, work, dirents, rfl, hopen, hp,
                by simp [process, processdir, hopen, hmkdir], by simp [expand, hopen, hp]⟩)
  | finish w work dirents => exact Or.inr (Or.inr ⟨w, work, dirents, rfl, rfl, rfl⟩)

/-- What the tasks do is in the log. -/
theorem logs_process (hmay : MayWrite ins src sys s₀) : Logs (expand ins src sys) (Sound sys s₀)
    (Ready ins src) State.log id (fun a s r => r = process ins src sys a s) where
  state a s r hs ha hr := by
    subst hr
    rcases process_cases hs ha with ⟨heq, -⟩ | ⟨w, work, dirents, rfl, hopen, hmkdir, heq, -⟩ |
      ⟨w, work, dirents, rfl, heq, -⟩
    · rw [heq]
      exact hs
    · rw [heq]
      apply hs.change hmkdir
      · cases hdir : s.dirs (w.place ins) with
        | none => exact hmay.new
        | some dir => exact hs.mayWrite _ dir hdir
      · intro attributes db h
        cases h
    · rw [heq]
      obtain ⟨hopen, hdir, hmade⟩ := ha
      apply hs.change (hs.mkdir _ hdir)
      · obtain ⟨dir, hdir⟩ := Option.isSome_iff_exists.mp hdir
        rw [hdir]
        exact hmay.finished w (work, dirents) hopen dir (hs.mayWrite _ _ hdir)
      · exact fun _ _ _ => hmade
  keep a b s r hs ha hb hr := by
    subst hr
    rcases process_cases hs ha with ⟨heq, -⟩ | ⟨w, work, dirents, rfl, -, -, heq, -⟩ |
      ⟨w, work, dirents, rfl, heq, -⟩
    all_goals rw [heq]
    · exact hb
    · exact hb.change ..
    · exact hb.change ..
  items a s r hs ha hr := by
    subst hr
    rcases process_cases hs ha with ⟨heq, -⟩ | ⟨w, work, dirents, rfl, hopen, -, heq, -⟩ |
      ⟨w, work, dirents, rfl, heq, -⟩
    · rw [heq]
      intro b hb
      cases hb
    · rw [heq]
      exact ready_descend hopen ⟨_, rfl⟩
    · rw [heq]
      intro b hb
      cases hb
  step a s r hs ha hr := by
    subst hr
    rcases process_cases hs ha with ⟨heq, hexp⟩ | ⟨w, work, dirents, rfl, -, -, heq, hexp⟩ |
      ⟨w, work, dirents, rfl, heq, hexp⟩
    · exact ⟨[], by rw [heq, List.append_nil], by rw [hexp]; rfl, by rw [heq, hexp]⟩
    · exact ⟨_, by rw [heq]; rfl, by rw [hexp]; rfl, by rw [heq, hexp]⟩
    · exact ⟨_, by rw [heq]; rfl, by rw [hexp]; rfl, by rw [heq, hexp]⟩

end Tasks

section Directories

variable (ins : Input) (src : Source) (sys : System)

/-- What both tasks do for a directory, and the subdirectories that are enqueued. -/
def expandDir (w : DirWork) : List (Place × Change) × List DirWork :=
  match opened src w with
  | none => ([], [])
  | some (work, dirents) =>
      if sys.mkdir (w.place ins) then
        if continues ins sys w then
          ([(w.place ins, .made (if w.inRange ins then some .template else none)),
            (w.place ins, finishOf ins src sys w work dirents)], subdirs ins w work dirents)
        else ([(w.place ins, .made (some .unusable))], [])
      else ([], [])

/-- What becomes of the directory of the index. -/
def built (w : DirWork) (old : Option IndexDir) : Option IndexDir :=
  match opened src w with
  | none => old
  | some (work, dirents) =>
      if sys.mkdir (w.place ins) then
        if continues ins sys w then some ((finishOf ins src sys w work dirents).apply old)
        else some { old.getD .new with db := .unusable }
      else old

/-- The directories of the source that are processed. -/
def Reached (roots : List DirWork) (w : DirWork) : Prop := Below (expandDir ins src sys) roots w

variable {ins src sys} {s₀ s : State} {w a : DirWork} {ws roots : List DirWork}
  {out : List (Place × Change)}

theorem expand_process (ins : Input) (src : Source) (sys : System) (w : DirWork) :
    ((expand ins src sys (.process w)).2 = [] ∧
      expandDir ins src sys w = ((expand ins src sys (.process w)).1, [])) ∨
    ∃ work dirents c, expand ins src sys (.process w) = ([c],
        .finish w work dirents :: (subdirs ins w work dirents).map .process) ∧
      expandDir ins src sys w =
        ([c, (w.place ins, finishOf ins src sys w work dirents)], subdirs ins w work dirents) := by
  cases hopen : opened src w with
  | none => exact Or.inl (by simp [expand, expandDir, hopen])
  | some x =>
      obtain ⟨work, dirents⟩ := x
      cases hp : sys.mkdir (w.place ins) with
      | false => exact Or.inl (by simp [expand, expandDir, hopen, hp])
      | true =>
          cases hrange : w.inRange ins with
          | false =>
              refine Or.inr ⟨work, dirents, (w.place ins, .made none), ?_, ?_⟩
              · simp [expand, hopen, hp, descend, hrange]
              · simp [expandDir, hopen, hp, continues, hrange]
          | true =>
              cases htemplate : sys.templateToDb (w.place ins) with
              | false =>
                  exact Or.inl (by
                    simp [expand, expandDir, hopen, hp, descend, continues, hrange, htemplate])
              | true =>
                  refine Or.inr ⟨work, dirents, (w.place ins, .made (some .template)), ?_, ?_⟩
                  · simp [expand, hopen, hp, descend, hrange, htemplate]
                  · simp [expandDir, hopen, hp, continues, hrange, htemplate]

/-- The tasks do what the directories do. -/
theorem emits_expandDir (h : Emits (expand ins src sys) (ws.map .process) out) :
    Emits (expandDir ins src sys) ws out := by
  let finish (x : DirWork × Trace.Work × List Dirent) : Task := .finish x.1 x.2.1 x.2.2
  suffices hgen : ∀ tasks out, Emits (expand ins src sys) tasks out →
      ∀ (ends : List (DirWork × Trace.Work × List Dirent)) (ws : List DirWork),
      tasks = ends.map finish ++ ws.map .process →
      ∃ out', out =
          (ends.map fun x => (x.1.place ins, finishOf ins src sys x.1 x.2.1 x.2.2)) ++ out' ∧
        Emits (expandDir ins src sys) ws out' by
    obtain ⟨out', heq, hout⟩ := hgen _ _ h [] ws rfl
    rw [heq]
    exact hout
  clear h
  intro tasks out h
  induction h with
  | nil =>
      intro ends ws heq
      obtain ⟨hends, hws⟩ := List.append_eq_nil_iff.mp heq.symm
      obtain rfl := List.map_eq_nil_iff.mp hends
      obtain rfl := List.map_eq_nil_iff.mp hws
      exact ⟨[], rfl, .nil⟩
  | @cons task rest below out hbelow hrest ihbelow ihrest =>
      intro ends ws heq
      cases ends with
      | cons x ends =>
          obtain ⟨rfl, hrest⟩ := List.cons.inj heq
          obtain ⟨out', rfl, hout⟩ := ihrest ends ws hrest
          obtain ⟨_, rfl, hnil⟩ := ihbelow [] [] rfl
          cases hnil
          exact ⟨out', rfl, hout⟩
      | nil =>
          cases ws with
          | nil => cases heq
          | cons w ws =>
              obtain ⟨rfl, hrest⟩ := List.cons.inj heq
              obtain ⟨out', rfl, hout⟩ := ihrest [] ws hrest
              refine ⟨_, rfl, ?_⟩
              rcases expand_process ins src sys w with ⟨hnone, hdir⟩ |
                ⟨work, dirents, c, heq, hdir⟩
              · obtain ⟨below', rfl, hnil⟩ := ihbelow [] [] hnone
                cases hnil
                have hcons : Emits (expandDir ins src sys) (w :: ws) _ :=
                  .cons (by rw [hdir]; exact .nil) hout
                rwa [hdir] at hcons
              · obtain ⟨below', rfl, hbelow'⟩ := ihbelow [(w, work, dirents)]
                  (subdirs ins w work dirents) (by rw [heq]; rfl)
                have hcons : Emits (expandDir ins src sys) (w :: ws) _ :=
                  .cons (by rw [hdir]; exact hbelow') hout
                rw [hdir] at hcons
                rw [heq]
                exact hcons

/-- What can happen to a directory. -/
theorem expandDir_cases (ins : Input) (src : Source) (sys : System) (w : DirWork) :
    (expandDir ins src sys w = ([], []) ∧ ∀ old, built ins src sys w old = old) ∨
    (expandDir ins src sys w = ([(w.place ins, .made (some .unusable))], []) ∧
      ∀ old, built ins src sys w old = some { old.getD .new with db := .unusable }) ∨
    ∃ work dirents, opened src w = some (work, dirents) ∧
      expandDir ins src sys w =
        ([(w.place ins, .made (if w.inRange ins then some .template else none)),
          (w.place ins, finishOf ins src sys w work dirents)], subdirs ins w work dirents) ∧
      ∀ old, built ins src sys w old = some ((finishOf ins src sys w work dirents).apply old) := by
  cases hopen : opened src w with
  | none => exact Or.inl (by simp [expandDir, built, hopen])
  | some x =>
      obtain ⟨work, dirents⟩ := x
      cases hp : sys.mkdir (w.place ins) with
      | false => exact Or.inl (by simp [expandDir, built, hopen, hp])
      | true =>
          cases hgo : continues ins sys w with
          | false => exact Or.inr (Or.inl (by simp [expandDir, built, hopen, hp, hgo]))
          | true =>
              exact Or.inr (Or.inr ⟨work, dirents, rfl, by simp [expandDir, hopen, hp, hgo],
                by simp [built, hopen, hp, hgo]⟩)

/-- A directory is changed at its own place, and goes to places right below. -/
theorem place_expandDir (ins : Input) (src : Source) (sys : System) (w : DirWork) :
    (∀ x ∈ (expandDir ins src sys w).1, x.1 = w.place ins) ∧
    ∀ c ∈ (expandDir ins src sys w).2, ∃ name, c.place ins = w.place ins ++ [name] := by
  rcases expandDir_cases ins src sys w with ⟨heq, -⟩ | ⟨heq, -⟩ | ⟨work, dirents, hopen, heq, -⟩
  · simp [heq]
  · simp [heq]
  · rw [heq]
    constructor
    · simp
    · intro c hc
      obtain ⟨-, -, d, -, -, hplace⟩ := mem_subdirs hopen hc
      exact ⟨d.name, hplace⟩

theorem pairwise_expandDir (w : DirWork) :
    (expandDir ins src sys w).2.Pairwise (Apart ins) := by
  rcases expandDir_cases ins src sys w with ⟨heq, -⟩ | ⟨heq, -⟩ | ⟨work, dirents, hopen, heq, -⟩
  · simp [heq]
  · simp [heq]
  · rw [heq]
    exact pairwise_subdirs hopen

/-- The directories that are processed are at or below the first ones. -/
theorem Reached.prefix (h : Reached ins src sys ws a) : ∃ w ∈ ws, w.place ins <+: a.place ins := by
  obtain ⟨w, hw, hrun⟩ := h
  refine ⟨w, hw, ?_⟩
  induction hrun with
  | refl => exact List.prefix_refl _
  | tail _ hstep ih =>
      obtain ⟨name, hname⟩ := (place_expandDir ..).2 _ hstep
      rw [hname]
      exact ih.trans (List.prefix_append ..)

/-- From places that are apart, every directory is changed by itself only. -/
theorem emits_place (h : Emits (expandDir ins src sys) ws out) (hapart : ws.Pairwise (Apart ins)) :
    (∀ x ∈ out, ∃ w ∈ ws, w.place ins <+: x.1) ∧
    ∀ a, Reached ins src sys ws a →
      (out.filter fun x => x.1 = a.place ins) = (expandDir ins src sys a).1 := by
  induction h with
  | nil =>
      constructor
      · intro x hx
        cases hx
      · rintro a ⟨w, hw, -⟩
        cases hw
  | @cons w rest below out hbelow hrest ihbelow ihrest =>
      rw [List.pairwise_cons] at hapart
      obtain ⟨hfirst, hapart⟩ := hapart
      obtain ⟨hout, hat⟩ := ihrest hapart
      obtain ⟨houtbelow, hatbelow⟩ := ihbelow (pairwise_expandDir w)
      obtain ⟨hown, hnext⟩ := place_expandDir ins src sys w
      have hpre : ∀ x ∈ below, ∃ name, w.place ins ++ [name] <+: x.1 := by
        intro x hx
        obtain ⟨c, hc, hpre⟩ := houtbelow x hx
        obtain ⟨name, hname⟩ := hnext c hc
        exact ⟨name, hname ▸ hpre⟩
      have hlong {p : Place} {name : Bytes} (h : w.place ins ++ [name] <+: p) :
          p ≠ w.place ins := by
        rintro rfl
        have hlen := h.length_le
        rw [List.length_append, List.length_singleton] at hlen
        omega
      have hrestplace {p : Place} (hw : w.place ins <+: p) (h : ∃ b ∈ rest, b.place ins <+: p) :
          False := by
        obtain ⟨b, hb, hbp⟩ := h
        rcases List.prefix_or_prefix_of_prefix hw hbp with h | h
        · exact (hfirst b hb).1 h
        · exact (hfirst b hb).2 h
      constructor
      · intro x hx
        rw [List.mem_append, List.mem_append] at hx
        rcases hx with (hx | hx) | hx
        · exact ⟨w, List.mem_cons_self .., hown x hx ▸ List.prefix_refl _⟩
        · obtain ⟨name, hpre⟩ := hpre x hx
          exact ⟨w, List.mem_cons_self .., (List.prefix_append ..).trans hpre⟩
        · obtain ⟨b, hb, hbx⟩ := hout x hx
          exact ⟨b, List.mem_cons_of_mem _ hb, hbx⟩
      · intro a ha
        rw [List.filter_append, List.filter_append]
        have hnone {l : List (Place × Change)} (h : ∀ x ∈ l, x.1 ≠ a.place ins) :
            (l.filter fun x => x.1 = a.place ins) = [] := by
          apply List.filter_eq_nil_iff.mpr
          intro x hx
          simpa using h x hx
        rcases below_cons_iff.mp ha with rfl | ha | ha
        · rw [List.filter_eq_self.mpr (by simpa using hown),
            hnone fun x hx heq => hlong (hpre x hx).choose_spec heq,
            hnone fun x hx heq => hrestplace (heq ▸ List.prefix_refl _) (hout x hx),
            List.append_nil, List.append_nil]
        · obtain ⟨c, hc, hca⟩ := Reached.prefix ha
          obtain ⟨name, hname⟩ := hnext c hc
          rw [hname] at hca
          rw [hatbelow a ha, hnone fun x hx heq => hlong hca (heq.symm.trans (hown x hx)),
            hnone fun x hx heq => hrestplace ((List.prefix_append ..).trans hca) (heq ▸ hout x hx),
            List.append_nil, List.nil_append]
        · have hrest := Reached.prefix ha
          rw [hat a ha,
            hnone fun x hx heq => hrestplace (heq ▸ hown x hx ▸ List.prefix_refl _) hrest,
            hnone fun x hx heq =>
              hrestplace (heq ▸ (List.prefix_append ..).trans (hpre x hx).choose_spec) hrest,
            List.nil_append, List.nil_append]

/-- Once what has happened to a directory is known up to the order, the order is known too. -/
theorem Sound.dirs_eq_built (hs : Sound sys s₀ s)
    (hperm : (s.log.filter fun x => x.1 = w.place ins).Perm (expandDir ins src sys w).1) :
    s.dirs (w.place ins) = built ins src sys w (s₀.dirs (w.place ins)) := by
  rw [hs.dirs, changed]
  rcases expandDir_cases ins src sys w with ⟨heq, hbuilt⟩ | ⟨heq, hbuilt⟩ |
    ⟨work, dirents, -, heq, hbuilt⟩
  · rw [heq] at hperm
    rw [hperm.eq_nil, hbuilt]
    rfl
  · rw [heq] at hperm
    rw [hperm.eq_singleton, hbuilt]
    rfl
  · rw [heq] at hperm
    rcases List.perm_pair.mp hperm with hlog | hlog
    · rw [hlog, hbuilt]
      cases hrange : w.inRange ins <;> simp [finishOf, Change.apply, hrange]
    · obtain ⟨l, l', hl, hnone, -⟩ := List.filter_eq_cons_iff.mp hlog
      obtain ⟨x, hx⟩ := hs.ordered l l' _ _ _ hl
      exact absurd (by simp) (hnone _ hx)

/-- What the run begins with: no directory has been changed, those that exist are no trouble for
`mkdir`, and the directories that are to be indexed go to places that are apart, in directories that
exist. Places are not those of paths with `..`. -/
structure Starts (ins : Input) (sys : System) (roots : List DirWork) (s₀ : State) : Prop where
  log : s₀.log = []
  mkdir : ∀ p, (s₀.dirs p).isSome → sys.mkdir p = true
  parent : ∀ w ∈ roots, (s₀.dirs (w.place ins).dropLast).isSome
  apart : roots.Pairwise (Apart ins)
  resolved : ∀ w ∈ roots, [46, 46] ∉ w.place ins

theorem Starts.sound (h : Starts ins sys roots s₀) (hmay : MayWrite ins src sys s₀) :
    Sound sys s₀ s₀ where
  mkdir := h.mkdir
  mayWrite := hmay.start
  dirs p := by rw [h.log]; rfl
  ordered l l' p attributes db heq := by
    rw [h.log] at heq
    cases l <;> cases heq

theorem Starts.ready (h : Starts ins sys roots s₀) :
    ∀ a ∈ roots.map Task.process, Ready ins src a s₀ := by
  intro a ha
  obtain ⟨w, hw, rfl⟩ := List.mem_map.mp ha
  exact h.parent w hw

theorem level_expandDir (w : DirWork) : ∀ c ∈ (expandDir ins src sys w).2,
    c.level = w.level + 1 ∧ w.level + 1 ≤ ins.maxLevel := by
  intro c hc
  rcases expandDir_cases ins src sys w with ⟨heq, -⟩ | ⟨heq, -⟩ | ⟨work, dirents, hopen, heq, -⟩
  · rw [heq] at hc
    cases hc
  · rw [heq] at hc
    cases hc
  · rw [heq] at hc
    obtain ⟨hlevel, hmax, -⟩ := mem_subdirs hopen hc
    exact ⟨hlevel, hmax⟩

/-- What has happened in a run, in some order. -/
theorem Runs.log_perm (h : Runs ins src sys roots s₀ ([], s)) (hmay : MayWrite ins src sys s₀)
    (hstart : Starts ins sys roots s₀) : Sound sys s₀ s ∧
      ∃ out, s.log.Perm out ∧ Emits (expandDir ins src sys) roots out := by
  have hlogs := logs_process hmay
  have hrun := reaches_iff_choice.mp h
  obtain ⟨out, hemits, hperm⟩ := hlogs.emits (hstart.sound hmay) hstart.ready hrun
  obtain ⟨hsound, -⟩ := hlogs.allowed hrun (hstart.sound hmay) hstart.ready
  rw [List.map_id, List.map_id, hstart.log, List.nil_append] at hperm
  exact ⟨hsound, out, hperm, emits_expandDir hemits⟩

/-- A directory that is processed comes to what it would by itself. -/
theorem Runs.dirs_eq_built (h : Runs ins src sys roots s₀ ([], s))
    (hmay : MayWrite ins src sys s₀) (hstart : Starts ins sys roots s₀)
    (hw : Reached ins src sys roots w) :
    s.dirs (w.place ins) = built ins src sys w (s₀.dirs (w.place ins)) := by
  obtain ⟨hsound, out, hperm, hemits⟩ := h.log_perm hmay hstart
  obtain ⟨-, hat⟩ := emits_place hemits hstart.apart
  apply hsound.dirs_eq_built
  rw [← hat w hw]
  exact hperm.filter _

theorem starts_small (mayWrite : Attributes → Bool) :
    Starts smallInput (smallSystem mayWrite) [smallRoot] smallStart where
  log := rfl
  mkdir _ _ := rfl
  parent := by
    intro w hw
    obtain rfl := List.mem_singleton.mp hw
    decide
  apart := List.pairwise_singleton ..
  resolved := by
    intro w hw
    obtain rfl := List.mem_singleton.mp hw
    decide

/-- Root may write everywhere. -/
theorem mayWrite_small (mode : UInt32) : MayWrite smallInput (smallSource mode)
    (smallSystem fun _ => true) smallStart :=
  ⟨fun _ _ _ => rfl, rfl, fun _ _ _ _ _ => rfl⟩

end Directories

end Gufi.IndexBuild
