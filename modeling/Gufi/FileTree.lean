import Mathlib.Data.List.AList
import Mathlib.Data.List.Induction
import Mathlib.Data.List.Infix

/-!
# File systems

Directories are numbered and hold named entries, each a directory or a file. The calls `mkdir`,
`rmdir`, `unlink` and `rename` take a path from a directory, and fail as they do on a POSIX system.
`Realizes` describes the directories of a set of nodes by where each of them is entered and what
files it holds. There is one rule for each call.
-/

namespace FileTree

section Calls

variable {Name File : Type*}

inductive Entry (File : Type*)
  | dir (id : ℕ)
  | file (content : File)

/-- The entries of each directory. The directories from `next` on are not in use. -/
structure FileSystem (Name File : Type*) where
  entries : ℕ → AList fun _ : Name => Entry File
  next : ℕ

variable [DecidableEq Name] (fs : FileSystem Name File)

def FileSystem.lookup (d : ℕ) (n : Name) : Option (Entry File) := (fs.entries d).lookup n

def FileSystem.put (d : ℕ) (n : Name) (x : Entry File) : FileSystem Name File :=
  { fs with entries := Function.update fs.entries d ((fs.entries d).insert n x) }

def FileSystem.remove (d : ℕ) (n : Name) : FileSystem Name File :=
  { fs with entries := Function.update fs.entries d ((fs.entries d).erase n) }

def FileSystem.isEmpty (d : ℕ) : Bool := (fs.entries d).entries.isEmpty

/-- A directory can be renamed to this name. -/
def FileSystem.vacant (d : ℕ) (n : Name) : Bool :=
  match fs.lookup d n with
  | none => true
  | some (.dir y) => fs.isEmpty y
  | some (.file _) => false

/-- What a path names. -/
def FileSystem.resolve (d : ℕ) : List Name → Option (Entry File)
  | [] => some (.dir d)
  | n :: path =>
    match fs.lookup d n with
    | some (.dir e) => resolve e path
    | some (.file f) => if path.isEmpty then some (.file f) else none
    | none => none

def FileSystem.resolveDir (d : ℕ) (path : List Name) : Option ℕ :=
  match fs.resolve d path with
  | some (.dir e) => some e
  | _ => none

/-- The directory and the name that a path ends in. -/
def FileSystem.slot (d : ℕ) (path : List Name) : Option (ℕ × Name) :=
  path.getLast?.bind fun n => (fs.resolveDir d path.dropLast).map fun e => (e, n)

def FileSystem.mkdir (d : ℕ) (path : List Name) : Option (FileSystem Name File) :=
  (fs.slot d path).bind fun (e, n) =>
    match fs.lookup e n with
    | none => some { fs.put e n (.dir fs.next) with next := fs.next + 1 }
    | some _ => none

def FileSystem.rmdir (d : ℕ) (path : List Name) : Option (FileSystem Name File) :=
  (fs.slot d path).bind fun (e, n) =>
    match fs.lookup e n with
    | some (.dir x) => if fs.isEmpty x then some (fs.remove e n) else none
    | _ => none

def FileSystem.unlink (d : ℕ) (path : List Name) : Option (FileSystem Name File) :=
  (fs.slot d path).bind fun (e, n) =>
    match fs.lookup e n with
    | some (.file _) => some (fs.remove e n)
    | _ => none

/-- A directory may take the place of an empty one, but not move below itself. -/
def FileSystem.rename (d : ℕ) (path : List Name) (d' : ℕ) (path' : List Name) :
    Option (FileSystem Name File) :=
  (fs.slot d path).bind fun (e, n) => (fs.slot d' path').bind fun (e', n') =>
    match fs.lookup e n with
    | none => none
    | some (.file f) =>
      match fs.lookup e' n' with
      | some (.dir _) => none
      | _ => some ((fs.remove e n).put e' n' (.file f))
    | some (.dir x) =>
      if (e, n) = (e', n') then some fs
      else if path'.dropLast.inits.any fun p => fs.resolveDir d' p = some x then none
      else if fs.vacant e' n' then some ((fs.remove e n).put e' n' (.dir x))
      else none

end Calls

section Lookup

variable {Name File : Type*} [DecidableEq Name] {fs : FileSystem Name File} {d e : ℕ} {n : Name}
  {x : Entry File}

@[simp] theorem next_put : (fs.put d n x).next = fs.next := rfl

@[simp] theorem next_remove : (fs.remove d n).next = fs.next := rfl

theorem lookup_put_self : (fs.put d n x).lookup d n = some x := by
  simp [FileSystem.lookup, FileSystem.put]

theorem lookup_put_of_ne {m : Name} (h : (e, m) ≠ (d, n)) :
    (fs.put d n x).lookup e m = fs.lookup e m := by
  by_cases he : e = d
  · subst he
    have hm : m ≠ n := fun hm => h (by rw [hm])
    simp [FileSystem.lookup, FileSystem.put, AList.lookup_insert_ne hm]
  · simp [FileSystem.lookup, FileSystem.put, Function.update_of_ne he]

theorem lookup_remove_self : (fs.remove d n).lookup d n = none := by
  simp [FileSystem.lookup, FileSystem.remove]

theorem lookup_remove_of_ne {m : Name} (h : (e, m) ≠ (d, n)) :
    (fs.remove d n).lookup e m = fs.lookup e m := by
  by_cases he : e = d
  · subst he
    have hm : m ≠ n := fun hm => h (by rw [hm])
    simp [FileSystem.lookup, FileSystem.remove, AList.lookup_erase_ne hm]
  · simp [FileSystem.lookup, FileSystem.remove, Function.update_of_ne he]

theorem lookup_put (m : Name) : (fs.put d n x).lookup e m =
    if (e, m) = (d, n) then some x else fs.lookup e m := by
  split_ifs with h
  · obtain ⟨rfl, rfl⟩ := Prod.mk.inj h
    exact lookup_put_self
  · exact lookup_put_of_ne h

theorem isEmpty_eq_true_iff : fs.isEmpty d = true ↔ ∀ n, fs.lookup d n = none := by
  rw [FileSystem.isEmpty, List.isEmpty_iff]
  constructor
  · intro h n
    rw [FileSystem.lookup, AList.lookup_eq_none, AList.mem_keys, AList.keys, h]
    exact List.not_mem_nil
  · intro h
    refine List.eq_nil_iff_forall_not_mem.mpr fun s hs => ?_
    have hkey : s.1 ∈ fs.entries d := AList.mem_keys.mpr (List.mem_map_of_mem hs)
    exact AList.lookup_eq_none.mp (h s.1) hkey

theorem isEmpty_congr {fs' : FileSystem Name File} (h : ∀ n, fs'.lookup d n = fs.lookup d n) :
    fs'.isEmpty d = fs.isEmpty d := by
  rw [Bool.eq_iff_iff, isEmpty_eq_true_iff, isEmpty_eq_true_iff]
  exact forall_congr' fun n => by rw [h n]

end Lookup

section Resolve

variable {Name File : Type*} [DecidableEq Name] {fs fs' : FileSystem Name File} {d e : ℕ} {n : Name}
  {path : List Name}

theorem resolveDir_eq_some : fs.resolveDir d path = some e ↔
    fs.resolve d path = some (.dir e) := by
  rw [FileSystem.resolveDir]
  split <;> simp_all

/-- The last step of a path. -/
theorem resolve_concat (path : List Name) : fs.resolve d (path ++ [n]) =
    (fs.resolveDir d path).bind fun e => fs.lookup e n := by
  induction path generalizing d with
  | nil =>
      simp only [List.nil_append, FileSystem.resolve, FileSystem.resolveDir, Option.bind_some]
      split <;> simp_all
  | cons m path ih =>
      simp only [List.cons_append, FileSystem.resolve, FileSystem.resolveDir] at ih ⊢
      split
      · exact ih
      · split_ifs <;> simp_all
      · rfl

theorem slot_concat (path : List Name) : fs.slot d (path ++ [n]) =
    (fs.resolveDir d path).map fun e => (e, n) := by
  simp [FileSystem.slot]

theorem resolve_concat_of_dir (h : fs.resolve d path = some (.dir e)) :
    fs.resolve d (path ++ [n]) = fs.lookup e n := by
  rw [resolve_concat, resolveDir_eq_some.mpr h, Option.bind_some]

theorem slot_concat_of_dir (h : fs.resolve d path = some (.dir e)) :
    fs.slot d (path ++ [n]) = some (e, n) := by
  rw [slot_concat, resolveDir_eq_some.mpr h, Option.map_some]

theorem resolve_of_slot {q : ℕ × Name} (h : fs.slot d path = some q) :
    fs.resolve d path = fs.lookup q.1 q.2 := by
  induction path using List.reverseRecOn with
  | nil => exact nomatch h
  | append_singleton path n _ =>
      rw [slot_concat] at h
      obtain ⟨e, he, rfl⟩ := Option.map_eq_some_iff.mp h
      rw [resolve_concat, he, Option.bind_some]

/-- A path that leads further leads to a directory that is not empty. -/
theorem exists_dir_of_resolve_append {rest : List Name} {x : Entry File}
    (h : fs.resolve d (path ++ n :: rest) = some x) :
    ∃ e, fs.resolve d path = some (.dir e) ∧ fs.isEmpty e = false := by
  induction path generalizing d with
  | nil =>
      refine ⟨d, rfl, Bool.eq_false_iff.mpr fun hempty => ?_⟩
      rw [List.nil_append, FileSystem.resolve, isEmpty_eq_true_iff.mp hempty] at h
      exact nomatch h
  | cons m path ih =>
      rw [List.cons_append, FileSystem.resolve] at h
      rw [FileSystem.resolve]
      split at h
      · exact ih h
      · simp at h
      · exact nomatch h

/-- A path to a directory goes through a directory. -/
theorem exists_dir_of_resolve_concat {x : Entry File} (h : fs.resolve d (path ++ [n]) = some x) :
    ∃ e, fs.resolve d path = some (.dir e) ∧ fs.lookup e n = some x := by
  rw [resolve_concat] at h
  obtain ⟨e, he, hx⟩ := Option.bind_eq_some_iff.mp h
  exact ⟨e, resolveDir_eq_some.mp he, hx⟩

/-- A path through directories that are as they were leads where it did. -/
theorem resolve_congr (h : ∀ q m e, (q ++ [m]) <+: path → fs.resolve d q = some (.dir e) →
      fs'.lookup e m = fs.lookup e m) : fs'.resolve d path = fs.resolve d path := by
  induction path using List.reverseRecOn with
  | nil => rfl
  | append_singleton path n ih =>
      have hpath : fs'.resolve d path = fs.resolve d path :=
        ih fun q m e hq => h q m e (hq.trans (List.prefix_append _ _))
      rw [resolve_concat, resolve_concat, FileSystem.resolveDir, FileSystem.resolveDir, hpath]
      split
      · rename_i e he
        exact h path n e List.prefix_rfl he
      · rfl

variable {d' : ℕ} {path' : List Name} {q q' : ℕ × Name}

theorem mkdir_eq (hslot : fs.slot d path = some q) :
    fs.mkdir d path = if (fs.lookup q.1 q.2).isNone then
      some { fs.put q.1 q.2 (.dir fs.next) with next := fs.next + 1 } else none := by
  simp only [FileSystem.mkdir, hslot, Option.bind_some]
  cases hlookup : fs.lookup q.1 q.2 <;> rfl

theorem unlink_eq_some (hslot : fs.slot d path = some q) :
    fs.unlink d path = some fs' ↔ (∃ f, fs.lookup q.1 q.2 = some (.file f)) ∧
      fs' = fs.remove q.1 q.2 := by
  simp only [FileSystem.unlink, hslot, Option.bind_some]
  cases hlookup : fs.lookup q.1 q.2 with
  | none => simp
  | some v =>
      cases v with
      | dir e => simp
      | file f => simp [eq_comm]

theorem rmdir_eq (hslot : fs.slot d path = some q) {x : ℕ}
    (hdir : fs.lookup q.1 q.2 = some (.dir x)) :
    fs.rmdir d path = if fs.isEmpty x then some (fs.remove q.1 q.2) else none := by
  simp only [FileSystem.rmdir, hslot, Option.bind_some, hdir]

theorem rename_eq (hslot : fs.slot d path = some q) (hslot' : fs.slot d' path' = some q')
    {x : ℕ} (hdir : fs.lookup q.1 q.2 = some (.dir x)) (hne : q ≠ q')
    (habove : ∀ p, p <+: path'.dropLast → fs.resolve d' p ≠ some (.dir x)) :
    fs.rename d path d' path' = if fs.vacant q'.1 q'.2 then
      some ((fs.remove q.1 q.2).put q'.1 q'.2 (.dir x)) else none := by
  have hinits : (path'.dropLast.inits.any fun p => fs.resolveDir d' p = some x) = false := by
    rw [List.any_eq_false]
    intro p hp hx
    exact habove p ((List.mem_inits _ _).mp hp) (resolveDir_eq_some.mp (of_decide_eq_true hx))
  simp only [FileSystem.rename, hslot, hslot', Option.bind_some, hdir, if_neg hne, hinits,
    Bool.false_eq_true, if_false]

theorem rename_self (hslot : fs.slot d path = some q) (hslot' : fs.slot d' path' = some q)
    {x : ℕ} (hdir : fs.lookup q.1 q.2 = some (.dir x)) :
    fs.rename d path d' path' = some fs := by
  simp only [FileSystem.rename, hslot, hslot', Option.bind_some, hdir, if_true]

end Resolve

section WellFormed

variable {Name File : Type*} [DecidableEq Name] {fs : FileSystem Name File} {d e : ℕ}
  {p q : List Name}

/-- Directories have one parent, are not below themselves, and have numbers in use. -/
structure FileSystem.WellFormed (fs : FileSystem Name File) : Prop where
  unique : ∀ d n d' n' e, fs.lookup d n = some (.dir e) → fs.lookup d' n' = some (.dir e) →
    d = d' ∧ n = n'
  acyclic : ∀ d path, fs.resolve d path = some (.dir d) → path = []
  bounded : ∀ d n e, fs.lookup d n = some (.dir e) → e < fs.next
  fresh : ∀ d, fs.next ≤ d → ∀ n, fs.lookup d n = none

theorem FileSystem.WellFormed.lt_next_of_resolve (h : fs.WellFormed) (hd : d < fs.next)
    (hp : fs.resolve d p = some (.dir e)) : e < fs.next := by
  induction p using List.reverseRecOn with
  | nil =>
      obtain rfl := Entry.dir.inj (Option.some.inj hp)
      exact hd
  | append_singleton p n _ =>
      obtain ⟨f, -, hf⟩ := exists_dir_of_resolve_concat hp
      exact h.bounded f n e hf

/-- Where numbers increase downwards, a path leads to a larger one. -/
theorem eq_nil_or_lt_of_resolve (h : ∀ d n e, fs.lookup d n = some (.dir e) → d < e)
    (hp : fs.resolve d p = some (.dir e)) : p = [] ∨ d < e := by
  induction p using List.reverseRecOn generalizing e with
  | nil => exact .inl rfl
  | append_singleton p n ih =>
      obtain ⟨c, hc, hn⟩ := exists_dir_of_resolve_concat hp
      have hce := h c n e hn
      right
      rcases ih hc with rfl | hdc
      · obtain rfl := Entry.dir.inj (Option.some.inj hc)
        exact hce
      · exact hdc.trans hce

/-- There is one path from a directory to another. -/
theorem FileSystem.WellFormed.resolve_inj (h : fs.WellFormed)
    (hp : fs.resolve d p = some (.dir e)) (hq : fs.resolve d q = some (.dir e)) : p = q := by
  induction p using List.reverseRecOn generalizing q e with
  | nil =>
      obtain rfl := Entry.dir.inj (Option.some.inj hp)
      exact (h.acyclic _ _ hq).symm
  | append_singleton p n ih =>
      obtain ⟨f, hf, hn⟩ := exists_dir_of_resolve_concat hp
      cases q using List.reverseRecOn with
      | nil =>
          obtain rfl := Entry.dir.inj (Option.some.inj hq)
          exact absurd (h.acyclic _ _ hp) (by simp)
      | append_singleton q m =>
          obtain ⟨g, hg, hm⟩ := exists_dir_of_resolve_concat hq
          obtain ⟨rfl, rfl⟩ := h.unique f n g m e hn hm
          rw [ih hf hg]

theorem resolve_append (hp : fs.resolve d p = some (.dir e)) :
    fs.resolve d (p ++ q) = fs.resolve e q := by
  induction p generalizing d with
  | nil =>
      obtain rfl := Entry.dir.inj (Option.some.inj hp)
      rfl
  | cons n p ih =>
      rw [FileSystem.resolve] at hp
      rw [List.cons_append, FileSystem.resolve]
      split at hp
      · exact ih hp
      · simp at hp
      · exact nomatch hp

variable {fs' : FileSystem Name File} {x : ℕ} {s : ℕ × Name}

/-- If each directory is entered where it was, so is each that a path leads to. -/
theorem resolve_dir_of_sub (hsub : ∀ d n e, fs'.lookup d n = some (.dir e) →
    fs.lookup d n = some (.dir e)) (hp : fs'.resolve d p = some (.dir e)) :
    fs.resolve d p = some (.dir e) := by
  induction p using List.reverseRecOn generalizing e with
  | nil => exact hp
  | append_singleton p n ih =>
      obtain ⟨c, hc, hn⟩ := exists_dir_of_resolve_concat hp
      rw [resolve_concat_of_dir (ih hc)]
      exact hsub c n e hn

theorem FileSystem.WellFormed.of_sub (h : fs.WellFormed)
    (hsub : ∀ d n e, fs'.lookup d n = some (.dir e) → fs.lookup d n = some (.dir e))
    (hnext : fs'.next = fs.next) (hfresh : ∀ d, fs.next ≤ d → ∀ n, fs'.lookup d n = none) :
    fs'.WellFormed where
  unique d n d' n' e he he' := h.unique d n d' n' e (hsub d n e he) (hsub d' n' e he')
  acyclic d path hp := h.acyclic d path (resolve_dir_of_sub hsub hp)
  bounded d n e he := hnext ▸ h.bounded d n e (hsub d n e he)
  fresh d hd := hfresh d (hnext ▸ hd)

theorem FileSystem.WellFormed.remove (h : fs.WellFormed) (s : ℕ × Name) :
    (fs.remove s.1 s.2).WellFormed := by
  have hcases (d : ℕ) (n : Name) : (fs.remove s.1 s.2).lookup d n = none ∨
      (fs.remove s.1 s.2).lookup d n = fs.lookup d n := by
    by_cases hd : (d, n) = s
    · subst hd
      exact .inl lookup_remove_self
    · exact .inr (lookup_remove_of_ne hd)
  refine h.of_sub (fun d n e he => ?_) rfl fun d hd n => ?_
  · rcases hcases d n with hnone | hsame
    · rw [hnone] at he
      exact nomatch he
    · rwa [hsame] at he
  · rcases hcases d n with hnone | hsame
    · exact hnone
    · rw [hsame]
      exact h.fresh d hd n

theorem FileSystem.WellFormed.putFile (h : fs.WellFormed) {f : File} (s : ℕ × Name)
    (hs : s.1 < fs.next) :
    (fs.put s.1 s.2 (.file f)).WellFormed := by
  refine h.of_sub (fun d n e he => ?_) rfl fun d hd n => ?_
  · rw [lookup_put] at he
    split_ifs at he with hdn
    · exact nomatch he
    · exact he
  · have hdn : (d, n) ≠ (s.1, s.2) := by
      rintro heq
      rw [(Prod.mk.inj heq).1] at hd
      exact absurd hs (Nat.not_lt.mpr hd)
    rw [lookup_put_of_ne hdn]
    exact h.fresh d hd n

theorem FileSystem.WellFormed.mkdir (h : fs.WellFormed) (hs : s.1 < fs.next) :
    FileSystem.WellFormed { fs.put s.1 s.2 (.dir fs.next) with next := fs.next + 1 } := by
  set fs' : FileSystem Name File := { fs.put s.1 s.2 (.dir fs.next) with next := fs.next + 1 }
  have hlookup (d : ℕ) (n : Name) : fs'.lookup d n =
      if (d, n) = (s.1, s.2) then some (.dir fs.next) else fs.lookup d n := by
    rw [← lookup_put]
    rfl
  have hcases {d : ℕ} {n : Name} {e : ℕ} (he : fs'.lookup d n = some (.dir e)) :
      (d, n) = (s.1, s.2) ∧ e = fs.next ∨ fs.lookup d n = some (.dir e) := by
    rw [hlookup] at he
    split_ifs at he with hdn
    · exact .inl ⟨hdn, (Entry.dir.inj (Option.some.inj he)).symm⟩
    · exact .inr he
  have hempty (n : Name) : fs'.lookup fs.next n = none := by
    have hne : (fs.next, n) ≠ (s.1, s.2) := by
      rintro heq
      exact absurd hs (by rw [← (Prod.mk.inj heq).1]; exact lt_irrefl _)
    rw [hlookup, if_neg hne]
    exact h.fresh _ le_rfl n
  -- nothing is below the new directory, so a path enters it only at its end
  have hresolve {d : ℕ} {path : List Name} {e : ℕ} (hp : fs'.resolve d path = some (.dir e)) :
      e = fs.next ∨ fs.resolve d path = some (.dir e) := by
    induction path using List.reverseRecOn generalizing e with
    | nil => exact .inr hp
    | append_singleton path n ih =>
        obtain ⟨c, hc, hn⟩ := exists_dir_of_resolve_concat hp
        rcases ih hc with rfl | hc'
        · rw [hempty] at hn
          exact nomatch hn
        · rcases hcases hn with ⟨-, rfl⟩ | hn'
          · exact .inl rfl
          · exact .inr (by rwa [resolve_concat_of_dir hc'])
  constructor
  · intro d n d' n' e he he'
    rcases hcases he with ⟨hdn, rfl⟩ | he <;> rcases hcases he' with ⟨hdn', heq⟩ | he'
    · exact Prod.mk.inj (hdn.trans hdn'.symm)
    · exact absurd (h.bounded _ _ _ he') (lt_irrefl _)
    · rw [heq] at he
      exact absurd (h.bounded _ _ _ he) (lt_irrefl _)
    · exact h.unique d n d' n' e he he'
  · intro d path hp
    rcases hresolve hp with rfl | hp'
    · cases path with
      | nil => rfl
      | cons n path =>
          rw [FileSystem.resolve, hempty] at hp
          exact nomatch hp
    · exact h.acyclic d path hp'
  · intro d n e he
    rcases hcases he with ⟨-, rfl⟩ | he
    · exact Nat.lt_succ_self _
    · exact Nat.lt_succ_of_lt (h.bounded d n e he)
  · intro d hd n
    have hd' : fs.next ≤ d := Nat.le_of_succ_le hd
    have hne : (d, n) ≠ (s.1, s.2) := by
      rintro heq
      rw [(Prod.mk.inj heq).1] at hd'
      exact absurd hs (Nat.not_lt.mpr hd')
    rw [hlookup, if_neg hne]
    exact h.fresh d hd' n

/-- A directory moves to one that is not below it. -/
theorem FileSystem.WellFormed.move (h : fs.WellFormed) (hdir : fs.lookup s.1 s.2 = some (.dir x))
    (s' : ℕ × Name) (hs' : s'.1 < fs.next)
    (hbelow : ∀ path, fs.resolve x path ≠ some (.dir s'.1)) :
    ((fs.remove s.1 s.2).put s'.1 s'.2 (.dir x)).WellFormed := by
  set fs' := (fs.remove s.1 s.2).put s'.1 s'.2 (.dir x)
  have hcases {d : ℕ} {n : Name} {e : ℕ} (he : fs'.lookup d n = some (.dir e)) :
      (d, n) = (s'.1, s'.2) ∧ e = x ∨ fs.lookup d n = some (.dir e) ∧ (d, n) ≠ (s.1, s.2) := by
    rw [lookup_put] at he
    split_ifs at he with hdn
    · exact .inl ⟨hdn, (Entry.dir.inj (Option.some.inj he)).symm⟩
    · by_cases hd : (d, n) = (s.1, s.2)
      · obtain ⟨rfl, rfl⟩ := Prod.mk.inj hd
        rw [lookup_remove_self] at he
        exact nomatch he
      · rw [lookup_remove_of_ne hd] at he
        exact .inr ⟨he, hd⟩
  -- a path passes through the new entry at most once
  have hresolve {d : ℕ} {path : List Name} {e : ℕ} (hp : fs'.resolve d path = some (.dir e)) :
      fs.resolve d path = some (.dir e) ∨ ∃ p₁ p₂, path = p₁ ++ s'.2 :: p₂ ∧
        fs.resolve d p₁ = some (.dir s'.1) ∧ fs.resolve x p₂ = some (.dir e) := by
    induction path using List.reverseRecOn generalizing e with
    | nil => exact .inl hp
    | append_singleton path n ih =>
        obtain ⟨c, hc, hn⟩ := exists_dir_of_resolve_concat hp
        rcases ih hc with hc' | ⟨p₁, p₂, rfl, hp₁, hp₂⟩
        · rcases hcases hn with ⟨hdn, rfl⟩ | ⟨hn', -⟩
          · obtain ⟨rfl, rfl⟩ := Prod.mk.inj hdn
            exact .inr ⟨path, [], rfl, hc', rfl⟩
          · exact .inl (by rwa [resolve_concat_of_dir hc'])
        · rcases hcases hn with ⟨hdn, rfl⟩ | ⟨hn', -⟩
          · rw [(Prod.mk.inj hdn).1] at hp₂
            exact absurd hp₂ (hbelow p₂)
          · exact .inr ⟨p₁, p₂ ++ [n], by simp, hp₁, by rwa [resolve_concat_of_dir hp₂]⟩
  constructor
  · intro d n d' n' e he he'
    rcases hcases he with ⟨hdn, rfl⟩ | ⟨he, hd⟩ <;> rcases hcases he' with ⟨hdn', heq⟩ | ⟨he', hd'⟩
    · exact Prod.mk.inj (hdn.trans hdn'.symm)
    · obtain ⟨rfl, rfl⟩ := h.unique _ _ _ _ _ he' hdir
      exact absurd rfl hd'
    · rw [heq] at he
      obtain ⟨rfl, rfl⟩ := h.unique _ _ _ _ _ he hdir
      exact absurd rfl hd
    · exact h.unique d n d' n' e he he'
  · intro d path hp
    rcases hresolve hp with hp' | ⟨p₁, p₂, -, hp₁, hp₂⟩
    · exact h.acyclic d path hp'
    · rw [← resolve_append hp₂] at hp₁
      exact absurd hp₁ (hbelow _)
  · intro d n e he
    rcases hcases he with ⟨-, rfl⟩ | ⟨he, -⟩
    · exact h.bounded _ _ _ hdir
    · exact h.bounded d n e he
  · intro d hd n
    have hne : (d, n) ≠ (s'.1, s'.2) := by
      rintro heq
      rw [(Prod.mk.inj heq).1] at hd
      exact absurd hs' (Nat.not_lt.mpr hd)
    rw [lookup_put_of_ne hne]
    exact (h.remove s).fresh d hd n

end WellFormed

section Nodes

variable {Node Name File : Type*} [DecidableEq Name]

/-- Each node that has a place is a directory that is entered there and nowhere else. It holds
the given files and, for the rest, directories of nodes. -/
structure Realizes (fs : FileSystem Name File) (dir : Node → ℕ) (place : Node → Option (ℕ × Name))
    (files : Node → Name → Option File) : Prop where
  entry : ∀ x q, place x = some q → ∀ d n, fs.lookup d n = some (.dir (dir x)) ↔ (d, n) = q
  closed : ∀ x q, place x = some q → ∀ n e, fs.lookup (dir x) n = some (.dir e) →
    ∃ y r, place y = some r ∧ dir y = e
  file : ∀ x q, place x = some q → ∀ n f, fs.lookup (dir x) n = some (.file f) ↔
    files x n = some f
  inj : ∀ x q y r, place x = some q → place y = some r → dir x = dir y → x = y
  bounded : ∀ d n e, fs.lookup d n = some (.dir e) → e < fs.next
  fresh : ∀ d, fs.next ≤ d → ∀ n, fs.lookup d n = none

variable {fs : FileSystem Name File} {dir : Node → ℕ} {place : Node → Option (ℕ × Name)}
  {files : Node → Name → Option File} {x y : Node} {q q' r : ℕ × Name}

theorem Realizes.lookup_place (h : Realizes fs dir place files) (hx : place x = some q) :
    fs.lookup q.1 q.2 = some (.dir (dir x)) :=
  (h.entry x q hx q.1 q.2).mpr rfl

theorem Realizes.lt_next (h : Realizes fs dir place files) (hx : place x = some q) :
    dir x < fs.next :=
  h.bounded q.1 q.2 _ (h.lookup_place hx)

theorem Realizes.place_inj (h : Realizes fs dir place files) (hx : place x = some q)
    (hy : place y = some q) : x = y := by
  have hdir := (h.lookup_place hx).symm.trans (h.lookup_place hy)
  exact h.inj x q y q hx hy (Entry.dir.inj (Option.some.inj hdir))

theorem Realizes.isEmpty_eq_false (h : Realizes fs dir place files) (hx : place x = some q) :
    fs.isEmpty q.1 = false := by
  refine Bool.eq_false_iff.mpr fun hempty => ?_
  have hlookup := h.lookup_place hx
  rw [isEmpty_eq_true_iff.mp hempty] at hlookup
  exact nomatch hlookup

/-- What is entered in the directory of a node. -/
theorem Realizes.lookup_dir (h : Realizes fs dir place files) (hx : place x = some q) (n : Name) :
    fs.lookup (dir x) n = none ∨ (∃ f, files x n = some f ∧
      fs.lookup (dir x) n = some (.file f)) ∨ ∃ y, place y = some (dir x, n) ∧
        fs.lookup (dir x) n = some (.dir (dir y)) := by
  cases hn : fs.lookup (dir x) n with
  | none => exact .inl rfl
  | some v =>
      cases v with
      | file f => exact .inr (.inl ⟨f, (h.file x q hx n f).mp hn, rfl⟩)
      | dir e =>
          obtain ⟨y, r, hy, rfl⟩ := h.closed x q hx n e hn
          have hr := (h.entry y r hy _ _).mp hn
          exact .inr (.inr ⟨y, by rw [hy, hr], rfl⟩)

/-- Directories of nodes lead to directories of nodes only. -/
theorem Realizes.exists_of_resolve (h : Realizes fs dir place files) (hx : place x = some q)
    {path : List Name} {e : ℕ} (he : fs.resolve (dir x) path = some (.dir e)) :
    ∃ y r, place y = some r ∧ dir y = e := by
  induction path using List.reverseRecOn generalizing e with
  | nil => exact ⟨x, q, hx, Entry.dir.inj (Option.some.inj he)⟩
  | append_singleton path n ih =>
      obtain ⟨c, hc, hn⟩ := exists_dir_of_resolve_concat he
      obtain ⟨y, r, hy, rfl⟩ := ih hc
      exact h.closed y r hy n e hn

section Rules

variable [DecidableEq Node]

/-- A directory is entered in another place where no directory of a node is. -/
theorem Realizes.relocate (h : Realizes fs dir place files) (hx : place x = some q)
    (q' : ℕ × Name) (hfree : ∀ y r, place y = some r → y ≠ x → r ≠ q')
    (hfile : ∀ y r, place y = some r → dir y = q'.1 → files y q'.2 = none)
    (hbound : q'.1 < fs.next) :
    Realizes ((fs.remove q.1 q.2).put q'.1 q'.2 (.dir (dir x))) dir
      (Function.update place x (some q')) files := by
  set fs' := (fs.remove q.1 q.2).put q'.1 q'.2 (.dir (dir x)) with hfs'
  have hnew : fs'.lookup q'.1 q'.2 = some (.dir (dir x)) := lookup_put_self
  have hother (d : ℕ) (n : Name) (hd : (d, n) ≠ q') : fs'.lookup d n = none ∧ (d, n) = q ∨
      fs'.lookup d n = fs.lookup d n ∧ (d, n) ≠ q := by
    rw [hfs', lookup_put_of_ne hd]
    by_cases hq : (d, n) = q
    · rw [← hq]
      exact .inl ⟨lookup_remove_self, rfl⟩
    · exact .inr ⟨lookup_remove_of_ne hq, hq⟩
  have hplace (y : Node) (r : ℕ × Name) (hy : Function.update place x (some q') y = some r) :
      ∃ r', place y = some r' ∧ (y = x ∧ r = q' ∨ y ≠ x ∧ r = r') := by
    by_cases hyx : y = x
    · subst hyx
      rw [Function.update_self] at hy
      exact ⟨q, hx, .inl ⟨rfl, (Option.some.inj hy).symm⟩⟩
    · rw [Function.update_of_ne hyx] at hy
      exact ⟨r, hy, .inr ⟨hyx, rfl⟩⟩
  constructor
  · intro y r hy d n
    obtain ⟨r', hy', ⟨rfl, rfl⟩ | ⟨hyx, rfl⟩⟩ := hplace y r hy
    · by_cases hd : (d, n) = r
      · subst hd
        exact iff_of_true hnew rfl
      · refine iff_of_false (fun hlookup => ?_) hd
        rcases hother d n hd with ⟨hnone, -⟩ | ⟨hsame, hq⟩
        · rw [hnone] at hlookup
          exact nomatch hlookup
        · rw [hsame] at hlookup
          exact hq ((h.entry y q hx d n).mp hlookup)
    · by_cases hd : (d, n) = q'
      · subst hd
        refine iff_of_false (fun hlookup => ?_) fun hr => hfree y r hy' hyx hr.symm
        rw [hnew] at hlookup
        exact hyx (h.inj y r x q hy' hx (Entry.dir.inj (Option.some.inj hlookup)).symm)
      · rcases hother d n hd with ⟨hnone, hq⟩ | ⟨hsame, -⟩
        · rw [hnone]
          refine iff_of_false nofun fun hr => hyx ?_
          exact h.place_inj (hy'.trans (by rw [← hr, hq])) hx
        · rw [hsame]
          exact h.entry y r hy' d n
  · intro y r hy n e he
    obtain ⟨r', hy', -⟩ := hplace y r hy
    have hkept (z : Node) (s : ℕ × Name) (hz : place z = some s) (hdir : dir z = e) :
        ∃ z s, Function.update place x (some q') z = some s ∧ dir z = e := by
      by_cases hzx : z = x
      · subst hzx
        exact ⟨z, q', Function.update_self .., hdir⟩
      · exact ⟨z, s, by rwa [Function.update_of_ne hzx], hdir⟩
    by_cases hd : (dir y, n) = q'
    · subst hd
      rw [hnew] at he
      exact hkept x q hx (Entry.dir.inj (Option.some.inj he))
    · rcases hother _ n hd with ⟨hnone, -⟩ | ⟨hsame, -⟩
      · rw [hnone] at he
        exact nomatch he
      · rw [hsame] at he
        obtain ⟨z, s, hz, hdir⟩ := h.closed y r' hy' n e he
        exact hkept z s hz hdir
  · intro y r hy n f
    obtain ⟨r', hy', -⟩ := hplace y r hy
    by_cases hd : (dir y, n) = q'
    · have hnone := hfile y r' hy' (by rw [← hd])
      rw [← hd] at hnew hnone
      rw [hnew, hnone]
      exact iff_of_false nofun nofun
    · rcases hother _ n hd with ⟨hnone, hq⟩ | ⟨hsame, -⟩
      · have hdir := h.lookup_place hx
        rw [← hq] at hdir
        have hold := h.file y r' hy' n f
        rw [hdir] at hold
        rw [hnone, ← hold]
        exact iff_of_false nofun nofun
      · rw [hsame]
        exact h.file y r' hy' n f
  · intro y r z s hy hz hdir
    obtain ⟨r', hy', -⟩ := hplace y r hy
    obtain ⟨s', hz', -⟩ := hplace z s hz
    exact h.inj y r' z s' hy' hz' hdir
  · intro d n e he
    by_cases hd : (d, n) = q'
    · subst hd
      rw [hnew] at he
      obtain rfl := Entry.dir.inj (Option.some.inj he)
      exact h.lt_next hx
    · rcases hother d n hd with ⟨hnone, -⟩ | ⟨hsame, -⟩
      · rw [hnone] at he
        exact nomatch he
      · rw [hsame] at he
        exact h.bounded d n e he
  · intro d hd n
    have hne : (d, n) ≠ q' := by
      rintro rfl
      exact absurd hbound (Nat.not_lt.mpr hd)
    rcases hother d n hne with ⟨hnone, -⟩ | ⟨hsame, -⟩
    · exact hnone
    · rw [hsame]
      exact h.fresh d hd n

/-- The directory of a node is no longer entered. -/
theorem Realizes.discard (h : Realizes fs dir place files) (hx : place x = some q) :
    Realizes (fs.remove q.1 q.2) dir (Function.update place x none) files := by
  have hother (d : ℕ) (n : Name) (hd : (d, n) ≠ q) :
      (fs.remove q.1 q.2).lookup d n = fs.lookup d n := lookup_remove_of_ne hd
  have hgone (d : ℕ) (n : Name) (hd : (d, n) = q) : (fs.remove q.1 q.2).lookup d n = none := by
    subst hd
    exact lookup_remove_self
  have hplace (y : Node) (r : ℕ × Name) (hy : Function.update place x none y = some r) :
      place y = some r ∧ y ≠ x := by
    by_cases hyx : y = x
    · subst hyx
      rw [Function.update_self] at hy
      exact nomatch hy
    · rw [Function.update_of_ne hyx] at hy
      exact ⟨hy, hyx⟩
  have hsub (d : ℕ) (n : Name) (v : Entry File) (hv : (fs.remove q.1 q.2).lookup d n = some v) :
      fs.lookup d n = some v ∧ (d, n) ≠ q := by
    by_cases hd : (d, n) = q
    · rw [hgone d n hd] at hv
      exact nomatch hv
    · exact ⟨by rwa [hother d n hd] at hv, hd⟩
  constructor
  · intro y r hy d n
    obtain ⟨hy, hyx⟩ := hplace y r hy
    by_cases hd : (d, n) = q
    · rw [hgone d n hd]
      refine iff_of_false nofun fun hr => hyx ?_
      exact h.place_inj (hy.trans (by rw [← hr, hd])) hx
    · rw [hother d n hd]
      exact h.entry y r hy d n
  · intro y r hy n e he
    obtain ⟨hy, -⟩ := hplace y r hy
    obtain ⟨he, hd⟩ := hsub _ n _ he
    obtain ⟨z, s, hz, hdir⟩ := h.closed y r hy n e he
    have hzx : z ≠ x := by
      rintro rfl
      rw [← hdir] at he
      exact hd ((h.entry z q hx _ _).mp he)
    exact ⟨z, s, by rwa [Function.update_of_ne hzx], hdir⟩
  · intro y r hy n f
    obtain ⟨hy, -⟩ := hplace y r hy
    by_cases hd : (dir y, n) = q
    · have hdir := h.lookup_place hx
      rw [← hd] at hdir
      have hold := h.file y r hy n f
      rw [hdir] at hold
      rw [hgone _ n hd, ← hold]
      exact iff_of_false nofun nofun
    · rw [hother _ n hd]
      exact h.file y r hy n f
  · intro y r z s hy hz hdir
    exact h.inj y r z s (hplace y r hy).1 (hplace z s hz).1 hdir
  · exact fun d n e he => h.bounded d n e (hsub d n _ he).1
  · intro d hd n
    by_cases hq : (d, n) = q
    · exact hgone d n hq
    · rw [hother d n hq]
      exact h.fresh d hd n

/-- A file of a node is removed. -/
theorem Realizes.dropFile (h : Realizes fs dir place files) (hx : place x = some q) {m : Name}
    {f : File} (hm : files x m = some f) :
    Realizes (fs.remove (dir x) m) dir place
      (Function.update files x (Function.update (files x) m none)) := by
  have hfile : fs.lookup (dir x) m = some (.file f) := (h.file x q hx m f).mpr hm
  have hother (d : ℕ) (n : Name) (hd : (d, n) ≠ (dir x, m)) :
      (fs.remove (dir x) m).lookup d n = fs.lookup d n := lookup_remove_of_ne hd
  have hgone (d : ℕ) (n : Name) (hd : (d, n) = (dir x, m)) :
      (fs.remove (dir x) m).lookup d n = none := by
    obtain ⟨rfl, rfl⟩ := Prod.mk.inj hd
    exact lookup_remove_self
  have hdir (d : ℕ) (n : Name) (e : ℕ) : (fs.remove (dir x) m).lookup d n = some (.dir e) ↔
      fs.lookup d n = some (.dir e) := by
    by_cases hd : (d, n) = (dir x, m)
    · rw [hgone d n hd]
      obtain ⟨rfl, rfl⟩ := Prod.mk.inj hd
      rw [hfile]
      exact iff_of_false nofun nofun
    · rw [hother d n hd]
  constructor
  · intro y r hy d n
    rw [hdir]
    exact h.entry y r hy d n
  · intro y r hy n e he
    exact h.closed y r hy n e ((hdir _ _ _).mp he)
  · intro y r hy n g
    by_cases hyx : y = x
    · subst hyx
      rw [Function.update_self]
      by_cases hn : n = m
      · subst hn
        rw [hgone _ n rfl, Function.update_self]
        exact iff_of_false nofun nofun
      · rw [hother _ n (by simpa using hn), Function.update_of_ne hn]
        exact h.file y r hy n g
    · have hne : dir y ≠ dir x := fun hdir => hyx (h.inj y r x q hy hx hdir)
      rw [Function.update_of_ne hyx, hother _ n (by simp [hne])]
      exact h.file y r hy n g
  · exact h.inj
  · exact fun d n e he => h.bounded d n e ((hdir d n e).mp he)
  · intro d hd n
    by_cases hq : (d, n) = (dir x, m)
    · exact hgone d n hq
    · rw [hother d n hq]
      exact h.fresh d hd n

/-- A directory is made for a node that had no place. -/
theorem Realizes.create (h : Realizes fs dir place files) (hx : place x = none)
    (q : ℕ × Name) (hfree : fs.lookup q.1 q.2 = none) (hbound : q.1 < fs.next) :
    Realizes { fs.put q.1 q.2 (.dir fs.next) with next := fs.next + 1 }
      (Function.update dir x fs.next) (Function.update place x (some q))
      (Function.update files x fun _ => none) := by
  set fs' : FileSystem Name File := { fs.put q.1 q.2 (.dir fs.next) with next := fs.next + 1 }
  have hput : (fs.put q.1 q.2 (.dir fs.next)).lookup q.1 q.2 = some (.dir fs.next) :=
    lookup_put_self
  have hnew : fs'.lookup q.1 q.2 = some (.dir fs.next) := hput
  have hother (d : ℕ) (n : Name) (hd : (d, n) ≠ q) : fs'.lookup d n = fs.lookup d n := by
    have hkept : (fs.put q.1 q.2 (.dir fs.next)).lookup d n = fs.lookup d n := lookup_put_of_ne hd
    exact hkept
  have hplace (y : Node) (r : ℕ × Name) (hy : Function.update place x (some q) y = some r) :
      y = x ∧ r = q ∨ y ≠ x ∧ place y = some r := by
    by_cases hyx : y = x
    · subst hyx
      rw [Function.update_self] at hy
      exact .inl ⟨rfl, (Option.some.inj hy).symm⟩
    · rw [Function.update_of_ne hyx] at hy
      exact .inr ⟨hyx, hy⟩
  have hlt (y : Node) (r : ℕ × Name) (hy : place y = some r) : dir y ≠ fs.next :=
    Nat.ne_of_lt (h.lt_next hy)
  have hempty (n : Name) : fs'.lookup fs.next n = none := by
    have hne : (fs.next, n) ≠ q := by
      rintro rfl
      exact lt_irrefl _ hbound
    rw [hother _ n hne]
    exact h.fresh _ le_rfl n
  constructor
  · intro y r hy d n
    rcases hplace y r hy with ⟨rfl, rfl⟩ | ⟨hyx, hy'⟩
    · rw [Function.update_self]
      by_cases hd : (d, n) = r
      · subst hd
        exact iff_of_true hnew rfl
      · refine iff_of_false (fun hlookup => ?_) hd
        rw [hother d n hd] at hlookup
        exact lt_irrefl _ (h.bounded d n _ hlookup)
    · rw [Function.update_of_ne hyx]
      by_cases hd : (d, n) = q
      · have hold := h.entry y r hy' d n
        subst hd
        rw [hfree] at hold
        rw [← hold, hnew]
        refine iff_of_false (fun hdir => hlt y r hy' ?_) nofun
        exact (Entry.dir.inj (Option.some.inj hdir)).symm
      · rw [hother d n hd]
        exact h.entry y r hy' d n
  · intro y r hy n e he
    have hkept (z : Node) (s : ℕ × Name) (hz : place z = some s) (hdir : dir z = e) :
        ∃ z s, Function.update place x (some q) z = some s ∧
          Function.update dir x fs.next z = e := by
      have hzx : z ≠ x := by
        rintro rfl
        rw [hx] at hz
        exact nomatch hz
      exact ⟨z, s, by rwa [Function.update_of_ne hzx], by rwa [Function.update_of_ne hzx]⟩
    rcases hplace y r hy with ⟨rfl, rfl⟩ | ⟨hyx, hy'⟩
    · rw [Function.update_self, hempty] at he
      exact nomatch he
    · rw [Function.update_of_ne hyx] at he
      by_cases hd : (dir y, n) = q
      · subst hd
        rw [hnew] at he
        refine ⟨x, (dir y, n), Function.update_self .., ?_⟩
        rw [Function.update_self]
        exact Entry.dir.inj (Option.some.inj he)
      · rw [hother _ n hd] at he
        obtain ⟨z, s, hz, hdir⟩ := h.closed y r hy' n e he
        exact hkept z s hz hdir
  · intro y r hy n f
    rcases hplace y r hy with ⟨rfl, rfl⟩ | ⟨hyx, hy'⟩
    · rw [Function.update_self, Function.update_self, hempty]
      exact iff_of_false nofun nofun
    · rw [Function.update_of_ne hyx, Function.update_of_ne hyx]
      by_cases hd : (dir y, n) = q
      · have hold := h.file y r hy' n f
        subst hd
        rw [hfree] at hold
        rw [hnew, ← hold]
        exact iff_of_false nofun nofun
      · rw [hother _ n hd]
        exact h.file y r hy' n f
  · intro y r z s hy hz hdir
    rcases hplace y r hy with ⟨rfl, -⟩ | ⟨hyx, hy'⟩ <;>
      rcases hplace z s hz with ⟨rfl, -⟩ | ⟨hzx, hz'⟩
    · rfl
    · rw [Function.update_self, Function.update_of_ne hzx] at hdir
      exact absurd hdir.symm (hlt z s hz')
    · rw [Function.update_self, Function.update_of_ne hyx] at hdir
      exact absurd hdir (hlt y r hy')
    · rw [Function.update_of_ne hyx, Function.update_of_ne hzx] at hdir
      exact h.inj y r z s hy' hz' hdir
  · intro d n e he
    by_cases hd : (d, n) = q
    · subst hd
      rw [hnew] at he
      obtain rfl := Entry.dir.inj (Option.some.inj he)
      exact Nat.lt_succ_self _
    · rw [hother d n hd] at he
      exact Nat.lt_succ_of_lt (h.bounded d n e he)
  · intro d hd n
    have hne : (d, n) ≠ q := by
      rintro rfl
      exact absurd hbound (Nat.not_lt.mpr (Nat.le_of_succ_le hd))
    rw [hother d n hne]
    exact h.fresh d (Nat.le_of_succ_le hd) n

end Rules

end Nodes

end FileTree
