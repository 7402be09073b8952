import Mathlib.Data.List.Basic

/-!
# Readers of a line

A parser of the C kind: its state is the pointer to the unread rest of the line, which may be
`NULL`, and it may fail. A reader reads a text if it takes exactly that text from the front of
any line that starts with it. This is kept by sequencing, so a parser reads what a printer
writes if each of its parts does. `Avoids` says that a reader does not end in errors of a kind,
which is a question of what each part leaves to the next one.
-/

/-- Parsers that keep the unread rest of a line, or `none` for `NULL`. -/
abbrev LineReader (ε α : Type) := StateT (Option (List UInt8)) (Except ε) α

namespace LineReader

variable {ε α γ : Type}

/-- From the front of any line that starts with the text, the value is read and the text is
used up. -/
def Reads (m : LineReader ε α) (text : List UInt8) (a : α) : Prop :=
  ∀ rest, m (some (text ++ rest)) = .ok (a, some rest)

theorem Reads.pure (a : α) : Reads (Pure.pure a : LineReader ε α) [] a :=
  fun _ => rfl

theorem Reads.bind {m : LineReader ε α} {f : α → LineReader ε γ} {text text' : List UInt8}
    {a : α} {c : γ} (hm : Reads m text a) (hf : Reads (f a) text' c) :
    Reads (m >>= f) (text ++ text') c := by
  intro rest
  have hfirst := hm (text' ++ rest)
  rw [← List.append_assoc] at hfirst
  change (m (some (text ++ text' ++ rest)) >>= fun r => f r.1 r.2) = _
  rw [hfirst]
  exact hf rest

/-- The last step of a sequence, before the result is put together. -/
theorem Reads.bind_pure {m : LineReader ε α} {text : List UInt8} {a : α} (hm : Reads m text a)
    (g : α → γ) : Reads (m >>= fun a => Pure.pure (g a)) text (g a) := by
  have hread : Reads (m >>= fun a => Pure.pure (g a)) (text ++ []) (g a) :=
    Reads.bind hm (Reads.pure (g a))
  rwa [List.append_nil] at hread

theorem Reads.map {m : LineReader ε α} {text : List UInt8} {a : α} (hm : Reads m text a)
    (g : α → γ) : Reads (g <$> m) text (g a) := by
  intro rest
  change (m (some (text ++ rest)) >>= fun r => Except.ok (g r.1, r.2)) = _
  rw [hm rest]
  rfl

theorem Reads.eq_of_ok {m : LineReader ε α} {text rest : List UInt8} {a b : α}
    {s : Option (List UInt8)} (hm : Reads m text a) (h : m (some (text ++ rest)) = .ok (b, s)) :
    b = a ∧ s = some rest := by
  rw [hm rest] at h
  obtain ⟨rfl, rfl⟩ := Prod.mk.inj (Except.ok.inj h)
  exact ⟨rfl, rfl⟩

/-- What a sequence returned came from a first part and a second part that returned. -/
theorem bind_eq_ok_iff {m : LineReader ε α} {f : α → LineReader ε γ}
    {s s' : Option (List UInt8)} {c : γ} :
    (m >>= f) s = .ok (c, s') ↔ ∃ a s₁, m s = .ok (a, s₁) ∧ f a s₁ = .ok (c, s') := by
  change (m s >>= fun r => f r.1 r.2) = _ ↔ _
  cases m s with
  | error e => simp [Bind.bind, Except.bind]
  | ok r =>
      obtain ⟨a, s₁⟩ := r
      simp [Bind.bind, Except.bind]

section Outcome

variable {post : Except ε (Option (List UInt8)) → Prop} {bad : ε → Prop} {m : LineReader ε α}
  {s : Option (List UInt8)}

/-- Said of the rest of the line that a reader leaves, or of its error, whatever the value is. -/
def Ends (post : Except ε (Option (List UInt8)) → Prop) (m : LineReader ε α)
    (s : Option (List UInt8)) : Prop :=
  post ((m s).map Prod.snd)

/-- The reader does not end in one of these errors. -/
def Avoids (bad : ε → Prop) (m : LineReader ε α) (s : Option (List UInt8)) : Prop :=
  Ends (fun r => ∀ e, r = .error e → ¬bad e) m s

theorem avoids_iff : Avoids bad m s ↔ ∀ e, m s = .error e → ¬bad e := by
  rw [Avoids, Ends]
  cases m s <;> simp [Except.map]

theorem ends_eq_ok_iff {t : Option (List UInt8)} :
    Ends (· = .ok t) m s ↔ ∃ a, m s = .ok (a, t) := by
  rw [Ends]
  cases m s with
  | error e => simp [Except.map]
  | ok r => simp [Except.map, Prod.ext_iff]

/-- What comes of a sequence is decided by what the first part leaves, if the rest of the sequence
does not depend on the value. -/
theorem ends_bind {f : α → LineReader ε γ} {C : Option (List UInt8) → Prop}
    (hf : ∀ a t, Ends post (f a) t ↔ C t) :
    Ends post (m >>= f) s ↔
      (∀ e, m s = .error e → post (.error e)) ∧ ∀ a t, m s = .ok (a, t) → C t := by
  rw [Ends]
  change post ((m s >>= fun r => f r.1 r.2).map Prod.snd) ↔ _
  cases hm : m s with
  | error e => simp [Bind.bind, Except.bind, Except.map]
  | ok r =>
      obtain ⟨a, t⟩ := r
      have hend := hf a t
      rw [Ends] at hend
      simp only [Bind.bind, Except.bind, hend, reduceCtorEq, false_implies, implies_true, true_and,
        Except.ok.injEq, Prod.mk.injEq]
      exact ⟨fun hc _ _ h => h.2 ▸ hc, fun h => h a t ⟨rfl, rfl⟩⟩

theorem avoids_pure (a : α) : Avoids bad (Pure.pure a : LineReader ε α) s :=
  fun _ => nofun

theorem avoids_bind_iff {f : α → LineReader ε γ} :
    Avoids bad (m >>= f) s ↔ Avoids bad m s ∧ ∀ a t, m s = .ok (a, t) → Avoids bad (f a) t := by
  simp only [avoids_iff]
  change (∀ e, (m s >>= fun r => f r.1 r.2) = .error e → ¬bad e) ↔ _
  cases hm : m s with
  | error e => simp [Bind.bind, Except.bind]
  | ok r =>
      obtain ⟨a, t⟩ := r
      simp only [Bind.bind, Except.bind, reduceCtorEq, false_implies, implies_true, true_and,
        Except.ok.injEq, Prod.mk.injEq]
      exact ⟨fun h _ _ heq e => heq.1 ▸ heq.2 ▸ h e, fun h => h a t ⟨rfl, rfl⟩⟩

theorem avoids_map_iff {g : α → γ} : Avoids bad (g <$> m) s ↔ Avoids bad m s := by
  simp only [avoids_iff]
  change (∀ e, (m s >>= fun r => Except.ok (g r.1, r.2)) = .error e → ¬bad e) ↔ _
  cases m s <;> simp [Bind.bind, Except.bind]

end Outcome

end LineReader
