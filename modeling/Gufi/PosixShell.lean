import Mathlib.Data.List.Basic
import Mathlib.Data.List.Count
import Mathlib.Data.List.TakeWhile
import Mathlib.Data.Option.Basic

/-!
# Words of a shell command

A POSIX shell reads a command byte by byte, ends words at blanks and takes the quotes off. Where it
does more than that, for expansions, patterns, operators, comments and further lines, the words
depend on more than the text, and there are none here.
-/

namespace PosixShell

section Shell

inductive State
  | between
  | betweenEscaped
  | word
  | wordEscaped
  | single
  | double
  | doubleEscaped
deriving DecidableEq

/-- What one byte does: some bytes are added to the word, or the word ends. -/
inductive Step
  | reads (next : State) (taken : List UInt8)
  | wordEnds

def isBlank (c : UInt8) : Bool := c = 32 || c = 9

def isQuote (c : UInt8) : Bool := c = 39 || c = 34

/-- Operators, expansions and patterns: `|`, `&`, `;`, `<`, `>`, `(`, `)`, `$`, a back quote, `*`,
`?`, `[` and the end of the line. -/
def isSpecial (c : UInt8) : Bool := c ∈ [124, 38, 59, 60, 62, 40, 41, 36, 96, 42, 63, 91, 10]

/-- `#` and `~`, which are special where a word begins. -/
def isSpecialFirst (c : UInt8) : Bool := c = 35 || c = 126

/-- What a backslash in double quotes escapes: `$`, a back quote, `"` and a backslash. -/
def isEscapable (c : UInt8) : Bool := c ∈ [36, 96, 34, 92]

def step : State → UInt8 → Option Step
  | .between, c =>
    if isBlank c then some (.reads .between [])
    else if c = 39 then some (.reads .single [])
    else if c = 34 then some (.reads .double [])
    else if c = 92 then some (.reads .betweenEscaped [])
    else if isSpecial c || isSpecialFirst c then none
    else some (.reads .word [c])
  | .betweenEscaped, c => some (if c = 10 then .reads .between [] else .reads .word [c])
  | .word, c =>
    if isBlank c then some .wordEnds
    else if c = 39 then some (.reads .single [])
    else if c = 34 then some (.reads .double [])
    else if c = 92 then some (.reads .wordEscaped [])
    else if isSpecial c then none
    else some (.reads .word [c])
  | .wordEscaped, c => some (.reads .word (if c = 10 then [] else [c]))
  | .single, c => some (if c = 39 then .reads .word [] else .reads .single [c])
  | .double, c =>
    if c = 34 then some (.reads .word [])
    else if c = 36 || c = 96 then none
    else if c = 92 then some (.reads .doubleEscaped [])
    else some (.reads .double [c])
  | .doubleEscaped, c =>
    some (.reads .double (if c = 10 then [] else if isEscapable c then [c] else [92, c]))

/-- The words of the text, where `w` is what there is of the first one. -/
def split : State → List UInt8 → List UInt8 → Option (List (List UInt8))
  | .between, _, [] => some []
  | .word, w, [] => some [w]
  | _, _, [] => none
  | st, w, c :: cs =>
    match step st c with
    | none => none
    | some (.reads next taken) => split next (w ++ taken) cs
    | some .wordEnds => (split .between [] cs).map (w :: ·)

def shellWords (command : List UInt8) : Option (List (List UInt8)) := split .between [] command

variable {st next : State} {w cs taken : List UInt8} {c : UInt8} {ws : List (List UInt8)}

theorem split_cons (st : State) (w : List UInt8) (c : UInt8) (cs : List UInt8) :
    split st w (c :: cs) =
      match step st c with
      | none => none
      | some (.reads next taken) => split next (w ++ taken) cs
      | some .wordEnds => (split .between [] cs).map (w :: ·) := by
  cases st <;> rfl

theorem split_of_none (h : step st c = none) : split st w (c :: cs) = none := by
  rw [split_cons, h]

theorem split_of_reads (h : step st c = some (.reads next taken)) :
    split st w (c :: cs) = split next (w ++ taken) cs := by
  rw [split_cons, h]

theorem split_of_wordEnds (h : step st c = some .wordEnds) :
    split st w (c :: cs) = (split .between [] cs).map (w :: ·) := by
  rw [split_cons, h]

end Shell

section Weight

/-- Blanks and backslashes. -/
def weight (cs : List UInt8) : ℕ := cs.countP fun c => isBlank c || c = 92

/-- A backslash that has been read and not been taken over. -/
def pending : State → ℕ
  | .betweenEscaped | .wordEscaped | .doubleEscaped => 1
  | _ => 0

variable {st next : State} {w cs taken v : List UInt8} {c : UInt8} {ws : List (List UInt8)}

theorem weight_append (v w : List UInt8) : weight (v ++ w) = weight v + weight w :=
  List.countP_append

theorem weight_cons (c : UInt8) (v : List UInt8) : weight (c :: v) = weight [c] + weight v := by
  rw [← weight_append, List.singleton_append]

theorem weight_step (h : step st c = some (.reads next taken)) :
    weight taken + pending next ≤ weight [c] + pending st := by
  have hsingle : weight [c] = if isBlank c || c = 92 then 1 else 0 := List.countP_singleton
  cases st <;> simp only [step] at h <;> grind [weight, pending]

theorem weight_blank (h : isBlank c = true) : weight [c] = 1 := by
  rw [weight, List.countP_singleton, h]
  rfl

theorem eq_between_or_word {ws : List (List UInt8)} (h : split st w [] = some ws) :
    st = .between ∧ ws = [] ∨ st = .word ∧ ws = [w] := by
  cases st with
  | between => exact Or.inl ⟨rfl, (Option.some.inj h).symm⟩
  | word => exact Or.inr ⟨rfl, (Option.some.inj h).symm⟩
  | _ => exact nomatch h

/-- A word ends in front of a blank. -/
theorem blank_of_wordEnds (h : step st c = some .wordEnds) : st = .word ∧ isBlank c = true := by
  cases st <;> simp only [step] at h <;> grind

/-- A word that goes on at the last blank has it escaped. -/
theorem pending_of_word (h : step st 32 = some (.reads .word taken)) :
    pending st = 1 ∧ taken = [32] := by
  cases st <;> simp [step, isBlank] at h <;> simp [pending, h]

/-- A text that ends with a blank has at least a blank for every word, besides the blanks and the
backslashes of the words. -/
theorem weight_split {text : List UInt8} (hend : text.getLast? = some 32)
    (h : split st w text = some ws) :
    weight ws.flatten + ws.length ≤ weight w + weight text + pending st := by
  induction text generalizing st w ws with
  | nil => exact nomatch hend
  | cons c cs ih =>
      rw [weight_cons]
      cases hstep : step st c with
      | none =>
          rw [split_of_none hstep] at h
          exact nomatch h
      | some action =>
          cases action with
          | reads next taken =>
              have hweight := weight_step hstep
              rw [split_of_reads hstep] at h
              cases cs with
              | nil =>
                  obtain rfl : c = 32 := Option.some.inj hend
                  obtain ⟨rfl, rfl⟩ | ⟨rfl, rfl⟩ := eq_between_or_word h
                  · exact Nat.zero_le _
                  · obtain ⟨hpending, rfl⟩ := pending_of_word hstep
                    rw [List.flatten_singleton, weight_append, hpending, weight_blank rfl,
                      List.length_singleton]
                    omega
              | cons c' cs =>
                  have hrest := ih hend h
                  rw [weight_append] at hrest
                  omega
          | wordEnds =>
              obtain ⟨rfl, hblank⟩ := blank_of_wordEnds hstep
              rw [split_of_wordEnds hstep] at h
              obtain ⟨tail, htail, rfl⟩ := Option.map_eq_some_iff.mp h
              rw [weight_blank hblank, List.flatten_cons, weight_append, List.length_cons]
              cases cs with
              | nil =>
                  obtain rfl := Option.some.inj htail
                  simp only [List.flatten_nil, List.length_nil, weight, List.countP_nil]
                  omega
              | cons c' cs =>
                  have hrest := ih hend htail
                  have hnil : weight [] = 0 := rfl
                  have hbetween : pending .between = 0 := rfl
                  omega

end Weight

section Words

variable {st next : State} {w f cs text taken block : List UInt8} {c x : UInt8}
  {ws : List (List UInt8)}

/-- In a word, which goes on with what was read of it. -/
def State.inWord : State → Bool
  | .between | .betweenEscaped => false
  | _ => true

theorem inWord_of_reads (h : step st c = some (.reads next taken)) (hst : st.inWord = true) :
    next.inWord = true := by
  cases st <;> simp only [step] at h <;> grind [State.inWord]

theorem exists_append_of_split (hst : st.inWord = true) (h : split st w text = some (f :: ws)) :
    ∃ rest, f = w ++ rest := by
  induction text generalizing st w with
  | nil =>
      obtain ⟨-, hws⟩ | ⟨-, hws⟩ := eq_between_or_word h
      · exact nomatch hws
      · exact ⟨[], by rw [(List.cons.inj hws).1, List.append_nil]⟩
  | cons c cs ih =>
      cases hstep : step st c with
      | none =>
          rw [split_of_none hstep] at h
          exact nomatch h
      | some action =>
          cases action with
          | reads next taken =>
              rw [split_of_reads hstep] at h
              obtain ⟨rest, rfl⟩ := ih (inWord_of_reads hstep hst) h
              exact ⟨taken ++ rest, List.append_assoc _ _ _⟩
          | wordEnds =>
              rw [split_of_wordEnds hstep] at h
              obtain ⟨tail, -, hws⟩ := Option.map_eq_some_iff.mp h
              exact ⟨[], by rw [← (List.cons.inj hws).1, List.append_nil]⟩

/-- A byte that is taken over is that of the word at its place. -/
theorem getElem?_of_split (hst : st.inWord = true) (h : split st (w ++ [x]) text = some (f :: ws)) :
    f[w.length]? = some x := by
  obtain ⟨rest, rfl⟩ := exists_append_of_split hst h
  rw [List.append_assoc, List.getElem?_append_right (Nat.le_refl _), Nat.sub_self]
  rfl

/-- A byte of weight that is lost cannot be made up for. -/
theorem not_split_of_lost (hstep : step st c = some (.reads next taken))
    (hlost : weight taken + pending next < weight [c] + pending st)
    (hend : cs.getLast? = some 32)
    (hweight : weight w + weight (c :: cs) + pending st ≤ weight ws.flatten + ws.length) :
    split st w (c :: cs) ≠ some ws := by
  intro h
  rw [split_of_reads hstep] at h
  have hle := weight_split hend h
  rw [weight_append] at hle
  rw [weight_cons] at hweight
  omega

/-- A backslash outside of quotes is lost. -/
theorem not_split_escaped (hst : st = .wordEscaped ∨ st = .betweenEscaped ∧ w = [])
    (hend : text.getLast? = some 32) (hx : f[w.length]? = some x) (hne : x ≠ 32)
    (hweight : weight w + weight text + 1 ≤ weight (f :: ws).flatten + (f :: ws).length) :
    split st w text ≠ some (f :: ws) := by
  have hpending : pending st = 1 := by
    rcases hst with rfl | ⟨rfl, -⟩ <;> rfl
  cases text with
  | nil => exact nomatch hend
  | cons c cs =>
      cases cs with
      | nil =>
          obtain rfl : c = 32 := Option.some.inj hend
          intro h
          have hread : split .word (w ++ [32]) [] = some (f :: ws) := by
            rcases hst with rfl | ⟨rfl, rfl⟩ <;> exact h
          have hget := getElem?_of_split rfl hread
          rw [hx] at hget
          exact hne (Option.some.inj hget)
      | cons c' cs =>
          obtain ⟨next, taken, hstep, hlost⟩ : ∃ next taken, step st c = some (.reads next taken) ∧
              weight taken + pending next < weight [c] + pending st := by
            by_cases hc : c = 10
            · rcases hst with rfl | ⟨rfl, rfl⟩
              · exact ⟨.word, [], by rw [step, if_pos hc], by subst hc; decide⟩
              · exact ⟨.between, [], by rw [step, if_pos hc], by subst hc; decide⟩
            · refine ⟨.word, [c], ?_, by rw [hpending]; exact Nat.lt_succ_self _⟩
              rcases hst with rfl | ⟨rfl, rfl⟩ <;> rw [step, if_neg hc]
          exact not_split_of_lost hstep hlost hend (by rw [hpending]; exact hweight)

/-- So is a backslash in double quotes in front of a byte that it escapes. -/
theorem not_split_doubleEscaped (hc : c = 10 ∨ isEscapable c = true)
    (hend : (c :: cs).getLast? = some 32)
    (hweight : weight w + weight (c :: cs) + 1 ≤ weight ws.flatten + ws.length) :
    split .doubleEscaped w (c :: cs) ≠ some ws := by
  cases cs with
  | nil =>
      obtain rfl : c = 32 := Option.some.inj hend
      rcases hc with hc | hc <;> exact absurd hc (by decide)
  | cons c' cs =>
      by_cases hline : c = 10
      · have hstep : step .doubleEscaped c = some (.reads .double []) := by
          rw [step, if_pos hline]
        exact not_split_of_lost hstep (Nat.succ_pos _) hend hweight
      · have hstep : step .doubleEscaped c = some (.reads .double [c]) := by
          rw [step, if_neg hline, if_pos (hc.resolve_left hline)]
        exact not_split_of_lost hstep (Nat.lt_succ_self _) hend hweight

/-- Any other byte is taken over behind the backslash. -/
theorem reads_of_doubleEscaped (hc : ¬(c = 10 ∨ isEscapable c = true)) :
    split .doubleEscaped w (c :: cs) = split .double (w ++ [92, c]) cs := by
  rw [not_or] at hc
  have hstep : step .doubleEscaped c = some (.reads .double [92, c]) := by
    rw [step, if_neg hc.1, if_neg hc.2]
  exact split_of_reads hstep

theorem isQuote_iff : isQuote c = true ↔ c = 39 ∨ c = 34 := by
  rw [isQuote, Bool.or_eq_true, decide_eq_true_iff, decide_eq_true_iff]

/-- The bytes that a shell takes over as they are outside of quotes. -/
def isPlain (c : UInt8) : Bool := !isBlank c && !isQuote c && c ≠ 92 && !isSpecial c

/-- A quote outside of quotes begins a part in quotes. -/
theorem reads_of_isQuote (hc : isQuote c = true) :
    (∃ next, step .word c = some (.reads next []) ∧ (next = .single ∨ next = .double)) ∧
      ∃ next, step .between c = some (.reads next []) ∧ (next = .single ∨ next = .double) := by
  rcases isQuote_iff.mp hc with rfl | rfl
  · exact ⟨⟨.single, rfl, Or.inl rfl⟩, ⟨.single, rfl, Or.inl rfl⟩⟩
  · exact ⟨⟨.double, rfl, Or.inr rfl⟩, ⟨.double, rfl, Or.inr rfl⟩⟩

/-- What a byte does in a word. -/
theorem word_cases (c : UInt8) :
    (isPlain c = false ∧ step .word c = some .wordEnds) ∨
    (isPlain c = false ∧ isQuote c = true ∧
      ∃ next, step .word c = some (.reads next []) ∧ (next = .single ∨ next = .double)) ∨
    (isPlain c = false ∧ c = 92 ∧ step .word c = some (.reads .wordEscaped [])) ∨
    (isPlain c = false ∧ step .word c = none) ∨
    isPlain c = true ∧ step .word c = some (.reads .word [c]) := by
  by_cases hblank : isBlank c = true
  · exact Or.inl ⟨by simp [isPlain, hblank], by rw [step, if_pos hblank]⟩
  by_cases hquote : isQuote c = true
  · exact Or.inr (Or.inl ⟨by simp [isPlain, hquote], hquote, (reads_of_isQuote hquote).1⟩)
  have hno := not_or.mp (mt isQuote_iff.mpr hquote)
  by_cases hback : c = 92
  · refine Or.inr (Or.inr (Or.inl ⟨by simp [isPlain, hback], hback, ?_⟩))
    rw [step, if_neg hblank, if_neg hno.1, if_neg hno.2, if_pos hback]
  by_cases hspecial : isSpecial c = true
  · refine Or.inr (Or.inr (Or.inr (Or.inl ⟨by simp [isPlain, hspecial], ?_⟩)))
    rw [step, if_neg hblank, if_neg hno.1, if_neg hno.2, if_neg hback, if_pos hspecial]
  · refine Or.inr (Or.inr (Or.inr (Or.inr ⟨by simp [isPlain, *], ?_⟩)))
    rw [step, if_neg hblank, if_neg hno.1, if_neg hno.2, if_neg hback, if_neg hspecial]

/-- What a byte does in front of a word. -/
theorem between_cases (c : UInt8) :
    (isPlain c = false ∧ isBlank c = true ∧ step .between c = some (.reads .between [])) ∨
    (isPlain c = false ∧ isQuote c = true ∧
      ∃ next, step .between c = some (.reads next []) ∧ (next = .single ∨ next = .double)) ∨
    (isPlain c = false ∧ c = 92 ∧ step .between c = some (.reads .betweenEscaped [])) ∨
    ((isPlain c = false ∨ isSpecialFirst c = true) ∧ step .between c = none) ∨
    isPlain c = true ∧ isSpecialFirst c = false ∧ step .between c = some (.reads .word [c]) := by
  by_cases hblank : isBlank c = true
  · exact Or.inl ⟨by simp [isPlain, hblank], hblank, by rw [step, if_pos hblank]⟩
  by_cases hquote : isQuote c = true
  · exact Or.inr (Or.inl ⟨by simp [isPlain, hquote], hquote, (reads_of_isQuote hquote).2⟩)
  have hno := not_or.mp (mt isQuote_iff.mpr hquote)
  by_cases hback : c = 92
  · refine Or.inr (Or.inr (Or.inl ⟨by simp [isPlain, hback], hback, ?_⟩))
    rw [step, if_neg hblank, if_neg hno.1, if_neg hno.2, if_pos hback]
  by_cases hspecial : (isSpecial c || isSpecialFirst c) = true
  · refine Or.inr (Or.inr (Or.inr (Or.inl ⟨?_, ?_⟩)))
    · rw [Bool.or_eq_true] at hspecial
      exact hspecial.imp_left fun h => by simp [isPlain, h]
    · rw [step, if_neg hblank, if_neg hno.1, if_neg hno.2, if_neg hback, if_pos hspecial]
  · have hordinary := not_or.mp (mt Bool.or_eq_true_iff.mpr hspecial)
    refine Or.inr (Or.inr (Or.inr (Or.inr ⟨by simp [isPlain, *], ?_, ?_⟩)))
    · exact Bool.eq_false_iff.mpr hordinary.2
    · rw [step, if_neg hblank, if_neg hno.1, if_neg hno.2, if_neg hback, if_neg hspecial]

/-- What a byte does in double quotes. -/
theorem double_cases (c : UInt8) :
    (c = 34 ∧ step .double c = some (.reads .word [])) ∨
    ((c = 36 ∨ c = 96) ∧ step .double c = none) ∨
    (c = 92 ∧ step .double c = some (.reads .doubleEscaped [])) ∨
    (c ≠ 34 ∧ c ≠ 36 ∧ c ≠ 96 ∧ c ≠ 92) ∧ step .double c = some (.reads .double [c]) := by
  by_cases hquote : c = 34
  · exact Or.inl ⟨hquote, by rw [step, if_pos hquote]⟩
  by_cases hdollar : (c = 36 || c = 96) = true
  · refine Or.inr (Or.inl ⟨?_, by rw [step, if_neg hquote, if_pos hdollar]⟩)
    simpa using hdollar
  by_cases hback : c = 92
  · refine Or.inr (Or.inr (Or.inl ⟨hback, ?_⟩))
    rw [step, if_neg hquote, if_neg hdollar, if_pos hback]
  · refine Or.inr (Or.inr (Or.inr ⟨?_, by rw [step, if_neg hquote, if_neg hdollar, if_neg hback]⟩))
    simpa [hquote, hback] using hdollar

theorem weight_quote (h : isQuote c = true) : weight [c] = 0 := by
  rcases isQuote_iff.mp h with rfl | rfl <;> rfl

/-- A quote is taken off or taken over. -/
theorem step_quote (hst : st = .word ∨ st = .single ∨ st = .double) (hq : isQuote c = true) :
    ∃ next taken, step st c = some (.reads next taken) ∧
      (next = .word ∨ next = .single ∨ next = .double) ∧ (taken = [] ∨ taken = [c]) := by
  rcases isQuote_iff.mp hq with rfl | rfl <;> rcases hst with rfl | rfl | rfl
  · exact ⟨.single, [], rfl, by decide, Or.inl rfl⟩
  · exact ⟨.word, [], rfl, by decide, Or.inl rfl⟩
  · exact ⟨.double, [39], rfl, by decide, Or.inr rfl⟩
  · exact ⟨.double, [], rfl, by decide, Or.inl rfl⟩
  · exact ⟨.single, [34], rfl, by decide, Or.inr rfl⟩
  · exact ⟨.word, [], rfl, by decide, Or.inl rfl⟩

/-- A byte that is no quote cannot be read where the word has a quote. -/
theorem not_split_of_place (hst : st = .word ∨ st = .single ∨ st = .double)
    (hx : isQuote x = false) (hend : text.getLast? = some 32) {q : UInt8}
    (hplace : f[w.length]? = some q) (hq : isQuote q = true)
    (hweight : weight w + weight (x :: text) ≤ weight (f :: ws).flatten + (f :: ws).length) :
    split st w (x :: text) ≠ some (f :: ws) := by
  intro h
  have hqx : x ≠ q := fun h => by rw [h, hq] at hx; exact nomatch hx
  have hnone : ∀ {next : State}, next.inWord = true →
      split next (w ++ [x]) text ≠ some (f :: ws) := by
    intro next hnext h
    have hget := getElem?_of_split hnext h
    rw [hplace] at hget
    exact hqx (Option.some.inj hget).symm
  have hone : weight [92] = 1 := rfl
  rw [weight_cons] at hweight
  rcases hst with rfl | rfl | rfl
  · obtain ⟨-, hstep⟩ | ⟨-, hquote, -⟩ | ⟨-, rfl, hstep⟩ | ⟨-, hstep⟩ | ⟨-, hstep⟩ := word_cases x
    · -- the word ends before it has the quote
      rw [split_of_wordEnds hstep] at h
      obtain ⟨tail, -, hws⟩ := Option.map_eq_some_iff.mp h
      rw [← (List.cons.inj hws).1, List.getElem?_eq_none (Nat.le_refl _)] at hplace
      exact nomatch hplace
    · rw [hquote] at hx
      exact nomatch hx
    · rw [split_of_reads hstep, List.append_nil] at h
      refine not_split_escaped (Or.inl rfl) hend hplace ?_ (by omega) h
      rintro rfl
      exact nomatch hq
    · rw [split_of_none hstep] at h
      exact nomatch h
    · rw [split_of_reads hstep] at h
      exact hnone rfl h
  · have h39 : x ≠ 39 := fun h => by rw [h] at hx; exact nomatch hx
    have hstep : step .single x = some (.reads .single [x]) := by rw [step, if_neg h39]
    rw [split_of_reads hstep] at h
    exact hnone rfl h
  · obtain ⟨rfl, -⟩ | ⟨-, hstep⟩ | ⟨rfl, hstep⟩ | ⟨-, hstep⟩ := double_cases x
    · exact nomatch hx
    · rw [split_of_none hstep] at h
      exact nomatch h
    · rw [split_of_reads hstep, List.append_nil] at h
      cases text with
      | nil => exact nomatch hend
      | cons c cs =>
          by_cases hc : c = 10 ∨ isEscapable c = true
          · exact not_split_doubleEscaped hc hend (by omega) h
          · rw [reads_of_doubleEscaped hc] at h
            obtain ⟨rest, rfl⟩ := exists_append_of_split rfl h
            rw [List.append_assoc, List.getElem?_append_right (Nat.le_refl _), Nat.sub_self]
              at hplace
            exact hqx (Option.some.inj hplace)
    · rw [split_of_reads hstep] at h
      exact hnone rfl h

/-- A quote that is taken off is missing from the word: the byte behind a block of quotes would be
in the place of one of them. -/
theorem not_split_of_quotes (hst : st = .word ∨ st = .single ∨ st = .double)
    (hblock : ∀ q ∈ block, isQuote q = true) (hx : isQuote x = false)
    (hend : text.getLast? = some 32)
    (hplace : ∀ i, w.length ≤ i → i ≤ w.length + block.length →
      ∃ q, f[i]? = some q ∧ isQuote q = true)
    (hweight : weight w + weight (block ++ x :: text) ≤
      weight (f :: ws).flatten + (f :: ws).length) :
    split st w (block ++ x :: text) ≠ some (f :: ws) := by
  induction block generalizing st w with
  | nil =>
      obtain ⟨q, hget, hq⟩ := hplace w.length (Nat.le_refl _) (Nat.le_refl _)
      exact not_split_of_place hst hx hend hget hq hweight
  | cons q block ih =>
      obtain ⟨hq, hblock⟩ := List.forall_mem_cons.mp hblock
      obtain ⟨next, taken, hstep, hnext, htaken⟩ := step_quote hst hq
      have hlength : w.length ≤ (w ++ taken).length ∧
          (w ++ taken).length ≤ w.length + 1 := by
        rw [List.length_append]
        rcases htaken with rfl | rfl <;> simp
      have hzero : weight taken = 0 := by
        rcases htaken with rfl | rfl
        · rfl
        · exact weight_quote hq
      rw [List.cons_append, weight_cons, weight_quote hq] at hweight
      rw [List.cons_append, split_of_reads hstep]
      refine ih hnext hblock ?_ ?_
      · intro i hlo hhi
        rw [List.length_cons] at hplace
        exact hplace i (by omega) (by omega)
      · rw [weight_append, hzero]
        omega

end Words

section Pieces

variable {st next : State} {w v cs rest : List UInt8} {c q : UInt8} {ws : List (List UInt8)}

/-- The text behind a word, where the other words need all of its blanks and backslashes. -/
structure Tail (rest : List UInt8) (ws : List (List UInt8)) : Prop where
  last : (32 :: rest).getLast? = some 32
  weight : weight rest = weight ws.flatten + ws.length

theorem Tail.getLast?_append (h : Tail rest ws) (v : List UInt8) :
    (v ++ 32 :: rest).getLast? = some 32 := by
  rw [List.getLast?_append, h.last]
  rfl

/-- The word `w ++ v` and what is to be read from `v` on. -/
theorem Tail.weight_eq (h : Tail rest ws) {quote : List UInt8}
    (hquote : PosixShell.weight quote = 0) (w v : List UInt8) :
    PosixShell.weight w + PosixShell.weight (v ++ quote ++ 32 :: rest) =
      PosixShell.weight ((w ++ v) :: ws).flatten + ((w ++ v) :: ws).length := by
  have hblank : PosixShell.weight [32] = 1 := rfl
  have hrest := h.weight
  rw [weight_append, weight_append, weight_cons 32, hquote, hblank, List.flatten_cons,
    weight_append, weight_append, List.length_cons]
  omega

/-- A word that has lost a quote is not `w ++ q :: v`, unless `v` is nothing but quotes. -/
theorem not_split_behind_quote (hst : st = .word ∨ st = .single ∨ st = .double)
    (hq : isQuote q = true) (hlast : ∀ c ∈ (q :: v).getLast?, isQuote c = false)
    {quote : List UInt8} (hquote : weight quote = 0) (htail : Tail rest ws) :
    split st w (v ++ quote ++ 32 :: rest) ≠ some ((w ++ q :: v) :: ws) := by
  have hsplit := List.takeWhile_append_dropWhile (p := isQuote) (l := v)
  have hblock : ∀ c ∈ v.takeWhile isQuote, isQuote c = true := fun c hc =>
    List.mem_takeWhile_imp hc
  have hword : weight (w ++ q :: v) = weight (w ++ v) := by
    rw [weight_append, weight_append, weight_cons, weight_quote hq, Nat.zero_add]
  have hweight : weight w + weight (v ++ quote ++ 32 :: rest) =
      weight ((w ++ q :: v) :: ws).flatten + ((w ++ q :: v) :: ws).length := by
    rw [htail.weight_eq hquote, List.flatten_cons, List.flatten_cons, weight_append (w ++ v),
      weight_append (w ++ q :: v), hword]
    rfl
  generalize v.takeWhile isQuote = block at hsplit hblock
  cases hdrop : v.dropWhile isQuote with
  | nil =>
      rw [hdrop, List.append_nil] at hsplit
      have hall : ∀ c ∈ q :: v, isQuote c = true := List.forall_mem_cons.mpr ⟨hq, hsplit ▸ hblock⟩
      obtain ⟨c, hc⟩ := Option.ne_none_iff_exists'.mp
        (mt List.getLast?_eq_none_iff.mp (List.cons_ne_nil q v))
      have hno := hlast c hc
      rw [hall c (List.mem_of_getLast? hc)] at hno
      exact nomatch hno
  | cons x post =>
      have hx : isQuote x = false := by
        have hhead := List.head?_dropWhile_not isQuote v
        rw [hdrop] at hhead
        simpa using hhead
      rw [hdrop] at hsplit
      subst hsplit
      have htext : block ++ x :: post ++ quote ++ 32 :: rest =
          block ++ x :: (post ++ quote ++ 32 :: rest) := by
        simp only [List.append_assoc, List.cons_append]
      rw [htext] at hweight ⊢
      refine not_split_of_quotes hst hblock hx (htail.getLast?_append _) ?_ hweight.le
      intro i hlo hhi
      obtain ⟨j, rfl⟩ := Nat.exists_eq_add_of_le hlo
      rw [List.getElem?_append_right hlo, Nat.add_sub_cancel_left, ← List.cons_append]
      have hj : j < (q :: block).length := by
        rw [List.length_cons]
        omega
      have hall : ∀ c ∈ q :: block, isQuote c = true := List.forall_mem_cons.mpr ⟨hq, hblock⟩
      rw [List.getElem?_append_left hj, List.getElem?_eq_getElem hj]
      exact ⟨_, rfl, hall _ (List.getElem_mem hj)⟩

theorem getLast?_of_cons (hlast : ∀ x ∈ (c :: v).getLast?, isQuote x = false) :
    ∀ x ∈ v.getLast?, isQuote x = false := by
  cases v with
  | nil => exact fun x hx => nomatch hx
  | cons d v => exact fun x hx => hlast x hx

/-- A backslash outside of quotes is not the one of the word. -/
theorem not_split_backslash (hst : st = .wordEscaped ∨ st = .betweenEscaped ∧ w = [])
    (htail : Tail rest ws) : split st w (v ++ 32 :: rest) ≠ some ((w ++ 92 :: v) :: ws) := by
  have hget : (w ++ 92 :: v)[w.length]? = some 92 := by
    rw [List.getElem?_append_right (Nat.le_refl _), Nat.sub_self]
    rfl
  have hone : weight [92] = 1 := rfl
  have hweight := htail.weight_eq (show weight [] = 0 from rfl) w v
  refine not_split_escaped hst (htail.getLast?_append v) hget (by decide) ?_
  rw [List.append_nil, List.flatten_cons, weight_append (w ++ v), weight_append w,
    List.length_cons] at hweight
  rw [List.flatten_cons, weight_append (w ++ 92 :: v), weight_append w, weight_cons,
    List.length_cons]
  omega

/-- Within a word, every byte is plain if all of them are found in it. -/
theorem split_word_iff (hlast : ∀ c ∈ v.getLast?, isQuote c = false) (htail : Tail rest ws) :
    split .word w (v ++ 32 :: rest) = some ((w ++ v) :: ws) ↔
      (v.all isPlain = true ∧ split .between [] rest = some ws) := by
  induction v generalizing w with
  | nil =>
      have hstep : step .word 32 = some .wordEnds := rfl
      rw [List.nil_append, split_of_wordEnds hstep, List.append_nil, Option.map_eq_some_iff]
      simp
  | cons c v ih =>
      have hno : isPlain c = false → ¬((c :: v).all isPlain = true ∧
          split .between [] rest = some ws) := fun hplain h => by simp [hplain] at h
      obtain ⟨hplain, hstep⟩ | ⟨hplain, hquote, next, hstep, hnext⟩ | ⟨hplain, rfl, hstep⟩ |
        ⟨hplain, hstep⟩ | ⟨hplain, hstep⟩ := word_cases c
      · refine iff_of_false ?_ (hno hplain)
        rw [List.cons_append, split_of_wordEnds hstep]
        intro h
        obtain ⟨tail, -, hws⟩ := Option.map_eq_some_iff.mp h
        have hlength := congrArg List.length (List.cons.inj hws).1
        rw [List.length_append, List.length_cons] at hlength
        omega
      · refine iff_of_false ?_ (hno hplain)
        have hlost := @not_split_behind_quote next w v rest c ws (Or.inr hnext) hquote hlast [] rfl
          htail
        rw [List.append_nil] at hlost
        rwa [List.cons_append, split_of_reads hstep, List.append_nil]
      · refine iff_of_false ?_ (hno hplain)
        rw [List.cons_append, split_of_reads hstep, List.append_nil]
        exact not_split_backslash (Or.inl rfl) htail
      · refine iff_of_false ?_ (hno hplain)
        rw [List.cons_append, split_of_none hstep]
        exact nofun
      · have hrest := @ih (w ++ [c]) (getLast?_of_cons hlast)
        rw [← List.append_cons w c v] at hrest
        rw [List.cons_append, split_of_reads hstep, hrest, List.all_cons, hplain, Bool.true_and]

/-- A word without quotes. -/
def isSafePlain (v : List UInt8) : Bool :=
  v.all isPlain && v.head?.any fun c => !isSpecialFirst c

/-- Outside of a word, a byte that does not end a word begins one. -/
theorem split_between_iff (hlast : ∀ c ∈ v.getLast?, isQuote c = false) (hne : v ≠ [])
    (htail : Tail rest ws) :
    split .between [] (v ++ 32 :: rest) = some (v :: ws) ↔
      (isSafePlain v = true ∧ split .between [] rest = some ws) := by
  cases v with
  | nil => exact absurd rfl hne
  | cons c v =>
      have hno : isPlain c = false ∨ isSpecialFirst c = true →
          ¬(isSafePlain (c :: v) = true ∧ split .between [] rest = some ws) := by
        rintro (hplain | hfirst) h
        · simp [isSafePlain, hplain] at h
        · simp [isSafePlain, hfirst] at h
      obtain ⟨hplain, hblank, hstep⟩ | ⟨hplain, hquote, next, hstep, hnext⟩ | ⟨hplain, rfl, hstep⟩ |
        ⟨hfirst, hstep⟩ | ⟨hplain, hfirst, hstep⟩ := between_cases c
      · -- a blank in front is skipped, and one is missing for the words
        refine iff_of_false ?_ (hno (Or.inl hplain))
        have hweight := htail.weight_eq (show weight [] = 0 from rfl) [] (c :: v)
        rw [List.append_nil] at hweight
        refine not_split_of_lost hstep ?_ (htail.getLast?_append v) hweight.le
        rw [weight_blank hblank]
        exact Nat.one_pos
      · refine iff_of_false ?_ (hno (Or.inl hplain))
        have hlost := @not_split_behind_quote next [] v rest c ws (Or.inr hnext) hquote hlast [] rfl
          htail
        rw [List.append_nil] at hlost
        rwa [List.cons_append, split_of_reads hstep, List.append_nil]
      · refine iff_of_false ?_ (hno (Or.inl hplain))
        rw [List.cons_append, split_of_reads hstep, List.append_nil]
        exact not_split_backslash (Or.inr ⟨rfl, rfl⟩) htail
      · refine iff_of_false ?_ (hno hfirst)
        rw [List.cons_append, split_of_none hstep]
        exact nofun
      · have hword := @split_word_iff [c] v rest ws (getLast?_of_cons hlast) htail
        rw [List.cons_append, split_of_reads hstep, List.nil_append,
          ← List.singleton_append (l := v), hword]
        simp [isSafePlain, hplain, hfirst]

/-- Single quotes keep everything but a single quote. -/
theorem split_single_iff (hlast : ∀ c ∈ v.getLast?, isQuote c = false) (htail : Tail rest ws) :
    split .single w (v ++ [39] ++ 32 :: rest) = some ((w ++ v) :: ws) ↔
      (39 ∉ v ∧ split .between [] rest = some ws) := by
  induction v generalizing w with
  | nil =>
      have hquote : step .single 39 = some (.reads .word []) := rfl
      have hblank : step .word 32 = some .wordEnds := rfl
      rw [List.nil_append, List.singleton_append, split_of_reads hquote, split_of_wordEnds hblank,
        List.append_nil, Option.map_eq_some_iff]
      simp
  | cons c v ih =>
      rw [List.cons_append, List.cons_append, List.mem_cons, not_or]
      by_cases hc : c = 39
      · subst hc
        have hstep : step .single 39 = some (.reads .word []) := rfl
        refine iff_of_false ?_ (fun h => h.1.1 rfl)
        rw [split_of_reads hstep, List.append_nil]
        exact not_split_behind_quote (Or.inl rfl) rfl hlast rfl htail
      · have hstep : step .single c = some (.reads .single [c]) := by rw [step, if_neg hc]
        have hnext := @ih (w ++ [c]) (getLast?_of_cons hlast)
        rw [← List.append_cons w c v] at hnext
        rw [split_of_reads hstep, hnext, and_iff_right (Ne.symm hc)]

/-- What double quotes keep: no `"`, no `$` and no back quote, and each backslash in front of a byte
that it does not escape. -/
def isSafeDouble : List UInt8 → Bool
  | [] => true
  | c :: v => c ≠ 34 && c ≠ 36 && c ≠ 96 &&
      (c ≠ 92 || v.head?.any fun d => d ≠ 10 && !isEscapable d) && isSafeDouble v

/-- A backslash that is kept could be read like any other byte. -/
theorem split_doubleEscaped_of_kept
    (hkept : (v.head?.any fun d => d ≠ 10 && !isEscapable d) = true) (cs : List UInt8) :
    split .double (w ++ [92]) (v ++ cs) = split .doubleEscaped w (v ++ cs) := by
  cases v with
  | nil => exact nomatch hkept
  | cons d v =>
      have hd : d ≠ 10 ∧ isEscapable d = false := by simpa using hkept
      have hplain : d ≠ 34 ∧ d ≠ 36 ∧ d ≠ 96 ∧ d ≠ 92 := by
        refine ⟨?_, ?_, ?_, ?_⟩ <;> rintro rfl <;> exact nomatch hd.2
      have hstep : step .double d = some (.reads .double [d]) := by
        simp [step, hplain]
      rw [List.cons_append, split_of_reads hstep, reads_of_doubleEscaped, List.append_assoc]
      · rfl
      · rw [hd.2]
        exact fun h => h.elim hd.1 (fun h => nomatch h)

theorem not_split_of_escaped
    (hkept : ¬(v.head?.any fun d => d ≠ 10 && !isEscapable d) = true) (htail : Tail rest ws) :
    split .doubleEscaped w (v ++ [34] ++ 32 :: rest) ≠ some ((w ++ 92 :: v) :: ws) := by
  have hone : weight [92] = 1 := rfl
  have hweight := htail.weight_eq (show weight [34] = 0 from rfl) w v
  rw [List.flatten_cons, weight_append (w ++ v), weight_append w, List.length_cons] at hweight
  have hlost : weight w + weight (v ++ [34] ++ 32 :: rest) + 1 ≤
      weight ((w ++ 92 :: v) :: ws).flatten + ((w ++ 92 :: v) :: ws).length := by
    rw [List.flatten_cons, weight_append (w ++ 92 :: v), weight_append w, weight_cons 92,
      List.length_cons]
    omega
  have hend := htail.getLast?_append (v ++ [34])
  cases v with
  | nil => exact not_split_doubleEscaped (Or.inr rfl) hend hlost
  | cons d v =>
      refine not_split_doubleEscaped ?_ hend hlost
      by_contra hd
      rw [not_or] at hd
      exact hkept (by simp [hd])

theorem split_double_iff (hlast : ∀ c ∈ v.getLast?, isQuote c = false) (htail : Tail rest ws) :
    split .double w (v ++ [34] ++ 32 :: rest) = some ((w ++ v) :: ws) ↔
      (isSafeDouble v = true ∧ split .between [] rest = some ws) := by
  induction v generalizing w with
  | nil =>
      have hquote : step .double 34 = some (.reads .word []) := rfl
      have hblank : step .word 32 = some .wordEnds := rfl
      rw [List.nil_append, List.singleton_append, split_of_reads hquote, split_of_wordEnds hblank,
        List.append_nil, Option.map_eq_some_iff]
      simp [isSafeDouble]
  | cons c v ih =>
      have hrest := @ih (w ++ [c]) (getLast?_of_cons hlast)
      rw [← List.append_cons w c v] at hrest
      rw [List.cons_append, List.cons_append]
      obtain ⟨rfl, hstep⟩ | ⟨hdollar, hstep⟩ | ⟨rfl, hstep⟩ | ⟨hc, hstep⟩ := double_cases c
      · refine iff_of_false ?_ (by simp [isSafeDouble])
        rw [split_of_reads hstep, List.append_nil]
        exact not_split_behind_quote (Or.inl rfl) rfl hlast rfl htail
      · rw [split_of_none hstep]
        refine iff_of_false nofun ?_
        rcases hdollar with rfl | rfl <;> simp [isSafeDouble]
      · rw [split_of_reads hstep, List.append_nil, isSafeDouble]
        by_cases hkept : (v.head?.any fun d => d ≠ 10 && !isEscapable d) = true
        · rw [List.append_assoc, split_doubleEscaped_of_kept hkept] at hrest
          rw [List.append_assoc, hrest, hkept]
          simp
        · refine iff_of_false (not_split_of_escaped hkept htail) ?_
          simp only [hkept]
          simp
      · rw [split_of_reads hstep, hrest, isSafeDouble]
        simp [hc]

/-- A word of a command, and how it is quoted there. -/
inductive Piece
  | plain (word : List UInt8)
  | single (word : List UInt8)
  | double (word : List UInt8)

namespace Piece

def word : Piece → List UInt8
  | plain word | single word | double word => word

def text : Piece → List UInt8
  | plain word => word ++ [32]
  | single word => 39 :: (word ++ [39] ++ [32])
  | double word => 34 :: (word ++ [34] ++ [32])

def isSafe : Piece → Bool
  | plain word => isSafePlain word
  | single word => 39 ∉ word
  | double word => isSafeDouble word

/-- The word is not empty and does not end with a quote. -/
def Ends (p : Piece) : Prop := p.word ≠ [] ∧ ∀ c ∈ p.word.getLast?, isQuote c = false

instance (p : Piece) : Decidable p.Ends :=
  decidable_of_iff (p.word ≠ [] ∧ p.word.getLast?.all (fun c => !isQuote c) = true)
    (and_congr_right' (by simp [Option.all_eq_true]))

theorem weight_text (p : Piece) : weight p.text = weight p.word + 1 := by
  cases p with
  | plain word => exact weight_append _ _
  | single word =>
      rw [text, weight_cons, weight_append, weight_append]
      exact Nat.zero_add _
  | double word =>
      rw [text, weight_cons, weight_append, weight_append]
      exact Nat.zero_add _

theorem getLast?_text (p : Piece) : p.text.getLast? = some 32 := by
  cases p with
  | plain word => exact List.getLast?_concat
  | single word => rw [text, ← List.cons_append, List.getLast?_concat]
  | double word => rw [text, ← List.cons_append, List.getLast?_concat]

variable {p : Piece} {ps : List Piece}

theorem tail (ps : List Piece) : Tail (ps.flatMap text) (ps.map word) := by
  induction ps with
  | nil => exact ⟨rfl, rfl⟩
  | cons p ps ih =>
      constructor
      · rw [List.flatMap_cons, ← List.cons_append, List.getLast?_append]
        cases hlast : (ps.flatMap text).getLast? with
        | none =>
            rw [Option.none_or, List.getLast?_cons, getLast?_text]
            rfl
        | some c =>
            have hend := ih.last
            rw [List.getLast?_cons, hlast] at hend
            exact hend
      · rw [List.flatMap_cons, weight_append, weight_text, ih.weight, List.map_cons,
          List.flatten_cons, weight_append, List.length_cons]
        omega

/-- One word is read as it was exactly if its quotes keep it. -/
theorem split_cons_iff (h : p.Ends) {rest : List UInt8} {ws : List (List UInt8)}
    (htail : Tail rest ws) : split .between [] (p.text ++ rest) = some (p.word :: ws) ↔
      (p.isSafe = true ∧ split .between [] rest = some ws) := by
  cases p with
  | plain word =>
      rw [text, List.append_assoc]
      exact split_between_iff h.2 h.1 htail
  | single word =>
      have hstep : step .between 39 = some (.reads .single []) := rfl
      rw [text, List.cons_append, List.append_assoc, split_of_reads hstep, isSafe,
        decide_eq_true_iff]
      exact split_single_iff h.2 htail
  | double word =>
      have hstep : step .between 34 = some (.reads .double []) := rfl
      rw [text, List.cons_append, List.append_assoc, split_of_reads hstep]
      exact split_double_iff h.2 htail

end Piece

/-- A command is split into the words it was made of exactly if the quotes of every word keep it. -/
theorem shellWords_iff {ps : List Piece} (h : ∀ p ∈ ps, p.Ends) :
    shellWords (ps.flatMap Piece.text) = some (ps.map Piece.word) ↔
      ∀ p ∈ ps, p.isSafe = true := by
  induction ps with
  | nil => exact iff_of_true rfl (fun p hp => nomatch hp)
  | cons p ps ih =>
      obtain ⟨hp, hps⟩ := List.forall_mem_cons.mp h
      rw [shellWords, List.flatMap_cons, List.map_cons,
        Piece.split_cons_iff hp (Piece.tail ps), ← shellWords, ih hps, List.forall_mem_cons]

end Pieces

end PosixShell
