import Gufi.Stdio

/-!
# `sscanf`

Formats of unsigned numbers and bytes that must follow, with `%n` at the end. A number skips blanks
and may have a sign. The result has the numbers that were converted and, if the end of the format
was reached, how many bytes were read.
-/

namespace Stdio

/-- `%zu` and `%o`, with a width or without, and a byte that must follow. -/
inductive Directive
  | unsigned (base : ℕ) (width : Option ℕ)
  | byte (c : UInt8)

/-- One number and how many bytes were read. The width counts the sign. -/
def scanUnsigned (base : ℕ) (width : Option ℕ) (cs : List UInt8) : Option (ℕ × ℕ) :=
  let text := (cs.dropWhile isBlank).take (width.getD cs.length)
  let unsigned := readSign text
  let digits := readDigits base 0 unsigned.2
  if digits.2.length = unsigned.2.length then none
  else some (toUnsignedLong unsigned.1 digits.1,
    (cs.takeWhile isBlank).length + (text.length - digits.2.length))

/-- What is read from byte `pos` on. -/
def sscanf : List Directive → ℕ → List UInt8 → List ℕ × Option ℕ
  | [], pos, _ => ([], some pos)
  | .unsigned base width :: format, pos, cs =>
    match scanUnsigned base width cs with
    | none => ([], none)
    | some (n, read) =>
      let rest := sscanf format (pos + read) (cs.drop read)
      (n :: rest.1, rest.2)
  | .byte _ :: _, _, [] => ([], none)
  | .byte c :: format, pos, c' :: cs => if c' = c then sscanf format (pos + 1) cs else ([], none)

section Read

variable {base : ℕ} {width : Option ℕ} {cs : List UInt8} {format : List Directive} {pos : ℕ}

/-- The bytes that do not start with a digit. -/
def NoDigit (base : ℕ) (rest : List UInt8) : Prop :=
  ∀ c ∈ rest.head?, digitIn base c = none

theorem readDigits_of_noDigit {rest : List UInt8} (h : NoDigit base rest) (acc : ℕ) :
    readDigits base acc rest = (acc, rest) := by
  cases rest with
  | nil => rfl
  | cons c rest => rw [readDigits, h c (by simp)]

/-- Digits are read up to the first byte that is none, or as far as the width goes. -/
theorem scanUnsigned_append (h : IsNumber base cs) (hne : cs ≠ []) {rest : List UInt8}
    (hwidth : width = some cs.length ∨ width = none ∧ NoDigit base rest)
    (hlt : (readDigits base 0 cs).1 < 2 ^ 64) :
    scanUnsigned base width (cs ++ rest) = some ((readDigits base 0 cs).1, cs.length) := by
  have hblank := h.dropWhile_isBlank hne rest
  have hnone : (cs ++ rest).takeWhile isBlank = [] := by
    have hsplit := List.takeWhile_append_dropWhile (p := isBlank) (l := cs ++ rest)
    rw [hblank] at hsplit
    simpa using hsplit
  have hlength : cs.length ≠ 0 := by simpa using hne
  rcases hwidth with rfl | ⟨rfl, hrest⟩
  · have hsign := h.readSign hne []
    simp only [List.append_nil] at hsign
    simp only [scanUnsigned, hblank, hnone, Option.getD_some, List.take_left, hsign,
      readDigits_snd h, List.length_nil]
    rw [if_neg hlength.symm, toUnsignedLong, if_neg (by omega)]
    simp
  · have hdigits : readDigits base 0 (cs ++ rest) = ((readDigits base 0 cs).1, rest) := by
      rw [readDigits_append h, readDigits_of_noDigit hrest]
    simp only [scanUnsigned, hblank, hnone, Option.getD_none, List.take_length,
      h.readSign hne rest, hdigits]
    rw [List.length_append, if_neg (by omega), toUnsignedLong, if_neg (by omega)]
    simp

/-- The conversion of a number, and then the rest of the format. -/
theorem sscanf_unsigned (h : IsNumber base cs) (hne : cs ≠ []) {rest : List UInt8}
    (hwidth : width = some cs.length ∨ width = none ∧ NoDigit base rest)
    (hlt : (readDigits base 0 cs).1 < 2 ^ 64) :
    sscanf (.unsigned base width :: format) pos (cs ++ rest) =
      ((readDigits base 0 cs).1 :: (sscanf format (pos + cs.length) rest).1,
        (sscanf format (pos + cs.length) rest).2) := by
  rw [sscanf, scanUnsigned_append h hne hwidth hlt]
  simp only [List.drop_left]

theorem sscanf_byte {c : UInt8} (rest : List UInt8) :
    sscanf (.byte c :: format) pos (c :: rest) = sscanf format (pos + 1) rest := by
  rw [sscanf, if_pos rfl]

/-- `%zu` reads what `%zu` wrote, up to a byte that is no digit. -/
theorem sscanf_numeral {n : ℕ} (hn : n < 2 ^ 64) {c : UInt8} (hc : digitIn 10 c = none)
    (rest : List UInt8) :
    sscanf (.unsigned 10 none :: .byte c :: format) pos (numeral 10 n ++ c :: rest) =
      (n :: (sscanf format (pos + (numeral 10 n).length + 1) rest).1,
        (sscanf format (pos + (numeral 10 n).length + 1) rest).2) := by
  have hread := readDigits_numeral (by omega) (by omega : 10 ≤ 16) n
  have hrest : NoDigit 10 (c :: rest) := by
    intro c' hc'
    rw [List.head?_cons, Option.mem_some_iff] at hc'
    rwa [← hc']
  rw [sscanf_unsigned (isNumber_numeral (by omega) (by omega) n) (numeral_ne_nil 10 n)
    (.inr ⟨rfl, hrest⟩) (by omega), hread, sscanf_byte]

end Read

end Stdio
