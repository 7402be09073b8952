import Mathlib.Data.Nat.Digits.Lemmas
import Mathlib.Tactic.IntervalCases

/-!
# Numbers as `printf` writes them and `scanf` reads them

Numerals in a base up to sixteen, as byte strings, and the two readers of the C library: the
one of a decimal number, which stops at the first byte that is no digit, and the one of a
hexadecimal number in a field of a fixed width, which also counts the bytes it read.
-/

namespace Stdio

section Digits

def digitByte (d : ℕ) : UInt8 :=
  if d < 10 then UInt8.ofNat (48 + d) else UInt8.ofNat (87 + d)

/-- The value of a digit, upper or lower case. -/
def digitValue (c : UInt8) : Option ℕ :=
  if 48 ≤ c ∧ c ≤ 57 then some (c.toNat - 48)
  else if 97 ≤ c ∧ c ≤ 102 then some (c.toNat - 87)
  else if 65 ≤ c ∧ c ≤ 70 then some (c.toNat - 55)
  else none

def digitIn (base : ℕ) (c : UInt8) : Option ℕ :=
  (digitValue c).filter (· < base)

theorem digitValue_digitByte {d : ℕ} (hd : d < 16) : digitValue (digitByte d) = some d := by
  interval_cases d <;> rfl

theorem digitIn_digitByte {base d : ℕ} (hbase : base ≤ 16) (hd : d < base) :
    digitIn base (digitByte d) = some d := by
  rw [digitIn, digitValue_digitByte (by omega)]
  simp [hd]

theorem digitIn_lt {base d : ℕ} {c : UInt8} (h : digitIn base c = some d) : d < base := by
  rw [digitIn, Option.filter_eq_some_iff] at h
  simpa using h.2

/-- A run of bytes that are all digits of the base. -/
def IsNumber (base : ℕ) (cs : List UInt8) : Prop :=
  ∀ c ∈ cs, (digitIn base c).isSome = true

theorem IsNumber.append {base : ℕ} {cs cs' : List UInt8} (h : IsNumber base cs)
    (h' : IsNumber base cs') : IsNumber base (cs ++ cs') := by
  intro c hc
  obtain hc | hc := List.mem_append.mp hc
  · exact h c hc
  · exact h' c hc

theorem IsNumber.take {base : ℕ} {cs : List UInt8} (h : IsNumber base cs) (k : ℕ) :
    IsNumber base (cs.take k) :=
  fun c hc => h c (List.mem_of_mem_take hc)

theorem IsNumber.drop {base : ℕ} {cs : List UInt8} (h : IsNumber base cs) (k : ℕ) :
    IsNumber base (cs.drop k) :=
  fun c hc => h c (List.mem_of_mem_drop hc)

end Digits

section Numerals

/-- A number without leading zeros: `%lu` in base 10, `%zx` in base 16. -/
def numeral (base n : ℕ) : List UInt8 :=
  if n = 0 then [digitByte 0] else ((Nat.digits base n).map digitByte).reverse

/-- `%ld`. -/
def signed (z : ℤ) : List UInt8 :=
  if z < 0 then 45 :: numeral 10 z.natAbs else numeral 10 z.natAbs

/-- `%04zx`: filled up with zeros on the left, and longer than the width where the number needs
more digits. -/
def padded (width base n : ℕ) : List UInt8 :=
  List.replicate (width - (numeral base n).length) (digitByte 0) ++ numeral base n

/-- Reads digits until the first byte that is none. -/
def readDigits (base : ℕ) : ℕ → List UInt8 → ℕ × List UInt8
  | acc, [] => (acc, [])
  | acc, c :: cs =>
    match digitIn base c with
    | some d => readDigits base (acc * base + d) cs
    | none => (acc, c :: cs)

variable {base n : ℕ}

theorem isNumber_numeral (h1 : 1 < base) (hbase : base ≤ 16) (n : ℕ) :
    IsNumber base (numeral base n) := by
  intro c hc
  rw [numeral] at hc
  split at hc
  · rw [List.mem_singleton.mp hc, digitIn_digitByte hbase (by omega)]
    rfl
  · rw [List.mem_reverse, List.mem_map] at hc
    obtain ⟨d, hd, rfl⟩ := hc
    rw [digitIn_digitByte hbase (Nat.digits_lt_base h1 hd)]
    rfl

theorem isNumber_padded (h1 : 1 < base) (hbase : base ≤ 16) (width n : ℕ) :
    IsNumber base (padded width base n) := by
  refine IsNumber.append ?_ (isNumber_numeral h1 hbase n)
  intro c hc
  rw [List.eq_of_mem_replicate hc, digitIn_digitByte hbase (by omega)]
  rfl

theorem numeral_ne_nil (base n : ℕ) : numeral base n ≠ [] := by
  rw [numeral]
  split
  · simp
  · rename_i hn
    simpa [Nat.digits_eq_nil_iff_eq_zero] using hn

theorem readDigits_append {cs : List UInt8} (h : IsNumber base cs) (acc : ℕ)
    (rest : List UInt8) :
    readDigits base acc (cs ++ rest) = readDigits base (readDigits base acc cs).1 rest := by
  induction cs generalizing acc with
  | nil => rfl
  | cons c cs ih =>
      obtain ⟨d, hd⟩ := Option.isSome_iff_exists.mp (h c (by simp))
      have hcs : IsNumber base cs := fun b hb => h b (by simp [hb])
      simp only [List.cons_append, readDigits, hd]
      exact ih hcs _

theorem readDigits_snd {cs : List UInt8} (h : IsNumber base cs) (acc : ℕ) :
    (readDigits base acc cs).2 = [] := by
  induction cs generalizing acc with
  | nil => rfl
  | cons c cs ih =>
      obtain ⟨d, hd⟩ := Option.isSome_iff_exists.mp (h c (by simp))
      have hcs : IsNumber base cs := fun b hb => h b (by simp [hb])
      simp only [readDigits, hd]
      exact ih hcs _

theorem readDigits_lt (h0 : 0 < base) (acc : ℕ) (cs : List UInt8) :
    (readDigits base acc cs).1 < (acc + 1) * base ^ cs.length := by
  induction cs generalizing acc with
  | nil => simp [readDigits]
  | cons c cs ih =>
      rw [readDigits, List.length_cons, pow_succ']
      cases hd : digitIn base c with
      | none =>
          have : 0 < base * base ^ cs.length := by positivity
          calc acc < acc + 1 := by omega
            _ ≤ (acc + 1) * (base * base ^ cs.length) := Nat.le_mul_of_pos_right _ this
      | some d =>
          have hlt := digitIn_lt hd
          calc (readDigits base (acc * base + d) cs).1
              < (acc * base + d + 1) * base ^ cs.length := ih _
            _ ≤ ((acc + 1) * base) * base ^ cs.length := by
                apply Nat.mul_le_mul_right
                rw [Nat.add_mul]
                omega
            _ = (acc + 1) * (base * base ^ cs.length) := by ring

/-- Digits are read back as the number they were written for. -/
theorem readDigits_map_digitByte (hbase : base ≤ 16) {ds : List ℕ} (hds : ∀ d ∈ ds, d < base)
    (acc : ℕ) : (readDigits base acc ((ds.map digitByte).reverse)).1 =
      acc * base ^ ds.length + Nat.ofDigits base ds := by
  induction ds generalizing acc with
  | nil => simp [readDigits]
  | cons d ds ih =>
      have hd := digitIn_digitByte hbase (hds d (by simp))
      have hnumber : IsNumber base ((ds.map digitByte).reverse) := by
        intro c hc
        rw [List.mem_reverse, List.mem_map] at hc
        obtain ⟨e, he, rfl⟩ := hc
        rw [digitIn_digitByte hbase (hds e (by simp [he]))]
        rfl
      rw [List.map_cons, List.reverse_cons, readDigits_append hnumber,
        ih fun e he => hds e (by simp [he])]
      simp only [readDigits, hd, List.length_cons, Nat.ofDigits_cons]
      ring

theorem readDigits_numeral (h1 : 1 < base) (hbase : base ≤ 16) (n : ℕ) :
    (readDigits base 0 (numeral base n)).1 = n := by
  rw [numeral]
  split
  · rename_i hn
    simp [readDigits, digitIn_digitByte hbase (show 0 < base by omega), hn]
  · rw [readDigits_map_digitByte hbase fun d hd => Nat.digits_lt_base h1 hd]
    simp [Nat.ofDigits_digits]

theorem readDigits_replicate_zero (hbase : base ≤ 16) (h0 : 0 < base) (k : ℕ) :
    (readDigits base 0 (List.replicate k (digitByte 0))).1 = 0 := by
  induction k with
  | zero => rfl
  | succ k ih =>
      simpa [List.replicate_succ, readDigits, digitIn_digitByte hbase h0] using ih

theorem readDigits_padded (h1 : 1 < base) (hbase : base ≤ 16) (width n : ℕ) :
    (readDigits base 0 (padded width base n)).1 = n := by
  have hzeros : IsNumber base (List.replicate (width - (numeral base n).length) (digitByte 0)) := by
    intro c hc
    rw [List.eq_of_mem_replicate hc, digitIn_digitByte hbase (by omega)]
    rfl
  rw [padded, readDigits_append hzeros, readDigits_replicate_zero hbase (by omega),
    readDigits_numeral h1 hbase]

theorem length_numeral_le_iff (h1 : 1 < base) {width : ℕ} (hwidth : 0 < width) :
    (numeral base n).length ≤ width ↔ n < base ^ width := by
  rw [numeral]
  split
  · rename_i hn
    have : 0 < base ^ width := by positivity
    simp only [List.length_singleton, hn, this, iff_true]
    exact hwidth
  · rw [List.length_reverse, List.length_map, Nat.digits_length_le_iff h1]

/-- The field is exactly as wide as asked for if the number fits. -/
theorem length_padded (h1 : 1 < base) {width : ℕ} (hwidth : 0 < width) (h : n < base ^ width) :
    (padded width base n).length = width := by
  have := (length_numeral_le_iff h1 hwidth).mpr h
  simp only [padded, List.length_append, List.length_replicate]
  omega

theorem width_le_length_padded (width base n : ℕ) : width ≤ (padded width base n).length := by
  simp only [padded, List.length_append, List.length_replicate]
  omega

theorem width_lt_length_padded (h1 : 1 < base) {width : ℕ} (hwidth : 0 < width)
    (h : base ^ width ≤ n) : width < (padded width base n).length := by
  have : ¬(numeral base n).length ≤ width := by
    rw [length_numeral_le_iff h1 hwidth]
    omega
  simp only [padded, List.length_append, List.length_replicate]
  omega

end Numerals

section Scan

/-- `isspace`. -/
def isBlank (c : UInt8) : Bool := c = 32 || (9 ≤ c && c ≤ 13)

/-- Takes a sign off; `true` is a minus. -/
def readSign : List UInt8 → Bool × List UInt8
  | [] => (false, [])
  | c :: cs => if c = 45 then (true, cs) else if c = 43 then (false, cs) else (false, c :: cs)

/-- Blanks, a sign and decimal digits; nothing if there is no digit. -/
def readDecimal (cs : List UInt8) : Option (Bool × ℕ) :=
  let unsigned := readSign (cs.dropWhile isBlank)
  let digits := readDigits 10 0 unsigned.2
  if digits.2.length = unsigned.2.length then none else some (unsigned.1, digits.1)

/-- What `strtoul` makes of a number, and `%lu` with it: a minus negates modulo `2 ^ 64`, and
numbers that are too large become the largest one. -/
def toUnsignedLong (neg : Bool) (n : ℕ) : ℕ :=
  if 2 ^ 64 ≤ n then 2 ^ 64 - 1 else if neg then (2 ^ 64 - n) % 2 ^ 64 else n

/-- `strtoul` in base 10; `none` where there is no number. -/
def strtoul (cs : List UInt8) : Option ℕ :=
  (readDecimal cs).map fun r => toUnsignedLong r.1 r.2

/-- `strtol` in base 10, which stays within the bounds of a `long`. -/
def strtol (cs : List UInt8) : Option ℤ :=
  (readDecimal cs).map fun r => max (-2 ^ 63) (min (2 ^ 63 - 1) (if r.1 then -r.2 else r.2))

/-- A leading `0x` is no part of the digits. -/
def dropHexPrefix : List UInt8 → List UInt8
  | c :: c' :: cs => if c = 48 ∧ (c' = 120 ∨ c' = 88) then cs else c :: c' :: cs
  | cs => cs

/-- `%04zx%n`, with 4 for the width: the number and how many bytes were read, blanks included.
The width counts the sign and the `0x`. -/
def scanHex (width : ℕ) (cs : List UInt8) : Option (ℕ × ℕ) :=
  let text := (cs.dropWhile isBlank).take width
  let unsigned := readSign text
  let hex := dropHexPrefix unsigned.2
  let digits := readDigits 16 0 hex
  if digits.2.length = hex.length then none
  else some (toUnsignedLong unsigned.1 digits.1,
    (cs.takeWhile isBlank).length + (text.length - digits.2.length))

/-- A digit is neither a blank nor a sign nor the `x` of a prefix. -/
theorem not_blank_of_digitIn {base : ℕ} {c : UInt8} (h : (digitIn base c).isSome = true) :
    isBlank c = false ∧ c ≠ 45 ∧ c ≠ 43 ∧ c ≠ 120 ∧ c ≠ 88 := by
  obtain ⟨d, hd⟩ := Option.isSome_iff_exists.mp h
  rw [digitIn, Option.filter_eq_some_iff, digitValue] at hd
  have hrange : 48 ≤ c.toNat ∧ c.toNat ≤ 57 ∨ 97 ≤ c.toNat ∧ c.toNat ≤ 102 ∨
      65 ≤ c.toNat ∧ c.toNat ≤ 70 := by
    by_contra hnone
    simp only [UInt8.le_iff_toNat_le, UInt8.reduceToNat] at hd
    grind
  simp only [isBlank, ne_eq, ← UInt8.toNat_inj, Bool.or_eq_false_iff, decide_eq_false_iff_not,
    Bool.and_eq_false_iff, UInt8.le_iff_toNat_le, UInt8.reduceToNat]
  omega

variable {cs : List UInt8} {n : ℕ}

theorem IsNumber.dropWhile_isBlank {base : ℕ} (h : IsNumber base cs) (hne : cs ≠ [])
    (rest : List UInt8) : (cs ++ rest).dropWhile isBlank = cs ++ rest := by
  cases cs with
  | nil => exact absurd rfl hne
  | cons c cs =>
      have hc := (not_blank_of_digitIn (h c (by simp))).1
      simp [hc]

theorem IsNumber.readSign {base : ℕ} (h : IsNumber base cs) (hne : cs ≠ [])
    (rest : List UInt8) : readSign (cs ++ rest) = (false, cs ++ rest) := by
  cases cs with
  | nil => exact absurd rfl hne
  | cons c cs =>
      obtain ⟨-, hminus, hplus, -⟩ := not_blank_of_digitIn (h c (by simp))
      simp [Stdio.readSign, hminus, hplus]

theorem readDecimal_of_readSign {neg : Bool} {ds : List UInt8}
    (hsign : readSign (cs.dropWhile isBlank) = (neg, ds)) (h : IsNumber 10 ds) (hne : ds ≠ []) :
    readDecimal cs = some (neg, (readDigits 10 0 ds).1) := by
  have hlength : (0 : ℕ) ≠ ds.length := by
    simpa [eq_comm] using hne
  simp only [readDecimal, hsign, readDigits_snd h, List.length_nil]
  rw [if_neg hlength]

theorem readDecimal_numeral (n : ℕ) : readDecimal (numeral 10 n) = some (false, n) := by
  have hnumber := isNumber_numeral (by omega) (by omega : 10 ≤ 16) n
  have hne := numeral_ne_nil 10 n
  have hblank := hnumber.dropWhile_isBlank hne []
  have hsign := hnumber.readSign hne []
  rw [List.append_nil] at hblank hsign
  rw [readDecimal_of_readSign (by rw [hblank, hsign]) hnumber hne,
    readDigits_numeral (by omega) (by omega)]

theorem readDecimal_signed (z : ℤ) : readDecimal (signed z) = some (decide (z < 0), z.natAbs) := by
  have hnumber := isNumber_numeral (by omega) (by omega : 10 ≤ 16) z.natAbs
  rw [signed]
  split
  · rename_i hneg
    have hsign : Stdio.readSign ((45 :: numeral 10 z.natAbs).dropWhile isBlank) =
        (true, numeral 10 z.natAbs) := by
      rw [List.dropWhile_cons_of_neg (by decide)]
      rfl
    rw [readDecimal_of_readSign hsign hnumber (numeral_ne_nil 10 _),
      readDigits_numeral (by omega) (by omega), decide_eq_true hneg]
  · rename_i hneg
    rw [readDecimal_numeral, decide_eq_false hneg]

/-- `%lu` reads back what `%lu` wrote. -/
theorem strtoul_numeral (hn : n < 2 ^ 64) : strtoul (numeral 10 n) = some n := by
  simp only [strtoul, readDecimal_numeral, Option.map_some, toUnsignedLong]
  rw [if_neg (by omega)]
  simp

/-- `%ld` reads back what `%ld` wrote. -/
theorem strtol_signed {z : ℤ} (hmin : -2 ^ 63 ≤ z) (hmax : z < 2 ^ 63) :
    strtol (signed z) = some z := by
  simp only [strtol, readDecimal_signed, Option.map_some, decide_eq_true_eq]
  have habs : (if z < 0 then -(z.natAbs : ℤ) else z.natAbs) = z := by
    split <;> omega
  rw [habs]
  congr 1
  omega

theorem IsNumber.dropHexPrefix {base : ℕ} (h : IsNumber base cs) :
    dropHexPrefix cs = cs := by
  match cs with
  | [] => rfl
  | [c] => rfl
  | c :: c' :: cs =>
      obtain ⟨-, -, -, hx, hX⟩ := not_blank_of_digitIn (h c' (by simp))
      simp [Stdio.dropHexPrefix, hx, hX]

/-- A field that is full of digits is read whole, whatever follows. -/
theorem scanHex_append (h : IsNumber 16 cs) (hne : cs ≠ []) (hwidth : cs.length < 16)
    (rest : List UInt8) :
    scanHex cs.length (cs ++ rest) = some ((readDigits 16 0 cs).1, cs.length) := by
  have hblank := h.dropWhile_isBlank hne rest
  have hnone : (cs ++ rest).takeWhile isBlank = [] := by
    have := List.takeWhile_append_dropWhile (p := isBlank) (l := cs ++ rest)
    rw [hblank] at this
    simpa using this
  have hsign := h.readSign hne []
  simp only [List.append_nil] at hsign
  have hlength : (0 : ℕ) ≠ cs.length := by
    simpa [eq_comm] using hne
  have hlt : (readDigits 16 0 cs).1 < 2 ^ 64 := by
    calc (readDigits 16 0 cs).1 < (0 + 1) * 16 ^ cs.length := readDigits_lt (by omega) 0 cs
      _ = 16 ^ cs.length := by ring
      _ ≤ 16 ^ 16 := Nat.pow_le_pow_right (by omega) (by omega)
      _ = 2 ^ 64 := by norm_num
  simp only [scanHex, hblank, hnone, List.take_left, hsign, h.dropHexPrefix, readDigits_snd h,
    List.length_nil]
  rw [if_neg hlength, toUnsignedLong, if_neg (by omega)]
  simp

end Scan

end Stdio
