import Gufi.Scanf
import Mathlib.Algebra.Order.Floor.Div
import Mathlib.Data.List.TakeWhile

/-!
# Numbers of blocks

`blocksize` divides a size by a unit, which has a count, one of six letters and what says whether
they stand for powers of 1000 or of 1024. The unit is computed in 64 bits. `SizeUnit` has the unit
texts that are accepted, with their values as numbers.
-/

namespace Gufi.Blocksize

open Stdio

abbrev Bytes := List UInt8

section Model

inductive BlocksizeError
  | badSize
  | badUnit
  | divisionByZero
  | bufferTooSmall
deriving DecidableEq

/-- `K`, `M`, `G`, `T`, `P` and `E`. -/
def SIZE : List UInt8 := [75, 77, 71, 84, 80, 69]

/-- The loop over `SIZE`. -/
def scale (multiplier : UInt64) (first : UInt8) : List UInt8 → UInt64 → Option UInt64
  | [], _ => none
  | c :: rest, unitSize =>
      if first = c then some (unitSize * multiplier)
      else scale multiplier first rest (unitSize * multiplier)

/-- The numbers that the loop multiplies. -/
def products (multiplier : UInt64) (first : UInt8) : List UInt8 → UInt64 → List (UInt64 × UInt64)
  | [], _ => []
  | c :: rest, unitSize =>
      (unitSize, multiplier) ::
        if first = c then [] else products multiplier first rest (unitSize * multiplier)

/-- The letter of a suffix, and what is multiplied for each letter up to it. -/
def suffixMultiplier : Bytes → Option (UInt8 × UInt64)
  | [c] => some (c, 1024)
  | [c, b] => if b = 66 then some (c, 1000) else none
  | [c, i, b] => if b = 66 ∧ i = 105 then some (c, 1024) else none
  | _ => none

def suffixOf (unitS : Bytes) : Bytes :=
  unitS.dropWhile fun c => 48 ≤ c && c ≤ 57

/-- `coefficient_found` and the coefficient. Where there is only the end of the text, `sscanf`
returns `EOF`. -/
def coefficient (unitS : Bytes) : ℤ × UInt64 :=
  match strtoul unitS with
  | some n => (1, UInt64.ofNat n)
  | none => (if unitS.all isBlank then -1 else 0, 1)

def unitSize (unitS : Bytes) : Option UInt64 :=
  let (found, count) := coefficient unitS
  if found = 1 ∧ count = 0 then none
  else if suffixOf unitS = [] then some count
  else (suffixMultiplier (suffixOf unitS)).bind fun (first, multiplier) =>
    scale multiplier first SIZE count

/-- What is multiplied to get the unit. -/
def unitProducts (unitS : Bytes) : List (UInt64 × UInt64) :=
  match suffixMultiplier (suffixOf unitS) with
  | some (first, multiplier) => products multiplier first SIZE (coefficient unitS).2
  | none => []

/-- The number of blocks, with the suffix behind it unless the unit has a count. -/
def blocksize (sizeS unitS : Bytes) : Except BlocksizeError Bytes :=
  match strtoul sizeS, unitSize unitS with
  | none, _ => .error .badSize
  | _, none => .error .badUnit
  | some n, some unit =>
      let size := UInt64.ofNat n
      if unit = 0 then .error .divisionByZero
      else
        let blocks := size / unit + if size % unit = 0 then 0 else 1
        let text := numeral 10 blocks.toNat ++
          if (coefficient unitS).1 = 0 then suffixOf unitS else []
        if text.length < 20 + 2 + 1 then .ok text else .error .bufferTooSmall

end Model

section Units

/-- A letter alone, followed by `B`, or by `iB`. -/
inductive Kind
  | single
  | decimal
  | binary

def Kind.base : Kind → ℕ
  | .decimal => 1000
  | .single | .binary => 1024

def Kind.tail : Kind → Bytes
  | .single => []
  | .decimal => [66]
  | .binary => [105, 66]

/-- A unit: digits that are not all zeros, if any, and a suffix, if any. -/
structure SizeUnit where
  count : Bytes
  isNumber : IsNumber 10 count
  ne_zero : count ≠ [] → (readDigits 10 0 count).1 ≠ 0
  suffix : Option ({c : UInt8 // c ∈ SIZE} × Kind)

namespace SizeUnit

variable (u : SizeUnit)

def suffixText : Bytes :=
  match u.suffix with
  | none => []
  | some (c, kind) => c.1 :: kind.tail

def text : Bytes := u.count ++ u.suffixText

def countValue : ℕ := if u.count = [] then 1 else (readDigits 10 0 u.count).1

theorem suffixText_none (h : u.suffix = none) : u.suffixText = [] := by rw [suffixText, h]

theorem suffixText_some {c : {c : UInt8 // c ∈ SIZE}} {kind : Kind}
    (h : u.suffix = some (c, kind)) : u.suffixText = c.1 :: kind.tail := by
  rw [suffixText, h]

/-- The factor of the suffix. -/
def factor : ℕ :=
  match u.suffix with
  | none => 1
  | some (c, kind) => kind.base ^ (SIZE.idxOf c.1 + 1)

def value : ℕ := u.countValue * u.factor

end SizeUnit

/-- The result is the number of units rounded up, nothing that is computed for it wraps around, and
the divisor is not zero. -/
structure Exact (sizeS : Bytes) (u : SizeUnit) : Prop where
  result : blocksize sizeS u.text =
    .ok (numeral 10 ((readDigits 10 0 sizeS).1 ⌈/⌉ u.value) ++
      if u.count = [] then u.suffixText else [])
  products : ∀ p ∈ unitProducts u.text, p.1.toNat * p.2.toNat < 2 ^ 64
  divisor : unitSize u.text ≠ some 0
  sum : ∀ unit, unitSize u.text = some unit →
    (readDigits 10 0 sizeS).1 / unit.toNat +
      (if (readDigits 10 0 sizeS).1 % unit.toNat = 0 then 0 else 1) < 2 ^ 64

end Units

section Scale

variable {multiplier unit : UInt64} {first : UInt8} {sizes : List UInt8}

theorem scale_of_notMem (h : first ∉ sizes) : scale multiplier first sizes unit = none := by
  induction sizes generalizing unit with
  | nil => rfl
  | cons c rest ih =>
      have hne : first ≠ c := fun hc => h (hc ▸ List.mem_cons_self)
      rw [scale, if_neg hne, ih fun hrest => h (List.mem_cons_of_mem _ hrest)]

theorem exists_scale (h : first ∈ sizes) : ∃ v, scale multiplier first sizes unit = some v := by
  induction sizes generalizing unit with
  | nil => exact absurd h List.not_mem_nil
  | cons c rest ih =>
      rw [scale]
      split_ifs with hc
      · exact ⟨_, rfl⟩
      · exact ih ((List.mem_cons.mp h).resolve_left hc)

/-- No product wraps around if the last one is small enough. -/
theorem products_lt_iff (hm : 0 < multiplier.toNat) (h : first ∈ sizes) :
    (∀ p ∈ products multiplier first sizes unit, p.1.toNat * p.2.toNat < 2 ^ 64) ↔
      unit.toNat * multiplier.toNat ^ (sizes.idxOf first + 1) < 2 ^ 64 := by
  induction sizes generalizing unit with
  | nil => exact absurd h List.not_mem_nil
  | cons c rest ih =>
      rw [products]
      by_cases hc : first = c
      · rw [if_pos hc, hc, List.idxOf_cons_self, List.forall_mem_singleton, Nat.zero_add, pow_one]
      · have hrest : first ∈ rest := (List.mem_cons.mp h).resolve_left hc
        rw [if_neg hc, List.idxOf_cons_ne _ (Ne.symm hc), List.forall_mem_cons, ih hrest,
          pow_succ' _ (rest.idxOf first + 1), ← Nat.mul_assoc]
        by_cases hlt : unit.toNat * multiplier.toNat < 2 ^ 64
        · rw [UInt64.toNat_mul, Nat.mod_eq_of_lt hlt]
          exact and_iff_right hlt
        · refine iff_of_false (fun hboth => hlt hboth.1) fun hall => hlt ?_
          exact (Nat.le_mul_of_pos_right _ (Nat.pow_pos hm)).trans_lt hall

theorem scale_of_lt (h : first ∈ sizes)
    (hlt : unit.toNat * multiplier.toNat ^ (sizes.idxOf first + 1) < 2 ^ 64)
    (hm : 0 < multiplier.toNat) :
    scale multiplier first sizes unit =
      some (UInt64.ofNat (unit.toNat * multiplier.toNat ^ (sizes.idxOf first + 1))) := by
  induction sizes generalizing unit with
  | nil => exact absurd h List.not_mem_nil
  | cons c rest ih =>
      rw [scale]
      by_cases hc : first = c
      · rw [if_pos hc, hc, List.idxOf_cons_self, Nat.zero_add, pow_one, UInt64.ofNat_mul,
          UInt64.ofNat_toNat, UInt64.ofNat_toNat]
      · have hrest : first ∈ rest := (List.mem_cons.mp h).resolve_left hc
        rw [List.idxOf_cons_ne _ (Ne.symm hc), pow_succ' _ (rest.idxOf first + 1),
          ← Nat.mul_assoc] at hlt ⊢
        have hone : unit.toNat * multiplier.toNat < 2 ^ 64 :=
          (Nat.le_mul_of_pos_right _ (Nat.pow_pos hm)).trans_lt hlt
        have hunit : (unit * multiplier).toNat = unit.toNat * multiplier.toNat := by
          rw [UInt64.toNat_mul, Nat.mod_eq_of_lt hone]
        rw [if_neg hc, ih hrest (by rwa [hunit]), hunit]

end Scale

section Texts

theorem isDigit_eq (c : UInt8) : (48 ≤ c && c ≤ 57) = (digitIn 10 c).isSome := by
  by_cases h : 48 ≤ c ∧ c ≤ 57
  · have hlt : c.toNat - 48 < 10 := by
      have := UInt8.le_iff_toNat_le.mp h.2
      simp only [UInt8.reduceToNat] at this
      omega
    simp [digitIn, digitValue, h, hlt]
  · rw [digitIn, digitValue, if_neg h]
    have hfalse : (48 ≤ c && c ≤ 57) = false := by
      simpa only [Bool.and_eq_false_iff, decide_eq_false_iff_not, not_and_or] using h
    rw [hfalse]
    split_ifs with hlower hupper
    · have := UInt8.le_iff_toNat_le.mp hlower.1
      simp only [UInt8.reduceToNat] at this
      simp only [Option.filter_some]
      rw [if_neg (by rw [decide_eq_true_iff]; omega)]
      rfl
    · have := UInt8.le_iff_toNat_le.mp hupper.1
      simp only [UInt8.reduceToNat] at this
      simp only [Option.filter_some]
      rw [if_neg (by rw [decide_eq_true_iff]; omega)]
      rfl
    · rfl

theorem not_digit_of_mem_SIZE {c : UInt8} (h : c ∈ SIZE) : (48 ≤ c && c ≤ 57) = false := by
  have hall : (SIZE.all fun c => !(48 ≤ c && c ≤ 57)) = true := by decide
  exact (Bool.not_eq_true' _).mp (List.all_eq_true.mp hall c h)

theorem not_blank_of_mem_SIZE {c : UInt8} (h : c ∈ SIZE) : isBlank c = false := by
  have hall : (SIZE.all fun c => !isBlank c) = true := by decide
  exact (Bool.not_eq_true' _).mp (List.all_eq_true.mp hall c h)

theorem not_sign_of_mem_SIZE {c : UInt8} (h : c ∈ SIZE) : c ≠ 45 ∧ c ≠ 43 := by
  have hall : (SIZE.all fun c => decide (c ≠ 45 ∧ c ≠ 43)) = true := by decide
  exact of_decide_eq_true (List.all_eq_true.mp hall c h)

theorem noDigit_nil (base : ℕ) : NoDigit base [] := by
  intro c hc
  cases hc

theorem strtoul_of_number {cs rest : Bytes} (h : IsNumber 10 cs) (hne : cs ≠ [])
    (hrest : NoDigit 10 rest) :
    strtoul (cs ++ rest) = some (min (readDigits 10 0 cs).1 (2 ^ 64 - 1)) := by
  have hread : readDigits 10 0 (cs ++ rest) = ((readDigits 10 0 cs).1, rest) := by
    rw [readDigits_append h, readDigits_of_noDigit hrest]
  have hlength : rest.length ≠ (cs ++ rest).length := by
    have := List.length_pos_iff.mpr hne
    rw [List.length_append]
    omega
  rw [strtoul, readDecimal, h.dropWhile_isBlank hne, h.readSign hne]
  simp only [hread, if_neg hlength, Option.map_some, toUnsignedLong, Bool.false_eq_true, if_false]
  congr 1
  split_ifs <;> omega

variable (u : SizeUnit)

namespace SizeUnit

theorem noDigit_suffixText : NoDigit 10 u.suffixText := by
  intro c hc
  rw [suffixText] at hc
  split at hc
  · cases hc
  · rename_i c' kind _
    obtain rfl : c'.1 = c := Option.some.inj hc
    have := isDigit_eq c'.1
    rw [not_digit_of_mem_SIZE c'.2] at this
    exact Option.not_isSome_iff_eq_none.mp (by rw [← this]; exact Bool.false_ne_true)

theorem suffixOf_text : suffixOf u.text = u.suffixText := by
  have hcount : ∀ c ∈ u.count, (48 ≤ c && c ≤ 57) = true := fun c hc => by
    rw [isDigit_eq]
    exact u.isNumber c hc
  rw [suffixOf, text, List.dropWhile_append_of_pos hcount]
  have hhead := u.noDigit_suffixText
  cases hsuffix : u.suffixText with
  | nil => rfl
  | cons c rest =>
      rw [hsuffix] at hhead
      rw [List.dropWhile_cons_of_neg]
      rw [isDigit_eq, hhead c rfl]
      exact Bool.false_ne_true

theorem coefficient_of_count (h : u.count ≠ []) :
    coefficient u.text = (1, UInt64.ofNat (min u.countValue (2 ^ 64 - 1))) := by
  rw [coefficient, text, strtoul_of_number u.isNumber h u.noDigit_suffixText, countValue, if_neg h]

theorem strtoul_suffixText : strtoul u.suffixText = none := by
  have hdigit := u.noDigit_suffixText
  rw [suffixText] at hdigit ⊢
  split
  · rfl
  · rename_i c kind hsuffix
    simp only [hsuffix] at hdigit
    have hsign : readSign (c.1 :: kind.tail) = (false, c.1 :: kind.tail) := by
      obtain ⟨hminus, hplus⟩ := not_sign_of_mem_SIZE c.2
      rw [readSign, if_neg hminus, if_neg hplus]
    have hblank : (c.1 :: kind.tail).dropWhile isBlank = c.1 :: kind.tail :=
      List.dropWhile_cons_of_neg (by rw [not_blank_of_mem_SIZE c.2]; exact Bool.false_ne_true)
    rw [strtoul, readDecimal, hblank, hsign]
    simp only [readDigits_of_noDigit hdigit, if_true, Option.map_none]

theorem coefficient_of_nil (h : u.count = []) :
    coefficient u.text = (if u.suffix = none then -1 else 0, 1) := by
  have htext : u.text = u.suffixText := by rw [text, h, List.nil_append]
  rw [coefficient, htext, u.strtoul_suffixText]
  rcases hsuffix : u.suffix with _ | ⟨c, kind⟩
  · rw [u.suffixText_none hsuffix]
    rfl
  · rw [u.suffixText_some hsuffix, List.all_cons, not_blank_of_mem_SIZE c.2]
    rfl

theorem coefficient_snd :
    (coefficient u.text).2 = UInt64.ofNat (min u.countValue (2 ^ 64 - 1)) := by
  by_cases h : u.count = []
  · rw [u.coefficient_of_nil h, countValue, if_pos h]
    rfl
  · rw [u.coefficient_of_count h]

theorem countValue_pos : 0 < u.countValue := by
  rw [countValue]
  split_ifs with h
  · exact Nat.one_pos
  · exact Nat.pos_of_ne_zero (u.ne_zero h)

theorem toNat_coefficient : (coefficient u.text).2.toNat = min u.countValue (2 ^ 64 - 1) := by
  rw [coefficient_snd, UInt64.toNat_ofNat']
  exact Nat.mod_eq_of_lt (by omega)

theorem toNat_base (kind : Kind) : (UInt64.ofNat kind.base).toNat = kind.base := by
  cases kind <;> rfl

theorem suffixMultiplier_cons (c : UInt8) (kind : Kind) :
    suffixMultiplier (c :: kind.tail) = some (c, UInt64.ofNat kind.base) := by
  cases kind <;> rfl

theorem not_zero_coefficient : ¬ ((coefficient u.text).1 = 1 ∧ (coefficient u.text).2 = 0) := by
  rintro ⟨-, hzero⟩
  have hpos := u.countValue_pos
  have hnat := u.toNat_coefficient
  rw [hzero] at hnat
  change 0 = _ at hnat
  omega

theorem unitSize_none (h : u.suffix = none) : unitSize u.text = some (coefficient u.text).2 := by
  simp only [unitSize, if_neg u.not_zero_coefficient, u.suffixOf_text, u.suffixText_none h, if_true]

theorem unitSize_some {c : {c : UInt8 // c ∈ SIZE}} {kind : Kind} (h : u.suffix = some (c, kind)) :
    unitSize u.text =
      scale (UInt64.ofNat kind.base) c.1 SIZE (coefficient u.text).2 := by
  simp only [unitSize, if_neg u.not_zero_coefficient, u.suffixOf_text, u.suffixText_some h,
    List.cons_ne_nil, if_false, suffixMultiplier_cons, Option.bind_some]

theorem unitProducts_none (h : u.suffix = none) : unitProducts u.text = [] := by
  rw [unitProducts, u.suffixOf_text, u.suffixText_none h]
  rfl

theorem unitProducts_some {c : {c : UInt8 // c ∈ SIZE}} {kind : Kind}
    (h : u.suffix = some (c, kind)) : unitProducts u.text =
      products (UInt64.ofNat kind.base) c.1 SIZE (coefficient u.text).2 := by
  rw [unitProducts, u.suffixOf_text, u.suffixText_some h, suffixMultiplier_cons]

end SizeUnit

/-- What is accepted as a unit is a count that is not zero, if any, and a suffix, if any. -/
theorem exists_sizeUnit {unitS : Bytes} {unit : UInt64} (h : unitSize unitS = some unit) :
    ∃ u : SizeUnit, u.text = unitS := by
  set isDigit : UInt8 → Bool := fun c => 48 ≤ c && c ≤ 57 with hdigit
  have hsplit : unitS.takeWhile isDigit ++ suffixOf unitS = unitS := List.takeWhile_append_dropWhile
  have hnumber : IsNumber 10 (unitS.takeWhile isDigit) := fun c hc => by
    rw [← isDigit_eq]
    exact List.mem_takeWhile_imp (p := isDigit) hc
  have hrest : NoDigit 10 (suffixOf unitS) := by
    intro c hc
    have hhead := List.head?_dropWhile_not isDigit unitS
    rw [show unitS.dropWhile isDigit = suffixOf unitS from rfl, Option.mem_def.mp hc] at hhead
    rw [hdigit] at hhead
    simp only [isDigit_eq] at hhead
    exact Option.not_isSome_iff_eq_none.mp (by rw [hhead]; exact Bool.false_ne_true)
  have hne_zero : unitS.takeWhile isDigit ≠ [] →
      (readDigits 10 0 (unitS.takeWhile isDigit)).1 ≠ 0 := by
    intro hne hzero
    have hread := strtoul_of_number hnumber hne hrest
    rw [hsplit, hzero] at hread
    rw [unitSize, coefficient, hread] at h
    exact absurd h (by simp)
  rw [unitSize] at h
  dsimp only at h
  split_ifs at h with _ hnil
  · refine ⟨⟨_, hnumber, hne_zero, none⟩, ?_⟩
    rw [SizeUnit.text, SizeUnit.suffixText]
    rwa [hnil] at hsplit
  · obtain ⟨⟨first, multiplier⟩, hsuffix, hscale⟩ := Option.bind_eq_some_iff.mp h
    have hfirst : first ∈ SIZE := by
      by_contra hnot
      rw [scale_of_notMem hnot] at hscale
      cases hscale
    have hkind : ∃ kind : Kind, suffixOf unitS = first :: kind.tail := by
      revert hsuffix
      rcases suffixOf unitS with _ | ⟨c, _ | ⟨b, _ | ⟨b', _ | ⟨b'', rest⟩⟩⟩⟩ <;>
        intro hsuffix <;> simp only [suffixMultiplier] at hsuffix
      · cases hsuffix
      · obtain rfl : c = first := congrArg Prod.fst (Option.some.inj hsuffix)
        exact ⟨.single, rfl⟩
      · split_ifs at hsuffix with hb
        obtain rfl : c = first := congrArg Prod.fst (Option.some.inj hsuffix)
        exact ⟨.decimal, by rw [hb]; rfl⟩
      · split_ifs at hsuffix with hb
        obtain rfl : c = first := congrArg Prod.fst (Option.some.inj hsuffix)
        exact ⟨.binary, by rw [hb.1, hb.2]; rfl⟩
      · cases hsuffix
    obtain ⟨kind, hkind⟩ := hkind
    refine ⟨⟨_, hnumber, hne_zero, some (⟨first, hfirst⟩, kind)⟩, ?_⟩
    rw [SizeUnit.text, SizeUnit.suffixText]
    rwa [hkind] at hsplit

end Texts

section Main

/-- Rounding up adds one block for a remainder. -/
theorem div_add_eq_ceilDiv (size : ℕ) {unit : ℕ} (h : 0 < unit) :
    size / unit + (if size % unit = 0 then 0 else 1) = size ⌈/⌉ unit := by
  have hsize := Nat.div_add_mod size unit
  have hlt := Nat.mod_lt size h
  rw [Nat.ceilDiv_eq_add_pred_div]
  split_ifs with hmod
  · have hsum : size + unit - 1 = unit * (size / unit) + (unit - 1) := by omega
    rw [hsum, Nat.mul_add_div h, Nat.div_eq_of_lt (by omega : unit - 1 < unit)]
  · have hsum : size + unit - 1 = unit * (size / unit) + (size % unit - 1 + unit) := by omega
    rw [hsum, Nat.mul_add_div h, Nat.add_div_right _ h,
      Nat.div_eq_of_lt (by omega : size % unit - 1 < unit)]

/-- One block is enough if the unit is not smaller than the size. -/
theorem ceilDiv_of_le {size unit : ℕ} (h : 0 < size) (hle : size ≤ unit) : size ⌈/⌉ unit = 1 := by
  have hsum : size + unit - 1 = size - 1 + unit := by omega
  rw [Nat.ceilDiv_eq_add_pred_div, hsum, Nat.add_div_right _ (by omega),
    Nat.div_eq_of_lt (by omega : size - 1 < unit)]

theorem ceilDiv_le (size : ℕ) {unit : ℕ} (h : 0 < unit) : size ⌈/⌉ unit ≤ size := by
  rw [ceilDiv_le_iff_le_mul h]
  exact Nat.le_mul_of_pos_left size h

variable {sizeS unitS : Bytes} (u : SizeUnit)

namespace SizeUnit

theorem factor_none (h : u.suffix = none) : u.factor = 1 := by rw [factor, h]

theorem factor_some {c : {c : UInt8 // c ∈ SIZE}} {kind : Kind} (h : u.suffix = some (c, kind)) :
    u.factor = kind.base ^ (SIZE.idxOf c.1 + 1) := by rw [factor, h]

theorem base_ge (kind : Kind) : 1000 ≤ kind.base := by cases kind <;> decide

theorem factor_ge {c : {c : UInt8 // c ∈ SIZE}} {kind : Kind} (h : u.suffix = some (c, kind)) :
    1000 ≤ u.factor := by
  rw [u.factor_some h]
  exact (base_ge kind).trans (Nat.le_self_pow (Nat.succ_ne_zero _) _)

theorem factor_pos : 0 < u.factor := by
  rcases h : u.suffix with _ | ⟨c, kind⟩
  · rw [u.factor_none h]
    exact Nat.one_pos
  · exact Nat.lt_of_lt_of_le (by norm_num) (u.factor_ge h)

theorem value_pos : 0 < u.value := Nat.mul_pos u.countValue_pos u.factor_pos

/-- With a suffix, no product wraps around just if the value fits. -/
theorem products_iff {c : {c : UInt8 // c ∈ SIZE}} {kind : Kind} (h : u.suffix = some (c, kind)) :
    (∀ p ∈ unitProducts u.text, p.1.toNat * p.2.toNat < 2 ^ 64) ↔ u.value < 2 ^ 64 := by
  have hbase := base_ge kind
  have hfactor := u.factor_ge h
  rw [u.unitProducts_some h, products_lt_iff (by rw [toNat_base]; omega) c.2, toNat_base,
    u.toNat_coefficient, ← u.factor_some h, value]
  by_cases hcount : u.countValue < 2 ^ 64
  · rw [Nat.min_eq_left (by omega)]
  · refine iff_of_false (fun hlt => ?_) fun hlt => ?_
    · rw [Nat.min_eq_right (by omega)] at hlt
      have := Nat.mul_le_mul_left (2 ^ 64 - 1) hfactor
      omega
    · exact hcount (Nat.lt_of_le_of_lt (Nat.le_mul_of_pos_right _ u.factor_pos) hlt)

/-- The divisor is the value if that fits, and the largest number if it does not. -/
theorem unitSize_eq (h : u.suffix = none ∨ u.value < 2 ^ 64) :
    unitSize u.text = some (UInt64.ofNat (min u.value (2 ^ 64 - 1))) := by
  rcases hsuffix : u.suffix with _ | ⟨c, kind⟩
  · rw [u.unitSize_none hsuffix, u.coefficient_snd, value, u.factor_none hsuffix, Nat.mul_one]
  · have hlt : u.value < 2 ^ 64 := h.resolve_left (by rw [hsuffix]; exact Option.some_ne_none _)
    have hbase := base_ge kind
    have hcount : u.countValue < 2 ^ 64 :=
      Nat.lt_of_le_of_lt (Nat.le_mul_of_pos_right _ u.factor_pos) hlt
    have hvalue : u.value = u.countValue * kind.base ^ (SIZE.idxOf c.1 + 1) := by
      rw [value, u.factor_some hsuffix]
    have hcoefficient : (coefficient u.text).2.toNat = u.countValue := by
      rw [u.toNat_coefficient, Nat.min_eq_left (by omega)]
    rw [u.unitSize_some hsuffix, scale_of_lt c.2 (by rwa [hcoefficient, toNat_base, ← hvalue])
      (by rw [toNat_base]; omega), hcoefficient, toNat_base, ← hvalue, Nat.min_eq_left (by omega)]

theorem toNat_divisor : (UInt64.ofNat (min u.value (2 ^ 64 - 1))).toNat =
    min u.value (2 ^ 64 - 1) := by
  rw [UInt64.toNat_ofNat']
  exact Nat.mod_eq_of_lt (by omega)

/-- A count that is too large counts as the largest number, which is as large as any size. -/
theorem ceilDiv_divisor {size : ℕ} (h : size < 2 ^ 64) :
    size ⌈/⌉ min u.value (2 ^ 64 - 1) = size ⌈/⌉ u.value := by
  by_cases hlt : u.value < 2 ^ 64
  · rw [Nat.min_eq_left (by omega)]
  · rw [Nat.min_eq_right (by omega)]
    rcases Nat.eq_zero_or_pos size with rfl | hpos
    · rw [zero_ceilDiv, zero_ceilDiv]
    · rw [ceilDiv_of_le hpos (by omega), ceilDiv_of_le hpos (by omega)]

theorem printed_eq : (if (coefficient u.text).1 = 0 then suffixOf u.text else []) =
    if u.count = [] then u.suffixText else [] := by
  by_cases h : u.count = []
  · rw [u.coefficient_of_nil h, u.suffixOf_text, if_pos h]
    rcases hsuffix : u.suffix with _ | ⟨c, kind⟩
    · rw [u.suffixText_none hsuffix, ite_self]
    · rw [if_neg (Option.some_ne_none _), if_pos rfl]
  · rw [u.coefficient_of_count h, if_neg h]
    rfl

/-- The buffer is large enough. -/
theorem length_lt {size : ℕ} (h : size < 2 ^ 64) :
    (numeral 10 (size ⌈/⌉ u.value) ++ if u.count = [] then u.suffixText else []).length <
      20 + 2 + 1 := by
  rw [List.length_append]
  by_cases hcount : u.count = [] ∧ u.suffix ≠ none
  · obtain ⟨⟨c, kind⟩, hsuffix⟩ := Option.ne_none_iff_exists'.mp hcount.2
    have hvalue : 1000 ≤ u.value := by
      rw [value]
      exact (u.factor_ge hsuffix).trans (Nat.le_mul_of_pos_left _ u.countValue_pos)
    have hdigits : (numeral 10 (size ⌈/⌉ u.value)).length ≤ 18 := by
      rw [length_numeral_le_iff (by omega) (by omega)]
      refine Nat.lt_of_le_of_lt (m := 10 ^ 17) ?_ (by norm_num)
      rw [ceilDiv_le_iff_le_mul u.value_pos]
      calc size ≤ 1000 * 10 ^ 17 := by omega
        _ ≤ u.value * 10 ^ 17 := Nat.mul_le_mul_right _ hvalue
    have htail : u.suffixText.length ≤ 3 := by
      rw [u.suffixText_some hsuffix]
      cases kind <;> simp [Kind.tail]
    rw [if_pos hcount.1]
    omega
  · have hprinted : (if u.count = [] then u.suffixText else []) = [] := by
      split_ifs with hnil
      · have hnone : u.suffix = none := by
          by_contra hne
          exact hcount ⟨hnil, hne⟩
        exact u.suffixText_none hnone
      · rfl
    have hdigits : (numeral 10 (size ⌈/⌉ u.value)).length ≤ 20 := by
      rw [length_numeral_le_iff (by omega) (by omega)]
      exact Nat.lt_of_le_of_lt (ceilDiv_le size u.value_pos) (by omega)
    rw [hprinted, List.length_nil]
    omega

end SizeUnit

theorem exact_of_fits (hnumber : IsNumber 10 sizeS) (hne : sizeS ≠ [])
    (hsize : (readDigits 10 0 sizeS).1 < 2 ^ 64) (h : u.suffix = none ∨ u.value < 2 ^ 64) :
    Exact sizeS u := by
  set size := (readDigits 10 0 sizeS).1 with hdef
  have hread : strtoul sizeS = some size := by
    have := strtoul_of_number hnumber hne (noDigit_nil 10)
    rw [List.append_nil, ← hdef, Nat.min_eq_left (by omega)] at this
    exact this
  set unit := UInt64.ofNat (min u.value (2 ^ 64 - 1)) with hunit
  have hsizeof : unitSize u.text = some unit := u.unitSize_eq h
  have hdivisor : unit.toNat = min u.value (2 ^ 64 - 1) := u.toNat_divisor
  have hpos : 0 < unit.toNat := by
    have := u.value_pos
    omega
  have hne_zero : unit ≠ 0 := by
    intro hzero
    rw [hzero] at hpos
    exact absurd hpos (by decide)
  have hblocks : size / unit.toNat + (if size % unit.toNat = 0 then 0 else 1) =
      size ⌈/⌉ u.value := by
    rw [div_add_eq_ceilDiv size hpos, hdivisor, u.ceilDiv_divisor hsize]
  have hceil : size ⌈/⌉ u.value < 2 ^ 64 := (ceilDiv_le size u.value_pos).trans_lt hsize
  refine ⟨?_, ?_, ?_, ?_⟩
  · have htoNat : (UInt64.ofNat size / unit +
        if UInt64.ofNat size % unit = 0 then 0 else 1).toNat = size ⌈/⌉ u.value := by
      have hofNat : (UInt64.ofNat size).toNat = size := UInt64.toNat_ofNat_of_lt' hsize
      have hmod : UInt64.ofNat size % unit = 0 ↔ size % unit.toNat = 0 := by
        rw [← UInt64.toNat_inj, UInt64.toNat_mod, hofNat]
        rfl
      rw [UInt64.toNat_add, UInt64.toNat_div, hofNat, ← hblocks]
      simp only [hmod]
      split_ifs with hzero
      · exact Nat.mod_eq_of_lt (by rw [if_pos hzero] at hblocks; change _ + 0 < _; omega)
      · exact Nat.mod_eq_of_lt (by rw [if_neg hzero] at hblocks; change _ + 1 < _; omega)
    simp only [blocksize, hread, hsizeof, if_neg hne_zero, htoNat, u.printed_eq,
      if_pos (u.length_lt hsize)]
    rfl
  · rcases hsuffix : u.suffix with _ | ⟨c, kind⟩
    · rw [u.unitProducts_none hsuffix]
      exact fun p hp => absurd hp List.not_mem_nil
    · refine (u.products_iff hsuffix).mpr (h.resolve_left ?_)
      rw [hsuffix]
      exact Option.some_ne_none _
  · rw [hsizeof]
    exact fun hzero => hne_zero (Option.some.inj hzero)
  · intro d hd
    obtain rfl : unit = d := Option.some.inj (hsizeof.symm.trans hd)
    rw [hblocks]
    exact hceil

/-- Exactly the texts of units are accepted, and for a decimal size the result is exact just if the
unit has no suffix or its value fits into 64 bits. -/
theorem blocksize_exact_iff (hnumber : IsNumber 10 sizeS) (hne : sizeS ≠ [])
    (hsize : (readDigits 10 0 sizeS).1 < 2 ^ 64) :
    (blocksize sizeS unitS ≠ .error .badUnit → ∃ u : SizeUnit, u.text = unitS) ∧
      ∀ u : SizeUnit, blocksize sizeS u.text ≠ .error .badUnit ∧
        (Exact sizeS u ↔ u.suffix = none ∨ u.value < 2 ^ 64) := by
  have hread := strtoul_of_number hnumber hne (noDigit_nil 10)
  rw [List.append_nil] at hread
  refine ⟨fun haccepted => ?_, fun u => ⟨?_, fun h => ?_, exact_of_fits u hnumber hne hsize⟩⟩
  · cases hunit : unitSize unitS with
    | none => exact absurd (by simp only [blocksize, hread, hunit]) haccepted
    | some unit => exact exists_sizeUnit hunit
  · obtain ⟨unit, hunit⟩ : ∃ unit, unitSize u.text = some unit := by
      rcases hsuffix : u.suffix with _ | ⟨c, kind⟩
      · exact ⟨_, u.unitSize_none hsuffix⟩
      · rw [u.unitSize_some hsuffix]
        exact exists_scale c.2
    simp only [blocksize, hread, hunit]
    split_ifs <;> simp
  · rcases hsuffix : u.suffix with _ | ⟨c, kind⟩
    · exact .inl rfl
    · exact .inr ((u.products_iff hsuffix).mp h.products)

theorem isNumber_of_all {cs : Bytes} (h : (cs.all fun c => (digitIn 10 c).isSome) = true) :
    IsNumber 10 cs :=
  List.all_eq_true.mp h

/-- `512M` of 2 to the 40 bytes. -/
theorem blocksize_exact_512M :
    Exact (numeral 10 (2 ^ 40))
      ⟨[53, 49, 50], isNumber_of_all (by decide), by decide, some (⟨77, by decide⟩, .single)⟩ := by
  have hnumber := isNumber_numeral (by omega) (by omega : 10 ≤ 16) (2 ^ 40)
  have hread := readDigits_numeral (by omega) (by omega : 10 ≤ 16) (2 ^ 40)
  have hsize : (readDigits 10 0 (numeral 10 (2 ^ 40))).1 < 2 ^ 64 := by
    rw [hread]
    norm_num
  obtain ⟨-, hexact⟩ := @blocksize_exact_iff _ [] hnumber (numeral_ne_nil _ _) hsize
  refine (hexact _).2.mpr (.inr ?_)
  decide

/-- The unit `16E` is 2 to the 64, and the division is one by zero. -/
theorem not_exact_16E :
    ¬ ∀ (sizeS : Bytes), IsNumber 10 sizeS → sizeS ≠ [] → (readDigits 10 0 sizeS).1 < 2 ^ 64 →
      ∀ u : SizeUnit, blocksize sizeS u.text ≠ .error .badUnit → Exact sizeS u := by
  intro h
  have hexact := h [49] (isNumber_of_all (by decide)) (by decide) (by decide)
    ⟨[49, 54], isNumber_of_all (by decide), by decide, some (⟨69, by decide⟩, .single)⟩ (by decide)
  exact hexact.divisor (by decide)

end Main

end Gufi.Blocksize
