import Gufi.CategoryCombine
import Gufi.HistogramPieces

/-!
# Parsing category histograms

The name of a category is printed as it is, with its length before it, but `category_hist_parse`
does not use the length: a name ends at its first colon. The text is cut off after 511 bytes.
-/

namespace Gufi.CategoryHist

open Stdio UserTrie
open Trace (cString)
open Histogram (Serialized serializeBucket DEFAULT_HIST_ALLOC sizeField charAt Printed)

section Scan

variable {cs name more : Bytes} {c : UInt8} {count len k total n : ℕ} {x : UInt64}

/-- `%n` is reached behind the byte that must follow. -/
theorem sscanf_read {nums : List ℕ} {read : ℕ}
    (h : sscanf [.unsigned 10 none, .byte c] 0 cs = (nums, some read)) :
    ∃ front, cs = front ++ c :: cs.drop read ∧ read = front.length + 1 := by
  rw [sscanf] at h
  cases hscan : scanUnsigned 10 none cs with
  | none =>
      rw [hscan] at h
      cases (Prod.mk.inj h).2
  | some r =>
      obtain ⟨value, digits⟩ := r
      rw [hscan] at h
      simp only at h
      cases hdrop : cs.drop digits with
      | nil =>
          rw [hdrop, sscanf] at h
          cases (Prod.mk.inj h).2
      | cons c' rest =>
          rw [hdrop, sscanf] at h
          by_cases hc : c' = c
          · have hlt : digits < cs.length := by
              by_contra hge
              rw [List.drop_eq_nil_of_le (Nat.le_of_not_lt hge)] at hdrop
              cases hdrop
            rw [if_pos hc, sscanf] at h
            obtain rfl : 0 + digits + 1 = read := Option.some.inj (Prod.mk.inj h).2
            refine ⟨cs.take digits, ?_, by rw [List.length_take_of_le hlt.le, Nat.zero_add]⟩
            have hrest : cs.drop (0 + digits + 1) = rest := by
              rw [Nat.zero_add, ← List.drop_drop, hdrop, List.drop_one, List.tail_cons]
            rw [hrest, ← hc, ← hdrop, List.take_append_drop]
          · rw [if_neg hc] at h
            cases (Prod.mk.inj h).2

/-- A colon follows the length, unless the byte before is one. -/
theorem colon_of_parse {beyond : ℕ → UInt8} {str : Bytes} {hist : List CategoryBucket}
    (h : parseCategories beyond str (n + 1) total = some hist)
    (hbefore : charAt beyond str (total - 1) ≠ 58) :
    ∃ front after count, str.drop total = front ++ 58 :: after ∧
      (scanCategory after).2.1 = [count] := by
  rw [parseCategories] at h
  simp only at h
  cases hfirst : sscanf [.unsigned 10 none, .byte 58] 0 (str.drop total) with
  | mk nums read =>
      rw [hfirst] at h
      simp only at h
      split at h
      · rename_i len
        split at h
        · exact nomatch h
        · rename_i hcolon
          cases read with
          | none => exact absurd (not_not.mp hcolon) hbefore
          | some read =>
              obtain ⟨front, hsplit, rfl⟩ := sscanf_read hfirst
              rw [List.drop_drop] at hsplit
              simp only [Option.getD_some] at h
              split at h
              · rename_i count hname hcount
                exact ⟨front, _, count, hsplit, hcount⟩
              · exact nomatch h
      · exact nomatch h

theorem charAt_of_getElem? {beyond : ℕ → UInt8} {str : Bytes} {i : ℕ} (h : str[i]? = some c) :
    charAt beyond str i = c := by
  rw [charAt, if_pos (List.getElem?_eq_some_iff.mp h).1, List.getD_eq_getElem?_getD, h,
    Option.getD_some]

/-- A bucket whose length is there. -/
theorem parseCategories_length_iff {beyond : ℕ → UInt8} {str : Bytes}
    {hist : List CategoryBucket} (hlen : len < 2 ^ 64)
    (hdrop : str.drop total = numeral 10 len ++ 58 :: more) :
    parseCategories beyond str (n + 1) total = some hist ↔
      ∃ name count read tail, scanCategory more = (some name, [count], read) ∧
        charAt beyond str (total + ((numeral 10 len).length + 1) +
          read.getD ((numeral 10 len).length + 1) - 1) = 59 ∧
        name.length ≤ len ∧
        parseCategories beyond str n (total + ((numeral 10 len).length + 1) +
          read.getD ((numeral 10 len).length + 1)) = some tail ∧
        hist = ⟨name, len, UInt64.ofNat count⟩ :: tail := by
  have hmore : str.drop (total + ((numeral 10 len).length + 1)) = more := by
    rw [← List.drop_drop, hdrop, ← List.drop_drop, List.drop_left, List.drop_one, List.tail_cons]
  have hcolon : charAt beyond str (total + ((numeral 10 len).length + 1) - 1) = 58 := by
    have hget : str[total + (numeral 10 len).length]? = some 58 := by
      rw [← List.getElem?_drop, hdrop, List.getElem?_append_right le_rfl, Nat.sub_self]
      rfl
    rw [← Nat.add_assoc, Nat.add_sub_cancel, charAt_of_getElem? hget]
  rw [parseCategories, hdrop, sscanf_numeral hlen (by decide)]
  simp only [sscanf, Nat.zero_add, Option.getD_some, hcolon, ne_eq, not_true_eq_false, if_false,
    hmore]
  constructor
  · intro h
    split at h
    · rename_i name count hname hcount
      split at h
      · cases h
      · rename_i hsemi
        split at h
        · cases h
        · rename_i hfits
          obtain ⟨tail, htail, rfl⟩ := Option.map_eq_some_iff.mp h
          exact ⟨name, count, _, tail, Prod.ext hname (Prod.ext hcount rfl), not_not.mp hsemi,
            Nat.not_lt.mp hfits, htail, rfl⟩
    · cases h
  · rintro ⟨name, count, read, tail, hscan, hsemi, hfits, htail, rfl⟩
    simp only [hscan, hsemi, not_true_eq_false, if_false, Nat.not_lt.mpr hfits, htail,
      Option.map_some]

theorem scanCategory_of_takeWhile (hname : cs.takeWhile (· ≠ 58) = name) (hne : name ≠ []) :
    scanCategory cs = (some name, sscanf [.byte 58, .unsigned 10 none, .byte 59] name.length
      (cs.drop name.length)) := by
  rw [scanCategory]
  simp only [hname, if_neg hne]

theorem takeWhile_name (hcolon : 58 ∉ name) :
    (name ++ 58 :: more).takeWhile (· ≠ 58) = name := by
  have hname : ∀ c ∈ name, decide (c ≠ 58) = true := by
    intro c hc
    rw [decide_eq_true_iff]
    rintro rfl
    exact hcolon hc
  rw [List.takeWhile_append_of_pos hname]
  simp

/-- A whole bucket behind its length. -/
theorem scanCategory_whole (hne : name ≠ []) (hcolon : 58 ∉ name) :
    scanCategory (name ++ 58 :: (sizeField x ++ more)) =
      (some name, [x.toNat], some (name.length + 1 + (sizeField x).length)) := by
  rw [scanCategory_of_takeWhile (takeWhile_name hcolon) hne, List.drop_left, sscanf_byte,
    Histogram.sscanf_sizeField, sscanf]

/-- A bucket without its semicolon. -/
theorem scanCategory_digits (hne : name ≠ []) (hcolon : 58 ∉ name) {digits : Bytes}
    (hdigits : IsNumber 10 digits) (hdigits' : digits ≠ [])
    (hlt : (readDigits 10 0 digits).1 < 2 ^ 64) :
    scanCategory (name ++ 58 :: digits) = (some name, [(readDigits 10 0 digits).1], none) := by
  have hrest : NoDigit 10 [] := fun c hc => nomatch hc
  have hscan := @sscanf_unsigned 10 none digits [.byte 59] (name.length + 1) hdigits hdigits' []
    (Or.inr ⟨rfl, hrest⟩) hlt
  rw [List.append_nil] at hscan
  rw [scanCategory_of_takeWhile (takeWhile_name hcolon) hne, List.drop_left, sscanf_byte, hscan,
    sscanf]

/-- A number that is cut off is smaller. -/
theorem readDigits_take_numeral {m j : ℕ} (hpos : 0 < j) (hj : j ≤ (numeral 10 m).length) :
    (readDigits 10 0 ((numeral 10 m).take j)).1 ≤ m ∧
      ((readDigits 10 0 ((numeral 10 m).take j)).1 = m → j = (numeral 10 m).length) := by
  rcases hj.lt_or_eq with hlt | rfl
  · have hpow : 10 ^ j ≤ m := by
      by_contra hsmall
      have hle := (length_numeral_le_iff (by omega) hpos).mpr (Nat.not_le.mp hsmall)
      omega
    have hvalue := readDigits_lt (show 0 < 10 by omega) 0 ((numeral 10 m).take j)
    rw [List.length_take_of_le hj] at hvalue
    omega
  · rw [List.take_length, readDigits_numeral (by omega) (by omega)]
    exact ⟨le_rfl, fun _ => rfl⟩

/-- What is read of a bucket that may be cut off, if its name has the right length. -/
theorem scanCategory_take {name' : Bytes} {read : Option ℕ}
    (h : scanCategory ((name ++ 58 :: (sizeField x ++ more)).take k) = (some name', [count], read))
    (hlength : name'.length = name.length) :
    name' = name ∧ name ≠ [] ∧ 58 ∉ name ∧
      (name.length + 1 + (sizeField x).length ≤ k ∨
        ∃ j, k = name.length + 1 + j ∧ 0 < j ∧ j ≤ (numeral 10 x.toNat).length ∧ read = none ∧
          count = (readDigits 10 0 ((numeral 10 x.toNat).take j)).1) := by
  have hname : ((name ++ 58 :: (sizeField x ++ more)).take k).takeWhile (· ≠ 58) = name' ∧
      name' ≠ [] := by
    rw [scanCategory] at h
    split at h
    · cases (Prod.mk.inj h).1
    · rename_i hne
      have heq := Option.some.inj (Prod.mk.inj h).1
      exact ⟨heq, heq ▸ hne⟩
  obtain ⟨htake, hne⟩ := hname
  have hstart : name' <+: name ++ 58 :: (sizeField x ++ more) := by
    rw [← htake]
    exact (List.takeWhile_prefix _).trans (List.take_prefix _ _)
  obtain rfl : name' = name := by
    rw [List.prefix_iff_eq_take.mp hstart, hlength, List.take_left]
  have hcolon : 58 ∉ name' := by
    rw [← htake]
    intro hmem
    exact absurd (List.mem_takeWhile_imp hmem) (by decide)
  refine ⟨rfl, hne, hcolon, ?_⟩
  have hk : name'.length ≤ k := by
    have hle := (List.takeWhile_prefix (p := (· ≠ 58))
      (l := (name' ++ 58 :: (sizeField x ++ more)).take k)).length_le
    rw [htake, List.length_take] at hle
    omega
  obtain ⟨i, rfl⟩ := Nat.exists_eq_add_of_le hk
  rw [List.take_length_add_append] at h htake
  rw [scanCategory_of_takeWhile htake hne, List.drop_left] at h
  cases i with
  | zero =>
      rw [List.take_zero, sscanf] at h
      cases (Prod.mk.inj (Prod.mk.inj h).2).1
  | succ j =>
      rw [List.take_succ_cons, sscanf_byte] at h
      rcases lt_or_ge (numeral 10 x.toNat).length j with hall | hcut
      · left
        rw [sizeField, List.length_append, List.length_singleton]
        omega
      · right
        rw [sizeField, List.append_assoc, List.take_append_of_le_length hcut] at h
        have hdigits := (isNumber_numeral (by omega) (by omega : 10 ≤ 16) x.toNat).take j
        have hpos : 0 < j := by
          by_contra hzero
          obtain rfl : j = 0 := by omega
          rw [List.take_zero] at h
          cases (Prod.mk.inj (Prod.mk.inj h).2).1
        have hne' : (numeral 10 x.toNat).take j ≠ [] := by
          intro hnil
          have hzero := congrArg List.length hnil
          rw [List.length_take_of_le hcut, List.length_nil] at hzero
          omega
        have hlt := (readDigits_take_numeral hpos hcut).1.trans_lt x.toNat_lt
        have hscan := scanCategory_digits hne hcolon hdigits hne' hlt
        rw [scanCategory_of_takeWhile (takeWhile_name hcolon) hne, List.drop_left, sscanf_byte]
          at hscan
        rw [hscan] at h
        obtain ⟨hcount, hread⟩ := Prod.mk.inj (Prod.mk.inj h).2
        exact ⟨j, by omega, hpos, hcut, hread.symm, (List.singleton_inj.mp hcount).symm⟩

end Scan

section Text

/-- The categories as they are printed. -/
def catsText (cats : List (Bytes × UInt64)) : Bytes := cats.flatMap fun c => categoryText c.1 c.2

/-- The text of a histogram before it is cut off. -/
def histText (cats : List (Bytes × UInt64)) : Bytes :=
  numeral 10 cats.length ++ 59 :: catsText cats

/-- No name is empty or has a colon, and the text is not cut off. It may lose its last semicolon if
the byte that is looked at in its place, in the name of the last category, is one. -/
structure Readable (cats : List (Bytes × UInt64)) : Prop where
  names : ∀ c ∈ cats, c.1 ≠ [] ∧ 58 ∉ c.1
  fits : (histText cats).length < DEFAULT_HIST_ALLOC ∨
    (histText cats).length = DEFAULT_HIST_ALLOC ∧
      ∃ c ∈ cats.getLast?, c.1[(numeral 10 c.1.length).length]? = some 59

variable {beyond : ℕ → UInt8} {cats : List (Bytes × UInt64)} {c : Bytes × UInt64}
  {start more : Bytes} {n m : ℕ}

theorem catsText_cons (c : Bytes × UInt64) (cats : List (Bytes × UInt64)) :
    catsText (c :: cats) =
      numeral 10 c.1.length ++ 58 :: (c.1 ++ 58 :: (sizeField c.2 ++ catsText cats)) := by
  simp only [catsText, List.flatMap_cons, categoryText, List.append_assoc, List.cons_append]

/-- A whole bucket is read to its end. -/
theorem parseCategories_whole (hne : c.1 ≠ []) (hcolon : 58 ∉ c.1) (hlen : c.1.length < 2 ^ 64) :
    parseCategories beyond (start ++ (categoryText c.1 c.2 ++ more)) (n + 1) start.length =
      (parseCategories beyond (start ++ (categoryText c.1 c.2 ++ more)) n
        (start.length + (categoryText c.1 c.2).length)).map (⟨c.1, c.1.length, c.2⟩ :: ·) := by
  have hbytes : (categoryText c.1 c.2).length = (numeral 10 c.1.length).length + 1 +
      (c.1.length + 1 + (sizeField c.2).length) := by
    simp only [categoryText, List.length_append, List.length_cons]
    omega
  have hdrop : (start ++ (categoryText c.1 c.2 ++ more)).drop start.length =
      numeral 10 c.1.length ++ 58 :: (c.1 ++ 58 :: (sizeField c.2 ++ more)) := by
    rw [List.drop_left, categoryText]
    simp only [List.append_assoc, List.cons_append]
  have hlast : charAt beyond (start ++ (categoryText c.1 c.2 ++ more))
      (start.length + (categoryText c.1 c.2).length - 1) = 59 := by
    have hsplit : start ++ (categoryText c.1 c.2 ++ more) = (start ++ (numeral 10 c.1.length ++
        58 :: (c.1 ++ 58 :: numeral 10 c.2.toNat))) ++ 59 :: more := by
      simp only [categoryText, sizeField, List.append_assoc, List.cons_append, List.nil_append]
    have hindex : start.length + (categoryText c.1 c.2).length - 1 = (start ++
        (numeral 10 c.1.length ++ 58 :: (c.1 ++ 58 :: numeral 10 c.2.toNat))).length := by
      simp only [categoryText, sizeField, List.length_append, List.length_cons, List.length_nil]
      omega
    rw [hsplit, hindex, Histogram.charAt_semicolon]
  rw [hbytes, ← Nat.add_assoc] at hlast ⊢
  apply Option.ext
  intro hist
  rw [parseCategories_length_iff hlen hdrop, scanCategory_whole hne hcolon, Option.map_eq_some_iff]
  constructor
  · rintro ⟨name, count, read, tail, hscan, -, -, htail, rfl⟩
    obtain ⟨hname, hrest⟩ := Prod.mk.inj hscan
    obtain ⟨hcount, hread⟩ := Prod.mk.inj hrest
    obtain rfl := Option.some.inj hname
    obtain rfl := List.singleton_inj.mp hcount
    rw [← hread, Option.getD_some] at htail
    exact ⟨tail, htail, by rw [UInt64.ofNat_toNat]⟩
  · rintro ⟨tail, htail, rfl⟩
    refine ⟨c.1, c.2.toNat, _, tail, rfl, ?_, le_rfl, ?_, by rw [UInt64.ofNat_toNat]⟩
    · exact hlast
    · exact htail

/-- Whole buckets are read one after another. -/
theorem parseCategories_append (hnames : ∀ c ∈ cats, c.1 ≠ [] ∧ 58 ∉ c.1)
    (hlen : ∀ c ∈ cats, c.1.length < 2 ^ 64) :
    parseCategories beyond (start ++ (catsText cats ++ more)) (cats.length + n) start.length =
      (parseCategories beyond (start ++ (catsText cats ++ more)) n
        (start.length + (catsText cats).length)).map (buckets cats ++ ·) := by
  induction cats generalizing start with
  | nil =>
      rw [List.length_nil, Nat.zero_add, catsText, List.flatMap_nil, List.length_nil, Nat.add_zero]
      exact Option.map_id'.symm
  | cons c cats ih =>
      obtain ⟨hc, hnames⟩ := List.forall_mem_cons.mp hnames
      obtain ⟨hclen, hlen⟩ := List.forall_mem_cons.mp hlen
      have hcons : catsText (c :: cats) = categoryText c.1 c.2 ++ catsText cats := rfl
      have hrest := @ih (start ++ categoryText c.1 c.2) hnames hlen
      rw [List.length_append, List.append_assoc] at hrest
      rw [hcons, List.append_assoc, List.length_cons, Nat.add_right_comm,
        parseCategories_whole hc.1 hc.2 hclen, hrest, List.length_append, ← Nat.add_assoc,
        Option.map_map]
      rfl

/-- A bucket that has lost only its semicolon. -/
theorem parseCategories_stale (hne : c.1 ≠ []) (hcolon : 58 ∉ c.1) (hlen : c.1.length < 2 ^ 64)
    (hsemi : c.1[(numeral 10 c.1.length).length]? = some 59) :
    parseCategories beyond (start ++ (numeral 10 c.1.length ++
      58 :: (c.1 ++ 58 :: numeral 10 c.2.toNat))) 1 start.length =
        some [⟨c.1, c.1.length, c.2⟩] := by
  have hread := readDigits_numeral (by omega) (by omega : 10 ≤ 16) c.2.toNat
  have hscan := scanCategory_digits hne hcolon (isNumber_numeral (by omega) (by omega) c.2.toNat)
    (numeral_ne_nil 10 _) (hread.trans_lt c.2.toNat_lt)
  rw [parseCategories_length_iff hlen List.drop_left]
  refine ⟨c.1, c.2.toNat, none, [], by rw [hscan, hread], ?_, le_rfl, rfl, by
    rw [UInt64.ofNat_toNat]⟩
  have hget : (start ++ (numeral 10 c.1.length ++ 58 :: (c.1 ++ 58 :: numeral 10 c.2.toNat)))[
      start.length + ((numeral 10 c.1.length).length + 1) + (numeral 10 c.1.length).length]? =
        some 59 := by
    rw [Nat.add_assoc, List.getElem?_append_right (by omega), Nat.add_sub_cancel_left,
      Nat.add_assoc, List.getElem?_append_right (by omega), Nat.add_sub_cancel_left,
      Nat.add_comm 1, List.getElem?_cons_succ,
      List.getElem?_append_left (List.getElem?_eq_some_iff.mp hsemi).1, hsemi]
  rw [Option.getD_none, ← Nat.add_assoc, Nat.add_sub_cancel, charAt_of_getElem? hget]

theorem getElem?_of_charAt {str : Bytes} {i : ℕ} {x : UInt8}
    (h : charAt (fun _ => 0) str i = x) (hx : x ≠ 0) : str[i]? = some x := by
  rw [charAt] at h
  split at h
  · rename_i hlt
    rw [← h, List.getD_eq_getElem?_getD, List.getElem?_eq_getElem hlt, Option.getD_some]
  · split at h <;> exact absurd h.symm hx

/-- A colon in the number of a cut bucket is behind its name, and no number follows. -/
theorem not_parse_of_stale {name : Bytes} {x : UInt64} {d : ℕ} {hist : List CategoryBucket}
    {str : Bytes} {total : ℕ} (hcolon : 58 ∉ name) (hd : d < name.length)
    (hdrop : str.drop total = (name ++ 58 :: numeral 10 x.toNat).drop (d + 1))
    (hbefore : charAt beyond str (total - 1) ≠ 58)
    (h : parseCategories beyond str (n + 1) total = some hist) : False := by
  obtain ⟨front, after, count, hsplit, hscan⟩ := colon_of_parse h hbefore
  have hdigits : (58 : UInt8) ∉ numeral 10 x.toNat := Histogram.notMem_numeral _ (by decide)
  rw [hdrop, List.drop_append_of_le_length (Nat.succ_le_of_lt hd)] at hsplit
  have hmem : (58 : UInt8) ∉ name.drop (d + 1) := fun h => hcolon (List.mem_of_mem_drop h)
  obtain ⟨-, -, rfl⟩ := (List.append_cons_inj_of_notMem hmem hdigits).mp hsplit
  have htake : (numeral 10 x.toNat).takeWhile (· ≠ 58) = numeral 10 x.toNat := by
    rw [List.takeWhile_eq_self_iff]
    intro c hc
    rw [decide_eq_true_iff]
    rintro rfl
    exact hdigits hc
  rw [scanCategory_of_takeWhile htake (numeral_ne_nil 10 _), List.drop_length] at hscan
  exact nomatch hscan

/-- The last bucket, if its text is cut off. -/
theorem cut_of_parse {str : Bytes} {tail : List CategoryBucket} (hcolon : 58 ∉ c.1)
    (hstr : str = start ++ (numeral 10 c.1.length ++
      58 :: (c.1 ++ 58 :: numeral 10 c.2.toNat)))
    (hlast : charAt (fun _ => 0) str (start.length + ((numeral 10 c.1.length).length + 1) +
      ((numeral 10 c.1.length).length + 1) - 1) = 59)
    (htail : parseCategories (fun _ => 0) str n (start.length +
      ((numeral 10 c.1.length).length + 1) + ((numeral 10 c.1.length).length + 1)) = some tail) :
    n = 0 ∧ c.1[(numeral 10 c.1.length).length]? = some 59 := by
  generalize hd : (numeral 10 c.1.length).length = d at *
  have hdigits : (59 : UInt8) ∉ numeral 10 c.2.toNat := Histogram.notMem_numeral _ (by decide)
  have hdrop : str.drop (start.length + (d + 1)) = c.1 ++ 58 :: numeral 10 c.2.toNat := by
    rw [hstr, ← List.drop_drop, List.drop_left, ← hd, ← List.drop_drop, List.drop_left,
      List.drop_one, List.tail_cons]
  have hget : (c.1 ++ 58 :: numeral 10 c.2.toNat)[d]? = some 59 := by
    rw [← hdrop, List.getElem?_drop]
    exact getElem?_of_charAt hlast (by decide)
  have hlt : d < c.1.length := by
    by_contra hge
    rw [List.getElem?_append_right (Nat.not_lt.mp hge)] at hget
    have hmem := List.mem_of_getElem? hget
    rw [List.mem_cons] at hmem
    exact hmem.elim (by decide) hdigits
  rw [List.getElem?_append_left hlt] at hget
  refine ⟨?_, hget⟩
  cases n with
  | zero => rfl
  | succ n =>
      refine (not_parse_of_stale (x := c.2) hcolon hlt ?_ ?_ htail).elim
      · rw [← hdrop, List.drop_drop]
      · rw [hlast]
        decide

/-- The colon behind the length has not been cut off. -/
theorem lt_of_parse {hist : List CategoryBucket}
    (h : parseCategories (fun _ => 0) (start ++ [59] ++ (catsText (c :: cats)).take m) (n + 1)
      (start ++ [59]).length = some hist) : (numeral 10 c.1.length).length < m := by
  by_contra hle
  have hbefore : charAt (fun _ => 0) (start ++ [59] ++ (catsText (c :: cats)).take m)
      ((start ++ [59]).length - 1) = 59 := by
    rw [List.append_assoc, List.length_append, List.length_singleton, Nat.add_sub_cancel]
    exact Histogram.charAt_semicolon _ _
  obtain ⟨front, after, count, hsplit, -⟩ := colon_of_parse h (by rw [hbefore]; decide)
  rw [List.drop_left, catsText_cons, List.take_append_of_le_length (Nat.not_lt.mp hle)] at hsplit
  have hmem : (58 : UInt8) ∈ (numeral 10 c.1.length).take m := by
    rw [hsplit]
    exact List.mem_append_right _ List.mem_cons_self
  exact Histogram.notMem_numeral _ (by decide) (List.mem_of_mem_take hmem)

/-- Behind a whole bucket, the rest is read as if it stood alone. -/
theorem rest_of_parse {hist : List CategoryBucket} (hne : c.1 ≠ []) (hcolon : 58 ∉ c.1)
    (hlen : c.1.length < 2 ^ 64)
    (h : parseCategories (fun _ => 0)
      (start ++ [59] ++ (catsText (c :: cats)).take ((categoryText c.1 c.2).length + m)) (n + 1)
      (start ++ [59]).length = some hist) : ∃ start' tail,
    hist = ⟨c.1, c.1.length, c.2⟩ :: tail ∧
      parseCategories (fun _ => 0) (start' ++ [59] ++ (catsText cats).take m) n
        (start' ++ [59]).length = some tail := by
  obtain ⟨body, htext⟩ : ∃ body, categoryText c.1 c.2 = body ++ [59] :=
    ⟨numeral 10 c.1.length ++ 58 :: (c.1 ++ 58 :: numeral 10 c.2.toNat), by
      simp only [categoryText, sizeField, List.append_assoc, List.cons_append]⟩
  have hcons : catsText (c :: cats) = categoryText c.1 c.2 ++ catsText cats := rfl
  rw [hcons, List.take_length_add_append, parseCategories_whole hne hcolon hlen] at h
  obtain ⟨tail, hrest, rfl⟩ := Option.map_eq_some_iff.mp h
  refine ⟨start ++ [59] ++ body, tail, rfl, ?_⟩
  rwa [List.append_assoc (start ++ [59]), ← htext, List.append_assoc (start ++ [59]),
    List.length_append]

/-- Of a bucket whose number is cut off in the text, no more than the semicolon is missing. -/
theorem semicolon_of_parse {j : ℕ} {tail : List CategoryBucket} (hcolon : 58 ∉ c.1)
    (hpos : 0 < j) (hj : j ≤ (numeral 10 c.2.toNat).length)
    (hcount : c.2 = UInt64.ofNat (readDigits 10 0 ((numeral 10 c.2.toNat).take j)).1)
    (hlast : charAt (fun _ => 0) (start ++ [59] ++ (catsText (c :: cats)).take
      ((numeral 10 c.1.length).length + (c.1.length + 1 + j) + 1))
        ((start ++ [59]).length + ((numeral 10 c.1.length).length + 1) +
          ((numeral 10 c.1.length).length + 1) - 1) = 59)
    (htail : parseCategories (fun _ => 0) (start ++ [59] ++ (catsText (c :: cats)).take
      ((numeral 10 c.1.length).length + (c.1.length + 1 + j) + 1)) cats.length
        ((start ++ [59]).length + ((numeral 10 c.1.length).length + 1) +
          ((numeral 10 c.1.length).length + 1)) = some tail) :
    cats = [] ∧ c.1[(numeral 10 c.1.length).length]? = some 59 ∧ (catsText [c]).length =
      (numeral 10 c.1.length).length + (c.1.length + 1 + j) + 1 + 1 := by
  -- the count is right only if it has all of its digits
  obtain ⟨hle, hall⟩ := readDigits_take_numeral hpos hj
  have hvalue := congrArg UInt64.toNat hcount
  rw [UInt64.toNat_ofNat_of_lt' (hle.trans_lt c.2.toNat_lt)] at hvalue
  obtain rfl := hall hvalue.symm
  have hwithout : (catsText (c :: cats)).take ((numeral 10 c.1.length).length +
      (c.1.length + 1 + (numeral 10 c.2.toNat).length) + 1) = numeral 10 c.1.length ++
        58 :: (c.1 ++ 58 :: numeral 10 c.2.toNat) := by
    rw [catsText_cons, Nat.add_assoc, List.take_length_add_append, List.take_succ_cons, sizeField,
      List.append_assoc, Nat.add_assoc c.1.length, List.take_length_add_append, Nat.add_comm 1,
      List.take_succ_cons, List.take_left]
  obtain ⟨hzero, hsemi⟩ := cut_of_parse hcolon (by rw [hwithout]) hlast htail
  refine ⟨List.length_eq_zero_iff.mp hzero, hsemi, ?_⟩
  have hnil : catsText [] = [] := rfl
  rw [catsText_cons, hnil]
  simp only [sizeField, List.length_append, List.length_cons, List.length_nil]
  omega

/-- If the buckets that are read are those of the categories, the names can be read and at most the
last semicolon is missing. -/
theorem readable_of_parse {hist : List CategoryBucket} (hnodup : (cats.map Prod.fst).Nodup)
    (hlen : ∀ c ∈ cats, c.1.length < 2 ^ 64)
    (h : parseCategories (fun _ => 0) (start ++ [59] ++ (catsText cats).take m) cats.length
      (start ++ [59]).length = some hist) (hperm : hist.Perm (buckets cats)) :
    (∀ c ∈ cats, c.1 ≠ [] ∧ 58 ∉ c.1) ∧ ((catsText cats).length ≤ m ∨
      (catsText cats).length = m + 1 ∧
        ∃ c ∈ cats.getLast?, c.1[(numeral 10 c.1.length).length]? = some 59) := by
  induction cats generalizing start m hist with
  | nil => exact ⟨fun c hc => absurd hc List.not_mem_nil, Or.inl (Nat.zero_le m)⟩
  | cons c cats ih =>
      obtain ⟨hclen, hlen'⟩ := List.forall_mem_cons.mp hlen
      obtain ⟨hc, hnodup'⟩ := List.nodup_cons.mp hnodup
      obtain ⟨k, rfl⟩ := Nat.exists_eq_add_of_lt (lt_of_parse h)
      have hcut : (catsText (c :: cats)).take ((numeral 10 c.1.length).length + k + 1) =
          numeral 10 c.1.length ++
            58 :: (c.1 ++ 58 :: (sizeField c.2 ++ catsText cats)).take k := by
        rw [catsText_cons, Nat.add_assoc, List.take_length_add_append, List.take_succ_cons]
      have hparse := h
      rw [List.length_cons, parseCategories_length_iff hclen (by rw [List.drop_left, hcut])]
        at hparse
      obtain ⟨name, count, read, tail, hscan, hlast, -, htail, rfl⟩ := hparse
      obtain ⟨p, hp, hbucket⟩ := List.mem_map.mp (hperm.mem_iff.mp List.mem_cons_self)
      obtain ⟨hname, hlength, hcount⟩ := CategoryBucket.mk.inj hbucket
      obtain ⟨rfl, hne, hcolon, hread⟩ := scanCategory_take hscan (by rw [← hname, hlength])
      obtain rfl : p = c := by
        rcases List.mem_cons.mp hp with rfl | hp
        · rfl
        · exact absurd (List.mem_map.mpr ⟨p, hp, hname⟩) hc
      rcases hread with hwhole | ⟨j, rfl, hpos, hj, rfl, rfl⟩
      · -- a whole bucket, and the others are as in the induction
        have hbytes : (categoryText p.1 p.2).length ≤ (numeral 10 p.1.length).length + k + 1 := by
          simp only [categoryText, List.length_append, List.length_cons]
          omega
        obtain ⟨m', hm'⟩ := Nat.exists_eq_add_of_le hbytes
        rw [hm', List.length_cons] at h
        obtain ⟨start', tail', hsame, hrest⟩ := rest_of_parse hne hcolon hclen h
        rw [hsame] at hperm
        obtain ⟨hgood, hfits⟩ := ih hnodup' hlen' hrest (List.perm_cons _ |>.mp hperm)
        refine ⟨List.forall_mem_cons.mpr ⟨⟨hne, hcolon⟩, hgood⟩, ?_⟩
        have hcons : catsText (p :: cats) = categoryText p.1 p.2 ++ catsText cats := rfl
        rw [hm', hcons, List.length_append]
        rcases hfits with hfits | ⟨hfits, q, hq, hsemi⟩
        · left
          omega
        · right
          refine ⟨by omega, q, ?_, hsemi⟩
          cases cats with
          | nil => exact nomatch hq
          | cons c' cats => rwa [List.getLast?_cons_cons]
      · obtain ⟨rfl, hsemi, hlength⟩ := semicolon_of_parse hcolon hpos hj hcount hlast htail
        exact ⟨List.forall_mem_singleton.mpr ⟨hne, hcolon⟩, Or.inr ⟨hlength, p, rfl, hsemi⟩⟩

/-- Buckets that can be read, of which the last one may have lost its semicolon. -/
theorem parse_of_readable (hnames : ∀ c ∈ cats, c.1 ≠ [] ∧ 58 ∉ c.1)
    (hlen : ∀ c ∈ cats, c.1.length < 2 ^ 64)
    (hfits : (catsText cats).length ≤ m ∨ (catsText cats).length = m + 1 ∧
      ∃ c ∈ cats.getLast?, c.1[(numeral 10 c.1.length).length]? = some 59) :
    parseCategories beyond (start ++ (catsText cats).take m) cats.length start.length =
      some (buckets cats) := by
  rcases hfits with hfits | ⟨hfits, c, hc, hsemi⟩
  · have hall : parseCategories beyond (start ++ (catsText cats ++ [])) (cats.length + 0)
        start.length = _ := parseCategories_append hnames hlen
    rw [List.append_nil, Nat.add_zero, parseCategories, Option.map_some, List.append_nil] at hall
    rw [List.take_of_length_le hfits, hall]
  · obtain ⟨init, rfl⟩ := List.getLast?_eq_some_iff.mp hc
    obtain ⟨hinit, hlast⟩ := List.forall_mem_append.mp hnames
    obtain ⟨hinitLen, hlastLen⟩ := List.forall_mem_append.mp hlen
    have hclen : c.1.length < 2 ^ 64 := hlastLen c List.mem_cons_self
    obtain ⟨hne, hcolon⟩ := List.forall_mem_singleton.mp hlast
    have htext : catsText (init ++ [c]) = catsText init ++
        (numeral 10 c.1.length ++ 58 :: (c.1 ++ 58 :: numeral 10 c.2.toNat)) ++ [59] := by
      simp only [catsText, List.flatMap_append, List.flatMap_singleton, categoryText, sizeField,
        List.append_assoc, List.cons_append]
    rw [htext, List.length_append, List.length_singleton] at hfits
    have hrun : parseCategories beyond (start ++ (catsText init ++ (numeral 10 c.1.length ++
        58 :: (c.1 ++ 58 :: numeral 10 c.2.toNat)))) (init.length + 1) start.length = _ :=
      parseCategories_append hinit hinitLen
    have hstale : parseCategories beyond (start ++ catsText init ++ (numeral 10 c.1.length ++
        58 :: (c.1 ++ 58 :: numeral 10 c.2.toNat))) 1 (start ++ catsText init).length = _ :=
      parseCategories_stale hne hcolon hclen hsemi
    rw [List.length_append, List.append_assoc] at hstale
    rw [htext, ← Nat.succ_inj.mp hfits, List.take_left, List.length_append, List.length_singleton,
      hrun, hstale, buckets, buckets, List.map_append]
    rfl

end Text

section RoundTrip

/-- The categories that were counted, and what is known of all of them. -/
structure Categories where
  acc : Accumulator
  table : List (Bytes × UInt64)
  holds : acc.Holds table
  noNul : ∀ c ∈ table, 0 ∉ c.1
  positive : ∀ c ∈ table, 0 < c.2
  size : ∀ c ∈ table, c.1.length < 2 ^ 64
  count : table.length < 2 ^ 64

/-- The categories in the order in which they are printed. -/
def Categories.printed (cats : Categories) (keep1 sort : Bool) : List (Bytes × UInt64) :=
  keep keep1 ((if sort then qsort cats.acc.categories strCmp else cats.acc.categories).map
    fun cat => (cat, SumTable.value cats.table cat))

/-- What is written is read back as the same categories with the same counts. -/
def RoundTrips (cats : Categories) (keep1 sort : Bool) : Prop :=
  ∀ beyond, ∃ text hist, categoryHistFinal cats.acc keep1 sort = some text ∧
    categoryHistParse beyond (cString text) = some hist ∧
    hist.Perm (buckets (keep keep1 cats.table))

variable (cats : Categories) {keep1 sort : Bool}

theorem Categories.printed_perm (keep1 sort : Bool) :
    (cats.printed keep1 sort).Perm (keep keep1 cats.table) := by
  apply List.Perm.filter
  have hsorted : (if sort then qsort cats.acc.categories strCmp else cats.acc.categories).Perm
      cats.acc.categories := by
    split
    · exact List.perm_insertionSort _ _
    · exact List.Perm.refl _
  refine (hsorted.map _).trans (List.Perm.of_eq ?_)
  rw [cats.holds.categories, List.map_map]
  conv_rhs => rw [← List.map_id cats.table]
  apply List.map_congr_left
  intro p hp
  rw [Function.comp_apply, SumTable.value_of_mem cats.holds.nodup hp, id]

theorem Categories.mem_of_mem_printed {c : Bytes × UInt64} (h : c ∈ cats.printed keep1 sort) :
    c ∈ cats.table :=
  (List.mem_filter.mp ((cats.printed_perm keep1 sort).mem_iff.mp h)).1

theorem Categories.length_printed : (cats.printed keep1 sort).length < 2 ^ 64 := by
  rw [(cats.printed_perm keep1 sort).length_eq]
  exact (List.length_filter_le _ _).trans_lt cats.count

theorem Categories.nodup_printed : ((cats.printed keep1 sort).map Prod.fst).Nodup := by
  rw [((cats.printed_perm keep1 sort).map Prod.fst).nodup_iff]
  exact cats.holds.nodup.sublist (List.filter_sublist.map _)

theorem zero_notMem_histText {ps : List (Bytes × UInt64)} (h : ∀ c ∈ ps, 0 ∉ c.1) :
    0 ∉ histText ps := by
  rw [histText, List.mem_append, List.mem_cons, catsText, List.mem_flatMap, not_or, not_or]
  refine ⟨Histogram.notMem_numeral _ (by decide), by decide, ?_⟩
  rintro ⟨c, hc, hmem⟩
  rw [categoryText, List.mem_append, List.mem_cons, List.mem_append, List.mem_cons] at hmem
  rcases hmem with hmem | hmem | hmem | hmem | hmem
  · exact Histogram.notMem_numeral _ (by decide) hmem
  · exact absurd hmem (by decide)
  · exact h c hc hmem
  · exact absurd hmem (by decide)
  · exact Histogram.zero_notMem_sizeField _ hmem

theorem printed_foldl {s : Serialized} {content : Bytes} (h : Printed s content)
    (ps : List (Bytes × UInt64)) :
    Printed (ps.foldl (fun s c => serializeBucket s (categoryText c.1 c.2)) s)
      (content ++ catsText ps) := by
  induction ps generalizing s content with
  | nil =>
      rw [catsText, List.flatMap_nil, List.append_nil]
      exact h
  | cons c ps ih =>
      have hnext := ih (h.serializeBucket (categoryText c.1 c.2))
      rw [List.append_assoc] at hnext
      exact hnext

theorem length_header_le {n : ℕ} (h : n < 2 ^ 64) : (numeral 10 n ++ [59]).length ≤ 21 := by
  have hdigits : (numeral 10 n).length ≤ 20 :=
    (length_numeral_le_iff (by omega) (by omega)).mpr (h.trans (by norm_num))
  rw [List.length_append, List.length_singleton]
  omega

/-- The text that SQLite has is cut off. -/
theorem Categories.categoryHistFinal_eq (keep1 sort : Bool) :
    ∃ text, categoryHistFinal cats.acc keep1 sort = some text ∧
      cString text = (histText (cats.printed keep1 sort)).take (DEFAULT_HIST_ALLOC - 1) := by
  have hcats : ∀ cat ∈ (if sort then qsort cats.acc.categories strCmp else cats.acc.categories),
      cat ∈ cats.table.map Prod.fst := by
    intro cat hcat
    rw [← cats.holds.categories]
    split at hcat
    · exact (List.perm_insertionSort _ _).mem_iff.mp hcat
    · exact hcat
  have hfound := cats.holds.mapM_find Prod.mk hcats
  have hcount : (cats.printed keep1 sort).length < 2 ^ 64 := cats.length_printed
  have hheader := (length_header_le hcount).trans_lt (show 21 < DEFAULT_HIST_ALLOC by decide)
  have hprinted := printed_foldl (Printed.header hheader) (cats.printed keep1 sort)
  rw [List.append_assoc, List.singleton_append, ← histText] at hprinted
  refine ⟨_, ?_, (hprinted.cString_eq (zero_notMem_histText fun c hc => ?_)).2⟩
  · rw [categoryHistFinal]
    simp only [Option.bind_eq_bind, hfound, Option.bind_some, Option.pure_def]
    rfl
  · exact cats.noNul c (cats.mem_of_mem_printed hc)

/-- The number of categories is read, and then the categories. -/
theorem categoryHistParse_eq {ps : List (Bytes × UInt64)} (hps : ps.length < 2 ^ 64)
    (beyond : ℕ → UInt8) (rest : Bytes) :
    categoryHistParse beyond (numeral 10 ps.length ++ [59] ++ rest) =
      (parseCategories beyond (numeral 10 ps.length ++ [59] ++ rest) ps.length
        (numeral 10 ps.length ++ [59]).length).map fun buckets =>
          qsort buckets categoryBucketCmp := by
  have hsemi : charAt beyond (numeral 10 ps.length ++ [59] ++ rest)
      ((numeral 10 ps.length).length + 1 - 1) = 59 := by
    rw [List.append_assoc, Nat.add_sub_cancel]
    exact Histogram.charAt_semicolon _ _
  have hscan := @sscanf_numeral [] 0 _ hps 59 (by decide) rest
  rw [categoryHistParse, List.append_assoc, List.singleton_append, hscan, sscanf]
  rw [List.append_assoc, List.singleton_append] at hsemi
  simp only [Option.getD_some, Nat.zero_add, hsemi, List.length_append, List.length_singleton]
  rw [if_neg (Nat.succ_ne_zero _), if_neg (not_not.mpr rfl)]

/-- A histogram is read back as it was exactly if no name is empty or has a colon and the text fits
into its first allocation. -/
theorem roundTrips_iff (keep1 sort : Bool) :
    RoundTrips cats keep1 sort ↔ Readable (cats.printed keep1 sort) := by
  obtain ⟨text, hfinal, htext⟩ := cats.categoryHistFinal_eq keep1 sort
  have hperm := cats.printed_perm keep1 sort
  have hlen : ∀ c ∈ cats.printed keep1 sort, c.1.length < 2 ^ 64 := fun c hc =>
    cats.size c (cats.mem_of_mem_printed hc)
  have hnodup : ((cats.printed keep1 sort).map Prod.fst).Nodup := cats.nodup_printed
  have hcount : (cats.printed keep1 sort).length < 2 ^ 64 := cats.length_printed
  rw [RoundTrips, hfinal]
  generalize cats.printed keep1 sort = ps at *
  have hheader := length_header_le hcount
  have hdefault : DEFAULT_HIST_ALLOC = 512 := rfl
  have hsplit : histText ps = numeral 10 ps.length ++ [59] ++ catsText ps := by
    rw [histText, List.append_assoc, List.singleton_append]
  have hbytes := congrArg List.length hsplit
  rw [List.length_append] at hbytes
  obtain ⟨m, hm⟩ := Nat.exists_eq_add_of_le
    (hheader.trans (show 21 ≤ DEFAULT_HIST_ALLOC - 1 by decide))
  have hstr : cString text = numeral 10 ps.length ++ [59] ++ (catsText ps).take m := by
    rw [htext, hsplit, hm, List.take_length_add_append]
  have hparse := fun beyond => categoryHistParse_eq hcount beyond ((catsText ps).take m)
  constructor
  · intro h
    obtain ⟨text', hist, htext', hhist, hsame⟩ := h fun _ => 0
    obtain rfl := Option.some.inj htext'
    rw [hstr, hparse] at hhist
    obtain ⟨list, hlist, rfl⟩ := Option.map_eq_some_iff.mp hhist
    have hread := (List.perm_insertionSort _ _).symm.trans (hsame.trans (hperm.map _).symm)
    obtain ⟨hnames, hfits⟩ := readable_of_parse hnodup hlen hlist hread
    refine ⟨hnames, ?_⟩
    rcases hfits with hfits | ⟨hfits, hsemi⟩
    · exact Or.inl (by omega)
    · exact Or.inr ⟨by omega, hsemi⟩
  · intro h beyond
    have hfits : (catsText ps).length ≤ m ∨ (catsText ps).length = m + 1 ∧
        ∃ c ∈ ps.getLast?, c.1[(numeral 10 c.1.length).length]? = some 59 :=
      h.fits.imp (fun hlt => by omega) fun hcut => ⟨by omega, hcut.2⟩
    refine ⟨text, qsort (buckets ps) categoryBucketCmp, rfl, ?_, ?_⟩
    · rw [hstr, hparse, parse_of_readable h.names hlen hfits, Option.map_some]
    · exact (List.perm_insertionSort _ _).trans (hperm.map _)

/-- A category without a name, which is there once. -/
def unnamed : Categories where
  acc := Accumulator.empty.push [] 1
  table := [([], 1)]
  holds := holds_empty.push List.not_mem_nil 1
  noNul := List.forall_mem_singleton.mpr List.not_mem_nil
  positive := List.forall_mem_singleton.mpr (by decide)
  size := List.forall_mem_singleton.mpr (by decide)
  count := by decide

set_option maxRecDepth 4000 in
/-- `"1;0::1;"` cannot be parsed. -/
theorem not_roundTrips : ¬RoundTrips unnamed true false := by
  intro h
  obtain ⟨text, hist, htext, hhist, -⟩ := h fun _ => 0
  have hfinal : categoryHistFinal unnamed.acc true false = some [49, 59, 48, 58, 58, 49, 59] := by
    decide
  have hparse : categoryHistParse (fun _ => 0) (cString [49, 59, 48, 58, 58, 49, 59]) = none := by
    decide
  rw [hfinal] at htext
  obtain rfl := Option.some.inj htext
  rw [hparse] at hhist
  exact nomatch hhist

end RoundTrip

end Gufi.CategoryHist
