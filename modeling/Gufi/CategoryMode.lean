import Gufi.CategoryCombine
import Gufi.HistogramPieces

/-!
# The mode of a column

`mode_count_final` sorts its categories with the comparison of buckets, which looks for the count
where a category has the function that frees its name. This is the same for all of them, so the
categories are sorted by their names, and the first one is compared with the second.
-/

namespace Gufi.CategoryHist

open Stdio UserTrie
open Trace (cString)
open Histogram (Serialized serializeBucket DEFAULT_HIST_ALLOC sizeField Printed)

section Order

variable {a b : Bytes} {n : ℕ}

theorem cString_cons (c : UInt8) (a : Bytes) :
    cString (c :: a) = if c = 0 then [] else c :: cString a := by
  by_cases hc : c = 0 <;> simp [cString, hc]

/-- `strncmp` is the order of the texts up to their NULs. -/
theorem strncmp_eq_gt_iff (h : max a.length b.length ≤ n) :
    strncmp n a b = .gt ↔ cString b < cString a := by
  induction n generalizing a b with
  | zero =>
      obtain rfl : a = [] := List.length_eq_zero_iff.mp (by omega)
      obtain rfl : b = [] := List.length_eq_zero_iff.mp (by omega)
      simp [strncmp, cString]
  | succ n ih =>
      cases a with
      | nil =>
          have hle : ¬cString b < cString [] := List.not_lt_nil _
          rw [iff_false_right hle, strncmp]
          simp only [List.headD_nil, UInt8.not_lt_zero, if_false, if_true]
          split <;> simp
      | cons c a =>
          rw [cString_cons, strncmp]
          cases b with
          | nil =>
              simp only [List.headD_cons, List.headD_nil, UInt8.not_lt_zero, if_false]
              by_cases hc : c = 0
              · simp [hc, cString]
              · have hpos : 0 < c := UInt8.pos_iff_ne_zero.mpr hc
                simp [hc, hpos, cString]
          | cons d b =>
              simp only [List.length_cons] at h
              have hrest := @ih a b (by omega)
              rw [cString_cons]
              simp only [List.headD_cons, List.tail_cons]
              by_cases hlt : c < d
              · have hd : d ≠ 0 := UInt8.pos_iff_ne_zero.mp (Std.lt_of_le_of_lt UInt8.zero_le hlt)
                have hne : d ≠ c := fun h => UInt8.lt_irrefl c (h ▸ hlt)
                by_cases hc : c = 0
                · subst hc
                  simp [hlt, hd]
                · simp [hlt, hd, hc, UInt8.lt_asymm hlt, hne, List.cons_lt_cons_iff]
              · by_cases hgt : d < c
                · have hc : c ≠ 0 := UInt8.pos_iff_ne_zero.mp (Std.lt_of_le_of_lt UInt8.zero_le hgt)
                  by_cases hd : d = 0
                  · subst hd
                    simp [hgt, hc]
                  · simp [hlt, hgt, hc, hd, List.cons_lt_cons_iff]
                · obtain rfl : c = d :=
                    UInt8.le_antisymm (UInt8.not_lt.mp hgt) (UInt8.not_lt.mp hlt)
                  by_cases hc : c = 0
                  · simp [hc]
                  · simp [hc, hrest]

/-- The categories are compared by the addresses of their functions, and then by their names. -/
theorem categoryBucketCmp_asBucket (l r : Category) :
    categoryBucketCmp l.asBucket r.asBucket ≠ .gt ↔
      r.free < l.free ∨ l.free = r.free ∧ cString l.name ≤ cString r.name := by
  have hcmp := strncmp_eq_gt_iff (a := l.name) (b := r.name) le_rfl
  rw [categoryBucketCmp, Category.asBucket, Category.asBucket]
  simp only
  by_cases hlt : r.free < l.free
  · simp [hlt]
  · by_cases hgt : l.free < r.free
    · have hne : l.free ≠ r.free := fun h => UInt64.lt_irrefl _ (h ▸ hgt)
      simp [hlt, hgt, hne]
    · have heq : l.free = r.free :=
        UInt64.le_antisymm (UInt64.not_lt.mp hlt) (UInt64.not_lt.mp hgt)
      rw [if_neg hlt, if_neg hgt, ne_eq, hcmp, List.not_lt, or_iff_right hlt, and_iff_right heq]

theorem asBucketCmp_trans (a b c : Category) (hab : asBucketCmp a b ≠ .gt)
    (hbc : asBucketCmp b c ≠ .gt) : asBucketCmp a c ≠ .gt := by
  rw [asBucketCmp, categoryBucketCmp_asBucket] at hab hbc ⊢
  rcases hab with hab | ⟨hab, hab'⟩ <;> rcases hbc with hbc | ⟨hbc, hbc'⟩
  · exact Or.inl (UInt64.lt_trans hbc hab)
  · exact Or.inl (hbc ▸ hab)
  · exact Or.inl (hab ▸ hbc)
  · exact Or.inr ⟨hab.trans hbc, List.le_trans hab' hbc'⟩

theorem asBucketCmp_total (a b : Category) : asBucketCmp a b ≠ .gt ∨ asBucketCmp b a ≠ .gt := by
  rw [asBucketCmp, asBucketCmp, categoryBucketCmp_asBucket, categoryBucketCmp_asBucket]
  rcases Std.lt_trichotomy a.free b.free with h | h | h
  · exact Or.inr (Or.inl h)
  · rcases List.le_total (cString a.name) (cString b.name) with h' | h'
    · exact Or.inl (Or.inr ⟨h, h'⟩)
    · exact Or.inr (Or.inr ⟨h.symm, h'⟩)
  · exact Or.inl (Or.inl h)

/-- `qsort` puts them in this order. -/
theorem pairwise_qsort (l : List Category) : (qsort l asBucketCmp).Pairwise fun l r =>
    r.free < l.free ∨ l.free = r.free ∧ cString l.name ≤ cString r.name := by
  have htotal : Std.Total fun a b : Category => asBucketCmp a b ≠ .gt := ⟨asBucketCmp_total⟩
  have htrans : IsTrans Category fun a b => asBucketCmp a b ≠ .gt := ⟨asBucketCmp_trans⟩
  have hsorted := List.pairwise_insertionSort (fun a b : Category => asBucketCmp a b ≠ .gt) l
  exact hsorted.imp fun h => (categoryBucketCmp_asBucket _ _).mp h

end Order

section Counts

/-- The values of a column. Rows are numbered with 64 bits. -/
structure Column where
  values : List (Option Bytes)
  fits : values.length < 2 ^ 64

/-- How often a category is among the values. A value ends at its first NUL. -/
def occurrences (values : List (Option Bytes)) (cat : Bytes) : ℕ :=
  values.countP fun v => v.map cString = some cat

/-- The values that are counted, once each. -/
def ones (values : List (Option Bytes)) : List (Bytes × UInt64) :=
  values.filterMap fun v => v.map fun text => (cString text, 1)

variable {acc : Accumulator} {t : List (Bytes × UInt64)} {values : List (Option Bytes)}
  {cat : Bytes}

theorem Accumulator.Holds.foldlM_step (h : acc.Holds t) (values : List (Option Bytes)) :
    ∃ acc', values.foldlM categoryHistStep acc = some acc' ∧
      acc'.Holds (SumTable.addAll t (ones values)) := by
  induction values generalizing acc t with
  | nil => exact ⟨acc, rfl, h⟩
  | cons v values ih =>
      cases v with
      | none => exact ih h
      | some text =>
          obtain ⟨acc', hadd, hholds⟩ := h.add (cString text) 1
          obtain ⟨acc'', hrest, hall⟩ := ih hholds
          refine ⟨acc'', ?_, hall⟩
          have hone : categoryHistStep acc (some text) = some acc' := hadd
          rw [List.foldlM_cons, hone]
          exact hrest

theorem total_ones (values : List (Option Bytes)) (cat : Bytes) :
    SumTable.total (ones values) cat = UInt64.ofNat (occurrences values cat) := by
  induction values with
  | nil => rfl
  | cons v values ih =>
      rw [occurrences, List.countP_cons, ← occurrences, UInt64.ofNat_add, ← ih]
      cases v with
      | none => simp [ones]
      | some text =>
          have hones : ones (some text :: values) = (cString text, 1) :: ones values := rfl
          rw [hones, SumTable.total, SumTable.total, List.filter_cons]
          by_cases hcat : cString text = cat
          · simp [hcat, add_comm]
          · simp [hcat]

theorem mem_keys_ones : cat ∈ (ones values).map Prod.fst ↔ 0 < occurrences values cat := by
  rw [occurrences, List.countP_pos_iff]
  simp only [ones, List.mem_map, List.mem_filterMap, decide_eq_true_eq]
  constructor
  · rintro ⟨p, ⟨v, hv, hp⟩, rfl⟩
    obtain ⟨text, rfl, rfl⟩ := Option.map_eq_some_iff.mp hp
    exact ⟨_, hv, rfl⟩
  · rintro ⟨v, hv, hcat⟩
    obtain ⟨text, rfl, rfl⟩ := Option.map_eq_some_iff.mp hcat
    exact ⟨_, ⟨_, hv, rfl⟩, rfl⟩

end Counts

section Mode

/-- A category that is there more often than every other one. -/
structure IsMode (values : List (Option Bytes)) (cat : Bytes) : Prop where
  pos : 0 < occurrences values cat
  strict : ∀ c, c ≠ cat → occurrences values c < occurrences values cat

/-- The text of a category with its number. -/
def modeText (values : List (Option Bytes)) (cat : Bytes) : Bytes :=
  numeral 10 cat.length ++ 58 :: (cat ++ 58 :: (numeral 10 (occurrences values cat) ++ [59]))

/-- The mode is returned with its number, and `NULL` if there is none. -/
structure FindsMode (values : List (Option Bytes)) (result : Option (Option Bytes)) : Prop where
  found : ∀ cat, IsMode values cat → result = some (some (modeText values cat))
  none : (¬∃ cat, IsMode values cat) → result = some none

/-- The first two categories in the order of their bytes. -/
structure FirstTwo (values : List (Option Bytes)) (a b : Bytes) : Prop where
  first : 0 < occurrences values a
  second : 0 < occurrences values b
  lt : a < b
  others : ∀ c, 0 < occurrences values c → c = a ∨ b ≤ c

/-- The mode is the first category and its text fits into the first allocation, or there is no mode
and the first two categories are there equally often. -/
structure FirstDecides (values : List (Option Bytes)) : Prop where
  mode : ∀ cat, IsMode values cat → (∀ c, 0 < occurrences values c → cat ≤ c) ∧
    (modeText values cat).length < DEFAULT_HIST_ALLOC
  tie : (¬∃ cat, IsMode values cat) → ∀ a b, FirstTwo values a b →
    occurrences values a = occurrences values b

variable {values : List (Option Bytes)} {cat : Bytes}

/-- What is returned is a text without NULs only if it was printed to the first allocation. -/
theorem serializeBucket_eq_iff {text result : Bytes} (htext : 0 ∉ text) (hresult : 0 ∉ result) :
    (serializeBucket ⟨List.replicate DEFAULT_HIST_ALLOC 0, 0⟩ text).buf.take
        (serializeBucket ⟨List.replicate DEFAULT_HIST_ALLOC 0, 0⟩ text).written = result ↔
      text = result ∧ text.length < DEFAULT_HIST_ALLOC := by
  have hprinted := Printed.nil.serializeBucket text
  rw [List.nil_append] at hprinted
  generalize serializeBucket ⟨List.replicate DEFAULT_HIST_ALLOC 0, 0⟩ text = s at hprinted
  have hcut := (hprinted.cString_eq htext).2
  have hdefault : DEFAULT_HIST_ALLOC = 512 := rfl
  constructor
  · rintro rfl
    have hlength : (s.buf.take s.written).length = text.length := by
      rw [List.length_take_of_le (hprinted.written.trans_le hprinted.room), hprinted.written]
    rw [Trace.cString_eq_self hresult] at hcut
    have hshort : text.length < DEFAULT_HIST_ALLOC := by
      rw [hcut, List.length_take] at hlength
      omega
    exact ⟨by rw [hcut, List.take_of_length_le (by omega)], hshort⟩
  · rintro ⟨rfl, hlt⟩
    obtain ⟨rest, hbuf⟩ := hprinted.buf
    have hall : text.take (DEFAULT_HIST_ALLOC - 1) = text := List.take_of_length_le (by omega)
    rw [hbuf, hprinted.written, hall, List.take_left]

/-- What `mode_count` makes of the categories, in order. -/
def ofFirst (values : List (Option Bytes)) : List Bytes → Option Bytes
  | [] => none
  | a :: rest =>
    if rest.head?.any fun b => occurrences values a = occurrences values b then none
    else
      let s := serializeBucket ⟨List.replicate DEFAULT_HIST_ALLOC 0, 0⟩ (modeText values a)
      some (s.buf.take s.written)

theorem occurrences_lt (col : Column) (cat : Bytes) : occurrences col.values cat < 2 ^ 64 :=
  List.countP_le_length.trans_lt col.fits

theorem toNat_occurrences (col : Column) (cat : Bytes) :
    (UInt64.ofNat (occurrences col.values cat)).toNat = occurrences col.values cat :=
  UInt64.toNat_ofNat_of_lt' (occurrences_lt col cat)

theorem ofNat_occurrences_inj (col : Column) (a b : Bytes) :
    UInt64.ofNat (occurrences col.values a) = UInt64.ofNat (occurrences col.values b) ↔
      occurrences col.values a = occurrences col.values b := by
  rw [← UInt64.toNat_inj, toNat_occurrences, toNat_occurrences]

theorem zero_notMem_of_occurrences (h : 0 < occurrences values cat) : 0 ∉ cat := by
  obtain ⟨v, -, hv⟩ := List.countP_pos_iff.mp h
  obtain ⟨text, -, rfl⟩ := Option.map_eq_some_iff.mp (of_decide_eq_true hv)
  exact Trace.notMem_cString text

theorem categoryText_ofNat (col : Column) (cat : Bytes) :
    categoryText cat (UInt64.ofNat (occurrences col.values cat)) = modeText col.values cat := by
  rw [categoryText, sizeField, toNat_occurrences]
  rfl

/-- The result of `modeCountFinal` for categories that are sorted. -/
def resultOf : List Category → Option Bytes
  | [] => none
  | top :: rest =>
    if (rest.head?.any fun next => top.count = next.count) then none
    else some ((serializeBucket ⟨List.replicate DEFAULT_HIST_ALLOC 0, 0⟩
      (categoryText top.name top.count)).buf.take
        (serializeBucket ⟨List.replicate DEFAULT_HIST_ALLOC 0, 0⟩
          (categoryText top.name top.count)).written)

theorem modeCountFinal_eq {free : UInt64} {acc : Accumulator} {list : List Category}
    (h : (acc.categories.mapM fun cat =>
      (acc.find cat).map fun count => (⟨cat, free, count⟩ : Category)) = some list) :
    modeCountFinal free acc = some (resultOf (qsort list asBucketCmp)) := by
  simp only [modeCountFinal, h, Option.bind_eq_bind, Option.bind_some]
  cases qsort list asBucketCmp with
  | nil => rfl
  | cons top rest =>
      rw [resultOf]
      exact (apply_ite some _ _ _).symm

/-- The sorted categories are those of the column in the order of their bytes. -/
theorem modeCount_eq (free : UInt64) (col : Column) :
    ∃ names : List Bytes, names.Pairwise (· < ·) ∧
      (∀ cat, cat ∈ names ↔ 0 < occurrences col.values cat) ∧
      modeCount free col.values = some (ofFirst col.values names) := by
  obtain ⟨acc, hrun, hholds⟩ := holds_empty.foldlM_step col.values
  have hmem : ∀ cat, cat ∈ acc.categories ↔ 0 < occurrences col.values cat := by
    intro cat
    rw [hholds.categories, SumTable.mem_keys_addAll, List.map_nil, or_iff_right List.not_mem_nil,
      mem_keys_ones]
  have hvalue : ∀ cat, SumTable.value (SumTable.addAll [] (ones col.values)) cat =
      UInt64.ofNat (occurrences col.values cat) := by
    intro cat
    rw [SumTable.value_addAll, SumTable.value, zero_add, total_ones]
  have hkeys : ∀ cat ∈ acc.categories, cat ∈ _ := fun cat hcat => hholds.categories ▸ hcat
  have hcats := hholds.mapM_find (fun cat count => Category.mk cat free count) hkeys
  simp only [hvalue] at hcats
  generalize hlist : (acc.categories.map fun cat =>
    Category.mk cat free (UInt64.ofNat (occurrences col.values cat))) = list at hcats
  have hperm : (qsort list asBucketCmp).Perm list :=
    List.perm_insertionSort _ _
  have hsorted := pairwise_qsort list
  have hfinal : modeCount free col.values = some (resultOf (qsort list asBucketCmp)) := by
    rw [modeCount, hrun]
    exact modeCountFinal_eq hcats
  generalize (qsort list asBucketCmp) = sorted at *
  have hcount : ∀ c ∈ sorted, c.free = free ∧ 0 < occurrences col.values c.name ∧
      c.count = UInt64.ofNat (occurrences col.values c.name) := by
    intro c hc
    have hc' := hperm.mem_iff.mp hc
    rw [← hlist] at hc'
    obtain ⟨cat, hcat, rfl⟩ := List.mem_map.mp hc'
    exact ⟨rfl, (hmem cat).mp hcat, rfl⟩
  have hnames : (sorted.map Category.name).Perm acc.categories := by
    have hid : list.map Category.name = acc.categories := by
      rw [← hlist, List.map_map]
      exact List.map_id _
    exact hid ▸ hperm.map Category.name
  refine ⟨sorted.map Category.name, ?_, fun cat => by rw [hnames.mem_iff, hmem], ?_⟩
  · have hnodup : (sorted.map Category.name).Nodup := by
      rw [hnames.nodup_iff, hholds.categories]
      exact hholds.nodup
    rw [List.pairwise_map]
    refine (hsorted.and (List.pairwise_map.mp hnodup)).imp_of_mem ?_
    intro l r hl hr h
    obtain ⟨hfree, hpos, -⟩ := hcount l hl
    obtain ⟨hfree', hpos', -⟩ := hcount r hr
    obtain ⟨hlt | ⟨-, hle⟩, hne⟩ := h
    · rw [hfree, hfree'] at hlt
      exact absurd hlt (UInt64.lt_irrefl free)
    · rw [Trace.cString_eq_self (zero_notMem_of_occurrences hpos),
        Trace.cString_eq_self (zero_notMem_of_occurrences hpos')] at hle
      exact Std.lt_of_le_of_ne hle hne
  · rw [hfinal]
    cases sorted with
    | nil => rfl
    | cons top rest =>
        obtain ⟨-, -, htop⟩ := hcount top List.mem_cons_self
        have htie : (rest.head?.any fun next => top.count = next.count) =
            ((rest.map Category.name).head?.any fun b =>
              occurrences col.values top.name = occurrences col.values b) := by
          cases rest with
          | nil => rfl
          | cons next rest =>
              obtain ⟨-, -, hnext⟩ := hcount next (by simp)
              simp only [List.head?_cons, List.map_cons, Option.any_some, htop, hnext,
                ofNat_occurrences_inj]
        rw [List.map_cons, ofFirst, resultOf]
        simp only [htie]
        rw [htop, categoryText_ofNat]

theorem isMode_unique {a b : Bytes} (ha : IsMode values a) (hb : IsMode values b) : a = b := by
  by_contra hne
  have := ha.strict b (Ne.symm hne)
  have := hb.strict a hne
  omega

theorem zero_notMem_modeText (h : 0 ∉ cat) : 0 ∉ modeText values cat := by
  simp only [modeText, List.mem_append, List.mem_cons, not_or]
  exact ⟨Histogram.notMem_numeral _ (by decide), by decide, h, by decide,
    Histogram.notMem_numeral _ (by decide), by decide, by simp⟩

theorem takeWhile_numeral (n : ℕ) (rest : Bytes) :
    (numeral 10 n ++ 58 :: rest).takeWhile (· ≠ 58) = numeral 10 n := by
  rw [List.takeWhile_append_of_pos]
  · simp
  · intro c hc
    have hne : c ≠ 58 := fun h => Histogram.notMem_numeral n (by decide) (h ▸ hc)
    simpa using hne

/-- The text of a category begins with its length, so it is the text of no other one. -/
theorem modeText_inj {values' : List (Option Bytes)} {a b : Bytes}
    (h : modeText values a = modeText values' b) : a = b := by
  have hnumeral := congrArg (List.takeWhile (· ≠ 58)) h
  rw [modeText, modeText, takeWhile_numeral, takeWhile_numeral] at hnumeral
  have hlen : a.length = b.length := by
    have ha := readDigits_numeral (by omega) (by omega : 10 ≤ 16) a.length
    have hb := readDigits_numeral (by omega) (by omega : 10 ≤ 16) b.length
    rw [hnumeral, hb] at ha
    exact ha.symm
  rw [modeText, modeText, hnumeral] at h
  have hrest := List.append_cancel_left h
  exact (List.append_inj (List.cons.inj hrest).2 hlen).1

/-- The result of the first category is that of the mode if it is the mode, and fits. -/
theorem ofFirst_cons_eq_iff {a : Bytes} {rest : List Bytes} (ha : 0 ∉ a)
    (hne : ¬rest.head?.any fun b => occurrences values a = occurrences values b) {c : Bytes}
    (hc : 0 ∉ c) : ofFirst values (a :: rest) = some (modeText values c) ↔
      a = c ∧ (modeText values c).length < DEFAULT_HIST_ALLOC := by
  rw [ofFirst, if_neg hne, Option.some.injEq,
    serializeBucket_eq_iff (zero_notMem_modeText ha) (zero_notMem_modeText hc)]
  constructor
  · rintro ⟨heq, hlt⟩
    exact ⟨modeText_inj heq, heq ▸ hlt⟩
  · rintro ⟨rfl, hlt⟩
    exact ⟨rfl, hlt⟩

variable {a b : Bytes} {rest : List Bytes}

/-- The sorted categories of a column. -/
structure Names (values : List (Option Bytes)) (names : List Bytes) : Prop where
  sorted : names.Pairwise (· < ·)
  mem : ∀ cat, cat ∈ names ↔ 0 < occurrences values cat

theorem Names.first_le (h : Names values (a :: rest)) {c : Bytes} (hc : 0 < occurrences values c) :
    a ≤ c := by
  rcases List.mem_cons.mp ((h.mem c).mpr hc) with rfl | hrest
  · exact List.le_refl c
  · exact Std.le_of_lt ((List.pairwise_cons.mp h.sorted).1 c hrest)

theorem Names.firstTwo (h : Names values (a :: b :: rest)) : FirstTwo values a b := by
  have hlt := (List.pairwise_cons.mp h.sorted).1
  refine ⟨(h.mem a).mp (by simp), (h.mem b).mp (by simp), hlt b List.mem_cons_self, ?_⟩
  intro c hc
  rcases List.mem_cons.mp ((h.mem c).mpr hc) with rfl | hrest
  · exact Or.inl rfl
  · rcases List.mem_cons.mp hrest with rfl | hrest'
    · exact Or.inr (List.le_refl c)
    · have hsorted := (List.pairwise_cons.mp (List.pairwise_cons.mp h.sorted).2).1
      exact Or.inr (Std.le_of_lt (hsorted c hrest'))

theorem firstTwo_unique {a' b' : Bytes} (h : FirstTwo values a b) (h' : FirstTwo values a' b') :
    a = a' ∧ b = b' := by
  have hle : ∀ {a b a' b' : Bytes}, FirstTwo values a b → FirstTwo values a' b' → a ≤ a' := by
    intro a b a' b' h h'
    rcases h.others a' h'.first with heq | hb
    · rw [heq]
      exact List.le_refl a
    · exact List.le_trans (Std.le_of_lt h.lt) hb
  obtain rfl : a = a' := List.le_antisymm (hle h h') (hle h' h)
  have hle' : ∀ {b b' : Bytes}, FirstTwo values a b → FirstTwo values a b' → b ≤ b' := by
    intro b b' h h'
    rcases h.others b' h'.second with heq | hb
    · exact absurd (heq ▸ h'.lt) (List.lt_irrefl b')
    · exact hb
  exact ⟨rfl, List.le_antisymm (hle' h h') (hle' h' h)⟩

/-- The only category is the mode. -/
theorem Names.isMode_singleton (h : Names values [a]) : IsMode values a := by
  have ha := (h.mem a).mp List.mem_cons_self
  refine ⟨ha, fun c hc => ?_⟩
  have hzero : ¬0 < occurrences values c := fun hpos =>
    hc (List.mem_singleton.mp ((h.mem c).mpr hpos))
  omega

theorem findsMode_none_iff : FindsMode values (some none) ↔ ¬∃ cat, IsMode values cat := by
  constructor
  · rintro h ⟨cat, hcat⟩
    cases h.found cat hcat
  · exact fun h => ⟨fun cat hcat => absurd ⟨cat, hcat⟩ h, fun _ => rfl⟩

/-- If the first two categories are as frequent, nothing is returned. -/
theorem Names.findsMode_tie (h : Names values (a :: b :: rest))
    (htie : occurrences values a = occurrences values b) :
    FindsMode values (some none) ↔ FirstDecides values := by
  rw [findsMode_none_iff]
  constructor
  · intro hno
    refine ⟨fun cat hcat => absurd ⟨cat, hcat⟩ hno, fun _ a' b' htwo => ?_⟩
    obtain ⟨rfl, rfl⟩ := firstTwo_unique h.firstTwo htwo
    exact htie
  · rintro hfirst ⟨cat, hcat⟩
    have htwo := h.firstTwo
    obtain rfl : cat = a := List.le_antisymm ((hfirst.mode cat hcat).1 a htwo.first)
      (h.first_le hcat.pos)
    have hlt := hcat.strict b fun heq => List.lt_irrefl b (heq ▸ htwo.lt)
    omega

/-- Otherwise the first one is returned. -/
theorem Names.findsMode_first (h : Names values (a :: rest))
    (hne : ¬rest.head?.any fun b => occurrences values a = occurrences values b) :
    FindsMode values (some (ofFirst values (a :: rest))) ↔ FirstDecides values := by
  have ha := (h.mem a).mp List.mem_cons_self
  by_cases hmode : ∃ cat, IsMode values cat
  · obtain ⟨cat, hcat⟩ := hmode
    have htext := ofFirst_cons_eq_iff (zero_notMem_of_occurrences ha) hne
      (zero_notMem_of_occurrences hcat.pos)
    constructor
    · intro hfinds
      obtain ⟨rfl, hlt⟩ := htext.mp (Option.some.inj (hfinds.found cat hcat))
      refine ⟨fun c hc => ?_, fun hno => absurd ⟨a, hcat⟩ hno⟩
      obtain rfl := isMode_unique hc hcat
      exact ⟨fun c hc => h.first_le hc, hlt⟩
    · intro hfirst
      obtain ⟨hle, hlt⟩ := hfirst.mode cat hcat
      obtain rfl : cat = a := List.le_antisymm (hle a ha) (h.first_le hcat.pos)
      refine ⟨fun c hc => ?_, fun hno => absurd ⟨cat, hcat⟩ hno⟩
      obtain rfl := isMode_unique hc hcat
      rw [htext.mpr ⟨rfl, hlt⟩]
  · refine iff_of_false (fun hfinds => ?_) fun hfirst => ?_
    · have hnone := Option.some.inj (hfinds.none hmode)
      rw [ofFirst, if_neg hne] at hnone
      cases hnone
    · cases rest with
      | nil => exact hmode ⟨a, h.isMode_singleton⟩
      | cons b rest =>
          apply hne
          simpa using hfirst.tie hmode a b h.firstTwo

/-- The mode is found exactly if it is the first category in the order of bytes and is printed to
the first allocation, or, where there is none, if the first two categories are as frequent. -/
theorem findsMode_iff (free : UInt64) (col : Column) :
    FindsMode col.values (modeCount free col.values) ↔ FirstDecides col.values := by
  obtain ⟨names, hsorted, hmem, hrun⟩ := modeCount_eq free col
  have hnames : Names col.values names := ⟨hsorted, hmem⟩
  rw [hrun]
  cases names with
  | nil =>
      have hzero : ∀ cat, ¬0 < occurrences col.values cat := fun cat h =>
        List.not_mem_nil ((hmem cat).mpr h)
      refine iff_of_true ⟨fun cat h => absurd h.pos (hzero cat), fun _ => rfl⟩ ⟨?_, ?_⟩
      · exact fun cat h => absurd h.pos (hzero cat)
      · exact fun _ a b h => absurd h.first (hzero a)
  | cons a rest =>
      by_cases htie : rest.head?.any fun b => occurrences col.values a = occurrences col.values b
      · rw [ofFirst, if_pos htie]
        cases rest with
        | nil => cases htie
        | cons b rest => exact hnames.findsMode_tie (by simpa using htie)
      · exact hnames.findsMode_first htie

/-- Of `a`, `b` and `b`, the first is returned. -/
def oneTwo : Column := ⟨[some [97], some [98], some [98]], by decide⟩

set_option maxRecDepth 4000 in
theorem not_findsMode : ¬FindsMode oneTwo.values (modeCount 0 oneTwo.values) := by
  have hmode : IsMode oneTwo.values [98] := by
    refine ⟨by decide, fun c hc => ?_⟩
    have htwo : occurrences oneTwo.values [98] = 2 := by decide
    have hb : ¬(some [98] : Option Bytes).map cString = some c := fun h =>
      hc (Option.some.inj h).symm
    have hone : occurrences oneTwo.values c ≤ 1 := by
      simp only [occurrences, oneTwo, List.countP_cons, List.countP_nil, decide_eq_true_eq,
        if_neg hb]
      split <;> omega
    omega
  intro h
  have hrun : modeCount 0 oneTwo.values = some (some [49, 58, 97, 58, 49, 59]) := by decide
  have hfound := h.found [98] hmode
  rw [hrun] at hfound
  revert hfound
  decide

end Mode

end Gufi.CategoryHist
