import Gufi.TraceColumns

/-!
# Columns that are read wrong

A length that needs more than four digits leaves the others to the text behind it: a name comes
out shorter, and the first extended attribute gets digits before its name. A name or a value
that holds the delimiter or a NUL ends there.
-/

namespace Gufi.Trace

open Stdio LineReader

section LongPrefix

variable {delim : UInt8}

/-- Whatever the first four digits are, they are a number below `16 ^ 4`. -/
theorem scanHex_of_isNumber {digits : Bytes} (h : IsNumber 16 digits)
    (hlength : 4 ≤ digits.length) :
    ∃ n, n < 16 ^ 4 ∧ ∀ rest, scanHex 4 (digits.take 4 ++ rest) = some (n, 4) := by
  have hfour : (digits.take 4).length = 4 := by
    rw [List.length_take]
    omega
  have hne : digits.take 4 ≠ [] := by
    rw [← List.length_pos_iff, hfour]
    omega
  have hlt := readDigits_lt (show 0 < 16 by omega) 0 (digits.take 4)
  have hscan := scanHex_append (h.take 4) hne (by omega)
  rw [hfour] at hlt hscan
  exact ⟨_, by simpa using hlt, hscan⟩

/-- A name is read no longer than its four digits can say. -/
theorem length_readName_lt {len : ℕ} {name name' rest : Bytes} {s : Option Bytes}
    (h : readName delim len (some (prefixed delim name ++ rest)) = .ok (name', s)) :
    name'.length < 16 ^ 4 := by
  obtain ⟨nameLen, hlt, hscan⟩ := scanHex_of_isNumber
    (isNumber_padded (by omega) le_rfl 4 name.length) (width_le_length_padded 4 16 _)
  have hprefix : scanHex 4 (prefixed delim name ++ rest) = some (nameLen, 4) := by
    have hsplit := List.take_append_drop 4 (lengthPrefix name.length)
    rw [prefixed, ← hsplit, List.append_assoc, List.append_assoc]
    exact hscan _
  simp only [readName, hprefix] at h
  split at h
  · cases h
  split at h
  · cases h
  split at h
  · cases h
  split at h
  · cases h
  split at h
  · cases h
  obtain ⟨rfl, -⟩ := Prod.mk.inj (Except.ok.inj h)
  calc _ ≤ nameLen := List.length_take_le _ _
    _ < 16 ^ 4 := hlt

end LongPrefix

section Separators

/-- The bytes up to `end` stop behind a delimiter, if there are any. -/
def Terminated (cs : Bytes) : Prop := cs = [] ∨ ∃ init, cs = init ++ [XATTRDELIM]

theorem Terminated.rest {text rest : Bytes} (h : Terminated (text ++ XATTRDELIM :: rest)) :
    Terminated rest := by
  obtain rfl | ⟨init, c, rfl⟩ := List.eq_nil_or_concat' rest
  · exact .inl rfl
  · obtain hnil | ⟨init', hinit⟩ := h
    · simp at hnil
    · rw [← List.cons_append, ← List.append_assoc] at hinit
      have hlast := (List.append_inj' hinit rfl).2
      exact .inr ⟨init, by rw [hlast]⟩

theorem terminated_pairsToFile (xattrs : List Xattr) : Terminated (pairsToFile xattrs) := by
  induction xattrs with
  | nil => exact .inl rfl
  | cons x xattrs ih =>
      rw [pairsToFile_cons]
      obtain hnil | ⟨init, hinit⟩ := ih
      · exact .inr ⟨x.name ++ XATTRDELIM :: x.value, by simp [hnil]⟩
      · exact .inr ⟨x.name ++ XATTRDELIM :: (x.value ++ XATTRDELIM :: init), by simp [hinit]⟩

theorem split_isSome {delim : UInt8} {cs : Bytes} (h : delim ∈ cs) :
    (split delim cs).isSome = true := by
  induction cs with
  | nil => exact nomatch h
  | cons c cs ih =>
      rw [split]
      split
      · rfl
      · rename_i hc
        obtain rfl | hmem := List.mem_cons.mp h
        · exact absurd rfl hc
        · simpa using ih hmem

/-- In bytes that stop behind a delimiter there is one. -/
theorem Terminated.split_isSome {cs : Bytes} (h : Terminated cs) (hne : cs ≠ []) :
    (split XATTRDELIM cs).isSome = true := by
  obtain hnil | ⟨init, rfl⟩ := h
  · exact absurd hnil hne
  · exact Trace.split_isSome (by simp)

/-- Pairs whose bytes stop behind a delimiter are all read up to one. -/
theorem extractPairs_separable {past : Bool} {after before start : Bytes} {count : ℕ}
    {pairs : Pairs} (hterminated : Terminated start)
    (h : extractPairs past after count before (some start) = .ok pairs) :
    ∀ x ∈ pairs.xattrs, x.Separable := by
  induction count generalizing before start pairs with
  | zero =>
      obtain rfl := Except.ok.inj h
      intro x hx
      exact nomatch hx
  | succ count ih =>
      obtain hnil |
        ⟨name, next, value, before', start', tail, hname, hnext, hvalue, htail, hpairs⟩ :=
        extractPairs_cases h
      · intro x hx
        rw [hnil] at hx
        exact nomatch hx
      obtain ⟨rfl, hnameDelim⟩ := split_eq_some hname
      have hnextTerminated := hterminated.rest
      obtain ⟨⟨text, rest⟩, hsplit⟩ :=
        Option.isSome_iff_exists.mp (hnextTerminated.split_isSome hnext)
      obtain ⟨rfl, htextDelim⟩ := split_eq_some hsplit
      rw [extractValue, hsplit] at hvalue
      obtain ⟨rfl, rfl, rfl⟩ := by simpa using hvalue
      have hsub (text : Bytes) : (cString text).take (MAXXATTR - 1) ⊆ cString text :=
        List.take_subset _ _
      intro x hx
      rw [hpairs, List.mem_cons] at hx
      obtain rfl | hx := hx
      · refine ⟨⟨fun hmem => ?_, fun hmem => ?_⟩, fun hmem => ?_, fun hmem => ?_⟩
        · exact hnameDelim (cString_subset _ (hsub _ hmem))
        · exact notMem_cString _ (hsub _ hmem)
        · exact htextDelim (cString_subset _ (hsub _ hmem))
        · exact notMem_cString _ (hsub _ hmem)
      · exact ih hnextTerminated.rest htail x hx

end Separators

section XattrsLine

variable {xattrs xattrs' : List Xattr} {rest : Bytes} {s : Option Bytes}

/-- The extended attributes read are those of the loop, or there are none because the length does
not reach behind the count. -/
theorem xattrsFromLine_cases {len count : ℕ} {orig p₁ p₂ : Bytes}
    (hlen : ∀ rest, scanHex 4 (p₁ ++ rest) = some (len, 4))
    (hcount : ∀ rest, scanHex 4 (p₂ ++ rest) = some (count, 4))
    (h₁ : p₁.length = 4) (h₂ : p₂.length = 4) (hfits : len ≤ orig.length + 4)
    (h : xattrsFromLine (some (p₁ ++ (p₂ ++ orig))) = .ok (xattrs', s)) :
    xattrs' = [] ∨ ∃ pairs, pairs.xattrs = xattrs' ∧
      extractPairs false (orig.drop (len - 4)) count [] (some (orig.take (len - 4))) =
        .ok pairs := by
  by_cases h4 : 4 ≤ len
  · rw [xattrsFromLine_of_prefixes hlen hcount h₁ h₂ h4 hfits] at h
    cases hpairs : extractPairs false (orig.drop (len - 4)) count []
        (some (orig.take (len - 4))) with
    | error e =>
        rw [hpairs] at h
        exact nomatch h
    | ok pairs =>
        rw [hpairs] at h
        change (if _ then _ else _) = _ at h
        split at h
        · exact nomatch h
        · obtain ⟨hxattrs, -⟩ := Prod.mk.inj (Except.ok.inj h)
          exact .inr ⟨pairs, hxattrs, rfl⟩
  · have hnone (past : Bool) (after : Bytes) :
        extractPairs past after count [] none = .ok ⟨[], 0, []⟩ := by
      cases count <;> rfl
    have hline : ¬(p₁ ++ (p₂ ++ orig)).length < len := by
      simp only [List.length_append]
      omega
    simp only [xattrsFromLine, hlen, List.drop_left' h₁, hcount, if_neg hline,
      if_pos (Nat.not_le.mp h4), hnone] at h
    obtain ⟨hxattrs, -⟩ := Prod.mk.inj (Except.ok.inj h)
    exact .inl hxattrs.symm

/-- Where the length fits, no name or value that is read holds a separator or a NUL. -/
theorem xattrsFromLine_separable (hlength : xattrsLen xattrs + 2 * xattrs.length + 4 < 16 ^ 4)
    (h : xattrsFromLine (some (xattrsToFile xattrs ++ rest)) = .ok (xattrs', s)) :
    ∀ x ∈ xattrs', x.Separable := by
  have hcount : xattrs.length < 16 ^ 4 := by
    omega
  have hpairs := length_pairsToFile xattrs
  have hsub : xattrsLen xattrs + 2 * xattrs.length + 4 - 4 = (pairsToFile xattrs).length := by
    omega
  rw [xattrsToFile, List.append_assoc, List.append_assoc] at h
  obtain rfl | ⟨pairs, rfl, hextract⟩ := xattrsFromLine_cases (scanHex_lengthPrefix hlength)
    (scanHex_lengthPrefix hcount) (length_lengthPrefix hlength) (length_lengthPrefix hcount)
    (by rw [List.length_append]; omega) h
  · intro x hx
    cases hx
  · rw [hsub, List.take_left] at hextract
    exact extractPairs_separable (terminated_pairsToFile xattrs) hextract

/-- Digits in front of a name that has no separator and no NUL come out as part of it. -/
theorem extractPairs_digits {digits : Bytes} (hdigits : IsNumber 16 digits) (hne : digits ≠ [])
    {x : Xattr} {rest after : Bytes} {k count : ℕ} (hk : k < MAXXATTR) {pairs : Pairs}
    (h : extractPairs false after (count + 1) []
      (some ((digits ++ (x.name ++ XATTRDELIM :: rest)).take k)) = .ok pairs) :
    ∀ y ∈ pairs.xattrs.head?, y.name ≠ x.name := by
  intro y hy hyx
  obtain hnil | ⟨name, next, value, before', start', tail, hname, -, -, -, hpairs⟩ :=
    extractPairs_cases h
  · rw [hnil] at hy
    exact nomatch hy
  rw [hpairs] at hy
  obtain rfl := Option.some.inj hy
  obtain ⟨htake, hnameDelim⟩ := split_eq_some hname
  have hsub : x.name ⊆ cString name := by
    rw [← hyx]
    exact List.take_subset _ _
  have hxDelim : XATTRDELIM ∉ digits ++ x.name := by
    rw [List.mem_append, not_or]
    refine ⟨fun hmem => ?_, fun hmem => hnameDelim (cString_subset _ (hsub hmem))⟩
    exact absurd (hdigits _ hmem) (by decide)
  have hzero : 0 ∉ digits ++ x.name := by
    rw [List.mem_append, not_or]
    refine ⟨fun hmem => ?_, fun hmem => notMem_cString _ (hsub hmem)⟩
    exact absurd (hdigits _ hmem) (by decide)
  -- both ways the line is split at its first separator
  have hline : name ++ XATTRDELIM :: (next ++ (digits ++ (x.name ++ XATTRDELIM :: rest)).drop k) =
      digits ++ x.name ++ XATTRDELIM :: rest := by
    have := List.take_append_drop k (digits ++ (x.name ++ XATTRDELIM :: rest))
    rw [htake] at this
    simpa using this
  have hsplit := split_append hnameDelim
    (next ++ (digits ++ (x.name ++ XATTRDELIM :: rest)).drop k)
  rw [hline, split_append hxDelim] at hsplit
  obtain ⟨rfl, -⟩ := Prod.mk.inj (Option.some.inj hsplit)
  have hshort : (digits ++ x.name).length < k := by
    have := congrArg List.length htake
    simp only [List.length_append, List.length_cons, List.length_take] at this ⊢
    omega
  rw [cString_eq_self hzero, List.take_of_length_le (by omega)] at hyx
  have := congrArg List.length hyx
  rw [List.length_append] at this
  exact hne (List.length_eq_zero_iff.mp (by omega))

/-- Where the length does not fit, the first name comes out with digits before it. -/
theorem xattrsFromLine_ne (hlength : 16 ^ 4 ≤ xattrsLen xattrs + 2 * xattrs.length + 4)
    (h : xattrsFromLine (some (xattrsToFile xattrs ++ rest)) = .ok (xattrs', s)) :
    xattrs' ≠ xattrs := by
  set prefixes := lengthPrefix (xattrsLen xattrs + 2 * xattrs.length + 4) ++
    lengthPrefix xattrs.length with hprefixes
  have hnumber : IsNumber 16 prefixes :=
    (isNumber_padded (by omega) le_rfl 4 _).append (isNumber_padded (by omega) le_rfl 4 _)
  have hlong : 8 < prefixes.length := by
    have h₁ := width_lt_length_padded (by omega) (by omega) hlength
    have h₂ := width_le_length_padded 4 16 xattrs.length
    simp only [hprefixes, lengthPrefix, List.length_append]
    omega
  obtain ⟨len, hlt, hlen⟩ := scanHex_of_isNumber hnumber (by omega)
  obtain ⟨count, -, hcount⟩ := scanHex_of_isNumber (hnumber.drop 4)
    (by rw [List.length_drop]; omega)
  have hparts : prefixes = prefixes.take 4 ++ ((prefixes.drop 4).take 4 ++ prefixes.drop 8) := by
    have hdrop : prefixes.drop 8 = (prefixes.drop 4).drop 4 := by
      rw [List.drop_drop]
    rw [hdrop, List.take_append_drop, List.take_append_drop]
  have hdigits : prefixes.drop 8 ≠ [] := by
    rw [← List.length_pos_iff, List.length_drop]
    omega
  have hline : xattrsToFile xattrs ++ rest = prefixes.take 4 ++ ((prefixes.drop 4).take 4 ++
      (prefixes.drop 8 ++ (pairsToFile xattrs ++ rest))) := by
    have : xattrsToFile xattrs = prefixes ++ pairsToFile xattrs := by
      simp [xattrsToFile, hprefixes]
    rw [this]
    conv_lhs => rw [hparts]
    simp only [List.append_assoc]
  have hpairs := length_pairsToFile xattrs
  rw [hline] at h
  obtain rfl | ⟨pairs, rfl, hextract⟩ := xattrsFromLine_cases hlen hcount
    (by rw [List.length_take]; omega) (by rw [List.length_take, List.length_drop]; omega)
    (by simp only [List.length_append]; omega) h
  · rintro rfl
    simp [Trace.xattrsLen] at hlength
  · cases xattrs with
    | nil => simp [Trace.xattrsLen] at hlength
    | cons x xattrs =>
        cases count with
        | zero =>
            obtain rfl := Except.ok.inj hextract
            exact (List.cons_ne_nil x xattrs).symm
        | succ count =>
            rw [pairsToFile_cons, List.append_assoc, List.cons_append] at hextract
            have hhead := extractPairs_digits (hnumber.drop 8) hdigits
              (by simp only [MAXXATTR]; omega) hextract
            intro hxattrs
            rw [hxattrs] at hhead
            exact hhead x rfl rfl

end XattrsLine

end Gufi.Trace
