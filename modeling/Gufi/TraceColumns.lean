import Gufi.Trace
import Mathlib.Algebra.Order.BigOperators.Group.List
import Mathlib.Data.List.TakeWhile

/-!
# The columns of a trace line are read back

Each reader of `linetowork` takes what its printer wrote from the front of a line, whatever
follows: a number always, a text whose length fits into its four digits, and extended attributes
without a byte that ends a name or a value for the reader.
-/

namespace Gufi.Trace

open Stdio LineReader

section Fields

variable {delim : UInt8}

/-- A character for `-d` that occurs in no number. -/
def FieldDelim (delim : UInt8) : Prop :=
  delim ≠ 0 ∧ delim ≠ 45 ∧ digitIn 10 delim = none

instance (delim : UInt8) : Decidable (FieldDelim delim) :=
  inferInstanceAs (Decidable (_ ∧ _))

theorem split_append {text : Bytes} (h : delim ∉ text) (rest : Bytes) :
    split delim (text ++ delim :: rest) = some (text, rest) := by
  induction text with
  | nil => simp [split]
  | cons c text ih =>
      rw [List.mem_cons, not_or] at h
      simp [split, Ne.symm h.1, ih h.2]

theorem split_eq_some {src text rest : Bytes} (h : split delim src = some (text, rest)) :
    src = text ++ delim :: rest ∧ delim ∉ text := by
  induction src generalizing text with
  | nil => simp [split] at h
  | cons c src ih =>
      rw [split] at h
      split at h
      · rename_i hc
        obtain ⟨rfl, rfl⟩ := by simpa using h
        simp [hc]
      · rename_i hc
        rw [Option.map_eq_some_iff] at h
        obtain ⟨⟨text', rest'⟩, hsplit, hpair⟩ := h
        obtain ⟨rfl, rfl⟩ := by simpa using hpair
        obtain ⟨hsrc, hnot⟩ := ih hsplit
        exact ⟨by rw [hsrc]; rfl, by simp [Ne.symm hc, hnot]⟩

theorem reads_readField {text : Bytes} (h : delim ∉ text) :
    Reads (readField delim) (field delim text) text := by
  intro rest
  simp only [readField, field, List.append_assoc, List.singleton_append, split_append h]

theorem FieldDelim.notMem_number (h : FieldDelim delim) {cs : List UInt8}
    (hcs : IsNumber 10 cs) : delim ∉ cs := by
  intro hmem
  have hdigit := hcs delim hmem
  rw [h.2.2] at hdigit
  exact Bool.false_ne_true hdigit

theorem reads_readUnsigned (h : FieldDelim delim) {n : ℕ} (hn : n < 2 ^ 64) :
    Reads (readUnsigned delim) (field delim (numeral 10 n)) n := by
  have hnumber := h.notMem_number (isNumber_numeral (by omega) (by omega) n)
  have hread := (reads_readField hnumber).map fun text => (strtoul text).getD 0
  rwa [strtoul_numeral hn, Option.getD_some] at hread

theorem reads_readLong (h : FieldDelim delim) {z : ℤ} (hmin : -2 ^ 63 ≤ z) (hmax : z < 2 ^ 63) :
    Reads (readLong delim) (field delim (signed z)) z := by
  have hnot : delim ∉ signed z := by
    have hnumber := h.notMem_number (isNumber_numeral (by omega) (by omega) z.natAbs)
    rw [signed]
    split
    · rw [List.mem_cons, not_or]
      exact ⟨h.2.1, hnumber⟩
    · exact hnumber
  have hread := (reads_readField hnot).map fun text => (strtol text).getD 0
  rwa [strtol_signed hmin hmax, Option.getD_some] at hread

theorem reads_int64 (h : FieldDelim delim) (x : Int64) :
    Reads (readLong delim) (field delim (signed x.toInt)) x.toInt :=
  reads_readLong h x.le_toInt x.toInt_lt

theorem reads_int32 (h : FieldDelim delim) (x : Int32) :
    Reads (readLong delim) (field delim (signed x.toInt)) x.toInt := by
  have hmin := x.le_toInt
  have hmax := x.toInt_lt
  exact reads_readLong h (by omega) (by omega)

theorem reads_uint64 (h : FieldDelim delim) (x : UInt64) :
    Reads (readUnsigned delim) (field delim (numeral 10 x.toNat)) x.toNat :=
  reads_readUnsigned h x.toNat_lt

theorem reads_uint32 (h : FieldDelim delim) (x : UInt32) :
    Reads (readUnsigned delim) (field delim (numeral 10 x.toNat)) x.toNat := by
  have hlt := x.toNat_lt
  exact reads_readUnsigned h (by omega)

theorem reads_readStat (h : FieldDelim delim) (s : Stat) :
    Reads (readStat delim) (statToFile delim s) s := by
  have hread : Reads (readStat delim) (statToFile delim s)
      ⟨UInt64.ofNat s.ino.toNat, UInt32.ofNat s.mode.toNat, UInt64.ofNat s.nlink.toNat,
        UInt32.ofNat s.uid.toNat, UInt32.ofNat s.gid.toNat, Int64.ofInt s.size.toInt,
        Int64.ofInt s.blksize.toInt, Int64.ofInt s.blocks.toInt, Int64.ofInt s.atime.toInt,
        Int64.ofInt s.mtime.toInt, Int64.ofInt s.ctime.toInt⟩ := by
    apply (reads_uint64 h s.ino).bind
    apply (reads_uint32 h s.mode).bind
    apply (reads_uint64 h s.nlink).bind
    apply (reads_uint32 h s.uid).bind
    apply (reads_uint32 h s.gid).bind
    apply (reads_int64 h s.size).bind
    apply (reads_int64 h s.blksize).bind
    apply (reads_int64 h s.blocks).bind
    apply (reads_int64 h s.atime).bind
    apply (reads_int64 h s.mtime).bind
    exact (reads_int64 h s.ctime).bind_pure _
  simpa only [UInt64.ofNat_toNat, UInt32.ofNat_toNat, Int64.ofInt_toInt] using hread

end Fields

section Lengths

variable {delim : UInt8}

theorem length_lengthPrefix {n : ℕ} (h : n < 16 ^ 4) : (lengthPrefix n).length = 4 :=
  length_padded (by omega) (by omega) h

/-- A length below `16 ^ 4` is read back from its four digits. -/
theorem scanHex_lengthPrefix {n : ℕ} (h : n < 16 ^ 4) (rest : Bytes) :
    scanHex 4 (lengthPrefix n ++ rest) = some (n, 4) := by
  have hlength := length_lengthPrefix h
  have hnumber : IsNumber 16 (lengthPrefix n) := isNumber_padded (by omega) le_rfl 4 n
  have hne : lengthPrefix n ≠ [] := by
    rw [← List.length_pos_iff, hlength]
    omega
  have hscan := scanHex_append hnumber hne (by omega) rest
  rwa [hlength, lengthPrefix, readDigits_padded (by omega) le_rfl] at hscan

theorem drop_lengthPrefix {n : ℕ} (h : n < 16 ^ 4) (rest : Bytes) :
    (lengthPrefix n ++ rest).drop 4 = rest :=
  List.drop_left' (length_lengthPrefix h)

theorem reads_readPrefixed (column : TextColumn) {size : ℕ} {text : Bytes}
    (hlength : text.length < 16 ^ 4) (hsize : text.length < size) :
    Reads (readPrefixed delim column size) (prefixed delim text) text := by
  intro rest
  have hmin : min text.length (size - 1) = text.length := by
    omega
  simp only [readPrefixed, prefixed, List.append_assoc, scanHex_lengthPrefix hlength,
    drop_lengthPrefix hlength, List.drop_left, List.singleton_append]
  simp [hmin]

theorem reads_readName {len : ℕ} {name : Bytes} (hlength : name.length < 16 ^ 4)
    (hlen : name.length ≤ len) :
    Reads (readName delim len) (prefixed delim name) name := by
  intro rest
  simp only [readName, prefixed, List.append_assoc, scanHex_lengthPrefix hlength,
    drop_lengthPrefix hlength, List.drop_left, List.singleton_append,
    if_neg (Nat.not_lt.mpr hlen)]
  simp

end Lengths

section Xattrs

/-- No byte that ends a name or a value for the reader. -/
def Xattr.Separable (x : Xattr) : Prop :=
  (XATTRDELIM ∉ x.name ∧ 0 ∉ x.name) ∧ XATTRDELIM ∉ x.value ∧ 0 ∉ x.value

theorem cString_eq_self {cs : Bytes} (h : 0 ∉ cs) : cString cs = cs := by
  rw [cString, List.takeWhile_eq_self_iff]
  intro c hc
  have : c ≠ 0 := fun h0 => h (h0 ▸ hc)
  simpa using this

theorem notMem_cString (cs : Bytes) : 0 ∉ cString cs := by
  intro h
  have := List.mem_takeWhile_imp h
  simp at this

theorem cString_subset (cs : Bytes) : cString cs ⊆ cs :=
  (List.takeWhile_sublist _).subset

theorem length_pairsToFile (xattrs : List Xattr) :
    (pairsToFile xattrs).length = xattrsLen xattrs + 2 * xattrs.length := by
  induction xattrs with
  | nil => rfl
  | cons x xattrs ih =>
      simp only [pairsToFile, xattrsLen, List.map_cons, List.flatten_cons, List.length_append,
        List.sum_cons, List.length_cons, xattrToFile, List.length_nil] at ih ⊢
      omega

variable {past : Bool} {after before start name next value before' : Bytes}
  {start' : Option Bytes} {count : ℕ} {pairs : Pairs}

/-- The loop goes on where it finds a name and a value. -/
theorem extractPairs_succ (hsplit : split XATTRDELIM start = some (name, next)) (hnext : next ≠ [])
    (hvalue : extractValue past after (before ++ (name ++ [0])) next =
      .ok (value, before', start')) :
    extractPairs past after (count + 1) before (some start) =
      (extractPairs past after count before' start').map fun pairs =>
        ⟨⟨(cString name).take (MAXXATTR - 1), value.take (MAXXATTR - 1)⟩ :: pairs.xattrs,
          (cString name).length + value.length + 2 + pairs.offset, pairs.line⟩ := by
  simp only [extractPairs, hsplit, if_neg hnext, hvalue]
  change (extractPairs past after count before' start' >>= fun pairs => _) = _
  cases extractPairs past after count before' start' with
  | error e => rfl
  | ok pairs => rfl

/-- One pass of the loop ends it without a pair, or finds a name and a value. -/
theorem extractPairs_cases (h : extractPairs past after (count + 1) before (some start) =
      .ok pairs) :
    pairs.xattrs = [] ∨ ∃ name next value before' start' tail,
      split XATTRDELIM start = some (name, next) ∧ next ≠ [] ∧
      extractValue past after (before ++ (name ++ [0])) next = .ok (value, before', start') ∧
      extractPairs past after count before' start' = .ok tail ∧
      pairs.xattrs =
        ⟨(cString name).take (MAXXATTR - 1), value.take (MAXXATTR - 1)⟩ :: tail.xattrs := by
  cases hsplit : split XATTRDELIM start with
  | none =>
      simp only [extractPairs, hsplit] at h
      split at h
      · exact nomatch h
      · obtain rfl := Except.ok.inj h
        exact .inl rfl
  | some r =>
      obtain ⟨name, next⟩ := r
      by_cases hnext : next = []
      · simp only [extractPairs, hsplit, if_pos hnext] at h
        obtain rfl := Except.ok.inj h
        exact .inl rfl
      · cases hvalue : extractValue past after (before ++ (name ++ [0])) next with
        | error e =>
            simp only [extractPairs, hsplit, if_neg hnext, hvalue] at h
            exact nomatch h
        | ok v =>
            obtain ⟨value, before', start'⟩ := v
            rw [extractPairs_succ hsplit hnext hvalue] at h
            cases htail : extractPairs past after count before' start' with
            | error e =>
                rw [htail] at h
                exact nomatch h
            | ok tail =>
                rw [htail] at h
                obtain rfl := Except.ok.inj h
                exact .inr
                  ⟨name, next, value, before', start', tail, rfl, hnext, hvalue, htail, rfl⟩

theorem pairsToFile_cons (x : Xattr) (xattrs : List Xattr) :
    pairsToFile (x :: xattrs) =
      x.name ++ XATTRDELIM :: (x.value ++ XATTRDELIM :: pairsToFile xattrs) := by
  simp [pairsToFile, xattrToFile]

/-- The loop finds all the pairs, and goes over all their bytes. -/
theorem extractPairs_pairsToFile (after : Bytes) {xattrs : List Xattr}
    (hsep : ∀ x ∈ xattrs, x.Separable)
    (hsize : ∀ x ∈ xattrs, x.name.length < MAXXATTR ∧ x.value.length < MAXXATTR)
    (before : Bytes) :
    ∃ line : Bytes, line.length = before.length + (pairsToFile xattrs).length ∧
      extractPairs false after xattrs.length before (some (pairsToFile xattrs)) =
        .ok ⟨xattrs, (pairsToFile xattrs).length, line⟩ := by
  induction xattrs generalizing before with
  | nil => exact ⟨before, by simp [pairsToFile], by simp [extractPairs, pairsToFile]⟩
  | cons x xattrs ih =>
      obtain ⟨⟨hname, hname0⟩, hvalue, hvalue0⟩ := hsep x (by simp)
      obtain ⟨hnameSize, hvalueSize⟩ := hsize x (by simp)
      obtain ⟨line, hline, hpairs⟩ := ih (fun y hy => hsep y (by simp [hy]))
        (fun y hy => hsize y (by simp [hy]))
        (before ++ (x.name ++ [0]) ++ (x.value ++ [0]))
      have hextract : extractValue false after (before ++ (x.name ++ [0]))
          (x.value ++ XATTRDELIM :: pairsToFile xattrs) =
          .ok (x.value, before ++ (x.name ++ [0]) ++ (x.value ++ [0]),
            some (pairsToFile xattrs)) := by
        simp only [extractValue, split_append hvalue, cString_eq_self hvalue0]
      refine ⟨line, ?_, ?_⟩
      · rw [hline, pairsToFile_cons]
        simp only [List.length_append, List.length_cons, List.length_nil]
        omega
      · rw [List.length_cons, pairsToFile_cons,
          extractPairs_succ (split_append hname _) (by simp) hextract, hpairs,
          cString_eq_self hname0, List.take_of_length_le (by omega),
          List.take_of_length_le (by omega)]
        simp only [Except.map, List.length_append, List.length_cons]
        congr 2
        omega

theorem length_le_xattrsLen {x : Xattr} {xattrs : List Xattr} (hx : x ∈ xattrs) :
    x.name.length + x.value.length ≤ xattrsLen xattrs :=
  List.single_le_sum (fun _ _ => Nat.zero_le _) _ (List.mem_map_of_mem hx)

/-- Behind the two prefixes the loop starts at the first pair, and its region is as long as the
first prefix says. -/
theorem xattrsFromLine_of_prefixes {len : ℕ} {orig : Bytes} {p₁ p₂ : Bytes}
    (hlen : ∀ rest, scanHex 4 (p₁ ++ rest) = some (len, 4))
    (hcount : ∀ rest, scanHex 4 (p₂ ++ rest) = some (count, 4))
    (h₁ : p₁.length = 4) (h₂ : p₂.length = 4) (h4 : 4 ≤ len)
    (hfits : len ≤ orig.length + 4) :
    xattrsFromLine (some (p₁ ++ (p₂ ++ orig))) = (do
      let pairs ← extractPairs false (orig.drop (len - 4)) count [] (some (orig.take (len - 4)))
      let line := pairs.line ++ orig.drop (len - 4)
      if line.length < pairs.offset then .error .outOfLine
      else .ok (pairs.xattrs, some (line.drop pairs.offset))) := by
  have hline : ¬(p₁ ++ (p₂ ++ orig)).length < len := by
    simp only [List.length_append]
    omega
  have hpast : decide (orig.length + 1 < len - 4) = false := by
    simpa using by omega
  have hdrop : (p₁ ++ (p₂ ++ orig)).drop 8 = orig := by
    rw [← List.append_assoc]
    exact List.drop_left' (by simp [h₁, h₂])
  have htake : (orig ++ [0]).take (len - 4) = orig.take (len - 4) :=
    List.take_append_of_le_length (by omega)
  simp only [xattrsFromLine, hlen, List.drop_left' h₁, hcount, if_neg hline, hdrop, hpast, htake,
    if_neg (Nat.not_lt.mpr h4)]
  rfl

/-- Pairs that end in no byte of their own are read back if their length fits. -/
theorem reads_xattrsFromLine {xattrs : List Xattr} (hsep : ∀ x ∈ xattrs, x.Separable)
    (hlength : xattrsLen xattrs + 2 * xattrs.length + 4 < 16 ^ 4) :
    Reads xattrsFromLine (xattrsToFile xattrs) xattrs := by
  intro rest
  have hcount : xattrs.length < 16 ^ 4 := by
    omega
  have hsize : ∀ x ∈ xattrs, x.name.length < MAXXATTR ∧ x.value.length < MAXXATTR := by
    intro x hx
    have := length_le_xattrsLen hx
    simp only [MAXXATTR]
    omega
  have hpairs := length_pairsToFile xattrs
  have hsub : xattrsLen xattrs + 2 * xattrs.length + 4 - 4 = (pairsToFile xattrs).length := by
    omega
  obtain ⟨line, hline, hextract⟩ := extractPairs_pairsToFile rest hsep hsize []
  rw [List.length_nil, Nat.zero_add] at hline
  have hoffset : ¬(line ++ rest).length < (pairsToFile xattrs).length := by
    simp [hline]
  rw [xattrsToFile, List.append_assoc, List.append_assoc,
    xattrsFromLine_of_prefixes (scanHex_lengthPrefix hlength) (scanHex_lengthPrefix hcount)
      (length_lengthPrefix hlength) (length_lengthPrefix hcount) (by omega)
      (by rw [List.length_append]; omega), hsub, List.take_left, List.drop_left, hextract]
  change (if (line ++ rest).length < (pairsToFile xattrs).length then _ else _) = _
  rw [if_neg hoffset, ← hline, List.drop_left]

end Xattrs

end Gufi.Trace
