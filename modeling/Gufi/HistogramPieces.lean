import Gufi.HistogramText

/-!
# Histograms in pieces

The histograms of the parts of the rows, printed and parsed, add up to the histogram of all rows as
long as none of their texts is cut off. The text of a time histogram never is.
-/

namespace Gufi.Histogram

open Stdio
open Trace (cString)

section Layouts

theorem notMem_of_isNumber {base : ℕ} {cs : Bytes} (h : IsNumber base cs) {c : UInt8}
    (hc : digitIn base c = none) : c ∉ cs := by
  intro hmem
  have hsome := h c hmem
  rw [hc] at hsome
  exact Bool.false_ne_true hsome

theorem notMem_numeral (n : ℕ) {c : UInt8} (hc : digitIn 10 c = none) : c ∉ numeral 10 n :=
  notMem_of_isNumber (isNumber_numeral (by omega) (by omega) n) hc

theorem zero_notMem_sizeField (x : UInt64) : 0 ∉ sizeField x := by
  rw [sizeField, List.mem_append, not_or]
  exact ⟨notMem_numeral _ (by decide), by decide⟩

theorem zero_notMem_pairField (key : ℕ) (x : UInt64) : 0 ∉ pairField key x := by
  rw [pairField, List.mem_append, List.mem_cons, not_or, not_or]
  exact ⟨notMem_numeral _ (by decide), by decide, zero_notMem_sizeField x⟩

theorem pairField_semicolon (key : ℕ) (x : UInt64) :
    ∃ body, pairField key x = body ++ [59] ∧ 59 ∉ body := by
  refine ⟨numeral 10 key ++ 58 :: numeral 10 x.toNat, by simp [pairField, sizeField], ?_⟩
  rw [List.mem_append, List.mem_cons, not_or, not_or]
  exact ⟨notMem_numeral _ (by decide), by decide, notMem_numeral _ (by decide)⟩

theorem length_sizeField_le (x : UInt64) : (sizeField x).length ≤ 21 := by
  have hdigits : (numeral 10 x.toNat).length ≤ 20 :=
    (length_numeral_le_iff (by omega) (by omega)).mpr (x.toNat_lt.trans (by norm_num))
  rw [sizeField, List.length_append, List.length_singleton]
  omega

theorem sscanf_sizeField {format : List Directive} {pos : ℕ} (x : UInt64) (rest : Bytes) :
    sscanf (.unsigned 10 none :: .byte 59 :: format) pos (sizeField x ++ rest) =
      (x.toNat :: (sscanf format (pos + (sizeField x).length) rest).1,
        (sscanf format (pos + (sizeField x).length) rest).2) := by
  rw [sizeField, List.append_assoc, List.singleton_append,
    sscanf_numeral x.toNat_lt (by decide), List.length_append, List.length_singleton, Nat.add_assoc]

theorem sscanf_pairField {key : ℕ} (hkey : key < 2 ^ 64) (x : UInt64) (rest : Bytes) :
    sscanf pairFormat 0 (pairField key x ++ rest) =
      ([key, x.toNat], some (pairField key x).length) := by
  rw [pairFormat, pairField, List.append_assoc, List.cons_append,
    sscanf_numeral hkey (by decide), sscanf_sizeField, sscanf]
  simp only [List.length_append, List.length_cons, Nat.zero_add, Prod.mk.injEq, true_and]
  congr 1
  omega

/-- The buckets of a logarithmic histogram. -/
def Layout.log (count : UInt64) : Layout where
  size := count.toNat
  bucketText := pairField
  format := pairFormat
  reset := false
  set := setBucket
  key i := i
  scan _ hi x rest := sscanf_pairField (hi.trans count.toNat_lt) x rest
  set_key _ _ _ _ := rfl
  semicolon := pairField_semicolon
  nul := zero_notMem_pairField

theorem sscanf_modeBucket {mode : ℕ} (hmode : mode < 512) (x : UInt64) (rest : Bytes) :
    sscanf modeFormat 0 (serializeModeBucket mode x ++ rest) =
      ([mode, x.toNat], some (serializeModeBucket mode x).length) := by
  have hread := readDigits_padded (by omega : 1 < 8) (by omega) 3 mode
  have hlength : (padded 3 8 mode).length = 3 := length_padded (by omega) (by omega) (by omega)
  have hne : padded 3 8 mode ≠ [] := by
    intro hnil
    rw [hnil] at hlength
    exact nomatch hlength
  rw [modeFormat, serializeModeBucket, List.append_assoc, List.cons_append,
    sscanf_unsigned (isNumber_padded (by omega) (by omega) 3 mode) hne (.inl (by rw [hlength]))
      (by omega), hread, sscanf_byte, sscanf_sizeField, sscanf]
  simp only [List.length_append, List.length_cons, Nat.zero_add, Prod.mk.injEq, true_and]
  congr 1
  omega

def Layout.mode : Layout where
  size := 512
  bucketText := serializeModeBucket
  format := modeFormat
  reset := true
  set := setMode
  key i := i
  scan _ hi := sscanf_modeBucket hi
  set_key i hi count buckets := by
    rw [setMode, Nat.mod_eq_of_lt (by omega)]
  semicolon i x := by
    refine ⟨padded 3 8 i ++ 58 :: numeral 10 x.toNat, by simp [serializeModeBucket, sizeField], ?_⟩
    rw [List.mem_append, List.mem_cons, not_or, not_or]
    exact ⟨notMem_of_isNumber (isNumber_padded (by omega) (by omega) 3 i) (by decide), by decide,
      notMem_numeral _ (by decide)⟩
  nul i x := by
    rw [serializeModeBucket, List.mem_append, List.mem_cons, not_or, not_or]
    exact ⟨notMem_of_isNumber (isNumber_padded (by omega) (by omega) 3 i) (by decide), by decide,
      zero_notMem_sizeField x⟩

def Layout.time : Layout where
  size := TIME_BUCKETS_COUNT
  bucketText := serializeTimeBucket
  format := pairFormat
  reset := false
  set := setTime
  key i := (TIME_BUCKETS.getD i 0).toUInt64.toNat
  scan _ _ := sscanf_pairField (UInt64.toNat_lt _)
  set_key i hi count buckets := by
    have hfind : ∀ i < TIME_BUCKETS_COUNT, (TIME_BUCKETS.findIdx? fun seconds =>
        (UInt64.ofNat (TIME_BUCKETS.getD i 0).toUInt64.toNat).toInt64 = seconds) = some i := by
      decide
    rw [setTime, hfind i hi, Option.map_some]
  semicolon _ := pairField_semicolon _
  nul _ := zero_notMem_pairField _

end Layouts

section Tally

variable {α : Type*}

/-- How many rows there are for each bucket. -/
def tally (size : ℕ) (bucketOf : α → Option ℕ) (rows : List α) : List UInt64 :=
  (List.range size).map fun i => UInt64.ofNat (rows.countP fun r => bucketOf r = some i)

/-- The bytes that the text of the buckets has, if the numbers of the buckets have `keyBytes`. -/
def printedBytes (keyBytes : ℕ → ℕ) (size : ℕ) (bucketOf : α → Option ℕ) (rows : List α) : ℕ :=
  ((List.range size).map fun i =>
    let count := rows.countP (fun r => bucketOf r = some i) % 2 ^ 64
    if count = 0 then 0 else keyBytes i + 1 + (numeral 10 count).length + 1).sum

variable {size : ℕ} {bucketOf : α → Option ℕ} {rows rows' : List α} {r : α}

@[simp] theorem length_tally : (tally size bucketOf rows).length = size := by simp [tally]

theorem tally_getElem? {i : ℕ} (hi : i < size) : (tally size bucketOf rows)[i]? =
    some (UInt64.ofNat (rows.countP fun r => bucketOf r = some i)) := by
  rw [tally, List.getElem?_map, List.getElem?_range hi, Option.map_some]

theorem tally_ext {buckets : List UInt64} (hlength : buckets.length = size)
    (h : ∀ i < size, buckets[i]? = (tally size bucketOf rows)[i]?) :
    buckets = tally size bucketOf rows := by
  refine List.ext_getElem? fun i => ?_
  rcases lt_or_ge i size with hi | hi
  · exact h i hi
  · rw [List.getElem?_eq_none (by omega), List.getElem?_eq_none (by simpa using hi)]

theorem tally_nil : List.replicate size 0 = tally size bucketOf [] := by
  refine tally_ext List.length_replicate fun i hi => ?_
  rw [tally_getElem? hi, List.getElem?_replicate, if_pos hi]
  rfl

theorem tally_perm (h : rows.Perm rows') :
    tally size bucketOf rows = tally size bucketOf rows' := by
  refine tally_ext length_tally fun i hi => ?_
  rw [tally_getElem? hi, tally_getElem? hi, h.countP_eq]

/-- The counts of two lists of rows add up. -/
theorem addBuckets_tally : addBuckets (tally size bucketOf rows) (tally size bucketOf rows') =
    tally size bucketOf (rows ++ rows') := by
  refine tally_ext (by simp [addBuckets]) fun i hi => ?_
  rw [addBuckets, List.getElem?_zipWith, tally_getElem? hi, tally_getElem? hi, tally_getElem? hi,
    List.countP_append]
  simp

theorem tally_concat_of_some {i : ℕ} (h : bucketOf r = some i) :
    (tally size bucketOf rows).modify i (· + 1) = tally size bucketOf (rows ++ [r]) := by
  refine tally_ext (by simp) fun j hj => ?_
  rw [List.getElem?_modify, tally_getElem? hj, tally_getElem? hj, List.countP_append]
  by_cases hij : i = j
  · subst hij
    simp [h]
  · simp [h, hij]

theorem tally_concat_of_ge (h : ∀ i ∈ bucketOf r, size ≤ i) :
    tally size bucketOf (rows ++ [r]) = tally size bucketOf rows := by
  refine tally_ext length_tally fun j hj => ?_
  have hr : bucketOf r ≠ some j := fun hr => absurd (h j hr) (Nat.not_le.mpr hj)
  rw [tally_getElem? hj, tally_getElem? hj, List.countP_append]
  simp [hr]

theorem zipIdx_map_range (f : ℕ → UInt64) (n : ℕ) :
    ((List.range n).map f).zipIdx = (List.range n).map fun i => (f i, i) := by
  refine List.ext_getElem (by simp) fun i hi hi' => ?_
  simp

theorem length_bucketsText {bucketText : ℕ → UInt64 → Bytes} {keyBytes : ℕ → ℕ}
    (h : ∀ i < size, ∀ count, (bucketText i count).length =
      keyBytes i + 1 + (numeral 10 count.toNat).length + 1) :
    (bucketsText bucketText (filled (tally size bucketOf rows))).length =
      printedBytes keyBytes size bucketOf rows := by
  rw [printedBytes, filled, tally, zipIdx_map_range]
  have hrange : ∀ i ∈ List.range size, i < size := fun i => List.mem_range.mp
  generalize List.range size = l at hrange ⊢
  induction l with
  | nil => rfl
  | cons i l ih =>
      obtain ⟨hi, hl⟩ := List.forall_mem_cons.mp hrange
      rw [List.map_cons, List.map_cons, List.sum_cons, ← ih hl]
      have hzero : UInt64.ofNat (rows.countP fun r => bucketOf r = some i) = 0 ↔
          (rows.countP fun r => bucketOf r = some i) % 2 ^ 64 = 0 := by
        rw [← UInt64.toNat_inj, UInt64.toNat_ofNat']
        rfl
      by_cases hcount : (rows.countP fun r => bucketOf r = some i) % 2 ^ 64 = 0
      · rw [List.filter_cons_of_neg (by simpa using hzero.mpr hcount), if_pos hcount, Nat.zero_add]
      · rw [List.filter_cons_of_pos (by simpa using fun h => hcount (hzero.mp h)), if_neg hcount,
          bucketsText, List.flatMap_cons, List.length_append, h i hi, UInt64.toNat_ofNat',
          bucketsText]

end Tally

section Log

variable (log2Bucket : UInt64 → UInt64 → ℕ) (base count : UInt64)

/-- The bucket of a value, also if it is not one of the buckets that there are. -/
def logBucket (value : SqlValue) : Option ℕ :=
  (logValue value).bind fun v => if v < 1 then none else some (log2Bucket base v)

def isUnderflow (value : SqlValue) : Bool := (logValue value).any fun v => decide (v < 1)

def isOverflow (value : SqlValue) : Bool :=
  (logBucket log2Bucket base value).any fun i => decide (count.toNat ≤ i)

/-- The histogram of values, by counting them. -/
def logCounts (values : List SqlValue) : LogHist :=
  ⟨base, count, UInt64.ofNat (values.countP isUnderflow),
    UInt64.ofNat (values.countP (isOverflow log2Bucket base count)),
    some (tally count.toNat (logBucket log2Bucket base) values)⟩

variable {log2Bucket base count} {values : List SqlValue} {value : SqlValue}

theorem ofNat_countP_concat (p : SqlValue → Bool) :
    UInt64.ofNat ((values ++ [value]).countP p) =
      if p value then UInt64.ofNat (values.countP p) + 1 else UInt64.ofNat (values.countP p) := by
  rw [List.countP_append, List.countP_singleton]
  split_ifs
  · rw [UInt64.ofNat_add]
    rfl
  · rfl

theorem logCounts_concat_of_none (hvalue : logValue value = none) :
    logCounts log2Bucket base count (values ++ [value]) =
      logCounts log2Bucket base count values := by
  have hbucket : logBucket log2Bucket base value = none := by rw [logBucket, hvalue]; rfl
  have hunder : isUnderflow value = false := by rw [isUnderflow, hvalue]; rfl
  have hover : isOverflow log2Bucket base count value = false := by rw [isOverflow, hbucket]; rfl
  simp only [logCounts, ofNat_countP_concat, hunder, hover, Bool.false_eq_true, if_false]
  rw [tally_concat_of_ge (by simp [hbucket])]

theorem logCounts_concat_of_some {v : UInt64} (hvalue : logValue value = some v) :
    logCounts log2Bucket base count (values ++ [value]) =
      logHistInsert log2Bucket (logCounts log2Bucket base count values) v := by
  have hunder : isUnderflow value = decide (v < 1) := by rw [isUnderflow, hvalue]; rfl
  by_cases hv : v < 1
  · have hbucket : logBucket log2Bucket base value = none := by
      rw [logBucket, hvalue, Option.bind_some, if_pos hv]
    have hover : isOverflow log2Bucket base count value = false := by rw [isOverflow, hbucket]; rfl
    simp only [logCounts, ofNat_countP_concat, hunder, hover, decide_eq_true hv, Bool.false_eq_true,
      if_false, if_true, logHistInsert, if_pos hv]
    rw [tally_concat_of_ge (by simp [hbucket])]
  · have hbucket : logBucket log2Bucket base value = some (log2Bucket base v) := by
      rw [logBucket, hvalue, Option.bind_some, if_neg hv]
    have hover : isOverflow log2Bucket base count value =
        decide (count.toNat ≤ log2Bucket base v) := by
      rw [isOverflow, hbucket]
      rfl
    rw [logHistInsert, if_neg hv]
    by_cases hge : count.toNat ≤ log2Bucket base v
    · refine Eq.trans ?_ (if_pos hge).symm
      simp only [logCounts, ofNat_countP_concat, hunder, hover, decide_eq_false hv,
        decide_eq_true hge, Bool.false_eq_true, if_false, if_true]
      rw [tally_concat_of_ge (by simpa [hbucket] using hge)]
    · refine Eq.trans ?_ (if_neg hge).symm
      simp only [logCounts, ofNat_countP_concat, hunder, hover, decide_eq_false hv,
        decide_eq_false hge, Bool.false_eq_true, if_false, Option.map_some]
      rw [tally_concat_of_some hbucket]

variable {lbase bucketCount : Int32}

/-- The histogram of values. Without values it is as it was allocated. -/
def logHistOf (log2Bucket : UInt64 → UInt64 → ℕ) (base count : UInt64) (values : List SqlValue) :
    LogHist :=
  if values = [] then LogHist.zero else logCounts log2Bucket base count values

theorem logHistStep_logHistOf (hbase : 2 ≤ toSize lbase) (values : List SqlValue)
    (value : SqlValue) : logHistStep log2Bucket lbase bucketCount
      (logHistOf log2Bucket (toSize lbase) (toSize bucketCount) values) value =
    some (logHistOf log2Bucket (toSize lbase) (toSize bucketCount) (values ++ [value])) := by
  have hne : (logCounts log2Bucket (toSize lbase) (toSize bucketCount) values).base ≠ 0 := by
    intro hzero
    rw [show toSize lbase = 0 from hzero] at hbase
    exact absurd hbase (by decide)
  have hinit : (if (logHistOf log2Bucket (toSize lbase) (toSize bucketCount) values).base = 0 then
        logHistInit (toSize lbase) (toSize bucketCount)
      else some (logHistOf log2Bucket (toSize lbase) (toSize bucketCount) values)) =
        some (logCounts log2Bucket (toSize lbase) (toSize bucketCount) values) := by
    by_cases hnil : values = []
    · subst hnil
      rw [logHistOf, if_pos rfl, logCounts, ← tally_nil]
      exact if_neg (UInt64.not_lt.mpr hbase)
    · rw [logHistOf, if_neg hnil, if_neg hne]
  rw [logHistStep, hinit, logHistOf, if_neg (by simp)]
  cases hvalue : logValue value with
  | none =>
      rw [logCounts_concat_of_none hvalue]
      rfl
  | some v =>
      rw [logCounts_concat_of_some hvalue]
      rfl

/-- The aggregate counts the values. -/
theorem logHist_eq (hbase : 2 ≤ toSize lbase) (values : List SqlValue) :
    logHist log2Bucket lbase bucketCount values =
      some (logHistOf log2Bucket (toSize lbase) (toSize bucketCount) values) := by
  induction values using List.reverseRecOn with
  | nil => rfl
  | append_singleton values value ih =>
      rw [logHist, List.foldlM_append, ← logHist, ih, ← logHistStep_logHistOf hbase]
      simp only [Option.bind_eq_bind, Option.bind_some, List.foldlM_cons, List.foldlM_nil,
        Option.pure_def, Option.bind_fun_some]

/-- What `log_hist_serialize` prints before the buckets. -/
def logHeader (hist : LogHist) : Bytes :=
  sizeField hist.base ++ sizeField hist.count ++ sizeField hist.lt ++ sizeField hist.ge

def logText (hist : LogHist) : Bytes :=
  logHeader hist ++ bucketsText pairField (filled (hist.buckets.getD []))

variable {hist : LogHist}

theorem length_logHeader_lt : (logHeader hist).length < DEFAULT_HIST_ALLOC := by
  have hbase := length_sizeField_le hist.base
  have hcount := length_sizeField_le hist.count
  have hlt := length_sizeField_le hist.lt
  have hge := length_sizeField_le hist.ge
  simp only [logHeader, List.length_append, DEFAULT_HIST_ALLOC]
  omega

theorem zero_notMem_logText : 0 ∉ logText hist := by
  simp only [logText, logHeader, List.mem_append, not_or]
  exact ⟨⟨⟨⟨zero_notMem_sizeField _, zero_notMem_sizeField _⟩, zero_notMem_sizeField _⟩,
    zero_notMem_sizeField _⟩, (Layout.log 0).zero_notMem _⟩

theorem logHistFinal_eq (hne : hist.base ≠ 0) :
    logHistFinal hist = (logText hist).take (DEFAULT_HIST_ALLOC - 1) := by
  have hprinted := (Printed.header (@length_logHeader_lt hist)).serializeBuckets pairField
    (hist.buckets.getD [])
  rw [logHistFinal, if_neg hne]
  exact (hprinted.cString_eq zero_notMem_logText).1

theorem sscanf_logHeader (rest : Bytes) : sscanf logHeaderFormat 0 (logHeader hist ++ rest) =
    ([hist.base.toNat, hist.count.toNat, hist.lt.toNat, hist.ge.toNat],
      some (logHeader hist).length) := by
  rw [logHeaderFormat, logHeader, List.append_assoc, List.append_assoc, List.append_assoc,
    sscanf_sizeField, sscanf_sizeField, sscanf_sizeField, sscanf_sizeField, sscanf]
  simp only [List.length_append, Nat.zero_add, Nat.add_assoc]

theorem logHistParse_header (hne : hist.base ≠ 0) {beyond : ℕ → UInt8} {rest : Bytes}
    (hnul : 0 ∉ logHeader hist ++ rest) :
    logHistParse beyond (logHeader hist ++ rest) =
      ((Layout.log hist.count).parse beyond (logHeader hist ++ rest)
        (logHeader hist ++ rest).length (logHeader hist).length (logHeader hist).length
        (List.replicate hist.count.toNat 0)).map fun buckets =>
          { hist with buckets := some buckets } := by
  obtain ⟨body, hbody⟩ : ∃ body, logHeader hist = body ++ [59] :=
    ⟨sizeField hist.base ++ sizeField hist.count ++ sizeField hist.lt ++ numeral 10 hist.ge.toNat,
      by simp [logHeader, sizeField]⟩
  have hlength : (logHeader hist).length = body.length + 1 := by simp [hbody]
  have hsemi : charAt beyond (logHeader hist ++ rest) ((logHeader hist).length - 1) = 59 := by
    rw [hlength, Nat.add_sub_cancel, hbody, List.append_assoc, List.singleton_append,
      charAt_semicolon]
  simp only [logHistParse, Trace.cString_eq_self hnul, sscanf_logHeader, Option.getD_some, hsemi,
    UInt64.ofNat_toNat]
  rw [if_neg (by simp [hlength]), if_neg hne]
  rfl

/-- The text is read back exactly if it is not cut off. -/
theorem logHistParse_final_iff (hne : hist.base ≠ 0) {buckets : List UInt64}
    (hbuckets : hist.buckets = some buckets) (hlength : buckets.length = hist.count.toNat) :
    (∀ beyond, logHistParse beyond (logHistFinal hist) = some hist) ↔
      (logText hist).length < DEFAULT_HIST_ALLOC := by
  have htext : logText hist = logHeader hist ++ bucketsText pairField (filled buckets) := by
    rw [logText, hbuckets, Option.getD_some]
  have hheader := @length_logHeader_lt hist
  have hcut : (logText hist).take (DEFAULT_HIST_ALLOC - 1) = logHeader hist ++
      (bucketsText pairField (filled buckets)).take
        (DEFAULT_HIST_ALLOC - 1 - (logHeader hist).length) := by
    rw [htext, List.take_append, List.take_of_length_le (by omega)]
  have hnul : 0 ∉ (logText hist).take (DEFAULT_HIST_ALLOC - 1) := fun hmem =>
    zero_notMem_logText (List.mem_of_mem_take hmem)
  rw [logHistFinal_eq hne,
    ← (Layout.log hist.count).parse_cut_iff hlength hheader (logHeader hist).length htext]
  refine forall_congr' fun beyond => ?_
  rw [hcut] at hnul ⊢
  rw [logHistParse_header hne hnul, Option.map_eq_some_iff]
  constructor
  · rintro ⟨b, hb, hhist⟩
    obtain rfl : b = buckets := Option.some.inj ((congrArg LogHist.buckets hhist).trans hbuckets)
    exact hb
  · intro hb
    refine ⟨buckets, hb, ?_⟩
    cases hist
    simp_all

theorem logHistCombineInplace_logCounts {values values' : List SqlValue} (hbase : base ≠ 0) :
    logHistCombineInplace (logCounts log2Bucket base count values)
      (logCounts log2Bucket base count values') =
      some (logCounts log2Bucket base count (values ++ values')) := by
  simp only [logHistCombineInplace, logCounts, if_neg hbase, ne_eq, not_true_eq_false, if_false,
    Option.map_some, Option.getD_some, addBuckets_tally, List.countP_append, UInt64.ofNat_add]

/-- The aggregate after some of the parts. Those without values may have allocated its buckets. -/
def LogCombined (log2Bucket : UInt64 → UInt64 → ℕ) (base count : UInt64) (hist : LogHist)
    (values : List SqlValue) : Prop :=
  if values = [] then hist = LogHist.zero ∨ hist = { LogHist.zero with buckets := some [] }
  else hist = logCounts log2Bucket base count values

theorem LogCombined.step {beyond : ℕ → UInt8} (hbase : 2 ≤ base) {part : List SqlValue}
    (h : LogCombined log2Bucket base count hist values) {str : Bytes}
    (hstr : logHistParse beyond str = some (logHistOf log2Bucket base count part)) :
    ∃ hist', logHistCombineStep beyond hist str = some hist' ∧
      LogCombined log2Bucket base count hist' (values ++ part) := by
  have hne : base ≠ 0 := by
    rintro rfl
    exact absurd hbase (by decide)
  have hinit : logHistInit base count = some (logCounts log2Bucket base count []) := by
    rw [logHistInit, if_neg (UInt64.not_lt.mpr hbase), logCounts, ← tally_nil]
    rfl
  rw [logHistCombineStep, hstr, Option.bind_some]
  by_cases hpart : part = []
  · subst hpart
    rw [logHistOf, if_pos rfl, List.append_nil]
    by_cases hvalues : values = []
    · rw [LogCombined, if_pos hvalues] at h
      have hempty : LogCombined log2Bucket base count
          { LogHist.zero with buckets := some [] } values := by
        rw [LogCombined, if_pos hvalues]
        exact .inr rfl
      rcases h with rfl | rfl <;> exact ⟨_, rfl, hempty⟩
    · have hsame := h
      rw [LogCombined, if_neg hvalues] at h
      subst h
      exact ⟨_, rfl, hsame⟩
  · rw [logHistOf, if_neg hpart]
    have hcounts : LogCombined log2Bucket base count
        (logCounts log2Bucket base count (values ++ part)) (values ++ part) := by
      rw [LogCombined, if_neg (by simp [hpart])]
    refine ⟨_, ?_, hcounts⟩
    by_cases hvalues : values = []
    · rw [LogCombined, if_pos hvalues] at h
      subst hvalues
      rcases h with rfl | rfl
      · have hzero : ({ LogHist.zero with
            base := (logCounts log2Bucket base count part).base
            count := (logCounts log2Bucket base count part).count
            buckets := some
              (List.replicate (logCounts log2Bucket base count part).count.toNat 0) } : LogHist) =
            logCounts log2Bucket base count [] := by
          rw [logCounts, logCounts, ← tally_nil]
          rfl
        have hnone : LogHist.zero.buckets.isNone = true := rfl
        rw [if_pos hnone, hzero, logHistCombineInplace_logCounts hne]
      · rw [logHistCombineInplace, if_neg (by exact hne), if_pos (by rfl),
          show logHistInit (logCounts log2Bucket base count part).base
            (logCounts log2Bucket base count part).count = _ from hinit, Option.getD_some]
        have hadd := @logHistCombineInplace_logCounts log2Bucket base count [] part hne
        rw [logHistCombineInplace, if_neg (by exact hne), if_neg (by exact hne),
          if_neg (by simp [logCounts]), if_neg (by simp [logCounts])] at hadd
        exact hadd
    · rw [LogCombined, if_neg hvalues] at h
      subst h
      exact logHistCombineInplace_logCounts hne

/-- The parts are combined if their texts are read back. -/
theorem logHistCombine_parts {beyond : ℕ → UInt8} (hbase : 2 ≤ base)
    {parts : List (List SqlValue)}
    (hparts : ∀ part ∈ parts, logHistParse beyond
      (logHistFinal (logHistOf log2Bucket base count part)) =
        some (logHistOf log2Bucket base count part)) :
    ∃ hist, logHistCombine beyond
        (parts.map fun part => logHistFinal (logHistOf log2Bucket base count part)) = some hist ∧
      LogCombined log2Bucket base count hist parts.flatten := by
  induction parts using List.reverseRecOn with
  | nil => exact ⟨LogHist.zero, rfl, .inl rfl⟩
  | append_singleton parts part ih =>
      obtain ⟨hist, hhist, hcombined⟩ := ih fun part hpart => hparts part (by simp [hpart])
      obtain ⟨hist', hstep, hnext⟩ := hcombined.step hbase (hparts part (by simp))
      refine ⟨hist', ?_, by simpa using hnext⟩
      rw [logHistCombine] at hhist
      simp [logHistCombine, List.foldlM_append, hhist, hstep]

/-- The counts of a histogram. Buckets that were not allocated are none. -/
def LogHist.counts (hist : LogHist) : UInt64 × UInt64 × List UInt64 :=
  (hist.lt, hist.ge, hist.buckets.getD [])

theorem LogCombined.counts_eq (h : LogCombined log2Bucket base count hist values)
    {values' : List SqlValue} (hperm : values.Perm values') :
    hist.counts = (logHistOf log2Bucket base count values').counts := by
  rw [LogCombined] at h
  split_ifs at h with hnil
  · subst hnil
    obtain rfl := hperm.nil_eq
    rcases h with rfl | rfl <;> rfl
  · subst h
    rw [logHistOf, if_neg fun hnil' => hnil (by rw [hnil'] at hperm; exact hperm.eq_nil)]
    simp only [LogHist.counts, logCounts, hperm.countP_eq, tally_perm hperm]

end Log

section Mode

variable {modes : List Int32} {beyond : ℕ → UInt8}

def modeCounts (modes : List Int32) : List UInt64 :=
  tally 512 (fun mode => some (modeBucket mode)) modes

theorem modeHist_eq (modes : List Int32) : modeHist modes = modeCounts modes := by
  induction modes using List.reverseRecOn with
  | nil => exact tally_nil
  | append_singleton modes mode ih =>
      rw [modeHist, List.foldl_append, ← modeHist, ih]
      exact tally_concat_of_some rfl

theorem modeHistFinal_eq (hist : List UInt64) : cString (modeHistFinal hist) =
    (bucketsText serializeModeBucket (filled hist)).take (DEFAULT_HIST_ALLOC - 1) := by
  have hprinted := Printed.nil.serializeBuckets serializeModeBucket hist
  exact (hprinted.cString_eq (Layout.mode.zero_notMem _)).2

/-- The bytes of the text of a mode histogram. -/
def modeBytes (modes : List Int32) : ℕ :=
  printedBytes (fun _ => 3) 512 (fun mode => some (modeBucket mode)) modes

theorem length_modeText : (bucketsText serializeModeBucket (filled (modeCounts modes))).length =
    modeBytes modes := by
  refine length_bucketsText fun i hi count => ?_
  rw [serializeModeBucket, List.length_append,
    length_padded (by omega) (by omega) (by omega : i < 8 ^ 3)]
  simp only [sizeField, List.length_append, List.length_cons, List.length_nil]
  omega

theorem modeHistParse_final_iff : (∀ beyond, modeHistParse beyond (modeHistFinal (modeHist modes)) =
    some (modeHist modes)) ↔ modeBytes modes < DEFAULT_HIST_ALLOC := by
  have hlength : (modeCounts modes).length = Layout.mode.size := length_tally
  have hstart : ([] : Bytes).length < DEFAULT_HIST_ALLOC := by decide
  rw [← length_modeText, modeHist_eq]
  refine Iff.trans (forall_congr' fun beyond => ?_)
    (Layout.mode.parse_cut_iff hlength hstart 0 (List.nil_append _).symm)
  rw [modeHistParse, modeHistFinal_eq]
  rfl

/-- The parts are combined if their texts are read back. -/
theorem modeHistCombine_parts {parts : List (List Int32)}
    (hparts : ∀ part ∈ parts, modeHistParse beyond (modeHistFinal (modeHist part)) =
      some (modeHist part)) :
    modeHistCombine beyond (parts.map fun part => modeHistFinal (modeHist part)) =
      some (modeHist parts.flatten) := by
  induction parts using List.reverseRecOn with
  | nil => rfl
  | append_singleton parts part ih =>
      have hbefore := ih fun part hpart => hparts part (by simp [hpart])
      rw [modeHistCombine] at hbefore
      rw [modeHistCombine, List.map_append, List.foldlM_append, hbefore, List.flatten_concat]
      simp only [Option.bind_eq_bind, Option.bind_some, List.map_cons, List.map_nil,
        List.foldlM_cons, List.foldlM_nil, Option.pure_def, Option.bind_fun_some,
        modeHistCombineStep, hparts part (by simp), Option.map_some]
      rw [modeHist_eq, modeHist_eq, modeHist_eq, modeCounts, modeCounts, addBuckets_tally,
        modeCounts]

end Mode

section Time

variable {ref : Int64} {times : List Int64} {beyond : ℕ → UInt8}

def timeCounts (ref : Int64) (times : List Int64) : List UInt64 :=
  tally TIME_BUCKETS_COUNT (fun time => some (timeBucket ref time)) times

theorem timeHist_eq (ref : Int64) (times : List Int64) : timeHist ref times =
    if times = [] then SqliteTimeHist.zero else ⟨⟨timeCounts ref times, ref⟩, true⟩ := by
  induction times using List.reverseRecOn with
  | nil => rfl
  | append_singleton times time ih =>
      have hcounts : (timeCounts ref times).modify (timeBucket ref time) (· + 1) =
          timeCounts ref (times ++ [time]) := tally_concat_of_some rfl
      rw [if_neg (by simp), ← hcounts, timeHist, List.foldl_append, ← timeHist, ih]
      by_cases hnil : times = []
      · rw [if_pos hnil, hnil, timeCounts, ← tally_nil]
        rfl
      · rw [if_neg hnil]
        rfl

def timeText (hist : TimeHist) : Bytes :=
  sizeField hist.ref.toUInt64 ++ bucketsText serializeTimeBucket (filled hist.buckets)

theorem length_timeText_lt (ref : Int64) (times : List Int64) :
    (timeText ⟨timeCounts ref times, ref⟩).length < DEFAULT_HIST_ALLOC := by
  have hheader := length_sizeField_le ref.toUInt64
  have hbuckets : (bucketsText serializeTimeBucket (filled (timeCounts ref times))).length =
      printedBytes (fun i => (numeral 10 (TIME_BUCKETS.getD i 0).toUInt64.toNat).length)
        TIME_BUCKETS_COUNT (fun time => some (timeBucket ref time)) times := by
    refine length_bucketsText fun i _ count => ?_
    simp only [serializeTimeBucket, pairField, sizeField, List.length_append, List.length_cons,
      List.length_nil]
    omega
  -- a count has at most 20 digits
  have hbound : printedBytes (fun i => (numeral 10 (TIME_BUCKETS.getD i 0).toUInt64.toNat).length)
      TIME_BUCKETS_COUNT (fun time => some (timeBucket ref time)) times ≤
        ((List.range TIME_BUCKETS_COUNT).map fun i =>
          (numeral 10 (TIME_BUCKETS.getD i 0).toUInt64.toNat).length + 22).sum := by
    refine List.sum_le_sum fun i _ => ?_
    have hdigits : (numeral 10 (times.countP
        (fun time => some (timeBucket ref time) = some i) % 2 ^ 64)).length ≤ 20 :=
      (length_numeral_le_iff (by omega) (by omega)).mpr
        ((Nat.mod_lt _ (by norm_num)).trans (by norm_num))
    simp only
    split_ifs <;> omega
  have hsum : ((List.range TIME_BUCKETS_COUNT).map fun i =>
      (numeral 10 (TIME_BUCKETS.getD i 0).toUInt64.toNat).length + 22).sum = 364 := by decide
  calc (timeText ⟨timeCounts ref times, ref⟩).length
      = (sizeField ref.toUInt64).length + printedBytes _ TIME_BUCKETS_COUNT _ times := by
        rw [timeText, List.length_append, hbuckets]
    _ ≤ 21 + 364 := Nat.add_le_add hheader (hbound.trans hsum.le)
    _ < DEFAULT_HIST_ALLOC := by decide

theorem zero_notMem_timeText (hist : TimeHist) : 0 ∉ timeText hist := by
  rw [timeText, List.mem_append, not_or]
  exact ⟨zero_notMem_sizeField _, Layout.time.zero_notMem _⟩

/-- The text of a time histogram is read back. -/
theorem timeHistParse_final (ref : Int64) (times : List Int64) :
    timeHistParse beyond (timeHistFinal (timeHist ref times)) =
      some (timeHist ref times).toTimeHist := by
  rw [timeHist_eq]
  by_cases hnil : times = []
  · rw [if_pos hnil]
    rfl
  have hlt := length_timeText_lt ref times
  have hheader : (sizeField ref.toUInt64).length < DEFAULT_HIST_ALLOC := by
    have hle := length_sizeField_le ref.toUInt64
    rw [DEFAULT_HIST_ALLOC]
    omega
  have hfinal : cString (timeHistFinal ⟨⟨timeCounts ref times, ref⟩, true⟩) =
      timeText ⟨timeCounts ref times, ref⟩ := by
    have hprinted := (Printed.header hheader).serializeBuckets serializeTimeBucket
      (timeCounts ref times)
    have htext := (hprinted.cString_eq (zero_notMem_timeText ⟨timeCounts ref times, ref⟩)).2
    exact htext.trans (List.take_of_length_le (Nat.le_sub_one_of_lt hlt))
  have hlength : (timeCounts ref times).length = Layout.time.size := length_tally
  have hparse := (Layout.time.parse_cut_iff hlength hheader (sizeField ref.toUInt64).length
    (rfl : timeText ⟨timeCounts ref times, ref⟩ = _)).mpr hlt beyond
  rw [List.take_of_length_le (Nat.le_sub_one_of_lt hlt)] at hparse
  have hscan : sscanf [.unsigned 10 none, .byte 59] 0 (timeText ⟨timeCounts ref times, ref⟩) =
      ([ref.toUInt64.toNat], some (sizeField ref.toUInt64).length) := by
    rw [timeText, sscanf_sizeField, sscanf, Nat.zero_add]
  have hpos : (sizeField ref.toUInt64).length = (numeral 10 ref.toUInt64.toNat).length + 1 := by
    simp [sizeField]
  have hsemi : charAt beyond (timeText ⟨timeCounts ref times, ref⟩)
      ((sizeField ref.toUInt64).length - 1) = 59 := by
    rw [hpos, Nat.add_sub_cancel, timeText, sizeField, List.append_assoc, List.singleton_append,
      charAt_semicolon]
  rw [if_neg hnil]
  simp only [timeHistParse, hfinal, hscan, Option.getD_some, hsemi, UInt64.ofNat_toNat]
  rw [if_neg (by simp [hpos])]
  exact Option.map_eq_some_iff.mpr ⟨_, hparse, by rw [Int64.toInt64_toUInt64]⟩

theorem timeHistCombineInplace_eq_some {lhs : SqliteTimeHist} {rhs : TimeHist}
    (hlhs : lhs.ref = 0 ∨ lhs.ref = ref) (hrhs : rhs.ref = 0 ∨ rhs.ref = ref) :
    ∃ hist, timeHistCombineInplace lhs rhs = some hist ∧
      hist.buckets = addBuckets lhs.buckets rhs.buckets ∧ (hist.ref = 0 ∨ hist.ref = ref) := by
  rw [timeHistCombineInplace]
  by_cases hzero : lhs.ref = 0
  · exact ⟨_, if_pos hzero, rfl, hrhs⟩
  · rw [if_neg hzero]
    by_cases hzero' : rhs.ref = 0
    · exact ⟨_, if_pos hzero', rfl, hlhs⟩
    · have hsame : ¬ lhs.ref ≠ rhs.ref := by
        rw [hlhs.resolve_left hzero, hrhs.resolve_left hzero']
        exact fun h => h rfl
      rw [if_neg hzero']
      exact ⟨_, if_neg hsame, rfl, hlhs⟩

/-- The counts add up, and the reference time is that of a part or not set. -/
theorem timeHistCombine_parts (ref : Int64) (parts : List (List Int64)) :
    ∃ hist, timeHistCombine beyond (parts.map fun part => timeHistFinal (timeHist ref part)) =
      some hist ∧ hist.buckets = timeCounts ref parts.flatten ∧
        (hist.ref = 0 ∨ hist.ref = ref) := by
  induction parts using List.reverseRecOn with
  | nil => exact ⟨SqliteTimeHist.zero, rfl, tally_nil, .inl rfl⟩
  | append_singleton parts part ih =>
      obtain ⟨hist, hhist, hbuckets, href⟩ := ih
      have hnew : (timeHist ref part).buckets = timeCounts ref part ∧
          ((timeHist ref part).ref = 0 ∨ (timeHist ref part).ref = ref) := by
        rw [timeHist_eq]
        split_ifs with hnil
        · subst hnil
          exact ⟨tally_nil, .inl rfl⟩
        · exact ⟨rfl, .inr rfl⟩
      obtain ⟨hist', hstep, hadd, href'⟩ : ∃ hist', timeHistCombineStep beyond hist
          (timeHistFinal (timeHist ref part)) = some hist' ∧
            hist'.buckets = addBuckets hist.buckets (timeHist ref part).buckets ∧
            (hist'.ref = 0 ∨ hist'.ref = ref) := by
        rw [timeHistCombineStep, timeHistParse_final, Option.bind_some]
        cases hinit : hist.init with
        | true => exact timeHistCombineInplace_eq_some href hnew.2
        | false => exact timeHistCombineInplace_eq_some hnew.2 hnew.2
      refine ⟨hist', ?_, ?_, href'⟩
      · rw [timeHistCombine] at hhist
        simp [timeHistCombine, List.foldlM_append, hhist, hstep]
      · rw [hadd, hbuckets, hnew.1, List.flatten_concat, timeCounts, timeCounts, addBuckets_tally,
          timeCounts]

end Time

section Claim

variable (log2Bucket : UInt64 → UInt64 → ℕ) (beyond : ℕ → UInt8)

/-- The bytes of the text of a logarithmic histogram. -/
def logBytes (base count : UInt64) (values : List SqlValue) : ℕ :=
  (logHeader (logCounts log2Bucket base count values)).length +
    printedBytes (fun i => (numeral 10 i).length) count.toNat (logBucket log2Bucket base) values

/-- The text of each part is read back, and together the parts have the counts of all rows. -/
structure LogInPieces (base count : Int32) (rows : List SqlValue) (parts : List (List SqlValue)) :
    Prop where
  readBack : ∀ part ∈ parts, ∃ hist, logHist log2Bucket base count part = some hist ∧
    logHistParse beyond (logHistFinal hist) = some hist
  combined : ∃ hists whole hist, parts.mapM (logHist log2Bucket base count) = some hists ∧
    logHist log2Bucket base count rows = some whole ∧
    logHistCombine beyond (hists.map logHistFinal) = some hist ∧ hist.counts = whole.counts

structure ModeInPieces (rows : List Int32) (parts : List (List Int32)) : Prop where
  readBack : ∀ part ∈ parts, modeHistParse beyond (modeHistFinal (modeHist part)) =
    some (modeHist part)
  combined : modeHistCombine beyond (parts.map fun part => modeHistFinal (modeHist part)) =
    some (modeHist rows)

structure TimeInPieces (ref : Int64) (rows : List Int64) (parts : List (List Int64)) : Prop where
  readBack : ∀ part ∈ parts, timeHistParse beyond (timeHistFinal (timeHist ref part)) =
    some (timeHist ref part).toTimeHist
  combined : ∃ hist, timeHistCombine beyond
    (parts.map fun part => timeHistFinal (timeHist ref part)) = some hist ∧
      hist.buckets = (timeHist ref rows).buckets

variable {log2Bucket} {base count : Int32}

theorem logHistOf_readBack_iff (hbase : 2 ≤ toSize base) (part : List SqlValue) :
    (∀ beyond, logHistParse beyond
        (logHistFinal (logHistOf log2Bucket (toSize base) (toSize count) part)) =
      some (logHistOf log2Bucket (toSize base) (toSize count) part)) ↔
      logBytes log2Bucket (toSize base) (toSize count) part < DEFAULT_HIST_ALLOC := by
  by_cases hpart : part = []
  · subst hpart
    refine iff_of_true (fun _ => rfl) ?_
    have hheader := @length_logHeader_lt (logCounts log2Bucket (toSize base) (toSize count) [])
    have hnone : printedBytes (fun i => (numeral 10 i).length) (toSize count).toNat
        (logBucket log2Bucket (toSize base)) [] = 0 := List.sum_eq_zero (by simp)
    rwa [logBytes, hnone]
  · have hne : (logCounts log2Bucket (toSize base) (toSize count) part).base ≠ 0 := by
      intro hzero
      rw [show toSize base = 0 from hzero] at hbase
      exact absurd hbase (by decide)
    have hbytes : (logText (logCounts log2Bucket (toSize base) (toSize count) part)).length =
        logBytes log2Bucket (toSize base) (toSize count) part := by
      have hbuckets : (bucketsText pairField (filled (tally (toSize count).toNat
          (logBucket log2Bucket (toSize base)) part))).length =
            printedBytes (fun i => (numeral 10 i).length) (toSize count).toNat
              (logBucket log2Bucket (toSize base)) part := by
        refine length_bucketsText fun i _ x => ?_
        simp only [pairField, sizeField, List.length_append, List.length_cons, List.length_nil]
        omega
      rw [logBytes, ← hbuckets, logText, List.length_append]
      rfl
    rw [logHistOf, if_neg hpart, ← hbytes]
    exact logHistParse_final_iff hne rfl length_tally

theorem logInPieces_iff (hbase : 2 ≤ toSize base) {rows : List SqlValue}
    {parts : List (List SqlValue)} (hperm : parts.flatten.Perm rows) :
    (∀ beyond, LogInPieces log2Bucket beyond base count rows parts) ↔
      ∀ part ∈ parts, logBytes log2Bucket (toSize base) (toSize count) part <
        DEFAULT_HIST_ALLOC := by
  constructor
  · intro h part hpart
    refine (logHistOf_readBack_iff hbase part).mp fun beyond => ?_
    obtain ⟨hist, hhist, hread⟩ := (h beyond).readBack part hpart
    rw [logHist_eq hbase] at hhist
    obtain rfl := Option.some.inj hhist
    exact hread
  · intro hfits beyond
    have hread (part : List SqlValue) (hpart : part ∈ parts) :=
      (logHistOf_readBack_iff hbase part).mpr (hfits part hpart) beyond
    obtain ⟨hist, hhist, hcombined⟩ := logHistCombine_parts hbase hread
    refine ⟨fun part hpart => ⟨_, logHist_eq hbase part, hread part hpart⟩,
      parts.map (logHistOf log2Bucket (toSize base) (toSize count)), _, hist, ?_,
      logHist_eq hbase rows, ?_, hcombined.counts_eq hperm⟩
    · have hpure : logHist log2Bucket base count = fun part =>
          pure (logHistOf log2Bucket (toSize base) (toSize count) part) :=
        funext fun part => logHist_eq hbase part
      rw [hpure, List.mapM_pure]
      rfl
    · rw [List.map_map]
      exact hhist

theorem modeInPieces_iff {rows : List Int32} {parts : List (List Int32)}
    (hperm : parts.flatten.Perm rows) : (∀ beyond, ModeInPieces beyond rows parts) ↔
      ∀ part ∈ parts, modeBytes part < DEFAULT_HIST_ALLOC := by
  constructor
  · exact fun h part hpart => modeHistParse_final_iff.mp fun beyond =>
      (h beyond).readBack part hpart
  · intro hfits beyond
    have hread (part : List Int32) (hpart : part ∈ parts) :=
      modeHistParse_final_iff.mpr (hfits part hpart) beyond
    refine ⟨hread, ?_⟩
    rw [modeHistCombine_parts hread, modeHist_eq, modeHist_eq, modeCounts, tally_perm hperm,
      modeCounts]

theorem timeInPieces {ref : Int64} {rows : List Int64} {parts : List (List Int64)}
    (hperm : parts.flatten.Perm rows) : TimeInPieces beyond ref rows parts := by
  obtain ⟨hist, hhist, hbuckets, -⟩ := @timeHistCombine_parts beyond ref parts
  refine ⟨fun part _ => timeHistParse_final ref part, hist, hhist, ?_⟩
  rw [hbuckets, timeHist_eq, timeCounts, tally_perm hperm]
  split_ifs with hnil
  · rw [hnil]
    exact tally_nil.symm
  · rfl

/-- Files with 86 modes. -/
def manyModes : List Int32 := (List.range 86).map Int32.ofNat

theorem modeBytes_manyModes : modeBytes manyModes = 516 := by
  have hbuckets : manyModes.map modeBucket = List.range 86 := by decide
  have hcount (i : ℕ) : manyModes.countP (fun mode => some (modeBucket mode) = some i) =
      if i < 86 then 1 else 0 := by
    have hmap : manyModes.countP (fun mode => some (modeBucket mode) = some i) =
        (manyModes.map modeBucket).count i := by
      rw [List.count, List.countP_map]
      exact List.countP_congr fun mode _ => by simp
    rw [hmap, hbuckets, List.nodup_range.count]
    simp
  simp only [modeBytes, printedBytes, hcount]
  decide +kernel

end Claim

end Gufi.Histogram
