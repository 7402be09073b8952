import Gufi.HistogramPieces
import Mathlib.Data.List.GetD
import Mathlib.Data.Nat.Log

/-!
# What a log histogram counts

`log_hist_step` reads the base, the number of buckets and integers with `sqlite3_value_int`, which
cuts them to 32 bits. The histogram counts every row in its bucket just if cutting never moves a row
to another one.
-/

namespace Gufi.Histogram

open Stdio ByteBuffer
open Trace (cString)

section Model

/-- Integers and strings. The length of a string is that up to its NUL. -/
inductive LogRow
  | integer (i : Int64)
  | string (bytes : Bytes)

namespace LogRow

def toSql : LogRow → SqlValue
  | integer i => .integer i
  | string bytes => .text bytes

/-- The number a row stands for. -/
def value : LogRow → ℤ
  | integer i => i.toInt
  | string bytes => (cString bytes).length

/-- What is left of it in the types of `log_hist_step`. -/
def cut : LogRow → ℤ
  | integer i => i.toInt32.toInt
  | string bytes => ((cString bytes).length % 2 ^ 64 : ℕ)

end LogRow

/-- `log2(value) / log2(base)` without its fraction, as real numbers would give it. -/
def exactLog (base value : UInt64) : ℕ := Nat.log base.toNat value.toNat

/-- `calloc` returns `NULL` where the number of bytes does not fit. -/
def callocFails (count : UInt64) : Bool := 2 ^ 64 ≤ 8 * count.toNat

/-- The bucket of the value is written, and there are no buckets. -/
def writesNull (hist : LogHist) (value : SqlValue) : Bool :=
  callocFails hist.count &&
    (logBucket exactLog hist.base value).any fun i => decide (i < hist.count.toNat)

/-- `log_hist_step`, with the arguments that SQLite passes. -/
def logHistRow (base bucketCount : Int64) (hist : LogHist) (row : LogRow) : Option LogHist :=
  (logHistStep exactLog base.toInt32 bucketCount.toInt32 hist row.toSql).bind fun hist =>
    if writesNull hist row.toSql then none else some hist

def logHistRows (base bucketCount : Int64) (rows : List LogRow) : Option LogHist :=
  rows.foldlM (logHistRow base bucketCount) LogHist.zero

end Model

section Classes

/-- Where a number belongs. -/
inductive LogClass
  | lt
  | bucket (i : ℕ)
  | ge
deriving DecidableEq

def logClass (base count : ℕ) (v : ℤ) : Option LogClass :=
  if v < 0 then none
  else if v = 0 then some .lt
  else if count ≤ Nat.log base v.toNat then some .ge
  else some (.bucket (Nat.log base v.toNat))

/-- The histogram of the rows, as it should be. -/
structure Counts (base count : ℕ) (rows : List LogRow) (hist : LogHist) : Prop where
  lt : hist.lt.toNat = rows.countP fun r => r.value = 0
  bucket : ∀ i < count, ((hist.buckets.getD []).getD i 0).toNat =
    rows.countP fun r => (base : ℤ) ^ i ≤ r.value ∧ r.value < (base : ℤ) ^ (i + 1)
  ge : hist.ge.toNat = rows.countP fun r => (base : ℤ) ^ count ≤ r.value
  total : (rows.countP fun r => 0 ≤ r.value) =
    hist.lt.toNat + hist.ge.toNat + ((hist.buckets.getD []).map UInt64.toNat).sum

/-- What cutting to 32 bits leaves of the base, the number of buckets and the row puts the row where
it belongs, and in a bucket only if there are buckets. -/
structure KeepsClass (base bucketCount : Int64) (row : LogRow) : Prop where
  two_le : 2 ≤ (toSize base.toInt32).toNat
  same : logClass (toSize base.toInt32).toNat (toSize bucketCount.toInt32).toNat row.cut =
    logClass base.toInt.toNat bucketCount.toInt.toNat row.value
  buckets : ∀ i, logClass (toSize base.toInt32).toNat (toSize bucketCount.toInt32).toNat row.cut =
    some (.bucket i) → callocFails (toSize bucketCount.toInt32) = false

variable {base count i : ℕ} {v : ℤ}

theorem logClass_eq_none : logClass base count v = none ↔ v < 0 := by
  rw [logClass]
  split_ifs <;> simp_all

theorem logClass_eq_lt : logClass base count v = some .lt ↔ v = 0 := by
  rw [logClass]
  split_ifs <;> simp_all
  omega

theorem logClass_eq_ge (hbase : 2 ≤ base) :
    logClass base count v = some .ge ↔ (base : ℤ) ^ count ≤ v := by
  rw [logClass]
  have hpos : (0 : ℤ) < (base : ℤ) ^ count := by positivity
  split_ifs with hneg hzero hlog
  · exact iff_of_false (by simp) (by omega)
  · exact iff_of_false (by simp) (by omega)
  · refine iff_of_true rfl ?_
    have := Nat.pow_le_of_le_log (by omega) hlog
    zify at this
    rwa [Int.toNat_of_nonneg (by omega)] at this
  · refine iff_of_false (by simp) fun hle => hlog (Nat.le_log_of_pow_le (by omega) ?_)
    zify
    rwa [Int.toNat_of_nonneg (by omega)]

theorem logClass_eq_bucket (hbase : 2 ≤ base) (hi : i < count) :
    logClass base count v = some (.bucket i) ↔
      (base : ℤ) ^ i ≤ v ∧ v < (base : ℤ) ^ (i + 1) := by
  rw [logClass]
  have hpos : (0 : ℤ) < (base : ℤ) ^ i := by positivity
  by_cases hv : v ≤ 0
  · refine iff_of_false ?_ (by omega)
    split_ifs <;> simp
    omega
  · obtain ⟨n, rfl⟩ := Int.eq_ofNat_of_zero_le (by omega : 0 ≤ v)
    have hlog : Nat.log base n = i ↔ base ^ i ≤ n ∧ n < base ^ (i + 1) :=
      Nat.log_eq_iff (.inr ⟨by omega, by omega⟩)
    rw [if_neg (by omega), if_neg (by omega), Int.toNat_natCast]
    norm_cast
    rw [← hlog]
    split_ifs with hge
    · exact iff_of_false (by simp) (by omega)
    · simp

end Classes

section Rows

variable {base bucketCount : Int64} {rows : List LogRow} {row : LogRow}

theorem toNat_toSize {i : Int32} (h : 0 ≤ i) : (toSize i).toNat = i.toInt.toNat := by
  have hbits := BitVec.toInt_eq_toNat_cond i.toInt64.toBitVec
  have hint : i.toInt64.toBitVec.toInt = i.toInt := Int32.toInt_toInt64 i
  have hnonneg : 0 ≤ i.toInt := Int32.le_iff_toInt_le.mp h
  have hlt := i.toInt64.toBitVec.isLt
  rw [hint] at hbits
  change i.toInt64.toBitVec.toNat = _
  split_ifs at hbits with hsmall
  · omega
  · exfalso
    omega

/-- The value that is inserted is the one that is left, unless that is negative. -/
theorem logValue_toSql (row : LogRow) :
    logValue row.toSql = if row.cut < 0 then none else some (UInt64.ofNat row.cut.toNat) := by
  cases row with
  | integer i =>
      have hle : 0 ≤ i.toInt32 ↔ ¬ i.toInt32.toInt < 0 := by
        rw [Int32.le_iff_toInt_le, not_lt]
        rfl
      rw [LogRow.toSql, logValue, LogRow.cut]
      by_cases h : 0 ≤ i.toInt32
      · rw [if_pos h, if_neg (hle.mp h), ← toNat_toSize h, UInt64.ofNat_toNat]
      · rw [if_neg h, if_pos (not_not.mp (mt hle.mpr h))]
  | string bytes =>
      rw [LogRow.toSql, logValue, LogRow.cut, if_neg (by omega), Int.toNat_natCast,
        UInt64.ofNat_mod_size]

theorem toNat_cut_lt (row : LogRow) : row.cut.toNat < 2 ^ 64 := by
  cases row with
  | integer i =>
      have := i.toInt32.toInt_lt
      rw [LogRow.cut]
      omega
  | string bytes =>
      rw [LogRow.cut, Int.toNat_natCast]
      exact Nat.mod_lt _ (by norm_num)

theorem toNat_ofNat_cut (row : LogRow) : (UInt64.ofNat row.cut.toNat).toNat = row.cut.toNat :=
  UInt64.toNat_ofNat_of_lt' (toNat_cut_lt row)

theorem ofNat_cut_lt_one (row : LogRow) (h : ¬ row.cut < 0) :
    UInt64.ofNat row.cut.toNat < 1 ↔ row.cut = 0 := by
  rw [UInt64.lt_iff_toNat_lt, toNat_ofNat_cut]
  change row.cut.toNat < 1 ↔ _
  omega

variable (b c : UInt64)

theorem isUnderflow_toSql (row : LogRow) : isUnderflow row.toSql =
    decide (logClass b.toNat c.toNat row.cut = some .lt) := by
  rw [isUnderflow, logValue_toSql, decide_eq_decide.mpr logClass_eq_lt]
  split_ifs with hneg
  · exact (decide_eq_false (by omega)).symm
  · exact decide_eq_decide.mpr (ofNat_cut_lt_one row hneg)

/-- The logarithm is looked up for the rows that are neither below nor in `lt`. -/
theorem logBucket_eq (row : LogRow) : logBucket exactLog b row.toSql =
    if row.cut ≤ 0 then none else some (Nat.log b.toNat row.cut.toNat) := by
  rw [logBucket, logValue_toSql]
  by_cases hneg : row.cut < 0
  · rw [if_pos hneg, if_pos hneg.le, Option.bind_none]
  · rw [if_neg hneg, Option.bind_some, exactLog, toNat_ofNat_cut]
    by_cases hzero : row.cut = 0
    · rw [if_pos ((ofNat_cut_lt_one row hneg).mpr hzero), if_pos hzero.le]
    · rw [if_neg (mt (ofNat_cut_lt_one row hneg).mp hzero), if_neg (by omega)]

theorem isOverflow_toSql (row : LogRow) : isOverflow exactLog b c row.toSql =
    decide (logClass b.toNat c.toNat row.cut = some .ge) := by
  rw [isOverflow, logBucket_eq, logClass]
  split_ifs with h1 h2 h3 h4 h5 <;> simp_all <;> omega

theorem logBucket_toSql (row : LogRow) {i : ℕ} (hi : i < c.toNat) :
    logBucket exactLog b row.toSql = some i ↔
      logClass b.toNat c.toNat row.cut = some (.bucket i) := by
  rw [logBucket_eq, logClass]
  split_ifs with h1 h2 h3 h4 h5 <;> simp_all <;> omega

/-- Whether the row is written to a bucket that could not be allocated. -/
def rowWritesNull (row : LogRow) : Bool :=
  callocFails c && (logBucket exactLog b row.toSql).any fun i => decide (i < c.toNat)

theorem rowWritesNull_eq_false (row : LogRow) : rowWritesNull b c row = false ↔
    ∀ i, logClass b.toNat c.toNat row.cut = some (.bucket i) → callocFails c = false := by
  have hlt : ∀ i, logClass b.toNat c.toNat row.cut = some (.bucket i) → i < c.toNat := by
    intro i hi
    rw [logClass] at hi
    split_ifs at hi with _ _ hge
    · cases hi
    · cases hi
    · obtain rfl := LogClass.bucket.inj (Option.some.inj hi)
      omega
  rw [rowWritesNull, Bool.and_eq_false_iff]
  constructor
  · rintro (hfails | hany) i hi
    · exact hfails
    · rw [(logBucket_toSql b c row (hlt i hi)).mpr hi] at hany
      exact absurd (hlt i hi) (of_decide_eq_false hany)
  · intro h
    cases hbucket : logBucket exactLog b row.toSql with
    | none => exact .inr rfl
    | some i =>
        by_cases hi : i < c.toNat
        · exact .inl (h i ((logBucket_toSql b c row hi).mp hbucket))
        · exact .inr (decide_eq_false hi)

theorem logHistRow_logHistOf (hbase : 2 ≤ toSize base.toInt32) (rows : List LogRow)
    (row : LogRow) : logHistRow base bucketCount (logHistOf exactLog (toSize base.toInt32)
      (toSize bucketCount.toInt32) (rows.map LogRow.toSql)) row =
    if rowWritesNull (toSize base.toInt32) (toSize bucketCount.toInt32) row then none
    else some (logHistOf exactLog (toSize base.toInt32) (toSize bucketCount.toInt32)
      ((rows ++ [row]).map LogRow.toSql)) := by
  have hcounts : logHistOf exactLog (toSize base.toInt32) (toSize bucketCount.toInt32)
      (rows.map LogRow.toSql ++ [row.toSql]) =
        logCounts exactLog (toSize base.toInt32) (toSize bucketCount.toInt32)
          (rows.map LogRow.toSql ++ [row.toSql]) := if_neg (by simp)
  rw [logHistRow, logHistStep_logHistOf hbase, Option.bind_some, List.map_append,
    List.map_singleton, hcounts]
  rfl

/-- A run that does not crash leaves the histogram of the rows as they were cut. -/
theorem logHistRows_eq (hbase : 2 ≤ toSize base.toInt32) (rows : List LogRow) :
    logHistRows base bucketCount rows =
      if rows.any (rowWritesNull (toSize base.toInt32) (toSize bucketCount.toInt32)) then none
      else some (logHistOf exactLog (toSize base.toInt32) (toSize bucketCount.toInt32)
        (rows.map LogRow.toSql)) := by
  induction rows using List.reverseRecOn with
  | nil => rfl
  | append_singleton rows row ih =>
      rw [logHistRows, List.foldlM_append, ← logHistRows, ih, List.any_append, List.any_cons,
        List.any_nil, Bool.or_false]
      cases rows.any (rowWritesNull (toSize base.toInt32) (toSize bucketCount.toInt32)) with
      | true => rfl
      | false =>
          simp only [Bool.false_eq_true, if_false, Option.bind_eq_bind, Option.bind_some,
            List.foldlM_cons, List.foldlM_nil, logHistRow_logHistOf hbase, Bool.false_or]
          cases rowWritesNull (toSize base.toInt32) (toSize bucketCount.toInt32) row <;> rfl

theorem logHistRows_of_lt (hbase : ¬ 2 ≤ toSize base.toInt32) (hne : rows ≠ []) :
    logHistRows base bucketCount rows = none := by
  obtain ⟨row, rest, rfl⟩ := List.exists_cons_of_ne_nil hne
  have hinit : logHistInit (toSize base.toInt32) (toSize bucketCount.toInt32) = none :=
    if_pos (UInt64.not_le.mp hbase)
  rw [logHistRows, List.foldlM_cons, logHistRow, logHistStep]
  simp only [LogHist.zero, if_true, hinit, Option.map_none, Option.bind_none]
  rfl

end Rows

section Sums

theorem sum_range_update {n i : ℕ} (hi : i < n) {f g : ℕ → ℕ} (h : ∀ j, j ≠ i → f j = g j) :
    ((List.range n).map f).sum + g i = ((List.range n).map g).sum + f i := by
  induction n with
  | zero => omega
  | succ n ih =>
      rw [List.range_succ, List.map_append, List.map_append, List.sum_append, List.sum_append,
        List.map_singleton, List.map_singleton, List.sum_singleton, List.sum_singleton]
      rcases Nat.lt_succ_iff_lt_or_eq.mp hi with hlt | rfl
      · have := ih hlt
        have := h n (by omega)
        omega
      · have hrest : (List.range i).map f = (List.range i).map g :=
          List.map_congr_left fun j hj => h j (by have := List.mem_range.mp hj; omega)
        rw [hrest]
        omega

variable {α : Type*} {f : α → Option LogClass} {rows : List α} {n : ℕ}

/-- The rows that are counted at all are those of all classes. -/
theorem countP_isSome_eq (h : ∀ r ∈ rows, ∀ i, f r = some (.bucket i) → i < n) :
    (rows.countP fun r => (f r).isSome) =
      (rows.countP fun r => f r = some .lt) + (rows.countP fun r => f r = some .ge) +
        ((List.range n).map fun i => rows.countP fun r => f r = some (.bucket i)).sum := by
  induction rows with
  | nil => simp
  | cons r rows ih =>
      obtain ⟨hr, hrows⟩ := List.forall_mem_cons.mp h
      have ih := ih hrows
      simp only [List.countP_cons]
      rcases hclass : f r with _ | _ | i | _
      · simpa using ih
      · simp only [Option.isSome_some, if_true, reduceCtorEq, decide_false, decide_true,
          Bool.false_eq_true, if_false, Nat.add_zero, Option.some.injEq]
        omega
      · have hone := sum_range_update (hr i hclass)
          (f := fun j => rows.countP (fun r => f r = some (.bucket j)) +
            if decide (some (LogClass.bucket i) = some (.bucket j)) = true then 1 else 0)
          (g := fun j => rows.countP fun r => f r = some (.bucket j))
          (fun j hj => by simp [Ne.symm hj])
        simp only [decide_true, if_true] at hone
        simp only [Option.isSome_some, if_true, reduceCtorEq, decide_false, Bool.false_eq_true,
          if_false, Nat.add_zero, Option.some.injEq] at hone ⊢
        omega
      · simp only [Option.isSome_some, if_true, reduceCtorEq, decide_false, decide_true,
          Bool.false_eq_true, if_false, Nat.add_zero, Option.some.injEq]
        omega

end Sums

section Main

variable (base bucketCount : Int64)

/-- The class of a row. -/
def rowClass (row : LogRow) : Option LogClass :=
  logClass base.toInt.toNat bucketCount.toInt.toNat row.value

/-- The class of what is left of a row, with what is left of the base and of the number of
buckets. -/
def cutClass (row : LogRow) : Option LogClass :=
  logClass (toSize base.toInt32).toNat (toSize bucketCount.toInt32).toNat row.cut

/-- `Counts`, by the classes of the rows. -/
structure Agrees (rows : List LogRow) : Prop where
  lt : rows.countP (cutClass base bucketCount · = some .lt) % 2 ^ 64 =
    rows.countP (rowClass base bucketCount · = some .lt)
  bucket : ∀ i < bucketCount.toInt.toNat,
    rows.countP (cutClass base bucketCount · = some (.bucket i)) % 2 ^ 64 =
      rows.countP (rowClass base bucketCount · = some (.bucket i))
  ge : rows.countP (cutClass base bucketCount · = some .ge) % 2 ^ 64 =
    rows.countP (rowClass base bucketCount · = some .ge)
  total : rows.countP (fun r => (rowClass base bucketCount r).isSome) =
    rows.countP (cutClass base bucketCount · = some .lt) % 2 ^ 64 +
      rows.countP (cutClass base bucketCount · = some .ge) % 2 ^ 64 +
        ((List.range (toSize bucketCount.toInt32).toNat).map fun i =>
          rows.countP (cutClass base bucketCount · = some (.bucket i)) % 2 ^ 64).sum

variable {base bucketCount} {rows : List LogRow} {row : LogRow}

theorem bucket_lt {b c i : ℕ} {v : ℤ} (h : logClass b c v = some (.bucket i)) : i < c := by
  rw [logClass] at h
  split_ifs at h with _ _ hge
  · cases h
  · cases h
  · obtain rfl := LogClass.bucket.inj (Option.some.inj h)
    omega

/-- No row is in a bucket that is not there. -/
theorem countP_bucket_eq_zero {b c i : ℕ} {value : LogRow → ℤ} (hi : ¬ i < c) :
    rows.countP (fun r => logClass b c (value r) = some (.bucket i)) = 0 :=
  List.countP_eq_zero.mpr fun _ _ hr => hi (bucket_lt (of_decide_eq_true hr))

/-- A counter of the rows of one class. -/
theorem toNat_countP_toSql {p : SqlValue → Bool} {k : LogClass} (rows : List LogRow)
    (h : ∀ row : LogRow, p row.toSql = decide (cutClass base bucketCount row = some k)) :
    (UInt64.ofNat ((rows.map LogRow.toSql).countP p)).toNat =
      rows.countP (cutClass base bucketCount · = some k) % 2 ^ 64 := by
  rw [UInt64.toNat_ofNat', List.countP_map]
  congr 2
  exact funext h

theorem toNat_lt_logHistOf (rows : List LogRow) :
    (logHistOf exactLog (toSize base.toInt32) (toSize bucketCount.toInt32)
      (rows.map LogRow.toSql)).lt.toNat =
        rows.countP (cutClass base bucketCount · = some .lt) % 2 ^ 64 := by
  rw [logHistOf]
  split_ifs with hnil
  · rw [List.map_eq_nil_iff.mp hnil]
    rfl
  · exact toNat_countP_toSql rows (isUnderflow_toSql _ _)

theorem toNat_ge_logHistOf (rows : List LogRow) :
    (logHistOf exactLog (toSize base.toInt32) (toSize bucketCount.toInt32)
      (rows.map LogRow.toSql)).ge.toNat =
        rows.countP (cutClass base bucketCount · = some .ge) % 2 ^ 64 := by
  rw [logHistOf]
  split_ifs with hnil
  · rw [List.map_eq_nil_iff.mp hnil]
    rfl
  · exact toNat_countP_toSql rows (isOverflow_toSql _ _)

theorem buckets_logHistOf (rows : List LogRow) (hne : rows ≠ []) :
    ((logHistOf exactLog (toSize base.toInt32) (toSize bucketCount.toInt32)
      (rows.map LogRow.toSql)).buckets.getD []).map UInt64.toNat =
        (List.range (toSize bucketCount.toInt32).toNat).map fun i =>
          rows.countP (cutClass base bucketCount · = some (.bucket i)) % 2 ^ 64 := by
  rw [logHistOf, if_neg (by simpa using hne), logCounts, Option.getD_some, tally, List.map_map]
  refine List.map_congr_left fun i hi => ?_
  exact toNat_countP_toSql rows fun row =>
    decide_eq_decide.mpr (logBucket_toSql _ _ row (List.mem_range.mp hi))

theorem toNat_getD_buckets (rows : List LogRow) (i : ℕ) :
    (((logHistOf exactLog (toSize base.toInt32) (toSize bucketCount.toInt32)
      (rows.map LogRow.toSql)).buckets.getD []).getD i 0).toNat =
        rows.countP (cutClass base bucketCount · = some (.bucket i)) % 2 ^ 64 := by
  by_cases hne : rows = []
  · rw [hne]
    rfl
  · have hmap := @buckets_logHistOf base bucketCount rows hne
    refine (List.getD_map _ 0 UInt64.toNat).symm.trans ?_
    rw [hmap]
    by_cases hi : i < (toSize bucketCount.toInt32).toNat
    · rw [List.getD_eq_getElem _ _ (by simpa using hi), List.getElem_map, List.getElem_range]
    · have hnone : rows.countP (cutClass base bucketCount · = some (.bucket i)) = 0 :=
        countP_bucket_eq_zero hi
      rw [List.getD_eq_default _ _ (by simpa using hi), hnone]
      rfl

theorem counts_iff_agrees (hbase : 2 ≤ base.toInt.toNat) (rows : List LogRow) :
    Counts base.toInt.toNat bucketCount.toInt.toNat rows
      (logHistOf exactLog (toSize base.toInt32) (toSize bucketCount.toInt32)
        (rows.map LogRow.toSql)) ↔ Agrees base bucketCount rows := by
  have hlt : (rows.countP fun r => r.value = 0) =
      rows.countP (rowClass base bucketCount · = some .lt) := by
    refine List.countP_congr fun r _ => ?_
    rw [decide_eq_true_iff, decide_eq_true_iff, rowClass, logClass_eq_lt]
  have hge : (rows.countP fun r => (base.toInt.toNat : ℤ) ^ bucketCount.toInt.toNat ≤ r.value) =
      rows.countP (rowClass base bucketCount · = some .ge) := by
    refine List.countP_congr fun r _ => ?_
    rw [decide_eq_true_iff, decide_eq_true_iff, rowClass, logClass_eq_ge hbase]
  have hbucket : ∀ i < bucketCount.toInt.toNat, (rows.countP fun r =>
      (base.toInt.toNat : ℤ) ^ i ≤ r.value ∧ r.value < (base.toInt.toNat : ℤ) ^ (i + 1)) =
        rows.countP (rowClass base bucketCount · = some (.bucket i)) := by
    intro i hi
    refine List.countP_congr fun r _ => ?_
    rw [decide_eq_true_iff, decide_eq_true_iff, rowClass, logClass_eq_bucket hbase hi]
  have htotal : (rows.countP fun r => 0 ≤ r.value) =
      rows.countP fun r => (rowClass base bucketCount r).isSome := by
    refine List.countP_congr fun r _ => ?_
    rw [decide_eq_true_iff, rowClass, Option.isSome_iff_ne_none, ne_eq, logClass_eq_none, not_lt]
  have hsum : (((logHistOf exactLog (toSize base.toInt32) (toSize bucketCount.toInt32)
      (rows.map LogRow.toSql)).buckets.getD []).map UInt64.toNat).sum =
        ((List.range (toSize bucketCount.toInt32).toNat).map fun i =>
          rows.countP (cutClass base bucketCount · = some (.bucket i)) % 2 ^ 64).sum := by
    by_cases hne : rows = []
    · rw [hne]
      simp [logHistOf, LogHist.zero]
    · rw [buckets_logHistOf rows hne]
  constructor
  · rintro ⟨h1, h2, h3, h4⟩
    rw [toNat_lt_logHistOf, hlt] at h1
    rw [toNat_ge_logHistOf, hge] at h3
    rw [htotal, toNat_lt_logHistOf, toNat_ge_logHistOf, hsum] at h4
    refine ⟨h1, fun i hi => ?_, h3, h4⟩
    have := h2 i hi
    rwa [toNat_getD_buckets, hbucket i hi] at this
  · rintro ⟨h1, h2, h3, h4⟩
    refine ⟨?_, fun i hi => ?_, ?_, ?_⟩
    · rw [toNat_lt_logHistOf, hlt, h1]
    · rw [toNat_getD_buckets, hbucket i hi, h2 i hi]
    · rw [toNat_ge_logHistOf, hge, h3]
    · rw [htotal, toNat_lt_logHistOf, toNat_ge_logHistOf, hsum, h4]

/-- Rows that keep their classes are counted right, as far as the counters go. -/
theorem agrees_of_same (h : ∀ r ∈ rows, cutClass base bucketCount r = rowClass base bucketCount r)
    (hlt : ∀ k, rows.countP (rowClass base bucketCount · = some k) < 2 ^ 64) :
    Agrees base bucketCount rows := by
  have hsame (k : LogClass) : rows.countP (cutClass base bucketCount · = some k) % 2 ^ 64 =
      rows.countP (rowClass base bucketCount · = some k) := by
    have hcount : rows.countP (cutClass base bucketCount · = some k) =
        rows.countP (rowClass base bucketCount · = some k) :=
      List.countP_congr fun r hr => by rw [h r hr]
    rw [hcount, Nat.mod_eq_of_lt (hlt k)]
  refine ⟨hsame _, fun i _ => hsame _, hsame _, ?_⟩
  rw [hsame, hsame]
  simp only [hsame]
  refine countP_isSome_eq fun r hr i hi => ?_
  have hcut : cutClass base bucketCount r = some (.bucket i) := (h r hr).trans hi
  exact bucket_lt hcut

/-- A row after which the counts are still right keeps its class. -/
theorem same_of_agrees (h : Agrees base bucketCount rows)
    (h' : Agrees base bucketCount (rows ++ [row])) :
    cutClass base bucketCount row = rowClass base bucketCount row := by
  have hone {k : LogClass}
      (hk : rows.countP (cutClass base bucketCount · = some k) % 2 ^ 64 =
        rows.countP (rowClass base bucketCount · = some k))
      (hk' : (rows ++ [row]).countP (cutClass base bucketCount · = some k) % 2 ^ 64 =
        (rows ++ [row]).countP (rowClass base bucketCount · = some k)) :
      cutClass base bucketCount row = some k ↔ rowClass base bucketCount row = some k := by
    rw [List.countP_append, List.countP_singleton, List.countP_append, List.countP_singleton,
      ← hk] at hk'
    simp only [decide_eq_true_eq] at hk'
    split_ifs at hk' with hcut hrow hrow
    · exact iff_of_true hcut hrow
    · omega
    · omega
    · exact iff_of_false hcut hrow
  have hlt := hone h.lt h'.lt
  have hge := hone h.ge h'.ge
  cases hrow : rowClass base bucketCount row with
  | some k =>
      cases k with
      | lt => exact hlt.mpr hrow
      | ge => exact hge.mpr hrow
      | bucket i =>
          have hi := bucket_lt hrow
          exact (hone (h.bucket i hi) (h'.bucket i hi)).mpr hrow
  | none =>
      by_contra hne
      obtain ⟨k, hk⟩ := Option.ne_none_iff_exists'.mp hne
      cases k with
      | lt => exact absurd (hlt.mp hk) (by rw [hrow]; simp)
      | ge => exact absurd (hge.mp hk) (by rw [hrow]; simp)
      | bucket i =>
          -- the row is counted in a bucket but not among the rows
          have hbefore := h.total
          have htotal := h'.total
          have hsum := sum_range_update (bucket_lt hk)
            (f := fun j => (rows ++ [row]).countP
              (cutClass base bucketCount · = some (.bucket j)) % 2 ^ 64)
            (g := fun j => rows.countP (cutClass base bucketCount · = some (.bucket j)) % 2 ^ 64)
            (fun j hj => by simp [hk, Ne.symm hj])
          simp only [List.countP_append, List.countP_singleton, hrow, hk, Option.isSome_none,
            Option.some.injEq, reduceCtorEq, decide_false, Bool.false_eq_true, if_false,
            Nat.add_zero, decide_true, if_true] at hsum htotal
          omega

theorem toInt_toNat_two_le (hbase : 2 ≤ base) : 2 ≤ base.toInt.toNat := by
  have : (2 : Int64).toInt ≤ base.toInt := Int64.le_iff_toInt_le.mp hbase
  change 2 ≤ base.toInt at this
  omega

/-- The histogram after some rows is the one they should have. -/
theorem agrees_of_counts (hbase : 2 ≤ base.toInt.toNat) {hist : LogHist}
    (hrun : logHistRows base bucketCount rows = some hist) (hne : rows ≠ [])
    (hcounts : Counts base.toInt.toNat bucketCount.toInt.toNat rows hist) :
    Agrees base bucketCount rows := by
  have htwo : 2 ≤ toSize base.toInt32 := by
    by_contra hlt
    rw [logHistRows_of_lt hlt hne] at hrun
    cases hrun
  rw [logHistRows_eq htwo] at hrun
  split_ifs at hrun
  rw [← Option.some.inj hrun] at hcounts
  exact (counts_iff_agrees hbase rows).mp hcounts

/-- A row that does not crash the program, and after which the counts are still right. -/
theorem keepsClass_of_counts (hbase : 2 ≤ base.toInt.toNat) {done : List LogRow}
    {hist hist' : LogHist} (hrun : logHistRows base bucketCount done = some hist)
    (hcounts : Counts base.toInt.toNat bucketCount.toInt.toNat done hist)
    (hrun' : logHistRows base bucketCount (done ++ [row]) = some hist')
    (hcounts' : Counts base.toInt.toNat bucketCount.toInt.toNat (done ++ [row]) hist') :
    KeepsClass base bucketCount row := by
  have hagrees : Agrees base bucketCount done := by
    by_cases hne : done = []
    · subst hne
      exact agrees_of_same (by simp) (by simp)
    · exact agrees_of_counts hbase hrun hne hcounts
  have hagrees' := agrees_of_counts hbase hrun' (by simp) hcounts'
  have htwo : 2 ≤ toSize base.toInt32 := by
    by_contra hlt
    rw [logHistRows_of_lt hlt (by simp)] at hrun'
    cases hrun'
  rw [logHistRows_eq htwo, List.any_append, List.any_cons, List.any_nil, Bool.or_false] at hrun'
  split_ifs at hrun' with hnull
  have hrow : rowWritesNull (toSize base.toInt32) (toSize bucketCount.toInt32) row = false := by
    rw [Bool.or_eq_true, not_or, Bool.not_eq_true, Bool.not_eq_true] at hnull
    exact hnull.2
  exact ⟨UInt64.le_iff_toNat_le.mp htwo, same_of_agrees hagrees hagrees',
    (rowWritesNull_eq_false _ _ row).mp hrow⟩

/-- The histogram is right after every row just if no row moves to another class when its number,
the base and the number of buckets are cut to 32 bits, and no counter wraps around. -/
theorem log_hist_counts_iff (hbase : 2 ≤ base) (rows : List LogRow) :
    (∀ done, done <+: rows → ∃ hist, logHistRows base bucketCount done = some hist ∧
      Counts base.toInt.toNat bucketCount.toInt.toNat done hist) ↔
    (∀ row ∈ rows, KeepsClass base bucketCount row) ∧
      ∀ k, rows.countP (fun row => logClass base.toInt.toNat bucketCount.toInt.toNat row.value =
        some k) < 2 ^ 64 := by
  have hbase := toInt_toNat_two_le hbase
  constructor
  · intro h
    refine ⟨fun row hrow => ?_, fun k => ?_⟩
    · obtain ⟨done, rest, rfl⟩ := List.append_of_mem hrow
      obtain ⟨hist, hrun, hcounts⟩ := h done (List.prefix_append done _)
      obtain ⟨hist', hrun', hcounts'⟩ := h (done ++ [row]) ⟨rest, by simp⟩
      exact keepsClass_of_counts hbase hrun hcounts hrun' hcounts'
    · by_cases hne : rows = []
      · subst hne
        simp
      · obtain ⟨hist, hrun, hcounts⟩ := h rows (List.prefix_refl rows)
        have hagrees := agrees_of_counts hbase hrun hne hcounts
        have hmod (n : ℕ) : n % 2 ^ 64 < 2 ^ 64 := Nat.mod_lt n (by norm_num)
        cases k with
        | lt => exact hagrees.lt ▸ hmod _
        | ge => exact hagrees.ge ▸ hmod _
        | bucket i =>
            by_cases hi : i < bucketCount.toInt.toNat
            · exact hagrees.bucket i hi ▸ hmod _
            · rw [countP_bucket_eq_zero hi]
              norm_num
  · rintro ⟨hkeeps, hcount⟩ done hdone
    by_cases hne : done = []
    · subst hne
      have hagrees : Agrees base bucketCount [] := agrees_of_same (by simp) (by simp)
      exact ⟨LogHist.zero, rfl, (counts_iff_agrees hbase []).mpr hagrees⟩
    · have hkeeps : ∀ row ∈ done, KeepsClass base bucketCount row :=
        fun row hrow => hkeeps row (hdone.subset hrow)
      obtain ⟨row, hrow⟩ := List.exists_mem_of_ne_nil done hne
      have htwo : 2 ≤ toSize base.toInt32 := UInt64.le_iff_toNat_le.mpr (hkeeps row hrow).two_le
      have hnull : done.any (rowWritesNull (toSize base.toInt32) (toSize bucketCount.toInt32)) =
          false := by
        rw [List.any_eq_false]
        intro row hrow
        rw [Bool.not_eq_true, rowWritesNull_eq_false]
        exact (hkeeps row hrow).buckets
      refine ⟨_, by rw [logHistRows_eq htwo, hnull]; rfl, (counts_iff_agrees hbase done).mpr ?_⟩
      refine agrees_of_same (fun row hrow => (hkeeps row hrow).same) fun k => ?_
      exact (hdone.sublist.countP_le).trans_lt (hcount k)

/-- Three sizes and a name. -/
def fourRows : List LogRow := [.integer 0, .integer 5, .integer 100, .string [97, 98, 0, 99]]

theorem log_hist_counts_four : ∃ hist, logHistRows 2 4 fourRows = some hist ∧
    Counts 2 4 fourRows hist := by
  refine (@log_hist_counts_iff 2 4 (by decide) fourRows).mpr ⟨?_, fun k => ?_⟩ _
    (List.prefix_refl _)
  · intro row hrow
    have hfails : callocFails (toSize (4 : Int64).toInt32) = false := by decide
    refine ⟨by decide, ?_, fun _ _ => hfails⟩
    revert row
    decide
  · exact List.countP_le_length.trans_lt (by norm_num [fourRows])

/-- A file of 4 GiB is counted as an empty one. -/
theorem not_log_hist_counts_4G : ¬ ∀ base bucketCount : Int64, 2 ≤ base → 0 ≤ bucketCount →
    ∀ rows : List LogRow, ∃ hist, logHistRows base bucketCount rows = some hist ∧
      Counts base.toInt.toNat bucketCount.toInt.toNat rows hist := by
  intro h
  obtain ⟨hist, hrun, hcounts⟩ := h 2 4 (by decide) (by decide) [.integer 4294967296]
  have hempty : logHistRows 2 4 [.integer 4294967296] =
      some ⟨2, 4, 1, 0, some [0, 0, 0, 0]⟩ := by decide
  rw [hempty, Option.some.injEq] at hrun
  subst hrun
  exact absurd hcounts.lt (by decide)

end Main

end Gufi.Histogram
