import Gufi.ByteBuffer
import Gufi.Scanf
import Gufi.Trace

/-!
# Histograms

The aggregates of `histogram.c` for logarithms, modes and times: rows are counted in buckets, the
counts are printed to a text that grows, and the texts of several histograms are parsed and added
up. Counts are `size_t` and wrap around. `log2` is that of the C library.
-/

namespace Gufi.Histogram

open Stdio ByteBuffer
open Trace (cString)

section Text

/-- The allocated bytes, and how many of them are behind `curr`. -/
structure Serialized where
  buf : Bytes
  written : ℕ

def DEFAULT_HIST_ALLOC : ℕ := 512

/-- `serialize_bucket`, where `text` is what the callback formats. What did not fit is not formatted
again. The bytes that `realloc` adds have no set value. -/
def serializeBucket (s : Serialized) (text : Bytes) : Serialized :=
  let avail := s.buf.length - s.written
  let buf := snprintf s.buf s.written avail text
  if avail ≤ text.length then
    ⟨buf ++ List.replicate (2 * text.length) 0, s.written + text.length⟩
  else ⟨buf, s.written + text.length⟩

/-- The buckets that are not empty, in order. -/
def serializeBuckets (bucketText : ℕ → UInt64 → Bytes) (buckets : List UInt64) (s : Serialized) :
    Serialized :=
  (buckets.zipIdx.filter fun b => b.1 ≠ 0).foldl
    (fun s b => serializeBucket s (bucketText b.2 b.1)) s

/-- `"%zu;"`. -/
def sizeField (x : UInt64) : Bytes := numeral 10 x.toNat ++ [59]

/-- `"%zu:%zu;"`. -/
def pairField (key : ℕ) (x : UInt64) : Bytes := numeral 10 key ++ 58 :: sizeField x

/-- What is at `str[i]`. Nothing is known of the bytes behind the NUL. -/
def charAt (beyond : ℕ → UInt8) (str : Bytes) (i : ℕ) : UInt8 :=
  if i < str.length then str.getD i 0 else if i = str.length then 0 else beyond i

/-- The loop of a parser. Where `%n` is not reached, `read` has the value of the round before, or 0
if it is `reset`. Each round reads at least one byte. -/
def parseBuckets (format : List Directive) (reset : Bool)
    (set : ℕ → UInt64 → List UInt64 → Option (List UInt64)) (beyond : ℕ → UInt8) (str : Bytes) :
    ℕ → ℕ → ℕ → List UInt64 → Option (List UInt64)
  | 0, total, _, buckets => if str.length ≤ total then some buckets else none
  | fuel + 1, total, read, buckets =>
    if str.length ≤ total then some buckets
    else
      let scanned := sscanf format 0 (str.drop total)
      let read := scanned.2.getD (if reset then 0 else read)
      match scanned.1 with
      | [bucket, count] =>
        if (reset && decide (read = 0)) || charAt beyond str (total + read - 1) != 59 then none
        else (set bucket (UInt64.ofNat count) buckets).bind
          (parseBuckets format reset set beyond str fuel (total + read) read)
      | _ => none

/-- `"%zu:%zu;%n"`. -/
def pairFormat : List Directive := [.unsigned 10 none, .byte 58, .unsigned 10 none, .byte 59]

/-- `lhs->buckets[i] += rhs->buckets[i]` -/
def addBuckets (lhs rhs : List UInt64) : List UInt64 := List.zipWith (· + ·) lhs rhs

end Text

section Log

structure LogHist where
  base : UInt64
  count : UInt64
  lt : UInt64
  ge : UInt64
  buckets : Option (List UInt64)
deriving DecidableEq

/-- An argument of an aggregate. A double is given by its value as an integer and by whether it is
at least 0. -/
inductive SqlValue
  | null
  | integer (i : Int64)
  | float (val : UInt64) (nonneg : Bool)
  | text (bytes : Bytes)
  | blob (bytes : Bytes)
deriving DecidableEq

/-- A fresh aggregate context. -/
def LogHist.zero : LogHist := ⟨0, 0, 0, 0, none⟩

/-- `const size_t base = sqlite3_value_int(..)` -/
def toSize (x : Int32) : UInt64 := x.toInt64.toUInt64

def logHistInit (base bucketCount : UInt64) : Option LogHist :=
  if base < 2 then none
  else some ⟨base, bucketCount, 0, 0, some (List.replicate bucketCount.toNat 0)⟩

/-- The number that is counted for a value. Negative ones are not. -/
def logValue : SqlValue → Option UInt64
  | .null => some 0
  | .integer i => if 0 ≤ i.toInt32 then some (toSize i.toInt32) else none
  | .float val nonneg => if nonneg then some val else none
  | .text bytes => some (UInt64.ofNat (cString bytes).length)
  | .blob bytes => some (UInt64.ofNat (cString bytes).length)

-- `log2Bucket base value` is `(size_t) (log2(value) / log2(base))`.
variable (log2Bucket : UInt64 → UInt64 → ℕ)

def logHistInsert (hist : LogHist) (value : UInt64) : LogHist :=
  if value < 1 then { hist with lt := hist.lt + 1 }
  else
    let bucket := log2Bucket hist.base value
    if hist.count.toNat ≤ bucket then { hist with ge := hist.ge + 1 }
    else { hist with buckets := hist.buckets.map fun b => b.modify bucket (· + 1) }

/-- Nothing is returned if the base is too small. -/
def logHistStep (base bucketCount : Int32) (hist : LogHist) (value : SqlValue) : Option LogHist :=
  let init := if hist.base = 0 then logHistInit (toSize base) (toSize bucketCount) else some hist
  init.map fun hist =>
    match logValue value with
    | none => hist
    | some v => logHistInsert log2Bucket hist v

def logHist (base bucketCount : Int32) (values : List SqlValue) : Option LogHist :=
  values.foldlM (logHistStep log2Bucket base bucketCount) LogHist.zero

/-- `log_hist_serialize`, with the text up to its NUL. -/
def logHistFinal (hist : LogHist) : Bytes :=
  if hist.base = 0 then [48, 59, 48, 59, 48, 59, 48, 59]
  else
    let header := sizeField hist.base ++ sizeField hist.count ++ sizeField hist.lt ++
      sizeField hist.ge
    let start := snprintf (List.replicate DEFAULT_HIST_ALLOC 0) 0 DEFAULT_HIST_ALLOC header
    cString (serializeBuckets pairField (hist.buckets.getD []) ⟨start, header.length⟩).buf

/-- `"%zu;%zu;%zu;%zu;%n"`. -/
def logHeaderFormat : List Directive :=
  [.unsigned 10 none, .byte 59, .unsigned 10 none, .byte 59, .unsigned 10 none, .byte 59,
    .unsigned 10 none, .byte 59]

def setBucket (bucket : ℕ) (count : UInt64) (buckets : List UInt64) : Option (List UInt64) :=
  some (buckets.set bucket count)

def logHistParse (beyond : ℕ → UInt8) (str : Bytes) : Option LogHist :=
  let str := cString str
  let scanned := sscanf logHeaderFormat 0 str
  let read := scanned.2.getD 0
  match scanned.1 with
  | [base, count, lt, ge] =>
    if read = 0 ∨ charAt beyond str (read - 1) ≠ 59 then none
    else
      let hist : LogHist :=
        ⟨UInt64.ofNat base, UInt64.ofNat count, UInt64.ofNat lt, UInt64.ofNat ge, none⟩
      if hist.base = 0 then some hist
      else (parseBuckets pairFormat false setBucket beyond str str.length read read
        (List.replicate hist.count.toNat 0)).map fun buckets =>
          { hist with buckets := some buckets }
  | _ => none

/-- Nothing is returned if the parameters differ. Whether `log_hist_init` fails is not looked at. -/
def logHistCombineInplace (lhs rhs : LogHist) : Option LogHist :=
  let add (lhs : LogHist) : LogHist :=
    { lhs with
      lt := lhs.lt + rhs.lt
      ge := lhs.ge + rhs.ge
      buckets := lhs.buckets.map fun b => addBuckets b (rhs.buckets.getD []) }
  if rhs.base = 0 then some lhs
  else if lhs.base = 0 then some (add ((logHistInit rhs.base rhs.count).getD lhs))
  else if lhs.base ≠ rhs.base then none
  else if lhs.count ≠ rhs.count then none
  else some (add lhs)

def logHistCombineStep (beyond : ℕ → UInt8) (hist : LogHist) (str : Bytes) : Option LogHist :=
  (logHistParse beyond str).bind fun new =>
    let hist := if hist.buckets.isNone then
      { hist with
        base := new.base
        count := new.count
        buckets := some (List.replicate new.count.toNat 0) }
      else hist
    logHistCombineInplace hist new

def logHistCombine (beyond : ℕ → UInt8) (strs : List Bytes) : Option LogHist :=
  strs.foldlM (logHistCombineStep beyond) LogHist.zero

end Log

section Mode

def modeBucket (mode : Int32) : ℕ := (mode.toUInt32 &&& 511).toNat

def modeHistStep (hist : List UInt64) (mode : Int32) : List UInt64 :=
  hist.modify (modeBucket mode) (· + 1)

def modeHist (modes : List Int32) : List UInt64 := modes.foldl modeHistStep (List.replicate 512 0)

/-- `"%03o:%zu;"`. -/
def serializeModeBucket (mode : ℕ) (count : UInt64) : Bytes :=
  padded 3 8 mode ++ 58 :: sizeField count

/-- The text has `curr - serialized` bytes. -/
def modeHistFinal (hist : List UInt64) : Bytes :=
  let s := serializeBuckets serializeModeBucket hist ⟨List.replicate DEFAULT_HIST_ALLOC 0, 0⟩
  s.buf.take s.written

/-- `"%03o:%zu;%n"`. -/
def modeFormat : List Directive := [.unsigned 8 (some 3), .byte 58, .unsigned 10 none, .byte 59]

/-- The mode is an `unsigned int`. -/
def setMode (bucket : ℕ) (count : UInt64) (buckets : List UInt64) : Option (List UInt64) :=
  some (buckets.set (bucket % 2 ^ 32) count)

def modeHistParse (beyond : ℕ → UInt8) (str : Bytes) : Option (List UInt64) :=
  let str := cString str
  parseBuckets modeFormat true setMode beyond str str.length 0 0 (List.replicate 512 0)

def modeHistCombineStep (beyond : ℕ → UInt8) (hist : List UInt64) (str : Bytes) :
    Option (List UInt64) :=
  (modeHistParse beyond str).map (addBuckets hist)

def modeHistCombine (beyond : ℕ → UInt8) (strs : List Bytes) : Option (List UInt64) :=
  strs.foldlM (modeHistCombineStep beyond) (List.replicate 512 0)

end Mode

section Time

/-- The seconds of `TIME_BUCKETS`. The last is for all that is older. -/
def TIME_BUCKETS : List Int64 :=
  [0, 1, 60, 3600, 86400, 604800, 2419200, 31536000, 63072000, 157680000, 315360000, 630720000,
    630720001]

def TIME_BUCKETS_COUNT : ℕ := 13

structure TimeHist where
  buckets : List UInt64
  ref : Int64
deriving DecidableEq

/-- `sqlite_time_hist_t`. -/
structure SqliteTimeHist extends TimeHist where
  init : Bool

def SqliteTimeHist.zero : SqliteTimeHist := ⟨⟨List.replicate TIME_BUCKETS_COUNT 0, 0⟩, false⟩

/-- The first bucket whose seconds are more than `dt`, or the last one. -/
def timeBucket (ref timestamp : Int64) : ℕ :=
  let dt := ref - timestamp
  (TIME_BUCKETS.take (TIME_BUCKETS_COUNT - 1)).findIdx fun seconds => dt < seconds

def timeHistStep (ref : Int64) (hist : SqliteTimeHist) (timestamp : Int64) : SqliteTimeHist :=
  let hist := if hist.init then hist else { hist with ref := ref, init := true }
  { hist with buckets := hist.buckets.modify (timeBucket hist.ref timestamp) (· + 1) }

def timeHist (ref : Int64) (timestamps : List Int64) : SqliteTimeHist :=
  timestamps.foldl (timeHistStep ref) SqliteTimeHist.zero

def serializeTimeBucket (bucket : ℕ) (count : UInt64) : Bytes :=
  pairField (TIME_BUCKETS.getD bucket 0).toUInt64.toNat count

def timeHistFinal (hist : SqliteTimeHist) : Bytes :=
  if !hist.init then [48, 59]
  else
    let header := sizeField hist.ref.toUInt64
    let start := snprintf (List.replicate DEFAULT_HIST_ALLOC 0) 0 DEFAULT_HIST_ALLOC header
    let s := serializeBuckets serializeTimeBucket hist.buckets ⟨start, header.length⟩
    s.buf.take s.written

/-- The bucket is found by its seconds. -/
def setTime (bucket : ℕ) (count : UInt64) (buckets : List UInt64) : Option (List UInt64) :=
  (TIME_BUCKETS.findIdx? fun seconds => (UInt64.ofNat bucket).toInt64 = seconds).map fun i =>
    buckets.set i count

def timeHistParse (beyond : ℕ → UInt8) (str : Bytes) : Option TimeHist :=
  let str := cString str
  let scanned := sscanf [.unsigned 10 none, .byte 59] 0 str
  let read := scanned.2.getD 0
  match scanned.1 with
  | [ref] =>
    if read = 0 ∨ charAt beyond str (read - 1) ≠ 59 then none
    else (parseBuckets pairFormat false setTime beyond str str.length read read
      (List.replicate TIME_BUCKETS_COUNT 0)).map fun buckets =>
        ⟨buckets, (UInt64.ofNat ref).toInt64⟩
  | _ => none

/-- Nothing is returned if the reference times differ. -/
def timeHistCombineInplace (lhs : SqliteTimeHist) (rhs : TimeHist) : Option SqliteTimeHist :=
  let add (lhs : SqliteTimeHist) : SqliteTimeHist :=
    { lhs with buckets := addBuckets lhs.buckets rhs.buckets }
  if lhs.ref = 0 then some (add { lhs with ref := rhs.ref })
  else if rhs.ref = 0 then some (add lhs)
  else if lhs.ref ≠ rhs.ref then none
  else some (add lhs)

def timeHistCombineStep (beyond : ℕ → UInt8) (hist : SqliteTimeHist) (str : Bytes) :
    Option SqliteTimeHist :=
  (timeHistParse beyond str).bind fun new =>
    let hist := if hist.init then hist else { hist with ref := new.ref, init := true }
    timeHistCombineInplace hist new

def timeHistCombine (beyond : ℕ → UInt8) (strs : List Bytes) : Option SqliteTimeHist :=
  strs.foldlM (timeHistCombineStep beyond) SqliteTimeHist.zero

end Time

end Gufi.Histogram
