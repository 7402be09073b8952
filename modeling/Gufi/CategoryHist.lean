import Gufi.Histogram
import Gufi.SumTable
import Gufi.UserTrie
import Mathlib.Data.List.Sort

/-!
# Category histograms

`category_hist`, `mode_count` and what reads their texts. The counts are allocated one by one and
are found by a trie of the categories, which are also kept in a list. A `str_t` in this list is read
as a `category_bucket_t` in two places.
-/

namespace Gufi.CategoryHist

open Stdio UserTrie
open Trace (cString)
open Histogram (Serialized serializeBucket DEFAULT_HIST_ALLOC sizeField charAt)

section Compare

/-- `strncmp`, where the bytes behind a text begin with its NUL. -/
def strncmp : ℕ → Bytes → Bytes → Ordering
  | 0, _, _ => .eq
  | n + 1, a, b =>
    if a.headD 0 < b.headD 0 then .lt
    else if b.headD 0 < a.headD 0 then .gt
    else if a.headD 0 = 0 then .eq
    else strncmp n a.tail b.tail

/-- `category_bucket_t`; the name is what is in memory there, without its NUL. -/
structure CategoryBucket where
  name : Bytes
  len : ℕ
  count : UInt64
deriving DecidableEq

/-- `category_bucket_cmp` -/
def categoryBucketCmp (l r : CategoryBucket) : Ordering :=
  if r.count < l.count then .lt
  else if l.count < r.count then .gt
  else strncmp (max l.len r.len) l.name r.name

/-- `str_cmp` -/
def strCmp (lhs rhs : Bytes) : Ordering := strncmp (max lhs.length rhs.length + 1) lhs rhs

/-- `qsort` with a comparison that is not positive for what may come first. -/
def qsort {α : Type*} (l : List α) (cmp : α → α → Ordering) : List α :=
  l.insertionSort fun a b => cmp a b ≠ .gt

end Compare

section Accumulate

/-- `sqlite_category_hist_t`. The trie has the addresses of the counts. -/
structure Accumulator where
  trie : UserTrie.Trie ℕ
  counts : List UInt64
  categories : List Bytes

def Accumulator.empty : Accumulator := ⟨trieAlloc, [], []⟩

/-- `*count += x`; `none` where it is not a count that is pointed to. -/
def Accumulator.addTo (acc : Accumulator) (count : Option ℕ) (x : UInt64) : Option Accumulator :=
  match count with
  | none => none
  | some i =>
    if i < acc.counts.length then some { acc with counts := acc.counts.modify i (· + x) } else none

/-- A new count, and the category at the end of the list. -/
def Accumulator.push (acc : Accumulator) (cat : Bytes) (x : UInt64) : Accumulator :=
  ⟨trieInsert acc.trie cat (some acc.counts.length) true, acc.counts ++ [x],
    acc.categories ++ [cat]⟩

/-- `category_hist_insert` -/
def categoryHistInsert (acc : Accumulator) (cat : Bytes) : Option Accumulator :=
  match trieSearch acc.trie cat with
  | some count => acc.addTo count 1
  | none => some (acc.push cat 1)

/-- `category_hist_step` with a value or `NULL`. -/
def categoryHistStep (acc : Accumulator) (value : Option Bytes) : Option Accumulator :=
  match value with
  | none => some acc
  | some text => categoryHistInsert acc (cString text)

/-- What the trie has for a category. -/
def Accumulator.find (acc : Accumulator) (cat : Bytes) : Option UInt64 :=
  match trieSearch acc.trie cat with
  | some (some i) => acc.counts[i]?
  | _ => none

/-- `category_hist_combine_inplace` for one bucket. -/
def combineBucket (checkExists : Bool) (acc : Accumulator) (bucket : CategoryBucket) :
    Option Accumulator :=
  let name := bucket.name.take bucket.len
  match if checkExists then trieSearch acc.trie name else none with
  | some count => acc.addTo count bucket.count
  | none => some (acc.push name bucket.count)

def categoryHistCombineInplace (acc : Accumulator) (hist : List CategoryBucket)
    (checkExists : Bool) : Option Accumulator :=
  hist.foldlM (combineBucket checkExists) acc

/-- `category_hist_combine`. The name and the length of a bucket are those of the `str_t`. -/
def categoryHistCombine (lhs rhs : List CategoryBucket) : Option (List CategoryBucket) := do
  let acc ← categoryHistCombineInplace .empty lhs false
  let acc ← categoryHistCombineInplace acc rhs true
  acc.categories.mapM fun cat => (acc.find cat).map fun count => ⟨cat, cat.length, count⟩

end Accumulate

section Text

/-- `"%zu:%s:%zu;"`, as `serialize_category_bucket` and `serialize_mode` print it. -/
def categoryText (name : Bytes) (count : UInt64) : Bytes :=
  numeral 10 name.length ++ 58 :: (name ++ 58 :: sizeField count)

/-- The categories that are printed. -/
def keep (keep1 : Bool) (cats : List (Bytes × UInt64)) : List (Bytes × UInt64) :=
  cats.filter fun c => keep1 || decide (1 < c.2)

/-- What `category_hist_final` gives to SQLite. -/
def categoryHistFinal (acc : Accumulator) (keep1 sort : Bool) : Option Bytes := do
  let categories := if sort then qsort acc.categories strCmp else acc.categories
  let found ← categories.mapM fun cat => (acc.find cat).map fun count => (cat, count)
  let kept := keep keep1 found
  let header := numeral 10 kept.length ++ [59]
  let s : Serialized := ⟨ByteBuffer.snprintf (List.replicate DEFAULT_HIST_ALLOC 0) 0
    DEFAULT_HIST_ALLOC header, header.length⟩
  let s := kept.foldl (fun s c => serializeBucket s (categoryText c.1 c.2)) s
  pure (s.buf.take s.written)

/-- `sscanf` with `"%[^:]:%zu;%n"`. -/
def scanCategory (cs : Bytes) : Option Bytes × List ℕ × Option ℕ :=
  let name := cs.takeWhile (· ≠ 58)
  if name = [] then (none, [], none)
  else (some name,
    sscanf [.byte 58, .unsigned 10 none, .byte 59] name.length (cs.drop name.length))

/-- The loop of `category_hist_parse`; where `%n` is not reached, `read` keeps its value. A name
longer than its buffer ends the model. -/
def parseCategories (beyond : ℕ → UInt8) (str : Bytes) : ℕ → ℕ → Option (List CategoryBucket)
  | 0, _ => some []
  | n + 1, total =>
    let first := sscanf [.unsigned 10 none, .byte 58] 0 (str.drop total)
    let read := first.2.getD 0
    match first.1 with
    | [len] =>
      if charAt beyond str (total + read - 1) ≠ 58 then none
      else
        let total := total + read
        let second := scanCategory (str.drop total)
        let read := second.2.2.getD read
        match second.1, second.2.1 with
        | some name, [count] =>
          if charAt beyond str (total + read - 1) ≠ 59 then none
          else if len < name.length then none
          else (parseCategories beyond str n (total + read)).map
            (⟨name, len, UInt64.ofNat count⟩ :: ·)
        | _, _ => none
    | _ => none

/-- `category_hist_parse` -/
def categoryHistParse (beyond : ℕ → UInt8) (str : Bytes) : Option (List CategoryBucket) :=
  let header := sscanf [.unsigned 10 none, .byte 59] 0 str
  let total := header.2.getD 0
  match header.1 with
  | [count] =>
    if total = 0 then none
    else if charAt beyond str (total - 1) ≠ 59 then none
    else (parseCategories beyond str count total).map fun buckets => qsort buckets categoryBucketCmp
  | _ => none

end Text

section Mode

/-- `category_t`: a `str_t`, with the function that frees it, and the count. -/
structure Category where
  name : Bytes
  free : UInt64
  count : UInt64

/-- A `category_t` in the place of a `category_bucket_t`: the third field is `free`. -/
def Category.asBucket (c : Category) : CategoryBucket := ⟨c.name, c.name.length, c.free⟩

/-- `category_bucket_cmp` with the categories that `qsort` gives to it. -/
def asBucketCmp (l r : Category) : Ordering := categoryBucketCmp l.asBucket r.asBucket

/-- `mode_count_final`, where `NULL` is the result if there is none. The address of `free` is the
same for all categories. -/
def modeCountFinal (free : UInt64) (acc : Accumulator) : Option (Option Bytes) := do
  let categories ← acc.categories.mapM fun cat =>
    (acc.find cat).map fun count => (⟨cat, free, count⟩ : Category)
  match qsort categories asBucketCmp with
  | [] => pure none
  | top :: rest =>
    if (rest.head?.any fun next => top.count = next.count) then pure none
    else
      let s := serializeBucket ⟨List.replicate DEFAULT_HIST_ALLOC 0, 0⟩
        (categoryText top.name top.count)
      pure (some (s.buf.take s.written))

/-- `mode_count` of all values. -/
def modeCount (free : UInt64) (values : List (Option Bytes)) : Option (Option Bytes) := do
  let acc ← values.foldlM categoryHistStep .empty
  modeCountFinal free acc

end Mode

end Gufi.CategoryHist
