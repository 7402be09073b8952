import Gufi.Histogram
import Gufi.TraceColumns

/-!
# The text of a histogram

The first bucket that does not fit cuts the text off after 511 bytes, and what is parsed then is not
the histogram. A text that fits is read back.
-/

namespace Gufi.Histogram

open Stdio ByteBuffer
open Trace (cString)

section Growth

variable {s : Serialized} {content text : Bytes}

/-- What was printed so far. The allocation has not grown as long as all of it fits. -/
structure Printed (s : Serialized) (content : Bytes) : Prop where
  written : s.written = content.length
  room : content.length ≤ s.buf.length
  buf : ∃ rest, s.buf = content.take (DEFAULT_HIST_ALLOC - 1) ++ 0 :: rest
  size : content.length < DEFAULT_HIST_ALLOC → s.buf.length = DEFAULT_HIST_ALLOC

theorem Printed.alloc_le (h : Printed s content) : DEFAULT_HIST_ALLOC ≤ s.buf.length := by
  rcases lt_or_ge content.length DEFAULT_HIST_ALLOC with hlt | hge
  · exact (h.size hlt).ge
  · exact hge.trans h.room

/-- The header is printed to the first allocation. -/
theorem Printed.header (h : content.length < DEFAULT_HIST_ALLOC) :
    Printed ⟨snprintf (List.replicate DEFAULT_HIST_ALLOC 0) 0 DEFAULT_HIST_ALLOC content,
      content.length⟩ content where
  written := rfl
  room := by
    rw [length_snprintf (by simp), List.length_replicate]
    exact h.le
  buf := by
    have hdefault : DEFAULT_HIST_ALLOC ≠ 0 := by decide
    refine ⟨(List.replicate DEFAULT_HIST_ALLOC 0).drop
      (content.take (DEFAULT_HIST_ALLOC - 1) ++ [0]).length, ?_⟩
    simp only [snprintf, if_neg hdefault, put, List.take_zero, List.nil_append, Nat.zero_add,
      List.append_assoc, List.cons_append]
  size _ := by rw [length_snprintf (by simp), List.length_replicate]

/-- Nothing is printed before the first bucket if there is no header. -/
theorem Printed.nil : Printed ⟨List.replicate DEFAULT_HIST_ALLOC 0, 0⟩ [] where
  written := rfl
  room := Nat.zero_le _
  buf := ⟨List.replicate (DEFAULT_HIST_ALLOC - 1) 0, rfl⟩
  size _ := List.length_replicate

theorem Printed.serializeBucket (h : Printed s content) (text : Bytes) :
    Printed (serializeBucket s text) (content ++ text) := by
  have halloc := h.alloc_le
  have hroom := h.room
  have hdefault : DEFAULT_HIST_ALLOC = 512 := rfl
  have hkeeps := @length_snprintf s.buf text s.written (s.buf.length - s.written)
    (by rw [h.written]; omega)
  rw [h.written] at hkeeps
  obtain ⟨rest, hrest⟩ := h.buf
  -- the bytes that are in the buffer after `snprintf`, up to the first NUL
  have hbuf : ∃ rest, snprintf s.buf content.length (s.buf.length - content.length) text =
      (content ++ text).take (DEFAULT_HIST_ALLOC - 1) ++ 0 :: rest := by
    rcases lt_or_ge content.length DEFAULT_HIST_ALLOC with hlt | hge
    · have hsize := h.size hlt
      have hall : content.take (DEFAULT_HIST_ALLOC - 1) = content :=
        List.take_of_length_le (by omega)
      have htake : s.buf.take content.length = content := by rw [hrest, hall, List.take_left]
      have hcut : (content ++ text).take (DEFAULT_HIST_ALLOC - 1) =
          content ++ text.take (DEFAULT_HIST_ALLOC - content.length - 1) := by
        rw [List.take_append, List.take_of_length_le (by omega), Nat.sub_right_comm]
      refine ⟨s.buf.drop (content.length +
        (text.take (DEFAULT_HIST_ALLOC - content.length - 1) ++ [0]).length), ?_⟩
      rw [snprintf, if_neg (by omega), hsize, put, htake, hcut]
      simp only [List.append_assoc, List.cons_append, List.nil_append]
    · rw [snprintf]
      rw [List.take_append_of_le_length (by omega)]
      split
      · exact ⟨rest, hrest⟩
      · rw [put, hrest, List.take_append, List.length_take, Nat.min_eq_left (by omega),
          List.take_of_length_le (by rw [List.length_take]; omega),
          List.take_cons (by omega), List.append_assoc, List.cons_append]
        exact ⟨_, rfl⟩
  obtain ⟨rest', hrest'⟩ := hbuf
  simp only [Histogram.serializeBucket, h.written]
  split
  · rename_i hgrows
    constructor
    · rw [List.length_append]
    · simp only [List.length_append, List.length_replicate, hkeeps]
      omega
    · refine ⟨rest' ++ List.replicate (2 * text.length) 0, ?_⟩
      rw [hrest', List.append_assoc, List.cons_append]
    · intro hlt
      rw [List.length_append] at hlt
      have hsize := h.size (by omega)
      omega
  · rename_i hfits
    constructor
    · rw [List.length_append]
    · rw [hkeeps, List.length_append]
      omega
    · exact ⟨rest', hrest'⟩
    · intro hlt
      rw [List.length_append] at hlt
      rw [hkeeps]
      exact h.size (by omega)

/-- The text of the buckets that are not empty. -/
def bucketsText (bucketText : ℕ → UInt64 → Bytes) (items : List (UInt64 × ℕ)) : Bytes :=
  items.flatMap fun b => bucketText b.2 b.1

def filled (buckets : List UInt64) : List (UInt64 × ℕ) := buckets.zipIdx.filter fun b => b.1 ≠ 0

theorem Printed.serializeBuckets (h : Printed s content) (bucketText : ℕ → UInt64 → Bytes)
    (buckets : List UInt64) : Printed (serializeBuckets bucketText buckets s)
      (content ++ bucketsText bucketText (filled buckets)) := by
  rw [Histogram.serializeBuckets, ← filled]
  induction filled buckets generalizing s content with
  | nil =>
      rw [bucketsText, List.flatMap_nil, List.append_nil]
      exact h
  | cons b items ih =>
      have hnext := ih (h.serializeBucket (bucketText b.2 b.1))
      rw [List.append_assoc] at hnext
      exact hnext

theorem cString_append_nul {cs rest : Bytes} (h : 0 ∉ cs) : cString (cs ++ 0 :: rest) = cs := by
  rw [cString, List.takeWhile_append_of_pos fun c hc => ?_]
  · simp
  · rw [decide_eq_true_iff]
    rintro rfl
    exact h hc

/-- The text is cut off if it is too long, whether its NUL or its length says where it ends. -/
theorem Printed.cString_eq (h : Printed s content) (hnul : 0 ∉ content) :
    cString s.buf = content.take (DEFAULT_HIST_ALLOC - 1) ∧
      cString (s.buf.take s.written) = content.take (DEFAULT_HIST_ALLOC - 1) := by
  obtain ⟨rest, hrest⟩ := h.buf
  have hcut : 0 ∉ content.take (DEFAULT_HIST_ALLOC - 1) := fun hmem =>
    hnul (List.mem_of_mem_take hmem)
  refine ⟨by rw [hrest, cString_append_nul hcut], ?_⟩
  rw [h.written, hrest]
  rcases le_or_gt content.length (DEFAULT_HIST_ALLOC - 1) with hle | hgt
  · rw [List.take_of_length_le hle, List.take_left, Trace.cString_eq_self hnul]
  · rw [List.take_append, List.length_take, Nat.min_eq_left hgt.le,
      List.take_of_length_le (by rw [List.length_take]; omega),
      List.take_cons (by omega), cString_append_nul hcut]

end Growth

section Parse

/-- How the buckets of a kind of histogram are printed and parsed. -/
structure Layout where
  size : ℕ
  bucketText : ℕ → UInt64 → Bytes
  format : List Directive
  reset : Bool
  set : ℕ → UInt64 → List UInt64 → Option (List UInt64)
  key : ℕ → ℕ
  scan : ∀ i < size, ∀ count rest, sscanf format 0 (bucketText i count ++ rest) =
    ([key i, count.toNat], some (bucketText i count).length)
  set_key : ∀ i < size, ∀ count buckets, set (key i) count buckets = some (buckets.set i count)
  semicolon : ∀ i count, ∃ body, bucketText i count = body ++ [59] ∧ 59 ∉ body
  nul : ∀ i count, 0 ∉ bucketText i count

variable (l : Layout) {beyond : ℕ → UInt8} {items : List (UInt64 × ℕ)} {str : Bytes}

def Layout.parse (beyond : ℕ → UInt8) (str : Bytes) (fuel total read : ℕ) (buckets : List UInt64) :
    Option (List UInt64) :=
  parseBuckets l.format l.reset l.set beyond str fuel total read buckets

theorem Layout.length_pos (i : ℕ) (count : UInt64) : 0 < (l.bucketText i count).length := by
  obtain ⟨body, hbody, -⟩ := l.semicolon i count
  rw [hbody, List.length_append]
  exact Nat.lt_add_left _ Nat.one_pos

theorem Layout.length_le_length_text (items : List (UInt64 × ℕ)) :
    items.length ≤ (bucketsText l.bucketText items).length := by
  induction items with
  | nil => exact Nat.zero_le _
  | cons b items ih =>
      have hpos := l.length_pos b.2 b.1
      rw [bucketsText, List.flatMap_cons, List.length_append, List.length_cons]
      rw [bucketsText] at ih
      omega

theorem charAt_semicolon (text rest : Bytes) :
    charAt beyond (text ++ 59 :: rest) text.length = 59 := by
  rw [charAt, if_pos (by simp), List.getD_eq_getElem?_getD, List.getElem?_append_right le_rfl]
  simp

theorem Layout.zero_notMem (items : List (UInt64 × ℕ)) : 0 ∉ bucketsText l.bucketText items := by
  rw [bucketsText, List.mem_flatMap]
  rintro ⟨b, -, hb⟩
  exact l.nul b.2 b.1 hb

def setAll (items : List (UInt64 × ℕ)) (buckets : List UInt64) : List UInt64 :=
  items.foldl (fun buckets b => buckets.set b.2 b.1) buckets

/-- A text of whole buckets is read to its end. -/
theorem Layout.parse_text (hitems : ∀ b ∈ items, b.2 < l.size) {start : Bytes} {fuel read : ℕ}
    (hfuel : items.length ≤ fuel) (buckets : List UInt64) :
    l.parse beyond (start ++ bucketsText l.bucketText items) fuel start.length read buckets =
      some (setAll items buckets) := by
  induction items generalizing start fuel read buckets with
  | nil =>
      rw [bucketsText, List.flatMap_nil, List.append_nil, Layout.parse]
      cases fuel <;> rw [parseBuckets, if_pos le_rfl] <;> rfl
  | cons b items ih =>
      obtain ⟨hb, hitems⟩ := List.forall_mem_cons.mp hitems
      obtain ⟨body, hbody, -⟩ := l.semicolon b.2 b.1
      have hpos := l.length_pos b.2 b.1
      obtain ⟨fuel, rfl⟩ : ∃ k, fuel = k + 1 :=
        Nat.exists_eq_add_one.mpr (by rw [List.length_cons] at hfuel; omega)
      have hnext : l.parse beyond
          (start ++ l.bucketText b.2 b.1 ++ bucketsText l.bucketText items) fuel
          (start ++ l.bucketText b.2 b.1).length (l.bucketText b.2 b.1).length
          (buckets.set b.2 b.1) = some (setAll items (buckets.set b.2 b.1)) :=
        ih hitems (by simpa using hfuel) _
      have htext : start ++ bucketsText l.bucketText (b :: items) =
          start ++ l.bucketText b.2 b.1 ++ bucketsText l.bucketText items := by
        rw [bucketsText, List.flatMap_cons, ← List.append_assoc, bucketsText]
      have hlength : ¬ (start ++ bucketsText l.bucketText (b :: items)).length ≤ start.length := by
        rw [htext]
        simp only [List.length_append]
        omega
      have hdrop : (start ++ bucketsText l.bucketText (b :: items)).drop start.length =
          l.bucketText b.2 b.1 ++ bucketsText l.bucketText items := by
        rw [htext, List.append_assoc, List.drop_left]
      have hlast : charAt beyond (start ++ bucketsText l.bucketText (b :: items))
          (start.length + (l.bucketText b.2 b.1).length - 1) = 59 := by
        have hsplit : start ++ (body ++ [59]) ++ bucketsText l.bucketText items =
            (start ++ body) ++ 59 :: bucketsText l.bucketText items := by simp
        have hindex : start.length + (body ++ [59]).length - 1 = (start ++ body).length := by
          simp only [List.length_append, List.length_singleton]
          omega
        rw [htext, hbody, hsplit, hindex, charAt_semicolon]
      rw [Layout.parse, parseBuckets, if_neg hlength, hdrop, l.scan b.2 hb]
      simp only [Option.getD_some, hlast, bne_self_eq_false, Bool.or_false, Bool.and_eq_true,
        decide_eq_true_eq, UInt64.ofNat_toNat, l.set_key b.2 hb, Option.bind_some]
      rw [if_neg (by omega)]
      rw [htext, ← List.length_append]
      exact hnext

/-- A round that does not fail ends in a semicolon. -/
theorem Layout.parse_round {fuel total read : ℕ} {buckets buckets' : List UInt64}
    (hlt : total < str.length)
    (h : l.parse beyond str (fuel + 1) total read buckets = some buckets') :
    ∃ read' next, charAt beyond str (total + read' - 1) = 59 ∧
      l.parse beyond str fuel (total + read') read' next = some buckets' := by
  rw [Layout.parse, parseBuckets, if_neg (Nat.not_le.mpr hlt)] at h
  simp only at h
  generalize (sscanf l.format 0 (str.drop total)).2.getD (if l.reset then 0 else read) = read' at h
  split at h
  · split at h
    · exact nomatch h
    · rename_i hround
      obtain ⟨next, -, hnext⟩ := Option.bind_eq_some_iff.mp h
      rw [Bool.or_eq_true, not_or] at hround
      exact ⟨read', next, by simpa using hround.2, hnext⟩
  · exact nomatch h

/-- If nothing is behind the NUL, what is parsed ends in a semicolon. -/
theorem Layout.last_of_parse {fuel total read : ℕ} {buckets buckets' : List UInt64}
    (hlt : total < str.length)
    (h : l.parse (fun _ => 0) str fuel total read buckets = some buckets') :
    str.getLast? = some 59 := by
  induction fuel generalizing total read buckets with
  | zero =>
      rw [Layout.parse, parseBuckets, if_neg (Nat.not_le.mpr hlt)] at h
      exact nomatch h
  | succ fuel ih =>
      obtain ⟨read', next, hsemi, hnext⟩ := l.parse_round hlt h
      have hinside : total + read' - 1 < str.length := by
        by_contra hout
        rw [charAt, if_neg hout] at hsemi
        split at hsemi <;> exact absurd hsemi (by decide)
      rcases lt_or_ge (total + read') str.length with hmore | hend
      · exact ih hmore hnext
      · have hlast : total + read' - 1 = str.length - 1 := by omega
        rw [charAt, if_pos hinside, hlast, List.getD_eq_getElem?_getD,
          List.getElem?_eq_getElem (by omega), Option.getD_some] at hsemi
        rw [List.getLast?_eq_getElem?, List.getElem?_eq_getElem (by omega), hsemi]

end Parse

section Cut

variable (l : Layout) {items : List (UInt64 × ℕ)} {buckets : List UInt64} {b : UInt64 × ℕ}

/-- A text that is cut off ends within the text of a bucket, or before it. -/
theorem bucketsText_take {bucketText : ℕ → UInt64 → Bytes} {k : ℕ}
    (h : k < (bucketsText bucketText items).length) : ∃ before b after j,
      items = before ++ b :: after ∧ j < (bucketText b.2 b.1).length ∧
      (bucketsText bucketText items).take k =
        bucketsText bucketText before ++ (bucketText b.2 b.1).take j := by
  induction items generalizing k with
  | nil => exact absurd h (Nat.not_lt_zero _)
  | cons b items ih =>
      rw [bucketsText, List.flatMap_cons, List.length_append, ← bucketsText] at h
      rcases lt_or_ge k (bucketText b.2 b.1).length with hlt | hge
      · refine ⟨[], b, items, k, rfl, hlt, ?_⟩
        rw [bucketsText, List.flatMap_cons, List.take_append_of_le_length hlt.le]
        rfl
      · obtain ⟨before, b', after, j, rfl, hj, htake⟩ :=
          ih (show k - (bucketText b.2 b.1).length < _ by omega)
        refine ⟨b :: before, b', after, j, rfl, hj, ?_⟩
        rw [bucketsText, List.flatMap_cons, List.take_append, List.take_of_length_le hge,
          ← bucketsText, htake, bucketsText, bucketsText, List.flatMap_cons, List.append_assoc]

theorem setAll_getElem? {i : ℕ} (h : i ∉ items.map Prod.snd) (buckets : List UInt64) :
    (setAll items buckets)[i]? = buckets[i]? := by
  induction items generalizing buckets with
  | nil => rfl
  | cons b items ih =>
      rw [List.map_cons, List.mem_cons, not_or] at h
      change (setAll items (buckets.set b.2 b.1))[i]? = _
      rw [ih h.2, List.getElem?_set_ne (Ne.symm h.1)]

/-- The buckets are those that are printed and zeros. -/
theorem setAll_filled (buckets : List UInt64) :
    setAll (filled buckets) (List.replicate buckets.length 0) = buckets := by
  suffices h : ∀ before : List UInt64,
      setAll ((buckets.zipIdx before.length).filter fun b => b.1 ≠ 0)
        (before ++ List.replicate buckets.length 0) = before ++ buckets from h []
  induction buckets with
  | nil => exact fun _ => rfl
  | cons x buckets ih =>
      intro before
      have hnext := ih (before ++ [x])
      rw [List.length_append, List.length_singleton, List.append_assoc, List.append_assoc] at hnext
      rw [List.zipIdx_cons, List.length_cons, List.replicate_succ]
      by_cases hx : x = 0
      · subst hx
        rw [List.filter_cons_of_neg (by simp)]
        exact hnext
      · rw [List.filter_cons_of_pos (by simpa using hx)]
        change setAll _ ((before ++ 0 :: List.replicate buckets.length 0).set before.length x) = _
        rw [List.set_append_right _ _ le_rfl, Nat.sub_self, List.set_cons_zero]
        exact hnext

theorem mem_filled (h : b ∈ filled buckets) : buckets[b.2]? = some b.1 ∧ b.1 ≠ 0 := by
  obtain ⟨hmem, hne⟩ := List.mem_filter.mp h
  exact ⟨List.mem_zipIdx_iff_getElem?.mp hmem, of_decide_eq_true hne⟩

theorem filled_lt_length (h : b ∈ filled buckets) : b.2 < buckets.length :=
  (List.getElem?_eq_some_iff.mp (mem_filled h).1).1

theorem nodup_filled (buckets : List UInt64) : ((filled buckets).map Prod.snd).Nodup := by
  have hall : (buckets.zipIdx.map Prod.snd).Nodup := by
    rw [List.zipIdx_map_snd]
    exact List.nodup_range'
  exact hall.sublist (List.filter_sublist.map _)

/-- The buckets are read back exactly if the text is not cut off. -/
theorem Layout.parse_cut_iff (hsize : buckets.length = l.size) {start text : Bytes}
    (hstart : start.length < DEFAULT_HIST_ALLOC) (read : ℕ)
    (htext : text = start ++ bucketsText l.bucketText (filled buckets)) :
    (∀ beyond, l.parse beyond (text.take (DEFAULT_HIST_ALLOC - 1))
      (text.take (DEFAULT_HIST_ALLOC - 1)).length start.length read
      (List.replicate l.size 0) = some buckets) ↔ text.length < DEFAULT_HIST_ALLOC := by
  have hdefault : DEFAULT_HIST_ALLOC = 512 := rfl
  have hitems : ∀ b ∈ filled buckets, b.2 < l.size := fun b hb => hsize ▸ filled_lt_length hb
  constructor
  · intro hparse
    by_contra hlong
    have hcut : DEFAULT_HIST_ALLOC - 1 - start.length <
        (bucketsText l.bucketText (filled buckets)).length := by
      rw [htext, List.length_append] at hlong
      omega
    obtain ⟨before, b, after, j, hsplit, hj, htake⟩ := bucketsText_take hcut
    have hb : b ∈ filled buckets := by simp [hsplit]
    have hstr : text.take (DEFAULT_HIST_ALLOC - 1) =
        start ++ bucketsText l.bucketText before ++ (l.bucketText b.2 b.1).take j := by
      rw [htext, List.take_append, List.take_of_length_le (by omega), htake, List.append_assoc]
    have hread := hparse fun _ => 0
    rw [hstr] at hread
    cases j with
    | zero =>
        -- the text ends between two buckets, and the later ones are missing
        rw [List.take_zero, List.append_nil] at hread
        have hle := l.length_le_length_text before
        rw [l.parse_text (fun b' hb' => hitems b' (by simp [hsplit, hb'])) (by
          rw [List.length_append]
          omega)] at hread
        have hnot : b.2 ∉ before.map Prod.snd := by
          have hnodup := nodup_filled buckets
          rw [hsplit, List.map_append, List.map_cons] at hnodup
          exact fun hmem => (List.nodup_append.mp hnodup).2.2 _ hmem _ (by simp) rfl
        have hmissing := setAll_getElem? hnot (List.replicate l.size 0)
        rw [Option.some.inj hread, (mem_filled hb).1, List.getElem?_replicate] at hmissing
        split at hmissing
        · exact (mem_filled hb).2 (Option.some.inj hmissing)
        · exact nomatch hmissing
    | succ j =>
        -- the text ends within a bucket, before its semicolon
        obtain ⟨body, hbody, hsemi⟩ := l.semicolon b.2 b.1
        have htail : (l.bucketText b.2 b.1).take (j + 1) = body.take (j + 1) := by
          rw [hbody, List.length_append, List.length_singleton] at hj
          rw [hbody, List.take_append_of_le_length (by omega)]
        have hne : body.take (j + 1) ≠ [] := by
          rw [← htail]
          intro hnil
          rw [← List.length_eq_zero_iff, List.length_take] at hnil
          omega
        rw [htail] at hread
        have hlast := l.last_of_parse (by
          have hpos := List.length_pos_of_ne_nil hne
          simp only [List.length_append]
          omega) hread
        rw [List.getLast?_append_of_ne_nil _ hne] at hlast
        exact hsemi (List.mem_of_mem_take (List.mem_of_getLast? hlast))
  · intro hfits beyond
    rw [List.take_of_length_le (by omega), htext,
      l.parse_text hitems ((l.length_le_length_text _).trans (by simp)), ← hsize, setAll_filled]

end Cut

end Gufi.Histogram
