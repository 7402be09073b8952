import Gufi.CriticalSections
import Gufi.QueryRowsFraming

/-!
# Many threads print rows

Each thread of `gufi_query` prints to a buffer of its own with `print_parallel`. The buffer is
flushed to the common output under a mutex, and so is a row that does not fit into the buffer. At
the end `main` flushes all buffers. Whatever the threads and the capacity, the output is made of
whole rows, and `gufi_query_read_row` reads them all.
-/

namespace Gufi.QueryOutput

open Stdio ByteBuffer QueryRows CriticalSections Relation

section Print

/-- The members of `PrintArgs_t` that say how a row looks. -/
structure Format where
  types : Bool
  delim : UInt8
  newline : UInt8
  suppressNewline : Bool

variable (fmt : Format)

/-- `row_len` -/
def rowLen (row : Row) : ℕ :=
  if fmt.types then QueryRows.rowLen row
  else (row.map fun c => c.text.length).sum + (row.length - 1) + if fmt.suppressNewline then 0 else 1

/-- The writes of a column: with types its type and its lengths first. A value that is `NULL` is
not written. -/
def columnWrites (c : Column) : List Bytes :=
  (if fmt.types then [[c.typeByte], [c.lenOfLenByte], numeral 16 c.text.length] else []) ++
    (c.data.map fun _ => c.text).toList

/-- The writes of a row that bypasses the buffer. -/
def rowWrites (row : Row) : List Bytes :=
  (if fmt.types then [padded 8 16 (QueryRows.rowLen row), padded 4 16 row.length] else []) ++
    (row.dropLast.flatMap fun c =>
      columnWrites fmt c ++ if fmt.types then [] else [[fmt.delim]]) ++
    row.getLast?.toList.flatMap (columnWrites fmt) ++
    if !fmt.types && !fmt.suppressNewline then [[fmt.newline]] else []

/-- The bytes of a row. -/
def rowText (row : Row) : Bytes := (rowWrites fmt row).flatten

/-- The row is put into the buffer. -/
def rowToBuffer (ob : OutputBuffer) (row : Row) : OutputBuffer :=
  if fmt.types then QueryRows.rowToBuffer ob row
  else
    let ob := row.dropLast.foldl (fun ob c => (ob.write c.text).write [fmt.delim]) ob
    let ob := row.getLast?.toList.foldl (fun ob c => ob.write c.text) ob
    if fmt.suppressNewline then ob else ob.write [fmt.newline]

/-- `print_parallel`: the critical sections with their writes, and the buffer. -/
def printParallel (row : Row) (ob : OutputBuffer) : OutputBuffer × List (List Bytes) :=
  let flushed : OutputBuffer × List (List Bytes) :=
    if ob.buf.length - ob.filled < rowLen fmt row then
      ({ ob with filled := 0 }, [[ob.buf.take ob.filled]])
    else (ob, [])
  if flushed.1.buf.length < rowLen fmt row then
    (flushed.1, flushed.2 ++ [rowWrites fmt row])
  else (rowToBuffer fmt flushed.1 row, flushed.2)

/-- The threads, each with a buffer of its own. -/
abbrev Printers := State ℕ Row OutputBuffer UInt8

/-- All rows are printed, from empty buffers with any bytes in them. -/
def Prints (bufs : ℕ → Bytes) (s : Printers) : Prop :=
  Finished (printParallel fmt) (fun t => ⟨bufs t, 0⟩) s

/-- What `main` leaves on the standard output, when it has flushed the buffers of the threads. -/
def stdout (threads : ℕ) (s : Printers) : Bytes :=
  s.out ++ (List.range threads).flatMap fun t => (s.own t).buf.take (s.own t).filled

/-- The row has a column, and with types its prefix can express it and its last value is not
empty. -/
def Writable (row : Row) : Prop :=
  if fmt.types then IsRow row ∧ endsEmpty row = false else row ≠ []

end Print

section Text

variable {fmt : Format} {row : Row} {columns : Row} {last c : Column}

theorem Writable.ne_nil (h : Writable fmt row) : row ≠ [] := by
  unfold Writable at h
  split_ifs at h
  · exact h.1.ne_nil
  · exact h

theorem flatten_columnWrites (c : Column) : (columnWrites fmt c).flatten =
    if fmt.types then columnToFile c else c.text := by
  have hdata : ((c.data.map fun _ => c.text).toList).flatten = c.text := by
    cases hc : c.data with
    | none => simp [Column.text, hc, Trace.cString]
    | some text => simp
  rw [columnWrites, List.flatten_append, hdata]
  split_ifs
  · simp [columnToFile]
  · rfl

theorem flatten_flatMap_writes (f : Column → List Bytes) (columns : Row) :
    (columns.flatMap f).flatten = columns.flatMap fun c => (f c).flatten := by
  induction columns with
  | nil => rfl
  | cons c columns ih => rw [List.flatMap_cons, List.flatten_append, ih, List.flatMap_cons]

theorem rowText_types (htypes : fmt.types = true) (hrow : row ≠ []) :
    rowText fmt row = rowToFile row := by
  obtain hnil | ⟨columns, last, rfl⟩ := row.eq_nil_or_concat'
  · exact absurd hnil hrow
  · simp [rowText, rowWrites, htypes, flatten_flatMap_writes, flatten_columnWrites, rowToFile]

/-- Without types a row is its values with the delimiter between them, and the newline. -/
theorem rowText_concat (htypes : fmt.types = false) : rowText fmt (columns ++ [last]) =
    (columns.flatMap fun c => c.text ++ [fmt.delim]) ++ last.text ++
      if fmt.suppressNewline then [] else [fmt.newline] := by
  have hnewline : (if !fmt.suppressNewline then [[fmt.newline]] else []).flatten =
      if fmt.suppressNewline then [] else [fmt.newline] := by
    cases fmt.suppressNewline <;> rfl
  simp [rowText, rowWrites, htypes, flatten_flatMap_writes, flatten_columnWrites, ← hnewline]

theorem length_flatMap_delim (fmt : Format) (columns : Row) :
    (columns.flatMap fun c => c.text ++ [fmt.delim]).length =
      (columns.map fun c => c.text.length).sum + columns.length := by
  induction columns with
  | nil => rfl
  | cons c columns ih =>
      rw [List.flatMap_cons, List.length_append, ih, List.length_append, List.length_singleton,
        List.map_cons, List.sum_cons, List.length_cons]
      omega

theorem length_rowText (h : Writable fmt row) : (rowText fmt row).length = rowLen fmt row := by
  cases htypes : fmt.types with
  | true =>
      rw [Writable, if_pos htypes] at h
      rw [rowText_types htypes h.1.ne_nil, h.1.length_rowToFile, rowLen, if_pos htypes]
  | false =>
      obtain hnil | ⟨columns, last, rfl⟩ := row.eq_nil_or_concat'
      · exact absurd hnil h.ne_nil
      · rw [rowText_concat htypes, rowLen, if_neg (show ¬fmt.types = true by simp [htypes])]
        have hcolumns := length_flatMap_delim fmt columns
        have hnewline : (if fmt.suppressNewline then [] else [fmt.newline]).length =
            if fmt.suppressNewline then 0 else 1 := by
          cases fmt.suppressNewline <;> rfl
        rw [List.length_append, List.length_append, hcolumns, hnewline]
        simp
        omega

/-- With types, what one thread writes to a file is what it writes in its critical sections. -/
theorem printParallel_types (htypes : fmt.types = true) (hrow : row ≠ []) (ob : OutputBuffer)
    (outfile : Bytes) : QueryRows.printParallel ⟨ob, outfile⟩ row =
      ⟨(printParallel fmt row ob).1, outfile ++ (printParallel fmt row ob).2.flatten.flatten⟩ := by
  have hlen : rowLen fmt row = QueryRows.rowLen row := if_pos htypes
  have hwrites : (rowWrites fmt row).flatten = rowToFile row := rowText_types htypes hrow
  have hbuffer (ob : OutputBuffer) : rowToBuffer fmt ob row = QueryRows.rowToBuffer ob row :=
    if_pos htypes
  unfold QueryRows.printParallel printParallel PrintArgs.capacity PrintArgs.flush
  rw [hlen]
  by_cases hflush : ob.buf.length - ob.filled < QueryRows.rowLen row
  · rw [if_pos hflush, if_pos hflush]
    dsimp only
    by_cases hlarge : ob.buf.length < QueryRows.rowLen row
    · rw [if_pos hlarge, if_pos hlarge]
      simp [hwrites]
    · rw [if_neg hlarge, if_neg hlarge]
      simp [hbuffer]
  · rw [if_neg hflush, if_neg hflush]
    dsimp only
    by_cases hlarge : ob.buf.length < QueryRows.rowLen row
    · rw [if_pos hlarge, if_pos hlarge]
      simp [hwrites]
    · rw [if_neg hlarge, if_neg hlarge]
      simp [hbuffer]

end Text

section Buffer

variable {fmt : Format} {row : Row} {ob : OutputBuffer} {capacity filled : ℕ} {content : Bytes}

/-- The columns with their delimiters are put into the buffer. -/
theorem holds_foldl_write (fmt : Format) (columns : Row) (h : ob.Holds capacity filled content)
    (hroom : filled + (columns.flatMap fun c => c.text ++ [fmt.delim]).length ≤ capacity) :
    (columns.foldl (fun ob c => (ob.write c.text).write [fmt.delim]) ob).Holds capacity
      (filled + (columns.flatMap fun c => c.text ++ [fmt.delim]).length)
      (content ++ columns.flatMap fun c => c.text ++ [fmt.delim]) := by
  induction columns generalizing ob filled content with
  | nil => rwa [List.flatMap_nil, List.append_nil]
  | cons c columns ih =>
      rw [List.flatMap_cons, List.length_append, List.length_append,
        List.length_singleton] at hroom ⊢
      have htext := h.write c.text (by omega)
      have hdelim := htext.write [fmt.delim] (by rw [List.length_singleton]; omega)
      rw [List.length_singleton] at hdelim
      have hrest := ih hdelim (by omega)
      rw [List.foldl_cons, ← Nat.add_assoc, ← Nat.add_assoc, ← List.append_assoc,
        ← List.append_assoc]
      exact hrest

/-- A row that fits into the buffer is put into it. -/
theorem holds_rowToBuffer (h : ob.Holds capacity filled content) (hrow : Writable fmt row)
    (hroom : filled + rowLen fmt row ≤ capacity) :
    (rowToBuffer fmt ob row).Holds capacity (filled + rowLen fmt row)
      (content ++ rowText fmt row) := by
  have hlength := length_rowText hrow
  cases htypes : fmt.types with
  | true =>
      rw [Writable, if_pos htypes] at hrow
      rw [rowLen, if_pos htypes] at hroom ⊢
      have hbuffer := QueryRows.holds_rowToBuffer h hrow.1 hroom
      rw [if_neg (by simp [hrow.2])] at hbuffer
      rw [rowToBuffer, if_pos htypes, rowText_types htypes hrow.1.ne_nil]
      exact hbuffer
  | false =>
      obtain hnil | ⟨columns, last, rfl⟩ := row.eq_nil_or_concat'
      · exact absurd hnil hrow.ne_nil
      · rw [← hlength] at hroom ⊢
        rw [rowText_concat htypes, List.length_append, List.length_append] at hroom
        have hcolumns := holds_foldl_write fmt columns h (by omega)
        have hlast := hcolumns.write last.text (by omega)
        rw [rowToBuffer, if_neg (by simp [htypes]), List.dropLast_concat, List.getLast?_concat,
          rowText_concat htypes]
        dsimp only [Option.toList, List.foldl]
        split_ifs with hsuppress
        · simpa [Nat.add_assoc] using hlast
        · rw [if_neg hsuppress] at hroom
          have hnewline := hlast.write [fmt.newline] (by omega)
          simpa [Nat.add_assoc] using hnewline

/-- The critical sections have whole rows, and the rows behind them are in the buffer. -/
def Printed (fmt : Format) (capacity : ℕ) (rows : List Row)
    (r : OutputBuffer × List (List Bytes)) (blocks : List (List Row)) (held : List Row) : Prop :=
  blocks.flatten ++ held = rows ∧
    List.Forall₂ (fun writes block => writes.flatten = block.flatMap (rowText fmt)) r.2 blocks ∧
    r.1.Holds capacity (held.flatMap (rowText fmt)).length (held.flatMap (rowText fmt))

/-- One more row. -/
theorem printed_printParallel {rows : List Row} {writes : List (List Bytes)}
    {blocks : List (List Row)} {held : List Row} (hrow : Writable fmt row)
    (h : Printed fmt capacity rows (ob, writes) blocks held) :
    ∃ blocks' held', Printed fmt capacity (rows ++ [row])
      ((printParallel fmt row ob).1, writes ++ (printParallel fmt row ob).2) blocks' held' := by
  obtain ⟨rfl, hblocks, hholds⟩ := h
  obtain ⟨hcapacity, hfilled, hcontent⟩ := id hholds
  have hle := hcontent.le_length
  rw [hfilled] at hle
  have hempty : ({ ob with filled := 0 } : OutputBuffer).Holds capacity 0 [] :=
    ⟨hcapacity, rfl, Nat.zero_le _, rfl⟩
  unfold printParallel
  rw [hcapacity, hfilled]
  by_cases hflush : capacity - (held.flatMap (rowText fmt)).length < rowLen fmt row
  · -- the held rows are a critical section of their own
    have hflushed : List.Forall₂ (fun writes block => writes.flatten = block.flatMap (rowText fmt))
        (writes ++ [[ob.buf.take (held.flatMap (rowText fmt)).length]]) (blocks ++ [held]) := by
      apply List.rel_append hblocks
      refine .cons ?_ .nil
      rw [List.flatten_singleton, ← hfilled, hcontent.take]
    rw [if_pos hflush]
    dsimp only
    rw [hcapacity]
    split_ifs with hlarge
    · refine ⟨blocks ++ [held] ++ [[row]], [], by simp, ?_, hempty⟩
      rw [← List.append_assoc]
      apply List.rel_append hflushed
      refine .cons ?_ .nil
      rw [List.flatMap_singleton]
      rfl
    · refine ⟨blocks ++ [held], [row], by simp, hflushed, ?_⟩
      have hbuffer := holds_rowToBuffer hempty hrow (by omega)
      rw [List.flatMap_singleton, length_rowText hrow]
      rwa [Nat.zero_add, List.nil_append] at hbuffer
  · rw [if_neg hflush]
    dsimp only
    rw [hcapacity] at hle ⊢
    rw [if_neg (by omega), List.append_nil]
    refine ⟨blocks, held ++ [row], (List.append_assoc ..).symm, hblocks, ?_⟩
    have hbuffer := holds_rowToBuffer hholds hrow (by omega)
    rwa [List.flatMap_append, List.flatMap_singleton, List.length_append, length_rowText hrow]

/-- All rows of a thread. -/
theorem exists_printed (buf : Bytes) {rows : List Row} (hrows : ∀ row ∈ rows, Writable fmt row) :
    ∃ blocks held, Printed fmt buf.length rows (runCalls (printParallel fmt) ⟨buf, 0⟩ rows)
      blocks held := by
  induction rows using List.reverseRecOn with
  | nil => exact ⟨[], [], rfl, .nil, rfl, rfl, Nat.zero_le _, rfl⟩
  | append_singleton rows row ih =>
      obtain ⟨blocks, held, h⟩ := ih fun r hr => hrows r (List.mem_append_left _ hr)
      rw [runCalls_concat]
      exact printed_printParallel
        (hrows row (List.mem_append_right _ (List.mem_singleton_self row))) h

end Buffer

section Output

variable {fmt : Format} {bufs : ℕ → Bytes} {threads : ℕ} {s : Printers}

/-- The rows that were printed are on the standard output, each in one piece, and those of each
thread in their order. -/
theorem Prints.whole_rows (h : Prints fmt bufs s)
    (hcalls : ∀ x ∈ s.calls, x.1 < threads ∧ Writable fmt x.2) :
    ∃ order : List (ℕ × Row), (∀ t, ofThread t order = ofThread t s.calls) ∧
      stdout threads s = order.flatMap fun x => rowText fmt x.2 := by
  obtain ⟨entered, hout, hentered, hown⟩ := h.out_eq
  have hprinted (t : ℕ) : ∃ blocks held, Printed fmt (bufs t).length (ofThread t s.calls)
      (runCalls (printParallel fmt) ⟨bufs t, 0⟩ (ofThread t s.calls)) blocks held :=
    exists_printed (bufs t) fun row hrow => (hcalls _ (mem_ofThread.mp hrow)).2
  choose blocks held hprinted using hprinted
  have hsections (t : ℕ) : List.Forall₂
      (fun writes block => writes.flatten = block.flatMap (rowText fmt)) (ofThread t entered)
      (blocks t) := by
    rw [hentered]
    exact (hprinted t).2.1
  obtain ⟨order, horder, hof⟩ := exists_order hsections
  refine ⟨(order.flatMap fun x => x.2.map (Prod.mk x.1)) ++
    (List.range threads).flatMap fun t => (held t).map (Prod.mk t), fun t => ?_, ?_⟩
  · have hheld : (if t ∈ List.range threads then held t else []) = held t := by
      split_ifs with ht
      · rfl
      · have hnone : ofThread t s.calls = [] := by
          apply List.eq_nil_iff_forall_not_mem.mpr
          intro row hrow
          exact ht (List.mem_range.mpr (hcalls _ (mem_ofThread.mp hrow)).1)
        exact (List.append_eq_nil_iff.mp ((hprinted t).1.trans hnone)).2.symm
    have horderOf := ofThread_flatMap t (fun block : List Row => block) order
    rw [ofThread_append, horderOf, hof, ofThread_flatMap_threads List.nodup_range, hheld]
    simpa using (hprinted t).1
  · have hentered' : (entered.flatMap fun x => x.2.flatten) =
        order.flatMap fun x => x.2.flatMap (rowText fmt) := by
      clear hout hentered hof hsections
      induction horder with
      | nil => rfl
      | cons h _ ih => rw [List.flatMap_cons, List.flatMap_cons, h.2, ih]
    have hbuf (t : ℕ) : (s.own t).buf.take (s.own t).filled = (held t).flatMap (rowText fmt) := by
      rw [hown]
      exact (hprinted t).2.2.2.2.take
    rw [stdout, hout, hentered', List.flatMap_append, List.flatMap_assoc, List.flatMap_assoc]
    simp only [hbuf, List.flatMap_map]

/-- Rows that end in a value that is not empty lose no length. -/
theorem printedRows_eq (capacity filled : ℕ) {rows : List Row}
    (hrows : ∀ row ∈ rows, endsEmpty row = false) :
    KeepsLengths capacity filled rows ∧
      printedRows capacity filled rows = rows.flatMap rowToFile := by
  induction rows generalizing filled with
  | nil => exact ⟨trivial, rfl⟩
  | cons row rows ih =>
      rw [List.forall_mem_cons] at hrows
      obtain ⟨hkeeps, hprinted⟩ := ih (filledAfter capacity filled row) hrows.2
      have hkept : ¬LosesLength capacity filled row := by
        rintro ⟨-, hempty⟩
        rw [hrows.1] at hempty
        cases hempty
      refine ⟨⟨hkept, hkeeps⟩, ?_⟩
      rw [printedRows, printed, if_neg hkept, hprinted, List.flatMap_cons]

/-- With types the rows that many threads have printed are read back, those of each thread in
their order. -/
theorem readRows_stdout (htypes : fmt.types = true) (h : Prints fmt bufs s)
    (hcalls : ∀ x ∈ s.calls, x.1 < threads ∧ Writable fmt x.2) :
    ∃ order : List (ℕ × Row), (∀ t, ofThread t order = ofThread t s.calls) ∧
      readRows (stdout threads s) = .ok (order.map fun x => x.2.map Column.decoded) := by
  obtain ⟨order, hof, hout⟩ := h.whole_rows hcalls
  refine ⟨order, hof, ?_⟩
  have hwritable (x : ℕ × Row) (hx : x ∈ order) : IsRow x.2 ∧ endsEmpty x.2 = false := by
    have hcall := (hcalls x ((perm_of_ofThread hof).mem_iff.mp hx)).2
    rwa [Writable, if_pos htypes] at hcall
  have hrows : ∀ row ∈ order.map Prod.snd, IsRow row ∧ endsEmpty row = false := by
    rw [List.forall_mem_map]
    exact hwritable
  obtain ⟨hkeeps, hprinted⟩ := printedRows_eq 0 0 fun row hrow => (hrows row hrow).2
  have htext : stdout threads s = printedRows 0 0 (order.map Prod.snd) := by
    rw [hout, hprinted, List.flatMap_map]
    apply List.flatMap_congr
    intro x hx
    exact rowText_types htypes (hwritable x hx).1.ne_nil
  have hread := (readRowsLoop_printedRows_iff (fun row hrow => (hrows row hrow).1) le_rfl).mpr hkeeps
  rw [readRows, htext, hread, List.map_map]
  rfl

/-- Two threads print to buffers of 20 bytes; a row of two bytes has 17. -/
theorem readRows_stdout_twoThreads : ∃ s, Prints ⟨true, 124, 10, false⟩ (fun _ => List.replicate 20 0) s ∧
    ∃ order : List (ℕ × Row),
      (∀ t, ofThread t order = ofThread t [(0, oneColumn (some [97, 98])),
        (1, oneColumn (some [99, 97, 98, 99, 97, 98])), (0, oneColumn (some [98, 98]))]) ∧
      readRows (stdout 2 s) = .ok (order.map fun x => x.2.map Column.decoded) := by
  have hfinished : ∃ s, Prints ⟨true, 124, 10, false⟩ (fun _ => List.replicate 20 0) s ∧
      s.calls = [(0, oneColumn (some [97, 98])), (1, oneColumn (some [99, 97, 98, 99, 97, 98])),
        (0, oneColumn (some [98, 98]))] := exists_finished ..
  obtain ⟨s, hs, hcalls⟩ := hfinished
  refine ⟨s, hs, ?_⟩
  rw [← hcalls]
  apply readRows_stdout rfl hs
  have hrow (text : Bytes) (hnul : 0 ∉ text) (hne : endsEmpty (oneColumn (some text)) = false)
      (hlen : QueryRows.rowLen (oneColumn (some text)) < 16 ^ 8) :
      Writable ⟨true, 124, 10, false⟩ (oneColumn (some text)) :=
    ⟨isRow_oneColumn (by rintro _ ⟨⟩; exact hnul) hlen, hne⟩
  rw [hcalls]
  simp only [List.forall_mem_cons, List.not_mem_nil, false_implies, implies_true, and_true]
  exact ⟨⟨by decide, hrow _ (by decide) (by decide) (by decide)⟩,
    ⟨by decide, hrow _ (by decide) (by decide) (by decide)⟩,
    ⟨by decide, hrow _ (by decide) (by decide) (by decide)⟩⟩

end Output

end Gufi.QueryOutput
