import Gufi.QueryRows

/-!
# Rows of query results are read back

The rows that `print_parallel` writes are read back, except for one that ends where the buffer
ends and whose last column is empty: `snprintf` has one byte left for the length 0, and writes its
NUL there.
-/

namespace Gufi.QueryRows

open Stdio ByteBuffer

section Statement

/-- What the prefix of a row can express, with values that are C strings. -/
structure IsRow (row : Row) : Prop where
  ne_nil : row ≠ []
  count : row.length < 16 ^ 4
  len : rowLen row < 16 ^ 8
  nul : ∀ c ∈ row, ∀ text, c.data = some text → 0 ∉ text

/-- `NULL` and the empty text are one. -/
def Column.decoded (c : Column) : UInt8 × Bytes := (c.type, c.data.getD [])

/-- The last column is `NULL` or empty. -/
def endsEmpty (row : Row) : Bool := row.getLast?.any fun c => c.text.isEmpty

/-- What is filled when the row is about to be written. -/
def filledBefore (capacity filled : ℕ) (row : Row) : ℕ :=
  if capacity - filled < rowLen row then 0 else filled

def filledAfter (capacity filled : ℕ) (row : Row) : ℕ :=
  if capacity < rowLen row then filledBefore capacity filled row
  else filledBefore capacity filled row + rowLen row

/-- The row is put into the buffer, ends where the buffer ends, and has an empty last column. -/
def LosesLength (capacity filled : ℕ) (row : Row) : Prop :=
  filledBefore capacity filled row + rowLen row = capacity ∧ endsEmpty row = true

instance (capacity filled : ℕ) (row : Row) : Decidable (LosesLength capacity filled row) :=
  inferInstanceAs (Decidable (_ ∧ _))

/-- No row of the query does so. -/
def KeepsLengths (capacity : ℕ) : ℕ → List Row → Prop
  | _, [] => True
  | filled, row :: rows =>
    ¬LosesLength capacity filled row ∧ KeepsLengths capacity (filledAfter capacity filled row) rows

end Statement

section Lengths

variable {row : Row} {c : Column} {len : ℕ}

theorem lenOfLenLoop_eq (k : ℕ) (h : len < 16 ^ k) :
    lenOfLenLoop k len = (Nat.digits 16 len).length := by
  induction k generalizing len with
  | zero =>
      have hzero : len = 0 := by simpa using h
      simp [lenOfLenLoop, hzero]
  | succ k ih =>
      rw [lenOfLenLoop]
      by_cases hzero : len = 0
      · simp [hzero]
      · rw [if_neg hzero, Nat.digits_def' (by omega) (by omega), List.length_cons, ih]
        rw [pow_succ] at h
        omega

/-- The length is counted right below the limit of eight digits. -/
theorem lenOfLen_eq (h : len < 16 ^ 8) : lenOfLen len = (numeral 16 len).length := by
  have hdiv : len / 16 < 16 ^ 7 := by
    rw [pow_succ] at h
    omega
  rw [lenOfLen, lenOfLenLoop_eq 7 hdiv, numeral]
  by_cases hzero : len = 0
  · simp [hzero]
  · rw [if_neg hzero, List.length_reverse, List.length_map,
      Nat.digits_def' (by omega) (Nat.pos_of_ne_zero hzero), List.length_cons]

theorem lenOfLenLoop_le (k len : ℕ) : lenOfLenLoop k len ≤ k := by
  induction k generalizing len with
  | zero => rfl
  | succ k ih =>
      rw [lenOfLenLoop]
      split
      · omega
      · exact Nat.succ_le_succ (ih _)

theorem lenOfLen_le (len : ℕ) : lenOfLen len ≤ 8 :=
  Nat.succ_le_succ (lenOfLenLoop_le 7 _)

theorem length_columnToFile (h : c.text.length < 16 ^ 8) :
    (columnToFile c).length = c.length := by
  simp only [columnToFile, List.length_cons, List.length_append, Column.length, Column.lenOfLen,
    lenOfLen_eq h]
  omega

theorem length_le_rowLen (h : c ∈ row) : c.length ≤ rowLen row := by
  have hle : c.length ≤ (row.map Column.length).sum :=
    List.single_le_sum (fun _ _ => Nat.zero_le _) _ (List.mem_map_of_mem h)
  rw [rowLen]
  omega

theorem IsRow.length_text_lt (h : IsRow row) (hc : c ∈ row) : c.text.length < 16 ^ 8 := by
  have hle := length_le_rowLen hc
  have hlen := h.len
  rw [Column.length] at hle
  omega

theorem IsRow.text_eq (h : IsRow row) (hc : c ∈ row) : c.text = c.data.getD [] := by
  rw [Column.text]
  apply Trace.cString_eq_self
  cases hdata : c.data with
  | none => exact List.not_mem_nil
  | some text => exact h.nul c hc text hdata

theorem length_flatMap_columnToFile (h : ∀ c ∈ row, c.text.length < 16 ^ 8) :
    (row.flatMap columnToFile).length = (row.map Column.length).sum := by
  induction row with
  | nil => rfl
  | cons c row ih =>
      rw [List.flatMap_cons, List.length_append, List.map_cons, List.sum_cons,
        length_columnToFile (h c (List.mem_cons_self ..)),
        ih fun c' hc' => h c' (List.mem_cons_of_mem c hc')]

theorem IsRow.length_rowToFile (h : IsRow row) : (rowToFile row).length = rowLen row := by
  rw [rowToFile, List.length_append, List.length_append,
    length_padded (by omega) (by omega) h.len, length_padded (by omega) (by omega) h.count,
    length_flatMap_columnToFile fun c hc => h.length_text_lt hc, rowLen, TLV_ROW_LEN_LEN,
    TLV_COL_COUNT_LEN]
  omega

end Lengths

section Write

/-- The filled part of the buffer is the content. -/
def OutputBuffer.Holds (ob : OutputBuffer) (capacity filled : ℕ) (content : Bytes) : Prop :=
  ob.buf.length = capacity ∧ ob.filled = filled ∧ Filled ob.buf ob.filled content

variable {ob : OutputBuffer} {capacity filled length : ℕ} {content text : Bytes}
  {row : Row} {c : Column}

theorem OutputBuffer.Holds.write (h : ob.Holds capacity filled content) (bytes : Bytes)
    (hroom : filled + bytes.length ≤ capacity) :
    (ob.write bytes).Holds capacity (filled + bytes.length) (content ++ bytes) := by
  obtain ⟨rfl, rfl, hfilled⟩ := h
  exact ⟨length_put hroom, rfl, hfilled.put hroom⟩

theorem OutputBuffer.Holds.write_byte (h : ob.Holds capacity filled content) (byte : UInt8)
    (hroom : filled < capacity) :
    (ob.write [byte]).Holds capacity (filled + 1) (content ++ [byte]) :=
  h.write [byte] hroom

theorem OutputBuffer.Holds.print (h : ob.Holds capacity filled content)
    (hlength : text.length = length) (hroom : filled + length < capacity) :
    (ob.print text length).Holds capacity (filled + length) (content ++ text) := by
  obtain ⟨rfl, rfl, hfilled⟩ := h
  subst hlength
  have hle := hfilled.le_length
  have hbound : ob.filled + (ob.buf.length - ob.filled) ≤ ob.buf.length := by omega
  exact ⟨length_snprintf hbound, rfl, hfilled.snprintf hbound (by omega)⟩

/-- Without room for the NUL the last byte is lost. -/
theorem OutputBuffer.Holds.print_full (h : ob.Holds capacity filled content)
    (hlength : text.length = length) (hroom : filled + length = capacity) (hne : text ≠ []) :
    (ob.print text length).Holds capacity (filled + length)
      (content ++ (text.dropLast ++ [0])) := by
  obtain ⟨rfl, rfl, hfilled⟩ := h
  subst hlength
  have hsize : ob.buf.length - ob.filled = text.length := by omega
  rw [OutputBuffer.print, hsize]
  exact ⟨length_snprintf (by omega), rfl, hfilled.snprintf_full (by omega) hne⟩

/-- A column is put into the buffer as it is written to a file, if data or another column takes
the place of the NUL behind its length. -/
theorem holds_columnToBuffer (h : ob.Holds capacity filled content)
    (htext : c.text.length < 16 ^ 8) (hroom : filled + c.length ≤ capacity)
    (hnul : filled + c.length < capacity ∨ c.text ≠ []) :
    (columnToBuffer ob c).Holds capacity (filled + c.length) (content ++ columnToFile c) := by
  have hlen : (numeral 16 c.text.length).length = c.lenOfLen := (lenOfLen_eq htext).symm
  have hpos : filled + c.length < capacity ∨ 0 < c.text.length :=
    hnul.imp id List.length_pos_iff.mpr
  rw [Column.length] at hroom hpos
  have htype := h.write_byte c.typeByte (by omega)
  have hlol := htype.write_byte c.lenOfLenByte (by omega)
  have hnumeral := hlol.print hlen (by omega)
  have hdata := hnumeral.write c.text (by omega)
  have hfilled : filled + 1 + 1 + c.lenOfLen + c.text.length = filled + c.length := by
    rw [Column.length]
    omega
  rw [hfilled] at hdata
  simpa [columnToFile, columnToBuffer] using hdata

/-- An empty column at the end of the buffer has a NUL for its length. -/
theorem holds_columnToBuffer_full (h : ob.Holds capacity filled content)
    (htext : c.text = []) (hroom : filled + c.length = capacity) :
    (columnToBuffer ob c).Holds capacity (filled + c.length)
      (content ++ [c.typeByte, c.lenOfLenByte, 0]) := by
  have hlol1 : c.lenOfLen = 1 := by rw [Column.lenOfLen, htext]; rfl
  rw [Column.length, htext, hlol1, List.length_nil] at hroom
  have htype := h.write_byte c.typeByte (by omega)
  have hlol := htype.write_byte c.lenOfLenByte (by omega)
  have hnumeral : (numeral 16 c.text.length).length = c.lenOfLen := by
    rw [hlol1, htext]
    rfl
  have hprint := hlol.print_full hnumeral (by omega) (numeral_ne_nil 16 _)
  have hdata := hprint.write c.text (by rw [htext, List.length_nil]; omega)
  have hfilled : filled + 1 + 1 + c.lenOfLen + c.text.length = filled + c.length := by
    rw [Column.length]
    omega
  have hzero : (numeral 16 c.text.length).dropLast = [] := by
    rw [htext]
    rfl
  rw [hfilled, hzero] at hdata
  simpa [columnToBuffer, htext] using hdata

/-- Columns that leave room behind them. -/
theorem holds_foldl_columnToBuffer (columns : List Column)
    (h : ob.Holds capacity filled content) (htext : ∀ c ∈ columns, c.text.length < 16 ^ 8)
    (hroom : filled + (columns.map Column.length).sum < capacity) :
    (columns.foldl columnToBuffer ob).Holds capacity (filled + (columns.map Column.length).sum)
      (content ++ columns.flatMap columnToFile) := by
  induction columns generalizing ob filled content with
  | nil => simpa using h
  | cons c columns ih =>
      rw [List.map_cons, List.sum_cons] at hroom ⊢
      have hc := holds_columnToBuffer h (htext c (List.mem_cons_self ..)) (by omega)
        (.inl (by omega))
      have hrest := ih hc (fun c' hc' => htext c' (List.mem_cons_of_mem c hc')) (by omega)
      rwa [Nat.add_assoc, List.append_assoc, ← List.flatMap_cons] at hrest

/-- What a row is in the output: its length is replaced by a NUL if it is lost. -/
def printed (capacity filled : ℕ) (row : Row) : Bytes :=
  if LosesLength capacity filled row then (rowToFile row).dropLast ++ [0] else rowToFile row

theorem endsEmpty_append (columns : List Column) (c : Column) :
    endsEmpty (columns ++ [c]) = c.text.isEmpty := by
  simp [endsEmpty]

/-- A row is put into the buffer, and its last length is lost where there is no room for a NUL. -/
theorem holds_rowToBuffer (h : ob.Holds capacity filled content) (hrow : IsRow row)
    (hroom : filled + rowLen row ≤ capacity) :
    (rowToBuffer ob row).Holds capacity (filled + rowLen row)
      (content ++ if filled + rowLen row = capacity ∧ endsEmpty row = true then
        (rowToFile row).dropLast ++ [0] else rowToFile row) := by
  obtain hnil | ⟨columns, last, rfl⟩ := row.eq_nil_or_concat'
  · exact absurd hnil hrow.ne_nil
  have hlength : rowLen (columns ++ [last]) =
      8 + 4 + (columns.map Column.length).sum + last.length := by
    simp only [rowLen, List.map_append, List.sum_append, List.map_singleton, List.sum_singleton,
      TLV_ROW_LEN_LEN, TLV_COL_COUNT_LEN]
    omega
  have hlast : 0 < last.length := by
    rw [Column.length]
    omega
  rw [hlength] at hroom
  have hrowLen := h.print (length_padded (by omega) (by omega) hrow.len) (by omega)
  have hcount := hrowLen.print (length_padded (by omega) (by omega) hrow.count) (by omega)
  have htext {c : Column} (hc : c ∈ columns ++ [last]) := hrow.length_text_lt hc
  have hcolumns := holds_foldl_columnToBuffer columns hcount
    (fun c hc => htext (List.mem_append_left _ hc)) (by omega)
  have hfilled : filled + 8 + 4 + (columns.map Column.length).sum + last.length =
      filled + rowLen (columns ++ [last]) := by
    rw [hlength]
    omega
  have hmem : last ∈ columns ++ [last] := List.mem_append_right _ (List.mem_singleton_self last)
  simp only [rowToBuffer, TLV_ROW_LEN_LEN, TLV_COL_COUNT_LEN, List.foldl_append, List.foldl_cons,
    List.foldl_nil, endsEmpty_append, List.isEmpty_iff, ← hfilled]
  by_cases hfull : filled + 8 + 4 + (columns.map Column.length).sum + last.length = capacity ∧
      last.text = []
  · have hcut := holds_columnToBuffer_full hcolumns hfull.2 hfull.1
    rw [if_pos hfull]
    have hbytes : (rowToFile (columns ++ [last])).dropLast =
        padded 8 16 (rowLen (columns ++ [last])) ++ (padded 4 16 (columns ++ [last]).length ++
          (columns.flatMap columnToFile ++ [last.typeByte, last.lenOfLenByte])) := by
      have hzero : numeral 16 0 = [48] := by decide
      have hend : rowToFile (columns ++ [last]) =
          (padded 8 16 (rowLen (columns ++ [last])) ++ (padded 4 16 (columns ++ [last]).length ++
            (columns.flatMap columnToFile ++ [last.typeByte, last.lenOfLenByte]))) ++ [48] := by
        simp [rowToFile, columnToFile, hfull.2, hzero]
      rw [hend, List.dropLast_concat]
    rw [hbytes]
    simpa using hcut
  · have hnot : filled + 8 + 4 + (columns.map Column.length).sum + last.length < capacity ∨
        last.text ≠ [] := by
      by_contra hnone
      obtain ⟨hge, hempty⟩ := not_or.mp hnone
      exact hfull ⟨by omega, not_not.mp hempty⟩
    have hwhole := holds_columnToBuffer hcolumns (htext hmem) (by omega) hnot
    rw [if_neg hfull]
    simpa [rowToFile] using hwhole

/-- What the file has and what the buffer holds, in this order. -/
def PrintArgs.Printed (print : PrintArgs) (capacity filled : ℕ) (output : Bytes) : Prop :=
  ∃ content, print.outputBuffer.Holds capacity filled content ∧ print.outfile ++ content = output

theorem PrintArgs.Printed.flush {print : PrintArgs} {output : Bytes}
    (h : print.Printed capacity filled output) :
    print.flush.Printed capacity 0 output ∧ print.flush.outfile = output := by
  obtain ⟨content, ⟨hcapacity, -, hfilled⟩, houtput⟩ := h
  have hfile : print.flush.outfile = output := by
    rw [PrintArgs.flush, hfilled.take, houtput]
  exact ⟨⟨[], ⟨hcapacity, rfl, Nat.zero_le _, rfl⟩, by rw [List.append_nil, hfile]⟩, hfile⟩

theorem printed_printParallel {print : PrintArgs} {output : Bytes} (hrow : IsRow row)
    (h : print.Printed capacity filled output) :
    (printParallel print row).Printed capacity (filledAfter capacity filled row)
      (output ++ printed capacity filled row) := by
  have hbefore : (if print.capacity - print.outputBuffer.filled < rowLen row then print.flush
      else print).Printed capacity (filledBefore capacity filled row) output := by
    obtain ⟨content, ⟨hcapacity, hfill, -⟩, -⟩ := id h
    rw [filledBefore, PrintArgs.capacity, hcapacity, hfill]
    split
    · exact h.flush.1
    · exact h
  have hfits : ¬capacity < rowLen row →
      filledBefore capacity filled row + rowLen row ≤ capacity := by
    intro hlarge
    have hprefix : 12 ≤ rowLen row := by
      rw [rowLen, TLV_ROW_LEN_LEN, TLV_COL_COUNT_LEN]
      omega
    rw [filledBefore]
    split <;> omega
  rw [printParallel]
  generalize (if print.capacity - print.outputBuffer.filled < rowLen row then print.flush
    else print) = print' at hbefore
  obtain ⟨content, hholds, houtput⟩ := hbefore
  have hcapacity : print'.capacity = capacity := hholds.1
  simp only [hcapacity]
  rw [filledAfter]
  by_cases hlarge : capacity < rowLen row
  · have hkept : ¬LosesLength capacity filled row := by
      rintro ⟨heq, -⟩
      omega
    -- a row that is too long for the buffer was too long for the room in it, which was flushed
    have hflushed : filledBefore capacity filled row = 0 := by
      rw [filledBefore, if_pos (by omega)]
    have hnil : content = [] := by
      rw [← List.length_eq_zero_iff, hholds.2.2.length_eq, hholds.2.1, hflushed]
    rw [if_pos hlarge, if_pos hlarge, printed, if_neg hkept]
    refine ⟨content, hholds, ?_⟩
    rw [← houtput, hnil, List.append_nil, List.append_nil]
  · have hbuffer := holds_rowToBuffer hholds hrow (hfits hlarge)
    rw [if_neg hlarge, if_neg hlarge, printed, ← houtput, List.append_assoc]
    exact ⟨_, hbuffer, rfl⟩

/-- What the rows are in the output. -/
def printedRows (capacity : ℕ) : ℕ → List Row → Bytes
  | _, [] => []
  | filled, row :: rows =>
    printed capacity filled row ++ printedRows capacity (filledAfter capacity filled row) rows

theorem printRows_eq (buf : Bytes) {rows : List Row} (hrows : ∀ row ∈ rows, IsRow row) :
    printRows buf rows = printedRows buf.length 0 rows := by
  have hrun (print : PrintArgs) (filled : ℕ) (output : Bytes)
      (h : print.Printed buf.length filled output) :
      (rows.foldl printParallel print).flush.outfile =
        output ++ printedRows buf.length filled rows := by
    induction rows generalizing print filled output with
    | nil => rw [List.foldl_nil, h.flush.2, printedRows, List.append_nil]
    | cons row rows ih =>
        have hrow := hrows row (List.mem_cons_self ..)
        have hrest := ih (fun r hr => hrows r (List.mem_cons_of_mem row hr)) _ _ _
          (printed_printParallel hrow h)
        rw [List.foldl_cons, hrest, printedRows, List.append_assoc]
  have hempty : PrintArgs.Printed ⟨⟨buf, 0⟩, []⟩ buf.length 0 [] :=
    ⟨[], ⟨rfl, rfl, Nat.zero_le _, rfl⟩, rfl⟩
  have hprint := hrun _ _ _ hempty
  rwa [List.nil_append] at hprint

end Write

section Read

variable {row : Row} {c : Column} {rest : Bytes} {room : ℕ}

theorem lenOfLenByte_sub (c : Column) : (c.lenOfLenByte - 48).toNat = c.lenOfLen := by
  have hle := lenOfLen_le c.text.length
  rw [Column.lenOfLenByte, UInt8.add_sub_cancel, UInt8.toNat_ofNat']
  exact Nat.mod_eq_of_lt (by rw [Column.lenOfLen]; omega)

/-- The length of a column is read back. -/
theorem scanHex_columnLength (htext : c.text.length < 16 ^ 8) (rest : Bytes) :
    scanHex c.lenOfLen ((numeral 16 c.text.length ++ rest).take c.lenOfLen) =
      some (c.text.length, c.lenOfLen) := by
  have hlen : c.lenOfLen = (numeral 16 c.text.length).length := lenOfLen_eq htext
  have hle := lenOfLen_le c.text.length
  have hscan := scanHex_append (isNumber_numeral (by omega) le_rfl c.text.length)
    (numeral_ne_nil 16 _) (by rw [← hlen, Column.lenOfLen]; omega) []
  rw [List.append_nil, readDigits_numeral (by omega) le_rfl] at hscan
  rw [hlen, List.take_left, hscan]

/-- The first column is read, and the others behind it. -/
theorem readColumns_cons (i count : ℕ) (htext : c.text.length < 16 ^ 8)
    (hroom : c.length ≤ room) :
    readColumns i (count + 1) room (columnToFile c ++ rest) =
      (readColumns (i + 1) count (room - c.length) rest).map
        fun r => ((c.type, c.text) :: r.1, r.2) := by
  have hle := lenOfLen_le c.text.length
  have hlen : (numeral 16 c.text.length).length = c.lenOfLen := (lenOfLen_eq htext).symm
  have hlength : 2 + c.lenOfLen + c.text.length = c.length := by
    rw [Column.length]
    omega
  have hinput : columnToFile c ++ rest =
      c.typeByte :: c.lenOfLenByte :: (numeral 16 c.text.length ++ (c.text ++ rest)) := by
    simp [columnToFile]
  have hdrop : (numeral 16 c.text.length ++ (c.text ++ rest)).drop c.lenOfLen =
      c.text ++ rest := by
    rw [← hlen, List.drop_left]
  have henough : ¬(128 ≤ c.lenOfLen ∨
      (numeral 16 c.text.length ++ (c.text ++ rest)).length < c.lenOfLen) := by
    rw [List.length_append, hlen, Column.lenOfLen]
    omega
  have hdata : ¬(c.text ++ rest).length < c.text.length := by
    rw [List.length_append]
    omega
  rw [hinput, readColumns, lenOfLenByte_sub, if_neg henough, scanHex_columnLength htext]
  simp only [hdrop, if_neg hdata, hlength, if_neg (Nat.not_lt.mpr hroom), List.take_left,
    List.drop_left, Column.typeByte, UInt8.add_sub_cancel]
  cases readColumns (i + 1) count (room - c.length) rest <;> rfl

theorem readColumns_append {columns : List Column} (i count : ℕ)
    (htext : ∀ c ∈ columns, c.text.length < 16 ^ 8)
    (hroom : (columns.map Column.length).sum ≤ room) :
    readColumns i (columns.length + count) room (columns.flatMap columnToFile ++ rest) =
      (readColumns (i + columns.length) count (room - (columns.map Column.length).sum) rest).map
        fun r => (columns.map (fun c => (c.type, c.text)) ++ r.1, r.2) := by
  induction columns generalizing i room with
  | nil =>
      simp only [List.length_nil, Nat.zero_add, List.flatMap_nil, List.nil_append, Nat.add_zero,
        List.map_nil, List.sum_nil, Nat.sub_zero]
      cases readColumns i count room rest <;> rfl
  | cons c columns ih =>
      have hsum : ((c :: columns).map Column.length).sum =
          c.length + (columns.map Column.length).sum := by
        rw [List.map_cons, List.sum_cons]
      rw [hsum] at hroom ⊢
      have hrest := @ih (room - c.length) (i + 1)
        (fun c' hc' => htext c' (List.mem_cons_of_mem c hc')) (by omega)
      have hcount : (c :: columns).length + count = columns.length + count + 1 := by
        rw [List.length_cons]
        omega
      rw [hcount, List.flatMap_cons, List.append_assoc,
        readColumns_cons i _ (htext c (List.mem_cons_self ..)) (by omega), hrest,
        List.length_cons, Nat.sub_sub, Nat.add_assoc i 1, Nat.add_comm 1]
      cases readColumns (i + (columns.length + 1)) count
        (room - (c.length + (columns.map Column.length).sum)) rest <;> rfl

/-- The length of a column that was lost is not read. -/
theorem readColumns_lost (i : ℕ) (hempty : c.text = []) :
    readColumns i 1 room ([c.typeByte, c.lenOfLenByte, 0] ++ rest) = .error (.parseLength i) := by
  have hlol : c.lenOfLen = 1 := by
    rw [Column.lenOfLen, hempty]
    rfl
  have hnul : scanHex 1 [0] = none := by decide
  simp [readColumns, lenOfLenByte_sub, hlol, hnul]

/-- The prefix of a row is read, and the columns behind it. -/
theorem readRow_prefix (hcount : row.length < 16 ^ 4) (hlen : rowLen row < 16 ^ 8)
    (input : Bytes) :
    readRow (padded 8 16 (rowLen row) ++ (padded 4 16 row.length ++ input)) =
      readColumns 0 row.length (row.map Column.length).sum input := by
  have hlen8 := length_padded (by omega : 1 < 16) (by omega) hlen
  have hlen4 := length_padded (by omega : 1 < 16) (by omega) hcount
  have hscan8 := scanHex_append (isNumber_padded (by omega) le_rfl 8 (rowLen row))
    (by rw [← List.length_pos_iff, hlen8]; omega) (by omega) (padded 4 16 row.length)
  have hscan4 := scanHex_append (isNumber_padded (by omega) le_rfl 4 row.length)
    (by rw [← List.length_pos_iff, hlen4]; omega) (by omega) []
  rw [hlen8, readDigits_padded (by omega) le_rfl] at hscan8
  rw [hlen4, readDigits_padded (by omega) le_rfl, List.append_nil] at hscan4
  have htake : (padded 8 16 (rowLen row) ++ (padded 4 16 row.length ++ input)).take 12 =
      padded 8 16 (rowLen row) ++ padded 4 16 row.length := by
    rw [← List.append_assoc]
    exact List.take_left' (by rw [List.length_append, hlen8, hlen4])
  have hdrop : (padded 8 16 (rowLen row) ++ (padded 4 16 row.length ++ input)).drop 12 =
      input := by
    rw [← List.append_assoc]
    exact List.drop_left' (by rw [List.length_append, hlen8, hlen4])
  have henough : ¬(padded 8 16 (rowLen row) ++ (padded 4 16 row.length ++ input)).length <
      TLV_ROW_LEN_LEN + TLV_COL_COUNT_LEN := by
    simp only [List.length_append, hlen8, hlen4, TLV_ROW_LEN_LEN, TLV_COL_COUNT_LEN]
    omega
  have hprefix : ¬rowLen row < TLV_ROW_LEN_LEN + TLV_COL_COUNT_LEN := by
    rw [rowLen]
    omega
  have hroom : rowLen row - (TLV_ROW_LEN_LEN + TLV_COL_COUNT_LEN) =
      (row.map Column.length).sum := by
    rw [rowLen]
    omega
  rw [readRow, if_neg henough, htake, hscan8, List.drop_left' hlen8, hscan4, hdrop]
  simp only [if_neg hprefix, hroom]

theorem IsRow.map_text (h : IsRow row) :
    row.map (fun c => (c.type, c.text)) = row.map Column.decoded := by
  apply List.map_congr_left
  intro c hc
  rw [h.text_eq hc, Column.decoded]

theorem readRow_rowToFile (h : IsRow row) (rest : Bytes) :
    readRow (rowToFile row ++ rest) = .ok (row.map Column.decoded, rest) := by
  have hcolumns := @readColumns_append rest (row.map Column.length).sum row 0 0
    (fun c hc => h.length_text_lt hc) le_rfl
  rw [rowToFile, List.append_assoc, List.append_assoc, readRow_prefix h.count h.len]
  rw [Nat.add_zero] at hcolumns
  rw [hcolumns, readColumns, ← h.map_text]
  simp [Except.map]

/-- A row that lost its last length is not read. -/
theorem readRow_lost (h : IsRow row) (hempty : endsEmpty row = true) (rest : Bytes) :
    ∃ e, readRow ((rowToFile row).dropLast ++ [0] ++ rest) = .error e := by
  obtain hnil | ⟨columns, last, rfl⟩ := row.eq_nil_or_concat'
  · exact absurd hnil h.ne_nil
  rw [endsEmpty_append, List.isEmpty_iff] at hempty
  have hzero : numeral 16 0 = [48] := by decide
  have hend : rowToFile (columns ++ [last]) =
      (padded 8 16 (rowLen (columns ++ [last])) ++ (padded 4 16 (columns ++ [last]).length ++
        (columns.flatMap columnToFile ++ [last.typeByte, last.lenOfLenByte]))) ++ [48] := by
    simp [rowToFile, columnToFile, hempty, hzero]
  have hinput : (rowToFile (columns ++ [last])).dropLast ++ [0] ++ rest =
      padded 8 16 (rowLen (columns ++ [last])) ++ (padded 4 16 (columns ++ [last]).length ++
        (columns.flatMap columnToFile ++ ([last.typeByte, last.lenOfLenByte, 0] ++ rest))) := by
    rw [hend, List.dropLast_concat]
    simp
  have htext : ∀ c ∈ columns, c.text.length < 16 ^ 8 :=
    fun c hc => h.length_text_lt (List.mem_append_left _ hc)
  have hroom : (columns.map Column.length).sum ≤ ((columns ++ [last]).map Column.length).sum := by
    simp
  rw [hinput, readRow_prefix h.count h.len, List.length_append, List.length_singleton,
    readColumns_append 0 1 htext hroom, readColumns_lost _ hempty]
  exact ⟨_, rfl⟩

end Read

section RoundTrip

variable {rows : List Row} {capacity filled fuel : ℕ} {input : Bytes}

theorem readRowsLoop_eq (hinput : input ≠ []) :
    readRowsLoop (fuel + 1) input = (do
      let row ← readRow input
      let rows ← readRowsLoop fuel row.2
      return row.1 :: rows) := by
  cases input with
  | nil => exact absurd rfl hinput
  | cons b input => rfl

theorem bind_cons_eq_ok_iff {α : Type} {x : Except ReadError (List α)} {a : α} {as : List α} :
    (do let rest ← x; return a :: rest) = Except.ok (a :: as) ↔ x = .ok as := by
  cases x with
  | error e => exact ⟨nofun, nofun⟩
  | ok rest =>
      change Except.ok (a :: rest) = Except.ok (a :: as) ↔ _
      rw [Except.ok.injEq, Except.ok.injEq, List.cons.injEq]
      exact and_iff_right rfl

theorem IsRow.twelve_le_length_printed {row : Row} (h : IsRow row) :
    12 ≤ (printed capacity filled row).length := by
  have hlength := h.length_rowToFile
  have hprefix : 12 ≤ rowLen row := by
    rw [rowLen, TLV_ROW_LEN_LEN, TLV_COL_COUNT_LEN]
    omega
  rw [printed]
  split
  · rw [List.length_append, List.length_dropLast, List.length_singleton]
    omega
  · omega

/-- The rows are read up to the first that lost a length, and all of them if there is none. -/
theorem readRowsLoop_printedRows_iff (hrows : ∀ row ∈ rows, IsRow row)
    (hfuel : (printedRows capacity filled rows).length ≤ fuel) :
    readRowsLoop fuel (printedRows capacity filled rows) = .ok (rows.map (·.map Column.decoded)) ↔
      KeepsLengths capacity filled rows := by
  induction rows generalizing filled fuel with
  | nil => cases fuel <;> simp [printedRows, readRowsLoop, KeepsLengths]
  | cons row rows ih =>
      have hrow := hrows row (List.mem_cons_self ..)
      have hrest : ∀ r ∈ rows, IsRow r := fun r hr => hrows r (List.mem_cons_of_mem row hr)
      have htwelve := @IsRow.twelve_le_length_printed capacity filled row hrow
      rw [printedRows, List.length_append] at hfuel
      have hne : printed capacity filled row ++
          printedRows capacity (filledAfter capacity filled row) rows ≠ [] := by
        intro hnil
        have hlength := congrArg List.length hnil
        rw [List.length_append, List.length_nil] at hlength
        omega
      obtain ⟨fuel, rfl⟩ := Nat.exists_eq_succ_of_ne_zero (show fuel ≠ 0 by omega)
      have hrows' := @ih (filledAfter capacity filled row) fuel hrest (by omega)
      rw [printedRows, Nat.succ_eq_add_one, readRowsLoop_eq hne, KeepsLengths, ← hrows', printed]
      by_cases hlost : LosesLength capacity filled row
      · obtain ⟨e, he⟩ := readRow_lost hrow hlost.2
          (printedRows capacity (filledAfter capacity filled row) rows)
        rw [if_pos hlost, he]
        exact ⟨nofun, fun h => absurd hlost h.1⟩
      · rw [if_neg hlost, readRow_rowToFile hrow]
        exact bind_cons_eq_ok_iff.trans (and_iff_right hlost).symm

/-- The rows of a query are read back exactly if no row is put into the buffer so that it ends
where the buffer ends while its last column is `NULL` or empty. -/
theorem readRows_printRows_iff (buf : Bytes) (hrows : ∀ row ∈ rows, IsRow row) :
    readRows (printRows buf rows) = .ok (rows.map (·.map Column.decoded)) ↔
      KeepsLengths buf.length 0 rows := by
  rw [readRows, printRows_eq buf hrows]
  exact readRowsLoop_printedRows_iff hrows le_rfl

/-- A row of one column, with 15 bytes and those of the value. -/
def oneColumn (data : Option Bytes) : Row := [⟨3, data⟩]

theorem isRow_oneColumn {data : Option Bytes} (h : ∀ text, data = some text → 0 ∉ text)
    (hlen : rowLen (oneColumn data) < 16 ^ 8) : IsRow (oneColumn data) where
  ne_nil := List.cons_ne_nil _ _
  count := by simp [oneColumn]
  len := hlen
  nul := by
    intro c hc
    rw [List.mem_singleton.mp hc]
    exact h

/-- A row that is buffered, one that is flushed out by the next, and one that bypasses. -/
theorem readRows_threeRows :
    readRows (printRows (List.replicate 20 0)
      [oneColumn none, oneColumn (some [97, 98]), oneColumn (some [97, 98, 99, 100, 101, 102])]) =
        .ok [[(3, [])], [(3, [97, 98])], [(3, [97, 98, 99, 100, 101, 102])]] :=
  (readRows_printRows_iff _ (by
    intro row hrow
    simp only [List.mem_cons, List.not_mem_nil, or_false] at hrow
    obtain rfl | rfl | rfl := hrow
    · exact isRow_oneColumn (by simp) (by decide)
    · exact isRow_oneColumn (by simp) (by decide)
    · exact isRow_oneColumn (by simp) (by decide))).mpr ⟨by decide, by decide, by decide, trivial⟩

/-- One row with a `NULL` fills a buffer of 15 bytes. -/
theorem readRows_nullAtEnd :
    IsRow (oneColumn none) ∧
      readRows (printRows (List.replicate 15 0) [oneColumn none]) = .error (.parseLength 0) ∧
      ¬readRows (printRows (List.replicate 15 0) [oneColumn none]) =
        .ok ([oneColumn none].map (·.map Column.decoded)) := by
  have hread : readRows (printRows (List.replicate 15 0) [oneColumn none]) =
      .error (.parseLength 0) := by decide +kernel
  exact ⟨isRow_oneColumn nofun (by decide), hread, fun h => nomatch hread.symm.trans h⟩

end RoundTrip

end Gufi.QueryRows
