import Gufi.ByteBuffer
import Gufi.TraceRoundTrip

/-!
# Trace lines in a buffer

`worktobuffer` puts the line of an entry into a buffer that grows, for the output of several
threads to one stream. It formats texts with `%s`, which stops at a NUL, and `worktofile` writes
the stored number of bytes. The two agree exactly on the entries without a NUL in their texts.
-/

namespace Gufi.Trace

open Stdio ByteBuffer

section Write

/-- `*size` bytes at `*buf`, of which `*offset` are filled. No bytes are a `NULL`. -/
structure Buffer where
  buf : Bytes
  offset : ℕ

/-- `write_with_resize`, where `text` is what is formatted. The bytes that `realloc` adds have no
set value. -/
def writeWithResize (b : Buffer) (text : Bytes) : Buffer :=
  let size := b.buf.length
  let buf := snprintf b.buf b.offset (size - b.offset) text
  if size - b.offset ≤ text.length then
    let newSize := max (size * 2) (size + text.length) + 1
    let buf := buf ++ List.replicate (newSize - size) 0
    ⟨snprintf buf b.offset (newSize - b.offset) text, b.offset + text.length⟩
  else ⟨buf, b.offset + text.length⟩

variable (delim : UInt8)

/-- `"%s%c"`. -/
def cStringField (text : Bytes) : Bytes := cString text ++ [delim]

/-- The loop over the pairs of `xattrs_to_buffer`. -/
def pairsPieces (xattrs : List Xattr) : List Bytes :=
  xattrs.flatMap fun x => [cStringField XATTRDELIM x.name, cStringField XATTRDELIM x.value]

/-- The texts that `xattrs_to_buffer` formats, one for each call of `write_with_resize`. -/
def xattrsPieces (xattrs : List Xattr) : List Bytes :=
  [lengthPrefix (xattrsLen xattrs + 2 * xattrs.length + 4), lengthPrefix xattrs.length] ++
    pairsPieces xattrs

def statPieces (s : Stat) : List Bytes :=
  [field delim (numeral 10 s.ino.toNat), field delim (numeral 10 s.mode.toNat),
   field delim (numeral 10 s.nlink.toNat), field delim (numeral 10 s.uid.toNat),
   field delim (numeral 10 s.gid.toNat), field delim (signed s.size.toInt),
   field delim (signed s.blksize.toInt), field delim (signed s.blocks.toInt),
   field delim (signed s.atime.toInt), field delim (signed s.mtime.toInt),
   field delim (signed s.ctime.toInt)]

/-- The texts that `worktobuffer` formats. -/
def bufferPieces (prefixLen : ℕ) (work : Work) (ed : EntryData) : List Bytes :=
  [lengthPrefix (work.name.drop prefixLen).length, cStringField delim (work.name.drop prefixLen),
   field delim [ed.type]] ++
  statPieces delim work.statuso ++
  [lengthPrefix ed.linkname.length, cStringField delim ed.linkname] ++
  xattrsPieces ed.xattrs ++
  [[delim], field delim (signed work.crtime.toInt), field delim (signed ed.ossint1.toInt),
   field delim (signed ed.ossint2.toInt), field delim (signed ed.ossint3.toInt),
   field delim (signed ed.ossint4.toInt),
   lengthPrefix ed.osstext1.length, cStringField delim ed.osstext1,
   lengthPrefix ed.osstext2.length, cStringField delim ed.osstext2,
   field delim (signed work.pinode.toInt), [10]]

def worktobuffer (b : Buffer) (prefixLen : ℕ) (work : Work) (ed : EntryData) : Buffer :=
  (bufferPieces delim prefixLen work ed).foldl writeWithResize b

end Write

section Append

variable {b : Buffer} {text content : Bytes}

/-- However much room there is, the text is behind what was filled. -/
theorem filled_writeWithResize (h : Filled b.buf b.offset content) :
    Filled (writeWithResize b text).buf (writeWithResize b text).offset (content ++ text) := by
  have hle := h.le_length
  have hroom : b.offset + (b.buf.length - b.offset) ≤ b.buf.length := by omega
  rw [writeWithResize]
  split
  · have hgrown := (@Filled.snprintf_keep _ text _ _ _ h hroom).append (List.replicate
      (max (b.buf.length * 2) (b.buf.length + text.length) + 1 - b.buf.length) 0)
    refine hgrown.snprintf ?_ ?_
    · rw [List.length_append, length_snprintf hroom, List.length_replicate]
      omega
    · omega
  · exact h.snprintf hroom (by omega)

theorem filled_foldl_writeWithResize (pieces : List Bytes) (h : Filled b.buf b.offset content) :
    Filled (pieces.foldl writeWithResize b).buf (pieces.foldl writeWithResize b).offset
      (content ++ pieces.flatten) := by
  induction pieces generalizing b content with
  | nil => simpa using h
  | cons text pieces ih =>
      rw [List.foldl_cons, List.flatten_cons, ← List.append_assoc]
      exact ih (filled_writeWithResize h)

end Append

section Agreement

variable {text : Bytes}

theorem cString_length_le (text : Bytes) : (cString text).length ≤ text.length :=
  (List.takeWhile_sublist _).length_le

theorem nul_notMem_of_length_le (h : text.length ≤ (cString text).length) : 0 ∉ text := by
  have heq : cString text = text :=
    (List.takeWhile_sublist _).eq_of_length_le h
  rw [← heq]
  exact notMem_cString text

theorem flatten_pairsPieces_cons (x : Xattr) (xattrs : List Xattr) :
    (pairsPieces (x :: xattrs)).flatten = cString x.name ++ XATTRDELIM ::
      (cString x.value ++ XATTRDELIM :: (pairsPieces xattrs).flatten) := by
  simp [pairsPieces, cStringField]

/-- A name or a value with a NUL makes the pairs shorter. -/
theorem length_pairsPieces_le (xattrs : List Xattr) :
    (pairsPieces xattrs).flatten.length ≤ (pairsToFile xattrs).length ∧
      ((pairsToFile xattrs).length ≤ (pairsPieces xattrs).flatten.length →
        ∀ x ∈ xattrs, 0 ∉ x.name ∧ 0 ∉ x.value) := by
  induction xattrs with
  | nil => exact ⟨le_rfl, fun _ => nofun⟩
  | cons x xattrs ih =>
      obtain ⟨ihle, ihnul⟩ := ih
      have hname := cString_length_le x.name
      have hvalue := cString_length_le x.value
      rw [flatten_pairsPieces_cons, pairsToFile_cons]
      simp only [List.length_append, List.length_cons]
      refine ⟨by omega, fun hge => ?_⟩
      rw [List.forall_mem_cons]
      exact ⟨⟨nul_notMem_of_length_le (by omega), nul_notMem_of_length_le (by omega)⟩,
        ihnul (by omega)⟩

theorem flatten_pairsPieces {xattrs : List Xattr}
    (h : ∀ x ∈ xattrs, 0 ∉ x.name ∧ 0 ∉ x.value) :
    (pairsPieces xattrs).flatten = pairsToFile xattrs := by
  induction xattrs with
  | nil => rfl
  | cons x xattrs ih =>
      rw [List.forall_mem_cons] at h
      rw [flatten_pairsPieces_cons, pairsToFile_cons, cString_eq_self h.1.1, cString_eq_self h.1.2,
        ih h.2]

/-- Both lines are the same around the name and the pairs. -/
theorem exists_around (delim : UInt8) (prefixLen : ℕ) (work : Work) {ed : EntryData}
    (hlinkname : 0 ∉ ed.linkname) (hosstext1 : 0 ∉ ed.osstext1) (hosstext2 : 0 ∉ ed.osstext2) :
    ∃ before middle after, worktofile delim prefixLen work ed =
        before ++ (work.name.drop prefixLen ++ (middle ++ (pairsToFile ed.xattrs ++ after))) ∧
      (bufferPieces delim prefixLen work ed).flatten = before ++
        (cString (work.name.drop prefixLen) ++
          (middle ++ ((pairsPieces ed.xattrs).flatten ++ after))) := by
  refine ⟨lengthPrefix (work.name.drop prefixLen).length,
    [delim] ++ field delim [ed.type] ++ statToFile delim work.statuso ++
      prefixed delim ed.linkname ++ lengthPrefix (xattrsLen ed.xattrs + 2 * ed.xattrs.length + 4) ++
      lengthPrefix ed.xattrs.length,
    [delim] ++ field delim (signed work.crtime.toInt) ++ field delim (signed ed.ossint1.toInt) ++
      field delim (signed ed.ossint2.toInt) ++ field delim (signed ed.ossint3.toInt) ++
      field delim (signed ed.ossint4.toInt) ++ prefixed delim ed.osstext1 ++
      prefixed delim ed.osstext2 ++ field delim (signed work.pinode.toInt) ++ [10], ?_, ?_⟩
  · simp only [worktofile, columns, prefixed, entryToFile, xattrsToFile, List.append_assoc]
  · simp only [bufferPieces, statPieces, xattrsPieces, prefixed, statToFile, cStringField,
      cString_eq_self hlinkname, cString_eq_self hosstext1, cString_eq_self hosstext2,
      List.flatten_append, List.flatten_cons, List.flatten_nil, List.append_assoc, List.append_nil]

/-- The buffer gets the bytes that are written to a file exactly if no NUL is in the written part
of the name and in the extended attributes. -/
theorem worktobuffer_eq_worktofile_iff (delim : UInt8) (prefixLen : ℕ) (work : Work)
    (ed : EntryData) (b : Buffer) (hb : b.offset ≤ b.buf.length) (hlinkname : 0 ∉ ed.linkname)
    (hosstext1 : 0 ∉ ed.osstext1) (hosstext2 : 0 ∉ ed.osstext2) :
    (worktobuffer delim b prefixLen work ed).buf.take
        (worktobuffer delim b prefixLen work ed).offset =
      b.buf.take b.offset ++ worktofile delim prefixLen work ed ↔
    0 ∉ work.name.drop prefixLen ∧ ∀ x ∈ ed.xattrs, 0 ∉ x.name ∧ 0 ∉ x.value := by
  have hfilled := filled_foldl_writeWithResize (bufferPieces delim prefixLen work ed) ⟨hb, rfl⟩
  obtain ⟨before, middle, after, hfile, hpieces⟩ :=
    exists_around delim prefixLen work hlinkname hosstext1 hosstext2
  rw [worktobuffer, hfilled.take, List.append_cancel_left_eq, hfile, hpieces,
    List.append_cancel_left_eq]
  constructor
  · intro h
    have hlength := congrArg List.length h
    simp only [List.length_append] at hlength
    have hname := cString_length_le (work.name.drop prefixLen)
    obtain ⟨hle, hnul⟩ := length_pairsPieces_le ed.xattrs
    exact ⟨nul_notMem_of_length_le (by omega), hnul (by omega)⟩
  · rintro ⟨hname, hxattrs⟩
    rw [cString_eq_self hname, flatten_pairsPieces hxattrs]

/-- A buffer that is half full and has to grow. -/
def halfFull : Buffer := ⟨[1, 2, 3, 4], 2⟩

theorem worktobuffer_binaryValue :
    (worktobuffer fielddelim halfFull 0 delimWork (fileWithXattr [255, 31])).buf.take
        (worktobuffer fielddelim halfFull 0 delimWork (fileWithXattr [255, 31])).offset =
      halfFull.buf.take halfFull.offset ++
        worktofile fielddelim 0 delimWork (fileWithXattr [255, 31]) :=
  (worktobuffer_eq_worktofile_iff fielddelim 0 delimWork (fileWithXattr [255, 31]) halfFull
    (by decide) (by decide) (by decide) (by decide)).mpr ⟨by decide, by
      intro x hx
      obtain rfl := List.mem_singleton.mp hx
      exact ⟨by decide, by decide⟩⟩

/-- The value is cut at its NUL. -/
theorem worktobuffer_nulValue_ne :
    (worktobuffer fielddelim halfFull 0 delimWork (fileWithXattr [97, 0, 98])).buf.take
        (worktobuffer fielddelim halfFull 0 delimWork (fileWithXattr [97, 0, 98])).offset ≠
      halfFull.buf.take halfFull.offset ++
        worktofile fielddelim 0 delimWork (fileWithXattr [97, 0, 98]) := by
  decide +kernel

end Agreement

end Gufi.Trace
