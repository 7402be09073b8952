import Gufi.SwapFile
import Gufi.SwapItems

/-!
# Failures of the swap files

What a failed write leaves behind the last record is read when the file is drained, and a
`swap_read_prep` that fails late has moved the records already. Only when neither happens are the
records read back those that were written.
-/

namespace Gufi.SwapFile

open ObjectLayout RecordFile

variable {α : Type}

section Statement

variable (callbacks : Callbacks α)

inductive Op
  | write (r : Record callbacks) (fault : WriteFault r.bytes.length)
  | prep (fault : PrepFault)
  | drain

/-- The swap files with the records that were written, those of them that were written when
`swap_read_prep` last succeeded, and those that were read back. -/
structure Log (α : Type) where
  swap : Swap
  written : List (SwapItem α)
  prepared : List (SwapItem α)
  readBack : List (SwapItem α)

def Log.start : Log α := ⟨.start, [], [], []⟩

variable {callbacks}

def Log.step (st : Log α) : Op callbacks → Log α
  | .write r fault =>
      { st with
        swap := (writeSwap st.swap r fault).1
        written := if (writeSwap st.swap r fault).2 then st.written ++ [r.item] else st.written }
  | .prep fault =>
      { st with
        swap := (swapReadPrep st.swap fault).1
        prepared := if (swapReadPrep st.swap fault).2 then st.written else st.prepared }
  | .drain =>
      { st with
        swap := (drain st.swap callbacks).1
        readBack := st.readBack ++ (drain st.swap callbacks).2.getD [] }

/-- A `swap_read_prep` that fails changes nothing, one that succeeds gives up no record, and a drain
reads what is there for it and nothing else. -/
def Log.Right (st : Log α) : Op callbacks → Prop
  | .write .. => True
  | .prep fault =>
      if (swapReadPrep st.swap fault).2 then st.readBack = st.prepared
      else (swapReadPrep st.swap fault).1 = st.swap
  | .drain => ∃ got, (drain st.swap callbacks).2 = some got ∧ st.readBack ++ got = st.prepared

def LeavesNoTrace (st : Log α) : List (Op callbacks) → Prop
  | [] => True
  | op :: ops => st.Right op ∧ LeavesNoTrace (st.step op) ops

/-- `swap_read_prep` is called when the last file has been drained and does not fail on a file with
records, and behind the records of a file that is drained there is nothing to read. -/
def Log.Spared (st : Log α) : Op callbacks → Prop
  | .write .. => True
  | .prep fault => st.swap.read = none ∧
      (st.swap.writeCount = 0 ∨ fault.seek = false ∧ fault.opening = false)
  | .drain => ∀ fd, st.swap.read = some fd →
      readSwap callbacks (fd.bytes.drop (fd.offset + st.swap.readSize)) = .short

def SparedAll (st : Log α) : List (Op callbacks) → Prop
  | [] => True
  | op :: ops => st.Spared op ∧ SparedAll (st.step op) ops

end Statement

section Invariant

variable {callbacks : Callbacks α} {st : Log α} {recs taken : List (Written (reader callbacks))}

/-- The file that is written to has the records since the last `swap_read_prep`. The one that is
read has the others that were not read yet. -/
structure Log.Holds (st : Log α) (recs taken : List (Written (reader callbacks))) : Prop where
  write : ∃ stale, st.swap.write = some ⟨contents recs ++ stale, (contents recs).length⟩
  writeCount : st.swap.writeCount = recs.length
  writeSize : st.swap.writeSize = (contents recs).length
  readCount : st.swap.readCount = taken.length
  readSize : st.swap.readSize = (contents taken).length
  closed : taken = [] → st.swap.read = none
  opened : taken ≠ [] → ∃ stale, st.swap.read = some ⟨contents taken ++ stale, 0⟩
  written : st.written = st.prepared ++ items recs
  prepared : st.prepared = st.readBack ++ items taken

theorem Log.holds_start :
    (Log.start : Log α).Holds ([] : List (Written (reader callbacks))) [] where
  write := ⟨[], rfl⟩
  writeCount := rfl
  writeSize := rfl
  readCount := rfl
  readSize := rfl
  closed _ := rfl
  opened h := absurd rfl h
  written := rfl
  prepared := rfl

theorem items_concat (ws : List (Written (reader callbacks))) (w : Written (reader callbacks)) :
    items (ws ++ [w]) = items ws ++ [w.item] := by
  rw [items, List.map_append]
  rfl

theorem Log.Holds.write_step (h : st.Holds recs taken) (r : Record callbacks)
    (fault : WriteFault r.bytes.length) :
    ∃ recs', (st.step (.write r fault)).Holds recs' taken := by
  obtain ⟨stale, hwrite⟩ := h.write
  cases fault with
  | some k =>
      have hstep : writeSwap st.swap r (some k) = ({ st.swap with
          write := some ⟨contents recs ++ (r.bytes.take k ++ stale.drop (r.bytes.take k).length),
            (contents recs).length⟩ }, false) := by
        rw [writeSwap, hwrite]
        dsimp only
        rw [ByteBuffer.put_append rfl]
      refine ⟨recs, ?_⟩
      rw [Log.step, hstep]
      exact { h with write := ⟨_, rfl⟩ }
  | none =>
      have hstep : writeSwap st.swap r none = ({ st.swap with
          write := some ⟨contents (recs ++ [r.written]) ++ stale.drop r.bytes.length,
            (contents (recs ++ [r.written])).length⟩
          writeCount := st.swap.writeCount + 1
          writeSize := st.swap.writeSize + r.bytes.length
          totalCount := st.swap.totalCount + 1
          totalSize := st.swap.totalSize + r.bytes.length }, true) := by
        rw [writeSwap, hwrite]
        dsimp only
        rw [ByteBuffer.put_append rfl, contents_concat, List.append_assoc, List.length_append]
        rfl
      refine ⟨recs ++ [r.written], ?_⟩
      rw [Log.step, hstep]
      exact { h with
        write := ⟨_, rfl⟩
        writeCount := by rw [List.length_append, ← h.writeCount]; rfl
        writeSize := by rw [contents_concat, List.length_append, ← h.writeSize]; rfl
        written := by
          rw [items_concat, ← List.append_assoc, ← h.written]
          rfl }

theorem Log.Holds.closed_iff (h : st.Holds recs taken) : st.swap.read = none ↔ taken = [] := by
  refine ⟨fun hread => ?_, h.closed⟩
  by_contra hne
  obtain ⟨stale, hopen⟩ := h.opened hne
  rw [hread] at hopen
  cases hopen

theorem Log.Holds.readBack_eq_iff (h : st.Holds recs taken) :
    st.readBack = st.prepared ↔ taken = [] := by
  rw [h.prepared, List.self_eq_append_right, items, List.map_eq_nil_iff]

theorem Swap.close_eq {swap : Swap} (hread : swap.read = none) (hcount : swap.readCount = 0)
    (hsize : swap.readSize = 0) :
    { swap with read := none, readCount := 0, readSize := 0 } = swap := by
  cases swap
  cases hread
  cases hcount
  cases hsize
  rfl

theorem swapReadPrep_of_empty {swap : Swap} (h : swap.writeCount = 0) (fault : PrepFault) :
    swapReadPrep swap fault = ({ swap with read := none, readCount := 0, readSize := 0 }, false) :=
  if_pos h

theorem swapReadPrep_of_fault {swap : Swap} (h : swap.writeCount ≠ 0) {fault : PrepFault}
    (hfault : ¬(fault.seek = false ∧ fault.opening = false)) :
    (swapReadPrep swap fault).2 = false ∧ (swapReadPrep swap fault).1.writeCount = 0 := by
  rw [swapReadPrep, if_neg h]
  dsimp only
  split
  · exact ⟨rfl, rfl⟩
  · rename_i hseek
    refine ⟨?_, rfl⟩
    have hopening : fault.opening = true := by
      by_contra hopening
      exact hfault ⟨Bool.eq_false_of_not_eq_true hseek, Bool.eq_false_of_not_eq_true hopening⟩
    rw [hopening]
    rfl

theorem swapReadPrep_of_success {swap : Swap} (h : swap.writeCount ≠ 0) {fault : PrepFault}
    (hseek : fault.seek = false) (hopening : fault.opening = false) :
    swapReadPrep swap fault = ({ swap with
      read := swap.write.map fun fd => ⟨fd.bytes, 0⟩
      readCount := swap.writeCount
      readSize := swap.writeSize
      write := some ⟨[], 0⟩
      writeCount := 0
      writeSize := 0 }, true) := by
  rw [swapReadPrep, if_neg h, hseek, hopening]
  rfl

theorem Log.Holds.close_eq (h : st.Holds recs taken) (htaken : taken = []) :
    { st.swap with read := none, readCount := 0, readSize := 0 } = st.swap := by
  have hcount := h.readCount
  have hsize := h.readSize
  rw [htaken] at hcount hsize
  exact Swap.close_eq (h.closed htaken) hcount hsize

theorem Log.Holds.right_prep_iff (h : st.Holds recs taken) (fault : PrepFault) :
    st.Right (.prep fault : Op callbacks) ↔ st.Spared (.prep fault : Op callbacks) := by
  change (if (swapReadPrep st.swap fault).2 then _ else _) ↔ (_ ∧ _)
  rw [h.closed_iff, h.readBack_eq_iff]
  by_cases hempty : st.swap.writeCount = 0
  · rw [swapReadPrep_of_empty hempty]
    constructor
    · intro hsame
      refine ⟨h.closed_iff.mp ?_, .inl hempty⟩
      exact (congrArg Swap.read hsame).symm
    · rintro ⟨htaken, -⟩
      exact h.close_eq htaken
  · by_cases hfault : fault.seek = false ∧ fault.opening = false
    · rw [swapReadPrep_of_success hempty hfault.1 hfault.2]
      exact ⟨fun htaken => ⟨htaken, .inr hfault⟩, fun h => h.1⟩
    · obtain ⟨hfailed, hmoved⟩ := swapReadPrep_of_fault hempty hfault
      rw [hfailed]
      constructor
      · intro hsame
        have hcount := congrArg Swap.writeCount (hsame : (swapReadPrep st.swap fault).1 = st.swap)
        exact absurd (hcount.symm.trans hmoved) hempty
      · rintro ⟨-, hcount | hnone⟩
        · exact absurd hcount hempty
        · exact absurd hnone hfault

theorem Log.Holds.right_drain_iff (h : st.Holds recs taken) :
    st.Right (.drain : Op callbacks) ↔ st.Spared (.drain : Op callbacks) := by
  simp only [Log.Right, Log.Spared, drain]
  by_cases htaken : taken = []
  · rw [h.closed htaken]
    constructor
    · rintro - fd ⟨⟩
    · intro _
      exact ⟨[], rfl, (List.append_nil _).trans (h.readBack_eq_iff.mpr htaken)⟩
  · obtain ⟨stale, hopen⟩ := h.opened htaken
    have hexact := readAll_append_iff taken stale
    rw [hopen]
    simp only [List.drop_zero]
    constructor
    · rintro ⟨got, hgot, hback⟩ fd hfd
      rw [h.prepared, List.append_cancel_left_eq] at hback
      rw [hback] at hgot
      rw [← Option.some_inj.mp hfd, h.readSize, Nat.zero_add, List.drop_left' rfl]
      exact hexact.mp hgot
    · intro hshort
      have hstale := hshort _ rfl
      rw [h.readSize, Nat.zero_add, List.drop_left' rfl] at hstale
      exact ⟨_, hexact.mpr hstale, h.prepared.symm⟩

/-- What goes wrong in a call is what was not spared. -/
theorem Log.Holds.right_iff (h : st.Holds recs taken) (op : Op callbacks) :
    st.Right op ↔ st.Spared op := by
  cases op with
  | write r fault => exact Iff.rfl
  | prep fault => exact h.right_prep_iff fault
  | drain => exact h.right_drain_iff

theorem Log.Holds.prep_step (h : st.Holds recs taken) {fault : PrepFault}
    (hspared : st.Spared (.prep fault : Op callbacks)) :
    ∃ recs' taken' : List (Written (reader callbacks)),
      (st.step (.prep fault : Op callbacks)).Holds recs' taken' := by
  have htaken := h.closed_iff.mp hspared.1
  rw [Log.step]
  by_cases hempty : st.swap.writeCount = 0
  · rw [swapReadPrep_of_empty hempty]
    refine ⟨recs, taken, ?_⟩
    dsimp only
    rw [h.close_eq htaken]
    exact h
  · obtain ⟨hseek, hopening⟩ := hspared.2.resolve_left hempty
    obtain ⟨stale, hwrite⟩ := h.write
    rw [swapReadPrep_of_success hempty hseek hopening]
    have hrecs : recs ≠ [] := by
      rintro rfl
      exact hempty h.writeCount
    refine ⟨[], recs, ?_⟩
    exact {
      write := ⟨[], rfl⟩
      writeCount := rfl
      writeSize := rfl
      readCount := h.writeCount
      readSize := h.writeSize
      closed := fun hnil => absurd hnil hrecs
      opened := fun _ => ⟨stale, by dsimp only; rw [hwrite, Option.map_some]⟩
      written := (List.append_nil _).symm
      prepared := by
        rw [h.readBack_eq_iff.mpr htaken]
        exact h.written }

theorem Log.Holds.drain_step (h : st.Holds recs taken)
    (hspared : st.Spared (.drain : Op callbacks)) :
    (st.step (.drain : Op callbacks)).Holds recs ([] : List (Written (reader callbacks))) := by
  obtain ⟨got, hgot, hback⟩ := h.right_drain_iff.mpr hspared
  exact { h with
    readCount := rfl
    readSize := rfl
    closed := fun _ => rfl
    opened := fun hne => absurd rfl hne
    prepared := by
      rw [Log.step, hgot]
      exact hback.symm.trans (List.append_nil _).symm }

theorem Log.Holds.step (h : st.Holds recs taken) {op : Op callbacks} (hspared : st.Spared op) :
    ∃ recs' taken' : List (Written (reader callbacks)), (st.step op).Holds recs' taken' := by
  cases op with
  | write r fault =>
      obtain ⟨recs', h'⟩ := h.write_step r fault
      exact ⟨recs', taken, h'⟩
  | prep fault => exact h.prep_step hspared
  | drain => exact ⟨recs, [], h.drain_step hspared⟩

theorem Log.Holds.leavesNoTrace_run_iff (h : st.Holds recs taken) (ops : List (Op callbacks)) :
    LeavesNoTrace st ops ↔ SparedAll st ops := by
  induction ops generalizing st recs taken with
  | nil => exact Iff.rfl
  | cons op ops ih =>
      rw [LeavesNoTrace, SparedAll, h.right_iff op]
      refine and_congr_right fun hspared => ?_
      obtain ⟨recs', taken', h'⟩ := h.step hspared
      exact ih h'

end Invariant

section Callbacks

open Gufi.Swap

/-- `QPTPool_generic_alloc_and_deserialize` -/
def genericCallback (heap : Malloc) (file : Bytes) : Option ((UInt64 × Bytes) × ℕ) :=
  (genericDeserialize heap file).map fun (func, m, rest) =>
    ((func, m.bytes), file.length - rest.length)

/-- `row_alloc_and_deserialize` -/
def rowCallback (heap : Malloc) (file : Bytes) : Option ((UInt64 × Row × Bytes) × ℕ) :=
  (rowDeserialize heap file).map fun (func, row, m, rest) =>
    ((func, row, m.bytes), file.length - rest.length)

def genericLen (header : UInt64 × UInt64) : ℕ := header.2.toNat

def rowLen (header : UInt64 × Row) : ℕ := header.2.len.toNat

theorem genericLen_eq {func : UInt64} {data : Bytes} (h : data.length < 2 ^ 64) :
    genericLen (func, UInt64.ofNat data.length) = data.length :=
  UInt64.toNat_ofNat_of_lt' h

theorem genericCallback_eq (heap : Malloc) (file : Bytes) : genericCallback heap file =
    ((Layout.uint64.pair Layout.uint64).readFramed genericLen file).map
      fun ((header, data), n) => ((header.1, data), n) := by
  rw [genericCallback, genericDeserialize, Layout.readFramed, Layout.read_pair]
  cases hfunc : Layout.uint64.read file with
  | none => rfl
  | some first =>
      cases hlen : Layout.uint64.read first.2 with
      | none => simp [hlen]
      | some second =>
          have hlength := Layout.length_of_read _ hfunc
          have hlength' := Layout.length_of_read _ hlen
          have hsize : (Layout.uint64.pair Layout.uint64).size =
            Layout.uint64.size + Layout.uint64.size := rfl
          by_cases hle : second.1.toNat ≤ second.2.length
          · have hcount : file.length - (second.2.length - second.1.toNat) =
                (Layout.uint64.pair Layout.uint64).size + second.1.toNat := by omega
            simp [hlen, genericLen, hle, hcount, Malloc.filled]
          · simp [hlen, genericLen, hle]

theorem rowCallback_eq (heap : Malloc) (file : Bytes) : rowCallback heap file =
    ((Layout.uint64.pair Row.layout).readFramed rowLen file).map
      fun ((header, line), n) => ((header.1,
        { header.2 with line := (heap.block header.2.len.toNat).addr }, line), n) := by
  rw [rowCallback, rowDeserialize, Layout.readFramed, Layout.read_pair]
  cases hfunc : Layout.uint64.read file with
  | none => rfl
  | some first =>
      cases hrow : Row.layout.read first.2 with
      | none => simp [hrow]
      | some second =>
          have hlength := Layout.length_of_read _ hfunc
          have hlength' := Layout.length_of_read _ hrow
          have hsize : (Layout.uint64.pair Row.layout).size =
            Layout.uint64.size + Row.layout.size := rfl
          by_cases hle : second.1.len.toNat ≤ second.2.length
          · have hcount : file.length - (second.2.length - second.1.len.toNat) =
                (Layout.uint64.pair Row.layout).size + second.1.len.toNat := by omega
            simp [hrow, rowLen, hle, hcount, Malloc.filled]
          · simp [hrow, rowLen, hle]

/-- What the callbacks of the pool make a record of. -/
def genericRecord (callbacks : Callbacks (UInt64 × Bytes)) (heap : Malloc)
    (serialize deserialize : UInt64) (h : callbacks deserialize = some (genericCallback heap))
    (func : UInt64) (data : Bytes) (hdata : data.length < 2 ^ 64) : Record callbacks where
  serialize := serialize
  deserialize := deserialize
  user := (Layout.uint64.pair Layout.uint64).encode (func, UInt64.ofNat data.length) ++ data
  work := (func, data)
  callback := genericCallback heap
  callback_eq := h
  reads rest := by
    rw [genericCallback_eq, Layout.readFramed_encode _ (genericLen_eq hdata)]
    rfl
  short part rest hfull hrest := by
    rw [genericCallback_eq,
      Layout.readFramed_of_short _ (genericLen_eq hdata) hfull hrest]
    rfl

/-- What the callbacks for rows make a record of. -/
def rowRecord (callbacks : Callbacks (UInt64 × Row × Bytes)) (heap : Malloc)
    (serialize deserialize : UInt64) (h : callbacks deserialize = some (rowCallback heap))
    (func : UInt64) (row : Row) (line : Bytes) (hline : rowLen (func, row) = line.length) :
    Record callbacks where
  serialize := serialize
  deserialize := deserialize
  user := (Layout.uint64.pair Row.layout).encode (func, row) ++ line
  work := (func, { row with line := (heap.block row.len.toNat).addr }, line)
  callback := rowCallback heap
  callback_eq := h
  reads rest := by
    rw [rowCallback_eq, Layout.readFramed_encode _ hline]
    rfl
  short part rest hfull hrest := by
    rw [rowCallback_eq, Layout.readFramed_of_short _ hline hfull hrest]
    rfl

end Callbacks

section Main

/-- The calls leave no trace of failures just if none of them has to be spared. -/
theorem leavesNoTrace_iff (callbacks : Callbacks α) (ops : List (Op callbacks)) :
    LeavesNoTrace Log.start ops ↔ SparedAll Log.start ops := by
  rw [Log.holds_start.leavesNoTrace_run_iff]

/-- The only callback of this program is at 1. -/
def oneCallback : Callbacks (UInt64 × Bytes) := fun p =>
  if p = 1 then some (genericCallback Gufi.Swap.lastBlocks) else none

/-- An item with some bytes of `x`. -/
def xRecord (n : ℕ) (h : (List.replicate n (120 : UInt8)).length < 2 ^ 64) : Record oneCallback :=
  genericRecord oneCallback Gufi.Swap.lastBlocks 2 1 rfl 3 (List.replicate n 120) h

/-- The write of a longer item fails at its last byte, then that of a shorter one succeeds. -/
def longThenShort : List (Op oneCallback) :=
  [.write (xRecord 24 (by decide)) (some ⟨55, by decide⟩), .write (xRecord 0 (by decide)) none,
    .prep ⟨false, false⟩, .drain]

/-- The drain takes bytes of the item that was not written for the pointer of a function. -/
theorem not_leavesNoTrace : ¬LeavesNoTrace Log.start longThenShort := by
  rw [Log.holds_start.leavesNoTrace_run_iff]
  rintro ⟨-, -, -, hdrain, -⟩
  exact absurd (hdrain _ rfl) (by decide +kernel)

end Main

end Gufi.SwapFile
