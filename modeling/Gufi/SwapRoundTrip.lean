import Gufi.SwapItems

/-!
# What comes back from a swap file

`work_serialize_and_free` writes a structure that is not compressed without its name.
`gqw_serialize_and_free` looks at the wrong header, which is in the stream when the item is
compressed. `row_serialize_and_free` frees the lines of the entries.
-/

namespace Gufi.Swap

open ObjectLayout

section Statement

/-- An item of `new_work_with_name`. -/
structure WorkItem where
  work : Work
  name : Bytes
  nameLen : work.nameLen.toNat = name.length
  plain : work.compressed.yes = 0
  small : Work.layout.size + (name.length + 1) < 2 ^ 64

def WorkItem.bytes (i : WorkItem) : Bytes := Work.layout.encode i.work ++ (i.name ++ [0])

/-- The block has the item, with its name where the pointer says. -/
def WorkItem.IsIn (i : WorkItem) (m : Mem) : Prop :=
  ∃ w, m.load Work.layout = some w ∧
    { w with compressed := i.work.compressed, name := i.work.name } = i.work ∧
    m.read w.name w.nameLen.toNat = some i.name

/-- An item of `new_gqw_with_name`. -/
structure GqwItem where
  gqw : Gqw
  name : Bytes
  nameLen : gqw.work.nameLen.toNat = name.length
  sqlite3NameLen : gqw.sqlite3NameLen.toNat = (sqliteUriPath name).length
  sqlite3Name : gqw.sqlite3Name ≠ 0
  plain : gqw.comp.yes = 0
  workPlain : gqw.work.compressed.yes = 0
  small : Gqw.layout.size + (name.length + (1 + ((sqliteUriPath name).length + 1))) < 2 ^ 64

def GqwItem.bytes (i : GqwItem) : Bytes :=
  Gqw.layout.encode i.gqw ++ (i.name ++ 0 :: (sqliteUriPath i.name ++ [0]))

def GqwItem.IsIn (i : GqwItem) (m : Mem) : Prop :=
  ∃ g, m.load Gqw.layout = some g ∧
    { g with
      comp := i.gqw.comp
      work := { g.work with name := i.gqw.work.name }
      sqlite3Name := i.gqw.sqlite3Name } = i.gqw ∧
    m.read g.work.name g.work.nameLen.toNat = some i.name ∧
    m.read g.sqlite3Name g.sqlite3NameLen.toNat = some (sqliteUriPath i.name)

/-- A row with its line and the lines of its entries. -/
structure RowItem where
  row : Row
  line : Bytes
  entryLines : List Bytes
  nodes : Nodes
  len : row.len.toNat = line.length
  chain : Chain nodes row.entryLines.head entryLines
  size : row.entryLines.size.toNat = entryLines.length

/-- From the file into a new block, which is then decompressed. -/
def throughSwap (heap : Malloc) (written : Option Bytes) (decompress : Mem → Option Mem) :
    Option (UInt64 × Mem) :=
  written.bind fun file =>
    (genericDeserialize heap file).bind fun (func, m, _) => (decompress m).map (func, ·)

variable (zlib : Zlib) (func : UInt64)

/-- Whatever is in the new blocks and behind them. -/
def WorkItem.Survives (i : WorkItem) (queued : Mem) : Prop :=
  ∀ heap heap', ∃ m, throughSwap heap (workSerialize func queued) (decompressWork zlib heap') =
    some (func, m) ∧ i.IsIn m

def GqwItem.Survives (i : GqwItem) (queued : Mem) : Prop :=
  ∀ heap heap', ∃ m, throughSwap heap (gqwSerialize func queued) (decompressGqw zlib heap') =
    some (func, m) ∧ i.IsIn m

def RowItem.Survives (i : RowItem) : Prop :=
  ∀ heap, ∃ row line, rowDeserialize heap (rowSerialize func i.row i.line) =
      some (func, row, line, []) ∧
    { row with line := i.row.line } = i.row ∧ line.read row.line row.len.toNat = some i.line ∧
    Chain (rowFree i.row i.nodes) row.entryLines.head i.entryLines

/-- The stream that `compress_struct` keeps. -/
def shrunk (comp : Bool) (bytes : Bytes) : Option Bytes :=
  if comp then
    (zlib.compress (bytes.drop COMP_OFFSET) (bytes.length - COMP_OFFSET)).filter fun out =>
      out.length + COMP_OFFSET < bytes.length
  else none

/-- What `gqw_serialize_and_free` takes for the length of a compressed item. -/
def lenInStream (queued : Mem) : ℕ :=
  gqwLen (Compressed.layout.decode (queued.bytes.drop COMP_OFFSET))

end Statement

section Memory

variable {α : Type} {x : Layout α} {m : Mem}

theorem Mem.tail_addr (m : Mem) : m.tail m.addr = m.bytes ++ m.behind := by
  rw [Mem.tail, UInt64.sub_self, UInt64.toNat_zero, List.drop_zero]

theorem Mem.tail_add (m : Mem) {k : ℕ} (hk : k < 2 ^ 64) :
    m.tail (m.addr + UInt64.ofNat k) = (m.bytes ++ m.behind).drop k := by
  rw [Mem.tail, UInt64.add_comm, UInt64.add_sub_cancel, UInt64.toNat_ofNat_of_lt' hk]

theorem Mem.read_addr (m : Mem) (n : ℕ) : m.read m.addr n =
    if n ≤ (m.bytes ++ m.behind).length then some ((m.bytes ++ m.behind).take n) else none := by
  rw [Mem.read, Mem.tail_addr, List.length_take]
  congr 1
  exact propext inf_eq_left

theorem Mem.read_eq_some_iff {p : UInt64} {n : ℕ} {bytes : Bytes} (hlen : bytes.length = n) :
    m.read p n = some bytes ↔ (m.tail p).take n = bytes := by
  rw [Mem.read]
  constructor
  · intro h
    split at h
    · exact Option.some_inj.mp h
    · cases h
  · rintro rfl
    rw [if_pos hlen]

theorem Mem.load_eq (h : x.size ≤ m.bytes.length) : m.load x = some (x.decode m.bytes) := by
  rw [Mem.load, Layout.read, if_pos h, Option.map_some]

theorem Mem.bytes_store (a : α) : (m.store x a).bytes = x.encode a ++ m.bytes.drop x.size := by
  rw [Mem.store, ByteBuffer.put, List.take_zero, List.nil_append, Nat.zero_add, x.length_encode]

theorem Mem.load_store (a : α) : (m.store x a).load x = some a := by
  rw [Mem.load, Mem.bytes_store, Layout.read_encode, Option.map_some]

/-- What is read behind the structure does not change when the structure does. -/
theorem Mem.tail_store (a : α) (h : x.size ≤ m.bytes.length) {k : ℕ} (hk : k < 2 ^ 64)
    (hsize : x.size ≤ k) :
    (m.store x a).tail (m.addr + UInt64.ofNat k) = (m.bytes ++ m.behind).drop k := by
  have hsplit : k = x.size + (k - x.size) := by omega
  change (m.store x a).tail ((m.store x a).addr + UInt64.ofNat k) = _
  rw [Mem.tail_add _ hk, Mem.bytes_store, hsplit, ← List.drop_drop, ← List.drop_drop,
    List.append_assoc, List.drop_left' (x.length_encode a), List.drop_append_of_le_length h]
  rfl

theorem genericDeserialize_append (heap : Malloc) (func : UInt64) {len : ℕ} (hlen : len < 2 ^ 64)
    {data : Bytes} (hdata : data.length = len) :
    genericDeserialize heap (Layout.uint64.encode func ++
      (Layout.uint64.encode (UInt64.ofNat len) ++ data)) =
      some (func, heap.filled len data, []) := by
  rw [genericDeserialize, Layout.read_encode, Option.bind_some]
  show (Layout.uint64.read _).bind _ = _
  rw [Layout.read_encode, Option.bind_some]
  dsimp only
  rw [UInt64.toNat_ofNat_of_lt' hlen, if_pos hdata.ge, ← hdata, List.take_length, List.drop_length]

theorem throughSwap_generic (heap : Malloc) (func : UInt64) (q : Mem) {len : ℕ}
    (hlen : len < 2 ^ 64) (decompress : Mem → Option Mem) :
    throughSwap heap (genericSerialize func q len) decompress =
      if len ≤ (q.bytes ++ q.behind).length then
        (decompress (heap.filled len ((q.bytes ++ q.behind).take len))).map (func, ·)
      else none := by
  rw [throughSwap, genericSerialize, Mem.read_addr]
  split
  · rename_i hle
    rw [Option.map_some, Option.bind_some,
      genericDeserialize_append heap func hlen (List.length_take_of_le hle), Option.bind_some]
  · rfl

end Memory

section Compression

variable {zlib : Zlib} {comp : Bool} {src : Mem} {out payload rest : Bytes} {room : ℕ}

/-- What a header is followed by when `compress_struct` has made it. -/
def streamHeader (structLen streamLen : ℕ) : Compressed :=
  ⟨1, UInt16.ofNat structLen, UInt64.ofNat (streamLen + COMP_OFFSET)⟩

theorem shrunk_eq_some (h : shrunk zlib comp src.bytes = some out) : comp = true ∧
    zlib.compress (src.bytes.drop COMP_OFFSET) (src.bytes.length - COMP_OFFSET) = some out ∧
    out.length + COMP_OFFSET < src.bytes.length := by
  rw [shrunk] at h
  split at h
  · rename_i hcomp
    obtain ⟨hout, hlt⟩ := Option.filter_eq_some_iff.mp h
    exact ⟨hcomp, hout, of_decide_eq_true hlt⟩
  · cases h

theorem take_drop_offset (bytes : Bytes) :
    (bytes.drop COMP_OFFSET).take (bytes.length - COMP_OFFSET) = bytes.drop COMP_OFFSET :=
  List.take_of_length_le (List.length_drop ..).le

theorem compressStruct_of_none (heap heap' : Malloc) (h : shrunk zlib comp src.bytes = none) :
    compressStruct zlib heap heap' comp src src.bytes.length = src := by
  rw [compressStruct, take_drop_offset]
  split
  · rename_i hcomp
    rw [shrunk, if_pos hcomp] at h
    split
    · rfl
    · rename_i out hout
      have hlarge := Option.filter_eq_none_iff.mp h out hout
      exact if_neg fun hlt => hlarge (decide_eq_true hlt)
  · rfl

theorem streamHeader_yes (structLen streamLen : ℕ) : (streamHeader structLen streamLen).yes ≠ 0 :=
  (by decide : (1 : UInt8) ≠ 0)

theorem length_streamHeader (structLen streamLen : ℕ) :
    (Compressed.layout.encode (streamHeader structLen streamLen)).length = COMP_OFFSET :=
  Compressed.layout.length_encode _

theorem compressStruct_of_some (heap heap' : Malloc) (h : shrunk zlib comp src.bytes = some out) :
    ∃ slack : Bytes, slack.length = COMP_OFFSET ∧
      (compressStruct zlib heap heap' comp src src.bytes.length).bytes =
        Compressed.layout.encode (streamHeader src.bytes.length out.length) ++ (out ++ slack) := by
  obtain ⟨hcomp, hout, hlt⟩ := shrunk_eq_some h
  have hheader := length_streamHeader src.bytes.length out.length
  have hdst := heap.length_block src.bytes.length
  have hnew := heap'.length_block (COMP_OFFSET + (out.length + COMP_OFFSET))
  -- the stream stands behind the header in a block of the old length
  have hput : ByteBuffer.put ((heap.block src.bytes.length).store Compressed.layout
      (streamHeader src.bytes.length out.length)).bytes COMP_OFFSET out =
      Compressed.layout.encode (streamHeader src.bytes.length out.length) ++
        (out ++ (heap.block src.bytes.length).bytes.drop (COMP_OFFSET + out.length)) := by
    rw [Mem.bytes_store, ByteBuffer.put_append hheader, List.drop_drop]
    rfl
  have hlen := congrArg List.length hput
  rw [List.length_append, List.length_append, List.length_drop, hheader, hdst] at hlen
  refine ⟨((heap.block src.bytes.length).bytes.drop (COMP_OFFSET + out.length)).take COMP_OFFSET ++
    (heap'.block (COMP_OFFSET + (out.length + COMP_OFFSET))).bytes.drop src.bytes.length, ?_, ?_⟩
  · rw [List.length_append, List.length_take, List.length_drop, List.length_drop, hdst, hnew]
    omega
  · rw [compressStruct, if_pos hcomp, take_drop_offset, hout]
    dsimp only
    rw [if_pos hlt, Malloc.realloc]
    dsimp only
    rw [← streamHeader, hlen, hput, ← hheader, List.take_length_add_append,
      List.take_length_add_append, hheader]
    have hold : COMP_OFFSET + (out.length + (src.bytes.length - (COMP_OFFSET + out.length))) =
        src.bytes.length := by omega
    rw [hold]
    simp only [List.append_assoc]

/-- The stream is read from behind the header on. -/
theorem tail_stream {structLen streamLen : ℕ}
    (hsrc : src.bytes = Compressed.layout.encode (streamHeader structLen streamLen) ++ rest) :
    src.tail (src.addr + UInt64.ofNat COMP_OFFSET) = rest ++ src.behind := by
  rw [Mem.tail_add _ (by decide), hsrc, List.append_assoc,
    List.drop_left' (length_streamHeader ..)]

theorem load_stream {structLen streamLen : ℕ}
    (hsrc : src.bytes = Compressed.layout.encode (streamHeader structLen streamLen) ++ rest) :
    src.load Compressed.layout = some (streamHeader structLen streamLen) := by
  rw [Mem.load, hsrc, Layout.read_encode, Option.map_some]

theorem decompressStruct_of_load (heap : Malloc) {c : Compressed}
    (hload : src.load Compressed.layout = some c) (hyes : c.yes ≠ 0) :
    decompressStruct zlib heap src =
      (zlib.uncompress ((src.tail (src.addr + UInt64.ofNat COMP_OFFSET)).take c.len.toNat)
        (c.origLen.toUInt64 - UInt64.ofNat COMP_OFFSET).toNat).bind fun out =>
        if COMP_OFFSET + out.length ≤ c.origLen.toNat then
          some { heap.block c.origLen.toNat with
            bytes := ByteBuffer.put (ByteBuffer.put (heap.block c.origLen.toNat).bytes 8
              (Layout.uint64.encode (UInt64.ofNat out.length))) COMP_OFFSET out }
        else none := by
  rw [decompressStruct, hload]
  dsimp only
  rw [if_pos hyes]
  cases zlib.uncompress _ _ <;> rfl

theorem decompressStruct_of_plain (heap : Malloc) {c : Compressed}
    (hload : src.load Compressed.layout = some c) (hyes : c.yes = 0) :
    decompressStruct zlib heap src = some src := by
  rw [decompressStruct, hload]
  dsimp only
  rw [if_neg (not_not.mpr hyes)]

/-- The end of the stream is missing. -/
theorem decompressStruct_incomplete (hz : zlib.Documented) (heap : Malloc) (src : Mem)
    (hout : zlib.compress payload room = some out) (hsmall : out.length + COMP_OFFSET < 2 ^ 64)
    {structLen : ℕ} {part : Bytes} (hsrc : src.bytes = Compressed.layout.encode
      (streamHeader structLen out.length) ++ part) (hbehind : src.behind = [])
    (hpart : out = part ++ rest) (hrest : rest ≠ []) : decompressStruct zlib heap src = none := by
  have hbytes : (src.tail (src.addr + UInt64.ofNat COMP_OFFSET)).take
      (streamHeader structLen out.length).len.toNat = part := by
    rw [tail_stream hsrc, hbehind, List.append_nil, streamHeader,
      UInt64.toNat_ofNat_of_lt' hsmall, List.take_of_length_le]
    rw [hpart, List.length_append]
    omega
  rw [decompressStruct_of_load heap (load_stream hsrc) (streamHeader_yes _ _), hbytes,
    hz.incomplete hout part rest hpart hrest, Option.bind_none]

theorem decompressStruct_stream (hz : zlib.Documented) (heap : Malloc) (src : Mem)
    (hout : zlib.compress payload room = some out) (hsmall : out.length + COMP_OFFSET < 2 ^ 64)
    (hsrc : src.bytes = Compressed.layout.encode
      (streamHeader (COMP_OFFSET + payload.length) out.length) ++ (out ++ rest)) :
    (COMP_OFFSET + payload.length < 2 ^ 16 → ∃ m, decompressStruct zlib heap src = some m ∧
      m.bytes.length = COMP_OFFSET + payload.length ∧ m.bytes.drop COMP_OFFSET = payload) ∧
    (2 ^ 16 ≤ COMP_OFFSET + payload.length → decompressStruct zlib heap src = none) := by
  have hstream : ((out ++ rest) ++ src.behind).take (out.length + COMP_OFFSET) =
      out ++ (rest ++ src.behind).take COMP_OFFSET := by
    rw [List.append_assoc, List.take_length_add_append]
  have hbytes : (src.tail (src.addr + UInt64.ofNat COMP_OFFSET)).take
      (streamHeader (COMP_OFFSET + payload.length) out.length).len.toNat =
      out ++ (rest ++ src.behind).take COMP_OFFSET := by
    rw [tail_stream hsrc, streamHeader, UInt64.toNat_ofNat_of_lt' hsmall, hstream]
  rw [decompressStruct_of_load heap (load_stream hsrc) (streamHeader_yes _ _), hbytes,
    hz.inverse hout]
  constructor
  · intro hlen
    have horig : (streamHeader (COMP_OFFSET + payload.length) out.length).origLen.toNat =
        COMP_OFFSET + payload.length := UInt16.toNat_ofNat_of_lt' hlen
    have hroom : ((streamHeader (COMP_OFFSET + payload.length) out.length).origLen.toUInt64 -
        UInt64.ofNat COMP_OFFSET).toNat = payload.length := by
      rw [UInt64.toNat_sub_of_le, UInt16.toNat_toUInt64, horig]
      · exact Nat.add_sub_cancel_left ..
      · rw [UInt64.le_iff_toNat_le, UInt16.toNat_toUInt64, horig]
        exact Nat.le_add_right ..
    have hblock := heap.length_block (COMP_OFFSET + payload.length)
    have hput : (ByteBuffer.put (heap.block (COMP_OFFSET + payload.length)).bytes 8
        (Layout.uint64.encode (UInt64.ofNat payload.length))).length =
        COMP_OFFSET + payload.length := by
      rw [ByteBuffer.length_put, hblock]
      rw [hblock, Layout.length_encode]
      exact Nat.le_add_right 16 _
    rw [hroom, if_pos le_rfl, Option.bind_some, horig, if_pos le_rfl]
    refine ⟨_, rfl, ?_, ?_⟩
    · dsimp only
      rw [ByteBuffer.length_put hput.ge, hput]
    · dsimp only
      rw [ByteBuffer.put, List.drop_left', List.drop_of_length_le, List.append_nil]
      · exact hput.le
      · rw [List.length_take, hput]
        exact Nat.min_eq_left (Nat.le_add_right ..)
  · intro hlen
    have horig : (streamHeader (COMP_OFFSET + payload.length) out.length).origLen.toNat <
        COMP_OFFSET + payload.length := (UInt16.toNat_lt _).trans_le hlen
    split
    · rw [Option.bind_some, if_neg (Nat.not_le_of_gt horig)]
    · rfl

/-- The header, the stream and some more bytes come from the file. -/
theorem take_stream {header : Bytes} (hheader : header.length = COMP_OFFSET) {len : ℕ}
    (hlen : out.length + COMP_OFFSET ≤ len) :
    (header ++ (out ++ rest)).take len =
      header ++ (out ++ rest.take (len - (out.length + COMP_OFFSET))) := by
  have hsplit : len = header.length + (out.length + (len - (out.length + COMP_OFFSET))) := by
    omega
  rw [hsplit, List.take_length_add_append, List.take_length_add_append, ← hsplit]

end Compression

section Works

variable {zlib : Zlib} {i : WorkItem} {m q : Mem} {out slack : Bytes}

theorem WorkItem.length_bytes (i : WorkItem) :
    i.bytes.length = Work.layout.size + (i.name.length + 1) := by
  rw [WorkItem.bytes, List.length_append, Work.layout.length_encode, List.length_append,
    List.length_singleton]

theorem WorkItem.offset_le (i : WorkItem) : COMP_OFFSET ≤ i.bytes.length := by
  rw [i.length_bytes]
  exact (by decide : COMP_OFFSET ≤ Work.layout.size).trans (Nat.le_add_right ..)

/-- All members but the first are behind the offset. -/
theorem Work.decode_congr {a b : Bytes} (h : a.drop COMP_OFFSET = b.drop COMP_OFFSET)
    (c : Compressed) : { Work.layout.decode a with compressed := c } =
      { Work.layout.decode b with compressed := c } := by
  have hmembers : a.drop Compressed.layout.size = b.drop Compressed.layout.size := h
  simp only [Work.layout, Layout.record, Layout.pair]
  rw [hmembers]

theorem decompressWork_of_struct (heap : Malloc) (hm : decompressStruct zlib heap q = some m)
    (hsize : Work.layout.size ≤ m.bytes.length) :
    decompressWork zlib heap q =
      some (m.store Work.layout ((Work.layout.decode m.bytes).setName m.addr)) := by
  rw [decompressWork, hm, Option.bind_some, Mem.load_eq hsize, Option.map_some]

/-- The pointer is set to behind the structure. -/
theorem WorkItem.isIn_store_iff (hsize : Work.layout.size ≤ m.bytes.length)
    (hwork : { Work.layout.decode m.bytes with compressed := i.work.compressed } = i.work) :
    i.IsIn (m.store Work.layout ((Work.layout.decode m.bytes).setName m.addr)) ↔
      ((m.bytes ++ m.behind).drop Work.layout.size).take i.name.length = i.name := by
  have hlen : (Work.layout.decode m.bytes).nameLen.toNat = i.name.length := by
    rw [← i.nameLen, ← hwork]
  rw [← Mem.tail_store ((Work.layout.decode m.bytes).setName m.addr) hsize (by decide) le_rfl,
    ← Mem.read_eq_some_iff rfl, ← hlen]
  constructor
  · rintro ⟨w, hw, -, hread⟩
    rw [Mem.load_store, Option.some_inj] at hw
    rwa [← hw] at hread
  · intro hread
    exact ⟨_, Mem.load_store _, congrArg (fun w : Work => { w with name := i.work.name }) hwork,
      hread⟩

/-- The whole item has come back. -/
theorem WorkItem.isIn_of_whole (hlen : m.bytes.length = i.bytes.length)
    (hdrop : m.bytes.drop COMP_OFFSET = i.bytes.drop COMP_OFFSET) (heap : Malloc)
    (hm : decompressStruct zlib heap q = some m) :
    ∃ m', decompressWork zlib heap q = some m' ∧ i.IsIn m' := by
  have hsize : Work.layout.size ≤ m.bytes.length := by
    rw [hlen, i.length_bytes]
    exact Nat.le_add_right ..
  have hwork : { Work.layout.decode m.bytes with compressed := i.work.compressed } = i.work := by
    rw [Work.decode_congr hdrop, WorkItem.bytes, Work.layout.decode_encode]
  have hname : m.bytes.drop Work.layout.size = i.name ++ [0] := by
    have hsplit : Work.layout.size = COMP_OFFSET + (Work.layout.size - COMP_OFFSET) := rfl
    rw [hsplit, ← List.drop_drop, hdrop, List.drop_drop, ← hsplit, WorkItem.bytes,
      List.drop_left' (Work.layout.length_encode _)]
  refine ⟨_, decompressWork_of_struct heap hm hsize, (WorkItem.isIn_store_iff hsize hwork).mpr ?_⟩
  rw [List.drop_append_of_le_length hsize, hname, List.append_assoc, List.take_left' rfl]

/-- Only the structure has come back. The name is what happens to be behind it. -/
theorem WorkItem.isIn_of_struct (hbytes : m.bytes = Work.layout.encode i.work) (heap : Malloc)
    (hm : decompressStruct zlib heap q = some m) :
    (∃ m', decompressWork zlib heap q = some m' ∧ i.IsIn m') ↔
      m.behind.take i.name.length = i.name := by
  have hsize : Work.layout.size ≤ m.bytes.length := by
    rw [hbytes, Work.layout.length_encode]
  have hdecode : Work.layout.decode m.bytes = i.work := by
    rw [hbytes, ← List.append_nil (Work.layout.encode i.work), Work.layout.decode_encode]
  have hdrop : (m.bytes ++ m.behind).drop Work.layout.size = m.behind := by
    rw [hbytes, List.drop_left' (Work.layout.length_encode _)]
  rw [decompressWork_of_struct heap hm hsize, ← hdrop,
    ← WorkItem.isIn_store_iff hsize (by rw [hdecode])]
  exact ⟨fun ⟨_, h, hin⟩ => Option.some_inj.mp h ▸ hin, fun h => ⟨_, rfl, h⟩⟩

theorem Work.load_compressed (w : Work) {m : Mem} {rest : Bytes}
    (h : m.bytes = Work.layout.encode w ++ rest) :
    m.load Compressed.layout = some w.compressed := by
  have hsplit : ∃ behind, Work.layout.encode w = Compressed.layout.encode w.compressed ++ behind :=
    ⟨_, rfl⟩
  obtain ⟨behind, hbehind⟩ := hsplit
  rw [Mem.load, h, hbehind, List.append_assoc, Layout.read_encode, Option.map_some]

theorem WorkItem.survives_plain_iff (func : UInt64) (hq : q.bytes = i.bytes) :
    i.Survives zlib func q ↔ i.name = [] := by
  have hload := Work.load_compressed i.work hq
  have hle : Work.layout.size ≤ (q.bytes ++ q.behind).length := by
    rw [List.length_append, hq, i.length_bytes, Nat.add_assoc]
    exact Nat.le_add_right ..
  have hserialize : workSerialize func q = genericSerialize func q Work.layout.size := by
    rw [workSerialize, hload, Option.bind_some, workLen, if_neg (not_not.mpr i.plain)]
  have htake : (q.bytes ++ q.behind).take Work.layout.size = Work.layout.encode i.work := by
    rw [hq, WorkItem.bytes, List.append_assoc, List.take_left' (Work.layout.length_encode _)]
  have htrip : ∀ heap heap', (∃ m, throughSwap heap (workSerialize func q)
      (decompressWork zlib heap') = some (func, m) ∧ i.IsIn m) ↔
        (heap.block Work.layout.size).behind.take i.name.length = i.name := by
    intro heap heap'
    rw [hserialize, throughSwap_generic heap func q (by decide), if_pos hle, htake,
      ← show (heap.filled Work.layout.size (Work.layout.encode i.work)).behind =
        (heap.block Work.layout.size).behind from rfl,
      ← @WorkItem.isIn_of_struct zlib i (heap.filled Work.layout.size (Work.layout.encode i.work))
        (heap.filled Work.layout.size (Work.layout.encode i.work)) rfl heap'
        (decompressStruct_of_plain heap' (Work.load_compressed i.work (List.append_nil _).symm)
          i.plain)]
    simp
  constructor
  · intro h
    have hname := (htrip lastBlocks lastBlocks).mp (h _ _)
    rwa [lastBlocks, List.take_nil, eq_comm] at hname
  · intro hname heap heap'
    rw [htrip, hname]
    rfl

theorem WorkItem.survives_stream_iff (hz : zlib.Documented) (func : UInt64) {comp : Bool}
    {src : Mem} (hsrc : src.bytes = i.bytes) (hout : shrunk zlib comp src.bytes = some out)
    (hq : q.bytes = Compressed.layout.encode (streamHeader src.bytes.length out.length) ++
      (out ++ slack)) :
    i.Survives zlib func q ↔ i.bytes.length < 2 ^ 16 := by
  obtain ⟨-, hcompress, hlt⟩ := shrunk_eq_some hout
  rw [hsrc] at hcompress hlt
  have hpayload : COMP_OFFSET + (i.bytes.drop COMP_OFFSET).length = i.bytes.length := by
    rw [List.length_drop]
    exact Nat.add_sub_cancel' i.offset_le
  have hsmall : out.length + COMP_OFFSET < 2 ^ 64 := by
    have := i.small
    rw [i.length_bytes] at hlt
    omega
  have hlen : workLen (streamHeader src.bytes.length out.length) = out.length + COMP_OFFSET := by
    rw [workLen, if_pos (streamHeader_yes _ _), streamHeader,
      UInt64.toNat_ofNat_of_lt' hsmall]
  have hle : out.length + COMP_OFFSET ≤ (q.bytes ++ q.behind).length := by
    rw [hq]
    simp only [List.length_append, length_streamHeader]
    omega
  have hserialize : workSerialize func q =
      genericSerialize func q (out.length + COMP_OFFSET) := by
    rw [workSerialize, load_stream hq, Option.bind_some, hlen]
  obtain ⟨data, hdata⟩ : ∃ data, data = Compressed.layout.encode
      (streamHeader (COMP_OFFSET + (i.bytes.drop COMP_OFFSET).length) out.length) ++ (out ++ []) :=
    ⟨_, rfl⟩
  have hstream : (q.bytes ++ q.behind).take (out.length + COMP_OFFSET) = data := by
    rw [hdata, hq, List.append_assoc, List.append_assoc,
      take_stream (length_streamHeader ..) le_rfl, Nat.sub_self, List.take_zero, hpayload, hsrc]
  constructor
  · intro h
    by_contra hlarge
    obtain ⟨m, hm, -⟩ := h lastBlocks lastBlocks
    have hnone := (decompressStruct_stream hz lastBlocks (lastBlocks.filled
      (out.length + COMP_OFFSET) data) hcompress hsmall hdata).2
        (by rw [hpayload]; exact Nat.le_of_not_lt hlarge)
    rw [hserialize, throughSwap_generic _ _ _ hsmall, if_pos hle, hstream, decompressWork, hnone]
      at hm
    cases hm
  · intro hlt16 heap heap'
    obtain ⟨m, hm, hmlen, hmdrop⟩ := (decompressStruct_stream hz heap' (heap.filled
      (out.length + COMP_OFFSET) data) hcompress hsmall hdata).1 (by rwa [hpayload])
    obtain ⟨m', hm', hin⟩ := WorkItem.isIn_of_whole (hmlen.trans hpayload) hmdrop heap' hm
    refine ⟨m', ?_, hin⟩
    rw [hserialize, throughSwap_generic _ _ _ hsmall, if_pos hle, hstream, hm', Option.map_some]

end Works

section Gqws

variable {zlib : Zlib} {i : GqwItem} {m q : Mem} {out slack : Bytes}

theorem GqwItem.length_bytes (i : GqwItem) : i.bytes.length =
    Gqw.layout.size + (i.name.length + (1 + ((sqliteUriPath i.name).length + 1))) := by
  rw [GqwItem.bytes, List.length_append, Gqw.layout.length_encode, List.length_append,
    List.length_cons, List.length_append, List.length_singleton, Nat.add_comm 1]

theorem GqwItem.offset_le (i : GqwItem) : COMP_OFFSET ≤ i.bytes.length := by
  rw [i.length_bytes]
  exact (by decide : COMP_OFFSET ≤ Gqw.layout.size).trans (Nat.le_add_right ..)

theorem Gqw.decode_congr {a b : Bytes} (h : a.drop COMP_OFFSET = b.drop COMP_OFFSET)
    (c : Compressed) : { Gqw.layout.decode a with comp := c } =
      { Gqw.layout.decode b with comp := c } := by
  have hmembers : a.drop Compressed.layout.size = b.drop Compressed.layout.size := h
  simp only [Gqw.layout, Layout.record, Layout.pair]
  rw [hmembers]

theorem decompressGqw_of_struct (heap : Malloc) (hm : decompressStruct zlib heap q = some m)
    (hsize : Gqw.layout.size ≤ m.bytes.length) :
    decompressGqw zlib heap q =
      some (m.store Gqw.layout ((Gqw.layout.decode m.bytes).setNames m.addr)) := by
  rw [decompressGqw, hm, Option.bind_some, Mem.load_eq hsize, Option.map_some]

/-- The second name is behind the NUL of the first. -/
theorem GqwItem.sqlite3Name_eq (i : GqwItem) {g : Gqw}
    (hgqw : { g with comp := i.gqw.comp } = i.gqw) (addr : UInt64) : (g.setNames addr).sqlite3Name =
      addr + UInt64.ofNat (Gqw.layout.size + (i.name.length + 1)) := by
  have hname : g.sqlite3Name ≠ 0 := by
    have := i.sqlite3Name
    rwa [← hgqw] at this
  have hlen : g.work.nameLen = UInt64.ofNat i.name.length := by
    rw [← i.nameLen, ← hgqw, UInt64.ofNat_toNat]
  show (if g.sqlite3Name ≠ 0 then _ else _) = _
  rw [if_pos hname, hlen, UInt64.ofNat_add, UInt64.ofNat_add, UInt64.add_assoc, UInt64.add_assoc]
  rfl

theorem GqwItem.isIn_store_iff (hsize : Gqw.layout.size ≤ m.bytes.length)
    (hgqw : { Gqw.layout.decode m.bytes with comp := i.gqw.comp } = i.gqw) :
    i.IsIn (m.store Gqw.layout ((Gqw.layout.decode m.bytes).setNames m.addr)) ↔
      ((m.bytes ++ m.behind).drop Gqw.layout.size).take i.name.length = i.name ∧
      ((m.bytes ++ m.behind).drop (Gqw.layout.size + (i.name.length + 1))).take
        (sqliteUriPath i.name).length = sqliteUriPath i.name := by
  have hlen : (Gqw.layout.decode m.bytes).work.nameLen.toNat = i.name.length := by
    rw [← i.nameLen, ← hgqw]
  have hlen3 : (Gqw.layout.decode m.bytes).sqlite3NameLen.toNat =
      (sqliteUriPath i.name).length := by
    rw [← i.sqlite3NameLen, ← hgqw]
  have hsmall : Gqw.layout.size + (i.name.length + 1) < 2 ^ 64 := by
    have := i.small
    omega
  rw [← Mem.tail_store ((Gqw.layout.decode m.bytes).setNames m.addr) hsize (by decide) le_rfl,
    ← Mem.tail_store ((Gqw.layout.decode m.bytes).setNames m.addr) hsize hsmall
      (Nat.le_add_right ..), ← i.sqlite3Name_eq hgqw, ← Mem.read_eq_some_iff rfl,
    ← Mem.read_eq_some_iff rfl, ← hlen, ← hlen3]
  constructor
  · rintro ⟨g, hg, -, hread⟩
    rw [Mem.load_store, Option.some_inj] at hg
    rwa [← hg] at hread
  · intro hread
    exact ⟨_, Mem.load_store _, congrArg (fun g : Gqw => { g with
      work := { g.work with name := i.gqw.work.name }
      sqlite3Name := i.gqw.sqlite3Name }) hgqw, hread⟩

/-- There may be more bytes in the block. -/
theorem GqwItem.isIn_of_slack (hsize : Gqw.layout.size ≤ m.bytes.length)
    (hdrop : m.bytes.drop COMP_OFFSET = i.bytes.drop COMP_OFFSET ++ slack) (heap : Malloc)
    (hm : decompressStruct zlib heap q = some m) :
    ∃ m', decompressGqw zlib heap q = some m' ∧ i.IsIn m' := by
  have hsplit : Gqw.layout.size = COMP_OFFSET + (Gqw.layout.size - COMP_OFFSET) := rfl
  have hgqw : { Gqw.layout.decode m.bytes with comp := i.gqw.comp } = i.gqw := by
    have hmore : m.bytes.drop COMP_OFFSET = (i.bytes ++ slack).drop COMP_OFFSET := by
      rw [hdrop, List.drop_append_of_le_length i.offset_le]
    rw [Gqw.decode_congr hmore, GqwItem.bytes, List.append_assoc, Gqw.layout.decode_encode]
  have hnames : m.bytes.drop Gqw.layout.size =
      i.name ++ 0 :: (sqliteUriPath i.name ++ [0]) ++ slack := by
    have hle : Gqw.layout.size - COMP_OFFSET ≤ (i.bytes.drop COMP_OFFSET).length := by
      rw [List.length_drop, i.length_bytes]
      exact Nat.sub_le_sub_right (Nat.le_add_right ..) _
    rw [hsplit, ← List.drop_drop, hdrop, List.drop_append_of_le_length hle, List.drop_drop,
      ← hsplit, GqwItem.bytes, List.drop_left' (Gqw.layout.length_encode _)]
  refine ⟨_, decompressGqw_of_struct heap hm hsize, (GqwItem.isIn_store_iff hsize hgqw).mpr ?_⟩
  rw [← List.drop_drop, List.drop_append_of_le_length hsize, hnames]
  constructor
  · rw [List.append_assoc, List.append_assoc, List.take_left' rfl]
  · rw [← List.drop_drop, List.append_assoc, List.append_assoc, List.drop_left' rfl,
      List.cons_append, List.drop_succ_cons, List.drop_zero, List.append_assoc,
      List.take_left' rfl]

theorem GqwItem.isIn_of_whole (hlen : m.bytes.length = i.bytes.length)
    (hdrop : m.bytes.drop COMP_OFFSET = i.bytes.drop COMP_OFFSET) (heap : Malloc)
    (hm : decompressStruct zlib heap q = some m) :
    ∃ m', decompressGqw zlib heap q = some m' ∧ i.IsIn m' := by
  have hsize : Gqw.layout.size ≤ m.bytes.length := by
    rw [hlen, i.length_bytes]
    exact Nat.le_add_right ..
  exact GqwItem.isIn_of_slack hsize (hdrop.trans (List.append_nil _).symm) heap hm

theorem GqwItem.isIn_of_struct (hbytes : m.bytes = Gqw.layout.encode i.gqw) (heap : Malloc)
    (hm : decompressStruct zlib heap q = some m) :
    (∃ m', decompressGqw zlib heap q = some m' ∧ i.IsIn m') ↔
      m.behind.take i.name.length = i.name ∧
      (m.behind.drop (i.name.length + 1)).take (sqliteUriPath i.name).length =
        sqliteUriPath i.name := by
  have hsize : Gqw.layout.size ≤ m.bytes.length := by
    rw [hbytes, Gqw.layout.length_encode]
  have hdecode : Gqw.layout.decode m.bytes = i.gqw := by
    rw [hbytes, ← List.append_nil (Gqw.layout.encode i.gqw), Gqw.layout.decode_encode]
  have hdrop : (m.bytes ++ m.behind).drop Gqw.layout.size = m.behind := by
    rw [hbytes, List.drop_left' (Gqw.layout.length_encode _)]
  rw [decompressGqw_of_struct heap hm hsize, ← hdrop, List.drop_drop,
    ← GqwItem.isIn_store_iff hsize (by rw [hdecode])]
  exact ⟨fun ⟨_, h, hin⟩ => Option.some_inj.mp h ▸ hin, fun h => ⟨_, rfl, h⟩⟩

theorem Gqw.load_comp (g : Gqw) {m : Mem} {rest : Bytes}
    (h : m.bytes = Gqw.layout.encode g ++ rest) : m.load Compressed.layout = some g.comp := by
  have hsplit : ∃ behind, Gqw.layout.encode g = Compressed.layout.encode g.comp ++ behind :=
    ⟨_, rfl⟩
  obtain ⟨behind, hbehind⟩ := hsplit
  rw [Mem.load, h, hbehind, List.append_assoc, Layout.read_encode, Option.map_some]

theorem Gqw.read_compressed (g : Gqw) (rest : Bytes) : ∃ rest',
    Compressed.layout.read ((Gqw.layout.encode g ++ rest).drop COMP_OFFSET) =
      some (g.work.compressed, rest') := by
  have hsplit : ∃ behind, Gqw.layout.encode g =
      Compressed.layout.encode g.comp ++ (Compressed.layout.encode g.work.compressed ++ behind) :=
    ⟨_, congrArg (Compressed.layout.encode g.comp ++ ·) (List.append_assoc ..)⟩
  obtain ⟨behind, hbehind⟩ := hsplit
  have hcomp : (Compressed.layout.encode g.comp).length = COMP_OFFSET :=
    Compressed.layout.length_encode _
  rw [hbehind, List.append_assoc, List.drop_left' hcomp, List.append_assoc, Layout.read_encode]
  exact ⟨_, rfl⟩

theorem sqliteUriPath_eq_nil_iff {name : Bytes} : sqliteUriPath name = [] ↔ name = [] := by
  rw [sqliteUriPath, List.flatMap_eq_nil_iff]
  constructor
  · intro h
    by_contra hne
    obtain ⟨c, hc⟩ := List.exists_mem_of_ne_nil name hne
    have hnil := h c hc
    split_ifs at hnil
  · rintro rfl c hc
    cases hc

theorem GqwItem.survives_plain_iff (func : UInt64) (hq : q.bytes = i.bytes) :
    i.Survives zlib func q ↔ i.name = [] := by
  obtain ⟨rest, hread⟩ := Gqw.read_compressed i.gqw (i.name ++ 0 :: (sqliteUriPath i.name ++ [0]))
  have hle : Gqw.layout.size ≤ (q.bytes ++ q.behind).length := by
    rw [List.length_append, hq, i.length_bytes, Nat.add_assoc]
    exact Nat.le_add_right ..
  have hserialize : gqwSerialize func q = genericSerialize func q Gqw.layout.size := by
    rw [gqwSerialize, hq, GqwItem.bytes, hread, Option.bind_some]
    dsimp only
    rw [gqwLen, if_neg (not_not.mpr i.workPlain)]
  have htake : (q.bytes ++ q.behind).take Gqw.layout.size = Gqw.layout.encode i.gqw := by
    rw [hq, GqwItem.bytes, List.append_assoc, List.take_left' (Gqw.layout.length_encode _)]
  have htrip : ∀ heap heap', (∃ m, throughSwap heap (gqwSerialize func q)
      (decompressGqw zlib heap') = some (func, m) ∧ i.IsIn m) ↔
        (heap.block Gqw.layout.size).behind.take i.name.length = i.name ∧
        ((heap.block Gqw.layout.size).behind.drop (i.name.length + 1)).take
          (sqliteUriPath i.name).length = sqliteUriPath i.name := by
    intro heap heap'
    rw [hserialize, throughSwap_generic heap func q (by decide), if_pos hle, htake,
      ← show (heap.filled Gqw.layout.size (Gqw.layout.encode i.gqw)).behind =
        (heap.block Gqw.layout.size).behind from rfl,
      ← @GqwItem.isIn_of_struct zlib i (heap.filled Gqw.layout.size (Gqw.layout.encode i.gqw))
        (heap.filled Gqw.layout.size (Gqw.layout.encode i.gqw)) rfl heap'
        (decompressStruct_of_plain heap' (Gqw.load_comp i.gqw (List.append_nil _).symm) i.plain)]
    simp
  constructor
  · intro h
    have hname := ((htrip lastBlocks lastBlocks).mp (h _ _)).1
    rwa [lastBlocks, List.take_nil, eq_comm] at hname
  · intro hname heap heap'
    rw [htrip, hname, sqliteUriPath_eq_nil_iff.mpr rfl]
    exact ⟨rfl, rfl⟩

theorem gqwLen_lt (c : Compressed) : gqwLen c < 2 ^ 64 := by
  rw [gqwLen]
  split
  · exact UInt64.toNat_lt _
  · decide

/-- The length has to be that of the stream, or a little more. -/
theorem GqwItem.survives_stream_iff (hz : zlib.Documented) (func : UInt64) {comp : Bool}
    {src : Mem} (hsrc : src.bytes = i.bytes) (hout : shrunk zlib comp src.bytes = some out)
    (hslack : slack.length = COMP_OFFSET)
    (hq : q.bytes = Compressed.layout.encode (streamHeader src.bytes.length out.length) ++
      (out ++ slack)) :
    i.Survives zlib func q ↔ i.bytes.length < 2 ^ 16 ∧ out.length + COMP_OFFSET ≤ lenInStream q ∧
      lenInStream q ≤ (q.bytes ++ q.behind).length := by
  obtain ⟨-, hcompress, hlt⟩ := shrunk_eq_some hout
  rw [hsrc] at hcompress hlt
  have hpayload : COMP_OFFSET + (i.bytes.drop COMP_OFFSET).length = i.bytes.length := by
    rw [List.length_drop]
    exact Nat.add_sub_cancel' i.offset_le
  have hsmall : out.length + COMP_OFFSET < 2 ^ 64 := by
    have := i.small
    rw [i.length_bytes] at hlt
    omega
  have hserialize : gqwSerialize func q = genericSerialize func q (lenInStream q) := by
    have hsize : Compressed.layout.size ≤ (q.bytes.drop COMP_OFFSET).length := by
      rw [hq, List.drop_left' (length_streamHeader ..), List.length_append, hslack]
      exact Nat.le_add_left ..
    rw [gqwSerialize, Layout.read, if_pos hsize, Option.bind_some, lenInStream]
  rw [hsrc, ← hpayload] at hq
  have hbytes : q.bytes ++ q.behind = Compressed.layout.encode (streamHeader
      (COMP_OFFSET + (i.bytes.drop COMP_OFFSET).length) out.length) ++
        (out ++ (slack ++ q.behind)) := by
    rw [hq, List.append_assoc, List.append_assoc]
  have hlen64 : lenInStream q < 2 ^ 64 := gqwLen_lt _
  have htrip : ∀ heap heap', throughSwap heap (gqwSerialize func q) (decompressGqw zlib heap') =
      if lenInStream q ≤ (q.bytes ++ q.behind).length then
        (decompressGqw zlib heap' (heap.filled (lenInStream q)
          ((q.bytes ++ q.behind).take (lenInStream q)))).map (func, ·)
      else none := fun heap heap' => by rw [hserialize, throughSwap_generic heap func q hlen64]
  obtain ⟨data, hdata⟩ : ∃ data, data = (q.bytes ++ q.behind).take (lenInStream q) := ⟨_, rfl⟩
  rw [← hdata] at htrip
  constructor
  · intro h
    obtain ⟨m, hm, -⟩ := h lastBlocks lastBlocks
    have hle : lenInStream q ≤ (q.bytes ++ q.behind).length := by
      by_contra hlarge
      rw [htrip, if_neg hlarge] at hm
      cases hm
    rw [htrip, if_pos hle, decompressGqw] at hm
    have hstruct : decompressStruct zlib lastBlocks (lastBlocks.filled (lenInStream q) data) ≠
        none := by
      intro hnone
      rw [hnone] at hm
      cases hm
    have hstream : out.length + COMP_OFFSET ≤ lenInStream q := by
      by_contra hshort
      apply hstruct
      by_cases hheader : lenInStream q < COMP_OFFSET
      · -- not even the header
        have hdlen : data.length < Compressed.layout.size := by
          rw [hdata, List.length_take_of_le hle]
          exact hheader
        have hload : (lastBlocks.filled (lenInStream q) data).load Compressed.layout = none := by
          rw [Mem.load, show (lastBlocks.filled (lenInStream q) data).bytes = data from rfl,
            Layout.read_of_short _ hdlen, Option.map_none]
        rw [decompressStruct, hload]
      · have hpart : lenInStream q - COMP_OFFSET < out.length := by omega
        have hfile : data = Compressed.layout.encode (streamHeader
            (COMP_OFFSET + (i.bytes.drop COMP_OFFSET).length) out.length) ++
              out.take (lenInStream q - COMP_OFFSET) := by
          rw [hdata, hbytes, List.take_append, length_streamHeader, List.take_of_length_le
            ((length_streamHeader ..).trans_le (Nat.le_of_not_lt hheader)),
            List.take_append_of_le_length hpart.le]
        exact decompressStruct_incomplete hz lastBlocks (lastBlocks.filled (lenInStream q) data)
          hcompress hsmall hfile rfl (List.take_append_drop _ _).symm
          (mt List.drop_eq_nil_iff.mp (Nat.not_le_of_gt hpart))
    rw [hbytes, take_stream (length_streamHeader ..) hstream] at hdata
    refine ⟨?_, hstream, hle⟩
    by_contra hlarge
    exact hstruct ((decompressStruct_stream hz lastBlocks
      (lastBlocks.filled (lenInStream q) data) hcompress hsmall hdata).2
        (by rw [hpayload]; exact Nat.le_of_not_lt hlarge))
  · rintro ⟨hlt16, hstream, hle⟩ heap heap'
    rw [hbytes, take_stream (length_streamHeader ..) hstream] at hdata
    obtain ⟨m, hm, hmlen, hmdrop⟩ := (decompressStruct_stream hz heap'
      (heap.filled (lenInStream q) data) hcompress hsmall hdata).1 (by rwa [hpayload])
    obtain ⟨m', hm', hin⟩ := GqwItem.isIn_of_whole (hmlen.trans hpayload) hmdrop heap' hm
    refine ⟨m', ?_, hin⟩
    rw [htrip, if_pos hle, hm', Option.map_some]

end Gqws

section Rows

variable {nodes : Nodes}

theorem Chain.inv {p : UInt64} {line : Bytes} {lines : List Bytes}
    (h : Chain nodes p (line :: lines)) : p ≠ 0 ∧ ∃ next, nodes p = some (line, next) := by
  cases h with
  | node hp hnode _ => exact ⟨hp, _, hnode⟩

theorem chain_nil_iff {p : UInt64} : Chain nodes p [] ↔ p = 0 := by
  constructor
  · rintro ⟨⟩
    rfl
  · rintro rfl
    exact .null

/-- What is freed stays freed. -/
theorem sllDestroy_eq_none {p : UInt64} (k : ℕ) (q : UInt64) (h : nodes p = none) :
    sllDestroy k q nodes p = none := by
  induction k generalizing q nodes with
  | zero => exact h
  | succ k ih =>
      rw [sllDestroy]
      split
      · exact h
      · cases nodes q with
        | none => exact h
        | some node =>
            refine ih _ ?_
            rw [Function.update_apply, h, ite_self]

theorem RowItem.read_line (i : RowItem) (heap : Malloc) :
    (heap.filled i.row.len.toNat i.line).read (heap.filled i.row.len.toNat i.line).addr
      i.row.len.toNat = some i.line := by
  rw [Mem.read_eq_some_iff i.len.symm, Mem.tail_addr]
  exact List.take_left' i.len.symm

theorem RowItem.survives_iff (i : RowItem) (func : UInt64) :
    i.Survives func ↔ i.entryLines = [] := by
  have hread : ∀ heap, rowDeserialize heap (rowSerialize func i.row i.line) = some (func,
      { i.row with line := (heap.filled i.row.len.toNat i.line).addr },
      heap.filled i.row.len.toNat i.line, []) := by
    intro heap
    rw [rowSerialize, rowDeserialize, Layout.read_encode, Option.bind_some]
    dsimp only
    rw [Layout.read_encode, Option.bind_some]
    dsimp only
    rw [if_pos i.len.le, i.len, List.take_length, List.drop_length]
  constructor
  · intro h
    obtain ⟨row, line, hrow, -, -, hchain⟩ := h lastBlocks
    rw [hread, Option.some_inj, Prod.mk_inj, Prod.mk_inj] at hrow
    obtain ⟨-, rfl, -⟩ := hrow
    by_contra hne
    obtain ⟨first, lines, hlines⟩ := List.exists_cons_of_ne_nil hne
    have hsize := i.size
    have hbefore := i.chain
    rw [hlines] at hchain hbefore hsize
    obtain ⟨hp, next, hnode⟩ := hbefore.inv
    obtain ⟨-, next', hfreed⟩ := hchain.inv
    -- the first node is freed before all others
    dsimp only at hfreed
    rw [rowFree, hsize, List.length_cons, sllDestroy, if_neg hp, hnode] at hfreed
    dsimp only at hfreed
    rw [sllDestroy_eq_none _ _ (Function.update_self ..)] at hfreed
    cases hfreed
  · intro hnil heap
    refine ⟨_, _, hread heap, rfl, i.read_line heap, ?_⟩
    have hchain := i.chain
    rw [hnil, chain_nil_iff] at hchain
    rw [hnil, chain_nil_iff]
    exact hchain

end Rows

section Main

variable {zlib : Zlib}

theorem compressStruct_cases (heap heap' : Malloc) (comp : Bool) (src : Mem) :
    shrunk zlib comp src.bytes = none ∧
        compressStruct zlib heap heap' comp src src.bytes.length = src ∨
      ∃ out slack, shrunk zlib comp src.bytes = some out ∧ slack.length = COMP_OFFSET ∧
        (compressStruct zlib heap heap' comp src src.bytes.length).bytes =
          Compressed.layout.encode (streamHeader src.bytes.length out.length) ++
            (out ++ slack) := by
  cases hout : shrunk zlib comp src.bytes with
  | none => exact .inl ⟨rfl, compressStruct_of_none heap heap' hout⟩
  | some out =>
      obtain ⟨slack, hslack, hq⟩ := compressStruct_of_some heap heap' hout
      exact .inr ⟨out, slack, rfl, hslack, hq⟩

/-- What lies behind the structure in its block is not compressed. -/
theorem compressStruct_of_append (heap heap' : Malloc) {comp : Bool} {src : Mem}
    {bytes rest : Bytes} (hsrc : src.bytes = bytes ++ rest) :
    compressStruct zlib heap heap' comp src bytes.length = src ∨
      compressStruct zlib heap heap' comp src bytes.length =
          compressStruct zlib heap heap' comp { src with bytes := bytes } bytes.length ∧
        (shrunk zlib comp bytes).isSome = true := by
  have hpayload : (src.bytes.drop COMP_OFFSET).take (bytes.length - COMP_OFFSET) =
      bytes.drop COMP_OFFSET := by
    rw [← List.drop_take, hsrc, List.take_left' rfl]
  rw [compressStruct, compressStruct, hpayload]
  dsimp only
  rw [take_drop_offset]
  split
  · rename_i hcomp
    split
    · exact .inl rfl
    · rename_i out hout
      split
      · rename_i hlt
        refine .inr ⟨rfl, ?_⟩
        rw [shrunk, if_pos hcomp, hout, Option.filter_some, if_pos (decide_eq_true hlt)]
        rfl
      · exact .inl rfl
  · exact .inl rfl

/-- An item of a walk has to be compressed in less than 64 KiB, or to have no name. That of a query
also needs a stream which has its length in it. Rows must not have lines of entries. -/
theorem swap_survives_iff (hz : zlib.Documented) (func : UInt64) (comp : Bool)
    (heap heap' : Malloc) (addr : UInt64) (behind : Bytes) :
    (∀ i : WorkItem,
      i.Survives zlib func
          (compressStruct zlib heap heap' comp ⟨addr, i.bytes, behind⟩ i.bytes.length) ↔
        (∃ out, shrunk zlib comp i.bytes = some out ∧ i.bytes.length < 2 ^ 16) ∨
          shrunk zlib comp i.bytes = none ∧ i.name = []) ∧
    (∀ i : GqwItem,
      let queued := compressStruct zlib heap heap' comp ⟨addr, i.bytes, behind⟩ i.bytes.length
      i.Survives zlib func queued ↔
        (∃ out, shrunk zlib comp i.bytes = some out ∧ i.bytes.length < 2 ^ 16 ∧
          out.length + COMP_OFFSET ≤ lenInStream queued ∧
          lenInStream queued ≤ (queued.bytes ++ queued.behind).length) ∨
          shrunk zlib comp i.bytes = none ∧ i.name = []) ∧
    ∀ i : RowItem, i.Survives func ↔ i.entryLines = [] := by
  refine ⟨fun i => ?_, fun i => ?_, fun i => i.survives_iff func⟩
  · obtain ⟨hnone, hq⟩ | ⟨out, slack, hout, -, hq⟩ :=
      compressStruct_cases heap heap' comp ⟨addr, i.bytes, behind⟩
    · rw [hnone, WorkItem.survives_plain_iff func (congrArg Mem.bytes hq)]
      simp
    · rw [hout, WorkItem.survives_stream_iff hz func rfl hout hq]
      simp
  · obtain ⟨hnone, hq⟩ | ⟨out, slack, hout, hslack, hq⟩ :=
      compressStruct_cases heap heap' comp ⟨addr, i.bytes, behind⟩
    · dsimp only
      rw [hnone, GqwItem.survives_plain_iff func (congrArg Mem.bytes hq)]
      simp
    · dsimp only
      rw [hout, GqwItem.survives_stream_iff hz func rfl hout hslack hq]
      simp

/-- A `zlib` for one input. -/
def zlibOf (src stream : Bytes) : Zlib where
  compress src' room := if src' = src ∧ stream.length ≤ room then some stream else none
  uncompress stream' room :=
    if stream <+: stream' ∧ src.length ≤ room then some src else none

theorem documented_zlibOf (src stream : Bytes) : (zlibOf src stream).Documented where
  inverse := by
    intro src' room out hout rest room'
    rw [zlibOf, Option.ite_none_right_eq_some] at hout
    obtain ⟨⟨rfl, -⟩, ⟨⟩⟩ := hout
    simp [zlibOf]
  incomplete := by
    intro src' room out hout part rest hpart hrest room'
    rw [zlibOf, Option.ite_none_right_eq_some] at hout
    obtain ⟨-, ⟨⟩⟩ := hout
    refine if_neg fun h => hrest ?_
    have hlen := h.1.length_le
    rw [hpart, List.length_append] at hlen
    exact List.eq_nil_of_length_eq_zero (by omega)

def noWork : Work :=
  ⟨⟨0, 0, 0⟩, ⟨0, 0, 0⟩, ⟨0, 0, 0⟩, 0, 0, 0, 1, 0, ⟨0, 0, 0, 0, 0, 0, 0, 0, 0, 0, ⟨0, 0⟩, ⟨0, 0⟩,
    ⟨0, 0⟩⟩, 0, 0, 0, 0, 0, 0⟩

/-- The item of `/`, with all other members zero. -/
def rootWork : WorkItem := ⟨noWork, [47], rfl, rfl, by decide⟩

/-- What `compress` makes of it. -/
def rootStream : Bytes :=
  [120, 156, 99, 96, 160, 14, 96, 164, 146, 57, 131, 5, 232, 51, 0, 0, 2, 74, 0, 49]

/-- It comes back when it is compressed. -/
theorem swap_survives_rootWork : rootWork.Survives (zlibOf (rootWork.bytes.drop 16) rootStream) 0
    (compressStruct (zlibOf (rootWork.bytes.drop 16) rootStream) lastBlocks lastBlocks true
      ⟨0, rootWork.bytes, []⟩ rootWork.bytes.length) :=
  ((swap_survives_iff (documented_zlibOf _ _) 0 true lastBlocks lastBlocks 0 []).1 rootWork).mpr
    (.inl ⟨rootStream, by decide +kernel, by decide +kernel⟩)

def rootGqw : GqwItem :=
  ⟨⟨⟨0, 0, 0⟩, noWork, 0, 1, 1⟩, [47], rfl, rfl, by decide, rfl, rfl, by decide⟩

/-- A directory with one file. -/
def fileRow : RowItem where
  row := ⟨0, 0, 0, 0, 0, 1, ⟨1, 1, 1⟩⟩
  line := []
  entryLines := [[102]]
  nodes := fun p => if p = 1 then some ([102], 0) else none
  len := rfl
  chain := .node (by decide) (by decide) .null
  size := rfl

/-- Without compression no item comes back. -/
theorem not_swap_survives :
    ¬rootWork.Survives (zlibOf [] []) 0 (compressStruct (zlibOf [] []) lastBlocks lastBlocks false
      ⟨0, rootWork.bytes, []⟩ rootWork.bytes.length) ∧
    ¬rootGqw.Survives (zlibOf [] []) 0 (compressStruct (zlibOf [] []) lastBlocks lastBlocks false
      ⟨0, rootGqw.bytes, []⟩ rootGqw.bytes.length) ∧
    ¬fileRow.Survives 0 := by
  rw [WorkItem.survives_plain_iff 0 rfl, GqwItem.survives_plain_iff 0 rfl,
    RowItem.survives_iff fileRow 0]
  decide

end Main

end Gufi.Swap
