import Gufi.Walk

/-!
# The items of a walk

The item of a directory has its path and its level in it, and can be read whether it has been
compressed or not. An item that has been compressed can be read after any number of trips through a
swap file.
-/

namespace Gufi.Walk

open Descend Swap ObjectLayout

section Blocks

variable {cfg : Config} {i : WorkItem} {m : Mem}

/-- The block has the item in it, as it is or compressed. -/
inductive Holds (zlib : Zlib) (i : WorkItem) (m : Mem) : Prop
  | plain (h : m.bytes = i.bytes)
  | stream {room : ℕ} {out rest : Bytes}
      (hout : zlib.compress (i.bytes.drop COMP_OFFSET) room = some out)
      (hsmall : out.length + COMP_OFFSET < 2 ^ 64)
      (h : m.bytes = Compressed.layout.encode (streamHeader i.bytes.length out.length) ++
        (out ++ rest))

theorem Holds.compressStruct {zlib : Zlib} (hbytes : m.bytes = i.bytes) (comp : Bool)
    (heap heap' : Malloc) :
    Holds zlib i (compressStruct zlib heap heap' comp m i.bytes.length) := by
  rw [← hbytes]
  obtain ⟨-, hq⟩ | ⟨out, slack, hout, -, hq⟩ := @compressStruct_cases zlib heap heap' comp m
  · exact .plain (by rw [hq, hbytes])
  · obtain ⟨-, hcompress, hlt⟩ := shrunk_eq_some hout
    rw [hbytes] at hcompress hlt hq
    refine .stream hcompress ?_ (by rw [hbytes]; exact hq)
    have := i.small
    rw [i.length_bytes] at hlt
    omega

/-- The structure is uncompressed if its header says so. -/
theorem load_plain (h : m.bytes = i.bytes) :
    m.load Compressed.layout = some i.work.compressed :=
  Work.load_compressed i.work h

theorem Holds.decompressWork {zlib : Zlib} (hz : zlib.Documented) (h : Holds zlib i m)
    (hlen : i.bytes.length < 2 ^ 16) (heap : Malloc) :
    ∃ m', decompressWork zlib heap m = some m' ∧ i.IsIn m' := by
  cases h with
  | plain h =>
      refine WorkItem.isIn_of_whole (congrArg List.length h) (congrArg _ h) heap ?_
      exact decompressStruct_of_plain heap (load_plain h) i.plain
  | stream hout hsmall h =>
      have hpayload : COMP_OFFSET + (i.bytes.drop COMP_OFFSET).length = i.bytes.length := by
        rw [List.length_drop]
        exact Nat.add_sub_cancel' i.offset_le
      rw [← hpayload] at h
      obtain ⟨m', hm', hmlen, hmdrop⟩ :=
        (decompressStruct_stream hz heap m hout hsmall h).1 (by rwa [hpayload])
      exact WorkItem.isIn_of_whole (hmlen.trans hpayload) hmdrop heap hm'

/-- The item is read as it was, besides its header and its pointer. -/
theorem Holds.readItem (hz : cfg.mem.zlib.Documented) (h : Holds cfg.mem.zlib i m)
    (hlen : i.bytes.length < 2 ^ 16) : ∃ w, cfg.readItem m = some ⟨w, i.name⟩ ∧
      { w with compressed := i.work.compressed, name := i.work.name } = i.work := by
  obtain ⟨m', hm', w, hload, hw, hread⟩ := h.decompressWork hz hlen cfg.decompressed
  refine ⟨w, ?_, hw⟩
  rw [Config.readItem, hm', Option.bind_some, hload, Option.bind_some, hread, Option.map_some]

/-- What is read of a compressed item after a trip is compressed as before. -/
theorem Holds.throughSwapFile (h : Holds cfg.mem.zlib i m) (hcomp : IsCompressed m) :
    ∃ m', cfg.throughSwapFile m = some m' ∧ Holds cfg.mem.zlib i m' ∧ IsCompressed m' := by
  cases h with
  | plain h =>
      obtain ⟨c, hc, hyes⟩ := hcomp
      obtain rfl := Option.some_inj.mp ((load_plain h).symm.trans hc)
      exact absurd i.plain hyes
  | @stream room out rest hout hsmall h =>
      have hlen : workLen (streamHeader i.bytes.length out.length) = out.length + COMP_OFFSET := by
        rw [workLen, if_pos (streamHeader_yes _ _), streamHeader,
          UInt64.toNat_ofNat_of_lt' hsmall]
      have hle : out.length + COMP_OFFSET ≤ (m.bytes ++ m.behind).length := by
        rw [h]
        simp only [List.length_append, length_streamHeader]
        omega
      have hdata : (m.bytes ++ m.behind).take (out.length + COMP_OFFSET) =
          Compressed.layout.encode (streamHeader i.bytes.length out.length) ++ (out ++ []) := by
        rw [h, List.append_assoc, List.append_assoc, take_stream (length_streamHeader ..) le_rfl,
          Nat.sub_self, List.take_zero]
      obtain ⟨m', hm'⟩ : ∃ m', m' = cfg.deserialized.filled (out.length + COMP_OFFSET)
          ((m.bytes ++ m.behind).take (out.length + COMP_OFFSET)) := ⟨_, rfl⟩
      have hbytes := (congrArg Mem.bytes hm').trans hdata
      refine ⟨m', ?_, .stream hout hsmall hbytes, _, load_stream hbytes, streamHeader_yes _ _⟩
      rw [Config.throughSwapFile, workSerialize, load_stream h, Option.bind_some, hlen,
        genericSerialize, Mem.read_addr, if_pos hle, Option.map_some, Option.bind_some,
        genericDeserialize_append _ _ hsmall (List.length_take_of_le hle), Option.map_some, hm']

theorem Holds.trips (h : Holds cfg.mem.zlib i m) (k : ℕ) (hcomp : k ≠ 0 → IsCompressed m) :
    ∃ m', cfg.trips k m = some m' ∧ Holds cfg.mem.zlib i m' := by
  induction k generalizing m with
  | zero => exact ⟨m, rfl, h⟩
  | succ k ih =>
      obtain ⟨m₁, hm₁, hholds, hcomp₁⟩ := h.throughSwapFile (hcomp (Nat.succ_ne_zero k))
      obtain ⟨m₂, hm₂, hholds₂⟩ := ih hholds fun _ => hcomp₁
      refine ⟨m₂, ?_, hholds₂⟩
      rw [Config.trips, hm₁, Option.bind_some, hm₂]

end Blocks

section Children

variable {args : Arguments} {work child : Named} {o : Observed}

/-- The item of an entry has the path of the entry, and is one level below that of the directory. -/
theorem childOf_eq_some (hname : work.name ≠ []) (h : childOf args work o = some child) :
    child.name = work.name ++ 47 :: o.dirent.name ∧
      child.work.level = work.work.level + 1 ∧
      child.work.nameLen = UInt64.ofNat child.name.length ∧ child.work.compressed.yes = 0 := by
  obtain ⟨w, hw, rfl⟩ := Option.map_eq_some_iff.mp h
  obtain ⟨-, hcompressed, hnameLen⟩ := trySkipLstat_keeps hw
  have hjoin : (newWorkWithName args.mem work.name o.dirent.name).name =
      work.name ++ 47 :: o.dirent.name :=
    if_neg (mt List.length_eq_zero_iff.mp hname)
  exact ⟨hjoin, rfl, hnameLen, congrArg Compressed.yes hcompressed⟩

theorem length_bytes_lt {i : WorkItem} (h : i.name.length < PATH_MAX) :
    i.bytes.length < 2 ^ 16 := by
  have hpath : PATH_MAX = 4096 := rfl
  have hsize : Work.layout.size = 296 := rfl
  rw [i.length_bytes]
  omega

end Children

end Gufi.Walk
