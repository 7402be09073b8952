import Mathlib.Algebra.Group.Nat.Defs
import Mathlib.Data.List.Basic
import Mathlib.Tactic.Common

/-!
# Objects as bytes

`Layout` has the bytes that an object of a fixed size takes in memory. Numbers are little-endian,
the members of a structure stand one behind the other with padding between them, and what lies
behind an object is not looked at when it is read.
-/

namespace ObjectLayout

section Numbers

/-- The lowest bytes of a number. -/
def littleEndian : ℕ → ℕ → List UInt8
  | 0, _ => []
  | k + 1, v => UInt8.ofNat v :: littleEndian k (v / 256)

def ofLittleEndian : ℕ → List UInt8 → ℕ
  | 0, _ => 0
  | _ + 1, [] => 0
  | k + 1, b :: bs => b.toNat + 256 * ofLittleEndian k bs

theorem length_littleEndian (k v : ℕ) : (littleEndian k v).length = k := by
  induction k generalizing v with
  | zero => rfl
  | succ k ih => rw [littleEndian, List.length_cons, ih]

theorem ofLittleEndian_append (k v : ℕ) (rest : List UInt8) :
    ofLittleEndian k (littleEndian k v ++ rest) = v % 256 ^ k := by
  induction k generalizing v with
  | zero => rw [ofLittleEndian, Nat.pow_zero, Nat.mod_one]
  | succ k ih =>
      have hbyte : (UInt8.ofNat v).toNat = v % 256 := UInt8.toNat_ofNat'
      rw [littleEndian, List.cons_append, ofLittleEndian, ih, hbyte, Nat.pow_succ', Nat.mod_mul]

end Numbers

/-- How an object is stored in bytes. -/
structure Layout (α : Type) where
  size : ℕ
  encode : α → List UInt8
  decode : List UInt8 → α
  length_encode : ∀ a, (encode a).length = size
  decode_encode : ∀ a rest, decode (encode a ++ rest) = a

namespace Layout

variable {α β : Type}

/-- Unsigned integers of some width. -/
def number (k : ℕ) (toNat : α → ℕ) (ofNat : ℕ → α) (h : ∀ a, ofNat (toNat a % 256 ^ k) = a) :
    Layout α where
  size := k
  encode a := littleEndian k (toNat a)
  decode bs := ofNat (ofLittleEndian k bs)
  length_encode a := length_littleEndian k (toNat a)
  decode_encode a rest := by rw [ofLittleEndian_append, h]

/-- One member behind the other. -/
def pair (x : Layout α) (y : Layout β) : Layout (α × β) where
  size := x.size + y.size
  encode p := x.encode p.1 ++ y.encode p.2
  decode bs := (x.decode bs, y.decode (bs.drop x.size))
  length_encode p := by rw [List.length_append, x.length_encode, y.length_encode]
  decode_encode p rest := by
    rw [List.append_assoc, x.decode_encode, List.drop_left' (x.length_encode p.1), y.decode_encode]

/-- The members are those of a structure. -/
def record (x : Layout α) (members : β → α) (make : α → β) (h : ∀ b, make (members b) = b) :
    Layout β where
  size := x.size
  encode b := x.encode (members b)
  decode bs := make (x.decode bs)
  length_encode b := x.length_encode (members b)
  decode_encode b rest := by rw [x.decode_encode, h]

/-- Unused bytes behind a member. -/
def padded (x : Layout α) (k : ℕ) : Layout α where
  size := x.size + k
  encode a := x.encode a ++ List.replicate k 0
  decode := x.decode
  length_encode a := by rw [List.length_append, x.length_encode, List.length_replicate]
  decode_encode a rest := by rw [List.append_assoc, x.decode_encode]

def uint8 : Layout UInt8 := number 1 UInt8.toNat UInt8.ofNat fun a =>
  (congrArg UInt8.ofNat (Nat.mod_eq_of_lt a.toNat_lt)).trans UInt8.ofNat_toNat

def uint16 : Layout UInt16 := number 2 UInt16.toNat UInt16.ofNat fun a =>
  (congrArg UInt16.ofNat (Nat.mod_eq_of_lt a.toNat_lt)).trans UInt16.ofNat_toNat

def uint32 : Layout UInt32 := number 4 UInt32.toNat UInt32.ofNat fun a =>
  (congrArg UInt32.ofNat (Nat.mod_eq_of_lt a.toNat_lt)).trans UInt32.ofNat_toNat

def uint64 : Layout UInt64 := number 8 UInt64.toNat UInt64.ofNat fun a =>
  (congrArg UInt64.ofNat (Nat.mod_eq_of_lt a.toNat_lt)).trans UInt64.ofNat_toNat

def int32 : Layout Int32 := uint32.record Int32.toUInt32 UInt32.toInt32 Int32.toInt32_toUInt32

def int64 : Layout Int64 := uint64.record Int64.toUInt64 UInt64.toInt64 Int64.toInt64_toUInt64

variable (x : Layout α)

/-- The object is there if there are enough bytes. -/
def read (bs : List UInt8) : Option (α × List UInt8) :=
  if x.size ≤ bs.length then some (x.decode bs, bs.drop x.size) else none

@[simp]
theorem read_encode (a : α) (rest : List UInt8) : x.read (x.encode a ++ rest) = some (a, rest) := by
  have hlen : x.size ≤ (x.encode a ++ rest).length := by
    rw [List.length_append, x.length_encode]
    exact Nat.le_add_right _ _
  rw [read, if_pos hlen, x.decode_encode, List.drop_left' (x.length_encode a)]

theorem read_of_short {bs : List UInt8} (h : bs.length < x.size) : x.read bs = none :=
  if_neg (Nat.not_le_of_gt h)

theorem length_of_read {bs rest : List UInt8} {a : α} (h : x.read bs = some (a, rest)) :
    bs.length = x.size + rest.length := by
  rw [read] at h
  split at h
  · rename_i hle
    cases h
    rw [List.length_drop]
    omega
  · cases h

/-- An object that has a length in it and is followed by that many bytes, with the number of bytes
that are read. -/
def readFramed (len : α → ℕ) (bs : List UInt8) : Option ((α × List UInt8) × ℕ) :=
  (x.read bs).bind fun (a, rest) =>
    if len a ≤ rest.length then some ((a, rest.take (len a)), x.size + len a) else none

variable {len : α → ℕ} {a : α} {data : List UInt8}

theorem readFramed_encode (h : len a = data.length) (rest : List UInt8) :
    x.readFramed len ((x.encode a ++ data) ++ rest) =
      some ((a, data), (x.encode a ++ data).length) := by
  rw [readFramed, List.append_assoc, read_encode, Option.bind_some]
  dsimp only
  have hle : len a ≤ (data ++ rest).length := by
    rw [h, List.length_append]
    exact Nat.le_add_right _ _
  rw [if_pos hle, h, List.take_left' rfl, List.length_append, x.length_encode]

/-- It cannot be read when some of the bytes are missing. -/
theorem readFramed_of_short (h : len a = data.length) {part rest : List UInt8}
    (hfull : x.encode a ++ data = part ++ rest) (hrest : rest ≠ []) :
    x.readFramed len part = none := by
  by_cases hsize : part.length < x.size
  · rw [readFramed, x.read_of_short hsize, Option.bind_none]
  · have hprefix : x.encode a <+: part := by
      refine List.prefix_of_prefix_length_le ⟨data, hfull⟩ ⟨rest, rfl⟩ ?_
      rw [x.length_encode]
      exact Nat.le_of_not_lt hsize
    obtain ⟨data', rfl⟩ := hprefix
    rw [List.append_assoc, List.append_cancel_left_eq] at hfull
    have hlt : data'.length < len a := by
      rw [h, hfull, List.length_append]
      exact Nat.lt_add_of_pos_right (List.length_pos_of_ne_nil hrest)
    rw [readFramed, read_encode, Option.bind_some]
    exact if_neg (Nat.not_le_of_gt hlt)

theorem read_pair {β : Type} (y : Layout β) (bs : List UInt8) :
    (x.pair y).read bs = (x.read bs).bind fun (a, bs) => (y.read bs).map fun (b, bs) =>
      ((a, b), bs) := by
  have hsize : (x.pair y).size = x.size + y.size := rfl
  simp only [read, hsize]
  by_cases hx : x.size ≤ bs.length
  · rw [if_pos hx, Option.bind_some]
    dsimp only
    by_cases hy : y.size ≤ (bs.drop x.size).length
    · rw [List.length_drop] at hy
      rw [if_pos (by omega), if_pos (by rwa [List.length_drop]), Option.map_some, List.drop_drop]
      rfl
    · rw [List.length_drop] at hy
      rw [if_neg (by omega), if_neg (by rwa [List.length_drop]), Option.map_none]
  · rw [if_neg hx, if_neg (by omega), Option.bind_none]

end Layout

end ObjectLayout
