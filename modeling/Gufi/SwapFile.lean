import Gufi.ByteBuffer
import Gufi.ObjectLayout
import Gufi.RecordFile
import Gufi.Schema

/-!
# The swap files of a thread

A thread has a swap file that is written to and, while it reads one back, a second one. A record
has the pointers of two callbacks and what the first of them writes. A write that fails goes back to
where it started and leaves what it has written in the file. `swap_read_prep` makes the file the one
that is read and opens a new one; it can fail to go to the start of the old file and to open the new
one. A file that cannot be read ends the reading; the end of a file is such an error.
-/

namespace Gufi.SwapFile

open ObjectLayout RecordFile

variable {α : Type}

/-- The functions that get an item from a file, with the number of bytes they read. A call of
something else ends the program. -/
abbrev Callbacks (α : Type) := UInt64 → Option (Bytes → Option (α × ℕ))

structure SwapItem (α : Type) where
  serialize : UInt64
  deserialize : UInt64
  work : α
deriving DecidableEq

/-- `read_swap` -/
def readSwap (callbacks : Callbacks α) (file : Bytes) : Outcome (SwapItem α) :=
  match Layout.uint64.read file with
  | none => .short
  | some (serialize, file) =>
      match Layout.uint64.read file with
      | none => .short
      | some (deserialize, file) =>
          match callbacks deserialize with
          | none => .broken
          | some callback =>
              match callback file with
              | none => .short
              | some (work, n) => .record ⟨serialize, deserialize, work⟩ (8 + (8 + n))

theorem length_of_readSwap {callbacks : Callbacks α} {file : Bytes} {a : SwapItem α} {len : ℕ}
    (h : readSwap callbacks file = .record a len) : 8 ≤ file.length ∧ 8 ≤ len := by
  rw [readSwap] at h
  split at h
  · cases h
  · rename_i hread
    have hle : 8 ≤ file.length := by
      by_contra hshort
      rw [Layout.read_of_short _ (Nat.lt_of_not_le hshort)] at hread
      cases hread
    split at h
    · cases h
    · split at h
      · cases h
      · split at h
        · cases h
        · cases h
          exact ⟨hle, Nat.le_add_right ..⟩

def reader (callbacks : Callbacks α) : Reader (SwapItem α) where
  read := readSwap callbacks
  shrinks h := by
    obtain ⟨hfile, hlen⟩ := length_of_readSwap h
    rw [List.length_drop]
    omega

/-- A call of `write_swap`. The second callback gets the item from what the first one writes, and
from nothing less. -/
structure Record (callbacks : Callbacks α) where
  serialize : UInt64
  deserialize : UInt64
  user : Bytes
  work : α
  callback : Bytes → Option (α × ℕ)
  callback_eq : callbacks deserialize = some callback
  reads : ∀ rest, callback (user ++ rest) = some (work, user.length)
  short : ∀ part rest, user = part ++ rest → rest ≠ [] → callback part = none

namespace Record

variable {callbacks : Callbacks α} (r : Record callbacks)

def item : SwapItem α := ⟨r.serialize, r.deserialize, r.work⟩

def bytes : Bytes :=
  Layout.uint64.encode r.serialize ++ (Layout.uint64.encode r.deserialize ++ r.user)

theorem length_bytes : r.bytes.length = 8 + (8 + r.user.length) := by
  rw [bytes, List.length_append, List.length_append, Layout.uint64.length_encode,
    Layout.uint64.length_encode]
  rfl

def written : Written (reader callbacks) where
  item := r.item
  bytes := r.bytes
  reads rest := by
    change readSwap callbacks (r.bytes ++ rest) = _
    rw [readSwap, bytes, List.append_assoc, Layout.read_encode]
    dsimp only
    rw [List.append_assoc, Layout.read_encode]
    dsimp only
    rw [r.callback_eq]
    dsimp only
    rw [r.reads]
    exact congrArg _ r.length_bytes.symm

end Record

/-- An open file and the position in it. -/
structure Fd where
  bytes : Bytes
  offset : ℕ
deriving DecidableEq

/-- `struct Swap`. A descriptor of -1 is none. -/
structure Swap where
  write : Option Fd
  writeCount : ℕ
  writeSize : ℕ
  read : Option Fd
  readCount : ℕ
  readSize : ℕ
  totalCount : ℕ
  totalSize : ℕ
deriving DecidableEq

/-- `swap_init` and `swap_start` -/
def Swap.start : Swap := ⟨some ⟨[], 0⟩, 0, 0, none, 0, 0, 0, 0⟩

/-- Where a write fails: after some of the bytes of its record. -/
abbrev WriteFault (len : ℕ) := Option (Fin len)

/-- What fails of `swap_read_prep`: `lseek` and `swap_open`. -/
structure PrepFault where
  seek : Bool
  opening : Bool

section Calls

variable {callbacks : Callbacks α} (swap : Swap)

/-- `write_swap` -/
def writeSwap (r : Record callbacks) (fault : WriteFault r.bytes.length) : Swap × Bool :=
  match swap.write with
  | none => (swap, false)
  | some fd =>
      match fault with
      | some k =>
          ({ swap with
            write := some ⟨ByteBuffer.put fd.bytes fd.offset (r.bytes.take k), fd.offset⟩ }, false)
      | none =>
          let written := r.bytes.length
          ({ swap with
            write := some ⟨ByteBuffer.put fd.bytes fd.offset r.bytes, fd.offset + written⟩
            writeCount := swap.writeCount + 1
            writeSize := swap.writeSize + written
            totalCount := swap.totalCount + 1
            totalSize := swap.totalSize + written }, true)

/-- `swap_read_prep` -/
def swapReadPrep (fault : PrepFault) : Swap × Bool :=
  let closed := { swap with read := none, readCount := 0, readSize := 0 }
  if swap.writeCount = 0 then (closed, false)
  else
    let moved := { swap with
      read := swap.write
      readCount := swap.writeCount
      readSize := swap.writeSize
      write := if fault.opening then none else some ⟨[], 0⟩
      writeCount := 0
      writeSize := 0 }
    if fault.seek then (moved, false)
    else
      let rewound := { moved with read := moved.read.map fun fd => ⟨fd.bytes, 0⟩ }
      (rewound, !fault.opening)

/-- The loop of `QPTPool_wait_swapped_once` and `swap_read_done`. -/
def drain (callbacks : Callbacks α) : Swap × Option (List (SwapItem α)) :=
  ({ swap with read := none, readCount := 0, readSize := 0 },
    match swap.read with
    | none => some []
    | some fd => readAll (reader callbacks) (fd.bytes.drop fd.offset))

end Calls

end Gufi.SwapFile
