import Gufi.ByteBuffer

/-!
# Files of records

Records are written one behind the other, and a reader takes them from the front until there is
none. What is behind the last record is not part of a record, but the reader does not know that.
-/

namespace RecordFile

/-- What a reader makes of a file. -/
inductive Outcome (α : Type)
  | record (a : α) (length : ℕ)
  | short
  | broken
deriving DecidableEq

structure Reader (α : Type) where
  read : List UInt8 → Outcome α
  shrinks : ∀ {bs a length}, read bs = .record a length → (bs.drop length).length < bs.length

variable {α : Type}

/-- All records, unless something is taken for one that breaks the reader. -/
def readAll (r : Reader α) (bs : List UInt8) : Option (List α) :=
  match h : r.read bs with
  | .record a length => (readAll r (bs.drop length)).map (a :: ·)
  | .short => some []
  | .broken => none
termination_by bs.length
decreasing_by exact r.shrinks h

/-- The bytes of a record, which are read as it whatever is behind them. -/
structure Written (r : Reader α) where
  item : α
  bytes : List UInt8
  reads : ∀ rest, r.read (bytes ++ rest) = .record item bytes.length

variable {r : Reader α} {bs stale : List UInt8} {a : α} {length : ℕ}

theorem readAll_of_record (h : r.read bs = .record a length) :
    readAll r bs = (readAll r (bs.drop length)).map (a :: ·) := by
  rw [readAll]
  split
  · next a' length' h' =>
      rw [h, Outcome.record.injEq] at h'
      rw [h'.1, h'.2]
  · next h' =>
      rw [h] at h'
      cases h'
  · next h' =>
      rw [h] at h'
      cases h'

theorem readAll_eq_nil_iff : readAll r bs = some [] ↔ r.read bs = .short := by
  rw [readAll]
  split
  · next h => simp [h]
  · next h => simp [h]
  · next h => simp [h]

/-- The records that were written. -/
def items (ws : List (Written r)) : List α := ws.map Written.item

def contents (ws : List (Written r)) : List UInt8 := ws.flatMap Written.bytes

theorem contents_concat (ws : List (Written r)) (w : Written r) :
    contents (ws ++ [w]) = contents ws ++ w.bytes := by
  rw [contents, List.flatMap_append, List.flatMap_singleton]
  rfl

theorem readAll_append (ws : List (Written r)) (stale : List UInt8) :
    readAll r (contents ws ++ stale) = (readAll r stale).map (items ws ++ ·) := by
  induction ws with
  | nil => exact (Option.map_id' ..).symm
  | cons w ws ih =>
      have hsplit : contents (w :: ws) ++ stale = w.bytes ++ (contents ws ++ stale) := by
        rw [contents, List.flatMap_cons, List.append_assoc]
        rfl
      rw [hsplit, readAll_of_record (w.reads _), List.drop_left' rfl, ih, Option.map_map]
      rfl

/-- Exactly what was written is read if nothing is read from what is behind it. -/
theorem readAll_append_iff (ws : List (Written r)) (stale : List UInt8) :
    readAll r (contents ws ++ stale) = some (items ws) ↔ r.read stale = .short := by
  rw [readAll_append, ← readAll_eq_nil_iff]
  cases readAll r stale with
  | none => simp
  | some l => simp

end RecordFile
