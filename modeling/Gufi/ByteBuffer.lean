import Mathlib.Data.List.Basic
import Mathlib.Tactic.Common

/-!
# Filling a buffer from the front

A buffer is a list of bytes of which a number are filled. Bytes are put behind the filled ones, by
`memcpy` or by `snprintf`, which also writes a NUL and leaves out what does not fit.
-/

namespace ByteBuffer

/-- `memcpy(&buf[pos], bytes, length)`. -/
def put (buf : List UInt8) (pos : ℕ) (bytes : List UInt8) : List UInt8 :=
  buf.take pos ++ (bytes ++ buf.drop (pos + bytes.length))

/-- `snprintf(&buf[pos], size, ..)`, where `text` is what is formatted. -/
def snprintf (buf : List UInt8) (pos size : ℕ) (text : List UInt8) : List UInt8 :=
  if size = 0 then buf else put buf pos (text.take (size - 1) ++ [0])

/-- The first bytes of the buffer are the content. -/
structure Filled (buf : List UInt8) (filled : ℕ) (content : List UInt8) : Prop where
  le_length : filled ≤ buf.length
  take : buf.take filled = content

section Put

variable {buf bytes text content : List UInt8} {pos size : ℕ}

theorem length_put (h : pos + bytes.length ≤ buf.length) :
    (put buf pos bytes).length = buf.length := by
  simp only [put, List.length_append, List.length_take, List.length_drop]
  omega

theorem take_put (h : pos + bytes.length ≤ buf.length) {k : ℕ} (hk : k ≤ bytes.length) :
    (put buf pos bytes).take (pos + k) = buf.take pos ++ bytes.take k := by
  have hlength : (buf.take pos).length = pos := by
    rw [List.length_take]
    omega
  have hdrop : pos + k - (buf.take pos).length = k := by omega
  rw [put, List.take_append, hdrop, List.take_append_of_le_length hk,
    List.take_of_length_le (by omega)]

theorem put_append {l r bytes : List UInt8} {k : ℕ} (hl : l.length = k) :
    put (l ++ r) k bytes = l ++ (bytes ++ r.drop bytes.length) := by
  rw [put, List.take_left' hl, ← List.drop_drop, List.drop_left' hl]

theorem Filled.length_eq (h : Filled buf pos content) : content.length = pos := by
  rw [← h.take, List.length_take]
  exact Nat.min_eq_left h.le_length

theorem Filled.put (h : Filled buf pos content) (hroom : pos + bytes.length ≤ buf.length) :
    Filled (put buf pos bytes) (pos + bytes.length) (content ++ bytes) where
  le_length := by rwa [length_put hroom]
  take := by rw [take_put hroom (Nat.le_refl _), h.take, List.take_length]

end Put

section Zeros

variable {content bytes text : List UInt8} {k size : ℕ}

/-- What is put behind the content of a buffer that is zero from there on. -/
theorem put_zeros : put (content ++ List.replicate k 0) content.length bytes =
    content ++ (bytes ++ List.replicate (k - bytes.length) 0) := by
  rw [put_append rfl, List.drop_replicate]

theorem snprintf_zeros (hsize : text.length < size) (hroom : text.length < k) :
    snprintf (content ++ List.replicate k 0) content.length size text =
      content ++ (text ++ List.replicate (k - text.length) 0) := by
  have hone : k - text.length = 1 + (k - (text ++ [0]).length) := by
    rw [List.length_append, List.length_singleton]
    omega
  rw [snprintf, if_neg (by omega), List.take_of_length_le (by omega), put_zeros, hone,
    List.replicate_add, List.append_assoc]
  rfl

end Zeros

section Snprintf

variable {buf text content : List UInt8} {pos size : ℕ}

theorem length_take_append_nul_le (hsize : size ≠ 0) :
    (text.take (size - 1) ++ [0]).length ≤ size := by
  simp only [List.length_append, List.length_take, List.length_singleton]
  omega

theorem length_snprintf (h : pos + size ≤ buf.length) :
    (snprintf buf pos size text).length = buf.length := by
  rw [snprintf]
  split
  · rfl
  · rename_i hsize
    have hle := @length_take_append_nul_le text size hsize
    exact length_put (by omega)

/-- What is filled is not written to. -/
theorem Filled.snprintf_keep (h : Filled buf pos content) (hroom : pos + size ≤ buf.length) :
    Filled (ByteBuffer.snprintf buf pos size text) pos content where
  le_length := by
    rw [length_snprintf hroom]
    omega
  take := by
    rw [ByteBuffer.snprintf]
    split
    · exact h.take
    · rename_i hsize
      have hle := @length_take_append_nul_le text size hsize
      have hput := @take_put buf (text.take (size - 1) ++ [0]) pos (by omega) 0 (Nat.zero_le _)
      rw [Nat.add_zero, List.take_zero, List.append_nil] at hput
      rw [hput, h.take]

theorem Filled.append (h : Filled buf pos content) (fresh : List UInt8) :
    Filled (buf ++ fresh) pos content where
  le_length := by
    have := h.le_length
    rw [List.length_append]
    omega
  take := by rw [List.take_append_of_le_length h.le_length, h.take]

/-- Text that fits with its NUL is written whole, and the NUL is not counted. -/
theorem Filled.snprintf (h : Filled buf pos content) (hroom : pos + size ≤ buf.length)
    (hfits : text.length < size) :
    Filled (snprintf buf pos size text) (pos + text.length) (content ++ text) where
  le_length := by
    rw [length_snprintf hroom]
    omega
  take := by
    have htext : text.take (size - 1) = text := List.take_of_length_le (by omega)
    have hput : pos + (text ++ [0]).length ≤ buf.length := by
      simp only [List.length_append, List.length_singleton]
      omega
    have hle : text.length ≤ (text ++ [0]).length := by simp
    rw [ByteBuffer.snprintf, if_neg (by omega), htext, take_put hput hle, h.take, List.take_left]

/-- Text that fits without its NUL loses its last byte to it. -/
theorem Filled.snprintf_full (h : Filled buf pos content) (hroom : pos + text.length ≤ buf.length)
    (hne : text ≠ []) :
    Filled (ByteBuffer.snprintf buf pos text.length text) (pos + text.length)
      (content ++ (text.dropLast ++ [0])) where
  le_length := by rwa [length_snprintf hroom]
  take := by
    have hlength : text.length ≠ 0 := by simpa using hne
    have hput : pos + (text.dropLast ++ [0]).length ≤ buf.length := by
      simp only [List.length_append, List.length_dropLast, List.length_singleton]
      omega
    have hle : text.length ≤ (text.dropLast ++ [0]).length := by
      simp only [List.length_append, List.length_dropLast, List.length_singleton]
      omega
    rw [ByteBuffer.snprintf, if_neg hlength, ← List.dropLast_eq_take, take_put hput hle, h.take,
      List.take_of_length_le]
    simp only [List.length_append, List.length_dropLast, List.length_singleton]
    omega

end Snprintf

end ByteBuffer
