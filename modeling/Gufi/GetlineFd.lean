import Gufi.ByteBuffer
import Gufi.Schema
import Gufi.TextLines

/-!
# Reading lines from a file descriptor

`getline_fd` fills its buffer with what `pread` returns, or with one byte after the other from a
descriptor that cannot seek, until it has seen a newline. What was read behind the newline is left
to the next call, which reads it again. A write outside of the buffer ends the model.
-/

namespace Gufi.GetlineFd

open TextLines

section Program

def EIO : ℤ := 5

def EINVAL : ℤ := 22

/-- The file behind the descriptor. Call number `k` of `pread` returns `short k` bytes if there are
as many and as many were asked for. Fresh memory holds any bytes. -/
structure Input where
  content : Bytes
  short : ℕ → ℕ
  fresh : ℕ → UInt8

structure Fd where
  pos : ℕ
  calls : ℕ

/-- `*lineptr` and `*n` -/
structure LineBuf where
  lineptr : Option Bytes
  n : ℕ

variable (inp : Input)

/-- `pread`, which returns at least one byte before the end of the file. -/
def pread (fd : Fd) (count offset : ℕ) : Bytes × Fd :=
  ((inp.content.drop offset).take (min count (max 1 (inp.short fd.calls))),
    { fd with calls := fd.calls + 1 })

def read (fd : Fd) (count : ℕ) : Bytes × Fd :=
  let bytes := (inp.content.drop fd.pos).take count
  (bytes, { fd with pos := fd.pos + bytes.length })

/-- Behind the old bytes, memory is fresh. -/
def realloc (b : Bytes) (n : ℕ) : Bytes :=
  b.take n ++ ((List.range n).map inp.fresh).drop b.length

/-- Where the next byte is in the file. -/
def position (offset : Option ℕ) (fd : Fd) (r : ℕ) : ℕ :=
  match offset with
  | some offset => offset + r
  | none => fd.pos

/-- The bytes that are asked for. -/
def request (offset : Option ℕ) (n r : ℕ) : ℕ := if offset.isSome then n - r else 1

def readNext (offset : Option ℕ) (fd : Fd) (n r : ℕ) : Bytes × Fd :=
  match offset with
  | some offset => pread inp fd (n - r) (offset + r)
  | none => read inp fd 1

/-- What a read returns is the next part of the file, as much as was asked for at most, and
nothing only at the end. -/
structure ReadsNext (offset : Option ℕ) (fd : Fd) (r count : ℕ) (data : Bytes) (fd' : Fd) :
    Prop where
  isPrefix : data <+: inp.content.drop (position offset fd r)
  length : data.length ≤ count
  atEnd : data = [] → inp.content.drop (position offset fd r) = []
  position : position offset fd' (r + data.length) = position offset fd r + data.length

theorem readsNext (offset : Option ℕ) (fd : Fd) {n r : ℕ} (h : r < n) :
    ReadsNext inp offset fd r (request offset n r) (readNext inp offset fd n r).1
      (readNext inp offset fd n r).2 := by
  have htake : ∀ (rest : Bytes) (count : ℕ), 1 ≤ count → rest.take count = [] → rest = [] :=
    fun rest count hcount hnil => (List.take_eq_nil_iff.mp hnil).resolve_left (by omega)
  cases offset with
  | some offset =>
      refine ⟨List.take_prefix _ _, ?_, htake _ _ ?_, (Nat.add_assoc _ _ _).symm⟩
      · exact (List.length_take_le _ _).trans (min_le_left _ _)
      · exact le_min (Nat.sub_pos_of_lt h) (le_max_left _ _)
  | none => exact ⟨List.take_prefix _ _, List.length_take_le _ _, htake _ _ le_rfl, rfl⟩

/-- The locals of `getline_fd` behind its loop. -/
structure Locals where
  buf : Bytes
  n : ℕ
  r : ℕ
  found : Bool
  fd : Fd

/-- The buffer gets twice its size if it is full. A file has fewer than `2 ^ 63` bytes, so this does
not overflow. -/
def grow (buf : Bytes) (n r : ℕ) : Bytes × ℕ :=
  if n ≤ r then (realloc inp buf (2 * n), 2 * n) else (buf, n)

/-- The loop; `none` if there is a write outside of the buffer. -/
def loop (offset : Option ℕ) (buf : Bytes) (n r : ℕ) (fd : Fd) : Option Locals :=
  let mem := (grow inp buf n r).1
  let size := (grow inp buf n r).2
  let next := readNext inp offset fd size r
  if r < size ∧ r + request offset size r ≤ mem.length then
    if next.1 = [] then some ⟨mem, size, r, false, next.2⟩
    else
      let filled := ByteBuffer.put mem r next.1
      if 10 ∈ next.1 then
        let newline := r + next.1.idxOf 10
        some ⟨filled.set newline 0, size, newline, true, next.2⟩
      else loop offset filled size (r + next.1.length) next.2
  else none
termination_by inp.content.length - position offset fd r
decreasing_by
  rename_i h hdata _
  have hread : ReadsNext inp offset fd r _ next.1 next.2 := readsNext inp offset fd h.1
  have hlen : 0 < next.1.length := List.length_pos_iff.mpr hdata
  have hle : next.1.length ≤ inp.content.length - position offset fd r := by
    rw [← List.length_drop]
    exact hread.isPrefix.length_le
  have hpos : position offset next.2 (r + next.1.length) = _ := hread.position
  change inp.content.length - position offset next.2 (r + next.1.length) < _
  omega

/-- What a call leaves: the value it returns, the buffer, the descriptor and the offset. -/
structure Result where
  rc : ℤ
  buf : LineBuf
  fd : Fd
  offset : Option ℕ

/-- `getline_fd` on an open descriptor. -/
def getlineFd (buf : LineBuf) (fd : Fd) (offset : Option ℕ) (defaultSize : ℕ) : Option Result :=
  if defaultSize < 1 then some ⟨-EINVAL, buf, fd, offset⟩
  else
    let n := if buf.n = 0 then defaultSize else buf.n
    let mem := buf.lineptr.getD (realloc inp [] n)
    (loop inp offset mem n 0 fd).bind fun l =>
      if l.r = 0 ∧ l.found = false then some ⟨- EIO, ⟨some l.buf, l.n⟩, l.fd, offset⟩
      else if l.r < l.buf.length then
        some ⟨l.r, ⟨some (l.buf.set l.r 0), l.n⟩, l.fd,
          offset.map fun o => o + (l.r + if l.found then 1 else 0)⟩
      else none

def getlineFdSeekable (buf : LineBuf) (fd : Fd) (offset : Option ℕ) (defaultSize : ℕ) :
    Option Result :=
  if offset.isNone then some ⟨-EINVAL, buf, fd, offset⟩
  else getlineFd inp buf fd offset defaultSize

def getlineFdStream (buf : LineBuf) (fd : Fd) (defaultSize : ℕ) : Option Result :=
  getlineFd inp buf fd none defaultSize

end Program

section Loop

variable {inp : Input} {offset : Option ℕ}

@[simp] theorem length_realloc (b : Bytes) (n : ℕ) : (realloc inp b n).length = n := by
  simp only [realloc, List.length_append, List.length_take, List.length_drop, List.length_map,
    List.length_range]
  omega

theorem take_realloc {b : Bytes} {n r : ℕ} (hr : r ≤ b.length) (hn : b.length ≤ n) :
    (realloc inp b n).take r = b.take r := by
  rw [realloc, List.take_of_length_le hn, List.take_append_of_le_length hr]

/-- What was read of a line that starts at `start` is in front of the buffer. -/
structure Reading (inp : Input) (offset : Option ℕ) (start : ℕ) (buf : Bytes) (n r : ℕ) (fd : Fd) :
    Prop where
  size : buf.length = n
  pos : 1 ≤ n
  filled : r ≤ n
  position : position offset fd r = start + r
  line : 10 ∉ buf.take r
  rest : inp.content.drop start = buf.take r ++ inp.content.drop (start + r)

/-- The line is in the buffer, with room for the terminator, and `next` is the offset behind it. -/
structure Locals.Holds (l : Locals) (offset : Option ℕ) (start : ℕ) (line : Bytes) (next : ℕ) :
    Prop where
  size : l.buf.length = l.n
  r : l.r = line.length
  room : l.r < l.n
  text : l.buf.take l.r = line
  after : next = start + (l.r + if l.found then 1 else 0)
  notEnd : ¬(l.r = 0 ∧ l.found = false)
  position : offset = none → l.fd.pos = next

/-- Nothing was left to read. -/
structure Locals.AtEnd (l : Locals) (offset : Option ℕ) (start : ℕ) : Prop where
  size : l.buf.length = l.n
  pos : 1 ≤ l.n
  nothing : l.r = 0 ∧ l.found = false
  position : offset = none → l.fd.pos = start

theorem Reading.grow {start : ℕ} {buf : Bytes} {n r : ℕ} {fd : Fd}
    (h : Reading inp offset start buf n r fd) :
    Reading inp offset start (grow inp buf n r).1 (grow inp buf n r).2 r fd ∧
      r < (grow inp buf n r).2 := by
  unfold GetlineFd.grow
  by_cases hle : n ≤ r
  · have hr := h.filled
    have hn := h.pos
    have htake : (realloc inp buf (2 * n)).take r = buf.take r :=
      take_realloc (by rw [h.size]; exact hr) (by rw [h.size]; omega)
    rw [if_pos hle]
    exact ⟨⟨length_realloc _ _, by simp only; omega, by simp only; omega, h.position,
      htake ▸ h.line, htake ▸ h.rest⟩, by simp only; omega⟩
  · rw [if_neg hle]
    exact ⟨h, not_le.mp hle⟩

variable {start n r : ℕ} {buf data : Bytes} {fd fd' : Fd}

/-- Bytes without a newline are put behind those that were read. -/
theorem Reading.put (h : Reading inp offset start buf n r fd) (hroom : r + data.length ≤ n)
    (hdata : data <+: inp.content.drop (start + r)) (hnew : 10 ∉ data)
    (hpos : GetlineFd.position offset fd' (r + data.length) = start + r + data.length) :
    Reading inp offset start (ByteBuffer.put buf r data) n (r + data.length) fd' := by
  have hput : r + data.length ≤ buf.length := hroom.trans_eq h.size.symm
  have htake : (ByteBuffer.put buf r data).take (r + data.length) = buf.take r ++ data := by
    rw [ByteBuffer.take_put hput le_rfl, List.take_length]
  refine ⟨(ByteBuffer.length_put hput).trans h.size, h.pos, hroom, ?_, ?_, ?_⟩
  · rw [hpos, Nat.add_assoc]
  · rw [htake, List.mem_append]
    rintro (hmem | hmem)
    · exact h.line hmem
    · exact hnew hmem
  · have hsplit := List.prefix_iff_eq_append.mp hdata
    rw [List.drop_drop] at hsplit
    rw [htake, h.rest, List.append_assoc, ← hsplit, Nat.add_assoc]

theorem Reading.request_le (h : Reading inp offset start buf n r fd) (hlt : r < n) :
    r + request offset n r ≤ buf.length := by
  rw [h.size, request]
  split <;> omega

/-- The newline is in what was read last. -/
theorem Reading.holds (h : Reading inp offset start buf n r fd)
    (hread : ReadsNext inp offset fd r (request offset n r) data fd') (hlt : r < n)
    (hmem : 10 ∈ data) :
    ∃ line next, readAt 10 inp.content start = some (line, next) ∧
      (Locals.mk ((ByteBuffer.put buf r data).set (r + data.idxOf 10) 0) n (r + data.idxOf 10) true
        fd').Holds offset start line next := by
  obtain ⟨part, behind, hdata, hpart⟩ := List.eq_append_cons_of_mem hmem
  have hidx : data.idxOf 10 = part.length := by
    rw [hdata, List.idxOf_append_of_notMem hpart, List.idxOf_cons_self, Nat.add_zero]
  have hlen : data.length = part.length + (behind.length + 1) := by
    rw [hdata, List.length_append, List.length_cons]
  have hroom : r + data.length ≤ buf.length :=
    (Nat.add_le_add_left hread.length r).trans (h.request_le hlt)
  have hsize := h.size
  have hput : (ByteBuffer.put buf r data).take (r + part.length) = buf.take r ++ part := by
    rw [ByteBuffer.take_put hroom (by omega), hdata, List.take_left]
  have hr : (buf.take r).length = r := List.length_take_of_le (by omega)
  have hline : 10 ∉ buf.take r ++ part := by
    rw [List.mem_append]
    exact fun hmem => hmem.elim h.line hpart
  obtain ⟨rest, hrest⟩ := hread.isPrefix
  rw [h.position] at hrest
  have hdrop : inp.content.drop start = (buf.take r ++ part) ++ 10 :: (behind ++ rest) := by
    rw [h.rest, ← hrest, hdata]
    simp only [List.append_assoc, List.cons_append]
  refine ⟨_, _, readAt_of_drop_eq_cons hline hdrop, ?_, ?_, ?_, ?_, ?_, by simp, ?_⟩
  · rw [List.length_set, ByteBuffer.length_put hroom, hsize]
  · rw [List.length_append, hr, hidx]
  · change r + data.idxOf 10 < n
    rw [hidx]
    omega
  · simp only [hidx]
    rw [List.take_set, List.set_eq_of_length_le (List.length_take_le _ _), hput]
  · rw [List.length_append, hr, hidx]
    rfl
  · -- the stream reads one byte, so nothing was read behind the newline
    rintro rfl
    have hone : data.length ≤ 1 := hread.length
    have hpos : fd'.pos = GetlineFd.position none fd r + data.length := hread.position
    rw [hpos, h.position, List.length_append, hr]
    omega

/-- The loop does not leave the buffer and stops behind the line, or at the end of the file. -/
theorem loop_spec (h : Reading inp offset start buf n r fd) :
    ∃ l, loop inp offset buf n r fd = some l ∧
      ((readAt 10 inp.content start = none ∧ l.AtEnd offset start) ∨
        ∃ line next, readAt 10 inp.content start = some (line, next) ∧
          l.Holds offset start line next) := by
  fun_induction loop inp offset buf n r fd with
  | case1 buf n r fd mem size next hroom hdata =>
      obtain ⟨hgrown, hlt⟩ := h.grow
      have hread : ReadsNext inp offset fd r _ next.1 next.2 := readsNext inp offset fd hroom.1
      have hend := hread.atEnd hdata
      rw [h.position] at hend
      have hpos : position offset next.2 r = start + r := by
        have := hread.position
        rwa [hdata, h.position] at this
      refine ⟨_, rfl, ?_⟩
      have hrest : inp.content.drop start = mem.take r := by
        rw [hgrown.rest, hend, List.append_nil]
      have hlen : (mem.take r).length = r :=
        List.length_take_of_le (hgrown.filled.trans_eq hgrown.size.symm)
      rcases Nat.eq_zero_or_pos r with rfl | hr
      · refine Or.inl ⟨?_, hgrown.size, hgrown.pos, ⟨rfl, rfl⟩, ?_⟩
        · exact readAt_eq_none_iff.mpr (List.drop_eq_nil_iff.mp hrest)
        · rintro rfl
          exact hpos
      · have hne : mem.take r ≠ [] := List.ne_nil_of_length_pos (hlen.symm ▸ hr)
        refine Or.inr ⟨_, _, readAt_of_drop_eq hgrown.line hrest hne, hgrown.size, hlen.symm, hlt,
          rfl, by rw [hlen]; rfl, fun h => hr.ne' h.1, ?_⟩
        rintro rfl
        rw [hlen]
        exact hpos
  | case2 buf n r fd mem size next hroom hdata filled hmem newline =>
      have hread : ReadsNext inp offset fd r _ next.1 next.2 := readsNext inp offset fd hroom.1
      have hread' : ReadsNext inp offset fd r (request offset size r) next.1 next.2 := hread
      exact ⟨_, rfl, Or.inr (h.grow.1.holds hread' hroom.1 hmem)⟩
  | case3 buf n r fd mem size next hroom hdata filled hmem ih =>
      obtain ⟨hgrown, hlt⟩ := h.grow
      have hread : ReadsNext inp offset fd r (request offset size r) next.1 next.2 :=
        readsNext inp offset fd hroom.1
      have hprefix := hread.isPrefix
      have hpos := hread.position
      rw [h.position] at hprefix hpos
      refine ih (hgrown.put ?_ hprefix hmem hpos)
      exact (Nat.add_le_add_left hread.length r).trans
        ((hgrown.request_le hlt).trans_eq hgrown.size)
  | case4 buf n r fd mem size hroom =>
      obtain ⟨hgrown, hlt⟩ := h.grow
      exact absurd ⟨hlt, hgrown.request_le hlt⟩ hroom

end Loop

section Calls

variable (inp : Input)

/-- What is kept between two calls. -/
structure Reader where
  buf : LineBuf
  fd : Fd
  offset : Option ℕ

/-- A line is read with a buffer or without one, whose capacity is at least 1. -/
def LineBuf.Valid (buf : LineBuf) : Prop := ∀ b ∈ buf.lineptr, b.length = buf.n ∧ 1 ≤ buf.n

def Result.reader (res : Result) : Reader := ⟨res.buf, res.fd, res.offset⟩

def seekable (defaultSize : ℕ) (s : Reader) : Option Result :=
  getlineFdSeekable inp s.buf s.fd s.offset defaultSize

def stream (defaultSize : ℕ) (s : Reader) : Option Result :=
  getlineFdStream inp s.buf s.fd defaultSize

/-- Call number `k`. -/
def nthCall (call : Reader → Option Result) : ℕ → Reader → Option Result
  | 0, s => call s
  | k + 1, s => (call s).bind fun res => nthCall call k res.reader

/-- The length of the line is returned, and the terminated line is in the buffer. -/
structure Returns (res : Result) (line : Bytes) : Prop where
  rc : res.rc = line.length
  valid : res.buf.Valid
  text : ∃ b, res.buf.lineptr = some b ∧ b.take line.length = line ∧ b[line.length]? = some 0

/-- What a call returns if it starts at an offset. -/
def ReturnsAt (res : Result) (offset : ℕ → Prop) : Option (Bytes × ℕ) → Prop
  | some (line, next) => Returns res line ∧ offset next
  | none => res.rc < 0

variable {inp}

theorem getlineFd_spec {buf : LineBuf} (hbuf : buf.Valid) {fd : Fd} {offset : Option ℕ}
    {defaultSize : ℕ} (hsize : 1 ≤ defaultSize) {start : ℕ}
    (hstart : position offset fd 0 = start) :
    ∃ res, getlineFd inp buf fd offset defaultSize = some res ∧ res.buf.Valid ∧
      ((readAt 10 inp.content start = none ∧ res.rc < 0 ∧ res.offset = offset ∧
          position offset res.fd 0 = start) ∨
        ∃ line next, readAt 10 inp.content start = some (line, next) ∧ Returns res line ∧
          res.offset = offset.map (fun _ => next) ∧ (offset = none → res.fd.pos = next)) := by
  have hreading : Reading inp offset start
      (buf.lineptr.getD (realloc inp [] (if buf.n = 0 then defaultSize else buf.n)))
      (if buf.n = 0 then defaultSize else buf.n) 0 fd := by
    refine ⟨?_, ?_, Nat.zero_le _, hstart, by simp, by simp⟩
    · cases hptr : buf.lineptr with
      | none => exact length_realloc _ _
      | some b =>
          obtain ⟨hlen, hpos⟩ := hbuf b hptr
          rw [if_neg (by omega)]
          exact hlen
    · split <;> omega
  obtain ⟨l, hl, hcases⟩ := loop_spec hreading
  rw [getlineFd, if_neg (by omega)]
  simp only [hl, Option.bind_some]
  rcases hcases with ⟨hnone, hend⟩ | ⟨line, next, hread, hholds⟩
  · rw [if_pos hend.nothing]
    refine ⟨_, rfl, ?_, Or.inl ⟨hnone, ?_, rfl, ?_⟩⟩
    · rintro b ⟨⟩
      exact ⟨hend.size, hend.pos⟩
    · simp [ EIO]
    · cases offset with
      | none => exact hend.position rfl
      | some o => exact hstart
  · have hroom : l.r < l.buf.length := hholds.room.trans_eq hholds.size.symm
    rw [if_neg hholds.notEnd, if_pos hroom]
    have hvalid : LineBuf.Valid ⟨some (l.buf.set l.r 0), l.n⟩ := by
      rintro b ⟨⟩
      exact ⟨List.length_set.trans hholds.size, Nat.one_le_of_lt hholds.room⟩
    refine ⟨_, rfl, hvalid, Or.inr ⟨line, next, hread, ⟨?_, hvalid, _, rfl, ?_, ?_⟩, ?_, ?_⟩⟩
    · rw [hholds.r]
    · rw [← hholds.r, List.take_set, List.set_eq_of_length_le (List.length_take_le _ _),
        hholds.text]
    · rw [← hholds.r, List.getElem?_set_self hroom]
    · cases offset with
      | none => rfl
      | some o =>
          have ho : o = start := hstart
          rw [hholds.after, ← ho]
          rfl
    · exact hholds.position

/-- The lines from an offset on, each with the offset behind it. -/
def Input.linesFrom (inp : Input) (offset : ℕ) : List (Bytes × ℕ) :=
  readUpTo 10 inp.content inp.content.length offset

/-- The calls with an offset, or those of the stream. -/
def CallsGetline (inp : Input) (defaultSize : ℕ) (hasOffset : Bool)
    (call : Reader → Option Result) : Prop :=
  ∀ s : Reader, s.offset.isSome = hasOffset →
    call s = getlineFd inp s.buf s.fd s.offset defaultSize

theorem callsGetline_seekable (inp : Input) (defaultSize : ℕ) :
    CallsGetline inp defaultSize true (seekable inp defaultSize) := by
  intro s hs
  rw [seekable, getlineFdSeekable, if_neg]
  rw [Option.isNone_eq_false_iff.mpr hs]
  exact Bool.false_ne_true

theorem callsGetline_stream (inp : Input) (defaultSize : ℕ) :
    CallsGetline inp defaultSize false (stream inp defaultSize) := by
  intro s hs
  obtain ⟨buf, fd, offset⟩ := s
  obtain rfl : offset = none := by simpa using hs
  rfl

/-- A reader that will read the lines from `start` on. -/
structure Reader.Ready (s : Reader) (hasOffset : Bool) (start : ℕ) : Prop where
  offset : s.offset.isSome = hasOffset
  valid : s.buf.Valid
  start : position s.offset s.fd 0 = start

variable {call : Reader → Option Result} {defaultSize : ℕ} {hasOffset : Bool} {s : Reader}
  {start : ℕ}

/-- A call returns the first line and goes on with the others. -/
theorem call_step (hcall : CallsGetline inp defaultSize hasOffset call) (hsize : 1 ≤ defaultSize)
    (hs : s.Ready hasOffset start) :
    ∃ res next, call s = some res ∧ res.reader.Ready hasOffset next ∧
      inp.linesFrom next = (inp.linesFrom start).tail ∧
      ReturnsAt res (position res.offset res.fd 0 = ·) (inp.linesFrom start).head? := by
  obtain ⟨res, hres, hvalid, hcases⟩ := getlineFd_spec hs.valid hsize hs.start
  rw [← hcall s hs.offset] at hres
  rcases hcases with ⟨hnone, hrc, hsame, hpos⟩ | ⟨line, next, hread, hreturns, hnext, hstream⟩
  · have hlines : inp.linesFrom start = [] := readUpTo_of_le (readAt_eq_none_iff.mp hnone)
    refine ⟨res, start, hres, ⟨?_, hvalid, ?_⟩, ?_, ?_⟩
    · rw [Result.reader, hsame, hs.offset]
    · rw [Result.reader, hsame, hpos]
    · rw [hlines, List.tail_nil]
    · rw [hlines, List.head?_nil]
      exact hrc
  · obtain ⟨-, hlt, hle, -⟩ := readAt_eq_some hread
    have hlines : inp.linesFrom start = (line, next) :: inp.linesFrom next :=
      readUpTo_cons hread (by omega)
    have hpos : position res.offset res.fd 0 = next := by
      cases ho : s.offset with
      | none =>
          rw [hnext, ho]
          exact hstream ho
      | some o =>
          rw [hnext, ho]
          rfl
    refine ⟨res, next, hres, ⟨?_, hvalid, hpos⟩, ?_, ?_⟩
    · rw [Result.reader, hnext, Option.isSome_map, hs.offset]
    · rw [hlines, List.tail_cons]
    · rw [hlines, List.head?_cons]
      exact ⟨hreturns, hpos⟩

theorem nthCall_spec (hcall : CallsGetline inp defaultSize hasOffset call)
    (hsize : 1 ≤ defaultSize) (k : ℕ) (hs : s.Ready hasOffset start) :
    ∃ res, nthCall call k s = some res ∧ res.offset.isSome = hasOffset ∧
      ReturnsAt res (position res.offset res.fd 0 = ·) (inp.linesFrom start)[k]? := by
  induction k generalizing s start with
  | zero =>
      obtain ⟨res, next, hres, hready, -, hreturns⟩ := call_step hcall hsize hs
      rw [List.head?_eq_getElem?] at hreturns
      exact ⟨res, hres, hready.offset, hreturns⟩
  | succ k ih =>
      obtain ⟨res, next, hres, hready, htail, -⟩ := call_step hcall hsize hs
      obtain ⟨res', hres', hrest⟩ := ih hready
      rw [htail, List.getElem?_tail] at hrest
      exact ⟨res', by rw [nthCall, hres, Option.bind_some, hres'], hrest⟩

/-- Call number `k` returns line number `k`, with the offset behind it, whatever `pread` returns,
and a negative value if there is none. The stream, whose position is the offset, returns the
same. -/
theorem getlineFd_lines {buf buf' : LineBuf} (hbuf : buf.Valid) (hbuf' : buf'.Valid)
    (hsize : 1 ≤ defaultSize) (fd : Fd) (calls offset k : ℕ) :
    (∃ res, nthCall (seekable inp defaultSize) k ⟨buf, fd, some offset⟩ = some res ∧
      ReturnsAt res (res.offset = some ·) (inp.linesFrom offset)[k]?) ∧
    ∃ res, nthCall (stream inp defaultSize) k ⟨buf', ⟨offset, calls⟩, none⟩ = some res ∧
      ReturnsAt res (res.fd.pos = ·) (inp.linesFrom offset)[k]? := by
  constructor
  · obtain ⟨res, hres, hsome, hreturns⟩ := nthCall_spec (callsGetline_seekable inp defaultSize)
      hsize k (s := ⟨buf, fd, some offset⟩) ⟨rfl, hbuf, rfl⟩
    obtain ⟨o, ho⟩ := Option.isSome_iff_exists.mp hsome
    refine ⟨res, hres, ?_⟩
    rw [ho] at hreturns ⊢
    simpa [position] using hreturns
  · obtain ⟨res, hres, hsome, hreturns⟩ := nthCall_spec (callsGetline_stream inp defaultSize)
      hsize k (s := ⟨buf', ⟨offset, calls⟩, none⟩) ⟨rfl, hbuf', rfl⟩
    have hnone : res.offset = none := by simpa using hsome
    refine ⟨res, hres, ?_⟩
    rw [hnone] at hreturns
    exact hreturns

/-- Two lines, the last one without a newline, and reads of three bytes at most. -/
def twoLines : Input := ⟨[97, 10, 98, 98], fun _ => 3, fun _ => 7⟩

theorem valid_oneByte : LineBuf.Valid ⟨some [7], 1⟩ := by
  rintro b ⟨⟩
  exact ⟨rfl, le_rfl⟩

theorem getlineFd_lines_twoLines :
    (∃ res, nthCall (seekable twoLines 512) 1 ⟨⟨some [7], 1⟩, ⟨0, 0⟩, some 0⟩ = some res ∧
      ReturnsAt res (res.offset = some ·) (twoLines.linesFrom 0)[1]?) ∧
    ∃ res, nthCall (stream twoLines 512) 1 ⟨⟨none, 0⟩, ⟨0, 0⟩, none⟩ = some res ∧
      ReturnsAt res (res.fd.pos = ·) (twoLines.linesFrom 0)[1]? :=
  getlineFd_lines valid_oneByte (fun _ hb => by cases hb) (by decide) ⟨0, 0⟩ 0 0 1

example : twoLines.linesFrom 0 = [([97], 2), ([98, 98], 4)] := by decide

end Calls

end Gufi.GetlineFd
