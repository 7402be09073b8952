import Gufi.TraceScout

/-!
# Traces that are streamed and traces that are read twice

Both scouts skip empty lines, and count and keep the others. The reader of a seekable trace goes
over the file again and takes an empty line for the end of the stanza. So both lead to the same
stanzas exactly if nothing but empty lines follows an empty line in a stanza.
-/

namespace Gufi.Trace

open TextLines

section Stanzas

variable (sta : ScoutTraceArgs)

/-- The stanzas of the lines behind a directory line, with all lines that stand in them: `body` are
the ones already seen. A stanza with a bad line is not processed, and none behind it. -/
def stanzasBehind : Bytes → List Bytes → List Bytes → List (Bytes × List Bytes)
  | dir, body, [] => [(dir, body)]
  | dir, body, line :: lines =>
    if line = [] then stanzasBehind dir (body ++ [line]) lines
    else match sta.lineKind line with
      | .bad => []
      | .directory => (dir, body) :: stanzasBehind line [] lines
      | _ => stanzasBehind dir (body ++ [line]) lines

/-- The stanzas of a trace. -/
def stanzas (lines : List Bytes) : List (Bytes × List Bytes) :=
  match lines with
  | [] => []
  | line :: lines =>
    if line = [] then []
    else match sta.lineKind line with
      | .directory => stanzasBehind sta line [] lines
      | _ => []

end Stanzas

section Blank

variable {α : Type*} {p : α → Bool}

/-- Taking as many as there are does not shorten the first run. -/
theorem takeWhile_take_countP (body rest : List α) :
    ((body ++ rest).take (body.countP p)).takeWhile p = body.takeWhile p := by
  induction body with
  | nil => simp
  | cons a body ih =>
      by_cases ha : p a = true
      · rw [List.countP_cons_of_pos ha, List.cons_append, List.take_succ_cons,
          List.takeWhile_cons_of_pos ha, List.takeWhile_cons_of_pos ha, ih]
      · rw [List.takeWhile_cons_of_neg ha, List.cons_append]
        cases List.countP p (a :: body) with
        | zero => rfl
        | succ n => rw [List.take_succ_cons, List.takeWhile_cons_of_neg ha]

theorem takeWhile_eq_filter_iff {l : List α} :
    l.takeWhile p = l.filter p ↔ l.Pairwise fun a b => p b = true → p a = true := by
  induction l with
  | nil => simp
  | cons a l ih =>
      rw [List.pairwise_cons]
      by_cases ha : p a = true
      · rw [List.takeWhile_cons_of_pos ha, List.filter_cons_of_pos ha, List.cons.injEq, ih]
        simp [ha]
      · rw [List.takeWhile_cons_of_neg ha, List.filter_cons_of_neg ha, eq_comm,
          List.filter_eq_nil_iff]
        constructor
        · intro hnone
          refine ⟨fun b hb hpb => absurd hpb (hnone b hb), ?_⟩
          exact List.pairwise_of_forall_mem_list fun b _ c hc hpc => absurd hpc (hnone c hc)
        · rintro ⟨hall, -⟩ b hb hpb
          exact ha (hall b hb hpb)

end Blank

section Scouts

variable {sta : ScoutTraceArgs} {file : Bytes}

def notBlank (line : Bytes) : Bool := line ≠ []

theorem stanzaLines_eq (entries offset : ℕ) : stanzaLines file entries offset =
    (((readUpTo 10 file file.length offset).map Prod.fst).take entries).takeWhile notBlank := by
  induction entries generalizing offset with
  | zero => simp [stanzaLines]
  | succ entries ih =>
      rw [stanzaLines]
      cases hread : readAt 10 file offset with
      | none =>
          have hnil : readUpTo 10 file file.length offset = [] :=
            readUpTo_of_le (readAt_eq_none_iff.mp hread)
          simp [hnil]
      | some r =>
          obtain ⟨line, next⟩ := r
          have hlt : offset < file.length := by
            have := readAt_eq_some hread
            omega
          rw [readUpTo_cons hread hlt, List.map_cons, List.take_succ_cons]
          by_cases hline : line = []
          · simp [hline, notBlank]
          · have hpos : notBlank line = true := by simpa [notBlank] using hline
            rw [List.takeWhile_cons_of_pos hpos]
            simp [hline, ih]

/-- What the stream's scout keeps of a stanza are the lines that are not empty. -/
theorem scoutStreamLoop_eq (lines : List Bytes) {work : Row} {body : List Bytes}
    (hbody : work.entryLines = body.filter notBlank) (external : ℕ) :
    (scoutStreamLoop sta work external lines).1.map Row.streamStanza =
      (stanzasBehind sta work.line body lines).map fun s => (s.1, s.2.filter notBlank) := by
  induction lines generalizing work body external with
  | nil => simp [scoutStreamLoop, stanzasBehind, Row.streamStanza, hbody]
  | cons line lines ih =>
      by_cases hline : line = []
      · have hskip : work.entryLines = (body ++ [line]).filter notBlank := by
          simp [hbody, hline, notBlank]
        simpa [scoutStreamLoop, stanzasBehind, hline] using ih hskip external
      · have hkeep : work.entryLines ++ [line] = (body ++ [line]).filter notBlank := by
          simp [hbody, hline, notBlank]
        rw [scoutStreamLoop, stanzasBehind, if_neg hline, if_neg hline]
        cases hkind : sta.lineKind line with
        | bad => rfl
        | directory =>
            have hnew := @ih (Row.init line 0) [] rfl 0
            simp only [List.map_cons, hnew]
            simp [Row.streamStanza, Row.init, hbody]
        | external =>
            exact @ih { work with entryLines := work.entryLines ++ [line] } _ hkeep _
        | entry =>
            exact @ih { work with
              entries := work.entries + 1
              entryLines := work.entryLines ++ [line] } _ hkeep _

/-- A row has the number of the lines seen that are not empty, and the offset of the first. -/
theorem stanza_eq {work : Row} {body rest : List Bytes} {external : ℕ}
    (hcount : work.entries + external = body.countP notBlank)
    (hoffset : (readUpTo 10 file file.length work.offset).map Prod.fst = body ++ rest) :
    Row.stanza file { work with entries := work.entries + external } =
      (work.line, body.takeWhile notBlank) := by
  rw [Row.stanza, stanzaLines_eq, hcount, hoffset, takeWhile_take_countP]

/-- What is read again of a stanza are the lines before the first that is empty. -/
theorem scoutTraceLoop_eq (lines : List (Bytes × ℕ)) {work : Row} {body : List Bytes}
    {external offset : ℕ} (hcount : work.entries + external = body.countP notBlank)
    (hoffset : (readUpTo 10 file file.length work.offset).map Prod.fst =
      body ++ lines.map Prod.fst)
    (hlines : readUpTo 10 file file.length offset = lines) :
    (scoutTraceLoop sta work external lines).1.map (Row.stanza file) =
      (stanzasBehind sta work.line body (lines.map Prod.fst)).map
        fun s => (s.1, s.2.takeWhile notBlank) := by
  induction lines generalizing work body external offset with
  | nil =>
      rw [scoutTraceLoop, List.map_nil, stanzasBehind, List.map_singleton, List.map_singleton,
        stanza_eq hcount hoffset]
  | cons first lines ih =>
      obtain ⟨line, next⟩ := first
      have hnext : readUpTo 10 file file.length next = lines := (readUpTo_eq_cons hlines).2
      have hseen : (readUpTo 10 file file.length work.offset).map Prod.fst =
          body ++ [line] ++ lines.map Prod.fst := by
        simp [hoffset]
      rw [List.map_cons, scoutTraceLoop, stanzasBehind]
      by_cases hline : line = []
      · have hskip : work.entries + external = (body ++ [line]).countP notBlank := by
          simp [hcount, hline, notBlank]
        rw [if_pos hline, if_pos hline]
        exact ih hskip hseen hnext
      · have hpos : notBlank line = true := by simpa [notBlank] using hline
        have hmore : work.entries + external + 1 = (body ++ [line]).countP notBlank := by
          simp [hcount, hpos]
        rw [if_neg hline, if_neg hline]
        cases sta.lineKind line with
        | bad => rfl
        | directory =>
            have hempty : (readUpTo 10 file file.length next).map Prod.fst =
                [] ++ lines.map Prod.fst := by
              rw [hnext, List.nil_append]
            have hnew := @ih (Row.init line next) [] 0 next rfl hempty hnext
            simp only [List.map_cons, stanza_eq hcount hoffset]
            exact congrArg _ hnew
        | external => exact ih (by omega) hseen hnext
        | entry =>
            have hentry : work.entries + 1 + external = (body ++ [line]).countP notBlank := by
              omega
            exact @ih { work with entries := work.entries + 1 } _ _ _ hentry hseen hnext

end Scouts

section Agreement

variable (sta : ScoutTraceArgs) (file : Bytes)

theorem streamedStanzas_eq : streamedStanzas sta file =
    (stanzas sta ((readUpTo 10 file file.length 0).map Prod.fst)).map
      fun s => (s.1, s.2.filter notBlank) := by
  rw [streamedStanzas]
  cases (readUpTo 10 file file.length 0).map Prod.fst with
  | nil => rfl
  | cons line lines =>
      rw [scoutStream, stanzas]
      by_cases hline : line = []
      · rw [if_pos hline, if_pos hline]
        rfl
      · rw [if_neg hline, if_neg hline]
        cases sta.lineKind line with
        | directory => exact @scoutStreamLoop_eq sta lines (Row.init line 0) [] rfl 0
        | _ => rfl

theorem seekableStanzas_eq : seekableStanzas sta file =
    (stanzas sta ((readUpTo 10 file file.length 0).map Prod.fst)).map
      fun s => (s.1, s.2.takeWhile notBlank) := by
  rw [seekableStanzas, scoutTrace, if_neg (Nat.not_lt_zero _)]
  cases hlines : readUpTo 10 file file.length 0 with
  | nil => rfl
  | cons first lines =>
      obtain ⟨line, next⟩ := first
      have hnext : readUpTo 10 file file.length next = lines := (readUpTo_eq_cons hlines).2
      have hempty : (readUpTo 10 file file.length next).map Prod.fst =
          [] ++ lines.map Prod.fst := by
        rw [hnext, List.nil_append]
      rw [List.map_cons, stanzas]
      by_cases hline : line = []
      · simp [hline]
      · simp only [if_neg hline]
        cases sta.lineKind line with
        | directory =>
            exact @scoutTraceLoop_eq sta file lines (Row.init line next) [] 0 next rfl hempty hnext
        | _ => rfl

/-- A directory, an empty line and a file. -/
def blankTrace : Bytes :=
  [48, 48, 48, 49, 47, fielddelim, 100, 10] ++ [10] ++
    [48, 48, 48, 50, 47, 97, fielddelim, 102, 10]

end Agreement

end Gufi.Trace
