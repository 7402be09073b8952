import Gufi.TraceScout

/-!
# A trace that is scouted in parts

`split_file` cuts a trace at directory lines. A scout of one part ends where the scout of the next
part starts, so together they find what one scout of the whole trace finds.
-/

namespace Gufi.Trace

open TextLines

variable {sta : ScoutTraceArgs} {file : Bytes} {a b start stop limit : ℕ}

/-- A directory line is read at the offset. -/
def StartsStanza (sta : ScoutTraceArgs) (file : Bytes) (offset : ℕ) : Prop :=
  ∃ line next, readAt 10 file offset = some (line, next) ∧ line ≠ [] ∧
    sta.lineKind line = .directory

/-- No line from the offset on is empty, and all have a valid prefix and a delimiter. -/
def WellFormed (sta : ScoutTraceArgs) (file : Bytes) (offset : ℕ) : Prop :=
  ∀ r ∈ readUpTo 10 file file.length offset, r.1 ≠ [] ∧ sta.lineKind r.1 ≠ .bad

/-- The ranges follow each other without gaps. -/
def Covers : ℕ → List (ℕ × ℕ) → ℕ → Prop
  | a, [], b => a = b
  | a, range :: ranges, b => range.1 = a ∧ a < range.2 ∧ Covers range.2 ranges b

section Boundaries

theorem StartsStanza.lt_length (h : StartsStanza sta file a) : a < file.length := by
  obtain ⟨line, next, hread, -⟩ := h
  by_contra hle
  rw [readAt_eq_none_iff.mpr (not_lt.mp hle)] at hread
  cases hread

theorem WellFormed.of_reaches (h : WellFormed sta file a) (hab : Reaches 10 file a b)
    (hb : b ≤ file.length) : WellFormed sta file b := by
  intro r hr
  apply h r
  rw [hab.readUpTo_append hb]
  exact List.mem_append_right _ hr

theorem stanzaEnd_eq_some {before : ℕ} (hwell : WellFormed sta file before)
    (h : stanzaEnd sta before (readUpTo 10 file file.length before) = some stop) :
    Reaches 10 file before stop ∧ StartsStanza sta file stop := by
  generalize hlines : readUpTo 10 file file.length before = lines at h
  induction lines generalizing before with
  | nil => cases h
  | cons first lines ih =>
      obtain ⟨line, next⟩ := first
      obtain ⟨hread, htail⟩ := readUpTo_eq_cons hlines
      have hnext : Next 10 file before next := ⟨line, hread⟩
      obtain ⟨hne, hbad⟩ := hwell (line, next) (by rw [hlines]; exact List.mem_cons_self ..)
      have hbehind : WellFormed sta file next :=
        hwell.of_reaches (Relation.ReflTransGen.single hnext) hnext.le_length
      rw [stanzaEnd, if_neg hne] at h
      cases hkind : sta.lineKind line with
      | bad => exact absurd hkind hbad
      | directory =>
          rw [hkind] at h
          obtain rfl := Option.some.inj h
          exact ⟨Relation.ReflTransGen.refl, line, next, hread, hne, hkind⟩
      | external =>
          rw [hkind] at h
          obtain ⟨hreaches, hstarts⟩ := ih hbehind htail h
          exact ⟨Relation.ReflTransGen.head hnext hreaches, hstarts⟩
      | entry =>
          rw [hkind] at h
          obtain ⟨hreaches, hstarts⟩ := ih hbehind htail h
          exact ⟨Relation.ReflTransGen.head hnext hreaches, hstarts⟩

/-- The end of a range is the start of a stanza, wherever in a line the search starts. -/
theorem findStanzaEnd_eq_some (hwell : WellFormed sta file a) (ha : a ≤ limit)
    (h : findStanzaEnd sta file limit = some stop) :
    Reaches 10 file a stop ∧ StartsStanza sta file stop ∧ limit < stop := by
  rw [findStanzaEnd] at h
  cases hread : readAt 10 file limit with
  | none =>
      have hnil : readUpTo 10 file file.length limit = [] :=
        readUpTo_of_le (readAt_eq_none_iff.mp hread)
      simp [hread, hnil, stanzaEnd] at h
  | some r =>
      obtain ⟨part, next⟩ := r
      rw [hread] at h
      have hlt := readAt_eq_some hread
      have hreaches : Reaches 10 file a next := reaches_of_readAt ha hread
      obtain ⟨hstop, hstarts⟩ :=
        stanzaEnd_eq_some (hwell.of_reaches hreaches hlt.2.2.1) h
      exact ⟨hreaches.trans hstop, hstarts, lt_of_lt_of_le hlt.2.1 hstop.le⟩

end Boundaries

section Scouts

theorem scoutTraceLoop_append {lines behind : List (Bytes × ℕ)} {line : Bytes} {next : ℕ}
    (hlines : ∀ r ∈ lines, sta.lineKind r.1 ≠ .bad) (hne : line ≠ [])
    (hkind : sta.lineKind line = .directory) (work : Row) (external : ℕ) :
    (scoutTraceLoop sta work external (lines ++ (line, next) :: behind)).1 =
      (scoutTraceLoop sta work external lines).1 ++
        (scoutTraceLoop sta (Row.init line next) 0 behind).1 := by
  induction lines generalizing work external with
  | nil => simp [scoutTraceLoop, hne, hkind]
  | cons first lines ih =>
      obtain ⟨first, offset⟩ := first
      have hrest := ih fun r hr => hlines r (List.mem_cons_of_mem _ hr)
      have hbad : sta.lineKind first ≠ .bad := hlines (first, offset) (List.mem_cons_self ..)
      rw [List.cons_append, scoutTraceLoop, scoutTraceLoop]
      by_cases hempty : first = []
      · rw [if_pos hempty, if_pos hempty, hrest]
      · rw [if_neg hempty, if_neg hempty]
        cases hfirst : sta.lineKind first with
        | bad => exact absurd hfirst hbad
        | directory =>
            simp only [hrest, List.cons_append]
        | external => exact hrest ..
        | entry => exact hrest ..

/-- What one scout finds is what is found by one that stops where a stanza starts, and by one that
starts there. -/
theorem scoutTrace_append (hwell : WellFormed sta file a) (ha : StartsStanza sta file a)
    (hb : StartsStanza sta file b) (hab : Reaches 10 file a b) (hlt : a < b) :
    (scoutTrace sta file a file.length).1 =
      (scoutTrace sta file a b).1 ++ (scoutTrace sta file b file.length).1 := by
  obtain ⟨line, next, hread, hne, hkind⟩ := ha
  have hle := hb.lt_length
  obtain ⟨line', next', hread', hne', hkind'⟩ := hb
  have hwhole := hab.readUpTo_append hle.le
  have hsecond := readUpTo_cons hread' hle
  have hfirst := readUpTo_cons hread hlt
  have hlines : ∀ r ∈ readUpTo 10 file b next, sta.lineKind r.1 ≠ .bad := by
    intro r hr
    refine (hwell r ?_).2
    rw [hwhole, hfirst]
    exact List.mem_append_left _ (List.mem_cons_of_mem _ hr)
  rw [scoutTrace, scoutTrace, scoutTrace, if_neg (by omega), if_neg (by omega), if_neg (by omega),
    hwhole, hfirst, hsecond]
  simp only [List.cons_append, if_neg hne, if_neg hne', hkind, hkind']
  exact scoutTraceLoop_append hlines hne' hkind' _ _

end Scouts

section Split

/-- What `split_file` owes from one range on. -/
structure Splits (sta : ScoutTraceArgs) (file : Bytes) (start : ℕ) (ranges : List (ℕ × ℕ)) :
    Prop where
  covers : Covers start ranges file.length
  starts : ∀ range ∈ ranges, StartsStanza sta file range.1
  scouts : ranges.flatMap (fun range => (scoutTrace sta file range.1 range.2).1) =
    (scoutTrace sta file start file.length).1

theorem Splits.last (h : StartsStanza sta file start) :
    Splits sta file start [(start, file.length)] where
  covers := ⟨rfl, h.lt_length, rfl⟩
  starts := by
    intro range hrange
    rw [List.mem_singleton.mp hrange]
    exact h
  scouts := by simp

theorem Splits.cons {ranges : List (ℕ × ℕ)} (hwell : WellFormed sta file start)
    (hstart : StartsStanza sta file start) (hstop : StartsStanza sta file stop)
    (hreaches : Reaches 10 file start stop) (hlt : start < stop)
    (h : Splits sta file stop ranges) : Splits sta file start ((start, stop) :: ranges) where
  covers := ⟨rfl, hlt, h.covers⟩
  starts := by
    intro range hrange
    obtain rfl | hrange := List.mem_cons.mp hrange
    · exact hstart
    · exact h.starts range hrange
  scouts := by
    rw [List.flatMap_cons, h.scouts, scoutTrace_append hwell hstart hstop hreaches hlt]

theorem splits_splitFileLoop {jump : ℕ} (fuel : ℕ) (hjump : 0 < jump)
    (hwell : WellFormed sta file start) (hstart : StartsStanza sta file start)
    (hfuel : file.length - start ≤ fuel) :
    Splits sta file start (splitFileLoop sta file jump fuel start (start + jump)) := by
  induction fuel generalizing start with
  | zero =>
      have := hstart.lt_length
      omega
  | succ fuel ih =>
      rw [splitFileLoop, if_pos hstart.lt_length]
      cases hend : findStanzaEnd sta file (start + jump) with
      | none => exact Splits.last hstart
      | some stop =>
          obtain ⟨hreaches, hstop, hlt⟩ := findStanzaEnd_eq_some hwell (by omega) hend
          have hlength := hstop.lt_length
          have hrest := ih (hwell.of_reaches hreaches hlength.le) hstop (by omega)
          exact Splits.cons hwell hstart hstop hreaches (by omega) hrest

/-- However many parts a well formed trace is split into, they follow each other, each starts at a
directory line, and scouting them finds the stanzas of the whole trace. -/
theorem splits_splitFile {maxParts : ℕ} (hparts : 1 ≤ maxParts) (hwell : WellFormed sta file 0)
    (hfirst : StartsStanza sta file 0) : Splits sta file 0 (splitFile sta file maxParts) := by
  have hlength := hfirst.lt_length
  have hjump : 0 < file.length / maxParts + if file.length % maxParts = 0 then 0 else 1 := by
    by_cases hmod : file.length % maxParts = 0
    · have hle : maxParts ≤ file.length := Nat.le_of_dvd hlength (Nat.dvd_of_mod_eq_zero hmod)
      have := Nat.div_pos hle hparts
      omega
    · rw [if_neg hmod]
      exact Nat.succ_pos _
  have hsplits := splits_splitFileLoop file.length hjump hwell hfirst (by omega)
  rw [Nat.zero_add] at hsplits
  exact hsplits

/-- Two directories, the second with a file, and no newline at the end. -/
def twoStanzas : Bytes :=
  [48, 48, 48, 49, 47, fielddelim, 100, 10] ++ [48, 48, 48, 50, 47, 97, fielddelim, 100, 10] ++
    [48, 48, 48, 52, 47, 97, 47, 98, fielddelim, 102]

theorem splits_twoStanzas :
    splitFile ⟨fielddelim, false⟩ twoStanzas 5 = [(0, 8), (8, 27)] ∧
      Splits ⟨fielddelim, false⟩ twoStanzas 0 (splitFile ⟨fielddelim, false⟩ twoStanzas 5) :=
  ⟨by decide +kernel, splits_splitFile (by decide)
    (by unfold WellFormed; decide +kernel)
    ⟨[48, 48, 48, 49, 47, fielddelim, 100], 8, by decide +kernel⟩⟩

end Split

end Gufi.Trace
