import Gufi.TraceMisreads

/-!
# Trace lines are read back

`linetowork` gives back what `worktofile` wrote exactly when every length fits into its four
digits, the type is neither that of an external database nor the delimiter, and no extended
attribute has a byte in it that ends it for the reader. The other direction finds a column that
is read wrong: a name that is cut, the NUL that the delimiter became, a pair that is shorter or
has a digit of the count before it.
-/

namespace Gufi.Trace

open Stdio LineReader

section Statement

/-- A text in a buffer: without a NUL, and shorter than the buffer. -/
def IsText (size : ℕ) (text : Bytes) : Prop :=
  0 ∉ text ∧ text.length < size

/-- An entry as the callers of `worktofile` have it. -/
structure IsEntry (prefixLen : ℕ) (work : Work) (ed : EntryData) : Prop where
  name : 0 ∉ work.name
  prefixLen_le : prefixLen ≤ work.name.length
  basenameLen : work.basenameLen = basenameLen (work.name.drop prefixLen)
  linkname : IsText MAXPATH ed.linkname
  osstext1 : IsText MAXXATTR ed.osstext1
  osstext2 : IsText MAXXATTR ed.osstext2

/-- The line gives back the entry, but for the part of the name that was left out, whatever the
`struct entry_data` held before. -/
def RoundTrips (delim : UInt8) (prefixLen : ℕ) (work : Work) (ed : EntryData) : Prop :=
  ∀ ed₀, linetowork delim (worktofile delim prefixLen work ed) ed₀ =
    .ok ({ work with name := work.name.drop prefixLen }, ed)

/-- What the format can carry. -/
structure Carried (delim : UInt8) (prefixLen : ℕ) (work : Work) (ed : EntryData) : Prop where
  nameLen : work.name.length - prefixLen < 16 ^ 4
  type_ne_delim : ed.type ≠ delim
  type_ne_external : ed.type ≠ 101
  xattrsLen : xattrsLen ed.xattrs + 2 * ed.xattrs.length + 4 < 16 ^ 4
  separable : ∀ x ∈ ed.xattrs, x.Separable

end Statement

section Carried

variable {delim : UInt8} {prefixLen : ℕ} {work : Work} {ed : EntryData}

theorem length_le_length_prefixed (delim : UInt8) (text rest : Bytes) :
    text.length ≤ (prefixed delim text ++ rest).length := by
  simp only [prefixed, List.length_append]
  omega

theorem reads_skipDelim (delim : UInt8) : Reads skipDelim [delim] () :=
  fun _ => rfl

theorem reads_type (h : ed.type ≠ delim) :
    Reads ((fun text => text.headD 0) <$> readField delim) (field delim [ed.type]) ed.type := by
  have hnot : delim ∉ [ed.type] := by
    simpa using h.symm
  exact (reads_readField hnot).map fun text => text.headD 0

theorem reads_readEntry (hdelim : FieldDelim delim) (h : IsEntry prefixLen work ed)
    (hcarried : Carried delim prefixLen work ed) :
    Reads (readEntry delim (work.name.drop prefixLen) ed.type) (entryToFile delim work ed)
      ({ work with name := work.name.drop prefixLen }, ed) := by
  have hlink : ed.linkname.length < 16 ^ 4 := lt_trans h.linkname.2 (by decide)
  have hread : Reads (readEntry delim (work.name.drop prefixLen) ed.type)
      (entryToFile delim work ed)
      (⟨work.name.drop prefixLen, basenameLen (work.name.drop prefixLen), work.statuso,
        Int64.ofInt work.crtime.toInt, Int64.ofInt work.pinode.toInt⟩,
      ⟨ed.type, ed.linkname, ed.xattrs, Int32.ofInt ed.ossint1.toInt,
        Int32.ofInt ed.ossint2.toInt, Int32.ofInt ed.ossint3.toInt,
        Int32.ofInt ed.ossint4.toInt, ed.osstext1, ed.osstext2⟩) := by
    apply (reads_readStat hdelim work.statuso).bind
    apply (reads_readPrefixed .linkname hlink h.linkname.2).bind
    apply (reads_xattrsFromLine hcarried.separable hcarried.xattrsLen).bind
    apply (reads_skipDelim delim).bind
    apply (reads_int64 hdelim work.crtime).bind
    apply (reads_int32 hdelim ed.ossint1).bind
    apply (reads_int32 hdelim ed.ossint2).bind
    apply (reads_int32 hdelim ed.ossint3).bind
    apply (reads_int32 hdelim ed.ossint4).bind
    apply (reads_readPrefixed .osstext1 h.osstext1.2 h.osstext1.2).bind
    apply (reads_readPrefixed .osstext2 h.osstext2.2 h.osstext2.2).bind
    exact (reads_int64 hdelim work.pinode).bind_pure _
  simpa only [Int64.ofInt_toInt, Int32.ofInt_toInt, ← h.basenameLen] using hread

/-- The columns of an entry are read one after the other. -/
theorem reads_readLine (hdelim : FieldDelim delim) (h : IsEntry prefixLen work ed)
    (hcarried : Carried delim prefixLen work ed) {len : ℕ}
    (hlen : (work.name.drop prefixLen).length ≤ len) (ed₀ : EntryData) :
    Reads (readLine delim len ed₀) (columns delim prefixLen work ed)
      ({ work with name := work.name.drop prefixLen }, ed) := by
  have hname : (work.name.drop prefixLen).length < 16 ^ 4 := by
    rw [List.length_drop]
    exact hcarried.nameLen
  apply (reads_readName hname hlen).bind
  apply (reads_type hcarried.type_ne_delim).bind
  rw [if_neg hcarried.type_ne_external]
  exact reads_readEntry hdelim h hcarried

/-- The columns are read back whatever follows them. -/
theorem Carried.linetowork_append (hdelim : FieldDelim delim) (h : IsEntry prefixLen work ed)
    (hcarried : Carried delim prefixLen work ed) (rest : Bytes) (ed₀ : EntryData) :
    linetowork delim (columns delim prefixLen work ed ++ rest) ed₀ =
      .ok ({ work with name := work.name.drop prefixLen }, ed) := by
  have hlen : (work.name.drop prefixLen).length ≤
      (columns delim prefixLen work ed ++ rest).length := by
    rw [columns, List.append_assoc]
    exact length_le_length_prefixed delim _ _
  have hread := reads_readLine hdelim h hcarried hlen ed₀ rest
  rw [linetowork, hread]
  rfl

theorem Carried.roundTrips (hdelim : FieldDelim delim) (h : IsEntry prefixLen work ed)
    (hcarried : Carried delim prefixLen work ed) : RoundTrips delim prefixLen work ed :=
  hcarried.linetowork_append hdelim h [10]

/-- The line that is cut out of a file is read back too, if its only newline is the last byte. -/
theorem Carried.linetowork_getline (hdelim : FieldDelim delim) (h : IsEntry prefixLen work ed)
    (hcarried : Carried delim prefixLen work ed)
    (hnewline : 10 ∉ columns delim prefixLen work ed) (file : Bytes) (ed₀ : EntryData) :
    linetowork delim (getline (worktofile delim prefixLen work ed ++ file)) ed₀ =
      .ok ({ work with name := work.name.drop prefixLen }, ed) := by
  have hgetline : getline (worktofile delim prefixLen work ed ++ file) =
      columns delim prefixLen work ed := by
    have hall : ∀ c ∈ columns delim prefixLen work ed, decide (c ≠ 10) = true := by
      intro c hc
      have : c ≠ 10 := fun h10 => hnewline (h10 ▸ hc)
      simpa using this
    rw [getline, worktofile, List.append_assoc, List.takeWhile_append_of_pos hall,
      List.singleton_append, List.takeWhile_cons_of_neg (by decide), List.append_nil]
  have hread := hcarried.linetowork_append hdelim h [] ed₀
  rw [List.append_nil] at hread
  rw [hgetline, hread]

end Carried

section Converse

variable {delim : UInt8} {prefixLen : ℕ} {work work' : Work} {ed ed' ed₀ : EntryData}
  {line : Bytes}

/-- The columns up to the extended attributes of a line that is read, each by its reader. -/
theorem linetowork_cases (h : linetowork delim line ed₀ = .ok (work', ed')) :
    ∃ s₁ s₂, readName delim line.length (some line) = .ok (work'.name, s₁) ∧
      ((fun text => text.headD 0) <$> readField delim : Reader UInt8) s₁ = .ok (ed'.type, s₂) ∧
      (ed'.type = 101 ∧ ed' = { ed₀ with type := ed'.type } ∨
        ed'.type ≠ 101 ∧ ∃ stat s₃ s₄ s₅, readStat delim s₂ = .ok (stat, s₃) ∧
          readPrefixed delim .linkname MAXPATH s₃ = .ok (ed'.linkname, s₄) ∧
          xattrsFromLine s₄ = .ok (ed'.xattrs, s₅)) := by
  have hline : ∃ s, readLine delim line.length ed₀ (some line) = .ok ((work', ed'), s) := by
    rw [linetowork] at h
    cases hread : readLine delim line.length ed₀ (some line) with
    | error e =>
        rw [hread] at h
        exact nomatch h
    | ok r =>
        rw [hread] at h
        have hr : r.1 = (work', ed') := Except.ok.inj h
        exact ⟨r.2, by rw [← hr]⟩
  obtain ⟨s, hline⟩ := hline
  obtain ⟨name, s₁, hname, hline⟩ := bind_eq_ok_iff.mp hline
  obtain ⟨type, s₂, htype, hline⟩ := bind_eq_ok_iff.mp hline
  split at hline
  · rename_i hexternal
    obtain ⟨hpair, -⟩ := Prod.mk.inj (Except.ok.inj hline)
    obtain ⟨rfl, rfl⟩ := Prod.mk.inj hpair
    exact ⟨s₁, s₂, hname, htype, .inl ⟨hexternal, rfl⟩⟩
  · rename_i hexternal
    simp only [readEntry, bind_eq_ok_iff] at hline
    obtain ⟨stat, s₃, hstat, linkname, s₄, hlinkname, xattrs, s₅, hxattrs, _, _, -, _, _, -, _, _,
      -, _, _, -, _, _, -, _, _, -, _, _, -, _, _, -, _, _, -, hline⟩ := hline
    obtain ⟨hpair, -⟩ := Prod.mk.inj (Except.ok.inj hline)
    obtain ⟨rfl, rfl⟩ := Prod.mk.inj hpair
    exact ⟨s₁, s₂, hname, htype, .inr ⟨hexternal, stat, s₃, s₄, s₅, hstat, hlinkname, hxattrs⟩⟩

/-- A line that is read right, whatever follows it, was carried by the format. -/
theorem carried_of_linetowork (hdelim : FieldDelim delim) (h : IsEntry prefixLen work ed)
    (hexternal : ed.type ≠ 101) {rest : Bytes}
    (hread : linetowork delim (columns delim prefixLen work ed ++ rest) ed₀ =
      .ok ({ work with name := work.name.drop prefixLen }, ed)) :
    Carried delim prefixLen work ed := by
  obtain ⟨s₁, s₂, hname, htype, hrest⟩ := linetowork_cases hread
  rw [columns, List.append_assoc, List.append_assoc] at hname
  have hnameLen := length_readName_lt hname
  obtain ⟨-, rfl⟩ := (reads_readName hnameLen (length_le_length_prefixed delim _ _)).eq_of_ok hname
  have htypeDelim : ed.type ≠ delim := by
    intro heq
    have hread : Reads ((fun text => text.headD 0) <$> readField delim : Reader UInt8)
        (field delim []) 0 := (reads_readField (by simp)).map fun text => text.headD 0
    have hfield : field delim [ed.type] = field delim [] ++ [delim] := by
      rw [heq]
      rfl
    rw [hfield, List.append_assoc] at htype
    have hzero := (hread.eq_of_ok htype).1
    exact hdelim.1 (heq ▸ hzero)
  obtain ⟨-, rfl⟩ := (reads_type htypeDelim).eq_of_ok htype
  obtain ⟨hexternal', -⟩ | ⟨-, stat, s₃, s₄, s₅, hstat, hlinkname, hxattrs⟩ := hrest
  · exact absurd hexternal' hexternal
  · rw [entryToFile, List.append_assoc] at hstat
    obtain ⟨-, rfl⟩ := (reads_readStat hdelim work.statuso).eq_of_ok hstat
    rw [List.append_assoc] at hlinkname
    have hlink : ed.linkname.length < 16 ^ 4 := lt_trans h.linkname.2 (by decide)
    obtain ⟨-, rfl⟩ := (reads_readPrefixed .linkname hlink h.linkname.2).eq_of_ok hlinkname
    rw [List.append_assoc] at hxattrs
    have hlength : xattrsLen ed.xattrs + 2 * ed.xattrs.length + 4 < 16 ^ 4 := by
      by_contra hlong
      exact xattrsFromLine_ne (Nat.not_lt.mp hlong) hxattrs rfl
    rw [List.length_drop] at hnameLen
    exact ⟨hnameLen, htypeDelim, hexternal, hlength, xattrsFromLine_separable hlength hxattrs⟩

theorem RoundTrips.carried (hdelim : FieldDelim delim) (h : IsEntry prefixLen work ed)
    (hround : RoundTrips delim prefixLen work ed) : Carried delim prefixLen work ed := by
  -- an old content that differs from the entry shows that an external database is not read
  have hread := hround { ed with ossint1 := ed.ossint1 + 1 }
  have hexternal : ed.type ≠ 101 := by
    obtain ⟨-, -, -, -, ⟨-, hkept⟩ | ⟨hexternal, -⟩⟩ := linetowork_cases hread
    · have hossint := congrArg EntryData.ossint1 hkept
      simp at hossint
    · exact hexternal
  exact carried_of_linetowork hdelim h hexternal hread

end Converse

section RoundTrip

variable {delim : UInt8} {prefixLen : ℕ} {work : Work} {ed : EntryData}

/-- A line is read back as what it was written from exactly if the format can carry it. -/
theorem linetowork_worktofile_iff (hdelim : FieldDelim delim) (h : IsEntry prefixLen work ed) :
    RoundTrips delim prefixLen work ed ↔ Carried delim prefixLen work ed :=
  ⟨RoundTrips.carried hdelim h, Carried.roundTrips hdelim h⟩

/-- A file in `/d` whose name starts with the delimiter. -/
def delimWork : Work where
  name := [47, 100, 47, fielddelim, 97]
  basenameLen := 2
  statuso := ⟨7, 0o100644, 1, 1001, 1001, 3, 4096, 8, -1, 0, 5⟩
  crtime := 5
  pinode := -1

/-- A regular file with one extended attribute. -/
def fileWithXattr (value : Bytes) : EntryData where
  type := 102
  linkname := []
  xattrs := [⟨[117, 115, 101, 114, 46, 97], value⟩]
  ossint1 := 0
  ossint2 := 0
  ossint3 := 0
  ossint4 := 0
  osstext1 := []
  osstext2 := []

theorem isEntry_fileWithXattr (value : Bytes) : IsEntry 0 delimWork (fileWithXattr value) := by
  have hempty {size : ℕ} (hsize : 0 < size) : IsText size [] := ⟨List.not_mem_nil, hsize⟩
  exact ⟨by decide, Nat.zero_le _, rfl, hempty (by decide), hempty (by decide),
    hempty (by decide)⟩

theorem linetowork_worktofile_binaryValue :
    RoundTrips fielddelim 0 delimWork (fileWithXattr [255, fielddelim, 10]) :=
  (linetowork_worktofile_iff (by decide) (isEntry_fileWithXattr _)).mpr
    ⟨by decide, by decide, by decide, by decide, by
      intro x hx
      obtain rfl := List.mem_singleton.mp hx
      exact ⟨⟨by decide, by decide⟩, by decide, by decide⟩⟩

/-- A value of one separator comes back empty, and the columns behind it are read one off. -/
theorem separatorValue_not_roundTrips :
    FieldDelim fielddelim ∧ IsEntry 0 delimWork (fileWithXattr [XATTRDELIM]) ∧
      ¬RoundTrips fielddelim 0 delimWork (fileWithXattr [XATTRDELIM]) := by
  refine ⟨by decide, isEntry_fileWithXattr _, fun h => ?_⟩
  have hread := (h (fileWithXattr [])).symm.trans
    (show linetowork fielddelim (worktofile fielddelim 0 delimWork (fileWithXattr [XATTRDELIM]))
      (fileWithXattr []) = .error (.badPrefix .osstext1) by decide +kernel)
  exact nomatch hread

end RoundTrip

end Gufi.Trace
