import Gufi.TraceMisreads

/-!
# Every line of a trace

`linetowork` checks the lengths and the delimiters of the texts that have their length before them,
but not that there is a next field, not that the list of extended attributes ends in the line, and
not that it has as many pairs as its count says. `parsesSafely_iff` says of every line, in both
formats, whether that shows.
-/

namespace Gufi.Trace

open Stdio LineReader

section OldFormat

variable (delim : UInt8)

/-- `q = split(p, &delim, 1, end);` and the `q - p - 1` bytes at `p`. Without a delimiter that is
the distance from `NULL`, and the next field is read from `NULL`. -/
def readToDelim : Reader Bytes := fun
  | none => .error .null
  | some p =>
    match split delim p with
    | none => .error .null
    | some (text, q) => .ok (text, some q)

/-- `xattrs_from_line` in the old format: the list is a field of its own, and has half as many pairs
as delimiters. Without the field delimiter its end is the byte before `NULL`. -/
def xattrsFromField : Reader (List Xattr) := fun
  | none => .error .null
  | some p =>
    match split delim p with
    | none => .error .outOfLine
    | some (text, q) => do
      let pairs ← extractPairs false (0 :: q) (text.count XATTRDELIM / 2) [] (some text)
      let line := pairs.line ++ 0 :: q
      if line.length < pairs.offset then .error .outOfLine
      else .ok (pairs.xattrs, some (line.drop pairs.offset))

variable (oldFormat : Bool)

def readNameIn (len : ℕ) : Reader Bytes :=
  if oldFormat then readToDelim delim else readName delim len

def readTextIn (column : TextColumn) (size : ℕ) : Reader Bytes :=
  if oldFormat then (fun text => text.take (size - 1)) <$> readToDelim delim
  else readPrefixed delim column size

def xattrsFromLineIn : Reader (List Xattr) :=
  if oldFormat then xattrsFromField delim else xattrsFromLine

def readEntryIn (name : Bytes) (type : UInt8) : Reader (Work × EntryData) := do
  let statuso ← readStat delim
  let linkname ← readTextIn delim oldFormat .linkname MAXPATH
  let xattrs ← xattrsFromLineIn delim oldFormat
  skipDelim
  let crtime ← readLong delim
  let ossint1 ← readLong delim
  let ossint2 ← readLong delim
  let ossint3 ← readLong delim
  let ossint4 ← readLong delim
  let osstext1 ← readTextIn delim oldFormat .osstext1 MAXXATTR
  let osstext2 ← readTextIn delim oldFormat .osstext2 MAXXATTR
  let pinode ← readLong delim
  return (⟨name, basenameLen name, statuso, Int64.ofInt crtime, Int64.ofInt pinode⟩,
    ⟨type, linkname, xattrs, Int32.ofInt ossint1, Int32.ofInt ossint2, Int32.ofInt ossint3,
      Int32.ofInt ossint4, osstext1, osstext2⟩)

/-- The columns behind the name. -/
def readBehindName (name : Bytes) (ed₀ : EntryData) : Reader (Work × EntryData) := do
  let type ← (fun text => text.headD 0) <$> readField delim
  if type = 101 then
    return (⟨name, name.length, Stat.zero, 0, 0⟩, { ed₀ with type })
  else
    readEntryIn delim oldFormat name type

def readLineIn (len : ℕ) (ed₀ : EntryData) : Reader (Work × EntryData) := do
  let name ← readNameIn delim oldFormat len
  readBehindName delim oldFormat name ed₀

/-- `linetowork` in either format. -/
def linetoworkIn (line : Bytes) (ed₀ : EntryData) : Except TraceError (Work × EntryData) :=
  Prod.fst <$> readLineIn delim oldFormat line.length ed₀ (some line)

theorem linetoworkIn_false (line : Bytes) (ed₀ : EntryData) :
    linetoworkIn delim false line ed₀ = linetowork delim line ed₀ := rfl

end OldFormat

section Statement

variable (delim : UInt8) (oldFormat : Bool)

/-- What no check stops. -/
def IsMisuse (e : TraceError) : Prop := e = .null ∨ e = .outOfLine

/-- The number in the four digits that `sscanf` reads. -/
def fourDigits (p : Bytes) : Option ℕ :=
  (scanHex 4 p).bind fun r => if r.2 = 4 then some r.1 else none

/-- The columns between the name and the extended attributes of an entry. An external database has
no such attributes. -/
def toXattrsBehindName : Reader Unit := do
  let type ← (fun text => text.headD 0) <$> readField delim
  if type = 101 then set (none : Option Bytes)
  else do
    let _ ← readStat delim
    let _ ← readTextIn delim oldFormat .linkname MAXPATH

/-- Where the extended attributes of an entry are read from. -/
def toXattrs (len : ℕ) : Reader Unit := do
  let _ ← readNameIn delim oldFormat len
  toXattrsBehindName delim oldFormat

/-- The bytes that are allocated for a name, and those that the line has for it. -/
def nameAllocation (line : Bytes) : Option (ℕ × ℕ) :=
  if oldFormat then (split delim line).map fun r => (r.1.length, line.length)
  else match fourDigits line with
    | some nameLen => if nameLen ≤ line.length then some (nameLen, (line.drop 4).length) else none
    | none => none

/-- The pairs that are allocated, and those that the list has in the line: there are two delimiters
to a pair. -/
def pairsAllocation (p : Bytes) : Option (ℕ × ℕ) :=
  if oldFormat then
    (split delim p).map fun r => (r.1.count XATTRDELIM / 2, r.1.count XATTRDELIM / 2)
  else match fourDigits p, fourDigits (p.drop 4) with
    | some len, some count =>
      if len ≤ p.length then some (count, ((p.drop 8).take (len - 4)).count XATTRDELIM / 2)
      else none
    | _, _ => none

/-- `linetowork` returns what it read or fails with a message, nothing is allocated for more than
the line has, and the pairs fit into what was allocated for them. The callers have set their
`struct entry_data` to zeros. -/
structure ParsesSafely (line : Bytes) : Prop where
  returns : ∀ e, linetoworkIn delim oldFormat line .zero = .error e → ¬IsMisuse e
  name : ∀ asked there, nameAllocation delim oldFormat line = some (asked, there) → asked ≤ there
  pairs : ∀ p, toXattrs delim oldFormat line.length (some line) = .ok ((), some p) →
    ∀ asked there, pairsAllocation delim oldFormat p = some (asked, there) →
      asked ≤ there ∧
        ∀ xattrs q, xattrsFromLineIn delim oldFormat (some p) = .ok (xattrs, q) →
          xattrs.length ≤ asked

/-- What is behind the given number of fields, if each of them has its delimiter. -/
def afterFields : ℕ → Bytes → Option Bytes
  | 0, p => some p
  | n + 1, p => (split delim p).bind fun r => afterFields n r.2

/-- A name that is not longer than the line ends in it, and a NUL that is the delimiter is not the
one behind the line. The old format has a delimiter there. -/
def NameReads (line : Bytes) : Prop :=
  if oldFormat then delim ∈ line
  else ∀ nameLen, fourDigits line = some nameLen → nameLen ≤ line.length →
    nameLen ≤ (line.drop 4).length ∧ (delim = 0 → nameLen ≠ (line.drop 4).length)

/-- The same of a text, whose length is compared with the rest of the line. -/
def TextReads (p : Bytes) : Prop :=
  if oldFormat then delim ∈ p else delim = 0 → fourDigits p ≠ some (p.drop 4).length

/-- There are five fields and two texts, and the `pinode` begins in the line. -/
def TailReads (p : Bytes) : Prop :=
  ∃ r, afterFields delim 5 p = some r ∧ TextReads delim oldFormat r ∧
    ∀ text q, readTextIn delim oldFormat .osstext1 MAXXATTR (some r) = .ok (text, some q) →
      TextReads delim oldFormat q

/-- The list has as many pairs as are allocated, and ends before the line. -/
def XattrsRead (p : Bytes) : Prop :=
  (oldFormat = true → delim ∈ p) ∧
  (∀ asked there, pairsAllocation delim oldFormat p = some (asked, there) → asked ≤ there) ∧
  ∀ xattrs q, xattrsFromLineIn delim oldFormat (some p) = .ok (xattrs, some q) →
    q ≠ [] ∧ TailReads delim oldFormat q.tail

/-- An entry has its type, the eleven fields of its stat, and a link name. An external database has
the type only. -/
def EntryReads (p : Bytes) : Prop :=
  ((split delim p).elim p Prod.fst).headD 0 = 101 ∨
    ∃ r, afterFields delim 12 p = some r ∧ TextReads delim oldFormat r ∧
      ∀ text q, readTextIn delim oldFormat .linkname MAXPATH (some r) = .ok (text, some q) →
        XattrsRead delim oldFormat q

/-- Every column is there where it is read. -/
def LineReads (line : Bytes) : Prop :=
  NameReads delim oldFormat line ∧
    ∀ name p, readNameIn delim oldFormat line.length (some line) = .ok (name, some p) →
      EntryReads delim oldFormat p

end Statement

section Fields

variable {delim : UInt8} {α γ : Type} {post : Except TraceError (Option Bytes) → Prop}
  {C : Option Bytes → Prop} {s : Option Bytes}

/-- There is a field, and the pointer behind it is one of `C`. -/
def AtField (delim : UInt8) (C : Option Bytes → Prop) (s : Option Bytes) : Prop :=
  ∃ p, s = some p ∧ C ((split delim p).map Prod.snd)

theorem readField_some (delim : UInt8) (p : Bytes) : readField delim (some p) =
    .ok ((split delim p).elim p Prod.fst, (split delim p).map Prod.snd) := by
  rw [readField]
  cases split delim p <;> rfl

theorem map_readField_some (g : Bytes → α) (p : Bytes) : (g <$> readField delim) (some p) =
    .ok (g ((split delim p).elim p Prod.fst), (split delim p).map Prod.snd) := by
  change (readField delim (some p) >>= fun r => Except.ok (g r.1, r.2)) = _
  rw [readField_some]
  rfl

theorem ends_field_bind {g : Bytes → α} {f : α → Reader γ} (hnull : ¬post (.error .null))
    (hf : ∀ a t, Ends post (f a) t ↔ C t) :
    Ends post ((g <$> readField delim) >>= f) s ↔ AtField delim C s := by
  rw [ends_bind hf, AtField]
  cases s with
  | none =>
      refine iff_of_false (fun h => hnull (h.1 _ rfl)) ?_
      rintro ⟨p, hp, -⟩
      cases hp
  | some p =>
      rw [map_readField_some]
      constructor
      · intro h
        exact ⟨p, rfl, h.2 _ _ rfl⟩
      · rintro ⟨q, hq, hC⟩
        obtain rfl := Option.some.inj hq
        refine ⟨fun e he => (nomatch he), fun a t ht => ?_⟩
        obtain ⟨-, rfl⟩ := Prod.mk.inj (Except.ok.inj ht)
        exact hC

/-- Several fields in a row, where `NULL` is of no use behind them. -/
theorem iterate_atField (hC : ¬C none) (n : ℕ) :
    (AtField delim)^[n] C s ↔ ∃ r, s.bind (afterFields delim n) = some r ∧ C (some r) := by
  induction n generalizing s with
  | zero =>
      cases s with
      | none => simpa using hC
      | some p => simp [afterFields]
  | succ n ih =>
      rw [Function.iterate_succ_apply', AtField]
      cases s with
      | none => simp
      | some p =>
          have hnext : ((split delim p).map Prod.snd).bind (afterFields delim n) =
              afterFields delim (n + 1) p := by
            rw [afterFields]
            cases split delim p <;> rfl
          rw [Option.bind_some, ← hnext, ← ih]
          constructor
          · rintro ⟨q, hq, h⟩
            obtain rfl := Option.some.inj hq
            exact h
          · intro h
            exact ⟨p, rfl, h⟩

theorem ends_readStat_bind {f : Stat → Reader γ} (hnull : ¬post (.error .null))
    (hf : ∀ a t, Ends post (f a) t ↔ C t) :
    Ends post (readStat delim >>= f) s ↔ (AtField delim)^[11] C s := by
  simp only [readStat, readUnsigned, readLong, bind_assoc, pure_bind]
  refine ends_field_bind hnull fun _ _ => ends_field_bind hnull fun _ _ =>
    ends_field_bind hnull fun _ _ => ends_field_bind hnull fun _ _ =>
    ends_field_bind hnull fun _ _ => ends_field_bind hnull fun _ _ =>
    ends_field_bind hnull fun _ _ => ends_field_bind hnull fun _ _ =>
    ends_field_bind hnull fun _ _ => ends_field_bind hnull fun _ _ =>
    ends_field_bind hnull fun _ t => hf _ t

end Fields

section Texts

variable {delim : UInt8} {oldFormat : Bool} {column : TextColumn} {size len : ℕ} {p : Bytes}
  {s t : Option Bytes}

theorem split_eq_none_iff : split delim p = none ↔ delim ∉ p := by
  constructor
  · intro h hmem
    have hsome := split_isSome hmem
    rw [h] at hsome
    cases hsome
  · intro h
    cases hsplit : split delim p with
    | none => rfl
    | some r =>
        have hp := (split_eq_some hsplit).1
        rw [hp] at h
        exact absurd (List.mem_append_right _ List.mem_cons_self) h

theorem avoids_readToDelim_iff : Avoids IsMisuse (readToDelim delim) (some p) ↔ delim ∈ p := by
  rw [avoids_iff, ← not_iff_not, ← split_eq_none_iff, readToDelim]
  cases split delim p with
  | none => simp [IsMisuse]
  | some r => simp

theorem readPrefixed_eq : readPrefixed delim column size (some p) =
    match fourDigits p with
    | none => .error (.badPrefix column)
    | some len =>
      if (p.drop 4).length < len then .error (.pastEnd column len (p.drop 4).length)
      else match (p.drop 4).drop len with
        | [] => .error (if delim = 0 then .outOfLine else .notAtDelimiter column len)
        | c :: q =>
          if c ≠ delim then .error (.notAtDelimiter column len)
          else .ok ((p.drop 4).take (min len (size - 1)), some q) := by
  simp only [readPrefixed, fourDigits]
  cases scanHex 4 p with
  | none => rfl
  | some r =>
      obtain ⟨len, chars⟩ := r
      by_cases hchars : chars = 4
      · subst hchars
        rfl
      · simp [hchars]

theorem readName_eq : readName delim len (some p) =
    match fourDigits p with
    | none => .error .badNameLen
    | some nameLen =>
      if len < nameLen then .error (.nameTooLong nameLen len)
      else if (p.drop 4).length < nameLen then .error .outOfLine
      else match (p.drop 4).drop nameLen with
        | [] => .error (if delim = 0 then .outOfLine else .nameNotAtDelimiter nameLen)
        | c :: q =>
          if c ≠ delim then .error (.nameNotAtDelimiter nameLen)
          else .ok ((p.drop 4).take nameLen, some q) := by
  simp only [readName, fourDigits]
  cases scanHex 4 p with
  | none => rfl
  | some r =>
      obtain ⟨nameLen, chars⟩ := r
      by_cases hchars : chars = 4
      · subst hchars
        rfl
      · simp [hchars]

/-- The byte behind a text is the NUL behind the line, or it is looked at. -/
theorem avoids_atDelimiter_iff {α : Type} {rest : Bytes} {n : ℕ} {e : TraceError} {a : α}
    (he : ¬IsMisuse e) (hn : n ≤ rest.length) :
    (∀ e', (match rest.drop n with
      | [] => .error (if delim = 0 then .outOfLine else e)
      | c :: q => if c ≠ delim then .error e else .ok (a, some q) :
        Except TraceError (α × Option Bytes)) = .error e' → ¬IsMisuse e') ↔
      (delim = 0 → n ≠ rest.length) := by
  cases hdrop : rest.drop n with
  | nil =>
      have heq : n = rest.length := hn.antisymm (List.drop_eq_nil_iff.mp hdrop)
      by_cases hd : delim = 0
      · simp [hd, heq, IsMisuse]
      · simp [hd, he]
  | cons c q =>
      have hne : n ≠ rest.length := by
        rintro rfl
        rw [List.drop_length] at hdrop
        cases hdrop
      refine iff_of_true (fun e' h => ?_) fun _ => hne
      dsimp only at h
      split_ifs at h
      obtain rfl := Except.error.inj h
      exact he

theorem avoids_readTextIn_iff :
    Avoids IsMisuse (readTextIn delim oldFormat column size) (some p) ↔
      TextReads delim oldFormat p := by
  cases oldFormat with
  | true => exact avoids_map_iff.trans avoids_readToDelim_iff
  | false =>
      have hbad : ¬IsMisuse (.badPrefix column) := by simp [IsMisuse]
      change Avoids IsMisuse (readPrefixed delim column size) (some p) ↔
        (delim = 0 → fourDigits p ≠ some (p.drop 4).length)
      rw [avoids_iff, readPrefixed_eq]
      cases hlen : fourDigits p with
      | none => simpa using hbad
      | some n =>
          by_cases hpast : (p.drop 4).length < n
          · simp only [if_pos hpast]
            refine iff_of_true (fun e h => ?_) fun _ h => ?_
            · obtain rfl := Except.error.inj h
              simp [IsMisuse]
            · exact absurd (Option.some.inj h) hpast.ne'
          · simp only [if_neg hpast]
            rw [avoids_atDelimiter_iff (by simp [IsMisuse]) (Nat.le_of_not_lt hpast)]
            simp

theorem avoids_readNameIn_iff :
    Avoids IsMisuse (readNameIn delim oldFormat p.length) (some p) ↔
      NameReads delim oldFormat p := by
  cases oldFormat with
  | true => exact avoids_readToDelim_iff
  | false =>
      change Avoids IsMisuse (readName delim p.length) (some p) ↔
        ∀ nameLen, fourDigits p = some nameLen → nameLen ≤ p.length →
          nameLen ≤ (p.drop 4).length ∧ (delim = 0 → nameLen ≠ (p.drop 4).length)
      rw [avoids_iff, readName_eq]
      cases hlen : fourDigits p with
      | none => simp [IsMisuse]
      | some n =>
          simp only [Option.some.injEq, forall_eq']
          by_cases hlong : p.length < n
          · simp [hlong, IsMisuse]
          · rw [if_neg hlong, forall_prop_of_true (Nat.le_of_not_lt hlong)]
            by_cases hpast : (p.drop 4).length < n
            · rw [if_pos hpast]
              refine iff_of_false (fun h => h _ rfl (.inr rfl)) fun h => ?_
              exact absurd h.1 (Nat.not_le.mpr hpast)
            · rw [if_neg hpast, and_iff_right (Nat.le_of_not_lt hpast)]
              exact avoids_atDelimiter_iff (by simp [IsMisuse]) (Nat.le_of_not_lt hpast)

theorem readToDelim_eq_ok {text : Bytes} (h : readToDelim delim s = .ok (text, t)) :
    ∃ p q, s = some p ∧ t = some q ∧ split delim p = some (text, q) := by
  cases s with
  | none => cases h
  | some p =>
      rw [readToDelim] at h
      cases hsplit : split delim p with
      | none =>
          simp only [hsplit] at h
          cases h
      | some r =>
          simp only [hsplit] at h
          obtain ⟨rfl, rfl⟩ := Prod.mk.inj (Except.ok.inj h)
          exact ⟨p, r.2, rfl, rfl, hsplit⟩

theorem readTextIn_eq_ok {text : Bytes}
    (h : readTextIn delim oldFormat column size s = .ok (text, t)) :
    ∃ p q, s = some p ∧ t = some q := by
  cases oldFormat with
  | true =>
      change (readToDelim delim s >>= fun r => Except.ok (r.1.take (size - 1), r.2)) = _ at h
      cases hread : readToDelim delim s with
      | error e =>
          rw [hread] at h
          cases h
      | ok r =>
          rw [hread] at h
          obtain ⟨p, q, hp, hq, -⟩ := readToDelim_eq_ok hread
          exact ⟨p, q, hp, (Prod.mk.inj (Except.ok.inj h)).2.symm.trans hq⟩
  | false =>
      change readPrefixed delim column size s = _ at h
      cases s with
      | none => cases h
      | some p =>
          rw [readPrefixed_eq] at h
          split at h
          · cases h
          split at h
          · cases h
          split at h
          · cases h
          split at h
          · cases h
          exact ⟨p, _, rfl, (Prod.mk.inj (Except.ok.inj h)).2.symm⟩

theorem readTextIn_none {text : Bytes} :
    readTextIn delim oldFormat column size none ≠ .ok (text, t) := by
  intro h
  obtain ⟨p, q, hp, -⟩ := readTextIn_eq_ok h
  cases hp

/-- A text is read before what comes behind it. -/
theorem avoids_readTextIn_bind_iff {α : Type} {f : Bytes → Reader α} {C : Bytes → Prop}
    (hf : ∀ text q, Avoids IsMisuse (f text) (some q) ↔ C q) :
    Avoids IsMisuse (readTextIn delim oldFormat column size >>= f) s ↔
      ∃ p, s = some p ∧ TextReads delim oldFormat p ∧
        ∀ text q, readTextIn delim oldFormat column size (some p) = .ok (text, some q) → C q := by
  rw [avoids_bind_iff]
  cases s with
  | none =>
      refine iff_of_false (fun h => ?_) (by rintro ⟨p, hp, -⟩; cases hp)
      have hnull : readTextIn delim oldFormat column size none = .error .null := by
        cases oldFormat <;> rfl
      exact avoids_iff.mp h.1 _ hnull (.inl rfl)
  | some p =>
      simp only [Option.some.injEq, exists_eq_left', avoids_readTextIn_iff]
      refine and_congr_right fun _ => ⟨fun h text q hq => ?_, fun h text t ht => ?_⟩
      · exact (hf text q).mp (h text (some q) hq)
      · obtain ⟨-, q, -, rfl⟩ := readTextIn_eq_ok ht
        exact (hf text q).mpr (h text q ht)

theorem not_null_avoids : ¬∀ e, (.error .null : Except TraceError (Option Bytes)) = .error e →
    ¬IsMisuse e :=
  fun h => h _ rfl (.inl rfl)

theorem avoids_tail_iff {α : Type} {F : ℤ → ℤ → ℤ → ℤ → ℤ → Bytes → Bytes → ℤ → α} :
    Avoids IsMisuse (do
      let crtime ← readLong delim
      let ossint1 ← readLong delim
      let ossint2 ← readLong delim
      let ossint3 ← readLong delim
      let ossint4 ← readLong delim
      let osstext1 ← readTextIn delim oldFormat .osstext1 MAXXATTR
      let osstext2 ← readTextIn delim oldFormat .osstext2 MAXXATTR
      let pinode ← readLong delim
      return F crtime ossint1 ossint2 ossint3 ossint4 osstext1 osstext2 pinode) (some p) ↔
      TailReads delim oldFormat p := by
  have hpinode : ∀ (g : ℤ → α) q, Avoids IsMisuse (readLong delim >>= fun z => pure (g z))
      (some q) ↔ True := by
    intro g q
    refine (ends_field_bind not_null_avoids (C := fun _ => True) fun _ _ => ?_).trans ?_
    · exact iff_true_intro (avoids_pure _)
    · exact iff_true_intro ⟨q, rfl, trivial⟩
  have hsecond : ∀ (g : Bytes → ℤ → α) q, Avoids IsMisuse (do
      let osstext2 ← readTextIn delim oldFormat .osstext2 MAXXATTR
      let pinode ← readLong delim
      return g osstext2 pinode) (some q) ↔ TextReads delim oldFormat q := by
    intro g q
    rw [avoids_readTextIn_bind_iff fun text q => hpinode (g text) q]
    simp
  have hfirst : ∀ (g : Bytes → Bytes → ℤ → α) t, Avoids IsMisuse (do
      let osstext1 ← readTextIn delim oldFormat .osstext1 MAXXATTR
      let osstext2 ← readTextIn delim oldFormat .osstext2 MAXXATTR
      let pinode ← readLong delim
      return g osstext1 osstext2 pinode) t ↔
      ∃ r, t = some r ∧ TextReads delim oldFormat r ∧
        ∀ text q, readTextIn delim oldFormat .osstext1 MAXXATTR (some r) = .ok (text, some q) →
          TextReads delim oldFormat q :=
    fun g t => avoids_readTextIn_bind_iff fun text q => hsecond (g text) q
  refine (ends_field_bind not_null_avoids fun _ _ => ends_field_bind not_null_avoids fun _ _ =>
    ends_field_bind not_null_avoids fun _ _ => ends_field_bind not_null_avoids fun _ _ =>
    ends_field_bind not_null_avoids fun _ t => hfirst _ t).trans ?_
  refine (iterate_atField (by rintro ⟨r, hr, -⟩; cases hr) 5).trans ?_
  simp only [TailReads, Option.bind_some, Option.some.injEq, exists_eq_left']

end Texts

section Xattrs

variable {delim : UInt8} {oldFormat past : Bool} {after before p : Bytes} {count len : ℕ}
  {pairs : Pairs} {xattrs : List Xattr} {t : Option Bytes}

/-- A list with two delimiters to a pair is gone over without leaving it. -/
theorem extractPairs_ok {start : Bytes} (h : 2 * count ≤ start.count XATTRDELIM) :
    ∃ pairs, extractPairs past after count before (some start) = .ok pairs ∧
      pairs.offset ≤ start.length ∧ pairs.line.length = before.length + start.length := by
  induction count generalizing before start with
  | zero =>
      refine ⟨⟨[], 0, before ++ start⟩, rfl, Nat.zero_le _, ?_⟩
      rw [List.length_append]
  | succ count ih =>
      have hname : (split XATTRDELIM start).isSome :=
        split_isSome (List.count_pos_iff.mp (by omega))
      obtain ⟨⟨name, next⟩, hname⟩ := Option.isSome_iff_exists.mp hname
      obtain ⟨rfl, hnot⟩ := split_eq_some hname
      rw [List.count_append, List.count_eq_zero.mpr hnot, List.count_cons_self] at h
      have hvalue : (split XATTRDELIM next).isSome :=
        split_isSome (List.count_pos_iff.mp (by omega))
      obtain ⟨⟨value, rest⟩, hvalue⟩ := Option.isSome_iff_exists.mp hvalue
      obtain ⟨rfl, hnot'⟩ := split_eq_some hvalue
      rw [List.count_append, List.count_eq_zero.mpr hnot', List.count_cons_self] at h
      obtain ⟨tail, htail, hoffset, hline⟩ :=
        @ih (before ++ (name ++ [0]) ++ (value ++ [0])) rest (by omega)
      have hextract : extractValue past after (before ++ (name ++ [0]))
          (value ++ XATTRDELIM :: rest) =
          .ok (cString value, before ++ (name ++ [0]) ++ (value ++ [0]), some rest) := by
        rw [extractValue, hvalue]
      have hname_le : (cString name).length ≤ name.length :=
        (List.takeWhile_sublist _).length_le
      have hvalue_le : (cString value).length ≤ value.length :=
        (List.takeWhile_sublist _).length_le
      rw [extractPairs_succ hname (by simp) hextract, htail]
      refine ⟨_, rfl, ?_, ?_⟩
      · simp only [List.length_append, List.length_cons]
        omega
      · rw [hline]
        simp only [List.length_append, List.length_cons, List.length_nil]
        omega

theorem length_xattrs_le {start : Option Bytes}
    (h : extractPairs past after count before start = .ok pairs) :
    pairs.xattrs.length ≤ count := by
  induction count generalizing before start pairs with
  | zero =>
      obtain rfl := Except.ok.inj h
      exact le_rfl
  | succ count ih =>
      cases start with
      | none =>
          obtain rfl := Except.ok.inj h
          exact Nat.zero_le _
      | some start =>
          rcases extractPairs_cases h with hnil | ⟨_, _, _, _, _, tail, _, _, _, htail, hcons⟩
          · rw [hnil]
            exact Nat.zero_le _
          · rw [hcons, List.length_cons]
            exact Nat.succ_le_succ (ih htail)

/-- The end of both readers of a list, which computes the pointer that is returned. -/
def finish (extracted : Except TraceError Pairs) (lineOf : Pairs → Bytes) :
    Except TraceError (List Xattr × Option Bytes) := do
  let pairs ← extracted
  if (lineOf pairs).length < pairs.offset then .error .outOfLine
  else .ok (pairs.xattrs, some ((lineOf pairs).drop pairs.offset))

theorem finish_eq_ok {extracted : Except TraceError Pairs} {lineOf : Pairs → Bytes}
    (h : finish extracted lineOf = .ok (xattrs, t)) :
    ∃ pairs, extracted = .ok pairs ∧ xattrs = pairs.xattrs ∧
      t = some ((lineOf pairs).drop pairs.offset) := by
  cases extracted with
  | error e => cases h
  | ok pairs =>
      change (if _ then _ else _) = _ at h
      split_ifs at h
      obtain ⟨rfl, rfl⟩ := Prod.mk.inj (Except.ok.inj h)
      exact ⟨pairs, rfl, rfl, rfl⟩

theorem finish_ne_error {extracted : Except TraceError Pairs} {lineOf : Pairs → Bytes}
    (hok : extracted = .ok pairs) (hline : pairs.offset ≤ (lineOf pairs).length) (e : TraceError) :
    finish extracted lineOf ≠ .error e := by
  rw [hok]
  change (if _ then _ else _) ≠ _
  rw [if_neg (Nat.not_lt.mpr hline)]
  nofun

/-- The loop of the current format, with the bytes it may look at. -/
def extractRegion (orig : Bytes) (len count : ℕ) : Except TraceError Pairs :=
  extractPairs (decide (orig.length + 1 < len - 4)) (orig.drop (len - 4)) count []
    (if len < 4 then none else some ((orig ++ [0]).take (len - 4)))

theorem xattrsFromLine_eq : xattrsFromLine (some p) =
    match fourDigits p with
    | none => .error .badXattrsLength
    | some len =>
      if p.length < len then .error (.xattrsPastEnd len)
      else match fourDigits (p.drop 4) with
        | none => .error .badXattrsCount
        | some count => finish (extractRegion (p.drop 8) len count) fun pairs =>
          if len < 4 then p.drop 8 else pairs.line ++ (p.drop 8).drop (len - 4) := by
  simp only [xattrsFromLine, fourDigits]
  cases scanHex 4 p with
  | none => rfl
  | some r =>
      obtain ⟨len, chars⟩ := r
      by_cases hchars : chars = 4
      · subst hchars
        cases scanHex 4 (p.drop 4) with
        | none => rfl
        | some r' =>
            obtain ⟨count, chars'⟩ := r'
            by_cases hchars' : chars' = 4
            · subst hchars'
              rfl
            · simp [hchars']
      · simp [hchars]

theorem extractRegion_ok {orig : Bytes}
    (h : 2 * count ≤ (orig.take (len - 4)).count XATTRDELIM) :
    ∃ pairs, extractRegion orig len count = .ok pairs ∧ pairs.offset ≤
      (if len < 4 then orig else pairs.line ++ orig.drop (len - 4)).length := by
  rw [extractRegion]
  by_cases hlen : len < 4
  · have hzero : count = 0 := by
      rw [Nat.sub_eq_zero_of_le hlen.le, List.take_zero, List.count_nil] at h
      omega
    rw [if_pos hlen, hzero]
    exact ⟨⟨[], 0, []⟩, rfl, Nat.zero_le _⟩
  · have hregion : 2 * count ≤ ((orig ++ [0]).take (len - 4)).count XATTRDELIM := by
      rw [List.take_append, List.count_append]
      omega
    obtain ⟨pairs, hpairs, hoffset, hline⟩ := @extractPairs_ok
      (decide (orig.length + 1 < len - 4)) (orig.drop (len - 4)) [] count _ hregion
    rw [if_neg hlen]
    refine ⟨pairs, hpairs, ?_⟩
    rw [if_neg hlen, List.length_append, hline, List.length_nil]
    omega

/-- A list that is looked at goes through the loop; one that is not is an error, or has no end in
the old format. -/
theorem xattrsFromLineIn_cases (delim : UInt8) (oldFormat : Bool) (p : Bytes) :
    (∃ e, xattrsFromLineIn delim oldFormat (some p) = .error e ∧
      (IsMisuse e ↔ oldFormat = true ∧ delim ∉ p) ∧ pairsAllocation delim oldFormat p = none) ∨
    ∃ extracted lineOf asked there, pairsAllocation delim oldFormat p = some (asked, there) ∧
      xattrsFromLineIn delim oldFormat (some p) = finish extracted lineOf ∧
      (asked ≤ there → ∃ pairs, extracted = .ok pairs ∧
        pairs.offset ≤ (lineOf pairs).length) ∧
      (∀ pairs, extracted = .ok pairs → pairs.xattrs.length ≤ asked) ∧
      (oldFormat = true → delim ∈ p) := by
  cases oldFormat with
  | true =>
      cases hsplit : split delim p with
      | none =>
          refine .inl ⟨.outOfLine, ?_, ?_, ?_⟩
          · simp only [xattrsFromLineIn, if_true, xattrsFromField, hsplit]
          · exact iff_of_true (.inr rfl) ⟨rfl, split_eq_none_iff.mp hsplit⟩
          · simp only [pairsAllocation, if_true, hsplit, Option.map_none]
      | some r =>
          obtain ⟨text, q⟩ := r
          have hp := (split_eq_some hsplit).1
          refine .inr ⟨extractPairs false (0 :: q) (text.count XATTRDELIM / 2) [] (some text),
            fun pairs => pairs.line ++ 0 :: q, text.count XATTRDELIM / 2,
            text.count XATTRDELIM / 2, ?_, ?_, fun _ => ?_, fun _ => length_xattrs_le, fun _ => ?_⟩
          · simp only [pairsAllocation, if_true, hsplit, Option.map_some]
          · simp only [xattrsFromLineIn, if_true, xattrsFromField, hsplit]
            rfl
          · obtain ⟨pairs, hpairs, hoffset, hline⟩ := @extractPairs_ok false (0 :: q) []
              (text.count XATTRDELIM / 2) text (by omega)
            refine ⟨pairs, hpairs, ?_⟩
            rw [List.length_append, hline, List.length_nil]
            omega
          · rw [hp]
            exact List.mem_append_right _ List.mem_cons_self
  | false =>
      have hfailure : ∀ e, xattrsFromLine (some p) = .error e → ¬IsMisuse e →
          pairsAllocation delim false p = none →
          ∃ e, xattrsFromLineIn delim false (some p) = .error e ∧
            (IsMisuse e ↔ false = true ∧ delim ∉ p) ∧ pairsAllocation delim false p = none :=
        fun e he hfail hnone => ⟨e, he, iff_of_false hfail (by simp), hnone⟩
      have heq := @xattrsFromLine_eq p
      cases hlen : fourDigits p with
      | none =>
          rw [hlen] at heq
          refine .inl (hfailure _ heq (by simp [IsMisuse]) ?_)
          simp [pairsAllocation, hlen]
      | some len =>
          rw [hlen] at heq
          dsimp only at heq
          by_cases hlong : p.length < len
          · rw [if_pos hlong] at heq
            refine .inl (hfailure _ heq (by simp [IsMisuse]) ?_)
            have hle : ¬len ≤ p.length := Nat.not_le.mpr hlong
            simp only [pairsAllocation, Bool.false_eq_true, if_false, hlen]
            cases fourDigits (p.drop 4) with
            | none => rfl
            | some count => exact if_neg hle
          · rw [if_neg hlong] at heq
            cases hcount : fourDigits (p.drop 4) with
            | none =>
                rw [hcount] at heq
                refine .inl (hfailure _ heq (by simp [IsMisuse]) ?_)
                simp [pairsAllocation, hlen, hcount]
            | some count =>
                rw [hcount] at heq
                refine .inr ⟨extractRegion (p.drop 8) len count, fun pairs => if len < 4
                  then p.drop 8 else pairs.line ++ (p.drop 8).drop (len - 4), count,
                  ((p.drop 8).take (len - 4)).count XATTRDELIM / 2, ?_, heq, fun hle => ?_,
                  fun _ => length_xattrs_le, nofun⟩
                · simp [pairsAllocation, hlen, hcount, Nat.le_of_not_lt hlong]
                · exact extractRegion_ok (by omega)

theorem xattrsFromLineIn_eq_ok
    (h : xattrsFromLineIn delim oldFormat (some p) = .ok (xattrs, t)) :
    (∃ q, t = some q) ∧ ∀ asked there, pairsAllocation delim oldFormat p = some (asked, there) →
      xattrs.length ≤ asked := by
  rcases xattrsFromLineIn_cases delim oldFormat p with ⟨e, he, -⟩ |
    ⟨extracted, lineOf, asked, there, halloc, heq, -, hle, -⟩
  · rw [he] at h
    cases h
  · rw [heq] at h
    obtain ⟨pairs, hpairs, rfl, rfl⟩ := finish_eq_ok h
    refine ⟨⟨_, rfl⟩, fun asked' there' halloc' => ?_⟩
    obtain ⟨rfl, -⟩ := Prod.mk.inj (Option.some.inj (halloc.symm.trans halloc'))
    exact hle pairs hpairs

theorem avoids_xattrsFromLineIn_iff (h : ∀ asked there,
      pairsAllocation delim oldFormat p = some (asked, there) → asked ≤ there) :
    Avoids IsMisuse (xattrsFromLineIn delim oldFormat) (some p) ↔
      (oldFormat = true → delim ∈ p) := by
  rw [avoids_iff]
  rcases xattrsFromLineIn_cases delim oldFormat p with ⟨e, he, hmisuse, -⟩ |
    ⟨extracted, lineOf, asked, there, halloc, heq, hok, -, hdelim⟩
  · rw [he]
    constructor
    · intro havoids hold
      by_contra hnot
      exact havoids e rfl (hmisuse.mpr ⟨hold, hnot⟩)
    · intro hdelim e' he' hmis
      obtain rfl := Except.error.inj he'
      obtain ⟨hold, hnot⟩ := hmisuse.mp hmis
      exact hnot (hdelim hold)
  · obtain ⟨pairs, hpairs, hline⟩ := hok (h asked there halloc)
    refine iff_of_true (fun e he => ?_) hdelim
    rw [heq] at he
    exact absurd he (finish_ne_error hpairs hline e)

/-- The list and what comes behind it. -/
theorem avoids_xattrs_bind_iff {α : Type} {f : List Xattr → Reader α}
    (hf : ∀ xattrs q, Avoids IsMisuse (f xattrs) (some q) ↔ TailReads delim oldFormat q) :
    Avoids IsMisuse (do
      let xattrs ← xattrsFromLineIn delim oldFormat
      skipDelim
      f xattrs) (some p) ↔
      Avoids IsMisuse (xattrsFromLineIn delim oldFormat) (some p) ∧
        ∀ xattrs q, xattrsFromLineIn delim oldFormat (some p) = .ok (xattrs, some q) →
          q ≠ [] ∧ TailReads delim oldFormat q.tail := by
  have hskip : ∀ xattrs q, Avoids IsMisuse (skipDelim >>= fun _ => f xattrs) (some q) ↔
      q ≠ [] ∧ TailReads delim oldFormat q.tail := by
    intro xattrs q
    rw [avoids_bind_iff, avoids_iff]
    cases q with
    | nil =>
        refine iff_of_false (fun h => h.1 _ rfl (.inr rfl)) fun h => h.1 rfl
    | cons c q =>
        rw [List.tail_cons, ← hf xattrs q]
        constructor
        · intro h
          exact ⟨nofun, h.2 _ _ rfl⟩
        · rintro ⟨-, h⟩
          refine ⟨fun e he => (nomatch he), fun a t ht => ?_⟩
          obtain ⟨-, rfl⟩ := Prod.mk.inj (Except.ok.inj ht)
          exact h
  rw [avoids_bind_iff]
  refine and_congr_right fun _ => ⟨fun h xattrs q hq => ?_, fun h xattrs t ht => ?_⟩
  · exact (hskip xattrs q).mp (h xattrs (some q) hq)
  · obtain ⟨q, rfl⟩ := (xattrsFromLineIn_eq_ok ht).1
    exact (hskip xattrs q).mpr (h xattrs q ht)

theorem xattrsRead_iff : XattrsRead delim oldFormat p ↔
    (Avoids IsMisuse (xattrsFromLineIn delim oldFormat) (some p) ∧
      ∀ xattrs q, xattrsFromLineIn delim oldFormat (some p) = .ok (xattrs, some q) →
        q ≠ [] ∧ TailReads delim oldFormat q.tail) ∧
    ∀ asked there, pairsAllocation delim oldFormat p = some (asked, there) → asked ≤ there := by
  rw [XattrsRead]
  constructor
  · rintro ⟨hdelim, halloc, hrest⟩
    exact ⟨⟨(avoids_xattrsFromLineIn_iff halloc).mpr hdelim, hrest⟩, halloc⟩
  · rintro ⟨⟨havoids, hrest⟩, halloc⟩
    exact ⟨(avoids_xattrsFromLineIn_iff halloc).mp havoids, halloc, hrest⟩

end Xattrs

section Main

variable {delim : UInt8} {oldFormat : Bool} {p : Bytes} {len : ℕ}

theorem afterFields_succ (delim : UInt8) (n : ℕ) (p : Bytes) :
    afterFields delim (n + 1) p = ((split delim p).map Prod.snd).bind (afterFields delim n) := by
  rw [afterFields]
  cases split delim p <;> rfl

theorem avoids_readEntryIn_iff (name : Bytes) (type : UInt8) (t : Option Bytes) :
    Avoids IsMisuse (readEntryIn delim oldFormat name type) t ↔
      ∃ r, t.bind (afterFields delim 11) = some r ∧ TextReads delim oldFormat r ∧
        ∀ text q, readTextIn delim oldFormat .linkname MAXPATH (some r) = .ok (text, some q) →
          Avoids IsMisuse (xattrsFromLineIn delim oldFormat) (some q) ∧
          ∀ xattrs q', xattrsFromLineIn delim oldFormat (some q) = .ok (xattrs, some q') →
            q' ≠ [] ∧ TailReads delim oldFormat q'.tail := by
  refine (ends_readStat_bind not_null_avoids fun statuso t => avoids_readTextIn_bind_iff
    fun linkname q => avoids_xattrs_bind_iff fun xattrs q' => avoids_tail_iff).trans ?_
  refine (iterate_atField (by rintro ⟨r, hr, -⟩; cases hr) 11).trans ?_
  simp only [Option.some.injEq, exists_eq_left']

/-- The same fields and the same text come before the list. -/
theorem toXattrs_stat_iff {t : Option Bytes} {q : Bytes} :
    (do
      let _ ← readStat delim
      let _ ← readTextIn delim oldFormat .linkname MAXPATH : Reader Unit) t =
        .ok ((), some q) ↔
      ∃ r, t.bind (afterFields delim 11) = some r ∧
        ∃ text, readTextIn delim oldFormat .linkname MAXPATH (some r) = .ok (text, some q) := by
  have hunit : ∀ (m : Reader Unit) s, m s = .ok ((), some q) ↔ Ends (· = .ok (some q)) m s :=
    fun m s => ⟨fun h => ends_eq_ok_iff.mpr ⟨(), h⟩, fun h => (ends_eq_ok_iff.mp h).choose_spec⟩
  have htext : ∀ t, Ends (· = .ok (some q)) (do
      let _ ← readTextIn delim oldFormat .linkname MAXPATH : Reader Unit) t ↔
      ∃ text, readTextIn delim oldFormat .linkname MAXPATH t = .ok (text, some q) := by
    intro t
    rw [ends_eq_ok_iff]
    constructor
    · rintro ⟨_, h⟩
      obtain ⟨text, s₁, hread, hpure⟩ := bind_eq_ok_iff.mp h
      obtain ⟨-, rfl⟩ := Prod.mk.inj (Except.ok.inj hpure)
      exact ⟨text, hread⟩
    · rintro ⟨text, hread⟩
      exact ⟨(), bind_eq_ok_iff.mpr ⟨text, some q, hread, rfl⟩⟩
  refine (hunit _ t).trans ((ends_readStat_bind nofun fun _ t => htext t).trans ?_)
  refine iterate_atField ?_ 11
  rintro ⟨text, h⟩
  exact readTextIn_none h

theorem map_readField_bind {α γ : Type} (g : Bytes → α) (f : α → Reader γ) (p : Bytes) :
    ((g <$> readField delim) >>= f) (some p) =
      f (g ((split delim p).elim p Prod.fst)) ((split delim p).map Prod.snd) := by
  change ((g <$> readField delim) (some p) >>= fun r => f r.1 r.2) = _
  rw [map_readField_some]
  rfl

theorem entryReads_iff (name : Bytes) (ed₀ : EntryData) :
    (Avoids IsMisuse (readBehindName delim oldFormat name ed₀) (some p) ∧
      ∀ q, toXattrsBehindName delim oldFormat (some p) = .ok ((), some q) → ∀ asked there,
        pairsAllocation delim oldFormat q = some (asked, there) → asked ≤ there) ↔
      EntryReads delim oldFormat p := by
  rw [avoids_iff, readBehindName, toXattrsBehindName, map_readField_bind, map_readField_bind,
    EntryReads]
  by_cases htype : ((split delim p).elim p Prod.fst).headD 0 = 101
  · rw [if_pos htype, if_pos htype]
    refine iff_of_true ⟨fun e he => (nomatch he), fun q hq => ?_⟩ (.inl htype)
    obtain ⟨-, hnone⟩ := Prod.mk.inj (Except.ok.inj hq)
    cases hnone
  · rw [if_neg htype, if_neg htype, or_iff_right htype, ← avoids_iff, avoids_readEntryIn_iff,
      afterFields_succ]
    simp only [toXattrs_stat_iff, xattrsRead_iff]
    constructor
    · rintro ⟨⟨r, hr, htext, hrest⟩, halloc⟩
      exact ⟨r, hr, htext, fun text q hq => ⟨hrest text q hq, halloc q ⟨r, hr, text, hq⟩⟩⟩
    · rintro ⟨r, hr, htext, hrest⟩
      refine ⟨⟨r, hr, htext, fun text q hq => (hrest text q hq).1⟩, ?_⟩
      rintro q ⟨r', hr', text, hq⟩
      obtain rfl := Option.some.inj (hr.symm.trans hr')
      exact (hrest text q hq).2

theorem readNameIn_eq_ok {name : Bytes} {t : Option Bytes}
    (h : readNameIn delim oldFormat len (some p) = .ok (name, t)) : ∃ q, t = some q := by
  cases oldFormat with
  | true =>
      change readToDelim delim (some p) = _ at h
      obtain ⟨-, q, -, hq, -⟩ := readToDelim_eq_ok h
      exact ⟨q, hq⟩
  | false =>
      change readName delim len (some p) = _ at h
      rw [readName_eq] at h
      split at h
      · cases h
      split at h
      · cases h
      split at h
      · cases h
      split at h
      · cases h
      split at h
      · cases h
      exact ⟨_, (Prod.mk.inj (Except.ok.inj h)).2.symm⟩

theorem NameReads.allocation (h : NameReads delim oldFormat p) {asked there : ℕ}
    (halloc : nameAllocation delim oldFormat p = some (asked, there)) : asked ≤ there := by
  cases oldFormat with
  | true =>
      obtain ⟨⟨text, q⟩, hsplit, hpair⟩ := Option.map_eq_some_iff.mp halloc
      obtain ⟨rfl, rfl⟩ := Prod.mk.inj hpair
      rw [(split_eq_some hsplit).1, List.length_append]
      exact Nat.le_add_right ..
  | false =>
      simp only [nameAllocation, Bool.false_eq_true, if_false] at halloc
      cases hlen : fourDigits p with
      | none =>
          rw [hlen] at halloc
          cases halloc
      | some nameLen =>
          rw [hlen] at halloc
          dsimp only at halloc
          split_ifs at halloc with hle
          obtain ⟨rfl, rfl⟩ := Prod.mk.inj (Option.some.inj halloc)
          exact (h nameLen hlen hle).1

/-- A line is parsed safely just if every column is there where it is read. -/
theorem parsesSafely_iff (delim : UInt8) (oldFormat : Bool) (line : Bytes) :
    ParsesSafely delim oldFormat line ↔ LineReads delim oldFormat line := by
  have hreturns : (∀ e, linetoworkIn delim oldFormat line .zero = .error e → ¬IsMisuse e) ↔
      NameReads delim oldFormat line ∧
        ∀ name p, readNameIn delim oldFormat line.length (some line) = .ok (name, some p) →
          Avoids IsMisuse (readBehindName delim oldFormat name .zero) (some p) := by
    have hline : (∀ e, linetoworkIn delim oldFormat line .zero = .error e → ¬IsMisuse e) ↔
        Avoids IsMisuse (readLineIn delim oldFormat line.length .zero) (some line) := by
      rw [avoids_iff, linetoworkIn]
      cases readLineIn delim oldFormat line.length .zero (some line) with
      | error e => simp [Functor.map, Except.map]
      | ok r => exact iff_of_true nofun nofun
    rw [hline, readLineIn, avoids_bind_iff, avoids_readNameIn_iff]
    refine and_congr_right fun _ => ⟨fun h name p hp => h name _ hp, fun h name t ht => ?_⟩
    obtain ⟨p, rfl⟩ := readNameIn_eq_ok ht
    exact h name p ht
  have hcolumn : ∀ q, toXattrs delim oldFormat line.length (some line) = .ok ((), some q) ↔
      ∃ name p, readNameIn delim oldFormat line.length (some line) = .ok (name, some p) ∧
        toXattrsBehindName delim oldFormat (some p) = .ok ((), some q) := by
    intro q
    rw [toXattrs, bind_eq_ok_iff]
    constructor
    · rintro ⟨name, t, ht, hrest⟩
      obtain ⟨p, rfl⟩ := readNameIn_eq_ok ht
      exact ⟨name, p, ht, hrest⟩
    · rintro ⟨name, p, hp, hrest⟩
      exact ⟨name, some p, hp, hrest⟩
  constructor
  · intro h
    obtain ⟨hname, havoids⟩ := hreturns.mp h.returns
    refine ⟨hname, fun name p hp => (entryReads_iff name .zero).mp ⟨havoids name p hp, ?_⟩⟩
    intro q hq asked there halloc
    exact (h.pairs q ((hcolumn q).mpr ⟨name, p, hp, hq⟩) asked there halloc).1
  · rintro ⟨hname, hentry⟩
    refine ⟨hreturns.mpr ⟨hname, fun name p hp => ?_⟩, fun _ _ => hname.allocation, ?_⟩
    · exact ((entryReads_iff name .zero).mpr (hentry name p hp)).1
    · intro q hq asked there halloc
      obtain ⟨name, p, hp, hbehind⟩ := (hcolumn q).mp hq
      refine ⟨((entryReads_iff name .zero).mpr (hentry name p hp)).2 q hbehind asked there halloc,
        fun xattrs q' hq' => (xattrsFromLineIn_eq_ok hq').2 asked there halloc⟩

/-- `0001a`, `d` and nothing else, with the usual delimiter. -/
def shortLine : Bytes := [48, 48, 48, 49, 97, 0x1E, 100, 0x1E]

/-- The pointer behind the inode, of which there are no digits, is `NULL`, and the mode is read from
there. -/
theorem not_parsesSafely :
    linetowork fielddelim shortLine .zero = .error .null ∧
      ¬∀ (delim : UInt8) (oldFormat : Bool) (line : Bytes), ParsesSafely delim oldFormat line := by
  have hnull : linetowork fielddelim shortLine .zero = .error .null := by decide
  refine ⟨hnull, fun h => ?_⟩
  exact (h fielddelim false shortLine).returns _ hnull (.inl rfl)

end Main

end Gufi.Trace
