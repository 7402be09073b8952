import Gufi.Reindex

/-!
# Names as they are stored

`insertdbgo`, `insertsumdb` and `insert_snapshot_row` escape texts for SQL and then bind them, and
what is bound is stored as it is. A text with a single quote has two of them in its row. The names
of extended attributes are escaped by one of the functions only, and have to fit into a buffer.
-/

namespace Gufi

section Statement

/-- The names with a delimiter behind each. -/
def xattrNameList (xattrs : List Trace.Xattr) : Bytes :=
  xattrs.flatMap fun x => x.name ++ [Trace.XATTRDELIM]

/-- What `insert_snapshot_row` binds. -/
structure SnapshotInsert where
  name : Bytes
  type : UInt8
  inode : UInt64
  pinode : Int64
  level : ℕ
  suspect : Bool

/-- The parents of the starting path are removed. -/
def insertSnapshotRow (work : Trace.Work) (ed : Trace.EntryData) (level : ℕ) (suspect : Bool)
    (offsetName : ℕ) : SnapshotInsert :=
  ⟨sqlQ (work.name.drop offsetName), ed.type, work.statuso.ino, work.pinode, level, suspect⟩

/-- The texts of an entry are in its row as they are. -/
structure EntriesInsert.Exact (row : EntriesInsert) (work : Trace.Work) (ed : Trace.EntryData) :
    Prop where
  name : row.name = basename work
  linkname : row.linkname = ed.linkname
  xattrNames : row.xattrNames = xattrNameList ed.xattrs
  osstext1 : row.osstext.1 = ed.osstext1
  osstext2 : row.osstext.2 = ed.osstext2

structure SummaryInsert.Exact (row : SummaryInsert) (path : Bytes) (ed : Trace.EntryData) :
    Prop where
  name : row.name = path
  linkname : row.linkname = ed.linkname
  xattrNames : row.xattrNames = xattrNameList ed.xattrs

def SnapshotInsert.Exact (row : SnapshotInsert) (work : Trace.Work) (offsetName : ℕ) : Prop :=
  row.name = work.name.drop offsetName

/-- There is no single quote. -/
def Unquoted (text : Bytes) : Prop := 39 ∉ text

instance (text : Bytes) : Decidable (Unquoted text) := inferInstanceAs (Decidable (_ ∉ _))

/-- The names of the extended attributes and the delimiters fit into the buffer, with a NUL. -/
def NamesFit (xattrs : List Trace.Xattr) : Prop := (xattrNameList xattrs).length < Trace.MAXXATTR

instance (xattrs : List Trace.Xattr) : Decidable (NamesFit xattrs) :=
  inferInstanceAs (Decidable (_ < _))

end Statement

section Texts

variable {text : Bytes} {xattrs : List Trace.Xattr}

theorem count_sqlQ (text : Bytes) : (sqlQ text).count 39 = 2 * text.count 39 := by
  induction text with
  | nil => rfl
  | cons c text ih =>
      have htwo : ([39, 39] : Bytes).count 39 = 2 := rfl
      rw [sqlQ_cons, List.count_append, ih]
      by_cases hc : c = 39
      · rw [if_pos hc, htwo, hc, List.count_cons_self]
        omega
      · rw [if_neg hc, List.count_cons_of_ne hc, List.count_cons_of_ne hc, List.count_nil,
          Nat.zero_add]

theorem sqlQ_of_unquoted (h : Unquoted text) : sqlQ text = text := by
  induction text with
  | nil => rfl
  | cons c text ih =>
      obtain ⟨hc, htext⟩ := not_or.mp (mt List.mem_cons.mpr h)
      rw [sqlQ_cons, if_neg (Ne.symm hc), ih htext]
      rfl

theorem sqlQ_eq_self_iff : sqlQ text = text ↔ Unquoted text := by
  refine ⟨fun h => ?_, sqlQ_of_unquoted⟩
  have hcount := count_sqlQ text
  rw [h] at hcount
  exact List.count_eq_zero.mp (by omega)

theorem take_take_append {α : Type} (l r : List α) (n : ℕ) :
    (l.take n ++ r).take n = (l ++ r).take n := by
  rw [List.take_append, List.take_append, List.take_take, Nat.min_self, List.length_take]
  congr 2
  omega

/-- The loop copies what fits. -/
theorem foldl_xattrNames (xattrs : List Trace.Xattr) {buf : Bytes}
    (hbuf : buf.length ≤ Trace.MAXXATTR - 1) :
    xattrs.foldl (fun buf x =>
      buf ++ (x.name ++ [Trace.XATTRDELIM]).take (Trace.MAXXATTR - buf.length - 1)) buf =
      (buf ++ xattrNameList xattrs).take (Trace.MAXXATTR - 1) := by
  induction xattrs generalizing buf with
  | nil =>
      rw [List.foldl_nil, xattrNameList, List.flatMap_nil, List.append_nil,
        List.take_of_length_le hbuf]
  | cons x xattrs ih =>
      have hpiece : buf ++ (x.name ++ [Trace.XATTRDELIM]).take (Trace.MAXXATTR - buf.length - 1) =
          (buf ++ (x.name ++ [Trace.XATTRDELIM])).take (Trace.MAXXATTR - 1) := by
        rw [@List.take_append _ buf, List.take_of_length_le hbuf, Nat.sub_right_comm]
      have hlen := List.length_take_le (Trace.MAXXATTR - 1) (buf ++ (x.name ++ [Trace.XATTRDELIM]))
      have hlist : xattrNameList (x :: xattrs) =
          (x.name ++ [Trace.XATTRDELIM]) ++ xattrNameList xattrs := List.flatMap_cons ..
      rw [List.foldl_cons, hpiece, ih hlen, hlist, take_take_append]
      simp only [List.append_assoc]

theorem length_xattrNameList (xattrs : List Trace.Xattr) :
    (xattrNameList xattrs).length = (xattrs.map fun x => x.name.length + 1).sum := by
  rw [xattrNameList, List.length_flatMap]
  simp

theorem xattrGetNames_eq (xattrs : List Trace.Xattr) : xattrGetNames xattrs =
    if Trace.MAXXATTR < (xattrNameList xattrs).length then []
    else (xattrNameList xattrs).take (Trace.MAXXATTR - 1) := by
  rw [xattrGetNames, foldl_xattrNames xattrs (Nat.zero_le _), List.nil_append,
    length_xattrNameList]

theorem xattrGetNames_of_fit (h : NamesFit xattrs) :
    xattrGetNames xattrs = xattrNameList xattrs := by
  have hlt : (xattrNameList xattrs).length < Trace.MAXXATTR := h
  rw [xattrGetNames_eq, if_neg (Nat.lt_asymm hlt), List.take_of_length_le (by omega)]

theorem xattrGetNames_eq_iff : xattrGetNames xattrs = xattrNameList xattrs ↔ NamesFit xattrs := by
  refine ⟨fun h => ?_, xattrGetNames_of_fit⟩
  by_contra hnot
  have hle : Trace.MAXXATTR ≤ (xattrNameList xattrs).length := Nat.le_of_not_lt hnot
  have hlen := congrArg List.length h
  rw [xattrGetNames_eq] at hlen
  split at hlen
  · rw [List.length_nil] at hlen
    omega
  · rw [List.length_take, Trace.MAXXATTR] at hlen
    rw [Trace.MAXXATTR] at hle
    omega

theorem exists_xattrNameList (h : xattrs ≠ []) :
    ∃ front, xattrNameList xattrs = front ++ [Trace.XATTRDELIM] := by
  obtain ⟨init, x, rfl⟩ := (List.eq_nil_or_concat' xattrs).resolve_left h
  refine ⟨xattrNameList init ++ x.name, ?_⟩
  rw [xattrNameList, List.flatMap_append, List.flatMap_cons, List.flatMap_nil, List.append_nil,
    List.append_assoc]
  rfl

/-- Quotes that are doubled never make up for what does not fit. -/
theorem sqlQ_xattrGetNames_iff :
    sqlQ (xattrGetNames xattrs) = xattrNameList xattrs ↔
      Unquoted (xattrNameList xattrs) ∧ NamesFit xattrs := by
  constructor
  · intro h
    have hfit : NamesFit xattrs := by
      by_contra hnot
      have hle : Trace.MAXXATTR ≤ (xattrNameList xattrs).length := Nat.le_of_not_lt hnot
      rw [xattrGetNames_eq] at h
      split at h
      · rw [← h] at hle
        exact absurd hle (by decide)
      · -- only the last delimiter is missing
        rename_i hlong
        have hne : xattrs ≠ [] := by
          rintro rfl
          exact absurd hle (by decide)
        obtain ⟨front, hfront⟩ := exists_xattrNameList hne
        have hlen : front.length = Trace.MAXXATTR - 1 := by
          rw [hfront, List.length_append, List.length_singleton] at hle hlong
          omega
        rw [hfront, List.take_left' hlen] at h
        have hcount := congrArg (List.count 39) h
        rw [count_sqlQ, List.count_append, List.count_singleton] at hcount
        have hzero : front.count 39 = 0 := by
          have hdelim : (Trace.XATTRDELIM == (39 : UInt8)) = false := rfl
          rw [hdelim] at hcount
          simp only [Bool.false_eq_true, if_false] at hcount
          omega
        rw [sqlQ_of_unquoted (List.count_eq_zero.mp hzero)] at h
        exact absurd (congrArg List.length h) (by simp)
    rw [xattrGetNames_of_fit hfit, sqlQ_eq_self_iff] at h
    exact ⟨h, hfit⟩
  · rintro ⟨hquote, hfit⟩
    rw [xattrGetNames_of_fit hfit, sqlQ_of_unquoted hquote]

end Texts

section Main

/-- The texts of all rows are those that were given just if none has a single quote and the names of
extended attributes fit. The names of an entry may have quotes. -/
theorem stored_exactly_iff (work : Trace.Work) (ed : Trace.EntryData) (path : Bytes) (su : Sums)
    (level : ℕ) (suspect : Bool) (offsetName : ℕ) :
    ((insertdbgo work ed).Exact work ed ↔ Unquoted (basename work) ∧ Unquoted ed.linkname ∧
      Unquoted ed.osstext1 ∧ Unquoted ed.osstext2 ∧ NamesFit ed.xattrs) ∧
    ((insertsumdb path work ed su).Exact path ed ↔ Unquoted path ∧ Unquoted ed.linkname ∧
      Unquoted (xattrNameList ed.xattrs) ∧ NamesFit ed.xattrs) ∧
    ((insertSnapshotRow work ed level suspect offsetName).Exact work offsetName ↔
      Unquoted (work.name.drop offsetName)) := by
  refine ⟨⟨fun h => ?_, ?_⟩, ⟨fun h => ?_, ?_⟩, sqlQ_eq_self_iff⟩
  · exact ⟨sqlQ_eq_self_iff.mp h.name, sqlQ_eq_self_iff.mp h.linkname,
      sqlQ_eq_self_iff.mp h.osstext1, sqlQ_eq_self_iff.mp h.osstext2,
      xattrGetNames_eq_iff.mp h.xattrNames⟩
  · rintro ⟨hname, hlink, hoss1, hoss2, hfit⟩
    exact ⟨sqlQ_of_unquoted hname, sqlQ_of_unquoted hlink, xattrGetNames_of_fit hfit,
      sqlQ_of_unquoted hoss1, sqlQ_of_unquoted hoss2⟩
  · exact ⟨sqlQ_eq_self_iff.mp h.name, sqlQ_eq_self_iff.mp h.linkname,
      sqlQ_xattrGetNames_iff.mp h.xattrNames⟩
  · rintro ⟨hname, hlink, hnames⟩
    exact ⟨sqlQ_of_unquoted hname, sqlQ_of_unquoted hlink, sqlQ_xattrGetNames_iff.mpr hnames⟩

/-- `it's` -/
def quoted : Bytes := [105, 116, 39, 115]

def quotedEntry : Trace.Work := ⟨quoted, 4, Trace.Stat.zero, 0, 2⟩

/-- Its row has `it''s`, in each of the tables. -/
theorem not_stored_exactly :
    (insertdbgo quotedEntry .zero).name = [105, 116, 39, 39, 115] ∧
      ¬(insertdbgo quotedEntry .zero).Exact quotedEntry .zero ∧
      ¬(insertsumdb quoted quotedEntry .zero zeroit).Exact quoted .zero ∧
      ¬(insertSnapshotRow quotedEntry .zero 0 false 0).Exact quotedEntry 0 := by
  have hname : sqlQ quoted ≠ quoted := by decide
  exact ⟨by decide, fun h => hname h.name, fun h => hname h.name, fun h => hname h⟩

end Main

end Gufi
