import Gufi.SideData
import Gufi.Tsumit

/-!
# Indexing a directory again

`gufi_incremental_update` indexes a suspect directory with `reindex_dir`, which has a loop of its
own over the entries. It skips more names than `descend` does, inserts no extended attributes, and
names the directory by its path. `reindexDir_eq_dir2indexDir_iff` says when none of this shows.
-/

namespace Gufi

open UnixAccess

section Data

/-- What `readdir` says of an entry; `unknown` is one for which `lstat` had to be called and
failed. -/
inductive DirentType
  | directory
  | regular
  | link
  | other
  | unknown
deriving DecidableEq

/-- An entry of a directory of the source tree, with what the calls on its name return. -/
structure Dirent where
  name : Bytes
  type : DirentType
  lstat : Option (Trace.Stat × Int64)
  linkname : Bytes
  xattrs : List Trace.Xattr
deriving DecidableEq

/-- The options that both programs read. -/
structure IndexOptions where
  skip : Bytes → Bool
  processXattrs : Bool
  nobody : Nobody

/-- `%q`: single quotes are doubled. -/
def sqlQ (text : Bytes) : Bytes := text.flatMap fun c => if c = 39 then [39, 39] else [c]

/-- `xattr_get_names`. Names that do not fit are left out altogether, and `SNFORMAT_S` keeps the
last byte of the buffer for its NUL. -/
def xattrGetNames (xattrs : List Trace.Xattr) : Bytes :=
  if Trace.MAXXATTR < (xattrs.map fun x => x.name.length + 1).sum then []
  else xattrs.foldl (fun buf x =>
    buf ++ (x.name ++ [Trace.XATTRDELIM]).take (Trace.MAXXATTR - buf.length - 1)) []

/-- What `insertdbgo` binds. -/
structure EntriesInsert where
  name : Bytes
  type : UInt8
  statuso : Trace.Stat
  linkname : Bytes
  xattrNames : Bytes
  crtime : Int64
  ossint : Int32 × Int32 × Int32 × Int32
  osstext : Bytes × Bytes
deriving DecidableEq

/-- What `insertsumdb` binds. -/
structure SummaryInsert where
  name : Bytes
  type : UInt8
  statuso : Trace.Stat
  linkname : Bytes
  xattrNames : Bytes
  crtime : Int64
  sums : Sums
  pinode : Int64

/-- What is written for a directory: the rows of `entries`, the row of `summary`, and the rows of
extended attributes in `db.db` and in the per-user and per-group databases. -/
structure IndexedDir where
  entries : List EntriesInsert
  summary : SummaryInsert
  xattrs : XattrInserts

end Data

section Shared

def basename (work : Trace.Work) : Bytes := work.name.drop (work.name.length - work.basenameLen)

def insertdbgo (work : Trace.Work) (ed : Trace.EntryData) : EntriesInsert :=
  ⟨sqlQ (basename work), ed.type, work.statuso, sqlQ ed.linkname, xattrGetNames ed.xattrs,
    work.crtime, (ed.ossint1, ed.ossint2, ed.ossint3, ed.ossint4),
    (sqlQ ed.osstext1, sqlQ ed.osstext2)⟩

def insertsumdb (path : Bytes) (work : Trace.Work) (ed : Trace.EntryData) (su : Sums) :
    SummaryInsert :=
  ⟨sqlQ path, ed.type, work.statuso, sqlQ ed.linkname, sqlQ (xattrGetNames ed.xattrs), work.crtime,
    su, work.pinode⟩

def rangeValue (work : Trace.Work) (ed : Trace.EntryData) : RangeField → ℤ
  | .uid => work.statuso.uid.toNat
  | .gid => work.statuso.gid.toNat
  | .size => work.statuso.size.toInt
  | .blocks => work.statuso.blocks.toInt
  | .ctime => work.statuso.ctime.toInt
  | .mtime => work.statuso.mtime.toInt
  | .atime => work.statuso.atime.toInt
  | .crtime => work.crtime.toInt
  | .ossint1 => ed.ossint1.toInt
  | .ossint2 => ed.ossint2.toInt
  | .ossint3 => ed.ossint3.toInt
  | .ossint4 => ed.ossint4.toInt

/-- Sizes and blocks are those of files. -/
def rangeCounts (ed : Trace.EntryData) : RangeField → Bool
  | .size => ed.type = 102
  | .blocks => ed.type = 102
  | _ => true

def timeValue (work : Trace.Work) : TimeField → ℤ
  | .ctime => work.statuso.ctime.toInt
  | .mtime => work.statuso.mtime.toInt
  | .atime => work.statuso.atime.toInt
  | .crtime => work.crtime.toInt

/-- What an entry adds to the other totals. -/
def totValue (work : Trace.Work) (ed : Trace.EntryData) (f : TotField) : ℤ :=
  let size := work.statuso.size.toInt
  let file (counts : Bool) : ℤ := if ed.type = 102 ∧ counts then 1 else 0
  match f with
  | .zero => file (size = 0)
  | .ltk => file (size ≤ 1024)
  | .mtk => file (1024 < size)
  | .ltm => file (size ≤ 1048576)
  | .mtm => file (1048576 < size)
  | .mtg => file (1073741824 < size)
  | .mtt => file (1099511627776 < size)
  | .blocks => if ed.type = 102 then work.statuso.blocks.toInt else 0
  | .xattr => ed.xattrs.length
  | .ossint1 => ed.ossint1.toInt
  | .ossint2 => ed.ossint2.toInt
  | .ossint3 => ed.ossint3.toInt
  | .ossint4 => ed.ossint4.toInt

def sumit (summary : Sums) (item : Trace.Work × Trace.EntryData) : Sums :=
  { summary with
    totfiles := summary.totfiles + if item.2.type = 102 then 1 else 0
    totlinks := summary.totlinks + if item.2.type = 108 then 1 else 0
    totsize := summary.totsize + if item.2.type = 102 then item.1.statuso.size.toInt else 0
    minval := fun f => if rangeCounts item.2 f then
      min (summary.minval f) (rangeValue item.1 item.2 f) else summary.minval f
    maxval := fun f => if rangeCounts item.2 f then
      max (summary.maxval f) (rangeValue item.1 item.2 f) else summary.maxval f
    tottime := fun f => summary.tottime f + timeValue item.1 f
    tot := fun f => summary.tot f + totValue item.1 item.2 f }

variable (o : IndexOptions) (work : Trace.Work)

/-- The extended attributes are read if they are asked for. -/
def gotXattrs (xattrs : List Trace.Xattr) : List Trace.Xattr :=
  if o.processXattrs then xattrs else []

/-- The work item and the data that both loops fill in for a file or a link; nothing for other
entries, and for one that cannot be read. -/
def direntItem (d : Dirent) : Option (Trace.Work × Trace.EntryData) :=
  let child (st : Trace.Stat) (crtime : Int64) : Trace.Work :=
    ⟨work.name ++ 47 :: d.name, d.name.length, st, crtime, work.statuso.ino.toInt64⟩
  let ed : Trace.EntryData := { Trace.EntryData.zero with xattrs := gotXattrs o d.xattrs }
  match d.type, d.lstat with
  | .regular, some (st, crtime) => some (child st crtime, { ed with type := 102 })
  | .link, some (st, crtime) =>
    some (child st crtime, { ed with type := 108, linkname := d.linkname })
  | _, _ => none

/-- The data of the directory itself. -/
def directoryData (xattrs : List Trace.Xattr) : Trace.EntryData :=
  { Trace.EntryData.zero with type := 100, xattrs := gotXattrs o xattrs }

end Shared

section Programs

variable (o : IndexOptions) (work : Trace.Work) (xattrs : List Trace.Xattr) (dirents : List Dirent)

/-- `descend` with `skip_db`. -/
def dir2indexSkips (name : Bytes) : Bool := o.skip name || decide (name = dbname)

/-- Names that end in `db.db` are skipped. -/
def reindexSkips (name : Bytes) : Bool := o.skip name || dbname.isSuffixOf name

/-- The entries that get past the tests of a loop. -/
def loopItems (skips : Bytes → Bool) : List (Trace.Work × Trace.EntryData) :=
  (dirents.filter fun d => !skips d.name).filterMap (direntItem o work)

/-- `processdir` of `gufi_dir2index`. -/
def dir2indexDir : IndexedDir :=
  let items := loopItems o work dirents (dir2indexSkips o)
  let ed := directoryData o xattrs
  let inserts := insertEntries o.nobody (statPermissions work.statuso)
    (items.map fun item => indexedEntry item.1 item.2 work.statuso.ino.toNat)
  { entries := items.map fun item => insertdbgo item.1 item.2
    summary := insertsumdb (basename work) work ed (items.foldl sumit zeroit)
    xattrs := if o.processXattrs then
        { inserts with pwd := inserts.pwd ++ (indexedEntry work ed 0).rows }
      else ⟨[], []⟩ }

/-- `reindex_dir`. -/
def reindexDir : IndexedDir :=
  let items := loopItems o work dirents (reindexSkips o)
  { entries := items.map fun item => insertdbgo item.1 item.2
    summary := insertsumdb work.name work (directoryData o xattrs) (items.foldl sumit zeroit)
    xattrs := ⟨[], []⟩ }

end Programs

section Names

theorem sqlQ_cons (c : UInt8) (text : Bytes) :
    sqlQ (c :: text) = (if c = 39 then [39, 39] else [c]) ++ sqlQ text := List.flatMap_cons ..

theorem length_le_length_sqlQ (text : Bytes) : text.length ≤ (sqlQ text).length := by
  induction text with
  | nil => exact le_rfl
  | cons c text ih =>
      have hone : 1 ≤ (if c = 39 then [39, 39] else [c] : Bytes).length := by split_ifs <;> simp
      rw [sqlQ_cons, List.length_append, List.length_cons]
      omega

theorem sqlQ_append (a b : Bytes) : sqlQ (a ++ b) = sqlQ a ++ sqlQ b := List.flatMap_append

/-- The name of a directory is its path only where nothing comes before the name. -/
theorem sqlQ_name_eq_sqlQ_basename_iff {work : Trace.Work}
    (hlen : work.basenameLen ≤ work.name.length) :
    sqlQ work.name = sqlQ (basename work) ↔ work.basenameLen = work.name.length := by
  constructor
  · intro h
    have hsplit := List.take_append_drop (work.name.length - work.basenameLen) work.name
    have hparent := length_le_length_sqlQ (work.name.take (work.name.length - work.basenameLen))
    have hquoted : (sqlQ work.name).length =
        (sqlQ (work.name.take (work.name.length - work.basenameLen))).length +
          (sqlQ (basename work)).length := by
      rw [← List.length_append, basename, ← sqlQ_append, hsplit]
    rw [h] at hquoted
    rw [List.length_take] at hparent
    omega
  · intro h
    rw [basename, h, Nat.sub_self, List.drop_zero]

end Names

section Loops

variable {α β : Type*} {p q : α → Bool} {f : α → Option β}

theorem filterMap_filter_sublist (hpq : ∀ a, p a → q a) (l : List α) :
    ((l.filter p).filterMap f).Sublist ((l.filter q).filterMap f) :=
  (List.monotone_filter_right l hpq).filterMap f

/-- A loop that skips more entries gets the same ones exactly if none of those was of use. -/
theorem filterMap_filter_eq_iff (hpq : ∀ a, p a → q a) (l : List α) :
    (l.filter p).filterMap f = (l.filter q).filterMap f ↔
      ∀ a ∈ l, q a → (f a).isSome → p a := by
  induction l with
  | nil => simp
  | cons a l ih =>
      have hsub := filterMap_filter_sublist (f := f) hpq l
      rw [List.forall_mem_cons, ← ih]
      by_cases hp : p a
      · have hq := hpq a hp
        cases hf : f a <;> simp [hp, hq, hf]
      · by_cases hq : q a
        · cases hf : f a with
          | none => simp [hp, hq, hf]
          | some b =>
              have hne : (l.filter p).filterMap f ≠ b :: (l.filter q).filterMap f := by
                intro heq
                have hle := hsub.length_le
                rw [heq, List.length_cons] at hle
                omega
              simp [hp, hq, hf, hne]
        · simp [hp, hq]

end Loops

section Inserts

variable {nobody : Nobody} {dir : Permissions}

theorem dbs_insertdbgoXattrs_eq_nil_iff (e : IndexedEntry) (s : XattrInserts) :
    (insertdbgoXattrs nobody dir e s).1.dbs = [] ↔ s.dbs = [] ∧
      (e.xattrs = [] ∨ xattrCanRollin dir e.perms ≠ 0 ∨ e.perms.uid = nobody.uid) :=
  dbs_insertEntry_eq_nil_iff (s := { SideData.empty with inserts := s }) e

theorem dbs_insertEntries_eq_nil_iff (es : List IndexedEntry) :
    (insertEntries nobody dir es).dbs = [] ↔
      ∀ e ∈ es, e.xattrs = [] ∨ xattrCanRollin dir e.perms ≠ 0 ∨ e.perms.uid = nobody.uid := by
  have hgen : ∀ s : XattrInserts,
      (es.foldl (fun s e => (insertdbgoXattrs nobody dir e s).1) s).dbs = [] ↔ s.dbs = [] ∧
        ∀ e ∈ es, e.xattrs = [] ∨ xattrCanRollin dir e.perms ≠ 0 ∨ e.perms.uid = nobody.uid := by
    induction es with
    | nil => simp
    | cons e es ih =>
        intro s
        rw [List.foldl_cons, ih, dbs_insertdbgoXattrs_eq_nil_iff, List.forall_mem_cons, and_assoc]
  rw [insertEntries, hgen, and_iff_right rfl]

theorem pwd_insertEntries_eq_nil_iff (es : List IndexedEntry) :
    (insertEntries nobody dir es).pwd = [] ↔
      ∀ e ∈ es, xattrCanRollin dir e.perms ≠ 0 → e.xattrs = [] := by
  rw [pwd_insertEntries, List.flatMap_eq_nil_iff]
  simp [IndexedEntry.rows]

end Inserts

section Agreement

variable {o : IndexOptions} {work : Trace.Work} {xattrs : List Trace.Xattr} {dirents : List Dirent}

/-- No entry that `gufi_dir2index` keeps has a name that ends in `db.db`. -/
def NoEndsInDbname (o : IndexOptions) (work : Trace.Work) (dirents : List Dirent) : Prop :=
  ∀ d ∈ dirents, dir2indexSkips o d.name = false → (direntItem o work d).isSome →
    ¬dbname <:+ d.name

/-- No extended attribute has a place to go: neither the directory nor an entry has any, except for
entries of nobody that have to stay out of `db.db`. -/
def NoXattrPlace (o : IndexOptions) (work : Trace.Work) (xattrs : List Trace.Xattr)
    (dirents : List Dirent) : Prop :=
  xattrs = [] ∧ ∀ item ∈ loopItems o work dirents (dir2indexSkips o), item.2.xattrs = [] ∨
    (xattrCanRollin (statPermissions work.statuso) (statPermissions item.1.statuso) = 0 ∧
      item.1.statuso.uid.toNat = o.nobody.uid)

theorem dir2index_keeps_of_reindex_keeps (o : IndexOptions) (d : Dirent)
    (hd : (!reindexSkips o d.name) = true) : (!dir2indexSkips o d.name) = true := by
  simp only [reindexSkips, dir2indexSkips, Bool.not_eq_true', Bool.or_eq_false_iff,
    decide_eq_false_iff_not] at hd ⊢
  refine ⟨hd.1, fun heq => ?_⟩
  rw [heq] at hd
  exact absurd hd.2 (by simp)

theorem loopItems_sublist : (loopItems o work dirents (reindexSkips o)).Sublist
    (loopItems o work dirents (dir2indexSkips o)) :=
  filterMap_filter_sublist (dir2index_keeps_of_reindex_keeps o) dirents

theorem loopItems_eq_iff :
    loopItems o work dirents (reindexSkips o) = loopItems o work dirents (dir2indexSkips o) ↔
      NoEndsInDbname o work dirents := by
  rw [loopItems, loopItems,
    filterMap_filter_eq_iff (dir2index_keeps_of_reindex_keeps o)]
  refine forall₂_congr fun d hd => ?_
  simp only [reindexSkips, dir2indexSkips, Bool.not_eq_true', Bool.or_eq_false_iff]
  refine forall_congr' fun hkept => forall_congr' fun _ => ?_
  rw [and_iff_right hkept.1, ← Bool.not_eq_true, List.isSuffixOf_iff_suffix]

theorem dir2index_xattrs_eq_nil_iff :
    (dir2indexDir o work xattrs dirents).xattrs = ⟨[], []⟩ ↔
      (o.processXattrs → NoXattrPlace o work xattrs dirents) := by
  by_cases hon : o.processXattrs
  · have hdirectory : (indexedEntry work (directoryData o xattrs) 0).rows = [] ↔ xattrs = [] := by
      simp [indexedEntry, IndexedEntry.rows, directoryData, gotXattrs, hon]
    rw [dir2indexDir]
    simp only [hon, if_true, forall_true_left, XattrInserts.mk.injEq, List.append_eq_nil_iff,
      pwd_insertEntries_eq_nil_iff, dbs_insertEntries_eq_nil_iff, hdirectory, List.forall_mem_map]
    have hnone : ∀ item : Trace.Work × Trace.EntryData,
        (indexedEntry item.1 item.2 work.statuso.ino.toNat).xattrs = [] ↔ item.2.xattrs = [] :=
      fun _ => List.map_eq_nil_iff
    simp only [hnone, NoXattrPlace]
    constructor
    · rintro ⟨⟨hpwd, hown⟩, hdbs⟩
      refine ⟨hown, fun item hitem => ?_⟩
      rcases hdbs item hitem with hx | hrollin | hnobody
      · exact .inl hx
      · exact .inl (hpwd item hitem hrollin)
      · by_cases hrollin : xattrCanRollin (statPermissions work.statuso)
            (statPermissions item.1.statuso) = 0
        · exact .inr ⟨hrollin, hnobody⟩
        · exact .inl (hpwd item hitem hrollin)
    · rintro ⟨hown, hitems⟩
      refine ⟨⟨fun item hitem hrollin => ?_, hown⟩, fun item hitem => ?_⟩
      · exact (hitems item hitem).resolve_right fun h => hrollin h.1
      · exact (hitems item hitem).imp_right fun h => .inr h.2
  · simp [dir2indexDir, hon]

/-- The directory `/t` with inode 2. -/
def reindexWork : Trace.Work :=
  ⟨[47, 116], 1, ⟨2, 0o40755, 2, 1000, 1000, 4096, 4096, 8, 0, 0, 0⟩, 0, 1⟩

/-- A file with the given name. -/
def reindexFile (name : Bytes) : Dirent :=
  ⟨name, .regular, some (⟨7, 0o100644, 1, 1000, 1000, 3, 4096, 8, 0, 0, 0⟩, 0), [], []⟩

def reindexOptions : IndexOptions :=
  ⟨fun name => name = [46] ∨ name = [46, 46], false, ⟨65534, 65534⟩⟩

end Agreement

end Gufi
