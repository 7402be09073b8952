import Gufi.SqlTable
import Gufi.StoredText
import Mathlib.Data.Set.List

/-!
# Extended attributes restored from an index

For every file of a directory, and for the directory itself, `gufi_index2dir` allocates as many
pairs as its row of `entries` or `summary` has delimiters in `xattr_names`, and fills them from a
view that joins the rows of the table with the attributes in `db.db` and in the side databases that
could be attached. The view is looked up by inode, so files that are hard links of each other get
the attributes of all of them.
-/

namespace Gufi.RestoreXattrs

open Stdio SqlTable UnixAccess

section Statement

/-- What `get_xattr` does where it should not: it takes the length of a missing value, or writes
behind the pairs. -/
inductive Misuse
  | missing
  | overrun
deriving DecidableEq

/-- `struct xattrs`; `pairs` is what was allocated. -/
structure XattrArray where
  pairs : List Trace.Xattr
  nameLen : ℕ
  len : ℕ
  count : ℕ
deriving DecidableEq

def XattrArray.empty : XattrArray := ⟨[], 0, 0, 0⟩

/-- What fits into the buffers of a pair. -/
def kept (name value : Bytes) : Trace.Xattr :=
  ⟨(Trace.cString name).take (Trace.MAXXATTR - 1),
    (Trace.cString value).take (Trace.MAXXATTR - 1)⟩

/-- `get_xattr`; `none` is a row without an attribute. -/
def getXattr (xattrs : XattrArray) (row : Option (Bytes × Bytes)) : Except Misuse XattrArray :=
  match row with
  | none => .error .missing
  | some (name, value) =>
    if xattrs.count < xattrs.pairs.length then
      let xattr := kept name value
      .ok ⟨xattrs.pairs.set xattrs.count xattr, xattrs.nameLen + xattr.name.length,
        xattrs.len + xattr.name.length + xattr.value.length, xattrs.count + 1⟩
    else .error .overrun

/-- `get_xattrs`, with the rows its query returns. -/
def getXattrs (xattrNames : Bytes) (rows : List (Option (Bytes × Bytes))) :
    Except Misuse XattrArray :=
  if xattrNames = [] then .ok .empty
  else rows.foldlM getXattr
    ⟨List.replicate (xattrNames.count Trace.XATTRDELIM) ⟨[], []⟩, 0, 0, 0⟩

/-- The inode in `entries` and `summary`: `%lu`. -/
def inodeText (ino : UInt64) : Bytes := numeral 10 ino.toNat

/-- The inode in a table of attributes, which was bound as a signed number. -/
def storedInode (row : XattrRow) : Bytes := signed (Int64.ofNat row.inode).toInt

/-- `setup_xattrs_views`; `attach` is which side databases could be attached. -/
def setupXattrsViews (attach : Bytes → Bool) (x : XattrInserts) : List XattrRow :=
  union ((x.dbs.filter fun db => attach db.filename).flatMap IndexedXattrDb.rows) x.pwd

/-- `SELECT xattr_name, xattr_value FROM xentries WHERE inode == '...';` where the table that is
joined has the given inodes. -/
def selectXattrs (inodes : List UInt64) (xattrs : List XattrRow) (ino : UInt64) :
    List (Option (Bytes × Bytes)) :=
  ((leftJoin (fun i row => decide (inodeText i = storedInode row)) inodes xattrs).filter
    fun row => decide (inodeText row.1 = inodeText ino)).map
      fun row => row.2.map fun x => (x.name, x.value)

/-- In whichever order the rows come, the pairs are the attributes, each once. -/
def Restored (attrs : List Trace.Xattr) (xattrNames : Bytes)
    (selected : List (Option (Bytes × Bytes))) : Prop :=
  ∀ rows, rows.Perm selected →
    ∃ x, getXattrs xattrNames rows = .ok x ∧ (x.pairs.take x.count).Perm attrs

variable (o : IndexOptions) (work : Trace.Work) (xattrs : List Trace.Xattr) (dirents : List Dirent)
  (attach : Bytes → Bool)

/-- `process_entries` and `process_summary` restore the attributes of every file and of the
directory. -/
structure RestoresXattrs : Prop where
  entries : ∀ item ∈ loopItems o work dirents (dir2indexSkips o), item.2.type = 102 →
    let d := dir2indexDir o work xattrs dirents
    Restored item.2.xattrs (insertdbgo item.1 item.2).xattrNames
      (selectXattrs (d.entries.map fun row => row.statuso.ino) (setupXattrsViews attach d.xattrs)
        item.1.statuso.ino)
  directory :
    let d := dir2indexDir o work xattrs dirents
    Restored (gotXattrs o xattrs) d.summary.xattrNames
      (selectXattrs [d.summary.statuso.ino] (setupXattrsViews attach d.xattrs) work.statuso.ino)

/-- What `listxattr` returns: names that differ, with a NUL behind each. -/
structure Listed (attrs : List Trace.Xattr) : Prop where
  nodup : (attrs.map Trace.Xattr.name).Nodup
  nul : ∀ x ∈ attrs, 0 ∉ x.name

/-- What the system says of a directory and of what is in it. -/
structure SourceDir : Prop where
  directory : Listed xattrs
  entries : ∀ t ∈ dirents, Listed t.xattrs
  inode : ∀ item ∈ loopItems o work dirents (dir2indexSkips o),
    item.1.statuso.ino ≠ work.statuso.ino

def rowOf (ino : UInt64) (x : Trace.Xattr) : XattrRow := ⟨ino.toNat, x.name, x.value⟩

/-- The row is in `db.db` or in a side database that is attached. -/
def Stored (attach : Bytes → Bool) (x : XattrInserts) (row : XattrRow) : Prop :=
  row ∈ x.pwd ∨ ∃ db ∈ x.dbs, attach db.filename ∧ row ∈ db.rows

/-- The inode is no negative number when it is bound, the values are texts that fit, no pair is
missing in the count of the names, and all attributes can be reached. -/
structure Recoverable (x : XattrInserts) (ino : UInt64) (attrs : List Trace.Xattr) : Prop where
  inode : ino.toNat < 2 ^ 63
  value : ∀ a ∈ attrs, 0 ∉ a.value ∧ a.value.length < Trace.MAXXATTR
  names : NamesFit attrs ∨ (xattrNameList attrs).length = Trace.MAXXATTR ∧
    ∃ a ∈ attrs, Trace.XATTRDELIM ∈ a.name
  stored : ∀ a ∈ attrs, Stored attach x (rowOf ino a)

/-- What there is to restore is recoverable, and no entry is a hard link of a file with
attributes. -/
structure Exact : Prop where
  entries : ∀ item ∈ loopItems o work dirents (dir2indexSkips o), item.2.type = 102 →
    item.2.xattrs ≠ [] →
      Recoverable attach (dir2indexDir o work xattrs dirents).xattrs item.1.statuso.ino
        item.2.xattrs ∧
      ((loopItems o work dirents (dir2indexSkips o)).map fun other =>
        other.1.statuso.ino).count item.1.statuso.ino = 1
  directory : gotXattrs o xattrs ≠ [] →
    Recoverable attach (dir2indexDir o work xattrs dirents).xattrs work.statuso.ino
      (gotXattrs o xattrs)

end Statement

section Rows

variable {P : XattrRow → Prop} {nobody : Nobody} {dir : Permissions}

/-- Every row of every database is one of `P`. -/
def AllRows (P : XattrRow → Prop) (dbs : List IndexedXattrDb) : Prop :=
  ∀ db ∈ dbs, ∀ row ∈ db.rows, P row

theorem AllRows.findOrCreate {dbs dbs' : List IndexedXattrDb} {found : Option ℕ}
    {pinode uid gid mode i : ℕ} (h : AllRows P dbs)
    (hfind : findOrCreate found (createXattrDb nobody pinode uid gid mode) dbs = some (i, dbs')) :
    AllRows P dbs' := by
  cases found with
  | some j =>
      obtain ⟨-, rfl⟩ := Prod.mk.inj (Option.some.inj hfind)
      exact h
  | none =>
      obtain ⟨x, hx, hpair⟩ := Option.map_eq_some_iff.mp hfind
      obtain ⟨-, rfl⟩ := Prod.mk.inj hpair
      intro db hdb row hrow
      rcases List.mem_append.mp hdb with hdb | hdb
      · exact h db hdb row hrow
      · -- a new database is empty
        have hrows : x.rows = [] := by
          unfold createXattrDb at hx
          split_ifs at hx <;> exact (Option.some.inj hx) ▸ rfl
        rw [List.mem_singleton.mp hdb, hrows] at hrow
        cases hrow

theorem AllRows.insertRows {dbs : List IndexedXattrDb} {rows : List XattrRow} (h : AllRows P dbs)
    (hrows : ∀ row ∈ rows, P row) (i : ℕ) : AllRows P (insertRows rows i dbs) := by
  intro db hdb row hrow
  obtain ⟨j, hj⟩ := List.getElem?_of_mem hdb
  rw [Gufi.insertRows, List.getElem?_modify] at hj
  obtain ⟨db', hdb', rfl⟩ := Option.map_eq_some_iff.mp hj
  have hold := h db' (List.mem_of_getElem? hdb')
  split_ifs at hrow
  · rcases List.mem_append.mp hrow with hrow | hrow
    · exact hold row hrow
    · exact hrows row hrow
  · exact hold row hrow

theorem AllRows.insertdbgoXattrs {e : IndexedEntry} {s : XattrInserts} (h : AllRows P s.dbs)
    (hrows : ∀ row ∈ e.rows, P row) : AllRows P (insertdbgoXattrs nobody dir e s).1.dbs := by
  unfold Gufi.insertdbgoXattrs
  split_ifs
  · exact h
  · exact h
  · dsimp only
    split
    · exact h
    · rename_i uidDb dbs₁ hfind
      have h₁ := h.findOrCreate hfind
      split
      · exact h₁
      · rename_i gidDb dbs₂ hfind'
        exact ((h₁.findOrCreate hfind').insertRows hrows uidDb).insertRows hrows gidDb

/-- What is stored comes from the entries. -/
theorem stored_insertEntries {attach : Bytes → Bool} {es : List IndexedEntry} {row : XattrRow}
    (h : Stored attach (insertEntries nobody dir es) row) : ∃ e ∈ es, row ∈ e.rows := by
  have hgen : ∀ (done rest : List IndexedEntry) (s : XattrInserts), done ++ rest = es →
      AllRows (fun row => ∃ e ∈ es, row ∈ e.rows) s.dbs →
      AllRows (fun row => ∃ e ∈ es, row ∈ e.rows)
        (rest.foldl (fun s e => (insertdbgoXattrs nobody dir e s).1) s).dbs := by
    intro done rest
    induction rest generalizing done with
    | nil => exact fun s _ hs => hs
    | cons e rest ih =>
        intro s hsplit hs
        have he : e ∈ es := hsplit ▸ List.mem_append_right done (List.mem_cons_self ..)
        exact ih (done ++ [e]) _ (by rw [← hsplit, List.append_assoc]; rfl)
          (hs.insertdbgoXattrs fun row hrow => ⟨e, he, hrow⟩)
  rcases h with hpwd | ⟨db, hdb, -, hrow⟩
  · rw [pwd_insertEntries] at hpwd
    obtain ⟨e, he, hrow⟩ := List.mem_flatMap.mp hpwd
    exact ⟨e, List.mem_of_mem_filter he, hrow⟩
  · exact hgen [] es ⟨[], []⟩ rfl (fun db hdb => absurd hdb List.not_mem_nil) db hdb row hrow

theorem mem_rows_indexedEntry {work : Trace.Work} {ed : Trace.EntryData} {pinode : ℕ}
    {row : XattrRow} : row ∈ (indexedEntry work ed pinode).rows ↔
      ∃ a ∈ ed.xattrs, row = rowOf work.statuso.ino a := by
  simp only [indexedEntry, IndexedEntry.rows, List.map_map, List.mem_map, rowOf]
  exact exists_congr fun a => and_congr_right fun _ => eq_comm

variable {o : IndexOptions} {work : Trace.Work} {xattrs : List Trace.Xattr} {dirents : List Dirent}
  {attach : Bytes → Bool}

/-- An attribute in the index is one of the directory or of an entry. -/
theorem stored_dir2indexDir {row : XattrRow}
    (h : Stored attach (dir2indexDir o work xattrs dirents).xattrs row) :
    (∃ a ∈ gotXattrs o xattrs, row = rowOf work.statuso.ino a) ∨
      ∃ item ∈ loopItems o work dirents (dir2indexSkips o), ∃ a ∈ item.2.xattrs,
        row = rowOf item.1.statuso.ino a := by
  cases hon : o.processXattrs with
  | false =>
      have hnone : (dir2indexDir o work xattrs dirents).xattrs = ⟨[], []⟩ := by
        simp [dir2indexDir, hon]
      rw [hnone] at h
      rcases h with hpwd | ⟨db, hdb, -⟩
      · cases hpwd
      · cases hdb
  | true =>
      have hpwd : row ∈ (indexedEntry work (directoryData o xattrs) 0).rows ∨
          Stored attach (insertEntries o.nobody (statPermissions work.statuso)
            ((loopItems o work dirents (dir2indexSkips o)).map fun item =>
              indexedEntry item.1 item.2 work.statuso.ino.toNat)) row := by
        simp only [dir2indexDir, hon, if_true, Stored, List.mem_append] at h
        tauto
      rcases hpwd with hown | hentry
      · exact .inl (mem_rows_indexedEntry.mp hown)
      · obtain ⟨e, he, hrow⟩ := stored_insertEntries hentry
        obtain ⟨item, hitem, rfl⟩ := List.mem_map.mp he
        exact .inr ⟨item, hitem, mem_rows_indexedEntry.mp hrow⟩

end Rows

section View

variable {attach : Bytes → Bool} {x : XattrInserts} {inodes : List UInt64} {ino : UInt64}

theorem mem_setupXattrsViews {row : XattrRow} :
    row ∈ setupXattrsViews attach x ↔ Stored attach x row := by
  rw [setupXattrsViews, mem_union, List.mem_flatMap, Stored, or_comm]
  refine or_congr_right (exists_congr fun db => ?_)
  rw [List.mem_filter, and_assoc]

theorem inodeText_injective {i j : UInt64} (h : inodeText i = inodeText j) : i = j := by
  have hread := readDecimal_numeral i.toNat
  rw [show numeral 10 i.toNat = numeral 10 j.toNat from h, readDecimal_numeral] at hread
  exact (UInt64.toNat_inj.mp (Prod.mk.inj (Option.some.inj hread)).2).symm

/-- The inodes are written alike just if the number is not negative when it is signed. -/
theorem inodeText_eq_storedInode_iff {i j : UInt64} {a : Trace.Xattr} :
    inodeText i = storedInode (rowOf j a) ↔ j = i ∧ i.toNat < 2 ^ 63 := by
  have hbound := j.toNat_lt
  have hint : (Int64.ofNat j.toNat).toInt =
      if j.toNat < 2 ^ 63 then (j.toNat : ℤ) else (j.toNat : ℤ) - 2 ^ 64 := by
    have hsize : ((Int64.size : ℕ) : ℤ) = 2 ^ 64 := rfl
    rw [Int64.toInt_ofNat', Int.bmod_def, hsize]
    split_ifs <;> omega
  rw [storedInode, rowOf, hint]
  split_ifs with hlt
  · rw [signed, if_neg (by omega), Int.natAbs_natCast]
    constructor
    · intro h
      obtain rfl := inodeText_injective h
      exact ⟨rfl, hlt⟩
    · rintro ⟨rfl, -⟩
      rfl
  · -- a minus
    constructor
    · intro h
      have hread := readDecimal_signed ((j.toNat : ℤ) - 2 ^ 64)
      rw [← h, inodeText, readDecimal_numeral, decide_eq_true (by omega)] at hread
      exact absurd (Prod.mk.inj (Option.some.inj hread)).1 Bool.false_ne_true
    · rintro ⟨rfl, hge⟩
      exact absurd hge hlt

/-- The rows of the view that are joined with an inode. -/
def matched (xattrs : List XattrRow) (ino : UInt64) : List XattrRow :=
  xattrs.filter fun row => decide (inodeText ino = storedInode row)

/-- What is selected for an inode has its attributes as often as there are rows with it. -/
theorem selectXattrs_eq (inodes : List UInt64) (xattrs : List XattrRow) (ino : UInt64) :
    selectXattrs inodes xattrs ino =
      (List.replicate (inodes.count ino) (match matched xattrs ino with
        | [] => [none]
        | rows => rows.map fun row => some (row.name, row.value))).flatten := by
  have hfilter : inodes.filter (fun i => decide (inodeText i = inodeText ino)) =
      List.replicate (inodes.count ino) ino := by
    rw [← List.filter_eq]
    refine List.filter_congr fun i _ => ?_
    exact decide_eq_decide.mpr ⟨inodeText_injective, congrArg inodeText⟩
  rw [selectXattrs, filter_leftJoin (fun i => decide (inodeText i = inodeText ino)), hfilter]
  have hmap := congrArg (List.map (Option.map fun row : XattrRow => (row.name, row.value)))
    (@leftJoin_replicate _ _ (fun i row => decide (inodeText i = storedInode row))
      (inodes.count ino) ino xattrs)
  rw [List.map_map, List.map_flatten, List.map_replicate] at hmap
  refine hmap.trans ?_
  rw [joined, matched]
  cases xattrs.filter fun row => decide (inodeText ino = storedInode row) with
  | nil => rfl
  | cons row rows => rw [List.map_map]; rfl

end View

section Pairs

variable {x : XattrArray} {attrs : List Trace.Xattr} {xattrNames : Bytes}

/-- One more pair. -/
def XattrArray.push (x : XattrArray) (v : Bytes × Bytes) : XattrArray :=
  ⟨x.pairs.set x.count (kept v.1 v.2), x.nameLen + (kept v.1 v.2).name.length,
    x.len + (kept v.1 v.2).name.length + (kept v.1 v.2).value.length, x.count + 1⟩

theorem getXattr_eq_ok_iff {row : Option (Bytes × Bytes)} {x' : XattrArray} :
    getXattr x row = .ok x' ↔
      ∃ v, row = some v ∧ x.count < x.pairs.length ∧ x' = x.push v := by
  cases row with
  | none => simp [getXattr]
  | some v =>
      obtain ⟨name, value⟩ := v
      by_cases hroom : x.count < x.pairs.length
      · simp [getXattr, hroom, XattrArray.push, eq_comm]
      · simp [getXattr, hroom]

theorem take_pairs_push (h : x.count < x.pairs.length) (v : Bytes × Bytes) :
    (x.push v).pairs.take (x.push v).count = x.pairs.take x.count ++ [kept v.1 v.2] := by
  have hlen : x.count < (x.pairs.set x.count (kept v.1 v.2)).length := by
    rwa [List.length_set]
  rw [XattrArray.push, List.take_add_one, List.getElem?_eq_getElem hlen, List.getElem_set_self,
    List.take_set_of_le le_rfl]
  rfl

/-- The rows are read to their end just if none misses its attribute and there is room. -/
theorem foldlM_getXattr_eq_ok_iff {rows : List (Option (Bytes × Bytes))} {x' : XattrArray}
    (hcount : x.count ≤ x.pairs.length) :
    rows.foldlM getXattr x = .ok x' ↔
      ∃ vals : List (Bytes × Bytes), rows = vals.map some ∧
        x.count + vals.length ≤ x.pairs.length ∧ x' = vals.foldl XattrArray.push x := by
  induction rows generalizing x with
  | nil =>
      constructor
      · intro h
        exact ⟨[], rfl, hcount, (Except.ok.inj h).symm⟩
      · rintro ⟨vals, hvals, -, rfl⟩
        rw [List.map_eq_nil_iff.mp hvals.symm]
        rfl
  | cons row rows ih =>
      rw [List.foldlM_cons]
      constructor
      · intro h
        cases hrow : getXattr x row with
        | error e =>
            rw [hrow] at h
            cases h
        | ok y =>
            rw [hrow] at h
            obtain ⟨v, rfl, hroom, rfl⟩ := getXattr_eq_ok_iff.mp hrow
            have hlen : (x.push v).pairs.length = x.pairs.length := List.length_set
            have hcount' : (x.push v).count ≤ (x.push v).pairs.length := by
              rw [hlen]
              exact hroom
            obtain ⟨vals, rfl, hle, rfl⟩ := (ih hcount').mp h
            rw [hlen] at hle
            refine ⟨v :: vals, rfl, ?_, rfl⟩
            rw [List.length_cons]
            change x.count + 1 + vals.length ≤ x.pairs.length at hle
            omega
      · rintro ⟨vals, hvals, hle, rfl⟩
        obtain ⟨v, rest, rfl, rfl, rfl⟩ := List.map_eq_cons_iff.mp hvals.symm
        rw [List.length_cons] at hle
        have hrow : getXattr x (some v) = .ok (x.push v) :=
          getXattr_eq_ok_iff.mpr ⟨v, rfl, by omega, rfl⟩
        have hlen : (x.push v).pairs.length = x.pairs.length := List.length_set
        rw [hrow]
        refine (ih ?_).mpr ⟨rest, rfl, ?_, rfl⟩
        · rw [hlen]
          change x.count + 1 ≤ x.pairs.length
          omega
        · rw [hlen]
          change x.count + 1 + rest.length ≤ x.pairs.length
          omega

theorem take_pairs_foldl_push (vals : List (Bytes × Bytes))
    (h : x.count + vals.length ≤ x.pairs.length) :
    (vals.foldl XattrArray.push x).pairs.take (vals.foldl XattrArray.push x).count =
      x.pairs.take x.count ++ vals.map fun v => kept v.1 v.2 := by
  induction vals generalizing x with
  | nil => rw [List.map_nil, List.append_nil]; rfl
  | cons v vals ih =>
      rw [List.length_cons] at h
      have hlen : (x.push v).pairs.length = x.pairs.length := List.length_set
      have hnext : (x.push v).count + vals.length ≤ (x.push v).pairs.length := by
        rw [hlen]
        change x.count + 1 + vals.length ≤ x.pairs.length
        omega
      rw [List.foldl_cons, ih hnext, take_pairs_push (by omega), List.map_cons, List.append_assoc]
      rfl

/-- What the rows have to be like. -/
theorem restored_iff {selected : List (Option (Bytes × Bytes))} (hne : attrs ≠ []) :
    Restored attrs xattrNames selected ↔
      ∃ vals : List (Bytes × Bytes), selected = vals.map some ∧
        vals.length ≤ xattrNames.count Trace.XATTRDELIM ∧
        (vals.map fun v => kept v.1 v.2).Perm attrs := by
  have hstart : ∀ vals : List (Bytes × Bytes),
      vals.length ≤ xattrNames.count Trace.XATTRDELIM →
      (0 : ℕ) + vals.length ≤
        (List.replicate (xattrNames.count Trace.XATTRDELIM) (⟨[], []⟩ : Trace.Xattr)).length := by
    intro vals hle
    rwa [List.length_replicate, Nat.zero_add]
  constructor
  · intro h
    obtain ⟨x, hx, hperm⟩ := h selected (List.Perm.refl _)
    rw [getXattrs] at hx
    split_ifs at hx with hnames
    · obtain rfl := Except.ok.inj hx
      exact absurd hperm.symm.eq_nil hne
    · obtain ⟨vals, hvals, hle, rfl⟩ := (foldlM_getXattr_eq_ok_iff (Nat.zero_le _)).mp hx
      rw [take_pairs_foldl_push vals hle] at hperm
      rw [List.length_replicate] at hle
      exact ⟨vals, hvals, by simpa using hle, hperm⟩
  · rintro ⟨vals, rfl, hle, hperm⟩ rows hrows
    obtain ⟨vals', rfl⟩ : rows ∈ Set.range (List.map (some : Bytes × Bytes → _)) := by
      rw [Set.range_list_map]
      intro row hrow
      obtain ⟨v, -, rfl⟩ := List.mem_map.mp (hrows.subset hrow)
      exact ⟨v, rfl⟩
    have hvals' : vals'.Perm vals := (List.map_perm_map_iff (Option.some_injective _)).mp hrows
    have hle' := hvals'.length_eq.trans_le hle
    have hnames : xattrNames ≠ [] := by
      rintro rfl
      have hnil : vals = [] := List.length_eq_zero_iff.mp (Nat.le_zero.mp hle)
      rw [hnil] at hperm
      exact hne hperm.symm.eq_nil
    refine ⟨vals'.foldl XattrArray.push
      ⟨List.replicate (xattrNames.count Trace.XATTRDELIM) ⟨[], []⟩, 0, 0, 0⟩, ?_, ?_⟩
    · rw [getXattrs, if_neg hnames]
      exact (foldlM_getXattr_eq_ok_iff (Nat.zero_le _)).mpr ⟨vals', rfl, hstart vals' hle', rfl⟩
    · rw [take_pairs_foldl_push vals' (hstart vals' hle')]
      exact (hvals'.map _).trans hperm

end Pairs

section Names

variable {attrs : List Trace.Xattr}

theorem count_delim_sqlQ (text : Bytes) :
    (sqlQ text).count Trace.XATTRDELIM = text.count Trace.XATTRDELIM := by
  induction text with
  | nil => rfl
  | cons c text ih =>
      rw [sqlQ_cons, List.count_append, ih]
      by_cases hc : c = 39
      · have hquote : c ≠ Trace.XATTRDELIM := hc ▸ by decide
        rw [if_pos hc, List.count_cons_of_ne hquote]
        exact Nat.zero_add _
      · rw [if_neg hc, ← List.count_append]
        rfl

theorem count_xattrNameList (attrs : List Trace.Xattr) :
    (xattrNameList attrs).count Trace.XATTRDELIM =
      attrs.length + (attrs.map fun a => a.name.count Trace.XATTRDELIM).sum := by
  induction attrs with
  | nil => rfl
  | cons a attrs ih =>
      have hcons : xattrNameList (a :: attrs) =
          (a.name ++ [Trace.XATTRDELIM]) ++ xattrNameList attrs := List.flatMap_cons ..
      rw [hcons, List.count_append, List.count_append, ih, List.count_singleton_self,
        List.length_cons, List.map_cons, List.sum_cons]
      omega

/-- The delimiters in the column are enough just if none was lost, or some are in the names. -/
theorem length_le_count_iff (hne : attrs ≠ []) :
    attrs.length ≤ (xattrGetNames attrs).count Trace.XATTRDELIM ↔
      NamesFit attrs ∨ (xattrNameList attrs).length = Trace.MAXXATTR ∧
        ∃ a ∈ attrs, Trace.XATTRDELIM ∈ a.name := by
  have hpos : 0 < attrs.length := List.length_pos_iff.mpr hne
  have hcount := count_xattrNameList attrs
  rcases Nat.lt_trichotomy (xattrNameList attrs).length Trace.MAXXATTR with hlt | heq | hgt
  · rw [xattrGetNames_of_fit hlt, hcount]
    exact iff_of_true (Nat.le_add_right ..) (.inl hlt)
  · -- the last delimiter is lost
    obtain ⟨front, hfront⟩ := exists_xattrNameList hne
    have hlen : front.length = Trace.MAXXATTR - 1 := by
      rw [hfront, List.length_append, List.length_singleton] at heq
      omega
    have hnames : xattrGetNames attrs = front := by
      rw [xattrGetNames_eq, if_neg (by omega), hfront, List.take_left' hlen]
    have hsum : 1 ≤ (attrs.map fun a => a.name.count Trace.XATTRDELIM).sum ↔
        ∃ a ∈ attrs, Trace.XATTRDELIM ∈ a.name := by
      rw [Nat.one_le_iff_ne_zero, ne_eq, List.sum_eq_zero_iff]
      simp [List.count_eq_zero]
    rw [hfront, List.count_append, List.count_singleton_self] at hcount
    have hfit : ¬NamesFit attrs := Nat.not_lt.mpr heq.ge
    rw [hnames, or_iff_right hfit, and_iff_right heq, ← hsum]
    omega
  · rw [xattrGetNames_eq, if_pos hgt]
    refine iff_of_false (Nat.not_le.mpr hpos) ?_
    rintro (hfit | ⟨heq, -⟩)
    · exact Nat.lt_asymm hgt hfit
    · exact absurd heq hgt.ne'

/-- The text is read back just if it has no NUL and leaves room for one. -/
theorem length_take_cString_iff (text : Bytes) :
    ((Trace.cString text).take (Trace.MAXXATTR - 1)).length = text.length ↔
      0 ∉ text ∧ text.length < Trace.MAXXATTR := by
  have hle : (Trace.cString text).length ≤ text.length := (List.takeWhile_sublist _).length_le
  have hmax : 0 < Trace.MAXXATTR := by decide
  rw [List.length_take]
  constructor
  · intro h
    have hall : Trace.cString text = text :=
      (List.takeWhile_sublist _).eq_of_length (show (Trace.cString text).length = _ by omega)
    exact ⟨hall ▸ Trace.notMem_cString text, by omega⟩
  · rintro ⟨hnul, hlt⟩
    rw [Trace.cString_eq_self hnul]
    omega

theorem take_cString_eq_self {text : Bytes} (hnul : 0 ∉ text) (hlt : text.length < Trace.MAXXATTR) :
    (Trace.cString text).take (Trace.MAXXATTR - 1) = text := by
  rw [Trace.cString_eq_self hnul, List.take_of_length_le (by omega)]

theorem length_name_lt {a : Trace.Xattr} (ha : a ∈ attrs)
    (h : (xattrNameList attrs).length ≤ Trace.MAXXATTR) : a.name.length < Trace.MAXXATTR := by
  rw [length_xattrNameList] at h
  have hmem := List.le_sum_of_mem (List.mem_map_of_mem (f := fun a => a.name.length + 1) ha)
  omega

end Names

section One

variable {attrs : List Trace.Xattr} {xattrNames : Bytes} {inodes : List UInt64}
  {xattrs : List XattrRow} {ino : UInt64}

/-- Rows of the table that share the inode would have every attribute more than once. -/
theorem count_eq_one_of_restored (hne : attrs ≠ []) (hnodup : attrs.Nodup)
    (h : Restored attrs xattrNames (selectXattrs inodes xattrs ino)) : inodes.count ino = 1 := by
  obtain ⟨vals, hvals, -, hperm⟩ := (restored_iff hne).mp h
  rw [selectXattrs_eq] at hvals
  generalize hblock : (match matched xattrs ino with
    | [] => [none]
    | rows => rows.map fun row => some (row.name, row.value) :
      List (Option (Bytes × Bytes))) = block at hvals
  have hblock_ne : block ≠ [] := by
    rintro rfl
    cases hm : matched xattrs ino with
    | nil => simp [hm] at hblock
    | cons row rows => simp [hm] at hblock
  have hsome : (vals.map some).Nodup :=
    (List.Nodup.of_map _ (hperm.symm.nodup hnodup)).map (Option.some_injective _)
  match hcount : inodes.count ino with
  | 0 =>
      rw [hcount] at hvals
      rw [List.map_eq_nil_iff.mp hvals.symm] at hperm
      exact absurd hperm.symm.eq_nil hne
  | 1 => rfl
  | n + 2 =>
      rw [hcount, List.replicate_succ, List.replicate_succ, List.flatten_cons,
        List.flatten_cons] at hvals
      rw [← hvals] at hsome
      obtain ⟨row, hrow⟩ := List.exists_mem_of_ne_nil _ hblock_ne
      exact absurd (List.mem_append_left _ hrow) (List.disjoint_of_nodup_append hsome hrow)

theorem restored_single_iff (hm : inodes.count ino = 1) (hne : attrs ≠ []) :
    Restored attrs xattrNames (selectXattrs inodes xattrs ino) ↔
      (matched xattrs ino).length ≤ xattrNames.count Trace.XATTRDELIM ∧
        ((matched xattrs ino).map fun row => kept row.name row.value).Perm attrs := by
  rw [restored_iff hne, selectXattrs_eq, hm, List.replicate_one, List.flatten_singleton]
  cases matched xattrs ino with
  | nil =>
      constructor
      · rintro ⟨vals, hvals, -⟩
        cases vals <;> cases hvals
      · rintro ⟨-, hperm⟩
        exact absurd hperm.symm.eq_nil hne
  | cons row rows =>
      constructor
      · rintro ⟨vals, hvals, hle, hperm⟩
        have hpairs : (row :: rows).map (fun row => (row.name, row.value)) = vals := by
          refine List.map_injective_iff.mpr (Option.some_injective _) ?_
          rw [← hvals, List.map_map]
          rfl
        rw [← hpairs] at hle hperm
        rw [List.length_map] at hle
        rw [List.map_map] at hperm
        exact ⟨hle, hperm⟩
      · rintro ⟨hle, hperm⟩
        refine ⟨(row :: rows).map fun row => (row.name, row.value), ?_, ?_, ?_⟩
        · rw [List.map_map]
          rfl
        · rwa [List.length_map]
        · rwa [List.map_map]

end One

section Own

variable {attach : Bytes → Bool} {x : XattrInserts} {attrs : List Trace.Xattr}
  {xattrNames : Bytes} {inodes : List UInt64} {ino : UInt64}

theorem rowOf_injective (ino : UInt64) : Function.Injective (rowOf ino) := by
  intro a b h
  obtain ⟨-, hname, hvalue⟩ := (XattrRow.mk.injEq ..).mp h
  exact (Trace.Xattr.mk.injEq ..).mpr ⟨hname, hvalue⟩

/-- What is kept of every value is the value where this gives the same attributes again. -/
theorem value_of_perm (h : (attrs.map fun a => kept a.name a.value).Perm attrs) :
    ∀ a ∈ attrs, 0 ∉ a.value ∧ a.value.length < Trace.MAXXATTR := by
  have hle : ∀ a ∈ attrs, (kept a.name a.value).value.length ≤ a.value.length := fun a _ =>
    (List.length_take_le' ..).trans (List.takeWhile_sublist _).length_le
  intro a ha
  rw [← length_take_cString_iff]
  by_contra hne
  have hlt : (attrs.map fun a => (kept a.name a.value).value.length).sum <
      (attrs.map fun a => a.value.length).sum :=
    List.sum_lt_sum _ _ hle ⟨a, ha, lt_of_le_of_ne (hle a ha) hne⟩
  have hsum := (h.map fun a => a.value.length).sum_eq
  rw [List.map_map] at hsum
  exact absurd hsum hlt.ne

/-- Where the inode has one row and its attributes in the view are the entry's own, they are
restored just if they are recoverable. -/
theorem restored_own_iff (hm : inodes.count ino = 1) (hne : attrs ≠ []) (hlisted : Listed attrs)
    (hnames : xattrNames.count Trace.XATTRDELIM = (xattrGetNames attrs).count Trace.XATTRDELIM)
    (hown : ∀ row ∈ matched (setupXattrsViews attach x) ino, ∃ a ∈ attrs, row = rowOf ino a) :
    Restored attrs xattrNames (selectXattrs inodes (setupXattrsViews attach x) ino) ↔
      Recoverable attach x ino attrs := by
  have hnodup : attrs.Nodup := List.Nodup.of_map _ hlisted.nodup
  have hrows : (attrs.map (rowOf ino)).Nodup := hnodup.map (rowOf_injective ino)
  have hmatched : (matched (setupXattrsViews attach x) ino).Nodup := (nodup_union _ _).filter _
  have hmem : ∀ a, rowOf ino a ∈ matched (setupXattrsViews attach x) ino ↔
      Stored attach x (rowOf ino a) ∧ ino.toNat < 2 ^ 63 := by
    intro a
    rw [matched, List.mem_filter, mem_setupXattrsViews, decide_eq_true_eq,
      inodeText_eq_storedInode_iff, and_iff_right rfl]
  rw [restored_single_iff hm hne, hnames]
  constructor
  · rintro ⟨hle, hperm⟩
    have hlen : (matched (setupXattrsViews attach x) ino).length = attrs.length := by
      rw [← hperm.length_eq, List.length_map]
    have hsub : matched (setupXattrsViews attach x) ino ⊆ attrs.map (rowOf ino) := by
      intro row hrow
      obtain ⟨a, ha, rfl⟩ := hown row hrow
      exact List.mem_map_of_mem ha
    have hall : (matched (setupXattrsViews attach x) ino).Perm (attrs.map (rowOf ino)) :=
      (List.subperm_of_subset hmatched hsub).perm_of_length_le (by rw [List.length_map, hlen])
    have hin : ∀ a ∈ attrs, Stored attach x (rowOf ino a) ∧ ino.toNat < 2 ^ 63 := fun a ha =>
      (hmem a).mp (hall.symm.subset (List.mem_map_of_mem ha))
    have hkept := ((hall.map fun row => kept row.name row.value).symm).trans hperm
    rw [List.map_map] at hkept
    obtain ⟨a, ha⟩ := List.exists_mem_of_ne_nil _ hne
    exact ⟨(hin a ha).2, value_of_perm hkept, (length_le_count_iff hne).mp (hlen ▸ hle),
      fun a ha => (hin a ha).1⟩
  · intro h
    have hall : (matched (setupXattrsViews attach x) ino).Perm (attrs.map (rowOf ino)) := by
      rw [List.perm_ext_iff_of_nodup hmatched hrows]
      refine fun row => ⟨fun hrow => ?_, fun hrow => ?_⟩
      · obtain ⟨a, ha, rfl⟩ := hown row hrow
        exact List.mem_map_of_mem ha
      · obtain ⟨a, ha, rfl⟩ := List.mem_map.mp hrow
        exact (hmem a).mpr ⟨h.stored a ha, h.inode⟩
    have hle : (xattrNameList attrs).length ≤ Trace.MAXXATTR :=
      h.names.elim Nat.le_of_lt fun hfull => hfull.1.le
    have hkept : ∀ a ∈ attrs, kept a.name a.value = a := by
      intro a ha
      obtain ⟨hnul, hlt⟩ := h.value a ha
      rw [kept, take_cString_eq_self hnul hlt,
        take_cString_eq_self (hlisted.nul a ha) (length_name_lt ha hle)]
    refine ⟨?_, (hall.map _).trans ?_⟩
    · rw [hall.length_eq, List.length_map]
      exact (length_le_count_iff hne).mpr h.names
    · rw [List.map_map]
      exact .of_eq ((List.map_congr_left hkept).trans (List.map_id _))

end Own

section Main

variable {o : IndexOptions} {work : Trace.Work} {xattrs : List Trace.Xattr} {dirents : List Dirent}
  {attach : Bytes → Bool}

theorem listed_nil : Listed [] := ⟨List.nodup_nil, nofun⟩

theorem Listed.got {attrs : List Trace.Xattr} (h : Listed attrs) : Listed (gotXattrs o attrs) := by
  rw [gotXattrs]
  split_ifs
  · exact h
  · exact listed_nil

theorem SourceDir.listed (h : SourceDir o work xattrs dirents)
    {item : Trace.Work × Trace.EntryData}
    (hitem : item ∈ loopItems o work dirents (dir2indexSkips o)) : Listed item.2.xattrs := by
  obtain ⟨t, ht, hsome⟩ := List.mem_filterMap.mp hitem
  have hlisted := (h.entries t (List.mem_of_mem_filter ht)).got (o := o)
  rw [direntItem] at hsome
  split at hsome
  · obtain rfl := Option.some.inj hsome
    exact hlisted
  · obtain rfl := Option.some.inj hsome
    exact hlisted
  · cases hsome

theorem restored_nil {selected : List (Option (Bytes × Bytes))} : Restored [] [] selected :=
  fun _ _ => ⟨.empty, rfl, .refl _⟩

theorem eq_of_count_map_eq_one {α β : Type} [DecidableEq β] {f : α → β} {l : List α} {a b : α}
    (h : (l.map f).count (f a) = 1) (ha : a ∈ l) (hb : b ∈ l) (hab : f b = f a) : b = a := by
  rw [List.count_eq_countP, List.countP_map, List.countP_eq_length_filter,
    List.length_eq_one_iff] at h
  obtain ⟨c, hc⟩ := h
  have hmem : ∀ d ∈ l, f d = f a → d = c := by
    intro d hd hda
    have : d ∈ [c] := hc ▸ List.mem_filter.mpr ⟨hd, by simpa using hda⟩
    exact List.mem_singleton.mp this
  rw [hmem b hb hab, hmem a ha rfl]

/-- The attributes of all files of a directory and of the directory itself are restored just if
those that have any are recoverable, and no file with attributes has a hard link beside it. -/
theorem restoresXattrs_iff (o : IndexOptions) (work : Trace.Work) (xattrs : List Trace.Xattr)
    (dirents : List Dirent) (attach : Bytes → Bool) (h : SourceDir o work xattrs dirents) :
    RestoresXattrs o work xattrs dirents attach ↔ Exact o work xattrs dirents attach := by
  have hinodes : (dir2indexDir o work xattrs dirents).entries.map (fun row => row.statuso.ino) =
      (loopItems o work dirents (dir2indexSkips o)).map fun item => item.1.statuso.ino := by
    rw [dir2indexDir, List.map_map]
    rfl
  have hmatched : ∀ {ino : UInt64} {row : XattrRow},
      row ∈ matched (setupXattrsViews attach (dir2indexDir o work xattrs dirents).xattrs) ino →
      (ino = work.statuso.ino ∧ ∃ a ∈ gotXattrs o xattrs, row = rowOf ino a) ∨
        ∃ item ∈ loopItems o work dirents (dir2indexSkips o), item.1.statuso.ino = ino ∧
          ∃ a ∈ item.2.xattrs, row = rowOf ino a := by
    intro ino row hrow
    obtain ⟨hview, htext⟩ := List.mem_filter.mp hrow
    rcases stored_dir2indexDir (mem_setupXattrsViews.mp hview) with ⟨a, ha, rfl⟩ |
      ⟨item, hitem, a, ha, rfl⟩
    · obtain ⟨rfl, -⟩ := inodeText_eq_storedInode_iff.mp (of_decide_eq_true htext)
      exact .inl ⟨rfl, a, ha, rfl⟩
    · obtain ⟨rfl, -⟩ := inodeText_eq_storedInode_iff.mp (of_decide_eq_true htext)
      exact .inr ⟨item, hitem, rfl, a, ha, rfl⟩
  have hentry : ∀ item ∈ loopItems o work dirents (dir2indexSkips o), item.2.xattrs ≠ [] →
      ((loopItems o work dirents (dir2indexSkips o)).map fun other =>
        other.1.statuso.ino).count item.1.statuso.ino = 1 →
      (Restored item.2.xattrs (insertdbgo item.1 item.2).xattrNames
        (selectXattrs ((loopItems o work dirents (dir2indexSkips o)).map fun other =>
          other.1.statuso.ino)
          (setupXattrsViews attach (dir2indexDir o work xattrs dirents).xattrs)
          item.1.statuso.ino) ↔
        Recoverable attach (dir2indexDir o work xattrs dirents).xattrs item.1.statuso.ino
          item.2.xattrs) := by
    intro item hitem hne hcount
    refine restored_own_iff hcount hne (h.listed hitem) rfl fun row hrow => ?_
    rcases hmatched hrow with ⟨hino, -⟩ | ⟨other, hother, hino, hrow⟩
    · exact absurd hino (h.inode item hitem)
    · have hsame := @eq_of_count_map_eq_one _ _ _ (fun other : Trace.Work × Trace.EntryData =>
        other.1.statuso.ino) _ _ _ hcount hitem hother hino
      rwa [hsame] at hrow
  have hdirectory : gotXattrs o xattrs ≠ [] →
      (Restored (gotXattrs o xattrs) (dir2indexDir o work xattrs dirents).summary.xattrNames
        (selectXattrs [work.statuso.ino]
          (setupXattrsViews attach (dir2indexDir o work xattrs dirents).xattrs)
          work.statuso.ino) ↔
        Recoverable attach (dir2indexDir o work xattrs dirents).xattrs work.statuso.ino
          (gotXattrs o xattrs)) := by
    intro hne
    refine restored_own_iff (List.count_singleton_self ..) hne h.directory.got
      (count_delim_sqlQ _) fun row hrow => ?_
    rcases hmatched hrow with ⟨-, hrow⟩ | ⟨other, hother, hino, -⟩
    · exact hrow
    · exact absurd hino (h.inode other hother)
  constructor
  · intro hrestores
    refine ⟨fun item hitem htype hne => ?_, fun hne => ?_⟩
    · have hrestored := hrestores.entries item hitem htype
      dsimp only at hrestored
      rw [hinodes] at hrestored
      have hcount := count_eq_one_of_restored hne
        (List.Nodup.of_map _ (h.listed hitem).nodup) hrestored
      exact ⟨(hentry item hitem hne hcount).mp hrestored, hcount⟩
    · exact (hdirectory hne).mp hrestores.directory
  · intro hexact
    refine ⟨fun item hitem htype => ?_, ?_⟩
    · dsimp only
      rw [hinodes]
      by_cases hne : item.2.xattrs = []
      · rw [insertdbgo, hne]
        exact restored_nil
      · obtain ⟨hrecoverable, hcount⟩ := hexact.entries item hitem htype hne
        exact (hentry item hitem hne hcount).mpr hrecoverable
    · by_cases hne : gotXattrs o xattrs = []
      · have hnames : (dir2indexDir o work xattrs dirents).summary.xattrNames = [] := by
          rw [dir2indexDir]
          simp only [insertsumdb, directoryData, hne]
          rfl
        dsimp only
        rw [hnames, hne]
        exact restored_nil
      · exact (hdirectory hne).mpr (hexact.directory hne)

/-- `user.a` with the value `1`. -/
def userA : Trace.Xattr := ⟨[117, 115, 101, 114, 46, 97], [49]⟩

/-- A file with inode 7 and this attribute, which everyone can read. -/
def fileWithXattr (name : Bytes) : Dirent := { reindexFile name with xattrs := [userA] }

def xattrOptions : IndexOptions := { reindexOptions with processXattrs := true }

theorem listed_userA : Listed [userA] := ⟨List.nodup_singleton _, by
  intro a ha
  rw [List.mem_singleton.mp ha]
  decide⟩

theorem sourceDir_fileWithXattr (names : List Bytes) :
    SourceDir xattrOptions reindexWork [] (names.map fileWithXattr) := by
  refine ⟨listed_nil, fun t ht => ?_, fun item hitem => ?_⟩
  · obtain ⟨name, -, rfl⟩ := List.mem_map.mp ht
    exact listed_userA
  · obtain ⟨t, ht, hsome⟩ := List.mem_filterMap.mp hitem
    obtain ⟨name, -, rfl⟩ := List.mem_map.mp (List.mem_of_mem_filter ht)
    obtain rfl := Option.some.inj hsome
    exact (by decide : (7 : UInt64) ≠ 2)

/-- The file `/t/a` gets its attribute back. -/
theorem restoresXattrs_one :
    RestoresXattrs xattrOptions reindexWork [] [fileWithXattr [97]] fun _ => true := by
  refine (restoresXattrs_iff _ _ _ _ _ (sourceDir_fileWithXattr [[97]])).mpr
    ⟨fun item hitem _ _ => ?_, nofun⟩
  obtain ⟨t, ht, hsome⟩ := List.mem_filterMap.mp hitem
  obtain rfl := List.mem_singleton.mp (List.mem_of_mem_filter ht)
  obtain rfl := Option.some.inj hsome
  refine ⟨⟨by decide, ?_, .inl (by decide), ?_⟩, by decide⟩
  · exact List.forall_mem_singleton.mpr (by decide)
  · exact List.forall_mem_singleton.mpr (.inl (by decide))

/-- Of the hard links `/t/a` and `/t/b`, the first has a second pair written behind the one that was
allocated. -/
theorem not_restoresXattrs :
    getXattrs (xattrGetNames [userA]) (selectXattrs [7, 7]
        (setupXattrsViews (fun _ => true) (dir2indexDir xattrOptions reindexWork []
          [fileWithXattr [97], fileWithXattr [98]]).xattrs) 7) = .error .overrun ∧
      ¬∀ (o : IndexOptions) (work : Trace.Work) (xattrs : List Trace.Xattr) (dirents : List Dirent)
        (attach : Bytes → Bool), SourceDir o work xattrs dirents →
          RestoresXattrs o work xattrs dirents attach := by
  have hrows : setupXattrsViews (fun _ => true) (dir2indexDir xattrOptions reindexWork []
      [fileWithXattr [97], fileWithXattr [98]]).xattrs = [rowOf 7 userA] := by decide
  have hselected : selectXattrs [7, 7] [rowOf 7 userA] 7 =
      [some (userA.name, userA.value), some (userA.name, userA.value)] := by decide
  have hover : getXattrs (xattrGetNames [userA]) [some (userA.name, userA.value),
      some (userA.name, userA.value)] = .error .overrun := rfl
  refine ⟨by rw [hrows, hselected, hover], fun hall => ?_⟩
  have hrestores := hall xattrOptions reindexWork [] [fileWithXattr [97], fileWithXattr [98]]
    (fun _ => true) (sourceDir_fileWithXattr [[97], [98]])
  have hrestored := hrestores.entries _ (List.mem_cons_self ..) rfl
  obtain ⟨x, hx, -⟩ := hrestored _ (List.Perm.refl _)
  rw [hrows] at hx
  have herror := hover
  rw [← hselected] at herror
  exact absurd (hx.symm.trans herror) (by simp)

end Main

end Gufi.RestoreXattrs
