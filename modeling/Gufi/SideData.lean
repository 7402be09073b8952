import Gufi.TraceRoundTrip
import Gufi.Xattrs

/-!
# Side data of a directory, directly and through a trace

Both `gufi_dir2index` and `gufi_trace2index` hand the entries of a directory to
`insertdbgo_xattrs`, which chooses the databases for their extended attributes, and the paths of
external databases to `external_insert`. The second program passes the stat of the entry where the
first passes that of the directory, and it does not have the inode of the directory. So the two
agree only where neither is looked at.
-/

namespace Gufi

open UnixAccess

section Programs

/-- What both programs get from a directory: a file or a link, and the path of an external
database. -/
inductive SideItem
  | entry (work : Trace.Work) (ed : Trace.EntryData)
  | external (path : Bytes)

/-- The permissions and the inode of `work->statuso`. -/
structure SideDir where
  perms : Permissions
  inode : ℕ

def statPermissions (st : Trace.Stat) : Permissions :=
  ⟨st.mode.toNat, st.uid.toNat, st.gid.toNat⟩

/-- What `insertdbgo_xattrs` reads of an entry with the given `pinode`. -/
def indexedEntry (work : Trace.Work) (ed : Trace.EntryData) (pinode : ℕ) : IndexedEntry :=
  ⟨statPermissions work.statuso, work.statuso.ino.toNat, pinode,
    ed.xattrs.map fun x => (x.name, x.value)⟩

/-- The databases that got the extended attributes of each entry, the databases themselves, and the
rows of `external_insert` with their `pinode`. -/
structure SideData where
  receivers : List (List Bytes)
  inserts : XattrInserts
  userDbs : List (ℕ × Bytes)

def SideData.empty : SideData := ⟨[], ⟨[], []⟩, []⟩

/-- The keys of the `external_dbs_pwd` rows. `destroy_xattr_db` adds one for each database of
extended attributes. -/
def SideData.externalDbs (s : SideData) : List (ExternalType × ℕ × Bytes) :=
  s.userDbs.map (fun x => (.userDb, x)) ++ s.inserts.dbs.map fun x => x.external.key

/-- The per-user and the per-group database of an entry, found or created, as places in the list.
With `none` there is nothing to insert into. -/
def xattrDbsFor (nobody : Nobody) (e : IndexedEntry) (dbs : List IndexedXattrDb) :
    List IndexedXattrDb × Option (ℕ × ℕ) :=
  let found := findXattrDbs e.perms 0 dbs (none, none)
  match findOrCreate found.1
      (createXattrDb nobody e.pinode e.perms.uid nobody.gid e.perms.mode) dbs with
  | none => (dbs, none)
  | some (uidDb, dbs) =>
      match findOrCreate found.2
          (createXattrDb nobody e.pinode nobody.uid e.perms.gid e.perms.mode) dbs with
      | none => (dbs, none)
      | some (gidDb, dbs) => (dbs, some (uidDb, gidDb))

/-- The names of the databases into which `insertdbgo_xattrs` puts the attributes. -/
def receivers (nobody : Nobody) (dir : Permissions) (e : IndexedEntry) (s : XattrInserts) :
    List Bytes :=
  if e.xattrs = [] then []
  else if xattrCanRollin dir e.perms ≠ 0 then [dbname]
  else match xattrDbsFor nobody e s.dbs with
    | (_, none) => []
    | (dbs, some (uidDb, gidDb)) =>
        [uidDb, gidDb].map fun i => (dbs[i]?.map IndexedXattrDb.filename).getD []

def insertEntry (nobody : Nobody) (dir : Permissions) (e : IndexedEntry) (s : SideData) :
    SideData :=
  { s with
    receivers := s.receivers ++ [receivers nobody dir e s.inserts]
    inserts := (insertdbgoXattrs nobody dir e s.inserts).1 }

/-- `external_insert` with the type of user databases. A row with a key that is there fails. -/
def externalInsert (pinode : ℕ) (path : Bytes) (s : SideData) : SideData :=
  if (pinode, path) ∈ s.userDbs then s
  else { s with userDbs := s.userDbs ++ [(pinode, path)] }

/-- `process_nondir` of `gufi_dir2index`. `descend` has set the `pinode` of an entry to the inode
of the directory, which `external_read_file` passes on. -/
def dir2indexNondir (nobody : Nobody) (dir : SideDir) (s : SideData) : SideItem → SideData
  | .entry work ed => insertEntry nobody dir.perms (indexedEntry work ed dir.inode) s
  | .external path => externalInsert dir.inode path s

def dir2indexSide (nobody : Nobody) (dir : SideDir) (items : List SideItem) : SideData :=
  items.foldl (dir2indexNondir nobody dir) .empty

/-- What `linetowork` makes of the line of an item. -/
def SideItem.row : SideItem → Trace.Work × Trace.EntryData
  | .entry work ed => (work, ed)
  | .external path =>
    (⟨path, path.length, Trace.Stat.zero, 0, 0⟩, { Trace.EntryData.zero with type := 101 })

/-- `process_nondir` of `gufi_trace2index`: the entry's own stat stands for the directory's, and
the `pinode` is set to 0 before. -/
def trace2indexNondir (nobody : Nobody) (s : SideData) (row : Trace.Work × Trace.EntryData) :
    SideData :=
  if row.2.type = 101 then externalInsert row.1.statuso.ino.toNat row.1.name s
  else insertEntry nobody (statPermissions row.1.statuso) (indexedEntry row.1 row.2 0) s

def trace2indexSide (nobody : Nobody) (items : List SideItem) : SideData :=
  (items.map SideItem.row).foldl (trace2indexNondir nobody) .empty

/-- `externaltofile`, without the newline. -/
def externalColumns (delim : UInt8) (path : Bytes) : Bytes :=
  Trace.prefixed delim path ++ Trace.field delim [101]

end Programs

section Lines

open Trace

/-- Of an external database only the name and the type are read, and the stat is all zeros. -/
theorem linetowork_externalColumns {delim : UInt8} {path : Bytes} (hdelim : delim ≠ 101)
    (hpath : path.length < 16 ^ 4) (rest : Bytes) :
    linetowork delim (externalColumns delim path ++ rest) EntryData.zero =
      .ok (SideItem.external path).row := by
  have hlen : path.length ≤ (externalColumns delim path ++ rest).length := by
    rw [externalColumns, List.append_assoc]
    exact length_le_length_prefixed delim path _
  have htype : LineReader.Reads ((fun text => text.headD 0) <$> readField delim : Reader UInt8)
      (field delim [101]) 101 := by
    have hnot : delim ∉ [101] := by simpa using hdelim
    exact (reads_readField hnot).map fun text => text.headD 0
  have hread : LineReader.Reads (readLine delim (externalColumns delim path ++ rest).length
      EntryData.zero) (externalColumns delim path)
      (SideItem.external path).row := by
    rw [externalColumns, ← List.append_nil (field delim [101])]
    apply (reads_readName hpath hlen).bind
    apply htype.bind
    rw [if_pos rfl]
    exact LineReader.Reads.pure _
  rw [linetowork, hread]
  rfl

end Lines

section Pinode

variable {nobody : Nobody} {dir : Permissions} {p : ℕ}

/-- The same databases with another `pinode`. -/
def IndexedXattrDb.withPinode (p : ℕ) (x : IndexedXattrDb) : IndexedXattrDb :=
  { x with pinode := p }

def XattrInserts.withPinode (p : ℕ) (s : XattrInserts) : XattrInserts :=
  { s with dbs := s.dbs.map (IndexedXattrDb.withPinode p) }

def IndexedEntry.withPinode (p : ℕ) (e : IndexedEntry) : IndexedEntry := { e with pinode := p }

theorem findXattrDbs_withPinode (entry : Permissions) (i : ℕ) (xs : List IndexedXattrDb)
    (found : Option ℕ × Option ℕ) :
    findXattrDbs entry i (xs.map (IndexedXattrDb.withPinode p)) found =
      findXattrDbs entry i xs found := by
  induction xs generalizing i found with
  | nil => rfl
  | cons x xs ih =>
      obtain ⟨uidDb, gidDb⟩ := found
      simp only [List.map_cons, findXattrDbs, IndexedXattrDb.withPinode, ih]

theorem createXattrDb_withPinode (q uid gid mode : ℕ) :
    createXattrDb nobody p uid gid mode =
      (createXattrDb nobody q uid gid mode).map (IndexedXattrDb.withPinode p) := by
  unfold createXattrDb
  split_ifs <;> rfl

theorem findOrCreate_withPinode (found : Option ℕ) (new : Option IndexedXattrDb)
    (dbs : List IndexedXattrDb) :
    findOrCreate found (new.map (IndexedXattrDb.withPinode p))
        (dbs.map (IndexedXattrDb.withPinode p)) =
      (findOrCreate found new dbs).map fun r =>
        (r.1, r.2.map (IndexedXattrDb.withPinode p)) := by
  cases found with
  | some i => rfl
  | none => cases new <;> simp [findOrCreate]

theorem insertRows_withPinode (rows : List XattrRow) (i : ℕ) (dbs : List IndexedXattrDb) :
    insertRows rows i (dbs.map (IndexedXattrDb.withPinode p)) =
      (insertRows rows i dbs).map (IndexedXattrDb.withPinode p) := by
  unfold insertRows
  induction dbs generalizing i with
  | nil => simp
  | cons x dbs ih =>
      cases i with
      | zero => rfl
      | succ i => simp [ih]

theorem insertdbgoXattrs_eq (e : IndexedEntry) (s : XattrInserts) :
    (insertdbgoXattrs nobody dir e s).1 =
      if e.xattrs = [] then s
      else if xattrCanRollin dir e.perms ≠ 0 then { s with pwd := s.pwd ++ e.rows }
      else match xattrDbsFor nobody e s.dbs with
        | (dbs, none) => { s with dbs := dbs }
        | (dbs, some (uidDb, gidDb)) =>
            { s with dbs := insertRows e.rows gidDb (insertRows e.rows uidDb dbs) } := by
  unfold insertdbgoXattrs xattrDbsFor
  split_ifs
  · rfl
  · rfl
  · simp only
    cases findOrCreate (findXattrDbs e.perms 0 s.dbs (none, none)).1
        (createXattrDb nobody e.pinode e.perms.uid nobody.gid e.perms.mode) s.dbs with
    | none => rfl
    | some r =>
        obtain ⟨uidDb, dbs⟩ := r
        simp only
        cases findOrCreate (findXattrDbs e.perms 0 s.dbs (none, none)).2
          (createXattrDb nobody e.pinode nobody.uid e.perms.gid e.perms.mode) dbs <;> rfl

/-- Which databases are chosen does not depend on the `pinode`, which is in the new ones only. -/
theorem xattrDbsFor_withPinode (e : IndexedEntry) (dbs : List IndexedXattrDb) :
    xattrDbsFor nobody (e.withPinode p) (dbs.map (IndexedXattrDb.withPinode p)) =
      ((xattrDbsFor nobody e dbs).1.map (IndexedXattrDb.withPinode p),
        (xattrDbsFor nobody e dbs).2) := by
  simp only [xattrDbsFor, IndexedEntry.withPinode, findXattrDbs_withPinode]
  rw [createXattrDb_withPinode e.pinode, findOrCreate_withPinode]
  cases findOrCreate (findXattrDbs e.perms 0 dbs (none, none)).1
      (createXattrDb nobody e.pinode e.perms.uid nobody.gid e.perms.mode) dbs with
  | none => rfl
  | some r =>
      obtain ⟨uidDb, dbs'⟩ := r
      simp only [Option.map_some]
      rw [createXattrDb_withPinode e.pinode, findOrCreate_withPinode]
      cases findOrCreate (findXattrDbs e.perms 0 dbs (none, none)).2
        (createXattrDb nobody e.pinode nobody.uid e.perms.gid e.perms.mode) dbs' <;> rfl

theorem insertdbgoXattrs_withPinode (e : IndexedEntry) (s : XattrInserts) :
    (insertdbgoXattrs nobody dir (e.withPinode p) (s.withPinode p)).1 =
      (insertdbgoXattrs nobody dir e s).1.withPinode p := by
  rw [insertdbgoXattrs_eq, insertdbgoXattrs_eq]
  simp only [XattrInserts.withPinode, xattrDbsFor_withPinode]
  have hperms : (e.withPinode p).perms = e.perms := rfl
  have hrows : (e.withPinode p).rows = e.rows := rfl
  have hxattrs : (e.withPinode p).xattrs = e.xattrs := rfl
  rw [hperms, hrows, hxattrs]
  split_ifs
  · rfl
  · rfl
  · obtain ⟨dbs, found⟩ := xattrDbsFor nobody e s.dbs
    cases found with
    | none => rfl
    | some found => simp only [insertRows_withPinode]

theorem receivers_withPinode (e : IndexedEntry) (s : XattrInserts) :
    receivers nobody dir (e.withPinode p) (s.withPinode p) = receivers nobody dir e s := by
  have hperms : (e.withPinode p).perms = e.perms := rfl
  have hxattrs : (e.withPinode p).xattrs = e.xattrs := rfl
  unfold receivers
  rw [hperms, hxattrs, XattrInserts.withPinode, xattrDbsFor_withPinode]
  split_ifs
  · rfl
  · rfl
  · obtain ⟨dbs, found⟩ := xattrDbsFor nobody e s.dbs
    cases found with
    | none => rfl
    | some found =>
        simp only [List.getElem?_map, Option.map_map]
        rfl

end Pinode

section Empty

variable {nobody : Nobody} {dir : Permissions} {dbs : List IndexedXattrDb} {s : SideData}

theorem findOrCreate_ne_nil {found : Option ℕ} {new : Option IndexedXattrDb} {i : ℕ}
    {dbs' : List IndexedXattrDb} (h : findOrCreate found new dbs = some (i, dbs'))
    (hne : dbs ≠ [] ∨ found = none) : dbs' ≠ [] := by
  cases found with
  | some j =>
      obtain ⟨-, rfl⟩ := Prod.mk.inj (Option.some.inj h)
      exact hne.resolve_right (Option.some_ne_none j)
  | none =>
      cases new with
      | none => exact nomatch h
      | some x =>
          obtain ⟨-, rfl⟩ := Prod.mk.inj (Option.some.inj h)
          simp

/-- A first database is created unless the owner of the entry is nobody. -/
theorem xattrDbsFor_eq_nil_iff (nobody : Nobody) (e : IndexedEntry) (dbs : List IndexedXattrDb) :
    (xattrDbsFor nobody e dbs).1 = [] ↔ dbs = [] ∧ e.perms.uid = nobody.uid := by
  have hcreate : createXattrDb nobody e.pinode e.perms.uid nobody.gid e.perms.mode = none ↔
      e.perms.uid = nobody.uid := by
    simp only [createXattrDb]
    split_ifs with huid <;> simp_all
  have hsecond {uidDb : ℕ} {dbs' : List IndexedXattrDb} (found : Option ℕ)
      (new : Option IndexedXattrDb) (hne : dbs' ≠ []) :
      (match findOrCreate found new dbs' with
        | none => (dbs', none)
        | some (gidDb, dbs) => (dbs, some (uidDb, gidDb)) :
          List IndexedXattrDb × Option (ℕ × ℕ)).1 ≠ [] := by
    cases hgid : findOrCreate found new dbs' with
    | none => exact hne
    | some r => exact findOrCreate_ne_nil hgid (.inl hne)
  rw [xattrDbsFor]
  cases huid : findOrCreate (findXattrDbs e.perms 0 dbs (none, none)).1
      (createXattrDb nobody e.pinode e.perms.uid nobody.gid e.perms.mode) dbs with
  | none =>
      have hnone : createXattrDb nobody e.pinode e.perms.uid nobody.gid e.perms.mode = none := by
        cases hfound : (findXattrDbs e.perms 0 dbs (none, none)).1 with
        | some i => simp [hfound, findOrCreate] at huid
        | none =>
            rw [hfound] at huid
            exact Option.map_eq_none_iff.mp huid
      simp [hcreate.mp hnone]
  | some r =>
      obtain ⟨uidDb, dbs'⟩ := r
      constructor
      · intro hnil
        have hdbs : dbs ≠ [] ∨ (findXattrDbs e.perms 0 dbs (none, none)).1 = none := by
          by_cases hempty : dbs = []
          · exact .inr (by rw [hempty]; rfl)
          · exact .inl hempty
        exact absurd hnil (hsecond _ _ (findOrCreate_ne_nil huid hdbs))
      · rintro ⟨rfl, hnobody⟩
        rw [hcreate.mpr hnobody] at huid
        exact nomatch huid

theorem insertRows_eq_nil_iff {rows : List XattrRow} {i : ℕ} :
    insertRows rows i dbs = [] ↔ dbs = [] :=
  List.modify_eq_nil_iff

/-- No database of extended attributes is made for the entry. -/
theorem dbs_insertEntry_eq_nil_iff (e : IndexedEntry) :
    (insertEntry nobody dir e s).inserts.dbs = [] ↔ s.inserts.dbs = [] ∧
      (e.xattrs = [] ∨ xattrCanRollin dir e.perms ≠ 0 ∨ e.perms.uid = nobody.uid) := by
  rw [insertEntry, insertdbgoXattrs_eq]
  split_ifs with hxattrs hrollin
  · simp [hxattrs]
  · simp [hrollin]
  · have hfor := xattrDbsFor_eq_nil_iff nobody e s.inserts.dbs
    have hreason : (e.xattrs = [] ∨ xattrCanRollin dir e.perms ≠ 0 ∨ e.perms.uid = nobody.uid) ↔
        e.perms.uid = nobody.uid := by
      rw [or_iff_right hxattrs, or_iff_right hrollin]
    rw [hreason, ← hfor]
    obtain ⟨dbs, found⟩ := xattrDbsFor nobody e s.inserts.dbs
    cases found with
    | none => rfl
    | some found => simp only [insertRows_eq_nil_iff]

end Empty

section Agreement

variable {nobody : Nobody} {dir : SideDir} {p : ℕ} {s t : SideData}

/-- The stat of the entry leads to the same decision as that of the directory. -/
def SameRollin (dir : Permissions) : SideItem → Prop
  | .entry work ed => ed.xattrs = [] ∨
      (xattrCanRollin dir (statPermissions work.statuso) ≠ 0 ↔
        xattrCanRollin (statPermissions work.statuso) (statPermissions work.statuso) ≠ 0)
  | .external _ => True

/-- Nothing is recorded in `external_dbs_pwd`. -/
def StaysInside (nobody : Nobody) (dir : Permissions) : SideItem → Prop
  | .entry work ed => ed.xattrs = [] ∨
      xattrCanRollin dir (statPermissions work.statuso) ≠ 0 ∨
      (statPermissions work.statuso).uid = nobody.uid
  | .external _ => False

/-- An entry that is no external database, as `descend` finds it. -/
def SideItem.IsNondir : SideItem → Prop
  | .entry _ ed => ed.type = 102 ∨ ed.type = 108
  | .external _ => True

/-- The same side data with the given inode in place of what is recorded. -/
def SideData.atInode (p : ℕ) (s : SideData) : SideData :=
  ⟨s.receivers, s.inserts.withPinode p, s.userDbs.map fun x => (p, x.2)⟩

theorem insertEntry_atInode (perms : Permissions) (work : Trace.Work) (ed : Trace.EntryData) :
    insertEntry nobody perms (indexedEntry work ed p) (s.atInode p) =
      (insertEntry nobody perms (indexedEntry work ed 0) s).atInode p := by
  have hentry : indexedEntry work ed p = (indexedEntry work ed 0).withPinode p := rfl
  rw [hentry, insertEntry, insertEntry, SideData.atInode, SideData.atInode,
    receivers_withPinode, insertdbgoXattrs_withPinode]

theorem externalInsert_atInode (hs : s.atInode 0 = s) (path : Bytes) :
    externalInsert p path (s.atInode p) = (externalInsert 0 path s).atInode p := by
  have hmem : (p, path) ∈ (s.atInode p).userDbs ↔ (0, path) ∈ s.userDbs := by
    rw [← hs]
    simp [SideData.atInode]
  rw [externalInsert, externalInsert]
  by_cases h : (0, path) ∈ s.userDbs
  · rw [if_pos h, if_pos (hmem.mpr h)]
  · rw [if_neg h, if_neg (mt hmem.mp h)]
    simp [SideData.atInode]

/-- The items as `gufi_trace2index` gets them. -/
theorem trace2indexNondir_entry {work : Trace.Work} {ed : Trace.EntryData}
    (h : (SideItem.entry work ed).IsNondir) :
    trace2indexNondir nobody s (SideItem.entry work ed).row =
      insertEntry nobody (statPermissions work.statuso) (indexedEntry work ed 0) s := by
  have htype : ed.type ≠ 101 := by
    obtain htype | htype := h <;> rw [htype] <;> decide
  exact if_neg htype

theorem trace2indexNondir_external (path : Bytes) :
    trace2indexNondir nobody s (SideItem.external path).row = externalInsert 0 path s := rfl

/-- What is recorded stays without an inode. -/
theorem trace2indexNondir_atInode {item : SideItem} (hitem : item.IsNondir)
    (hs : s.atInode 0 = s) :
    (trace2indexNondir nobody s item.row).atInode 0 = trace2indexNondir nobody s item.row := by
  cases item with
  | entry work ed =>
      rw [trace2indexNondir_entry hitem, ← insertEntry_atInode, hs]
  | external path =>
      rw [trace2indexNondir_external, ← externalInsert_atInode hs, hs]

/-- One item with the same decision keeps the two programs together. -/
theorem dir2indexNondir_atInode {item : SideItem} (hitem : item.IsNondir)
    (hs : s.atInode 0 = s) (hsame : SameRollin dir.perms item) :
    dir2indexNondir nobody dir (s.atInode dir.inode) item =
      (trace2indexNondir nobody s item.row).atInode dir.inode := by
  cases item with
  | entry work ed =>
      rw [trace2indexNondir_entry hitem, dir2indexNondir, insertEntry_atInode]
      congr 1
      simp only [insertEntry, receivers, insertdbgoXattrs_eq]
      have hperms : (indexedEntry work ed 0).perms = statPermissions work.statuso := rfl
      have hxattrs : (indexedEntry work ed 0).xattrs = [] ↔ ed.xattrs = [] := by
        simp [indexedEntry]
      obtain hnil | hiff := hsame
      · simp [hxattrs.mpr hnil]
      · simp only [hperms, hiff]
  | external path =>
      rw [trace2indexNondir_external, dir2indexNondir, externalInsert_atInode hs]

/-- Another decision sends the attributes elsewhere. -/
theorem sameRollin_of_receivers_eq {work : Trace.Work} {ed : Trace.EntryData}
    {inserts : XattrInserts}
    (h : receivers nobody dir.perms (indexedEntry work ed 0) inserts =
      receivers nobody (statPermissions work.statuso) (indexedEntry work ed 0) inserts) :
    SameRollin dir.perms (.entry work ed) := by
  have hperms : (indexedEntry work ed 0).perms = statPermissions work.statuso := rfl
  have houtside (e : IndexedEntry) : (match xattrDbsFor nobody e inserts.dbs with
      | (_, none) => []
      | (dbs, some (uidDb, gidDb)) =>
        [uidDb, gidDb].map fun i => (dbs[i]?.map IndexedXattrDb.filename).getD []) ≠ [dbname] := by
    intro heq
    have hlength := congrArg List.length heq
    split at hlength <;> simp at hlength
  by_cases hnil : ed.xattrs = []
  · exact .inl hnil
  · have hxattrs : (indexedEntry work ed 0).xattrs ≠ [] := by
      simpa [indexedEntry] using hnil
    rw [receivers, receivers, if_neg hxattrs, if_neg hxattrs, hperms] at h
    refine .inr ?_
    by_cases hdir : xattrCanRollin dir.perms (statPermissions work.statuso) ≠ 0
    · rw [if_pos hdir] at h
      split_ifs at h with hown
      · exact iff_of_true hdir hown
      · exact absurd h.symm (houtside _)
    · rw [if_neg hdir] at h
      split_ifs at h with hown
      · exact absurd h (houtside _)
      · exact iff_of_false hdir hown

theorem receivers_prefix_dir2index (nobody : Nobody) (dir : SideDir) (s : SideData)
    (items : List SideItem) :
    s.receivers <+: (items.foldl (dir2indexNondir nobody dir) s).receivers := by
  induction items generalizing s with
  | nil => exact List.prefix_rfl
  | cons item items ih =>
      refine List.IsPrefix.trans ?_ (ih _)
      cases item with
      | entry work ed => exact List.prefix_append _ _
      | external path =>
          rw [dir2indexNondir, externalInsert]
          split <;> exact List.prefix_rfl

theorem receivers_prefix_trace2index (nobody : Nobody) (s : SideData) (items : List SideItem) :
    s.receivers <+: ((items.map SideItem.row).foldl (trace2indexNondir nobody) s).receivers := by
  induction items generalizing s with
  | nil => exact List.prefix_rfl
  | cons item items ih =>
      refine List.IsPrefix.trans ?_ (ih _)
      rw [trace2indexNondir]
      split
      · rw [externalInsert]
        split <;> exact List.prefix_rfl
      · exact List.prefix_append _ _

/-- As long as the decisions are the same, the programs differ in the inode only. -/
theorem dir2index_eq_atInode (nobody : Nobody) {items : List SideItem}
    (hitems : ∀ item ∈ items, item.IsNondir)
    (hs : s.atInode 0 = s) (hsame : ∀ item ∈ items, SameRollin dir.perms item) :
    items.foldl (dir2indexNondir nobody dir) (s.atInode dir.inode) =
        ((items.map SideItem.row).foldl (trace2indexNondir nobody) s).atInode dir.inode ∧
      ((items.map SideItem.row).foldl (trace2indexNondir nobody) s).atInode 0 =
        (items.map SideItem.row).foldl (trace2indexNondir nobody) s := by
  induction items generalizing s with
  | nil => exact ⟨rfl, hs⟩
  | cons item items ih =>
      rw [List.forall_mem_cons] at hitems hsame
      rw [List.map_cons, List.foldl_cons, List.foldl_cons,
        dir2indexNondir_atInode hitems.1 hs hsame.1]
      exact ih hitems.2 (trace2indexNondir_atInode hitems.1 hs) hsame.2

theorem receivers_eq_iff (nobody : Nobody) (dir : SideDir) {items : List SideItem}
    (hitems : ∀ item ∈ items, item.IsNondir)
    (hs : s.atInode 0 = s) :
    (items.foldl (dir2indexNondir nobody dir) (s.atInode dir.inode)).receivers =
        ((items.map SideItem.row).foldl (trace2indexNondir nobody) s).receivers ↔
      ∀ item ∈ items, SameRollin dir.perms item := by
  refine ⟨fun h => ?_, fun hsame => ?_⟩
  · induction items generalizing s with
    | nil => exact nofun
    | cons item items ih =>
        rw [List.forall_mem_cons] at hitems ⊢
        rw [List.map_cons, List.foldl_cons, List.foldl_cons] at h
        have hhead : SameRollin dir.perms item := by
          cases item with
          | external path => trivial
          | entry work ed =>
              -- both lists start with what they had and the receivers of this entry
              rw [trace2indexNondir_entry hitems.1, dir2indexNondir, insertEntry_atInode] at h
              have hdir := receivers_prefix_dir2index nobody dir
                ((insertEntry nobody dir.perms (indexedEntry work ed 0) s).atInode dir.inode) items
              have htrace := receivers_prefix_trace2index nobody (insertEntry nobody
                (statPermissions work.statuso) (indexedEntry work ed 0) s) items
              rw [h] at hdir
              have heq := (List.prefix_of_prefix_length_le hdir htrace
                (by simp [SideData.atInode, insertEntry])).eq_of_length
                (by simp [SideData.atInode, insertEntry])
              have hlast := List.append_cancel_left heq
              exact sameRollin_of_receivers_eq (List.singleton_inj.mp hlast)
        rw [dir2indexNondir_atInode hitems.1 hs hhead] at h
        exact ⟨hhead, ih hitems.2 (trace2indexNondir_atInode hitems.1 hs) h⟩
  · rw [(dir2index_eq_atInode nobody hitems hs hsame).1]
    rfl

/-- Whether anything is recorded with an inode. -/
theorem dir2index_eq_nil_iff (nobody : Nobody) (dir : SideDir) (s : SideData)
    (items : List SideItem) :
    ((items.foldl (dir2indexNondir nobody dir) s).userDbs = [] ∧
        (items.foldl (dir2indexNondir nobody dir) s).inserts.dbs = []) ↔
      (s.userDbs = [] ∧ s.inserts.dbs = []) ∧
        ∀ item ∈ items, StaysInside nobody dir.perms item := by
  induction items generalizing s with
  | nil => simp
  | cons item items ih =>
      rw [List.foldl_cons, ih, List.forall_mem_cons, ← and_assoc]
      refine and_congr_left' ?_
      cases item with
      | entry work ed =>
          have hxattrs : (indexedEntry work ed dir.inode).xattrs = [] ↔ ed.xattrs = [] := by
            simp [indexedEntry]
          rw [dir2indexNondir, dbs_insertEntry_eq_nil_iff, hxattrs, and_assoc]
          rfl
      | external path =>
          have hne : (externalInsert dir.inode path s).userDbs ≠ [] := by
            rw [externalInsert]
            split
            · rename_i hmem
              exact List.ne_nil_of_mem hmem
            · simp
          exact ⟨fun h => absurd h.1 hne, fun h => h.2.elim⟩

theorem externalDbs_atInode_eq_iff (hs : s.atInode 0 = s) :
    (s.atInode p).externalDbs = s.externalDbs ↔
      p = 0 ∨ (s.userDbs = [] ∧ s.inserts.dbs = []) := by
  constructor
  · intro h
    by_cases hp : p = 0
    · exact .inl hp
    · refine .inr ?_
      rw [← hs] at h
      obtain ⟨receivers, inserts, userDbs⟩ := s
      cases userDbs with
      | cons x userDbs =>
          have hhead := (List.cons.inj h).1
          simp at hhead
          exact absurd hhead hp
      | nil =>
          obtain ⟨pwd, dbs⟩ := inserts
          cases dbs with
          | nil => exact ⟨rfl, rfl⟩
          | cons x dbs =>
              have hhead := (List.cons.inj h).1
              simp [IndexedXattrDb.withPinode, IndexedXattrDb.external, ExternalDb.key] at hhead
              exact absurd hhead hp
  · rintro (rfl | ⟨huser, hdbs⟩)
    · rw [hs]
    · simp [SideData.externalDbs, SideData.atInode, XattrInserts.withPinode, huser, hdbs]

/-- The databases that receive each entry's extended attributes, and the rows of `external_dbs`. -/
def SideDataAgrees (nobody : Nobody) (dir : SideDir) (items : List SideItem) : Prop :=
  (dir2indexSide nobody dir items).receivers = (trace2indexSide nobody items).receivers ∧
    (dir2indexSide nobody dir items).externalDbs = (trace2indexSide nobody items).externalDbs

/-- A file of user 1001 with the extended attribute `user.a`. -/
def sideFile (mode : UInt32) : SideItem :=
  .entry ⟨[97], 1, ⟨7, mode, 1, 1001, 1001, 3, 4096, 8, 0, 0, 0⟩, 0, 2⟩
    { Trace.EntryData.zero with
      type := 102
      xattrs := [⟨[117, 115, 101, 114, 46, 97], [49]⟩] }

/-- A directory with inode 2 that others own and can read. -/
def sideDir : SideDir := ⟨⟨0o755, 1000, 1000⟩, 2⟩

theorem isNondir_sideFile (mode : UInt32) : ∀ item ∈ [sideFile mode], item.IsNondir := by
  intro item hitem
  obtain rfl := List.mem_singleton.mp hitem
  exact .inl rfl

end Agreement

end Gufi
