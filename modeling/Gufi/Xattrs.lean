import Gufi.Schema

/-!
# Extended attributes of an indexed directory

`insertdbgo_xattrs` decides for every entry where its extended attributes go. When
`xattr_can_rollin` finds a rule that applies they are stored in the directory's own `db.db`, and
are then readable by everyone who can read the directory. Otherwise they go to a per-user and a
per-group database.

The comment above the fourth rule lists `drw*rw*rw*`, `drw*rw*___` and `drw*______`, but the masks
do not ask for the blanks, so a directory that others can read passes for `drw*______`.
`RollinSound` says exactly for which directories and entries the stored attributes are seen only
by users who can read the entry or write to the directory.
-/

namespace Gufi

open UnixAccess

section CanRollin

def ugoMask : ℕ := 0o004

def ugMask : ℕ := 0o440

def uMask : ℕ := 0o400

/-- The number of the first rule that applies, 0 when none does. -/
def xattrCanRollin (parent entry : Permissions) : ℕ :=
  if entry.mode &&& ugoMask = ugoMask then 1
  else if entry.mode &&& ugMask = ugMask ∧ parent.uid = entry.uid ∧ parent.gid = entry.gid ∧
      parent.mode &&& ugoMask = ugMask then 2
  else if entry.mode &&& uMask = uMask ∧ parent.uid = entry.uid ∧ parent.gid = entry.gid ∧
      parent.mode &&& ugoMask = uMask then 3
  else if parent.mode &&& 0o666 = 0o666 ∨
      (parent.mode &&& 0o660 = 0o660 ∧ (parent.uid = entry.uid ∨ parent.gid = entry.gid)) ∨
      (parent.mode &&& 0o600 = 0o600 ∧ parent.uid = entry.uid) then 4
  else 0

end CanRollin

section Insert

/-- The identity external databases get for the half they are not about. -/
structure Nobody where
  uid : ℕ
  gid : ℕ

/-- A per-user or per-group database being filled while a directory is indexed. -/
structure IndexedXattrDb where
  filename : Bytes
  pinode : ℕ
  perms : Permissions
  rows : List XattrRow
deriving DecidableEq

/-- The `external_dbs_pwd` row `destroy_xattr_db` writes. -/
def IndexedXattrDb.external (x : IndexedXattrDb) : ExternalDb :=
  ⟨.xattrs, x.pinode, x.filename, x.perms⟩

/-- No file can be created when both ids are those of nobody, as the filename is then empty. -/
def createXattrDb (nobody : Nobody) (pinode uid gid mode : ℕ) : Option IndexedXattrDb :=
  if uid ≠ nobody.uid then some ⟨xattrUidFilename uid, pinode, ⟨0o600, uid, gid⟩, []⟩
  else if gid ≠ nobody.gid then
    if mode &&& 0o040 = 0o040 then
      some ⟨xattrGidWReadFilename gid, pinode, ⟨0o040, uid, gid⟩, []⟩
    else some ⟨xattrGidWoReadFilename gid, pinode, ⟨0o000, uid, gid⟩, []⟩
  else none

/-- An entry with its extended attributes. -/
structure IndexedEntry where
  perms : Permissions
  inode : ℕ
  pinode : ℕ
  xattrs : List (Bytes × Bytes)

/-- The rows `insertdbgo_xattrs_avail` inserts. -/
def IndexedEntry.rows (e : IndexedEntry) : List XattrRow :=
  e.xattrs.map fun x => ⟨e.inode, x.1, x.2⟩

/-- The list is searched until both databases are found, and the last match counts. -/
def findXattrDbs (entry : Permissions) :
    ℕ → List IndexedXattrDb → Option ℕ × Option ℕ → Option ℕ × Option ℕ
  | _, [], found => found
  | i, x :: xs, (uidDb, gidDb) =>
      let uidMatch : Bool := x.perms.uid = entry.uid
      let uidDb' := if uidMatch then some i else uidDb
      if uidMatch ∧ gidDb.isSome then (uidDb', gidDb)
      else
        let gidMatch : Bool := x.perms.gid = entry.gid ∧
          x.perms.mode &&& 0o040 = entry.mode &&& 0o040
        let gidDb' := if gidMatch then some i else gidDb
        if gidMatch ∧ uidDb'.isSome then (uidDb', gidDb')
        else findXattrDbs entry (i + 1) xs (uidDb', gidDb')

/-- `xattrs_pwd` of `db.db` and the external databases. -/
structure XattrInserts where
  pwd : List XattrRow
  dbs : List IndexedXattrDb

/-- The found database, or a new one at the end of the list. -/
def findOrCreate (found : Option ℕ) (new : Option IndexedXattrDb) (dbs : List IndexedXattrDb) :
    Option (ℕ × List IndexedXattrDb) :=
  match found with
  | some i => some (i, dbs)
  | none => new.map fun x => (dbs.length, dbs ++ [x])

def insertRows (rows : List XattrRow) (i : ℕ) (dbs : List IndexedXattrDb) : List IndexedXattrDb :=
  dbs.modify i fun x => { x with rows := x.rows ++ rows }

/-- The inserts of one entry and whether both databases could be had. -/
def insertdbgoXattrs (nobody : Nobody) (dir : Permissions) (e : IndexedEntry) (s : XattrInserts) :
    XattrInserts × Bool :=
  if e.xattrs = [] then (s, true)
  else if xattrCanRollin dir e.perms ≠ 0 then ({ s with pwd := s.pwd ++ e.rows }, true)
  else
    let found := findXattrDbs e.perms 0 s.dbs (none, none)
    match findOrCreate found.1
        (createXattrDb nobody e.pinode e.perms.uid nobody.gid e.perms.mode) s.dbs with
    | none => (s, false)
    | some (uidDb, dbs) =>
        match findOrCreate found.2
            (createXattrDb nobody e.pinode nobody.uid e.perms.gid e.perms.mode) dbs with
        | none => ({ s with dbs := dbs }, false)
        | some (gidDb, dbs) =>
            ({ s with dbs := insertRows e.rows gidDb (insertRows e.rows uidDb dbs) }, true)

/-- All entries of a directory. The result of one entry is not looked at. -/
def insertEntries (nobody : Nobody) (dir : Permissions) (es : List IndexedEntry) : XattrInserts :=
  es.foldl (fun s e => (insertdbgoXattrs nobody dir e s).1) ⟨[], []⟩

theorem pwd_insertdbgoXattrs (nobody : Nobody) (dir : Permissions) (e : IndexedEntry)
    (s : XattrInserts) : (insertdbgoXattrs nobody dir e s).1.pwd =
      s.pwd ++ if xattrCanRollin dir e.perms ≠ 0 then e.rows else [] := by
  unfold insertdbgoXattrs
  by_cases hx : e.xattrs = []
  · simp [hx, IndexedEntry.rows]
  · by_cases hr : xattrCanRollin dir e.perms ≠ 0
    · rw [if_neg hx, if_pos hr, if_pos hr]
    · rw [if_neg hx, if_neg hr, if_neg hr, List.append_nil]
      simp only
      split
      · rfl
      · split <;> rfl

/-- Exactly the attributes of the entries that can roll in are stored in the directory's own
database. -/
theorem pwd_insertEntries (nobody : Nobody) (dir : Permissions) (es : List IndexedEntry) :
    (insertEntries nobody dir es).pwd =
      (es.filter fun e => xattrCanRollin dir e.perms ≠ 0).flatMap IndexedEntry.rows := by
  have hgen : ∀ s : XattrInserts,
      (es.foldl (fun s e => (insertdbgoXattrs nobody dir e s).1) s).pwd = s.pwd ++
        (es.filter fun e => xattrCanRollin dir e.perms ≠ 0).flatMap IndexedEntry.rows := by
    induction es with
    | nil => simp
    | cons e es ih =>
        intro s
        rw [List.foldl_cons, ih, pwd_insertdbgoXattrs]
        by_cases hr : xattrCanRollin dir e.perms ≠ 0 <;> simp [hr]
  exact hgen ⟨[], []⟩

end Insert

section Soundness

variable (dir entry : Permissions)

/-- The fourth rule: the directory has write for every read, as far as the masks say so. -/
def DirectoryPasses : Prop :=
  dir.mode &&& 0o666 = 0o666 ∨
    (dir.mode &&& 0o660 = 0o660 ∧ (dir.uid = entry.uid ∨ dir.gid = entry.gid)) ∨
    (dir.mode &&& 0o600 = 0o600 ∧ dir.uid = entry.uid)

/-- Write for every read, in one class of a directory. -/
def WriteForRead (p : Permissions) (c : AccessClass) : Prop :=
  p.Grants c r → p.Grants c w

instance : Decidable (DirectoryPasses dir entry) :=
  inferInstanceAs (Decidable (_ ∨ _ ∨ _))

instance (c : AccessClass) : Decidable (WriteForRead dir c) :=
  inferInstanceAs (Decidable (_ → _))

/-- When everyone else can read the entry, its owner and its group must be able to as well, unless
those of them who can read the directory can also write to it. When the directory passes for its
write permissions, it must be writable for every class that can read it, except for a group that
is also the entry's and can read the entry. -/
def RollinSound : Prop :=
  if entry.Grants .other r then
    (entry.Grants .owner r ∨
      if dir.uid = entry.uid then WriteForRead dir .owner
      else WriteForRead dir .group ∧ WriteForRead dir .other) ∧
    (entry.Grants .group r ∨
      (WriteForRead dir .group ∧ (dir.uid ≠ entry.uid → WriteForRead dir .owner) ∧
        (dir.gid ≠ entry.gid → WriteForRead dir .other)))
  else if DirectoryPasses dir entry then
    WriteForRead dir .other ∧
      (WriteForRead dir .group ∨ (dir.gid = entry.gid ∧ entry.Grants .group r))
  else True

theorem land_ugoMask_ne {m a : ℕ} (ha : a.testBit 8 = true) : m &&& ugoMask ≠ a := by
  intro h
  have hbit := congrArg (fun n => n.testBit 8) h
  rw [Nat.testBit_and, ha, show ugoMask.testBit 8 = false from by decide, Bool.and_false] at hbit
  cases hbit

/-- The second and the third rule never apply: they compare the parent's mode under the mask of
the others' read bit with masks of other bits. -/
theorem xattrCanRollin_ne_zero_iff :
    xattrCanRollin dir entry ≠ 0 ↔ entry.Grants .other r ∨ DirectoryPasses dir entry := by
  have hug : dir.mode &&& ugoMask ≠ ugMask := land_ugoMask_ne (by decide)
  have hu : dir.mode &&& ugoMask ≠ uMask := land_ugoMask_ne (by decide)
  have hother : entry.mode &&& ugoMask = ugoMask ↔ entry.Grants .other r := Iff.rfl
  simp only [xattrCanRollin, hug, hu, and_false, if_false, hother]
  by_cases ht : entry.Grants .other r
  · simp [ht]
  · rw [if_neg ht]
    split_ifs with hd
    · simp [show DirectoryPasses dir entry from hd]
    · simp [ht, show ¬DirectoryPasses dir entry from hd]

theorem mode_0600_iff (p : Permissions) :
    p.mode &&& 0o600 = 0o600 ↔ p.Grants .owner r ∧ p.Grants .owner w :=
  land_lor_eq_iff (m := p.mode) (a := r <<< 6) (b := w <<< 6)

theorem mode_0060_iff (p : Permissions) :
    p.mode &&& 0o060 = 0o060 ↔ p.Grants .group r ∧ p.Grants .group w :=
  land_lor_eq_iff (m := p.mode) (a := r <<< 3) (b := w <<< 3)

theorem mode_0660_iff (p : Permissions) :
    p.mode &&& 0o660 = 0o660 ↔ p.mode &&& 0o600 = 0o600 ∧ p.mode &&& 0o060 = 0o060 :=
  land_lor_eq_iff (m := p.mode) (a := 0o600) (b := 0o060)

theorem mode_0666_iff (p : Permissions) :
    p.mode &&& 0o666 = 0o666 ↔ p.mode &&& 0o660 = 0o660 ∧ p.mode &&& 0o006 = 0o006 :=
  land_lor_eq_iff (m := p.mode) (a := 0o660) (b := 0o006)

/-- Whatever the fourth rule lets through, the owner of the directory can write to it, and so can
its group unless owner and entry belong together. -/
theorem writeForRead_of_directoryPasses (h : DirectoryPasses dir entry) :
    WriteForRead dir .owner ∧ (WriteForRead dir .group ∨ dir.uid = entry.uid) := by
  have howner : dir.mode &&& 0o600 = 0o600 := by
    rcases h with h | ⟨h, _⟩ | ⟨h, _⟩
    · exact ((mode_0660_iff dir).mp ((mode_0666_iff dir).mp h).1).1
    · exact ((mode_0660_iff dir).mp h).1
    · exact h
  refine ⟨fun _ => ((mode_0600_iff dir).mp howner).2, ?_⟩
  have hgroup (hg : dir.mode &&& 0o660 = 0o660) : WriteForRead dir .group :=
    fun _ => ((mode_0060_iff dir).mp ((mode_0660_iff dir).mp hg).2).2
  rcases h with h | ⟨h, _⟩ | ⟨_, h⟩
  · exact Or.inl (hgroup ((mode_0666_iff dir).mp h).1)
  · exact Or.inl (hgroup h)
  · exact Or.inr h

/-- Attributes that roll in are seen by users who can read the entry or write to the directory,
and by no one else, exactly for the directories and entries of `RollinSound`. -/
theorem rollin_never_widens_iff :
    (xattrCanRollin dir entry ≠ 0 → ∀ u : User, u.Can r dir → u.Can r entry ∨ u.Can w dir) ↔
      RollinSound dir entry := by
  have hpair : (∀ u : User, u.Can r dir → u.Can r entry ∨ u.Can w dir) ↔
      ∀ a b, Compatible dir entry a b → entry.Grants b r ∨ WriteForRead dir a := by
    rw [← forall_user_iff dir entry fun a b => entry.Grants b r ∨ WriteForRead dir a]
    simp only [User.Can, WriteForRead]
    exact forall_congr' fun u => by tauto
  rw [xattrCanRollin_ne_zero_iff, hpair]
  simp only [AccessClass.forall_iff, Compatible, RollinSound]
  by_cases ht : entry.Grants .other r
  · by_cases hu : dir.uid = entry.uid <;> by_cases hg : dir.gid = entry.gid <;> grind
  · by_cases hd : DirectoryPasses dir entry
    · obtain ⟨ho, hgroup⟩ := writeForRead_of_directoryPasses dir entry hd
      by_cases hu : dir.uid = entry.uid <;> by_cases hg : dir.gid = entry.gid <;> grind
    · simp [ht, hd]

/-- A directory `drwxr-xr-x` and an entry `-rw-------` of the same owner: the attributes are stored
in the directory's database and everyone can read them. -/
theorem not_rollin_never_widens :
    ¬∀ (dir entry : Permissions), xattrCanRollin dir entry ≠ 0 →
      ∀ u : User, u.Can r dir → u.Can r entry ∨ u.Can w dir := by
  intro h
  have hu := h ⟨0o755, 1000, 1000⟩ ⟨0o600, 1000, 1000⟩ (by decide) ⟨1001, ∅⟩
  revert hu
  decide

end Soundness

end Gufi
