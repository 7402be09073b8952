import Gufi.Xattrs
import Mathlib.Data.Nat.Bitwise

/-!
# Where the extended attributes of a directory go

Attributes that cannot be rolled in belong into the database of the user and into one of the two
databases of the group. All of them are in one list and have the ids of nobody for the half they are
not about, so an entry of nobody is taken for theirs, or has no database at all. Where no such entry
is, every database holds the attributes of exactly its entries.
-/

namespace Gufi

open UnixAccess

section Places

/-- Whose attributes a database is for. -/
inductive XattrKey
  | uid (n : ℕ)
  | gid (n : ℕ) (read : Bool)
deriving DecidableEq

def XattrKey.filename : XattrKey → Bytes
  | .uid n => xattrUidFilename n
  | .gid n true => xattrGidWReadFilename n
  | .gid n false => xattrGidWoReadFilename n

def XattrKey.perms (nobody : Nobody) : XattrKey → Permissions
  | .uid n => ⟨0o600, n, nobody.gid⟩
  | .gid n true => ⟨0o040, nobody.uid, n⟩
  | .gid n false => ⟨0o000, nobody.uid, n⟩

def groupReads (mode : ℕ) : Bool := mode &&& 0o040 = 0o040

/-- There is something to store that does not go to `db.db`. -/
def IndexedEntry.IsExternal (dir : Permissions) (e : IndexedEntry) : Prop :=
  e.xattrs ≠ [] ∧ xattrCanRollin dir e.perms = 0

instance (dir : Permissions) (e : IndexedEntry) : Decidable (e.IsExternal dir) :=
  inferInstanceAs (Decidable (_ ∧ _))

def IndexedEntry.uidKey (e : IndexedEntry) : XattrKey := .uid e.perms.uid

def IndexedEntry.gidKey (e : IndexedEntry) : XattrKey :=
  .gid e.perms.gid (groupReads e.perms.mode)

/-- The databases that the attributes of an entry are meant for. -/
def IndexedEntry.keys (dir : Permissions) (e : IndexedEntry) : List XattrKey :=
  if e.IsExternal dir then [e.uidKey, e.gidKey] else []

/-- The attributes that are meant for a database. -/
def rowsFor (dir : Permissions) (es : List IndexedEntry) (k : XattrKey) : List XattrRow :=
  (es.filter fun e => k ∈ e.keys dir).flatMap IndexedEntry.rows

variable (nobody : Nobody) (dir : Permissions)

/-- `destroy_xattr_db` also registers a database that could not be created. Its name is empty. -/
def failedXattrDbs : XattrInserts → List IndexedEntry → List ExternalDb
  | _, [] => []
  | s, e :: es =>
    let r := insertdbgoXattrs nobody dir e s
    (if r.2 then [] else [⟨.xattrs, e.pinode, [], ⟨0, nobody.uid, nobody.gid⟩⟩]) ++
      failedXattrDbs r.1 es

/-- The rows for databases of extended attributes in `external_dbs_pwd`. -/
def registeredXattrDbs (es : List IndexedEntry) : List ExternalDb :=
  failedXattrDbs nobody dir ⟨[], []⟩ es ++
    (insertEntries nobody dir es).dbs.map IndexedXattrDb.external

/-- The attributes are where they are meant to be and nowhere else. -/
structure XattrsPlaced (es : List IndexedEntry) : Prop where
  pwd : (insertEntries nobody dir es).pwd =
    (es.filter fun e => xattrCanRollin dir e.perms ≠ 0).flatMap IndexedEntry.rows
  dbs : ∀ k : XattrKey,
    ((insertEntries nobody dir es).dbs.filter (·.filename = k.filename)).map (·.rows) =
      if ∃ e ∈ es, k ∈ e.keys dir then [rowsFor dir es k] else []
  meant : ∀ x ∈ (insertEntries nobody dir es).dbs,
    ∃ e ∈ es, ∃ k ∈ e.keys dir, x.filename = k.filename ∧ x.perms = k.perms nobody
  registered : registeredXattrDbs nobody dir es =
    (insertEntries nobody dir es).dbs.map IndexedXattrDb.external

end Places

section Search

variable {nobody : Nobody} {dir : Permissions} {keys : List XattrKey} {k k' : XattrKey}

theorem XattrKey.filename_injective (h : k.filename = k'.filename) : k = k' := by
  rcases k with n | ⟨n, _ | _⟩ <;> rcases k' with m | ⟨m, _ | _⟩ <;>
    simp only [filename, xattrUidFilename, xattrGidWReadFilename, xattrGidWoReadFilename,
      List.append_cancel_right_eq, List.cons_append, List.nil_append, List.cons.injEq] at h
  all_goals first
    | (obtain rfl := decimal_injective (show decimal n = decimal m by simpa using h); rfl)
    | exact absurd h (by simp)

theorem land_040 (mode : ℕ) : mode &&& 0o040 = if groupReads mode then 0o040 else 0 := by
  have hbit : mode &&& 0o040 = (mode.testBit 5).toNat * 32 := Nat.and_two_pow mode 5
  unfold groupReads
  rw [hbit]
  cases mode.testBit 5 <;> rfl

theorem uid_perms {n : ℕ} (hn : n ≠ nobody.uid) : (k.perms nobody).uid = n ↔ k = .uid n := by
  rcases k with m | ⟨m, _ | _⟩
  · exact ⟨fun h => congrArg XattrKey.uid h, fun h => XattrKey.uid.inj h⟩
  · exact ⟨fun h => absurd h.symm hn, nofun⟩
  · exact ⟨fun h => absurd h.symm hn, nofun⟩

theorem gid_perms {n mode : ℕ} (hn : n ≠ nobody.gid) :
    (k.perms nobody).gid = n ∧ (k.perms nobody).mode &&& 0o040 = mode &&& 0o040 ↔
      k = .gid n (groupReads mode) := by
  rw [land_040 mode]
  rcases k with m | ⟨m, _ | _⟩
  · exact ⟨fun h => absurd h.1.symm hn, nofun⟩
  · cases groupReads mode <;> simp [XattrKey.perms]
  · cases groupReads mode <;> simp [XattrKey.perms]

/-- The places of the databases of an entry in a list, where no id is that of nobody. -/
theorem findXattrDbs_map {D : XattrKey → IndexedXattrDb} (hD : ∀ k, (D k).perms = k.perms nobody)
    {e : IndexedEntry} (huid : e.perms.uid ≠ nobody.uid) (hgid : e.perms.gid ≠ nobody.gid)
    (hnodup : keys.Nodup) (i : ℕ) {fu fg : Option ℕ} (hfu : fu ≠ none → e.uidKey ∉ keys)
    (hfg : fg ≠ none → e.gidKey ∉ keys) :
    findXattrDbs e.perms i (keys.map D) (fu, fg) =
      (if e.uidKey ∈ keys then some (i + keys.idxOf e.uidKey) else fu,
        if e.gidKey ∈ keys then some (i + keys.idxOf e.gidKey) else fg) := by
  induction keys generalizing i fu fg with
  | nil => rfl
  | cons k keys ih =>
      obtain ⟨hnot, hkeys⟩ := List.nodup_cons.mp hnodup
      have hu : ((D k).perms.uid = e.perms.uid) ↔ k = e.uidKey := by
        rw [hD]
        exact uid_perms huid
      have hg : ((D k).perms.gid = e.perms.gid ∧
          (D k).perms.mode &&& 0o040 = e.perms.mode &&& 0o040) ↔ k = e.gidKey := by
        rw [hD]
        exact gid_perms hgid
      have hne : e.uidKey ≠ e.gidKey := nofun
      have hfu' : fu ≠ none → e.uidKey ∉ keys := fun h hk => hfu h (List.mem_cons_of_mem k hk)
      have hfg' : fg ≠ none → e.gidKey ∉ keys := fun h hk => hfg h (List.mem_cons_of_mem k hk)
      simp only [List.map_cons, findXattrDbs, hu, hg, List.mem_cons]
      by_cases hku : k = e.uidKey
      · obtain rfl := hku
        have hnone : fu = none := by
          by_contra hsome
          exact hfu hsome List.mem_cons_self
        cases fg with
        | none =>
            rw [hnone]
            simp [hne.symm, hne, hnot, ih hkeys (i + 1) (fun _ => hnot) hfg',
              List.idxOf_cons_ne _ hne, Nat.add_assoc, Nat.add_comm 1]
        | some j => simp [hne.symm, hfg' nofun]
      · by_cases hkg : k = e.gidKey
        · obtain rfl := hkg
          have hnone : fg = none := by
            by_contra hsome
            exact hfg hsome List.mem_cons_self
          cases fu with
          | none =>
              rw [hnone]
              simp [hne.symm, hne, hnot, ih hkeys (i + 1) hfu' (fun _ => hnot),
                List.idxOf_cons_ne _ hne.symm, Nat.add_assoc, Nat.add_comm 1]
          | some j => simp [hne, hne.symm, hfu' nofun, hnone]
        · simp [hku, hkg, Ne.symm hku, Ne.symm hkg, ih hkeys (i + 1) hfu' hfg',
            List.idxOf_cons_ne _ hku, List.idxOf_cons_ne _ hkg, Nat.add_assoc, Nat.add_comm 1]

end Search

section Insert

variable {nobody : Nobody} {dir : Permissions} {keys : List XattrKey} {k : XattrKey}
  {D : XattrKey → IndexedXattrDb} {e : IndexedEntry} {es : List IndexedEntry}

def addKey (keys : List XattrKey) (k : XattrKey) : List XattrKey :=
  if k ∈ keys then keys else keys ++ [k]

theorem mem_addKey {k' : XattrKey} : k' ∈ addKey keys k ↔ k' ∈ keys ∨ k' = k := by
  unfold addKey
  split_ifs with h
  · exact ⟨.inl, fun h' => h'.elim id fun heq => heq ▸ h⟩
  · rw [List.mem_append, List.mem_singleton]

theorem nodup_addKey (h : keys.Nodup) : (addKey keys k).Nodup := by
  unfold addKey
  split_ifs with hmem
  · exact h
  · rw [← List.concat_eq_append]
    exact h.concat hmem

theorem idxOf_addKey {k' : XattrKey} (h : k' ∈ keys) :
    (addKey keys k).idxOf k' = keys.idxOf k' := by
  unfold addKey
  split_ifs
  · rfl
  · exact List.idxOf_append_of_mem h

theorem findOrCreate_map {new : Option IndexedXattrDb} (hnew : k ∉ keys → new = some (D k)) :
    findOrCreate (if k ∈ keys then some (0 + keys.idxOf k) else none) new (keys.map D) =
      some ((addKey keys k).idxOf k, (addKey keys k).map D) := by
  unfold addKey
  split_ifs with hmem
  · simp only [findOrCreate, Nat.zero_add]
  · rw [findOrCreate, hnew hmem, Option.map_some, List.length_map, List.map_append,
      List.idxOf_append_of_notMem hmem, List.idxOf_cons_self, Nat.add_zero]
    rfl

theorem insertRows_map {rows : List XattrRow} (hnodup : keys.Nodup) (hk : k ∈ keys) :
    insertRows rows (keys.idxOf k) (keys.map D) = keys.map fun k' =>
      if k' = k then { D k' with rows := (D k').rows ++ rows } else D k' := by
  refine List.ext_getElem? fun i => ?_
  rw [insertRows, List.getElem?_modify, List.getElem?_map, List.getElem?_map]
  cases hi : keys[i]? with
  | none => rfl
  | some k' =>
      have hiff : keys.idxOf k = i ↔ k' = k := by
        obtain ⟨hlt, hget⟩ := List.getElem?_eq_some_iff.mp hi
        constructor
        · rintro rfl
          rw [← hget, List.getElem_idxOf]
        · rintro rfl
          rw [← hget, hnodup.idxOf_getElem]
      simp only [hiff]
      by_cases hsame : k' = k <;> simp [hsame]

/-- The database with the attributes that are meant for it. -/
def database (nobody : Nobody) (dir : Permissions) (pinode : XattrKey → ℕ)
    (es : List IndexedEntry) (k : XattrKey) : IndexedXattrDb :=
  ⟨k.filename, pinode k, k.perms nobody, rowsFor dir es k⟩

theorem rowsFor_append : rowsFor dir (es ++ [e]) k =
    rowsFor dir es k ++ if k ∈ e.keys dir then e.rows else [] := by
  unfold rowsFor
  rw [List.filter_append, List.flatMap_append]
  congr 1
  by_cases h : k ∈ e.keys dir <;> simp [h]

theorem rowsFor_eq_nil (h : ∀ e ∈ es, k ∉ e.keys dir) : rowsFor dir es k = [] := by
  have hnone : es.filter (fun e => k ∈ e.keys dir) = [] := by
    rw [List.filter_eq_nil_iff]
    exact fun e he hk => h e he (of_decide_eq_true hk)
  rw [rowsFor, hnone]
  rfl

/-- The inserts of an entry whose attributes cannot be rolled in. -/
theorem insertdbgoXattrs_map (hext : e.IsExternal dir) (huid : e.perms.uid ≠ nobody.uid)
    (hgid : e.perms.gid ≠ nobody.gid) (hnodup : keys.Nodup)
    (hkeys : ∀ k, k ∈ keys ↔ ∃ e ∈ es, k ∈ e.keys dir) (pinode : XattrKey → ℕ)
    (hpinode : ∀ k ∉ keys, pinode k = e.pinode) (pwd : List XattrRow) :
    insertdbgoXattrs nobody dir e ⟨pwd, keys.map (database nobody dir pinode es)⟩ =
      (⟨pwd, (addKey (addKey keys e.uidKey) e.gidKey).map
        (database nobody dir pinode (es ++ [e]))⟩, true) := by
  have hne : e.gidKey ≠ e.uidKey := nofun
  have hempty (k : XattrKey) (hk : k ∉ keys) : rowsFor dir es k = [] :=
    rowsFor_eq_nil fun e' he' hmem => hk ((hkeys k).mpr ⟨e', he', hmem⟩)
  obtain ⟨keys₁, hkeys₁⟩ : ∃ keys₁, keys₁ = addKey keys e.uidKey := ⟨_, rfl⟩
  obtain ⟨keys₂, hkeys₂⟩ : ∃ keys₂, keys₂ = addKey keys₁ e.gidKey := ⟨_, rfl⟩
  have hnodup₂ : keys₂.Nodup := by
    rw [hkeys₂, hkeys₁]
    exact nodup_addKey (nodup_addKey hnodup)
  have hu₁ : e.uidKey ∈ keys₁ := hkeys₁ ▸ mem_addKey.mpr (.inr rfl)
  have hu₂ : e.uidKey ∈ keys₂ := hkeys₂ ▸ mem_addKey.mpr (.inl hu₁)
  have hg₂ : e.gidKey ∈ keys₂ := hkeys₂ ▸ mem_addKey.mpr (.inr rfl)
  have hg₁ : e.gidKey ∈ keys₁ ↔ e.gidKey ∈ keys := by
    rw [hkeys₁, mem_addKey]
    exact or_iff_left hne
  have hfound : (if e.gidKey ∈ keys then some (0 + keys.idxOf e.gidKey) else none) =
      if e.gidKey ∈ keys₁ then some (0 + keys₁.idxOf e.gidKey) else none := by
    by_cases hmem : e.gidKey ∈ keys
    · rw [if_pos hmem, if_pos (hg₁.mpr hmem), hkeys₁, idxOf_addKey hmem]
    · rw [if_neg hmem, if_neg fun h => hmem (hg₁.mp h)]
  have huid' : e.uidKey ∉ keys → createXattrDb nobody e.pinode e.perms.uid nobody.gid
      e.perms.mode = some (database nobody dir pinode es e.uidKey) := by
    intro hnot
    rw [createXattrDb, if_pos huid, database, hpinode _ hnot, hempty _ hnot]
    rfl
  have hgid' : e.gidKey ∉ keys₁ → createXattrDb nobody e.pinode nobody.uid e.perms.gid
      e.perms.mode = some (database nobody dir pinode es e.gidKey) := by
    intro hnot
    have hnot' : e.gidKey ∉ keys := fun h => hnot (hg₁.mpr h)
    rw [createXattrDb, if_neg (not_not.mpr rfl), if_pos hgid, database, hpinode _ hnot',
      hempty _ hnot', IndexedEntry.gidKey]
    by_cases hread : e.perms.mode &&& 0o040 = 0o040
    · rw [if_pos hread, groupReads, decide_eq_true hread]
      rfl
    · rw [if_neg hread, groupReads, decide_eq_false hread]
      rfl
  have hD (k : XattrKey) : (database nobody dir pinode es k).perms = k.perms nobody := rfl
  unfold insertdbgoXattrs
  rw [if_neg hext.1, if_neg (not_not.mpr hext.2)]
  simp only [findXattrDbs_map hD huid hgid hnodup 0 (absurd rfl) (absurd rfl),
    findOrCreate_map huid', ← hkeys₁, hfound, findOrCreate_map hgid', ← hkeys₂]
  have hidx : keys₁.idxOf e.uidKey = keys₂.idxOf e.uidKey := by
    rw [hkeys₂, idxOf_addKey hu₁]
  rw [hidx, insertRows_map hnodup₂ hu₂, insertRows_map hnodup₂ hg₂]
  congr 2
  refine List.map_congr_left fun k hk => ?_
  have hmem : k ∈ e.keys dir ↔ k = e.uidKey ∨ k = e.gidKey := by
    rw [IndexedEntry.keys, if_pos hext]
    simp
  simp only [database, rowsFor_append, hmem]
  by_cases hku : k = e.uidKey
  · simp [hku, hne.symm]
  · by_cases hkg : k = e.gidKey
    · simp [hkg, hne]
    · simp [hku, hkg]

theorem insertdbgoXattrs_inside (h : ¬ e.IsExternal dir) (s : XattrInserts) :
    (insertdbgoXattrs nobody dir e s).1.dbs = s.dbs ∧
      (insertdbgoXattrs nobody dir e s).2 = true := by
  unfold insertdbgoXattrs
  by_cases hx : e.xattrs = []
  · rw [if_pos hx]
    exact ⟨rfl, rfl⟩
  · have hr : xattrCanRollin dir e.perms ≠ 0 := fun hr => h ⟨hx, hr⟩
    rw [if_neg hx, if_pos hr]
    exact ⟨rfl, rfl⟩

theorem insertEntries_append : insertEntries nobody dir (es ++ [e]) =
    (insertdbgoXattrs nobody dir e (insertEntries nobody dir es)).1 := by
  rw [insertEntries, List.foldl_append]
  rfl

theorem failedXattrDbs_append (s : XattrInserts) (es : List IndexedEntry) (e : IndexedEntry) :
    failedXattrDbs nobody dir s (es ++ [e]) = failedXattrDbs nobody dir s es ++
      failedXattrDbs nobody dir
        (es.foldl (fun s e => (insertdbgoXattrs nobody dir e s).1) s) [e] := by
  induction es generalizing s with
  | nil => rfl
  | cons e' es ih =>
      rw [List.cons_append, failedXattrDbs, failedXattrDbs, ih, List.append_assoc]
      rfl

/-- Where no entry is of nobody, the databases are those that are meant, each with its rows. -/
theorem insertEntries_dbs
    (h : ∀ e ∈ es, e.IsExternal dir → e.perms.uid ≠ nobody.uid ∧ e.perms.gid ≠ nobody.gid) :
    ∃ (keys : List XattrKey) (pinode : XattrKey → ℕ), keys.Nodup ∧
      (∀ k, k ∈ keys ↔ ∃ e ∈ es, k ∈ e.keys dir) ∧
      (insertEntries nobody dir es).dbs = keys.map (database nobody dir pinode es) ∧
      failedXattrDbs nobody dir ⟨[], []⟩ es = [] := by
  induction es using List.reverseRecOn with
  | nil => exact ⟨[], fun _ => 0, List.nodup_nil, by simp, rfl, rfl⟩
  | append_singleton es e ih =>
      obtain ⟨keys, pinode, hnodup, hkeys, hdbs, hfailed⟩ :=
        ih fun e' he' => h e' (List.mem_append_left _ he')
      have hfail : failedXattrDbs nobody dir ⟨[], []⟩ (es ++ [e]) =
          failedXattrDbs nobody dir (insertEntries nobody dir es) [e] := by
        rw [failedXattrDbs_append, hfailed, List.nil_append, insertEntries]
      by_cases hext : e.IsExternal dir
      · obtain ⟨huid, hgid⟩ := h e (List.mem_append_right _ List.mem_cons_self) hext
        -- a new database has the inode of the entry that it is made for
        obtain ⟨pinode', hpinode'⟩ : ∃ p : XattrKey → ℕ,
          ∀ k, p k = if k ∈ keys then pinode k else e.pinode := ⟨_, fun _ => rfl⟩
        have hsame : keys.map (database nobody dir pinode es) =
            keys.map (database nobody dir pinode' es) := by
          refine List.map_congr_left fun k hk => ?_
          rw [database, database, hpinode', if_pos hk]
        have hstate : insertEntries nobody dir es = ⟨(insertEntries nobody dir es).pwd,
            keys.map (database nobody dir pinode' es)⟩ := by
          rw [← hsame, ← hdbs]
        have hstep := insertdbgoXattrs_map hext huid hgid hnodup hkeys pinode'
          (fun k hk => by rw [hpinode', if_neg hk]) (insertEntries nobody dir es).pwd
        rw [← hstate] at hstep
        refine ⟨addKey (addKey keys e.uidKey) e.gidKey, pinode', nodup_addKey (nodup_addKey hnodup),
          fun k => ?_, ?_, ?_⟩
        · have hmem : k ∈ e.keys dir ↔ k = e.uidKey ∨ k = e.gidKey := by
            rw [IndexedEntry.keys, if_pos hext]
            simp
          rw [mem_addKey, mem_addKey, hkeys]
          simp only [List.mem_append, List.mem_singleton, or_and_right, exists_or,
            exists_eq_left, hmem, or_assoc]
        · rw [insertEntries_append, hstep]
        · rw [hfail, failedXattrDbs, hstep]
          rfl
      · obtain ⟨hsame, htrue⟩ := insertdbgoXattrs_inside hext (insertEntries nobody dir es)
        have hnone : e.keys dir = [] := if_neg hext
        refine ⟨keys, pinode, hnodup, fun k => ?_, ?_, ?_⟩
        · rw [hkeys]
          simp [hnone]
        · rw [insertEntries_append, hsame, hdbs]
          refine List.map_congr_left fun k _ => ?_
          simp [database, rowsFor_append, hnone]
        · rw [hfail, failedXattrDbs, htrue]
          rfl

end Insert

section Nobody

variable {nobody : Nobody} {dir : Permissions} {e : IndexedEntry} {es : List IndexedEntry}

def XattrKey.OfNobody (nobody : Nobody) : XattrKey → Prop
  | .uid n => n = nobody.uid
  | .gid n _ => n = nobody.gid

/-- No database is named for nobody. -/
def NoneOfNobody (nobody : Nobody) (dbs : List IndexedXattrDb) : Prop :=
  ∀ x ∈ dbs, ∃ k : XattrKey, ¬ k.OfNobody nobody ∧ x.filename = k.filename

theorem createXattrDb_filename {pinode uid gid mode : ℕ} {x : IndexedXattrDb}
    (h : createXattrDb nobody pinode uid gid mode = some x) :
    ∃ k : XattrKey, ¬ k.OfNobody nobody ∧ x.filename = k.filename := by
  unfold createXattrDb at h
  split_ifs at h with huid hgid hread
  · obtain rfl := Option.some.inj h
    exact ⟨.uid uid, huid, rfl⟩
  · obtain rfl := Option.some.inj h
    exact ⟨.gid gid true, hgid, rfl⟩
  · obtain rfl := Option.some.inj h
    exact ⟨.gid gid false, hgid, rfl⟩

theorem NoneOfNobody.findOrCreate {dbs dbs' : List IndexedXattrDb} {found : Option ℕ}
    {pinode uid gid mode i : ℕ} (h : NoneOfNobody nobody dbs)
    (hfind : findOrCreate found (createXattrDb nobody pinode uid gid mode) dbs = some (i, dbs')) :
    NoneOfNobody nobody dbs' := by
  cases found with
  | some j =>
      obtain ⟨-, rfl⟩ := Prod.mk.inj (Option.some.inj hfind)
      exact h
  | none =>
      obtain ⟨x, hx, hpair⟩ := Option.map_eq_some_iff.mp hfind
      obtain ⟨-, rfl⟩ := Prod.mk.inj hpair
      intro y hy
      rcases List.mem_append.mp hy with hy | hy
      · exact h y hy
      · rw [List.mem_singleton.mp hy]
        exact createXattrDb_filename hx

theorem NoneOfNobody.insertRows {dbs : List IndexedXattrDb} (h : NoneOfNobody nobody dbs)
    (rows : List XattrRow) (i : ℕ) : NoneOfNobody nobody (insertRows rows i dbs) := by
  intro x hx
  obtain ⟨j, hj⟩ := List.getElem?_of_mem hx
  rw [Gufi.insertRows, List.getElem?_modify] at hj
  obtain ⟨y, hy, rfl⟩ := Option.map_eq_some_iff.mp hj
  obtain ⟨k, hk, hname⟩ := h y (List.mem_of_getElem? hy)
  refine ⟨k, hk, ?_⟩
  split <;> exact hname

theorem NoneOfNobody.insertdbgoXattrs {s : XattrInserts} (h : NoneOfNobody nobody s.dbs) :
    NoneOfNobody nobody (insertdbgoXattrs nobody dir e s).1.dbs := by
  unfold Gufi.insertdbgoXattrs
  split_ifs
  · exact h
  · exact h
  · dsimp only
    split
    · exact h
    · rename_i uidDb dbs₁ hfind
      have h₁ := h.findOrCreate hfind
      split
      · exact h₁
      · rename_i gidDb dbs₂ hfind'
        exact ((h₁.findOrCreate hfind').insertRows _ _).insertRows _ _

theorem noneOfNobody_insertEntries :
    NoneOfNobody nobody (insertEntries nobody dir es).dbs := by
  induction es using List.reverseRecOn with
  | nil => exact nofun
  | append_singleton es e ih =>
      rw [insertEntries_append]
      exact ih.insertdbgoXattrs

theorem XattrsPlaced.not_ofNobody (h : XattrsPlaced nobody dir es) (he : e ∈ es)
    {k : XattrKey} (hk : k ∈ e.keys dir) : ¬ k.OfNobody nobody := by
  have hone := h.dbs k
  rw [if_pos ⟨e, he, hk⟩] at hone
  obtain ⟨x, hx, -⟩ : ∃ x ∈ (insertEntries nobody dir es).dbs.filter (·.filename = k.filename),
      x.rows = rowsFor dir es k := by
    rw [← List.mem_map, hone]
    exact List.mem_singleton_self _
  obtain ⟨hmem, hname⟩ := List.mem_filter.mp hx
  obtain ⟨k', hk', hname'⟩ := noneOfNobody_insertEntries x hmem
  have hsame : k' = k :=
    XattrKey.filename_injective (hname'.symm.trans (of_decide_eq_true hname))
  exact hsame ▸ hk'

/-- The attributes are where they are meant to be just if none that cannot be rolled in are of an
entry with the user or the group of nobody. -/
theorem xattrsPlaced_iff (nobody : Nobody) (dir : Permissions) (es : List IndexedEntry) :
    XattrsPlaced nobody dir es ↔ ∀ e ∈ es, e.IsExternal dir →
      e.perms.uid ≠ nobody.uid ∧ e.perms.gid ≠ nobody.gid := by
  constructor
  · intro h e he hext
    have hkeys : e.keys dir = [e.uidKey, e.gidKey] := if_pos hext
    exact ⟨h.not_ofNobody he (k := e.uidKey) (by simp [hkeys]),
      h.not_ofNobody he (k := e.gidKey) (by simp [hkeys])⟩
  · intro h
    obtain ⟨keys, pinode, hnodup, hkeys, hdbs, hfailed⟩ := insertEntries_dbs h
    refine ⟨pwd_insertEntries nobody dir es, fun k => ?_, fun x hx => ?_, ?_⟩
    · have hfilter : (keys.map (database nobody dir pinode es)).filter
          (·.filename = k.filename) =
            (keys.filter (· = k)).map (database nobody dir pinode es) := by
        rw [List.filter_map]
        congr 1
        refine List.filter_congr fun k' _ => ?_
        rw [Function.comp_apply, decide_eq_decide]
        exact ⟨fun h => XattrKey.filename_injective h, fun h => h ▸ rfl⟩
      rw [hdbs, hfilter, List.filter_eq, List.map_replicate, List.map_replicate]
      simp only [← hkeys]
      by_cases hk : k ∈ keys
      · rw [if_pos hk, List.count_eq_one_of_mem hnodup hk]
        rfl
      · rw [if_neg hk, List.count_eq_zero_of_not_mem hk]
        rfl
    · rw [hdbs] at hx
      obtain ⟨k, hk, rfl⟩ := List.mem_map.mp hx
      obtain ⟨e, he, hmem⟩ := (hkeys k).mp hk
      exact ⟨e, he, k, hmem, rfl, rfl⟩
    · rw [registeredXattrDbs, hfailed, List.nil_append]

def nobody65534 : Nobody := ⟨65534, 65534⟩

/-- An entry with one attribute, `user.a`. -/
def entryOf (uid gid mode inode : ℕ) : IndexedEntry :=
  ⟨⟨mode, uid, gid⟩, inode, 1, [([117, 115, 101, 114, 46, 97], [49])]⟩

theorem xattrsPlaced_threeEntries :
    (∀ e ∈ [entryOf 1000 100 0o600 2, entryOf 1000 200 0o640 3, entryOf 7 8 0o644 4],
      e.IsExternal ⟨0o755, 0, 0⟩ →
        e.perms.uid ≠ nobody65534.uid ∧ e.perms.gid ≠ nobody65534.gid) ∧
    XattrsPlaced nobody65534 ⟨0o755, 0, 0⟩
      [entryOf 1000 100 0o600 2, entryOf 1000 200 0o640 3, entryOf 7 8 0o644 4] :=
  have h : ∀ e ∈ [entryOf 1000 100 0o600 2, entryOf 1000 200 0o640 3, entryOf 7 8 0o644 4],
      e.IsExternal ⟨0o755, 0, 0⟩ →
        e.perms.uid ≠ nobody65534.uid ∧ e.perms.gid ≠ nobody65534.gid := by decide
  ⟨h, (xattrsPlaced_iff nobody65534 ⟨0o755, 0, 0⟩ _).mpr h⟩

/-- A private file of the user 2000 and the group of nobody is taken for one of the user 1000. -/
theorem not_xattrsPlaced :
    (insertEntries nobody65534 ⟨0o755, 0, 0⟩
      [entryOf 1000 100 0o600 2, entryOf 2000 65534 0o600 3]).dbs.map
        (fun x => (x.filename, x.rows)) =
      [(xattrUidFilename 1000,
          (entryOf 1000 100 0o600 2).rows ++ (entryOf 2000 65534 0o600 3).rows),
        (xattrGidWoReadFilename 100, (entryOf 1000 100 0o600 2).rows),
        (xattrUidFilename 2000, (entryOf 2000 65534 0o600 3).rows)] ∧
    ¬ XattrsPlaced nobody65534 ⟨0o755, 0, 0⟩
      [entryOf 1000 100 0o600 2, entryOf 2000 65534 0o600 3] := by
  refine ⟨rfl, fun h => ?_⟩
  have hmem : entryOf 2000 65534 0o600 3 ∈
      [entryOf 1000 100 0o600 2, entryOf 2000 65534 0o600 3] := List.mem_cons_of_mem _ (by simp)
  have hkey : (entryOf 2000 65534 0o600 3).gidKey ∈
      (entryOf 2000 65534 0o600 3).keys ⟨0o755, 0, 0⟩ := by decide
  exact h.not_ofNobody hmem hkey rfl

end Nobody

end Gufi
