import Gufi.RolledUpContent
import Gufi.Xattrs

/-!
# Who can read the xattr databases of a directory

`create_xattr_db` names a database after the user or the group it is for, and gives it a mode under
which nobody else can read it: the readers of a database can be told from its name. A rollup that
has to create the database in the parent gives it the same owner and group, but the mode of a
template. `Dir.Protected` says that every database of a directory is read by readers of its name
only and holds rows that were in a database of that name, and it is kept by the copy of one child
as long as the umask takes away what the template's mode gives in addition.
-/

namespace Gufi

open UnixAccess SqlTable

section Readers

/-- The name and the ownership of a database that `create_xattr_db` created. -/
def Created (nobody : Nobody) (f : Bytes) (p : Permissions) : Prop :=
  ∃ pinode uid gid mode x, createXattrDb nobody pinode uid gid mode = some x ∧
    x.filename = f ∧ x.perms = p

/-- The users whom a name of a database stands for. -/
inductive ReaderOf (nobody : Nobody) (u : User) : Bytes → Prop
  | uid : ReaderOf nobody u (xattrUidFilename u.uid)
  | gid {gid : ℕ} (hu : u.uid ≠ nobody.uid) (hg : gid ∈ u.gids) :
      ReaderOf nobody u (xattrGidWReadFilename gid)

variable {nobody : Nobody} {f : Bytes} {p : Permissions} {u : User}

theorem readerOf_xattrUidFilename {n : ℕ} :
    ReaderOf nobody u (xattrUidFilename n) ↔ u.uid = n := by
  constructor
  · generalize hf : xattrUidFilename n = f
    rintro (_ | _)
    · exact (decimal_injective (List.append_cancel_left (List.append_cancel_right hf))).symm
    · simp [xattrUidFilename, xattrGidWReadFilename] at hf
  · rintro rfl
    exact ReaderOf.uid

theorem readerOf_xattrGidWReadFilename {n : ℕ} :
    ReaderOf nobody u (xattrGidWReadFilename n) ↔ u.uid ≠ nobody.uid ∧ n ∈ u.gids := by
  constructor
  · generalize hf : xattrGidWReadFilename n = f
    rintro (_ | ⟨hu, hg⟩)
    · simp [xattrUidFilename, xattrGidWReadFilename] at hf
    · rw [decimal_injective (List.append_cancel_left (List.append_cancel_right hf))]
      exact ⟨hu, hg⟩
  · rintro ⟨hu, hg⟩
    exact ReaderOf.gid hu hg

theorem not_readerOf_xattrGidWoReadFilename {n : ℕ} :
    ¬ReaderOf nobody u (xattrGidWoReadFilename n) := by
  generalize hf : xattrGidWoReadFilename n = f
  rintro (_ | _) <;> simp [xattrUidFilename, xattrGidWReadFilename, xattrGidWoReadFilename] at hf

theorem grants_mk {mode uid gid want : ℕ} {c : AccessClass} :
    (⟨mode, uid, gid⟩ : Permissions).Grants c want ↔
      mode &&& (want <<< c.shift) = want <<< c.shift :=
  Iff.rfl

theorem can_r_0600 {uid gid : ℕ} : u.Can r ⟨0o600, uid, gid⟩ ↔ u.uid = uid := by
  unfold User.Can User.classOf
  split_ifs with hu hg
  · exact iff_of_true (grants_mk.mpr (by decide)) hu
  · exact iff_of_false (mt grants_mk.mp (by decide)) hu
  · exact iff_of_false (mt grants_mk.mp (by decide)) hu

theorem can_r_0040 {uid gid : ℕ} : u.Can r ⟨0o040, uid, gid⟩ ↔ u.uid ≠ uid ∧ gid ∈ u.gids := by
  unfold User.Can User.classOf
  split_ifs with hu hg
  · exact iff_of_false (mt grants_mk.mp (by decide)) fun h => h.1 hu
  · exact iff_of_true (grants_mk.mpr (by decide)) ⟨hu, hg⟩
  · exact iff_of_false (mt grants_mk.mp (by decide)) fun h => hg h.2

theorem not_can_r_0000 {uid gid : ℕ} : ¬u.Can r ⟨0o000, uid, gid⟩ := by
  unfold User.Can User.classOf
  split_ifs
  all_goals exact mt grants_mk.mp (by decide)

/-- What `create_xattr_db` creates is read by the readers of its name. -/
theorem Created.can_iff (h : Created nobody f p) : u.Can r p ↔ ReaderOf nobody u f := by
  obtain ⟨pinode, uid, gid, mode, x, hx, rfl, rfl⟩ := h
  unfold createXattrDb at hx
  split_ifs at hx with huid hgid hmode
  all_goals obtain rfl := Option.some.inj hx
  · rw [readerOf_xattrUidFilename]
    exact can_r_0600
  · rw [readerOf_xattrGidWReadFilename, ← not_not.mp huid]
    exact can_r_0040
  · exact iff_of_false not_can_r_0000 not_readerOf_xattrGidWoReadFilename

theorem Created.xattrFilename (h : Created nobody f p) : XattrFilename f := by
  obtain ⟨pinode, uid, gid, mode, x, hx, rfl, rfl⟩ := h
  unfold createXattrDb at hx
  split_ifs at hx with huid hgid hmode
  all_goals obtain rfl := Option.some.inj hx
  · exact ⟨uid, Or.inl rfl⟩
  · exact ⟨gid, Or.inr (Or.inl rfl)⟩
  · exact ⟨gid, Or.inr (Or.inr rfl)⟩

/-- The umask takes every read permission from a file of the template that the original does not
give. -/
def Masked (umask : ℕ) (p : Permissions) : Prop :=
  ∀ c : AccessClass, (copyTemplate umask p.uid p.gid).perms.Grants c r → p.Grants c r

instance (umask : ℕ) (p : Permissions) : Decidable (Masked umask p) :=
  decidable_of_iff _ AccessClass.forall_iff.symm

theorem Masked.can {umask : ℕ} (h : Masked umask p)
    (hu : u.Can r (copyTemplate umask p.uid p.gid).perms) : u.Can r p :=
  h _ hu

end Readers

section Directory

/-- Every external xattr database listed was created by `create_xattr_db`. -/
def Db.ListsCreated (nobody : Nobody) (db : Db) : Prop :=
  ∀ row ∈ db.externalXattrs, Created nobody row.filename row.perms

/-- The xattr databases of a directory: who reads them, where their rows may come from, and which
are present for certain. -/
structure Dir.Protected (nobody : Nobody) (O : Bytes → XattrRow → Prop) (K : Set Bytes) (d : Dir) :
    Prop where
  readers : ∀ f x, d.xattrDbs f = some x → ∀ u : User, u.Can r x.perms → ReaderOf nobody u f
  rows : ∀ f x, d.xattrDbs f = some x → ∀ row ∈ x.avail, O f row
  listed : ∀ db, d.db = some db → db.ListsCreated nobody
  present : ∀ f ∈ K, d.hasFile f = true

variable {nobody : Nobody} {O O' : Bytes → XattrRow → Prop} {K K' : Set Bytes} {own : Dir}
  {f : Bytes} {umask : ℕ} {row : ExternalDb}

theorem Db.ListsCreated.mono {db db' : Db} (h : db.ListsCreated nobody)
    (hsub : ∀ row ∈ db'.externalXattrs, row ∈ db.externalXattrs) : db'.ListsCreated nobody :=
  fun row hrow => h row (hsub row hrow)

theorem mem_externalXattrs {db : Db} : row ∈ db.externalXattrs ↔
    (row ∈ db.externalDbsPwd ∨ row ∈ db.externalDbsRollup) ∧ row.type = .xattrs := by
  simp [Db.externalXattrs, Db.externalDbs]

namespace Dir.Protected

theorem weaken (h : own.Protected nobody O K) (hO : ∀ f row, O f row → O' f row) (hK : K' ⊆ K) :
    own.Protected nobody O' K' where
  readers := h.readers
  rows := fun f x hx row hrow => hO f row (h.rows f x hx row hrow)
  listed := h.listed
  present := fun f hf => h.present f (hK hf)

theorem setDb (h : own.Protected nobody O K) {db : Db} (hdb : db.ListsCreated nobody) :
    (own.setDb db).Protected nobody O K where
  readers := h.readers
  rows := h.rows
  listed := by
    intro db' hdb'
    rw [Dir.setDb_db, Option.some.injEq] at hdb'
    rwa [← hdb']
  present := h.present

theorem setXattrDb (h : own.Protected nobody O K) {x : XattrDb}
    (hu : ∀ u : User, u.Can r x.perms → ReaderOf nobody u f) (hrows : ∀ row ∈ x.avail, O f row) :
    (own.setXattrDb f (some x)).Protected nobody O K where
  readers := by
    intro g y hy
    by_cases hg : g = f
    · subst hg
      rw [Dir.setXattrDb_xattrDbs, Function.update_self, Option.some.injEq] at hy
      rwa [← hy]
    · rw [Dir.setXattrDb_xattrDbs, Function.update_of_ne hg] at hy
      exact h.readers g y hy
  rows := by
    intro g y hy
    by_cases hg : g = f
    · subst hg
      rw [Dir.setXattrDb_xattrDbs, Function.update_self, Option.some.injEq] at hy
      rwa [← hy]
    · rw [Dir.setXattrDb_xattrDbs, Function.update_of_ne hg] at hy
      exact h.rows g y hy
  listed := h.listed
  present := by
    intro g hg
    by_cases hgf : g = f
    · simp [Dir.hasFile, hgf]
    · simpa [Dir.hasFile, Function.update_of_ne hgf] using h.present g hg

/-- The cleaned directory has the xattr databases of its own. -/
theorem rollupInit (h : own.Protected nobody O K) :
    (rollupInit own).Protected nobody O {f | own.content.hasFile f = true} := by
  have hfile : ∀ f x, (Gufi.rollupInit own).xattrDbs f = some x →
      ∃ x₀, own.xattrDbs f = some x₀ ∧ x.perms = x₀.perms ∧ ∀ row ∈ x.avail, row ∈ x₀.avail := by
    intro f x hx
    rw [Gufi.rollupInit, Dir.rollupCleanup_xattrDbs] at hx
    simp only [Dir.content] at hx
    split_ifs at hx with hf
    · cases hown : own.xattrDbs f with
      | none => simp [hown] at hx
      | some x₀ =>
          rw [hown, cleanXattrDb] at hx
          split_ifs at hx with hpwd
          obtain rfl := Option.some.inj hx
          refine ⟨x₀, rfl, rfl, fun row hrow => ?_⟩
          rcases mem_union.mp hrow with hrow | hnil
          · exact mem_union.mpr (Or.inl hrow)
          · cases hnil
    · exact ⟨x, hx, rfl, fun _ hrow => hrow⟩
  constructor
  · intro f x hx u hu
    obtain ⟨x₀, hx₀, hperms, -⟩ := hfile f x hx
    rw [hperms] at hu
    exact h.readers f x₀ hx₀ u hu
  · intro f x hx row hrow
    obtain ⟨x₀, hx₀, -, hsub⟩ := hfile f x hx
    exact h.rows f x₀ hx₀ row (hsub row hrow)
  · intro db hdb row hrow
    rw [Gufi.rollupInit, Dir.rollupCleanup_db, Option.map_eq_some_iff] at hdb
    obtain ⟨db₀, hdb₀, rfl⟩ := hdb
    obtain ⟨hpwd | hnil, htype⟩ := mem_externalXattrs.mp hrow
    · exact h.listed db₀ hdb₀ row (mem_externalXattrs.mpr ⟨Or.inl hpwd, htype⟩)
    · cases hnil
  · intro f hf
    rw [Dir.hasFile, Gufi.rollupInit, Dir.rollupCleanup_xattrDbs]
    exact hf

theorem ensureXattrDb (h : own.Protected nobody O K) (flt : Option ExternalFault)
    (hrow : Created nobody row.filename row.perms)
    (hmask : row.filename ∈ K ∨ Masked umask row.perms) :
    (ensureXattrDb umask flt own row).1.Protected nobody O K := by
  unfold Gufi.ensureXattrDb
  by_cases hstat : flt = some .stat
  · rw [if_pos hstat]
    exact h
  · rw [if_neg hstat]
    cases hx : own.xattrDbs row.filename with
    | some x => exact h
    | none =>
        simp only
        split_ifs
        · exact h
        · refine h.setXattrDb (fun u hu => ?_) fun row hnil => by cases hnil
          rcases hmask with hK | hmask
          · have hpresent := h.present row.filename hK
            simp [Dir.hasFile, hx] at hpresent
          · exact hrow.can_iff.mp (hmask.can hu)

theorem appendXattrRollup (h : own.Protected nobody O K) {rows : List XattrRow}
    (hrows : ∀ row ∈ rows, O f row) : (appendXattrRollup own f rows).Protected nobody O K := by
  unfold Gufi.appendXattrRollup
  cases hx : own.xattrDbs f with
  | none =>
      have hsame : own.setXattrDb f none = own := by
        rw [← hx, Dir.setXattrDb, Function.update_eq_self]
      rw [Option.map_none, hsame]
      exact h
  | some x =>
      refine h.setXattrDb (x := { x with rollup := x.rollup ++ rows }) (h.readers f x hx) ?_
      intro row hrow
      simp only [XattrDb.avail, mem_union, List.mem_append] at hrow
      rcases hrow with hpwd | hroll | hnew
      · exact h.rows f x hx row (mem_union.mpr (Or.inl hpwd))
      · exact h.rows f x hx row (mem_union.mpr (Or.inr hroll))
      · exact hrows row hnew

end Dir.Protected

/-- The databases of a child can be copied: those that must be created in the parent are masked,
and what is attached for one of them holds rows that may go there. -/
structure Copyable (nobody : Nobody) (O : Bytes → XattrRow → Prop) (K : Set Bytes) (umask : ℕ)
    (attach : AttachXattr) (child : Bytes) (row : ExternalDb) : Prop where
  created : Created nobody row.filename row.perms
  masked : row.filename ∈ K ∨ Masked umask row.perms
  attached : ∀ d : Dir, d.Protected nobody O K → ∀ x,
    attach d (child ++ slash :: row.filename) = some x → ∀ y ∈ x.avail, O row.filename y

namespace Dir.Protected

variable {attach : AttachXattr} {child : Bytes}

theorem rollupExternalXattrs (h : own.Protected nobody O K) (flt : Option ExternalFault)
    (hcopy : Copyable nobody O K umask attach child row) :
    (rollupExternalXattrs umask attach flt child own row).1.Protected nobody O K := by
  unfold Gufi.rollupExternalXattrs
  refine thenIfOk_induct (h.ensureXattrDb flt hcopy.created hcopy.masked) fun _ a ha => ?_
  split_ifs
  · exact ha
  · cases hx : attach a (child ++ slash :: row.filename) with
    | none => exact ha
    | some x =>
        have hrows := hcopy.attached a ha x hx
        simp only
        split
        · exact ha.appendXattrRollup fun y hy => hrows y (List.mem_of_mem_take hy)
        · exact ha.appendXattrRollup hrows

theorem rollupExternals (h : own.Protected nobody O K) (flt : ℕ → Option ExternalFault) (k : ℕ)
    {rows : List ExternalDb} (hcopy : ∀ row ∈ rows, Copyable nobody O K umask attach child row) :
    (rollupExternals umask attach flt child k rows own).1.Protected nobody O K := by
  induction rows generalizing k own with
  | nil => exact h
  | cons row rows ih =>
      refine thenIfOk_induct (h.rollupExternalXattrs (flt k) (hcopy row (List.mem_cons_self ..)))
        fun _ a ha => ?_
      exact ih ha (k + 1) fun x hx => hcopy x (List.mem_cons_of_mem row hx)

end Dir.Protected

theorem Db.ListsCreated.insertTreesummary {db : Db} (h : db.ListsCreated nobody)
    (flt : ChildFaults) (sub : Db) : (insertTreesummary flt sub db).1.ListsCreated nobody := by
  unfold Gufi.insertTreesummary
  split <;> exact h

theorem Db.ListsCreated.insertExternalDbs {db sub : Db} (hdb : db.ListsCreated nobody)
    (hsub : sub.ListsCreated nobody) (flt : ChildFaults) :
    (insertExternalDbs flt sub db).1.ListsCreated nobody := by
  have hmem {rows : List ExternalDb} (hrows : ∀ x ∈ rows, x ∈ sub.externalDbs) :
      ({ db with externalDbsRollup :=
        insertOrIgnore ExternalDb.key db.externalDbsRollup rows } : Db).ListsCreated nobody := by
    intro row hrow
    obtain ⟨hpwd | hroll, htype⟩ := mem_externalXattrs.mp hrow
    · exact hdb row (mem_externalXattrs.mpr ⟨Or.inl hpwd, htype⟩)
    · rcases mem_of_mem_insertOrIgnore _ hroll with hold | hnew
      · exact hdb row (mem_externalXattrs.mpr ⟨Or.inr hold, htype⟩)
      · exact hsub row (List.mem_filter.mpr ⟨hrows row hnew, by simpa using htype⟩)
  unfold Gufi.insertExternalDbs
  split
  · exact hmem fun _ hx => hx
  · exact hmem fun _ hx => List.mem_of_mem_take hx

/-- A copy of the tables lists what was listed before and what the child lists. -/
theorem Db.ListsCreated.rollupOneSubdir {db sub : Db} (hdb : db.ListsCreated nobody)
    (hsub : sub.ListsCreated nobody) (flt : ChildFaults) (name : Db → SummaryRow → Bytes) :
    (rollupOneSubdir flt name sub db).1.ListsCreated nobody := by
  unfold Gufi.rollupOneSubdir
  refine thenIfOk_induct (P := Db.ListsCreated nobody) hdb fun _ a ha => ?_
  refine thenIfOk_induct (P := Db.ListsCreated nobody) ha fun _ b hb => ?_
  refine thenIfOk_induct (hb.insertTreesummary flt sub) fun _ c hc => ?_
  refine thenIfOk_induct (P := Db.ListsCreated nobody) hc fun _ d hd => ?_
  exact hd.insertExternalDbs hsub flt

/-- What a child's rollup into the parent needs: the databases it lists can be copied. -/
def CopyableChild (nobody : Nobody) (O : Bytes → XattrRow → Prop) (K : Set Bytes) (umask : ℕ)
    (attach : AttachXattr) (c : Child) : Prop :=
  ∀ sub, c.attached = some sub →
    sub.ListsCreated nobody ∧
      ∀ row ∈ sub.externalXattrs, Copyable nobody O K umask attach c.path row

namespace Dir.Protected

variable {attach : AttachXattr}

theorem rollupChild (h : own.Protected nobody O K) {c : Child}
    (hcopy : CopyableChild nobody O K umask attach c) :
    (rollupChild umask attach c own).1.Protected nobody O K := by
  unfold Gufi.rollupChild
  split_ifs
  · exact h
  · cases hsub : c.attached with
    | none => exact h
    | some sub =>
        obtain ⟨hlists, hrows⟩ := hcopy sub hsub
        simp only [rollupChildProcess]
        cases hdb : own.db with
        | none => exact h
        | some db =>
            have htables := (h.listed db hdb).rollupOneSubdir hlists c.faults bottomupRowName
            exact thenIfOk_induct (h.setDb htables) fun _ a ha =>
              ha.rollupExternals c.faults.external 0 hrows

theorem rollupChildren (h : own.Protected nobody O K) {cs : List Child}
    (hcopy : ∀ c ∈ cs, CopyableChild nobody O K umask attach c) :
    (rollupChildren umask attach cs own).1.Protected nobody O K := by
  induction cs generalizing own with
  | nil => exact h
  | cons c cs ih =>
      refine thenIfOk_induct (h.rollupChild (hcopy c (List.mem_cons_self ..))) fun _ a ha => ?_
      exact ih ha fun x hx => hcopy x (List.mem_cons_of_mem c hx)

theorem doRollup (h : own.Protected nobody O K) (ts : TreeSummaryCode) {cs : List Child}
    (hcopy : ∀ c ∈ cs,
      CopyableChild nobody O {f | own.content.hasFile f = true} umask attach c) :
    (doRollup ts umask attach own cs).1.Protected nobody O {f | own.content.hasFile f = true} := by
  refine thenIfOk_induct (h.rollupInit.rollupChildren hcopy) fun _ a ha => ?_
  cases hdb : a.db with
  | none => exact ha
  | some db => exact ha.setDb (ha.listed db hdb)

/-- The directory after its ascent. Only an ascent that rolls up needs anything of the children. -/
theorem rollupAscend (h : own.Protected nobody O ∅) (ts : TreeSummaryCode) (cfg : Config)
    (level : ℕ) (path : Bytes) {cs : List Child}
    (hcopy : ∀ db, own.db = some db →
      0 < shouldRollup cfg level { db with treesummary := some [] } cs → ∀ c ∈ cs,
        CopyableChild nobody O {f | own.content.hasFile f = true} cfg.umask attach c) :
    (rollupAscend ts cfg attach level path own cs).dir.Protected nobody O ∅ := by
  cases hdb : own.db with
  | none => simpa [Gufi.rollupAscend, hdb] using h
  | some db =>
      have hopen : (own.setDb { db with treesummary := some [] }).Protected nobody O ∅ :=
        h.setDb (h.listed db hdb)
      have hcontent : (own.setDb { db with treesummary := some [] }).content = own.content := by
        rw [← Dir.opened_eq hdb, Dir.content_opened]
      rcases rollupAscend_cases ts cfg attach level path hdb cs with ⟨hpos, heq⟩ | ⟨-, _, _, heq⟩
      · rw [heq]
        refine (hopen.doRollup ts ?_).weaken (fun _ _ h => h) (Set.empty_subset _)
        rw [hcontent]
        exact hcopy db hdb hpos
      · rw [heq]
        exact h.setDb (h.listed db hdb)

end Dir.Protected

end Directory

end Gufi
