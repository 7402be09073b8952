import Gufi.Run

/-!
# What a rollup leaves of a directory's own content

A rollup adds rows to the `_rollup` tables, rows with `isroot = 0` to `summary`, and rows and files
to the external xattr databases, and every file it touches is listed in `external_dbs_rollup`.
`Dir.content` is a directory with all of this cleaned away and without its `treesummary`. It is
the same before and after any ascent, whatever fails in it.
-/

namespace Gufi

open SqlTable UnixAccess

section CleanXattrDb

/-- An xattr database after `xattrs_rollup_cleanup`. -/
def cleanXattrDb : Option XattrDb → Option XattrDb
  | none => none
  | some x => if x.pwd = [] then none else some { x with rollup := [] }

@[simp] theorem cleanXattrDb_none : cleanXattrDb none = none := rfl

theorem cleanXattrDb_idem (x : Option XattrDb) :
    cleanXattrDb (cleanXattrDb x) = cleanXattrDb x := by
  cases x with
  | none => rfl
  | some x =>
      by_cases hx : x.pwd = []
      · simp [cleanXattrDb, hx]
      · simp [cleanXattrDb, hx]

theorem xattrsRollupCleanup_eq (own : Dir) (f : Bytes) :
    xattrsRollupCleanup own f = own.setXattrDb f (cleanXattrDb (own.xattrDbs f)) := by
  cases hf : own.xattrDbs f with
  | none =>
      have hupd : Function.update own.xattrDbs f none = own.xattrDbs := by
        rw [← hf]
        exact Function.update_eq_self f _
      rw [Dir.ext_iff']
      simp [xattrsRollupCleanup, hf, hupd]
  | some x => by_cases hx : x.pwd = [] <;> simp [xattrsRollupCleanup, cleanXattrDb, hf, hx]

theorem foldl_xattrsRollupCleanup (names : List Bytes) (own : Dir) :
    (names.foldl xattrsRollupCleanup own).db = own.db ∧
      ∀ f, (names.foldl xattrsRollupCleanup own).xattrDbs f =
        if f ∈ names then cleanXattrDb (own.xattrDbs f) else own.xattrDbs f := by
  induction names generalizing own with
  | nil => simp
  | cons n names ih =>
      obtain ⟨hdb, hf⟩ := ih (xattrsRollupCleanup own n)
      rw [List.foldl_cons]
      constructor
      · rw [hdb, xattrsRollupCleanup_eq, Dir.setXattrDb_db]
      · intro f
        rw [hf, xattrsRollupCleanup_eq, Dir.setXattrDb_xattrDbs]
        by_cases hn : f = n
        · subst hn
          simp [cleanXattrDb_idem]
        · simp [hn]

end CleanXattrDb

namespace Db

/-- The tables without rolled-up rows and without `treesummary`. -/
def content (db : Db) : Db :=
  { db.rollupCleanup false with treesummary := none }

theorem rootRows_rollupCleanup (b : Bool) (db : Db) :
    (db.rollupCleanup b).rootRows =
      db.rootRows.map fun s => { s with canrollup := true, isrolledup := b } := by
  rw [rootRows, rollupCleanup, List.filter_eq_self]
  intro s hs
  obtain ⟨s', hs', rfl⟩ := List.mem_map.mp hs
  exact (List.mem_filter.mp hs').2

theorem content_rollupCleanup (b : Bool) (db : Db) : (db.rollupCleanup b).content = db.content := by
  have hroot := rootRows_rollupCleanup b db
  simp only [content, rollupCleanup] at hroot ⊢
  rw [hroot, List.map_map]
  rfl

theorem content_eq_of {db db' : Db} (he : db'.entries = db.entries)
    (hr : db'.rootRows = db.rootRows) (hx : db'.xattrsPwd = db.xattrsPwd)
    (hd : db'.externalDbsPwd = db.externalDbsPwd) : db'.content = db.content := by
  simp only [content, rollupCleanup, he, hr, hx, hd]

end Db

namespace Dir

/-- The xattr databases `rollup_cleanup` looks at. -/
def listed (d : Dir) : List Bytes :=
  match d.db with
  | none => []
  | some db => db.rolledXattrDbs

/-- The directory without anything rolled up into it. -/
def content (d : Dir) : Dir where
  db := d.db.map Db.content
  xattrDbs f := if f ∈ d.listed then cleanXattrDb (d.xattrDbs f) else d.xattrDbs f

/-- Without its rolled-up rows, no xattr database is empty. -/
def Settled (d : Dir) : Prop :=
  ∀ f, cleanXattrDb (d.content.xattrDbs f) = d.content.xattrDbs f

theorem rollupCleanup_xattrDbs (b : Bool) (d : Dir) (f : Bytes) :
    (rollupCleanup b d).xattrDbs f = d.content.xattrDbs f := by
  cases hd : d.db with
  | none => simp [rollupCleanup, hd, content, listed]
  | some db =>
      simp only [rollupCleanup, hd, setDb_xattrDbs, content, listed]
      exact (foldl_xattrsRollupCleanup _ _).2 f

theorem rollupCleanup_db (b : Bool) (d : Dir) :
    (rollupCleanup b d).db = d.db.map (Db.rollupCleanup b) := by
  cases hd : d.db with
  | none => simp [rollupCleanup, hd]
  | some db => simp [rollupCleanup, hd]

theorem listed_rollupCleanup (b : Bool) (d : Dir) : (rollupCleanup b d).listed = [] := by
  cases hd : d.db with
  | none => simp [listed, rollupCleanup_db, hd]
  | some db => simp [listed, rollupCleanup_db, hd, Db.rolledXattrDbs, Db.rollupCleanup]

theorem content_rollupCleanup (b : Bool) (d : Dir) : (rollupCleanup b d).content = d.content := by
  rw [ext_iff']
  constructor
  · change (rollupCleanup b d).db.map Db.content = d.db.map Db.content
    rw [rollupCleanup_db, Option.map_map]
    exact congrArg (fun g => d.db.map g) (funext (Db.content_rollupCleanup b))
  · intro f
    change (if f ∈ (rollupCleanup b d).listed then _ else (rollupCleanup b d).xattrDbs f) = _
    rw [listed_rollupCleanup, if_neg (by simp), rollupCleanup_xattrDbs]

/-- The second directory has the content and the own summary rows of the first, and its xattr
databases differ from the first's in listed names and rolled-up rows only. -/
structure Grows (d d' : Dir) : Prop where
  db : d'.db.map Db.content = d.db.map Db.content
  rootRows : d'.db.map Db.rootRows = d.db.map Db.rootRows
  listed : d.listed ⊆ d'.listed
  files : ∀ f, f ∉ d'.listed → d'.xattrDbs f = d.xattrDbs f
  clean : ∀ f, cleanXattrDb (d'.xattrDbs f) = cleanXattrDb (d.xattrDbs f)

namespace Grows

theorem refl (d : Dir) : Grows d d :=
  ⟨rfl, rfl, fun _ h => h, fun _ _ => rfl, fun _ => rfl⟩

theorem trans {a b c : Dir} (h : Grows a b) (h' : Grows b c) : Grows a c where
  db := h'.db.trans h.db
  rootRows := h'.rootRows.trans h.rootRows
  listed := fun _ hf => h'.listed (h.listed hf)
  files := fun f hf => (h'.files f hf).trans (h.files f (fun hb => hf (h'.listed hb)))
  clean := fun f => (h'.clean f).trans (h.clean f)

theorem content_eq {d d' : Dir} (h : Grows d d') (hd : d.Settled) : d'.content = d.content := by
  rw [ext_iff']
  refine ⟨h.db, ?_⟩
  intro f
  by_cases hf' : f ∈ d'.listed
  · by_cases hf : f ∈ d.listed
    · simp only [content, if_pos hf', if_pos hf, h.clean]
    · have hs := hd f
      simp only [content, if_neg hf] at hs
      simp only [content, if_pos hf', if_neg hf, h.clean, hs]
  · have hf : f ∉ d.listed := fun hl => hf' (h.listed hl)
    simp only [content, if_neg hf', if_neg hf, h.files f hf']

end Grows

theorem Settled.of_content_eq {d d' : Dir} (h : d'.content = d.content) (hd : d.Settled) :
    d'.Settled := by
  intro f
  rw [h]
  exact hd f

/-- Changing the tables without touching the own content, listing at least as much. -/
theorem grows_setDb {d : Dir} {db db' : Db} (hd : d.db = some db)
    (hc : db'.content = db.content) (hr : db'.rootRows = db.rootRows)
    (hl : db.rolledXattrDbs ⊆ db'.rolledXattrDbs) : Grows d (d.setDb db') where
  db := by simp [hd, hc]
  rootRows := by simp [hd, hr]
  listed := by simpa [Dir.listed, hd] using hl
  files := fun _ _ => rfl
  clean := fun _ => rfl

theorem grows_setXattrDb {d : Dir} {f : Bytes} {x : Option XattrDb} (hf : f ∈ d.listed)
    (hx : cleanXattrDb x = cleanXattrDb (d.xattrDbs f)) : Grows d (d.setXattrDb f x) where
  db := rfl
  rootRows := rfl
  listed := fun _ h => h
  files := by
    intro g hg
    have hne : g ≠ f := by
      rintro rfl
      exact hg hf
    simp [Function.update_of_ne hne]
  clean := by
    intro g
    by_cases hg : g = f
    · subst hg
      simpa using hx
    · simp [Function.update_of_ne hg]

end Dir

section ThenIfOk

theorem thenIfOk_induct {α : Type*} {P : α → Prop} {res : α × Bool} {f : α → α × Bool}
    (h : P res.1) (hf : res.2 = true → ∀ a, P a → P (f a).1) : P (thenIfOk res f).1 := by
  unfold thenIfOk
  split_ifs with hr
  · exact hf hr _ h
  · exact h

theorem thenIfOk_snd {α : Type*} {res : α × Bool} {f : α → α × Bool} :
    (thenIfOk res f).2 = true ↔ res.2 = true ∧ (f res.1).2 = true := by
  cases hr : res.2 <;> simp [thenIfOk, hr]

theorem thenIfOk_of_ok {α : Type*} {res : α × Bool} {f : α → α × Bool} (h : res.2 = true) :
    thenIfOk res f = f res.1 := by
  simp [thenIfOk, h]

theorem thenIfOk_of_not_ok {α : Type*} {res : α × Bool} {f : α → α × Bool}
    (h : res.2 = false) : thenIfOk res f = res := by
  simp [thenIfOk, h]

end ThenIfOk

section Copy

variable (flt : ChildFaults) (rowName : Db → SummaryRow → Bytes) (sub : Db)

/-- The tables a copy adds rows to keep their own part. -/
structure KeepsOwn (db db' : Db) : Prop where
  entries : db'.entries = db.entries
  rootRows : db'.rootRows = db.rootRows
  xattrsPwd : db'.xattrsPwd = db.xattrsPwd
  externalDbsPwd : db'.externalDbsPwd = db.externalDbsPwd
  rolledXattrDbs : db.rolledXattrDbs ⊆ db'.rolledXattrDbs

theorem KeepsOwn.refl (db : Db) : KeepsOwn db db :=
  ⟨rfl, rfl, rfl, rfl, fun _ h => h⟩

theorem KeepsOwn.trans {a b c : Db} (h : KeepsOwn a b) (h' : KeepsOwn b c) : KeepsOwn a c :=
  ⟨h'.entries.trans h.entries, h'.rootRows.trans h.rootRows, h'.xattrsPwd.trans h.xattrsPwd,
    h'.externalDbsPwd.trans h.externalDbsPwd, fun _ hf => h'.rolledXattrDbs (h.rolledXattrDbs hf)⟩

theorem keepsOwn_insertPentries (db : Db) : KeepsOwn db (insertPentries flt sub db).1 :=
  ⟨rfl, rfl, rfl, rfl, fun _ h => h⟩

theorem filter_isroot_rollupSummaryRow (db : Db) (rows : List SummaryRow) :
    (rows.map fun s => rollupSummaryRow (rowName db s) s).filter (·.isroot) = [] := by
  simp [List.filter_eq_nil_iff, rollupSummaryRow]

theorem keepsOwn_insertSummary (db : Db) : KeepsOwn db (insertSummary flt rowName sub db).1 := by
  obtain ⟨done, hdone, heq⟩ := insertSelect_fst flt.summary db.summary
    (sub.summary.map fun s => rollupSummaryRow (rowName db s) s)
  have hnil : done.filter (·.isroot) = [] := by
    have hsub := hdone.sublist.filter (·.isroot)
    rw [filter_isroot_rollupSummaryRow] at hsub
    exact List.sublist_nil.mp hsub
  refine ⟨rfl, ?_, rfl, rfl, fun _ h => h⟩
  change (insertSelect _ _ _).1.filter (·.isroot) = db.summary.filter (·.isroot)
  rw [heq, List.filter_append, hnil, List.append_nil]

theorem keepsOwn_insertTreesummary (db : Db) :
    KeepsOwn db (insertTreesummary flt sub db).1 := by
  unfold insertTreesummary
  split
  · exact ⟨rfl, rfl, rfl, rfl, fun _ h => h⟩
  · exact KeepsOwn.refl db

theorem keepsOwn_insertXattrs (db : Db) : KeepsOwn db (insertXattrs flt sub db).1 :=
  ⟨rfl, rfl, rfl, rfl, fun _ h => h⟩

theorem rolledXattrDbs_subset {db db' : Db}
    (h : db.externalDbsRollup <+: db'.externalDbsRollup) :
    db.rolledXattrDbs ⊆ db'.rolledXattrDbs := by
  intro f hf
  obtain ⟨x, hx, rfl⟩ := List.mem_map.mp hf
  obtain ⟨hx, ht⟩ := List.mem_filter.mp hx
  exact List.mem_map_of_mem (List.mem_filter.mpr ⟨h.subset hx, ht⟩)

theorem keepsOwn_insertExternalDbs (db : Db) :
    KeepsOwn db (insertExternalDbs flt sub db).1 := by
  unfold insertExternalDbs
  split
  all_goals
    exact ⟨rfl, rfl, rfl, rfl, rolledXattrDbs_subset (prefix_insertOrIgnore _ _ _)⟩

theorem keepsOwn_rollupOneSubdir (db : Db) :
    KeepsOwn db (rollupOneSubdir flt rowName sub db).1 := by
  unfold rollupOneSubdir
  refine thenIfOk_induct (keepsOwn_insertPentries flt sub db) (fun _ a ha => ?_)
  refine thenIfOk_induct (ha.trans (keepsOwn_insertSummary flt rowName sub a)) (fun _ b hb => ?_)
  refine thenIfOk_induct (hb.trans (keepsOwn_insertTreesummary flt sub b)) (fun _ c hc => ?_)
  refine thenIfOk_induct (hc.trans (keepsOwn_insertXattrs flt sub c)) (fun _ d hd => ?_)
  exact hd.trans (keepsOwn_insertExternalDbs flt sub d)

/-- A finished copy lists every external xattr database of the child. -/
theorem listed_of_rollupOneSubdir {db : Db} (h : (rollupOneSubdir flt rowName sub db).2 = true)
    {row : ExternalDb} (hrow : row ∈ sub.externalXattrs) :
    row.filename ∈ (rollupOneSubdir flt rowName sub db).1.rolledXattrDbs := by
  unfold rollupOneSubdir at h ⊢
  obtain ⟨h₁, h⟩ := thenIfOk_snd.mp h
  obtain ⟨h₂, h⟩ := thenIfOk_snd.mp h
  obtain ⟨h₃, h⟩ := thenIfOk_snd.mp h
  obtain ⟨h₄, h⟩ := thenIfOk_snd.mp h
  rw [thenIfOk_of_ok h₁, thenIfOk_of_ok h₂, thenIfOk_of_ok h₃, thenIfOk_of_ok h₄]
  unfold insertExternalDbs at h ⊢
  cases hf : flt.externalDbs with
  | some n => simp [hf] at h
  | none =>
      obtain ⟨hmem, htype⟩ := List.mem_filter.mp hrow
      obtain ⟨y, hy, hkey⟩ := exists_key_of_mem ExternalDb.key
        (insertXattrs flt sub (insertTreesummary flt sub (insertSummary flt rowName sub
          (insertPentries flt sub db).1).1).1).1.externalDbsRollup sub.externalDbs hmem
      simp only [ExternalDb.key, Prod.mk.injEq] at hkey
      refine List.mem_map.mpr ⟨y, List.mem_filter.mpr ⟨hy, ?_⟩, hkey.2.2⟩
      rw [hkey.1]
      exact htype

end Copy

section ExternalXattrs

variable {umask : ℕ} {attach : AttachXattr} {own : Dir} {row : ExternalDb}

theorem grows_ensureXattrDb (flt : Option ExternalFault) (h : row.filename ∈ own.listed) :
    Dir.Grows own (ensureXattrDb umask flt own row).1 := by
  unfold ensureXattrDb
  by_cases hstat : flt = some .stat
  · rw [if_pos hstat]
    exact Dir.Grows.refl own
  · rw [if_neg hstat]
    cases hf : own.xattrDbs row.filename with
    | some x => exact Dir.Grows.refl own
    | none =>
        simp only
        split_ifs with hcopy
        · exact Dir.Grows.refl own
        · exact Dir.grows_setXattrDb h (by simp [hf, cleanXattrDb, copyTemplate])

theorem grows_appendXattrRollup (rows : List XattrRow) (h : row.filename ∈ own.listed) :
    Dir.Grows own (appendXattrRollup own row.filename rows) := by
  apply Dir.grows_setXattrDb h
  cases own.xattrDbs row.filename with
  | none => rfl
  | some x => by_cases hx : x.pwd = [] <;> simp [cleanXattrDb, hx]

theorem grows_rollupExternalXattrs (flt : Option ExternalFault) (child : Bytes)
    (h : row.filename ∈ own.listed) :
    Dir.Grows own (rollupExternalXattrs umask attach flt child own row).1 := by
  unfold rollupExternalXattrs
  refine thenIfOk_induct (grows_ensureXattrDb flt h) (fun _ a ha => ?_)
  split_ifs with hfault
  · exact ha
  · cases attach a (child ++ slash :: row.filename) with
    | none => exact ha
    | some x =>
        simp only
        split <;> exact ha.trans (grows_appendXattrRollup _ (ha.listed h))

theorem grows_rollupExternals (flt : ℕ → Option ExternalFault) (child : Bytes)
    (rows : List ExternalDb) (k : ℕ) (h : ∀ row ∈ rows, row.filename ∈ own.listed) :
    Dir.Grows own (rollupExternals umask attach flt child k rows own).1 := by
  induction rows generalizing k own with
  | nil => exact Dir.Grows.refl own
  | cons row rows ih =>
      have hrow := h row (List.mem_cons_self ..)
      rw [rollupExternals, thenIfOk]
      split_ifs with hok
      · have hg : Dir.Grows own (rollupExternalXattrs umask attach (flt k) child own row).1 :=
          grows_rollupExternalXattrs (flt k) child hrow
        refine hg.trans (ih (k + 1) (fun x hx => ?_))
        exact hg.listed (h x (List.mem_cons_of_mem row hx))
      · exact grows_rollupExternalXattrs (flt k) child hrow

end ExternalXattrs

section Ascend

variable {umask : ℕ} {attach : AttachXattr}

theorem grows_rollupChildProcess (rowName : Db → SummaryRow → Bytes) (flt : ChildFaults)
    (child : Bytes) (sub : Db) (own : Dir) :
    Dir.Grows own (rollupChildProcess umask attach rowName flt child sub own).1 := by
  unfold rollupChildProcess
  cases hdb : own.db with
  | none => exact Dir.Grows.refl own
  | some db =>
      have hkeep := keepsOwn_rollupOneSubdir flt rowName sub db
      have hgrow : Dir.Grows own (own.setDb (rollupOneSubdir flt rowName sub db).1) :=
        Dir.grows_setDb hdb
          (Db.content_eq_of hkeep.entries hkeep.rootRows hkeep.xattrsPwd hkeep.externalDbsPwd)
          hkeep.rootRows hkeep.rolledXattrDbs
      cases hok : (rollupOneSubdir flt rowName sub db).2 with
      | false => simpa [thenIfOk, hok] using hgrow
      | true =>
          simp only [thenIfOk, hok, if_true]
          refine hgrow.trans (grows_rollupExternals _ child _ 0 (fun row hrow => ?_))
          exact listed_of_rollupOneSubdir flt rowName sub hok hrow

theorem grows_rollupChild (c : Child) (own : Dir) :
    Dir.Grows own (rollupChild umask attach c own).1 := by
  unfold rollupChild
  split_ifs with hfault
  · exact Dir.Grows.refl own
  · cases c.attached with
    | none => exact Dir.Grows.refl own
    | some sub => exact grows_rollupChildProcess _ _ _ _ _

theorem grows_rollupChildren (cs : List Child) (own : Dir) :
    Dir.Grows own (rollupChildren umask attach cs own).1 := by
  induction cs generalizing own with
  | nil => exact Dir.Grows.refl own
  | cons c cs ih =>
      exact thenIfOk_induct (grows_rollupChild c own) (fun _ a ha => ha.trans (ih a))

theorem grows_setTreesummary {d : Dir} {db : Db} (hd : d.db = some db)
    (rows : List TreeSummaryRow) : Dir.Grows d (d.setDb (db.setTreesummary rows)) :=
  Dir.grows_setDb hd rfl rfl (fun _ h => h)

/-- `do_rollup` adds to the cleaned directory only. -/
theorem grows_doRollup (ts : TreeSummaryCode) (own : Dir) (cs : List Child) :
    Dir.Grows (rollupInit own) (doRollup ts umask attach own cs).1 := by
  refine thenIfOk_induct (grows_rollupChildren cs (rollupInit own)) (fun _ a ha => ?_)
  cases hdb : a.db with
  | none => exact ha
  | some db => exact ha.trans (grows_setTreesummary hdb _)

theorem getIsrolledup_rollupCleanup (db : Db) :
    getIsrolledup (db.rollupCleanup true) = false ↔ db.rootRows = [] := by
  rw [getIsrolledup, Db.rootRows_rollupCleanup, List.map_map]
  rcases List.eq_nil_or_concat db.rootRows with h | ⟨rows, row, h⟩
  · simp [h]
  · simp [h]

/-- What gufi_query reads from the directory. -/
def Dir.isrolledup (d : Dir) : Bool :=
  (d.db.map getIsrolledup).getD false

theorem Dir.Grows.isrolledup_eq {d d' : Dir} (h : Dir.Grows d d') :
    d'.isrolledup = d.isrolledup := by
  have hrows := h.rootRows
  unfold Dir.isrolledup
  cases hd : d.db with
  | none =>
      rw [hd, Option.map_none, Option.map_eq_none_iff] at hrows
      rw [hrows]
  | some db =>
      rw [hd, Option.map_some, Option.map_eq_some_iff] at hrows
      obtain ⟨db', hdb', hroot⟩ := hrows
      rw [hdb', Option.map_some, Option.map_some, Option.getD_some, Option.getD_some, getIsrolledup,
        getIsrolledup, hroot]

/-- The flags say rolled up from the first statement of `do_rollup` on. -/
theorem isrolledup_doRollup (ts : TreeSummaryCode) {own : Dir} {db : Db} (hdb : own.db = some db)
    (hroot : db.rootRows ≠ []) (cs : List Child) :
    (doRollup ts umask attach own cs).1.isrolledup = true := by
  rw [(grows_doRollup ts own cs).isrolledup_eq, Dir.isrolledup, rollupInit, Dir.rollupCleanup_db,
    hdb]
  change getIsrolledup (db.rollupCleanup true) = true
  rw [← Bool.not_eq_false, getIsrolledup_rollupCleanup]
  exact hroot

/-- An ascent rolls the directory up or changes its `treesummary` only. -/
theorem rollupAscend_cases (ts : TreeSummaryCode) (cfg : Config) (attach : AttachXattr)
    (level : ℕ) (path : Bytes) {own : Dir} {db : Db} (hdb : own.db = some db) (cs : List Child) :
    (0 < shouldRollup cfg level { db with treesummary := some [] } cs ∧
      rollupAscend ts cfg attach level path own cs =
        let res := doRollup ts cfg.umask attach (own.setDb { db with treesummary := some [] }) cs
        ⟨res.1, res.2, shouldRollup cfg level { db with treesummary := some [] } cs, res.2⟩) ∨
    (shouldRollup cfg level { db with treesummary := some [] } cs ≤ 0 ∧
      ∃ rows ok, rollupAscend ts cfg attach level path own cs =
        ⟨own.setDb { db with treesummary := some rows }, false,
          shouldRollup cfg level { db with treesummary := some [] } cs, ok⟩) := by
  unfold rollupAscend
  rw [hdb]
  simp only
  split_ifs with hpos hzero
  · exact Or.inl ⟨hpos, rfl⟩
  · exact Or.inr ⟨not_lt.mp hpos, _, true, rfl⟩
  · exact Or.inr ⟨not_lt.mp hpos, [], false, rfl⟩

/-- Whatever fails in an ascent, the directory's own content stays. -/
theorem content_rollupAscend (ts : TreeSummaryCode) (cfg : Config) (level : ℕ) (path : Bytes)
    {own : Dir} (hown : own.Settled) (cs : List Child) :
    (rollupAscend ts cfg attach level path own cs).dir.content = own.content := by
  unfold rollupAscend
  cases hdb : own.db with
  | none => rfl
  | some db₀ =>
      have hgrows : Dir.Grows own (own.setDb { db₀ with treesummary := some [] }) :=
        Dir.grows_setDb hdb rfl rfl (fun _ h => h)
      have hopen := hgrows.content_eq hown
      simp only
      split_ifs with hpos hzero
      · have hinit : (rollupInit (own.setDb { db₀ with treesummary := some [] })).content =
            own.content := (Dir.content_rollupCleanup true _).trans hopen
        have hset := Dir.Settled.of_content_eq hinit hown
        exact ((grows_doRollup ts _ cs).content_eq hset).trans hinit
      · exact (Dir.grows_setDb hdb rfl rfl (fun _ h => h)).content_eq hown
      · exact hopen

end Ascend

/-- In every state of every run, every directory has the content it had at the start. -/
theorem RunReaches.content_eq {ts : TreeSummaryCode} {cfg : Config} {F : DirFaults → Prop}
    {root : DirTree} {ix : Index} {s : RunState} (h : RunReaches ts cfg F root ix s) {p : Bytes}
    (hp : (ix p).Settled) : (s.ix p).content = (ix p).content := by
  apply h.invariant (P := fun s => (s.ix p).content = (ix p).content)
  · rfl
  · intro s l t flt hs _ _ _ _
    change (Function.update s.ix t.path _ p).content = _
    by_cases ht : p = t.path
    · subst ht
      rw [Function.update_self, RunState.ascendResult]
      split_ifs with hlevel
      · exact hs
      · rw [content_rollupAscend ts cfg l _ (Dir.Settled.of_content_eq hs hp), hs]
    · rw [Function.update_of_ne ht]
      exact hs

/-- A directory that has not ascended is as it was at the start. -/
theorem RunReaches.ix_eq_of_not_ascended {ts : TreeSummaryCode} {cfg : Config}
    {F : DirFaults → Prop} {root : DirTree} {ix : Index} {s : RunState}
    (h : RunReaches ts cfg F root ix s) {p : Bytes} (hp : s.ascended p = false) :
    s.ix p = ix p := by
  revert hp
  apply h.invariant (P := fun s => s.ascended p = false → s.ix p = ix p)
  · exact fun _ => rfl
  · intro s l t flt hs _ _ _ _ hp
    change Function.update s.ascended t.path true p = false at hp
    change Function.update s.ix t.path _ p = _
    by_cases ht : p = t.path
    · subst ht
      rw [Function.update_self] at hp
      cases hp
    · rw [Function.update_of_ne ht] at hp ⊢
      exact hs hp

section Unrolled

/-- The tables as indexing leaves them: the only summary row is the directory's own, and nothing
is rolled up. -/
structure Db.Unrolled (db : Db) : Prop where
  summary : ∃ row, db.summary = [row] ∧ row.isroot = true ∧ row.isrolledup = false
  pentriesRollup : db.pentriesRollup = []
  xattrsRollup : db.xattrsRollup = []
  externalDbsRollup : db.externalDbsRollup = []

/-- A directory as indexing leaves it. An xattr database is created for its first row. -/
structure Dir.Unrolled (d : Dir) : Prop where
  db : ∃ db, d.db = some db ∧ db.Unrolled
  xattrDbs : ∀ f x, d.xattrDbs f = some x → x.pwd ≠ [] ∧ x.rollup = []

theorem Dir.Unrolled.settled {d : Dir} (h : d.Unrolled) : d.Settled := by
  have hclean : ∀ f, cleanXattrDb (d.xattrDbs f) = d.xattrDbs f := by
    intro f
    cases hf : d.xattrDbs f with
    | none => rfl
    | some x =>
        obtain ⟨hpwd, hrollup⟩ := h.xattrDbs f x hf
        rw [cleanXattrDb, if_neg hpwd, ← hrollup]
  intro f
  change cleanXattrDb (if f ∈ d.listed then _ else _) = if f ∈ d.listed then _ else _
  split_ifs <;> simp only [hclean]

/-- Mode and ownership of a directory, from its own summary row. -/
def Dir.permissions (d : Dir) : Permissions :=
  (d.db.map getRootPermissions).getD ⟨0, 0, 0⟩

theorem Db.getRootPermissions_content (db : Db) :
    getRootPermissions db.content = getRootPermissions db := by
  have hroot := Db.rootRows_rollupCleanup false db
  change (List.map _ (db.rollupCleanup false).rootRows).getLastD _ = _
  rw [hroot, List.map_map]
  rfl

theorem Dir.permissions_eq_of_content_eq {d d' : Dir} (h : d'.content = d.content) :
    d'.permissions = d.permissions := by
  have hcontent (d : Dir) : d.permissions = d.content.permissions := by
    change _ = (((d.db.map Db.content).map getRootPermissions).getD _)
    rw [Option.map_map, funext (f := getRootPermissions ∘ Db.content) Db.getRootPermissions_content]
    rfl
  rw [hcontent d', hcontent d, h]

theorem Db.Unrolled.getPermissions_eq {db : Db} (h : db.Unrolled) :
    getPermissions db = getRootPermissions db := by
  obtain ⟨row, hrow, hroot, -⟩ := h.summary
  simp [getPermissions, getRootPermissions, Db.rootRows, hrow, hroot]

end Unrolled

end Gufi
