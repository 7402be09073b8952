import Gufi.RollupPermissions
import Gufi.RollupRows

/-!
# The tables of a rolled-up directory

`do_rollup` returns 0 only when every child was copied whole, so the tables it leaves are those of
the directory's own content with the children's tables absorbed one after the other. Over a run,
the tables of a rolled-up directory are computed upwards from the own content of the directories
below it: `rolledDb` is that computation, with `treesummary` left out.
-/

namespace Gufi

open SqlTable

section Absorb

variable (name : Bytes → SummaryRow → Bytes)

/-- The tables after a copy of a child's tables in which nothing failed. -/
def Db.absorb (db sub : Db) : Db :=
  { db with
    pentriesRollup := db.pentriesRollup ++ sub.pentries
    summary := db.summary ++ sub.summary.map (renameRow name db.rootName)
    treesummary := db.treesummary.map (· ++ sub.treesummary.getD [])
    xattrsRollup := db.xattrsRollup ++ sub.xattrsAvail
    externalDbsRollup := insertOrIgnore ExternalDb.key db.externalDbsRollup sub.externalDbs }

/-- The copy of a child's tables that reports no failure met none. -/
theorem faults_of_rollupOneSubdir_ok {flt : ChildFaults} {rowName : Db → SummaryRow → Bytes}
    {sub db : Db} (h : (rollupOneSubdir flt rowName sub db).2 = true) :
    (flt.pentries = none ∧ flt.summary = none ∧ flt.xattrs = none ∧ flt.externalDbs = none) ∧
      flt.treesummary = none ∧ db.treesummary.isSome = true ∧ sub.treesummary ≠ none := by
  unfold rollupOneSubdir at h
  obtain ⟨h₁, h⟩ := thenIfOk_snd.mp h
  obtain ⟨h₂, h⟩ := thenIfOk_snd.mp h
  obtain ⟨h₃, h⟩ := thenIfOk_snd.mp h
  obtain ⟨h₄, h₅⟩ := thenIfOk_snd.mp h
  have hselect {α : Type} {fault : Option ℕ} {table rows : List α}
      (h : (insertSelect fault table rows).2 = true) : fault = none := by
    rwa [insertSelect_snd, Option.isNone_iff_eq_none] at h
  obtain ⟨ht, hdst, hsrc⟩ := (insertTreesummary_snd flt sub _).mp h₃
  refine ⟨⟨hselect h₁, hselect h₂, hselect h₄, ?_⟩, ht, hdst, hsrc⟩
  unfold insertExternalDbs at h₅
  cases hf : flt.externalDbs with
  | none => rfl
  | some n => simp [hf] at h₅

theorem rollupOneSubdir_of_ok {flt : ChildFaults} {sub db : Db}
    (h : (rollupOneSubdir flt (fun db s => name db.rootName s) sub db).2 = true) :
    (rollupOneSubdir flt (fun db s => name db.rootName s) sub db).1 = db.absorb name sub := by
  obtain ⟨⟨hp, hs, hx, he⟩, ht, hdst, hsrc⟩ := faults_of_rollupOneSubdir_ok h
  obtain ⟨dst, hdst⟩ := Option.isSome_iff_exists.mp hdst
  obtain ⟨src, hsrc⟩ := Option.ne_none_iff_exists'.mp hsrc
  simp [rollupOneSubdir, insertPentries, insertSummary, insertTreesummary, insertXattrs,
    insertExternalDbs, Db.absorb, hp, hs, hx, he, ht, hdst, hsrc]
  exact fun _ _ => rfl

variable {umask : ℕ} {attach : AttachXattr}

theorem ensureXattrDb_db (flt : Option ExternalFault) (own : Dir) (row : ExternalDb) :
    (ensureXattrDb umask flt own row).1.db = own.db :=
  (ensureXattrDb_spec umask flt own row).1.db

theorem rollupExternals_db (flt : ℕ → Option ExternalFault) (child : Bytes) (k : ℕ)
    (rows : List ExternalDb) (own : Dir) :
    (rollupExternals umask attach flt child k rows own).1.db = own.db := by
  have hone (flt : Option ExternalFault) (own : Dir) (row : ExternalDb) :
      (rollupExternalXattrs umask attach flt child own row).1.db = own.db := by
    refine (thenIfOk_induct (P := fun d : Dir => d.db = own.db) (ensureXattrDb_db flt own row) ?_)
    intro _ d hd
    split_ifs
    · exact hd
    · cases attach d (child ++ slash :: row.filename) with
      | none => exact hd
      | some x => rcases flt with _ | (_ | _ | _ | _ | n) <;> exact hd
  induction rows generalizing k own with
  | nil => rfl
  | cons row rows ih =>
      exact thenIfOk_induct (P := fun d : Dir => d.db = own.db) (hone (flt k) own row)
        (fun _ d hd => (ih (k + 1) d).trans hd)

/-- A child that was rolled up without a failure has been absorbed. -/
theorem rollupChild_of_ok {c : Child} {own : Dir} {db sub : Db} (hdb : own.db = some db)
    (hsub : c.attached = some sub) (h : (rollupChild umask attach c own).2 = true) :
    (rollupChild umask attach c own).1.db = some (db.absorb bottomupName sub) := by
  unfold rollupChild at h ⊢
  split_ifs at h ⊢ with hfault
  simp only [hsub, rollupChildProcess, hdb] at h ⊢
  obtain ⟨hok, -⟩ := thenIfOk_snd.mp h
  rw [thenIfOk_of_ok hok, rollupExternals_db]
  exact congrArg some (rollupOneSubdir_of_ok bottomupName hok)

theorem rollupChildren_of_ok {cs : List Child} {own : Dir} {db : Db} {subs : List Db}
    (hdb : own.db = some db) (hsubs : cs.map (·.attached) = subs.map some)
    (h : (rollupChildren umask attach cs own).2 = true) :
    (rollupChildren umask attach cs own).1.db =
      some (subs.foldl (Db.absorb bottomupName) db) := by
  induction cs generalizing own db subs with
  | nil =>
      obtain rfl := List.map_eq_nil_iff.mp hsubs.symm
      exact hdb
  | cons c cs ih =>
      obtain ⟨sub, subs, rfl, hsub, hsubs⟩ := List.map_eq_cons_iff.mp hsubs.symm
      rw [rollupChildren] at h ⊢
      obtain ⟨hc, hcs⟩ := thenIfOk_snd.mp h
      rw [thenIfOk_of_ok hc, List.foldl_cons]
      exact ih (rollupChild_of_ok hdb hsub.symm hc) hsubs.symm hcs

end Absorb

section Upwards

/-- The tables without `treesummary`. -/
def Db.withoutTreesummary (db : Db) : Db :=
  { db with treesummary := none }

theorem withoutTreesummary_absorb (name : Bytes → SummaryRow → Bytes) (db sub : Db) :
    (db.absorb name sub).withoutTreesummary =
      db.withoutTreesummary.absorb name sub.withoutTreesummary := rfl

theorem withoutTreesummary_foldl (name : Bytes → SummaryRow → Bytes) (subs : List Db) (db : Db) :
    (subs.foldl (Db.absorb name) db).withoutTreesummary =
      (subs.map Db.withoutTreesummary).foldl (Db.absorb name) db.withoutTreesummary := by
  induction subs generalizing db with
  | nil => rfl
  | cons sub subs ih =>
      rw [List.map_cons, List.foldl_cons, List.foldl_cons, ih, withoutTreesummary_absorb]

/-- The own tables of a directory as a rollup starts with them. -/
def Dir.cleaned (d : Dir) : Db :=
  ((d.db.getD default).rollupCleanup true).withoutTreesummary

theorem Dir.cleaned_eq_of_content_eq {d d' : Dir} (h : d'.content = d.content) :
    d'.cleaned = d.cleaned := by
  have hcontent (d : Dir) : d.cleaned = (d.content.db.getD default).rollupCleanup true := by
    unfold Dir.cleaned Dir.content
    cases d.db with
    | none => rfl
    | some db =>
        have hroot : db.content.rootRows = _ := Db.rootRows_rollupCleanup false db
        change (db.rollupCleanup true).withoutTreesummary = db.content.rollupCleanup true
        rw [Db.rollupCleanup, Db.rollupCleanup, hroot, List.map_map]
        rfl
  rw [hcontent, hcontent, h]

/-- The tables of a directory whose whole tree is rolled up. -/
def DirTree.rolledDb (ix : Index) : DirTree → Db :=
  DirTree.fold fun p subs => subs.foldl (Db.absorb bottomupName) (ix p).cleaned

theorem DirTree.rolledDb_eq (ix : Index) (t : DirTree) : t.rolledDb ix =
    (t.subdirs.map (rolledDb ix)).foldl (Db.absorb bottomupName) (ix t.path).cleaned :=
  DirTree.fold_eq _ t

end Upwards

section Tables

/-- The rows of a child's tables. -/
def tableRows (subs : List Db) : Rows where
  pentries := subs.flatMap (·.pentries)
  summary := subs.flatMap (·.summary)
  xattrs := subs.flatMap (·.xattrsAvail)
  externalDbs := subs.flatMap (·.externalDbs)

theorem appends_absorb (name : Bytes → SummaryRow → Bytes) (db sub : Db) :
    db.Appends (renameRow name) (tableRows [sub]) (db.absorb name sub) where
  pentries := by simp [Db.absorb, tableRows]
  summary := by simp [Db.absorb, tableRows]
  xattrs := by simp [Db.absorb, tableRows]
  externalDbs := by simp [Db.absorb, tableRows]
  entries := rfl
  rootRows := by
    have hnil : (sub.summary.map (renameRow name db.rootName)).filter (·.isroot) = [] :=
      filter_isroot_rollupSummaryRow (fun db s => name db.rootName s) db sub.summary
    change (db.summary ++ _).filter (·.isroot) = _
    rw [List.filter_append, hnil, List.append_nil]
    rfl
  xattrsPwd := rfl
  externalDbsPwd := rfl
  treesummary := Option.isSome_map ..

/-- Absorbing one child after the other appends all their rows. -/
theorem appends_foldl_absorb (name : Bytes → SummaryRow → Bytes) (subs : List Db) (db : Db) :
    db.Appends (renameRow name) (tableRows subs) (subs.foldl (Db.absorb name) db) := by
  induction subs generalizing db with
  | nil => exact Db.Appends.refl db
  | cons sub subs ih =>
      have happ := (appends_absorb name db sub).trans (ih (db.absorb name sub))
      have hrows : (tableRows [sub]).append (tableRows subs) = tableRows (sub :: subs) := by
        simp [Rows.append, tableRows]
      rwa [hrows] at happ

variable (ix : Index)

/-- The rows a directory's tree adds to the own tables of the directory. -/
theorem DirTree.appends_rolledDb (t : DirTree) : (ix t.path).cleaned.Appends
    (renameRow bottomupName) (tableRows (t.subdirs.map (rolledDb ix))) (t.rolledDb ix) := by
  rw [rolledDb_eq]
  exact appends_foldl_absorb bottomupName _ _

/-- Columns that a copy leaves alone are those of the directories of the tree, in order. -/
theorem DirTree.map_summary_rolledDb {β : Type*} {g : SummaryRow → β}
    (hg : ∀ name s, g (rollupSummaryRow name s) = g s) (t : DirTree) :
    (t.rolledDb ix).summary.map g =
      t.subtrees.flatMap fun u => (ix u.path).cleaned.summary.map g := by
  induction t using DirTree.induct with
  | node p cs ih =>
      have hcs : (cs.map (rolledDb ix)).flatMap (fun db => db.summary.map g) =
          (cs.flatMap DirTree.subtrees).flatMap fun u => (ix u.path).cleaned.summary.map g := by
        rw [List.flatMap_map, List.flatMap_assoc]
        exact List.flatMap_congr ih
      have hrename : (g ∘ renameRow bottomupName (ix p).cleaned.rootName) = g :=
        funext fun s => hg _ s
      rw [(appends_rolledDb ix (.node p cs)).summary, subtrees_eq, List.flatMap_cons,
        List.map_append, List.map_map, path, hrename, tableRows, List.map_flatMap, subdirs, hcs]

/-- The entries of a directory that are its own. -/
def Dir.ownPentries (d : Dir) : List PEntryRow :=
  (d.db.map Db.ownPentries).getD []

theorem ownPentries_cleaned (d : Dir) : d.cleaned.ownPentries = d.ownPentries := by
  have hroot (db : Db) : (db.rollupCleanup true).ownPentries = db.ownPentries := by
    rw [Db.ownPentries, Db.rootRows_rollupCleanup, Db.ownPentries]
    apply List.flatMap_congr
    intro e _
    rw [List.map_map]
    rfl
  unfold Dir.cleaned Dir.ownPentries
  cases d.db with
  | none => rfl
  | some db => exact hroot db

/-- The entries of the directories of a tree, as the `pentries` views merge them. -/
def DirTree.pentriesBelow : DirTree → List PEntryRow :=
  DirTree.fold fun p below => union (ix p).ownPentries below.flatten

theorem DirTree.pentries_rolledDb (t : DirTree) :
    (t.rolledDb ix).pentries = t.pentriesBelow ix := by
  induction t using DirTree.induct with
  | node p cs ih =>
      have happ := appends_rolledDb ix (.node p cs)
      have hown : (rolledDb ix (.node p cs)).ownPentries = (ix p).ownPentries := by
        rw [← ownPentries_cleaned, Db.ownPentries, happ.entries, happ.rootRows]
        rfl
      have hcs : (cs.map (rolledDb ix)).flatMap (·.pentries) =
          (cs.map (pentriesBelow ix)).flatten := by
        rw [List.flatMap_map, ← List.flatMap_def]
        exact List.flatMap_congr ih
      rw [Db.pentries, hown, happ.pentries, pentriesBelow, fold_eq]
      change union _ ([] ++ (cs.map (rolledDb ix)).flatMap (·.pentries)) = _
      rw [List.nil_append, hcs]
      rfl

theorem getRootPermissions_cleaned (d : Dir) : getRootPermissions d.cleaned = d.permissions := by
  have hroot (db : Db) : getRootPermissions (db.rollupCleanup true) = getRootPermissions db := by
    rw [getRootPermissions, Db.rootRows_rollupCleanup, List.map_map]
    rfl
  unfold Dir.cleaned Dir.permissions
  cases d.db with
  | none => rfl
  | some db => exact hroot db

theorem DirTree.getRootPermissions_rolledDb (t : DirTree) :
    getRootPermissions (t.rolledDb ix) = (ix t.path).permissions := by
  rw [← getRootPermissions_cleaned, getRootPermissions, (appends_rolledDb ix t).rootRows]
  rfl

end Tables

section DoRollup

variable (ts : TreeSummaryCode) {umask : ℕ} {attach : AttachXattr}

/-- The tables after `do_rollup` returned 0, before `treesummary` is computed from them. -/
def absorbAll (db : Db) (subs : List Db) : Db :=
  subs.foldl (Db.absorb bottomupName) (db.rollupCleanup true)

theorem doRollup_of_ok {own : Dir} {db : Db} {cs : List Child} {subs : List Db}
    (hdb : own.db = some db) (hsubs : cs.map (·.attached) = subs.map some)
    (h : (doRollup ts umask attach own cs).2 = true) :
    (doRollup ts umask attach own cs).1.db =
      some ((absorbAll db subs).setTreesummary (ts.rolledUp (absorbAll db subs))) := by
  have hinit : (rollupInit own).db = some (db.rollupCleanup true) := by
    rw [rollupInit, Dir.rollupCleanup_db, hdb]
    rfl
  unfold doRollup at h ⊢
  obtain ⟨hok, -⟩ := thenIfOk_snd.mp h
  rw [thenIfOk_of_ok hok, rollupChildren_of_ok hinit hsubs hok]
  rfl

theorem withoutTreesummary_absorbAll {d : Dir} {db : Db} (hdb : d.db = some db) (subs : List Db)
    (old rows : List TreeSummaryRow) :
    ((absorbAll { db with treesummary := some old } subs).setTreesummary rows).withoutTreesummary =
      (subs.map Db.withoutTreesummary).foldl (Db.absorb bottomupName) d.cleaned := by
  change (absorbAll { db with treesummary := some old } subs).withoutTreesummary = _
  rw [absorbAll, withoutTreesummary_foldl, Dir.cleaned, hdb]
  rfl

end DoRollup

section Run

variable {ts : TreeSummaryCode} {cfg : Config} {F : DirFaults → Prop} {root : DirTree} {ix : Index}
  {s s₀ : RunState} {flt : DirFaults} {l : ℕ} {t : DirTree}

/-- What `do_rollup` is called on. -/
def Dir.opened (d : Dir) : Dir :=
  match d.db with
  | none => d
  | some db => d.setDb { db with treesummary := some [] }

theorem Dir.opened_eq {d : Dir} {db : Db} (h : d.db = some db) :
    d.opened = d.setDb { db with treesummary := some [] } := by
  rw [Dir.opened, h]

theorem Dir.content_opened (d : Dir) : d.opened.content = d.content := by
  cases hdb : d.db with
  | none => rw [Dir.opened, hdb]
  | some db =>
      rw [Dir.opened_eq hdb, Dir.ext_iff']
      refine ⟨by simp [Dir.content, hdb, Db.content, Db.rollupCleanup, Db.rootRows], fun f => ?_⟩
      simp only [Dir.content, Dir.listed, hdb, Dir.setDb_db, Dir.setDb_xattrDbs]
      rfl

/-- A directory with the in-memory flag was rolled up without a failure. -/
structure RolledUpFrom (ts : TreeSummaryCode) (cfg : Config) (ix : Index) (s₀ : RunState)
    (flt : DirFaults) (l : ℕ) (t : DirTree) (s : RunState) : Prop where
  level : cfg.minLevel ≤ l
  score : 0 < shouldRollup cfg l ((ix t.path).opened.db.getD default) (s₀.children flt t)
  dir : s.ix t.path = (doRollup ts cfg.umask (s₀.ix.attachXattr t.path) (ix t.path).opened
    (s₀.children flt t)).1
  ok : (doRollup ts cfg.umask (s₀.ix.attachXattr t.path) (ix t.path).opened
    (s₀.children flt t)).2 = true
  children : ∀ c ∈ t.subdirs, s.rolledup c.path = true

theorem AscendedFrom.rolledUpFrom (h : AscendedFrom ts cfg F root ix s₀ flt l t s)
    (hroll : s.rolledup t.path = true) : RolledUpFrom ts cfg ix s₀ flt l t s := by
  have hown : s₀.ix t.path = ix t.path := h.run.ix_eq_of_not_ascended h.fresh
  have hdir := h.dir
  have hroll' := h.rolledup
  rw [hroll, RunState.ascendResult] at hroll'
  rw [RunState.ascendResult] at hdir
  by_cases hlevel : l < cfg.minLevel
  · rw [if_pos hlevel] at hroll'
    cases hroll'
  · rw [if_neg hlevel, hown] at hdir hroll'
    cases hdb : (ix t.path).db with
    | none => simp [rollupAscend, hdb] at hroll'
    | some db =>
        have hopened := Dir.opened_eq hdb
        rcases rollupAscend_cases ts cfg (s₀.ix.attachXattr t.path) l t.path hdb
          (s₀.children flt t) with ⟨hpos, heq⟩ | ⟨-, rows, ok, heq⟩
        · rw [heq] at hdir hroll'
          refine ⟨not_lt.mp hlevel, ?_, ?_, ?_, ?_⟩
          · rw [hopened]
            exact hpos
          · rw [hopened]
            exact hdir
          · rw [hopened]
            exact hroll'.symm
          · intro c hc
            have hcan := canRollup_eq_one_iff.mp (canRollup_of_shouldRollup_pos hpos)
            obtain ⟨i, hi⟩ := List.getElem?_of_mem hc
            obtain ⟨hr, -⟩ := hcan _ (RunState.mem_children.mpr ⟨i, c, hi, rfl⟩)
            rw [(h.kept c.path (h.below c hc)).2.1]
            exact hr
        · rw [heq] at hroll'
          cases hroll'

theorem RunState.map_attached_children (s : RunState) (flt : DirFaults) (t : DirTree) :
    (s.children flt t).map (·.attached) = t.subdirs.map fun c => (s.ix c.path).db := by
  rw [RunState.children, List.map_map]
  conv_rhs => rw [← List.zipIdx_map_fst 0 t.subdirs, List.map_map]
  apply List.map_congr_left
  intro c _
  exact attachDb_sqliteUriPath s.ix c.1.path

theorem RunState.map_db_children (s : RunState) (flt : DirFaults) (t : DirTree) :
    (s.children flt t).map (·.db) = t.subdirs.map fun c => (s.ix c.path).db := by
  rw [RunState.children, List.map_map]
  conv_rhs => rw [← List.zipIdx_map_fst 0 t.subdirs, List.map_map]
  rfl

/-- In every run the tables of a directory with the in-memory flag are computed upwards from the
own tables below it. -/
theorem RunReaches.rolledDb_eq (hroot : root.WellFormed)
    (hix : ∀ t ∈ root.subtrees, (ix t.path).db.isSome = true)
    (hrun : RunReaches ts cfg F root ix s) (ht : t ∈ root.subtrees)
    (hasc : s.ascended t.path = true) (hroll : s.rolledup t.path = true) :
    ∃ db, (s.ix t.path).db = some db ∧ db.withoutTreesummary = t.rolledDb ix := by
  induction t using DirTree.induct with
  | node p cs ih =>
      obtain ⟨l, hl⟩ := DirTree.exists_level ht 0
      obtain ⟨s₀, flt, hfrom⟩ := hrun.ascendedFrom hroot hl hasc
      have hup := hfrom.rolledUpFrom hroll
      have hchild : ∀ c ∈ cs, ∃ db, (s₀.ix c.path).db = some db ∧
          db.withoutTreesummary = c.rolledDb ix := by
        intro c hc
        obtain ⟨hsame, -, hcasc⟩ := hfrom.kept c.path (hfrom.below c hc)
        rw [← hsame]
        exact ih c hc (DirTree.subdir_mem_subtrees ht hc) hcasc (hup.children c hc)
      obtain ⟨db, hdb⟩ := Option.isSome_iff_exists.mp (hix _ ht)
      let subs := cs.map fun c => (s₀.ix c.path).db.getD default
      have hsubs : (s₀.children flt (.node p cs)).map (·.attached) = subs.map some := by
        rw [RunState.map_attached_children, List.map_map]
        apply List.map_congr_left
        intro c hc
        obtain ⟨sub, hsub, -⟩ := hchild c hc
        rw [Function.comp_apply, hsub, Option.getD_some]
      have hrolled : subs.map Db.withoutTreesummary = cs.map (DirTree.rolledDb ix) := by
        rw [List.map_map]
        apply List.map_congr_left
        intro c hc
        obtain ⟨sub, hsub, heq⟩ := hchild c hc
        rw [Function.comp_apply, hsub, Option.getD_some, heq]
      have hopened : (ix p).opened.db = some { db with treesummary := some [] } := by
        rw [Dir.opened, show (ix p).db = some db from hdb]
        rfl
      have htables := withoutTreesummary_absorbAll hdb subs []
        (ts.rolledUp (absorbAll { db with treesummary := some [] } subs))
      rw [hrolled] at htables
      rw [hup.dir, DirTree.rolledDb_eq]
      exact ⟨_, doRollup_of_ok ts hopened hsubs hup.ok, htables⟩

end Run

end Gufi
