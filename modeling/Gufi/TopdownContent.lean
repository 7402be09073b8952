import Gufi.TopdownRun

/-!
# gufi_rollup_topdown against gufi_rollup

A target of which all subdirectories are leaves with nothing rolled up into them shows the rows of
its tree, as the rollup from the bottom makes it show them. A row from further down gets the depth
of a child's row: every directory below the target is copied straight into it, and the copy adds
one to the depth.
-/

namespace Gufi

open SqlTable Relation

section OwnRows

/-- Nothing is rolled up into the directory. -/
structure Dir.Bare (d : Dir) : Prop where
  db : ∀ db, d.db = some db → (∀ s ∈ db.summary, s.isroot = true) ∧ db.pentriesRollup = [] ∧
    db.xattrsRollup = [] ∧ db.externalDbsRollup = []
  files : ∀ f, d.rollupRows f = []

/-- A row with the flags of a rolled-up directory. -/
def SummaryRow.flagged (s : SummaryRow) : SummaryRow :=
  { s with canrollup := true, isrolledup := true }

variable {d d' : Dir}

/-- The own rows are part of the own content, up to the flags. -/
theorem ownRows_eq_of_content_eq (h : d'.content = d.content) :
    d'.ownPentries = d.ownPentries ∧ d'.ownXattrs = d.ownXattrs ∧
      d'.ownExternalDbs = d.ownExternalDbs ∧
      d'.ownSummary.map SummaryRow.flagged = d.ownSummary.map SummaryRow.flagged := by
  have hcleaned := Dir.cleaned_eq_of_content_eq h
  refine ⟨?_, ?_, ?_, ?_⟩
  · rw [← ownPentries_cleaned, hcleaned, ownPentries_cleaned]
  · rw [← Dir.xattrsPwd_cleaned, hcleaned, Dir.xattrsPwd_cleaned]
  · rw [← Dir.externalDbsPwd_cleaned, hcleaned, Dir.externalDbsPwd_cleaned]
  · have hsummary := Dir.summary_cleaned d'
    rw [hcleaned, Dir.summary_cleaned] at hsummary
    exact hsummary.symm

theorem mem_externalNames_of_content_eq (h : d'.content = d.content) {f : Bytes} :
    f ∈ d'.externalNames ↔ f ∈ d.externalNames := by
  rw [mem_externalNames_cleaned, Dir.cleaned_eq_of_content_eq h, ← mem_externalNames_cleaned]

/-- The tables of a directory into which nothing is rolled up. -/
theorem Dir.Bare.tables (hd : d.Bare) {db : Db} (hdb : d.db = some db)
    (hp : d.ownPentries.Nodup) (hx : d.ownXattrs.Nodup) (he : d.ownExternalDbs.Nodup) :
    db.pentries = d.ownPentries ∧ db.xattrsAvail = d.ownXattrs ∧
      db.externalDbs = d.ownExternalDbs ∧ db.summary = d.ownSummary := by
  obtain ⟨hroot, hpentries, hxattrs, hexternal⟩ := hd.db db hdb
  rw [Dir.ownPentries, hdb] at hp
  rw [Dir.ownXattrs, hdb] at hx
  rw [Dir.ownExternalDbs, hdb] at he
  simp only [Option.map_some, Option.getD_some] at hp hx he
  simp only [Dir.ownPentries, Dir.ownXattrs, Dir.ownExternalDbs, Dir.ownSummary, hdb,
    Option.map_some, Option.getD_some]
  refine ⟨?_, ?_, ?_, ?_⟩
  · rw [Db.pentries, hpentries, union_eq_append (by rwa [List.append_nil]), List.append_nil]
  · rw [Db.xattrsAvail, hxattrs, union_eq_append (by rwa [List.append_nil]), List.append_nil]
  · rw [Db.externalDbs, hexternal, union_eq_append (by rwa [List.append_nil]), List.append_nil]
  · exact (List.filter_eq_self.mpr hroot).symm

/-- Nothing rolled up means that no xattr database is cleaned. -/
theorem Dir.Bare.xattrDbs_eq (hd : d.Bare) {db : Db} (hdb : d.db = some db) {d₀ : Dir}
    (h₀ : d₀.Unrolled) (h : d.content = d₀.content) : d.xattrDbs = d₀.xattrDbs := by
  have hlisted : d.listed = [] := by
    rw [Dir.listed, hdb]
    simp [Db.rolledXattrDbs, (hd.db db hdb).2.2.2]
  have hcontent : d.content.xattrDbs = d.xattrDbs := by
    funext f
    simp [Dir.content, hlisted]
  rw [← hcontent, h]
  exact h₀.content_xattrDbs

end OwnRows

/-- A target that gufi_rollup_topdown rolls up as gufi_rollup does. -/
structure FlatTarget (cfg : TopdownConfig) (ix : Index) (top : DirTree) : Prop where
  leaves : ∀ c ∈ top.subdirs, c.subdirs = []
  bare : ∀ c ∈ top.subdirs, (ix c.path).Bare
  target : ∀ db, (ix top.path).db = some db →
    db.rolledXattrDbs = [] ∧ (top.subdirs ≠ [] → db.treesummary.isSome = true)
  children : ∀ c ∈ top.subdirs, ∀ db, (ix c.path).db = some db → db.treesummary ≠ none
  paths : ∀ c ∈ top.subdirs, (ix c.path).externalNames ≠ [] → UriClean c.path
  names : ∀ c ∈ top.subdirs, ∀ k, 0 < k → k < min top.subdirs.length cfg.maxthreads →
    c.name ≠ stagingName k

section Shows

/-- The tables show exactly the rows of the directories of the tree, and `files` those of the xattr
databases. -/
structure TopdownShows (ix : Index) (top : DirTree) (db : Db) (files : Bytes → List XattrRow) :
    Prop where
  pentries : db.pentries.Perm (top.subtrees.flatMap fun u => (ix u.path).ownPentries)
  summary : (db.summary.map SummaryRow.flagged).Perm (top.relSummary ix)
  xattrs : db.xattrsAvail.Perm (top.subtrees.flatMap fun u => (ix u.path).ownXattrs)
  externalDbs : db.externalDbs.Perm (top.subtrees.flatMap fun u => (ix u.path).ownExternalDbs)
  files : ∀ f, (files f).Perm (top.subtrees.flatMap fun u => (ix u.path).pwdRows f)

/-- Two directories show the same rows, up to the flags of the summary rows. -/
structure SameRows (d d' : Dir) : Prop where
  pentries : ((d.db.map Db.pentries).getD []).Perm ((d'.db.map Db.pentries).getD [])
  summary : (((d.db.map Db.summary).getD []).map SummaryRow.flagged).Perm
    (((d'.db.map Db.summary).getD []).map SummaryRow.flagged)
  xattrs : ((d.db.map Db.xattrsAvail).getD []).Perm ((d'.db.map Db.xattrsAvail).getD [])
  externalDbs : ((d.db.map Db.externalDbs).getD []).Perm ((d'.db.map Db.externalDbs).getD [])
  files : ∀ f, (d.availRows f).Perm (d'.availRows f)

variable {ix : Index} {top : DirTree}

theorem map_flagged_relSummary (ix : Index) (top : DirTree) :
    (top.relSummary ix).map SummaryRow.flagged = top.relSummary ix := by
  rw [DirTree.relSummary, List.map_flatMap]
  apply List.flatMap_congr
  rintro ⟨k, u⟩ -
  rw [List.map_map]
  rfl

theorem TopdownShows.sameRows {d d' : Dir} {db db' : Db} (h : TopdownShows ix top db d.availRows)
    (hdb : d.db = some db) (h' : ShowsTree ix top db' d'.availRows) (hdb' : d'.db = some db') :
    SameRows d d' := by
  constructor
  · rw [hdb, hdb']
    exact h.pentries.trans h'.pentries.symm
  · rw [hdb, hdb']
    simp only [Option.map_some, Option.getD_some, h'.summary, map_flagged_relSummary]
    exact h.summary
  · rw [hdb, hdb']
    exact h.xattrs.trans h'.xattrs.symm
  · rw [hdb, hdb']
    exact h.externalDbs.trans h'.externalDbs.symm
  · exact fun f => (h.files f).trans (h'.files f).symm

theorem subtrees_of_leaves (h : ∀ c ∈ top.subdirs, c.subdirs = []) :
    top.subtrees = top :: top.subdirs := by
  rw [DirTree.subtrees_eq]
  congr 1
  calc top.subdirs.flatMap DirTree.subtrees = top.subdirs.flatMap fun c => [c] :=
        List.flatMap_congr fun c hc => by rw [DirTree.subtrees_eq, h c hc]; rfl
    _ = top.subdirs := List.flatMap_singleton' _

/-- The rows of a target and of its subdirectories, by name and depth below the target. -/
theorem relSummary_of_leaves (h : ∀ c ∈ top.subdirs, c.subdirs = []) : top.relSummary ix =
    (ix top.path).ownSummary.map (relRow top 0 top) ++
      top.subdirs.flatMap fun c => (ix c.path).ownSummary.map (relRow top 1 c) := by
  rw [DirTree.relSummary, DirTree.levels_eq, List.flatMap_cons, List.flatMap_assoc]
  congr 1
  apply List.flatMap_congr
  intro c hc
  rw [DirTree.levels_eq, h c hc]
  simp

end Shows

section Target

variable {cfg : TopdownConfig} {ix₀ ix : Index} {root top : DirTree}

/-- The index of a run and the rows it starts with. -/
structure TopdownStart (ix₀ ix : Index) (root top : DirTree) : Prop where
  indexed : Indexed ix₀ root
  same : SameContent ix₀ ix root
  created : ∀ t ∈ root.subtrees, ∀ f ∈ (ix₀ t.path).externalNames,
    (ix₀ t.path).hasFile f = true
  distinct : DistinctRows ix₀ top

variable (hstart : TopdownStart ix₀ ix root top) (htop : top ∈ root.subtrees)
  (hflat : FlatTarget cfg ix top)
include hstart htop hflat

section Child

variable {c : DirTree} (hc : c ∈ top.subdirs)
include hc

/-- The tables of a subdirectory are its own rows. -/
theorem childDb_tables : (ix c.path).db = some (childDb ix c) ∧
    (childDb ix c).pentries = (ix₀ c.path).ownPentries ∧
    (childDb ix c).xattrsAvail = (ix₀ c.path).ownXattrs ∧
    (childDb ix c).externalDbs = (ix₀ c.path).ownExternalDbs ∧
    (childDb ix c).summary.map SummaryRow.flagged =
      (ix₀ c.path).ownSummary.map SummaryRow.flagged := by
  have hmem := DirTree.subdir_mem_subtrees htop hc
  have hbelow := DirTree.subdir_mem_subtrees top.self_mem_subtrees hc
  obtain ⟨hp, hx, he, hs⟩ := ownRows_eq_of_content_eq (hstart.same c hmem)
  obtain ⟨db, hdb⟩ := Option.isSome_iff_exists.mp
    (hstart.indexed.isSome_db hstart.same c hmem)
  have hchild : (ix c.path).db = some (childDb ix c) := by
    rw [childDb, hdb]
    rfl
  obtain ⟨hpentries, hxattrs, hexternal, hsummary⟩ := (hflat.bare c hc).tables hchild
    (hp ▸ (List.nodup_flatMap.mp hstart.distinct.pentries).1 c hbelow)
    (hx ▸ (List.nodup_flatMap.mp hstart.distinct.xattrs).1 c hbelow)
    (he ▸ (List.nodup_flatMap.mp (List.Nodup.of_map _ hstart.distinct.externalDbs)).1 c hbelow)
  exact ⟨hchild, hpentries.trans hp, hxattrs.trans hx, hexternal.trans he, hsummary ▸ hs⟩

theorem child_xattrDbs : (ix c.path).xattrDbs = (ix₀ c.path).xattrDbs := by
  have hmem := DirTree.subdir_mem_subtrees htop hc
  exact (hflat.bare c hc).xattrDbs_eq (childDb_tables hstart htop hflat hc).1
    (hstart.indexed.unrolled c hmem) (hstart.same c hmem)

theorem mem_externalXattrs_child {f : Bytes} :
    f ∈ (childDb ix c).externalXattrs.map (·.filename) ↔ f ∈ (ix₀ c.path).externalNames := by
  obtain ⟨-, -, -, hexternal, -⟩ := childDb_tables hstart htop hflat hc
  rw [Db.externalXattrs, hexternal, Dir.externalNames, Dir.ownExternalDbs]
  cases (ix₀ c.path).db <;> simp

/-- The summary rows of a subdirectory in the target. -/
theorem childDb_summary (hroot : root.WellFormed) : (childDb ix c).summary.map
    (SummaryRow.flagged ∘ renameRow (topdownName top.name) []) =
      (ix₀ c.path).ownSummary.map (relRow top 1 c) := by
  obtain ⟨-, -, -, -, hsummary⟩ := childDb_tables hstart htop hflat hc
  have hmem := DirTree.subdir_mem_subtrees htop hc
  have hcomp : SummaryRow.flagged ∘ renameRow (topdownName top.name) [] =
      (SummaryRow.flagged ∘ renameRow (topdownName top.name) []) ∘ SummaryRow.flagged := rfl
  rw [hcomp, ← List.map_map, hsummary, List.map_map]
  apply List.map_congr_left
  intro row hrow
  have hname := hstart.indexed.names c hmem row hrow
  have hrel := relPath_subdir (hroot.subtree htop) hc c.self_mem_subtrees
  rw [relPath_self] at hrel
  simp [SummaryRow.flagged, renameRow, rollupSummaryRow, topdownName, relRow, hname, hrel]

end Child

/-- The xattr databases of the target after the copies. -/
theorem mem_availRows_filesCopied {own : Dir} {order : List (Bytes × List XattrRow)}
    (hfiles : FilesCopied ix top own order)
    (hall : ∀ c ∈ top.subdirs, ∀ row ∈ (childDb ix c).externalXattrs, copiedFile ix c row ∈ order)
    (f : Bytes) (x : XattrRow) :
    x ∈ own.availRows f ↔ ∃ u ∈ top.subtrees, x ∈ (ix₀ u.path).pwdRows f := by
  have hinit : (rollupInit (ix top.path)).xattrDbs f = (ix₀ top.path).xattrDbs f := by
    rw [rollupInit, Dir.rollupCleanup_xattrDbs, hstart.same top htop,
      (hstart.indexed.unrolled top htop).content_xattrDbs]
  have hrollup : (rollupInit (ix top.path)).rollupRows f = [] := by
    rw [Dir.rollupRows, hinit]
    cases hx : (ix₀ top.path).xattrDbs f with
    | none => rfl
    | some y => exact ((hstart.indexed.unrolled top htop).xattrDbs f y hx).2
  have havail : ∀ c ∈ top.subdirs, (x ∈ (ix c.path).availRows f ↔
      x ∈ (ix₀ c.path).pwdRows f) := by
    intro c hc
    rw [Dir.mem_availRows, (hflat.bare c hc).files, Dir.pwdRows,
      child_xattrDbs hstart htop hflat hc]
    simp [Dir.pwdRows]
  rw [Dir.mem_availRows, hfiles.pwdRows, hfiles.rollupRows, hrollup, List.nil_append, mem_forFile,
    Dir.pwdRows, hinit, ← Dir.pwdRows, subtrees_of_leaves hflat.leaves]
  simp only [List.mem_cons, or_and_right, exists_or, exists_eq_left]
  apply or_congr Iff.rfl
  constructor
  · rintro ⟨rows, hrows, hx⟩
    obtain ⟨c, hc, row, -, heq⟩ := hfiles.copied _ hrows
    obtain ⟨rfl, rfl⟩ := Prod.mk.inj heq
    exact ⟨c, hc, (havail c hc).mp hx⟩
  · rintro ⟨c, hc, hx⟩
    have hname := mem_pwdRows_listed hstart.indexed (DirTree.subdir_mem_subtrees htop hc) hx
    obtain ⟨row, hrow, rfl⟩ := List.mem_map.mp
      ((mem_externalXattrs_child hstart htop hflat hc).mpr hname)
    exact ⟨_, hall c hc row hrow, (havail c hc).mpr hx⟩

variable (hroot : root.WellFormed)
include hroot

/-- The rows that the copies add to the target. -/
theorem tableRows_children :
    (tableRows (top.subdirs.map (childDb ix))).pentries =
      top.subdirs.flatMap (fun c => (ix₀ c.path).ownPentries) ∧
    (tableRows (top.subdirs.map (childDb ix))).xattrs =
      top.subdirs.flatMap (fun c => (ix₀ c.path).ownXattrs) ∧
    (tableRows (top.subdirs.map (childDb ix))).externalDbs =
      top.subdirs.flatMap (fun c => (ix₀ c.path).ownExternalDbs) ∧
    (tableRows (top.subdirs.map (childDb ix))).summary.map
        (SummaryRow.flagged ∘ renameRow (topdownName top.name) []) =
      top.subdirs.flatMap (fun c => (ix₀ c.path).ownSummary.map (relRow top 1 c)) := by
  simp only [tableRows, List.flatMap_map, List.map_flatMap]
  have htables {c : DirTree} (hc : c ∈ top.subdirs) := childDb_tables hstart htop hflat hc
  refine ⟨?_, ?_, ?_, ?_⟩
  · exact List.flatMap_congr fun c hc => (htables hc).2.1
  · exact List.flatMap_congr fun c hc => (htables hc).2.2.1
  · exact List.flatMap_congr fun c hc => (htables hc).2.2.2.1
  · exact List.flatMap_congr fun c hc => childDb_summary hstart htop hflat hc hroot

theorem copyReady (hthreads : 0 < cfg.maxthreads) : CopyReady cfg ix top where
  wellFormed := hroot.subtree htop
  threads := hthreads
  leaves := hflat.leaves
  target := by
    obtain ⟨db, hdb⟩ := Option.isSome_iff_exists.mp
      (hstart.indexed.isSome_db hstart.same top htop)
    exact ⟨db, hdb, hflat.target db hdb⟩
  children := by
    intro c hc
    obtain ⟨hdb, -, -, -, hsummary⟩ := childDb_tables hstart htop hflat hc
    refine ⟨hdb, hflat.children c hc _ hdb, ?_⟩
    intro s hs
    have hmem : s.flagged ∈ (ix₀ c.path).ownSummary.map SummaryRow.flagged :=
      hsummary ▸ List.mem_map_of_mem hs
    obtain ⟨row, hrow, heq⟩ := List.mem_map.mp hmem
    rw [← hstart.indexed.names c (DirTree.subdir_mem_subtrees htop hc) row hrow]
    exact (congrArg SummaryRow.name heq).symm
  files := by
    intro c hc row hrow
    have hmem := DirTree.subdir_mem_subtrees htop hc
    have hname := (mem_externalXattrs_child hstart htop hflat hc).mp (List.mem_map_of_mem hrow)
    refine ⟨(hstart.indexed.filenames c hmem _ hname).plain, ?_, ?_⟩
    · apply hflat.paths c hc
      exact List.ne_nil_of_mem ((mem_externalNames_of_content_eq (hstart.same c hmem)).mpr hname)
    · rw [Dir.hasFile, child_xattrDbs hstart htop hflat hc]
      exact hstart.created c hmem _ hname
  distinct := by
    obtain ⟨hp, hx, he, -⟩ := tableRows_children hstart htop hflat hroot
    have hdistinct := hstart.distinct
    have hsubtrees := subtrees_of_leaves hflat.leaves
    refine ⟨?_, ?_, ?_⟩
    · have hall := hdistinct.pentries
      rw [hsubtrees, List.flatMap_cons] at hall
      rw [hp]
      exact hall.of_append_right
    · have hall := hdistinct.xattrs
      rw [hsubtrees, List.flatMap_cons] at hall
      rw [hx]
      exact hall.of_append_right
    · have hall := hdistinct.externalDbs
      rw [hsubtrees, List.flatMap_cons, List.map_append] at hall
      rw [he]
      exact hall.of_append_right
  names := hflat.names

/-- A target that was merged shows the rows of its tree. -/
theorem Finished.shows {own : Dir} {copy : Copy} (h : Finished ix top own copy) :
    ∃ db, own.db = some db ∧ TopdownShows ix₀ top db own.availRows := by
  obtain ⟨db, hdb, hgathers⟩ := h.tables
  obtain ⟨order, hfiles, hall⟩ := h.files
  obtain ⟨hp, hx, he, hs⟩ := tableRows_children hstart htop hflat hroot
  obtain ⟨hownp, hownx, howne, howns⟩ := ownRows_eq_of_content_eq (hstart.same top htop)
  obtain ⟨db₀, hdb₀⟩ := Option.isSome_iff_exists.mp
    (hstart.indexed.isSome_db hstart.same top htop)
  have hbase : stagingBase ix top 0 = db₀.rollupCleanup true := by
    rw [stagingBase, if_pos rfl, hdb₀]
    rfl
  have hsubtrees := subtrees_of_leaves hflat.leaves
  have hdistinct := hstart.distinct
  refine ⟨db, hdb, ?_⟩
  constructor
  · have hown : db.ownPentries = (ix₀ top.path).ownPentries := by
      rw [Db.ownPentries, hgathers.entries, hgathers.rootRows, ← hownp, ← ownPentries_cleaned,
        Dir.cleaned, hdb₀, hbase]
      rfl
    have hrollup := hgathers.pentries
    have hnodup := hdistinct.pentries
    rw [hp] at hrollup
    rw [hsubtrees, List.flatMap_cons] at hnodup ⊢
    have hperm := hrollup.append_left (ix₀ top.path).ownPentries
    rw [Db.pentries, hown, union_eq_append (hperm.nodup_iff.mpr hnodup)]
    exact hperm
  · rw [relSummary_of_leaves hflat.leaves, ← hs, ← List.map_map]
    refine (hgathers.summary.map SummaryRow.flagged).trans (List.Perm.of_eq ?_)
    rw [List.map_append]
    congr 1
    have hsummary : (stagingBase ix top 0).summary =
        (ix₀ top.path).ownSummary.map SummaryRow.flagged := by
      rw [← howns, hbase, Dir.ownSummary, hdb₀]
      rfl
    rw [hsummary, List.map_map]
    apply List.map_congr_left
    intro row hrow
    have hname := hstart.indexed.names top htop row hrow
    obtain ⟨row', hrow', hisroot, -⟩ := (hstart.indexed.unrolled top htop).ownSummary_eq
    obtain rfl := List.mem_singleton.mp (hrow' ▸ hrow)
    simp [SummaryRow.flagged, relRow, relPath_self, hname, hisroot]
  · have hown : db.xattrsPwd = (ix₀ top.path).ownXattrs := by
      rw [hgathers.xattrsPwd, ← hownx, hbase, Dir.ownXattrs, hdb₀]
      rfl
    have hrollup := hgathers.xattrs
    have hnodup := hdistinct.xattrs
    rw [hx] at hrollup
    rw [hsubtrees, List.flatMap_cons] at hnodup ⊢
    have hperm := hrollup.append_left (ix₀ top.path).ownXattrs
    rw [Db.xattrsAvail, hown, union_eq_append (hperm.nodup_iff.mpr hnodup)]
    exact hperm
  · have hown : db.externalDbsPwd = (ix₀ top.path).ownExternalDbs := by
      rw [hgathers.externalDbsPwd, ← howne, hbase, Dir.ownExternalDbs, hdb₀]
      rfl
    have hrollup := hgathers.externalDbs
    have hnodup := List.Nodup.of_map _ hdistinct.externalDbs
    rw [he] at hrollup
    rw [hsubtrees, List.flatMap_cons] at hnodup ⊢
    have hperm := hrollup.append_left (ix₀ top.path).ownExternalDbs
    rw [Db.externalDbs, hown, union_eq_append (hperm.nodup_iff.mpr hnodup)]
    exact hperm
  · intro f
    apply (List.perm_ext_iff_of_nodup (own.nodup_availRows f) (hdistinct.files f)).mpr
    intro x
    rw [mem_availRows_filesCopied hstart htop hflat hfiles hall, List.mem_flatMap]

end Target

section Run

variable {cfg : TopdownConfig} {ix₀ ix : Index} {root top : DirTree} {s : TopdownState}

/-- A target shows the rows of its tree, and the same rows as after any rollup from the bottom that
rolled it up. -/
def AgreesWithBottomup (ix₀ : Index) (root top : DirTree) (s : TopdownState) : Prop :=
  (∃ db, (s.ix top.path).db = some db ∧ TopdownShows ix₀ top db (s.ix top.path).availRows) ∧
    ∀ (ts : TreeSummaryCode) (cfg : Config) (F : DirFaults → Prop) (ix : Index) (s' : RunState),
      SameContent ix₀ ix root → RunReaches ts cfg F root ix s' →
      (∀ flt, F flt → ∀ i, NoSilentFaults (flt i)) → top.UriCleanBelow ix₀ →
      s'.ascended top.path = true → s'.rolledup top.path = true →
      SameRows (s.ix top.path) (s'.ix top.path)

end Run

section Example

/-- `/r/a/b`. -/
def grandchild : DirTree := .node [47, 114, 47, 97, 47, 98] []

/-- `/r/a`. -/
def middle : DirTree := .node [47, 114, 47, 97] [grandchild]

/-- `/r`. -/
def chainTree : DirTree := .node [47, 114] [middle]

/-- Every directory is empty and can be rolled up. -/
def ableIndex : Index := fun p =>
  ⟨some { emptyDb (splitPath p).2 p.length with
    summary := (emptyDb (splitPath p).2 p.length).summary.map fun s =>
      { s with canrollup := true } }, fun _ => none⟩

def oneThread : TopdownConfig := ⟨0, 0, 1, 0⟩

theorem unrolled_ableIndex (p : Bytes) : (ableIndex p).Unrolled :=
  ⟨⟨_, rfl, ⟨⟨_, rfl, rfl, rfl⟩, rfl, rfl, rfl⟩⟩, by rintro f x ⟨⟩⟩

theorem topdownStart_ableIndex (root top : DirTree) :
    TopdownStart ableIndex ableIndex root top where
  indexed := by
    refine ⟨fun t _ => unrolled_ableIndex t.path, ?_, ?_, ?_⟩
    · intro t _ row hrow
      obtain rfl := List.mem_singleton.mp hrow
      rfl
    · intro t _ f hf
      cases hf
    · intro t _ f hf
      cases hf
  same := fun _ _ => rfl
  created := by
    intro t _ f hf
    cases hf
  distinct := by
    have hnil {α : Type} : (top.subtrees.flatMap fun _ => ([] : List α)) = [] :=
      List.flatMap_eq_nil_iff.mpr fun _ _ => rfl
    refine ⟨?_, ?_, ?_, fun f => ?_⟩
    · change (top.subtrees.flatMap fun _ => []).Nodup
      rw [hnil]
      exact List.nodup_nil
    · change (top.subtrees.flatMap fun _ => []).Nodup
      rw [hnil]
      exact List.nodup_nil
    · change ((top.subtrees.flatMap fun _ => []).map ExternalDb.key).Nodup
      rw [hnil]
      exact List.nodup_nil
    · change (top.subtrees.flatMap fun _ => []).Nodup
      rw [hnil]
      exact List.nodup_nil

/-- The target is enqueued, and its only thread takes the directories in the given order. -/
def oneThreadStart (top : DirTree) (dirs : List DirTree) : TopdownState :=
  (TopdownState.init ableIndex).enqueueRollupCopy top oneThread (fun _ => {}) dirs

/-- The task of one directory from its start to its end. -/
def oneTask (top dir : DirTree) (s : TopdownState) : TopdownState :=
  match s.copies top.path with
  | none => s
  | some copy =>
      let copied := s.copyToTop top {}
        { copy with waiting := Function.update copy.waiting 0 (copy.waiting 0).tail } 0 dir
      match copied.copies top.path with
      | none => copied
      | some copy => copied.endCopy top copy 0

def oneMerge (top : DirTree) (s : TopdownState) : TopdownState :=
  match s.copies top.path with
  | none => s
  | some copy => s.merge top (fun _ => {}) copy

theorem reaches_oneThreadStart {root top : DirTree} {dirs : List DirTree}
    (htop : top ∈ root.tops oneThread ableIndex 0) (hdirs : (top :: dirs).Perm top.subtrees) :
    TopdownReaches oneThread (fun flt => flt = {}) root ableIndex (oneThreadStart top dirs) :=
  ReflTransGen.single (TopdownStep.enqueue htop rfl hdirs fun _ => rfl)

theorem reaches_oneTask {root top dir : DirTree} {s : TopdownState} {copy copy' : Copy}
    (hs : TopdownReaches oneThread (fun flt => flt = {}) root ableIndex s)
    (htop : top ∈ root.tops oneThread ableIndex 0) (hcopy : s.copies top.path = some copy)
    (hidle : copy.running 0 = none) (hwaiting : copy.waiting 0 = dir :: (copy.waiting 0).tail)
    (hquote : 39 ∉ rolledupPath top dir)
    (hcopy' : (s.copyToTop top {} { copy with
      waiting := Function.update copy.waiting 0 (copy.waiting 0).tail } 0 dir).copies top.path =
        some copy') (hrunning : copy'.running 0 = some (dir, [])) :
    TopdownReaches oneThread (fun flt => flt = {}) root ableIndex (oneTask top dir s) := by
  have hone : oneTask top dir s = (s.copyToTop top {} { copy with
      waiting := Function.update copy.waiting 0 (copy.waiting 0).tail } 0 dir).endCopy top
        copy' 0 := by
    simp only [oneTask, hcopy, hcopy']
  rw [hone]
  have hfront : copy.waiting 0 = [] ++ dir :: (copy.waiting 0).tail := hwaiting
  exact (hs.tail (TopdownStep.copy htop hcopy hidle hfront hquote rfl)).tail
    (TopdownStep.endCopy htop hcopy' hrunning)

theorem reaches_oneMerge {root top : DirTree} {s : TopdownState} {copy : Copy}
    (hs : TopdownReaches oneThread (fun flt => flt = {}) root ableIndex s)
    (htop : top ∈ root.tops oneThread ableIndex 0) (hcopy : s.copies top.path = some copy)
    (hremaining : copy.remaining = 0) (hmerged : copy.merged = false) :
    TopdownReaches oneThread (fun flt => flt = {}) root ableIndex (oneMerge top s) := by
  have hone : oneMerge top s = s.merge top (fun _ => {}) copy := by
    simp only [oneMerge, hcopy]
  rw [hone]
  exact hs.tail (TopdownStep.merge htop hcopy hremaining hmerged fun _ => rfl)

theorem copies_oneMerge {top : DirTree} {s : TopdownState} {copy : Copy}
    (hcopy : s.copies top.path = some copy) :
    (oneMerge top s).copies top.path = some { copy with merged := true } := by
  simp only [oneMerge, hcopy, TopdownState.merge]
  split <;> exact Function.update_self ..

theorem subtrees_chainTree : chainTree.subtrees = [chainTree, middle, grandchild] := by
  simp [DirTree.subtrees_eq, chainTree, middle, grandchild, DirTree.subdirs]

theorem wellFormed_chainTree : chainTree.WellFormed := by
  constructor
  · intro t ht c hc
    rw [subtrees_chainTree, List.mem_cons, List.mem_pair] at ht
    rcases ht with rfl | rfl | rfl
    · obtain rfl := List.mem_singleton.mp hc
      exact ⟨[97], by decide, rfl⟩
    · obtain rfl := List.mem_singleton.mp hc
      exact ⟨[98], by decide, rfl⟩
    · cases hc
  · rw [DirTree.paths, subtrees_chainTree]
    decide

theorem flatTarget_pairTree : FlatTarget oneThread ableIndex (pairTree [97]) where
  leaves := by
    intro c hc
    obtain rfl := List.mem_singleton.mp hc
    rfl
  bare := by
    intro c _
    refine ⟨fun db hdb => ?_, fun _ => rfl⟩
    obtain rfl := Option.some.inj hdb
    exact ⟨fun s hs => by rw [List.mem_singleton.mp hs], rfl, rfl, rfl⟩
  target := by
    intro db hdb
    obtain rfl := Option.some.inj hdb
    exact ⟨rfl, fun _ => rfl⟩
  children := by
    intro c _ db hdb
    obtain rfl := Option.some.inj hdb
    exact Option.some_ne_none _
  paths := fun c _ hne => absurd rfl hne
  names := by
    intro c hc k hk hlt
    rw [show min (pairTree [97]).subdirs.length oneThread.maxthreads = 1 from rfl] at hlt
    omega

end Example

end Gufi
