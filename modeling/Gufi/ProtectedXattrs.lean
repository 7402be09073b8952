import Gufi.Topdown
import Gufi.XattrReaders

/-!
# Rollups and protected xattrs

A user who can read a per-user or per-group database after a sequence of rollups could read a
database of the same name in the directory of each of its rows before. A rollup creates a missing
database in the parent through `copy_template`, whose mode lets the owner, the group and others
read, and no mode is set afterwards as it is while indexing. The property holds for the runs in
which the umask takes these permissions away or no database has to be created, and in which the
raw path of a copied database is the path that SQLite opens.
-/

namespace Gufi

open UnixAccess SqlTable Relation

section Origin

variable {nobody : Nobody} {ix₀ : Index}

/-- Where a row of a database may come from: a database of the same name in the tree. -/
def DirTree.Origin (ix₀ : Index) (t : DirTree) (f : Bytes) (row : XattrRow) : Prop :=
  ∃ d ∈ t.subtrees, ∃ x, (ix₀ d.path).xattrDbs f = some x ∧ row ∈ x.avail

theorem DirTree.Origin.of_mem_subtrees {s t : DirTree} {f : Bytes} {row : XattrRow}
    (h : s.Origin ix₀ f row) (hs : s ∈ t.subtrees) : t.Origin ix₀ f row := by
  obtain ⟨d, hd, hx⟩ := h
  exact ⟨d, DirTree.subtrees_subset_of_mem hs hd, hx⟩

/-- An index whose per-user and per-group databases were created by `create_xattr_db`. -/
structure XattrsCreated (nobody : Nobody) (ix : Index) (root : DirTree) : Prop where
  files : ∀ t ∈ root.subtrees, ∀ f x, (ix t.path).xattrDbs f = some x → Created nobody f x.perms
  listed : ∀ t ∈ root.subtrees, ∀ db, (ix t.path).db = some db → db.ListsCreated nobody

/-- Every directory of the tree is protected, with rows from the index below it. -/
def Index.Protected (nobody : Nobody) (root : DirTree) (ix ix₀ : Index) : Prop :=
  ∀ t ∈ root.subtrees, (ix t.path).Protected nobody (t.Origin ix₀) ∅

theorem XattrsCreated.protected {root : DirTree} (h : XattrsCreated nobody ix₀ root) :
    ix₀.Protected nobody root ix₀ := by
  intro t ht
  exact ⟨fun f x hx u hu => (h.files t ht f x hx).can_iff.mp hu,
    fun f x hx row hrow => ⟨t, t.self_mem_subtrees, x, hx, hrow⟩, h.listed t ht,
    fun f hf => hf.elim⟩

variable {root : DirTree} {ix : Index} {t : DirTree}

theorem Index.Protected.update (h : ix.Protected nobody root ix₀) (hroot : root.WellFormed)
    (ht : t ∈ root.subtrees) {own : Dir} (hown : own.Protected nobody (t.Origin ix₀) ∅) :
    Index.Protected nobody root (Function.update ix t.path own) ix₀ := by
  intro u hu
  by_cases hp : u.path = t.path
  · obtain rfl := hroot.eq_of_path_eq hu ht hp
    rw [Function.update_self]
    exact hown
  · rw [Function.update_of_ne hp]
    exact h u hu

/-- What a rollup opens for a database of a directory below is that database, so its rows come
from below. -/
theorem Index.Protected.copyable (h : ix.Protected nobody root ix₀) (ht : t ∈ root.subtrees)
    {c : DirTree} (hc : c ∈ t.subtrees) {K : Set Bytes} {umask : ℕ} {row : ExternalDb}
    (hrow : Created nobody row.filename row.perms) (hclean : UriClean c.path)
    (hmask : row.filename ∈ K ∨ Masked umask row.perms) :
    Copyable nobody (t.Origin ix₀) K umask (ix.attachXattr t.path) c.path row where
  created := hrow
  masked := hmask
  attached := by
    intro d hd x hx y hy
    have hplain := hrow.xattrFilename.plain
    rw [Index.attachXattr, hclean, hplain.2, xattrDbAt_append _ _ hplain.1] at hx
    by_cases hp : c.path = t.path
    · rw [hp, Function.update_self] at hx
      exact hd.rows row.filename x hx y hy
    · rw [Function.update_of_ne hp] at hx
      have hcroot := DirTree.subtrees_subset_of_mem ht hc
      exact ((h c hcroot).rows row.filename x hx y hy).of_mem_subtrees hc

end Origin

section BottomUp

/-- The databases that the next ascents have to create are masked, and the raw paths of those they
copy are read as they are. -/
def RunState.CopiesProtected (cfg : Config) (root : DirTree) (s : RunState) : Prop :=
  ∀ l t, (l, t) ∈ root.levels 0 → s.ascended t.path = false →
    (∀ c ∈ t.subdirs, s.ascended c.path = true) → cfg.minLevel ≤ l →
    ∀ flt db, (s.ix t.path).db = some db →
      0 < shouldRollup cfg l { db with treesummary := some [] } (s.children flt t) →
      ∀ c ∈ t.subdirs, ∀ sub, (s.ix c.path).db = some sub → ∀ row ∈ sub.externalXattrs,
        UriClean c.path ∧
          ((s.ix t.path).content.hasFile row.filename = true ∨ Masked cfg.umask row.perms)

variable {ts : TreeSummaryCode} {cfg : Config} {F : DirFaults → Prop} {root sub : DirTree}
  {nobody : Nobody} {ix₀ ix : Index} {s s' : RunState}

theorem RollupStep.protected (hroot : root.WellFormed) (hsub : sub ∈ root.subtrees)
    (h : s.ix.Protected nobody root ix₀) (hcopies : s.CopiesProtected cfg sub)
    (hstep : RollupStep ts cfg F sub s s') : s'.ix.Protected nobody root ix₀ := by
  cases hstep with
  | @ascend l t flt ht hnew hdone hflt =>
      have htroot : t ∈ root.subtrees :=
        DirTree.subtrees_subset_of_mem hsub (DirTree.mem_subtrees_of_mem_levels ht)
      refine h.update hroot htroot ?_
      unfold RunState.ascendResult
      split_ifs with hlevel
      · exact h t htroot
      · refine (h t htroot).rollupAscend ts cfg l t.path fun db hdb hpos ch hch db' hdb' => ?_
        obtain ⟨i, c, hc, rfl⟩ := RunState.mem_children.mp hch
        have hcmem := List.mem_of_getElem? hc
        have hctree := DirTree.subdir_mem_subtrees t.self_mem_subtrees hcmem
        have hlists := (h c (DirTree.subtrees_subset_of_mem htroot hctree)).listed db' hdb'
        refine ⟨hlists, fun row hrow => ?_⟩
        obtain ⟨hclean, hmask⟩ := hcopies l t ht hnew hdone (not_lt.mp hlevel) flt db hdb hpos c
          hcmem db' hdb' row hrow
        exact h.copyable htroot hctree (hlists row hrow) hclean hmask

end BottomUp

section TopDown

variable {nobody : Nobody}

/-- The databases that the running tasks copy next are masked or present, and their raw paths are
read as they are. -/
def TopdownState.CopiesProtected (cfg : TopdownConfig) (root : DirTree) (s : TopdownState) : Prop :=
  ∀ top ∈ root.subtrees, ∀ copy, s.copies top.path = some copy →
    ∀ i dir row rows, copy.running i = some (dir, row :: rows) →
      UriClean dir.path ∧
        ((s.ix top.path).hasFile row.filename = true ∨ Masked cfg.umask row.perms)

/-- The tasks of a target are for directories below it, and what they and the staging databases
list was created by `create_xattr_db`. -/
structure Copy.Protected (nobody : Nobody) (top : DirTree) (copy : Copy) : Prop where
  waiting : ∀ i, ∀ dir ∈ copy.waiting i, dir ∈ top.subtrees
  running : ∀ i dir rows, copy.running i = some (dir, rows) →
    dir ∈ top.subtrees ∧ ∀ row ∈ rows, Created nobody row.filename row.perms
  staging : ∀ i db, copy.staging i = some db → db.ListsCreated nobody

structure TopdownState.Protected (nobody : Nobody) (root : DirTree) (s : TopdownState)
    (ix₀ : Index) : Prop where
  index : s.ix.Protected nobody root ix₀
  copies : ∀ top ∈ root.subtrees, ∀ copy, s.copies top.path = some copy →
    copy.Protected nobody top

section Tasks

variable {top dir : DirTree} {copy : Copy}

theorem Copy.Protected.run (h : copy.Protected nobody top) (i : ℕ) {rows : List ExternalDb}
    (hdir : dir ∈ top.subtrees) (hrows : ∀ row ∈ rows, Created nobody row.filename row.perms) :
    Copy.Protected nobody top
      { copy with running := Function.update copy.running i (some (dir, rows)) } where
  waiting := h.waiting
  running := by
    intro j dir' rows' hj
    by_cases hji : j = i
    · subst hji
      simp only [Function.update_self, Option.some.injEq, Prod.mk.injEq] at hj
      obtain ⟨rfl, rfl⟩ := hj
      exact ⟨hdir, hrows⟩
    · simp only [Function.update_of_ne hji] at hj
      exact h.running j dir' rows' hj
  staging := h.staging

theorem Copy.Protected.stage (h : copy.Protected nobody top) (i : ℕ) {db : Db}
    (hdb : db.ListsCreated nobody) :
    Copy.Protected nobody top
      { copy with staging := Function.update copy.staging i (some db) } where
  waiting := h.waiting
  running := h.running
  staging := by
    intro j db' hj
    by_cases hji : j = i
    · subst hji
      simp only [Function.update_self, Option.some.injEq] at hj
      rwa [← hj]
    · simp only [Function.update_of_ne hji] at hj
      exact h.staging j db' hj

theorem Copy.protected_skipped : Copy.skipped.Protected nobody top :=
  ⟨fun _ _ h => (by cases h), fun _ _ _ h => (by cases h), fun _ _ h => (by cases h)⟩

theorem Copy.protected_enqueue {dirs : List DirTree} (hdirs : ∀ dir ∈ dirs, dir ∈ top.subtrees)
    (flt : DirFaults) (maxthreads : ℕ) :
    (Copy.enqueue flt maxthreads top dirs).Protected nobody top where
  waiting := by
    intro i dir hdir
    obtain ⟨x, hx, rfl⟩ := List.mem_map.mp hdir
    exact hdirs x.1 (List.fst_mem_of_mem_zipIdx (List.mem_filter.mp hx).1)
  running := fun _ _ _ h => by cases h
  staging := by
    intro i db hdb row hrow
    simp only [Copy.enqueue] at hdb
    split_ifs at hdb
    obtain rfl := Option.some.inj hdb
    cases hrow

end Tasks

section Tables

theorem Dir.Protected.topdownInit {own : Dir} {O : Bytes → XattrRow → Prop}
    (h : own.Protected nobody O ∅) : (topdownInit own).1.Protected nobody O ∅ := by
  unfold Gufi.topdownInit
  cases hdb : own.db with
  | none => exact h
  | some db =>
      simp only
      split_ifs
      · exact h.rollupInit.weaken (fun _ _ h => h) (Set.empty_subset _)
      · exact h.setDb (h.listed db hdb)

theorem Db.ListsCreated.mergeStaging {db src : Db} (hdb : db.ListsCreated nobody)
    (hsrc : src.ListsCreated nobody) (flt : ChildFaults) :
    (mergeStaging flt src db).1.ListsCreated nobody := by
  have hmerge {a : Db} (ha : a.ListsCreated nobody) :
      (mergeExternalDbs flt src a).1.ListsCreated nobody := by
    unfold mergeExternalDbs insertUnique
    split
    case h_2 => exact ha
    case h_1 rows _ hrows =>
      split_ifs at hrows
      obtain rfl := Option.some.inj hrows
      intro row hrow
      obtain ⟨hpwd | hroll, htype⟩ := mem_externalXattrs.mp hrow
      · exact ha row (mem_externalXattrs.mpr ⟨Or.inl hpwd, htype⟩)
      · rcases List.mem_append.mp hroll with hold | hnew
        · exact ha row (mem_externalXattrs.mpr ⟨Or.inr hold, htype⟩)
        · exact hsrc row (List.mem_filter.mpr ⟨hnew, by simpa using htype⟩)
  unfold Gufi.mergeStaging
  refine thenIfOk_induct (P := Db.ListsCreated nobody) hdb fun _ a ha => ?_
  refine thenIfOk_induct (P := Db.ListsCreated nobody) ha fun _ b hb => ?_
  exact thenIfOk_induct (P := Db.ListsCreated nobody) hb fun _ c hc => hmerge hc

theorem Db.ListsCreated.rollupMerge {db : Db} (hdb : db.ListsCreated nobody)
    {staging : ℕ → Option Db} (hstaging : ∀ i src, staging i = some src → src.ListsCreated nobody)
    (flt : DirFaults) (threadsUsed : ℕ) :
    (rollupMerge flt staging threadsUsed db).1.ListsCreated nobody := by
  have hround (res : Db × Bool) (i : ℕ) (hres : res.1.ListsCreated nobody) :
      (mergeRound flt staging res i).1.ListsCreated nobody := by
    unfold mergeRound
    cases hi : staging i with
    | none => exact hres
    | some src =>
        simp only
        split_ifs
        · exact hres
        · exact hres.mergeStaging (hstaging i src hi) (flt i)
  unfold Gufi.rollupMerge
  refine List.foldlRecOn (motive := fun res : Db × Bool => res.1.ListsCreated nobody) _ _ hdb
    fun res hres i _ => hround res i hres

end Tables

namespace TopdownState

variable {root top : DirTree} {s : TopdownState} {ix₀ : Index} {copy : Copy}

theorem Protected.set (h : s.Protected nobody root ix₀) (hroot : root.WellFormed)
    (htop : top ∈ root.subtrees) {own : Dir} (hown : own.Protected nobody (top.Origin ix₀) ∅)
    (hcopy : copy.Protected nobody top) (ok : Bool) :
    (s.set top own copy ok).Protected nobody root ix₀ where
  index := h.index.update hroot htop hown
  copies := by
    intro top' htop' copy' hcopy'
    by_cases hp : top'.path = top.path
    · obtain rfl := hroot.eq_of_path_eq htop' htop hp
      simp only [TopdownState.set, Function.update_self, Option.some.injEq] at hcopy'
      rwa [← hcopy']
    · simp only [TopdownState.set, Function.update_of_ne hp] at hcopy'
      exact h.copies top' htop' copy' hcopy'

theorem Protected.init {ix : Index} (h : ix.Protected nobody root ix₀) :
    (TopdownState.init ix).Protected nobody root ix₀ :=
  ⟨h, fun _ _ _ hcopy => by cases hcopy⟩

section Step

variable (h : s.Protected nobody root ix₀) (hroot : root.WellFormed) (htop : top ∈ root.subtrees)
  (hcopy : copy.Protected nobody top)
include h hroot htop hcopy

theorem Protected.setTdb (i : ℕ) {db : Db} (hdb : db.ListsCreated nobody) {dir : DirTree}
    (hdir : dir ∈ top.subtrees) {rows : List ExternalDb}
    (hrows : ∀ row ∈ rows, Created nobody row.filename row.perms) (ok : Bool) :
    (s.setTdb top copy i db dir rows ok).Protected nobody root ix₀ := by
  have hrun := hcopy.run i hdir hrows
  have htarget := h.index top htop
  unfold TopdownState.setTdb
  by_cases hi : i = 0
  · rw [if_pos hi]
    exact h.set hroot htop (htarget.setDb hdb) hrun ok
  · rw [if_neg hi]
    exact h.set hroot htop htarget (hrun.stage i hdb) ok

theorem Protected.copyToTop (flt : ChildFaults) (i : ℕ) {dir : DirTree}
    (hdir : dir ∈ top.subtrees) : (s.copyToTop top flt copy i dir).Protected nobody root ix₀ := by
  have htarget := h.index top htop
  have hfail : (s.set top (s.ix top.path)
      { copy with running := Function.update copy.running i (some (dir, [])) } false).Protected
      nobody root ix₀ :=
    h.set hroot htop htarget (hcopy.run i hdir fun row hrow => by cases hrow) false
  unfold TopdownState.copyToTop
  rw [attachDb_sqliteUriPath]
  cases htdb : s.tdb top copy i with
  | none => exact hfail
  | some db =>
      cases hsub : (s.ix dir.path).db with
      | none => exact hfail
      | some sub =>
          cases flt.attach with
          | true => exact hfail
          | false =>
              have hlists :=
                (h.index dir (DirTree.subtrees_subset_of_mem htop hdir)).listed sub hsub
              have hdb : db.ListsCreated nobody := by
                unfold TopdownState.tdb at htdb
                split_ifs at htdb
                · exact htarget.listed db htdb
                · exact hcopy.staging i db htdb
              refine h.setTdb hroot htop hcopy i (hdb.rollupOneSubdir hlists flt _) hdir ?_ _
              intro row hrow
              split_ifs at hrow
              · exact hlists row hrow
              · cases hrow

theorem Protected.copyExternal (cfg : TopdownConfig) (flt : Option ExternalFault) (i : ℕ)
    {dir : DirTree} {row : ExternalDb} {rows : List ExternalDb} (hdir : dir ∈ top.subtrees)
    (hrows : ∀ x ∈ row :: rows, Created nobody x.filename x.perms) (hclean : UriClean dir.path)
    (hmask : (s.ix top.path).hasFile row.filename = true ∨ Masked cfg.umask row.perms) :
    (s.copyExternal top cfg flt copy i dir row rows).Protected nobody root ix₀ := by
  have htarget : (s.ix top.path).Protected nobody (top.Origin ix₀)
      {f | (s.ix top.path).hasFile f = true} :=
    ⟨(h.index top htop).readers, (h.index top htop).rows, (h.index top htop).listed,
      fun _ hf => hf⟩
  have hcopyable := h.index.copyable (K := {f | (s.ix top.path).hasFile f = true}) htop hdir
    (hrows row (List.mem_cons_self ..)) hclean hmask
  have hown := htarget.rollupExternalXattrs flt hcopyable
  refine h.set hroot htop (hown.weaken (fun _ _ h => h) (Set.empty_subset _))
    (hcopy.run i hdir fun x hx => ?_) _
  split_ifs at hx
  · exact hrows x (List.mem_cons_of_mem row hx)
  · cases hx

theorem Protected.endCopy (i : ℕ) : (s.endCopy top copy i).Protected nobody root ix₀ := by
  refine h.set hroot htop (h.index top htop) ?_ true
  refine ⟨hcopy.waiting, fun j dir rows hj => ?_, hcopy.staging⟩
  by_cases hji : j = i
  · simp [hji] at hj
  · simp only [Function.update_of_ne hji] at hj
    exact hcopy.running j dir rows hj

theorem Protected.merge (flt : DirFaults) : (s.merge top flt copy).Protected nobody root ix₀ := by
  have hmerged : Copy.Protected nobody top { copy with merged := true } :=
    ⟨hcopy.waiting, hcopy.running, hcopy.staging⟩
  have htarget := h.index top htop
  unfold TopdownState.merge
  cases hdb : (s.ix top.path).db with
  | none => exact h.set hroot htop htarget hmerged false
  | some db =>
      have htables := (htarget.listed db hdb).rollupMerge hcopy.staging flt copy.threadsUsed
      exact h.set hroot htop (htarget.setDb htables) hmerged _

end Step

end TopdownState

theorem TopdownStep.protected {cfg : TopdownConfig} {F : ChildFaults → Prop} {root sub : DirTree}
    {ix₀ ix : Index} {s s' : TopdownState} (hroot : root.WellFormed) (hsub : sub ∈ root.subtrees)
    (h : s.Protected nobody root ix₀) (hcopies : s.CopiesProtected cfg sub)
    (hstep : TopdownStep cfg F sub ix s s') : s'.Protected nobody root ix₀ := by
  have htopsub {top : DirTree} (htop : top ∈ sub.tops cfg ix 0) : top ∈ sub.subtrees :=
    DirTree.mem_subtrees_of_mem_tops htop
  have htoproot {top : DirTree} (htop : top ∈ sub.tops cfg ix 0) : top ∈ root.subtrees :=
    DirTree.subtrees_subset_of_mem hsub (htopsub htop)
  cases hstep with
  | @enqueue top dirs flt htop hnew hdirs hflt =>
      have hinit := (h.index top (htoproot htop)).topdownInit
      simp only [TopdownState.enqueueRollupCopy]
      split_ifs
      · exact h.set hroot (htoproot htop) hinit (Copy.protected_enqueue
          (fun dir hdir => hdirs.subset (List.mem_cons_of_mem top hdir)) flt cfg.maxthreads) true
      · exact h.set hroot (htoproot htop) hinit Copy.protected_skipped false
  | @copy top dir copy i before after flt htop hcopy hidle hwaiting hquote hflt =>
      have hprot := h.copies top (htoproot htop) copy hcopy
      have hdir : dir ∈ top.subtrees := hprot.waiting i dir (by simp [hwaiting])
      refine h.copyToTop hroot (htoproot htop) ?_ flt i hdir
      refine ⟨fun j x hx => ?_, hprot.running, hprot.staging⟩
      by_cases hji : j = i
      · subst hji
        simp only [Function.update_self, List.mem_append] at hx
        refine hprot.waiting j x ?_
        rw [hwaiting, List.mem_append, List.mem_cons]
        tauto
      · simp only [Function.update_of_ne hji] at hx
        exact hprot.waiting j x hx
  | @external top dir copy i k row rows flt htop hcopy hrunning hflt =>
      have hprot := h.copies top (htoproot htop) copy hcopy
      obtain ⟨hdir, hrows⟩ := hprot.running i dir _ hrunning
      obtain ⟨hclean, hmask⟩ := hcopies top (htopsub htop) copy hcopy i dir row rows hrunning
      exact h.copyExternal hroot (htoproot htop) hprot cfg _ i hdir hrows hclean hmask
  | @endCopy top dir copy i htop hcopy hrunning =>
      exact h.endCopy hroot (htoproot htop) (h.copies top (htoproot htop) copy hcopy) i
  | @merge top copy flt htop hcopy hremaining hmerged hflt =>
      exact h.merge hroot (htoproot htop) (h.copies top (htoproot htop) copy hcopy) flt

end TopDown

section Main

/-- The index before and after a run of gufi_rollup or gufi_rollup_topdown on a directory of the
tree, be it finished or not, whose steps are taken in states that meet the conditions. -/
inductive Rollup (P : Config → DirTree → RunState → Prop)
    (Q : TopdownConfig → DirTree → TopdownState → Prop) (root : DirTree) : Index → Index → Prop
  | bottomup {ts : TreeSummaryCode} {cfg : Config} {F : DirFaults → Prop} {sub : DirTree}
      {ix : Index} {s : RunState} (hsub : sub ∈ root.subtrees)
      (h : ReflTransGen (fun s s' => P cfg sub s ∧ RollupStep ts cfg F sub s s')
        (RunState.init ix) s) : Rollup P Q root ix s.ix
  | topdown {cfg : TopdownConfig} {F : ChildFaults → Prop} {sub : DirTree} {ix : Index}
      {s : TopdownState} (hsub : sub ∈ root.subtrees)
      (h : ReflTransGen (fun s s' => Q cfg sub s ∧ TopdownStep cfg F sub ix s s')
        (TopdownState.init ix) s) : Rollup P Q root ix s.ix

/-- Rollups whose copies are masked. -/
abbrev ProtectedRollup : DirTree → Index → Index → Prop :=
  Rollup RunState.CopiesProtected TopdownState.CopiesProtected

variable {nobody : Nobody} {root : DirTree} {ix₀ ix ix' : Index}

theorem ProtectedRollup.protected (hroot : root.WellFormed) (h : ix.Protected nobody root ix₀)
    (hrollup : ProtectedRollup root ix ix') : ix'.Protected nobody root ix₀ := by
  cases hrollup with
  | bottomup hsub hrun =>
      induction hrun with
      | refl => exact h
      | tail _ hstep ih => exact hstep.2.protected hroot hsub ih hstep.1
  | @topdown cfg F sub ix s hsub hrun =>
      have hstate : s.Protected nobody root ix₀ := by
        induction hrun with
        | refl => exact TopdownState.Protected.init h
        | tail _ hstep ih => exact hstep.2.protected hroot hsub ih hstep.1
      exact hstate.index

theorem protected_of_rollups (hroot : root.WellFormed) (hcreated : XattrsCreated nobody ix₀ root)
    (h : ReflTransGen (ProtectedRollup root) ix₀ ix) : ix.Protected nobody root ix₀ := by
  induction h with
  | refl => exact hcreated.protected
  | tail _ hrollup ih => exact hrollup.protected hroot ih

/-- Whoever can read a database after the rollups could read the databases that its rows were in,
and can read a database of that name as it is created. -/
theorem rollups_keep_protected (hroot : root.WellFormed) (hcreated : XattrsCreated nobody ix₀ root)
    (h : ReflTransGen (ProtectedRollup root) ix₀ ix) {t : DirTree} (ht : t ∈ root.subtrees)
    {f : Bytes} {x : XattrDb} (hx : (ix t.path).xattrDbs f = some x) {u : User}
    (hu : u.Can r x.perms) :
    (∀ row ∈ x.avail, ∃ d ∈ t.subtrees, ∃ x₀, (ix₀ d.path).xattrDbs f = some x₀ ∧
      row ∈ x₀.avail ∧ u.Can r x₀.perms) ∧ ∀ p, Created nobody f p → u.Can r p := by
  have hprot := protected_of_rollups hroot hcreated h t ht
  have hreader := hprot.readers f x hx u hu
  constructor
  · intro row hrow
    obtain ⟨d, hd, x₀, hx₀, hrow₀⟩ := hprot.rows f x hx row hrow
    have hfile := hcreated.files d (DirTree.subtrees_subset_of_mem ht hd) f x₀ hx₀
    exact ⟨d, hd, x₀, hx₀, hrow₀, hfile.can_iff.mpr hreader⟩
  · intro p hp
    exact hp.can_iff.mpr hreader

end Main

section Example

theorem created_uid5 : Created ⟨65534, 65534⟩ uid5 ⟨0o600, 5, 65534⟩ :=
  ⟨0, 5, 65534, 0, _, rfl, by simp [uid5, xattrUidFilename, decimal], rfl⟩

theorem xattrsCreated_uid5Index (root : DirTree) :
    XattrsCreated ⟨65534, 65534⟩ uid5Index root where
  files := by
    intro t _ f x hx
    by_cases hp : t.path = [47, 114]
    · simp [uid5Index, hp] at hx
    · simp only [uid5Index, if_neg hp] at hx
      split_ifs at hx with hf
      rw [hf, ← Option.some.inj hx]
      exact created_uid5
  listed := by
    intro t _ db hdb row hrow
    by_cases hp : t.path = [47, 114]
    · simp only [uid5Index, if_pos hp, Option.some.injEq] at hdb
      rw [← hdb] at hrow
      cases hrow
    · simp only [uid5Index, if_neg hp, Option.some.injEq] at hdb
      rw [← hdb] at hrow
      obtain ⟨hpwd | hnil, -⟩ := mem_externalXattrs.mp hrow
      · rw [List.mem_singleton.mp hpwd]
        exact created_uid5
      · cases hnil

/-- Under the umask 022 the copy of `uid.5.db` in the parent can be read by user 6. -/
theorem not_rollups_keep_protected :
    ¬∀ (nobody : Nobody) (root : DirTree) (ix₀ ix : Index), root.WellFormed →
      XattrsCreated nobody ix₀ root →
      ReflTransGen (Rollup (fun _ _ _ => True) (fun _ _ _ => True) root) ix₀ ix →
      ∀ t ∈ root.subtrees, ∀ f x, (ix t.path).xattrDbs f = some x → ∀ u : User, u.Can r x.perms →
        ∀ row ∈ x.avail, ∃ d ∈ t.subtrees, ∃ x₀, (ix₀ d.path).xattrDbs f = some x₀ ∧
          row ∈ x₀.avail ∧ u.Can r x₀.perms := by
  intro h
  have hroot : (pairTree [97]).WellFormed := wellFormed_pairTree (by decide)
  have hcreated := xattrsCreated_uid5Index (pairTree [97])
  obtain ⟨hrun, -⟩ := sequentialRun_spec noTreesummary ⟨0, 0, 0o022⟩ hroot uid5Index
  have hrollup := Rollup.bottomup (P := fun _ _ _ => True) (Q := fun _ _ _ => True)
    (DirTree.self_mem_subtrees _) (hrun.lift id fun _ _ hstep => ⟨trivial, hstep⟩)
  have hfile : ((sequentialRun noTreesummary ⟨0, 0, 0o022⟩ (pairTree [97]) uid5Index).ix
      [47, 114]).xattrDbs uid5 = some ⟨⟨0o644, 5, 65534⟩, [], [⟨4, [117], [118]⟩]⟩ := by decide
  obtain ⟨d, hd, x₀, hx₀, -, hu⟩ := h ⟨65534, 65534⟩ _ _ _ hroot hcreated
    (ReflTransGen.single hrollup) _ (DirTree.self_mem_subtrees _) uid5 _ hfile ⟨6, ∅⟩ (by decide)
    ⟨4, [117], [118]⟩ (by decide)
  have hreader := (hcreated.files d hd uid5 x₀ hx₀).can_iff.mp hu
  exact absurd (created_uid5.can_iff.mpr hreader) (by decide)

/-- Only the ascent of `/r` copies anything. -/
theorem copiesProtected_pairTree {s : RunState}
    (hmask : s.ascended [47, 114, 47, 97] = true → ∀ sub, (s.ix [47, 114, 47, 97]).db = some sub →
      ∀ row ∈ sub.externalXattrs, Masked 0o077 row.perms) :
    s.CopiesProtected ⟨0, 0, 0o077⟩ (pairTree [97]) := by
  intro l t ht _ hdone _ flt db _ _ c hc sub hsub row hrow
  rcases mem_subtrees_pairTree.mp (DirTree.mem_subtrees_of_mem_levels ht) with rfl | rfl
  · obtain rfl := List.mem_singleton.mp hc
    have hclean : UriClean [47, 114, 47, 97] := uriClean_of_plain (forall_mem_of_all (by decide))
    exact ⟨hclean, Or.inr (hmask (hdone _ hc) sub hsub row hrow)⟩
  · cases hc

/-- Under the umask 077 the copy in `/r` is read by user 5, as is the database its row was in. -/
theorem rollups_keep_protected_pairTree :
    ∃ d ∈ (pairTree [97]).subtrees, ∃ x₀, (uid5Index d.path).xattrDbs uid5 = some x₀ ∧
      (⟨4, [117], [118]⟩ : XattrRow) ∈ x₀.avail ∧ User.Can ⟨5, ∅⟩ r x₀.perms := by
  let leaf : DirTree := .node [47, 114, 47, 97] []
  let step (l : ℕ) (t : DirTree) (s : RunState) : RunState :=
    s.ascend noTreesummary ⟨0, 0, 0o077⟩ (fun _ => {}) l t
  let s₁ := step 1 leaf (RunState.init uid5Index)
  have hstep₁ : RollupStep noTreesummary ⟨0, 0, 0o077⟩ NoFaults (pairTree [97])
      (RunState.init uid5Index) s₁ :=
    RollupStep.ascend (List.mem_cons_of_mem _ (List.mem_cons_self ..)) rfl (by rintro c ⟨⟩) rfl
  have hstep₂ : RollupStep noTreesummary ⟨0, 0, 0o077⟩ NoFaults (pairTree [97]) s₁
      (step 0 (pairTree [97]) s₁) := by
    refine RollupStep.ascend (List.mem_cons_self ..) rfl (fun c hc => ?_) rfl
    obtain rfl := List.mem_singleton.mp hc
    rfl
  have hlists : (s₁.ix [47, 114, 47, 97]).db.map Db.externalXattrs =
      some [⟨.xattrs, 4, uid5, ⟨0o600, 5, 65534⟩⟩] := by decide
  have hmask₁ : s₁.CopiesProtected ⟨0, 0, 0o077⟩ (pairTree [97]) := by
    apply copiesProtected_pairTree
    intro _ sub hsub row hrow
    rw [hsub, Option.map_some, Option.some.injEq] at hlists
    rw [hlists] at hrow
    rw [List.mem_singleton.mp hrow]
    decide
  have hmask₀ : (RunState.init uid5Index).CopiesProtected ⟨0, 0, 0o077⟩ (pairTree [97]) :=
    copiesProtected_pairTree fun h => absurd h Bool.false_ne_true
  have hrun : ReflTransGen (fun s s' => s.CopiesProtected ⟨0, 0, 0o077⟩ (pairTree [97]) ∧
      RollupStep noTreesummary ⟨0, 0, 0o077⟩ NoFaults (pairTree [97]) s s')
      (RunState.init uid5Index) (step 0 (pairTree [97]) s₁) :=
    (ReflTransGen.single ⟨hmask₀, hstep₁⟩).tail ⟨hmask₁, hstep₂⟩
  have hfile : ((step 0 (pairTree [97]) s₁).ix [47, 114]).xattrDbs uid5 =
      some ⟨⟨0o600, 5, 65534⟩, [], [⟨4, [117], [118]⟩]⟩ := by decide
  exact (rollups_keep_protected (wellFormed_pairTree (by decide)) (xattrsCreated_uid5Index _)
    (ReflTransGen.single (Rollup.bottomup (DirTree.self_mem_subtrees _) hrun))
    (DirTree.self_mem_subtrees _) hfile (by decide)).1 _ (by decide)

end Example

end Gufi
