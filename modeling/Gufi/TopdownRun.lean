import Gufi.StagingMerge

/-!
# One target of a gufi_rollup_topdown run

The tasks of a target of which all subdirectories are leaves, on a file system where everything
succeeds. `Copying` accounts for what the tasks have copied: each staging database has the tables
of the directories its tasks are done with, and each external database of such a directory is in
the target or still to be copied. No statement fails, and the merge of the last task gathers the
tables of all subdirectories in the target.
-/

namespace Gufi

open SqlTable Relation

section Tops

variable {cfg : TopdownConfig} {ix : Index}

/-- No two targets have a directory in common. -/
theorem DirTree.tops_disjoint {t : DirTree} (ht : t.WellFormed) {l : ℕ} {a b u : DirTree}
    (ha : a ∈ t.tops cfg ix l) (hb : b ∈ t.tops cfg ix l) (hua : u ∈ a.subtrees)
    (hub : u ∈ b.subtrees) : a = b := by
  induction t using DirTree.induct generalizing l with
  | node p cs ih =>
      rw [tops] at ha hb
      split at ha
      · next htop =>
          rw [htop] at hb
          rw [List.mem_singleton.mp ha, List.mem_singleton.mp hb]
      · next htop =>
          rw [htop] at hb
          rw [topsList_eq] at ha hb
          obtain ⟨c, hc, ha⟩ := List.mem_flatMap.mp ha
          obtain ⟨c', hc', hb⟩ := List.mem_flatMap.mp hb
          have huc := subtrees_subset_of_mem (mem_subtrees_of_mem_tops ha) hua
          have huc' := subtrees_subset_of_mem (mem_subtrees_of_mem_tops hb) hub
          have hcc : c = c' := by
            by_contra hne
            have hnodup := ht.nodup
            rw [paths, subtrees_eq, List.map_cons, List.nodup_cons, List.map_flatMap] at hnodup
            have hsymm : Std.Symm (Function.onFun List.Disjoint fun c : DirTree =>
                c.subtrees.map path) :=
              ⟨fun _ _ h => h.symm⟩
            have hdisj := (List.nodup_flatMap.mp hnodup.2).2.forall hc hc' hne
            exact hdisj (List.mem_map_of_mem huc) (List.mem_map_of_mem huc')
          subst hcc
          exact ih c hc (ht.subtree (subdir_mem_subtrees (self_mem_subtrees _) hc)) ha hb
      · cases ha

/-- The other targets are not below a target. -/
theorem DirTree.path_ne_of_tops {root : DirTree} (hroot : root.WellFormed) {l : ℕ}
    {top top' u : DirTree} (htop : top ∈ root.tops cfg ix l) (htop' : top' ∈ root.tops cfg ix l)
    (hne : top'.path ≠ top.path) (hu : u ∈ top.subtrees) : u.path ≠ top'.path := by
  intro hp
  have huroot := subtrees_subset_of_mem (mem_subtrees_of_mem_tops htop) hu
  obtain rfl := hroot.eq_of_path_eq huroot (mem_subtrees_of_mem_tops htop') hp
  exact hne (congrArg path (tops_disjoint hroot htop' htop (self_mem_subtrees _) hu))

end Tops

/-- The tables of a subdirectory at the start of the run. -/
def childDb (ix : Index) (c : DirTree) : Db :=
  (ix c.path).db.getD default

/-- A target whose subdirectories are leaves, all of which can be copied. -/
structure CopyReady (cfg : TopdownConfig) (ix : Index) (top : DirTree) : Prop where
  wellFormed : top.WellFormed
  threads : 0 < cfg.maxthreads
  leaves : ∀ c ∈ top.subdirs, c.subdirs = []
  target : ∃ db, (ix top.path).db = some db ∧ db.rolledXattrDbs = [] ∧
    (top.subdirs ≠ [] → db.treesummary.isSome = true)
  children : ∀ c ∈ top.subdirs, (ix c.path).db = some (childDb ix c) ∧
    (childDb ix c).treesummary ≠ none ∧ ∀ s ∈ (childDb ix c).summary, s.name = c.name
  files : ∀ c ∈ top.subdirs, ∀ row ∈ (childDb ix c).externalXattrs,
    PlainFilename row.filename ∧ UriClean c.path ∧ (ix c.path).hasFile row.filename = true
  distinct : (tableRows (top.subdirs.map (childDb ix))).Distinct
  names : ∀ c ∈ top.subdirs, ∀ k, 0 < k → k < min top.subdirs.length cfg.maxthreads →
    c.name ≠ stagingName k

section Copying

variable (cfg : TopdownConfig) (ix : Index) (top : DirTree)

/-- What a staging database starts with. -/
def stagingBase (k : ℕ) : Db :=
  if k = 0 then ((ix top.path).db.getD default).rollupCleanup true else stagingDb

/-- A staging database that the given directories were copied into. -/
def stagedDb (k : ℕ) (done : List DirTree) : Db :=
  (done.map (childDb ix)).foldl (Db.absorb (topdownName top.name)) (stagingBase ix top k)

/-- The rows copied for one external database of a subdirectory. -/
def copiedFile (c : DirTree) (row : ExternalDb) : Bytes × List XattrRow :=
  (row.filename, (ix c.path).availRows row.filename)

/-- A thread's share of the tasks that have not ended. -/
def Copy.unfinished (copy : Copy) (k : ℕ) : ℕ :=
  (copy.waiting k).length + if (copy.running k).isSome then 1 else 0

/-- The files of the target hold its own rows and those copied. -/
structure FilesCopied (own : Dir) (order : List (Bytes × List XattrRow)) : Prop where
  rollupRows : ∀ f, own.rollupRows f = (rollupInit (ix top.path)).rollupRows f ++
    Rows.forFile order f
  pwdRows : ∀ f, own.pwdRows f = (rollupInit (ix top.path)).pwdRows f
  copied : ∀ e ∈ order, ∃ c ∈ top.subdirs, ∃ row ∈ (childDb ix c).externalXattrs,
    e = copiedFile ix c row

/-- The state of a target between its enqueuing and its merge. Each thread is `done` with the
tables of some of the directories dealt to it. -/
structure Copying (dirs : List DirTree) (own : Dir) (copy : Copy) (done : ℕ → List DirTree)
    (order : List (Bytes × List XattrRow)) : Prop where
  threadsUsed : copy.threadsUsed = min dirs.length cfg.maxthreads
  nonempty : dirs ≠ []
  dealt : ∀ k, (done k ++ copy.waiting k).Perm (dealt dirs copy.threadsUsed k)
  target : own.db = some (stagedDb ix top 0 (done 0))
  staging : ∀ k, 0 < k → k < copy.threadsUsed →
    copy.staging k = some (stagedDb ix top k (done k))
  files : FilesCopied ix top own order
  pending : ∀ k, ∀ c ∈ done k, ∀ row ∈ (childDb ix c).externalXattrs,
    (∃ rows, copy.running k = some (c, rows) ∧ row ∈ rows) ∨ copiedFile ix c row ∈ order
  running : ∀ k c rows, copy.running k = some (c, rows) →
    c ∈ done k ∧ ∀ row ∈ rows, row ∈ (childDb ix c).externalXattrs
  remaining : copy.remaining = ∑ k ∈ Finset.range copy.threadsUsed, copy.unfinished k
  merged : copy.merged = false

/-- The state of a target after its merge. -/
structure Finished (own : Dir) (copy : Copy) : Prop where
  idle : ∀ k, copy.waiting k = [] ∧ copy.running k = none
  tables : ∃ db, own.db = some db ∧
    (stagingBase ix top 0).Gathers top.name db (top.subdirs.map (childDb ix))
  files : ∃ order, FilesCopied ix top own order ∧
    ∀ c ∈ top.subdirs, ∀ row ∈ (childDb ix c).externalXattrs, copiedFile ix c row ∈ order
  merged : copy.merged = true

end Copying

section Steps

variable {cfg : TopdownConfig} {ix : Index} {top : DirTree} {dirs : List DirTree} {own : Dir}
  {copy : Copy} {done : ℕ → List DirTree} {order : List (Bytes × List XattrRow)}

/-- What one thread's change does to the number of unfinished tasks. -/
theorem sum_unfinished_update {n i : ℕ} (hi : i < n) {f g : ℕ → ℕ} {m : ℕ}
    (hne : ∀ k, k ≠ i → g k = f k) (hgi : g i + m = f i) :
    ∑ k ∈ Finset.range n, g k + m = ∑ k ∈ Finset.range n, f k := by
  have hmem := Finset.mem_range.mpr hi
  have hrest : ∑ k ∈ (Finset.range n).erase i, g k = ∑ k ∈ (Finset.range n).erase i, f k :=
    Finset.sum_congr rfl fun k hk => hne k (Finset.ne_of_mem_erase hk)
  have hg := Finset.add_sum_erase _ g hmem
  have hf := Finset.add_sum_erase _ f hmem
  omega

theorem stagedDb_append (k : ℕ) (done : List DirTree) (c : DirTree) :
    stagedDb ix top k (done ++ [c]) =
      (stagedDb ix top k done).absorb (topdownName top.name) (childDb ix c) := by
  simp [stagedDb]

theorem stagedDb_treesummary (h : CopyReady cfg ix top) (hne : top.subdirs ≠ []) (k : ℕ)
    (done : List DirTree) : (stagedDb ix top k done).treesummary.isSome = true := by
  rw [stagedDb, (appends_foldl_absorb (topdownName top.name) _ _).treesummary, stagingBase]
  split_ifs
  · obtain ⟨db, hdb, -, hts⟩ := h.target
    rw [hdb]
    exact hts hne
  · rfl

/-- The copy of a subdirectory's tables absorbs them. -/
theorem rollupOneSubdir_child (h : CopyReady cfg ix top) {c : DirTree} (hc : c ∈ top.subdirs)
    {db : Db} (hts : db.treesummary.isSome = true) :
    rollupOneSubdir {} (fun _ _ => rolledupPath top c) (childDb ix c) db =
      (db.absorb (topdownName top.name) (childDb ix c), true) := by
  obtain ⟨-, hsub, hname⟩ := h.children c hc
  have hcongr : rollupOneSubdir {} (fun _ _ => rolledupPath top c) (childDb ix c) db =
      rollupOneSubdir {} (fun db s => topdownName top.name db.rootName s) (childDb ix c) db :=
    rollupOneSubdir_congr
      (fun _ s hs => by rw [rolledupPath_subdir h.wellFormed hc, topdownName, hname s hs]) {} db
  have hok := (appends_rollupOneSubdir {} (topdownName top.name) (childDb ix c) db).2
  have hcopied : (copiedRows {} db.treesummary.isSome (childDb ix c)).2 = true := by
    simp [copiedRows, hts, hsub]
  rw [hcopied] at hok
  rw [hcongr]
  exact Prod.ext (rollupOneSubdir_of_ok (topdownName top.name) hok) hok

namespace Copying

theorem threadsUsed_pos (h : Copying cfg ix top dirs own copy done order)
    (hready : CopyReady cfg ix top) : 0 < copy.threadsUsed := by
  rw [h.threadsUsed, lt_min_iff]
  exact ⟨List.length_pos_iff.mpr h.nonempty, hready.threads⟩

theorem mem_dirs (h : Copying cfg ix top dirs own copy done order) {k : ℕ} {c : DirTree}
    (hc : c ∈ done k ∨ c ∈ copy.waiting k) : c ∈ dirs := by
  have hmem := (h.dealt k).subset (List.mem_append.mpr hc)
  obtain ⟨x, hx, rfl⟩ := List.mem_map.mp hmem
  exact List.fst_mem_of_mem_zipIdx (List.mem_filter.mp hx).1

theorem lt_threadsUsed (h : Copying cfg ix top dirs own copy done order)
    (hready : CopyReady cfg ix top) {k : ℕ} {c : DirTree} (hc : c ∈ done k ∨ c ∈ copy.waiting k) :
    k < copy.threadsUsed := by
  by_contra hk
  have hmem := (h.dealt k).subset (List.mem_append.mpr hc)
  rw [dealt_eq_nil (h.threadsUsed_pos hready) (not_lt.mp hk)] at hmem
  cases hmem

/-- The tables of a directory were copied. -/
theorem start (h : Copying cfg ix top dirs own copy done order) (hready : CopyReady cfg ix top)
    {i : ℕ} {dir : DirTree} {before after : List DirTree} (hidle : copy.running i = none)
    (hwaiting : copy.waiting i = before ++ dir :: after) {own' : Dir} {copy' : Copy}
    (hthreads : copy'.threadsUsed = copy.threadsUsed)
    (hwaiting' : copy'.waiting = Function.update copy.waiting i (before ++ after))
    (hrunning' : copy'.running =
      Function.update copy.running i (some (dir, (childDb ix dir).externalXattrs)))
    (hremaining : copy'.remaining = copy.remaining) (hmerged : copy'.merged = copy.merged)
    (hfiles : own'.xattrDbs = own.xattrDbs)
    (htarget : own'.db = some (stagedDb ix top 0 (Function.update done i (done i ++ [dir]) 0)))
    (hstaging : ∀ k, 0 < k → k < copy'.threadsUsed → copy'.staging k =
      some (stagedDb ix top k (Function.update done i (done i ++ [dir]) k))) :
    Copying cfg ix top dirs own' copy' (Function.update done i (done i ++ [dir])) order where
  threadsUsed := hthreads.trans h.threadsUsed
  nonempty := h.nonempty
  dealt := by
    intro k
    rw [hwaiting', hthreads]
    by_cases hk : k = i
    · subst hk
      have hdealt := h.dealt k
      rw [hwaiting] at hdealt
      rw [Function.update_self, Function.update_self, List.append_assoc, List.singleton_append]
      exact (List.perm_middle.symm.append_left (done k)).trans hdealt
    · rw [Function.update_of_ne hk, Function.update_of_ne hk]
      exact h.dealt k
  target := htarget
  staging := hstaging
  files := by
    constructor
    · intro f
      rw [Dir.rollupRows, hfiles]
      exact h.files.rollupRows f
    · intro f
      rw [Dir.pwdRows, hfiles]
      exact h.files.pwdRows f
    · exact h.files.copied
  pending := by
    intro k c hc row hrow
    rw [hrunning']
    by_cases hk : k = i
    · subst hk
      rw [Function.update_self] at hc ⊢
      rcases List.mem_append.mp hc with hc | hc
      · rcases h.pending k c hc row hrow with ⟨rows, hrun, -⟩ | hcopied
        · rw [hidle] at hrun
          cases hrun
        · exact Or.inr hcopied
      · obtain rfl := List.mem_singleton.mp hc
        exact Or.inl ⟨_, rfl, hrow⟩
    · rw [Function.update_of_ne hk] at hc ⊢
      exact h.pending k c hc row hrow
  running := by
    intro k c rows hrun
    rw [hrunning'] at hrun
    by_cases hk : k = i
    · subst hk
      rw [Function.update_self, Option.some.injEq, Prod.mk.injEq] at hrun
      obtain ⟨rfl, rfl⟩ := hrun
      rw [Function.update_self]
      exact ⟨List.mem_append_right _ (List.mem_singleton.mpr rfl), fun _ hrow => hrow⟩
    · rw [Function.update_of_ne hk] at hrun ⊢
      exact h.running k c rows hrun
  remaining := by
    have hi : i < copy.threadsUsed :=
      h.lt_threadsUsed hready (c := dir) (Or.inr (by simp [hwaiting]))
    have hsum := sum_unfinished_update hi (f := copy.unfinished) (g := copy'.unfinished) (m := 0)
      (fun k hk => by
        simp only [Copy.unfinished, hwaiting', hrunning', Function.update_of_ne hk])
      (by simp [Copy.unfinished, hwaiting', hrunning', hwaiting, hidle, Nat.add_assoc])
    rw [hremaining, h.remaining, hthreads, ← hsum, Nat.add_zero]
  merged := hmerged.trans h.merged

theorem copyToTop {s : TopdownState}
    (h : Copying cfg ix top dirs (s.ix top.path) copy done order) (hready : CopyReady cfg ix top)
    {i : ℕ} {dir : DirTree} {before after : List DirTree} (hdir : dir ∈ top.subdirs)
    (hchild : s.ix dir.path = ix dir.path) (hidle : copy.running i = none)
    (hwaiting : copy.waiting i = before ++ dir :: after) :
    ∃ own' copy', s.copyToTop top {}
        { copy with waiting := Function.update copy.waiting i (before ++ after) } i dir =
          s.set top own' copy' true ∧
      Copying cfg ix top dirs own' copy' (Function.update done i (done i ++ [dir])) order := by
  have hi : i < copy.threadsUsed :=
    h.lt_threadsUsed hready (c := dir) (Or.inr (by simp [hwaiting]))
  have hts := stagedDb_treesummary hready (List.ne_nil_of_mem hdir) i (done i)
  have hdb : s.tdb top
      { copy with waiting := Function.update copy.waiting i (before ++ after) } i =
        some (stagedDb ix top i (done i)) := by
    unfold TopdownState.tdb
    split_ifs with hi₀
    · rw [hi₀]
      exact h.target
    · exact h.staging i (Nat.pos_of_ne_zero hi₀) hi
  have hsub : s.ix.attachDb (sqliteUriPath dir.path) = some (childDb ix dir) := by
    rw [attachDb_sqliteUriPath, hchild]
    exact (hready.children dir hdir).1
  unfold TopdownState.copyToTop
  simp only [hdb, hsub, rollupOneSubdir_child hready hdir hts, if_true, TopdownState.setTdb]
  by_cases hi₀ : i = 0
  · subst hi₀
    rw [if_pos rfl]
    refine ⟨_, _, rfl, h.start hready hidle hwaiting rfl rfl rfl rfl rfl rfl ?_ ?_⟩
    · rw [Function.update_self, stagedDb_append]
      rfl
    · intro k hk hlt
      rw [Function.update_of_ne hk.ne']
      exact h.staging k hk hlt
  · rw [if_neg hi₀]
    refine ⟨_, _, rfl, h.start hready hidle hwaiting rfl rfl rfl rfl rfl rfl ?_ ?_⟩
    · rw [Function.update_of_ne (Ne.symm hi₀)]
      exact h.target
    · intro k hk hlt
      by_cases hki : k = i
      · subst hki
        simp only [Function.update_self, stagedDb_append]
      · simp only [Function.update_of_ne hki]
        exact h.staging k hk hlt

theorem copyExternal {s : TopdownState}
    (h : Copying cfg ix top dirs (s.ix top.path) copy done order) (hready : CopyReady cfg ix top)
    {i : ℕ} {dir : DirTree} {row : ExternalDb} {rows : List ExternalDb} (hdir : dir ∈ top.subdirs)
    (hchild : s.ix dir.path = ix dir.path) (hrunning : copy.running i = some (dir, row :: rows)) :
    ∃ own' copy', s.copyExternal top cfg none copy i dir row rows = s.set top own' copy' true ∧
      Copying cfg ix top dirs own' copy' done (order ++ [copiedFile ix dir row]) := by
  obtain ⟨hdone, hrows⟩ := h.running i dir _ hrunning
  have hrow := hrows row (List.mem_cons_self ..)
  obtain ⟨hplain, hclean, hfile⟩ := hready.files dir hdir row hrow
  obtain ⟨x, hx⟩ := Option.isSome_iff_exists.mp hfile
  have hne : dir.path ≠ top.path :=
    (congrArg List.length).mt (hready.wellFormed.length_path_lt top.self_mem_subtrees hdir).ne'
  have hattach : s.ix.xattrDbAt (dir.path ++ slash :: row.filename) = some x := by
    rw [xattrDbAt_append _ _ hplain.1, hchild]
    exact hx
  have havail : copiedFile ix dir row = (row.filename, x.avail) := by
    rw [copiedFile, Dir.availRows, hx]
    rfl
  obtain ⟨happ, hok, -⟩ : (s.ix top.path).AppendsExternals [(row.filename, x.avail)]
      (rollupExternalXattrs cfg.umask (s.ix.attachXattr top.path) none dir.path (s.ix top.path)
        row).1 ∧ (rollupExternalXattrs cfg.umask (s.ix.attachXattr top.path) none dir.path
        (s.ix top.path) row).2 = true ∧ _ := by
    have hspec := (rollupExternalXattrs_spec cfg.umask s.ix.xattrDbAt none (s.ix top.path)
      (fun d => xattrDbAt_update hne hclean hplain d)).2 (by simp [ExternalFault.Stops])
    rw [hattach] at hspec
    exact hspec
  unfold TopdownState.copyExternal
  simp only [hok, if_true]
  refine ⟨_, _, rfl, ?_⟩
  constructor
  · exact h.threadsUsed
  · exact h.nonempty
  · exact h.dealt
  · exact happ.db.trans h.target
  · exact h.staging
  · constructor
    · intro f
      rw [happ.rollupRows, h.files.rollupRows, havail, Rows.forFile_append, List.append_assoc]
    · intro f
      rw [happ.pwdRows, h.files.pwdRows]
    · intro e he
      rcases List.mem_append.mp he with he | he
      · exact h.files.copied e he
      · exact ⟨dir, hdir, row, hrow, List.mem_singleton.mp he⟩
  · intro k c hc row' hrow'
    rcases h.pending k c hc row' hrow' with ⟨rows', hrun, hmem⟩ | hcopied
    · by_cases hk : k = i
      · subst hk
        rw [hrunning, Option.some.injEq, Prod.mk.injEq] at hrun
        obtain ⟨rfl, rfl⟩ := hrun
        rcases List.mem_cons.mp hmem with rfl | hmem
        · exact Or.inr (List.mem_append_right _ (List.mem_singleton.mpr rfl))
        · exact Or.inl ⟨rows, Function.update_self .., hmem⟩
      · exact Or.inl ⟨rows', (Function.update_of_ne hk ..).trans hrun, hmem⟩
    · exact Or.inr (List.mem_append_left _ hcopied)
  · intro k c rows' hrun
    by_cases hk : k = i
    · subst hk
      simp only [Function.update_self, Option.some.injEq, Prod.mk.injEq] at hrun
      obtain ⟨rfl, rfl⟩ := hrun
      exact ⟨hdone, fun row' hrow' => hrows row' (List.mem_cons_of_mem row hrow')⟩
    · simp only [Function.update_of_ne hk] at hrun
      exact h.running k c rows' hrun
  · rw [h.remaining]
    apply Finset.sum_congr rfl
    intro k _
    by_cases hk : k = i
    · subst hk
      simp [Copy.unfinished, hrunning]
    · simp [Copy.unfinished, Function.update_of_ne hk]
  · exact h.merged

theorem endCopy {s : TopdownState}
    (h : Copying cfg ix top dirs (s.ix top.path) copy done order) (hready : CopyReady cfg ix top)
    {i : ℕ} {dir : DirTree} (hrunning : copy.running i = some (dir, [])) :
    ∃ copy', s.endCopy top copy i = s.set top (s.ix top.path) copy' true ∧
      Copying cfg ix top dirs (s.ix top.path) copy' done order := by
  let copy' : Copy := { copy with
    running := Function.update copy.running i none
    remaining := copy.remaining - 1 }
  refine ⟨copy', rfl, ?_⟩
  constructor
  · exact h.threadsUsed
  · exact h.nonempty
  · exact h.dealt
  · exact h.target
  · exact h.staging
  · exact h.files
  · intro k c hc row hrow
    rcases h.pending k c hc row hrow with ⟨rows, hrun, hmem⟩ | hcopied
    · have hk : k ≠ i := by
        rintro rfl
        rw [hrunning, Option.some.injEq, Prod.mk.injEq] at hrun
        rw [← hrun.2] at hmem
        cases hmem
      exact Or.inl ⟨rows, (Function.update_of_ne hk ..).trans hrun, hmem⟩
    · exact Or.inr hcopied
  · intro k c rows hrun
    by_cases hk : k = i
    · subst hk
      simp [copy'] at hrun
    · simp only [copy', Function.update_of_ne hk] at hrun
      exact h.running k c rows hrun
  · have hi : i < copy.threadsUsed :=
      h.lt_threadsUsed hready (Or.inl (h.running i dir [] hrunning).1)
    have hsum := sum_unfinished_update hi (f := copy.unfinished) (g := copy'.unfinished) (m := 1)
      (fun k hk => by simp only [Copy.unfinished, copy', Function.update_of_ne hk])
      (by simp [Copy.unfinished, copy', hrunning])
    have hremaining := h.remaining
    change copy.remaining - 1 = ∑ k ∈ Finset.range copy.threadsUsed, copy'.unfinished k
    omega
  · exact h.merged

theorem idle (h : Copying cfg ix top dirs own copy done order)
    (hready : CopyReady cfg ix top) (hremaining : copy.remaining = 0) (k : ℕ) :
    copy.waiting k = [] ∧ copy.running k = none := by
  have hzero : ∀ j < copy.threadsUsed, copy.unfinished j = 0 := by
    intro j hj
    have hsum := h.remaining.symm.trans hremaining
    exact Finset.sum_eq_zero_iff.mp hsum j (Finset.mem_range.mpr hj)
  by_contra hbusy
  have hlt : k < copy.threadsUsed := by
    by_contra hk
    apply hbusy
    have hnot {c : DirTree} (hc : c ∈ done k ∨ c ∈ copy.waiting k) : False :=
      hk (h.lt_threadsUsed hready hc)
    constructor
    · exact List.eq_nil_iff_forall_not_mem.mpr fun c hc => hnot (Or.inr hc)
    · cases hrun : copy.running k with
      | none => rfl
      | some task => exact (hnot (Or.inl (h.running k task.1 task.2 hrun).1)).elim
  have hunfinished := hzero k hlt
  rw [Copy.unfinished, Nat.add_eq_zero_iff, List.length_eq_zero_iff] at hunfinished
  apply hbusy
  refine ⟨hunfinished.1, ?_⟩
  rw [← Option.not_isSome_iff_eq_none]
  intro hsome
  simp [hsome] at hunfinished

/-- The directories whose tables were copied, once no task is left. -/
theorem perm_done (h : Copying cfg ix top dirs own copy done order)
    (hready : CopyReady cfg ix top) (hremaining : copy.remaining = 0) :
    ((List.range copy.threadsUsed).flatMap done).Perm dirs := by
  refine (List.Perm.flatMap_left _ fun k _ => ?_).trans
    (perm_flatMap_dealt dirs (h.threadsUsed_pos hready))
  have hdealt := h.dealt k
  rwa [(h.idle hready hremaining k).1, List.append_nil] at hdealt

theorem gathers_stagedDb {k : ℕ} {done : List DirTree}
    (hd : (tableRows (done.map (childDb ix))).Distinct) :
    (stagingBase ix top k).Gathers top.name (stagedDb ix top k done) (done.map (childDb ix)) := by
  refine gathers_foldl_absorb ?_ ?_ ?_ hd
  all_goals
    unfold stagingBase
    split_ifs <;> rfl

/-- The last task merges the staging databases, and no statement of the merge fails. -/
theorem merge {s : TopdownState} (h : Copying cfg ix top dirs (s.ix top.path) copy done order)
    (hready : CopyReady cfg ix top) (hdirs : dirs.Perm top.subdirs)
    (hremaining : copy.remaining = 0) :
    ∃ own' copy', s.merge top (fun _ => {}) copy = s.set top own' copy' true ∧
      Finished ix top own' copy' := by
  have hidle := h.idle hready hremaining
  have hperm := (h.perm_done hready hremaining).trans hdirs
  have hsubs : ((List.range copy.threadsUsed).flatMap fun k => (done k).map (childDb ix)).Perm
      (top.subdirs.map (childDb ix)) := by
    rw [← List.map_flatMap]
    exact hperm.map _
  have hd := hready.distinct.perm hsubs.symm
  have hstaged : ∀ k < copy.threadsUsed, (stagingBase ix top k).Gathers top.name
      (stagedDb ix top k (done k)) ((done k).map (childDb ix)) := by
    intro k hk
    obtain ⟨a, b, hab⟩ := List.append_of_mem (List.mem_range.mpr hk)
    rw [hab, List.flatMap_append, List.flatMap_cons, tableRows_append, tableRows_append] at hd
    exact gathers_stagedDb hd.of_append_right.of_append_left
  obtain ⟨hok, hgathers⟩ := (hstaged 0 (h.threadsUsed_pos hready)).rollupMerge
    (fun k => (done k).map (childDb ix)) (h.threadsUsed_pos hready)
    (fun k hk hlt => ⟨_, h.staging k hk hlt, by
      have hbase := hstaged k hlt
      rwa [stagingBase, if_neg hk.ne'] at hbase⟩) hd
  unfold TopdownState.merge
  simp only [h.target, hok]
  refine ⟨_, _, rfl, hidle, ⟨_, rfl, hgathers.perm hsubs⟩, ⟨order, ?_, ?_⟩, rfl⟩
  · exact ⟨h.files.rollupRows, h.files.pwdRows, h.files.copied⟩
  · intro c hc row hrow
    obtain ⟨k, -, hck⟩ := List.mem_flatMap.mp (hperm.symm.subset hc)
    rcases h.pending k c hck row hrow with ⟨rows, hrun, -⟩ | hcopied
    · rw [(hidle k).2] at hrun
      cases hrun
    · exact hcopied

end Copying

/-- A target that is enqueued is cleaned, and its subdirectories are dealt to the threads. -/
theorem copying_enqueue (hready : CopyReady cfg ix top) (hdirs : dirs.Perm top.subdirs)
    (hne : dirs ≠ []) :
    Copying cfg ix top dirs (rollupInit (ix top.path))
      (Copy.enqueue (fun _ => {}) cfg.maxthreads top dirs) (fun _ => []) [] := by
  have hpos : 0 < min dirs.length cfg.maxthreads :=
    lt_min (List.length_pos_iff.mpr hne) hready.threads
  constructor
  · rfl
  · exact hne
  · exact fun k => List.Perm.refl _
  · obtain ⟨db, hdb, -, -⟩ := hready.target
    rw [rollupInit, Dir.rollupCleanup_db, hdb, stagedDb, stagingBase, hdb]
    rfl
  · intro k hk hlt
    have hno : ¬∃ c ∈ top.subdirs, c.name = stagingName k := by
      rintro ⟨c, hc, hname⟩
      refine hready.names c hc k hk ?_ hname
      rw [← hdirs.length_eq]
      exact hlt
    simp only [Copy.enqueue, hno, or_false, Bool.false_eq_true, if_false, stagedDb, List.map_nil,
      List.foldl_nil, stagingBase, if_neg hk.ne']
  · exact ⟨fun f => (List.append_nil _).symm, fun _ => rfl, fun e he => by cases he⟩
  · intro k c hc
    cases hc
  · intro k c rows hrun
    cases hrun
  · have hlength := (perm_flatMap_dealt dirs hpos).length_eq
    rw [List.length_flatMap] at hlength
    have hidle : ∀ k ∈ Finset.range (min dirs.length cfg.maxthreads),
        (Copy.enqueue (fun _ => {}) cfg.maxthreads top dirs).unfinished k =
          (dealt dirs (min dirs.length cfg.maxthreads) k).length := fun k _ => rfl
    exact (hlength.symm.trans rfl).trans (Finset.sum_congr rfl hidle).symm
  · simpa [Copy.enqueue] using hne

end Steps

section Run

variable {cfg : TopdownConfig} {ix : Index} {root top : DirTree}

/-- States of a run in which nothing fails. -/
def TopdownReaches (cfg : TopdownConfig) (F : ChildFaults → Prop) (root : DirTree) (ix : Index) :
    TopdownState → Prop :=
  ReflTransGen (TopdownStep cfg F root ix) (TopdownState.init ix)

/-- What a run has done to a target. -/
structure TargetState (cfg : TopdownConfig) (ix : Index) (top : DirTree) (s : TopdownState) :
    Prop where
  children : ∀ c ∈ top.subdirs, s.ix c.path = ix c.path
  failed : s.failed top.path = false
  phase : (s.copies top.path = none ∧ s.ix top.path = ix top.path) ∨
    (∃ dirs copy done order, dirs.Perm top.subdirs ∧ s.copies top.path = some copy ∧
      Copying cfg ix top dirs (s.ix top.path) copy done order) ∨
    ∃ copy, s.copies top.path = some copy ∧ Finished ix top (s.ix top.path) copy

namespace TargetState

variable {s : TopdownState}

theorem init (ix : Index) : TargetState cfg ix top (TopdownState.init ix) :=
  ⟨fun _ _ => rfl, rfl, Or.inl ⟨rfl, rfl⟩⟩

/-- A step of another target. -/
theorem set_of_ne (h : TargetState cfg ix top s) {top' : DirTree} (hne : top'.path ≠ top.path)
    (hbelow : ∀ c ∈ top.subdirs, c.path ≠ top'.path) (own : Dir) (copy : Copy) (ok : Bool) :
    TargetState cfg ix top (s.set top' own copy ok) := by
  have hix : (s.set top' own copy ok).ix top.path = s.ix top.path :=
    Function.update_of_ne hne.symm ..
  have hcopies : (s.set top' own copy ok).copies top.path = s.copies top.path :=
    Function.update_of_ne hne.symm ..
  have hfailed : (s.set top' own copy ok).failed top.path = s.failed top.path :=
    Function.update_of_ne hne.symm ..
  refine ⟨fun c hc => ?_, hfailed.trans h.failed, ?_⟩
  · exact (Function.update_of_ne (hbelow c hc) ..).trans (h.children c hc)
  · rw [hix, hcopies]
    exact h.phase

/-- A step of the target itself that reports no failure. -/
theorem set_self (h : TargetState cfg ix top s) (hready : CopyReady cfg ix top) {own : Dir}
    {copy : Copy} (hphase : (∃ dirs done order, dirs.Perm top.subdirs ∧
      Copying cfg ix top dirs own copy done order) ∨ Finished ix top own copy) :
    TargetState cfg ix top (s.set top own copy true) := by
  have hix : (s.set top own copy true).ix top.path = own := Function.update_self ..
  have hcopies : (s.set top own copy true).copies top.path = some copy := Function.update_self ..
  refine ⟨fun c hc => ?_, ?_, Or.inr ?_⟩
  · have hne : c.path ≠ top.path :=
      (congrArg List.length).mt (hready.wellFormed.length_path_lt top.self_mem_subtrees hc).ne'
    exact (Function.update_of_ne hne ..).trans (h.children c hc)
  · simp [TopdownState.set, h.failed]
  · rw [hix, hcopies]
    rcases hphase with ⟨dirs, done, order, hdirs, hcopying⟩ | hfinished
    · exact Or.inl ⟨dirs, copy, done, order, hdirs, rfl, hcopying⟩
    · exact Or.inr ⟨copy, rfl, hfinished⟩

/-- A step that needs an enqueued target with work left meets it while it copies. -/
theorem copying_of_busy (h : TargetState cfg ix top s) {copy : Copy}
    (hcopy : s.copies top.path = some copy)
    (hbusy : copy.merged = false ∨ ∃ k, copy.waiting k ≠ [] ∨ copy.running k ≠ none) :
    ∃ dirs done order, dirs.Perm top.subdirs ∧
      Copying cfg ix top dirs (s.ix top.path) copy done order := by
  rcases h.phase with ⟨hnone, -⟩ | ⟨dirs, copy', done, order, hdirs, hcopy', hcopying⟩ |
    ⟨copy', hcopy', hfinished⟩
  · rw [hnone] at hcopy
    cases hcopy
  · obtain rfl := Option.some.inj (hcopy.symm.trans hcopy')
    exact ⟨dirs, done, order, hdirs, hcopying⟩
  · obtain rfl := Option.some.inj (hcopy.symm.trans hcopy')
    rcases hbusy with hmerged | ⟨k, hk⟩
    · rw [hfinished.merged] at hmerged
      cases hmerged
    · exact (hk.elim (· (hfinished.idle k).1) (· (hfinished.idle k).2)).elim

end TargetState

/-- A step changes one target only. -/
theorem TopdownState.exists_set_setTdb (s : TopdownState) (top : DirTree) (copy : Copy) (i : ℕ)
    (db : Db) (dir : DirTree) (rows : List ExternalDb) (ok : Bool) :
    ∃ own copy', s.setTdb top copy i db dir rows ok = s.set top own copy' ok := by
  unfold TopdownState.setTdb
  split_ifs
  · exact ⟨_, _, rfl⟩
  · exact ⟨_, _, rfl⟩

theorem TopdownState.exists_set_copyToTop (s : TopdownState) (top : DirTree) (flt : ChildFaults)
    (copy : Copy) (i : ℕ) (dir : DirTree) :
    ∃ own copy' ok, s.copyToTop top flt copy i dir = s.set top own copy' ok := by
  unfold TopdownState.copyToTop
  split
  · obtain ⟨own, copy', heq⟩ := s.exists_set_setTdb top copy i _ dir _ _
    exact ⟨own, copy', _, heq⟩
  · exact ⟨_, _, _, rfl⟩

theorem TopdownState.exists_set_merge (s : TopdownState) (top : DirTree) (flt : DirFaults)
    (copy : Copy) : ∃ own copy' ok, s.merge top flt copy = s.set top own copy' ok := by
  unfold TopdownState.merge
  split
  · exact ⟨_, _, _, rfl⟩
  · exact ⟨_, _, _, rfl⟩

theorem TopdownState.exists_set_enqueueRollupCopy (s : TopdownState) (top : DirTree)
    (flt : DirFaults) (dirs : List DirTree) :
    ∃ own copy' ok, s.enqueueRollupCopy top cfg flt dirs = s.set top own copy' ok := by
  simp only [TopdownState.enqueueRollupCopy]
  split_ifs
  · exact ⟨_, _, _, rfl⟩
  · exact ⟨_, _, _, rfl⟩

theorem TargetState.step {s s' : TopdownState} (hroot : root.WellFormed)
    (hready : CopyReady cfg ix top) (htop : top ∈ root.tops cfg ix 0)
    (h : TargetState cfg ix top s) (hstep : TopdownStep cfg (fun flt => flt = {}) root ix s s') :
    TargetState cfg ix top s' := by
  have hother {top' : DirTree} (htop' : top' ∈ root.tops cfg ix 0) (hne : top'.path ≠ top.path)
      {s' : TopdownState} (hset : ∃ own copy ok, s' = s.set top' own copy ok) :
      TargetState cfg ix top s' := by
    obtain ⟨own, copy, ok, rfl⟩ := hset
    refine h.set_of_ne hne (fun c hc => ?_) own copy ok
    exact DirTree.path_ne_of_tops hroot htop htop' hne
      (DirTree.subdir_mem_subtrees top.self_mem_subtrees hc)
  have hself {top' : DirTree} (htop' : top' ∈ root.tops cfg ix 0) (hp : top'.path = top.path) :
      top' = top :=
    hroot.eq_of_path_eq (DirTree.mem_subtrees_of_mem_tops htop')
      (DirTree.mem_subtrees_of_mem_tops htop) hp
  have hsubtrees : top.subtrees = top :: top.subdirs := by
    rw [DirTree.subtrees_eq]
    congr 1
    calc top.subdirs.flatMap DirTree.subtrees = top.subdirs.flatMap fun c => [c] :=
          List.flatMap_congr fun c hc => by rw [DirTree.subtrees_eq, hready.leaves c hc]; rfl
      _ = top.subdirs := List.flatMap_singleton' _
  cases hstep with
  | @enqueue top' dirs flt htop' hnew hdirs hflt =>
      by_cases hp : top'.path = top.path
      · obtain rfl := hself htop' hp
        have hflt' : flt = fun _ => {} := funext hflt
        rw [hsubtrees, List.perm_cons] at hdirs
        obtain ⟨db, hdb, hlisted, -⟩ := hready.target
        have hown : s.ix top'.path = ix top'.path := by
          rcases h.phase with ⟨-, hown⟩ | ⟨_, copy, _, _, _, hcopy, _⟩ | ⟨copy, hcopy, _⟩
          · exact hown
          · rw [hnew] at hcopy
            cases hcopy
          · rw [hnew] at hcopy
            cases hcopy
        have hinit : topdownInit (s.ix top'.path) = (rollupInit (ix top'.path), true) := by
          simp only [topdownInit, hown, hdb, hlisted, if_true]
        simp only [TopdownState.enqueueRollupCopy, hinit, if_true, hflt']
        by_cases hne : dirs = []
        · subst hne
          have hnil := List.nil_perm.mp hdirs
          have htables : (rollupInit (ix top'.path)).db = some (stagingBase ix top' 0) := by
            rw [rollupInit, Dir.rollupCleanup_db, hdb, stagingBase, if_pos rfl, hdb]
            rfl
          have hdistinct : (tableRows (([] : List DirTree).map (childDb ix))).Distinct :=
            ⟨List.nodup_nil, List.nodup_nil, List.nodup_nil⟩
          have hgathers : (stagingBase ix top' 0).Gathers top'.name (stagingBase ix top' 0)
              (([] : List DirTree).map (childDb ix)) := Copying.gathers_stagedDb hdistinct
          rw [← hnil] at hgathers
          refine h.set_self hready (Or.inr ⟨fun k => ⟨rfl, rfl⟩, ⟨_, htables, hgathers⟩,
            ⟨[], ⟨fun f => (List.append_nil _).symm, fun _ => rfl, fun e he => by cases he⟩, ?_⟩,
            rfl⟩)
          rw [hnil]
          intro c hc
          cases hc
        · exact h.set_self hready (Or.inl ⟨dirs, _, _, hdirs, copying_enqueue hready hdirs hne⟩)
      · exact hother htop' hp (s.exists_set_enqueueRollupCopy top' flt dirs)
  | @copy top' dir copy i before after flt htop' hcopy hidle hwaiting hquote hflt =>
      by_cases hp : top'.path = top.path
      · obtain rfl := hself htop' hp
        subst hflt
        obtain ⟨dirs, done, order, hdirs, hcopying⟩ :=
          h.copying_of_busy hcopy (Or.inr ⟨i, Or.inl (by simp [hwaiting])⟩)
        have hdir : dir ∈ top'.subdirs :=
          hdirs.subset (hcopying.mem_dirs (k := i) (Or.inr (by simp [hwaiting])))
        obtain ⟨own', copy', heq, hcopying'⟩ :=
          hcopying.copyToTop hready hdir (h.children dir hdir) hidle hwaiting
        rw [heq]
        exact h.set_self hready (Or.inl ⟨dirs, _, _, hdirs, hcopying'⟩)
      · exact hother htop' hp (s.exists_set_copyToTop top' flt _ i dir)
  | @external top' dir copy i k row rows flt htop' hcopy hrunning hflt =>
      by_cases hp : top'.path = top.path
      · obtain rfl := hself htop' hp
        subst hflt
        obtain ⟨dirs, done, order, hdirs, hcopying⟩ :=
          h.copying_of_busy hcopy (Or.inr ⟨i, Or.inr (by simp [hrunning])⟩)
        have hdir : dir ∈ top'.subdirs :=
          hdirs.subset (hcopying.mem_dirs (Or.inl (hcopying.running i dir _ hrunning).1))
        obtain ⟨own', copy', heq, hcopying'⟩ :=
          hcopying.copyExternal hready hdir (h.children dir hdir) hrunning
        rw [heq]
        exact h.set_self hready (Or.inl ⟨dirs, _, _, hdirs, hcopying'⟩)
      · exact hother htop' hp ⟨_, _, _, rfl⟩
  | @endCopy top' dir copy i htop' hcopy hrunning =>
      by_cases hp : top'.path = top.path
      · obtain rfl := hself htop' hp
        obtain ⟨dirs, done, order, hdirs, hcopying⟩ :=
          h.copying_of_busy hcopy (Or.inr ⟨i, Or.inr (by simp [hrunning])⟩)
        obtain ⟨copy', heq, hcopying'⟩ := hcopying.endCopy hready hrunning
        rw [heq]
        exact h.set_self hready (Or.inl ⟨dirs, _, _, hdirs, hcopying'⟩)
      · exact hother htop' hp ⟨_, _, _, rfl⟩
  | @merge top' copy flt htop' hcopy hremaining hmerged hflt =>
      by_cases hp : top'.path = top.path
      · obtain rfl := hself htop' hp
        have hflt' : flt = fun _ => {} := funext hflt
        obtain ⟨dirs, done, order, hdirs, hcopying⟩ :=
          h.copying_of_busy hcopy (Or.inl hmerged)
        obtain ⟨own', copy', heq, hfinished⟩ := hcopying.merge hready hdirs hremaining
        rw [hflt', heq]
        exact h.set_self hready (Or.inr hfinished)
      · exact hother htop' hp (s.exists_set_merge top' flt copy)

theorem TopdownReaches.targetState {s : TopdownState} (hroot : root.WellFormed)
    (hready : CopyReady cfg ix top) (htop : top ∈ root.tops cfg ix 0)
    (h : TopdownReaches cfg (fun flt => flt = {}) root ix s) : TargetState cfg ix top s := by
  induction h with
  | refl => exact TargetState.init ix
  | tail _ hstep ih => exact ih.step hroot hready htop hstep

end Run

end Gufi
