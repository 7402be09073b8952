import Gufi.QueryWalkTree

/-!
# Queries before and after a rollup

A rolled-up index is meant to answer as the index did before, with fewer directories to open. For
`-S` and `-E` that look at summary rows and entries one by one, a walk over the index that a run of
gufi_rollup without a failure left prints and inserts what a walk over the index did before it, in
some order, at every minimum level.
-/

namespace Gufi.QueryWalk

open SqlTable Worklist Relation UserStrings

section Ok

variable {ts : TreeSummaryCode} {cfg : Config} {F : DirFaults → Prop} {root : DirTree} {ix : Index}
  {s : RunState}

/-- In a run that has reported no failure, a directory with the flag on disk has been rolled up
whole. -/
theorem rolledup_of_ok (hix : ∀ t ∈ root.subtrees, (ix t.path).Unrolled)
    (hrun : RunReaches ts cfg F root ix s) (hok : s.ok = true) {t : DirTree}
    (ht : t ∈ root.subtrees) (hroll : (s.ix t.path).isrolledup = true) :
    s.rolledup t.path = true := by
  let P (s : RunState) : Prop := (∀ p, s.ascended p = false → s.ix p = ix p) ∧
    (s.ok = true → ∀ t ∈ root.subtrees, (s.ix t.path).isrolledup = true →
      s.rolledup t.path = true)
  have hP : P s := by
    apply hrun.invariant
    · refine ⟨fun _ _ => rfl, fun _ t ht hroll => ?_⟩
      change (ix t.path).isrolledup = true at hroll
      rw [(hix t ht).isrolledup_eq_false] at hroll
      cases hroll
    · rintro s l t flt ⟨hfresh, hrolled⟩ hl hnew - -
      have hmem := DirTree.mem_subtrees_of_mem_levels hl
      have hown : s.ix t.path = ix t.path := hfresh _ hnew
      constructor
      · intro p hp
        have hne : p ≠ t.path := by
          rintro rfl
          change Function.update s.ascended t.path true t.path = false at hp
          rw [Function.update_self] at hp
          cases hp
        change Function.update s.ascended t.path true p = false at hp
        rw [Function.update_of_ne hne] at hp
        change Function.update s.ix t.path _ p = ix p
        rw [Function.update_of_ne hne]
        exact hfresh p hp
      · intro hok u hu hroll
        obtain ⟨hoks, hokr⟩ := Bool.and_eq_true_iff.mp hok
        change (Function.update s.ix t.path _ u.path).isrolledup = true at hroll
        change Function.update s.rolledup t.path _ u.path = true
        by_cases hp : u.path = t.path
        · rw [hp, Function.update_self] at hroll ⊢
          unfold RunState.ascendResult at hroll hokr ⊢
          by_cases hlevel : l < cfg.minLevel
          · rw [if_pos hlevel, hown, (hix t hmem).isrolledup_eq_false] at hroll
            cases hroll
          · rw [if_neg hlevel, hown] at hroll hokr ⊢
            obtain ⟨db, hdb, -⟩ := (hix t hmem).db
            rcases rollupAscend_cases ts cfg (s.ix.attachXattr t.path) l t.path hdb
              (s.children flt t) with ⟨-, heq⟩ | ⟨-, rows, ok, heq⟩
            · rw [heq] at hokr ⊢
              exact hokr
            · have hundone := Undone.setTreesummary (hix t hmem) hdb rows
              rw [heq, hundone.unrolled.isrolledup_eq_false] at hroll
              cases hroll
        · rw [Function.update_of_ne hp] at hroll ⊢
          exact hrolled hoks u hu hroll
  exact hP.2 hok t ht hroll

end Ok

section Rows

variable {ρ : Type*} (f : PEntryRow → List (Event ρ)) (g : SummaryRow → List (Event ρ))

/-- What is returned for the summary rows of a database and for its entries. -/
def contentEvents (db : Db) : List (Event ρ) :=
  (db.summary.map SummaryRow.columns).flatMap g ++ db.pentries.flatMap f

variable {f g} {root t : DirTree} {ix : Index}

/-- A directory that is as it was before returns what it did. -/
theorem contentEvents_of_undone {d₀ d : Dir} (h₀ : d₀.Unrolled) (h : Undone d₀ d) :
    (d.db.map (contentEvents f g)).getD [] = (d₀.db.map (contentEvents f g)).getD [] := by
  obtain ⟨db₀, hdb₀, hun₀⟩ := h₀.db
  obtain ⟨db, hdb, hun⟩ := h.unrolled.db
  have htables := h.tables
  rw [hdb, hdb₀, Option.map_some, Option.map_some, Option.some.injEq] at htables
  obtain ⟨row₀, hrow₀, hroot₀, -⟩ := hun₀.summary
  obtain ⟨row, hrow, hroot, -⟩ := hun.summary
  let flagged (s : SummaryRow) : SummaryRow := { s with canrollup := true, isrolledup := false }
  have hentries : db.content.entries = db₀.content.entries := by rw [htables]
  have hrows : db.content.summary = db₀.content.summary := by rw [htables]
  change db.entries = db₀.entries at hentries
  change db.rootRows.map flagged = db₀.rootRows.map flagged at hrows
  have hroots : db.rootRows = [row] := by simp [Db.rootRows, hrow, hroot]
  have hroots₀ : db₀.rootRows = [row₀] := by simp [Db.rootRows, hrow₀, hroot₀]
  rw [hroots, hroots₀, List.map_singleton, List.map_singleton, List.singleton_inj] at hrows
  have hcolumns : (flagged row).columns = (flagged row₀).columns := by rw [hrows]
  have hinode : (flagged row).inode = (flagged row₀).inode := by rw [hrows]
  have hpinode : (flagged row).pinode = (flagged row₀).pinode := by rw [hrows]
  change row.columns = row₀.columns at hcolumns
  change row.inode = row₀.inode at hinode
  change row.pinode = row₀.pinode at hpinode
  have hpentries : db.pentries = db₀.pentries := by
    rw [Db.pentries, Db.pentries, hun.pentriesRollup, hun₀.pentriesRollup, Db.ownPentries,
      Db.ownPentries, hentries, hroots, hroots₀]
    simp only [List.map_singleton, hinode, hpinode]
  rw [hdb, hdb₀, Option.map_some, Option.map_some, Option.getD_some, Option.getD_some,
    contentEvents, contentEvents, hrow, hrow₀, List.map_singleton, List.map_singleton, hcolumns,
    hpentries]

/-- What an index that nothing is rolled up in returns for a directory. -/
theorem contentEvents_of_unrolled {d : Dir} (h : d.Unrolled) (hnodup : d.ownPentries.Nodup) :
    (d.db.map (contentEvents f g)).getD [] =
      (d.ownSummary.map SummaryRow.columns).flatMap g ++ d.ownPentries.flatMap f := by
  obtain ⟨db, hdb, hun⟩ := h.db
  obtain ⟨row, hrow, hroot, -⟩ := hun.summary
  have hown : d.ownPentries = db.ownPentries := by
    rw [Dir.ownPentries, hdb]
    rfl
  have hsummary : d.ownSummary = db.summary := by
    simp [Dir.ownSummary, hdb, Db.rootRows, hrow, hroot]
  have hpentries : db.pentries = db.ownPentries := by
    rw [Db.pentries, hun.pentriesRollup, union_eq_append, List.append_nil]
    rwa [List.append_nil, ← hown]
  rw [hdb, Option.map_some, Option.getD_some, contentEvents, hsummary, hown, hpentries]

/-- The tables of a directory whose tree is rolled up return what the directories of the tree do. -/
theorem contentEvents_rolledDb (hix : ∀ u ∈ t.subtrees, (ix u.path).Unrolled)
    (hnodup : (t.subtrees.flatMap fun u => (ix u.path).ownPentries).Nodup) {db : Db}
    (hdb : db.withoutTreesummary = t.rolledDb ix) : (contentEvents f g db).Perm
      (t.subtrees.flatMap fun u => ((ix u.path).db.map (contentEvents f g)).getD []) := by
  have hpentries : db.pentries.Perm (t.subtrees.flatMap fun u => (ix u.path).ownPentries) := by
    apply (List.perm_ext_iff_of_nodup (nodup_union ..) hnodup).mpr
    intro x
    rw [List.mem_flatMap, ← mem_pentries_rolledDb, ← hdb]
    rfl
  have hsummary : db.summary.map SummaryRow.columns =
      t.subtrees.flatMap fun u => (ix u.path).ownSummary.map SummaryRow.columns := by
    have h := DirTree.map_summary_rolledDb ix (g := SummaryRow.columns) (fun _ _ => rfl) t
    rw [← hdb] at h
    refine h.trans (List.flatMap_congr fun u _ => ?_)
    rw [Dir.summary_cleaned, List.map_map]
    rfl
  have hown : (t.subtrees.flatMap fun u => ((ix u.path).db.map (contentEvents f g)).getD []) =
      t.subtrees.flatMap fun u => ((ix u.path).ownSummary.map SummaryRow.columns).flatMap g ++
        (ix u.path).ownPentries.flatMap f :=
    List.flatMap_congr fun u hu =>
      contentEvents_of_unrolled (hix u hu) ((List.nodup_flatMap.mp hnodup).1 u hu)
  have hsplit := List.flatMap_append_perm t.subtrees
    (fun u => ((ix u.path).ownSummary.map SummaryRow.columns).flatMap g)
    (fun u => (ix u.path).ownPentries.flatMap f)
  rw [hown, contentEvents, hsummary, List.flatMap_assoc]
  refine List.Perm.trans ?_ hsplit
  have hflat := hpentries.flatMap_right f
  rw [List.flatMap_assoc] at hflat
  exact hflat.append_left _

end Rows

section Reached

variable {ρ : Type*} (ins : Input) (rows : Db → List (Event ρ)) (ix : Index)

theorem levels_sublist {root t : DirTree} {k l : ℕ} (h : (l, t) ∈ root.levels k) :
    (t.levels l).Sublist (root.levels k) := by
  induction root using DirTree.induct generalizing k with
  | node p cs ih =>
      rw [DirTree.levels_eq k] at h ⊢
      rcases List.mem_cons.mp h with heq | h
      · obtain ⟨rfl, rfl⟩ := Prod.mk.inj heq
        rw [DirTree.levels_eq]
      · obtain ⟨c, hc, h⟩ := List.mem_flatMap.mp h
        have hsub := (List.singleton_sublist.mpr hc).flatMap (DirTree.levels (k + 1))
        rw [List.flatMap_singleton] at hsub
        exact ((ih c hc h).trans hsub).cons _

/-- What is returned for the directories that a walk reaches from the minimum level on. -/
def queried (l : ℕ) (t : DirTree) : List (Event ρ) :=
  (reached ins ix l t).flatMap fun x =>
    if ins.minLevel ≤ x.1 then ((ix x.2.path).db.map rows).getD [] else []

theorem queried_eq (l : ℕ) (t : DirTree) : queried ins rows ix l t =
    (if ins.minLevel ≤ l then ((ix t.path).db.map rows).getD [] else []) ++
      if descends ins l (ix t.path) then t.subdirs.flatMap (queried ins rows ix (l + 1))
      else [] := by
  have hcs : t.subdirs.flatMap (queried ins rows ix (l + 1)) =
      (t.subdirs.flatMap (reached ins ix (l + 1))).flatMap fun x =>
        if ins.minLevel ≤ x.1 then ((ix x.2.path).db.map rows).getD [] else [] :=
    (List.flatMap_assoc ..).symm
  rw [hcs, queried, reached_eq, List.flatMap_cons]
  split_ifs <;> rfl

variable {ins rows ix} {root t : DirTree} {l : ℕ}

/-- From the minimum level on, where nothing is rolled up, every directory of the tree is asked. -/
theorem queried_of_unrolled (hmin : ins.minLevel ≤ l)
    (hlevel : ∀ x ∈ t.levels l, x.1 ≤ ins.maxLevel)
    (hix : ∀ u ∈ t.subtrees, (ix u.path).Unrolled) : queried ins rows ix l t =
      t.subtrees.flatMap fun u => ((ix u.path).db.map rows).getD [] := by
  induction t using DirTree.induct generalizing l with
  | node p cs ih =>
      have hself := hix _ (DirTree.self_mem_subtrees (.node p cs))
      rw [queried_eq, if_pos hmin, DirTree.subtrees_eq, List.flatMap_cons, List.flatMap_assoc]
      congr 1
      have hcs : cs.flatMap (queried ins rows ix (l + 1)) = cs.flatMap fun c =>
          c.subtrees.flatMap fun u => ((ix u.path).db.map rows).getD [] := by
        apply List.flatMap_congr
        intro c hc
        apply ih c hc (by omega)
        · intro x hx
          apply hlevel
          rw [DirTree.levels_eq]
          exact List.mem_cons_of_mem _ (List.mem_flatMap.mpr ⟨c, hc, hx⟩)
        · intro u hu
          exact hix u (DirTree.subtrees_subset_of_mem
            (DirTree.subdir_mem_subtrees (DirTree.self_mem_subtrees _) hc) hu)
      change (if _ then cs.flatMap _ else []) = _
      split_ifs with hgo
      · exact hcs
      · cases cs with
        | nil => rfl
        | cons c cs =>
            have hc : (l + 1, c) ∈ (DirTree.node p (c :: cs)).levels l := by
              rw [DirTree.levels_eq]
              apply List.mem_cons_of_mem
              refine List.mem_flatMap.mpr ⟨c, List.mem_cons_self .., ?_⟩
              rw [DirTree.levels_eq]
              exact List.mem_cons_self ..
            have hlt : l < ins.maxLevel := hlevel _ hc
            exact absurd (by simp [descends, hlt, hself.isrolledup_eq_false]) hgo

variable {ts : TreeSummaryCode} {cfg : Config} {F : DirFaults → Prop} {s : RunState}
  {f : PEntryRow → List (Event ρ)} {g : SummaryRow → List (Event ρ)}

/-- What a run of gufi_rollup leaves returns what the index did, from every directory on. -/
theorem queried_perm_of_rollup (hroot : root.WellFormed)
    (hix : ∀ u ∈ root.subtrees, (ix u.path).Unrolled) (hrun : RunReaches ts cfg F root ix s)
    (hdone : s.Complete root) (hok : s.ok = true)
    (hnodup : (root.subtrees.flatMap fun u => (ix u.path).ownPentries).Nodup)
    (hlevel : ∀ x ∈ root.levels 0, x.1 ≤ ins.maxLevel) (ht : (l, t) ∈ root.levels 0) :
    (queried ins (contentEvents f g) s.ix l t).Perm (queried ins (contentEvents f g) ix l t) := by
  induction t using DirTree.induct generalizing l with
  | node p cs ih =>
      have hmem := DirTree.mem_subtrees_of_mem_levels ht
      have hun := hix _ hmem
      have hunroll : (ix p).isrolledup = false := hun.isrolledup_eq_false
      have hbelow : (cs.flatMap (queried ins (contentEvents f g) s.ix (l + 1))).Perm
          (cs.flatMap (queried ins (contentEvents f g) ix (l + 1))) :=
        List.Perm.flatMap_left _ fun c hc => ih c hc (DirTree.mem_levels_subdir ht hc)
      by_cases hroll : ins.minLevel ≤ l ∧ (s.ix p).isrolledup = true
      · obtain ⟨hmin, hroll⟩ := hroll
        obtain ⟨db, hdb, heq⟩ := hrun.rolledDb_eq hroot
          (fun u hu => by
            obtain ⟨dbu, hdbu, -⟩ := (hix u hu).db
            rw [hdbu]
            rfl) hmem (hdone _ hmem) (rolledup_of_ok hix hrun hok hmem hroll)
        have hsub : ∀ u ∈ (DirTree.node p cs).subtrees, (ix u.path).Unrolled :=
          fun u hu => hix u (DirTree.subtrees_subset_of_mem hmem hu)
        have hstop : ¬descends ins l (s.ix (DirTree.node p cs).path) = true := by
          change ¬descends ins l (s.ix p) = true
          simp [descends, hmin, hroll]
        rw [queried_eq, if_pos hmin, if_neg hstop, List.append_nil, hdb, Option.map_some,
          Option.getD_some, queried_of_unrolled hmin (fun x hx => ?_) hsub]
        · apply contentEvents_rolledDb hsub _ heq
          have hsublist := (levels_sublist ht).map Prod.snd
          rw [DirTree.map_snd_levels, DirTree.map_snd_levels] at hsublist
          exact (hsublist.flatMap _).nodup hnodup
        · exact hlevel x ((levels_sublist ht).subset hx)
      · have hown : (if ins.minLevel ≤ l then
            ((s.ix p).db.map (contentEvents f g)).getD [] else []) =
            if ins.minLevel ≤ l then ((ix p).db.map (contentEvents f g)).getD [] else [] := by
          split_ifs with hmin
          · have hfalse : (s.ix p).isrolledup = false :=
              Bool.eq_false_iff.mpr fun h => hroll ⟨hmin, h⟩
            exact contentEvents_of_undone hun
              ((hrun.leftBy hroot hix hdone ht).undone hfalse)
          · rfl
        have hgo : descends ins l (s.ix p) = descends ins l (ix p) := by
          by_cases hmin : ins.minLevel ≤ l
          · have hfalse : (s.ix p).isrolledup = false :=
              Bool.eq_false_iff.mpr fun h => hroll ⟨hmin, h⟩
            simp [descends, hfalse, hunroll]
          · simp [descends, hmin]
        rw [queried_eq, queried_eq]
        change ((if ins.minLevel ≤ l then ((s.ix p).db.map (contentEvents f g)).getD [] else []) ++
          if descends ins l (s.ix p) then cs.flatMap _ else []).Perm
            ((if ins.minLevel ≤ l then ((ix p).db.map (contentEvents f g)).getD [] else []) ++
              if descends ins l (ix p) then cs.flatMap _ else [])
        rw [hown, hgo]
        apply List.Perm.append_left
        split_ifs
        · exact hbelow
        · exact .refl _

end Reached

section Pointwise

variable {ρ : Type*}

/-- The statement without placeholders: it is run as it is. -/
theorem runStatement_of_noKeys {sqlite : Sqlite ρ} {sql : Bytes} (h : saveReplacements sql = [])
    (seen : Seen) (v : Visit ρ) : runStatement sqlite sql seen v =
      some (v.add (sqlite.exec sql seen), (sqlite.exec sql seen).rows.length) := by
  unfold runStatement replaceSql
  rw [if_pos h]

/-- `-S` and `-E` look at the summary rows and the entries one by one, at the columns that do not
depend on where a row is shown, and `-E` is run in each directory. -/
structure Pointwise (ins : Input) (sqlite : Sqlite ρ) (f : PEntryRow → List (Event ρ))
    (g : SummaryRow → List (Event ρ)) : Prop where
  always : ins.sum = [] ∨ ins.processSql ≠ .runOnRow
  sumKeys : saveReplacements ins.sum = []
  entKeys : saveReplacements ins.ent = []
  sum : ∀ seen, (if ins.sum = [] then [] else (sqlite.exec ins.sum seen).events).Perm
    ((seen.db.summary.map SummaryRow.columns).flatMap g)
  ent : ∀ seen, (if ins.ent = [] then [] else (sqlite.exec ins.ent seen).events).Perm
    (seen.db.pentries.flatMap f)

variable {ins : Input} {sqlite : Sqlite ρ} {f : PEntryRow → List (Event ρ)}
  {g : SummaryRow → List (Event ρ)}

theorem Pointwise.determined (h : Pointwise ins sqlite f g) (hplain : Plain ins) :
    Determined ins sqlite := by
  constructor
  · intro key hkey
    rw [keysOf, hplain.tsum] at hkey
    cases hkey
  · intro key hkey
    rw [keysOf, h.sumKeys] at hkey
    cases hkey
  · intro key hkey
    rw [keysOf, h.entKeys] at hkey
    cases hkey

theorem Pointwise.asks_perm (h : Pointwise ins sqlite f g) (gqw : Gqw) (walked : ℕ) (db : Db) :
    (asks ins sqlite gqw walked db).Perm (contentEvents f g db) := by
  let seen := gqw.seen db none walked
  have hent (v : Visit ρ) : (runEnt ins sqlite seen v).events =
      v.events ++ if ins.ent = [] then [] else (sqlite.exec ins.ent seen).events := by
    unfold runEnt
    split_ifs
    · exact (List.append_nil _).symm
    · rw [runStatement_of_noKeys h.entKeys]
      rfl
  have hevents : asks ins sqlite gqw walked db =
      (if ins.sum = [] then [] else (sqlite.exec ins.sum seen).events) ++
        if ins.ent = [] then [] else (sqlite.exec ins.ent seen).events := by
    unfold asks runSumEnt runSum
    by_cases hsum : ins.sum = []
    · rw [if_pos hsum, if_pos hsum]
      exact hent _
    · rw [if_neg hsum, if_neg hsum, runStatement_of_noKeys h.sumKeys]
      dsimp only [Option.map_some]
      rw [if_neg (h.always.resolve_left hsum), if_pos one_pos]
      exact hent _
  rw [hevents]
  exact (h.sum seen).append (h.ent seen)

theorem flatMap_ownEvents_perm (h : Pointwise ins sqlite f g) (ix : Index) (l : ℕ) (t : DirTree) :
    ((reached ins ix l t).flatMap fun x => ownEvents ins sqlite ix x.1 x.2).Perm
      (queried ins (contentEvents f g) ix l t) := by
  apply List.Perm.flatMap_left
  intro x _
  unfold ownEvents
  by_cases hmin : ins.minLevel ≤ x.1
  · rw [if_pos hmin, if_pos hmin]
    cases (ix x.2.path).db with
    | none => exact .refl _
    | some db => exact h.asks_perm ..
  · rw [if_neg hmin, if_neg hmin]

variable {ts : TreeSummaryCode} {cfg : Config} {F : DirFaults → Prop} {root : DirTree}
  {ix : Index} {s : RunState} {src src' : Source} {threads threads' : ℕ} {p p' : Pool ρ}

/-- `-S` prints the inodes. -/
def printsInodes : Sqlite ℕ where
  exec _ seen := ⟨seen.db.summary.map SummaryRow.inode, [], []⟩
  copy _ _ := []

theorem pointwise_printsInodes : Pointwise (plainInput [83] []) printsInodes (fun _ => [])
    fun row => [.printed row.inode] where
  always := Or.inr (by decide)
  sumKeys := rfl
  entKeys := rfl
  sum := by
    intro seen
    have hsum : (plainInput [83] []).sum ≠ [] := by decide
    have hevents : (printsInodes.exec (plainInput [83] []).sum seen).events =
        (seen.db.summary.map SummaryRow.columns).flatMap
          fun row => [Event.printed row.inode] := by
      simp only [printsInodes, Answer.events, List.map_nil, List.nil_append, List.map_map,
        List.flatMap_map, ← List.map_eq_flatMap]
      rfl
    rw [if_neg hsum, hevents]
  ent := by
    intro seen
    rw [if_pos (show (plainInput [83] []).ent = [] from rfl)]
    simp

end Pointwise

end Gufi.QueryWalk
