import Gufi.IndexedTree
import Gufi.QueryRollup

/-!
# Queries of an index that has been built

What `gufi_query` prints about an index that `gufi_dir2index` has built is what the statements say
about each directory of the source that was reached and about each file and link in it, once each,
whatever the threads of either program did first. It stays so when `gufi_rollup` has been run in
between.
-/

namespace Gufi.IndexBuild

open UnixAccess Worklist Relation
open QueryWalk (Event Pointwise Plain Lists Walks Sqlite contentEvents queried workOf)

section Source

variable (columns : Columns) (ins : Input) (src : Source) (sys : System)

/-- The directories of the source that get into the index, each before those below it. -/
def madeDirs : ℕ → DirWork → List DirWork
  | 0, w => [w]
  | n + 1, w => w :: ((expandDir ins src sys w).2.filter (isMade ins src sys)).flatMap (madeDirs n)

variable {ρ : Type*} (f : PEntryRow → List (Event ρ)) (g : SummaryRow → List (Event ρ))

/-- The files and links in a directory of the source, as rows. -/
def sourcePentries (w : DirWork) : List PEntryRow :=
  (opened src w).elim [] fun x =>
    (loopItems ins.options x.1 x.2 (dir2indexSkips ins.options)).map fun item =>
      ⟨entryRow columns (insertdbgo item.1 item.2), x.1.statuso.ino.toNat,
        x.1.pinode.toUInt64.toNat⟩

/-- What is returned for a directory of the source and for the files and links in it. -/
def sourceEvents (w : DirWork) : List (Event ρ) :=
  (opened src w).elim [] (fun x => g (summaryRow columns
      (dir2indexDir ins.options x.1 (src.xattrs w.name) x.2).summary).columns) ++
    (sourcePentries columns ins src w).flatMap f

variable {columns ins src sys f g} {roots : List DirWork} {w v : DirWork} {t : DirTree} {l n : ℕ}

/-- What is read from the tree is what is read from the directories that are made. -/
theorem flatMap_subtrees {β : Type*} {F : DirWork → List β} {G : DirTree → List β}
    (hF : ∀ t l v, NodeOf ins src sys roots t l v → G t = F v)
    {path : Bytes} (h : NodeOf ins src sys roots (indexTree ins src sys n path w) l w)
    (hn : ins.maxLevel - l ≤ n) : (indexTree ins src sys n path w).subtrees.flatMap G =
      (madeDirs ins src sys n w).flatMap F := by
  rw [DirTree.subtrees_eq, List.flatMap_cons, hF _ _ _ h]
  induction n generalizing path w l with
  | zero => rfl
  | succ n ih =>
      rw [madeDirs, List.flatMap_cons, List.flatMap_assoc, List.flatMap_assoc]
      congr 1
      change ((((expandDir ins src sys w).2.filter (isMade ins src sys)).map
        fun c => indexTree ins src sys n (path ++ slash :: c.basename) c).flatMap _) = _
      rw [List.flatMap_map]
      apply List.flatMap_congr
      intro c hc
      have hchild : NodeOf ins src sys roots
          (indexTree ins src sys n (path ++ slash :: c.basename) c) (l + 1) c := by
        have hchild := h.child hc (m := n) (by omega)
        rwa [path_indexTree] at hchild
      rw [DirTree.subtrees_eq, List.flatMap_cons, hF _ _ _ hchild]
      exact ih hchild (by omega)

theorem isMade_of_enqueues (hc : v ∈ (expandDir ins src sys w).2) :
    isMade ins src sys w = true := by
  rcases expandDir_cases ins src sys w with ⟨heq, -⟩ | ⟨heq, -⟩ | ⟨work, dirents, hopen, heq, -⟩
  · rw [heq] at hc
    cases hc
  · rw [heq] at hc
    cases hc
  · rw [isMade, hopen]
    cases hmkdir : sys.mkdir (w.place ins) with
    | true => rfl
    | false =>
        simp only [expandDir, hopen, hmkdir] at heq
        cases heq

theorem self_mem_madeDirs (n : ℕ) (w : DirWork) : w ∈ madeDirs ins src sys n w := by
  cases n with
  | zero => exact List.mem_singleton.mpr rfl
  | succ n => exact List.mem_cons_self ..

/-- The list has the directories that are reached and made. -/
theorem mem_madeDirs (hmade : isMade ins src sys w = true) (hn : ins.maxLevel - w.level ≤ n) :
    v ∈ madeDirs ins src sys n w ↔
      Reached ins src sys [w] v ∧ isMade ins src sys v = true := by
  constructor
  · intro hv
    clear hn
    induction n generalizing w with
    | zero =>
        obtain rfl := List.mem_singleton.mp hv
        exact ⟨below_of_mem (List.mem_singleton.mpr rfl), hmade⟩
    | succ n ih =>
        rcases List.mem_cons.mp hv with rfl | hv
        · exact ⟨below_of_mem (List.mem_singleton.mpr rfl), hmade⟩
        · obtain ⟨c, hc, hv⟩ := List.mem_flatMap.mp hv
          obtain ⟨hc, hcmade⟩ := List.mem_filter.mp hc
          obtain ⟨⟨r, hr, hrun⟩, hvmade⟩ := ih hcmade hv
          rw [List.mem_singleton.mp hr] at hrun
          exact ⟨⟨w, List.mem_singleton.mpr rfl, .head hc hrun⟩, hvmade⟩
  · rintro ⟨⟨r, hr, hrun⟩, hvmade⟩
    rw [List.mem_singleton.mp hr] at hrun
    clear hr hmade
    induction hrun using ReflTransGen.head_induction_on generalizing n with
    | refl => exact self_mem_madeDirs ..
    | @head w c hc hrun ih =>
        obtain ⟨-, -, hlevel, hmax⟩ := legalName_expandDir hc
        cases n with
        | zero => omega
        | succ n =>
            have hcmade : isMade ins src sys c = true := by
              rcases ReflTransGen.cases_head hrun with rfl | ⟨d, hd, -⟩
              · exact hvmade
              · exact isMade_of_enqueues hd
            apply List.mem_cons_of_mem
            exact List.mem_flatMap.mpr ⟨c, List.mem_filter.mpr ⟨hc, hcmade⟩, ih (by omega)⟩

theorem nodup_madeDirs {path : Bytes}
    (h : NodeOf ins src sys roots (indexTree ins src sys n path w) l w)
    (hn : ins.maxLevel - l ≤ n) : (madeDirs ins src sys n w).Nodup := by
  have hplaces := flatMap_subtrees (F := fun v => [v.place ins]) (G := fun t => [placeOf t.path])
    (fun t l v hv => by rw [hv.place]) h hn
  rw [← List.map_eq_flatMap, ← List.map_eq_flatMap] at hplaces
  have hnodup := h.nodup_places
  rw [hplaces] at hnodup
  exact hnodup.of_map _

end Source

section Rows

variable {columns : Columns} {ins : Input} {src : Source} {w : DirWork} {work : Trace.Work}
  {dirents : List Dirent}

theorem sqlQ_injective : Function.Injective sqlQ := by
  intro a
  induction a with
  | nil =>
      intro b h
      cases b with
      | nil => rfl
      | cons d b =>
          rw [sqlQ_cons] at h
          split_ifs at h <;> cases h
  | cons c a ih =>
      intro b h
      cases b with
      | nil =>
          rw [sqlQ_cons] at h
          split_ifs at h <;> cases h
      | cons d b =>
          rw [sqlQ_cons, sqlQ_cons] at h
          split_ifs at h with hc hd hd
          · rw [hc, hd, ih (List.append_cancel_left h)]
          · obtain ⟨hcd, -⟩ := List.cons.inj h
            exact absurd hcd.symm hd
          · obtain ⟨hcd, -⟩ := List.cons.inj h
            exact absurd hcd hc
          · obtain ⟨hcd, h⟩ := List.cons.inj h
            rw [hcd, ih h]

theorem basename_of_direntItem {o : IndexOptions} {d : Dirent}
    {item : Trace.Work × Trace.EntryData} (h : direntItem o work d = some item) :
    basename item.1 = d.name := by
  unfold direntItem at h
  dsimp only at h
  split at h
  all_goals cases h
  all_goals exact drop_basename work.name d.name

/-- The files and links of a directory have different names. -/
theorem nodup_entries (columns : Columns) (hopen : opened src w = some (work, dirents))
    (o : IndexOptions) (skips : Bytes → Bool) : ((loopItems o work dirents skips).map
      fun item => entryRow columns (insertdbgo item.1 item.2)).Nodup := by
  have hnodup : (dirents.map Dirent.name).Nodup := by
    obtain ⟨ds, hds, hst⟩ := Option.bind_eq_some_iff.mp hopen
    obtain ⟨st, -, heq⟩ := Option.map_eq_some_iff.mp hst
    cases heq
    exact src.nodup _ _ hds
  have hnames : ∀ ds : List Dirent, ((ds.filterMap (direntItem o work)).map
      fun item => basename item.1).Sublist (ds.map Dirent.name) := by
    intro ds
    induction ds with
    | nil => exact .slnil
    | cons d ds ih =>
        rw [List.map_cons]
        cases hitem : direntItem o work d with
        | none =>
            rw [List.filterMap_cons_none hitem]
            exact ih.cons _
        | some item =>
            rw [List.filterMap_cons_some hitem, List.map_cons, basename_of_direntItem hitem]
            exact ih.cons_cons _
  have hbasenames : ((loopItems o work dirents skips).map fun item => basename item.1).Nodup :=
    ((hnames _).trans (List.filter_sublist.map _)).nodup hnodup
  apply List.Nodup.of_map EntryRow.name
  rw [List.map_map]
  have hquoted := hbasenames.map sqlQ_injective
  rwa [List.map_map] at hquoted

theorem ownPentries_dbOf (columns : Columns) (hopen : opened src w = some (work, dirents))
    (xattrs : List Trace.Xattr) :
    (dbOf columns (dir2indexDir ins.options work xattrs dirents)).ownPentries =
      sourcePentries columns ins src w := by
  rw [Db.ownPentries, Db.rootRows, sourcePentries, hopen, Option.elim_some]
  simp only [dbOf, summaryRow, dir2indexDir, List.filter_cons_of_pos, List.filter_nil,
    List.map_singleton, List.flatMap_map, ← List.map_eq_flatMap]
  rfl

theorem nodup_sourcePentries (columns : Columns) (ins : Input) (src : Source) (w : DirWork) :
    (sourcePentries columns ins src w).Nodup := by
  rw [sourcePentries]
  cases hopen : opened src w with
  | none => exact List.nodup_nil
  | some x =>
      have hnodup := nodup_entries columns hopen ins.options (dir2indexSkips ins.options)
      apply List.Nodup.of_map PEntryRow.entry
      rwa [Option.elim_some, List.map_map]

end Rows

section Queries

variable {columns : Columns} {ins : Input} {src : Source} {sys : System} {roots : List DirWork}
  {s₀ s : State} {w : DirWork} {t : DirTree} {l : ℕ} {ρ : Type*} {f : PEntryRow → List (Event ρ)}
  {g : SummaryRow → List (Event ρ)}

/-- What the queries return for a directory of the index. -/
theorem Builds.contentEvents_nodeOf (h : Builds ins src sys roots s₀ s)
    (ht : NodeOf ins src sys roots t l w) :
    ((indexOf columns s t.path).db.map (contentEvents f g)).getD [] =
      sourceEvents columns ins src f g w := by
  obtain ⟨work, dirents, hopen, heq⟩ := h.indexOf_nodeOf columns ht
  let db := dbOf columns (dir2indexDir ins.options work (src.xattrs w.name) dirents)
  have hpentries : db.pentries = sourcePentries columns ins src w := by
    have hnodup := nodup_sourcePentries columns ins src w
    rw [← List.append_nil (sourcePentries columns ins src w)] at hnodup
    rw [Db.pentries, ownPentries_dbOf columns hopen]
    exact (SqlTable.union_eq_append hnodup).trans (List.append_nil _)
  rw [heq, Option.map_some, Option.getD_some, sourceEvents, hopen, Option.elim_some, contentEvents,
    hpentries]
  exact congrArg (· ++ _) (List.flatMap_singleton ..)

theorem Builds.levels_le (h : Builds ins src sys roots s₀ s)
    (ht : NodeOf ins src sys roots t l w) : ∀ x ∈ t.levels l, x.1 ≤ ins.maxLevel := by
  intro x hx
  obtain ⟨v, hv⟩ := nodeOf_of_mem_levels ht hx
  rw [← hv.level]
  exact hv.reached.level_le h.level

/-- In an index that has been built nothing is rolled up. -/
theorem Builds.unrolled_nodeOf (h : Builds ins src sys roots s₀ s) (columns : Columns)
    (hnobody : NoNobody ins src)
    (ht : NodeOf ins src sys roots t l w) : (indexOf columns s t.path).Unrolled := by
  obtain ⟨work, dirents, hopen, heq⟩ := h.indexOf_nodeOf columns ht
  rw [heq]
  exact unrolled_filled fun x hx => (xattrs_dir2indexDir hnobody hopen _ x hx).1

variable {qins : QueryWalk.Input} {qsrc : QueryWalk.Source} {sqlite : Sqlite ρ} {threads : ℕ}
  {path : Bytes} {p : QueryWalk.Pool ρ}

/-- The directories that are made, once each, with what is returned for them. -/
theorem Builds.exists_dirs (h : Builds ins src sys roots s₀ s) (hnobody : NoNobody ins src) (hw : w ∈ roots) (hroot : RootAt ins src sys w path)
    (hqmin : qins.minLevel = 0) (hqmax : ins.maxLevel ≤ qins.maxLevel) :
    ∃ dirs : List DirWork, dirs.Nodup ∧
      (∀ v, v ∈ dirs ↔ Reached ins src sys [w] v ∧ isMade ins src sys v = true) ∧
      queried qins (contentEvents f g) (indexOf columns s) 0
          (indexTree ins src sys ins.maxLevel path w) =
        dirs.flatMap (sourceEvents columns ins src f g) := by
  have hnode := hroot.nodeOf hw
  refine ⟨madeDirs ins src sys ins.maxLevel w, nodup_madeDirs hnode (Nat.sub_le ..),
    fun v => mem_madeDirs hroot.made (Nat.sub_le ..), ?_⟩
  rw [QueryWalk.queried_of_unrolled (by rw [hqmin])]
  · exact flatMap_subtrees (fun t l v hv =>
      h.contentEvents_nodeOf hv) hnode (Nat.sub_le ..)
  · exact fun x hx => (h.levels_le hnode x hx).trans hqmax
  · intro u hu
    obtain ⟨l, v, hv⟩ := nodeOf_of_mem_subtrees hnode hu
    exact h.unrolled_nodeOf columns hnobody hv

/-- Directories have inodes of their own, as they do in one file system. -/
def DistinctInodes (ins : Input) (src : Source) (sys : System) (w : DirWork) : Prop :=
  ∀ v x v' x', Reached ins src sys [w] v → Reached ins src sys [w] v' → opened src v = some x →
    opened src v' = some x' → x.1.statuso.ino = x'.1.statuso.ino → v = v'

theorem Builds.ownPentries_nodeOf (h : Builds ins src sys roots s₀ s)
    (ht : NodeOf ins src sys roots t l w) :
    (indexOf columns s t.path).ownPentries = sourcePentries columns ins src w := by
  obtain ⟨work, dirents, hopen, heq⟩ := h.indexOf_nodeOf columns ht
  rw [heq]
  exact ownPentries_dbOf columns hopen _

/-- The rows of the whole tree are different. -/
theorem Builds.nodup_ownPentries (h : Builds ins src sys roots s₀ s) (hw : w ∈ roots)
    (hroot : RootAt ins src sys w path) (hinodes : DistinctInodes ins src sys w) :
    ((indexTree ins src sys ins.maxLevel path w).subtrees.flatMap
      fun t => (indexOf columns s t.path).ownPentries).Nodup := by
  have hnode := hroot.nodeOf hw
  rw [flatMap_subtrees (fun t l v hv => h.ownPentries_nodeOf hv) hnode (Nat.sub_le ..),
    List.nodup_flatMap]
  refine ⟨fun v _ => nodup_sourcePentries columns ins src v, ?_⟩
  have hdirs := nodup_madeDirs hnode (Nat.sub_le ..)
  apply List.Pairwise.imp_of_mem _ hdirs
  intro v v' hv hv' hne row hrow hrow'
  have hpinode {v : DirWork} (hrow : row ∈ sourcePentries columns ins src v) :
      ∃ x, opened src v = some x ∧ row.pinode = x.1.statuso.ino.toNat := by
    rw [sourcePentries] at hrow
    cases hopen : opened src v with
    | none =>
        rw [hopen] at hrow
        cases hrow
    | some x =>
        rw [hopen] at hrow
        obtain ⟨item, -, rfl⟩ := List.mem_map.mp hrow
        exact ⟨x, rfl, rfl⟩
  obtain ⟨x, hopen, hx⟩ := hpinode hrow
  obtain ⟨x', hopen', hx'⟩ := hpinode hrow'
  have hreached := ((mem_madeDirs hroot.made (Nat.sub_le ..)).mp hv).1
  have hreached' := ((mem_madeDirs hroot.made (Nat.sub_le ..)).mp hv').1
  exact hne (hinodes v x v' x' hreached hreached' hopen hopen'
    (UInt64.toNat_inj.mp (hx.symm.trans hx')))

variable {ts : TreeSummaryCode} {cfg : Config} {F : DirFaults → Prop} {r : RunState}

end Queries

section Example

open QueryWalk (plainInput printsInodes sourceOf)

/-- `-S` prints the inodes, as deep as the index can be. -/
def smallQuery : QueryWalk.Input := { plainInput [83] [] with maxLevel := 5 }

theorem pointwise_smallQuery : Pointwise smallQuery printsInodes (fun _ => [])
    fun row => [.printed row.inode] :=
  ⟨QueryWalk.pointwise_printsInodes.always, rfl, rfl, QueryWalk.pointwise_printsInodes.sum,
    QueryWalk.pointwise_printsInodes.ent⟩

theorem plain_smallQuery : Plain smallQuery := ⟨rfl, rfl, rfl, rfl⟩

theorem mem_subtrees_smallTree {t : DirTree} : t ∈ smallTree.subtrees ↔
    t = smallTree ∨ t = .node [105, 47, 116, 47, 100] [] := by
  have hsubtrees : smallTree.subtrees = [smallTree, .node [105, 47, 116, 47, 100] []] := rfl
  rw [hsubtrees]
  simp

theorem lists_smallTree (ix : Index) : Lists smallQuery (sourceOf ix smallTree) ix smallTree 0 := by
  apply QueryWalk.lists_sourceOf
    (rootAt_small.nodeOf (List.mem_singleton.mpr rfl)).wellFormed
  intro t ht c hc
  rcases mem_subtrees_smallTree.mp ht with rfl | rfl
  · obtain rfl := List.mem_singleton.mp hc
    rfl
  · cases hc

theorem distinctInodes_small : DistinctInodes smallInput (smallSource 0o40755)
    (smallSystem fun _ => true) smallRoot := by
  intro v x v' x' hv hv' hopen hopen' heq
  have hdirs : madeDirs smallInput (smallSource 0o40755) (smallSystem fun _ => true) 5 smallRoot =
      [smallRoot, ⟨[116, 47, 100], 1, 1, 1, 0, by decide⟩] := rfl
  have hmem {v : DirWork} (hv : Reached smallInput (smallSource 0o40755)
      (smallSystem fun _ => true) [smallRoot] v) :
      v = smallRoot ∨ v = ⟨[116, 47, 100], 1, 1, 1, 0, by decide⟩ := by
    have h := (mem_madeDirs rootAt_small.made (Nat.sub_le ..)).mpr ⟨hv, rfl⟩
    rw [show smallInput.maxLevel = 5 from rfl, hdirs] at h
    simpa using h
  rcases hmem hv with rfl | rfl
  all_goals
    rcases hmem hv' with rfl | rfl
    all_goals
      cases hopen
      cases hopen'
      first
      | rfl
      | exact absurd heq (by decide)

end Example

end Gufi.IndexBuild
