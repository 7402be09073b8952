import Gufi.IndexBuilt
import Gufi.ProtectedXattrs
import Gufi.XattrPlaces

/-!
# What the other programs find in an index

`gufi_rollup` and `gufi_query` read the databases that `gufi_dir2index` has filled. The directories
of an index that has been built are a tree, and the tables are as the claims about rollups take them
to be: nothing is rolled up, and every database of extended attributes has been created by
`create_xattr_db`, is listed, and has rows. Only the name of a directory is not always the name that
its summary row has, since quotes are doubled there.
-/

namespace Gufi.IndexBuild

open UnixAccess Worklist Relation

section Databases

/-- What is stored in the columns that no modelled function reads. -/
structure Columns where
  entry : EntriesInsert → List Bytes
  summary : SummaryInsert → List Bytes

variable (columns : Columns)

def entryRow (e : EntriesInsert) : EntryRow := ⟨e.name, e.statuso.ino.toNat, columns.entry e⟩

/-- `depth` is 0, the row is that of the directory itself, and nothing is rolled up. -/
def summaryRow (s : SummaryInsert) : SummaryRow where
  name := s.name
  inode := s.statuso.ino.toNat
  perms := statPermissions s.statuso
  totfiles := s.sums.totfiles.toNat
  totlinks := s.sums.totlinks.toNat
  depth := 0
  cols := columns.summary s
  pinode := s.pinode.toUInt64.toNat
  isroot := true
  canrollup := false
  isrolledup := false

/-- The tables of the template, with what has been inserted. -/
def dbOf (dir : IndexedDir) : Db where
  entries := dir.entries.map (entryRow columns)
  summary := [summaryRow columns dir.summary]
  pentriesRollup := []
  treesummary := none
  xattrsPwd := dir.xattrs.pwd
  xattrsRollup := []
  externalDbsPwd := dir.xattrs.dbs.map IndexedXattrDb.external
  externalDbsRollup := []

/-- The databases of extended attributes, by name. -/
def xattrDbOf (dir : IndexedDir) (name : Bytes) : Option XattrDb :=
  (dir.xattrs.dbs.find? fun x => x.filename = name).map fun x => ⟨x.perms, x.rows, []⟩

/-- What the programs that read the index find at a place. -/
def dirOf : Option IndexDir → Dir
  | some ⟨_, .filled dir⟩ => ⟨some (dbOf columns dir), xattrDbOf dir⟩
  | some ⟨_, .template⟩ => ⟨some ⟨[], [], [], none, [], [], [], []⟩, fun _ => none⟩
  | _ => ⟨none, fun _ => none⟩

def indexOf (s : State) : Index := fun path => dirOf columns (s.dirs (placeOf path))

end Databases

section Tree

variable (ins : Input) (src : Source) (sys : System)

def DirWork.basename (w : DirWork) : Bytes := w.name.drop (w.name.length - w.basenameLen)

/-- The directory is made in the index. -/
def isMade (w : DirWork) : Bool := (opened src w).isSome && sys.mkdir (w.place ins)

/-- The directories of the index at and below a path, down to a number of levels. -/
def indexTree : ℕ → Bytes → DirWork → DirTree
  | 0, path, _ => .node path []
  | n + 1, path, w => .node path (((expandDir ins src sys w).2.filter (isMade ins src sys)).map
      fun c => indexTree n (path ++ slash :: c.basename) c)

/-- A directory of the tree is one that is reached. -/
structure NodeOf (roots : List DirWork) (t : DirTree) (l : ℕ) (w : DirWork) : Prop where
  reached : Reached ins src sys roots w
  made : isMade ins src sys w = true
  level : w.level = l
  place : placeOf t.path = w.place ins
  name : t.name = w.basename
  tree : ∃ n, ins.maxLevel - l ≤ n ∧ t = indexTree ins src sys n t.path w

variable {ins src sys} {roots : List DirWork} {w c : DirWork} {t : DirTree} {l n : ℕ}

theorem path_indexTree (n : ℕ) (path : Bytes) (w : DirWork) :
    (indexTree ins src sys n path w).path = path := by
  cases n <;> rfl

/-- The subdirectories are one name below, and the names are legal. -/
theorem legalName_expandDir (hc : c ∈ (expandDir ins src sys w).2) :
    LegalName c.basename ∧ c.place ins = w.place ins ++ [c.basename] ∧ c.level = w.level + 1 ∧
      w.level + 1 ≤ ins.maxLevel := by
  rcases expandDir_cases ins src sys w with ⟨heq, -⟩ | ⟨heq, -⟩ | ⟨work, dirents, hopen, heq, -⟩
  · rw [heq] at hc
    cases hc
  · rw [heq] at hc
    cases hc
  · rw [heq] at hc
    obtain ⟨d, hlegal, rfl⟩ := exists_legalName hopen hc
    obtain ⟨hlevel, hmax, d', -, heq', hplace⟩ := mem_subdirs hopen hc
    have hname : d.name = d'.name :=
      (List.cons.inj (List.append_cancel_left (congrArg DirWork.name heq'))).2
    have hbasename : (childOf w work d).basename = d.name := drop_basename w.name d.name
    rw [hbasename, hplace, hname]
    exact ⟨hname ▸ hlegal, rfl, hlevel, hmax⟩

theorem NodeOf.child (h : NodeOf ins src sys roots t l w)
    (hc : c ∈ (expandDir ins src sys w).2.filter (isMade ins src sys)) {m : ℕ}
    (hm : ins.maxLevel - (l + 1) ≤ m) : NodeOf ins src sys roots
      (indexTree ins src sys m (t.path ++ slash :: c.basename) c) (l + 1) c := by
  obtain ⟨hc, hmade⟩ := List.mem_filter.mp hc
  obtain ⟨⟨hne, hnul, hslash, hdot, hdots⟩, hplace, hlevel, -⟩ := legalName_expandDir hc
  constructor
  · exact h.reached.enqueued hc
  · exact hmade
  · rw [hlevel, h.level]
  · rw [path_indexTree, placeOf_append, placeOf_name hslash hne hdot, h.place, hplace]
  · rw [DirTree.name, path_indexTree, splitPath_append hslash]
  · exact ⟨m, hm, by rw [path_indexTree]⟩

/-- The subdirectories of a directory of the tree are in the tree. -/
theorem NodeOf.subdirs (h : NodeOf ins src sys roots t l w) : ∃ m, t.subdirs =
      ((expandDir ins src sys w).2.filter (isMade ins src sys)).map
        (fun c => indexTree ins src sys m (t.path ++ slash :: c.basename) c) ∧
    ∀ c ∈ (expandDir ins src sys w).2.filter (isMade ins src sys),
      NodeOf ins src sys roots (indexTree ins src sys m (t.path ++ slash :: c.basename) c)
        (l + 1) c := by
  obtain ⟨n, hn, htree⟩ := h.tree
  cases n with
  | zero =>
      have hnone : (expandDir ins src sys w).2 = [] := by
        apply List.eq_nil_iff_forall_not_mem.mpr
        intro c hc
        obtain ⟨-, -, -, hmax⟩ := legalName_expandDir hc
        rw [h.level] at hmax
        omega
      refine ⟨ins.maxLevel, ?_, fun c hc => h.child hc (Nat.sub_le ..)⟩
      rw [hnone, htree]
      rfl
  | succ n =>
      refine ⟨n, ?_, fun c hc => h.child hc (by omega)⟩
      conv_lhs => rw [htree]
      rfl

theorem nodeOf_of_mem_levels {root : DirTree} {k : ℕ} (h : NodeOf ins src sys roots root k w)
    (ht : (l, t) ∈ root.levels k) : ∃ v, NodeOf ins src sys roots t l v := by
  induction root using DirTree.induct generalizing k w with
  | node p cs ih =>
      rw [DirTree.levels_eq] at ht
      rcases List.mem_cons.mp ht with heq | ht
      · obtain ⟨rfl, rfl⟩ := Prod.mk.inj heq
        exact ⟨w, h⟩
      · obtain ⟨c, hc, ht⟩ := List.mem_flatMap.mp ht
        obtain ⟨m, hsubdirs, hnodes⟩ := h.subdirs
        have hmem := hc
        rw [hsubdirs] at hc
        obtain ⟨v, hv, rfl⟩ := List.mem_map.mp hc
        exact ih _ hmem (hnodes v hv) ht

theorem nodeOf_of_mem_subtrees {root : DirTree} {k : ℕ} (h : NodeOf ins src sys roots root k w)
    (ht : t ∈ root.subtrees) : ∃ l v, NodeOf ins src sys roots t l v := by
  obtain ⟨l, ht⟩ := DirTree.exists_level ht k
  exact ⟨l, nodeOf_of_mem_levels h ht⟩

/-- The places of a tree are at and below that of its root. -/
theorem NodeOf.prefix_place (h : NodeOf ins src sys roots t l w) :
    ∀ u ∈ t.subtrees, w.place ins <+: placeOf u.path := by
  intro u hu
  have hself : NodeOf ins src sys [w] t l w :=
    { h with reached := below_of_mem (List.mem_singleton.mpr rfl) }
  obtain ⟨_, v, hv⟩ := nodeOf_of_mem_subtrees hself hu
  obtain ⟨w', hw', hpre⟩ := Reached.prefix hv.reached
  rw [List.mem_singleton.mp hw'] at hpre
  rwa [hv.place]

theorem NodeOf.nodup_places (h : NodeOf ins src sys roots t l w) :
    (t.subtrees.map fun u => placeOf u.path).Nodup := by
  induction t using DirTree.induct generalizing l w with
  | node p cs ih =>
      obtain ⟨m, hsubdirs, hnodes⟩ := h.subdirs
      have hmem {c : DirTree} (hc : c ∈ cs) : ∃ v ∈ (expandDir ins src sys w).2,
          NodeOf ins src sys roots c (l + 1) v := by
        change c ∈ (DirTree.node p cs).subdirs at hc
        rw [hsubdirs] at hc
        obtain ⟨v, hv, rfl⟩ := List.mem_map.mp hc
        exact ⟨v, (List.mem_filter.mp hv).1, hnodes v hv⟩
      have hbelow {c u : DirTree} (hc : c ∈ cs) (hu : u ∈ c.subtrees) :
          placeOf u.path ≠ w.place ins := by
        obtain ⟨v, hv, hnode⟩ := hmem hc
        have hpre := hnode.prefix_place u hu
        rw [(legalName_expandDir hv).2.1] at hpre
        intro heq
        have hlen := (heq ▸ hpre).length_le
        rw [List.length_append, List.length_singleton] at hlen
        omega
      have hapart : cs.Pairwise fun c c' => ∀ u ∈ c.subtrees, ∀ u' ∈ c'.subtrees,
          placeOf u.path ≠ placeOf u'.path := by
        change (DirTree.node p cs).subdirs.Pairwise _
        rw [hsubdirs, List.pairwise_map]
        apply List.Pairwise.imp_of_mem _ ((pairwise_expandDir w).filter _)
        intro v v' hv hv' hvv u hu u' hu' heq
        have hpre := (hnodes v hv).prefix_place u hu
        have hpre' := (hnodes v' hv').prefix_place u' hu'
        rw [← heq] at hpre'
        rcases List.prefix_or_prefix_of_prefix hpre hpre' with h | h
        · exact hvv.1 h
        · exact hvv.2 h
      rw [DirTree.subtrees_eq, List.map_cons, List.nodup_cons, List.map_flatMap]
      constructor
      · intro hin
        obtain ⟨c, hc, hin⟩ := List.mem_flatMap.mp hin
        obtain ⟨u, hu, heq⟩ := List.mem_map.mp hin
        exact hbelow hc hu (heq.trans h.place)
      · rw [List.nodup_flatMap]
        refine ⟨fun c hc => ?_, hapart.imp fun hcc => ?_⟩
        · obtain ⟨v, -, hnode⟩ := hmem hc
          exact ih c hc hnode
        · intro q hq hq'
          obtain ⟨u, hu, rfl⟩ := List.mem_map.mp hq
          obtain ⟨u', hu', heq⟩ := List.mem_map.mp hq'
          exact hcc u hu u' hu' heq.symm

/-- The directories of an index are a tree of directories. -/
theorem NodeOf.wellFormed (h : NodeOf ins src sys roots t l w) : t.WellFormed where
  legal := by
    intro u hu c hc
    obtain ⟨k, v, hv⟩ := nodeOf_of_mem_subtrees h hu
    obtain ⟨m, hsubdirs, -⟩ := hv.subdirs
    rw [hsubdirs] at hc
    obtain ⟨x, hx, rfl⟩ := List.mem_map.mp hc
    exact ⟨x.basename, (legalName_expandDir (List.mem_filter.mp hx).1).1, path_indexTree ..⟩
  nodup := by
    have hnodup := h.nodup_places
    have hplaces : (t.subtrees.map fun u => placeOf u.path) = t.paths.map placeOf := by
      rw [DirTree.paths, List.map_map]
      rfl
    rw [hplaces] at hnodup
    exact hnodup.of_map _

end Tree

section Contents

variable {columns : Columns} {ins : Input} {src : Source} {sys : System} {roots : List DirWork}
  {s₀ s : State} {w : DirWork} {t : DirTree} {l : ℕ} {nobody : Nobody} {dir : IndexedDir}

theorem sqlQ_eq_self_iff (name : Bytes) : sqlQ name = name ↔ 39 ∉ name := by
  induction name with
  | nil => simp [sqlQ]
  | cons c name ih =>
      rw [sqlQ_cons, List.mem_cons, not_or, ← ih]
      by_cases hc : c = 39
      · have hlen := length_le_length_sqlQ name
        rw [if_pos hc]
        constructor
        · intro h
          have heq := congrArg List.length h
          simp only [List.length_append, List.length_cons, List.length_nil] at heq
          omega
        · intro h
          exact absurd hc.symm h.1
      · rw [if_neg hc]
        simp [Ne.symm hc]

/-- No file of nobody has attributes that have to stay out of `db.db`. -/
def NoNobody (ins : Input) (src : Source) : Prop :=
  ∀ w work dirents, opened src w = some (work, dirents) →
    ∀ item ∈ loopItems ins.options work dirents (dir2indexSkips ins.options),
      (indexedEntry item.1 item.2 work.statuso.ino.toNat).IsExternal
        (statPermissions work.statuso) →
      item.1.statuso.uid.toNat ≠ ins.options.nobody.uid ∧
        item.1.statuso.gid.toNat ≠ ins.options.nobody.gid

theorem created_of_key {k : XattrKey} (h : ¬k.OfNobody nobody) :
    Created nobody k.filename (k.perms nobody) := by
  cases k with
  | uid n => exact ⟨0, n, nobody.gid, 0, _, if_pos h, rfl, rfl⟩
  | gid n read =>
      have hgid : n ≠ nobody.gid := h
      cases read with
      | true =>
          refine ⟨0, nobody.uid, n, 0o040, ⟨xattrGidWReadFilename n, 0, ⟨0o040, nobody.uid, n⟩, []⟩,
            ?_, rfl, rfl⟩
          rw [createXattrDb, if_neg (by simp), if_pos hgid, if_pos (by decide)]
      | false =>
          refine ⟨0, nobody.uid, n, 0, ⟨xattrGidWoReadFilename n, 0, ⟨0o000, nobody.uid, n⟩, []⟩,
            ?_, rfl, rfl⟩
          rw [createXattrDb, if_neg (by simp), if_pos hgid, if_neg (by decide)]

/-- Every database of extended attributes has rows, and a name that goes with its owner. -/
theorem xattrs_dir2indexDir (hnobody : NoNobody ins src) {work : Trace.Work}
    {dirents : List Dirent} (hopen : opened src w = some (work, dirents))
    (xattrs : List Trace.Xattr) :
    ∀ x ∈ (dir2indexDir ins.options work xattrs dirents).xattrs.dbs,
      x.rows ≠ [] ∧ Created ins.options.nobody x.filename x.perms := by
  intro x hx
  unfold dir2indexDir at hx
  dsimp only at hx
  split_ifs at hx
  · let items := loopItems ins.options work dirents (dir2indexSkips ins.options)
    let es := items.map fun item => indexedEntry item.1 item.2 work.statuso.ino.toNat
    have hes : ∀ e ∈ es, e.IsExternal (statPermissions work.statuso) →
        e.perms.uid ≠ ins.options.nobody.uid ∧ e.perms.gid ≠ ins.options.nobody.gid := by
      intro e he hext
      obtain ⟨item, hitem, rfl⟩ := List.mem_map.mp he
      exact hnobody w work dirents hopen item hitem hext
    obtain ⟨keys, pinode, -, hkeys, hdbs, -⟩ := insertEntries_dbs hes
    rw [hdbs] at hx
    obtain ⟨k, hk, rfl⟩ := List.mem_map.mp hx
    obtain ⟨e, he, hke⟩ := (hkeys k).mp hk
    have hext : e.IsExternal (statPermissions work.statuso) := by
      by_contra hnot
      rw [IndexedEntry.keys, if_neg hnot] at hke
      cases hke
    obtain ⟨huid, hgid⟩ := hes e he hext
    constructor
    · intro hnil
      have hrows : e.rows = [] := by
        apply List.flatMap_eq_nil_iff.mp hnil e
        exact List.mem_filter.mpr ⟨he, by simpa using hke⟩
      exact hext.1 (List.map_eq_nil_iff.mp hrows)
    · apply created_of_key
      rw [IndexedEntry.keys, if_pos hext] at hke
      simp only [List.mem_cons, List.not_mem_nil, or_false] at hke
      rcases hke with rfl | rfl
      · exact huid
      · exact hgid
  · cases hx

theorem xattrFilename_of_created {f : Bytes} {p : Permissions} (h : Created nobody f p) :
    XattrFilename f := by
  obtain ⟨pinode, uid, gid, mode, x, hx, rfl, rfl⟩ := h
  obtain ⟨k, -, hk⟩ := createXattrDb_filename hx
  rw [hk]
  cases k with
  | uid n => exact ⟨n, .inl rfl⟩
  | gid n read =>
      cases read with
      | true => exact ⟨n, .inr (.inl rfl)⟩
      | false => exact ⟨n, .inr (.inr rfl)⟩

theorem xattrDbOf_eq_some {f : Bytes} {x : XattrDb} (h : xattrDbOf dir f = some x) :
    ∃ y ∈ dir.xattrs.dbs, y.filename = f ∧ x = ⟨y.perms, y.rows, []⟩ := by
  obtain ⟨y, hy, rfl⟩ := Option.map_eq_some_iff.mp h
  exact ⟨y, List.mem_of_find?_eq_some hy, by simpa using List.find?_some hy, rfl⟩

/-- What has been written for a directory is as rollups take it to be. -/
theorem unrolled_filled (hxattrs : ∀ x ∈ dir.xattrs.dbs, x.rows ≠ []) :
    (⟨some (dbOf columns dir), xattrDbOf dir⟩ : Dir).Unrolled where
  db := ⟨_, rfl, ⟨_, rfl, rfl, rfl⟩, rfl, rfl, rfl⟩
  xattrDbs f x hx := by
    obtain ⟨y, hy, -, rfl⟩ := xattrDbOf_eq_some hx
    exact ⟨hxattrs y hy, rfl⟩

theorem externalNames_filled : (⟨some (dbOf columns dir), xattrDbOf dir⟩ : Dir).externalNames =
    dir.xattrs.dbs.map IndexedXattrDb.filename := by
  have hall : (dbOf columns dir).externalDbsPwd.filter (fun x => x.type = .xattrs) =
      dir.xattrs.dbs.map IndexedXattrDb.external := by
    apply List.filter_eq_self.mpr
    intro x hx
    obtain ⟨y, -, rfl⟩ := List.mem_map.mp hx
    rfl
  rw [Dir.externalNames, Option.map_some, Option.getD_some, hall, List.map_map]
  rfl

/-- A directory that has been made gets its database. -/
theorem built_of_made (hmin : ins.minLevel = 0) (htemplate : ∀ p, sys.templateToDb p = true)
    (hmade : isMade ins src sys w = true) (hlevel : w.level ≤ ins.maxLevel)
    (old : Option IndexDir) : ∃ work dirents a, opened src w = some (work, dirents) ∧
      built ins src sys w old =
        some ⟨a, .filled (dir2indexDir ins.options work (src.xattrs w.name) dirents)⟩ := by
  obtain ⟨hopen, hmkdir⟩ := Bool.and_eq_true_iff.mp hmade
  obtain ⟨⟨work, dirents⟩, hopen⟩ := Option.isSome_iff_exists.mp hopen
  have hrange : w.inRange ins = true := by
    simp [DirWork.inRange, hmin, hlevel]
  have hgo : continues ins sys w = true := by
    rw [continues, htemplate, Bool.or_true]
  refine ⟨work, dirents, ((finishOf ins src sys w work dirents).apply old).attributes, hopen, ?_⟩
  rw [built, hopen]
  dsimp only
  rw [if_pos hmkdir, if_pos hgo, finishOf, if_pos hrange]
  rfl

/-- Where the index is read, for a root that has been made. -/
structure RootAt (ins : Input) (src : Source) (sys : System) (w : DirWork) (path : Bytes) : Prop
    where
  made : isMade ins src sys w = true
  level : w.level = 0
  place : placeOf path = w.place ins
  name : (splitPath path).2 = w.basename

theorem RootAt.nodeOf {path : Bytes} (h : RootAt ins src sys w path) (hw : w ∈ roots) :
    NodeOf ins src sys roots (indexTree ins src sys ins.maxLevel path w) 0 w where
  reached := below_of_mem hw
  made := h.made
  level := h.level
  place := by rw [path_indexTree, h.place]
  name := by rw [DirTree.name, path_indexTree, h.name]
  tree := ⟨ins.maxLevel, Nat.sub_le .., by rw [path_indexTree]⟩

theorem Reached.level_le (h : Reached ins src sys roots w) (hroots : ∀ r ∈ roots, r.level = 0) :
    w.level ≤ ins.maxLevel := by
  obtain ⟨r, hr, hrun⟩ := h
  cases ReflTransGen.cases_tail hrun with
  | inl heq =>
      rw [heq, hroots r hr]
      exact Nat.zero_le _
  | inr hstep =>
      obtain ⟨v, -, hw⟩ := hstep
      obtain ⟨-, -, hlevel, hmax⟩ := legalName_expandDir hw
      rw [hlevel]
      exact hmax

/-- A run from the first level on, of a program that may write to the index and has the template
for every directory. -/
structure Builds (ins : Input) (src : Source) (sys : System) (roots : List DirWork) (s₀ s : State) :
    Prop where
  mayWrite : MayWrite ins src sys s₀
  starts : Starts ins sys roots s₀
  runs : Runs ins src sys roots s₀ ([], s)
  minLevel : ins.minLevel = 0
  template : ∀ p, sys.templateToDb p = true
  level : ∀ r ∈ roots, r.level = 0

/-- The directories of the tree hold what has been written for them. -/
theorem Builds.indexOf_nodeOf (h : Builds ins src sys roots s₀ s) (columns : Columns)
    (ht : NodeOf ins src sys roots t l w) : ∃ work dirents, opened src w = some (work, dirents) ∧
      indexOf columns s t.path =
        ⟨some (dbOf columns (dir2indexDir ins.options work (src.xattrs w.name) dirents)),
          xattrDbOf (dir2indexDir ins.options work (src.xattrs w.name) dirents)⟩ := by
  obtain ⟨work, dirents, a, hopen, heq⟩ := built_of_made h.minLevel h.template ht.made
    (ht.reached.level_le h.level) (s₀.dirs (w.place ins))
  refine ⟨work, dirents, hopen, ?_⟩
  rw [indexOf, ht.place, h.runs.dirs_eq_built h.mayWrite h.starts ht.reached, heq]
  rfl

end Contents

section Example

/-- The tasks are taken as they come. -/
def smallBuilt : State := (drain (process smallInput (smallSource 0o40755)
  (smallSystem fun _ => true)) 4 ([.process smallRoot], smallStart)).2

def smallTree : DirTree := indexTree smallInput (smallSource 0o40755) (smallSystem fun _ => true)
  smallInput.maxLevel [105, 47, 116] smallRoot

theorem builds_small : Builds smallInput (smallSource 0o40755) (smallSystem fun _ => true)
    [smallRoot] smallStart smallBuilt where
  mayWrite := mayWrite_small _
  starts := starts_small _
  runs := by
    have h := reaches_drain (process smallInput (smallSource 0o40755) (smallSystem fun _ => true)) 4
      ([.process smallRoot], smallStart)
    exact h
  minLevel := rfl
  template _ := rfl
  level := by
    intro r hr
    obtain rfl := List.mem_singleton.mp hr
    rfl

theorem rootAt_small : RootAt smallInput (smallSource 0o40755) (smallSystem fun _ => true) smallRoot
    [105, 47, 116] :=
  ⟨by decide, rfl, by decide, by decide⟩

/-- The files have no extended attributes. -/
theorem noNobody_small (mode : UInt32) : NoNobody smallInput (smallSource mode) := by
  intro w work dirents hopen item hitem hext
  obtain ⟨d, -, hd⟩ := List.mem_filterMap.mp hitem
  refine absurd ?_ hext.1
  unfold direntItem at hd
  dsimp only at hd
  split at hd
  all_goals cases hd
  all_goals rfl

def smallColumns : Columns := ⟨fun e => [e.linkname], fun s => [s.linkname]⟩

end Example

end Gufi.IndexBuild
