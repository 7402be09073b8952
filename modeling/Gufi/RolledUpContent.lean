import Gufi.FailedRollup
import Gufi.RolledUp
import Gufi.Unrollup

/-!
# A rolled-up directory holds the content of its tree

Every rolled-up directory's views hold the rows of all directories of its tree. `UNION` keeps one
of equal rows, so they hold one row for each exactly when the rows of the tree are distinct. The
external xattr databases of a child are attached by the child's raw path, so the directory's own
are complete as long as SQLite reads those paths as they are. What earlier runs left in the index
does not matter.
-/

namespace Gufi

open SqlTable

section Files

/-- The rows `xattrs_avail` shows of a per-user or per-group database. -/
def Dir.availRows (d : Dir) (f : Bytes) : List XattrRow :=
  ((d.xattrDbs f).map XattrDb.avail).getD []

theorem Dir.mem_availRows {d : Dir} {f : Bytes} {x : XattrRow} :
    x ∈ d.availRows f ↔ x ∈ d.pwdRows f ∨ x ∈ d.rollupRows f := by
  unfold availRows pwdRows rollupRows
  cases d.xattrDbs f with
  | none => simp
  | some y => simp [XattrDb.avail]

theorem Dir.nodup_availRows (d : Dir) (f : Bytes) : (d.availRows f).Nodup := by
  unfold availRows
  cases d.xattrDbs f with
  | none => exact List.nodup_nil
  | some y => exact nodup_union ..

/-- No insert into an external xattr database fails. -/
def NoSilentFaults (flt : ChildFaults) : Prop :=
  ∀ k n, flt.external k ≠ some (.insert n)

variable (files : Bytes → Option XattrDb)

theorem copiedExternals_of_ok {flt : ℕ → Option ExternalFault} {child : Bytes}
    (hflt : ∀ k n, flt k ≠ some (.insert n)) {rows : List ExternalDb} {k : ℕ}
    {present : Bytes → Bool} (h : (copiedExternals files flt child k present rows).2 = true) :
    (copiedExternals files flt child k present rows).1 = rows.map fun row =>
      (row.filename, ((files (child ++ slash :: row.filename)).map XattrDb.avail).getD []) := by
  induction rows generalizing k present with
  | nil => rfl
  | cons row rows ih =>
      rw [copiedExternals] at h ⊢
      split_ifs at h ⊢
      cases hx : files (child ++ slash :: row.filename) with
      | none => simp [hx] at h
      | some x =>
          simp only [hx] at h ⊢
          have hrows : insertedRows (flt k) x.avail = x.avail := by
            unfold insertedRows
            split
            · next n hk => exact absurd hk (hflt k n)
            · rfl
          rw [hrows, ih h, List.map_cons, hx]
          rfl

theorem externals_copiedChild_of_ok {hasTreesummary : Bool} {present : Bytes → Bool} {c : Child}
    (hflt : NoSilentFaults c.faults)
    (h : (copiedChild files hasTreesummary present c).2 = true) :
    (copiedChild files hasTreesummary present c).1.externals = (childRows files c).externals := by
  unfold copiedChild childRows at *
  split_ifs at h ⊢
  cases hc : c.attached with
  | none => simp [hc] at h
  | some sub =>
      simp only [hc, copiedProcess, Option.map_some, Option.getD_some, dbRows] at h ⊢
      split_ifs at h ⊢ with htables
      · exact copiedExternals_of_ok files hflt h
      · exact absurd h htables

theorem externals_copiedChildren_of_ok {hasTreesummary : Bool} {cs : List Child}
    {present : Bytes → Bool} (hflt : ∀ c ∈ cs, NoSilentFaults c.faults)
    (h : (copiedChildren files hasTreesummary present cs).2 = true) :
    (copiedChildren files hasTreesummary present cs).1.externals =
      (allRows files cs).externals := by
  induction cs generalizing present with
  | nil => rfl
  | cons c cs ih =>
      simp only [copiedChildren] at h ⊢
      split_ifs at h ⊢ with hc
      · have hhead := externals_copiedChild_of_ok files (hflt c (List.mem_cons_self ..)) hc
        have htail := ih (fun x hx => hflt x (List.mem_cons_of_mem c hx)) h
        change _ = ((childRows files c).append (allRows files cs)).externals
        simp only [Rows.append, hhead, htail]
      · exact absurd h hc

theorem mem_forFile {externals : List (Bytes × List XattrRow)} {f : Bytes} {x : XattrRow} :
    x ∈ Rows.forFile externals f ↔ ∃ rows, (f, rows) ∈ externals ∧ x ∈ rows := by
  simp only [Rows.forFile, List.mem_flatMap, List.mem_filter, decide_eq_true_eq]
  constructor
  · rintro ⟨⟨g, rows⟩, ⟨hmem, rfl⟩, hx⟩
    exact ⟨rows, hmem, hx⟩
  · rintro ⟨rows, hmem, hx⟩
    exact ⟨(f, rows), ⟨hmem, rfl⟩, hx⟩

theorem externals_allRows (cs : List Child) :
    (allRows files cs).externals = cs.flatMap fun c => (childRows files c).externals := by
  induction cs with
  | nil => rfl
  | cons c cs ih =>
      rw [List.flatMap_cons, ← ih]
      rfl

/-- The rows a successful rollup has inserted into an external xattr database. -/
theorem mem_rollupRows_doRollup {ts : TreeSummaryCode} {umask : ℕ} {attach : AttachXattr}
    {own : Dir} {db : Db} {cs : List Child} (hdb : own.db = some db)
    (hattach : ∀ c ∈ cs, ∀ sub, c.attached = some sub → AttachesAs attach files c.path sub)
    (hflt : ∀ c ∈ cs, NoSilentFaults c.faults)
    (hok : (doRollup ts umask attach own cs).2 = true) (f : Bytes) (x : XattrRow) :
    ((doRollup ts umask attach own cs).1.pwdRows f = (rollupInit own).pwdRows f) ∧
    (x ∈ (doRollup ts umask attach own cs).1.rollupRows f ↔ x ∈ (rollupInit own).rollupRows f ∨
      ∃ c ∈ cs, ∃ sub, c.attached = some sub ∧ f ∈ sub.externalXattrs.map (·.filename) ∧
        ∃ y, files (c.path ++ slash :: f) = some y ∧ x ∈ y.avail) := by
  have hinit : (rollupInit own).db = some (db.rollupCleanup true) := by
    rw [rollupInit, Dir.rollupCleanup_db, hdb]
    rfl
  obtain ⟨happ, hres⟩ := appends_rollupChildren files umask cs hinit hattach
  have hfiles : (doRollup ts umask attach own cs).1.xattrDbs =
      (rollupChildren umask attach cs (rollupInit own)).1.xattrDbs := by
    unfold doRollup at hok ⊢
    obtain ⟨hchildren, -⟩ := thenIfOk_snd.mp hok
    rw [thenIfOk_of_ok hchildren]
    cases (rollupChildren umask attach cs (rollupInit own)).1.db <;> rfl
  have hchildren : (rollupChildren umask attach cs (rollupInit own)).2 = true := by
    unfold doRollup at hok
    exact (thenIfOk_snd.mp hok).1
  rw [hchildren] at hres
  constructor
  · rw [← happ.pwdRows]
    simp only [Dir.pwdRows, hfiles]
  · have hrows : (doRollup ts umask attach own cs).1.rollupRows f =
        (rollupChildren umask attach cs (rollupInit own)).1.rollupRows f := by
      simp only [Dir.rollupRows, hfiles]
    rw [hrows, happ.rollupRows, externals_copiedChildren_of_ok files hflt hres.symm,
      externals_allRows, List.mem_append, mem_forFile]
    apply or_congr Iff.rfl
    constructor
    · rintro ⟨rows, hmem, hx⟩
      obtain ⟨c, hc, hmem⟩ := List.mem_flatMap.mp hmem
      cases hsub : c.attached with
      | none => simp [childRows, hsub] at hmem
      | some sub =>
          simp only [childRows, hsub, Option.map_some, Option.getD_some, dbRows, List.mem_map,
            Prod.mk.injEq] at hmem
          obtain ⟨row, hrow, rfl, rfl⟩ := hmem
          refine ⟨c, hc, sub, hsub, List.mem_map_of_mem hrow, ?_⟩
          cases hy : files (c.path ++ slash :: row.filename) with
          | none => simp [hy] at hx
          | some y =>
              rw [hy] at hx
              exact ⟨y, rfl, hx⟩
    · rintro ⟨c, hc, sub, hsub, hf, y, hy, hx⟩
      obtain ⟨row, hrow, rfl⟩ := List.mem_map.mp hf
      refine ⟨y.avail, List.mem_flatMap.mpr ⟨c, hc, ?_⟩, hx⟩
      simp only [childRows, hsub, Option.map_some, Option.getD_some, dbRows, List.mem_map]
      exact ⟨row, hrow, by rw [hy]; rfl⟩

end Files

section Names

/-- A file name that SQLite reads as it is. -/
def PlainFilename (f : Bytes) : Prop :=
  slash ∉ f ∧ sqliteUriDecode f = f

theorem plainFilename_of_plain {f : Bytes} (h : ∀ c ∈ f, c ≠ 35 ∧ c ≠ 63 ∧ c ≠ 37 ∧ c ≠ slash) :
    PlainFilename f := by
  constructor
  · intro hmem
    exact (h slash hmem).2.2.2 rfl
  · induction f with
    | nil => rfl
    | cons c f ih =>
        obtain ⟨h35, h63, h37, -⟩ := h c (List.mem_cons_self ..)
        rw [sqliteUriDecode_plain h35 h63 h37,
          ih (fun x hx => h x (List.mem_cons_of_mem c hx))]

theorem plain_of_mem_decimal {n : ℕ} {c : UInt8} (h : c ∈ decimal n) :
    c ≠ 35 ∧ c ≠ 63 ∧ c ≠ 37 ∧ c ≠ slash := by
  have hdigit : ∀ d < 10, UInt8.ofNat (48 + d) ≠ 35 ∧ UInt8.ofNat (48 + d) ≠ 63 ∧
      UInt8.ofNat (48 + d) ≠ 37 ∧ UInt8.ofNat (48 + d) ≠ slash := by decide
  unfold decimal at h
  split_ifs at h with hn
  · obtain rfl := List.mem_singleton.mp h
    decide
  · obtain ⟨d, hd, rfl⟩ := List.mem_map.mp (List.mem_reverse.mp h)
    exact hdigit d (Nat.digits_lt_base (by omega) hd)

/-- The names that `create_xattr_db` gives. -/
def XattrFilename (f : Bytes) : Prop :=
  ∃ n, f = xattrUidFilename n ∨ f = xattrGidWReadFilename n ∨ f = xattrGidWoReadFilename n

theorem XattrFilename.plain {f : Bytes} (h : XattrFilename f) : PlainFilename f := by
  apply plainFilename_of_plain
  have happ {a b : Bytes} {n : ℕ} (ha : ∀ c ∈ a, c ≠ 35 ∧ c ≠ 63 ∧ c ≠ 37 ∧ c ≠ slash)
      (hb : ∀ c ∈ b, c ≠ 35 ∧ c ≠ 63 ∧ c ≠ 37 ∧ c ≠ slash) :
      ∀ c ∈ a ++ decimal n ++ b, c ≠ 35 ∧ c ≠ 63 ∧ c ≠ 37 ∧ c ≠ slash := by
    intro c hc
    rcases List.mem_append.mp hc with hc | hc
    · rcases List.mem_append.mp hc with hc | hc
      · exact ha c hc
      · exact plain_of_mem_decimal hc
    · exact hb c hc
  obtain ⟨n, rfl | rfl | rfl⟩ := h
  all_goals exact happ (forall_mem_of_all (by decide)) (forall_mem_of_all (by decide))

/-- The files that a directory's `external_dbs_pwd` names. -/
def Dir.externalNames (d : Dir) : List Bytes :=
  ((d.db.map fun db => db.externalDbsPwd.filter (·.type = .xattrs)).getD []).map (·.filename)

theorem mem_map_externalXattrs {db : Db} {f : Bytes} : f ∈ db.externalXattrs.map (·.filename) ↔
    ∃ row, (row ∈ db.externalDbsPwd ∨ row ∈ db.externalDbsRollup) ∧ row.type = .xattrs ∧
      row.filename = f := by
  simp only [Db.externalXattrs, Db.externalDbs, List.mem_map, List.mem_filter, mem_union,
    decide_eq_true_eq, and_assoc]

theorem mem_externalNames_cleaned {d : Dir} {f : Bytes} : f ∈ d.externalNames ↔
    ∃ row ∈ d.cleaned.externalDbsPwd, row.type = .xattrs ∧ row.filename = f := by
  unfold Dir.externalNames Dir.cleaned
  cases d.db with
  | none =>
      simp only [Option.map_none, Option.getD_none, List.map_nil, List.not_mem_nil, false_iff]
      rintro ⟨row, hrow, -⟩
      cases hrow
  | some db =>
      simp only [Option.map_some, Option.getD_some, List.mem_map, List.mem_filter,
        decide_eq_true_eq, and_assoc]
      rfl

/-- A rolled-up directory lists the files that the directories of its tree name. -/
theorem mem_externalXattrs_rolledDb (ix : Index) (t : DirTree) {f : Bytes} :
    f ∈ (t.rolledDb ix).externalXattrs.map (·.filename) ↔
      ∃ u ∈ t.subtrees, f ∈ (ix u.path).externalNames := by
  induction t using DirTree.induct with
  | node p cs ih =>
      have happ := DirTree.appends_rolledDb ix (.node p cs)
      have hbelow : (∃ row ∈ (DirTree.rolledDb ix (.node p cs)).externalDbsRollup,
          row.type = .xattrs ∧ row.filename = f) ↔
          ∃ c ∈ cs, f ∈ (c.rolledDb ix).externalXattrs.map (·.filename) := by
        rw [happ.externalDbs]
        constructor
        · rintro ⟨row, hrow, htype, hname⟩
          rcases mem_of_mem_insertOrIgnore ExternalDb.key hrow with hnil | hrow
          · cases hnil
          · obtain ⟨sub, hsub, hrow⟩ := List.mem_flatMap.mp hrow
            obtain ⟨c, hc, rfl⟩ := List.mem_map.mp hsub
            exact ⟨c, hc, List.mem_map.mpr ⟨row, List.mem_filter.mpr ⟨hrow, by simpa using htype⟩,
              hname⟩⟩
        · rintro ⟨c, hc, hf⟩
          obtain ⟨row, hrow, hname⟩ := List.mem_map.mp hf
          obtain ⟨hrow, htype⟩ := List.mem_filter.mp hrow
          have hmem : row ∈ (tableRows (cs.map (DirTree.rolledDb ix))).externalDbs :=
            List.mem_flatMap.mpr ⟨_, List.mem_map_of_mem hc, hrow⟩
          obtain ⟨row', hrow', hkey⟩ := exists_key_of_mem ExternalDb.key _ _ hmem
          simp only [ExternalDb.key, Prod.mk.injEq] at hkey
          exact ⟨row', hrow', hkey.1.trans (by simpa using htype), hkey.2.2.trans hname⟩
      rw [mem_map_externalXattrs, DirTree.subtrees_eq]
      simp only [or_and_right, exists_or, List.mem_cons, List.mem_flatMap, exists_eq_left]
      apply or_congr
      · rw [mem_externalNames_cleaned, happ.externalDbsPwd]
      · rw [hbelow]
        constructor
        · rintro ⟨c, hc, hf⟩
          obtain ⟨u, hu, hf⟩ := (ih c hc).mp hf
          exact ⟨u, ⟨c, hc, hu⟩, hf⟩
        · rintro ⟨u, ⟨c, hc, hu⟩, hf⟩
          exact ⟨c, hc, (ih c hc).mpr ⟨u, hu, hf⟩⟩

end Names

section Own

/-- The own rows of a directory, by table. -/
def Dir.ownSummary (d : Dir) : List SummaryRow :=
  (d.db.map Db.rootRows).getD []

def Dir.ownXattrs (d : Dir) : List XattrRow :=
  (d.db.map Db.xattrsPwd).getD []

def Dir.ownExternalDbs (d : Dir) : List ExternalDb :=
  (d.db.map Db.externalDbsPwd).getD []

theorem Dir.xattrsPwd_cleaned (d : Dir) : d.cleaned.xattrsPwd = d.ownXattrs := by
  unfold cleaned ownXattrs
  cases d.db <;> rfl

theorem Dir.externalDbsPwd_cleaned (d : Dir) : d.cleaned.externalDbsPwd = d.ownExternalDbs := by
  unfold cleaned ownExternalDbs
  cases d.db <;> rfl

theorem Dir.summary_cleaned (d : Dir) : d.cleaned.summary =
    d.ownSummary.map fun s => { s with canrollup := true, isrolledup := true } := by
  unfold cleaned ownSummary
  cases d.db <;> rfl

theorem Dir.Unrolled.ownSummary_eq {d : Dir} (h : d.Unrolled) : ∃ row, d.ownSummary = [row] ∧
    row.isroot = true ∧ d.db.map Db.summary = some [row] := by
  obtain ⟨db, hdb, hun⟩ := h.db
  obtain ⟨row, hrow, hroot, -⟩ := hun.summary
  exact ⟨row, by simp [ownSummary, hdb, Db.rootRows, hrow, hroot], hroot, by simp [hdb, hrow]⟩

end Own

section Tables

variable (ix : Index)

theorem mem_pentries_rolledDb (t : DirTree) {x : PEntryRow} :
    x ∈ (t.rolledDb ix).pentries ↔ ∃ u ∈ t.subtrees, x ∈ (ix u.path).ownPentries := by
  rw [DirTree.pentries_rolledDb]
  induction t using DirTree.induct with
  | node p cs ih =>
      rw [DirTree.pentriesBelow, DirTree.fold_eq, DirTree.subtrees_eq]
      simp only [mem_union, List.mem_flatten, List.mem_map, List.mem_cons, List.mem_flatMap,
        or_and_right, exists_or, exists_eq_left]
      apply or_congr Iff.rfl
      constructor
      · rintro ⟨_, ⟨c, hc, rfl⟩, hx⟩
        obtain ⟨u, hu, hx⟩ := (ih c hc).mp hx
        exact ⟨u, ⟨c, hc, hu⟩, hx⟩
      · rintro ⟨u, ⟨c, hc, hu⟩, hx⟩
        exact ⟨_, ⟨c, hc, rfl⟩, (ih c hc).mpr ⟨u, hu, hx⟩⟩

theorem mem_xattrsAvail_rolledDb (t : DirTree) {x : XattrRow} :
    x ∈ (t.rolledDb ix).xattrsAvail ↔ ∃ u ∈ t.subtrees, x ∈ (ix u.path).ownXattrs := by
  induction t using DirTree.induct with
  | node p cs ih =>
      have happ := DirTree.appends_rolledDb ix (.node p cs)
      rw [Db.xattrsAvail, happ.xattrs, happ.xattrsPwd, Dir.xattrsPwd_cleaned, DirTree.subtrees_eq]
      simp only [mem_union, List.mem_cons, List.mem_flatMap, or_and_right, exists_or,
        exists_eq_left]
      apply or_congr Iff.rfl
      constructor
      · intro hx
        obtain ⟨sub, hsub, hx⟩ := List.mem_flatMap.mp hx
        obtain ⟨c, hc, rfl⟩ := List.mem_map.mp hsub
        obtain ⟨u, hu, hx⟩ := (ih c hc).mp hx
        exact ⟨u, ⟨c, hc, hu⟩, hx⟩
      · rintro ⟨u, ⟨c, hc, hu⟩, hx⟩
        exact List.mem_flatMap.mpr ⟨_, List.mem_map_of_mem hc, (ih c hc).mpr ⟨u, hu, hx⟩⟩

/-- With distinct keys, no row of `external_dbs` is ignored. -/
theorem perm_externalDbs_rolledDb (t : DirTree)
    (h : ((t.subtrees.flatMap fun u => (ix u.path).ownExternalDbs).map ExternalDb.key).Nodup) :
    (t.rolledDb ix).externalDbs.Perm (t.subtrees.flatMap fun u => (ix u.path).ownExternalDbs) := by
  induction t using DirTree.induct with
  | node p cs ih =>
      have happ := DirTree.appends_rolledDb ix (.node p cs)
      rw [DirTree.subtrees_eq, List.flatMap_cons, List.flatMap_assoc] at h ⊢
      have hcs : ((cs.map (DirTree.rolledDb ix)).flatMap (·.externalDbs)).Perm
          (cs.flatMap fun c => c.subtrees.flatMap fun u => (ix u.path).ownExternalDbs) := by
        rw [List.flatMap_map]
        apply List.Perm.flatMap_left
        intro c hc
        apply ih c hc
        rw [List.map_append] at h
        have hbelow := (List.nodup_append.mp h).2.1
        rw [List.map_flatMap] at hbelow
        exact (List.nodup_flatMap.mp hbelow).1 c hc
      have hall : ((ix p).ownExternalDbs ++
          (cs.map (DirTree.rolledDb ix)).flatMap (·.externalDbs)).Perm _ :=
        hcs.append_left (ix p).ownExternalDbs
      have hkeys : (((ix p).ownExternalDbs ++
          (cs.map (DirTree.rolledDb ix)).flatMap (·.externalDbs)).map ExternalDb.key).Nodup :=
        (hall.map ExternalDb.key).nodup_iff.mpr h
      have hrollup : (DirTree.rolledDb ix (.node p cs)).externalDbsRollup =
          (cs.map (DirTree.rolledDb ix)).flatMap (·.externalDbs) := by
        rw [happ.externalDbs]
        apply insertOrIgnore_eq_append
        rw [List.map_append] at hkeys
        exact (List.nodup_append.mp hkeys).2.1
      rw [Db.externalDbs, hrollup, happ.externalDbsPwd, Dir.externalDbsPwd_cleaned]
      change (union (ix p).ownExternalDbs _).Perm _
      rw [union_eq_append hkeys.of_map]
      exact hall

end Tables

section Run

variable {ts : TreeSummaryCode} {cfg : Config} {F : DirFaults → Prop} {root : DirTree}
  {ix₀ ix : Index} {s s₀ : RunState} {flt : DirFaults} {l : ℕ} {t : DirTree}

/-- What the indexer leaves of a tree: nothing rolled up, the own summary row of a directory under
its name, and a row of `external_dbs_pwd` with a name given by `create_xattr_db` for every xattr
database. -/
structure Indexed (ix : Index) (root : DirTree) : Prop where
  unrolled : ∀ t ∈ root.subtrees, (ix t.path).Unrolled
  names : ∀ t ∈ root.subtrees, ∀ row ∈ (ix t.path).ownSummary, row.name = t.name
  filenames : ∀ t ∈ root.subtrees, ∀ f ∈ (ix t.path).externalNames, XattrFilename f
  listed : ∀ t ∈ root.subtrees, ∀ f, (ix t.path).hasFile f = true → f ∈ (ix t.path).externalNames

/-- The own content of every directory of the tree is that of the index. -/
def SameContent (ix₀ ix : Index) (root : DirTree) : Prop :=
  ∀ t ∈ root.subtrees, (ix t.path).content = (ix₀ t.path).content

theorem rolledDb_eq_of_sameContent (h : SameContent ix₀ ix root) (ht : t ∈ root.subtrees) :
    t.rolledDb ix = t.rolledDb ix₀ := by
  apply DirTree.fold_congr
  intro u hu l
  rw [Dir.cleaned_eq_of_content_eq (h u (DirTree.subtrees_subset_of_mem ht hu))]

/-- The raw paths of the directories below that have external xattr databases are read as they
are. -/
def DirTree.UriCleanBelow (ix : Index) (t : DirTree) : Prop :=
  ∀ c ∈ t.subtrees, c ≠ t → (∃ u ∈ c.subtrees, (ix u.path).externalNames ≠ []) → UriClean c.path

theorem xattrDbAt_update {i : Index} {p q f : Bytes} (hpq : q ≠ p) (hclean : UriClean q)
    (hf : PlainFilename f) (d : Dir) :
    i.attachXattr p d (q ++ slash :: f) = i.xattrDbAt (q ++ slash :: f) := by
  rw [Index.attachXattr, hclean, hf.2, xattrDbAt_append _ _ hf.1, xattrDbAt_append _ _ hf.1,
    Function.update_of_ne hpq]

theorem pwdRows_eq_nil_of_not_hasFile {d : Dir} {f : Bytes} (h : d.hasFile f = false) :
    d.pwdRows f = [] := by
  rw [Dir.hasFile, Option.isSome_eq_false_iff, Option.isNone_iff_eq_none] at h
  rw [Dir.pwdRows, h]
  rfl

/-- The xattr databases of a directory at the start of its rollup. -/
theorem rollupInit_rows {d₀ d : Dir} (h₀ : d₀.Unrolled) (h : d.content = d₀.content) (f : Bytes) :
    (rollupInit d.opened).pwdRows f = d₀.pwdRows f ∧ (rollupInit d.opened).rollupRows f = [] := by
  have hfile : (rollupInit d.opened).xattrDbs f = d₀.xattrDbs f := by
    rw [rollupInit, Dir.rollupCleanup_xattrDbs, Dir.content_opened, h, h₀.content_xattrDbs]
  constructor
  · rw [Dir.pwdRows, Dir.pwdRows, hfile]
  · rw [Dir.rollupRows, hfile]
    cases hx : d₀.xattrDbs f with
    | none => rfl
    | some x => exact (h₀.xattrDbs f x hx).2

theorem Indexed.isSome_db (h : Indexed ix₀ root) (hsame : SameContent ix₀ ix root) :
    ∀ t ∈ root.subtrees, (ix t.path).db.isSome = true := by
  intro t ht
  obtain ⟨db, hdb, -⟩ := (h.unrolled t ht).db
  have hcontent := congrArg (fun d : Dir => d.db.isSome) (hsame t ht)
  simpa [Dir.content, hdb] using hcontent

theorem mem_pwdRows_listed (h : Indexed ix₀ root) {u : DirTree} (hu : u ∈ root.subtrees) {f : Bytes}
    {x : XattrRow} (hx : x ∈ (ix₀ u.path).pwdRows f) : f ∈ (ix₀ u.path).externalNames := by
  apply h.listed u hu
  rw [← Bool.not_eq_false]
  intro hno
  rw [pwdRows_eq_nil_of_not_hasFile hno] at hx
  cases hx

section Ascent

variable (hroot : root.WellFormed) (hindex : Indexed ix₀ root) (hsame : SameContent ix₀ ix root)
  (hrun : RunReaches ts cfg F root ix s) (ht : t ∈ root.subtrees)
include hroot hindex hsame hrun ht

/-- What the ascent of a rolled-up directory found in a child. -/
theorem AscendedFrom.child (hfrom : AscendedFrom ts cfg F root ix s₀ flt l t s)
    (hroll : s.rolledup t.path = true) {c : DirTree} (hc : c ∈ t.subdirs) :
    s.ix c.path = s₀.ix c.path ∧ s.ascended c.path = true ∧ s.rolledup c.path = true ∧
      ∃ sub, (s₀.ix c.path).db = some sub ∧ sub.withoutTreesummary = c.rolledDb ix₀ := by
  have hup := hfrom.rolledUpFrom hroll
  have hcmem := DirTree.subdir_mem_subtrees ht hc
  obtain ⟨hkept, -, hcasc⟩ := hfrom.kept c.path (hfrom.below c hc)
  obtain ⟨sub, hsub, heq⟩ := hrun.rolledDb_eq hroot (hindex.isSome_db hsame) hcmem hcasc
    (hup.children c hc)
  refine ⟨hkept, hcasc, hup.children c hc, sub, hkept ▸ hsub, ?_⟩
  rw [heq, rolledDb_eq_of_sameContent hsame hcmem]

theorem AscendedFrom.mem_externalXattrs (hfrom : AscendedFrom ts cfg F root ix s₀ flt l t s)
    (hroll : s.rolledup t.path = true) {c : DirTree} (hc : c ∈ t.subdirs) {sub : Db}
    (hsub : (s₀.ix c.path).db = some sub) {f : Bytes} :
    f ∈ sub.externalXattrs.map (·.filename) ↔
      ∃ u ∈ c.subtrees, f ∈ (ix₀ u.path).externalNames := by
  obtain ⟨-, -, -, sub', hsub', heq⟩ := hfrom.child hroot hindex hsame hrun ht hroll hc
  obtain rfl := Option.some.inj (hsub.symm.trans hsub')
  rw [← mem_externalXattrs_rolledDb, ← heq]
  rfl

/-- The raw paths of the children attach the children's databases. -/
theorem AscendedFrom.attachesAs (hclean : t.UriCleanBelow ix₀)
    (hfrom : AscendedFrom ts cfg F root ix s₀ flt l t s) (hroll : s.rolledup t.path = true)
    {ch : Child} (hch : ch ∈ s₀.children flt t) {sub : Db} (hsub : ch.attached = some sub) :
    AttachesAs (s₀.ix.attachXattr t.path) s₀.ix.xattrDbAt ch.path sub := by
  intro row hrow d
  obtain ⟨i, c, hi, rfl⟩ := RunState.mem_children.mp hch
  have hc : c ∈ t.subdirs := List.mem_of_getElem? hi
  have hcmem := DirTree.subdir_mem_subtrees ht hc
  have hlt := hroot.length_path_lt ht hc
  have hpath : c.path ≠ t.path := by
    intro hp
    rw [hp] at hlt
    exact lt_irrefl _ hlt
  obtain ⟨u, hu, hf⟩ := (hfrom.mem_externalXattrs hroot hindex hsame hrun ht hroll hc hsub).mp
    (List.mem_map_of_mem hrow)
  have hplain : PlainFilename row.filename :=
    (hindex.filenames u (DirTree.subtrees_subset_of_mem hcmem hu) _ hf).plain
  apply xattrDbAt_update hpath _ hplain
  apply hclean c (DirTree.subdir_mem_subtrees t.self_mem_subtrees hc)
  · rintro rfl
    exact hpath rfl
  · exact ⟨u, hu, List.ne_nil_of_mem hf⟩

/-- One level of the external xattr databases: the directory's own rows and what the databases of
the same name show in the children. -/
theorem AscendedFrom.mem_availRows (hF : ∀ flt, F flt → ∀ i, NoSilentFaults (flt i))
    (hclean : t.UriCleanBelow ix₀) (hfrom : AscendedFrom ts cfg F root ix s₀ flt l t s)
    (hroll : s.rolledup t.path = true) (f : Bytes) (x : XattrRow) :
    x ∈ (s.ix t.path).availRows f ↔ x ∈ (ix₀ t.path).pwdRows f ∨
      ∃ c ∈ t.subdirs, (∃ u ∈ c.subtrees, f ∈ (ix₀ u.path).externalNames) ∧
        x ∈ (s.ix c.path).availRows f := by
  have hup := hfrom.rolledUpFrom hroll
  obtain ⟨db, hdb⟩ := Option.isSome_iff_exists.mp (hindex.isSome_db hsame t ht)
  have hopened : (ix t.path).opened.db = some { db with treesummary := some [] } := by
    rw [Dir.opened_eq hdb]
    rfl
  have hflt : ∀ ch ∈ s₀.children flt t, NoSilentFaults ch.faults := by
    intro ch hch
    obtain ⟨i, c, hi, rfl⟩ := RunState.mem_children.mp hch
    exact hF flt hfrom.fault i
  obtain ⟨hpwd, hrollup⟩ := mem_rollupRows_doRollup s₀.ix.xattrDbAt hopened
    (fun ch hch sub hsub => hfrom.attachesAs hroot hindex hsame hrun ht hclean hroll hch hsub)
    hflt hup.ok f x
  obtain ⟨hinitpwd, hinitrollup⟩ := rollupInit_rows (hindex.unrolled t ht) (hsame t ht) f
  rw [Dir.mem_availRows, hup.dir, hpwd, hrollup, hinitpwd, hinitrollup]
  apply or_congr Iff.rfl
  constructor
  · rintro (hnil | ⟨ch, hch, sub, hsub, hf, y, hy, hx⟩)
    · cases hnil
    · obtain ⟨i, c, hi, rfl⟩ := RunState.mem_children.mp hch
      have hc : c ∈ t.subdirs := List.mem_of_getElem? hi
      obtain ⟨u, hu, hf⟩ :=
        (hfrom.mem_externalXattrs hroot hindex hsame hrun ht hroll hc hsub).mp hf
      have hplain := (hindex.filenames u (DirTree.subtrees_subset_of_mem
        (DirTree.subdir_mem_subtrees ht hc) hu) f hf).plain
      refine ⟨c, hc, ⟨u, hu, hf⟩, ?_⟩
      rw [xattrDbAt_append _ _ hplain.1] at hy
      rw [(hfrom.child hroot hindex hsame hrun ht hroll hc).1, Dir.availRows, hy]
      exact hx
  · rintro ⟨c, hc, ⟨u, hu, hf⟩, hx⟩
    obtain ⟨i, hi⟩ := List.getElem?_of_mem hc
    obtain ⟨hkept, -, -, sub, hsub, -⟩ := hfrom.child hroot hindex hsame hrun ht hroll hc
    have hplain := (hindex.filenames u (DirTree.subtrees_subset_of_mem
      (DirTree.subdir_mem_subtrees ht hc) hu) f hf).plain
    rw [hkept, Dir.availRows] at hx
    cases hy : (s₀.ix c.path).xattrDbs f with
    | none => simp [hy] at hx
    | some y =>
        rw [hy] at hx
        refine Or.inr ⟨_, RunState.mem_children.mpr ⟨i, c, hi, rfl⟩, sub, hsub, ?_, y, ?_, hx⟩
        · rw [hfrom.mem_externalXattrs hroot hindex hsame hrun ht hroll hc hsub]
          exact ⟨u, hu, hf⟩
        · rw [xattrDbAt_append _ _ hplain.1]
          exact hy

end Ascent

theorem DirTree.UriCleanBelow.subdir (h : t.UriCleanBelow ix₀) (ht : t.WellFormed) {c : DirTree}
    (hc : c ∈ t.subdirs) : c.UriCleanBelow ix₀ := by
  intro d hd _ hext
  have hcmem := DirTree.subdir_mem_subtrees t.self_mem_subtrees hc
  refine h d (DirTree.subtrees_subset_of_mem hcmem hd) ?_ hext
  rintro rfl
  have hlt := ht.length_path_lt d.self_mem_subtrees hc
  have hle := (ht.subtree hcmem).length_path_le hd
  omega

/-- The xattr databases of a rolled-up directory show the rows of all databases of the same name
in its tree, and no others. -/
theorem RunReaches.mem_availRows (hroot : root.WellFormed) (hindex : Indexed ix₀ root)
    (hsame : SameContent ix₀ ix root) (hrun : RunReaches ts cfg F root ix s)
    (hF : ∀ flt, F flt → ∀ i, NoSilentFaults (flt i)) (ht : t ∈ root.subtrees)
    (hclean : t.UriCleanBelow ix₀) (hasc : s.ascended t.path = true)
    (hroll : s.rolledup t.path = true) (f : Bytes) (x : XattrRow) :
    x ∈ (s.ix t.path).availRows f ↔ ∃ u ∈ t.subtrees, x ∈ (ix₀ u.path).pwdRows f := by
  induction t using DirTree.induct with
  | node p cs ih =>
      obtain ⟨l, hl⟩ := DirTree.exists_level ht 0
      obtain ⟨s₀, flt, hfrom⟩ := hrun.ascendedFrom hroot hl hasc
      rw [hfrom.mem_availRows hroot hindex hsame hrun ht hF hclean hroll, DirTree.subtrees_eq]
      simp only [List.mem_cons, List.mem_flatMap, or_and_right, exists_or, exists_eq_left]
      apply or_congr Iff.rfl
      have hih : ∀ c ∈ cs, (x ∈ (s.ix c.path).availRows f ↔
          ∃ u ∈ c.subtrees, x ∈ (ix₀ u.path).pwdRows f) := by
        intro c hc
        obtain ⟨-, hcasc, hcroll, -⟩ := hfrom.child hroot hindex hsame hrun ht hroll hc
        exact ih c hc (DirTree.subdir_mem_subtrees ht hc) (hclean.subdir (hroot.subtree ht) hc)
          hcasc hcroll
      constructor
      · rintro ⟨c, hc, -, hx⟩
        obtain ⟨u, hu, hx⟩ := (hih c hc).mp hx
        exact ⟨u, ⟨c, hc, hu⟩, hx⟩
      · rintro ⟨u, ⟨c, hc, hu⟩, hx⟩
        have humem := DirTree.subtrees_subset_of_mem (DirTree.subdir_mem_subtrees ht hc) hu
        exact ⟨c, hc, ⟨u, hu, mem_pwdRows_listed hindex humem hx⟩, (hih c hc).mpr ⟨u, hu, hx⟩⟩

end Run

section Summary

variable {root : DirTree} {ix : Index} {t : DirTree}

/-- The path of a directory of the tree relative to the parent of the tree's root. -/
def DirTree.relPath (t : DirTree) (p : Bytes) : Bytes :=
  t.name ++ p.drop t.path.length

/-- The row of a directory at the given distance below, as the rolled-up directory shows it. -/
def relRow (t : DirTree) (distance : ℕ) (u : DirTree) (row : SummaryRow) : SummaryRow :=
  { row with
    name := t.relPath u.path
    depth := row.depth + distance
    isroot := distance = 0
    canrollup := true
    isrolledup := true }

/-- The summary of a rolled-up directory: one row for each directory of its tree. -/
def DirTree.relSummary (ix : Index) (t : DirTree) : List SummaryRow :=
  (t.levels 0).flatMap fun x => (ix x.2.path).ownSummary.map (relRow t x.1 x.2)

theorem relPath_self (t : DirTree) : t.relPath t.path = t.name := by
  rw [DirTree.relPath, List.drop_length, List.append_nil]

/-- The name of a row below a child, seen from the directory. -/
theorem relPath_subdir (ht : t.WellFormed) {c u : DirTree} (hc : c ∈ t.subdirs)
    (hu : u ∈ c.subtrees) : t.relPath u.path = t.name ++ slash :: c.relPath u.path := by
  have hcmem := DirTree.subdir_mem_subtrees t.self_mem_subtrees hc
  obtain ⟨n, ⟨-, -, hslash, -⟩, hn⟩ := ht.legal t t.self_mem_subtrees c hc
  obtain ⟨r, hr⟩ := (ht.subtree hcmem).exists_path_append hu
  have hname : c.name = n := by
    rw [DirTree.name, hn, splitPath_append hslash]
  rw [DirTree.relPath, DirTree.relPath, hr, List.drop_left, hname, hn, List.append_assoc,
    List.drop_left]
  rfl

/-- What a copy makes of a row that a child shows is what the directory shows. -/
theorem renameRow_relRow (ht : t.WellFormed) {c u : DirTree} (hc : c ∈ t.subdirs)
    (hu : u ∈ c.subtrees) (d : ℕ) (row : SummaryRow) :
    renameRow bottomupName t.name (relRow c d u row) = relRow t (d + 1) u row := by
  simp [renameRow, rollupSummaryRow, relRow, bottomupName, relPath_subdir ht hc hu, Nat.add_assoc]

theorem summary_rolledDb (hroot : root.WellFormed) (hindex : Indexed ix root)
    (ht : t ∈ root.subtrees) : (t.rolledDb ix).summary = t.relSummary ix := by
  induction t using DirTree.induct with
  | node p cs ih =>
      have happ := DirTree.appends_rolledDb ix (.node p cs)
      obtain ⟨row, hrow, hisroot, -⟩ := (hindex.unrolled _ ht).ownSummary_eq
      have hname : row.name = (DirTree.node p cs).name :=
        hindex.names _ ht row (by rw [hrow]; exact List.mem_singleton.mpr rfl)
      have hown : (ix p).cleaned.summary = [relRow (.node p cs) 0 (.node p cs) row] := by
        rw [Dir.summary_cleaned, show (ix p).ownSummary = [row] from hrow]
        simp only [List.map_singleton, relRow, relPath_self, hname.symm, Nat.add_zero,
          decide_true, hisroot.symm]
      have hrootName : (ix p).cleaned.rootName = (DirTree.node p cs).name := by
        rw [Db.rootName, Db.rootRows, hown]
        simp [relRow, relPath_self]
      have hbelow : ∀ c ∈ cs, ((c.rolledDb ix).summary.map
          (renameRow bottomupName (DirTree.node p cs).name)) = (c.levels 1).flatMap fun x =>
            (ix x.2.path).ownSummary.map (relRow (.node p cs) x.1 x.2) := by
        intro c hc
        rw [ih c hc (DirTree.subdir_mem_subtrees ht hc), DirTree.relSummary, List.map_flatMap,
          DirTree.levels_succ, List.flatMap_map]
        apply List.flatMap_congr
        rintro ⟨d, u⟩ hu
        rw [List.map_map]
        apply List.map_congr_left
        intro row _
        exact renameRow_relRow (hroot.subtree ht) hc (DirTree.mem_subtrees_of_mem_levels hu) d row
      rw [happ.summary, DirTree.relSummary, DirTree.levels_eq, List.flatMap_cons]
      change (ix p).cleaned.summary ++ _ = (ix p).ownSummary.map _ ++ _
      rw [hown, show (ix p).ownSummary = [row] from hrow, List.map_singleton]
      congr 1
      change ((cs.map (DirTree.rolledDb ix)).flatMap (·.summary)).map
        (renameRow bottomupName (ix p).cleaned.rootName) = _
      rw [hrootName, List.map_flatMap, List.flatMap_map, List.flatMap_assoc]
      exact List.flatMap_congr hbelow

end Summary

section Query

variable {α : Type*} (rows : Db → List α)

/-- gufi_query over a tree: the rows of a directory, and those of the directories below unless it
is rolled up. -/
def gufiQuery (ix : Index) : DirTree → List α :=
  DirTree.fold fun p below =>
    ((ix p).db.map rows).getD [] ++ if (ix p).isrolledup then [] else below.flatten

theorem gufiQuery_of_rolledup {ix : Index} {t : DirTree} {db : Db} (hdb : (ix t.path).db = some db)
    (h : (ix t.path).isrolledup = true) : gufiQuery rows ix t = rows db := by
  rw [gufiQuery, DirTree.fold_eq, hdb, h]
  simp

theorem gufiQuery_of_unrolled {ix : Index} {t : DirTree}
    (h : ∀ u ∈ t.subtrees, (ix u.path).Unrolled) :
    gufiQuery rows ix t = t.subtrees.flatMap fun u => ((ix u.path).db.map rows).getD [] := by
  induction t using DirTree.induct with
  | node p cs ih =>
      have hp : (ix p).isrolledup = false :=
        (h _ (DirTree.self_mem_subtrees _)).isrolledup_eq_false
      have hcs : cs.map (gufiQuery rows ix) = cs.map fun c =>
          c.subtrees.flatMap fun u => ((ix u.path).db.map rows).getD [] := by
        apply List.map_congr_left
        intro c hc
        apply ih c hc
        intro u hu
        exact h u (DirTree.subtrees_subset_of_mem
          (DirTree.subdir_mem_subtrees (DirTree.self_mem_subtrees _) hc) hu)
      rw [gufiQuery, DirTree.fold_eq, DirTree.subtrees_eq, List.flatMap_cons, List.flatMap_assoc,
        List.flatMap_def]
      change _ ++
        (if (ix p).isrolledup = true then [] else (cs.map (gufiQuery rows ix)).flatten) = _
      rw [hp, hcs]
      rfl

end Query

section Main

variable {ts : TreeSummaryCode} {cfg : Config} {F : DirFaults → Prop} {root : DirTree}
  {ix₀ ix : Index} {s : RunState} {t : DirTree}

/-- An index as gufi_rollup runs of any kind leave it, finished or not. -/
def EarlierRuns : Index → Index → Prop :=
  Relation.ReflTransGen fun a b => ∃ ts cfg F root s, RunReaches ts cfg F root a s ∧ s.ix = b

theorem EarlierRuns.sameContent (h : EarlierRuns ix₀ ix)
    (hset : ∀ t ∈ root.subtrees, (ix₀ t.path).Settled) : SameContent ix₀ ix root := by
  intro t ht
  induction h with
  | refl => rfl
  | tail _ hrun ih =>
      obtain ⟨ts, cfg, F, root', s, hrun, rfl⟩ := hrun
      exact (hrun.content_eq (Dir.Settled.of_content_eq ih (hset t ht))).trans ih

/-- No two rows of a table are equal over the tree, nor two keys of `external_dbs`. -/
structure DistinctRows (ix : Index) (t : DirTree) : Prop where
  pentries : (t.subtrees.flatMap fun u => (ix u.path).ownPentries).Nodup
  xattrs : (t.subtrees.flatMap fun u => (ix u.path).ownXattrs).Nodup
  externalDbs :
    ((t.subtrees.flatMap fun u => (ix u.path).ownExternalDbs).map ExternalDb.key).Nodup
  files : ∀ f, (t.subtrees.flatMap fun u => (ix u.path).pwdRows f).Nodup

/-- The directory shows exactly the rows of the directories of the tree: the summary rows under
their relative paths, and `files` from the xattr databases. -/
structure ShowsTree (ix : Index) (t : DirTree) (db : Db) (files : Bytes → List XattrRow) :
    Prop where
  pentries : db.pentries.Perm (t.subtrees.flatMap fun u => (ix u.path).ownPentries)
  summary : db.summary = t.relSummary ix
  xattrs : db.xattrsAvail.Perm (t.subtrees.flatMap fun u => (ix u.path).ownXattrs)
  externalDbs : db.externalDbs.Perm (t.subtrees.flatMap fun u => (ix u.path).ownExternalDbs)
  files : ∀ f, (files f).Perm (t.subtrees.flatMap fun u => (ix u.path).pwdRows f)

/-- The columns of a summary row that do not depend on where it is shown. -/
def SummaryRow.columns (s : SummaryRow) : SummaryRow :=
  { s with name := [], depth := 0, isroot := true, canrollup := false, isrolledup := false }

theorem showsTree_rolledDb (hroot : root.WellFormed) (hindex : Indexed ix₀ root)
    (ht : t ∈ root.subtrees) (hdistinct : DistinctRows ix₀ t) {db : Db}
    (hdb : db.withoutTreesummary = t.rolledDb ix₀) {d : Dir}
    (hfiles : ∀ f x, x ∈ d.availRows f ↔ ∃ u ∈ t.subtrees, x ∈ (ix₀ u.path).pwdRows f) :
    ShowsTree ix₀ t db d.availRows where
  pentries := by
    apply (List.perm_ext_iff_of_nodup (nodup_union ..) hdistinct.pentries).mpr
    intro x
    rw [List.mem_flatMap, ← mem_pentries_rolledDb, ← hdb]
    rfl
  summary := by
    rw [← summary_rolledDb hroot hindex ht, ← hdb]
    rfl
  xattrs := by
    apply (List.perm_ext_iff_of_nodup (nodup_union ..) hdistinct.xattrs).mpr
    intro x
    rw [List.mem_flatMap, ← mem_xattrsAvail_rolledDb, ← hdb]
    rfl
  externalDbs := by
    have hperm := perm_externalDbs_rolledDb ix₀ t hdistinct.externalDbs
    rw [← hdb] at hperm
    exact hperm
  files := by
    intro f
    apply (List.perm_ext_iff_of_nodup (d.nodup_availRows f) (hdistinct.files f)).mpr
    intro x
    rw [hfiles, List.mem_flatMap]

theorem getIsrolledup_rolledDb (hun : (ix₀ t.path).Unrolled) :
    getIsrolledup (t.rolledDb ix₀) = true := by
  obtain ⟨row, hrow, hisroot, -⟩ := hun.ownSummary_eq
  have hroot : (t.rolledDb ix₀).rootRows =
      [{ row with canrollup := true, isrolledup := true }] := by
    rw [(DirTree.appends_rolledDb ix₀ t).rootRows, Db.rootRows, Dir.summary_cleaned, hrow]
    simp [hisroot]
  rw [getIsrolledup, hroot]
  rfl

end Main

section Example

/-- `/r` with two subdirectories. -/
def siblingTree (a b : Bytes) : DirTree :=
  .node [47, 114] [.node ([47, 114, 47] ++ a) [], .node ([47, 114, 47] ++ b) []]

theorem mem_subtrees_siblingTree {a b : Bytes} {t : DirTree} :
    t ∈ (siblingTree a b).subtrees ↔ t = siblingTree a b ∨ t = .node ([47, 114, 47] ++ a) [] ∨
      t = .node ([47, 114, 47] ++ b) [] := by
  simp [DirTree.subtrees_eq, siblingTree, DirTree.subdirs]

theorem wellFormed_siblingTree {a b : Bytes} (ha : LegalName a) (hb : LegalName b) (hne : a ≠ b) :
    (siblingTree a b).WellFormed := by
  constructor
  · intro t ht c hc
    rcases mem_subtrees_siblingTree.mp ht with rfl | rfl | rfl
    · rcases List.mem_pair.mp hc with rfl | rfl
      · exact ⟨a, ha, rfl⟩
      · exact ⟨b, hb, rfl⟩
    · cases hc
    · cases hc
  · simp [DirTree.paths, DirTree.subtrees_eq, siblingTree, DirTree.subdirs, DirTree.path, hne]

/-- `uid.5.db`. -/
def uid5 : Bytes := [117, 105, 100, 46, 53, 46, 100, 98]

/-- Every directory below `/r` has one protected xattr of user 5. -/
def uid5Index : Index := fun p =>
  if p = [47, 114] then ⟨some (emptyDb [114] 2), fun _ => none⟩
  else ⟨some { emptyDb (splitPath p).2 p.length with
      externalDbsPwd := [⟨.xattrs, p.length, uid5, ⟨0o600, 5, 65534⟩⟩] },
    fun f => if f = uid5 then some ⟨⟨0o600, 5, 65534⟩, [⟨p.length, [117], [118]⟩], []⟩ else none⟩

theorem xattrFilename_uid5 : XattrFilename uid5 :=
  ⟨5, Or.inl (by simp [uid5, xattrUidFilename, decimal])⟩

theorem unrolled_uid5Index (p : Bytes) : (uid5Index p).Unrolled := by
  unfold uid5Index
  split_ifs
  · exact ⟨⟨_, rfl, ⟨⟨_, rfl, rfl, rfl⟩, rfl, rfl, rfl⟩⟩, by rintro f x ⟨⟩⟩
  · refine ⟨⟨_, rfl, ⟨⟨_, rfl, rfl, rfl⟩, rfl, rfl, rfl⟩⟩, fun f x hx => ?_⟩
    by_cases hf : f = uid5
    · simp only [if_pos hf, Option.some.injEq] at hx
      subst hx
      exact ⟨List.cons_ne_nil _ _, rfl⟩
    · simp [if_neg hf] at hx

theorem indexed_uid5Index (root : DirTree) : Indexed uid5Index root where
  unrolled := fun t _ => unrolled_uid5Index t.path
  names := by
    intro t _ row hrow
    by_cases hp : t.path = [47, 114]
    · simp only [uid5Index, if_pos hp, Dir.ownSummary, Option.map_some, Option.getD_some] at hrow
      rw [List.mem_singleton.mp hrow, DirTree.name, hp]
      decide
    · simp only [uid5Index, if_neg hp, Dir.ownSummary, Option.map_some, Option.getD_some] at hrow
      rw [List.mem_singleton.mp hrow, DirTree.name]
  filenames := by
    intro t _ f hf
    by_cases hp : t.path = [47, 114]
    · simp [uid5Index, hp, Dir.externalNames, emptyDb] at hf
    · simp only [uid5Index, if_neg hp, Dir.externalNames, Option.map_some, Option.getD_some] at hf
      rw [List.mem_singleton.mp hf]
      exact xattrFilename_uid5
  listed := by
    intro t _ f hf
    by_cases hp : t.path = [47, 114]
    · simp [uid5Index, hp, Dir.hasFile] at hf
    · simp only [uid5Index, if_neg hp, Dir.hasFile] at hf
      by_cases hfile : f = uid5
      · simp only [uid5Index, if_neg hp, Dir.externalNames, Option.map_some, Option.getD_some]
        exact List.mem_singleton.mpr hfile
      · simp [hfile] at hf

theorem subtrees_siblingTree (a b : Bytes) : (siblingTree a b).subtrees =
    [siblingTree a b, .node ([47, 114, 47] ++ a) [], .node ([47, 114, 47] ++ b) []] := by
  simp [DirTree.subtrees_eq, siblingTree, DirTree.subdirs]

/-- The rows that the index has of the directories of the tree, by table. -/
theorem flatMap_siblingTree {α : Type*} (rows : Dir → List α) (a b : Bytes)
    (hroot : rows (uid5Index [47, 114]) = []) :
    ((siblingTree a b).subtrees.flatMap fun u => rows (uid5Index u.path)) =
      rows (uid5Index ([47, 114, 47] ++ a)) ++ rows (uid5Index ([47, 114, 47] ++ b)) := by
  rw [subtrees_siblingTree]
  simp only [List.flatMap_cons, List.flatMap_nil, List.append_nil]
  change rows (uid5Index [47, 114]) ++ _ = _
  rw [hroot, List.nil_append]
  rfl

theorem uid5Index_below (x : Bytes) : uid5Index ([47, 114, 47] ++ x) =
    ⟨some { emptyDb (splitPath ([47, 114, 47] ++ x)).2 ([47, 114, 47] ++ x).length with
        externalDbsPwd :=
          [⟨.xattrs, ([47, 114, 47] ++ x).length, uid5, ⟨0o600, 5, 65534⟩⟩] },
      fun f => if f = uid5 then
        some ⟨⟨0o600, 5, 65534⟩, [⟨([47, 114, 47] ++ x).length, [117], [118]⟩], []⟩ else none⟩ :=
  if_neg (by simp)

/-- The paths of the subdirectories have different lengths, so their rows differ. -/
theorem distinctRows_siblingTree {a b : Bytes} (h : a.length ≠ b.length) :
    DistinctRows uid5Index (siblingTree a b) where
  pentries := by
    rw [flatMap_siblingTree Dir.ownPentries a b rfl, uid5Index_below, uid5Index_below]
    exact List.nodup_nil
  xattrs := by
    rw [flatMap_siblingTree Dir.ownXattrs a b rfl, uid5Index_below, uid5Index_below]
    exact List.nodup_nil
  externalDbs := by
    rw [flatMap_siblingTree Dir.ownExternalDbs a b rfl, uid5Index_below, uid5Index_below]
    simp [Dir.ownExternalDbs, ExternalDb.key, h]
  files := by
    intro f
    rw [flatMap_siblingTree (Dir.pwdRows · f) a b rfl, uid5Index_below, uid5Index_below]
    by_cases hf : f = uid5
    · simp [Dir.pwdRows, hf, h]
    · simp [Dir.pwdRows, hf]

end Example

end Gufi
