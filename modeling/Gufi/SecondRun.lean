import Gufi.RolledUp
import Gufi.Unrollup

/-!
# A second run of gufi_rollup

The first run decides on an index that has nothing rolled up, so its decisions are the rules
applied to the index: `RollsUp`. The second run decides on what the first run left. It finds every
directory that stayed as it was unchanged, but in a rolled-up directory `get_nondirs` sums the
summary rows of the whole tree, and `get_permissions` keeps those of the last row. Rolling up again
gives the same tables, so the second run leaves the index as it is exactly when these two numbers
still allow every rollup.
-/

namespace Gufi

open Relation SqlTable UnixAccess

section Decision

variable {cs : List Child} {subs : List Db}

theorem canRollup_fst_eq_one_iff (dst : Db) (hsubs : cs.map (·.db) = subs.map some)
    (hroll : ∀ c ∈ cs, c.rolledup = true) : (canRollup dst cs).1 = 1 ↔
      ∀ sub ∈ subs, checkPairPermissions (getPermissions dst) (getRootPermissions sub) = true := by
  rw [canRollup_eq_one_iff]
  constructor
  · intro h sub hsub
    have hmem : some sub ∈ cs.map (·.db) := by
      rw [hsubs]
      exact List.mem_map_of_mem hsub
    obtain ⟨c, hc, hdb⟩ := List.mem_map.mp hmem
    obtain ⟨-, db, hdb', hpass⟩ := h c hc
    rw [hdb] at hdb'
    obtain rfl := Option.some.inj hdb'
    exact hpass
  · intro h c hc
    have hmem : c.db ∈ subs.map some := by
      rw [← hsubs]
      exact List.mem_map_of_mem hc
    obtain ⟨sub, hsub, hdb⟩ := List.mem_map.mp hmem
    exact ⟨hroll c hc, sub, hdb.symm, h sub hsub⟩

theorem canRollup_snd_eq (dst : Db) (hsubs : cs.map (·.db) = subs.map some)
    (hroll : ∀ c ∈ cs, c.rolledup = true) :
    (canRollup dst cs).2 = (subs.map (·.pentries.length)).sum := by
  cases cs with
  | nil =>
      obtain rfl := List.map_eq_nil_iff.mp hsubs.symm
      rfl
  | cons c cs =>
      have hcount : (c :: cs).countP (·.rolledup) = (c :: cs).length :=
        List.countP_eq_length.mpr hroll
      have hfilter : (c :: cs).filterMap (·.db) = subs := by
        have hcomp : (c :: cs).filterMap (·.db) = ((c :: cs).map (·.db)).filterMap id := by
          rw [List.filterMap_map]
          rfl
        rw [hcomp, hsubs, List.filterMap_map]
        exact List.filterMap_some
      have hall : (c :: cs).all (·.db.isSome) = true := by
        rw [List.all_eq_true]
        intro x hx
        have hmem : x.db ∈ subs.map some := by
          rw [← hsubs]
          exact List.mem_map_of_mem hx
        obtain ⟨sub, -, hsub⟩ := List.mem_map.mp hmem
        rw [← hsub]
        rfl
      rw [canRollup_of_ne_nil (List.cons_ne_nil c cs), if_neg (not_not.mpr hcount), if_pos hall]
      simp only [hfilter]

/-- `should_rollup` for children that are all rolled up. -/
theorem shouldRollup_pos_iff {cfg : Config} {level : ℕ} (dst : Db)
    (hsubs : cs.map (·.db) = subs.map some) (hroll : ∀ c ∈ cs, c.rolledup = true) :
    0 < shouldRollup cfg level dst cs ↔ cfg.minLevel ≤ level ∧
      (∀ sub ∈ subs, checkPairPermissions (getPermissions dst) (getRootPermissions sub) = true) ∧
      (cfg.entriesLimit = 0 ∨
        getNondirs dst + (subs.map (·.pentries.length)).sum ≤ cfg.entriesLimit) := by
  have hperm := canRollup_fst_eq_one_iff dst hsubs hroll
  have hcount := canRollup_snd_eq dst hsubs hroll
  constructor
  · intro h
    have hone := canRollup_of_shouldRollup_pos h
    refine ⟨(rollsUpLeaf_of_shouldRollup_pos h).1, hperm.mp hone, ?_⟩
    unfold shouldRollup at h
    simp only [hone, hcount, true_and] at h
    split_ifs at h with hlevel hbefore hafter
    · exact absurd h (lt_irrefl 0)
    · exact absurd h (lt_irrefl 0)
    · exact absurd h (lt_irrefl 0)
    · omega
  · rintro ⟨hmin, hpass, hlimit⟩
    have hone := hperm.mpr hpass
    unfold shouldRollup
    rw [if_neg (not_lt.mpr hmin), if_neg (by omega)]
    simp only [hone, hcount]
    rw [if_neg (by omega)]
    exact one_pos

/-- `should_rollup` reads the databases and the flags of the children. -/
theorem shouldRollup_congr {cfg : Config} {level : ℕ} {dst : Db} {cs' : List Child}
    (h : cs.map (fun c => (c.db, c.rolledup)) = cs'.map fun c => (c.db, c.rolledup)) :
    shouldRollup cfg level dst cs = shouldRollup cfg level dst cs' := by
  have hcan : canRollup dst cs = canRollup dst cs' := by
    have hlen : cs.length = cs'.length := by simpa using congrArg List.length h
    have hcount : cs.countP (·.rolledup) = cs'.countP (·.rolledup) := by
      have hc := congrArg (List.countP Prod.snd) h
      rwa [List.countP_map, List.countP_map] at hc
    have hall : cs.all (·.db.isSome) = cs'.all (·.db.isSome) := by
      have hc := congrArg (fun l => l.all fun x => x.1.isSome) h
      rwa [List.all_map, List.all_map] at hc
    have hdbs : cs.filterMap (·.db) = cs'.filterMap (·.db) := by
      have hc := congrArg (List.filterMap Prod.fst) h
      rwa [List.filterMap_map, List.filterMap_map] at hc
    cases cs with
    | nil =>
        obtain rfl := List.length_eq_zero_iff.mp hlen.symm
        rfl
    | cons c cs =>
        have hne : cs' ≠ [] := by
          rintro rfl
          cases hlen
        rw [canRollup_of_ne_nil (List.cons_ne_nil c cs), canRollup_of_ne_nil hne]
        simp only [hlen, hcount, hall, hdbs]
  unfold shouldRollup
  rw [hcan]

variable {ts : TreeSummaryCode} {cfg : Config} {F : DirFaults → Prop} {root : DirTree} {ix : Index}
  {s : RunState} {l : ℕ} {t : DirTree}

/-- The subdirectories are rolled up, with the tables computed from the index. -/
def ChildrenRolledUp (ix : Index) (s : RunState) (t : DirTree) : Prop :=
  ∀ c ∈ t.subdirs, s.rolledup c.path = true ∧
    ∃ db, (s.ix c.path).db = some db ∧ db.withoutTreesummary = c.rolledDb ix

/-- `should_rollup` over subdirectories that are all rolled up. -/
theorem shouldRollup_children_iff (dst : Db) (flt : DirFaults) (h : ChildrenRolledUp ix s t) :
    0 < shouldRollup cfg l dst (s.children flt t) ↔ cfg.minLevel ≤ l ∧
      (∀ c ∈ t.subdirs,
        checkPairPermissions (getPermissions dst) (ix c.path).permissions = true) ∧
      (cfg.entriesLimit = 0 ∨
        getNondirs dst + (t.subdirs.map fun c => (c.pentriesBelow ix).length).sum ≤
          cfg.entriesLimit) := by
  let sub := fun c : DirTree => (s.ix c.path).db.getD default
  have hsub : ∀ c ∈ t.subdirs, (s.ix c.path).db = some (sub c) ∧
      (sub c).withoutTreesummary = c.rolledDb ix := by
    intro c hc
    obtain ⟨-, db, hdb, heq⟩ := h c hc
    simp only [sub, hdb, Option.getD_some]
    exact ⟨trivial, heq⟩
  have hsubs : (s.children flt t).map (·.db) = (t.subdirs.map sub).map some := by
    rw [RunState.map_db_children, List.map_map]
    exact List.map_congr_left fun c hc => (hsub c hc).1
  have hroll : ∀ ch ∈ s.children flt t, ch.rolledup = true := by
    intro ch hch
    obtain ⟨i, c, hi, rfl⟩ := RunState.mem_children.mp hch
    exact (h c (List.mem_of_getElem? hi)).1
  have hperm : ∀ c ∈ t.subdirs, getRootPermissions (sub c) = (ix c.path).permissions := by
    intro c hc
    rw [← DirTree.getRootPermissions_rolledDb, ← (hsub c hc).2]
    rfl
  have hcount : (t.subdirs.map sub).map (·.pentries.length) =
      t.subdirs.map fun c => (c.pentriesBelow ix).length := by
    rw [List.map_map]
    apply List.map_congr_left
    intro c hc
    rw [← DirTree.pentries_rolledDb, ← (hsub c hc).2]
    rfl
  rw [shouldRollup_pos_iff dst hsubs hroll, List.forall_mem_map, hcount]
  have hpass : (∀ c ∈ t.subdirs, checkPairPermissions (getPermissions dst)
        (getRootPermissions (sub c)) = true) ↔
      ∀ c ∈ t.subdirs, checkPairPermissions (getPermissions dst) (ix c.path).permissions = true :=
    forall₂_congr fun c hc => by rw [hperm c hc]
  rw [hpass]

end Decision

section FirstRun

variable {ts : TreeSummaryCode} {cfg : Config} {F : DirFaults → Prop} {root : DirTree} {ix : Index}
  {s s₀ : RunState} {flt : DirFaults} {l : ℕ} {t : DirTree}

/-- What the rules of gufi_rollup say about a directory of an index that has nothing rolled up:
every subdirectory rolls up, passes the permission check, and the entries stay within the limit. -/
inductive DirTree.RollsUp (cfg : Config) (ix : Index) : ℕ → DirTree → Prop
  | node {l : ℕ} {p : Bytes} {cs : List DirTree} (hlevel : cfg.minLevel ≤ l)
      (hchild : ∀ c ∈ cs, RollsUp cfg ix (l + 1) c)
      (hpass : ∀ c ∈ cs,
        checkPairPermissions (ix p).permissions (ix c.path).permissions = true)
      (hlimit : cfg.entriesLimit = 0 ∨
        (ix p).nondirs + (cs.map fun c => (c.pentriesBelow ix).length).sum ≤ cfg.entriesLimit) :
      RollsUp cfg ix l (.node p cs)

theorem DirTree.rollsUp_iff : t.RollsUp cfg ix l ↔
    (∀ c ∈ t.subdirs, c.RollsUp cfg ix (l + 1)) ∧ cfg.minLevel ≤ l ∧
      (∀ c ∈ t.subdirs,
        checkPairPermissions (ix t.path).permissions (ix c.path).permissions = true) ∧
      (cfg.entriesLimit = 0 ∨
        (ix t.path).nondirs + (t.subdirs.map fun c => (c.pentriesBelow ix).length).sum ≤
          cfg.entriesLimit) := by
  constructor
  · rintro ⟨hlevel, hchild, hpass, hlimit⟩
    exact ⟨hchild, hlevel, hpass, hlimit⟩
  · rintro ⟨hchild, hlevel, hpass, hlimit⟩
    rw [t.eta]
    exact .node hlevel hchild hpass hlimit

theorem Dir.Unrolled.isSome_db {d : Dir} (h : d.Unrolled) : d.db.isSome = true := by
  obtain ⟨db, hdb, -⟩ := h.db
  rw [hdb]
  rfl

theorem Dir.Unrolled.getPermissions_eq {d : Dir} {db : Db} (h : d.Unrolled)
    (hdb : d.db = some db) (rows : Option (List TreeSummaryRow)) :
    getPermissions { db with treesummary := rows } = d.permissions := by
  obtain ⟨db', hdb', hun⟩ := h.db
  obtain rfl := Option.some.inj (hdb.symm.trans hdb')
  rw [Dir.permissions, hdb]
  exact hun.getPermissions_eq

/-- An error-free ascent of a directory with a rollup score rolls it up. -/
theorem AscendedFrom.rolledup_of_pos (h : AscendedFrom ts cfg F root ix s₀ flt l t s)
    (hok : s.ok = true) {db : Db} (hdb : (ix t.path).db = some db) (hlevel : cfg.minLevel ≤ l)
    (hpos : 0 < shouldRollup cfg l { db with treesummary := some [] } (s₀.children flt t)) :
    s.rolledup t.path = true := by
  have hown : s₀.ix t.path = ix t.path := h.run.ix_eq_of_not_ascended h.fresh
  have hok' := h.ok hok
  rw [h.rolledup]
  rw [RunState.ascendResult, if_neg (not_lt.mpr hlevel), hown] at hok' ⊢
  rcases rollupAscend_cases ts cfg (s₀.ix.attachXattr t.path) l t.path hdb (s₀.children flt t)
    with ⟨-, heq⟩ | ⟨hzero, -⟩
  · rw [heq] at hok' ⊢
    exact hok'
  · exact absurd hpos (not_lt.mpr hzero)

/-- An error-free run over an index that has nothing rolled up decides by the rules. -/
theorem RunReaches.rolledup_iff_rollsUp (hroot : root.WellFormed)
    (hix : ∀ t ∈ root.subtrees, (ix t.path).Unrolled) (hrun : RunReaches ts cfg F root ix s)
    (hok : s.ok = true) (ht : (l, t) ∈ root.levels 0) (hasc : s.ascended t.path = true) :
    s.rolledup t.path = true ↔ t.RollsUp cfg ix l := by
  induction t using DirTree.induct generalizing l with
  | node p cs ih =>
      have hmem := DirTree.mem_subtrees_of_mem_levels ht
      obtain ⟨s₀, flt, hfrom⟩ := hrun.ascendedFrom hroot ht hasc
      obtain ⟨db, hdb, -⟩ := (hix _ hmem).db
      have hcasc : ∀ c ∈ cs, s.ascended c.path = true :=
        fun c hc => (hfrom.kept c.path (hfrom.below c hc)).2.2
      have hih : ∀ c ∈ cs, (s.rolledup c.path = true ↔ c.RollsUp cfg ix (l + 1)) :=
        fun c hc => ih c hc (DirTree.mem_levels_subdir ht hc) (hcasc c hc)
      have hsome : ∀ t ∈ root.subtrees, (ix t.path).db.isSome = true :=
        fun t ht => (hix t ht).isSome_db
      have hchildren : (∀ c ∈ cs, s.rolledup c.path = true) →
          ChildrenRolledUp ix s₀ (.node p cs) := by
        intro hroll c hc
        obtain ⟨hsame, hsameroll, -⟩ := hfrom.kept c.path (hfrom.below c hc)
        rw [← hsame, ← hsameroll]
        exact ⟨hroll c hc, hrun.rolledDb_eq hroot hsome (DirTree.subdir_mem_subtrees hmem hc)
          (hcasc c hc) (hroll c hc)⟩
      have hiff (hroll : ∀ c ∈ cs, s.rolledup c.path = true) :
          0 < shouldRollup cfg l { db with treesummary := some [] } (s₀.children flt _) ↔ _ :=
        shouldRollup_children_iff _ flt (hchildren hroll)
      have hperm := (hix _ hmem).getPermissions_eq hdb (some [])
      have hnondirs : getNondirs { db with treesummary := some [] } = (ix p).nondirs := by
        rw [Dir.nondirs, show (ix p).db = some db from hdb]
        rfl
      rw [DirTree.rollsUp_iff]
      constructor
      · intro hroll
        have hup := hfrom.rolledUpFrom hroll
        have hscore := hup.score
        rw [Dir.opened, hdb] at hscore
        have hdec := (hiff hup.children).mp hscore
        rw [hperm, hnondirs] at hdec
        exact ⟨fun c hc => (hih c hc).mp (hup.children c hc), hdec⟩
      · rintro ⟨hchild, hdec⟩
        have hroll : ∀ c ∈ cs, s.rolledup c.path = true := fun c hc => (hih c hc).mpr (hchild c hc)
        apply hfrom.rolledup_of_pos hok hdb hdec.1
        apply (hiff hroll).mpr
        rw [hperm, hnondirs]
        exact hdec

end FirstRun

section Repeat

/-- The same tables and the same files, whatever is in the files. -/
structure Alike (d d' : Dir) : Prop where
  db : d'.db = d.db
  files : ∀ f, d'.hasFile f = d.hasFile f

theorem Alike.refl (d : Dir) : Alike d d :=
  ⟨rfl, fun _ => rfl⟩

/-- What can be attached the first time can be attached the second time. -/
def AttachesAgain (attach attach' : AttachXattr) : Prop :=
  ∀ d d' uri, Alike d d' → (attach d uri).isSome = true → (attach' d' uri).isSome = true

variable {umask : ℕ} {attach attach' : AttachXattr} {d d' : Dir}

theorem hasFile_appendXattrRollup (d : Dir) (f : Bytes) (rows : List XattrRow) (g : Bytes) :
    (appendXattrRollup d f rows).hasFile g = d.hasFile g := by
  by_cases hg : g = f
  · simp [appendXattrRollup, Dir.hasFile, hg]
  · simp [appendXattrRollup, Dir.hasFile, Function.update_of_ne hg]

theorem ensureXattrDb_again {flt : Option ExternalFault} {row : ExternalDb} (h : Alike d d')
    (hok : (ensureXattrDb umask flt d row).2 = true) :
    (ensureXattrDb umask none d' row).2 = true ∧
      Alike (ensureXattrDb umask flt d row).1 (ensureXattrDb umask none d' row).1 := by
  obtain ⟨happ, -, hfiles⟩ := ensureXattrDb_spec umask flt d row
  obtain ⟨happ', hfail', hfiles'⟩ := ensureXattrDb_spec umask none d' row
  have hok' : (ensureXattrDb umask none d' row).2 = true := by
    rw [← Bool.not_eq_false, hfail']
    simp
  refine ⟨hok', ?_, fun f => ?_⟩
  · rw [happ.db, happ'.db, h.db]
  · rw [hfiles hok, hfiles' hok', h.files]

theorem rollupExternalXattrs_again {flt : Option ExternalFault} {child : Bytes}
    {row : ExternalDb} (h : Alike d d') (hattach : AttachesAgain attach attach')
    (hok : (rollupExternalXattrs umask attach flt child d row).2 = true) :
    (rollupExternalXattrs umask attach' none child d' row).2 = true ∧
      Alike (rollupExternalXattrs umask attach flt child d row).1
        (rollupExternalXattrs umask attach' none child d' row).1 := by
  unfold rollupExternalXattrs at hok ⊢
  obtain ⟨hensure, hok⟩ := thenIfOk_snd.mp hok
  obtain ⟨hensure', halike⟩ := ensureXattrDb_again h hensure
  have hnone : ¬((none : Option ExternalFault) = some .opendb ∨
      (none : Option ExternalFault) = some .attach) := by simp
  rw [thenIfOk_of_ok hensure, thenIfOk_of_ok hensure', if_neg hnone]
  split_ifs at hok ⊢ with hfault
  · cases hx : attach (ensureXattrDb umask flt d row).1 (child ++ slash :: row.filename) with
    | none => simp [hx] at hok
    | some x =>
        have hsome := hattach _ _ (child ++ slash :: row.filename) halike (by rw [hx]; rfl)
        obtain ⟨x', hx'⟩ := Option.isSome_iff_exists.mp hsome
        simp only [hx']
        refine ⟨trivial, ?_, fun f => ?_⟩
        · rcases flt with _ | (_ | _ | _ | _ | n) <;> exact halike.db
        · rcases flt with _ | (_ | _ | _ | _ | n)
          all_goals
            simp only [hasFile_appendXattrRollup]
            exact halike.files f

theorem rollupExternals_again {flt : ℕ → Option ExternalFault} {child : Bytes}
    {rows : List ExternalDb} {k : ℕ} (h : Alike d d') (hattach : AttachesAgain attach attach')
    (hok : (rollupExternals umask attach flt child k rows d).2 = true) :
    (rollupExternals umask attach' (fun _ => none) child k rows d').2 = true ∧
      Alike (rollupExternals umask attach flt child k rows d).1
        (rollupExternals umask attach' (fun _ => none) child k rows d').1 := by
  induction rows generalizing k d d' with
  | nil => exact ⟨rfl, h⟩
  | cons row rows ih =>
      rw [rollupExternals] at hok ⊢
      obtain ⟨hrow, hok⟩ := thenIfOk_snd.mp hok
      obtain ⟨hrow', halike⟩ := rollupExternalXattrs_again h hattach hrow
      rw [rollupExternals, thenIfOk_of_ok hrow, thenIfOk_of_ok hrow']
      exact ih halike hok

theorem rollupOneSubdir_again {flt : ChildFaults} {sub db : Db}
    (hok : (rollupOneSubdir flt bottomupRowName sub db).2 = true) :
    rollupOneSubdir {} bottomupRowName sub db = rollupOneSubdir flt bottomupRowName sub db := by
  obtain ⟨⟨hp, hs, hx, he⟩, ht, -, -⟩ := faults_of_rollupOneSubdir_ok hok
  unfold rollupOneSubdir insertPentries insertSummary insertTreesummary insertXattrs
    insertExternalDbs
  rw [hp, hs, hx, he, ht]

/-- A child that was rolled up without a failure is rolled up so again. -/
theorem rollupChild_again {c c' : Child} (h : Alike d d') (hattach : AttachesAgain attach attach')
    (hpath : c'.path = c.path) (hsub : c'.attached = c.attached) (hfaults : c'.faults = {})
    (hok : (rollupChild umask attach c d).2 = true) :
    (rollupChild umask attach' c' d').2 = true ∧
      Alike (rollupChild umask attach c d).1 (rollupChild umask attach' c' d').1 := by
  unfold rollupChild at hok ⊢
  rw [hfaults, hpath, hsub, if_neg Bool.false_ne_true]
  split_ifs at hok ⊢
  cases hc : c.attached with
  | none => simp [hc] at hok
  | some sub =>
      simp only [hc, rollupChildProcess] at hok ⊢
      rw [h.db]
      cases hdb : d.db with
      | none => simp [hdb] at hok
      | some db =>
          simp only [hdb] at hok ⊢
          obtain ⟨htables, hok⟩ := thenIfOk_snd.mp hok
          have htables' : (d'.setDb (rollupOneSubdir c.faults bottomupRowName sub db).1,
              (rollupOneSubdir c.faults bottomupRowName sub db).2).2 = true := htables
          rw [rollupOneSubdir_again htables, thenIfOk_of_ok htables, thenIfOk_of_ok htables']
          exact rollupExternals_again ⟨rfl, h.files⟩ hattach hok

theorem rollupChildren_again {cs cs' : List Child} (h : Alike d d')
    (hattach : AttachesAgain attach attach')
    (hcs : List.Forall₂ (fun c c' => c'.path = c.path ∧ c'.attached = c.attached ∧
      c'.faults = {}) cs cs') (hok : (rollupChildren umask attach cs d).2 = true) :
    (rollupChildren umask attach' cs' d').2 = true ∧
      Alike (rollupChildren umask attach cs d).1 (rollupChildren umask attach' cs' d').1 := by
  induction hcs generalizing d d' with
  | nil => exact ⟨rfl, h⟩
  | cons hc _ ih =>
      obtain ⟨hpath, hsub, hfaults⟩ := hc
      rw [rollupChildren] at hok ⊢
      obtain ⟨hone, hok⟩ := thenIfOk_snd.mp hok
      obtain ⟨hone', halike⟩ := rollupChild_again h hattach hpath hsub hfaults hone
      rw [rollupChildren, thenIfOk_of_ok hone, thenIfOk_of_ok hone']
      exact ih halike hok

/-- A rollup that succeeded succeeds again and leaves the same tables. -/
theorem doRollup_again {ts : TreeSummaryCode} {cs cs' : List Child}
    (h : rollupInit d' = rollupInit d) (hattach : AttachesAgain attach attach')
    (hcs : List.Forall₂ (fun c c' => c'.path = c.path ∧ c'.attached = c.attached ∧
      c'.faults = {}) cs cs') (hok : (doRollup ts umask attach d cs).2 = true) :
    (doRollup ts umask attach' d' cs').2 = true ∧
      Alike (doRollup ts umask attach d cs).1 (doRollup ts umask attach' d' cs').1 := by
  unfold doRollup at hok ⊢
  obtain ⟨hchildren, -⟩ := thenIfOk_snd.mp hok
  obtain ⟨hchildren', halike⟩ := rollupChildren_again (Alike.refl (rollupInit d)) hattach hcs
    hchildren
  rw [h, thenIfOk_of_ok hchildren, thenIfOk_of_ok hchildren', halike.db]
  cases (rollupChildren umask attach cs (rollupInit d)).1.db with
  | none => exact ⟨rfl, halike⟩
  | some db => exact ⟨rfl, rfl, halike.files⟩

/-- Cleaning up starts from the own content. -/
theorem rollupInit_opened (h : d'.content = d.content) :
    rollupInit d'.opened = rollupInit d.opened := by
  have hinit (d : Dir) : (rollupInit d.opened).db =
      d.db.map fun _ => { d.cleaned with treesummary := some [] } := by
    rw [rollupInit, Dir.rollupCleanup_db]
    cases hdb : d.db with
    | none => rw [Dir.opened, hdb, hdb]; rfl
    | some db =>
        rw [Dir.opened_eq hdb, Dir.setDb_db, Dir.cleaned, hdb]
        rfl
  have hsome : d'.db.isSome = d.db.isSome := by
    have hdb := congrArg (fun d : Dir => d.db.isSome) h
    simpa [Dir.content] using hdb
  rw [Dir.ext_iff']
  constructor
  · rw [hinit, hinit, Dir.cleaned_eq_of_content_eq h]
    cases hd : d.db with
    | none =>
        rw [hd, Option.isSome_none, Option.isSome_eq_false_iff, Option.isNone_iff_eq_none] at hsome
        rw [hsome]
    | some db =>
        rw [hd] at hsome
        obtain ⟨db', hdb'⟩ := Option.isSome_iff_exists.mp hsome
        rw [hdb', Option.map_some, Option.map_some]
  · intro f
    rw [rollupInit, rollupInit, Dir.rollupCleanup_xattrDbs, Dir.rollupCleanup_xattrDbs,
      Dir.content_opened, Dir.content_opened, h]

theorem shouldRollup_eq_one_of_pos {cfg : Config} {level : ℕ} {dst : Db} {cs : List Child}
    (h : 0 < shouldRollup cfg level dst cs) : shouldRollup cfg level dst cs = 1 := by
  have hone := canRollup_of_shouldRollup_pos h
  unfold shouldRollup at h ⊢
  simp only [hone] at h ⊢
  split_ifs at h ⊢ <;> omega

variable {ts : TreeSummaryCode} {cfg : Config} {level : ℕ} {path : Bytes} {own own' : Dir}
  {cs cs' : List Child}

/-- A directory that was not rolled up is left as it is. -/
theorem rollupAscend_again_of_nonpos {db : Db} (hdb : own.db = some db)
    (hcs : cs.map (fun c => (c.db, c.rolledup)) = cs'.map fun c => (c.db, c.rolledup))
    (h : shouldRollup cfg level { db with treesummary := some [] } cs ≤ 0)
    (hown : own' = (rollupAscend ts cfg attach level path own cs).dir) :
    Alike own' (rollupAscend ts cfg attach' level path own' cs').dir ∧
      (rollupAscend ts cfg attach' level path own' cs').rolledup =
        (rollupAscend ts cfg attach level path own cs).rolledup ∧
      (rollupAscend ts cfg attach' level path own' cs').score =
        (rollupAscend ts cfg attach level path own cs).score := by
  have hdbs : cs.map (·.db) = cs'.map (·.db) := by
    have hfst := congrArg (List.map Prod.fst) hcs
    rwa [List.map_map, List.map_map] at hfst
  have hscore : shouldRollup cfg level { db with treesummary := some [] } cs =
      shouldRollup cfg level { db with treesummary := some [] } cs' := shouldRollup_congr hcs
  rw [hscore] at h
  unfold rollupAscend at hown ⊢
  simp only [hdb, hscore, hdbs] at hown ⊢
  rw [if_neg (not_lt.mpr h)] at hown ⊢
  by_cases hzero : shouldRollup cfg level { db with treesummary := some [] } cs' = 0
  · rw [if_pos hzero] at hown ⊢
    obtain rfl := hown
    simp only [Dir.setDb_db, Db.setTreesummary, hzero, lt_irrefl, if_false, if_true]
    exact ⟨Alike.refl _, trivial, trivial⟩
  · rw [if_neg hzero] at hown ⊢
    obtain rfl := hown
    simp only [Dir.setDb_db, if_neg (not_lt.mpr h), if_neg hzero]
    exact ⟨Alike.refl _, trivial, trivial⟩

/-- A directory that was rolled up is rolled up to the same tables. -/
theorem rollupAscend_again_of_pos {db : Db} (hdb : own.db = some db)
    (h : 0 < shouldRollup cfg level { db with treesummary := some [] } cs)
    (hok : (rollupAscend ts cfg attach level path own cs).ok = true)
    (hown : own' = (rollupAscend ts cfg attach level path own cs).dir)
    (hcontent : own'.content = own.content) (hattach : AttachesAgain attach attach')
    (hcs : List.Forall₂ (fun c c' => c'.path = c.path ∧ c'.attached = c.attached ∧
      c'.faults = {}) cs cs')
    (hstay : ∀ db, own'.db = some db →
      0 < shouldRollup cfg level { db with treesummary := some [] } cs') :
    Alike own' (rollupAscend ts cfg attach' level path own' cs').dir ∧
      (rollupAscend ts cfg attach' level path own' cs').rolledup =
        (rollupAscend ts cfg attach level path own cs).rolledup ∧
      (rollupAscend ts cfg attach' level path own' cs').score =
        (rollupAscend ts cfg attach level path own cs).score := by
  rcases rollupAscend_cases ts cfg attach level path hdb cs with ⟨-, heq⟩ | ⟨hno, -⟩
  · rw [heq] at hok hown ⊢
    obtain ⟨db', hdb'⟩ : ∃ db', own'.db = some db' := by
      have hsome := congrArg (fun d : Dir => d.db.isSome) hcontent
      rw [← Option.isSome_iff_exists]
      simpa [Dir.content, hdb] using hsome
    have hinit : rollupInit (own'.setDb { db' with treesummary := some [] }) =
        rollupInit (own.setDb { db with treesummary := some [] }) := by
      rw [← Dir.opened_eq hdb, ← Dir.opened_eq hdb']
      exact rollupInit_opened hcontent
    obtain ⟨hok', halike⟩ := doRollup_again hinit hattach hcs hok
    rcases rollupAscend_cases ts cfg attach' level path hdb' cs' with ⟨hpos', heq'⟩ | ⟨hno', -⟩
    · have hown' : own' = (doRollup ts cfg.umask attach
          (own.setDb { db with treesummary := some [] }) cs).1 := hown
      rw [← hown'] at halike
      rw [heq']
      refine ⟨halike, hok'.trans hok.symm, ?_⟩
      exact (shouldRollup_eq_one_of_pos hpos').trans (shouldRollup_eq_one_of_pos h).symm
    · exact absurd (hstay db' hdb') (not_lt.mpr hno')
  · exact absurd h (not_lt.mpr hno)

end Repeat

section SecondRun

variable {ts : TreeSummaryCode} {cfg : Config} {F : DirFaults → Prop} {root : DirTree} {ix : Index}
  {s₀ s₁ r : RunState} {flt flt' : DirFaults} {l : ℕ} {t : DirTree}

theorem RunState.map_children (s : RunState) (flt : DirFaults) (t : DirTree) :
    (s.children flt t).map (fun c => (c.db, c.rolledup)) =
      t.subdirs.map fun c => ((s.ix c.path).db, s.rolledup c.path) := by
  rw [RunState.children, List.map_map]
  conv_rhs => rw [← List.zipIdx_map_fst 0 t.subdirs, List.map_map]
  rfl

theorem forall₂_children {s s' : RunState} (h : ∀ c ∈ t.subdirs,
    (s'.ix c.path).db = (s.ix c.path).db) :
    List.Forall₂ (fun c c' => c'.path = c.path ∧ c'.attached = c.attached ∧ c'.faults = {})
      (s.children flt t) (s'.children (fun _ => {}) t) := by
  rw [RunState.children, RunState.children, List.forall₂_map_left_iff, List.forall₂_map_right_iff,
    List.forall₂_same]
  intro c hc
  refine ⟨rfl, ?_, rfl⟩
  simp only [attachDb_sqliteUriPath]
  exact h c.1 (List.fst_mem_of_mem_zipIdx hc)

/-- The second ascent of a directory, when what it reads is what the first ascent left and what was
rolled up is still allowed to roll up. -/
theorem AscendedFrom.again (h : AscendedFrom ts cfg F root ix s₀ flt l t s₁) (hok : s₁.ok = true)
    {db : Db} (hdb : (ix t.path).db = some db)
    (hcontent : (s₁.ix t.path).content = (ix t.path).content)
    (hown : r.ix t.path = s₁.ix t.path)
    (hchildren : ∀ c ∈ t.subdirs, (r.ix c.path).db = (s₁.ix c.path).db ∧
      r.rolledup c.path = s₁.rolledup c.path)
    (hattach : AttachesAgain (s₀.ix.attachXattr t.path) (r.ix.attachXattr t.path))
    (hstay : s₁.rolledup t.path = true →
      ∀ db, (s₁.ix t.path).db = some db →
        0 < shouldRollup cfg l { db with treesummary := some [] } (r.children (fun _ => {}) t)) :
    Alike (s₁.ix t.path) (r.ascendResult ts cfg (fun _ => {}) l t).dir ∧
      (r.ascendResult ts cfg (fun _ => {}) l t).rolledup = s₁.rolledup t.path ∧
      (r.ascendResult ts cfg (fun _ => {}) l t).score = s₁.score t.path := by
  have hfirst : s₀.ix t.path = ix t.path := h.run.ix_eq_of_not_ascended h.fresh
  have hdir := h.dir
  have hroll := h.rolledup
  have hscore := h.score
  rw [RunState.ascendResult] at hdir hroll hscore ⊢
  by_cases hlevel : l < cfg.minLevel
  · rw [if_pos hlevel] at hdir hroll hscore ⊢
    rw [hown, hroll, hscore]
    exact ⟨Alike.refl _, rfl, rfl⟩
  · rw [if_neg hlevel, hfirst] at hdir hroll hscore
    rw [if_neg hlevel, hown]
    have hkept : ∀ c ∈ t.subdirs, s₁.ix c.path = s₀.ix c.path ∧
        s₁.rolledup c.path = s₀.rolledup c.path :=
      fun c hc => ⟨(h.kept c.path (h.below c hc)).1, (h.kept c.path (h.below c hc)).2.1⟩
    rw [hroll, hscore]
    rcases lt_or_ge 0 (shouldRollup cfg l { db with treesummary := some [] } (s₀.children flt t))
      with hpos | hzero
    · have hok' := h.ok hok
      rw [RunState.ascendResult, if_neg hlevel, hfirst] at hok'
      apply rollupAscend_again_of_pos hdb hpos hok' hdir hcontent hattach
      · apply forall₂_children
        intro c hc
        rw [(hchildren c hc).1, (hkept c hc).1]
      · apply hstay
        rw [hroll]
        rcases rollupAscend_cases ts cfg (s₀.ix.attachXattr t.path) l t.path hdb
          (s₀.children flt t) with ⟨-, heq⟩ | ⟨hno, -⟩
        · rw [heq] at hok' ⊢
          exact hok'
        · exact absurd hpos (not_lt.mpr hno)
    · apply rollupAscend_again_of_nonpos hdb _ hzero hdir
      rw [RunState.map_children, RunState.map_children]
      apply List.map_congr_left
      intro c hc
      rw [(hchildren c hc).1, (hchildren c hc).2, (hkept c hc).1, (hkept c hc).2]

theorem attachesAgain_of_hasFile {i i' : Index} {p : Bytes}
    (h : ∀ q, q ≠ p → ∀ f, (i q).hasFile f = true → (i' q).hasFile f = true) :
    AttachesAgain (i.attachXattr p) (i'.attachXattr p) := by
  intro d d' uri halike hsome
  unfold Index.attachXattr Index.xattrDbAt at hsome ⊢
  by_cases hp : (splitPath (sqliteUriDecode uri)).1 = p
  · rw [hp, Function.update_self] at hsome ⊢
    exact (halike.files _).trans hsome
  · rw [Function.update_of_ne hp] at hsome ⊢
    exact h _ hp _ hsome

theorem RunReaches.exists_of_ascended {s : RunState} (h : RunReaches ts cfg F root ix s)
    {p : Bytes} (hp : s.ascended p = true) : ∃ t ∈ root.subtrees, t.path = p := by
  revert hp
  apply h.invariant (P := fun s => s.ascended p = true → ∃ t ∈ root.subtrees, t.path = p)
  · intro hp
    cases hp
  · intro s l t flt hs ht _ _ _ hp
    change Function.update s.ascended t.path true p = true at hp
    by_cases hpt : p = t.path
    · exact ⟨t, DirTree.mem_subtrees_of_mem_levels ht, hpt.symm⟩
    · rw [Function.update_of_ne hpt] at hp
      exact hs hp

/-- The xattr databases of the index, and those a run has created, are there at its end. -/
theorem AscendedFrom.hasFile (h : AscendedFrom ts cfg F root ix s₀ flt l t s₁)
    (hix : ∀ t ∈ root.subtrees, (ix t.path).Unrolled) (hrun : RunReaches ts cfg F root ix s₁)
    {p f : Bytes} (hf : (s₀.ix p).hasFile f = true) : (s₁.ix p).hasFile f = true := by
  cases hasc₀ : s₀.ascended p with
  | true =>
      rw [(h.kept p hasc₀).1]
      exact hf
  | false =>
      rw [h.run.ix_eq_of_not_ascended hasc₀] at hf
      cases hasc : s₁.ascended p with
      | false =>
          rw [hrun.ix_eq_of_not_ascended hasc]
          exact hf
      | true =>
          obtain ⟨u, hu, rfl⟩ := hrun.exists_of_ascended hasc
          have hcontent := congrArg (fun d : Dir => d.xattrDbs f)
            (hrun.content_eq (hix u hu).settled)
          simp only [(hix u hu).content_xattrDbs] at hcontent
          rw [Dir.hasFile, ← hcontent] at hf
          rw [Dir.hasFile]
          cases hx : (s₁.ix u.path).xattrDbs f with
          | none => simp [Dir.content, hx] at hf
          | some x => rfl

/-- The numbers the second run reads in a rolled-up directory still allow its rollup: the
permissions of the last directory below it, and the files and links of its whole tree. -/
structure DirTree.StaysRollable (cfg : Config) (ix : Index) (t : DirTree) : Prop where
  pass : ∀ c ∈ t.subdirs, checkPairPermissions
    ((t.subtrees.map fun u => (ix u.path).permissions).getLastD ⟨0, 0, 0⟩)
    (ix c.path).permissions = true
  limit : cfg.entriesLimit = 0 ∨ (t.subtrees.map fun u => (ix u.path).nondirs).sum +
    (t.subdirs.map fun c => (c.pentriesBelow ix).length).sum ≤ cfg.entriesLimit

theorem Dir.Unrolled.cleaned_summary {d : Dir} (h : d.Unrolled) : ∃ row, d.cleaned.summary = [row] ∧
    row.perms = d.permissions ∧ row.totfiles + row.totlinks = d.nondirs := by
  obtain ⟨db, hdb, hun⟩ := h.db
  obtain ⟨row, hrow, hroot, -⟩ := hun.summary
  refine ⟨{ row with canrollup := true, isrolledup := true }, ?_, ?_, ?_⟩
  · simp [cleaned, hdb, Db.rollupCleanup, Db.withoutTreesummary, Db.rootRows, hrow, hroot]
  · simp [permissions, hdb, getRootPermissions, Db.rootRows, hrow, hroot]
  · simp [nondirs, hdb, getNondirs, hrow]

theorem getPermissions_rolledDb (hix : ∀ u ∈ t.subtrees, (ix u.path).Unrolled) :
    getPermissions (t.rolledDb ix) =
      (t.subtrees.map fun u => (ix u.path).permissions).getLastD ⟨0, 0, 0⟩ := by
  have hmap : (t.rolledDb ix).summary.map (·.perms) =
      t.subtrees.map fun u => (ix u.path).permissions := by
    rw [DirTree.map_summary_rolledDb ix (fun _ _ => rfl), List.map_eq_flatMap]
    apply List.flatMap_congr
    intro u hu
    obtain ⟨row, hrow, hperms, -⟩ := (hix u hu).cleaned_summary
    rw [hrow, List.map_singleton, hperms]
  rw [getPermissions, hmap]

theorem getNondirs_rolledDb (hix : ∀ u ∈ t.subtrees, (ix u.path).Unrolled) :
    getNondirs (t.rolledDb ix) = (t.subtrees.map fun u => (ix u.path).nondirs).sum := by
  have hmap : ((t.rolledDb ix).summary.map fun s => s.totfiles + s.totlinks) =
      t.subtrees.map fun u => (ix u.path).nondirs := by
    rw [DirTree.map_summary_rolledDb ix (fun _ _ => rfl), List.map_eq_flatMap]
    apply List.flatMap_congr
    intro u hu
    obtain ⟨row, hrow, -, hnondirs⟩ := (hix u hu).cleaned_summary
    rw [hrow, List.map_singleton, hnondirs]
  rw [getNondirs, hmap]

variable (hroot : root.WellFormed) (hix : ∀ t ∈ root.subtrees, (ix t.path).Unrolled)
include hroot hix

/-- The score of a directory that the first run rolled up, in any state of the second run in which
its subdirectories are as the first run left them. -/
theorem shouldRollup_again_iff (hrun : RunReaches ts cfg F root ix s₁)
    (ht : (l, t) ∈ root.levels 0) (hasc : s₁.ascended t.path = true)
    (hroll : s₁.rolledup t.path = true)
    (hchildren : ∀ c ∈ t.subdirs, (r.ix c.path).db = (s₁.ix c.path).db ∧
      r.rolledup c.path = s₁.rolledup c.path) {db : Db} (hdb : (s₁.ix t.path).db = some db) :
    0 < shouldRollup cfg l { db with treesummary := some [] } (r.children flt t) ↔
      t.StaysRollable cfg ix := by
  have hmem := DirTree.mem_subtrees_of_mem_levels ht
  have hsome : ∀ t ∈ root.subtrees, (ix t.path).db.isSome = true :=
    fun t ht => (hix t ht).isSome_db
  obtain ⟨s₀, flt₁, hfrom⟩ := hrun.ascendedFrom hroot ht hasc
  have hup := hfrom.rolledUpFrom hroll
  have hbelow : ChildrenRolledUp ix r t := by
    intro c hc
    rw [(hchildren c hc).1, (hchildren c hc).2]
    exact ⟨hup.children c hc, hrun.rolledDb_eq hroot hsome (DirTree.subdir_mem_subtrees hmem hc)
      (hfrom.kept c.path (hfrom.below c hc)).2.2 (hup.children c hc)⟩
  obtain ⟨db', hdb', heq⟩ := hrun.rolledDb_eq hroot hsome hmem hasc hroll
  obtain rfl := Option.some.inj (hdb.symm.trans hdb')
  have hun : ∀ u ∈ t.subtrees, (ix u.path).Unrolled :=
    fun u hu => hix u (DirTree.subtrees_subset_of_mem hmem hu)
  have hperm : getPermissions { db with treesummary := some [] } = _ :=
    (congrArg getPermissions heq).trans (getPermissions_rolledDb hun)
  have hnondirs : getNondirs { db with treesummary := some [] } = _ :=
    (congrArg getNondirs heq).trans (getNondirs_rolledDb hun)
  rw [shouldRollup_children_iff _ flt hbelow, hperm, hnondirs]
  constructor
  · rintro ⟨-, hpass, hlimit⟩
    exact ⟨hpass, hlimit⟩
  · rintro ⟨hpass, hlimit⟩
    exact ⟨hup.level, hpass, hlimit⟩

/-- As long as every rollup stays allowed, a second run repeats the first. -/
theorem RunReaches.again (hrun : RunReaches ts cfg F root ix s₁) (hdone : s₁.Complete root)
    (hok : s₁.ok = true)
    (hstay : ∀ l t, (l, t) ∈ root.levels 0 → t.RollsUp cfg ix l → t.StaysRollable cfg ix)
    (h : RunReaches ts cfg NoFaults root s₁.ix r) {t : DirTree} (ht : t ∈ root.subtrees)
    (hasc : r.ascended t.path = true) :
    Alike (s₁.ix t.path) (r.ix t.path) ∧ r.rolledup t.path = s₁.rolledup t.path ∧
      r.score t.path = s₁.score t.path := by
  induction h generalizing t with
  | refl => cases hasc
  | @tail r r' hr hstep ih =>
      cases hstep with
      | @ascend l t' flt' ht' hnew hbelow hflt =>
          obtain rfl : flt' = fun _ => {} := hflt
          change Function.update r.ascended t'.path true t.path = true at hasc
          change Alike _ (Function.update r.ix t'.path _ t.path) ∧
            Function.update r.rolledup t'.path _ t.path = _ ∧
            Function.update r.score t'.path _ t.path = _
          by_cases hp : t.path = t'.path
          · have hmem := DirTree.mem_subtrees_of_mem_levels ht'
            obtain rfl := hroot.eq_of_path_eq ht hmem hp
            simp only [Function.update_self]
            obtain ⟨s₀, flt, hfrom⟩ := hrun.ascendedFrom hroot ht' (hdone t ht)
            obtain ⟨db, hdb, -⟩ := (hix t ht).db
            have hchildren : ∀ c ∈ t.subdirs, (r.ix c.path).db = (s₁.ix c.path).db ∧
                r.rolledup c.path = s₁.rolledup c.path := by
              intro c hc
              obtain ⟨halike, hroll, -⟩ := ih (DirTree.subdir_mem_subtrees ht hc) (hbelow c hc)
              exact ⟨halike.db, hroll⟩
            have hown : r.ix t.path = s₁.ix t.path := RunReaches.ix_eq_of_not_ascended hr hnew
            apply hfrom.again hok hdb (hrun.content_eq (hix t ht).settled) hown hchildren
            · apply attachesAgain_of_hasFile
              intro q _ f hf
              have hf₁ := hfrom.hasFile hix hrun hf
              cases hq : r.ascended q with
              | false =>
                  rw [RunReaches.ix_eq_of_not_ascended hr hq]
                  exact hf₁
              | true =>
                  obtain ⟨u, hu, rfl⟩ := RunReaches.exists_of_ascended hr hq
                  rw [(ih hu hq).1.files]
                  exact hf₁
            · intro hroll db' hdb'
              rw [shouldRollup_again_iff hroot hix hrun ht' (hdone t ht) hroll hchildren hdb']
              apply hstay l t ht'
              exact (hrun.rolledup_iff_rollsUp hroot hix hok ht' (hdone t ht)).mp hroll
          · rw [Function.update_of_ne hp] at hasc
            simp only [Function.update_of_ne hp]
            exact ih ht hasc

end SecondRun

section Example

/-- One file in every directory. -/
def oneFileIndex : Index :=
  fun p => ⟨some { emptyDb [] p.length with
    entries := [⟨[102], 7, []⟩]
    summary := (emptyDb [] p.length).summary.map fun s => { s with totfiles := 1 } },
    fun _ => none⟩

theorem unrolled_oneFileIndex (p : Bytes) : (oneFileIndex p).Unrolled :=
  ⟨⟨_, rfl, ⟨⟨_, rfl, rfl, rfl⟩, rfl, rfl, rfl⟩⟩, by rintro f x ⟨⟩⟩

/-- The first run over `/r` and its subdirectory `a`, and the second. -/
def twoRuns (limit : ℕ) : RunState × RunState :=
  let first := sequentialRun noTreesummary ⟨limit, 0, 0⟩ (pairTree [97]) oneFileIndex
  (first, sequentialRun noTreesummary ⟨limit, 0, 0⟩ (pairTree [97]) first.ix)

end Example

end Gufi
