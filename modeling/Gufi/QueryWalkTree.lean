import Gufi.QueryWalkOrder
import Gufi.RolledUpContent

/-!
# A query walk over an index tree

Over an index that lists the directories of a tree, a walk queries each directory once, from the
minimum level on, and does not go below a directory that is rolled up. After a finished run of
gufi_rollup the rows of a rolled-up directory are those of its tree, so queries that look at entries
and at the columns of summary rows one by one return the same rows as before, for every minimum
level.
-/

namespace Gufi.QueryWalk

open Swap Descend UriPaths UserStrings Worklist Relation

variable {ρ : Type*}

section Tree

variable (ins : Input) (src : Source) (sqlite : Sqlite ρ) (ix : Index)

/-- The index as the walk sees it: the directories of the tree in any order, the databases under
their escaped paths. -/
structure Lists (root : DirTree) (k : ℕ) : Prop where
  opendir : ∀ l t, (l, t) ∈ root.levels k → ∃ entries, src.opendir t.path = some entries ∧
    ((entries.filter (isSubdir ins (l + 1))).map fun e => e.dirent.name).Perm
      (t.subdirs.map DirTree.name)
  attachdb : ∀ t ∈ root.subtrees, src.attachdb (sqliteUriPath t.path) = (ix t.path).db
  saveMatime : ∀ t ∈ root.subtrees, src.saveMatime t.path = true

/-- The work item of a directory of the tree. -/
def workOf (l : ℕ) (t : DirTree) : Gqw where
  name := t.path
  basenameLen := t.name.length
  level := l
  idMatch := false
  sqlite3Name := sqliteUriPath t.path
  escaped := rfl

/-- What `-S` and `-E` return for a directory. -/
def asks (gqw : Gqw) (walked : ℕ) (db : Db) : List (Event ρ) :=
  (runSumEnt ins sqlite (gqw.seen db none walked)
    ⟨[], setDirectory gqw (initialStrs ins), []⟩).events

/-- The options of a plain query: `-S` and `-E` over the whole tree. -/
structure Plain : Prop where
  dirMatch : ins.dirMatch.on = false
  tsum : ins.tsum = []
  externalAttach : ins.externalAttach = false
  externalCopy : ins.externalCopy = []

/-- The walk goes on below the directory. -/
def descends (l : ℕ) (d : Dir) : Bool :=
  l < ins.maxLevel && !(decide (ins.minLevel ≤ l) && d.isrolledup)

variable {ins src sqlite ix} {root t : DirTree} {k l : ℕ}

theorem matchChild_off (h : ins.dirMatch.on = false) (gqw child : Gqw) (e : Entry) (work : Work) :
    matchChild ins gqw child e work = some child := by
  rw [matchChild, if_neg]
  rintro ⟨hon, -⟩
  rw [h] at hon
  cases hon

/-- Without a match of the owner, the subdirectories that are not skipped are enqueued. -/
theorem subdirOf_eq (h : ins.dirMatch.on = false) (gqw : Gqw) (e : Entry) :
    subdirOf ins gqw e = if isSubdir ins (gqw.level + 1) e then some (childOf gqw e) else none := by
  rw [subdirOf_eq_bind]
  split_ifs with hsub
  · obtain ⟨work, hstat⟩ := exists_childStat hsub
    rw [hstat]
    exact matchChild_off h ..
  · rfl

theorem filterMap_subdirOf (h : ins.dirMatch.on = false) (gqw : Gqw) (entries : List Entry) :
    entries.filterMap (subdirOf ins gqw) =
      (entries.filter (isSubdir ins (gqw.level + 1))).map (childOf gqw) := by
  induction entries with
  | nil => rfl
  | cons e entries ih =>
      rw [List.filterMap_cons, subdirOf_eq h, List.filter_cons]
      cases isSubdir ins (gqw.level + 1) e with
      | true => simpa using ih
      | false => simpa using ih

theorem copiesOf_eq_nil (h : ins.externalCopy = []) (db : Option Db) (gqw : Gqw) (e : Entry) :
    copiesOf ins sqlite db gqw e = [] := by
  unfold copiesOf maybeCopyExternal
  rw [h]
  cases skips ins e.dirent.name with
  | true => rfl
  | false =>
      cases childStat (gqw.level + 1) e with
      | none => rfl
      | some work =>
          dsimp only
          split_ifs <;> rfl

/-- Only the name of an entry is in its work item. -/
theorem childOf_workOf {c : DirTree} {e : Entry} (hpath : c.path = t.path ++ slash :: c.name)
    (he : e.dirent.name = c.name) : childOf (workOf l t) e = workOf (l + 1) c := by
  apply Gqw.ext_of_name
  · change t.path ++ slash :: e.dirent.name = c.path
    rw [he, hpath]
  · exact congrArg List.length he
  · rfl
  · rfl

/-- A directory lists its subdirectories. -/
theorem Lists.items (hlists : Lists ins src ix root k) (hroot : root.WellFormed)
    (hplain : Plain ins) (ht : (l, t) ∈ root.levels k) : ∃ entries,
      src.opendir t.path = some entries ∧
        (entries.filterMap (subdirOf ins (workOf l t))).Perm
          (t.subdirs.map (workOf (l + 1))) := by
  obtain ⟨entries, hentries, hperm⟩ := hlists.opendir l t ht
  refine ⟨entries, hentries, ?_⟩
  rw [filterMap_subdirOf hplain.dirMatch]
  let item (n : Bytes) : Gqw := childOf (workOf l t) ⟨⟨0, .dir, n⟩, none, none⟩
  have hsub : (entries.filter (isSubdir ins (l + 1))).map (childOf (workOf l t)) =
      ((entries.filter (isSubdir ins (l + 1))).map fun e => e.dirent.name).map item := by
    rw [List.map_map]
    rfl
  have hcs : t.subdirs.map (workOf (l + 1)) = (t.subdirs.map DirTree.name).map item := by
    rw [List.map_map]
    apply List.map_congr_left
    intro c hc
    obtain ⟨n, ⟨-, -, hslash, -⟩, hn⟩ := hroot.legal t (DirTree.mem_subtrees_of_mem_levels ht) c hc
    have hname : c.name = n := by rw [DirTree.name, hn, splitPath_append hslash]
    exact (childOf_workOf (by rw [hname, hn]) rfl).symm
  rw [hcs]
  exact hsub ▸ hperm.map item

/-- `-S` and `-E` enqueue nothing. -/
theorem runSumEnt_items (seen : Seen) (v : Visit ρ) :
    (runSumEnt ins sqlite seen v).items = v.items := by
  have hstmt (sql : Bytes) (v : Visit ρ) {r : Visit ρ × ℕ}
      (hr : runStatement sqlite sql seen v = some r) : r.1.items = v.items := by
    unfold runStatement at hr
    cases htext : replaceSql sql (saveReplacements sql) v.userStrs with
    | error e =>
        rw [htext] at hr
        cases hr
    | ok text =>
        rw [htext] at hr
        cases hr
        rfl
  have hent (v : Visit ρ) : (runEnt ins sqlite seen v).items = v.items := by
    unfold runEnt
    split_ifs
    · rfl
    · cases hr : runStatement sqlite ins.ent seen v with
      | none => rfl
      | some r => exact hstmt _ v hr
  unfold runSumEnt runSum
  by_cases hsum : ins.sum = []
  · rw [if_pos hsum]
    exact hent v
  · rw [if_neg hsum]
    cases hr : runStatement sqlite ins.sum seen v with
    | none => rfl
    | some r =>
        dsimp only [Option.map_some]
        split_ifs
        all_goals first | exact (hent r.1).trans (hstmt _ v hr) | exact hstmt _ v hr

/-- What `-S` and `-E` return does not depend on what has been emitted and enqueued before. -/
theorem runSumEnt_events (seen : Seen) (v : Visit ρ) : (runSumEnt ins sqlite seen v).events =
    v.events ++ (runSumEnt ins sqlite seen ⟨[], v.userStrs, []⟩).events := by
  have hstmt (sql : Bytes) (v : Visit ρ) : (runStatement sqlite sql seen v =  none ∧
      runStatement sqlite sql seen ⟨[], v.userStrs, []⟩ = none) ∨
      ∃ a : Answer ρ, runStatement sqlite sql seen v = some (v.add a, a.rows.length) ∧
        runStatement sqlite sql seen ⟨[], v.userStrs, []⟩ =
          some (⟨a.events, (v.add a).userStrs, []⟩, a.rows.length) := by
    unfold runStatement
    cases replaceSql sql (saveReplacements sql) v.userStrs with
    | error e => exact Or.inl ⟨rfl, rfl⟩
    | ok text => exact Or.inr ⟨_, rfl, rfl⟩
  have hent (v : Visit ρ) : (runEnt ins sqlite seen v).events =
      v.events ++ (runEnt ins sqlite seen ⟨[], v.userStrs, []⟩).events := by
    unfold runEnt
    split_ifs
    · exact (List.append_nil _).symm
    · rcases hstmt ins.ent v with ⟨h, h'⟩ | ⟨a, h, h'⟩
      · rw [h, h']
        exact (List.append_nil _).symm
      · rw [h, h']
        rfl
  unfold runSumEnt runSum
  by_cases hsum : ins.sum = []
  · rw [if_pos hsum, if_pos hsum]
    exact hent v
  · rw [if_neg hsum, if_neg hsum]
    rcases hstmt ins.sum v with ⟨h, h'⟩ | ⟨a, h, h'⟩
    · rw [h, h']
      exact (List.append_nil _).symm
    · rw [h, h']
      dsimp only [Option.map_some]
      by_cases hrecs : 0 < if ins.processSql = .runOnRow then a.rows.length else 1
      · rw [if_pos hrecs, if_pos hrecs, hent, hent ⟨a.events, _, []⟩]
        exact List.append_assoc ..
      · rw [if_neg hrecs, if_neg hrecs]
        rfl

end Tree

section Reached

variable (ins : Input) (sqlite : Sqlite ρ) (ix : Index)

mutual

/-- The directories that a walk reaches, with their levels. -/
def reached : ℕ → DirTree → List (ℕ × DirTree)
  | l, .node p cs =>
      (l, .node p cs) :: if descends ins l (ix p) then reachedList (l + 1) cs else []

def reachedList : ℕ → List DirTree → List (ℕ × DirTree)
  | _, [] => []
  | l, c :: cs => reached l c ++ reachedList l cs

end

theorem reached_eq (l : ℕ) (t : DirTree) : reached ins ix l t = (l, t) ::
    if descends ins l (ix t.path) then t.subdirs.flatMap (reached ins ix (l + 1)) else [] := by
  have hlist (l : ℕ) (cs : List DirTree) :
      reachedList ins ix l cs = cs.flatMap (reached ins ix l) := by
    induction cs with
    | nil => rfl
    | cons c cs ih => rw [reachedList, ih, List.flatMap_cons]
  cases t with
  | node p cs => rw [reached, hlist]; rfl

/-- What is asked of a directory that is reached. -/
def ownEvents (l : ℕ) (t : DirTree) : List (Event ρ) :=
  if ins.minLevel ≤ l then
    ((ix t.path).db.map (asks ins sqlite (workOf l t)
      (if descends ins l (ix t.path) then t.subdirs.length else 0))).getD []
  else []

variable {ins sqlite ix} {src : Source} {root t : DirTree} {k l : ℕ}

theorem gqDescend_workOf (hroot : root.WellFormed) (hlists : Lists ins src ix root k)
    (hplain : Plain ins) (ht : (l, t) ∈ root.levels k) {entries : List Entry}
    (hentries : src.opendir t.path = some entries) (db : Option Db) :
    (gqDescend ins sqlite db (workOf l t) entries).1 = [] ∧
      (gqDescend ins sqlite db (workOf l t) entries).2.Perm
        (if l < ins.maxLevel then t.subdirs.map (workOf (l + 1)) else []) := by
  obtain ⟨entries', hentries', hitems⟩ := hlists.items hroot hplain ht
  obtain rfl := Option.some.inj (hentries.symm.trans hentries')
  by_cases hmax : l < ins.maxLevel
  · have hle : (workOf l t).level + 1 ≤ ins.maxLevel := hmax
    rw [gqDescend, if_pos hle, if_pos hmax]
    refine ⟨?_, hitems⟩
    apply List.flatMap_eq_nil_iff.mpr
    intro e _
    exact copiesOf_eq_nil hplain.externalCopy ..
  · have hnle : ¬(workOf l t).level + 1 ≤ ins.maxLevel := hmax
    rw [gqDescend, if_neg hnle, if_neg hmax]
    exact ⟨rfl, .nil⟩

theorem processQueries_rolledup {gqw : Gqw} (hmin : ins.minLevel ≤ gqw.level)
    (entries : List Entry) {db : Db} (hroll : getIsrolledup db = true) (v : Visit ρ) :
    processQueries ins sqlite gqw entries (some db) none true v 0 =
      (runSumEnt ins sqlite (gqw.seen db none 0) v, 0) := by
  unfold processQueries descendFrom askDirectory
  rw [if_neg (by simp [hroll])]
  dsimp only
  rw [if_pos hmin]

theorem processQueries_unrolled {gqw : Gqw} (hmin : ins.minLevel ≤ gqw.level)
    (entries : List Entry) {db : Db} (hroll : getIsrolledup db = false) (v : Visit ρ) :
    processQueries ins sqlite gqw entries (some db) none true v 0 =
      (runSumEnt ins sqlite
        (gqw.seen db none (gqDescend ins sqlite (some db) gqw entries).2.length)
        (v.descend (gqDescend ins sqlite (some db) gqw entries)),
        (gqDescend ins sqlite (some db) gqw entries).2.length) := by
  unfold processQueries descendFrom askDirectory
  rw [if_pos (by simp [hroll])]
  dsimp only
  rw [if_pos hmin]

/-- What a directory of the tree emits, and the subdirectories that it enqueues. -/
theorem expand_workOf (hroot : root.WellFormed) (hlists : Lists ins src ix root k)
    (hplain : Plain ins) (ht : (l, t) ∈ root.levels k) :
    (expand ins src sqlite (workOf l t)).1 = ownEvents ins sqlite ix l t ∧
      (expand ins src sqlite (workOf l t)).2.Perm
        (if descends ins l (ix t.path) then t.subdirs.map (workOf (l + 1)) else []) := by
  have hmem := DirTree.mem_subtrees_of_mem_levels ht
  obtain ⟨entries, hentries, -⟩ := hlists.opendir l t ht
  have hsaved : ¬(ins.keepMatime = true ∧ src.saveMatime t.path = false) := by
    rw [hlists.saveMatime t hmem]
    rintro ⟨-, h⟩
    cases h
  have hattached : attached ins src (workOf l t) =
      if ins.minLevel ≤ l then (ix t.path).db else none := by
    unfold attached
    rw [← hlists.attachdb t hmem]
    rfl
  have hprocess (strs : UserTrie.Trie Bytes) : processdir ins src sqlite (workOf l t) strs =
      (attached ins src (workOf l t)).elim
        (processQueries ins sqlite (workOf l t) entries none none true ⟨[], strs, []⟩ 0).1
        fun db => processDb ins sqlite (workOf l t) entries db strs := by
    unfold processdir
    rw [show src.opendir (workOf l t).name = some entries from hentries]
    apply (if_neg hsaved).trans
    cases attached ins src (workOf l t) <;> rfl
  have hdesc (db : Option Db) :
      (gqDescend ins sqlite db (workOf l t) entries).1 = [] ∧
        (gqDescend ins sqlite db (workOf l t) entries).2.Perm
          (if l < ins.maxLevel then t.subdirs.map (workOf (l + 1)) else []) :=
    gqDescend_workOf hroot hlists hplain ht hentries db
  unfold expand
  rw [hprocess, hattached]
  by_cases hmin : ins.minLevel ≤ l
  · rw [if_pos hmin, ownEvents, if_pos hmin]
    cases hdb : (ix t.path).db with
    | none =>
        obtain ⟨hcopies, hitems⟩ := hdesc none
        have hgo : descends ins l (ix t.path) = decide (l < ins.maxLevel) := by
          simp [descends, Dir.isrolledup, hdb]
        rw [hgo]
        simp only [decide_eq_true_eq]
        exact ⟨hcopies, hitems⟩
    | some db =>
        obtain ⟨hcopies, hitems⟩ := hdesc (some db)
        have hroll : (ix t.path).isrolledup = getIsrolledup db := by
          rw [Dir.isrolledup, hdb]
          rfl
        have htsum (v : Visit ρ) :
            runTsum ins sqlite ((workOf l t).seen db none 0) v = some (v, 1) :=
          if_pos (Or.inl hplain.tsum)
        rw [Option.elim_some]
        unfold processDb
        rw [htsum]
        dsimp only
        rw [if_pos one_pos, viewsOf, hplain.externalAttach]
        change (processQueries ins sqlite (workOf l t) entries (some db) none true _ 0).1.events =
          _ ∧ (processQueries ins sqlite (workOf l t) entries (some db) none true _ 0).1.items.Perm
            _
        cases hr : getIsrolledup db with
        | true =>
            have hgo : descends ins l (ix t.path) = false := by
              simp [descends, hroll, hr, hmin]
            rw [hgo, processQueries_rolledup hmin entries hr, runSumEnt_items]
            exact ⟨rfl, .nil⟩
        | false =>
            have hgo : descends ins l (ix t.path) = decide (l < ins.maxLevel) := by
              simp [descends, hroll, hr]
            have hlen := hitems.length_eq
            rw [hgo, processQueries_unrolled hmin entries hr, runSumEnt_items, runSumEnt_events,
              Visit.descend, hcopies, hlen]
            simp only [decide_eq_true_eq]
            refine ⟨?_, hitems⟩
            split_ifs
            · rw [List.length_map]
              rfl
            · rfl
  · rw [if_neg hmin, ownEvents, if_neg hmin]
    obtain ⟨hcopies, hitems⟩ := hdesc none
    have hgo : descends ins l (ix t.path) = decide (l < ins.maxLevel) := by
      simp [descends, hmin]
    rw [hgo]
    simp only [decide_eq_true_eq]
    exact ⟨hcopies, hitems⟩

/-- A directory and what is below it emit what is asked of the directories that are reached. -/
theorem emits_workOf (hroot : root.WellFormed) (hlists : Lists ins src ix root k)
    (hplain : Plain ins) (ht : (l, t) ∈ root.levels k) :
    ∃ out, Emits (expand ins src sqlite) [workOf l t] out ∧
      out.Perm ((reached ins ix l t).flatMap fun x => ownEvents ins sqlite ix x.1 x.2) := by
  induction t using DirTree.induct generalizing l with
  | node p cs ih =>
      obtain ⟨hevents, hitems⟩ := expand_workOf hroot hlists hplain ht
      rw [reached_eq, List.flatMap_cons]
      by_cases hgo : descends ins l (ix p) = true
      · have hgo' : descends ins l (ix (DirTree.node p cs).path) = true := hgo
        rw [if_pos hgo'] at hitems ⊢
        have hcs : ∃ out, Emits (expand ins src sqlite) (cs.map (workOf (l + 1))) out ∧
            out.Perm ((cs.flatMap (reached ins ix (l + 1))).flatMap
              fun x => ownEvents ins sqlite ix x.1 x.2) := by
          have hmem : ∀ c ∈ cs, (l + 1, c) ∈ root.levels k :=
            fun c hc => DirTree.mem_levels_subdir ht hc
          clear hitems hevents hgo hgo' ht
          induction cs with
          | nil => exact ⟨[], .nil, .nil⟩
          | cons c cs ihcs =>
              rw [List.forall_mem_cons] at hmem
              obtain ⟨out₁, h₁, hperm₁⟩ := ih c (List.mem_cons_self ..) hmem.1
              obtain ⟨out₂, h₂, hperm₂⟩ :=
                ihcs (fun d hd => ih d (List.mem_cons_of_mem c hd)) hmem.2
              refine ⟨out₁ ++ out₂, h₁.append h₂, ?_⟩
              rw [List.flatMap_cons, List.flatMap_append]
              exact hperm₁.append hperm₂
        obtain ⟨out, hout, hperm⟩ := hcs
        obtain ⟨below, hbelow, hbelowPerm⟩ := hout.perm hitems.symm
        refine ⟨_, emits_singleton hbelow, ?_⟩
        rw [hevents]
        exact (hbelowPerm.symm.trans hperm).append_left _
      · have hgo' : ¬descends ins l (ix (DirTree.node p cs).path) = true := hgo
        rw [if_neg hgo'] at hitems ⊢
        have hbelow : Emits (expand ins src sqlite)
            (expand ins src sqlite (workOf l (.node p cs))).2 [] := by
          rw [hitems.eq_nil]
          exact .nil
        refine ⟨_, emits_singleton hbelow, ?_⟩
        · rw [hevents]
          exact .refl _

/-- The step of the walk to a subdirectory. -/
def GoesTo (ins : Input) (ix : Index) (x y : ℕ × DirTree) : Prop :=
  y.1 = x.1 + 1 ∧ y.2 ∈ x.2.subdirs ∧ descends ins x.1 (ix x.2.path) = true

theorem mem_reached {x : ℕ × DirTree} :
    x ∈ reached ins ix l t ↔ ReflTransGen (GoesTo ins ix) (l, t) x := by
  induction t using DirTree.induct generalizing l with
  | node p cs ih =>
      rw [reached_eq, List.mem_cons, ReflTransGen.cases_head_iff, eq_comm]
      apply or_congr Iff.rfl
      constructor
      · intro hx
        by_cases hgo : descends ins l (ix (DirTree.node p cs).path) = true
        · rw [if_pos hgo] at hx
          obtain ⟨c, hc, hx⟩ := List.mem_flatMap.mp hx
          exact ⟨(l + 1, c), ⟨rfl, hc, hgo⟩, (ih c hc).mp hx⟩
        · rw [if_neg hgo] at hx
          cases hx
      · rintro ⟨⟨l', c⟩, ⟨rfl, hc, hgo⟩, hx⟩
        rw [if_pos hgo]
        exact List.mem_flatMap.mpr ⟨c, hc, (ih c hc).mpr hx⟩

theorem reached_sublist (l : ℕ) (t : DirTree) : (reached ins ix l t).Sublist (t.levels l) := by
  induction t using DirTree.induct generalizing l with
  | node p cs ih =>
      have hcs : (cs.flatMap (reached ins ix (l + 1))).Sublist
          (cs.flatMap (DirTree.levels (l + 1))) := by
        induction cs with
        | nil => exact .slnil
        | cons c cs ihcs =>
            rw [List.flatMap_cons, List.flatMap_cons]
            exact (ih c (List.mem_cons_self ..) _).append
              (ihcs fun d hd => ih d (List.mem_cons_of_mem c hd))
      rw [reached_eq, DirTree.levels_eq]
      apply List.Sublist.cons_cons
      split_ifs
      · exact hcs
      · exact List.nil_sublist _

theorem nodup_reached (hroot : root.WellFormed) (l : ℕ) :
    ((reached ins ix l root).map fun x => x.2.path).Nodup := by
  apply ((reached_sublist l root).map fun x => x.2.path).nodup
  have hpaths : ((root.levels l).map fun x => x.2.path) = root.paths := by
    rw [DirTree.paths, ← DirTree.map_snd_levels l, List.map_map]
    rfl
  rw [hpaths]
  exact hroot.nodup

/-- A finished walk over the tree asks each directory that it reaches, and no others. -/
theorem Walks.events_perm (hdet : Determined ins sqlite) (hroot : root.WellFormed)
    (hlists : Lists ins src ix root 0) (hplain : Plain ins) {threads : ℕ} {s : Pool ρ}
    (h : Walks ins src sqlite threads [workOf 0 root] s) :
    s.events.Perm ((reached ins ix 0 root).flatMap fun x => ownEvents ins sqlite ix x.1 x.2) := by
  obtain ⟨out, hout, hperm⟩ := h.emits hdet
  have hself : (0, root) ∈ root.levels 0 := by
    rw [DirTree.levels_eq]
    exact List.mem_cons_self ..
  obtain ⟨out', hout', hperm'⟩ := emits_workOf hroot hlists hplain hself
  rw [hout.unique hout'] at hperm
  exact hperm.trans hperm'

end Reached

section Exists

variable {ins : Input} {ix : Index} {root : DirTree} {k : ℕ}

/-- The entry of a directory. -/
def dirEntry (name : Bytes) : Entry where
  dirent := ⟨0, .dir, name⟩
  stat := some { zeroWork.statuso with mode := S_IFDIR }
  lstat := none

/-- The file system of an index in which there are only directories and databases. -/
def sourceOf (ix : Index) (root : DirTree) : Source where
  opendir p := (root.subtrees.find? fun t => t.path = p).map fun t =>
    t.subdirs.map fun c => dirEntry c.name
  attachdb := ix.attachDb
  saveMatime _ := true

theorem isSubdir_dirEntry (l : ℕ) {name : Bytes} (h : skips ins name = false) :
    isSubdir ins l (dirEntry name) = true := by
  have hskip : skips ins (dirEntry name).dirent.name = false := h
  have hmode : S_IFDIR &&& S_IFMT = S_IFDIR := by decide
  have hdir (work : Work) : IsDir (setMode work S_IFDIR) := hmode
  unfold isSubdir childStat
  rw [hskip]
  split_ifs
  · rfl
  · change (true && decide (IsDir (setMode _ S_IFDIR))) = true
    rw [decide_eq_true (hdir _)]
    rfl

theorem lists_sourceOf (hroot : root.WellFormed)
    (hskip : ∀ t ∈ root.subtrees, ∀ c ∈ t.subdirs, skips ins c.name = false) :
    Lists ins (sourceOf ix root) ix root k where
  opendir := by
    intro l t ht
    have hmem := DirTree.mem_subtrees_of_mem_levels ht
    have hfind : root.subtrees.find? (fun u => u.path = t.path) = some t := by
      cases hu : root.subtrees.find? (fun u => u.path = t.path) with
      | none => simpa using List.find?_eq_none.mp hu t hmem
      | some u =>
          rw [hroot.eq_of_path_eq (List.mem_of_find?_eq_some hu) hmem
            (by simpa using List.find?_some hu)]
    refine ⟨t.subdirs.map fun c => dirEntry c.name, ?_, ?_⟩
    · unfold sourceOf
      dsimp only
      rw [hfind]
      rfl
    · rw [List.filter_eq_self.mpr, List.map_map]
      · exact .refl _
      · intro e he
        obtain ⟨c, hc, rfl⟩ := List.mem_map.mp he
        exact isSubdir_dirEntry _ (hskip t hmem c hc)
  attachdb := fun t _ => attachDb_sqliteUriPath ix t.path
  saveMatime := fun _ _ => rfl

end Exists

section Source

variable {ins : Input} {t : DirTree}

theorem splitPath_length (p : Bytes) :
    (p.rdropWhile (· ≠ slash)).length + (splitPath p).2.length = p.length := by
  have h := congrArg List.length
    (List.takeWhile_append_dropWhile (p := fun c => decide (c ≠ slash)) (l := p.reverse))
  rw [List.length_append, List.length_reverse] at h
  unfold splitPath List.rdropWhile
  rw [List.length_reverse, List.length_reverse]
  omega

theorem rdropWhile_slash {p : Bytes} (h : (splitPath p).2 ≠ []) : p.rdropWhile (· = slash) = p := by
  rw [List.rdropWhile_eq_self_iff]
  intro hp
  rw [decide_eq_true_eq]
  intro hlast
  apply h
  have hrev : p.reverse = slash :: p.dropLast.reverse := by
    conv_lhs => rw [← List.dropLast_append_getLast hp, hlast]
    rw [List.reverse_append]
    rfl
  unfold splitPath
  rw [hrev, List.takeWhile_cons_of_neg (by simp)]
  rfl

theorem stripSlashes_eq {p : Bytes} (h : (splitPath p).2 ≠ []) : stripSlashes p = p := by
  cases p with
  | nil => rfl
  | cons c p =>
      unfold stripSlashes
      rw [List.take_succ_cons, List.take_zero, List.drop_succ_cons, List.drop_zero,
        List.singleton_append]
      congr 1
      by_cases hp : p = []
      · rw [hp]
        rfl
      · rw [List.rdropWhile_eq_self_iff]
        intro hne hlast
        have hself := List.rdropWhile_eq_self_iff.mp (rdropWhile_slash h) (List.cons_ne_nil c p)
        rw [List.getLast_cons hne] at hself
        exact hself hlast

/-- An argument that does not end with a slash is walked from its directory. -/
theorem validateSource_eq (hname : t.name ≠ []) (hmatch : ins.dirMatch.on = false)
    {st : Option Stat} {g : Gqw} (h : validateSource ins t.path st = some g) : g = workOf 0 t := by
  have hstrip : stripSlashes t.path = t.path := stripSlashes_eq hname
  have hlen := splitPath_length t.path
  have hdir : dirnameLen t.path = (t.path.rdropWhile (· ≠ slash)).length := by
    rw [dirnameLen, rdropWhile_slash hname]
  unfold validateSource at h
  split_ifs at h
  cases st with
  | none => cases h
  | some st =>
      dsimp only at h
      split_ifs at h
      obtain rfl := Option.some.inj h
      apply Gqw.ext_of_name
      · exact hstrip
      · change (stripSlashes t.path).length - dirnameLen (stripSlashes t.path) = t.name.length
        rw [hstrip, hdir]
        change t.path.length - _ = (splitPath t.path).2.length
        omega
      · rfl
      · change (ins.dirMatch.on && decide (ins.minLevel = 0)) = false
        rw [hmatch]
        rfl

end Source

section Main

variable {ins : Input} {src : Source} {sqlite : Sqlite ρ} {roots : List Gqw}
  {threads threads' : ℕ} {s s' : Pool ρ}

/-- `-S` returns its own text and sets `{1}` to the path. -/
def setsPath : Sqlite Bytes where
  exec text seen := ⟨[text], [], [([49], seen.name)]⟩
  copy _ _ := []

def plainInput (sum ent : Bytes) : Input where
  minLevel := 0
  maxLevel := 1
  processSql := .runTse
  dirMatch := ⟨none, none⟩
  skip := setupDirectorySkip []
  keepMatime := false
  sourcePrefix := []
  tsum := []
  sum := sum
  ent := ent
  externalAttach := false
  externalCopy := []

theorem plain_plainInput (sum ent : Bytes) : Plain (plainInput sum ent) :=
  ⟨rfl, rfl, rfl, rfl⟩

theorem lists_siblingTree (sum ent : Bytes) (ix : Index) :
    Lists (plainInput sum ent) (sourceOf ix (siblingTree [66, 66] [65])) ix
      (siblingTree [66, 66] [65]) 0 := by
  apply lists_sourceOf (wellFormed_siblingTree (by decide) (by decide) (by decide))
  intro t ht c hc
  rcases mem_subtrees_siblingTree.mp ht with rfl | rfl | rfl
  · rcases List.mem_pair.mp hc with rfl | rfl
    · rfl
    · rfl
  · cases hc
  · cases hc

/-- `{1}` in `-E` is what `-S` has set it to in the same directory. -/
theorem determined_of_strs
    (h : ∀ text seen, (sqlite.exec text seen).strs = [([49], seen.name)]) :
    Determined (plainInput [83] [123, 49, 125]) sqlite := by
  constructor
  · intro key hkey
    cases hkey
  · intro key hkey
    cases hkey
  · intro key hkey
    have hkeys : keysOf [123, 49, 125] = [[49]] := by decide
    change key ∈ keysOf [123, 49, 125] at hkey
    rw [hkeys] at hkey
    obtain rfl := List.mem_singleton.mp hkey
    refine Or.inr ⟨by decide, fun _ seen _ _ => ?_⟩
    rw [h]
    exact List.mem_singleton.mpr rfl

theorem determined_setsPath : Determined (plainInput [83] [123, 49, 125]) setsPath :=
  determined_of_strs fun _ _ => rfl

variable {root : DirTree} {ix : Index}

end Main

end Gufi.QueryWalk
