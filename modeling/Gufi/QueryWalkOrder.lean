import Gufi.QueryWalk

/-!
# The order of a query walk

Which thread processes which directory, and when, is up to the pool. What is printed and inserted
does not depend on it, up to the order, when the strings that a directory is asked with are its own:
its name and path, strings that no statement sets, and for `-E` also strings that `-S` sets each time
that `-E` is run.
-/

namespace Gufi.QueryWalk

open Swap Descend UriPaths UserStrings Worklist Relation
open UserTrie (trieAlloc trieInsert trieSearch trieSearch_insert)

variable {ρ : Type*}

section Subdirs

variable {ins : Input} {gqw : Gqw}

/-- A subdirectory that is not skipped. -/
def isSubdir (ins : Input) (nextLevel : ℕ) (e : Entry) : Bool :=
  !skips ins e.dirent.name && ((childStat nextLevel e).map fun work => decide (IsDir work)).getD false

theorem subdirOf_eq_bind (gqw : Gqw) (e : Entry) : subdirOf ins gqw e =
    if isSubdir ins (gqw.level + 1) e then
      (childStat (gqw.level + 1) e).bind (matchChild ins gqw (childOf gqw e) e)
    else none := by
  unfold subdirOf isSubdir
  cases skips ins e.dirent.name with
  | true => rfl
  | false =>
      cases childStat (gqw.level + 1) e with
      | none => rfl
      | some work =>
          by_cases hdir : IsDir work
          · simp [hdir]
          · simp [hdir]

theorem exists_childStat {nextLevel : ℕ} {e : Entry} (h : isSubdir ins nextLevel e = true) :
    ∃ work, childStat nextLevel e = some work := by
  unfold isSubdir at h
  cases hstat : childStat nextLevel e with
  | none => simp [hstat] at h
  | some work => exact ⟨work, rfl⟩

/-- A subdirectory that is enqueued is a child, up to the match. -/
theorem subdirOf_eq_some {e : Entry} {g : Gqw} (h : subdirOf ins gqw e = some g) :
    ∃ m, g = { childOf gqw e with idMatch := m } := by
  rw [subdirOf_eq_bind] at h
  split_ifs at h
  obtain ⟨work, -, h⟩ := Option.bind_eq_some_iff.mp h
  unfold matchChild at h
  split_ifs at h
  · cases hl : lstatWrapper e.lstat work with
    | none =>
        rw [hl] at h
        cases h
    | some work =>
        rw [hl] at h
        dsimp only at h
        split_ifs at h
        exact ⟨true, (Option.some.inj h).symm⟩
  · exact ⟨_, (Option.some.inj h).symm⟩

end Subdirs

section Keys

/-- The keys that are looked up for a statement. -/
def keysOf (sql : Bytes) : List Bytes :=
  (saveReplacements sql).map fun usk =>
    (sql.drop (usk.start + 1)).take ((usk.stop - 1) - (usk.start + 1) + 1)

variable {sql : Bytes} {t t' : UserTrie.Trie Bytes}

theorem replaceOne_congr {usk : Usk} (h : usk ∈ saveReplacements sql)
    (hkeys : ∀ key ∈ keysOf sql, trieSearch t key = trieSearch t' key) (r : Replacing) :
    replaceOne sql t r usk = replaceOne sql t' r usk := by
  have hkey := hkeys _ (List.mem_map_of_mem h)
  have hstr (r : Replacing) : replaceUserStr sql usk t r = replaceUserStr sql usk t' r := by
    unfold replaceUserStr
    dsimp only
    rw [hkey]
  unfold replaceOne
  simp only [hstr]

theorem foldlM_replaceOne_congr {idx : List Usk} (h : ∀ usk ∈ idx, usk ∈ saveReplacements sql)
    (hkeys : ∀ key ∈ keysOf sql, trieSearch t key = trieSearch t' key) (r : Replacing) :
    idx.foldlM (replaceOne sql t) r = idx.foldlM (replaceOne sql t') r := by
  induction idx generalizing r with
  | nil => rfl
  | cons usk idx ih =>
      rw [List.forall_mem_cons] at h
      rw [List.foldlM_cons, List.foldlM_cons, replaceOne_congr h.1 hkeys]
      exact congrArg _ (funext fun r => ih h.2 r)

/-- Of the strings only those of the keys are read. -/
theorem replaceSql_congr (hkeys : ∀ key ∈ keysOf sql, trieSearch t key = trieSearch t' key) :
    replaceSql sql (saveReplacements sql) t = replaceSql sql (saveReplacements sql) t' := by
  unfold replaceSql
  rw [foldlM_replaceOne_congr (fun _ h => h) hkeys]

theorem trieSearch_foldl_setstr (strs : List (Bytes × Bytes)) (t : UserTrie.Trie Bytes)
    {key : Bytes} (h : key ∉ strs.map Prod.fst) :
    trieSearch (strs.foldl setstr t) key = trieSearch t key := by
  induction strs generalizing t with
  | nil => rfl
  | cons s strs ih =>
      rw [List.map_cons, List.mem_cons, not_or] at h
      rw [List.foldl_cons, ih _ h.2, setstr, trieSearch_insert, Function.update_of_ne h.1]

theorem foldl_setstr_agree (strs : List (Bytes × Bytes)) {key : Bytes}
    (h : trieSearch t key = trieSearch t' key ∨ key ∈ strs.map Prod.fst) :
    trieSearch (strs.foldl setstr t) key = trieSearch (strs.foldl setstr t') key := by
  induction strs generalizing t t' with
  | nil => simpa using h
  | cons s strs ih =>
      apply ih
      unfold setstr
      rw [trieSearch_insert, trieSearch_insert]
      by_cases hkey : key = s.1
      · rw [hkey, Function.update_self, Function.update_self]
        exact Or.inl rfl
      · rw [Function.update_of_ne hkey, Function.update_of_ne hkey]
        simpa [hkey] using h

end Keys

section Determined

variable (ins : Input) (src : Source) (sqlite : Sqlite ρ)

/-- The text of a statement after replacement. -/
def Issued (sql text : Bytes) : Prop :=
  ∃ t, replaceSql sql (saveReplacements sql) t = .ok text

/-- Some statement of the walk after replacement. -/
def AnyIssued (text : Bytes) : Prop :=
  Issued ins.tsum text ∨ Issued ins.sum text ∨ Issued ins.ent text

def NeverSet (key : Bytes) : Prop :=
  ∀ text seen, AnyIssued ins text → key ∉ (sqlite.exec text seen).strs.map Prod.fst

/-- A string with the same value in every thread each time a directory is begun with. -/
def Own (key : Bytes) : Prop :=
  key = keyName ∨ key = keyPath ∨ NeverSet ins sqlite key

/-- What a directory is asked does not depend on what the thread was at before. -/
structure Determined : Prop where
  tsum : ∀ key ∈ keysOf ins.tsum, Own ins sqlite key
  sum : ∀ key ∈ keysOf ins.sum, Own ins sqlite key
  ent : ∀ key ∈ keysOf ins.ent, Own ins sqlite key ∨ ins.sum ≠ [] ∧ ∀ text seen,
    Issued ins.sum text → (ins.processSql = .runOnRow → (sqlite.exec text seen).rows ≠ []) →
      key ∈ (sqlite.exec text seen).strs.map Prod.fst

variable {ins src sqlite} {gqw : Gqw} {t t' : UserTrie.Trie Bytes}

section Keeps

/-! What no statement and no descent breaks is kept. -/

variable {P : Visit ρ → Prop}
  (hadd : ∀ text seen v, AnyIssued ins text → P v → P (v.add (sqlite.exec text seen)))
include hadd

theorem runStatement_keeps {sql : Bytes} (hsql : ∀ text, Issued sql text → AnyIssued ins text)
    {seen : Seen} {v : Visit ρ} (hv : P v) {r : Visit ρ × ℕ}
    (hr : runStatement sqlite sql seen v = some r) : P r.1 := by
  unfold runStatement at hr
  cases htext : replaceSql sql (saveReplacements sql) v.userStrs with
  | error e =>
      rw [htext] at hr
      cases hr
  | ok text =>
      rw [htext] at hr
      cases hr
      exact hadd text seen _ (hsql text ⟨_, htext⟩) hv

theorem runSumEnt_keeps {seen : Seen} {v : Visit ρ} (hv : P v) :
    P (runSumEnt ins sqlite seen v) := by
  have hent (v : Visit ρ) (hv : P v) : P (runEnt ins sqlite seen v) := by
    unfold runEnt
    split_ifs
    · exact hv
    · cases hr : runStatement sqlite ins.ent seen v with
      | none => exact hv
      | some r => exact runStatement_keeps hadd (fun _ h => Or.inr (Or.inr h)) hv hr
  unfold runSumEnt runSum
  by_cases hsum : ins.sum = []
  · rw [if_pos hsum]
    exact hent v hv
  · rw [if_neg hsum]
    cases hr : runStatement sqlite ins.sum seen v with
    | none => exact hv
    | some r =>
        have hsum := runStatement_keeps hadd (fun _ h => Or.inr (Or.inl h)) hv hr
        dsimp only [Option.map_some]
        split_ifs
        all_goals first | exact hent r.1 hsum | exact hsum

variable (hdescend : ∀ db entries v, P v → P (v.descend (gqDescend ins sqlite db gqw entries)))
include hdescend

theorem processQueries_keeps (entries : List Entry) (db : Option Db) (view : Option Bytes)
    (descend : Bool) {v : Visit ρ} (hv : P v) (walked : ℕ) :
    P (processQueries ins sqlite gqw entries db view descend v walked).1 := by
  have hbelow : P (descendFrom ins sqlite gqw entries db descend v walked).1 := by
    unfold descendFrom
    split_ifs
    · exact hdescend db entries v hv
    · exact hv
  unfold processQueries askDirectory
  cases db with
  | none => exact hbelow
  | some db =>
      dsimp only
      split_ifs
      · exact runSumEnt_keeps hadd hbelow
      · exact hbelow

theorem processViews_keeps (entries : List Entry) (db : Db) (views : List (Option Bytes))
    (descend : Bool) {v : Visit ρ} (hv : P v) (walked : ℕ) :
    P (processViews ins sqlite gqw entries db views descend v walked) := by
  induction views generalizing descend v walked with
  | nil => exact hv
  | cons view views ih =>
      unfold processViews
      exact ih false
        (processQueries_keeps hadd hdescend entries (some db) view descend hv walked) _

theorem processdir_keeps (hset : P ⟨[], setDirectory gqw t, []⟩) (ht : P ⟨[], t, []⟩) :
    P (processdir ins src sqlite gqw t) := by
  unfold processdir
  cases src.opendir gqw.name with
  | none => exact ht
  | some entries =>
      dsimp only
      split_ifs
      · exact ht
      · cases attached ins src gqw with
        | none => exact processQueries_keeps hadd hdescend entries none none true ht 0
        | some db =>
            change P (processDb ins sqlite gqw entries db t)
            unfold processDb runTsum
            by_cases htsum : ins.tsum = [] ∨ ins.processSql = .runSe ∨
                (gqw.seen db none 0).db.treesummary = none
            · rw [if_pos htsum]
              exact processViews_keeps hadd hdescend entries db _ true hset 0
            · rw [if_neg htsum]
              cases hr : runStatement sqlite ins.tsum (gqw.seen db none 0)
                ⟨[], setDirectory gqw t, []⟩ with
              | none => exact hset
              | some r =>
                  have htsum := runStatement_keeps hadd (fun _ h => Or.inl h) hset hr
                  dsimp only [Option.map_some]
                  split_ifs
                  all_goals first
                    | exact processViews_keeps hadd hdescend entries db _ true htsum 0
                    | exact htsum

end Keeps

section Agree

/-- Two threads have done the same with a directory, and agree on some strings. -/
structure SameOn (K : Bytes → Prop) (v v' : Visit ρ) : Prop where
  events : v.events = v'.events
  items : v.items = v'.items
  strs : ∀ key, K key → trieSearch v.userStrs key = trieSearch v'.userStrs key

variable {K : Bytes → Prop} {v v' : Visit ρ}

theorem SameOn.mono {K' : Bytes → Prop} (h : SameOn K v v') (hK : ∀ key, K' key → K key) :
    SameOn K' v v' :=
  ⟨h.events, h.items, fun key hkey => h.strs key (hK key hkey)⟩

theorem SameOn.add (h : SameOn K v v') (a : Answer ρ) :
    SameOn (fun key => K key ∨ key ∈ a.strs.map Prod.fst) (v.add a) (v'.add a) where
  events := by
    change v.events ++ _ = v'.events ++ _
    rw [h.events]
  items := h.items
  strs := by
    rintro key (hkey | hkey)
    · exact foldl_setstr_agree _ (Or.inl (h.strs key hkey))
    · exact foldl_setstr_agree _ (Or.inr hkey)

/-- A statement is run alike, or its strings cannot be replaced. -/
theorem SameOn.runStatement_cases {sql : Bytes} (h : SameOn K v v')
    (hkeys : ∀ key ∈ keysOf sql, K key) (seen : Seen) :
    (runStatement sqlite sql seen v = none ∧ runStatement sqlite sql seen v' = none) ∨
      ∃ text, Issued sql text ∧
        runStatement sqlite sql seen v =
          some (v.add (sqlite.exec text seen), (sqlite.exec text seen).rows.length) ∧
        runStatement sqlite sql seen v' =
          some (v'.add (sqlite.exec text seen), (sqlite.exec text seen).rows.length) := by
  have heq := replaceSql_congr fun key hkey => h.strs key (hkeys key hkey)
  unfold runStatement
  rw [← heq]
  cases htext : replaceSql sql (saveReplacements sql) v.userStrs with
  | error e => exact Or.inl ⟨rfl, rfl⟩
  | ok text => exact Or.inr ⟨text, ⟨_, htext⟩, rfl, rfl⟩

theorem SameOn.runEnt (h : SameOn K v v') (hkeys : ∀ key ∈ keysOf ins.ent, K key) (seen : Seen) :
    SameOn K (runEnt ins sqlite seen v) (runEnt ins sqlite seen v') := by
  unfold QueryWalk.runEnt
  split_ifs
  · exact h
  · rcases h.runStatement_cases hkeys seen with ⟨hv, hv'⟩ | ⟨text, -, hv, hv'⟩
    · rw [hv, hv']
      exact h
    · rw [hv, hv']
      exact (h.add _).mono fun key hkey => Or.inl hkey

variable (hdet : Determined ins sqlite)
include hdet

theorem SameOn.runSumEnt (h : SameOn (Own ins sqlite) v v') (seen : Seen) :
    SameOn (Own ins sqlite) (runSumEnt ins sqlite seen v) (runSumEnt ins sqlite seen v') := by
  unfold QueryWalk.runSumEnt runSum
  by_cases hsum : ins.sum = []
  · rw [if_pos hsum, if_pos hsum]
    apply h.runEnt
    intro key hkey
    exact (hdet.ent key hkey).resolve_right fun hset => hset.1 hsum
  · rw [if_neg hsum, if_neg hsum]
    rcases h.runStatement_cases hdet.sum seen with
      ⟨hv, hv'⟩ | ⟨text, htext, hv, hv'⟩
    · rw [hv, hv']
      exact h
    · rw [hv, hv']
      have hadd := h.add (sqlite.exec text seen)
      dsimp only [Option.map_some]
      by_cases hrecs : 0 < if ins.processSql = .runOnRow then
          (sqlite.exec text seen).rows.length else 1
      · rw [if_pos hrecs, if_pos hrecs]
        refine (hadd.runEnt ?_ seen).mono fun key hkey => Or.inl hkey
        intro key hkey
        rcases hdet.ent key hkey with hown | ⟨-, hset⟩
        · exact Or.inl hown
        · refine Or.inr (hset text seen htext ?_)
          intro hrow
          rw [if_pos hrow] at hrecs
          exact List.ne_nil_of_length_pos hrecs
      · rw [if_neg hrecs, if_neg hrecs]
        exact hadd.mono fun key hkey => Or.inl hkey

theorem SameOn.processQueries (h : SameOn (Own ins sqlite) v v') (entries : List Entry)
    (db : Option Db) (view : Option Bytes) (descend : Bool) (walked : ℕ) :
    SameOn (Own ins sqlite)
        (processQueries ins sqlite gqw entries db view descend v walked).1
        (processQueries ins sqlite gqw entries db view descend v' walked).1 ∧
      (processQueries ins sqlite gqw entries db view descend v walked).2 =
        (processQueries ins sqlite gqw entries db view descend v' walked).2 := by
  have hbelow : SameOn (Own ins sqlite)
        (descendFrom ins sqlite gqw entries db descend v walked).1
        (descendFrom ins sqlite gqw entries db descend v' walked).1 ∧
      (descendFrom ins sqlite gqw entries db descend v walked).2 =
        (descendFrom ins sqlite gqw entries db descend v' walked).2 := by
    unfold descendFrom
    split_ifs
    · exact ⟨⟨congrArg (· ++ _) h.events, congrArg (· ++ _) h.items, h.strs⟩, rfl⟩
    · exact ⟨h, rfl⟩
  obtain ⟨hsame, hwalked⟩ := hbelow
  unfold QueryWalk.processQueries askDirectory
  dsimp only
  rw [hwalked]
  refine ⟨?_, rfl⟩
  cases db with
  | none => exact hsame
  | some db =>
      dsimp only
      split_ifs
      · exact hsame.runSumEnt hdet _
      · exact hsame

theorem SameOn.processViews (h : SameOn (Own ins sqlite) v v') (entries : List Entry) (db : Db)
    (views : List (Option Bytes)) (descend : Bool) (walked : ℕ) :
    SameOn (Own ins sqlite) (processViews ins sqlite gqw entries db views descend v walked)
      (processViews ins sqlite gqw entries db views descend v' walked) := by
  induction views generalizing descend v v' walked with
  | nil => exact h
  | cons view views ih =>
      obtain ⟨hsame, hwalked⟩ :=
        h.processQueries hdet entries (some db) view descend walked
      unfold QueryWalk.processViews
      dsimp only
      rw [hwalked]
      exact ih hsame false _

/-- A directory is processed alike by threads that agree on the strings that are never set. -/
theorem processdir_same (h : ∀ key, NeverSet ins sqlite key → key ≠ keyName → key ≠ keyPath →
      trieSearch t key = trieSearch t' key) :
    (processdir ins src sqlite gqw t).events = (processdir ins src sqlite gqw t').events ∧
      (processdir ins src sqlite gqw t).items = (processdir ins src sqlite gqw t').items := by
  have hset : SameOn (ρ := ρ) (Own ins sqlite) ⟨[], setDirectory gqw t, []⟩
      ⟨[], setDirectory gqw t', []⟩ := by
    refine ⟨rfl, rfl, fun key hkey => ?_⟩
    change trieSearch (setDirectory gqw t) key = trieSearch (setDirectory gqw t') key
    unfold setDirectory
    simp only [trieSearch_insert]
    by_cases hpath : key = keyPath
    · rw [hpath, Function.update_self, Function.update_self]
    · rw [Function.update_of_ne hpath, Function.update_of_ne hpath]
      by_cases hname : key = keyName
      · rw [hname, Function.update_self, Function.update_self]
      · rw [Function.update_of_ne hname, Function.update_of_ne hname]
        exact h key ((hkey.resolve_left hname).resolve_left hpath) hname hpath
  have hdb (entries : List Entry) (db : Db) : SameOn (Own ins sqlite)
      (processDb ins sqlite gqw entries db t) (processDb ins sqlite gqw entries db t') := by
    unfold processDb runTsum
    by_cases htsum : ins.tsum = [] ∨ ins.processSql = .runSe ∨
                (gqw.seen db none 0).db.treesummary = none
    · rw [if_pos htsum, if_pos htsum]
      exact hset.processViews hdet entries db _ _ _
    · rw [if_neg htsum, if_neg htsum]
      rcases hset.runStatement_cases hdet.tsum (gqw.seen db none 0) with
        ⟨hv, hv'⟩ | ⟨text, -, hv, hv'⟩
      · rw [hv, hv']
        exact hset
      · rw [hv, hv']
        have hadd := (hset.add (sqlite.exec text (gqw.seen db none 0))).mono
          fun key hkey => Or.inl hkey
        dsimp only [Option.map_some]
        split_ifs
        all_goals first | exact hadd.processViews hdet entries db _ _ _ | exact hadd
  unfold processdir
  cases src.opendir gqw.name with
  | none => exact ⟨rfl, rfl⟩
  | some entries =>
      dsimp only
      split_ifs
      · exact ⟨rfl, rfl⟩
      · cases attached ins src gqw with
        | none =>
            constructor
            · unfold QueryWalk.processQueries descendFrom
              split_ifs <;> rfl
            · unfold QueryWalk.processQueries descendFrom
              split_ifs <;> rfl
        | some db => exact ⟨(hdb entries db).events, (hdb entries db).items⟩

end Agree

end Determined

section Main

variable {ins : Input} {src : Source} {sqlite : Sqlite ρ} {threads : ℕ} {roots : List Gqw}

/-- In no thread have the strings that no statement sets changed. -/
def Kept (ins : Input) (sqlite : Sqlite ρ) (s : Pool ρ) : Prop :=
  ∀ thread key, NeverSet ins sqlite key → key ≠ keyName → key ≠ keyPath →
    trieSearch (s.userStrs thread) key = trieSearch (initialStrs ins) key

/-- What the directories emit is in the log, with the thread. -/
theorem logs_works (hdet : Determined ins sqlite) : Logs (expand ins src sqlite) (Kept ins sqlite)
    (fun _ _ => True) Pool.log Prod.snd (Works ins src sqlite threads) where
  state := by
    rintro gqw s r hs - ⟨ht⟩
    rename_i t
    intro thread key hkey hname hpath
    by_cases hthread : thread = t
    · subst hthread
      change trieSearch (Function.update s.userStrs thread _ thread) key = _
      rw [Function.update_self]
      have hset : trieSearch (setDirectory gqw (s.userStrs thread)) key =
          trieSearch (initialStrs ins) key := by
        unfold setDirectory
        rw [trieSearch_insert, Function.update_of_ne hpath, trieSearch_insert,
          Function.update_of_ne hname]
        exact hs thread key hkey hname hpath
      apply processdir_keeps
        (P := fun v => trieSearch v.userStrs key = trieSearch (initialStrs ins) key) _ _ hset
      · exact hs thread key hkey hname hpath
      · intro text seen v htext hv
        exact (trieSearch_foldl_setstr _ _ (hkey text seen htext)).trans hv
      · exact fun _ _ _ hv => hv
    · change trieSearch (Function.update s.userStrs t _ thread) key = _
      rw [Function.update_of_ne hthread]
      exact hs thread key hkey hname hpath
  keep _ _ _ _ _ _ _ _ := trivial
  items _ _ _ _ _ _ _ _ := trivial
  step := by
    rintro gqw s r hs - ⟨ht⟩
    rename_i t
    obtain ⟨hevents, hitems⟩ := processdir_same hdet (hs t)
    refine ⟨_, rfl, ?_, hitems⟩
    rw [List.map_map]
    exact (List.map_id _).trans hevents

/-- Whatever the threads and the order, a finished walk prints and inserts what the directories do
one below the other. -/
theorem Walks.emits (hdet : Determined ins sqlite) {s : Pool ρ}
    (h : Walks ins src sqlite threads roots s) :
    ∃ out, Emits (expand ins src sqlite) roots out ∧ s.events.Perm out := by
  obtain ⟨out, hout, hperm⟩ := (logs_works hdet).emits (fun _ _ _ _ _ => rfl)
    (fun _ _ => trivial) h
  exact ⟨out, hout, hperm⟩

/-- The directories that are enqueued are one level below, and not below the maximum level. -/
theorem level_of_mem_expand {gqw g : Gqw} (hg : g ∈ (expand ins src sqlite gqw).2) :
    g.level = gqw.level + 1 ∧ gqw.level + 1 ≤ ins.maxLevel := by
  revert g
  change ∀ g ∈ (processdir ins src sqlite gqw (initialStrs ins)).items, _
  apply processdir_keeps
    (P := fun v : Visit ρ => ∀ g ∈ v.items, g.level = gqw.level + 1 ∧ gqw.level + 1 ≤ ins.maxLevel)
  · exact fun _ _ _ _ hv => hv
  · intro db entries v hv g hg
    rcases List.mem_append.mp hg with hg | hg
    · exact hv g hg
    · unfold gqDescend at hg
      split_ifs at hg with hmax
      · obtain ⟨e, -, hsub⟩ := List.mem_filterMap.mp hg
        obtain ⟨m, rfl⟩ := subdirOf_eq_some hsub
        exact ⟨rfl, hmax⟩
      · cases hg
  · intro g hg
    cases hg
  · intro g hg
    cases hg

/-- Every walk can be finished. -/
theorem exists_walks (hdet : Determined ins sqlite) (hthreads : 0 < threads) (roots : List Gqw) :
    ∃ s, Walks ins src sqlite threads roots s := by
  have hlevel : ∀ gqw, ∀ g ∈ (expand ins src sqlite gqw).2,
      ins.maxLevel + 1 - g.level < ins.maxLevel + 1 - gqw.level := by
    intro gqw g hg
    have h := level_of_mem_expand hg
    omega
  obtain ⟨out, hout⟩ := exists_emits (fun g => ins.maxLevel + 1 - g.level) hlevel roots
  exact (logs_works hdet).exists_finished (fun _ _ _ _ => ⟨_, .thread hthreads⟩) hout
    (fun _ _ _ _ _ => rfl) (fun _ _ => trivial)

end Main

end Gufi.QueryWalk
