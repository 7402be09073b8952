import Gufi.QueryWalkTree

/-!
# Where a query begins

Above the minimum level nothing is attached, so a walk to the minimum level finds directories and
nothing else. A list of the directories at that level can take its place. With `--dir-match-uid`
and `--dir-match-gid` the owner is asked for at the minimum level only, and what is below a
directory that has matched is walked whoever owns it.
-/

namespace Gufi.QueryWalk

open Swap Descend UriPaths UserStrings Worklist Relation

variable {ρ : Type*}

section Above

variable (ins : Input) (src : Source) (sqlite : Sqlite ρ)

/-- The entries that are read of a directory. -/
def entriesOf (gqw : Gqw) : List Entry :=
  if ins.keepMatime ∧ src.saveMatime gqw.name = false then [] else (src.opendir gqw.name).getD []

/-- What is found a number of levels below. -/
def levelBelow (n : ℕ) (items : List Gqw) : List Gqw :=
  (fun items => items.flatMap fun g => (expand ins src sqlite g).2)^[n] items

variable {ins src sqlite} {gqw : Gqw}

/-- Without a database nothing is copied. -/
theorem gqDescend_none (entries : List Entry) : gqDescend ins sqlite none gqw entries =
    ([], if gqw.level + 1 ≤ ins.maxLevel then entries.filterMap (subdirOf ins gqw) else []) := by
  have hcopies (e : Entry) : copiesOf ins sqlite none gqw e = [] := by
    unfold copiesOf
    cases skips ins e.dirent.name with
    | true => rfl
    | false =>
        cases childStat (gqw.level + 1) e with
        | none => rfl
        | some work => exact if_neg (by simp)
  unfold gqDescend
  split_ifs
  · rw [List.flatMap_eq_nil_iff.mpr fun e _ => hcopies e]
  · rfl

/-- Above the minimum level nothing is asked. -/
theorem expand_above (h : gqw.level < ins.minLevel) : expand ins src sqlite gqw =
    ([], if gqw.level + 1 ≤ ins.maxLevel then
      (entriesOf ins src gqw).filterMap (subdirOf ins gqw) else []) := by
  have hattached : attached ins src gqw = none := if_neg (by omega)
  have hqueries (entries : List Entry) (v : Visit ρ) :
      processQueries ins sqlite gqw entries none none true v 0 =
        (v.descend (gqDescend ins sqlite none gqw entries),
          (gqDescend ins sqlite none gqw entries).2.length) := by
    unfold processQueries descendFrom
    rw [if_pos (by simp)]
    rfl
  unfold expand processdir entriesOf
  cases src.opendir gqw.name with
  | none =>
      dsimp only
      split_ifs <;> rfl
  | some entries =>
      dsimp only
      by_cases hsave : ins.keepMatime = true ∧ src.saveMatime gqw.name = false
      · rw [if_pos hsave, if_pos hsave]
        split_ifs <;> rfl
      · rw [if_neg hsave, if_neg hsave, hattached]
        dsimp only
        rw [hqueries, gqDescend_none]
        rfl

theorem mem_expand_above (h : gqw.level < ins.minLevel) {g : Gqw}
    (hg : g ∈ (expand ins src sqlite gqw).2) :
    ∃ e ∈ entriesOf ins src gqw, subdirOf ins gqw e = some g := by
  rw [expand_above h] at hg
  dsimp only at hg
  split_ifs at hg
  · obtain ⟨e, he, hsub⟩ := List.mem_filterMap.mp hg
    exact ⟨e, he, hsub⟩
  · cases hg

variable {root : Gqw} {out : List (Event ρ)} {n : ℕ}

theorem levelBelow_succ (n : ℕ) (items : List Gqw) : levelBelow ins src sqlite (n + 1) items =
    (levelBelow ins src sqlite n items).flatMap fun g => (expand ins src sqlite g).2 :=
  Function.iterate_succ_apply' ..

theorem level_of_mem_levelBelow (hlevel : root.level = 0) (hn : n ≤ ins.minLevel) {g : Gqw}
    (hg : g ∈ levelBelow ins src sqlite n [root]) : g.level = n := by
  induction n generalizing g with
  | zero =>
      obtain rfl := List.mem_singleton.mp hg
      exact hlevel
  | succ n ih =>
      rw [levelBelow_succ] at hg
      obtain ⟨p, hp, hg⟩ := List.mem_flatMap.mp hg
      have hpl := ih (by omega) hp
      obtain ⟨e, -, hsub⟩ := mem_expand_above (by omega) hg
      obtain ⟨m, rfl⟩ := subdirOf_eq_some hsub
      exact congrArg (· + 1) hpl

/-- A walk emits what the directories do that it finds down to the minimum level. -/
theorem emits_levelBelow (hlevel : root.level = 0) (hn : n ≤ ins.minLevel)
    (h : Emits (expand ins src sqlite) [root] out) :
    Emits (expand ins src sqlite) (levelBelow ins src sqlite n [root]) out := by
  induction n with
  | zero => exact h
  | succ n ih =>
      rw [levelBelow_succ]
      apply (ih (by omega)).enqueued
      intro g hg
      have hgl := level_of_mem_levelBelow hlevel (by omega) hg
      rw [expand_above (by omega)]

end Above

section PathList

variable {ins : Input} {src : Source} {sqlite : Sqlite ρ} {root : Gqw}

/-- A name without the line ending, below the root. -/
def listed (root line : Bytes) : Bytes :=
  root ++ slash :: line.rdropWhile fun c => c = 13 ∨ c = 10

/-- The item of a line, by its name. -/
def itemAt (ins : Input) (name : Bytes) : Gqw where
  name := name
  basenameLen := name.length - (((name.drop 1).rdropWhile (· ≠ slash)).length + 1)
  level := ins.minLevel
  idMatch := false
  sqlite3Name := Gufi.sqliteUriPath name
  escaped := rfl

theorem pathListItem_eq (hmin : 0 < ins.minLevel) (root line : Bytes) :
    pathListItem ins root line = itemAt ins (listed root line) := by
  unfold pathListItem
  simp only [if_neg (show ins.minLevel ≠ 0 by omega)]
  rfl

/-- The length of the last name is found again in the path. -/
theorem basenameLen_append (p : Bytes) {n : Bytes} (hn : slash ∉ n) :
    (p ++ slash :: n).length -
      ((((p ++ slash :: n).drop 1).rdropWhile (· ≠ slash)).length + 1) = n.length := by
  have hall : ∀ c ∈ n.reverse, decide (c ≠ slash) = true := by
    intro c hc
    rw [decide_eq_true_eq]
    rintro rfl
    exact hn (List.mem_reverse.mp hc)
  cases p with
  | nil =>
      have hnil : n.rdropWhile (· ≠ slash) = [] := by
        rw [List.rdropWhile, List.dropWhile_eq_nil_iff.mpr hall]
        rfl
      rw [List.nil_append, List.drop_succ_cons, List.drop_zero, hnil]
      simp
  | cons c p =>
      have hdrop : (p ++ slash :: n).rdropWhile (· ≠ slash) = p ++ [slash] := by
        have hrev : (p ++ slash :: n).reverse = n.reverse ++ slash :: p.reverse := by simp
        rw [List.rdropWhile, hrev, List.dropWhile_append_of_pos hall,
          List.dropWhile_cons_of_neg (by simp)]
        simp
      rw [List.cons_append, List.drop_succ_cons, List.drop_zero, hdrop]
      simp only [List.length_cons, List.length_append, List.length_nil]
      omega

/-- What a walk finds at the minimum level is what a list of names makes of it. -/
theorem eq_itemAt (hoff : ins.dirMatch.on = false) (hmin : 0 < ins.minLevel)
    (hlevel : root.level = 0) (hmatch : root.idMatch = false)
    (hnames : ∀ p entries, src.opendir p = some entries → ∀ e ∈ entries, slash ∉ e.dirent.name)
    {g : Gqw} (hg : g ∈ levelBelow ins src sqlite ins.minLevel [root]) :
    g = itemAt ins g.name := by
  have hmatched : ∀ n ≤ ins.minLevel, ∀ g ∈ levelBelow ins src sqlite n [root],
      g.idMatch = false := by
    intro n
    induction n with
    | zero =>
        intro _ g hg
        rw [List.mem_singleton.mp hg]
        exact hmatch
    | succ n ih =>
        intro hn g hg
        rw [levelBelow_succ] at hg
        obtain ⟨p, hp, hg⟩ := List.mem_flatMap.mp hg
        have hpl := level_of_mem_levelBelow hlevel (by omega) hp
        obtain ⟨e, -, hsub⟩ := mem_expand_above (by omega) hg
        rw [subdirOf_eq hoff] at hsub
        split_ifs at hsub
        rw [← Option.some.inj hsub]
        exact ih (by omega) p hp
  have hgl := level_of_mem_levelBelow hlevel le_rfl hg
  obtain ⟨n, hn⟩ : ∃ n, ins.minLevel = n + 1 := ⟨ins.minLevel - 1, by omega⟩
  have hgm := hmatched _ le_rfl g hg
  rw [hn, levelBelow_succ] at hg
  obtain ⟨p, hp, hg⟩ := List.mem_flatMap.mp hg
  have hpl := level_of_mem_levelBelow hlevel (by omega) hp
  obtain ⟨e, he, hsub⟩ := mem_expand_above (by omega) hg
  obtain ⟨m, rfl⟩ := subdirOf_eq_some hsub
  have hslash : slash ∉ e.dirent.name := by
    unfold entriesOf at he
    split_ifs at he
    · cases he
    · cases hopen : src.opendir p.name with
      | none => simp [hopen] at he
      | some entries =>
          rw [hopen] at he
          exact hnames _ _ hopen e he
  apply Gqw.ext_of_name
  · rfl
  · exact (basenameLen_append p.name hslash).symm
  · exact hgl
  · exact hgm

variable {threads threads' : ℕ} {s s' : Pool ρ} {lines : List Bytes} {lstat : Bytes → Option Stat}

/-- The minimum level is that of the subdirectories. -/
def levelOneInput (m : DirMatch) : Input :=
  { plainInput [83] [123, 49, 125] with minLevel := 1, dirMatch := m }

theorem determined_levelOne (m : DirMatch) : Determined (levelOneInput m) setsPath :=
  ⟨determined_setsPath.tsum, determined_setsPath.sum, determined_setsPath.ent⟩

theorem slash_not_mem_name (t : DirTree) : slash ∉ t.name := by
  unfold DirTree.name splitPath
  intro h
  have hmem := List.mem_takeWhile_imp (List.mem_reverse.mp h)
  simp at hmem

end PathList

section AnyOwner

variable (ins : Input) (src : Source) (sqlite : Sqlite ρ)

/-- The options without the match of owners. -/
def Input.anyOwner (ins : Input) : Input := { ins with dirMatch := ⟨none, none⟩ }

/-- The item as it would be without the match. -/
def Gqw.unmatched (gqw : Gqw) : Gqw := { gqw with idMatch := false }

def Visit.unmatched (v : Visit ρ) : Visit ρ := { v with items := v.items.map Gqw.unmatched }

variable {ins src sqlite} {gqw : Gqw}

theorem runStatement_unmatched (sql : Bytes) (seen : Seen) (v : Visit ρ) :
    runStatement sqlite sql seen v.unmatched =
      (runStatement sqlite sql seen v).map fun r => (r.1.unmatched, r.2) := by
  unfold runStatement
  rw [show v.unmatched.userStrs = v.userStrs from rfl]
  cases replaceSql sql (saveReplacements sql) v.userStrs <;> rfl

theorem runSumEnt_unmatched (seen : Seen) (v : Visit ρ) :
    runSumEnt ins.anyOwner sqlite seen v.unmatched =
      (runSumEnt ins sqlite seen v).unmatched := by
  have hent (v : Visit ρ) : runEnt ins.anyOwner sqlite seen v.unmatched =
      (runEnt ins sqlite seen v).unmatched := by
    unfold runEnt
    change (if ins.ent = [] then _ else _) = _
    split_ifs
    · rfl
    · change ((runStatement sqlite ins.ent seen v.unmatched).map Prod.fst).getD _ = _
      rw [runStatement_unmatched]
      cases runStatement sqlite ins.ent seen v <;> rfl
  unfold runSumEnt runSum
  rw [show ins.anyOwner.sum = ins.sum from rfl,
    show ins.anyOwner.processSql = ins.processSql from rfl]
  by_cases hsum : ins.sum = []
  · rw [if_pos hsum, if_pos hsum]
    exact hent v
  · rw [if_neg hsum, if_neg hsum, runStatement_unmatched]
    cases runStatement sqlite ins.sum seen v with
    | none => rfl
    | some r =>
        dsimp only [Option.map_some]
        by_cases hrecs : 0 < if ins.processSql = .runOnRow then r.2 else 1
        · rw [if_pos hrecs, if_pos hrecs]
          exact hent r.1
        · rw [if_neg hrecs, if_neg hrecs]

section Same

variable (hsub : ∀ e, subdirOf ins.anyOwner gqw.unmatched e = (subdirOf ins gqw e).map Gqw.unmatched)
include hsub

theorem gqDescend_unmatched (db : Option Db) (entries : List Entry) :
    gqDescend ins.anyOwner sqlite db gqw.unmatched entries =
      ((gqDescend ins sqlite db gqw entries).1,
        (gqDescend ins sqlite db gqw entries).2.map Gqw.unmatched) := by
  unfold gqDescend
  change (if gqw.level + 1 ≤ ins.maxLevel then
    (entries.flatMap (copiesOf ins sqlite db gqw),
      entries.filterMap (subdirOf ins.anyOwner gqw.unmatched)) else ([], [])) = _
  split_ifs
  · rw [List.map_filterMap]
    exact congrArg (Prod.mk _) (List.filterMap_congr fun e _ => hsub e)
  · rfl

theorem processQueries_unmatched (entries : List Entry) (db : Option Db) (view : Option Bytes)
    (descend : Bool) (v : Visit ρ) (walked : ℕ) :
    processQueries ins.anyOwner sqlite gqw.unmatched entries db view descend v.unmatched walked =
      ((processQueries ins sqlite gqw entries db view descend v walked).1.unmatched,
        (processQueries ins sqlite gqw entries db view descend v walked).2) := by
  have hbelow : descendFrom ins.anyOwner sqlite gqw.unmatched entries db descend v.unmatched
        walked = ((descendFrom ins sqlite gqw entries db descend v walked).1.unmatched,
          (descendFrom ins sqlite gqw entries db descend v walked).2) := by
    unfold descendFrom
    split_ifs
    · rw [gqDescend_unmatched hsub]
      simp only [Visit.descend, Visit.unmatched, List.map_append, List.length_map]
    · rfl
  have hask (v : Visit ρ) (walked : ℕ) :
      askDirectory ins.anyOwner sqlite gqw.unmatched db view v.unmatched walked =
        (askDirectory ins sqlite gqw db view v walked).unmatched := by
    unfold askDirectory
    cases db with
    | none => rfl
    | some db =>
        change (if ins.minLevel ≤ gqw.level then _ else _) = _
        dsimp only
        split_ifs
        · exact runSumEnt_unmatched ..
        · rfl
  unfold processQueries
  rw [hbelow]
  exact congrArg (Prod.mk · _) (hask ..)

theorem processViews_unmatched (entries : List Entry) (db : Db) (views : List (Option Bytes))
    (descend : Bool) (v : Visit ρ) (walked : ℕ) :
    processViews ins.anyOwner sqlite gqw.unmatched entries db views descend v.unmatched walked =
      (processViews ins sqlite gqw entries db views descend v walked).unmatched := by
  induction views generalizing descend v walked with
  | nil => rfl
  | cons view views ih =>
      unfold processViews
      rw [processQueries_unmatched hsub]
      exact ih ..

theorem processDb_unmatched (entries : List Entry) (db : Db) (t : UserTrie.Trie Bytes) :
    processDb (ρ := ρ) ins.anyOwner sqlite gqw.unmatched entries db t =
      (processDb ins sqlite gqw entries db t).unmatched := by
  unfold processDb
  have htsum : runTsum (ρ := ρ) ins.anyOwner sqlite (gqw.unmatched.seen db none 0)
      ⟨[], setDirectory gqw.unmatched t, []⟩ =
      (runTsum ins sqlite (gqw.seen db none 0) ⟨[], setDirectory gqw t, []⟩).map
        fun r => (r.1.unmatched, r.2) := by
    have hrun : runStatement sqlite ins.tsum (gqw.seen db none 0)
        (Visit.unmatched ⟨[], setDirectory gqw t, []⟩) =
        (runStatement sqlite ins.tsum (gqw.seen db none 0) ⟨[], setDirectory gqw t, []⟩).map
          fun r => (r.1.unmatched, r.2) :=
      runStatement_unmatched ..
    unfold runTsum
    change (if ins.tsum = [] ∨ ins.processSql = .runSe ∨
        (gqw.seen db none 0).db.treesummary = none then _
      else (runStatement sqlite ins.tsum (gqw.seen db none 0)
        (Visit.unmatched ⟨[], setDirectory gqw t, []⟩)).map fun r =>
          (r.1, if ins.processSql = .runTse then 1 else r.2)) = _
    rw [hrun]
    split_ifs
    · rfl
    all_goals
      cases runStatement sqlite ins.tsum (gqw.seen db none 0) ⟨[], setDirectory gqw t, []⟩ <;> rfl
  rw [htsum]
  cases runTsum ins sqlite (gqw.seen db none 0) ⟨[], setDirectory gqw t, []⟩ with
  | none => rfl
  | some r =>
      dsimp only [Option.map_some]
      split_ifs
      · exact processViews_unmatched hsub entries db (viewsOf ins db) true r.1 0
      · rfl

/-- Where the owners are not asked for, the match makes no difference. -/
theorem expand_unmatched : expand ins.anyOwner src sqlite gqw.unmatched =
    ((expand ins src sqlite gqw).1, (expand ins src sqlite gqw).2.map Gqw.unmatched) := by
  have hprocess (t : UserTrie.Trie Bytes) :
      processdir ins.anyOwner src sqlite gqw.unmatched t =
        (processdir ins src sqlite gqw t).unmatched := by
    unfold processdir
    rw [show gqw.unmatched.name = gqw.name from rfl,
      show ins.anyOwner.keepMatime = ins.keepMatime from rfl,
      show attached ins.anyOwner src gqw.unmatched = attached ins src gqw from rfl]
    cases src.opendir gqw.name with
    | none => rfl
    | some entries =>
        dsimp only
        split_ifs
        · rfl
        · cases attached ins src gqw with
          | none =>
              change (processQueries ins.anyOwner sqlite gqw.unmatched entries none none true
                (Visit.unmatched ⟨[], t, []⟩) 0).1 = _
              rw [processQueries_unmatched hsub]
          | some db => exact processDb_unmatched hsub entries db t
  unfold expand
  change ((processdir ins.anyOwner src sqlite gqw.unmatched (initialStrs ins)).events,
    (processdir ins.anyOwner src sqlite gqw.unmatched (initialStrs ins)).items) = _
  rw [hprocess]
  rfl

end Same

theorem subdirOf_anyOwner (gqw : Gqw) (e : Entry) : subdirOf ins.anyOwner gqw e =
    if isSubdir ins (gqw.level + 1) e then some (childOf gqw e) else none :=
  subdirOf_eq (show ins.anyOwner.dirMatch.on = false from rfl) gqw e

/-- Where the owner is not asked for, a subdirectory is enqueued as it is without the match. -/
theorem subdirOf_unasked
    (h : ¬(ins.dirMatch.on = true ∧ gqw.idMatch = false ∧ ins.minLevel ≤ gqw.level + 1))
    (e : Entry) : subdirOf ins gqw e =
      if isSubdir ins (gqw.level + 1) e then some (childOf gqw e) else none := by
  rw [subdirOf_eq_bind]
  split_ifs with hsub
  · obtain ⟨work, hstat⟩ := exists_childStat hsub
    rw [hstat]
    exact if_neg h
  · rfl

theorem subdirOf_unmatched
    (h : ¬(ins.dirMatch.on = true ∧ gqw.idMatch = false ∧ ins.minLevel ≤ gqw.level + 1))
    (e : Entry) : subdirOf ins.anyOwner gqw.unmatched e =
      (subdirOf ins gqw e).map Gqw.unmatched := by
  rw [subdirOf_anyOwner, subdirOf_unasked h]
  change (if isSubdir ins (gqw.level + 1) e = true then _ else none) = _
  split_ifs <;> rfl

end AnyOwner

section Match

variable (ins : Input) (src : Source) (sqlite : Sqlite ρ)

/-- The owner of a subdirectory matches. -/
def ownerMatches (gqw : Gqw) (e : Entry) : Bool :=
  ((childStat (gqw.level + 1) e).bind (lstatWrapper e.lstat)).any
    fun work => dirMatch ins.dirMatch work.statuso

/-- The subdirectories with an owner that matches. -/
def matchedChildren (gqw : Gqw) : List Gqw :=
  if gqw.level + 1 ≤ ins.maxLevel then
    ((entriesOf ins src gqw).filter (ownerMatches ins gqw)).filterMap (subdirOf ins.anyOwner gqw)
  else []

/-- The directories at the minimum level with an owner that matches. -/
def matchedRoots (root : Gqw) : List Gqw :=
  if ins.minLevel = 0 then [root.unmatched]
  else (levelBelow ins.anyOwner src sqlite (ins.minLevel - 1) [root.unmatched]).flatMap
    (matchedChildren ins src)

variable {ins src sqlite} {gqw root : Gqw} {n : ℕ}

/-- What is below a directory that has matched has matched. -/
theorem idMatch_expand (h : gqw.idMatch = true) {g : Gqw}
    (hg : g ∈ (expand ins src sqlite gqw).2) : g.idMatch = true := by
  have hchild (e : Entry) {g : Gqw} (hsub : subdirOf ins gqw e = some g) : g.idMatch = true := by
    have hno : ¬(ins.dirMatch.on = true ∧ gqw.idMatch = false ∧ ins.minLevel ≤ gqw.level + 1) := by
      rw [h]
      rintro ⟨-, hfalse, -⟩
      cases hfalse
    rw [subdirOf_unasked hno] at hsub
    split_ifs at hsub
    rw [← Option.some.inj hsub]
    exact h
  revert g
  change ∀ g ∈ (processdir ins src sqlite gqw (initialStrs ins)).items, g.idMatch = true
  apply processdir_keeps (P := fun v : Visit ρ => ∀ g ∈ v.items, g.idMatch = true)
  · exact fun _ _ _ _ hv => hv
  · intro db entries v hv g hg
    rcases List.mem_append.mp hg with hg | hg
    · exact hv g hg
    · unfold gqDescend at hg
      split_ifs at hg
      · obtain ⟨e, -, hsub⟩ := List.mem_filterMap.mp hg
        exact hchild e hsub
      · cases hg
  · intro g hg
    cases hg
  · intro g hg
    cases hg

/-- Above the level before the minimum level the match makes no difference. -/
theorem levelBelow_unmatched (hlevel : root.level = 0) (hn : n < ins.minLevel) :
    (levelBelow ins src sqlite n [root]).map Gqw.unmatched =
      levelBelow ins.anyOwner src sqlite n [root.unmatched] := by
  induction n with
  | zero => rfl
  | succ n ih =>
      rw [levelBelow_succ, levelBelow_succ, ← ih (by omega), List.flatMap_map, List.map_flatMap]
      apply List.flatMap_congr
      intro g hg
      have hgl := level_of_mem_levelBelow hlevel (by omega) hg
      rw [expand_unmatched]
      apply subdirOf_unmatched
      rintro ⟨-, -, hmin⟩
      omega

/-- The directories that are enqueued at the minimum level. -/
theorem subdirOf_matched (hon : ins.dirMatch.on = true) (hmatch : gqw.idMatch = false)
    (hlevel : gqw.level + 1 = ins.minLevel) (e : Entry) : subdirOf ins gqw e =
      if ownerMatches ins gqw e then
        (subdirOf ins.anyOwner gqw.unmatched e).map fun g => { g with idMatch := true }
      else none := by
  rw [subdirOf_anyOwner, subdirOf_eq_bind]
  unfold ownerMatches
  change _ = if _ then (if isSubdir ins (gqw.level + 1) e = true then _ else none).map _ else none
  by_cases hsub : isSubdir ins (gqw.level + 1) e = true
  · rw [if_pos hsub, if_pos hsub]
    obtain ⟨work, hstat⟩ := exists_childStat hsub
    rw [hstat, Option.bind_some, Option.bind_some, matchChild, if_pos ⟨hon, hmatch, hlevel.ge⟩]
    cases lstatWrapper e.lstat work <;> rfl
  · rw [if_neg hsub, if_neg hsub]
    split_ifs <;> rfl

/-- What is enqueued at the minimum level are the subdirectories with an owner that matches. -/
theorem expand_matched (hon : ins.dirMatch.on = true) (hmatch : gqw.idMatch = false)
    (hlevel : gqw.level + 1 = ins.minLevel) :
    (∀ g ∈ (expand ins src sqlite gqw).2, g.idMatch = true) ∧
      (expand ins src sqlite gqw).2.map Gqw.unmatched = matchedChildren ins src gqw.unmatched := by
  rw [expand_above (by omega)]
  dsimp only
  constructor
  · intro g hg
    split_ifs at hg
    · obtain ⟨e, -, hsub⟩ := List.mem_filterMap.mp hg
      rw [subdirOf_matched hon hmatch hlevel] at hsub
      split_ifs at hsub
      obtain ⟨g', -, rfl⟩ := Option.map_eq_some_iff.mp hsub
      rfl
    · cases hg
  · unfold matchedChildren
    change _ = if gqw.level + 1 ≤ ins.maxLevel then
      ((entriesOf ins src gqw).filter (ownerMatches ins gqw)).filterMap
        (subdirOf ins.anyOwner gqw.unmatched) else []
    split_ifs
    · rw [List.map_filterMap, List.filterMap_filter]
      apply List.filterMap_congr
      intro e _
      rw [subdirOf_matched hon hmatch hlevel, subdirOf_anyOwner]
      split_ifs <;> rfl
    · rfl

variable {threads threads' : ℕ} {s s' : Pool ρ} {path : Bytes} {st : Option Stat}

theorem level_validateSource (h : validateSource ins path st = some root) :
    root.level = 0 ∧ root.idMatch = (ins.dirMatch.on && decide (ins.minLevel = 0)) := by
  unfold validateSource at h
  split_ifs at h
  cases st with
  | none => cases h
  | some st =>
      dsimp only at h
      split_ifs at h
      rw [← Option.some.inj h]
      exact ⟨rfl, rfl⟩

end Match

end Gufi.QueryWalk
