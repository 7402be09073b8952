import Gufi.WalkItems

/-!
# A walk visits everything once

`eventsOf` is what a directory and all that is below it come to. It has each event once, and an item
of the directory is worth these events: a step of the walk does not change what the log and the
items in the queue are worth together.
-/

namespace Gufi.Walk

open Descend Swap

section Events

variable (cfg : Config)

/-- The counters of a directory with these entries. -/
def Config.countersOf (level : ℕ) (entries : List Observed) : Counters :=
  let dirs := if level + 1 ≤ cfg.ins.maxLevel.toNat then
    entries.countP fun o => decide (cfg.kind o = some .dir) else 0
  let nondirs := if cfg.ins.minLevel.toNat ≤ level then
    entries.countP fun o => decide (cfg.kind o = some .link ∨ cfg.kind o = some .file) else 0
  { dirs := dirs
    dirsInsitu := if cfg.ins.subdirLimit = 0 then 0 else dirs - cfg.ins.subdirLimit.toNat
    nondirs := nondirs
    nondirsProcessed := nondirs }

/-- What an entry comes to, where `below` is what a subdirectory comes to. -/
def Config.entryEvents (path : Bytes) (level : ℕ) (below : List Event) (o : Observed) :
    List Event :=
  match cfg.kind o with
  | some .dir => if level + 1 ≤ cfg.ins.maxLevel.toNat then below else []
  | some .link =>
      if cfg.ins.minLevel.toNat ≤ level then [.nondir (path ++ 47 :: o.dirent.name) 108] else []
  | some .file =>
      if cfg.ins.minLevel.toNat ≤ level then [.nondir (path ++ 47 :: o.dirent.name) 102] else []
  | _ => []

/-- What a directory comes to. Its path gets longer with each level. -/
def Config.eventsOf (path : Bytes) (level : ℕ) : List Event :=
  if path.length < PATH_MAX then
    match cfg.opendir path with
    | none => []
    | some entries =>
        .directory path level :: (entries.flatMap fun o => cfg.entryEvents path level
          (Config.eventsOf (path ++ 47 :: o.dirent.name) (level + 1)) o) ++
          [.counters path (cfg.countersOf level entries)]
  else []
termination_by PATH_MAX - path.length
decreasing_by
  rw [List.length_append, List.length_cons]
  omega

def Event.path : Event → Bytes
  | .directory path _ | .nondir path _ | .counters path _ => path

variable {cfg} {root : Named} {path : Bytes} {level : ℕ} {entries : List Observed}
  {d : Bytes × ℕ} {o : Observed}

/-- The path is that of the directory or of something in it. -/
def Under (path : Bytes) (e : Event) : Prop :=
  ∃ rest, e.path = path ++ rest ∧ (rest = [] ∨ rest.head? = some 47)

theorem eventsOf_eq (h : cfg.Succeeds path entries) : cfg.eventsOf path level =
    .directory path level :: (entries.flatMap fun o => cfg.entryEvents path level
      (cfg.eventsOf (path ++ 47 :: o.dirent.name) (level + 1)) o) ++
      [.counters path (cfg.countersOf level entries)] := by
  rw [Config.eventsOf, if_pos h.short, h.opendir]

/-- A subdirectory that is not too deep, or one of the other entries that are given to the
callback. -/
theorem mem_entryEvents {below : List Event} {e : Event} :
    e ∈ cfg.entryEvents path level below o ↔
      (cfg.kind o = some .dir ∧ level + 1 ≤ cfg.ins.maxLevel.toNat ∧ e ∈ below) ∨
      (cfg.ins.minLevel.toNat ≤ level ∧ ∃ type, e = .nondir (path ++ 47 :: o.dirent.name) type ∧
        (cfg.kind o = some .link ∧ type = 108 ∨ cfg.kind o = some .file ∧ type = 102)) := by
  rw [Config.entryEvents]
  cases hkind : cfg.kind o with
  | none => simp
  | some k =>
      cases k with
      | dir => by_cases h : level + 1 ≤ cfg.ins.maxLevel.toNat <;> simp [h]
      | link | file => by_cases h : cfg.ins.minLevel.toNat ≤ level <;> simp [h]
      | other => simp

theorem inWalk_subdir (h : cfg.InWalk root.name (path, level)) (hs : cfg.Succeeds path entries)
    (ho : o ∈ entries) (hkind : cfg.kind o = some .dir)
    (hlevel : level + 1 ≤ cfg.ins.maxLevel.toNat) :
    cfg.InWalk root.name (path ++ 47 :: o.dirent.name, level + 1) :=
  h.tail ⟨entries, o, hs.opendir, ho, hkind, hlevel, rfl⟩

/-- Induction over the directories of a tree, each after the ones below it. -/
theorem Config.Tree.induct (htree : cfg.Tree root) {motive : Bytes → ℕ → Prop}
    (step : ∀ path level entries, cfg.InWalk root.name (path, level) →
      cfg.Succeeds path entries →
      (∀ o ∈ entries, cfg.kind o = some .dir → level + 1 ≤ cfg.ins.maxLevel.toNat →
        motive (path ++ 47 :: o.dirent.name) (level + 1)) → motive path level)
    (h : cfg.InWalk root.name (path, level)) : motive path level := by
  obtain ⟨entries, hs⟩ := htree.succeeds _ h
  induction hn : PATH_MAX - path.length using Nat.strongRecOn generalizing path level entries with
  | ind n ih =>
      refine step path level entries h hs fun o ho hkind hlevel => ?_
      have hsub := inWalk_subdir h hs ho hkind hlevel
      obtain ⟨entries', hs'⟩ := htree.succeeds _ hsub
      have hshort : path.length < PATH_MAX := hs.short
      refine ih _ ?_ hsub entries' hs' rfl
      rw [List.length_append, List.length_cons]
      omega

theorem under_self (e : Event) : Under e.path e := ⟨[], (List.append_nil _).symm, .inl rfl⟩

/-- What is under a name in a directory is under the directory. -/
theorem Under.parent {name : Bytes} {e : Event} (h : Under (path ++ 47 :: name) e) :
    Under path e := by
  obtain ⟨rest, hpath, -⟩ := h
  exact ⟨47 :: (name ++ rest), by rw [hpath, List.append_assoc, List.cons_append], .inr rfl⟩

theorem under_entryEvents {below : List Event} {e : Event}
    (hbelow : cfg.kind o = some .dir → level + 1 ≤ cfg.ins.maxLevel.toNat →
      ∀ e ∈ below, Under (path ++ 47 :: o.dirent.name) e)
    (he : e ∈ cfg.entryEvents path level below o) : Under (path ++ 47 :: o.dirent.name) e := by
  obtain ⟨hkind, hlevel, he⟩ | ⟨-, type, rfl, -⟩ := mem_entryEvents.mp he
  · exact hbelow hkind hlevel e he
  · exact under_self _

theorem under_eventsOf (htree : cfg.Tree root) (h : cfg.InWalk root.name (path, level)) :
    ∀ e ∈ cfg.eventsOf path level, Under path e := by
  refine htree.induct (motive := fun path level => ∀ e ∈ cfg.eventsOf path level, Under path e)
    ?_ h
  intro path level entries h hs ih e he
  rw [eventsOf_eq hs, List.mem_append, List.mem_cons, List.mem_singleton, List.mem_flatMap] at he
  obtain (rfl | ⟨o, ho, he⟩) | rfl := he
  · exact under_self _
  · exact (under_entryEvents (ih o ho) he).parent
  · exact under_self _

/-- The name after the directory can be told from the path. -/
theorem name_of_under {name name' : Bytes} {e : Event} (hname : 47 ∉ name) (hname' : 47 ∉ name')
    (h : Under (path ++ 47 :: name) e) (h' : Under (path ++ 47 :: name') e) : name = name' := by
  have htake : ∀ {name rest : Bytes}, 47 ∉ name → (rest = [] ∨ rest.head? = some 47) →
      (name ++ rest).takeWhile (fun c => c ≠ 47) = name := by
    intro name rest hname hrest
    rw [List.takeWhile_append_of_pos fun c hc => decide_eq_true (ne_of_mem_of_not_mem hc hname)]
    obtain rfl | hhead := hrest
    · rw [List.takeWhile_nil, List.append_nil]
    · obtain ⟨rest, rfl⟩ := List.head?_eq_some_iff.mp hhead
      rw [List.takeWhile_cons_of_neg (by decide), List.append_nil]
  obtain ⟨rest, hpath, hrest⟩ := h
  obtain ⟨rest', hpath', hrest'⟩ := h'
  have heq := hpath.symm.trans hpath'
  rw [List.append_assoc, List.append_assoc, List.append_cancel_left_eq, List.cons_append,
    List.cons_append, List.cons_inj_right] at heq
  rw [← htake hname hrest, heq, htake hname' hrest']

theorem nodup_entryEvents {below : List Event} (hbelow : cfg.kind o = some .dir →
    level + 1 ≤ cfg.ins.maxLevel.toNat → below.Nodup) :
    (cfg.entryEvents path level below o).Nodup := by
  rw [Config.entryEvents]
  cases hkind : cfg.kind o with
  | none => exact List.nodup_nil
  | some k =>
      cases k with
      | dir =>
          dsimp only
          split
          · rename_i hlevel
            exact hbelow hkind hlevel
          · exact List.nodup_nil
      | link | file =>
          dsimp only
          split
          · exact List.nodup_singleton _
          · exact List.nodup_nil
      | other => exact List.nodup_nil

theorem nodup_eventsOf (htree : cfg.Tree root) (h : cfg.InWalk root.name (path, level)) :
    (cfg.eventsOf path level).Nodup := by
  refine htree.induct (motive := fun path level => (cfg.eventsOf path level).Nodup) ?_ h
  intro path level entries h hs ih
  have hunder : ∀ o ∈ entries, ∀ e ∈ cfg.entryEvents path level
      (cfg.eventsOf (path ++ 47 :: o.dirent.name) (level + 1)) o,
      Under (path ++ 47 :: o.dirent.name) e := fun o ho e he =>
    under_entryEvents
      (fun hkind hlevel => under_eventsOf htree (inWalk_subdir h hs ho hkind hlevel)) he
  -- no entry has the path of the directory
  have hlonger : ∀ e : Event, e.path = path → e ∉ entries.flatMap fun o =>
      cfg.entryEvents path level (cfg.eventsOf (path ++ 47 :: o.dirent.name) (level + 1)) o := by
    intro e hpath he
    obtain ⟨o, ho, he⟩ := List.mem_flatMap.mp he
    obtain ⟨rest, hrest, -⟩ := hunder o ho e he
    have hlen := congrArg List.length (hpath.symm.trans hrest)
    simp only [List.length_append, List.length_cons] at hlen
    omega
  have hentries : (entries.flatMap fun o => cfg.entryEvents path level
      (cfg.eventsOf (path ++ 47 :: o.dirent.name) (level + 1)) o).Nodup := by
    rw [List.nodup_flatMap]
    refine ⟨fun o ho => nodup_entryEvents (ih o ho), ?_⟩
    · refine (List.pairwise_map.mp hs.names).imp_of_mem fun ho ho' hne => ?_
      rw [Function.onFun, List.disjoint_left]
      intro e he he'
      exact hne (name_of_under (hs.noSlash _ ho) (hs.noSlash _ ho') (hunder _ ho e he)
        (hunder _ ho' e he'))
  rw [eventsOf_eq hs, List.cons_append, List.nodup_cons, List.mem_append, not_or,
    List.nodup_append]
  refine ⟨⟨hlonger _ rfl, fun hmem => nomatch List.mem_singleton.mp hmem⟩, hentries,
    List.nodup_singleton _, fun e he e' he' heq => ?_⟩
  obtain rfl := List.mem_singleton.mp he'
  exact hlonger _ rfl (heq ▸ he)

/-- The events of a directory itself, without those of its subdirectories. -/
def Config.EventOf (cfg : Config) (d : Bytes × ℕ) (e : Event) : Prop :=
  ∃ entries, cfg.opendir d.1 = some entries ∧
    (e = .directory d.1 d.2 ∨ e = .counters d.1 (cfg.countersOf d.2 entries) ∨
      ∃ o ∈ entries, cfg.ins.minLevel.toNat ≤ d.2 ∧
        ∃ type, e = .nondir (d.1 ++ 47 :: o.dirent.name) type ∧
          (cfg.kind o = some .link ∧ type = 108 ∨ cfg.kind o = some .file ∧ type = 102))

theorem mem_eventsOf_iff (htree : cfg.Tree root) (h : cfg.InWalk root.name (path, level))
    {e : Event} : e ∈ cfg.eventsOf path level ↔
      ∃ d, Relation.ReflTransGen cfg.Subdir (path, level) d ∧ cfg.EventOf d e := by
  refine htree.induct (motive := fun path level => e ∈ cfg.eventsOf path level ↔
    ∃ d, Relation.ReflTransGen cfg.Subdir (path, level) d ∧ cfg.EventOf d e) ?_ h
  intro path level entries h hs ih
  rw [eventsOf_eq hs, List.mem_append, List.mem_cons, List.mem_singleton, List.mem_flatMap]
  constructor
  · rintro ((rfl | ⟨o, ho, he⟩) | rfl)
    · exact ⟨_, .refl, entries, hs.opendir, .inl rfl⟩
    · obtain ⟨hkind, hlevel, he⟩ | ⟨hmin, type, he⟩ := mem_entryEvents.mp he
      · obtain ⟨d, hd, hevent⟩ := (ih o ho hkind hlevel).mp he
        exact ⟨d, hd.head ⟨entries, o, hs.opendir, ho, hkind, hlevel, rfl⟩, hevent⟩
      · exact ⟨_, .refl, entries, hs.opendir, .inr (.inr ⟨o, ho, hmin, type, he⟩)⟩
    · exact ⟨_, .refl, entries, hs.opendir, .inr (.inl rfl)⟩
  · rintro ⟨d, hd, hevent⟩
    obtain rfl | ⟨d₁, hsub, hbelow⟩ := hd.cases_head
    · obtain ⟨entries', hopen, hcases⟩ := hevent
      obtain rfl := Option.some_inj.mp (hs.opendir.symm.trans hopen)
      obtain he | he | ⟨o, ho, hmin, type, he⟩ := hcases
      · exact .inl (.inl he)
      · exact .inr he
      · exact .inl (.inr ⟨o, ho, mem_entryEvents.mpr (.inr ⟨hmin, type, he⟩)⟩)
    · obtain ⟨entries₁, o, hopen₁, ho, hkind, hlevel, rfl⟩ := hsub
      obtain rfl := Option.some_inj.mp (hs.opendir.symm.trans hopen₁)
      exact .inl (.inr ⟨o, ho, mem_entryEvents.mpr (.inl ⟨hkind, hlevel,
        (ih o ho hkind hlevel).mpr ⟨d, hbelow, hevent⟩⟩)⟩)

theorem counted_iff {ctrs : Counters} :
    cfg.Counted d entries ctrs ↔ ctrs = cfg.countersOf d.2 entries := by
  constructor
  · rintro ⟨hdirs, hnondirs, hprocessed, hinsitu⟩
    obtain ⟨dirs, insitu, nondirs, processed⟩ := ctrs
    dsimp only at hdirs hnondirs hprocessed hinsitu
    rw [hprocessed, hinsitu, hdirs, hnondirs]
    rfl
  · rintro rfl
    exact ⟨rfl, rfl, rfl, rfl⟩

theorem once_count {log : List Event} {e : Event} {p : Prop} (hlog : log.Nodup)
    (hmem : e ∈ log ↔ p) : Once p (log.count e) :=
  ⟨fun h => List.count_eq_one_of_mem hlog (hmem.mpr h),
    fun h => List.count_eq_zero_of_not_mem (mt hmem.mp h)⟩

theorem visitsOnce_of_perm (htree : cfg.Tree root) {log : List Event}
    (h : log.Perm (cfg.eventsOf root.name 0)) : cfg.VisitsOnce root.name log := by
  have hroot : cfg.InWalk root.name (root.name, 0) := .refl
  have hnodup := h.nodup_iff.mpr (nodup_eventsOf htree hroot)
  have hmem : ∀ e, e ∈ log ↔ ∃ d, cfg.InWalk root.name d ∧ cfg.EventOf d e :=
    fun e => h.mem_iff.trans (mem_eventsOf_iff htree hroot)
  refine ⟨fun path level => once_count hnodup ?_, fun path type => once_count hnodup ?_,
    fun path ctrs => once_count hnodup ?_⟩
  · rw [hmem]
    constructor
    · rintro ⟨d, hd, entries, -, he | he | ⟨o, -, -, type, he, -⟩⟩
      · rw [Event.directory.injEq] at he
        obtain ⟨rfl, rfl⟩ := he
        exact hd
      · cases he
      · cases he
    · intro hd
      obtain ⟨entries, hs⟩ := htree.succeeds _ hd
      exact ⟨_, hd, entries, hs.opendir, .inl rfl⟩
  · rw [hmem]
    constructor
    · rintro ⟨d, hd, entries, hopen, he | he | ⟨o, ho, hmin, type', he, hkind⟩⟩
      · cases he
      · cases he
      · rw [Event.nondir.injEq] at he
        obtain ⟨rfl, rfl⟩ := he
        exact ⟨d, entries, o, hd, hmin, hopen, ho, rfl, hkind⟩
    · rintro ⟨d, entries, o, hd, hmin, hopen, ho, rfl, hkind⟩
      exact ⟨d, hd, entries, hopen, .inr (.inr ⟨o, ho, hmin, type, rfl, hkind⟩)⟩
  · rw [hmem]
    constructor
    · rintro ⟨d, hd, entries, hopen, he | he | ⟨o, -, -, type, he, -⟩⟩
      · cases he
      · rw [Event.counters.injEq] at he
        obtain ⟨rfl, rfl⟩ := he
        exact ⟨d.2, entries, hd, hopen, counted_iff.mpr rfl⟩
      · cases he
    · rintro ⟨level, entries, hd, hopen, hcounted⟩
      exact ⟨_, hd, entries, hopen, .inr (.inl (by rw [counted_iff.mp hcounted]))⟩

end Events

section Processing

variable {cfg : Config} {root : Named} {path : Bytes} {level : ℕ} {entries : List Observed}
  {o : Observed}

/-- What is reported is what `lstat` says. -/
theorem kindOf_eq (hs : cfg.Succeeds path entries) (ho : o ∈ entries) (l : UInt64) :
    kindOf (cfg.arguments l) o = cfg.kind o := by
  obtain ⟨st, crtime, hlstat, honest, -⟩ := hs.entries o ho
  have hskips : skips (cfg.arguments l) o.dirent = skips (cfg.arguments 0) o.dirent := rfl
  rw [kindOf, Config.kind, hskips]
  split
  · rfl
  · rw [Observed.mode, hlstat]
    rw [Observed.HonestType] at honest
    cases htype : o.dirent.type with
    | unknown => rfl
    | _ =>
        rw [htype] at honest
        exact congrArg some (Eq.symm honest)

theorem inWalk_level (htree : cfg.Tree root) {d : Bytes × ℕ} (h : cfg.InWalk root.name d) :
    d.2 ≤ d.1.length ∧ d.2 ≤ cfg.ins.maxLevel.toNat ∧ d.1 ≠ [] := by
  induction h with
  | refl => exact ⟨Nat.zero_le _, Nat.zero_le _, htree.notEmpty⟩
  | tail _ hsub ih =>
      obtain ⟨entries, o, -, -, -, hlevel, rfl⟩ := hsub
      refine ⟨?_, hlevel, List.append_ne_nil_of_right_ne_nil _ (List.cons_ne_nil _ _)⟩
      dsimp only
      rw [List.length_append, List.length_cons]
      omega

/-- The block holds the item of a directory in the walk. -/
def Config.Carries (cfg : Config) (root : Bytes) (block : Mem) : Prop :=
  ∃ i : WorkItem, cfg.InWalk root (i.name, i.work.level.toNat) ∧ Holds cfg.mem.zlib i block

/-- What the item in a block will come to. -/
def Config.worth (cfg : Config) (block : Mem) : Multiset Event :=
  match cfg.readItem block with
  | none => 0
  | some item => ↑(cfg.eventsOf item.name item.work.level.toNat)

/-- What has happened and what is enqueued. -/
def Config.total (cfg : Config) (r : List Event × List Mem) : Multiset Event :=
  ↑r.1 + (r.2.map cfg.worth).sum

theorem Holds.readItem_of_inWalk (hz : cfg.mem.zlib.Documented) (htree : cfg.Tree root)
    {i : WorkItem} (hi : cfg.InWalk root.name (i.name, i.work.level.toNat)) {block : Mem}
    (h : Holds cfg.mem.zlib i block) : ∃ work, cfg.readItem block = some ⟨work, i.name⟩ ∧
      work.level = i.work.level := by
  obtain ⟨entries, hs⟩ := htree.succeeds _ hi
  obtain ⟨work, hread, hwork⟩ := h.readItem hz (length_bytes_lt hs.short)
  exact ⟨work, hread, by rw [← hwork]⟩

theorem worth_eq (hz : cfg.mem.zlib.Documented) (htree : cfg.Tree root) {i : WorkItem}
    (hi : cfg.InWalk root.name (i.name, i.work.level.toNat)) {block : Mem}
    (h : Holds cfg.mem.zlib i block) :
    cfg.worth block = ↑(cfg.eventsOf i.name i.work.level.toNat) := by
  obtain ⟨work, hread, hlevel⟩ := h.readItem_of_inWalk hz htree hi
  rw [Config.worth, hread]
  dsimp only
  rw [hlevel]

theorem level_lstatWrapper {lstat : Option (Stat × Int64)} (h : lstat.isSome) (work : Work) :
    ∃ work', lstatWrapper lstat work = some work' ∧ work'.level = work.level := by
  obtain ⟨st, rfl⟩ := Option.isSome_iff_exists.mp h
  rw [lstatWrapper]
  split
  · exact ⟨_, rfl, rfl⟩
  · exact ⟨_, rfl, rfl⟩

/-- A level does not wrap around, since there are fewer levels than bytes in a path. -/
theorem toNat_level_succ (htree : cfg.Tree root) (hs : cfg.Succeeds path entries) {work : Named}
    (hi : cfg.InWalk root.name (path, work.work.level.toNat)) :
    (work.work.level + 1).toNat = work.work.level.toNat + 1 := by
  have hlevel : work.work.level.toNat ≤ path.length := (inWalk_level htree hi).1
  have hshort : path.length < 4096 := hs.short
  have hone : (1 : UInt64).toNat = 1 := rfl
  rw [UInt64.toNat_add, hone]
  exact Nat.mod_eq_of_lt (by omega)

theorem isSubdir_iff (htree : cfg.Tree root) (hs : cfg.Succeeds path entries)
    (ho : o ∈ entries) {work : Named} {l : UInt64}
    (hi : cfg.InWalk root.name (path, work.work.level.toNat)) :
    IsSubdir (cfg.arguments l) work o ↔
      cfg.kind o = some .dir ∧ work.work.level.toNat + 1 ≤ cfg.ins.maxLevel.toNat := by
  rw [IsSubdir, kindOf_eq hs ho, UInt64.le_iff_toNat_le, toNat_level_succ htree hs hi]
  rfl

theorem isNondir_iff (hs : cfg.Succeeds path entries) (ho : o ∈ entries) {work : Named}
    {l : UInt64} : IsNondir (cfg.arguments l) work o ↔
      (cfg.kind o = some .link ∨ cfg.kind o = some .file) ∧
        cfg.ins.minLevel.toNat ≤ work.work.level.toNat := by
  rw [IsNondir, kindOf_eq hs ho, UInt64.le_iff_toNat_le]
  rfl

theorem countP_isSubdir (htree : cfg.Tree root) (hs : cfg.Succeeds path entries) {work : Named}
    {l : UInt64} (hi : cfg.InWalk root.name (path, work.work.level.toNat)) :
    entries.countP (fun o => decide (IsSubdir (cfg.arguments l) work o)) =
      (cfg.countersOf work.work.level.toNat entries).dirs := by
  rw [Config.countersOf]
  dsimp only
  split
  · rename_i hlevel
    refine List.countP_congr fun o ho => ?_
    rw [decide_eq_true_eq, decide_eq_true_eq, isSubdir_iff htree hs ho hi, and_iff_left hlevel]
  · rename_i hlevel
    rw [List.countP_eq_zero]
    intro o ho
    rw [decide_eq_true_eq, isSubdir_iff htree hs ho hi]
    exact fun h => hlevel h.2

theorem countP_isNondir (hs : cfg.Succeeds path entries) {work : Named} {l : UInt64} :
    entries.countP (fun o => decide (IsNondir (cfg.arguments l) work o)) =
      (cfg.countersOf work.work.level.toNat entries).nondirs := by
  rw [Config.countersOf]
  dsimp only
  split
  · rename_i hlevel
    refine List.countP_congr fun o ho => ?_
    rw [decide_eq_true_eq, decide_eq_true_eq, isNondir_iff hs ho, and_iff_left hlevel]
  · rename_i hlevel
    rw [List.countP_eq_zero]
    intro o ho
    rw [decide_eq_true_eq, isNondir_iff hs ho]
    exact fun h => hlevel h.2

theorem linkFits_of_succeeds (hs : cfg.Succeeds path entries) (l : UInt64) :
    ∀ o ∈ entries, o.LinkFits (cfg.arguments l) := by
  intro o ho hkind
  obtain ⟨st, crtime, hlstat, -, hlink⟩ := hs.entries o ho
  rw [kindOf_eq hs ho, Config.kind] at hkind
  split at hkind
  · cases hkind
  · rw [hlstat] at hkind
    exact hlink (Option.some_inj.mp hkind)

theorem insitu_zero (args : Arguments) : Counters.Insitu args ⟨0, 0, 0, 0⟩ := by
  rw [Counters.Insitu]
  split
  · rfl
  · exact (Nat.zero_sub _).symm

/-- A directory in the walk is opened and gone over, whatever form its item has. -/
theorem descendItem_eq (hz : cfg.mem.zlib.Documented) (htree : cfg.Tree root) {i : WorkItem}
    (hi : cfg.InWalk root.name (i.name, i.work.level.toNat)) {block : Mem}
    (h : Holds cfg.mem.zlib i block) : ∃ work entries chunks,
      cfg.descendItem block = some (⟨work, i.name⟩, chunks.flatten,
        cfg.countersOf work.level.toNat entries) ∧
      work.level = i.work.level ∧ cfg.Succeeds i.name entries ∧
      List.Forall₂ (Handles (cfg.arguments work.level) ⟨work, i.name⟩) entries chunks := by
  obtain ⟨entries, hs⟩ := htree.succeeds _ hi
  obtain ⟨work, hread, hlevel⟩ := h.readItem_of_inWalk hz htree hi
  obtain ⟨work', hlstat, hlevel'⟩ := level_lstatWrapper hs.lstat work
  obtain ⟨chunks, ctrs, hloop, hall, hdirs, hnondirs, hprocessed, hinsitu⟩ :=
    descendLoop_handles ⟨work', i.name⟩ (linkFits_of_succeeds hs work'.level) ⟨0, 0, 0, 0⟩
  rw [hlevel] at hlevel'
  have hmax : work'.level ≤ cfg.ins.maxLevel := by
    rw [hlevel', UInt64.le_iff_toNat_le]
    exact (inWalk_level htree hi).2.1
  have hdescend : descend (cfg.arguments work'.level) ⟨work', i.name⟩ entries =
      some (chunks.flatten, ctrs) := by
    rw [descend]
    exact (if_pos hmax).trans hloop
  have hprocesses : ∀ o, (IsNondir (cfg.arguments work'.level) ⟨work', i.name⟩ o ∧
      (cfg.arguments work'.level).processnondir = true) ↔
      IsNondir (cfg.arguments work'.level) ⟨work', i.name⟩ o :=
    fun o => and_iff_left_of_imp fun h => decide_eq_true ⟨h.2, hmax⟩
  simp only [hprocesses, Nat.zero_add] at hdirs hnondirs hprocessed
  have hctrs : ctrs = cfg.countersOf work'.level.toNat entries := by
    rw [← hlevel'] at hi
    rw [countP_isSubdir htree hs hi] at hdirs
    rw [countP_isNondir hs] at hnondirs hprocessed
    have hfinal := hinsitu rfl (insitu_zero _)
    rw [Counters.Insitu, hdirs] at hfinal
    obtain ⟨dirs, insitu, nondirs, processed⟩ := ctrs
    dsimp only at hdirs hnondirs hprocessed hfinal
    rw [hdirs, hnondirs, hprocessed, hfinal]
    rfl
  refine ⟨work', entries, chunks, ?_, hlevel', hs, hall⟩
  rw [Config.descendItem, hread, Option.bind_some, hs.opendir, Option.bind_some, hlstat,
    Option.bind_some, hdescend, hctrs]
  rfl

/-- What calls come to, one after the other. -/
def runCalls (processdir : Mem → List Event × List Mem) (calls : List Call) :
    List Event × List Mem :=
  ((calls.map (runCall processdir)).flatMap Prod.fst,
    (calls.map (runCall processdir)).flatMap Prod.snd)

/-- The item is worth what its directory comes to. -/
def Config.Accounts (cfg : Config) (root : Bytes) (r : List Event × List Mem)
    (events : List Event) : Prop :=
  (∀ b ∈ r.2, cfg.Carries root b) ∧ cfg.total r = ↑events

theorem accounts_nil (cfg : Config) (root : Bytes) : cfg.Accounts root ([], []) [] :=
  ⟨nofun, rfl⟩

theorem total_single (cfg : Config) (block : Mem) :
    cfg.total ([], [block]) = cfg.worth block := by
  rw [Config.total, List.map_singleton, List.sum_singleton, Multiset.coe_nil, zero_add]

theorem Config.Accounts.append {r r' : List Event × List Mem} {events events' : List Event}
    {root : Bytes} (h : cfg.Accounts root r events) (h' : cfg.Accounts root r' events') :
    cfg.Accounts root (r.1 ++ r'.1, r.2 ++ r'.2) (events ++ events') := by
  refine ⟨List.forall_mem_append.mpr ⟨h.1, h'.1⟩, ?_⟩
  rw [← Multiset.coe_add, ← h.2, ← h'.2]
  simp only [Config.total, ← Multiset.coe_add, List.map_append, List.sum_append]
  abel

theorem runCalls_one (processdir : Mem → List Event × List Mem) (call : Call) :
    runCalls processdir [call] = runCall processdir call := by
  rw [runCalls, List.map_singleton, List.flatMap_singleton, List.flatMap_singleton]

theorem runCalls_append (processdir : Mem → List Event × List Mem) (calls calls' : List Call) :
    runCalls processdir (calls ++ calls') =
      ((runCalls processdir calls).1 ++ (runCalls processdir calls').1,
        (runCalls processdir calls).2 ++ (runCalls processdir calls').2) := by
  simp only [runCalls, List.map_append, List.flatMap_append]

/-- The item of a directory, before it is enqueued. -/
structure ItemOf (path : Bytes) (level : ℕ) (w : Named) : Prop where
  name : w.name = path
  level : w.work.level.toNat = level
  nameLen : w.work.nameLen.toNat = w.name.length
  plain : w.work.compressed.yes = 0

theorem ItemOf.exists_workItem {w : Named} (h : ItemOf path level w)
    (hshort : path.length < PATH_MAX) : ∃ i : WorkItem,
      i.name = path ∧ i.work.level.toNat = level ∧ i.bytes = w.bytes := by
  have hpath : PATH_MAX = 4096 := rfl
  have hsize : Work.layout.size = 296 := rfl
  have hlen : w.name.length = path.length := congrArg List.length h.name
  exact ⟨⟨w.work, w.name, h.nameLen, h.plain, by omega⟩, h.name, h.level, rfl⟩

theorem itemOf_child (htree : cfg.Tree root) (hs : cfg.Succeeds path entries) {work child : Named}
    {l : UInt64} (hname : work.name = path)
    (hi : cfg.InWalk root.name (path, work.work.level.toNat))
    (hshort : (path ++ 47 :: o.dirent.name).length < PATH_MAX)
    (hchild : childOf (cfg.arguments l) work o = some child) :
    ItemOf (path ++ 47 :: o.dirent.name) (work.work.level.toNat + 1) child := by
  obtain ⟨hcname, hclevel, hclen, hcplain⟩ :=
    childOf_eq_some (hname ▸ (inWalk_level htree hi).2.2) hchild
  rw [hname] at hcname
  refine ⟨hcname, by rw [hclevel, toNat_level_succ htree hs hi], ?_, hcplain⟩
  rw [hclen, UInt64.toNat_ofNat_of_lt']
  rw [hcname]
  exact hshort.trans (by decide)

section Entry

variable {work : Named} {processdir : Mem → List Event × List Mem} {calls : List Call}

theorem accounts_subdir (hz : cfg.mem.zlib.Documented) (htree : cfg.Tree root)
    (hs : cfg.Succeeds path entries) (ho : o ∈ entries) (hname : work.name = path)
    (hi : cfg.InWalk root.name (path, work.work.level.toNat))
    (hprocess : ∀ (i : WorkItem) block, path.length < i.name.length →
      cfg.InWalk root.name (i.name, i.work.level.toNat) → Holds cfg.mem.zlib i block →
      cfg.Accounts root.name (processdir block) (cfg.eventsOf i.name i.work.level.toNat))
    (hkind : cfg.kind o = some .dir) (hlevel : work.work.level.toNat + 1 ≤ cfg.ins.maxLevel.toNat)
    {child : Named} {l : UInt64} (hchild : childOf (cfg.arguments l) work o = some child)
    (hcalls : calls = [enqueueChild (cfg.arguments l) child] ∨
      calls = [processChild (cfg.arguments l) work child]) :
    cfg.Accounts root.name (runCalls processdir calls)
      (cfg.eventsOf (path ++ 47 :: o.dirent.name) (work.work.level.toNat + 1)) := by
  have hin := inWalk_subdir hi hs ho hkind hlevel
  obtain ⟨entries', hs'⟩ := htree.succeeds _ hin
  have hitem := itemOf_child htree hs hname hi hs'.short hchild
  obtain rfl | rfl := hcalls
  · obtain ⟨i, hiname, hilevel, hibytes⟩ := hitem.exists_workItem hs'.short
    rw [← hiname, ← hilevel] at hin ⊢
    have hholds : Holds cfg.mem.zlib i (compressStruct cfg.mem.zlib cfg.mem.malloc cfg.mem.realloc
        cfg.ins.compress (child.block cfg.mem) child.bytes.length) := by
      rw [← hibytes]
      exact Holds.compressStruct hibytes.symm _ _ _
    rw [runCalls_one, show runCall processdir (enqueueChild (cfg.arguments l) child) =
      ([], [compressStruct cfg.mem.zlib cfg.mem.malloc cfg.mem.realloc cfg.ins.compress
        (child.block cfg.mem) child.bytes.length]) from rfl]
    refine ⟨List.forall_mem_singleton.mpr ⟨i, hin, hholds⟩, ?_⟩
    rw [total_single, worth_eq hz htree hin hholds]
  · have hitem' : ItemOf (path ++ 47 :: o.dirent.name) (work.work.level.toNat + 1)
        { child with work.recursionLevel := work.work.recursionLevel + 1 } :=
      ⟨hitem.name, hitem.level, hitem.nameLen, hitem.plain⟩
    obtain ⟨i, hiname, hilevel, hibytes⟩ := hitem'.exists_workItem hs'.short
    have hlonger : path.length < i.name.length := by
      rw [hiname, List.length_append, List.length_cons]
      omega
    rw [← hiname, ← hilevel] at hin ⊢
    rw [runCalls_one]
    exact hprocess i _ hlonger hin (.plain hibytes.symm)

/-- An entry comes to the events that are expected of it, whether it is enqueued or handled at
once. -/
theorem accounts_entry (hz : cfg.mem.zlib.Documented) (htree : cfg.Tree root)
    (hs : cfg.Succeeds path entries) (ho : o ∈ entries) (hname : work.name = path)
    (hi : cfg.InWalk root.name (path, work.work.level.toNat))
    (hprocess : ∀ (i : WorkItem) block, path.length < i.name.length →
      cfg.InWalk root.name (i.name, i.work.level.toNat) → Holds cfg.mem.zlib i block →
      cfg.Accounts root.name (processdir block) (cfg.eventsOf i.name i.work.level.toNat))
    (h : Handles (cfg.arguments work.work.level) work o calls) :
    cfg.Accounts root.name (runCalls processdir calls)
      (cfg.entryEvents path work.work.level.toNat
        (cfg.eventsOf (path ++ 47 :: o.dirent.name) (work.work.level.toNat + 1)) o) := by
  have hmax : work.work.level ≤ cfg.ins.maxLevel :=
    UInt64.le_iff_toNat_le.mpr (inWalk_level htree hi).2.1
  by_cases hsub : IsSubdir (cfg.arguments work.work.level) work o
  · obtain ⟨child, hchild, hcalls⟩ := h.subdir hsub rfl
    obtain ⟨hkind, hlevel⟩ := (isSubdir_iff htree hs ho hi).mp hsub
    rw [Config.entryEvents, hkind]
    dsimp only
    rw [if_pos hlevel]
    exact accounts_subdir hz htree hs ho hname hi hprocess hkind hlevel hchild hcalls
  · by_cases hnon : IsNondir (cfg.arguments work.work.level) work o
    · obtain ⟨child, ed, hchild, rfl, hdescribes⟩ := h.nondir hnon (decide_eq_true ⟨hnon.2, hmax⟩)
      obtain ⟨hkind, hmin⟩ := (isNondir_iff hs ho).mp hnon
      have hcname := (childOf_eq_some (hname ▸ (inWalk_level htree hi).2.2) hchild).1
      have htype := hdescribes.type
      rw [kindOf_eq hs ho] at htype
      rw [runCalls_one, runCall, hcname, hname, htype, Config.entryEvents]
      obtain hkind | hkind := hkind
      · rw [hkind]
        dsimp only
        rw [if_pos hmin, if_pos rfl]
        exact ⟨nofun, add_zero _⟩
      · rw [hkind]
        dsimp only
        rw [if_pos hmin, if_neg (by decide)]
        exact ⟨nofun, add_zero _⟩
    · obtain rfl := h.other (fun h => hsub h.1) fun h => hnon h.1
      have hnil : cfg.entryEvents path work.work.level.toNat
          (cfg.eventsOf (path ++ 47 :: o.dirent.name) (work.work.level.toNat + 1)) o = [] := by
        rw [isSubdir_iff htree hs ho hi] at hsub
        rw [isNondir_iff hs ho] at hnon
        refine List.eq_nil_iff_forall_not_mem.mpr fun e he => ?_
        obtain ⟨hkind, hlevel, -⟩ | ⟨hmin, type, -, hkind⟩ := mem_entryEvents.mp he
        · exact hsub ⟨hkind, hlevel⟩
        · exact hnon ⟨hkind.imp And.left And.left, hmin⟩
      rw [hnil]
      exact accounts_nil cfg root.name

theorem accounts_entries (work : Named) (hz : cfg.mem.zlib.Documented) (htree : cfg.Tree root)
    (hs : cfg.Succeeds path entries) (hname : work.name = path)
    (hi : cfg.InWalk root.name (path, work.work.level.toNat))
    (hprocess : ∀ (i : WorkItem) block, path.length < i.name.length →
      cfg.InWalk root.name (i.name, i.work.level.toNat) → Holds cfg.mem.zlib i block →
      cfg.Accounts root.name (processdir block) (cfg.eventsOf i.name i.work.level.toNat))
    {part : List Observed} (hpart : ∀ o ∈ part, o ∈ entries) {chunks : List (List Call)}
    (h : List.Forall₂ (Handles (cfg.arguments work.work.level) work) part chunks) :
    cfg.Accounts root.name (runCalls processdir chunks.flatten)
      (part.flatMap fun o => cfg.entryEvents path work.work.level.toNat
        (cfg.eventsOf (path ++ 47 :: o.dirent.name) (work.work.level.toNat + 1)) o) := by
  induction h with
  | nil => exact accounts_nil cfg root.name
  | cons hhandles _ ih =>
      obtain ⟨ho, hrest⟩ := List.forall_mem_cons.mp hpart
      rw [List.flatten_cons, runCalls_append, List.flatMap_cons]
      exact (accounts_entry hz htree hs ho hname hi hprocess hhandles).append (ih hrest)

end Entry

/-- `processdir` leads to what is expected of its directory, now or later. The bound is large
enough: the path gets longer each time `processdir` calls itself. -/
theorem accounts_processdir (hz : cfg.mem.zlib.Documented) (htree : cfg.Tree root) {n : ℕ}
    {i : WorkItem} {block : Mem} (hn : PATH_MAX ≤ n + i.name.length)
    (hi : cfg.InWalk root.name (i.name, i.work.level.toNat)) (h : Holds cfg.mem.zlib i block) :
    cfg.Accounts root.name (cfg.processdir n block)
      (cfg.eventsOf i.name i.work.level.toNat) := by
  induction n generalizing i block with
  | zero =>
      obtain ⟨entries, hs⟩ := htree.succeeds _ hi
      have hshort : i.name.length < PATH_MAX := hs.short
      omega
  | succ n ih =>
      obtain ⟨work, entries, chunks, hdescend, hlevel, hs, hall⟩ := descendItem_eq hz htree hi h
      rw [← hlevel] at hi ⊢
      have hrec : ∀ (j : WorkItem) block, i.name.length < j.name.length →
          cfg.InWalk root.name (j.name, j.work.level.toNat) → Holds cfg.mem.zlib j block →
          cfg.Accounts root.name (cfg.processdir n block)
            (cfg.eventsOf j.name j.work.level.toNat) :=
        fun j block hlonger hj hholds => ih (by omega) hj hholds
      obtain ⟨hcarries, htotal⟩ := accounts_entries ⟨work, i.name⟩ hz htree hs rfl hi hrec
        (fun _ ho => ho) hall
      have hresult : cfg.processdir (n + 1) block =
          (.directory i.name work.level.toNat ::
            (runCalls (cfg.processdir n) chunks.flatten).1 ++
              [.counters i.name (cfg.countersOf work.level.toNat entries)],
            (runCalls (cfg.processdir n) chunks.flatten).2) := by
        rw [Config.processdir, hdescend]
        rfl
      rw [hresult, eventsOf_eq hs]
      refine ⟨hcarries, ?_⟩
      rw [Config.total] at htotal ⊢
      dsimp only
      rw [List.cons_append, List.cons_append, ← Multiset.cons_coe, ← Multiset.cons_coe,
        ← Multiset.coe_add, ← Multiset.coe_add, ← htotal, Multiset.cons_add, add_right_comm]

end Processing

section Main

variable {cfg : Config} {root : Named}

theorem carries_start (htree : cfg.Tree root) :
    ∃ i : WorkItem, i.name = root.name ∧ i.work.level.toNat = 0 ∧
      Holds cfg.mem.zlib i (compressStruct cfg.mem.zlib cfg.mem.malloc cfg.mem.realloc
        cfg.ins.compress (root.block cfg.mem) root.bytes.length) := by
  obtain ⟨entries, hs⟩ := htree.succeeds _ .refl
  have hitem : ItemOf root.name 0 root :=
    ⟨rfl, congrArg UInt64.toNat htree.level, htree.nameLen, htree.plain⟩
  obtain ⟨i, hiname, hilevel, hibytes⟩ := hitem.exists_workItem hs.short
  refine ⟨i, hiname, hilevel, ?_⟩
  rw [← hibytes]
  exact Holds.compressStruct hibytes.symm _ _ _

/-- A step changes nothing in what the log and the queue are worth. -/
theorem account_process (hz : cfg.mem.zlib.Documented) (htree : cfg.Tree root) {block : Mem}
    {log : List Event} {r : List Event × List Mem} (hblock : cfg.Carries root.name block) {k : ℕ}
    (hk : k ≠ 0 → IsCompressed block) (h : cfg.Processes k block log r) :
    (∀ b ∈ r.2, cfg.Carries root.name b) ∧
      (r.1 : Multiset Event) + (r.2.map cfg.worth).sum = ↑log + cfg.worth block := by
  obtain ⟨i, hi, hholds⟩ := hblock
  obtain ⟨block', htrips, hholds'⟩ := hholds.trips k hk
  obtain ⟨hcarries, htotal⟩ :=
    accounts_processdir hz htree (Nat.le_add_right PATH_MAX _) hi hholds'
  rw [Config.Processes, htrips] at h
  subst h
  refine ⟨hcarries, ?_⟩
  rw [worth_eq hz htree hi hholds, ← htotal, Config.total, ← Multiset.coe_add, add_assoc]

/-- What is in the log and what is to come, in every state of the walk. -/
theorem worth_of_run (hz : cfg.mem.zlib.Documented) (htree : cfg.Tree root)
    {y : List Mem × List Event}
    (hrun : Relation.ReflTransGen cfg.SparedStep (cfg.start root) y) :
    (∀ b ∈ y.1, cfg.Carries root.name b) ∧
      (y.2 : Multiset Event) + (y.1.map cfg.worth).sum = ↑(cfg.eventsOf root.name 0) := by
  obtain ⟨i, hiname, hilevel, hholds⟩ := carries_start htree
  have hi : cfg.InWalk root.name (i.name, i.work.level.toNat) := by
    rw [hiname, hilevel]
    exact .refl
  have hwork : ∀ block log r, cfg.Carries root.name block →
      (∃ k, (k ≠ 0 → IsCompressed block) ∧ cfg.Processes k block log r) →
      (∀ b ∈ r.2, cfg.Carries root.name b) ∧
        (r.1 : Multiset Event) + (r.2.map cfg.worth).sum = ↑log + cfg.worth block :=
    fun block log r hblock ⟨k, hk, h⟩ => account_process hz htree hblock hk h
  obtain ⟨hcarries, hsum⟩ := Worklist.account_of_choices hwork hrun
    (List.forall_mem_singleton.mpr ⟨i, hi, hholds⟩)
  have hworth := worth_eq hz htree hi hholds
  rw [hiname, hilevel] at hworth
  refine ⟨hcarries, hsum.trans ?_⟩
  rw [← hworth]
  exact total_single cfg _

/-- A directory that is processed adds to the log. -/
theorem length_process (hz : cfg.mem.zlib.Documented) (htree : cfg.Tree root) {block : Mem}
    (hblock : cfg.Carries root.name block) (log : List Event) :
    ∃ r, cfg.Processes 0 block log r ∧ log.length < r.1.length := by
  obtain ⟨i, hi, hholds⟩ := hblock
  obtain ⟨work, entries, chunks, hdescend, -⟩ := descendItem_eq hz htree hi hholds
  refine ⟨_, rfl, ?_⟩
  rw [show PATH_MAX = 4095 + 1 from rfl, Config.trips]
  dsimp only
  rw [Config.processdir, hdescend, List.length_append]
  exact Nat.lt_add_of_pos_right (Nat.succ_pos _)

theorem exists_finished (hz : cfg.mem.zlib.Documented) (htree : cfg.Tree root)
    {y : List Mem × List Event}
    (hrun : Relation.ReflTransGen cfg.SparedStep (cfg.start root) y) :
    ∃ log, Relation.ReflTransGen cfg.SparedStep y ([], log) := by
  induction hn : (cfg.eventsOf root.name 0).length - y.2.length using Nat.strongRecOn
    generalizing y with
  | ind n ih =>
      obtain ⟨queue, log⟩ := y
      cases queue with
      | nil => exact ⟨log, .refl⟩
      | cons block rest =>
          obtain ⟨hcarries, -⟩ := worth_of_run hz htree hrun
          obtain ⟨r, hr, hlonger⟩ := length_process hz htree (hcarries block List.mem_cons_self) log
          have hstep : cfg.SparedStep (block :: rest, log) (rest ++ r.2, r.1) :=
            .process [] rest ⟨0, fun h => absurd rfl h, hr⟩
          have hrun' := hrun.tail hstep
          obtain ⟨-, htotal⟩ := worth_of_run hz htree hrun'
          have hle : r.1.length ≤ (cfg.eventsOf root.name 0).length := by
            have hcard := congrArg Multiset.card htotal
            rw [Multiset.card_add] at hcard
            exact (Nat.le_add_right _ _).trans hcard.le
          have hless : (cfg.eventsOf root.name 0).length - r.1.length < n := by
            rw [← hn]
            exact Nat.sub_lt_sub_left (hlonger.trans_le hle) hlonger
          obtain ⟨log', hlog'⟩ := ih _ hless hrun' rfl
          exact ⟨log', hlog'.head hstep⟩

/-- In a walk in which only compressed items are written to swap files, nothing is visited twice,
the end can be reached, and then everything has been visited. -/
theorem walk_visitsOnce (hz : cfg.mem.zlib.Documented) (htree : cfg.Tree root)
    {y : List Mem × List Event}
    (hrun : Relation.ReflTransGen cfg.SparedStep (cfg.start root) y) :
    y.2.Nodup ∧ (∃ log, Relation.ReflTransGen cfg.SparedStep y ([], log)) ∧
      (y.1 = [] → cfg.VisitsOnce root.name y.2) := by
  obtain ⟨-, htotal⟩ := worth_of_run hz htree hrun
  refine ⟨?_, exists_finished hz htree hrun, fun hnil => ?_⟩
  · have hle : (y.2 : Multiset Event) ≤ ↑(cfg.eventsOf root.name 0) :=
      htotal ▸ Multiset.le_add_right _ _
    exact Multiset.coe_nodup.mp (Multiset.nodup_of_le hle
      (Multiset.coe_nodup.mpr (nodup_eventsOf htree .refl)))
  · rw [hnil, List.map_nil, List.sum_nil, add_zero] at htotal
    exact visitsOnce_of_perm htree (Multiset.coe_eq_coe.mp htotal)

def smallDir (name : UInt8) : Observed where
  dirent := ⟨2, .dir, [name]⟩
  lstat := some ((setMode zeroWork S_IFDIR).statuso, 0)
  readlink := none
  listxattr := none
  getxattr _ := none

/-- `a`, with the directories `b` and `c` in it. -/
def smallTree : Config where
  ins := ⟨0, UInt64.ofNat (2 ^ 64 - 1), 0, false, false, []⟩
  skipDb := true
  mem := ⟨⟨fun _ _ => none, fun _ _ => none⟩, lastBlocks, lastBlocks, lastBlocks⟩
  decompressed := lastBlocks
  deserialized := lastBlocks
  func := 0
  dFd := 3
  opendir path :=
    if path = [97] then some [smallDir 98, smallDir 99]
    else if path = [97, 47, 98] ∨ path = [97, 47, 99] then some []
    else none
  lstat _ := some ((setMode zeroWork S_IFDIR).statuso, 0)

def smallRoot : Named := ⟨{ zeroWork with nameLen := 1 }, [97]⟩

theorem smallTree_tree : smallTree.Tree smallRoot := by
  have hdirs : ∀ d, smallTree.InWalk [97] d →
      d = ([97], 0) ∨ d = ([97, 47, 98], 1) ∨ d = ([97, 47, 99], 1) := by
    intro d hd
    induction hd with
    | refl => exact .inl rfl
    | tail _ hsub ih =>
        obtain ⟨entries, o, hopen, ho, -, -, rfl⟩ := hsub
        obtain rfl | rfl | rfl := ih
        · cases hopen
          obtain rfl | ho := List.mem_cons.mp ho
          · exact .inr (.inl rfl)
          · obtain rfl := List.mem_singleton.mp ho
            exact .inr (.inr rfl)
        · cases hopen
          cases ho
        · cases hopen
          cases ho
  have hentry : ∀ o ∈ [smallDir 98, smallDir 99], o = smallDir 98 ∨ o = smallDir 99 :=
    fun o ho => (List.mem_cons.mp ho).imp id List.mem_singleton.mp
  refine ⟨fun d hd => ?_, List.cons_ne_nil _ _, rfl, rfl, rfl⟩
  obtain rfl | rfl | rfl := hdirs d hd
  · refine ⟨_, rfl, rfl, by decide, by decide, fun o ho => ?_, fun o ho => ?_⟩
    · obtain rfl | rfl := hentry o ho <;> decide
    · obtain rfl | rfl := hentry o ho <;> exact ⟨_, _, rfl, rfl, fun h => absurd h (by decide)⟩
  · exact ⟨[], rfl, rfl, by decide, by decide, List.forall_mem_nil _, List.forall_mem_nil _⟩
  · exact ⟨[], rfl, rfl, by decide, by decide, List.forall_mem_nil _, List.forall_mem_nil _⟩

/-- No item is written to a swap file. -/
theorem walk_visitsOnce_smallTree : ∃ log,
    Relation.ReflTransGen smallTree.SparedStep (smallTree.start smallRoot) ([], log) ∧
      smallTree.VisitsOnce [97] log := by
  have hz : smallTree.mem.zlib.Documented := ⟨nofun, nofun⟩
  obtain ⟨-, ⟨log, hlog⟩, -⟩ := walk_visitsOnce hz smallTree_tree .refl
  obtain ⟨-, -, hvisits⟩ := walk_visitsOnce hz smallTree_tree hlog
  exact ⟨log, hlog, hvisits rfl⟩

theorem anyStep_head {block : Mem} {log : List Event} {r : List Event × List Mem} {k : ℕ}
    (rest : List Mem) (h : cfg.Processes k block log r) :
    cfg.AnyStep (block :: rest, log) (rest ++ r.2, r.1) :=
  .process [] rest ⟨k, h⟩

/-- Nothing comes of an item that cannot be read. -/
theorem processdir_of_none {block : Mem} (h : cfg.readItem block = none) (n : ℕ) :
    cfg.processdir n block = ([], []) := by
  cases n with
  | zero => rfl
  | succ n => rw [Config.processdir, Config.descendItem, h, Option.bind_none]

def smallItem : Mem := smallRoot.block smallTree.mem

/-- The queue is full when `c` is enqueued. Without compression its name is not written, and it is
not visited. -/
theorem not_visitsOnce : smallTree.Tree smallRoot ∧ ∃ log,
    Relation.ReflTransGen smallTree.AnyStep (smallTree.start smallRoot) ([], log) ∧
      ¬smallTree.VisitsOnce [97] log := by
  have hroot : (smallTree.processdir PATH_MAX smallItem).1 =
      [.directory [97] 0, .counters [97] ⟨2, 0, 0, 0⟩] := by decide +kernel
  have htwo : (smallTree.processdir PATH_MAX smallItem).2.length = 2 := by decide +kernel
  have hlogs : (smallTree.processdir PATH_MAX smallItem).2.map
      (fun m => (smallTree.processdir PATH_MAX m).1) =
        [[.directory [97, 47, 98] 1, .counters [97, 47, 98] ⟨0, 0, 0, 0⟩],
          [.directory [97, 47, 99] 1, .counters [97, 47, 99] ⟨0, 0, 0, 0⟩]] := by decide +kernel
  have hqueues : (smallTree.processdir PATH_MAX smallItem).2.map
      (fun m => (smallTree.processdir PATH_MAX m).2.length) = [0, 0] := by decide +kernel
  have hlost : (smallTree.processdir PATH_MAX smallItem).2.all (fun child =>
      (smallTree.trips 1 child).all fun m => (smallTree.readItem m).isNone) = true := by
    decide +kernel
  obtain ⟨b, c, hchildren⟩ := List.length_eq_two.mp htwo
  rw [hchildren] at hlogs hqueues hlost
  rw [List.map_cons, List.cons.injEq] at hlogs hqueues
  have hfirst : smallTree.Processes 0 smallItem []
      ([.directory [97] 0, .counters [97] ⟨2, 0, 0, 0⟩], [b, c]) := by
    rw [Config.Processes, Config.trips]
    dsimp only
    rw [hroot, hchildren]
    rfl
  have hsecond : smallTree.Processes 0 b [.directory [97] 0, .counters [97] ⟨2, 0, 0, 0⟩]
      ([.directory [97] 0, .counters [97] ⟨2, 0, 0, 0⟩, .directory [97, 47, 98] 1,
        .counters [97, 47, 98] ⟨0, 0, 0, 0⟩], []) := by
    rw [Config.Processes, Config.trips]
    dsimp only
    rw [hlogs.1, List.eq_nil_of_length_eq_zero hqueues.1]
    rfl
  have hthird : ∀ log, smallTree.Processes 1 c log (log, []) := by
    intro log
    rw [List.all_cons, List.all_cons, Bool.and_eq_true, Bool.and_eq_true] at hlost
    rw [Config.Processes]
    cases htrips : smallTree.trips 1 c with
    | none => rfl
    | some m =>
        rw [htrips] at hlost
        dsimp only
        rw [processdir_of_none (Option.isNone_iff_eq_none.mp hlost.2.1), List.append_nil]
  refine ⟨smallTree_tree, _, ((Relation.ReflTransGen.single (anyStep_head [] hfirst)).tail
    (anyStep_head [c] hsecond)).tail (anyStep_head [] (hthird _)), fun h => ?_⟩
  have hsub : smallTree.InWalk [97] ([97, 47, 99], 1) :=
    .single ⟨_, smallDir 99, rfl, List.mem_cons_of_mem _ List.mem_cons_self, rfl, by decide, rfl⟩
  exact absurd ((h.directories [97, 47, 99] 1).1 hsub) (by decide)

end Main

end Gufi.Walk
