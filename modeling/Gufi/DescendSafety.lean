import Gufi.Descend

/-!
# A directory that changes while it is read

Every entry leads to at most one call, and what the calls for one entry return has no influence on
the others. Attributes that are gone are left out of the counters. Only the result of `readlink` is
used as an index as it is: it is out of range when the link is gone, or when the target is as long
as the buffer.
-/

namespace Gufi.Descend

open Swap

section Statement

inductive Kind
  | dir
  | link
  | file
  | other
deriving DecidableEq

def kindOfMode (mode : UInt32) : Kind :=
  if mode &&& S_IFMT = S_IFDIR then .dir
  else if mode &&& S_IFMT = S_IFLNK then .link
  else if mode &&& S_IFMT = S_IFREG then .file
  else .other

/-- The mode as far as it is reported, or that of `lstat`. -/
def Observed.mode (o : Observed) : Option UInt32 :=
  match o.dirent.type with
  | .dir => some S_IFDIR
  | .lnk => some S_IFLNK
  | .reg => some S_IFREG
  | .fifo | .sock | .chr | .blk => some 0
  | .unknown => o.lstat.map fun (st, _) => st.mode

variable (args : Arguments) (work : Named)

theorem skips_iff (d : Dirent) : skips args d = true ↔
    (d.name = [46] ∨ d.name = [46, 46] ∨ d.name ∈ (args.ins.skipFile.map fun line =>
      line.rdropWhile fun c => c = 13 ∨ c = 10).filter fun line => line ≠ []) ∨
      args.skipDb = true ∧ d.name = dbname := by
  rw [skips, Bool.or_eq_true, Bool.and_eq_true, beq_iff_eq, Input.skip, setupDirectorySkip,
    Trie.search_foldl_insert, Trie.search_insert, Trie.search_insert, Trie.search_alloc,
    or_iff_left Bool.false_ne_true, or_comm (b := d.name = [46, 46] ∨ d.name = [46]),
    or_comm (a := d.name = [46, 46]), or_assoc, or_assoc, or_assoc, or_assoc]

/-- What an entry is treated as, unless it is skipped. -/
def kindOf (o : Observed) : Option Kind :=
  if skips args o.dirent then none else o.mode.map kindOfMode

def IsSubdir (o : Observed) : Prop :=
  kindOf args o = some .dir ∧ work.work.level + 1 ≤ args.ins.maxLevel

def IsNondir (o : Observed) : Prop :=
  (kindOf args o = some .link ∨ kindOf args o = some .file) ∧
    args.ins.minLevel ≤ work.work.level

instance (o : Observed) : Decidable (IsSubdir args work o) := inferInstanceAs (Decidable (_ ∧ _))

instance (o : Observed) : Decidable (IsNondir args work o) := inferInstanceAs (Decidable (_ ∧ _))

/-- The data of a file or a link are its own. The counters are those of the attributes that are
there, which fit into their buffers. -/
structure EntryData.Describes (ed : EntryData) (o : Observed) : Prop where
  type : ed.type = if kindOf args o = some .link then 108 else 102
  linkname : kindOf args o = some .link → ∃ l, o.readlink = some l ∧
    ed.linkname.take (l.target.length + 1) = l.target ++ [0]
  xattrs : ∃ pairs, ed.xattrs.Filled pairs ed.xattrs.count ∧
    pairs = (if args.ins.processXattrs then
      o.listxattr.elim [] fun l => collected o.getxattr l.names 0 else []) ∧
    ∀ p ∈ pairs, p.name.length < MAXXATTR ∧ p.value.length ≤ MAXXATTR

/-- What an entry leads to: one call, or nothing if it is skipped, gone, or of another kind. -/
structure Handles (o : Observed) (calls : List Call) : Prop where
  subdir : IsSubdir args work o → args.processdir = true → ∃ child,
    childOf args work o = some child ∧
      (calls = [enqueueChild args child] ∨ calls = [processChild args work child])
  nondir : IsNondir args work o → args.processnondir = true → ∃ child ed,
    childOf args work o = some child ∧ calls = [.processnondir child ed] ∧ ed.Describes args o
  other : ¬(IsSubdir args work o ∧ args.processdir = true) →
    ¬(IsNondir args work o ∧ args.processnondir = true) → calls = []

/-- The loop is finished without an index that is out of range, and each entry is handled once. The
entries of a directory that is too deep are not read. -/
def FinishesSafely (entries : List Observed) : Prop :=
  ∃ calls ctrs, descend args work entries = some (calls, ctrs) ∧
    ∃ chunks, calls = chunks.flatten ∧ List.Forall₂ (Handles args work)
      (if work.work.level ≤ args.ins.maxLevel then entries else []) chunks

end Statement

section Entries

variable {args : Arguments} {work : Named} {o : Observed} {ctrs : Counters}

/-- The subdirectories beyond the limit have been processed on the spot. -/
def Counters.Insitu (args : Arguments) (ctrs : Counters) : Prop :=
  ctrs.dirsInsitu =
    if args.ins.subdirLimit = 0 then 0 else ctrs.dirs - args.ins.subdirLimit.toNat

/-- What an entry adds to the counters. -/
structure Counts (args : Arguments) (work : Named) (o : Observed) (ctrs ctrs' : Counters) :
    Prop where
  dirs : ctrs'.dirs = ctrs.dirs + if IsSubdir args work o then 1 else 0
  nondirs : ctrs'.nondirs = ctrs.nondirs + if IsNondir args work o then 1 else 0
  nondirsProcessed : ctrs'.nondirsProcessed =
    ctrs.nondirsProcessed + if IsNondir args work o ∧ args.processnondir = true then 1 else 0
  insitu : args.processdir = true → ctrs.Insitu args → ctrs'.Insitu args

theorem mode_trySkipLstat (entry : Dirent) (lstat : Option (Stat × Int64)) {w : Work}
    (hw : w.statCalled = 0) (hmode : w.statuso.mode = 0) :
    (trySkipLstat entry lstat w).map (fun w => w.statuso.mode) =
      (⟨entry, lstat, none, none, fun _ => none⟩ : Observed).mode := by
  rw [trySkipLstat, Observed.mode]
  cases entry.type with
  | unknown =>
      dsimp only
      rw [lstatWrapper, if_neg (not_not.mpr hw), Option.map_map]
      rfl
  | dir | lnk | reg => rfl
  | fifo | sock | chr | blk => exact congrArg some hmode

/-- Whether there is an item depends on its mode only. -/
theorem mode_childOf (args : Arguments) (work : Named) (o : Observed) :
    (childOf args work o).map (fun child => child.work.statuso.mode) = o.mode := by
  have hmode := @mode_trySkipLstat o.dirent o.lstat
    (newWorkWithName args.mem work.name o.dirent.name).work rfl rfl
  rw [childOf, Option.map_map]
  exact hmode

/-- The branches of the loop. -/
def descendKind (args : Arguments) (work : Named) (o : Observed) (child : Named)
    (ctrs : Counters) : Kind → Option (List Call × Counters)
  | .dir => some (descendDir args work child ctrs)
  | .link => (EntryData.readLink { zeroEntryData with parentFd := -1, type := 108 }
      o.readlink).bind fun ed => descendNondir args work o child ed ctrs
  | .file => descendNondir args work o child { zeroEntryData with parentFd := -1, type := 102 } ctrs
  | .other => some ([], ctrs)

theorem descendEntry_of_none (h : kindOf args o = none) :
    descendEntry args work o ctrs = some ([], ctrs) := by
  rw [kindOf] at h
  rw [descendEntry]
  split
  · rfl
  · rename_i hskip
    rw [if_neg hskip, ← mode_childOf args work o, Option.map_map, Option.map_eq_none_iff] at h
    rw [h]

theorem descendEntry_of_kind {k : Kind} (h : kindOf args o = some k) (work : Named)
    (ctrs : Counters) : ∃ child, childOf args work o = some child ∧
      descendEntry args work o ctrs = descendKind args work o child ctrs k := by
  rw [kindOf] at h
  split at h
  · cases h
  rename_i hskip
  rw [← mode_childOf args work o, Option.map_map, Option.map_eq_some_iff] at h
  obtain ⟨child, hchild, hkind⟩ := h
  refine ⟨child, hchild, ?_⟩
  rw [descendEntry, if_neg hskip, hchild]
  dsimp only
  rw [← hkind, Function.comp_apply, kindOfMode]
  split_ifs <;> rfl

theorem readLink_some (ed : EntryData) (l : LinkTarget) :
    ed.readLink (some l) =
      if 0 ≤ (l.target.length : ℤ) ∧
          (l.target.length : ℤ) < (l.target ++ ed.linkname.drop l.target.length).length then
        some { ed with
          linkname := (l.target ++ ed.linkname.drop l.target.length).set
            (l.target.length : ℤ).toNat 0 }
      else none :=
  rfl

theorem readLink_of_lt (ed : EntryData) (hed : ed.linkname.length = MAXPATH)
    {l : LinkTarget} (hl : l.target.length < MAXPATH) : ∃ linkname,
      ed.readLink (some l) = some { ed with linkname := linkname } ∧
        linkname.take (l.target.length + 1) = l.target ++ [0] := by
  have hdrop : 0 < (ed.linkname.drop l.target.length).length := by
    rw [List.length_drop, hed]
    exact Nat.sub_pos_of_lt hl
  obtain ⟨c, rest, hrest⟩ := List.exists_cons_of_length_pos hdrop
  refine ⟨l.target ++ 0 :: rest, ?_, ?_⟩
  · rw [readLink_some, hrest, if_pos, Int.toNat_natCast,
      List.set_append_right _ _ (Nat.le_refl _), Nat.sub_self, List.set_cons_zero]
    rw [List.length_append, List.length_cons]
    omega
  · rw [List.append_cons, List.take_left' (by rw [List.length_append, List.length_singleton])]

theorem readLink_eq_none {ed : EntryData} (hed : ed.linkname.length = MAXPATH)
    {readlink : Option LinkTarget}
    (h : ¬∃ l, readlink = some l ∧ l.target.length < MAXPATH) : ed.readLink readlink = none := by
  cases readlink with
  | none => rfl
  | some l =>
      have hfull : MAXPATH ≤ l.target.length := by
        by_contra hlt
        exact h ⟨l, rfl, Nat.lt_of_not_le hlt⟩
      have hlen : (l.target ++ ed.linkname.drop l.target.length).length = MAXPATH := by
        rw [List.length_append, List.length_drop, hed]
        exact Nat.add_sub_cancel' l.fits
      rw [readLink_some, hlen]
      exact if_neg fun hrange => absurd (Int.ofNat_lt.mp hrange.2) (Nat.not_lt_of_le hfull)

theorem fits_of_mem_collected {getxattr : ℕ → Option XattrValue} {names : List Bytes} {calls : ℕ}
    (hnames : ∀ name ∈ names, name.length < MAXXATTR) {p : Xattr}
    (hp : p ∈ collected getxattr names calls) :
    p.name.length < MAXXATTR ∧ p.value.length ≤ MAXXATTR := by
  induction names generalizing calls with
  | nil => cases hp
  | cons name names ih =>
      obtain ⟨hname, hnames⟩ := List.forall_mem_cons.mp hnames
      rw [collected] at hp
      split at hp
      · split at hp
        · rename_i v _
          obtain rfl | hp := List.mem_cons.mp hp
          · exact ⟨hname, v.fits⟩
          · exact ih hnames hp
        · exact ih hnames hp
      · exact ih hnames hp

end Entries

section Branches

variable {args : Arguments} {work : Named} {o : Observed} {ctrs : Counters}

/-- Nothing is called for an entry that is neither. -/
theorem handles_nil (hsubdir : ¬(IsSubdir args work o ∧ args.processdir = true))
    (hnondir : ¬(IsNondir args work o ∧ args.processnondir = true)) :
    Handles args work o [] where
  subdir h hp := absurd ⟨h, hp⟩ hsubdir
  nondir h hp := absurd ⟨h, hp⟩ hnondir
  other _ _ := rfl

theorem counts_nil (hsubdir : ¬IsSubdir args work o) (hnondir : ¬IsNondir args work o) :
    Counts args work o ctrs ctrs where
  dirs := by rw [if_neg hsubdir, Nat.add_zero]
  nondirs := by rw [if_neg hnondir, Nat.add_zero]
  nondirsProcessed := by rw [if_neg fun h => hnondir h.1, Nat.add_zero]
  insitu _ h := h

theorem descendDir_handles (h : kindOf args o = some .dir) {child : Named}
    (hchild : childOf args work o = some child) :
    Handles args work o (descendDir args work child ctrs).1 ∧
      Counts args work o ctrs (descendDir args work child ctrs).2 := by
  have hnondir : ¬IsNondir args work o := by
    rintro ⟨hk | hk, -⟩
    all_goals cases h.symm.trans hk
  have hnot : ¬(IsNondir args work o ∧ args.processnondir = true) := fun h => hnondir h.1
  rw [descendDir]
  split
  · rename_i hlevel
    have hsubdir : IsSubdir args work o := ⟨h, hlevel⟩
    have hcounts : ∀ insitu, (args.processdir = true → ctrs.Insitu args →
          Counters.Insitu args { ctrs with dirsInsitu := insitu, dirs := ctrs.dirs + 1 }) →
        Counts args work o ctrs { ctrs with dirsInsitu := insitu, dirs := ctrs.dirs + 1 } := by
      intro insitu hinsitu
      refine ⟨?_, ?_, ?_, hinsitu⟩
      · rw [if_pos hsubdir]
      · rw [if_neg hnondir]
        rfl
      · rw [if_neg hnot]
        rfl
    split
    · rename_i hprocessdir
      have hone : ∀ call, call = enqueueChild args child ∨ call = processChild args work child →
          Handles args work o [call] := by
        intro call hcall
        refine ⟨fun _ _ => ⟨child, hchild, ?_⟩, fun h => absurd h hnondir,
          fun h => absurd ⟨hsubdir, hprocessdir⟩ h⟩
        exact hcall.imp (congrArg fun call => [call]) (congrArg fun call => [call])
      split
      · rename_i hlimit
        refine ⟨hone _ (.inl rfl), hcounts _ fun _ h => ?_⟩
        rw [Counters.Insitu] at h ⊢
        split_ifs at h ⊢ with hzero
        · exact h
        · have hlt := hlimit.resolve_left hzero
          dsimp only at h ⊢
          omega
      · rename_i hlimit
        refine ⟨hone _ (.inr rfl), hcounts _ fun _ h => ?_⟩
        obtain ⟨hzero, hle⟩ := not_or.mp hlimit
        rw [Counters.Insitu, if_neg hzero] at h ⊢
        dsimp only at h ⊢
        omega
    · rename_i hprocessdir
      exact ⟨handles_nil (fun h => hprocessdir h.2) hnot, hcounts _ fun h => absurd h hprocessdir⟩
  · rename_i hlevel
    have hsubdir : ¬IsSubdir args work o := fun h => hlevel h.2
    exact ⟨handles_nil (fun h => hsubdir h.1) hnot, counts_nil hsubdir hnondir⟩

/-- The attributes of an entry, or none if they are not asked for. -/
theorem xattrs_filled (args : Arguments) (o : Observed) : ∃ x,
    (if args.ins.processXattrs then xattrsGet o.listxattr o.getxattr xattrsSetup
      else some xattrsSetup) = some x ∧
    ∃ pairs, x.Filled pairs x.count ∧
      pairs = (if args.ins.processXattrs then
        o.listxattr.elim [] fun l => collected o.getxattr l.names 0 else []) ∧
      ∀ p ∈ pairs, p.name.length < MAXXATTR ∧ p.value.length ≤ MAXXATTR := by
  split
  · obtain ⟨x, hx, hfilled⟩ := xattrsGet_eq o.listxattr o.getxattr
    refine ⟨x, hx, _, hfilled, rfl, ?_⟩
    intro p hp
    cases hlist : o.listxattr with
    | none =>
        rw [hlist] at hp
        cases hp
    | some l =>
        rw [hlist] at hp
        exact fits_of_mem_collected (fun name hname => l.length_lt hname) hp
  · exact ⟨_, rfl, [], ⟨rfl, rfl, rfl, rfl⟩, rfl, nofun⟩

theorem descendNondir_handles (h : kindOf args o = some .link ∨ kindOf args o = some .file)
    {child : Named} (hchild : childOf args work o = some child) {ed : EntryData}
    (htype : ed.type = if kindOf args o = some .link then 108 else 102)
    (hlinkname : kindOf args o = some .link → ∃ l, o.readlink = some l ∧
      ed.linkname.take (l.target.length + 1) = l.target ++ [0])
    (hxattrs : ed.xattrs = xattrsSetup) (ctrs : Counters) :
    ∃ calls ctrs', descendNondir args work o child ed ctrs = some (calls, ctrs') ∧
      Handles args work o calls ∧ Counts args work o ctrs ctrs' := by
  have hsubdir : ¬IsSubdir args work o := by
    rintro ⟨hdir, -⟩
    obtain hk | hk := h
    all_goals cases hdir.symm.trans hk
  have hnot : ¬(IsSubdir args work o ∧ args.processdir = true) := fun h => hsubdir h.1
  rw [descendNondir]
  split
  · rename_i hlevel
    have hnondir : IsNondir args work o := ⟨h, hlevel⟩
    dsimp only
    split
    · rename_i hprocess
      obtain ⟨x, hx, hfilled⟩ := xattrs_filled args o
      rw [hxattrs, hx, Option.map_some]
      refine ⟨_, _, rfl, ⟨fun h => absurd h hsubdir, fun _ _ => ?_, fun _ h => ?_⟩,
        ?_, ?_, ?_, fun _ h => h⟩
      · exact ⟨child, _, hchild, rfl, htype, hlinkname, hfilled⟩
      · exact absurd ⟨hnondir, hprocess⟩ h
      · rw [if_neg hsubdir]
        rfl
      · rw [if_pos hnondir]
      · rw [if_pos ⟨hnondir, hprocess⟩]
    · rename_i hprocess
      have hboth : ¬(IsNondir args work o ∧ args.processnondir = true) := fun h => hprocess h.2
      refine ⟨_, _, rfl, handles_nil hnot hboth, ?_, ?_, ?_, fun _ h => h⟩
      · rw [if_neg hsubdir]
        rfl
      · rw [if_pos hnondir]
      · rw [if_neg hboth]
        rfl
  · rename_i hlevel
    have hnondir : ¬IsNondir args work o := fun h => hlevel h.2
    exact ⟨_, _, rfl, handles_nil hnot fun h => hnondir h.1, counts_nil hsubdir hnondir⟩

/-- The link of an entry can be read, and its target is shorter than the buffer. -/
def Observed.LinkFits (args : Arguments) (o : Observed) : Prop :=
  kindOf args o = some .link → ∃ l, o.readlink = some l ∧ l.target.length < MAXPATH

theorem descendEntry_handles (work : Named) (h : o.LinkFits args) (ctrs : Counters) :
    ∃ calls ctrs', descendEntry args work o ctrs = some (calls, ctrs') ∧
      Handles args work o calls ∧ Counts args work o ctrs ctrs' := by
  have hignored : (kindOf args o = none ∨ kindOf args o = some .other) →
      Handles args work o [] ∧ Counts args work o ctrs ctrs := by
    intro hk
    have hsubdir : ¬IsSubdir args work o := by
      rintro ⟨hdir, -⟩
      simp [hdir] at hk
    have hnondir : ¬IsNondir args work o := by
      rintro ⟨hk' | hk', -⟩
      all_goals simp [hk'] at hk
    exact ⟨handles_nil (fun h => hsubdir h.1) fun h => hnondir h.1, counts_nil hsubdir hnondir⟩
  cases hkind : kindOf args o with
  | none => exact ⟨_, _, descendEntry_of_none hkind, hignored (.inl hkind)⟩
  | some k =>
      obtain ⟨child, hchild, hentry⟩ := descendEntry_of_kind hkind work ctrs
      rw [hentry]
      cases k with
      | other => exact ⟨_, _, rfl, hignored (.inr hkind)⟩
      | dir => exact ⟨_, _, rfl, descendDir_handles hkind hchild⟩
      | file =>
          have hlink : ¬kindOf args o = some .link := by simp [hkind]
          rw [descendKind]
          exact descendNondir_handles (.inr hkind) hchild (if_neg hlink).symm
            (fun h => absurd h hlink) rfl ctrs
      | link =>
          obtain ⟨l, hl, hlt⟩ := h hkind
          obtain ⟨linkname, hread, htake⟩ := readLink_of_lt
            { zeroEntryData with parentFd := -1, type := 108 } List.length_replicate hlt
          rw [descendKind, hl, hread, Option.bind_some]
          exact descendNondir_handles (.inl hkind) hchild (if_pos hkind).symm
            (fun _ => ⟨l, hl, htake⟩) rfl ctrs

/-- Counters of a directory after all of its entries. -/
theorem descendLoop_handles (work : Named) {entries : List Observed}
    (h : ∀ o ∈ entries, o.LinkFits args) (ctrs : Counters) : ∃ chunks ctrs',
      descendLoop args work entries ctrs = some (chunks.flatten, ctrs') ∧
      List.Forall₂ (Handles args work) entries chunks ∧
      ctrs'.dirs = ctrs.dirs + entries.countP (fun o => decide (IsSubdir args work o)) ∧
      ctrs'.nondirs = ctrs.nondirs + entries.countP (fun o => decide (IsNondir args work o)) ∧
      ctrs'.nondirsProcessed = ctrs.nondirsProcessed + entries.countP (fun o =>
        decide (IsNondir args work o ∧ args.processnondir = true)) ∧
      (args.processdir = true → ctrs.Insitu args → ctrs'.Insitu args) := by
  induction entries generalizing ctrs with
  | nil => exact ⟨[], ctrs, rfl, .nil, rfl, rfl, rfl, fun _ h => h⟩
  | cons o entries ih =>
      obtain ⟨ho, hentries⟩ := List.forall_mem_cons.mp h
      obtain ⟨calls, ctrs₁, hentry, hhandles, hcounts⟩ :=
        descendEntry_handles work ho ctrs
      obtain ⟨chunks, ctrs₂, hloop, hall, hdirs, hnondirs, hprocessed, hinsitu⟩ :=
        ih hentries ctrs₁
      refine ⟨calls :: chunks, ctrs₂, ?_, .cons hhandles hall, ?_, ?_, ?_,
        fun hp h => hinsitu hp (hcounts.insitu hp h)⟩
      · rw [descendLoop, hentry, Option.bind_some]
        dsimp only
        rw [hloop]
        rfl
      · rw [hdirs, hcounts.dirs, List.countP_cons]
        simp only [decide_eq_true_eq]
        omega
      · rw [hnondirs, hcounts.nondirs, List.countP_cons]
        simp only [decide_eq_true_eq]
        omega
      · rw [hprocessed, hcounts.nondirsProcessed, List.countP_cons]
        simp only [decide_eq_true_eq]
        omega

theorem linkFits_of_descendEntry {r : List Call × Counters}
    (h : descendEntry args work o ctrs = some r) : o.LinkFits args := by
  intro hkind
  obtain ⟨child, hchild, hentry⟩ := descendEntry_of_kind hkind work ctrs
  rw [hentry, descendKind] at h
  by_contra hnot
  rw [readLink_eq_none List.length_replicate hnot] at h
  cases h

theorem linkFits_of_descendLoop {entries : List Observed} {ctrs : Counters}
    {r : List Call × Counters} (h : descendLoop args work entries ctrs = some r) :
    ∀ o ∈ entries, o.LinkFits args := by
  induction entries generalizing ctrs r with
  | nil => nofun
  | cons o entries ih =>
      obtain ⟨⟨calls, ctrs₁⟩, hentry, hrest⟩ := Option.bind_eq_some_iff.mp h
      obtain ⟨r', hloop, -⟩ := Option.map_eq_some_iff.mp hrest
      exact List.forall_mem_cons.mpr ⟨linkFits_of_descendEntry hentry, ih hloop⟩

end Branches

section Main

/-- The directory is gone over safely exactly when each link in it can be read, with a target that
is shorter than the buffer. -/
theorem finishesSafely_iff (args : Arguments) (work : Named) (entries : List Observed) :
    FinishesSafely args work entries ↔
      (work.work.level ≤ args.ins.maxLevel → ∀ o ∈ entries, kindOf args o = some .link →
        ∃ l, o.readlink = some l ∧ l.target.length < MAXPATH) := by
  constructor
  · rintro ⟨calls, ctrs, hdescend, -⟩ hlevel
    rw [descend, if_pos hlevel] at hdescend
    exact linkFits_of_descendLoop hdescend
  · intro h
    by_cases hlevel : work.work.level ≤ args.ins.maxLevel
    · obtain ⟨chunks, ctrs, hloop, hall, -⟩ :=
        descendLoop_handles work (h hlevel) ⟨0, 0, 0, 0⟩
      refine ⟨chunks.flatten, ctrs, ?_, chunks, rfl, ?_⟩
      · rw [descend, if_pos hlevel, hloop]
      · rwa [if_pos hlevel]
    · refine ⟨[], ⟨0, 0, 0, 0⟩, ?_, [], rfl, ?_⟩
      · rw [descend, if_neg hlevel]
      · rw [if_neg hlevel]
        exact .nil

/-- `readdir` has returned a link that is gone when it is read. -/
def lostLink : Observed where
  dirent := ⟨1, .lnk, [108]⟩
  lstat := none
  readlink := none
  listxattr := none
  getxattr _ := none

/-- The options of an index with extended attributes. -/
def indexArguments : Arguments where
  ins := ⟨0, UInt64.ofNat (2 ^ 64 - 1), 0, false, true, []⟩
  mem := ⟨⟨fun _ _ => none, fun _ _ => none⟩, lastBlocks, lastBlocks, lastBlocks⟩
  dFd := 3
  skipDb := true
  wrapDir := none
  processdir := true
  processnondir := true

/-- The NUL is put before the buffer. -/
theorem not_finishesSafely :
    ¬FinishesSafely indexArguments ⟨zeroWork, [47]⟩ [lostLink] := by
  rintro ⟨calls, ctrs, hdescend, -⟩
  have hnone : descend indexArguments ⟨zeroWork, [47]⟩ [lostLink] = none := by rfl
  rw [hnone] at hdescend
  cases hdescend

end Main

end Gufi.Descend
