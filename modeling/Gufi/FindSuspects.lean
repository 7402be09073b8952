import Gufi.Suspects
import Gufi.WalkOnce

/-!
# Finding suspects

`processdir` of `gufi_incremental_update` marks a directory as suspect if `is_suspect` says so for
the directory or, with some methods, for one of its files or links. The directories that `descend`
enqueues are processed in any order.
-/

namespace Gufi.Suspects

open Descend Swap Walk

section Program

/-- The options and the list of suspects, and what the calls for the source tree return. -/
structure Scan where
  method : Int32
  stat : Bool
  time : Int32
  suspectFile : List SuspectLine
  compress : Bool
  processXattrs : Bool
  mem : Memory
  dFd : ℤ
  opendir : Bytes → Option (List Observed)
  lstat : Bytes → Option (Stat × Int64)

variable (scan : Scan)

def Scan.suspects : SuspectLists := setupSuspectFile scan.suspectFile

/-- There are no options for levels and names to skip. Work items are not written to swap files. -/
def Scan.config : Walk.Config where
  ins := ⟨0, UInt64.ofNat (2 ^ 64 - 1), 0, scan.compress, scan.processXattrs, []⟩
  skipDb := false
  mem := scan.mem
  decompressed := scan.mem.malloc
  deserialized := scan.mem.malloc
  func := 0
  dFd := scan.dFd
  opendir := scan.opendir
  lstat := scan.lstat

/-- The arguments of `descend`. `wrap_work` keeps the pointer to an item. Files and links are looked
at with methods above 1. -/
def Scan.arguments : Arguments :=
  { scan.config.arguments 0 with wrapDir := some id, processnondir := 1 < scan.method }

/-- Also sets what `lstat` returns. -/
def compareSuspectTime (time : Int32) (lstat : Option (Stat × Int64)) (work : Work) :
    Bool × Work :=
  match lstatWrapper lstat work with
  | none => (true, work) -- something broke - try to reindex
  | some work =>
      (work.statuso.ctim.sec ≥ time.toInt64 || work.statuso.mtim.sec ≥ time.toInt64, work)

def isSuspect (method : Int32) (suspectinodes : SuspectInodes) (stat : Bool) (time : Int32)
    (lstat : Option (Stat × Int64)) (work : Work) : Bool × Work :=
  if method = 1 then
    let found := findInode suspectinodes work.statuso.ino
    if found && stat then compareSuspectTime time lstat work else (found, work)
  else if method = 3 then compareSuspectTime time lstat work
  else (false, work)

/-- The mark of the directory after a file or a link, which may have a mark of its own. -/
def Scan.processNondir (suspect edSuspect : Bool) (nondir : Named) : Bool :=
  if edSuspect = false then
    suspect || (isSuspect scan.method scan.suspects.fl scan.stat scan.time
      (scan.lstat nondir.name) nondir.work).1
  else suspect

/-- What a call of `descend` comes to: the mark, and what is enqueued. All subdirectories are, since
there is no limit. The data of a file or a link are zero at first. -/
def Scan.call (r : Bool × List Mem) : Call → Bool × List Mem
  | .enqueue work | .enqueueSwappable work | .processdir work => (r.1, r.2 ++ [work])
  | .processnondir nondir _ => (scan.processNondir r.1 false nondir, r.2)

/-- The item of a directory, which is not compressed. -/
def loadItem (block : Mem) : Option Named :=
  (block.load Work.layout).bind fun work =>
    (block.read work.name work.nameLen.toNat).map fun name => ⟨work, name⟩

/-- The mark of a directory that can be opened, and its subdirectories. -/
def Scan.processdir (item : Named) : Option ((Bytes × Bool) × List Mem) :=
  (scan.opendir item.name).bind fun entries =>
    let (suspect, work) := isSuspect scan.method scan.suspects.dir scan.stat scan.time
      (scan.lstat item.name) item.work
    (descend scan.arguments ⟨work, item.name⟩ entries).map fun (calls, _) =>
      let (suspect, items) := calls.foldl scan.call (suspect, [])
      ((item.name, suspect), items)

/-- The marks so far, and what is enqueued. -/
def Scan.process (block : Mem) (log : List (Bytes × Bool)) : List (Bytes × Bool) × List Mem :=
  match (loadItem block).bind scan.processdir with
  | none => (log, [])
  | some (mark, items) => (log ++ [mark], items)

end Program

section Statement

variable (scan : Scan)

/-- A directory and one in it. -/
def Scan.Subdir (path path' : Bytes) : Prop :=
  ∃ entries o, scan.opendir path = some entries ∧ o ∈ entries ∧
    scan.config.kind o = some .dir ∧ path' = path ++ 47 :: o.dirent.name

def Scan.InTree (root path : Bytes) : Prop := Relation.ReflTransGen scan.Subdir root path

/-- A tree that does not change and in which all calls succeed, and the item of its root, for which
`lstat` has been called. -/
structure Scan.Tree (root : Named) : Prop where
  succeeds : ∀ path, scan.InTree root.name path → ∃ entries, scan.config.Succeeds path entries
  lstat : ∀ path entries, scan.InTree root.name path → scan.opendir path = some entries →
    ∀ o ∈ entries, o.lstat = scan.lstat (path ++ 47 :: o.dirent.name)
  ino : ∀ path entries, scan.InTree root.name path → scan.opendir path = some entries →
    ∀ o ∈ entries, ∀ st ∈ o.lstat, o.dirent.ino = st.1.ino
  notEmpty : root.name ≠ []
  item : loadItem (root.block scan.mem) = some root
  called : root.work.statCalled ≠ 0
  stat : scan.lstat root.name = some (root.work.statuso, root.work.crtime)

/-- The change or modification time is at or after the given time. -/
def Scan.Newer (st : Stat) : Prop :=
  scan.time.toInt64 ≤ st.ctim.sec ∨ scan.time.toInt64 ≤ st.mtim.sec

/-- An entry of one of the types is listed, and is new if the option is set; with method 3 it just
is new. -/
def Scan.Suspicious (types : List UInt8) (st : Stat) : Prop :=
  scan.method = 1 ∧ Listed scan.suspectFile types st.ino ∧ (scan.stat = true → scan.Newer st) ∨
    scan.method = 3 ∧ scan.Newer st

/-- A file or a link in the directory. -/
def Scan.HasNondir (path : Bytes) (st : Stat) : Prop :=
  ∃ entries o crtime, scan.opendir path = some entries ∧ o ∈ entries ∧
    (scan.config.kind o = some .link ∨ scan.config.kind o = some .file) ∧
      o.lstat = some (st, crtime)

/-- The directory itself is suspicious. -/
def Scan.DirSuspicious (path : Bytes) : Prop :=
  ∃ st crtime, scan.lstat path = some (st, crtime) ∧ scan.Suspicious [100] st

/-- Which directories should be marked. -/
def Scan.ShouldMark (path : Bytes) : Prop :=
  scan.DirSuspicious path ∨ ∃ st, scan.HasNondir path st ∧ scan.Suspicious [102, 108] st

/-- Each directory of the tree has its mark. -/
def Scan.MarksExactly (root : Bytes) (log : List (Bytes × Bool)) : Prop :=
  ∀ path suspect, (path, suspect) ∈ log ↔
    scan.InTree root path ∧ (suspect = true ↔ scan.ShouldMark path)

/-- The inode of the directory itself is in the list as `printf` writes it. -/
def Scan.DirListedPlainly (path : Bytes) : Prop :=
  ∃ st crtime, scan.lstat path = some (st, crtime) ∧
    ListedPlainly scan.suspectFile [100] st.ino

end Statement

section Marking

variable {scan : Scan} {st : Stat} {work : Work} {lstat : Option (Stat × Int64)}

/-- What is known of an entry before `is_suspect` is called for it. -/
structure Reads (lstat : Option (Stat × Int64)) (work : Work) (st : Stat) : Prop where
  ino : work.statuso.ino = st.ino
  called : work.statCalled ≠ 0 → work.statuso = st
  lstat : ∃ crtime, lstat = some (st, crtime)

/-- What `is_suspect` looks for. -/
def Scan.Found (scan : Scan) (types : List UInt8) (st : Stat) : Prop :=
  scan.method = 1 ∧ ListedPlainly scan.suspectFile types st.ino ∧
      (scan.stat = true → scan.Newer st) ∨
    scan.method = 3 ∧ scan.Newer st

theorem compareSuspectTime_iff (h : Reads lstat work st) :
    (compareSuspectTime scan.time lstat work).1 = true ↔ scan.Newer st := by
  obtain ⟨crtime, hlstat⟩ := h.lstat
  obtain ⟨w, hw, hst⟩ : ∃ w, lstatWrapper lstat work = some w ∧ w.statuso = st := by
    rw [lstatWrapper, hlstat]
    split_ifs with hcalled
    · exact ⟨_, rfl, h.called hcalled⟩
    · exact ⟨_, rfl, rfl⟩
  rw [compareSuspectTime, hw]
  dsimp only
  rw [hst, Bool.or_eq_true, decide_eq_true_iff, decide_eq_true_iff]
  rfl

theorem isSuspect_iff (h : Reads lstat work st) {inodes : SuspectInodes} {types : List UInt8}
    (hinodes : inodes.Has scan.suspectFile types) :
    (isSuspect scan.method inodes scan.stat scan.time lstat work).1 = true ↔
      scan.Found types st := by
  rw [isSuspect, Scan.Found, ← compareSuspectTime_iff h, ← findInode_iff hinodes, h.ino]
  by_cases hone : scan.method = 1
  · have hthree : ¬scan.method = 3 := by rw [hone]; decide
    rw [if_pos hone, and_iff_right hone, or_iff_left fun h => hthree h.1]
    cases findInode inodes st.ino <;> cases scan.stat <;> simp
  · rw [if_neg hone, or_iff_right fun h => hone h.1]
    by_cases hthree : scan.method = 3
    · rw [if_pos hthree, and_iff_right hthree]
    · rw [if_neg hthree]
      exact iff_of_false Bool.false_ne_true fun h => hthree h.1

/-- Nothing is missed when the times are compared with no list. -/
theorem found_iff_suspicious (hmethod : scan.method = 3) (types : List UInt8) :
    scan.Found types st ↔ scan.Suspicious types st := by
  simp [Scan.Found, Scan.Suspicious, hmethod]

end Marking

section Items

variable {scan : Scan} {root work child : Named} {o : Observed} {args : Arguments} {st : Stat}

theorem reads_childOf (h : childOf args work o = some child) {crtime : Int64}
    (hlstat : o.lstat = some (st, crtime)) (hino : o.dirent.ino = st.ino) :
    Reads o.lstat child.work st := by
  obtain ⟨w, hw, rfl⟩ := Option.map_eq_some_iff.mp h
  rw [trySkipLstat, hlstat] at hw
  cases htype : o.dirent.type with
  | unknown =>
      rw [htype] at hw
      cases hw
      exact ⟨rfl, fun _ => rfl, crtime, hlstat⟩
  | _ =>
      -- only the inode is known, from the directory
      rw [htype] at hw
      cases hw
      exact ⟨hino, fun hcalled => absurd rfl hcalled, crtime, hlstat⟩

/-- An item with its pointer to the name behind it is read back as it is. -/
theorem loadItem_block {mem : Memory} {w : Named}
    (hname : w.work.name = (w.block mem).addr + UInt64.ofNat Work.layout.size)
    (hlen : w.work.nameLen.toNat = w.name.length) : loadItem (w.block mem) = some w := by
  have hload : (w.block mem).load Work.layout = some w.work := by
    rw [Mem.load, Named.block, Malloc.filled, Named.bytes, ObjectLayout.Layout.read_encode,
      Option.map_some]
  have hread : (w.block mem).read w.work.name w.work.nameLen.toNat = some w.name := by
    rw [Mem.read_eq_some_iff hlen.symm, hname, Mem.tail_add _ (by decide), hlen, Named.block,
      Malloc.filled, Named.bytes, List.append_assoc, List.append_assoc,
      List.drop_left' (Work.layout.length_encode _), List.take_left' rfl]
  rw [loadItem, hload, Option.bind_some, hread, Option.map_some]

/-- So is the item of an entry, also when something else in it has been set. -/
theorem loadItem_childOf (hne : work.name ≠ []) (h : childOf args work o = some child)
    (hshort : child.name.length < PATH_MAX) {w : Named} (hname : w.name = child.name)
    (hptr : w.work.name = child.work.name) (hlen : w.work.nameLen = child.work.nameLen) :
    loadItem (w.block args.mem) = some w := by
  obtain ⟨hcname, -, hclen, -⟩ := childOf_eq_some hne h
  have htotal : w.bytes.length =
      Work.layout.size + (work.name.length + 1 + o.dirent.name.length) + 1 := by
    rw [Named.bytes, List.length_append, List.length_append, Work.layout.length_encode, hname,
      hcname, List.length_append, List.length_cons, List.length_singleton]
    omega
  refine loadItem_block ?_ ?_
  · rw [hptr, Named.block, htotal]
    obtain ⟨w', hw', rfl⟩ := Option.map_eq_some_iff.mp h
    exact (trySkipLstat_keeps hw').1
  · rw [hlen, hclen, hname, UInt64.toNat_ofNat_of_lt']
    exact hshort.trans (by decide)

end Items

section Calls

variable {scan : Scan} {root work : Named} {o : Observed} {path : Bytes} {entries : List Observed}

/-- The call is for a file or a link that `is_suspect` finds. -/
def Scan.findsNondir (scan : Scan) : Call → Bool
  | .processnondir nondir _ => (isSuspect scan.method scan.suspects.fl scan.stat scan.time
      (scan.lstat nondir.name) nondir.work).1
  | _ => false

def enqueued : Call → Option Mem
  | .enqueue work | .enqueueSwappable work | .processdir work => some work
  | .processnondir .. => none

theorem foldl_call (calls : List Call) (r : Bool × List Mem) :
    calls.foldl scan.call r =
      (r.1 || calls.any scan.findsNondir, r.2 ++ calls.filterMap enqueued) := by
  induction calls generalizing r with
  | nil => simp
  | cons call calls ih =>
      rw [List.foldl_cons, ih, List.any_cons]
      cases call with
      | processnondir nondir ed =>
          rw [List.filterMap_cons_none rfl]
          simp only [Scan.call, Scan.processNondir, if_true, Scan.findsNondir, Bool.or_assoc]
      | enqueue block | enqueueSwappable block | processdir block =>
          simp [Scan.call, Scan.findsNondir, enqueued]

theorem mem_flatten_of_forall₂ {R : Observed → List Call → Prop} {chunks : List (List Call)}
    (h : List.Forall₂ R entries chunks) :
    (∀ call ∈ chunks.flatten, ∃ o ∈ entries, ∃ calls, R o calls ∧ call ∈ calls) ∧
      ∀ o ∈ entries, ∃ calls, R o calls ∧ ∀ call ∈ calls, call ∈ chunks.flatten := by
  induction h with
  | nil => exact ⟨nofun, nofun⟩
  | @cons o calls entries chunks hR _ ih =>
      constructor
      · intro call hcall
        rw [List.flatten_cons, List.mem_append] at hcall
        rcases hcall with hcall | hcall
        · exact ⟨o, List.mem_cons_self, calls, hR, hcall⟩
        · obtain ⟨o', ho', hrest⟩ := ih.1 call hcall
          exact ⟨o', List.mem_cons_of_mem _ ho', hrest⟩
      · intro o' ho'
        rcases List.mem_cons.mp ho' with rfl | ho'
        · exact ⟨calls, hR, fun call hcall => List.mem_append_left _ hcall⟩
        · obtain ⟨calls', hR', hsub⟩ := ih.2 o' ho'
          exact ⟨calls', hR', fun call hcall => List.mem_append_right _ (hsub call hcall)⟩

theorem kindOf_arguments (hs : scan.config.Succeeds path entries) (ho : o ∈ entries) :
    kindOf scan.arguments o = scan.config.kind o :=
  kindOf_eq hs ho 0

theorem isSubdir_arguments (hs : scan.config.Succeeds path entries) (ho : o ∈ entries) :
    IsSubdir scan.arguments work o ↔ scan.config.kind o = some .dir := by
  rw [IsSubdir, kindOf_arguments hs ho]
  refine and_iff_left (UInt64.le_iff_toNat_le.mpr ?_)
  exact Nat.le_sub_one_of_lt (work.work.level + 1).toNat_lt

theorem isNondir_arguments (hs : scan.config.Succeeds path entries) (ho : o ∈ entries) :
    IsNondir scan.arguments work o ↔
      scan.config.kind o = some .link ∨ scan.config.kind o = some .file := by
  rw [IsNondir, kindOf_arguments hs ho]
  exact and_iff_left (UInt64.le_iff_toNat_le.mpr (Nat.zero_le _))

theorem descend_arguments (hs : scan.config.Succeeds path entries) (work : Named) :
    ∃ chunks ctrs, descend scan.arguments work entries = some (chunks.flatten, ctrs) ∧
      List.Forall₂ (Handles scan.arguments work) entries chunks := by
  obtain ⟨chunks, ctrs, hloop, hall, -⟩ :=
    @descendLoop_handles scan.arguments work _ (linkFits_of_succeeds hs 0) ⟨0, 0, 0, 0⟩
  refine ⟨chunks, ctrs, ?_, hall⟩
  rw [descend, if_pos (UInt64.le_iff_toNat_le.mpr (Nat.le_sub_one_of_lt work.work.level.toNat_lt)),
    hloop]

end Calls

section Directory

variable {scan : Scan} {root : Named} {path : Bytes}

/-- What the code marks. -/
def Scan.Marked (scan : Scan) (path : Bytes) : Prop :=
  (∃ st crtime, scan.lstat path = some (st, crtime) ∧ scan.Found [100] st) ∨
    1 < scan.method ∧ ∃ st, scan.HasNondir path st ∧ scan.Found [102, 108] st

/-- The block has the item of a directory of the tree. -/
structure Scan.ItemAt (scan : Scan) (root path : Bytes) (block : Mem) : Prop where
  inTree : scan.InTree root path
  item : ∃ item st, loadItem block = some item ∧ item.name = path ∧
    Reads (scan.lstat path) item.work st

theorem Scan.Tree.ne_nil (htree : scan.Tree root) (h : scan.InTree root.name path) :
    path ≠ [] := by
  induction h with
  | refl => exact htree.notEmpty
  | tail _ hsub _ =>
      obtain ⟨entries, o, -, -, -, rfl⟩ := hsub
      simp

/-- `opendir` returns the entries for which all calls succeed. -/
theorem Scan.Tree.exists_entries (htree : scan.Tree root) (h : scan.InTree root.name path) :
    ∃ entries, scan.opendir path = some entries ∧ scan.config.Succeeds path entries := by
  obtain ⟨entries, hs⟩ := htree.succeeds path h
  exact ⟨entries, hs.opendir, hs⟩

variable {entries : List Observed} {o : Observed} {work child : Named}

theorem Scan.Tree.reads_child (htree : scan.Tree root) (h : scan.InTree root.name path)
    (hs : scan.config.Succeeds path entries) (ho : o ∈ entries) (hname : work.name = path)
    (hchild : childOf scan.arguments work o = some child) :
    child.name = path ++ 47 :: o.dirent.name ∧ ∃ st crtime, o.lstat = some (st, crtime) ∧
      Reads (scan.lstat child.name) child.work st := by
  have hcname := (childOf_eq_some (hname ▸ htree.ne_nil h) hchild).1
  rw [hname] at hcname
  obtain ⟨st, crtime, hlstat, -⟩ := hs.entries o ho
  refine ⟨hcname, st, crtime, hlstat, ?_⟩
  rw [hcname, ← htree.lstat path entries h hs.opendir o ho]
  exact reads_childOf hchild hlstat (htree.ino path entries h hs.opendir o ho _ hlstat)

/-- The files and links that are found among the calls. -/
theorem Scan.Tree.any_findsNondir (htree : scan.Tree root) (h : scan.InTree root.name path)
    (hs : scan.config.Succeeds path entries) (hname : work.name = path)
    {chunks : List (List Call)}
    (hall : List.Forall₂ (Handles scan.arguments work) entries chunks) :
    chunks.flatten.any scan.findsNondir = true ↔
      1 < scan.method ∧ ∃ st, scan.HasNondir path st ∧ scan.Found [102, 108] st := by
  obtain ⟨hback, hforth⟩ := mem_flatten_of_forall₂ hall
  rw [List.any_eq_true]
  constructor
  · rintro ⟨call, hcall, hfinds⟩
    obtain ⟨o, ho, calls, hhandles, hcall⟩ := hback call hcall
    by_cases hnon : IsNondir scan.arguments work o ∧ scan.arguments.processnondir = true
    · obtain ⟨child, ed, hchild, rfl, -⟩ := hhandles.nondir hnon.1 hnon.2
      obtain rfl := List.mem_singleton.mp hcall
      obtain ⟨-, st, crtime, hlstat, hreads⟩ := htree.reads_child h hs ho hname hchild
      refine ⟨of_decide_eq_true hnon.2, st, ⟨entries, o, crtime, hs.opendir, ho, ?_, hlstat⟩, ?_⟩
      · exact (isNondir_arguments hs ho).mp hnon.1
      · exact (isSuspect_iff hreads (setupSuspectFile_has scan.suspectFile).2).mp hfinds
    · by_cases hsub : IsSubdir scan.arguments work o ∧ scan.arguments.processdir = true
      · obtain ⟨child, -, rfl | rfl⟩ := hhandles.subdir hsub.1 hsub.2
        all_goals
          obtain rfl := List.mem_singleton.mp hcall
          cases hfinds
      · rw [hhandles.other hsub hnon] at hcall
        cases hcall
  · rintro ⟨hmethod, st, ⟨entries', o, crtime, hopen, ho, hkind, hlstat⟩, hfound⟩
    obtain rfl := Option.some_inj.mp (hs.opendir.symm.trans hopen)
    obtain ⟨calls, hhandles, hsub⟩ := hforth o ho
    obtain ⟨child, ed, hchild, rfl, -⟩ :=
      hhandles.nondir ((isNondir_arguments hs ho).mpr hkind) (decide_eq_true hmethod)
    obtain ⟨-, st', crtime', hlstat', hreads⟩ := htree.reads_child h hs ho hname hchild
    rw [hlstat, Option.some_inj, Prod.mk.injEq] at hlstat'
    obtain ⟨rfl, rfl⟩ := hlstat'
    exact ⟨_, hsub _ (List.mem_singleton_self _),
      (isSuspect_iff hreads (setupSuspectFile_has scan.suspectFile).2).mpr hfound⟩

/-- The subdirectories among the calls. -/
theorem Scan.Tree.mem_enqueued (htree : scan.Tree root) (h : scan.InTree root.name path)
    (hs : scan.config.Succeeds path entries) (hname : work.name = path)
    {chunks : List (List Call)}
    (hall : List.Forall₂ (Handles scan.arguments work) entries chunks) :
    (∀ block ∈ chunks.flatten.filterMap enqueued,
      ∃ path', scan.Subdir path path' ∧ scan.ItemAt root.name path' block) ∧
      ∀ path', scan.Subdir path path' →
        ∃ block ∈ chunks.flatten.filterMap enqueued, scan.ItemAt root.name path' block := by
  obtain ⟨hback, hforth⟩ := mem_flatten_of_forall₂ hall
  have hitem {o : Observed} (ho : o ∈ entries) {calls : List Call}
      (hhandles : Handles scan.arguments work o calls) (hkind : scan.config.kind o = some .dir) :
      ∃ block, calls.filterMap enqueued = [block] ∧
        scan.ItemAt root.name (path ++ 47 :: o.dirent.name) block := by
    have hin : scan.InTree root.name (path ++ 47 :: o.dirent.name) :=
      h.tail ⟨entries, o, hs.opendir, ho, hkind, rfl⟩
    obtain ⟨child, hchild, hcalls⟩ := hhandles.subdir ((isSubdir_arguments hs ho).mpr hkind) rfl
    obtain ⟨hcname, st, crtime, -, hreads⟩ := htree.reads_child h hs ho hname hchild
    obtain ⟨entries', hs'⟩ := htree.succeeds _ hin
    have hload {w : Named} := loadItem_childOf (w := w) (by rw [hname]; exact htree.ne_nil h) hchild
      (by rw [hcname]; exact hs'.short)
    rw [hcname] at hreads
    rcases hcalls with rfl | rfl
    · exact ⟨_, rfl, hin, child, st, hload rfl rfl rfl, hcname, hreads⟩
    · exact ⟨_, rfl, hin, _, st, hload rfl rfl rfl, hcname,
        ⟨hreads.ino, hreads.called, hreads.lstat⟩⟩
  constructor
  · intro block hblock
    obtain ⟨call, hcall, henqueued⟩ := List.mem_filterMap.mp hblock
    obtain ⟨o, ho, calls, hhandles, hcall⟩ := hback call hcall
    have hblock : block ∈ calls.filterMap enqueued :=
      List.mem_filterMap.mpr ⟨call, hcall, henqueued⟩
    by_cases hsub : IsSubdir scan.arguments work o
    · have hkind := (isSubdir_arguments hs ho).mp hsub
      obtain ⟨block', hcalls, hat⟩ := hitem ho hhandles hkind
      rw [hcalls] at hblock
      exact ⟨_, ⟨entries, o, hs.opendir, ho, hkind, rfl⟩, List.mem_singleton.mp hblock ▸ hat⟩
    · by_cases hnon : IsNondir scan.arguments work o ∧ scan.arguments.processnondir = true
      · obtain ⟨child, ed, -, rfl, -⟩ := hhandles.nondir hnon.1 hnon.2
        cases hblock
      · rw [hhandles.other (fun h => hsub h.1) hnon] at hblock
        cases hblock
  · rintro path' ⟨entries', o, hopen, ho, hkind, rfl⟩
    obtain rfl := Option.some_inj.mp (hs.opendir.symm.trans hopen)
    obtain ⟨calls, hhandles, hsub⟩ := hforth o ho
    obtain ⟨block, hcalls, hat⟩ := hitem ho hhandles hkind
    have hblock : block ∈ calls.filterMap enqueued := by
      rw [hcalls]
      exact List.mem_singleton_self block
    obtain ⟨call, hcall, henqueued⟩ := List.mem_filterMap.mp hblock
    exact ⟨block, List.mem_filterMap.mpr ⟨call, hsub call hcall, henqueued⟩, hat⟩

end Directory

section Main

open Relation Worklist

variable {scan : Scan} {root : Named} {path : Bytes} {block : Mem} {log : List (Bytes × Bool)}

/-- A directory of the tree gets its mark, and its subdirectories are enqueued. -/
theorem process_itemAt (htree : scan.Tree root) (h : scan.ItemAt root.name path block)
    (log : List (Bytes × Bool)) : ∃ suspect items,
      scan.process block log = (log ++ [(path, suspect)], items) ∧
      (suspect = true ↔ scan.Marked path) ∧
      (∀ block ∈ items, ∃ path', scan.Subdir path path' ∧ scan.ItemAt root.name path' block) ∧
      ∀ path', scan.Subdir path path' → ∃ block ∈ items, scan.ItemAt root.name path' block := by
  obtain ⟨hin, item, st, hload, hname, hreads⟩ := h
  obtain ⟨entries, hopen, hs⟩ := htree.exists_entries hin
  have hdir := isSuspect_iff hreads (setupSuspectFile_has scan.suspectFile).1
  obtain ⟨suspect, hsuspect⟩ : ∃ suspect, suspect = isSuspect scan.method scan.suspects.dir
    scan.stat scan.time (scan.lstat item.name) item.work := ⟨_, rfl⟩
  have hmark : (isSuspect scan.method scan.suspects.dir scan.stat scan.time (scan.lstat item.name)
      item.work).1 = true ↔
        ∃ st crtime, scan.lstat path = some (st, crtime) ∧ scan.Found [100] st := by
    rw [hname]
    obtain ⟨crtime, hlstat⟩ := hreads.lstat
    refine hdir.trans ⟨fun h => ⟨st, crtime, hlstat, h⟩, ?_⟩
    rintro ⟨st', crtime', hlstat', h⟩
    rw [hlstat, Option.some_inj, Prod.mk.injEq] at hlstat'
    rwa [hlstat'.1]
  obtain ⟨chunks, ctrs, hdescend, hall⟩ := descend_arguments hs ⟨suspect.2, item.name⟩
  have hwork : (⟨suspect.2, item.name⟩ : Named).name = path := hname
  have hany := htree.any_findsNondir hin hs hwork hall
  obtain ⟨hitems, hsubdirs⟩ := htree.mem_enqueued hin hs hwork hall
  refine ⟨suspect.1 || chunks.flatten.any scan.findsNondir, chunks.flatten.filterMap enqueued,
    ?_, ?_, hitems, hsubdirs⟩
  · rw [Scan.process, hload, Option.bind_some, Scan.processdir, hname, hopen, Option.bind_some,
      ← hname, ← hsuspect]
    dsimp only
    rw [hdescend, Option.map_some]
    dsimp only
    rw [foldl_call, List.nil_append, hname]
  · rw [Bool.or_eq_true, hsuspect, hmark, hany]
    rfl

/-- The marks are those of directories of the tree. -/
def Scan.Good (scan : Scan) (root : Bytes) (log : List (Bytes × Bool)) : Prop :=
  ∀ path suspect, (path, suspect) ∈ log →
    scan.InTree root path ∧ (suspect = true ↔ scan.Marked path)

theorem process_keeps (htree : scan.Tree root) :
    Keeps scan.process (scan.Good root.name)
      fun block => ∃ path, scan.ItemAt root.name path block where
  state block log hblock hlog path' suspect' hmem := by
    obtain ⟨path, hat⟩ := hblock
    obtain ⟨suspect, items, hprocess, hmark, -⟩ := process_itemAt htree hat log
    rw [hprocess, List.mem_append, List.mem_singleton, Prod.mk.injEq] at hmem
    rcases hmem with hmem | ⟨rfl, rfl⟩
    · exact hlog path' suspect' hmem
    · exact ⟨hat.inTree, hmark⟩
  items block log hblock _ block' hmem := by
    obtain ⟨path, hat⟩ := hblock
    obtain ⟨suspect, items, hprocess, -, hitems, -⟩ := process_itemAt htree hat log
    rw [hprocess] at hmem
    obtain ⟨path', -, hat'⟩ := hitems block' hmem
    exact ⟨path', hat'⟩

theorem itemAt_root (htree : scan.Tree root) :
    scan.ItemAt root.name root.name (root.block scan.mem) :=
  ⟨.refl, root, root.work.statuso, htree.item, rfl, rfl, fun _ => rfl, _, htree.stat⟩

/-- After a walk each directory of the tree has one mark, the one that the code gives it. -/
theorem mem_log_iff (htree : scan.Tree root)
    (hrun : Reaches scan.process ([root.block scan.mem], []) ([], log)) (path : Bytes)
    (suspect : Bool) : (path, suspect) ∈ log ↔
      scan.InTree root.name path ∧ (suspect = true ↔ scan.Marked path) := by
  have hstart : (∀ block ∈ [root.block scan.mem], ∃ path, scan.ItemAt root.name path block) ∧
      scan.Good root.name [] :=
    ⟨List.forall_mem_singleton.mpr ⟨_, itemAt_root htree⟩, nofun⟩
  have hgood : scan.Good root.name log := (hrun.keeps (process_keeps htree) hstart).2
  refine ⟨hgood path suspect, fun ⟨hin, hsuspect⟩ => ?_⟩
  -- the item of a directory promises a mark to each one below it
  have hcovered : ∃ suspect, (path, suspect) ∈ log := by
    refine hrun.covers (P := fun path log => ∃ suspect, (path, suspect) ∈ log)
      (W := fun block path => ∃ path', scan.ItemAt root.name path' block ∧
        ReflTransGen scan.Subdir path' path)
      (process_keeps htree) hstart ?_ ?_ (.inr ⟨_, List.mem_singleton_self _, _,
        itemAt_root htree, hin⟩)
    · rintro block log path ⟨path', hat⟩ - ⟨suspect, hmem⟩
      obtain ⟨suspect', items, hprocess, -⟩ := process_itemAt htree hat log
      rw [hprocess]
      exact ⟨suspect, List.mem_append_left _ hmem⟩
    · rintro block log path - - ⟨path', hat, hbelow⟩
      obtain ⟨suspect', items, hprocess, -, -, hsubdirs⟩ := process_itemAt htree hat log
      rw [hprocess]
      rcases hbelow.cases_head with rfl | ⟨path'', hsub, hrest⟩
      · exact .inl ⟨suspect', List.mem_append_right _ (List.mem_singleton_self _)⟩
      · obtain ⟨block', hmem, hat'⟩ := hsubdirs path'' hsub
        exact .inr ⟨block', hmem, path'', hat', hrest⟩
  obtain ⟨suspect', hmem⟩ := hcovered
  have hsame : suspect' = suspect :=
    Bool.eq_iff_iff.mpr ((hgood path suspect' hmem).2.trans hsuspect.symm)
  rwa [hsame] at hmem

theorem marked_iff_of_three (hmethod : scan.method = 3) (path : Bytes) :
    scan.Marked path ↔ scan.ShouldMark path := by
  have hlt : (1 : Int32) < scan.method := by rw [hmethod]; decide
  simp only [Scan.Marked, Scan.ShouldMark, Scan.DirSuspicious, found_iff_suspicious hmethod,
    and_iff_right hlt]

/-- With a list, a directory is marked only for itself. -/
theorem marked_iff_of_one (hmethod : scan.method = 1) (path : Bytes) :
    scan.Marked path ↔ scan.DirSuspicious path ∧ scan.DirListedPlainly path := by
  have hlt : ¬(1 : Int32) < scan.method := by rw [hmethod]; decide
  have hthree : ¬scan.method = 3 := by rw [hmethod]; decide
  rw [Scan.Marked, or_iff_left fun h => hlt h.1]
  constructor
  · rintro ⟨st, crtime, hlstat, hfound⟩
    obtain ⟨-, hplain, hnewer⟩ := hfound.resolve_right fun h => hthree h.1
    exact ⟨⟨st, crtime, hlstat, .inl ⟨hmethod, hplain.listed, hnewer⟩⟩, st, crtime, hlstat, hplain⟩
  · rintro ⟨⟨st, crtime, hlstat, hsuspicious⟩, st', crtime', hlstat', hplain⟩
    obtain ⟨-, -, hnewer⟩ := hsuspicious.resolve_right fun h => hthree h.1
    rw [hlstat, Option.some_inj, Prod.mk.injEq] at hlstat'
    obtain ⟨rfl, rfl⟩ := hlstat'
    exact ⟨st, crtime, hlstat, .inl ⟨hmethod, hplain, hnewer⟩⟩

/-- By times all suspects are found. With a list they are just if no directory is suspicious for a
file or a link unless it is itself, and listed in plain digits. -/
theorem suspects_found_iff (htree : scan.Tree root) (hmethod : scan.method = 1 ∨ scan.method = 3)
    (hrun : Reaches scan.process ([root.block scan.mem], []) ([], log)) :
    scan.MarksExactly root.name log ↔
      (scan.method = 1 → ∀ path, scan.InTree root.name path → scan.ShouldMark path →
        scan.DirSuspicious path ∧ scan.DirListedPlainly path) := by
  have hmarks : scan.MarksExactly root.name log ↔ ∀ path, scan.InTree root.name path →
      (scan.Marked path ↔ scan.ShouldMark path) := by
    simp only [Scan.MarksExactly, mem_log_iff htree hrun]
    constructor
    · intro h path hin
      by_cases hmarked : scan.Marked path
      · have := (h path true).mp ⟨hin, by simp [hmarked]⟩
        simpa [hmarked] using this.2
      · have := (h path false).mp ⟨hin, by simp [hmarked]⟩
        simpa [hmarked] using this.2
    · intro h path suspect
      refine and_congr_right fun hin => ?_
      rw [h path hin]
  rw [hmarks]
  rcases hmethod with hmethod | hmethod
  · rw [forall_prop_of_true hmethod]
    refine forall₂_congr fun path _ => ?_
    rw [marked_iff_of_one hmethod]
    exact ⟨fun h => h.mpr, fun h => ⟨fun hd => .inl hd.1, h⟩⟩
  · have hone : ¬scan.method = 1 := by rw [hmethod]; decide
    exact iff_of_true (fun path _ => marked_iff_of_three hmethod path) fun h => absurd h hone

/-- The file `f` with inode 7, in the directory `a` with inode 5. -/
def smallFile : Observed where
  dirent := ⟨7, .reg, [102]⟩
  lstat := some ({ (setMode zeroWork S_IFREG).statuso with ino := 7 }, 0)
  readlink := none
  listxattr := none
  getxattr _ := none

def smallScan (lines : List SuspectLine) : Scan where
  method := 1
  stat := false
  time := 0
  suspectFile := lines
  compress := false
  processXattrs := false
  mem := ⟨⟨fun _ _ => none, fun _ _ => none⟩, lastBlocks, lastBlocks, lastBlocks⟩
  dFd := 3
  opendir path := if path = [97] then some [smallFile] else none
  lstat path := if path = [97] then some ({ (setMode zeroWork S_IFDIR).statuso with ino := 5 }, 0)
    else smallFile.lstat

def smallRoot : Named where
  work :=
    { zeroWork with
      name := 296
      nameLen := 1
      statuso := { (setMode zeroWork S_IFDIR).statuso with ino := 5 }
      statCalled := STATX_CALLED }
  name := [97]

theorem smallScan_subdir {lines : List SuspectLine} {path : Bytes} :
    ¬(smallScan lines).Subdir [97] path := by
  rintro ⟨entries, o, hopen, ho, hkind, -⟩
  cases hopen
  obtain rfl := List.mem_singleton.mp ho
  have hfile : (smallScan lines).config.kind smallFile = some .file := rfl
  rw [hfile] at hkind
  cases hkind

theorem smallScan_inTree {lines : List SuspectLine} {path : Bytes}
    (h : (smallScan lines).InTree [97] path) : path = [97] := by
  rcases h.cases_head with rfl | ⟨path', hsub, -⟩
  · rfl
  · exact absurd hsub smallScan_subdir

theorem smallScan_tree (lines : List SuspectLine) : (smallScan lines).Tree smallRoot where
  succeeds path h := by
    rw [smallScan_inTree h]
    refine ⟨_, rfl, rfl, by decide, by decide, ?_, ?_⟩
    · intro o ho
      obtain rfl := List.mem_singleton.mp ho
      decide
    · intro o ho
      obtain rfl := List.mem_singleton.mp ho
      exact ⟨_, _, rfl, rfl, fun h => absurd h (by decide)⟩
  lstat path entries h hopen o ho := by
    rw [smallScan_inTree h] at hopen ⊢
    cases hopen
    obtain rfl := List.mem_singleton.mp ho
    rfl
  ino path entries h hopen o ho st hst := by
    rw [smallScan_inTree h] at hopen
    cases hopen
    obtain rfl := List.mem_singleton.mp ho
    cases hst
    rfl
  notEmpty := by decide
  item := by
    refine loadItem_block ?_ ?_
    · rfl
    · rfl
  called := by decide
  stat := rfl

theorem smallScan_run (lines : List SuspectLine) : ∃ suspect,
    Reaches (smallScan lines).process ([smallRoot.block (smallScan lines).mem], [])
      ([], [([97], suspect)]) := by
  have htree := smallScan_tree lines
  have hstep : Step (smallScan lines).process _ _ :=
    .process [] (smallRoot.block (smallScan lines).mem) [] []
  obtain ⟨suspect, items, hprocess, -, hitems, -⟩ := process_itemAt htree (itemAt_root htree) []
  rw [hprocess] at hstep
  have hnil : items = [] := by
    refine List.eq_nil_iff_forall_not_mem.mpr fun block hblock => ?_
    obtain ⟨path', hsub, -⟩ := hitems block hblock
    exact smallScan_subdir hsub
  rw [hnil] at hstep
  exact ⟨suspect, .single hstep⟩

/-- `5 d`, `7 f` -/
def smallList : List SuspectLine :=
  [⟨[53], 100, by decide, List.forall_mem_singleton.mpr (by decide), by decide⟩,
    ⟨[55], 102, by decide, List.forall_mem_singleton.mpr (by decide), by decide⟩]

theorem smallScan_shouldMark {lines : List SuspectLine}
    (h : Listed lines [102, 108] 7) : (smallScan lines).ShouldMark [97] := by
  refine .inr ⟨_, ⟨_, smallFile, 0, rfl, List.mem_singleton_self _, .inr ?_, rfl⟩,
    .inl ⟨rfl, h, nofun⟩⟩
  rfl

/-- The directory is listed with its file. -/
theorem suspects_found_smallList : ∃ log,
    Reaches (smallScan smallList).process ([smallRoot.block (smallScan smallList).mem], [])
      ([], log) ∧ (smallScan smallList).MarksExactly [97] log := by
  obtain ⟨suspect, hrun⟩ := smallScan_run smallList
  refine ⟨_, hrun, (suspects_found_iff (smallScan_tree smallList) (.inl rfl) hrun).mpr ?_⟩
  intro _ path hin _
  rw [smallScan_inTree hin]
  have hplain : ListedPlainly smallList [100] 5 :=
    ⟨_, List.mem_cons_self, by decide, by decide⟩
  exact ⟨⟨_, _, rfl, .inl ⟨rfl, hplain.listed, nofun⟩⟩, _, _, rfl, hplain⟩

/-- The file is listed without its directory, which is not reindexed. -/
theorem not_suspects_found : ¬∀ (scan : Scan) (root : Named) (log : List (Bytes × Bool)),
    scan.Tree root → (scan.method = 1 ∨ scan.method = 3) →
      Reaches scan.process ([root.block scan.mem], []) ([], log) →
        scan.MarksExactly root.name log := by
  intro h
  obtain ⟨suspect, hrun⟩ := smallScan_run (smallList.drop 1)
  have htree := smallScan_tree (smallList.drop 1)
  have hexact := h _ _ _ htree (.inl rfl) hrun [97] suspect
  obtain ⟨-, hsuspect⟩ := hexact.mp (List.mem_singleton_self _)
  obtain ⟨-, hmarked⟩ := (mem_log_iff htree hrun [97] suspect).mp (List.mem_singleton_self _)
  have hlisted : Listed (smallList.drop 1) [102, 108] 7 :=
    ⟨_, List.mem_singleton_self _, by decide, by decide⟩
  have hsuspicious := hmarked.mp (hsuspect.mpr (smallScan_shouldMark hlisted))
  obtain ⟨-, st, crtime, -, l, hl, htype, -⟩ := (marked_iff_of_one rfl [97]).mp hsuspicious
  obtain rfl := List.mem_singleton.mp hl
  exact absurd htype (by decide)

end Main

end Gufi.Suspects
