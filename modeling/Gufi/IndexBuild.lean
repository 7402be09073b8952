import Gufi.Emission
import Gufi.Reindex
import Gufi.RollupPaths

/-!
# Building an index

The threads of `gufi_dir2index` work off a queue of directories. A directory is made in the index
and gets an empty `db.db`, its subdirectories are enqueued, and only then, while these may already
be processed, its files are written to `db.db` and it gets the mode and the owner of its source.

The two parts are tasks of their own here, and any task may be next. So a subdirectory that is
processed at once, when there are too many to be enqueued, is one that happens to be next. Plugins
and external databases of users are left out.
-/

namespace Gufi.IndexBuild

open UnixAccess Worklist Relation RollupPaths

section Paths

/-- The texts between the slashes. -/
def splitSlash : Bytes → List Bytes
  | [] => [[]]
  | c :: path => if c = slash then [] :: splitSlash path else (splitSlash path).modifyHead (c :: ·)

/-- A directory, as a path is resolved. There are no links in an index. -/
abbrev Place := List Bytes

/-- The names on the path. Empty ones and `.` stay where they are. -/
def placeOf (path : Bytes) : Place := (splitSlash path).filter fun n => n ≠ [] ∧ n ≠ [46]

theorem splitSlash_ne_nil (path : Bytes) : splitSlash path ≠ [] := by
  induction path with
  | nil => exact List.cons_ne_nil _ _
  | cons c path ih =>
      rw [splitSlash]
      split_ifs
      · exact List.cons_ne_nil _ _
      · cases h : splitSlash path with
        | nil => exact absurd h ih
        | cons n ns => exact List.cons_ne_nil _ _

theorem splitSlash_append (p q : Bytes) :
    splitSlash (p ++ slash :: q) = splitSlash p ++ splitSlash q := by
  induction p with
  | nil => simp [splitSlash]
  | cons c p ih =>
      rw [List.cons_append, splitSlash, splitSlash, ih]
      split_ifs
      · rfl
      · cases h : splitSlash p with
        | nil => exact absurd h (splitSlash_ne_nil p)
        | cons n ns => rfl

theorem splitSlash_of_not_mem {name : Bytes} (h : slash ∉ name) : splitSlash name = [name] := by
  induction name with
  | nil => rfl
  | cons c name ih =>
      rw [List.mem_cons, not_or] at h
      rw [splitSlash, if_neg (Ne.symm h.1), ih h.2]
      rfl

theorem placeOf_append (p q : Bytes) : placeOf (p ++ slash :: q) = placeOf p ++ placeOf q := by
  rw [placeOf, splitSlash_append, List.filter_append]
  rfl

/-- `basename_len` bytes from the end. -/
theorem drop_basename (p name : Bytes) :
    (p ++ slash :: name).drop ((p ++ slash :: name).length - name.length) = name := by
  rw [show (p ++ slash :: name).length - name.length = p.length + 1 by simp; omega,
    List.drop_append]
  simp

/-- A name that `readdir` returns, other than `.`, leads one directory down. -/
theorem placeOf_name {name : Bytes} (hslash : slash ∉ name) (hne : name ≠ []) (hdot : name ≠ [46]) :
    placeOf name = [name] := by
  rw [placeOf, splitSlash_of_not_mem hslash, List.filter_cons_of_pos (by simp [hne, hdot])]
  rfl

end Paths

section Data

/-- The options. `.` and `..` are always skipped. -/
structure Input where
  options : IndexOptions
  skipsDots : options.skip [46] = true ∧ options.skip [46, 46] = true
  minLevel : ℕ
  maxLevel : ℕ
  indexParent : Bytes

/-- What the system calls return for the paths of the source tree. -/
structure Source where
  opendir : Bytes → Option (List Dirent)
  lstat : Bytes → Option (Trace.Stat × Int64)
  xattrs : Bytes → List Trace.Xattr
  legal : ∀ path dirents, opendir path = some dirents →
    ∀ d ∈ dirents, d.name ≠ [] ∧ slash ∉ d.name ∧ 0 ∉ d.name
  nodup : ∀ path dirents, opendir path = some dirents → (dirents.map Dirent.name).Nodup

/-- The mode and the owner, once they have been set. -/
structure Attributes where
  mode : Option UInt32
  owner : Option (UInt32 × UInt32)
deriving DecidableEq

/-- Where the index is built: whether a directory can be made, whether the template can be copied
there and opened, whether its mode and owner can be set, and whether the program may make something
in a directory with the given attributes. -/
structure System where
  mkdir : Place → Bool
  templateToDb : Place → Bool
  chmod : Place → Bool
  chown : Place → Bool
  mayWrite : Attributes → Bool

inductive DbFile
  | absent
  | template
  | unusable
  | filled (dir : IndexedDir)

structure IndexDir where
  attributes : Attributes
  db : DbFile

/-- What `mkdir` makes. -/
def IndexDir.new : IndexDir := ⟨⟨none, none⟩, .absent⟩

/-- The members of `struct work` that `processdir` reads. -/
structure DirWork where
  name : Bytes
  basenameLen : ℕ
  pinode : Int64
  level : ℕ
  rootParentLen : ℕ
  inName : rootParentLen ≤ name.length

/-- `processdir` until the entries are gone over, and from then on. -/
inductive Task
  | process (w : DirWork)
  | finish (w : DirWork) (work : Trace.Work) (dirents : List Dirent)

/-- What happens to a directory of the index. -/
inductive Change
  | made (db : Option DbFile)
  | finished (attributes : Attributes) (db : Option IndexedDir)

def Change.apply : Change → Option IndexDir → IndexDir
  | .made db, old =>
      let dir := old.getD .new
      { dir with db := db.getD dir.db }
  | .finished attributes db, old =>
      let dir := old.getD .new
      ⟨⟨attributes.mode <|> dir.attributes.mode, attributes.owner <|> dir.attributes.owner⟩,
        (db.map .filled).getD dir.db⟩

/-- The directories of the index, and what has happened to which one. -/
structure State where
  dirs : Place → Option IndexDir
  log : List (Place × Change)

def State.change (s : State) (p : Place) (c : Change) : State :=
  ⟨Function.update s.dirs p (some (c.apply (s.dirs p))), s.log ++ [(p, c)]⟩

theorem State.dirs_change_self (s : State) (p : Place) (c : Change) :
    (s.change p c).dirs p = some (c.apply (s.dirs p)) := Function.update_self ..

theorem State.dirs_change_of_ne (s : State) {p q : Place} (c : Change) (h : q ≠ p) :
    (s.change p c).dirs q = s.dirs q := Function.update_of_ne h ..

end Data

section Program

variable (ins : Input) (src : Source) (sys : System)

/-- `topath` -/
def DirWork.topath (w : DirWork) : Bytes :=
  ins.indexParent ++ slash :: w.name.drop w.rootParentLen

def DirWork.place (w : DirWork) : Place := placeOf (w.topath ins)

/-- Only directories in the range of levels get a `db.db`. -/
def DirWork.inRange (w : DirWork) : Bool := ins.minLevel ≤ w.level ∧ w.level ≤ ins.maxLevel

/-- `opendir` and `lstat`. -/
def opened (w : DirWork) : Option (Trace.Work × List Dirent) :=
  (src.opendir w.name).bind fun dirents => (src.lstat w.name).map fun st =>
    (⟨w.name, w.basenameLen, st.1, st.2, w.pinode⟩, dirents)

/-- `mkdir`. That the directory exists is no failure. -/
def mkdir (s : State) (p : Place) : Bool :=
  (s.dirs p).isSome || (sys.mkdir p && (s.dirs p.dropLast).any fun d => sys.mayWrite d.attributes)

/-- What `descend` enqueues for a subdirectory. -/
def childOf (w : DirWork) (work : Trace.Work) (d : Dirent) : DirWork where
  name := w.name ++ slash :: d.name
  basenameLen := d.name.length
  pinode := work.statuso.ino.toInt64
  level := w.level + 1
  rootParentLen := w.rootParentLen
  inName := by
    have hlen := w.inName
    rw [List.length_append]
    omega

/-- `descend`, as far as subdirectories are concerned. -/
def subdirs (w : DirWork) (work : Trace.Work) (dirents : List Dirent) : List DirWork :=
  if w.level + 1 ≤ ins.maxLevel then
    (dirents.filter fun d => d.type = .directory ∧ dir2indexSkips ins.options d.name = false).map
      (childOf w work)
  else []

/-- What becomes of `db.db`, and what is enqueued, once the directory has been made. -/
def descend (w : DirWork) (work : Trace.Work) (dirents : List Dirent) : Option DbFile × List Task :=
  let tasks := .finish w work dirents :: (subdirs ins w work dirents).map .process
  if w.inRange ins then
    if sys.templateToDb (w.place ins) then (some .template, tasks) else (some .unusable, [])
  else (none, tasks)

/-- The first part of `processdir`. -/
def processdir (w : DirWork) (s : State) : State × List Task :=
  match opened src w with
  | none => (s, [])
  | some (work, dirents) =>
      if mkdir sys s (w.place ins) then
        let r := descend ins sys w work dirents
        (s.change (w.place ins) (.made r.1), r.2)
      else (s, [])

/-- The second part: `process_nondir` for the entries, the summary, `chmod` and `chown`. -/
def finishOf (w : DirWork) (work : Trace.Work) (dirents : List Dirent) : Change :=
  .finished
    ⟨if sys.chmod (w.place ins) then some work.statuso.mode else none,
      if sys.chown (w.place ins) then some (work.statuso.uid, work.statuso.gid) else none⟩
    (if w.inRange ins then some (dir2indexDir ins.options work (src.xattrs w.name) dirents)
      else none)

def process : Task → State → State × List Task
  | .process w, s => processdir ins src sys w s
  | .finish w work dirents, s => (s.change (w.place ins) (finishOf ins src sys w work dirents), [])

/-- `validate_source`, with what `lstat` returns for the argument. -/
def validateSource (path : Bytes) (isDir : Bool) : Option DirWork :=
  if isDir then
    some ⟨path, path.length - dirnameLen path, 0, 0, dirnameLen path, dirnameLen_le path⟩
  else none

/-- A run, in which the threads take any tasks. -/
def Runs (roots : List DirWork) (s₀ : State) (x : List Task × State) : Prop :=
  Reaches (process ins src sys) (roots.map .process, s₀) x

end Program

section Subdirectories

variable (ins : Input) (src : Source) (sys : System)

/-- The program goes on with a directory after `db.db` has been opened. -/
def continues (w : DirWork) : Bool := !w.inRange ins || sys.templateToDb (w.place ins)

/-- Neither place is in the other. -/
def Apart (w w' : DirWork) : Prop :=
  ¬w.place ins <+: w'.place ins ∧ ¬w'.place ins <+: w.place ins

/-- The subdirectories, if the directory can be read. -/
def listed (w : DirWork) : List DirWork :=
  (opened src w).elim [] fun x => subdirs ins w x.1 x.2

/-- As many tasks at least as come of a directory. -/
def weight : ℕ → DirWork → ℕ
  | 0, _ => 2
  | n + 1, w => 2 + ((listed ins src w).map (weight n)).sum

def Task.weight : Task → ℕ
  | .process w => IndexBuild.weight ins src (ins.maxLevel - w.level) w
  | .finish .. => 1

variable {ins src sys} {s : State} {w : DirWork} {work : Trace.Work} {dirents : List Dirent}

/-- A subdirectory is one name below. -/
theorem place_childOf (work : Trace.Work) {d : Dirent} (hne : d.name ≠ []) (hslash : slash ∉ d.name)
    (hskip : dir2indexSkips ins.options d.name = false) :
    (childOf w work d).place ins = w.place ins ++ [d.name] := by
  have hdot : d.name ≠ [46] := by
    intro heq
    rw [dir2indexSkips, heq, ins.skipsDots.1] at hskip
    cases hskip
  rw [DirWork.place, DirWork.topath]
  change placeOf (ins.indexParent ++ slash :: (w.name ++ slash :: d.name).drop w.rootParentLen) = _
  rw [List.drop_append_of_le_length w.inName, ← List.cons_append, ← List.append_assoc,
    placeOf_append, placeOf_name hslash hne hdot]
  rfl

/-- The places of the subdirectories. -/
theorem mem_subdirs (hopen : opened src w = some (work, dirents)) {c : DirWork}
    (hc : c ∈ subdirs ins w work dirents) :
    c.level = w.level + 1 ∧ w.level + 1 ≤ ins.maxLevel ∧
      ∃ d ∈ dirents, c = childOf w work d ∧ c.place ins = w.place ins ++ [d.name] := by
  unfold subdirs at hc
  split_ifs at hc with hmax
  · obtain ⟨d, hd, rfl⟩ := List.mem_map.mp hc
    obtain ⟨hd, hkept⟩ := List.mem_filter.mp hd
    simp only [decide_eq_true_eq] at hkept
    obtain ⟨ds, hds, hst⟩ := Option.bind_eq_some_iff.mp hopen
    obtain ⟨st, -, heq⟩ := Option.map_eq_some_iff.mp hst
    cases heq
    obtain ⟨hne, hslash, -⟩ := src.legal _ _ hds d hd
    exact ⟨rfl, hmax, d, hd, rfl, place_childOf _ hne hslash hkept.2⟩
  · cases hc

theorem exists_legalName (hopen : opened src w = some (work, dirents)) {c : DirWork}
    (hc : c ∈ subdirs ins w work dirents) : ∃ d : Dirent, LegalName d.name ∧
      c = childOf w work d := by
  unfold subdirs at hc
  split_ifs at hc
  · obtain ⟨d, hd, rfl⟩ := List.mem_map.mp hc
    obtain ⟨hd, hkept⟩ := List.mem_filter.mp hd
    simp only [decide_eq_true_eq] at hkept
    obtain ⟨ds, hds, hst⟩ := Option.bind_eq_some_iff.mp hopen
    obtain ⟨st, -, heq⟩ := Option.map_eq_some_iff.mp hst
    cases heq
    obtain ⟨hne, hslash, hnul⟩ := src.legal _ _ hds d hd
    have hskip {name : Bytes} (hname : ins.options.skip name = true) : d.name ≠ name := by
      rintro rfl
      rw [dir2indexSkips, hname] at hkept
      cases hkept.2
    exact ⟨d, ⟨hne, hnul, hslash, hskip ins.skipsDots.1, hskip ins.skipsDots.2⟩, rfl⟩
  · cases hc

theorem pairwise_subdirs {work : Trace.Work} {dirents : List Dirent}
    (hopen : opened src w = some (work, dirents)) :
    (subdirs ins w work dirents).Pairwise (Apart ins) := by
  have hnodup : (dirents.map Dirent.name).Nodup := by
    obtain ⟨ds, hds, hst⟩ := Option.bind_eq_some_iff.mp hopen
    obtain ⟨st, -, heq⟩ := Option.map_eq_some_iff.mp hst
    cases heq
    exact src.nodup _ _ hds
  rw [List.nodup_iff_pairwise_ne, List.pairwise_map] at hnodup
  have hmem {c : DirWork} (hc : c ∈ subdirs ins w work dirents) := mem_subdirs hopen hc
  unfold subdirs at hmem ⊢
  split_ifs at hmem ⊢
  · rw [List.pairwise_map]
    apply List.Pairwise.imp_of_mem _ (hnodup.filter _)
    intro d d' hd hd' hne
    obtain ⟨-, -, e, -, he, hplace⟩ := hmem (List.mem_map_of_mem hd)
    obtain ⟨-, -, e', -, he', hplace'⟩ := hmem (List.mem_map_of_mem hd')
    have hname : d.name = e.name :=
      (List.cons.inj (List.append_cancel_left (congrArg DirWork.name he))).2
    have hname' : d'.name = e'.name :=
      (List.cons.inj (List.append_cancel_left (congrArg DirWork.name he'))).2
    rw [hname, hname'] at hne
    rw [Apart, hplace, hplace']
    have hsame {n n' : Bytes} (hpre : w.place ins ++ [n] <+: w.place ins ++ [n']) : n = n' :=
      List.singleton_inj.mp (((List.prefix_append_right_inj _).mp hpre).eq_of_length rfl)
    exact ⟨fun hpre => hne (hsame hpre), fun hpre => hne (hsame hpre).symm⟩
  · exact .nil

/-- The first part does nothing, or makes the directory and may enqueue tasks. -/
theorem processdir_cases (ins : Input) (src : Source) (sys : System) (w : DirWork) (s : State) :
    processdir ins src sys w s = (s, []) ∨
    ∃ work dirents, opened src w = some (work, dirents) ∧
      processdir ins src sys w s = (s.change (w.place ins)
        (.made (descend ins sys w work dirents).1), (descend ins sys w work dirents).2) ∧
      ((descend ins sys w work dirents).2 = [] ∨ (descend ins sys w work dirents).2 =
        .finish w work dirents :: (subdirs ins w work dirents).map .process) := by
  unfold processdir
  cases hopen : opened src w with
  | none => exact Or.inl rfl
  | some x =>
      obtain ⟨work, dirents⟩ := x
      dsimp only
      by_cases hmkdir : mkdir sys s (w.place ins) = true
      · rw [if_pos hmkdir]
        refine Or.inr ⟨work, dirents, rfl, rfl, ?_⟩
        unfold descend
        split_ifs
        · exact Or.inr rfl
        · exact Or.inl rfl
        · exact Or.inr rfl
      · rw [if_neg hmkdir]
        exact Or.inl rfl

theorem descend_of_continues (hgo : continues ins sys w = true) :
    descend ins sys w work dirents = (if w.inRange ins then some .template else none,
      .finish w work dirents :: (subdirs ins w work dirents).map .process) := by
  unfold continues at hgo
  unfold descend
  cases hrange : w.inRange ins with
  | false => rfl
  | true =>
      rw [hrange, Bool.not_true, Bool.false_or] at hgo
      rw [hgo]
      rfl

theorem sum_weight_lt (a : Task) (s : State) :
    (((process ins src sys a s).2.map (Task.weight ins src)).sum) < a.weight ins src := by
  cases a with
  | finish w work dirents => exact one_pos
  | process w =>
      change ((processdir ins src sys w s).2.map _).sum < weight ins src (ins.maxLevel - w.level) w
      have hpos (n : ℕ) (w : DirWork) : 2 ≤ weight ins src n w := by
        cases n with
        | zero => exact le_rfl
        | succ n => exact Nat.le_add_right ..
      rcases processdir_cases ins src sys w s with heq | ⟨work, dirents, hopen, heq, hnil | htasks⟩
      · rw [heq]
        exact lt_of_lt_of_le two_pos (hpos _ _)
      · rw [heq, hnil]
        exact lt_of_lt_of_le two_pos (hpos _ _)
      · rw [heq, htasks, List.map_cons, List.sum_cons, List.map_map]
        change 1 + ((subdirs ins w work dirents).map
          fun c => weight ins src (ins.maxLevel - c.level) c).sum < _
        by_cases hmax : w.level + 1 ≤ ins.maxLevel
        · have hlevel : ins.maxLevel - w.level = (ins.maxLevel - (w.level + 1)) + 1 := by omega
          have hlisted : listed ins src w = subdirs ins w work dirents := by
            rw [listed, hopen]
            rfl
          have hsame : (subdirs ins w work dirents).map
              (fun c => weight ins src (ins.maxLevel - c.level) c) =
                (subdirs ins w work dirents).map
                  (weight ins src (ins.maxLevel - (w.level + 1))) := by
            apply List.map_congr_left
            intro c hc
            rw [(mem_subdirs hopen hc).1]
          rw [hlevel, weight, hlisted, hsame]
          omega
        · rw [subdirs, if_neg hmax]
          exact lt_of_lt_of_le one_lt_two (hpos _ _)

/-- A run can be finished from wherever it is. -/
theorem exists_finished (x : List Task × State) :
    ∃ s, Reaches (process ins src sys) x ([], s) :=
  exists_reaches_nil (Task.weight ins src) sum_weight_lt x

end Subdirectories

section Example

/-- What is below the directory `t` with the given mode: a file `a` and a directory `d` with a file
`b`. -/
def smallOpendir (path : Bytes) : List Dirent :=
  let file (name : Bytes) : Dirent :=
    ⟨name, .regular, some (⟨7, 0o100644, 1, 1000, 1000, 3, 4096, 8, 0, 0, 0⟩, 0), [], []⟩
  if path = [116] then [file [97], ⟨[100], .directory, none, [], []⟩] else [file [98]]

theorem legal_smallOpendir (path : Bytes) :
    ∀ d ∈ smallOpendir path, d.name ≠ [] ∧ slash ∉ d.name ∧ 0 ∉ d.name := by
  intro d hd
  unfold smallOpendir at hd
  split_ifs at hd
  · rcases List.mem_pair.mp hd with rfl | rfl <;> decide
  · obtain rfl := List.mem_singleton.mp hd
    decide

def smallSource (mode : UInt32) : Source where
  opendir path := some (smallOpendir path)
  lstat path := some (⟨path.length.toUInt64, mode, 2, 1000, 1000, 4096, 4096, 8, 0, 0, 0⟩, 0)
  xattrs _ := []
  legal := by
    intro path dirents h d hd
    obtain rfl := Option.some.inj h
    exact legal_smallOpendir path d hd
  nodup := by
    intro path dirents h
    obtain rfl := Option.some.inj h
    unfold smallOpendir
    split_ifs <;> simp

def smallRoot : DirWork := ⟨[116], 1, 0, 0, 0, by decide⟩

/-- The index is put into the directory `i`. -/
def smallInput : Input := ⟨reindexOptions, by decide, 0, 5, [105]⟩

def smallStart : State := ⟨fun p => if p = [[105]] then some .new else none, []⟩

/-- A system on which only writing may be forbidden. -/
def smallSystem (mayWrite : Attributes → Bool) : System :=
  ⟨fun _ => true, fun _ => true, fun _ => true, fun _ => true, mayWrite⟩

end Example

end Gufi.IndexBuild
