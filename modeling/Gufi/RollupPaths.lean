import Gufi.RolledUpContent
import Mathlib.Data.List.DropRight

/-!
# Paths of rolled-up rows

`rpath` and `spath` put the path of a row together from the directory that is being queried and,
for a row of a rolled-up directory, the name the rollup gave it. Both replace the root as it was
found on the disk by the text that was passed in. The path of a copied row is that of the directory
it was copied from, unless it was copied to the root of the search and the last component of the
text is not as long as the name of that directory.
-/

namespace Gufi.RollupPaths

section Model

/-- `struct work`, as far as paths are concerned. -/
structure Work where
  name : Bytes
  basenameLen : ℕ
  rootParentLen : ℕ
  rootBasenameLen : ℕ
  origRoot : Bytes

/-- `dirname_len`. -/
def dirnameLen (path : Bytes) : ℕ :=
  ((path.rdropWhile (· = slash)).rdropWhile (· ≠ slash)).length

/-- `validate_source`: trailing slashes are removed, except for the first character. -/
def validateSource : Bytes → Option Work
  | [] => none
  | c :: rest =>
      let name := c :: rest.rdropWhile (· = slash)
      some
        { name := name
          basenameLen := name.length - dirnameLen name
          rootParentLen := dirnameLen name
          rootBasenameLen := name.length - dirnameLen name
          origRoot := name }

/-- What `descend` enqueues for a subdirectory. -/
def Work.child (w : Work) (basename : Bytes) : Work :=
  { w with name := w.name ++ slash :: basename, basenameLen := basename.length }

inductive PathError
  | outOfRange
  | noSourcePath
deriving DecidableEq

/-- Names and texts are C strings, so their lengths are those of the values. -/
def modifyPrefix (work : Work) (pre sname : Bytes) (isrolledup : Bool) (entry : Option Bytes) :
    Except PathError Bytes :=
  let rootLen := work.rootParentLen + work.rootBasenameLen
  let fullpath :=
    if isrolledup then work.name.take (work.name.length - work.basenameLen) ++ sname else work.name
  -- the difference is unsigned, and the copy would begin behind the path
  if fullpath.length < rootLen then .error .outOfRange
  else .ok (pre ++ fullpath.drop rootLen ++ (entry.map (slash :: ·)).getD [])

/-- `rpath(sname, sroll)`, and `rpath(sname, sroll, name)` with an entry. -/
def rpath (work : Work) (row : SummaryRow) (entry : Option Bytes) : Except PathError Bytes :=
  modifyPrefix work work.origRoot row.name row.isrolledup entry

def spath (sourcePrefix : Bytes) (work : Work) (row : SummaryRow) (entry : Option Bytes) :
    Except PathError Bytes :=
  if sourcePrefix = [] then .error .noSourcePath
  else modifyPrefix work sourcePrefix row.name row.isrolledup entry

/-- The work items of a walk from one directory of an index. -/
inductive Walked (start : Work) (top : DirTree) : DirTree → Work → Prop
  | start : Walked start top top start
  | child {d c : DirTree} {w : Work} (h : Walked start top d w) (hc : c ∈ d.subdirs) :
      Walked start top c (w.child c.name)

/-- The paths of two rows are the same, whatever is appended to them. -/
def SamePaths (work : Work) (row : SummaryRow) (work' : Work) (row' : SummaryRow) : Prop :=
  (∀ entry, rpath work row entry = rpath work' row' entry) ∧
    ∀ sourcePrefix entry,
      spath sourcePrefix work row entry = spath sourcePrefix work' row' entry

end Model

section Starts

variable {path : Bytes} {start : Work}

theorem dirnameLen_le (path : Bytes) : dirnameLen path ≤ path.length :=
  ((List.rdropWhile_prefix _ _).length_le).trans (List.rdropWhile_prefix _ _).length_le

theorem rootLen_validateSource (h : validateSource path = some start) :
    start.rootParentLen + start.rootBasenameLen = start.name.length := by
  cases path with
  | nil => cases h
  | cons c rest =>
      obtain rfl := Option.some.inj h
      exact Nat.add_sub_cancel' (dirnameLen_le _)

theorem basenameLen_le_validateSource (h : validateSource path = some start) :
    start.basenameLen ≤ start.name.length := by
  cases path with
  | nil => cases h
  | cons c rest =>
      obtain rfl := Option.some.inj h
      exact Nat.sub_le _ _

end Starts

section Walks

variable {start w : Work} {top d : DirTree}

/-- The text of a work item is that of the start, followed by what the path of the directory adds to
that of the topmost one. -/
structure Walked.At (start : Work) (top d : DirTree) (w : Work) (rel : Bytes) : Prop where
  path : d.path = top.path ++ rel
  name : w.name = start.name ++ rel
  rootLen : w.rootParentLen + w.rootBasenameLen = start.rootParentLen + start.rootBasenameLen
  origRoot : w.origRoot = start.origRoot
  base : (d = top ∧ w = start) ∨
    (w.basenameLen = d.name.length ∧ ∃ parent, rel = parent ++ d.name ∧ rel ≠ [])

theorem Walked.mem_subtrees (h : Walked start top d w) : d ∈ top.subtrees := by
  induction h with
  | start => exact top.self_mem_subtrees
  | child _ hc ih => exact DirTree.subdir_mem_subtrees ih hc

theorem Walked.at (htop : top.WellFormed) (h : Walked start top d w) :
    ∃ rel, Walked.At start top d w rel := by
  induction h with
  | start =>
      exact ⟨[], (List.append_nil _).symm, (List.append_nil _).symm, rfl, rfl, .inl ⟨rfl, rfl⟩⟩
  | @child d c w h hc ih =>
      obtain ⟨rel, hat⟩ := ih
      obtain ⟨n, ⟨-, -, hslash, -⟩, hn⟩ := htop.legal d h.mem_subtrees c hc
      have hname : c.name = n := by rw [DirTree.name, hn, splitPath_append hslash]
      refine ⟨rel ++ slash :: n, ?_, ?_, hat.rootLen, hat.origRoot, .inr ⟨rfl, ?_⟩⟩
      · rw [hn, hat.path, List.append_assoc]
      · rw [Work.child, hname, hat.name, List.append_assoc]
      · exact ⟨rel ++ [slash], by rw [hname, List.append_assoc]; rfl, by simp⟩

theorem Walked.At.ne_top {rel : Bytes} (h : Walked.At start top d w rel) (hne : d ≠ top) :
    w.basenameLen = d.name.length ∧ ∃ parent, rel = parent ++ d.name := by
  rcases h.base with ⟨heq, -⟩ | ⟨hbase, parent, hrel, -⟩
  · exact absurd heq hne
  · exact ⟨hbase, parent, hrel⟩

end Walks

section Paths

variable {path pre : Bytes} {start w wt wu : Work} {top t u : DirTree} {row : SummaryRow}
variable {rel tail : Bytes} {entry : Option Bytes}

/-- In its own database a directory has the text of its work item for path. -/
theorem modifyPrefix_own (hstart : start.rootParentLen + start.rootBasenameLen = start.name.length)
    (h : Walked.At start top u wu rel) (sname : Bytes) :
    modifyPrefix wu pre sname false entry =
      .ok (pre ++ rel ++ (entry.map (slash :: ·)).getD []) := by
  have hlen : ¬ wu.name.length < wu.rootParentLen + wu.rootBasenameLen := by
    rw [h.rootLen, hstart, h.name, List.length_append]
    omega
  simp only [modifyPrefix, Bool.false_eq_true, if_false, if_neg hlen]
  rw [h.rootLen, hstart, h.name, List.drop_left]

/-- Below the root of the search the name a row was given continues the path of the directory. -/
theorem modifyPrefix_below
    (hstart : start.rootParentLen + start.rootBasenameLen = start.name.length)
    (h : Walked.At start top t wt rel) (hne : t ≠ top) (tail : Bytes) :
    modifyPrefix wt pre (t.name ++ tail) true entry =
      .ok (pre ++ (rel ++ tail) ++ (entry.map (slash :: ·)).getD []) := by
  obtain ⟨hbase, parent, hrel⟩ := h.ne_top hne
  have hfull : wt.name.take (wt.name.length - wt.basenameLen) ++ (t.name ++ tail) =
      start.name ++ (rel ++ tail) := by
    have hname : wt.name = (start.name ++ parent) ++ t.name := by
      rw [h.name, hrel, List.append_assoc]
    rw [hbase, hname, List.length_append, Nat.add_sub_cancel, List.take_left, hrel,
      List.append_assoc, List.append_assoc]
  have hlen : ¬ (start.name ++ (rel ++ tail)).length <
      wt.rootParentLen + wt.rootBasenameLen := by
    rw [h.rootLen, hstart, List.length_append]
    omega
  simp only [modifyPrefix, if_true, hfull, if_neg hlen]
  rw [h.rootLen, hstart, List.drop_left]

/-- At the root of the search it continues the path if the root was typed with a last component of
that length. -/
theorem modifyPrefix_root_iff
    (hstart : start.rootParentLen + start.rootBasenameLen = start.name.length)
    (hbase : start.basenameLen ≤ start.name.length) (htail : tail ≠ []) :
    modifyPrefix start pre (top.name ++ tail) true entry =
        .ok (pre ++ tail ++ (entry.map (slash :: ·)).getD []) ↔
      start.basenameLen = top.name.length := by
  have hpos := List.length_pos_iff.mpr htail
  have hlength : (start.name.take (start.name.length - start.basenameLen) ++
      (top.name ++ tail)).length =
        start.name.length - start.basenameLen + (top.name.length + tail.length) := by
    rw [List.length_append, List.length_take, List.length_append]
    omega
  simp only [modifyPrefix, if_true, hstart, hlength]
  constructor
  · intro h
    split_ifs at h with hlt
    have hdrop := congrArg List.length
      (List.append_cancel_left (List.append_cancel_right (Except.ok.inj h)))
    rw [List.length_drop, hlength] at hdrop
    omega
  · intro h
    rw [if_neg (by omega)]
    have htake : (start.name.take (start.name.length - start.basenameLen) ++ top.name).length =
        start.name.length := by
      rw [List.length_append, List.length_take]
      omega
    rw [← List.append_assoc, List.drop_left' htake]

theorem samePaths_iff (h : validateSource path = some start) (htop : top.WellFormed)
    (hwt : Walked start top t wt) (hwu : Walked start top u wu) (hpath : u.path = t.path ++ tail)
    (htail : tail ≠ []) {own copied : SummaryRow} (hown : own.isrolledup = false)
    (hcopied : copied.isrolledup = true) (hname : copied.name = t.name ++ tail) :
    SamePaths wt copied wu own ↔ (t = top → start.basenameLen = top.name.length) := by
  have hroot := rootLen_validateSource h
  obtain ⟨relt, hatt⟩ := hwt.at htop
  obtain ⟨relu, hatu⟩ := hwu.at htop
  have hrel : relu = relt ++ tail := by
    have hboth := hatu.path.symm.trans hpath
    rw [hatt.path, List.append_assoc] at hboth
    exact List.append_cancel_left hboth
  have howner (pre : Bytes) (entry : Option Bytes) :=
    @modifyPrefix_own pre start wu top u relu entry hroot hatu own.name
  have horig : wu.origRoot = wt.origRoot := hatu.origRoot.trans hatt.origRoot.symm
  by_cases heq : t = top
  · obtain ⟨hstart, rfl⟩ : wt = start ∧ relt = [] := by
      have hnil : relt = [] := by
        have := hatt.path
        rw [heq] at this
        exact List.append_right_eq_self.mp this.symm
      rcases hatt.base with ⟨-, hw⟩ | ⟨-, _, -, hne⟩
      · exact ⟨hw, hnil⟩
      · exact absurd hnil hne
    rw [List.nil_append] at hrel
    have hiff (pre : Bytes) (entry : Option Bytes) :=
      @modifyPrefix_root_iff pre start top tail entry hroot
        (basenameLen_le_validateSource h) htail
    constructor
    · rintro ⟨hrpath, -⟩ -
      have hplain := hrpath none
      rw [rpath, rpath, hcopied, hown, hname, heq, howner, horig, hstart, hrel] at hplain
      exact (hiff _ _).mp hplain
    · intro hlen
      refine ⟨fun entry => ?_, fun sourcePrefix entry => ?_⟩
      · rw [rpath, rpath, hcopied, hown, hname, heq, howner, horig, hstart, hrel]
        exact (hiff _ _).mpr (hlen heq)
      · rw [spath, spath, hcopied, hown, hname, heq, howner, hstart, hrel]
        rw [(hiff _ _).mpr (hlen heq)]
  · refine iff_of_true ⟨fun entry => ?_, fun sourcePrefix entry => ?_⟩ fun h => absurd h heq
    · rw [rpath, rpath, hcopied, hown, hname, howner, horig, modifyPrefix_below hroot hatt heq,
        hrel]
    · rw [spath, spath, hcopied, hown, hname, howner, modifyPrefix_below hroot hatt heq, hrel]

end Paths

section Main

variable {ts : TreeSummaryCode} {cfg : Config} {F : DirFaults → Prop} {root top t : DirTree}
  {ix₀ ix : Index} {s : RunState} {path : Bytes} {start wt : Work}

/-- Every row that was copied into a directory which gufi_rollup rolled up has the path it had in
the database it was copied from, if and only if the directory is below the root of the search or the
last component of the root's text is as long as the directory's name. -/
theorem paths_survive_rollup_iff (hroot : root.WellFormed) (hindex : Indexed ix₀ root)
    (hearlier : EarlierRuns ix₀ ix) (hrun : RunReaches ts cfg F root ix s)
    (ht : t ∈ root.subtrees) (hasc : s.ascended t.path = true) (hroll : s.rolledup t.path = true)
    (hstart : validateSource path = some start) (htop : top ∈ root.subtrees)
    (hwt : Walked start top t wt) :
    ∃ db, (s.ix t.path).db = some db ∧ db.summary = t.relSummary ix₀ ∧
      ∀ x ∈ t.levels 0, x.1 ≠ 0 → ∀ dbu, (ix₀ x.2.path).db = some dbu → ∀ own ∈ dbu.summary,
        ∀ wu, Walked start top x.2 wu →
          (SamePaths wt (relRow t x.1 x.2 own) wu own ↔
            (t = top → start.basenameLen = top.name.length)) := by
  have hsame : SameContent ix₀ ix root :=
    hearlier.sameContent fun u hu => (hindex.unrolled u hu).settled
  obtain ⟨db, hdb, heq⟩ := hrun.rolledDb_eq hroot (hindex.isSome_db hsame) ht hasc hroll
  rw [rolledDb_eq_of_sameContent hsame ht] at heq
  refine ⟨db, hdb, ?_, ?_⟩
  · rw [← summary_rolledDb hroot hindex ht, ← heq]
    rfl
  · rintro ⟨d, u⟩ hx hd dbu hdbu own hown wu hwu
    have humem : u ∈ t.subtrees := DirTree.mem_subtrees_of_mem_levels hx
    obtain ⟨tail, htail⟩ := (hroot.subtree ht).exists_path_append humem
    have hne : tail ≠ [] := by
      rintro rfl
      rw [List.append_nil] at htail
      have hlevel := DirTree.WellFormed.levels_eq_of_path_eq (hroot.subtree ht) hx
        (by rw [DirTree.levels_eq]; exact List.mem_cons_self) htail
      exact hd (congrArg Prod.fst hlevel)
    obtain ⟨db', hdb', hun⟩ := (hindex.unrolled u (DirTree.subtrees_subset_of_mem ht humem)).db
    obtain rfl : db' = dbu := Option.some.inj (hdb'.symm.trans hdbu)
    obtain ⟨row, hrow, -, hrolled⟩ := hun.summary
    obtain rfl : own = row := List.mem_singleton.mp (hrow ▸ hown)
    refine samePaths_iff hstart (hroot.subtree htop) hwt hwu htail hne hrolled rfl ?_
    change t.relPath u.path = _
    rw [DirTree.relPath, htail, List.drop_left]

end Main

section Example

/-- `/r` with the subdirectories `BB` and `A`. -/
def slashR : DirTree := siblingTree [66, 66] [65]

theorem wellFormed_slashR : slashR.WellFormed :=
  wellFormed_siblingTree (by decide) (by decide) (by decide)

def typed (path : Bytes) : Work := (validateSource path).getD ⟨[], 0, 0, 0, []⟩

/-- The search starts from `/r//`. -/
theorem paths_survive_rollup_slashR :
    ∃ db, ((sequentialRun noTreesummary ⟨0, 0, 0⟩ slashR uid5Index).ix [47, 114]).db = some db ∧
      db.summary = slashR.relSummary uid5Index ∧
      ∀ x ∈ slashR.levels 0, x.1 ≠ 0 → ∀ dbu, (uid5Index x.2.path).db = some dbu →
        ∀ own ∈ dbu.summary, ∀ wu, Walked (typed [47, 114, 47, 47]) slashR x.2 wu →
          SamePaths (typed [47, 114, 47, 47]) (relRow slashR x.1 x.2 own) wu own := by
  obtain ⟨hrun, hdone⟩ := sequentialRun_spec noTreesummary ⟨0, 0, 0⟩ wellFormed_slashR uid5Index
  obtain ⟨db, hdb, hsummary, hpaths⟩ := paths_survive_rollup_iff wellFormed_slashR
    (indexed_uid5Index _) Relation.ReflTransGen.refl hrun slashR.self_mem_subtrees
    (hdone _ slashR.self_mem_subtrees) (by decide)
    (rfl : validateSource [47, 114, 47, 47] = some (typed [47, 114, 47, 47]))
    slashR.self_mem_subtrees Walked.start
  refine ⟨db, hdb, hsummary, fun x hx hd dbu hdbu own hown wu hwu => ?_⟩
  exact (hpaths x hx hd dbu hdbu own hown wu hwu).mpr fun _ => by decide

/-- The search starts from `..`, in a subdirectory of `/r`. -/
theorem paths_lost_from_dotdot :
    ¬∀ (ts : TreeSummaryCode) (cfg : Config) (F : DirFaults → Prop) (root : DirTree)
      (ix₀ ix : Index) (s : RunState) (t top : DirTree) (path : Bytes) (start wt : Work),
      root.WellFormed → Indexed ix₀ root → EarlierRuns ix₀ ix → RunReaches ts cfg F root ix s →
      t ∈ root.subtrees → s.ascended t.path = true → s.rolledup t.path = true →
      validateSource path = some start → top ∈ root.subtrees → Walked start top t wt →
      ∀ x ∈ t.levels 0, x.1 ≠ 0 → ∀ dbu, (ix₀ x.2.path).db = some dbu → ∀ own ∈ dbu.summary,
        ∀ wu, Walked start top x.2 wu → SamePaths wt (relRow t x.1 x.2 own) wu own := by
  intro h
  obtain ⟨hrun, hdone⟩ := sequentialRun_spec noTreesummary ⟨0, 0, 0⟩ wellFormed_slashR uid5Index
  have hA : DirTree.node [47, 114, 47, 65] [] ∈ slashR.subdirs := by
    simp [slashR, siblingTree, DirTree.subdirs]
  have hpaths := h _ _ _ _ _ _ _ slashR slashR [46, 46] (typed [46, 46]) _ wellFormed_slashR
    (indexed_uid5Index _) Relation.ReflTransGen.refl hrun slashR.self_mem_subtrees
    (hdone _ slashR.self_mem_subtrees) (by decide) rfl slashR.self_mem_subtrees Walked.start
    (1, .node [47, 114, 47, 65] []) (by simp [DirTree.levels_eq, slashR, siblingTree,
      DirTree.subdirs]) Nat.one_ne_zero _ rfl _ (List.mem_singleton.mpr rfl) _
    (Walked.start.child hA)
  have hplain := hpaths.1 none
  revert hplain
  decide

end Example

end Gufi.RollupPaths
