import Gufi.TraceFraming
import Gufi.TraceIndex
import Gufi.TraceWritten

/-!
# The trace of a source

`gufi_dir2trace` reads the same directories as `gufi_dir2index`. Here they are the tree that it goes
through, and its files are the traces of what both programs read.
-/

namespace Gufi.TraceIndex

open UnixAccess Relation TaskStreams
open IndexBuild (Source DirWork Input opened subdirs listed childOf)
open Dir2Trace (Listing SourceDir TraceLine TraceConfig Opened directoryLine entryLines)

section Tree

variable (src : Source)

/-- `opendir` and `lstat`. -/
def openedOf (path : Bytes) : Option Opened :=
  (src.opendir path).bind fun _ => (src.lstat path).map fun st => ⟨st.1, st.2, src.xattrs path⟩

/-- No file names databases of users. -/
def listingOf (below : Bytes → Option Opened × Listing) : List Dirent → Listing
  | [] => .done
  | d :: dirents =>
      if d.type = .directory then
        .subdir d.name (below d.name).1 (below d.name).2 (listingOf below dirents)
      else .nondir d [] (listingOf below dirents)

/-- What is read of a directory, down to a number of levels. -/
def readdir : ℕ → Bytes → Listing
  | 0, _ => .done
  | n + 1, path => (src.opendir path).elim .done (listingOf fun name =>
      (openedOf src (path ++ slash :: name), readdir n (path ++ slash :: name)))

variable (ins : Input)

/-- A directory with what is below it down to the last level. -/
def treeOf (w : DirWork) : SourceDir :=
  ⟨w.name, w.basenameLen, w.pinode, w.level, openedOf src w.name,
    readdir src (ins.maxLevel + 1 - w.level) w.name⟩

/-- A directory, and those below it that are processed. -/
def sourceDirs : ℕ → DirWork → List DirWork
  | 0, w => [w]
  | n + 1, w => w :: (listed ins src w).flatMap (sourceDirs n)

/-- The options of `gufi_dir2trace` that `gufi_dir2index` has too, and the limit of subdirectories.
The trace goes to files. -/
def traceConfig (subdirLimit : ℕ) : TraceConfig :=
  ⟨ins.options, false, ins.minLevel, ins.maxLevel, subdirLimit, false⟩

/-- The directory and its files and links, as they are read. -/
def listingAt (w : DirWork) : Option Trace.Listing :=
  if w.inRange ins then
    (opened src w).map fun x => ⟨(x.1, directoryData ins.options (src.xattrs w.name)),
      loopItems ins.options x.1 x.2 (dir2indexSkips ins.options)⟩
  else none

end Tree

section Lines

variable (delim : UInt8) (prefixLen : ℕ) (cfg : TraceConfig)

/-- How a line is written. -/
def lineBytes : TraceLine → Bytes
  | .directory _ work ed => Trace.worktofile delim prefixLen work ed
  | .entry _ work ed => Trace.worktofile delim prefixLen work ed
  | .external _ path => externalColumns delim path ++ [10]

def itemOf : TraceLine → Option Trace.Item
  | .directory _ work ed => some (work, ed)
  | .entry _ work ed => some (work, ed)
  | .external .. => none

/-- The directory of a line, with the files and links that it asks for. -/
def stanzaOf : TraceLine → Option Trace.Listing
  | .directory dir work ed =>
      some ⟨(work, ed), ((TraceLine.directory dir work ed).body cfg).filterMap itemOf⟩
  | _ => none

end Lines

section Reached

variable {src : Source} {ins : Input} {w : DirWork} {work : Trace.Work}
  {dirents : List Dirent}

theorem reached_listingOf (cfg : TraceConfig) (dir : SourceDir) (work : Trace.Work)
    (below : Bytes → Option Opened × Listing) (dirents : List Dirent) :
    (listingOf below dirents).reached cfg dir work =
      if dir.level + 1 ≤ cfg.maxLevel then
        (dirents.filter fun d =>
          d.type = .directory ∧ dir2indexSkips cfg.options d.name = false).flatMap fun d =>
            (dir.child work d.name (below d.name).1 (below d.name).2).reached cfg
      else [] := by
  induction dirents with
  | nil =>
      rw [listingOf, Listing.reached]
      split_ifs <;> rfl
  | cons d dirents ih =>
      rw [listingOf]
      by_cases htype : d.type = .directory
      · rw [if_pos htype]
        by_cases hskip : dir2indexSkips cfg.options d.name ∨ cfg.maxLevel < dir.level + 1
        · rw [Dir2Trace.reached_subdir_of_skip hskip, ih]
          split_ifs with hlevel
          · have hskipped : dir2indexSkips cfg.options d.name = true :=
              hskip.resolve_right (not_lt.mpr hlevel)
            rw [List.filter_cons_of_neg (by simp [hskipped])]
          · rfl
        · obtain ⟨hkept, hlevel⟩ := not_or.mp hskip
          rw [Dir2Trace.reached_subdir hskip, ih, if_pos (not_lt.mp hlevel),
            List.filter_cons_of_pos (by simp [htype, hkept])]
          rw [List.flatMap_cons, if_pos (not_lt.mp hlevel)]
      · rw [if_neg htype, List.filter_cons_of_neg (by simp [htype])]
        exact ih

/-- What `opendir` and `lstat` return goes into the work item. -/
theorem opened_eq_some (ins : Input) (h : opened src w = some (work, dirents)) :
    src.opendir w.name = some dirents ∧ ∃ o, openedOf src w.name = some o ∧
      (treeOf src ins w).work o = work ∧ o.xattrs = src.xattrs w.name := by
  obtain ⟨ds, hds, hst⟩ := Option.bind_eq_some_iff.mp h
  obtain ⟨st, hlstat, heq⟩ := Option.map_eq_some_iff.mp hst
  cases heq
  refine ⟨hds, ⟨st.1, st.2, src.xattrs w.name⟩, ?_, rfl, rfl⟩
  rw [openedOf, hds, hlstat]
  rfl

theorem openedOf_eq_none (h : opened src w = none) : openedOf src w.name = none := by
  rw [opened] at h
  rw [openedOf]
  cases hopendir : src.opendir w.name with
  | none => rfl
  | some dirents =>
      rw [hopendir, Option.bind_some, Option.map_eq_none_iff] at h
      rw [Option.bind_some, h, Option.map_none]

/-- What is below a directory of the tree. -/
theorem listing_treeOf (hlevel : w.level ≤ ins.maxLevel)
    (hopendir : src.opendir w.name = some dirents) : (treeOf src ins w).listing =
      listingOf (fun name => (openedOf src (w.name ++ slash :: name),
        readdir src (ins.maxLevel - w.level) (w.name ++ slash :: name))) dirents := by
  change readdir src (ins.maxLevel + 1 - w.level) w.name = _
  rw [show ins.maxLevel + 1 - w.level = ins.maxLevel - w.level + 1 by omega, readdir, hopendir]
  rfl

/-- The program gets to the directories of the source. -/
theorem reached_treeOf (subdirLimit : ℕ) (w : DirWork) (hw : w.level ≤ ins.maxLevel) :
    (treeOf src ins w).reached (traceConfig ins subdirLimit) =
      (sourceDirs src ins (ins.maxLevel - w.level) w).map (treeOf src ins) := by
  generalize hn : ins.maxLevel - w.level = n
  induction n generalizing w with
  | zero =>
      cases hopened : opened src w with
      | none =>
          have hnone : (treeOf src ins w).opened = none := openedOf_eq_none hopened
          rw [SourceDir.reached, hnone]
          rfl
      | some x =>
          obtain ⟨work, dirents⟩ := x
          obtain ⟨hopendir, o, ho, -⟩ := opened_eq_some ins hopened
          have hlast : ¬(treeOf src ins w).level + 1 ≤ (traceConfig ins subdirLimit).maxLevel := by
            change ¬w.level + 1 ≤ ins.maxLevel
            omega
          rw [SourceDir.reached_of_opened ho, listing_treeOf hw hopendir, reached_listingOf,
            if_neg hlast]
          rfl
  | succ n ih =>
      cases hopened : opened src w with
      | none =>
          have hnone : (treeOf src ins w).opened = none := openedOf_eq_none hopened
          have hlisted : listed ins src w = [] := by rw [listed, hopened, Option.elim_none]
          rw [SourceDir.reached, hnone, sourceDirs, hlisted]
          rfl
      | some x =>
          obtain ⟨work, dirents⟩ := x
          obtain ⟨hopendir, o, ho, hwork, -⟩ := opened_eq_some ins hopened
          have hnext : w.level + 1 ≤ ins.maxLevel := by omega
          have hgo : (treeOf src ins w).level + 1 ≤ (traceConfig ins subdirLimit).maxLevel := hnext
          have hlisted : listed ins src w = (dirents.filter fun d =>
              d.type = .directory ∧ dir2indexSkips ins.options d.name = false).map
                (childOf w work) := by
            rw [listed, hopened, Option.elim_some, subdirs, if_pos hnext]
          rw [SourceDir.reached_of_opened ho, listing_treeOf hw hopendir, reached_listingOf,
            if_pos hgo, hwork, sourceDirs, hlisted, List.flatMap_map, List.map_cons,
            List.map_flatMap]
          congr 1
          apply List.flatMap_congr
          intro d _
          have hchild := ih (childOf w work d) hnext (by
            change ins.maxLevel - (w.level + 1) = n
            omega)
          rw [← hchild]
          have hfuel : ins.maxLevel - w.level = ins.maxLevel + 1 - (w.level + 1) := by omega
          rw [hfuel]
          rfl

theorem ownLines_listingOf (cfg : TraceConfig) (dir : SourceDir) (work : Trace.Work)
    (below : Bytes → Option Opened × Listing) (dirents : List Dirent) :
    (listingOf below dirents).ownLines cfg dir work =
      (loopItems cfg.options work dirents (dir2indexSkips cfg.options)).map fun item =>
        .entry dir item.1 item.2 := by
  induction dirents with
  | nil => rfl
  | cons d dirents ih =>
      rw [loopItems] at ih ⊢
      rw [listingOf]
      have hexternal : Dir2Trace.externalLines cfg dir work d [] = [] := by
        rw [Dir2Trace.externalLines]
        split_ifs <;> rfl
      cases hskip : dir2indexSkips cfg.options d.name with
      | true =>
          rw [List.filter_cons_of_neg (by simp [hskip])]
          split_ifs
          · exact ih
          · rw [Listing.ownLines, hskip, if_pos rfl]
            exact ih
      | false =>
          rw [List.filter_cons_of_pos (by simp [hskip])]
          by_cases htype : d.type = .directory
          · have hnone : direntItem cfg.options work d = none := by
              rw [direntItem, htype]
            rw [if_pos htype, List.filterMap_cons_none hnone]
            exact ih
          · rw [if_neg htype, Listing.ownLines, hskip, if_neg Bool.false_ne_true, hexternal,
              List.append_nil, ih, entryLines]
            cases hitem : direntItem cfg.options work d with
            | none => rw [List.filterMap_cons_none hitem]; rfl
            | some item => rw [List.filterMap_cons_some hitem]; rfl

variable (delim : UInt8) (prefixLen subdirLimit : ℕ)

/-- The line of a directory asks for its files and links. -/
theorem header_treeOf (hw : w.level ≤ ins.maxLevel) :
    (∃ l L, (treeOf src ins w).header (traceConfig ins subdirLimit) = some l ∧
      listingAt src ins w = some L ∧ stanzaOf (traceConfig ins subdirLimit) l = some L ∧
      (l :: l.body (traceConfig ins subdirLimit)).flatMap (lineBytes delim prefixLen) =
        Trace.traceOf delim prefixLen [L]) ∨
    ((treeOf src ins w).header (traceConfig ins subdirLimit) = none ∧
      listingAt src ins w = none) := by
  have hlevel : (traceConfig ins subdirLimit).Processes w.level ↔ w.inRange ins = true := by
    simp [TraceConfig.Processes, traceConfig, DirWork.inRange]
  cases hrange : w.inRange ins with
  | false =>
      have hnot : ¬(traceConfig ins subdirLimit).Processes w.level := by
        rw [hlevel, hrange]
        exact Bool.false_ne_true
      refine .inr ⟨?_, by rw [listingAt, hrange, if_neg Bool.false_ne_true]⟩
      cases ho : (treeOf src ins w).opened with
      | none => simp [SourceDir.header, ho]
      | some o => simp [SourceDir.header, ho, show ¬(traceConfig ins subdirLimit).Processes
          (treeOf src ins w).level from hnot]
  | true =>
      have hprocesses : (traceConfig ins subdirLimit).Processes (treeOf src ins w).level :=
        hlevel.mpr hrange
      cases hopened : opened src w with
      | none =>
          have hnone : (treeOf src ins w).opened = none := openedOf_eq_none hopened
          exact .inr ⟨by simp [SourceDir.header, hnone], by simp [listingAt, hopened]⟩
      | some x =>
          obtain ⟨work, dirents⟩ := x
          obtain ⟨hopendir, o, ho, hwork, hxattrs⟩ := opened_eq_some ins hopened
          have hopen : (treeOf src ins w).opened = some o := ho
          have hbody : (directoryLine (traceConfig ins subdirLimit) (treeOf src ins w) o).body
              (traceConfig ins subdirLimit) =
              (loopItems ins.options work dirents (dir2indexSkips ins.options)).map fun item =>
                .entry (treeOf src ins w) item.1 item.2 := by
            change (treeOf src ins w).ownLines (traceConfig ins subdirLimit) = _
            rw [SourceDir.ownLines_of_opened hopen, listing_treeOf hw hopendir,
              ownLines_listingOf, hwork]
            rfl
          have hline : directoryLine (traceConfig ins subdirLimit) (treeOf src ins w) o =
              .directory (treeOf src ins w) work
                (directoryData ins.options (src.xattrs w.name)) := by
            rw [directoryLine, hwork, hxattrs]
            rfl
          refine .inl ⟨directoryLine (traceConfig ins subdirLimit) (treeOf src ins w) o, _, ?_,
            by rw [listingAt, hrange, if_pos rfl, hopened, Option.map_some], ?_, ?_⟩
          · simp [SourceDir.header, hopen, hprocesses]
          · rw [hline] at hbody ⊢
            rw [stanzaOf, hbody, List.filterMap_map]
            congr 2
            exact List.filterMap_some
          · rw [hbody, hline, List.flatMap_cons, List.flatMap_map, Trace.traceOf,
              List.flatMap_singleton, Trace.Listing.items, List.flatMap_cons]
            rfl

theorem level_le_of_mem_sourceDirs {n : ℕ} {v : DirWork} (hw : w.level ≤ ins.maxLevel)
    (hv : v ∈ sourceDirs src ins n w) : v.level ≤ ins.maxLevel := by
  induction n generalizing w with
  | zero => rwa [List.mem_singleton.mp hv]
  | succ n ih =>
      rcases List.mem_cons.mp hv with rfl | hv
      · exact hw
      · obtain ⟨c, hc, hv⟩ := List.mem_flatMap.mp hv
        refine ih ?_ hv
        rw [listed] at hc
        cases hopened : opened src w with
        | none =>
            rw [hopened] at hc
            cases hc
        | some x =>
            rw [hopened] at hc
            obtain ⟨hlevel, hmax, -⟩ := IndexBuild.mem_subdirs hopened hc
            rw [hlevel]
            exact hmax

/-- A line of a directory of the tree. -/
theorem exists_of_mem_headers (hw : w.level ≤ ins.maxLevel) {l : TraceLine}
    (hl : l ∈ (treeOf src ins w).headers (traceConfig ins subdirLimit)) :
    ∃ L, stanzaOf (traceConfig ins subdirLimit) l = some L ∧
      (l :: l.body (traceConfig ins subdirLimit)).flatMap (lineBytes delim prefixLen) =
        Trace.traceOf delim prefixLen [L] := by
  rw [SourceDir.headers, reached_treeOf subdirLimit w hw] at hl
  obtain ⟨dir, hdir, hl⟩ := List.mem_filterMap.mp hl
  obtain ⟨v, hv, rfl⟩ := List.mem_map.mp hdir
  rcases header_treeOf delim prefixLen subdirLimit
    (level_le_of_mem_sourceDirs hw hv) with ⟨l', L, hheader, -, hstanza, hbytes⟩ | ⟨hheader, -⟩
  · rw [hheader] at hl
    cases hl
    exact ⟨L, hstanza, hbytes⟩
  · rw [hheader] at hl
    cases hl

theorem flatMap_stanzas {delim : UInt8} {prefixLen : ℕ} {cfg : TraceConfig} {lines : List TraceLine}
    (h : ∀ l ∈ lines, ∃ L, stanzaOf cfg l = some L ∧
      (l :: l.body cfg).flatMap (lineBytes delim prefixLen) =
        Trace.traceOf delim prefixLen [L]) :
    (lines.flatMap fun l => (l :: l.body cfg).flatMap (lineBytes delim prefixLen)) =
      Trace.traceOf delim prefixLen (lines.filterMap (stanzaOf cfg)) := by
  induction lines with
  | nil => rfl
  | cons l lines ih =>
      rw [List.forall_mem_cons] at h
      obtain ⟨L, hstanza, hbytes⟩ := h.1
      rw [List.flatMap_cons, List.filterMap_cons_some hstanza, hbytes, ih h.2]
      exact List.flatMap_append.symm

theorem stanzas_headers (hw : w.level ≤ ins.maxLevel) :
    ((treeOf src ins w).headers (traceConfig ins subdirLimit)).filterMap
        (stanzaOf (traceConfig ins subdirLimit)) =
      (sourceDirs src ins (ins.maxLevel - w.level) w).filterMap (listingAt src ins) := by
  rw [SourceDir.headers, reached_treeOf subdirLimit w hw, List.filterMap_filterMap, List.filterMap_map]
  apply List.filterMap_congr
  intro v hv
  rcases header_treeOf 0 0 subdirLimit
    (level_le_of_mem_sourceDirs hw hv) with ⟨l, L, hheader, hlisting, hstanza, -⟩ |
      ⟨hheader, hlisting⟩
  · rw [hlisting, Function.comp_apply, hheader]
    exact hstanza
  · rw [hlisting, Function.comp_apply, hheader]
    rfl

variable {n : ℕ} {s : TaskStreams.State n ℕ SourceDir TraceLine}

/-- Each file is the trace of some of the directories, and together they have each directory
once. -/
theorem exists_listings (hw : w.level ≤ ins.maxLevel)
    (h : Reaches (Dir2Trace.processdir (traceConfig ins subdirLimit))
      (traceConfig ins subdirLimit).sink (treeOf src ins w) s) (hdone : s.Complete)
    (hframed : ∀ d ∈ (treeOf src ins w).reached (traceConfig ins subdirLimit),
      d.Framed (traceConfig ins subdirLimit)) :
    ∃ ls : Fin n → List Trace.Listing,
      (∀ i, (s.streams ((traceConfig ins subdirLimit).sink i)).flatMap
        (lineBytes delim prefixLen) = Trace.traceOf delim prefixLen (ls i)) ∧
      ((List.finRange n).flatMap ls).Perm
        ((sourceDirs src ins (ins.maxLevel - w.level) w).filterMap (listingAt src ins)) := by
  let cfg := traceConfig ins subdirLimit
  let lines (i : Fin n) := (s.streams (cfg.sink i)).filter TraceLine.isDirectory
  have hperm := Dir2Trace.headers_streams (show cfg.toStdout = false from rfl) h hdone
  refine ⟨fun i => (lines i).filterMap (stanzaOf cfg), fun i => ?_, ?_⟩
  · have hmem : ∀ l ∈ lines i, l ∈ (treeOf src ins w).headers cfg := fun l hl =>
      hperm.mem_iff.mp (List.mem_flatMap.mpr ⟨i, List.mem_finRange i, hl⟩)
    rw [Dir2Trace.stream_eq_stanzas (show cfg.toStdout = false from rfl) h hdone hframed i, List.flatMap_assoc]
    exact flatMap_stanzas fun l hl => exists_of_mem_headers delim prefixLen subdirLimit hw (hmem l hl)
  · rw [← stanzas_headers subdirLimit hw]
    have hstanzas := hperm.filterMap (stanzaOf cfg)
    rwa [List.filterMap_flatMap] at hstanzas

end Reached

end Gufi.TraceIndex
