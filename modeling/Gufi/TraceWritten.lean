import Gufi.Dir2TraceFraming
import Gufi.TaskWeights

/-!
# The files of a trace

When the lines of every directory come before those of the directories that are processed on the
spot, the files of `gufi_dir2trace` together have the stanza of each directory once, whichever
thread wrote it.
-/

namespace Gufi.Dir2Trace

open TaskStreams Stanzas

variable (cfg : TraceConfig)

/-- The line of a directory, if it gets one. -/
def SourceDir.header (dir : SourceDir) : Option TraceLine :=
  dir.opened.bind fun o => if cfg.Processes dir.level then some (directoryLine cfg dir o) else none

/-- The lines of the directories that get one. -/
def SourceDir.headers (dir : SourceDir) : List TraceLine :=
  (dir.reached cfg).filterMap (SourceDir.header cfg)

/-- A directory line counts, and other lines do not. -/
def headerOf (l : TraceLine) : Multiset TraceLine := if l.isDirectory then {l} else 0

/-- What is left of a directory writes each of its directory lines once. -/
def Listing.Counts (l : Listing) : Prop :=
  ∀ dir work dirs buf, weightOf (fun d => (d.headers cfg : Multiset TraceLine)) headerOf
    (descend cfg dir work dirs buf l).1 = ((l.reached cfg dir work).filterMap
      (SourceDir.header cfg) : Multiset TraceLine)

variable {cfg} {dir : SourceDir} {n : ℕ} {root : SourceDir} {s : State n ℕ SourceDir TraceLine}

theorem sink_injective (hfile : cfg.toStdout = false) :
    (cfg.sink : Fin n → ℕ).Injective := by
  intro i i' hi
  simpa [TraceConfig.sink, hfile, Fin.val_inj] using hi

theorem sum_headerOf (lines : List TraceLine) : (lines.map headerOf).sum =
    (lines.filter TraceLine.isDirectory : Multiset TraceLine) := by
  induction lines with
  | nil => rfl
  | cons l lines ih =>
      rw [List.map_cons, List.sum_cons, ih, headerOf]
      split_ifs with hl
      · rw [List.filter_cons_of_pos hl, Multiset.singleton_add, Multiset.cons_coe]
      · rw [List.filter_cons_of_neg hl, zero_add]

/-- A directory counts with those below it, if what is read of it does. -/
theorem SourceDir.counts_of_listing (hfile : cfg.toStdout = false)
    (hlisting : dir.listing.Counts cfg) :
    weightOf (fun d => (d.headers cfg : Multiset TraceLine)) headerOf (processdir cfg dir) =
      (dir.headers cfg : Multiset TraceLine) := by
  cases ho : dir.opened with
  | none =>
      have hreached : dir.reached cfg = [dir] := by rw [SourceDir.reached, ho]
      rw [processdir_of_not_opened ho, weightOf_nil, SourceDir.headers, hreached]
      simp [SourceDir.header, ho]
  | some o =>
      rw [SourceDir.headers, SourceDir.reached_of_opened ho]
      by_cases hlevel : cfg.Processes dir.level
      · have hheader : dir.header cfg = some (directoryLine cfg dir o) := by
          simp [SourceDir.header, ho, hlevel]
        rw [processdir_of_file hfile ho hlevel, weightOf_write, hlisting,
          List.filterMap_cons_some hheader]
        rfl
      · have hheader : dir.header cfg = none := by
          simp [SourceDir.header, ho, hlevel]
        have hprogram : processdir cfg dir =
            (descend cfg dir (dir.work o) 0 [] dir.listing).1 := by
          simp [processdir, processdirWith, ho, hlevel]
        rw [hprogram, hlisting, List.filterMap_cons_none hheader]

theorem Listing.counts (hfile : cfg.toStdout = false) (l : Listing) : l.Counts cfg := by
  induction l with
  | done => exact fun _ _ _ _ => weightOf_nil
  | nondir d externals rest ih =>
      intro dir work dirs buf
      rw [show (Listing.nondir d externals rest).reached cfg dir work =
        rest.reached cfg dir work from rfl]
      by_cases hskip : dir2indexSkips cfg.options d.name ∨ ¬cfg.Processes dir.level
      · rw [descend, if_pos hskip]
        exact ih ..
      · have hnone : weightOf (fun d => (d.headers cfg : Multiset TraceLine)) headerOf
            ((entryLines cfg dir work d ++ externalLines cfg dir work d externals).map
              fun l => (.write [l] : TraceAction)) = 0 := by
          rw [weightOf, enqueued_map_write, written_map_write, sum_headerOf,
            List.filter_eq_nil_iff.mpr]
          · rfl
          · intro l hl
            rcases List.mem_append.mp hl with hl | hl
            · simpa using isDirectory_entryLines cfg dir work l hl
            · simpa using isDirectory_externalLines cfg dir work l hl
        rw [descend_nondir_of_file hfile hskip, weightOf_append, hnone, zero_add]
        exact ih ..
  | subdir name opened children rest ihchildren ih =>
      intro dir work dirs buf
      obtain ⟨hskip, hdescend⟩ | ⟨hkept, -, hdescend⟩ | ⟨hkept, -, hdescend⟩ :=
        descend_subdir_cases cfg dir work dirs buf name opened children rest
      · rw [hdescend, reached_subdir_of_skip hskip]
        exact ih ..
      · rw [hdescend, reached_subdir hkept, weightOf_enqueue, ih, List.filterMap_append]
        rfl
      · rw [hdescend, reached_subdir hkept, weightOf_append,
          SourceDir.counts_of_listing hfile ihchildren, ih, List.filterMap_append]
        rfl

/-- The files together have each directory line once. -/
theorem headers_streams (hfile : cfg.toStdout = false)
    (h : Reaches (processdir cfg) cfg.sink root s) (hdone : s.Complete) :
    ((List.finRange n).flatMap fun i => (s.streams (cfg.sink i)).filter TraceLine.isDirectory).Perm
      (root.headers cfg) := by
  have hsum := h.sum_streams (fun t => SourceDir.counts_of_listing hfile (t.listing.counts hfile))
    (sink_injective hfile) hdone
  have hflat (is : List (Fin n)) :
      (is.map fun i => ((s.streams (cfg.sink i)).map headerOf).sum).sum =
        (is.flatMap fun i => (s.streams (cfg.sink i)).filter TraceLine.isDirectory :
          Multiset TraceLine) := by
    induction is with
    | nil => rfl
    | cons i is ih =>
        rw [List.map_cons, List.sum_cons, ih, sum_headerOf, List.flatMap_cons, Multiset.coe_add]
  rw [Fin.sum_univ_def, hflat] at hsum
  exact Multiset.coe_eq_coe.mp hsum

/-- The file of a thread is the stanzas of its directory lines. -/
theorem stream_eq_stanzas (hfile : cfg.toStdout = false)
    (h : Reaches (processdir cfg) cfg.sink root s) (hdone : s.Complete)
    (hframed : ∀ d ∈ root.reached cfg, d.Framed cfg) (i : Fin n) :
    s.streams (cfg.sink i) = ((s.streams (cfg.sink i)).filter TraceLine.isDirectory).flatMap
      fun l => l :: l.body cfg := by
  obtain ⟨ran, hran⟩ := h.accounts
  have hstream := hran.stream_eq hdone (sink_injective hfile) i
  have hspawned := (spawned_wellFramed_iff hfile root).mpr hframed
  apply WellFramed.eq_flatMap
  · rw [hstream, wellFramed_flatMap fun t _ => (t.exact hfile).1]
    exact fun t ht => hspawned t ((hran.ran_iff_spawned hdone t).mp ⟨i, ht⟩)
  · rw [hstream]
    have hfirst : ∀ ts : List SourceDir, HeaderFirst TraceLine.isDirectory
        (ts.flatMap fun t => written (processdir cfg t)) := by
      intro ts
      induction ts with
      | nil => exact headerFirst_nil
      | cons t ts ih => exact (t.exact hfile).1.append ih
    exact hfirst _

end Gufi.Dir2Trace
