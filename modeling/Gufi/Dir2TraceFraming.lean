import Gufi.Dir2Trace

/-!
# Stanzas of a written trace

The output of a task is well framed exactly if the lines of each directory that it processes come
before the subdirectories that it processes on the spot, and on `stdout` exactly if there are no
external databases. `wellFramed_iff` says this of the streams of a whole run.
-/

namespace Gufi.Dir2Trace

open TaskStreams Stanzas

section Lines

variable (cfg : TraceConfig) (dir : SourceDir) (work : Trace.Work)

theorem isDirectory_entryLines {d : Dirent} :
    ∀ l ∈ entryLines cfg dir work d, l.isDirectory = false := by
  intro l hl
  unfold entryLines at hl
  split at hl
  · rw [List.mem_singleton.mp hl]
    rfl
  · exact nomatch hl

theorem isDirectory_externalLines {d : Dirent} {externals : List ExternalLine} :
    ∀ l ∈ externalLines cfg dir work d externals, l.isDirectory = false := by
  intro l hl
  unfold externalLines at hl
  split_ifs at hl
  · obtain ⟨path, -, rfl⟩ := List.mem_map.mp hl
    rfl
  · exact nomatch hl

variable {cfg dir work}

theorem linesFirst_of_ownLines_eq_nil {l : Listing} (h : l.ownLines cfg dir work = []) (dirs : ℕ) :
    l.LinesFirst cfg dir work dirs := by
  induction l generalizing dirs with
  | done => trivial
  | nondir d externals rest ih =>
      exact ih (List.append_eq_nil_iff.mp h).2 dirs
  | subdir name opened children rest _ ih =>
      rw [Listing.LinesFirst]
      split_ifs
      · exact ih h dirs
      · exact ⟨fun _ _ _ => h, ih h (dirs + 1)⟩

end Lines

section Files

variable {cfg : TraceConfig}

/-- What comes of the tasks that are enqueued is well framed. -/
def SpawnFramed (cfg : TraceConfig) (as : List TraceAction) : Prop :=
  ∀ t ∈ enqueued as, ∀ t', Spawned (processdir cfg) t t' →
    WellFramed cfg (written (processdir cfg t'))

theorem spawnFramed_append {as bs : List TraceAction} :
    SpawnFramed cfg (as ++ bs) ↔ SpawnFramed cfg as ∧ SpawnFramed cfg bs := by
  rw [SpawnFramed, enqueued_append, List.forall_mem_append]
  rfl

theorem spawnFramed_enqueue {t : SourceDir} {as : List TraceAction} :
    SpawnFramed cfg (.enqueue t :: as) ↔
      (WellFramed cfg (written (processdir cfg t)) ∧ SpawnFramed cfg (processdir cfg t)) ∧
        SpawnFramed cfg as := by
  rw [SpawnFramed, enqueued_enqueue, List.forall_mem_cons, forall_spawned_iff]
  rfl

/-- The output of the task of a directory begins with a directory line. It is well framed, with
what comes of the task, exactly if all directories that are reached are. -/
def SourceDir.Exact (cfg : TraceConfig) (dir : SourceDir) : Prop :=
  HeaderFirst TraceLine.isDirectory (written (processdir cfg dir)) ∧
    (WellFramed cfg (written (processdir cfg dir)) ∧ SpawnFramed cfg (processdir cfg dir) ↔
      ∀ d ∈ dir.reached cfg, d.Framed cfg)

/-- The same of the rest of a directory that has no lines of its own any more, or none at all. -/
def Listing.ExactClosed (cfg : TraceConfig) (l : Listing) : Prop :=
  ∀ dir work dirs buf, ¬cfg.Processes dir.level ∨ l.ownLines cfg dir work = [] →
    HeaderFirst TraceLine.isDirectory (written (descend cfg dir work dirs buf l).1) ∧
    (WellFramed cfg (written (descend cfg dir work dirs buf l).1) ∧
        SpawnFramed cfg (descend cfg dir work dirs buf l).1 ↔
      ∀ d ∈ l.reached cfg dir work, d.Framed cfg)

/-- The same of the rest of a directory whose line was written, with some of its lines. -/
def Listing.ExactOpen (cfg : TraceConfig) (l : Listing) : Prop :=
  ∀ dir work dirs buf header lines, cfg.Processes dir.level → header.isDirectory = true →
    (∀ x ∈ lines, x.isDirectory = false) →
    header.body cfg = lines ++ l.ownLines cfg dir work →
    (WellFramed cfg (header :: (lines ++ written (descend cfg dir work dirs buf l).1)) ∧
        SpawnFramed cfg (descend cfg dir work dirs buf l).1 ↔
      l.LinesFirst cfg dir work dirs ∧ ∀ d ∈ l.reached cfg dir work, d.Framed cfg)

theorem processdir_of_file {dir : SourceDir} {o : Opened} (hfile : cfg.toStdout = false)
    (ho : dir.opened = some o) (hlevel : cfg.Processes dir.level) :
    processdir cfg dir = .write [directoryLine cfg dir o] ::
      (descend cfg dir (dir.work o) 0 [] dir.listing).1 := by
  simp [processdir, processdirWith, ho, hlevel, hfile]

theorem processdir_of_not_opened {dir : SourceDir} (ho : dir.opened = none) :
    processdir cfg dir = [] := by
  simp [processdir, processdirWith, ho]

theorem SourceDir.Exact.of_listing {dir : SourceDir} (hfile : cfg.toStdout = false)
    (hclosed : dir.listing.ExactClosed cfg) (hopen : dir.listing.ExactOpen cfg) :
    dir.Exact cfg := by
  cases ho : dir.opened with
  | none =>
      have hframed : dir.Framed cfg := by
        intro o hsome
        rw [ho] at hsome
        exact nomatch hsome
      rw [Exact, processdir_of_not_opened ho, reached, ho]
      simpa [SpawnFramed, hframed, headerFirst_nil] using wellFramed_nil
  | some o =>
      by_cases hlevel : cfg.Processes dir.level
      · have hframed : dir.Framed cfg ↔ dir.listing.LinesFirst cfg dir (dir.work o) 0 := by
          simp [Framed, ho, hlevel, hfile]
        have hbody : (directoryLine cfg dir o).body cfg =
            [] ++ dir.listing.ownLines cfg dir (dir.work o) := by
          simp [directoryLine, TraceLine.body, ownLines, ho]
        have hiff := hopen dir (dir.work o) 0 [] (directoryLine cfg dir o) [] hlevel rfl
          (by simp) hbody
        rw [Exact, processdir_of_file hfile ho hlevel, reached, ho, List.forall_mem_cons, hframed,
          written_write]
        exact ⟨headerFirst_cons rfl, hiff⟩
      · have hprogram : processdir cfg dir =
            (descend cfg dir (dir.work o) 0 [] dir.listing).1 := by
          simp [processdir, processdirWith, ho, hlevel]
        have hframed : dir.Framed cfg := fun _ _ h => absurd h hlevel
        rw [Exact, hprogram, reached, ho, List.forall_mem_cons, and_iff_right hframed]
        exact hclosed dir (dir.work o) 0 [] (.inl hlevel)

variable {dir : SourceDir} {work : Trace.Work} {dirs : ℕ} {buf : List TraceLine}

theorem descend_nondir_of_file (hfile : cfg.toStdout = false) {d : Dirent}
    {externals : List ExternalLine} {rest : Listing}
    (hkept : ¬(dir2indexSkips cfg.options d.name ∨ ¬cfg.Processes dir.level)) :
    (descend cfg dir work dirs buf (.nondir d externals rest)).1 =
      (entryLines cfg dir work d ++ externalLines cfg dir work d externals).map
        (fun l => .write [l]) ++ (descend cfg dir work dirs buf rest).1 := by
  rw [descend, if_neg hkept]
  simp [processNondir, hfile]

/-- A subdirectory is skipped, becomes a task, or is processed on the spot. -/
theorem descend_subdir_cases (cfg : TraceConfig) (dir : SourceDir) (work : Trace.Work) (dirs : ℕ)
    (buf : List TraceLine) (name : Bytes) (opened : Option Opened) (children rest : Listing) :
    ((dir2indexSkips cfg.options name ∨ cfg.maxLevel < dir.level + 1) ∧
      (descend cfg dir work dirs buf (.subdir name opened children rest)).1 =
        (descend cfg dir work dirs buf rest).1) ∨
    (¬(dir2indexSkips cfg.options name ∨ cfg.maxLevel < dir.level + 1) ∧
      (cfg.subdirLimit = 0 ∨ dirs < cfg.subdirLimit) ∧
      (descend cfg dir work dirs buf (.subdir name opened children rest)).1 =
        .enqueue (dir.child work name opened children) ::
          (descend cfg dir work (dirs + 1) buf rest).1) ∨
    (¬(dir2indexSkips cfg.options name ∨ cfg.maxLevel < dir.level + 1) ∧
      (cfg.subdirLimit ≠ 0 ∧ cfg.subdirLimit ≤ dirs) ∧
      (descend cfg dir work dirs buf (.subdir name opened children rest)).1 =
        processdir cfg (dir.child work name opened children) ++
          (descend cfg dir work (dirs + 1) buf rest).1) := by
  by_cases hskip : dir2indexSkips cfg.options name ∨ cfg.maxLevel < dir.level + 1
  · exact .inl ⟨hskip, by rw [descend, if_pos hskip]⟩
  · by_cases hlimit : cfg.subdirLimit = 0 ∨ dirs < cfg.subdirLimit
    · exact .inr (.inl ⟨hskip, hlimit, by rw [descend, if_neg hskip]; simp only [if_pos hlimit]⟩)
    · refine .inr (.inr ⟨hskip, by omega, ?_⟩)
      rw [descend, if_neg hskip]
      simp only [if_neg hlimit]
      rfl

theorem reached_subdir_of_skip {name : Bytes} {opened : Option Opened} {children rest : Listing}
    (hskip : dir2indexSkips cfg.options name ∨ cfg.maxLevel < dir.level + 1) :
    (Listing.subdir name opened children rest).reached cfg dir work =
      rest.reached cfg dir work := by
  rw [Listing.reached, if_pos hskip]

theorem reached_subdir {name : Bytes} {opened : Option Opened} {children rest : Listing}
    (hkept : ¬(dir2indexSkips cfg.options name ∨ cfg.maxLevel < dir.level + 1)) :
    (Listing.subdir name opened children rest).reached cfg dir work =
      (dir.child work name opened children).reached cfg ++ rest.reached cfg dir work := by
  rw [Listing.reached, if_neg hkept]
  rfl

variable {d : Dirent} {externals : List ExternalLine} {name : Bytes} {opened : Option Opened}
  {children rest : Listing}

theorem Listing.exactClosed_nondir (hfile : cfg.toStdout = false) (hrest : rest.ExactClosed cfg) :
    (Listing.nondir d externals rest).ExactClosed cfg := by
  intro dir work dirs buf hown
  have hsame : written (descend cfg dir work dirs buf (.nondir d externals rest)).1 =
      written (descend cfg dir work dirs buf rest).1 ∧
      enqueued (descend cfg dir work dirs buf (.nondir d externals rest)).1 =
      enqueued (descend cfg dir work dirs buf rest).1 := by
    by_cases hskip : dir2indexSkips cfg.options d.name ∨ ¬cfg.Processes dir.level
    · rw [descend, if_pos hskip]
      exact ⟨rfl, rfl⟩
    · have hnil := (List.append_eq_nil_iff.mp (hown.resolve_left fun h => hskip (.inr h))).1
      rw [if_neg fun h => hskip (.inl h)] at hnil
      rw [descend_nondir_of_file hfile hskip, hnil]
      exact ⟨rfl, rfl⟩
  rw [hsame.1, SpawnFramed, hsame.2]
  exact hrest dir work dirs buf (hown.imp_right fun h => (List.append_eq_nil_iff.mp h).2)

theorem Listing.exactOpen_nondir (hfile : cfg.toStdout = false) (hrest : rest.ExactOpen cfg) :
    (Listing.nondir d externals rest).ExactOpen cfg := by
  intro dir work dirs buf header lines hlevel hheader hlines hbody
  by_cases hskip : dir2indexSkips cfg.options d.name = true
  · rw [ownLines, if_pos hskip, List.nil_append] at hbody
    rw [descend, if_pos (.inl hskip)]
    exact hrest dir work dirs buf header lines hlevel hheader hlines hbody
  · have hkept : ¬(dir2indexSkips cfg.options d.name ∨ ¬cfg.Processes dir.level) := by
      simpa [hlevel] using hskip
    have hmore : ∀ x ∈ lines ++
        (entryLines cfg dir work d ++ externalLines cfg dir work d externals),
        x.isDirectory = false := by
      refine List.forall_mem_append.mpr ⟨hlines, List.forall_mem_append.mpr ⟨?_, ?_⟩⟩
      · exact isDirectory_entryLines cfg dir work
      · exact isDirectory_externalLines cfg dir work
    rw [ownLines, if_neg hskip, ← List.append_assoc] at hbody
    rw [descend_nondir_of_file hfile hkept, written_append, written_map_write,
      SpawnFramed, enqueued_append, enqueued_map_write, List.nil_append, ← List.append_assoc]
    exact hrest dir work dirs buf header _ hlevel hheader hmore hbody

theorem Listing.exactClosed_subdir (hrest : rest.ExactClosed cfg)
    (hchild : ∀ (dir : SourceDir) work, (dir.child work name opened children).Exact cfg) :
    (Listing.subdir name opened children rest).ExactClosed cfg := by
  intro dir work dirs buf hown
  specialize hchild dir work
  obtain ⟨hskip, hdescend⟩ | ⟨hkept, -, hdescend⟩ | ⟨hkept, -, hdescend⟩ :=
    descend_subdir_cases cfg dir work dirs buf name opened children rest
  · rw [hdescend, reached_subdir_of_skip hskip]
    exact hrest dir work dirs buf hown
  · obtain ⟨hfirst, hiff⟩ := hrest dir work (dirs + 1) buf hown
    rw [hdescend, reached_subdir hkept, written_enqueue, spawnFramed_enqueue,
      List.forall_mem_append, hchild.2, ← hiff]
    exact ⟨hfirst, by tauto⟩
  · obtain ⟨hfirst, hiff⟩ := hrest dir work (dirs + 1) buf hown
    rw [hdescend, reached_subdir hkept, written_append, spawnFramed_append,
      List.forall_mem_append, ← hchild.2, ← hiff, WellFramed, wellFramed_append hfirst]
    exact ⟨hchild.1.append hfirst, by tauto⟩

/-- A subdirectory that is processed on the spot ends the stanza. -/
theorem Listing.exactOpen_insitu (name : Bytes) (opened : Option Opened) (children : Listing)
    (hfile : cfg.toStdout = false) (hclosed : rest.ExactClosed cfg) (hopen : rest.ExactOpen cfg)
    (dir : SourceDir) (work : Trace.Work) (dirs : ℕ) (buf lines : List TraceLine)
    (header : TraceLine) (hlevel : cfg.Processes dir.level)
    (hmax : ¬cfg.maxLevel < dir.level + 1) (hheader : header.isDirectory = true)
    (hlines : ∀ x ∈ lines, x.isDirectory = false)
    (hbody : header.body cfg = lines ++ rest.ownLines cfg dir work) :
    (WellFramed cfg (header :: (lines ++
          (written (processdir cfg (dir.child work name opened children)) ++
            written (descend cfg dir work dirs buf rest).1))) ∧
        SpawnFramed cfg (processdir cfg (dir.child work name opened children)) ∧
        SpawnFramed cfg (descend cfg dir work dirs buf rest).1 ↔
      ((opened.isSome → rest.ownLines cfg dir work = []) ∧ rest.LinesFirst cfg dir work dirs) ∧
        (WellFramed cfg (written (processdir cfg (dir.child work name opened children))) ∧
          SpawnFramed cfg (processdir cfg (dir.child work name opened children))) ∧
        ∀ d ∈ rest.reached cfg dir work, d.Framed cfg) := by
  cases opened with
  | none =>
      have hiff := hopen dir work dirs buf header lines hlevel hheader hlines hbody
      have hempty : WellFramed cfg [] := wellFramed_nil
      rw [processdir_of_not_opened rfl, written_nil, List.nil_append, ← and_assoc,
        and_right_comm, hiff]
      simp only [Option.isSome_none, Bool.false_eq_true, false_imp_iff, true_and, hempty]
      tauto
  | some o =>
      have hprocesses : cfg.Processes (dir.child work name (some o) children).level :=
        ⟨hlevel.1.trans (Nat.le_succ _), Nat.le_of_not_lt hmax⟩
      have hfirst : HeaderFirst TraceLine.isDirectory
          (written (processdir cfg (dir.child work name (some o) children)) ++
            written (descend cfg dir work dirs buf rest).1) := by
        rw [processdir_of_file hfile rfl hprocesses]
        exact headerFirst_cons rfl
      have hall : lines = header.body cfg ↔ rest.ownLines cfg dir work = [] := by
        rw [hbody]
        exact List.self_eq_append_right
      rw [WellFramed, wellFramed_open_iff hheader hlines hfirst, hall]
      by_cases hnil : rest.ownLines cfg dir work = []
      · obtain ⟨hrest, hiff⟩ := hclosed dir work dirs buf (.inr hnil)
        have hlinesFirst := linesFirst_of_ownLines_eq_nil hnil dirs
        rw [wellFramed_append hrest, ← hiff]
        simp only [hnil, hlinesFirst, implies_true, true_and]
        tauto
      · simp [hnil]

theorem Listing.exactOpen_subdir (hfile : cfg.toStdout = false) (hclosed : rest.ExactClosed cfg)
    (hopen : rest.ExactOpen cfg)
    (hchild : ∀ (dir : SourceDir) work, (dir.child work name opened children).Exact cfg) :
    (Listing.subdir name opened children rest).ExactOpen cfg := by
  intro dir work dirs buf header lines hlevel hheader hlines hbody
  specialize hchild dir work
  obtain ⟨hskip, hdescend⟩ | ⟨hkept, hlimit, hdescend⟩ | ⟨hkept, hlimit, hdescend⟩ :=
    descend_subdir_cases cfg dir work dirs buf name opened children rest
  · rw [hdescend, reached_subdir_of_skip hskip, LinesFirst, if_pos hskip]
    exact hopen dir work dirs buf header lines hlevel hheader hlines hbody
  · have hiff := hopen dir work (dirs + 1) buf header lines hlevel hheader hlines hbody
    have hlate : cfg.subdirLimit ≠ 0 → cfg.subdirLimit ≤ dirs → opened.isSome →
        rest.ownLines cfg dir work = [] := by omega
    rw [hdescend, reached_subdir hkept, written_enqueue, spawnFramed_enqueue,
      List.forall_mem_append, hchild.2, LinesFirst, if_neg hkept, and_iff_right hlate,
      and_left_comm, hiff]
    tauto
  · have hinsitu := exactOpen_insitu name opened children hfile hclosed hopen dir work (dirs + 1)
      buf lines header hlevel (fun h => hkept (.inr h)) hheader hlines hbody
    rw [hdescend, reached_subdir hkept, written_append, spawnFramed_append,
      List.forall_mem_append, ← hchild.2, LinesFirst, if_neg hkept, hinsitu,
      forall_prop_of_true hlimit.1, forall_prop_of_true hlimit.2]

/-- In files, directories are reached on the spot or as tasks. -/
theorem Listing.exact (hfile : cfg.toStdout = false) (l : Listing) :
    l.ExactClosed cfg ∧ l.ExactOpen cfg := by
  induction l with
  | done =>
      refine ⟨fun dir work dirs buf _ => ?_,
        fun dir work dirs buf header lines _ hheader hlines hbody => ?_⟩
      · simpa [descend, reached, SpawnFramed, headerFirst_nil] using wellFramed_nil
      · have hopen : WellFramed cfg (header :: (lines ++ [])) ↔
            lines = header.body cfg ∧ WellFramed cfg [] :=
          wellFramed_open_iff hheader hlines headerFirst_nil
        simpa [descend, reached, SpawnFramed, LinesFirst, wellFramed_nil, hbody, ownLines]
          using hopen
  | nondir d externals rest ih =>
      exact ⟨exactClosed_nondir hfile ih.1, exactOpen_nondir hfile ih.2⟩
  | subdir name opened children rest ihchildren ih =>
      have hchild (dir : SourceDir) (work : Trace.Work) :
          (dir.child work name opened children).Exact cfg :=
        .of_listing hfile ihchildren.1 ihchildren.2
      exact ⟨exactClosed_subdir ih.1 hchild, exactOpen_subdir hfile ih.1 ih.2 hchild⟩

theorem SourceDir.exact (hfile : cfg.toStdout = false) (dir : SourceDir) : dir.Exact cfg :=
  .of_listing hfile (Listing.exact hfile dir.listing).1 (Listing.exact hfile dir.listing).2

/-- In files, all tasks that come of a directory are well framed exactly if the directories that
are reached are. -/
theorem spawned_wellFramed_iff (hfile : cfg.toStdout = false) (root : SourceDir) :
    (∀ t, Spawned (processdir cfg) root t → WellFramed cfg (written (processdir cfg t))) ↔
      ∀ d ∈ root.reached cfg, d.Framed cfg := by
  rw [← (root.exact hfile).2, forall_spawned_iff]
  rfl

end Files

section Shared

variable {cfg : TraceConfig} {dir : SourceDir} {work : Trace.Work} {dirs : ℕ}
  {buf : List TraceLine}

theorem isExternal_entryLines {d : Dirent} :
    ∀ l ∈ entryLines cfg dir work d, l.isExternal = false := by
  intro l hl
  unfold entryLines at hl
  split at hl
  · rw [List.mem_singleton.mp hl]
    rfl
  · exact nomatch hl

theorem mem_externalLines {d : Dirent} {externals : List ExternalLine} {l : TraceLine}
    (hl : l ∈ externalLines cfg dir work d externals) : ∃ path, l = .external dir path := by
  unfold externalLines at hl
  split_ifs at hl
  · obtain ⟨path, -, rfl⟩ := List.mem_map.mp hl
    exact ⟨path, rfl⟩
  · exact nomatch hl

theorem external_of_mem_ownLines {l : Listing} {x : TraceLine} (hx : x ∈ l.ownLines cfg dir work)
    (hexternal : x.isExternal = true) : ∃ path, x = .external dir path := by
  induction l with
  | done => exact nomatch hx
  | nondir d externals rest ih =>
      rcases List.mem_append.mp hx with hx | hx
      · split_ifs at hx
        · exact nomatch hx
        · rcases List.mem_append.mp hx with hx | hx
          · rw [isExternal_entryLines x hx] at hexternal
            exact nomatch hexternal
          · exact mem_externalLines hx
      · exact ih hx
  | subdir name opened children rest _ ih => exact ih hx

/-- The buffer gets the lines of the directory but for those of external databases. -/
theorem descend_snd_of_stdout (hout : cfg.toStdout = true) (hlevel : cfg.Processes dir.level)
    (dirs : ℕ) (buf : List TraceLine) (l : Listing) :
    (descend cfg dir work dirs buf l).2 =
      buf ++ (l.ownLines cfg dir work).filter fun x => !x.isExternal := by
  induction l generalizing dirs buf with
  | done => simp [descend, Listing.ownLines]
  | nondir d externals rest ih =>
      by_cases hskip : dir2indexSkips cfg.options d.name = true
      · rw [descend, if_pos (.inl hskip), ih, Listing.ownLines, if_pos hskip, List.nil_append]
      · have hentries : (entryLines cfg dir work d).filter (fun x => !x.isExternal) =
            entryLines cfg dir work d :=
          List.filter_eq_self.mpr fun x hx => by simp [isExternal_entryLines x hx]
        have hexternals : (externalLines cfg dir work d externals).filter
            (fun x => !x.isExternal) = [] := by
          refine List.filter_eq_nil_iff.mpr fun x hx => ?_
          obtain ⟨path, rfl⟩ := mem_externalLines hx
          simp [TraceLine.isExternal]
        rw [descend, if_neg (by simpa [hlevel] using hskip), ih, Listing.ownLines, if_neg hskip,
          List.filter_append, List.filter_append, hentries, hexternals]
        simp [processNondir, hout]
  | subdir name opened children rest _ ih =>
      rw [descend]
      split_ifs
      · exact ih dirs buf
      · exact ih (dirs + 1) buf
      · exact ih (dirs + 1) buf

/-- The chunks of a program are texts in stanzas. -/
def ChunksFramed (cfg : TraceConfig) (as : List TraceAction) : Prop :=
  ∀ lines, .write lines ∈ as → HeaderFirst TraceLine.isDirectory lines ∧ WellFramed cfg lines

theorem isDirectory_ownLines {l : Listing} :
    ∀ x ∈ l.ownLines cfg dir work, x.isDirectory = false := by
  induction l with
  | done => simp [Listing.ownLines]
  | nondir d externals rest ih =>
      refine List.forall_mem_append.mpr ⟨?_, ih⟩
      split_ifs
      · simp
      · exact List.forall_mem_append.mpr
          ⟨isDirectory_entryLines cfg dir work, isDirectory_externalLines cfg dir work⟩
  | subdir name opened children rest _ ih => exact ih

theorem SourceDir.ownLines_of_opened {o : Opened} (ho : dir.opened = some o) :
    dir.ownLines cfg = dir.listing.ownLines cfg dir (dir.work o) := by
  simp [ownLines, ho]

/-- The chunks are texts in stanzas if no directory that is reached names external databases. -/
def Listing.ChunksFramed (cfg : TraceConfig) (l : Listing) : Prop :=
  ∀ dir work dirs buf,
    (cfg.Processes dir.level → ∀ x ∈ l.ownLines cfg dir work, x.isExternal = false) →
    (∀ d ∈ l.reached cfg dir work, d.Framed cfg) →
    Dir2Trace.ChunksFramed cfg (descend cfg dir work dirs buf l).1

theorem SourceDir.reached_of_opened {o : Opened} (ho : dir.opened = some o) :
    dir.reached cfg = dir :: dir.listing.reached cfg dir (dir.work o) := by
  simp [reached, ho]

/-- A directory that names no external databases is flushed as a stanza. -/
theorem SourceDir.chunksFramed_of_listing (hout : cfg.toStdout = true)
    (hlisting : dir.listing.ChunksFramed cfg) (hreached : ∀ d ∈ dir.reached cfg, d.Framed cfg) :
    ChunksFramed cfg (processdir cfg dir) := by
  cases ho : dir.opened with
  | none =>
      rw [processdir_of_not_opened ho]
      exact fun _ hlines => nomatch hlines
  | some o =>
      rw [reached_of_opened ho, List.forall_mem_cons] at hreached
      have hnone (hlevel : cfg.Processes dir.level) :
          ∀ x ∈ dir.listing.ownLines cfg dir (dir.work o), x.isExternal = false := by
        have hall := hreached.1 o ho hlevel
        rwa [if_pos hout, SourceDir.ownLines_of_opened ho] at hall
      by_cases hlevel : cfg.Processes dir.level
      · have hprogram : processdir cfg dir =
            (descend cfg dir (dir.work o) 0 [directoryLine cfg dir o] dir.listing).1 ++
              [.write (directoryLine cfg dir o :: (directoryLine cfg dir o).body cfg)] := by
          have hfilter := List.filter_eq_self.mpr
            (fun x hx => by simp [hnone hlevel x hx] :
              ∀ x ∈ dir.listing.ownLines cfg dir (dir.work o), (!x.isExternal) = true)
          have hbody : (directoryLine cfg dir o).body cfg =
              dir.listing.ownLines cfg dir (dir.work o) := SourceDir.ownLines_of_opened ho
          simp only [processdir, processdirWith, ho, if_pos hlevel, hout, if_true]
          rw [descend_snd_of_stdout hout hlevel, hfilter, hbody]
          rfl
        intro lines hlines
        rw [hprogram] at hlines
        rcases List.mem_append.mp hlines with hlines | hlines
        · exact hlisting _ _ _ _ hnone hreached.2 lines hlines
        · obtain rfl := (Action.write.inj (List.mem_singleton.mp hlines))
          refine ⟨headerFirst_cons rfl, wellFramed_stanza ?_⟩
          rw [directoryLine, TraceLine.body, SourceDir.ownLines_of_opened ho]
          exact isDirectory_ownLines
      · have hprogram : processdir cfg dir =
            (descend cfg dir (dir.work o) 0 [] dir.listing).1 := by
          simp [processdir, processdirWith, ho, hlevel]
        rw [hprogram]
        exact hlisting _ _ _ _ hnone hreached.2

theorem Listing.chunksFramed (hout : cfg.toStdout = true) (l : Listing) :
    l.ChunksFramed cfg := by
  induction l with
  | done => exact fun _ _ _ _ _ _ _ hlines => nomatch hlines
  | nondir d externals rest ih =>
      intro dir work dirs buf hown hreached
      have hrest (hlevel : cfg.Processes dir.level) :
          ∀ x ∈ rest.ownLines cfg dir work, x.isExternal = false :=
        (List.forall_mem_append.mp (hown hlevel)).2
      by_cases hskip : dir2indexSkips cfg.options d.name ∨ ¬cfg.Processes dir.level
      · rw [descend, if_pos hskip]
        exact ih dir work dirs buf hrest hreached
      · obtain ⟨hname, hlevel⟩ : dir2indexSkips cfg.options d.name = false ∧
            cfg.Processes dir.level := by simpa using hskip
        have hfirst := (List.forall_mem_append.mp (hown hlevel)).1
        rw [if_neg (by simp [hname])] at hfirst
        have hnone : externalLines cfg dir work d externals = [] := by
          refine List.eq_nil_iff_forall_not_mem.mpr fun x hx => ?_
          have hx' := (List.forall_mem_append.mp hfirst).2 x hx
          obtain ⟨path, rfl⟩ := mem_externalLines hx
          exact absurd hx' (by simp [TraceLine.isExternal])
        rw [descend, if_neg hskip]
        simp only [processNondir, hout, if_true, hnone, List.map_nil, List.nil_append]
        exact ih dir work dirs _ hrest hreached
  | subdir name opened children rest ihchildren ih =>
      intro dir work dirs buf hown hreached
      obtain ⟨hskip, hdescend⟩ | ⟨hkept, -, hdescend⟩ | ⟨hkept, -, hdescend⟩ :=
        descend_subdir_cases cfg dir work dirs buf name opened children rest
      · rw [reached_subdir_of_skip hskip] at hreached
        rw [hdescend]
        exact ih dir work dirs buf hown hreached
      · rw [reached_subdir hkept] at hreached
        have hrest := ih dir work (dirs + 1) buf hown (List.forall_mem_append.mp hreached).2
        rw [hdescend]
        intro lines hlines
        exact hrest lines (by simpa using hlines)
      · rw [reached_subdir hkept] at hreached
        obtain ⟨hchild, hreached⟩ := List.forall_mem_append.mp hreached
        have hrest := ih dir work (dirs + 1) buf hown hreached
        rw [hdescend]
        intro lines hlines
        refine (List.mem_append.mp hlines).elim (fun hlines => ?_) (hrest lines)
        exact SourceDir.chunksFramed_of_listing hout ihchildren hchild lines hlines

/-- The directory line that comes after the line of one of its external databases: the buffer is
flushed when the directory is done. -/
def answer (cfg : TraceConfig) : TraceLine → Option TraceLine
  | .external dir path =>
    if .external dir path ∈ dir.ownLines cfg then dir.opened.map (directoryLine cfg dir) else none
  | _ => none

theorem answer_eq_some {x l : TraceLine} (h : answer cfg x = some l) : ∃ dir path o,
    x = .external dir path ∧ dir.opened = some o ∧ l = directoryLine cfg dir o ∧
      x ∈ l.body cfg := by
  cases x with
  | directory | entry => exact nomatch h
  | external dir path =>
      rw [answer] at h
      split_ifs at h with hown
      obtain ⟨o, ho, rfl⟩ := Option.map_eq_some_iff.mp h
      exact ⟨dir, path, o, rfl, ho, rfl, hown⟩

theorem answer_eq_none {x : TraceLine} (hx : x.isExternal = false) : answer cfg x = none := by
  cases x with
  | directory | entry => rfl
  | external => exact nomatch hx

/-- What is left of a directory can stand before its line. -/
def Listing.AnsweredBefore (cfg : TraceConfig) (l : Listing) : Prop :=
  ∀ dir work dirs buf tail,
    (cfg.Processes dir.level → ∀ o, dir.opened = some o → directoryLine cfg dir o ∈ tail) →
    Answered (answer cfg) tail →
    Answered (answer cfg) (written (descend cfg dir work dirs buf l).1 ++ tail)

theorem SourceDir.answered_of_listing (hout : cfg.toStdout = true)
    (hlisting : dir.listing.AnsweredBefore cfg) {tail : List TraceLine}
    (htail : Answered (answer cfg) tail) :
    Answered (answer cfg) (written (processdir cfg dir) ++ tail) := by
  cases ho : dir.opened with
  | none => rwa [processdir_of_not_opened ho]
  | some o =>
      by_cases hlevel : cfg.Processes dir.level
      · have hprogram : processdir cfg dir =
            (descend cfg dir (dir.work o) 0 [directoryLine cfg dir o] dir.listing).1 ++
              [.write (directoryLine cfg dir o ::
                (dir.listing.ownLines cfg dir (dir.work o)).filter fun x => !x.isExternal)] := by
          simp only [processdir, processdirWith, ho, if_pos hlevel, hout, if_true]
          rw [descend_snd_of_stdout hout hlevel]
          rfl
        rw [hprogram, written_append, List.append_assoc]
        apply hlisting
        · intro _ o' ho'
          obtain rfl := Option.some.inj (ho.symm.trans ho')
          simp
        · refine htail.append_left fun x hx l' hl' => ?_
          have hx : x.isExternal = false := by
            rw [written_write, written_nil, List.append_nil] at hx
            rcases List.mem_cons.mp hx with rfl | hx
            · rfl
            · simpa using (List.mem_filter.mp hx).2
          rw [answer_eq_none hx] at hl'
          exact nomatch hl'
      · have hprogram : processdir cfg dir =
            (descend cfg dir (dir.work o) 0 [] dir.listing).1 := by
          simp [processdir, processdirWith, ho, hlevel]
        rw [hprogram]
        exact hlisting _ _ _ _ _ (fun h => absurd h hlevel) htail

theorem Listing.answeredBefore (hout : cfg.toStdout = true) (l : Listing) :
    l.AnsweredBefore cfg := by
  induction l with
  | done => exact fun _ _ _ _ _ _ htail => htail
  | nondir d externals rest ih =>
      intro dir work dirs buf tail hline htail
      by_cases hskip : dir2indexSkips cfg.options d.name ∨ ¬cfg.Processes dir.level
      · rw [descend, if_pos hskip]
        exact ih dir work dirs buf tail hline htail
      · have hlevel : cfg.Processes dir.level := by
          by_contra hlevel
          exact hskip (.inr hlevel)
        rw [descend, if_neg hskip]
        simp only [processNondir, hout, if_true, written_append, written_map_write,
          List.append_assoc]
        refine (ih dir work dirs _ tail hline htail).append_left fun x hx l' hl' => ?_
        obtain ⟨path, rfl⟩ := mem_externalLines hx
        obtain ⟨d', path', o, hsame, ho, rfl, -⟩ := answer_eq_some hl'
        obtain ⟨rfl, -⟩ := TraceLine.external.inj hsame
        exact List.mem_append_right _ (hline hlevel o ho)
  | subdir name opened children rest ihchildren ih =>
      intro dir work dirs buf tail hline htail
      obtain ⟨-, hdescend⟩ | ⟨-, -, hdescend⟩ | ⟨-, -, hdescend⟩ :=
        descend_subdir_cases cfg dir work dirs buf name opened children rest
      · rw [hdescend]
        exact ih dir work dirs buf tail hline htail
      · rw [hdescend, written_enqueue]
        exact ih dir work (dirs + 1) buf tail hline htail
      · rw [hdescend, written_append, List.append_assoc]
        exact SourceDir.answered_of_listing hout ihchildren
          (ih dir work (dirs + 1) buf tail hline htail)

/-- A line that comes of a task or of the tasks that it enqueues. -/
def Emits (cfg : TraceConfig) (as : List TraceAction) (x : TraceLine) : Prop :=
  x ∈ written as ∨ ∃ t ∈ enqueued as, ∃ t', Spawned (processdir cfg) t t' ∧
    x ∈ written (processdir cfg t')

theorem emits_append {as bs : List TraceAction} {x : TraceLine} :
    Emits cfg (as ++ bs) x ↔ Emits cfg as x ∨ Emits cfg bs x := by
  simp only [Emits, written_append, enqueued_append, List.mem_append, or_and_right, exists_or]
  exact or_or_or_comm

theorem emits_processdir_iff {t : SourceDir} {x : TraceLine} : Emits cfg (processdir cfg t) x ↔
    ∃ t', Spawned (processdir cfg) t t' ∧ x ∈ written (processdir cfg t') := by
  constructor
  · rintro (hx | ⟨b, hb, t', ht', hx⟩)
    · exact ⟨t, .root, hx⟩
    · exact ⟨t', spawned_iff.mpr (.inr ⟨b, hb, ht'⟩), hx⟩
  · rintro ⟨t', ht', hx⟩
    rcases spawned_iff.mp ht' with rfl | ⟨b, hb, ht'⟩
    · exact .inl hx
    · exact .inr ⟨b, hb, t', ht', hx⟩

theorem emits_enqueue {t : SourceDir} {as : List TraceAction} {x : TraceLine} :
    Emits cfg (.enqueue t :: as) x ↔ Emits cfg (processdir cfg t) x ∨ Emits cfg as x := by
  rw [emits_processdir_iff]
  simp only [Emits, written_enqueue, enqueued_enqueue, List.exists_mem_cons_iff]
  exact or_left_comm

theorem mem_written_descend (hout : cfg.toStdout = true) (hlevel : cfg.Processes dir.level)
    {x : TraceLine} (hx : x.isExternal = true) {l : Listing} (dirs : ℕ) (buf : List TraceLine)
    (hmem : x ∈ l.ownLines cfg dir work) : x ∈ written (descend cfg dir work dirs buf l).1 := by
  induction l generalizing dirs buf with
  | done => exact nomatch hmem
  | nondir d externals rest ih =>
      by_cases hskip : dir2indexSkips cfg.options d.name = true
      · rw [Listing.ownLines, if_pos hskip] at hmem
        rw [descend, if_pos (.inl hskip)]
        exact ih dirs buf hmem
      · rw [Listing.ownLines, if_neg hskip, List.append_assoc, List.mem_append] at hmem
        rw [descend, if_neg (by simpa [hlevel] using hskip)]
        simp only [processNondir, hout, if_true, written_append, written_map_write]
        have hentry : x ∉ entryLines cfg dir work d := fun h => by
          rw [isExternal_entryLines x h] at hx
          exact nomatch hx
        refine List.mem_append.mpr ((List.mem_append.mp (hmem.resolve_left hentry)).imp_right ?_)
        exact ih dirs _
  | subdir name opened children rest _ ih =>
      obtain ⟨-, hdescend⟩ | ⟨-, -, hdescend⟩ | ⟨-, -, hdescend⟩ :=
        descend_subdir_cases cfg dir work dirs buf name opened children rest
      · rw [hdescend]
        exact ih dirs buf hmem
      · rw [hdescend, written_enqueue]
        exact ih (dirs + 1) buf hmem
      · rw [hdescend, written_append]
        exact List.mem_append_right _ (ih (dirs + 1) buf hmem)

/-- The lines of the external databases that any directory below names are written. -/
def Listing.EmitsExternals (cfg : TraceConfig) (l : Listing) : Prop :=
  ∀ dir work dirs buf, ∀ d ∈ l.reached cfg dir work, cfg.Processes d.level →
    ∀ x ∈ d.ownLines cfg, x.isExternal = true → Emits cfg (descend cfg dir work dirs buf l).1 x

theorem SourceDir.emits_of_listing (hout : cfg.toStdout = true)
    (hlisting : dir.listing.EmitsExternals cfg) : ∀ d ∈ dir.reached cfg,
      cfg.Processes d.level → ∀ x ∈ d.ownLines cfg, x.isExternal = true →
        Emits cfg (processdir cfg dir) x := by
  intro d hd hlevel x hx hexternal
  cases ho : dir.opened with
  | none =>
      rw [reached, ho, List.mem_singleton] at hd
      rw [hd, ownLines, ho] at hx
      exact nomatch hx
  | some o =>
      have hprogram : ∃ buf after, processdir cfg dir = (descend cfg dir (dir.work o) 0 buf
          dir.listing).1 ++ after := by
        simp only [processdir, processdirWith, ho, hout, if_true]
        split_ifs
        · exact ⟨_, _, rfl⟩
        · exact ⟨[], [], (List.append_nil _).symm⟩
      obtain ⟨buf, after, hprogram⟩ := hprogram
      rw [hprogram, emits_append]
      rw [reached_of_opened ho] at hd
      rcases List.mem_cons.mp hd with rfl | hd
      · rw [ownLines_of_opened ho] at hx
        exact .inl (.inl (mem_written_descend hout hlevel hexternal 0 buf hx))
      · exact .inl (hlisting _ _ _ _ d hd hlevel x hx hexternal)

theorem Listing.emitsExternals (hout : cfg.toStdout = true) (l : Listing) :
    l.EmitsExternals cfg := by
  induction l with
  | done => exact fun _ _ _ _ _ hd => nomatch hd
  | nondir d externals rest ih =>
      intro dir work dirs buf d' hd hlevel x hx hexternal
      rw [descend]
      split_ifs
      · exact ih dir work dirs buf d' hd hlevel x hx hexternal
      · exact emits_append.mpr (.inr (ih dir work dirs _ d' hd hlevel x hx hexternal))
  | subdir name opened children rest ihchildren ih =>
      intro dir work dirs buf d hd hlevel x hx hexternal
      have hrest (hd : d ∈ rest.reached cfg dir work) (dirs : ℕ) :
          Emits cfg (descend cfg dir work dirs buf rest).1 x :=
        ih dir work dirs buf d hd hlevel x hx hexternal
      have hchild (hd : d ∈ (dir.child work name opened children).reached cfg) :
          Emits cfg (processdir cfg (dir.child work name opened children)) x :=
        SourceDir.emits_of_listing hout ihchildren d hd hlevel x hx hexternal
      obtain ⟨hskip, hdescend⟩ | ⟨hkept, -, hdescend⟩ | ⟨hkept, -, hdescend⟩ :=
        descend_subdir_cases cfg dir work dirs buf name opened children rest
      · rw [reached_subdir_of_skip hskip] at hd
        rw [hdescend]
        exact hrest hd dirs
      · rw [reached_subdir hkept] at hd
        rw [hdescend, emits_enqueue]
        exact (List.mem_append.mp hd).imp hchild fun hd => hrest hd (dirs + 1)
      · rw [reached_subdir hkept] at hd
        rw [hdescend, emits_append]
        exact (List.mem_append.mp hd).imp hchild fun hd => hrest hd (dirs + 1)

/-- In a text in stanzas no line of an external database stands before its directory. -/
theorem answer_eq_none_of_wellFramed {lines : List TraceLine} (hframed : WellFramed cfg lines)
    (hanswered : Answered (answer cfg) lines) : ∀ x ∈ lines, answer cfg x = none := by
  induction lines with
  | nil => exact fun _ hx => nomatch hx
  | cons y lines ih =>
      have hrest := ih (wellFramed_cons.mp hframed).2 (hanswered.of_append (a := [y]))
      refine List.forall_mem_cons.mpr ⟨?_, hrest⟩
      by_contra hy
      obtain ⟨l', hl'⟩ := Option.ne_none_iff_exists'.mp hy
      obtain ⟨before, after, hlines⟩ := List.append_of_mem (hanswered [] y lines l' rfl hl')
      obtain ⟨d, path, o, -, -, rfl, hbody⟩ := answer_eq_some hl'
      have hstanza := (wellFramed_cons.mp hframed).2 before _ after hlines rfl
      have hmem : y ∈ after := by
        rw [← hstanza] at hbody
        exact (List.takeWhile_sublist _).mem hbody
      exact hy (hrest y (by rw [hlines]; simp [hmem]))

/-- On `stdout`, the directories that are reached name no external databases if the stream of a
complete run is in stanzas. -/
theorem framed_of_wellFramed (hout : cfg.toStdout = true) {lines : List TraceLine}
    {root : SourceDir} (hframed : WellFramed cfg lines)
    (hanswered : Answered (answer cfg) lines)
    (hall : ∀ t, Spawned (processdir cfg) root t → ∀ x ∈ written (processdir cfg t), x ∈ lines) :
    ∀ d ∈ root.reached cfg, d.Framed cfg := by
  intro d hd o ho hlevel
  rw [if_pos hout]
  intro x hx
  by_contra hexternal
  rw [Bool.not_eq_false] at hexternal
  have hemits := SourceDir.emits_of_listing hout (Listing.emitsExternals hout root.listing) d hd
    hlevel x hx hexternal
  obtain ⟨t, ht, hmem⟩ := emits_processdir_iff.mp hemits
  have hnone := answer_eq_none_of_wellFramed hframed hanswered x (hall t ht x hmem)
  obtain ⟨path, rfl⟩ : ∃ path, x = .external d path := by
    rw [SourceDir.ownLines_of_opened ho] at hx
    exact external_of_mem_ownLines hx hexternal
  rw [answer, if_pos hx, ho] at hnone
  exact nomatch hnone

/-- What the tasks of a directory reach is reached from it. -/
def Listing.EnqueuesReached (cfg : TraceConfig) (l : Listing) : Prop :=
  ∀ dir work dirs buf, ∀ t ∈ enqueued (descend cfg dir work dirs buf l).1,
    t.reached cfg ⊆ l.reached cfg dir work

theorem SourceDir.enqueuesReached_of_listing (hlisting : dir.listing.EnqueuesReached cfg) :
    ∀ t ∈ enqueued (processdir cfg dir), t.reached cfg ⊆ dir.reached cfg := by
  intro t ht
  cases ho : dir.opened with
  | none =>
      rw [processdir_of_not_opened ho] at ht
      exact nomatch ht
  | some o =>
      have henqueued : ∃ buf, enqueued (processdir cfg dir) =
          enqueued (descend cfg dir (dir.work o) 0 buf dir.listing).1 := by
        simp only [processdir, processdirWith, ho]
        split_ifs
        · exact ⟨[directoryLine cfg dir o], by simp⟩
        · exact ⟨[], rfl⟩
        · exact ⟨[], rfl⟩
      obtain ⟨buf, henqueued⟩ := henqueued
      rw [henqueued] at ht
      rw [reached_of_opened ho]
      exact fun d hd => .tail _ (hlisting dir (dir.work o) 0 buf t ht hd)

theorem Listing.enqueuesReached (l : Listing) : l.EnqueuesReached cfg := by
  induction l with
  | done => exact fun _ _ _ _ _ ht => nomatch ht
  | nondir d externals rest ih =>
      intro dir work dirs buf t ht
      rw [descend] at ht
      split_ifs at ht with hskip
      · exact ih dir work dirs buf t ht
      · have hnone : enqueued (processNondir cfg dir work buf d externals).1 = [] := by
          unfold processNondir
          split_ifs <;> simp
        rw [enqueued_append, hnone, List.nil_append] at ht
        exact ih dir work dirs _ t ht
  | subdir name opened children rest ihchildren ih =>
      intro dir work dirs buf t ht
      obtain ⟨hskip, hdescend⟩ | ⟨hkept, -, hdescend⟩ | ⟨hkept, -, hdescend⟩ :=
        descend_subdir_cases cfg dir work dirs buf name opened children rest
      · rw [hdescend] at ht
        rw [reached_subdir_of_skip hskip]
        exact ih dir work dirs buf t ht
      · rw [hdescend, enqueued_enqueue] at ht
        rw [reached_subdir hkept]
        rcases List.mem_cons.mp ht with rfl | ht
        · exact List.subset_append_left _ _
        · exact List.subset_append_of_subset_right _ (ih dir work _ buf t ht)
      · rw [hdescend, enqueued_append] at ht
        rw [reached_subdir hkept]
        rcases List.mem_append.mp ht with ht | ht
        · exact List.subset_append_of_subset_left _
            (SourceDir.enqueuesReached_of_listing ihchildren t ht)
        · exact List.subset_append_of_subset_right _ (ih dir work _ buf t ht)

theorem spawned_reached {root t : SourceDir} (ht : Spawned (processdir cfg) root t) :
    t.reached cfg ⊆ root.reached cfg := by
  induction ht with
  | root => exact fun _ hd => hd
  | @spawn t t' _ ht' ih =>
      have hstep := SourceDir.enqueuesReached_of_listing (Listing.enqueuesReached t.listing) t' ht'
      exact fun d hd => ih (hstep hd)

end Shared

section Runs

variable {cfg : TraceConfig} {n : ℕ} {root : SourceDir} {s : State n ℕ SourceDir TraceLine}

theorem stream_eq_nil (h : Reaches (processdir cfg) cfg.sink root s) {j : ℕ}
    (hj : ∀ i : Fin n, cfg.sink i ≠ j) : s.streams j = [] := by
  induction h with
  | refl => rfl
  | tail _ hstep ih =>
      cases hstep with
      | start | enqueue => exact ih
      | @write i => simpa only [Function.update_of_ne (hj i).symm] using ih

/-- At the end of a run every stream is in stanzas exactly if in each directory that is reached the
files and links come before the subdirectories that are processed on the spot, or, on `stdout`, no
such directory names external databases. -/
theorem wellFramed_iff (h : Reaches (processdir cfg) cfg.sink root s) (hdone : s.Complete) :
    (∀ j, WellFramed cfg (s.streams j)) ↔ ∀ d ∈ root.reached cfg, d.Framed cfg := by
  cases hout : cfg.toStdout with
  | false =>
      have hsink : (cfg.sink : Fin n → ℕ).Injective := by
        intro i i' hi
        simpa [TraceConfig.sink, hout, Fin.val_inj] using hi
      obtain ⟨ran, hran⟩ := h.accounts
      rw [← spawned_wellFramed_iff hout]
      constructor
      · intro hall t ht
        obtain ⟨i, hi⟩ := (hran.ran_iff_spawned hdone t).mpr ht
        have hstream := hall (cfg.sink i)
        rw [hran.stream_eq hdone hsink i, WellFramed,
          wellFramed_flatMap fun t _ => (t.exact hout).1] at hstream
        exact hstream t hi
      · intro hall j
        by_cases hj : ∃ i : Fin n, cfg.sink i = j
        · obtain ⟨i, rfl⟩ := hj
          rw [hran.stream_eq hdone hsink i, WellFramed,
            wellFramed_flatMap fun t _ => (t.exact hout).1]
          exact fun t ht => hall t ((hran.ran_iff_spawned hdone t).mp ⟨i, ht⟩)
        · rw [stream_eq_nil h (not_exists.mp hj)]
          exact wellFramed_nil
  | true =>
      have hsink (i : Fin n) : cfg.sink i = 0 := by simp [TraceConfig.sink, hout]
      constructor
      · intro hall
        refine framed_of_wellFramed hout (hall 0) (h.answered (fun t _ => ?_) hdone 0) ?_
        · have hanswered : Answered (answer cfg) (written (processdir cfg t) ++ []) :=
            SourceDir.answered_of_listing hout (Listing.answeredBefore hout t.listing) answered_nil
          rwa [List.append_nil] at hanswered
        · intro t ht x hx
          obtain ⟨i, hi⟩ := h.mem_streams hdone ht hx
          rwa [hsink i] at hi
      · intro hall j
        refine (h.stream_of_chunks (fun lines => HeaderFirst TraceLine.isDirectory lines ∧
          WellFramed cfg lines) ⟨headerFirst_nil, wellFramed_nil⟩ ?_ ?_ j).2
        · exact fun a b ha hb => ⟨ha.1.append hb.1, (wellFramed_append hb.1).mpr ⟨ha.2, hb.2⟩⟩
        · intro t ht
          exact SourceDir.chunksFramed_of_listing hout (Listing.chunksFramed hout t.listing)
            fun d hd => hall d (spawned_reached ht hd)

/-- A program that writes to files, or to `stdout`, with room for one subdirectory in the queue. -/
def exampleConfig (toStdout : Bool) : TraceConfig := ⟨reindexOptions, toStdout, 0, 10, 1, false⟩

def exampleOpened : Opened := ⟨⟨2, 0o40755, 2, 1000, 1000, 4096, 4096, 8, 0, 0, 0⟩, 0, []⟩

def exampleDir (listing : Listing) : SourceDir := ⟨[116], 1, 0, 0, some exampleOpened, listing⟩

/-- Two empty directories `a` and `b` and a file `c`, in the order of `readdir`. -/
def directoriesFirst : Listing :=
  .subdir [97] (some exampleOpened) .done
    (.subdir [98] (some exampleOpened) .done (.nondir (reindexFile [99]) [] .done))

/-- A file that names the database `/d`. -/
def namesDatabase : Listing :=
  .nondir (reindexFile externalUserFile) [⟨[47, 100], none, true⟩] .done

/-- A directory with one file, traced to a file by one thread. -/
theorem wellFramed_of_one_file : ∃ s : State 1 ℕ SourceDir TraceLine,
    Reaches (processdir (exampleConfig false)) (exampleConfig false).sink
      (exampleDir (.nondir (reindexFile [97]) [] .done)) s ∧ s.Complete ∧
    ∀ j, WellFramed (exampleConfig false) (s.streams j) := by
  have h := (reaches_init (processdir (exampleConfig false)) (exampleConfig false).sink
    (exampleDir (.nondir (reindexFile [97]) [] .done))).run (0 : Fin 1)
  refine ⟨_, h, ⟨rfl, fun _ => rfl⟩, (wellFramed_iff h ⟨rfl, fun _ => rfl⟩).mpr ?_⟩
  intro d hd
  obtain rfl := List.mem_singleton.mp hd
  exact fun _ _ _ => trivial

/-- The second of two directories is processed before the file after it is seen, so that the file
comes in the stanza of the directory. On `stdout`, the line of a database comes before the line of
its directory. -/
theorem not_wellFramed :
    (∃ s : State 1 ℕ SourceDir TraceLine,
      Reaches (processdir (exampleConfig false)) (exampleConfig false).sink
        (exampleDir directoriesFirst) s ∧ s.Complete ∧
      ¬∀ j, WellFramed (exampleConfig false) (s.streams j)) ∧
    ∃ s : State 1 ℕ SourceDir TraceLine,
      Reaches (processdir (exampleConfig true)) (exampleConfig true).sink
        (exampleDir namesDatabase) s ∧ s.Complete ∧
      ¬∀ j, WellFramed (exampleConfig true) (s.streams j) := by
  constructor
  · have hroot := (reaches_init (processdir (exampleConfig false)) (exampleConfig false).sink
      (exampleDir directoriesFirst)).run (0 : Fin 1)
    have hpending : (enqueued (processdir (exampleConfig false) (exampleDir directoriesFirst)) +
        0 : Multiset SourceDir) = (exampleDir directoriesFirst).child
          ((exampleDir directoriesFirst).work exampleOpened) [97] (some exampleOpened) .done ::ₘ
            0 := rfl
    rw [hpending] at hroot
    refine ⟨_, hroot.run 0, ⟨rfl, fun _ => rfl⟩, fun hall => ?_⟩
    have hstanza := hall 0 [] _ _ rfl rfl
    exact absurd hstanza (by decide)
  · have h := (reaches_init (processdir (exampleConfig true)) (exampleConfig true).sink
      (exampleDir namesDatabase)).run (0 : Fin 1)
    refine ⟨_, h, ⟨rfl, fun _ => rfl⟩, fun hall => ?_⟩
    have hstanza := hall 0 [_] _ _ rfl rfl
    exact absurd hstanza (by decide)

end Runs

end Gufi.Dir2Trace
