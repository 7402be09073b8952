import Gufi.OwnContent

/-!
# The rows a rollup copies

`Rows` are the rows a child has for its parent: those of its views in `db.db`, and those of its
per-user and per-group databases by file name. `Appends` says that a directory has got given rows
and is otherwise as before. Whatever fails, a child appends a part of its rows that follows from
the failures alone.
-/

namespace Gufi

open SqlTable

structure Rows where
  pentries : List PEntryRow := []
  summary : List SummaryRow := []
  xattrs : List XattrRow := []
  externalDbs : List ExternalDb := []
  externals : List (Bytes × List XattrRow) := []

namespace Rows

def append (r r' : Rows) : Rows where
  pentries := r.pentries ++ r'.pentries
  summary := r.summary ++ r'.summary
  xattrs := r.xattrs ++ r'.xattrs
  externalDbs := r.externalDbs ++ r'.externalDbs
  externals := r.externals ++ r'.externals

/-- The rows for one file name. -/
def forFile (externals : List (Bytes × List XattrRow)) (f : Bytes) : List XattrRow :=
  (externals.filter (·.1 = f)).flatMap (·.2)

theorem forFile_append (a b : List (Bytes × List XattrRow)) (f : Bytes) :
    forFile (a ++ b) f = forFile a f ++ forFile b f := by
  simp [forFile]

theorem forFile_cons (n : Bytes) (rows : List XattrRow) (l : List (Bytes × List XattrRow))
    (f : Bytes) : forFile ((n, rows) :: l) f = (if n = f then rows else []) ++ forFile l f := by
  by_cases h : n = f <;> simp [forFile, h]

end Rows

namespace Dir

/-- The rolled-up rows of a per-user or per-group database. -/
def rollupRows (d : Dir) (f : Bytes) : List XattrRow :=
  ((d.xattrDbs f).map (·.rollup)).getD []

def pwdRows (d : Dir) (f : Bytes) : List XattrRow :=
  ((d.xattrDbs f).map (·.pwd)).getD []

end Dir

section Tables

/-- The tables have got the rows, the summary rows under the given name. -/
structure Db.Appends (rename : Bytes → SummaryRow → SummaryRow) (r : Rows) (db db' : Db) :
    Prop where
  pentries : db'.pentriesRollup = db.pentriesRollup ++ r.pentries
  summary : db'.summary = db.summary ++ r.summary.map (rename db.rootName)
  xattrs : db'.xattrsRollup = db.xattrsRollup ++ r.xattrs
  externalDbs : db'.externalDbsRollup =
    insertOrIgnore ExternalDb.key db.externalDbsRollup r.externalDbs
  entries : db'.entries = db.entries
  rootRows : db'.rootRows = db.rootRows
  xattrsPwd : db'.xattrsPwd = db.xattrsPwd
  externalDbsPwd : db'.externalDbsPwd = db.externalDbsPwd
  treesummary : db'.treesummary.isSome = db.treesummary.isSome

variable {rename : Bytes → SummaryRow → SummaryRow}

theorem Db.Appends.rootName_eq {r : Rows} {db db' : Db} (h : db.Appends rename r db') :
    db'.rootName = db.rootName := by
  rw [rootName, rootName, h.rootRows]

theorem Db.Appends.refl (db : Db) : db.Appends rename {} db :=
  ⟨by simp, by simp, by simp, rfl, rfl, rfl, rfl, rfl, rfl⟩

theorem Db.Appends.trans {r r' : Rows} {a b c : Db} (h : a.Appends rename r b)
    (h' : b.Appends rename r' c) : a.Appends rename (r.append r') c where
  pentries := by rw [h'.pentries, h.pentries, Rows.append, List.append_assoc]
  summary := by
    rw [h'.summary, h.summary, h.rootName_eq, Rows.append, List.map_append, List.append_assoc]
  xattrs := by rw [h'.xattrs, h.xattrs, Rows.append, List.append_assoc]
  externalDbs := by rw [h'.externalDbs, h.externalDbs, Rows.append, insertOrIgnore_append]
  entries := h'.entries.trans h.entries
  rootRows := h'.rootRows.trans h.rootRows
  xattrsPwd := h'.xattrsPwd.trans h.xattrsPwd
  externalDbsPwd := h'.externalDbsPwd.trans h.externalDbsPwd
  treesummary := h'.treesummary.trans h.treesummary

end Tables

section Statements

/-- The rows a statement inserts before it ends or fails. -/
def takeFault {α : Type*} (fault : Option ℕ) (rows : List α) : List α :=
  (insertSelect fault [] rows).1

@[simp] theorem takeFault_none {α : Type*} (rows : List α) : takeFault none rows = rows := rfl

@[simp] theorem takeFault_some {α : Type*} (n : ℕ) (rows : List α) :
    takeFault (some n) rows = rows.take n := rfl

theorem insertSelect_eq {α : Type*} (fault : Option ℕ) (table rows : List α) :
    insertSelect fault table rows = (table ++ takeFault fault rows, fault.isNone) := by
  cases fault <;> rfl

/-- `INSERT INTO summary SELECT ...` of the bottom-up and the top-down rollup. -/
def renameRow (name : Bytes → SummaryRow → Bytes) (rootName : Bytes) (s : SummaryRow) :
    SummaryRow :=
  rollupSummaryRow (name rootName s) s

variable (flt : ChildFaults) (name : Bytes → SummaryRow → Bytes) (sub : Db)

theorem appends_insertPentries (db : Db) : db.Appends (renameRow name)
    { pentries := takeFault flt.pentries sub.pentries } (insertPentries flt sub db).1 :=
  ⟨congrArg Prod.fst (insertSelect_eq ..), by simp [insertPentries], by simp [insertPentries],
    rfl, rfl, rfl, rfl, rfl, rfl⟩

theorem takeFault_map {α β : Type*} (fault : Option ℕ) (f : α → β) (rows : List α) :
    takeFault fault (rows.map f) = (takeFault fault rows).map f := by
  cases fault with
  | none => rfl
  | some n => exact List.map_take.symm

theorem appends_insertSummary (db : Db) : db.Appends (renameRow name)
    { summary := takeFault flt.summary sub.summary }
    (insertSummary flt (fun db s => name db.rootName s) sub db).1 where
  pentries := by simp [insertSummary]
  summary := by
    rw [insertSummary, insertSelect_eq, takeFault_map]
    rfl
  xattrs := by simp [insertSummary]
  externalDbs := rfl
  entries := rfl
  rootRows := (keepsOwn_insertSummary flt (fun db s => name db.rootName s) sub db).rootRows
  xattrsPwd := rfl
  externalDbsPwd := rfl
  treesummary := rfl

theorem appends_insertTreesummary (db : Db) :
    db.Appends (renameRow name) {} (insertTreesummary flt sub db).1 := by
  unfold insertTreesummary
  split
  · next dst src hdst hsrc =>
      exact ⟨by simp, by simp, by simp, rfl, rfl, rfl, rfl, rfl, by simp [hdst]⟩
  · exact Db.Appends.refl db

theorem appends_insertXattrs (db : Db) : db.Appends (renameRow name)
    { xattrs := takeFault flt.xattrs sub.xattrsAvail } (insertXattrs flt sub db).1 :=
  ⟨by simp [insertXattrs], by simp [insertXattrs], congrArg Prod.fst (insertSelect_eq ..),
    rfl, rfl, rfl, rfl, rfl, rfl⟩

theorem appends_insertExternalDbs (db : Db) : db.Appends (renameRow name)
    { externalDbs := takeFault flt.externalDbs sub.externalDbs }
    (insertExternalDbs flt sub db).1 := by
  unfold insertExternalDbs
  cases flt.externalDbs <;>
    exact ⟨by simp, by simp, by simp, rfl, rfl, rfl, rfl, rfl, rfl⟩

end Statements

section OneSubdir

/-- The copied rows of `db.db` and whether no statement failed, given whether the parent has a
`treesummary` table. -/
def copiedRows (flt : ChildFaults) (hasTreesummary : Bool) (sub : Db) : Rows × Bool :=
  let pentries : Rows := { pentries := takeFault flt.pentries sub.pentries }
  if flt.pentries.isSome then (pentries, false)
  else
    let summary := { pentries with summary := takeFault flt.summary sub.summary }
    if flt.summary.isSome ∨ flt.treesummary.isSome ∨ hasTreesummary = false ∨
        sub.treesummary = none then (summary, false)
    else
      let xattrs := { summary with xattrs := takeFault flt.xattrs sub.xattrsAvail }
      if flt.xattrs.isSome then (xattrs, false)
      else ({ xattrs with externalDbs := takeFault flt.externalDbs sub.externalDbs },
        flt.externalDbs.isNone)

variable (flt : ChildFaults) (name : Bytes → SummaryRow → Bytes) (sub : Db)

theorem insertTreesummary_snd (db : Db) : (insertTreesummary flt sub db).2 = true ↔
    flt.treesummary = none ∧ db.treesummary.isSome = true ∧ sub.treesummary ≠ none := by
  unfold insertTreesummary
  split
  · next dst src hdst hsrc =>
    simp [insertSelect_snd, hdst, hsrc]
  · next h =>
    cases hdst : db.treesummary with
    | none => simp
    | some dst =>
        cases hsrc : sub.treesummary with
        | none => simp
        | some src => exact absurd hsrc (h dst src hdst)

/-- The copy of a child's tables appends the copied rows and succeeds as these say. -/
theorem appends_rollupOneSubdir (db : Db) :
    db.Appends (renameRow name) (copiedRows flt db.treesummary.isSome sub).1
      (rollupOneSubdir flt (fun db s => name db.rootName s) sub db).1 ∧
    (rollupOneSubdir flt (fun db s => name db.rootName s) sub db).2 =
      (copiedRows flt db.treesummary.isSome sub).2 := by
  have a₁ := appends_insertPentries flt name sub db
  have a₂ := a₁.trans (appends_insertSummary flt name sub _)
  have a₃ := a₂.trans (appends_insertTreesummary flt name sub _)
  have a₄ := a₃.trans (appends_insertXattrs flt name sub _)
  have a₅ := a₄.trans (appends_insertExternalDbs flt name sub _)
  have s₁ : (insertPentries flt sub db).2 = flt.pentries.isNone := insertSelect_snd ..
  have s₂ (db : Db) : (insertSummary flt (fun db s => name db.rootName s) sub db).2 =
      flt.summary.isNone := insertSelect_snd ..
  have s₄ (db : Db) : (insertXattrs flt sub db).2 = flt.xattrs.isNone := insertSelect_snd ..
  simp only [Rows.append, List.append_nil, List.nil_append] at a₂ a₃ a₄ a₅
  unfold rollupOneSubdir copiedRows
  cases hp : flt.pentries with
  | some n =>
      rw [hp] at a₁ s₁
      simp only [thenIfOk, s₁, Option.isNone_some, Option.isSome_some, if_true]
      exact ⟨a₁, s₁⟩
  | none =>
      rw [hp] at s₁ a₂ a₃ a₄ a₅
      rw [thenIfOk_of_ok (by rw [s₁]; rfl)]
      simp only [Option.isSome_none, Bool.false_eq_true, if_false]
      by_cases hstop : flt.summary.isSome = true ∨ flt.treesummary.isSome = true ∨
          db.treesummary.isSome = false ∨ sub.treesummary = none
      · rw [if_pos hstop]
        cases hs : flt.summary with
        | some n =>
            have hfail := s₂ (insertPentries flt sub db).1
            rw [hs] at hfail a₂
            rw [thenIfOk_of_not_ok hfail]
            exact ⟨a₂, hfail⟩
        | none =>
            have hok := s₂ (insertPentries flt sub db).1
            rw [hs] at hok a₃ hstop
            rw [thenIfOk_of_ok hok]
            have hts := insertTreesummary_snd flt sub (insertSummary flt
              (fun db s => name db.rootName s) sub (insertPentries flt sub db).1).1
            rw [a₂.treesummary] at hts
            have hfail : (insertTreesummary flt sub (insertSummary flt
                (fun db s => name db.rootName s) sub (insertPentries flt sub db).1).1).2 =
                false := by
              rw [← Bool.not_eq_true, hts]
              rintro ⟨h₁, h₂, h₃⟩
              simp [h₁, h₂, h₃] at hstop
            rw [thenIfOk_of_not_ok hfail]
            exact ⟨a₃, hfail⟩
      · rw [if_neg hstop]
        simp only [not_or, Bool.not_eq_true, Option.isSome_eq_false_iff,
          Option.isNone_iff_eq_none] at hstop
        obtain ⟨hs, ht, hown, hsub⟩ := hstop
        have hok := s₂ (insertPentries flt sub db).1
        rw [hs] at hok a₃ a₄ a₅
        rw [thenIfOk_of_ok hok]
        have hts := insertTreesummary_snd flt sub (insertSummary flt
          (fun db s => name db.rootName s) sub (insertPentries flt sub db).1).1
        rw [a₂.treesummary] at hts
        rw [thenIfOk_of_ok (hts.mpr ⟨ht, Option.isSome_iff_ne_none.mpr hown, hsub⟩)]
        cases hx : flt.xattrs with
        | some n =>
            have hfail := s₄ (insertTreesummary flt sub (insertSummary flt
              (fun db s => name db.rootName s) sub (insertPentries flt sub db).1).1).1
            rw [hx] at hfail a₄
            rw [thenIfOk_of_not_ok hfail, hs]
            exact ⟨a₄, hfail⟩
        | none =>
            have hok := s₄ (insertTreesummary flt sub (insertSummary flt
              (fun db s => name db.rootName s) sub (insertPentries flt sub db).1).1).1
            rw [hx] at hok a₅
            rw [thenIfOk_of_ok hok, hs]
            refine ⟨a₅, ?_⟩
            unfold insertExternalDbs
            cases flt.externalDbs <;> rfl

end OneSubdir

section Externals

/-- Rows inserted into an external xattr database. A failing insert is not reported. -/
def insertedRows (flt : Option ExternalFault) (rows : List XattrRow) : List XattrRow :=
  match flt with
  | some (.insert n) => rows.take n
  | _ => rows

/-- The reported failures, given whether the parent has a file of that name. -/
def ExternalFault.Stops (flt : Option ExternalFault) (present : Bool) : Prop :=
  flt = some .stat ∨ (flt = some .copyTemplate ∧ present = false) ∨ flt = some .opendb ∨
    flt = some .attach

instance (flt : Option ExternalFault) (present : Bool) :
    Decidable (ExternalFault.Stops flt present) :=
  inferInstanceAs (Decidable (_ ∨ _ ∨ _ ∨ _))

/-- The copied rows of the child's external xattr databases by file name, and whether none of the
copies failed. -/
def copiedExternals (files : Bytes → Option XattrDb) (flt : ℕ → Option ExternalFault)
    (child : Bytes) :
    ℕ → (Bytes → Bool) → List ExternalDb → List (Bytes × List XattrRow) × Bool
  | _, _, [] => ([], true)
  | k, present, row :: rows =>
      if ExternalFault.Stops (flt k) (present row.filename) then ([], false)
      else match files (child ++ slash :: row.filename) with
        | none => ([], false)
        | some x =>
            let rest := copiedExternals files flt child (k + 1)
              (fun f => present f || f = row.filename) rows
            ((row.filename, insertedRows (flt k) x.avail) :: rest.1, rest.2)

def Dir.hasFile (d : Dir) (f : Bytes) : Bool :=
  (d.xattrDbs f).isSome

/-- The directory has got rows in its external xattr databases. -/
structure Dir.AppendsExternals (r : List (Bytes × List XattrRow)) (d d' : Dir) : Prop where
  db : d'.db = d.db
  rollupRows : ∀ f, d'.rollupRows f = d.rollupRows f ++ Rows.forFile r f
  pwdRows : ∀ f, d'.pwdRows f = d.pwdRows f

theorem Dir.AppendsExternals.refl (d : Dir) : d.AppendsExternals [] d :=
  ⟨rfl, fun f => by simp [Rows.forFile], fun _ => rfl⟩

theorem Dir.AppendsExternals.trans {r r' : List (Bytes × List XattrRow)} {a b c : Dir}
    (h : a.AppendsExternals r b) (h' : b.AppendsExternals r' c) :
    a.AppendsExternals (r ++ r') c where
  db := h'.db.trans h.db
  rollupRows f := by
    rw [h'.rollupRows, h.rollupRows, Rows.forFile_append, List.append_assoc]
  pwdRows f := (h'.pwdRows f).trans (h.pwdRows f)

variable (umask : ℕ) {attach : AttachXattr} (files : Bytes → Option XattrDb) {child : Bytes}
  {row : ExternalDb}

/-- Without a failure the parent has the file afterwards, and no row of it has changed. -/
theorem ensureXattrDb_spec (flt : Option ExternalFault) (own : Dir) (row : ExternalDb) :
    own.AppendsExternals [] (ensureXattrDb umask flt own row).1 ∧
    ((ensureXattrDb umask flt own row).2 = false ↔
      flt = some .stat ∨ (flt = some .copyTemplate ∧ own.hasFile row.filename = false)) ∧
    ((ensureXattrDb umask flt own row).2 = true → ∀ f,
      (ensureXattrDb umask flt own row).1.hasFile f = (own.hasFile f || f = row.filename)) := by
  unfold ensureXattrDb
  by_cases hstat : flt = some .stat
  · simp [hstat, Dir.AppendsExternals.refl]
  · rw [if_neg hstat]
    cases hf : own.xattrDbs row.filename with
    | some x =>
        refine ⟨Dir.AppendsExternals.refl own, by simp [hstat, Dir.hasFile, hf], fun _ f => ?_⟩
        by_cases hfr : f = row.filename
        · simp [Dir.hasFile, hfr, hf]
        · simp [hfr]
    | none =>
        simp only
        by_cases hcopy : flt = some .copyTemplate
        · rw [if_pos hcopy]
          exact ⟨Dir.AppendsExternals.refl own, by simp [hcopy, Dir.hasFile, hf],
            fun h => absurd h Bool.false_ne_true⟩
        · rw [if_neg hcopy]
          refine ⟨⟨rfl, fun f => ?_, fun f => ?_⟩, by simp [hstat, hcopy], fun _ f => ?_⟩
          · by_cases hfr : f = row.filename
            · simp [Dir.rollupRows, hfr, hf, copyTemplate, Rows.forFile]
            · simp [Dir.rollupRows, Function.update_of_ne hfr, Rows.forFile]
          · by_cases hfr : f = row.filename
            · simp [Dir.pwdRows, hfr, hf, copyTemplate]
            · simp [Dir.pwdRows, Function.update_of_ne hfr]
          · by_cases hfr : f = row.filename
            · simp [Dir.hasFile, hfr]
            · simp [Dir.hasFile, hfr]

theorem appends_appendXattrRollup {own : Dir} {f : Bytes} (hf : own.hasFile f = true)
    (rows : List XattrRow) : own.AppendsExternals [(f, rows)] (appendXattrRollup own f rows) ∧
      ∀ g, (appendXattrRollup own f rows).hasFile g = own.hasFile g := by
  obtain ⟨x, hx⟩ := Option.isSome_iff_exists.mp hf
  refine ⟨⟨rfl, fun g => ?_, fun g => ?_⟩, fun g => ?_⟩
  · by_cases hg : g = f
    · simp [appendXattrRollup, Dir.rollupRows, hg, hx, Rows.forFile]
    · simp [appendXattrRollup, Dir.rollupRows, Function.update_of_ne hg, Rows.forFile, Ne.symm hg]
  · by_cases hg : g = f
    · simp [appendXattrRollup, Dir.pwdRows, hg, hx]
    · simp [appendXattrRollup, Dir.pwdRows, Function.update_of_ne hg]
  · by_cases hg : g = f
    · simp [appendXattrRollup, Dir.hasFile, hg, hx]
    · simp [appendXattrRollup, Dir.hasFile, Function.update_of_ne hg]

/-- The copy of one external xattr database. -/
theorem rollupExternalXattrs_spec (flt : Option ExternalFault) (own : Dir)
    (hattach : ∀ d, attach d (child ++ slash :: row.filename) =
      files (child ++ slash :: row.filename)) :
    let res := rollupExternalXattrs umask attach flt child own row
    (ExternalFault.Stops flt (own.hasFile row.filename) →
      own.AppendsExternals [] res.1 ∧ res.2 = false) ∧
    (¬ExternalFault.Stops flt (own.hasFile row.filename) →
      match files (child ++ slash :: row.filename) with
      | none => own.AppendsExternals [] res.1 ∧ res.2 = false
      | some x => own.AppendsExternals [(row.filename, insertedRows flt x.avail)] res.1 ∧
          res.2 = true ∧ ∀ f, res.1.hasFile f = (own.hasFile f || f = row.filename)) := by
  obtain ⟨happ, hfail, hfile⟩ := ensureXattrDb_spec umask flt own row
  simp only
  unfold rollupExternalXattrs
  cases hok : (ensureXattrDb umask flt own row).2 with
  | false =>
      rw [thenIfOk_of_not_ok hok]
      refine ⟨fun _ => ⟨happ, hok⟩, fun hno => absurd ?_ hno⟩
      rcases hfail.mp hok with h | h
      · exact Or.inl h
      · exact Or.inr (Or.inl h)
  | true =>
      rw [thenIfOk_of_ok hok]
      have hnofail : ¬(flt = some .stat ∨
          (flt = some .copyTemplate ∧ own.hasFile row.filename = false)) := by
        rw [← hfail, hok]
        decide
      by_cases hopen : flt = some .opendb ∨ flt = some .attach
      · rw [if_pos hopen]
        exact ⟨fun _ => ⟨happ, rfl⟩, fun hno => absurd (Or.inr (Or.inr hopen)) hno⟩
      · rw [if_neg hopen, hattach]
        constructor
        · rintro (h | h | h)
          · exact absurd (Or.inl h) hnofail
          · exact absurd (Or.inr h) hnofail
          · exact absurd h hopen
        · intro _
          cases files (child ++ slash :: row.filename) with
          | none => exact ⟨happ, rfl⟩
          | some x =>
              simp only
              have hhas : (ensureXattrDb umask flt own row).1.hasFile row.filename = true := by
                rw [hfile hok]
                simp
              obtain ⟨happ', hsame⟩ := appends_appendXattrRollup hhas (insertedRows flt x.avail)
              have hfiles : ∀ f, (appendXattrRollup (ensureXattrDb umask flt own row).1
                  row.filename (insertedRows flt x.avail)).hasFile f =
                  (own.hasFile f || f = row.filename) := by
                intro f
                rw [hsame, hfile hok]
              rcases flt with _ | (_ | _ | _ | _ | n)
              all_goals exact ⟨happ.trans happ', rfl, hfiles⟩

/-- The copies of all external xattr databases append the copied rows and succeed as these say. -/
theorem rollupExternals_spec (flt : ℕ → Option ExternalFault) (rows : List ExternalDb) (k : ℕ)
    (own : Dir) (hattach : ∀ row ∈ rows, ∀ d, attach d (child ++ slash :: row.filename) =
      files (child ++ slash :: row.filename)) :
    own.AppendsExternals (copiedExternals files flt child k own.hasFile rows).1
      (rollupExternals umask attach flt child k rows own).1 ∧
    (rollupExternals umask attach flt child k rows own).2 =
      (copiedExternals files flt child k own.hasFile rows).2 ∧
    ((rollupExternals umask attach flt child k rows own).2 = true → ∀ f,
      (rollupExternals umask attach flt child k rows own).1.hasFile f =
        (own.hasFile f || (rows.map (·.filename)).contains f)) := by
  induction rows generalizing k own with
  | nil => exact ⟨Dir.AppendsExternals.refl own, rfl, fun _ f => by simp [rollupExternals]⟩
  | cons row rows ih =>
      have hspec := rollupExternalXattrs_spec umask files (flt k) own
        (hattach row (List.mem_cons_self ..))
      rw [rollupExternals, copiedExternals]
      by_cases hstop : ExternalFault.Stops (flt k) (own.hasFile row.filename)
      · obtain ⟨happ, hfail⟩ := hspec.1 hstop
        rw [if_pos hstop, thenIfOk_of_not_ok hfail]
        exact ⟨happ, hfail, fun h => absurd (hfail.symm.trans h) (by decide)⟩
      · have hgo := hspec.2 hstop
        rw [if_neg hstop]
        cases hext : files (child ++ slash :: row.filename) with
        | none =>
            rw [hext] at hgo
            obtain ⟨happ, hfail⟩ := hgo
            rw [thenIfOk_of_not_ok hfail]
            exact ⟨happ, hfail, fun h => absurd (hfail.symm.trans h) (by decide)⟩
        | some x =>
            rw [hext] at hgo
            obtain ⟨happ, hok, hfile⟩ := hgo
            rw [thenIfOk_of_ok hok]
            obtain ⟨happ', hok', hfile'⟩ := ih (k + 1)
              (rollupExternalXattrs umask attach (flt k) child own row).1
              (fun r hr => hattach r (List.mem_cons_of_mem row hr))
            have hpresent : (rollupExternalXattrs umask attach (flt k) child own row).1.hasFile =
                fun f => own.hasFile f || f = row.filename := funext hfile
            rw [hpresent] at happ' hok'
            refine ⟨happ.trans happ', hok', fun h f => ?_⟩
            rw [hfile' h, hfile]
            simp [Bool.or_assoc]

end Externals

section Child

/-- The directory has got rows in its tables and its external xattr databases. -/
structure Dir.Appends (rename : Bytes → SummaryRow → SummaryRow) (r : Rows) (d d' : Dir) :
    Prop where
  db : ∃ db db', d.db = some db ∧ d'.db = some db' ∧ db.Appends rename r db'
  rollupRows : ∀ f, d'.rollupRows f = d.rollupRows f ++ Rows.forFile r.externals f
  pwdRows : ∀ f, d'.pwdRows f = d.pwdRows f

theorem Dir.Appends.trans {rename : Bytes → SummaryRow → SummaryRow} {r r' : Rows} {a b c : Dir}
    (h : a.Appends rename r b) (h' : b.Appends rename r' c) :
    a.Appends rename (r.append r') c where
  db := by
    obtain ⟨da, db, hda, hdb, hab⟩ := h.db
    obtain ⟨db', dc, hdb', hdc, hbc⟩ := h'.db
    rw [hdb] at hdb'
    cases hdb'
    exact ⟨da, dc, hda, hdc, hab.trans hbc⟩
  rollupRows f := by
    rw [h'.rollupRows, h.rollupRows, Rows.append, Rows.forFile_append, List.append_assoc]
  pwdRows f := (h'.pwdRows f).trans (h.pwdRows f)

theorem Dir.Appends.refl {rename : Bytes → SummaryRow → SummaryRow} {d : Dir} {db : Db}
    (h : d.db = some db) : d.Appends rename {} d :=
  ⟨⟨db, db, h, h, Db.Appends.refl db⟩, fun f => by simp [Rows.forFile], fun _ => rfl⟩

def Dir.hasTreesummary (d : Dir) : Bool :=
  ((d.db.map fun db => db.treesummary.isSome).getD false)

theorem Dir.Appends.hasTreesummary {rename : Bytes → SummaryRow → SummaryRow} {r : Rows}
    {d d' : Dir} (h : d.Appends rename r d') : d'.hasTreesummary = d.hasTreesummary := by
  obtain ⟨db, db', hdb, hdb', happ⟩ := h.db
  simp [Dir.hasTreesummary, hdb, hdb', happ.treesummary]

variable (files : Bytes → Option XattrDb)

/-- The rows of a child's tables and, with `files` for what its raw paths attach, of its external
xattr databases. -/
def dbRows (child : Bytes) (sub : Db) : Rows where
  pentries := sub.pentries
  summary := sub.summary
  xattrs := sub.xattrsAvail
  externalDbs := sub.externalDbs
  externals := sub.externalXattrs.map fun row =>
    (row.filename, ((files (child ++ slash :: row.filename)).map XattrDb.avail).getD [])

def copiedProcess (flt : ChildFaults) (child : Bytes) (hasTreesummary : Bool)
    (present : Bytes → Bool) (sub : Db) : Rows × Bool :=
  let tables := copiedRows flt hasTreesummary sub
  if tables.2 then
    let externals := copiedExternals files flt.external child 0 present sub.externalXattrs
    ({ tables.1 with externals := externals.1 }, externals.2)
  else tables

/-- The rows copied from one child and whether no failure was reported. -/
def copiedChild (hasTreesummary : Bool) (present : Bytes → Bool) (c : Child) : Rows × Bool :=
  if c.faults.attach then ({}, false)
  else match c.attached with
    | none => ({}, false)
    | some sub => copiedProcess files c.faults c.path hasTreesummary present sub

/-- The file names of the parent after a child has been copied. -/
def presentAfter (present : Bytes → Bool) (c : Child) : Bytes → Bool :=
  fun f => present f || (((c.attached.map Db.externalXattrs).getD []).map (·.filename)).contains f

/-- The rows copied from all children. -/
def copiedChildren (hasTreesummary : Bool) : (Bytes → Bool) → List Child → Rows × Bool
  | _, [] => ({}, true)
  | present, c :: cs =>
      let res := copiedChild files hasTreesummary present c
      if res.2 then
        let rest := copiedChildren hasTreesummary (presentAfter present c) cs
        (res.1.append rest.1, rest.2)
      else res

theorem externals_copiedRows (flt : ChildFaults) (hasTreesummary : Bool) (sub : Db) :
    (copiedRows flt hasTreesummary sub).1.externals = [] := by
  unfold copiedRows
  simp only
  split_ifs <;> rfl

variable (umask : ℕ) {attach : AttachXattr}

/-- A path below the child attaches what `files` says, whatever happens to the parent meanwhile. -/
def AttachesAs (attach : AttachXattr) (files : Bytes → Option XattrDb) (child : Bytes) (sub : Db) :
    Prop :=
  ∀ row ∈ sub.externalXattrs, ∀ d, attach d (child ++ slash :: row.filename) =
    files (child ++ slash :: row.filename)

theorem appends_rollupChildProcess (name : Bytes → SummaryRow → Bytes) (flt : ChildFaults)
    (child : Bytes) (sub : Db) {own : Dir} {db : Db} (hdb : own.db = some db)
    (hattach : AttachesAs attach files child sub) :
    let res := rollupChildProcess umask attach (fun db s => name db.rootName s) flt child sub own
    let copied := copiedProcess files flt child own.hasTreesummary own.hasFile sub
    own.Appends (renameRow name) copied.1 res.1 ∧ res.2 = copied.2 ∧
      (res.2 = true → ∀ f, res.1.hasFile f =
        (own.hasFile f || (sub.externalXattrs.map (·.filename)).contains f)) := by
  obtain ⟨htables, hok⟩ := appends_rollupOneSubdir flt name sub db
  have hts : own.hasTreesummary = db.treesummary.isSome := by simp [Dir.hasTreesummary, hdb]
  have hexternals := externals_copiedRows flt db.treesummary.isSome sub
  simp only [rollupChildProcess, copiedProcess, hdb, hts]
  set tables := rollupOneSubdir flt (fun db s => name db.rootName s) sub db with htab
  cases hcopied : (copiedRows flt db.treesummary.isSome sub).2 with
  | false =>
      rw [hcopied] at hok
      simp only [thenIfOk, hok, Bool.false_eq_true, if_false]
      refine ⟨⟨⟨db, tables.1, hdb, rfl, htables⟩, fun f => ?_, fun _ => rfl⟩, hcopied.symm,
        fun h => h.elim⟩
      rw [hexternals]
      exact (List.append_nil _).symm
  | true =>
      rw [hcopied] at hok
      simp only [thenIfOk, hok, if_true]
      obtain ⟨happ, hres, hfile⟩ := rollupExternals_spec umask files
        flt.external sub.externalXattrs 0 (own.setDb tables.1) hattach
      refine ⟨⟨⟨db, tables.1, hdb, happ.db.trans rfl, ?_⟩, happ.rollupRows, happ.pwdRows⟩, hres,
        hfile⟩
      exact ⟨htables.pentries, htables.summary, htables.xattrs, htables.externalDbs,
        htables.entries, htables.rootRows, htables.xattrsPwd, htables.externalDbsPwd,
        htables.treesummary⟩

/-- `(SELECT name FROM summary WHERE isroot == 1) || '/' || sub.name`. -/
def bottomupName (rootName : Bytes) (s : SummaryRow) : Bytes :=
  rootName ++ slash :: s.name

theorem appends_rollupChild (c : Child) {own : Dir} {db : Db} (hdb : own.db = some db)
    (hattach : ∀ sub, c.attached = some sub → AttachesAs attach files c.path sub) :
    let res := rollupChild umask attach c own
    let copied := copiedChild files own.hasTreesummary own.hasFile c
    own.Appends (renameRow bottomupName) copied.1 res.1 ∧ res.2 = copied.2 ∧
      (res.2 = true → res.1.hasFile = presentAfter own.hasFile c) := by
  simp only [rollupChild, copiedChild]
  by_cases hfault : c.faults.attach = true
  · rw [if_pos hfault, if_pos hfault]
    exact ⟨Dir.Appends.refl hdb, rfl, fun h => absurd h Bool.false_ne_true⟩
  · rw [if_neg hfault, if_neg hfault]
    cases hc : c.attached with
    | none => exact ⟨Dir.Appends.refl hdb, rfl, fun h => absurd h Bool.false_ne_true⟩
    | some sub =>
        obtain ⟨happ, hok, hfile⟩ := appends_rollupChildProcess files umask bottomupName
          c.faults c.path sub hdb (hattach sub hc)
        refine ⟨happ, hok, fun h => funext fun f => ?_⟩
        simp only [presentAfter, hc]
        exact hfile h f

/-- The children append the rows that are copied from them, and the rollup of the children fails
as these say. -/
theorem appends_rollupChildren (cs : List Child) {own : Dir} {db : Db} (hdb : own.db = some db)
    (hattach : ∀ c ∈ cs, ∀ sub, c.attached = some sub → AttachesAs attach files c.path sub) :
    let res := rollupChildren umask attach cs own
    let copied := copiedChildren files own.hasTreesummary own.hasFile cs
    own.Appends (renameRow bottomupName) copied.1 res.1 ∧ res.2 = copied.2 := by
  induction cs generalizing own db with
  | nil => exact ⟨Dir.Appends.refl hdb, rfl⟩
  | cons c cs ih =>
      obtain ⟨happ, hok, hfile⟩ := appends_rollupChild files umask c hdb
        (hattach c (List.mem_cons_self ..))
      simp only [rollupChildren, copiedChildren]
      cases hc : (copiedChild files own.hasTreesummary own.hasFile c).2 with
      | false =>
          rw [hc] at hok
          rw [thenIfOk_of_not_ok hok]
          simp only [Bool.false_eq_true, if_false]
          exact ⟨happ, hok.trans hc.symm⟩
      | true =>
          rw [hc] at hok
          rw [thenIfOk_of_ok hok]
          simp only [if_true]
          obtain ⟨-, db', -, hdb', -⟩ := happ.db
          obtain ⟨happ', hok'⟩ := ih hdb' (fun x hx => hattach x (List.mem_cons_of_mem c hx))
          rw [happ.hasTreesummary, hfile hok] at happ' hok'
          exact ⟨happ.trans happ', hok'⟩

end Child

end Gufi
