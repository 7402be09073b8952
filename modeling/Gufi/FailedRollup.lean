import Gufi.RollupRows

/-!
# What a failed rollup leaves behind

`rollup_init` sets `isrolledup` before the first child is attached, and nothing resets it. When the
copying fails, `gufi_query` does not visit the children any more, so every row that was not copied
is missing from its results. `NothingLeft` says for which failures that does not matter: the first
reported failure comes when nothing is left to insert, and no unreported one lost a row.
-/

namespace Gufi

open SqlTable

section Left

variable (files : Bytes → Option XattrDb)

/-- The rows a child has for its parent. -/
def childRows (c : Child) : Rows :=
  (c.attached.map (dbRows files c.path)).getD {}

def Keys (rows : List ExternalDb) : List (ExternalType × ℕ × Bytes) :=
  rows.map ExternalDb.key

/-- All of the given rows were inserted, with `seen` in `external_dbs_rollup` before. -/
structure Rows.Covers (seen : List ExternalDb) (copied rows : Rows) : Prop where
  pentries : copied.pentries = rows.pentries
  summary : copied.summary = rows.summary
  xattrs : copied.xattrs = rows.xattrs
  externalDbs : ∀ row ∈ rows.externalDbs, row.key ∈ Keys (seen ++ copied.externalDbs)
  externals : ∀ f, forFile copied.externals f = forFile rows.externals f

/-- The child's database can be attached, and all its rows were inserted. -/
def FullyCopied (seen : List ExternalDb) (c : Child) (copied : Rows) : Prop :=
  c.attached ≠ none ∧ copied.Covers seen (childRows files c)

/-- The child has nothing to insert. -/
def HasNothing (seen : List ExternalDb) (c : Child) : Prop :=
  FullyCopied files seen c {}

/-- Every child up to the first one that fails is fully copied, and those after it have nothing
to insert. -/
def NothingLeft (hasTreesummary : Bool) : List ExternalDb → (Bytes → Bool) → List Child → Prop
  | _, _, [] => True
  | seen, present, c :: cs =>
      let copied := copiedChild files hasTreesummary present c
      FullyCopied files seen c copied.1 ∧
        if copied.2 then
          NothingLeft hasTreesummary (seen ++ copied.1.externalDbs) (presentAfter present c) cs
        else ∀ c' ∈ cs, HasNothing files (seen ++ copied.1.externalDbs) c'

end Left

section Complete

variable (files : Bytes → Option XattrDb)

def allRows (cs : List Child) : Rows :=
  cs.foldr (fun c r => (childRows files c).append r) {}

/-- The directory holds the rolled-up rows of all children and no others. -/
structure Complete (cs : List Child) (own d : Dir) : Prop where
  attached : ∀ c ∈ cs, c.attached ≠ none
  tables : ∃ db₀ db, (rollupInit own).db = some db₀ ∧ d.db = some db ∧
    db.pentriesRollup = (allRows files cs).pentries ∧
    db.summary = db₀.summary ++
      (allRows files cs).summary.map (renameRow bottomupName db₀.rootName) ∧
    db.xattrsRollup = (allRows files cs).xattrs ∧
    ∀ row ∈ (allRows files cs).externalDbs, row.key ∈ Keys db.externalDbsRollup
  externals : ∀ f, d.rollupRows f =
    (rollupInit own).rollupRows f ++ Rows.forFile (allRows files cs).externals f

end Complete

section Lists

theorem append_eq_append_of_length_le {α : Type*} {a a' b b' : List α}
    (ha : a.length ≤ a'.length) (hb : b.length ≤ b'.length) :
    a ++ b = a' ++ b' ↔ a = a' ∧ b = b' := by
  constructor
  · intro h
    have hlen := congrArg List.length h
    rw [List.length_append, List.length_append] at hlen
    exact List.append_inj h (by omega)
  · rintro ⟨rfl, rfl⟩
    rfl

theorem length_takeFault_le {α : Type*} (fault : Option ℕ) (rows : List α) :
    (takeFault fault rows).length ≤ rows.length := by
  cases fault with
  | none => exact le_rfl
  | some n => exact List.length_take_le' n rows

end Lists

section Bounded

/-- No more rows than given. -/
structure Rows.Le (r r' : Rows) : Prop where
  pentries : r.pentries.length ≤ r'.pentries.length
  summary : r.summary.length ≤ r'.summary.length
  xattrs : r.xattrs.length ≤ r'.xattrs.length
  externals : ∀ f, (forFile r.externals f).length ≤ (forFile r'.externals f).length

theorem Rows.nil_le (r : Rows) : Rows.Le {} r :=
  ⟨Nat.zero_le _, Nat.zero_le _, Nat.zero_le _, fun _ => Nat.zero_le _⟩

theorem Rows.append_nil (r : Rows) : r.append {} = r := by
  simp [Rows.append]

theorem Rows.append_le {a a' b b' : Rows} (ha : a.Le a') (hb : b.Le b') :
    (a.append b).Le (a'.append b') where
  pentries := by
    simpa only [Rows.append, List.length_append] using Nat.add_le_add ha.pentries hb.pentries
  summary := by
    simpa only [Rows.append, List.length_append] using Nat.add_le_add ha.summary hb.summary
  xattrs := by
    simpa only [Rows.append, List.length_append] using Nat.add_le_add ha.xattrs hb.xattrs
  externals f := by
    simpa only [Rows.append, Rows.forFile_append, List.length_append] using
      Nat.add_le_add (ha.externals f) (hb.externals f)

variable {files : Bytes → Option XattrDb}

theorem copiedRows_le (flt : ChildFaults) (hasTreesummary : Bool) (child : Bytes) (sub : Db) :
    (copiedRows flt hasTreesummary sub).1.Le (dbRows files child sub) := by
  have hp := length_takeFault_le flt.pentries sub.pentries
  have hs := length_takeFault_le flt.summary sub.summary
  have hx := length_takeFault_le flt.xattrs sub.xattrsAvail
  unfold copiedRows
  simp only
  split_ifs
  · exact ⟨hp, Nat.zero_le _, Nat.zero_le _, fun _ => Nat.zero_le _⟩
  · exact ⟨hp, hs, Nat.zero_le _, fun _ => Nat.zero_le _⟩
  · exact ⟨hp, hs, hx, fun _ => Nat.zero_le _⟩
  · exact ⟨hp, hs, hx, fun _ => Nat.zero_le _⟩

theorem length_insertedRows_le (flt : Option ExternalFault) (rows : List XattrRow) :
    (insertedRows flt rows).length ≤ rows.length := by
  unfold insertedRows
  split
  · exact List.length_take_le' _ _
  · exact le_rfl

theorem copiedExternals_le (flt : ℕ → Option ExternalFault) (child f : Bytes)
    (rows : List ExternalDb) (k : ℕ) (present : Bytes → Bool) :
    (Rows.forFile (copiedExternals files flt child k present rows).1 f).length ≤
      (Rows.forFile (rows.map fun row => (row.filename,
        ((files (child ++ slash :: row.filename)).map XattrDb.avail).getD [])) f).length := by
  induction rows generalizing k present with
  | nil => exact le_rfl
  | cons row rows ih =>
      rw [copiedExternals]
      split_ifs with hstop
      · exact Nat.zero_le _
      · cases hext : files (child ++ slash :: row.filename) with
        | none => exact Nat.zero_le _
        | some x =>
            simp only [List.map_cons, hext, Option.map_some, Option.getD_some]
            rw [Rows.forFile_cons, Rows.forFile_cons, List.length_append, List.length_append]
            refine Nat.add_le_add ?_ (ih _ _)
            split_ifs
            · exact length_insertedRows_le _ _
            · exact le_rfl

theorem copiedProcess_le (flt : ChildFaults) (child : Bytes) (hasTreesummary : Bool)
    (present : Bytes → Bool) (sub : Db) :
    (copiedProcess files flt child hasTreesummary present sub).1.Le (dbRows files child sub) := by
  have htables : (copiedRows flt hasTreesummary sub).1.Le (dbRows files child sub) :=
    copiedRows_le flt hasTreesummary child sub
  unfold copiedProcess
  simp only
  split_ifs
  · exact ⟨htables.pentries, htables.summary, htables.xattrs,
      fun f => copiedExternals_le _ _ _ _ _ _⟩
  · exact htables

theorem copiedChild_le (hasTreesummary : Bool) (present : Bytes → Bool) (c : Child) :
    (copiedChild files hasTreesummary present c).1.Le (childRows files c) := by
  unfold copiedChild childRows
  split_ifs
  · exact Rows.nil_le _
  · cases c.attached with
    | none => exact Rows.nil_le _
    | some sub => exact copiedProcess_le _ _ _ _ _

theorem copiedChildren_le (hasTreesummary : Bool) (cs : List Child) (present : Bytes → Bool) :
    (copiedChildren files hasTreesummary present cs).1.Le (allRows files cs) := by
  induction cs generalizing present with
  | nil => exact Rows.nil_le _
  | cons c cs ih =>
      rw [copiedChildren]
      have hc : (copiedChild files hasTreesummary present c).1.Le (childRows files c) :=
        copiedChild_le hasTreesummary present c
      simp only
      split_ifs
      · exact Rows.append_le hc (ih _)
      · exact (copiedChild files hasTreesummary present c).1.append_nil ▸
          Rows.append_le hc (Rows.nil_le _)

end Bounded

section Covers

variable {seen : List ExternalDb} {a a' b b' : Rows}

theorem Rows.covers_append (ha : a.Le a') (hb : b.Le b') (hext : a.externalDbs = a'.externalDbs) :
    (a.append b).Covers seen (a'.append b') ↔
      a.Covers seen a' ∧ b.Covers (seen ++ a.externalDbs) b' := by
  have hpentries := append_eq_append_of_length_le ha.pentries hb.pentries
  have hsummary := append_eq_append_of_length_le ha.summary hb.summary
  have hxattrs := append_eq_append_of_length_le ha.xattrs hb.xattrs
  have hexternals := fun f => append_eq_append_of_length_le (ha.externals f) (hb.externals f)
  constructor
  · rintro ⟨h₁, h₂, h₃, h₄, h₅⟩
    simp only [append, forFile_append] at h₁ h₂ h₃ h₄ h₅
    refine ⟨⟨(hpentries.mp h₁).1, (hsummary.mp h₂).1, (hxattrs.mp h₃).1, fun row hrow => ?_,
      fun f => ((hexternals f).mp (h₅ f)).1⟩, ⟨(hpentries.mp h₁).2, (hsummary.mp h₂).2,
      (hxattrs.mp h₃).2, fun row hrow => ?_, fun f => ((hexternals f).mp (h₅ f)).2⟩⟩
    · rw [hext]
      exact List.mem_map_of_mem (List.mem_append_right _ hrow)
    · rw [List.append_assoc]
      exact h₄ row (List.mem_append_right _ hrow)
  · rintro ⟨⟨h₁, h₂, h₃, h₄, h₅⟩, ⟨k₁, k₂, k₃, k₄, k₅⟩⟩
    refine ⟨hpentries.mpr ⟨h₁, k₁⟩, hsummary.mpr ⟨h₂, k₂⟩, hxattrs.mpr ⟨h₃, k₃⟩,
      fun row hrow => ?_, fun f => ?_⟩
    · simp only [append, ← List.append_assoc]
      rcases List.mem_append.mp hrow with hrow | hrow
      · rw [Keys, List.map_append]
        exact List.mem_append_left _ (h₄ row hrow)
      · exact k₄ row hrow
    · simp only [append, forFile_append, h₅, k₅]

theorem Rows.covers_append_of_stop (ha : a.Le a') :
    a.Covers seen (a'.append b') ↔
      a.Covers seen a' ∧ ({} : Rows).Covers (seen ++ a.externalDbs) b' := by
  have hnil {α : Type} {l l' l'' : List α} (h : l.length ≤ l'.length) :
      l = l' ++ l'' ↔ l = l' ∧ [] = l'' := by
    have hzero : ([] : List α).length ≤ l''.length := Nat.zero_le _
    have happ := append_eq_append_of_length_le h hzero
    rwa [List.append_nil] at happ
  constructor
  · rintro ⟨h₁, h₂, h₃, h₄, h₅⟩
    simp only [append, forFile_append] at h₁ h₂ h₃ h₄ h₅
    refine ⟨⟨((hnil ha.pentries).mp h₁).1, ((hnil ha.summary).mp h₂).1,
      ((hnil ha.xattrs).mp h₃).1, fun row hrow => h₄ row (List.mem_append_left _ hrow),
      fun f => ((hnil (ha.externals f)).mp (h₅ f)).1⟩, ⟨((hnil ha.pentries).mp h₁).2,
      ((hnil ha.summary).mp h₂).2, ((hnil ha.xattrs).mp h₃).2, fun row hrow => ?_,
      fun f => ((hnil (ha.externals f)).mp (h₅ f)).2⟩⟩
    rw [List.append_nil]
    exact h₄ row (List.mem_append_right _ hrow)
  · rintro ⟨⟨h₁, h₂, h₃, h₄, h₅⟩, ⟨k₁, k₂, k₃, k₄, k₅⟩⟩
    refine ⟨(hnil ha.pentries).mpr ⟨h₁, k₁⟩, (hnil ha.summary).mpr ⟨h₂, k₂⟩,
      (hnil ha.xattrs).mpr ⟨h₃, k₃⟩, fun row hrow => ?_, fun f => ?_⟩
    · rcases List.mem_append.mp hrow with hrow | hrow
      · exact h₄ row hrow
      · simpa using k₄ row hrow
    · rw [append, forFile_append]
      exact (hnil (ha.externals f)).mpr ⟨h₅ f, k₅ f⟩

variable {files : Bytes → Option XattrDb}

theorem covers_nil_allRows (cs : List Child) :
    ({} : Rows).Covers seen (allRows files cs) ↔
      ∀ c ∈ cs, ({} : Rows).Covers seen (childRows files c) := by
  induction cs with
  | nil =>
      exact ⟨fun _ c hc => absurd hc List.not_mem_nil,
        fun _ => ⟨rfl, rfl, rfl, fun _ h => absurd h List.not_mem_nil, fun _ => rfl⟩⟩
  | cons c cs ih =>
      have happ : ({} : Rows).Covers seen ((childRows files c).append (allRows files cs)) ↔ _ :=
        Rows.covers_append_of_stop (Rows.nil_le (childRows files c))
      rw [List.append_nil] at happ
      rw [List.forall_mem_cons, ← ih]
      exact happ

theorem copiedRows_of_ok {flt : ChildFaults} {hasTreesummary : Bool} {sub : Db}
    (h : (copiedRows flt hasTreesummary sub).2 = true) :
    (copiedRows flt hasTreesummary sub).1.summary = sub.summary ∧
      (copiedRows flt hasTreesummary sub).1.externalDbs = sub.externalDbs := by
  unfold copiedRows at h ⊢
  simp only at h ⊢
  split_ifs at h ⊢ with h₁ h₂ h₃
  rw [Option.isNone_iff_eq_none] at h
  have hs : flt.summary = none := by simpa using fun hsome => h₂ (Or.inl hsome)
  rw [h, hs]
  exact ⟨rfl, rfl⟩

theorem copiedChild_of_ok {hasTreesummary : Bool} {present : Bytes → Bool} {c : Child}
    (h : (copiedChild files hasTreesummary present c).2 = true) :
    (copiedChild files hasTreesummary present c).1.summary = (childRows files c).summary ∧
      (copiedChild files hasTreesummary present c).1.externalDbs =
        (childRows files c).externalDbs := by
  unfold copiedChild childRows at *
  split_ifs at h ⊢ with hfault
  cases hc : c.attached with
  | none => simp [hc] at h
  | some sub =>
      simp only [hc, copiedProcess, Option.map_some, Option.getD_some, dbRows] at h ⊢
      split_ifs at h ⊢ with htables
      · exact copiedRows_of_ok htables
      · exact absurd h htables

theorem summary_copiedChild_isPrefix (hasTreesummary : Bool) (present : Bytes → Bool) (c : Child) :
    (copiedChild files hasTreesummary present c).1.summary <+: (childRows files c).summary := by
  have htake (flt : ChildFaults) (sub : Db) :
      (copiedRows flt hasTreesummary sub).1.summary <+: sub.summary := by
    have hpre : takeFault flt.summary sub.summary <+: sub.summary := by
      cases flt.summary with
      | none => exact List.prefix_rfl
      | some n => exact List.take_prefix n _
    unfold copiedRows
    simp only
    split_ifs
    · exact List.nil_prefix
    · exact hpre
    · exact hpre
    · exact hpre
  unfold copiedChild childRows
  split_ifs
  · exact List.nil_prefix
  · cases c.attached with
    | none => exact List.nil_prefix
    | some sub =>
        simp only [copiedProcess]
        split_ifs <;> exact htake _ _

theorem summary_copiedChildren_isPrefix (hasTreesummary : Bool) (cs : List Child)
    (present : Bytes → Bool) :
    (copiedChildren files hasTreesummary present cs).1.summary <+: (allRows files cs).summary := by
  induction cs generalizing present with
  | nil => exact List.prefix_rfl
  | cons c cs ih =>
      have hc : (copiedChild files hasTreesummary present c).1.summary <+:
          (childRows files c).summary := summary_copiedChild_isPrefix hasTreesummary present c
      rw [copiedChildren]
      simp only
      split_ifs with hok
      · change (copiedChild files hasTreesummary present c).1.summary ++ _ <+: _
        rw [(copiedChild_of_ok hok).1]
        exact (List.prefix_append_right_inj _).mpr (ih _)
      · exact hc.trans (List.prefix_append _ _)

/-- The rows that are copied are all rows exactly when nothing is left. -/
theorem nothingLeft_iff (hasTreesummary : Bool) (cs : List Child) (seen : List ExternalDb)
    (present : Bytes → Bool) : NothingLeft files hasTreesummary seen present cs ↔
      (∀ c ∈ cs, c.attached ≠ none) ∧
        (copiedChildren files hasTreesummary present cs).1.Covers seen (allRows files cs) := by
  induction cs generalizing seen present with
  | nil => exact ⟨fun _ => ⟨fun c hc => absurd hc List.not_mem_nil, rfl, rfl, rfl,
      fun _ h => absurd h List.not_mem_nil, fun _ => rfl⟩, fun _ => trivial⟩
  | cons c cs ih =>
      have hle : (copiedChild files hasTreesummary present c).1.Le (childRows files c) :=
        copiedChild_le hasTreesummary present c
      rw [NothingLeft, copiedChildren, List.forall_mem_cons]
      simp only
      cases hok : (copiedChild files hasTreesummary present c).2 with
      | true =>
          simp only [if_true]
          have hrest : (copiedChildren files hasTreesummary (presentAfter present c) cs).1.Le
              (allRows files cs) := copiedChildren_le _ _ _
          rw [ih, FullyCopied, show allRows files (c :: cs) =
            (childRows files c).append (allRows files cs) from rfl,
            Rows.covers_append hle hrest (copiedChild_of_ok hok).2]
          tauto
      | false =>
          simp only [Bool.false_eq_true, if_false]
          rw [FullyCopied, show allRows files (c :: cs) =
            (childRows files c).append (allRows files cs) from rfl, Rows.covers_append_of_stop hle,
            covers_nil_allRows]
          simp only [HasNothing, FullyCopied]
          constructor
          · rintro ⟨⟨h₁, h₂⟩, h₃⟩
            exact ⟨⟨h₁, fun x hx => (h₃ x hx).1⟩, h₂, fun x hx => (h₃ x hx).2⟩
          · rintro ⟨⟨h₁, h₂⟩, h₃, h₄⟩
            exact ⟨⟨h₁, h₃⟩, fun x hx => ⟨h₂ x hx, h₄ x hx⟩⟩

end Covers

section DoRollup

theorem hasTreesummary_rollupInit (own : Dir) :
    (rollupInit own).hasTreesummary = own.hasTreesummary := by
  rw [Dir.hasTreesummary, rollupInit, Dir.rollupCleanup_db, Option.map_map]
  rfl

theorem mem_keys_insertOrIgnore {table rows : List ExternalDb} {key : ExternalType × ℕ × Bytes} :
    key ∈ Keys (insertOrIgnore ExternalDb.key table rows) ↔ key ∈ Keys (table ++ rows) := by
  constructor
  · intro h
    obtain ⟨x, hx, rfl⟩ := List.mem_map.mp h
    exact List.mem_map_of_mem (List.mem_append.mpr (mem_of_mem_insertOrIgnore _ hx))
  · intro h
    obtain ⟨x, hx, rfl⟩ := List.mem_map.mp h
    rcases List.mem_append.mp hx with hx | hx
    · exact List.mem_map_of_mem ((prefix_insertOrIgnore _ _ _).subset hx)
    · obtain ⟨y, hy, hkey⟩ := exists_key_of_mem ExternalDb.key table rows hx
      exact List.mem_map.mpr ⟨y, hy, hkey⟩

/-- A directory whose cleaned tables got the copied rows is complete when these are all rows. -/
theorem complete_iff_covers {files : Bytes → Option XattrDb} {cs : List Child} {own d : Dir}
    {db : Db} (hdb : own.db = some db) {copied : Rows}
    (hpre : copied.summary <+: (allRows files cs).summary)
    (happ : (rollupInit own).Appends (renameRow bottomupName) copied d) :
    Complete files cs own d ↔ (∀ c ∈ cs, c.attached ≠ none) ∧
      copied.Covers [] (allRows files cs) := by
  obtain ⟨db₀, db₁, h₀, h₁, htab⟩ := happ.db
  have hclean : db₀ = db.rollupCleanup true := by
    rw [rollupInit, Dir.rollupCleanup_db, hdb] at h₀
    exact (Option.some.inj h₀).symm
  have hp : db₀.pentriesRollup = [] := by rw [hclean]; rfl
  have hx : db₀.xattrsRollup = [] := by rw [hclean]; rfl
  have he : db₀.externalDbsRollup = [] := by rw [hclean]; rfl
  constructor
  · rintro ⟨hatt, ⟨db₀', db₁', h₀', h₁', hpentries, hsummary, hxattrs, hexternal⟩, hfiles⟩
    rw [h₀] at h₀'
    rw [h₁] at h₁'
    cases h₀'
    cases h₁'
    rw [htab.pentries, hp, List.nil_append] at hpentries
    rw [htab.xattrs, hx, List.nil_append] at hxattrs
    rw [htab.summary] at hsummary
    refine ⟨hatt, hpentries, ?_, hxattrs, fun row hrow => ?_, fun f => ?_⟩
    · have hlen := congrArg List.length hsummary
      simp only [List.length_append, List.length_map] at hlen
      exact hpre.eq_of_length (by omega)
    · have hkey := hexternal row hrow
      rw [htab.externalDbs, he] at hkey
      exact mem_keys_insertOrIgnore.mp hkey
    · have hf := hfiles f
      rw [happ.rollupRows] at hf
      exact List.append_cancel_left hf
  · rintro ⟨hatt, hpentries, hsummary, hxattrs, hexternal, hfiles⟩
    refine ⟨hatt, ⟨db₀, db₁, h₀, h₁, ?_, ?_, ?_, fun row hrow => ?_⟩, fun f => ?_⟩
    · rw [htab.pentries, hp, List.nil_append, hpentries]
    · rw [htab.summary, hsummary]
    · rw [htab.xattrs, hx, List.nil_append, hxattrs]
    · rw [htab.externalDbs, he]
      exact mem_keys_insertOrIgnore.mpr (hexternal row hrow)
    · rw [happ.rollupRows, hfiles]

variable (ts : TreeSummaryCode) (umask : ℕ) (files : Bytes → Option XattrDb)

/-- The copied rows of a whole rollup, whatever fails in it. -/
theorem appends_doRollup (db : Db) (xattrDbs : Bytes → Option XattrDb) (cs : List Child) :
    (rollupInit ⟨some db, xattrDbs⟩).Appends (renameRow bottomupName)
      (copiedChildren files db.treesummary.isSome (rollupInit ⟨some db, xattrDbs⟩).hasFile cs).1
      (doRollup ts umask (fun _ => files) ⟨some db, xattrDbs⟩ cs).1 := by
  have hinit : (rollupInit ⟨some db, xattrDbs⟩).db = some (db.rollupCleanup true) :=
    Dir.rollupCleanup_db true _
  have happ := (appends_rollupChildren files umask cs
    hinit (fun c _ sub _ row _ d => rfl)).1
  rw [hasTreesummary_rollupInit] at happ
  change Dir.Appends _ (copiedChildren files db.treesummary.isSome _ cs).1 _ _ at happ
  refine thenIfOk_induct happ (fun _ d hd => ?_)
  obtain ⟨db₀, db₁, h₀, h₁, htab⟩ := hd.db
  rw [h₁]
  exact ⟨⟨db₀, db₁.setTreesummary (ts.rolledUp db₁), h₀, rfl, htab.pentries, htab.summary,
    htab.xattrs, htab.externalDbs, htab.entries, htab.rootRows, htab.xattrsPwd,
    htab.externalDbsPwd, by simpa [Db.setTreesummary] using htab.treesummary⟩, hd.rollupRows,
    hd.pwdRows⟩

/-- After a rollup a directory is complete or visited by gufi_query exactly when it has no summary
row of its own or the failures left nothing behind. -/
theorem failed_rollup_iff (db : Db) (xattrDbs : Bytes → Option XattrDb) (cs : List Child) :
    (Complete files cs ⟨some db, xattrDbs⟩
        (doRollup ts umask (fun _ => files) ⟨some db, xattrDbs⟩ cs).1 ∨
      (doRollup ts umask (fun _ => files) ⟨some db, xattrDbs⟩ cs).1.isrolledup = false) ↔
    (db.rootRows = [] ∨ NothingLeft files db.treesummary.isSome []
      (rollupInit ⟨some db, xattrDbs⟩).hasFile cs) := by
  have happ := appends_doRollup ts umask files db xattrDbs cs
  have hinit : (rollupInit ⟨some db, xattrDbs⟩).db = some (db.rollupCleanup true) :=
    Dir.rollupCleanup_db true _
  have hflag : (doRollup ts umask (fun _ => files) ⟨some db, xattrDbs⟩ cs).1.isrolledup = false ↔
      db.rootRows = [] := by
    obtain ⟨db₀, db₁, h₀, h₁, htab⟩ := happ.db
    rw [hinit] at h₀
    cases h₀
    rw [Dir.isrolledup, h₁, ← getIsrolledup_rollupCleanup, Option.map_some, Option.getD_some,
      getIsrolledup, getIsrolledup, htab.rootRows]
  rw [hflag, complete_iff_covers rfl (summary_copiedChildren_isPrefix _ _ _) happ, nothingLeft_iff]
  tauto

/-- A directory without entries and with nothing rolled up. -/
def emptyDb (name : Bytes) (inode : ℕ) : Db where
  entries := []
  summary := [
    { name := name
      inode := inode
      perms := ⟨0o755, 1000, 1000⟩
      totfiles := 0
      totlinks := 0
      depth := 0
      cols := []
      pinode := 0
      isroot := true
      canrollup := false
      isrolledup := false }]
  pentriesRollup := []
  treesummary := some []
  xattrsPwd := []
  xattrsRollup := []
  externalDbsPwd := []
  externalDbsRollup := []

/-- The only child cannot be attached: its summary row is missing, and the directory claims to be
rolled up. -/
theorem failed_rollup_loses_rows :
    ¬∀ (ts : TreeSummaryCode) (umask : ℕ) (files : Bytes → Option XattrDb) (db : Db)
      (xattrDbs : Bytes → Option XattrDb) (cs : List Child),
      Complete files cs ⟨some db, xattrDbs⟩
        (doRollup ts umask (fun _ => files) ⟨some db, xattrDbs⟩ cs).1 ∨
      (doRollup ts umask (fun _ => files) ⟨some db, xattrDbs⟩ cs).1.isrolledup = false := by
  intro h
  rcases h ⟨fun _ => [], fun _ _ _ => []⟩ 0 (fun _ => none) (emptyDb [97] 1) (fun _ => none)
    [⟨[97, 47, 98], some (emptyDb [98] 2), some (emptyDb [98] 2), true, { attach := true }⟩]
    with hcomplete | hflag
  · obtain ⟨db₀, db₁, h₀, h₁, -, hsummary, -⟩ := hcomplete.tables
    obtain rfl := Option.some.inj h₀
    obtain rfl := Option.some.inj h₁
    have hlen := congrArg List.length hsummary
    revert hlen
    decide
  · revert hflag
    decide

end DoRollup

end Gufi
