import Gufi.TreeSummary

/-!
# Reading summary rows

`querytsdb` calls `sqlite3_step` until it returns `SQLITE_DONE`. Everything else is taken for a row.
Without a row all columns are `NULL`, which are read as zeros.
-/

namespace Gufi.QueryTsdb

section Model

inductive StepResult
  | row (columns : Sums)
  | done
  | error (code : ℤ)

def SQLITE_BUSY : ℤ := 5

/-- What `sqlite3_step` returns: rows, or `none` where the database is busy, and then always
`SQLITE_DONE`, or always the same error. -/
structure Results where
  returned : List (Option Sums)
  error : Option ℤ

/-- Call number `n`. -/
def sqlite3Step (r : Results) (n : ℕ) : StepResult :=
  match r.returned[n]? with
  | some (some columns) => .row columns
  | some none => .error SQLITE_BUSY
  | none => r.error.elim .done .error

/-- `sqlite3_column_int64` of all columns. The counts of subdirectories are columns of `treesummary`
only. -/
def readColumns (ts : Bool) (columns : Sums) : Sums :=
  if ts then columns else { columns with totsubdirs := 0, maxsubdir := fun _ => 0 }

/-- All columns of a result that is no row. -/
def nullColumns : Sums :=
  ⟨0, 0, 0, fun _ => 0, fun _ => 0, fun _ => 0, fun _ => 0, 0, fun _ => 0, 0⟩

def StepResult.columns : StepResult → Sums
  | .row columns => columns
  | _ => nullColumns

/-- What the body of the loop does to `sum`. -/
def addColumns (ts : Bool) (sum columns : Sums) : Sums :=
  (tsumit (readColumns ts columns) sum).dropSubdir

/-- The loop from call `n` on; `none` if there are more iterations than `fuel`. -/
def loop (r : Results) (ts : Bool) : ℕ → ℕ → Sums → ℕ → Option (Sums × ℕ)
  | 0, _, _, _ => none
  | fuel + 1, n, sum, rows =>
    match sqlite3Step r n with
    | .done => some (sum, rows)
    | result => loop r ts fuel (n + 1) (addColumns ts sum result.columns) (rows + 1)

/-- The rows among the results. -/
def Results.rows (r : Results) : List Sums := r.returned.filterMap id

/-- The loop ends, and has added the rows and nothing else. -/
def ReadsRows (r : Results) (ts : Bool) (sum : Sums) : Prop :=
  ∃ fuel rows, loop r ts fuel 0 sum 0 = some (r.rows.foldl (addColumns ts) sum, rows)

end Model

section Sum

variable {r : Results} {ts : Bool} {sum columns : Sums}

/-- What is added for a result that is no row. -/
def raised (sum : Sums) : Sums := { sum with maxsubdir := fun d => max (sum.maxsubdir d) 0 }

theorem addColumns_null (ts : Bool) (sum : Sums) : addColumns ts sum nullColumns = raised sum := by
  have hread : readColumns ts nullColumns = nullColumns := by cases ts <;> rfl
  rw [addColumns, hread]
  apply Sums.eq_of_fields
  case htotal => intro d; cases d <;> exact add_zero _
  case hmaxsub => intro d; cases d <;> rfl
  case hmin => exact fun _ => rfl
  case hmax => exact fun _ => rfl
  case htime => exact fun _ => rfl
  case htot => exact fun _ => add_zero _
  case hext => exact add_zero _
  case hsubdirs =>
    change sum.totsubdirs + 1 + 0 - 1 = sum.totsubdirs
    omega

theorem addColumns_raised (ts : Bool) (sum columns : Sums) :
    addColumns ts (raised sum) columns = raised (addColumns ts sum columns) := by
  apply Sums.eq_of_fields
  case hmaxsub => intro d; exact max_right_comm _ _ _
  all_goals intros; rfl

/-- However often there was no row, once is all that shows. -/
theorem foldl_addColumns (ts : Bool) (returned : List (Option Sums)) (sum : Sums) :
    returned.foldl (fun sum columns => addColumns ts sum (columns.getD nullColumns)) sum =
      if returned.any Option.isNone then raised ((returned.filterMap id).foldl (addColumns ts) sum)
      else (returned.filterMap id).foldl (addColumns ts) sum := by
  induction returned generalizing sum with
  | nil => rfl
  | cons columns returned ih =>
      rw [List.foldl_cons, ih]
      cases columns with
      | some columns =>
          have hrows : (some columns :: returned).filterMap id = columns :: returned.filterMap id :=
            List.filterMap_cons_some rfl
          rw [Option.getD_some, hrows, List.foldl_cons, List.any_cons, Option.isNone_some,
            Bool.false_or]
      | none =>
          have hfold (rows : List Sums) : rows.foldl (addColumns ts) (raised sum) =
              raised (rows.foldl (addColumns ts) sum) := by
            induction rows generalizing sum with
            | nil => rfl
            | cons columns rows ih => rw [List.foldl_cons, List.foldl_cons, addColumns_raised, ih]
          have htwice (s : Sums) : raised (raised s) = raised s := by
            apply Sums.eq_of_fields
            case hmaxsub => exact fun _ => max_eq_left (le_max_right _ _)
            all_goals intros; rfl
          have hrows : (none :: returned).filterMap id = returned.filterMap id :=
            List.filterMap_cons_none rfl
          rw [List.any_cons, Option.isNone_none, Bool.true_or, if_pos rfl, Option.getD_none,
            addColumns_null, hrows, hfold]
          split_ifs
          · rw [htwice]
          · rfl

theorem le_maxsubdir_foldl (ts : Bool) (rows : List Sums) (sum : Sums) (d : SubdirField) :
    0 ≤ (rows.foldl (addColumns ts) sum).maxsubdir d ↔
      0 ≤ sum.maxsubdir d ∨ ∃ columns ∈ rows, 0 ≤ (readColumns ts columns).subdirMax d := by
  induction rows generalizing sum with
  | nil => simp
  | cons columns rows ih =>
      have hstep : (addColumns ts sum columns).maxsubdir d =
          max (sum.maxsubdir d) ((readColumns ts columns).subdirMax d) := rfl
      rw [List.foldl_cons, ih, hstep, le_max_iff, List.exists_mem_cons_iff, or_assoc]

theorem raised_eq_self_iff : raised sum = sum ↔ ∀ d, 0 ≤ sum.maxsubdir d := by
  constructor
  · intro h d
    have hd := congrFun (congrArg Sums.maxsubdir h) d
    exact max_eq_left_iff.mp hd
  · intro h
    apply Sums.eq_of_fields
    case hmaxsub => exact fun d => max_eq_left (h d)
    all_goals intros; rfl

end Sum

section Loop

variable {r : Results} {ts : Bool} {sum : Sums}

/-- Where the results end with `SQLITE_DONE`, so does the loop, after all of them. -/
theorem loop_done (hdone : r.error = none) (ts : Bool) (before : List (Option Sums))
    {rest : List (Option Sums)} (hreturned : r.returned = before ++ rest) (sum : Sums) (rows : ℕ) :
    loop r ts (rest.length + 1) before.length sum rows = some
      (rest.foldl (fun sum columns => addColumns ts sum (columns.getD nullColumns)) sum,
        rows + rest.length) := by
  induction rest generalizing before sum rows with
  | nil =>
      have hstep : sqlite3Step r before.length = .done := by
        rw [sqlite3Step, hreturned, List.append_nil, List.getElem?_eq_none le_rfl, hdone]
        rfl
      rw [List.length_nil, Nat.zero_add, loop, hstep]
      rfl
  | cons columns rest ih =>
      have hget : r.returned[before.length]? = some columns := by
        rw [hreturned, List.getElem?_append_right le_rfl, Nat.sub_self, List.getElem?_cons_zero]
      have hrest := ih (before ++ [columns]) (by rw [hreturned, List.append_assoc]; rfl)
        (addColumns ts sum (columns.getD nullColumns)) (rows + 1)
      rw [List.length_append, List.length_singleton] at hrest
      rw [List.length_cons, List.foldl_cons, Nat.add_comm rest.length 1, ← Nat.add_assoc, ← hrest,
        Nat.add_comm 1 rest.length]
      cases columns with
      | none => rw [loop, sqlite3Step, hget]; rfl
      | some columns => rw [loop, sqlite3Step, hget]; rfl

/-- An error that stays is never taken for the end. -/
theorem loop_error {code : ℤ} (herror : r.error = some code) (ts : Bool) (fuel n : ℕ) (sum : Sums)
    (rows : ℕ) : loop r ts fuel n sum rows = none := by
  induction fuel generalizing n sum rows with
  | zero => rfl
  | succ fuel ih =>
      have hstep : sqlite3Step r n ≠ .done := by
        rw [sqlite3Step, herror]
        cases r.returned[n]? with
        | none => nofun
        | some columns => cases columns <;> nofun
      rw [loop]
      cases hresult : sqlite3Step r n with
      | done => exact absurd hresult hstep
      | row columns => exact ih ..
      | error code => exact ih ..

/-- More fuel does not change a result. -/
theorem loop_mono {fuel n rows : ℕ} {out : Sums × ℕ} (h : loop r ts fuel n sum rows = some out)
    (more : ℕ) : loop r ts (fuel + more) n sum rows = some out := by
  induction fuel generalizing n sum rows with
  | zero => cases h
  | succ fuel ih =>
      rw [Nat.succ_add, loop]
      rw [loop] at h
      cases hstep : sqlite3Step r n with
      | done =>
          rw [hstep] at h
          exact h
      | row columns =>
          rw [hstep] at h
          exact ih h
      | error code =>
          rw [hstep] at h
          exact ih h

/-- What the loop makes of the results. -/
theorem loop_eq_some (hdone : r.error = none) {fuel : ℕ} {out : Sums × ℕ}
    (h : loop r ts fuel 0 sum 0 = some out) :
    out = (r.returned.foldl (fun sum columns =>
      addColumns ts sum (columns.getD nullColumns)) sum, r.returned.length) := by
  have hall := loop_mono (loop_done hdone ts [] (List.nil_append r.returned).symm sum 0) fuel
  have hsame := loop_mono h (r.returned.length + 1)
  rw [Nat.add_comm] at hsame
  rw [Nat.zero_add] at hall
  exact Option.some_inj.mp (hsame.symm.trans hall)

/-- The queries return rows that are read as they are. -/
theorem readColumns_of_mem {columns : List Bytes → SumColumns} {db : Db} {u : Sums}
    (hu : u ∈ db.querytsdbRows columns ts) : readColumns ts u = u := by
  cases ts with
  | true => rfl
  | false =>
      obtain ⟨row, -, rfl⟩ := List.mem_map.mp hu
      rfl

/-- Without interruptions the loop returns what it is for. -/
theorem loop_querytsdb {columns : List Bytes → SumColumns} {db : Db}
    (hrows : r.returned = (db.querytsdbRows columns ts).map some) (hdone : r.error = none)
    (sum : Sums) : ∃ fuel, loop r ts fuel 0 sum 0 = some (querytsdb columns db ts sum) := by
  refine ⟨r.returned.length + 1,
    (loop_done hdone ts [] (List.nil_append r.returned).symm sum 0).trans ?_⟩
  have hread : ∀ u ∈ db.querytsdbRows columns ts, ∀ s : Sums,
      addColumns ts s u = (tsumit u s).dropSubdir := by
    intro u hu s
    rw [addColumns, readColumns_of_mem hu]
  rw [hrows, List.length_map, Nat.zero_add, List.foldl_map, querytsdb]
  exact congrArg some (Prod.ext (List.foldl_ext _ _ _ fun s u hu => hread u hu s) rfl)

/-- The loop ends with the rows added just if the results end with `SQLITE_DONE` and, where the
database was busy, no maximum over subdirectories is below zero. -/
theorem readsRows_iff (r : Results) (ts : Bool) (sum : Sums) : ReadsRows r ts sum ↔
    r.error = none ∧ (none ∈ r.returned → ∀ d, 0 ≤ sum.maxsubdir d ∨
      ∃ columns ∈ r.rows, 0 ≤ (readColumns ts columns).subdirMax d) := by
  cases herror : r.error with
  | some code =>
      refine iff_of_false ?_ fun h => nomatch h.1
      rintro ⟨fuel, rows, hloop⟩
      rw [loop_error herror] at hloop
      cases hloop
  | none =>
      rw [and_iff_right rfl]
      have hany : r.returned.any Option.isNone = true ↔ none ∈ r.returned := by
        simp [List.any_eq_true]
      have hall : ReadsRows r ts sum ↔ (if r.returned.any Option.isNone then
          raised (r.rows.foldl (addColumns ts) sum) else r.rows.foldl (addColumns ts) sum) =
            r.rows.foldl (addColumns ts) sum := by
        rw [Results.rows, ← foldl_addColumns]
        constructor
        · rintro ⟨fuel, rows, hloop⟩
          exact (congrArg Prod.fst (loop_eq_some herror hloop)).symm
        · intro heq
          have hloop := loop_done herror ts [] (List.nil_append r.returned).symm sum 0
          rw [heq] at hloop
          exact ⟨_, _, hloop⟩
      rw [hall]
      by_cases hbusy : none ∈ r.returned
      · rw [if_pos (hany.mpr hbusy), raised_eq_self_iff, imp_iff_right hbusy]
        exact forall_congr' fun d => le_maxsubdir_foldl ts r.rows sum d
      · rw [if_neg (mt hany.mp hbusy)]
        exact iff_of_true rfl fun h => absurd h hbusy

/-- `SQLITE_CORRUPT` in the first call and in every call after it. -/
theorem not_readsRows : (∀ fuel, loop ⟨[], some 11⟩ false fuel 0 zeroit 0 = none) ∧
    ¬∀ r ts sum, ReadsRows r ts sum := by
  have hloop (fuel : ℕ) : loop ⟨[], some 11⟩ false fuel 0 zeroit 0 = none := loop_error rfl ..
  refine ⟨hloop, fun hall => ?_⟩
  obtain ⟨fuel, rows, hread⟩ := hall ⟨[], some 11⟩ false zeroit
  rw [hloop fuel] at hread
  cases hread

end Loop

end Gufi.QueryTsdb
