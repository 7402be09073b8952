import Mathlib.Data.List.Dedup
import Mathlib.Data.List.Nodup

/-!
# Tables, views and inserts

A table is the list of its rows in rowid order. `union` is the compound select `UNION`, which
keeps one copy of equal rows, and `leftJoin` is `LEFT JOIN`. `insertSelect` is
`INSERT INTO ... SELECT ...`, which may stop after any number of rows. `insertOrIgnore` and
`insertUnique` insert under a primary key: the first skips a row whose key is present, the second
fails on it.
-/

namespace SqlTable

variable {α κ : Type*}

section Union

variable [DecidableEq α]

def union (a b : List α) : List α :=
  (a ++ b).dedup

@[simp] theorem mem_union {a b : List α} {x : α} : x ∈ union a b ↔ x ∈ a ∨ x ∈ b := by
  simp [union]

theorem nodup_union (a b : List α) : (union a b).Nodup :=
  List.nodup_dedup _

theorem union_eq_append {a b : List α} (h : (a ++ b).Nodup) : union a b = a ++ b :=
  h.dedup

@[simp] theorem union_nil_nil : union ([] : List α) [] = [] := rfl

end Union

/-- The rows after the statement, with whether it succeeded. A failing statement has inserted
the given number of rows. -/
def insertSelect (fault : Option ℕ) (table rows : List α) : List α × Bool :=
  match fault with
  | none => (table ++ rows, true)
  | some n => (table ++ rows.take n, false)

@[simp] theorem insertSelect_none (table rows : List α) :
    insertSelect none table rows = (table ++ rows, true) := rfl

theorem insertSelect_snd (fault : Option ℕ) (table rows : List α) :
    (insertSelect fault table rows).2 = fault.isNone := by
  cases fault <;> rfl

theorem insertSelect_fst (fault : Option ℕ) (table rows : List α) :
    ∃ done, done <+: rows ∧ (insertSelect fault table rows).1 = table ++ done := by
  cases fault with
  | none => exact ⟨rows, List.prefix_rfl, rfl⟩
  | some n => exact ⟨rows.take n, List.take_prefix n rows, rfl⟩

section PrimaryKey

variable [DecidableEq κ] (key : α → κ)

def insertOrIgnore (table rows : List α) : List α :=
  rows.foldl (fun t x => if key x ∈ t.map key then t else t ++ [x]) table

@[simp] theorem insertOrIgnore_nil (table : List α) : insertOrIgnore key table [] = table := rfl

theorem insertOrIgnore_cons (table : List α) (x : α) (rows : List α) :
    insertOrIgnore key table (x :: rows) =
      insertOrIgnore key (if key x ∈ table.map key then table else table ++ [x]) rows := rfl

theorem insertOrIgnore_append (table a b : List α) :
    insertOrIgnore key table (a ++ b) = insertOrIgnore key (insertOrIgnore key table a) b := by
  simp only [insertOrIgnore, List.foldl_append]

theorem prefix_insertOrIgnore (table rows : List α) : table <+: insertOrIgnore key table rows := by
  induction rows generalizing table with
  | nil => exact List.prefix_rfl
  | cons x rows ih =>
      rw [insertOrIgnore_cons]
      split_ifs with h
      · exact ih table
      · exact (List.prefix_append table [x]).trans (ih _)

theorem mem_of_mem_insertOrIgnore {table rows : List α} {x : α}
    (h : x ∈ insertOrIgnore key table rows) : x ∈ table ∨ x ∈ rows := by
  induction rows generalizing table with
  | nil => exact Or.inl h
  | cons y rows ih =>
      rw [insertOrIgnore_cons] at h
      rcases ih h with ht | hr
      · split_ifs at ht with hk
        · exact Or.inl ht
        · rcases List.mem_append.mp ht with ht | hy
          · exact Or.inl ht
          · exact Or.inr (by simp_all)
      · exact Or.inr (List.mem_cons_of_mem y hr)

/-- Every offered key is present afterwards, be it from an earlier row. -/
theorem exists_key_of_mem (table rows : List α) {x : α} (h : x ∈ rows) :
    ∃ y ∈ insertOrIgnore key table rows, key y = key x := by
  induction rows generalizing table with
  | nil => cases h
  | cons y rows ih =>
      rcases List.mem_cons.mp h with rfl | hx
      · have hmem : ∃ z ∈ (if key x ∈ table.map key then table else table ++ [x]),
            key z = key x := by
          split_ifs with hk
          · simpa using hk
          · exact ⟨x, by simp, rfl⟩
        obtain ⟨z, hz, hzk⟩ := hmem
        exact ⟨z, (prefix_insertOrIgnore key _ rows).subset hz, hzk⟩
      · exact ih _ hx

theorem insertOrIgnore_eq_append {table rows : List α} (h : ((table ++ rows).map key).Nodup) :
    insertOrIgnore key table rows = table ++ rows := by
  induction rows generalizing table with
  | nil => simp
  | cons x rows ih =>
      have hx : key x ∉ table.map key := by
        intro hmem
        rw [List.map_append, List.map_cons] at h
        exact List.disjoint_of_nodup_append h hmem (List.mem_cons_self ..)
      rw [insertOrIgnore_cons, if_neg hx, ih (by simpa using h)]
      simp

/-- `INSERT INTO ... SELECT ...` under a primary key: `none` when some key is present twice. -/
def insertUnique (table rows : List α) : Option (List α) :=
  if ∀ x ∈ rows, key x ∉ table.map key then
    if (rows.map key).Nodup then some (table ++ rows) else none
  else none

end PrimaryKey

section LeftJoin

variable {β : Type*} {on : α → β → Bool}

/-- `LEFT JOIN ... ON ...`: a row of the left table that matches nothing is kept once. -/
def leftJoin (on : α → β → Bool) (left : List α) (right : List β) : List (α × Option β) :=
  left.flatMap fun a =>
    match right.filter (on a) with
    | [] => [(a, none)]
    | matched => matched.map fun b => (a, some b)

/-- What is joined to one row of the left table. -/
def joined (on : α → β → Bool) (right : List β) (a : α) : List (Option β) :=
  match right.filter (on a) with
  | [] => [none]
  | matched => matched.map some

theorem leftJoin_eq (left : List α) (right : List β) :
    leftJoin on left right = left.flatMap fun a => (joined on right a).map fun b => (a, b) := by
  refine congrArg (fun f => left.flatMap f) (funext fun a => ?_)
  rw [joined]
  cases right.filter (on a) with
  | nil => rfl
  | cons b matched => simp

/-- The rows of the left table can be chosen first. -/
theorem filter_leftJoin (p : α → Bool) (left : List α) (right : List β) :
    (leftJoin on left right).filter (fun row => p row.1) = leftJoin on (left.filter p) right := by
  rw [leftJoin_eq, leftJoin_eq]
  induction left with
  | nil => rfl
  | cons a left ih =>
      rw [List.flatMap_cons, List.filter_append, ih, List.filter_map]
      cases hp : p a with
      | true => simp [Function.comp_def, hp]
      | false => simp [Function.comp_def, hp]

/-- A row of the left table that is there several times has its matches as often. -/
theorem leftJoin_replicate (n : ℕ) (a : α) (right : List β) :
    (leftJoin on (List.replicate n a) right).map Prod.snd =
      (List.replicate n (joined on right a)).flatten := by
  induction n with
  | zero => rfl
  | succ n ih =>
      rw [leftJoin_eq] at ih ⊢
      rw [List.replicate_succ, List.replicate_succ, List.flatMap_cons, List.map_append, ih,
        List.flatten_cons, List.map_map]
      simp [Function.comp_def]

end LeftJoin

end SqlTable
