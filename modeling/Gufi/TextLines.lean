import Mathlib.Data.List.TakeWhile
import Mathlib.Logic.Relation
import Mathlib.Tactic.Common

/-!
# The lines of a file, read by offset

A file is a list of symbols. A line ends at a separator or at the end of the file, and reading the
line at an offset also gives the offset behind it, from which the next line is read. A reader that
starts in the middle of a line meets the lines behind it at the same offsets as a reader from the
start, so a file can be read in parts that are cut at those offsets.
-/

namespace TextLines

variable {α : Type*} [DecidableEq α] (sep : α) (file : List α)

section ReadAt

/-- The line at an offset and the offset behind it; `none` at the end of the file. -/
def readAt (offset : ℕ) : Option (List α × ℕ) :=
  let rest := file.drop offset
  let line := rest.takeWhile (· ≠ sep)
  if rest = [] then none
  else some (line, offset + line.length + if line.length < rest.length then 1 else 0)

variable {sep file} {offset next : ℕ} {line : List α}

theorem readAt_eq_none_iff : readAt sep file offset = none ↔ file.length ≤ offset := by
  unfold readAt
  simp only [ite_eq_left_iff, reduceCtorEq, imp_false, not_not, List.drop_eq_nil_iff]

/-- What a line that was read consists of. -/
theorem readAt_eq_some (h : readAt sep file offset = some (line, next)) :
    sep ∉ line ∧ offset < next ∧ next ≤ file.length ∧
      ((∃ rest, file.drop offset = line ++ sep :: rest ∧ next = offset + line.length + 1) ∨
        (file.drop offset = line ∧ next = file.length)) := by
  have hne : file.drop offset ≠ [] := by
    intro hnil
    simp [readAt, hnil] at h
  have hlt : offset < file.length := by
    by_contra hle
    exact hne (List.drop_eq_nil_iff.mpr (not_lt.mp hle))
  simp only [readAt, hne, if_false, Option.some.injEq, Prod.mk.injEq] at h
  obtain ⟨rfl, rfl⟩ := h
  have hlen := List.length_drop (l := file) (i := offset)
  have hsplit := List.takeWhile_append_dropWhile (p := (· ≠ sep)) (l := file.drop offset)
  have hsep : sep ∉ (file.drop offset).takeWhile (· ≠ sep) := by
    intro hmem
    have hfalse := List.mem_takeWhile_imp hmem
    simp at hfalse
  cases hrest : (file.drop offset).dropWhile (· ≠ sep) with
  | nil =>
      rw [hrest, List.append_nil] at hsplit
      have hnot : ¬((file.drop offset).takeWhile (· ≠ sep)).length < (file.drop offset).length := by
        rw [hsplit]
        exact lt_irrefl _
      rw [if_neg hnot, hsplit, hlen]
      refine ⟨hsplit ▸ hsep, by omega, by omega, Or.inr ⟨rfl, by omega⟩⟩
  | cons c rest =>
      have hc : c = sep := by
        have hhead := List.head?_dropWhile_not (p := (· ≠ sep)) (l := file.drop offset)
        rw [hrest] at hhead
        simpa using hhead
      subst hc
      rw [hrest] at hsplit
      have hlength := congrArg List.length hsplit
      rw [List.length_append, List.length_cons] at hlength
      have hlt' : ((file.drop offset).takeWhile (· ≠ c)).length < (file.drop offset).length := by
        omega
      rw [if_pos hlt']
      exact ⟨hsep, by omega, by omega, Or.inl ⟨rest, hsplit.symm, rfl⟩⟩

theorem takeWhile_of_notMem {rest : List α} (h : sep ∉ line) :
    (line ++ rest).takeWhile (· ≠ sep) = line ++ rest.takeWhile (· ≠ sep) := by
  apply List.takeWhile_append_of_pos
  intro c hc
  simp only [decide_not, Bool.not_eq_eq_eq_not, Bool.not_true, decide_eq_false_iff_not]
  rintro rfl
  exact h hc

theorem readAt_of_drop_eq_cons {rest : List α} (h : sep ∉ line)
    (hdrop : file.drop offset = line ++ sep :: rest) :
    readAt sep file offset = some (line, offset + line.length + 1) := by
  have hlt : line.length < (line ++ sep :: rest).length := by simp
  simp only [readAt, hdrop, takeWhile_of_notMem h]
  rw [if_neg (by simp)]
  simp

/-- The line that is written behind `before`. -/
theorem readAt_append (before rest : List α) (h : sep ∉ line) :
    readAt sep (before ++ (line ++ sep :: rest)) before.length =
      some (line, before.length + line.length + 1) :=
  readAt_of_drop_eq_cons h List.drop_left

/-- The last line may be without its separator. -/
theorem readAt_of_drop_eq (h : sep ∉ line) (hdrop : file.drop offset = line) (hne : line ≠ []) :
    readAt sep file offset = some (line, offset + line.length) := by
  have htake : line.takeWhile (· ≠ sep) = line := by
    simpa using @takeWhile_of_notMem _ _ _ _ [] h
  simp only [readAt, hdrop, htake, if_neg hne, lt_irrefl, if_false, Nat.add_zero]

/-- Inside a line, a reader gets its rest and ends at the same offset. -/
theorem readAt_of_mem_line (h : readAt sep file offset = some (line, next)) {k : ℕ}
    (hle : offset ≤ k) (hlt : k < next) : ∃ part, readAt sep file k = some (part, next) := by
  obtain ⟨hsep, -, hnext, ⟨rest, hdrop, rfl⟩ | ⟨hdrop, rfl⟩⟩ := readAt_eq_some h
  · obtain ⟨d, rfl⟩ := Nat.exists_eq_add_of_le hle
    have hd : d ≤ line.length := by omega
    refine ⟨line.drop d, ?_⟩
    have hpart : sep ∉ line.drop d := fun hmem => hsep (List.mem_of_mem_drop hmem)
    have hfile : file = file.take (offset + d) ++ (line.drop d ++ sep :: rest) := by
      conv_lhs => rw [← List.take_append_drop (offset + d) file, ← List.drop_drop, hdrop,
        List.drop_append_of_le_length hd]
    have hlength : (file.take (offset + d)).length = offset + d := by
      rw [List.length_take]
      omega
    have hread := readAt_append (file.take (offset + d)) rest hpart
    rw [← hfile, hlength, List.length_drop] at hread
    rw [hread]
    congr 2
    omega
  · refine ⟨file.drop k, ?_⟩
    have hsuffix : file.drop k = line.drop (k - offset) := by
      rw [← hdrop, List.drop_drop]
      congr 1
      omega
    have htake : (file.drop k).takeWhile (· ≠ sep) = file.drop k := by
      rw [List.takeWhile_eq_self_iff]
      intro c hc
      simp only [decide_not, Bool.not_eq_eq_eq_not, Bool.not_true, decide_eq_false_iff_not]
      rintro rfl
      exact hsep (List.mem_of_mem_drop (hsuffix ▸ hc))
    have hne : file.drop k ≠ [] := by
      rw [ne_eq, List.drop_eq_nil_iff]
      omega
    rw [readAt, htake, if_neg hne, if_neg (lt_irrefl _), List.length_drop]
    congr 2
    omega

end ReadAt

section ReadUpTo

/-- The lines that start before the limit, each with the offset behind it. -/
def readLines (limit : ℕ) : ℕ → ℕ → List (List α × ℕ)
  | 0, _ => []
  | fuel + 1, offset =>
    if offset < limit then
      match readAt sep file offset with
      | none => []
      | some (line, next) => (line, next) :: readLines limit fuel next
    else []

/-- The lines from an offset on that start before the limit. A line has at least one symbol or a
separator, so the fuel is enough. -/
def readUpTo (limit offset : ℕ) : List (List α × ℕ) :=
  readLines sep file limit (file.length - offset) offset

variable {sep file} {limit offset next : ℕ} {line : List α}

theorem readLines_congr {fuel fuel' : ℕ} (h : file.length - offset ≤ fuel)
    (h' : file.length - offset ≤ fuel') :
    readLines sep file limit fuel offset = readLines sep file limit fuel' offset := by
  induction fuel generalizing fuel' offset with
  | zero =>
      have hnone : readAt sep file offset = none := readAt_eq_none_iff.mpr (by omega)
      cases fuel' <;> simp [readLines, hnone]
  | succ fuel ih =>
      cases fuel' with
      | zero =>
          have hnone : readAt sep file offset = none := readAt_eq_none_iff.mpr (by omega)
          simp [readLines, hnone]
      | succ fuel' =>
          rw [readLines, readLines]
          cases hread : readAt sep file offset with
          | none => rfl
          | some r =>
              obtain ⟨line, next⟩ := r
              obtain ⟨-, hlt, -, -⟩ := readAt_eq_some hread
              have hnext : readLines sep file limit fuel next =
                  readLines sep file limit fuel' next := ih (by omega) (by omega)
              simp only [hnext]

theorem readUpTo_eq (limit offset : ℕ) : readUpTo sep file limit offset =
    if offset < limit then
      match readAt sep file offset with
      | none => []
      | some (line, next) => (line, next) :: readUpTo sep file limit next
    else [] := by
  unfold readUpTo
  cases hread : readAt sep file offset with
  | none =>
      have hnil : file.length - offset = 0 := by
        have := readAt_eq_none_iff.mp hread
        omega
      rw [hnil]
      simp [readLines]
  | some r =>
      obtain ⟨line, next⟩ := r
      obtain ⟨-, hlt, hle, -⟩ := readAt_eq_some hread
      obtain ⟨fuel, hfuel⟩ := Nat.exists_eq_succ_of_ne_zero (show file.length - offset ≠ 0 by omega)
      have hnext : readLines sep file limit fuel next =
          readLines sep file limit (file.length - next) next := readLines_congr (by omega) le_rfl
      rw [hfuel, readLines, hread]
      simp only [hnext]

theorem readUpTo_of_le (h : limit ≤ offset) : readUpTo sep file limit offset = [] := by
  unfold readUpTo
  cases file.length - offset with
  | zero => rfl
  | succ n => rw [readLines, if_neg (by omega)]

theorem readUpTo_cons (h : readAt sep file offset = some (line, next)) (hlt : offset < limit) :
    readUpTo sep file limit offset = (line, next) :: readUpTo sep file limit next := by
  rw [readUpTo_eq, if_pos hlt, h]

/-- The first of the lines was read at the offset. -/
theorem readUpTo_eq_cons {after : List (List α × ℕ)}
    (h : readUpTo sep file limit offset = (line, next) :: after) :
    readAt sep file offset = some (line, next) ∧ readUpTo sep file limit next = after := by
  rw [readUpTo_eq] at h
  by_cases hlt : offset < limit
  · rw [if_pos hlt] at h
    cases hread : readAt sep file offset with
    | none => simp [hread] at h
    | some r =>
        rw [hread] at h
        obtain ⟨hhead, htail⟩ := List.cons.inj h
        rw [Prod.mk.injEq] at hhead
        obtain ⟨rfl, rfl⟩ := hhead
        exact ⟨rfl, htail⟩
  · rw [if_neg hlt] at h
    cases h

theorem not_mem_of_mem_readUpTo {r : List α × ℕ} (h : r ∈ readUpTo sep file limit offset) :
    sep ∉ r.1 := by
  obtain ⟨before, after, heq⟩ := List.append_of_mem h
  clear h
  induction before generalizing offset with
  | nil => exact (readAt_eq_some (readUpTo_eq_cons heq).1).1
  | cons first before ih => exact ih (readUpTo_eq_cons heq).2

/-- Lines that are written one after the other are read back. -/
theorem map_fst_readUpTo_joined (before : List α) (lines : List (List α))
    (h : ∀ line ∈ lines, sep ∉ line) :
    (readUpTo sep (before ++ lines.flatMap (· ++ [sep]))
      (before ++ lines.flatMap (· ++ [sep])).length before.length).map Prod.fst = lines := by
  induction lines generalizing before with
  | nil => simp [readUpTo_of_le]
  | cons line lines ih =>
      have hfile : before ++ (line :: lines).flatMap (· ++ [sep]) =
          before ++ (line ++ sep :: lines.flatMap (· ++ [sep])) := by
        simp
      have hread := readAt_append before (lines.flatMap (· ++ [sep]))
        (h line (List.mem_cons_self ..))
      have htail := ih (before ++ (line ++ [sep])) fun l hl => h l (List.mem_cons_of_mem line hl)
      have hassoc : before ++ (line ++ [sep]) ++ lines.flatMap (· ++ [sep]) =
          before ++ (line ++ sep :: lines.flatMap (· ++ [sep])) := by
        simp
      have hlength : (before ++ (line ++ [sep])).length = before.length + line.length + 1 := by
        simp [Nat.add_assoc]
      rw [hassoc, hlength] at htail
      have hlt : before.length <
          (before ++ (line ++ sep :: lines.flatMap (· ++ [sep]))).length := by
        simp only [List.length_append, List.length_cons]
        omega
      rw [hfile, readUpTo_cons hread hlt, List.map_cons]
      exact congrArg (line :: ·) htail

end ReadUpTo

section Boundaries

variable {sep file} {a b k limit : ℕ}

/-- From the first offset a line is read that ends at the second. -/
def Next (sep : α) (file : List α) (a b : ℕ) : Prop :=
  ∃ line, readAt sep file a = some (line, b)

/-- Whole lines lie between the offsets. -/
def Reaches (sep : α) (file : List α) : ℕ → ℕ → Prop :=
  Relation.ReflTransGen (Next sep file)

theorem Next.lt (h : Next sep file a b) : a < b := by
  obtain ⟨line, h⟩ := h
  exact (readAt_eq_some h).2.1

theorem Next.le_length (h : Next sep file a b) : b ≤ file.length := by
  obtain ⟨line, h⟩ := h
  exact (readAt_eq_some h).2.2.1

theorem Reaches.le (h : Reaches sep file a b) : a ≤ b := by
  induction h with
  | refl => exact le_rfl
  | tail _ hnext ih => exact ih.trans hnext.lt.le

/-- Reading up to a boundary and from there on is reading all. -/
theorem Reaches.readUpTo_append (h : Reaches sep file a b) (hb : b ≤ limit) :
    readUpTo sep file limit a = readUpTo sep file b a ++ readUpTo sep file limit b := by
  induction h using Relation.ReflTransGen.head_induction_on with
  | refl => rw [readUpTo_of_le le_rfl, List.nil_append]
  | head hnext hrest ih =>
      have hlt := hnext.lt
      have hle := Reaches.le hrest
      obtain ⟨line, hread⟩ := hnext
      rw [readUpTo_cons hread (by omega), readUpTo_cons hread (by omega), ih, List.cons_append]

/-- Every offset of the file is in a line that a reader meets. -/
theorem exists_line (ha : a ≤ k) (hk : k < file.length) :
    ∃ x y, Reaches sep file a x ∧ Next sep file x y ∧ x ≤ k ∧ k < y := by
  generalize hn : file.length - a = n
  induction n using Nat.strong_induction_on generalizing a with
  | _ n ih =>
      cases hread : readAt sep file a with
      | none =>
          have := readAt_eq_none_iff.mp hread
          omega
      | some r =>
          obtain ⟨line, next⟩ := r
          have hnext : Next sep file a next := ⟨line, hread⟩
          have hlt := hnext.lt
          have hle := hnext.le_length
          by_cases hkn : k < next
          · exact ⟨a, next, Relation.ReflTransGen.refl, hnext, ha, hkn⟩
          · obtain ⟨x, y, hx, hxy, hxk, hky⟩ := ih (file.length - next) (by omega)
              (not_lt.mp hkn) rfl
            exact ⟨x, y, Relation.ReflTransGen.head hnext hx, hxy, hxk, hky⟩

/-- A reader that starts anywhere is at a boundary after it has read what is left of a line. -/
theorem reaches_of_readAt (ha : a ≤ k) {part : List α} (h : readAt sep file k = some (part, b)) :
    Reaches sep file a b := by
  have hk : k < file.length := by
    by_contra hle
    rw [readAt_eq_none_iff.mpr (not_lt.mp hle)] at h
    cases h
  obtain ⟨x, y, hx, ⟨line, hread⟩, hxk, hky⟩ := @exists_line _ _ sep _ _ _ ha hk
  obtain ⟨part', hpart⟩ := readAt_of_mem_line hread hxk hky
  rw [hpart] at h
  obtain ⟨-, rfl⟩ := Prod.mk.inj (Option.some.inj h)
  exact Relation.ReflTransGen.tail hx ⟨line, hread⟩

end Boundaries

end TextLines
