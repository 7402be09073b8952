import Mathlib.Data.List.Basic
import Mathlib.Logic.Function.Basic
import Mathlib.Tactic.Common

/-!
# Tries

A node has one child for each symbol, or none, and is marked if a string ends there. A string is
found exactly if it has been inserted.
-/

inductive Trie (σ : Type*)
  | node (isLeaf : Bool) (character : σ → Option (Trie σ))

namespace Trie

variable {σ : Type*} [DecidableEq σ]

/-- A trie with nothing in it. -/
def alloc : Trie σ := node false fun _ => none

def insert : Trie σ → List σ → Trie σ
  | node _ character, [] => node true character
  | node isLeaf character, c :: str =>
      node isLeaf (Function.update character c (some (((character c).getD alloc).insert str)))

def search : Trie σ → List σ → Bool
  | node isLeaf _, [] => isLeaf
  | node _ character, c :: str =>
      match character c with
      | none => false
      | some child => child.search str

omit [DecidableEq σ] in
theorem search_alloc (str : List σ) : (alloc : Trie σ).search str = false := by
  cases str <;> rfl

theorem search_insert (t : Trie σ) (str name : List σ) :
    (t.insert str).search name = true ↔ name = str ∨ t.search name = true := by
  induction str generalizing t name with
  | nil =>
      obtain ⟨isLeaf, character⟩ := t
      cases name with
      | nil => exact iff_of_true rfl (.inl rfl)
      | cons d name =>
          rw [or_iff_right (List.cons_ne_nil d name)]
          rfl
  | cons c str ih =>
      obtain ⟨isLeaf, character⟩ := t
      cases name with
      | nil =>
          rw [or_iff_right (List.cons_ne_nil c str).symm]
          rfl
      | cons d name =>
          rw [insert, search, search]
          by_cases hd : d = c
          · subst hd
            rw [Function.update_self, List.cons.injEq, and_iff_right rfl]
            dsimp only
            rw [ih]
            cases character d with
            | none => rw [Option.getD_none, search_alloc]
            | some child => rfl
          · rw [Function.update_of_ne hd, or_iff_right fun h => hd (List.cons.inj h).1]

theorem search_foldl_insert (t : Trie σ) (strs : List (List σ)) (name : List σ) :
    (strs.foldl insert t).search name = true ↔ name ∈ strs ∨ t.search name = true := by
  induction strs generalizing t with
  | nil => simp only [List.foldl_nil, List.not_mem_nil, false_or]
  | cons str strs ih =>
      rw [List.foldl_cons, ih, search_insert, List.mem_cons, ← or_assoc,
        or_comm (a := name ∈ strs)]

end Trie
