import Mathlib.Data.List.Basic
import Mathlib.Logic.Function.Basic
import Mathlib.Tactic.Common

/-!
# Linked cells

A memory of cells that have a value and a pointer to another cell, or none. `Links m p cells q` says
that the pointers lead from `p` through `cells` to `q`. A cell is named by the number of its
allocation, so a name that has been freed is not used again.
-/

namespace LinkedCells

variable {α : Type*}

structure Cell (α : Type*) where
  data : α
  next : Option ℕ

structure Memory (α : Type*) where
  cell : ℕ → Option (Cell α)
  count : ℕ

namespace Memory

def empty : Memory α := ⟨fun _ => none, 0⟩

/-- The new cell is `m.count`. -/
def alloc (m : Memory α) (data : α) (next : Option ℕ) : Memory α :=
  ⟨Function.update m.cell m.count (some ⟨data, next⟩), m.count + 1⟩

def free (m : Memory α) (a : ℕ) : Memory α := { m with cell := Function.update m.cell a none }

/-- Only a cell that is there can be written. -/
def setNext (m : Memory α) (a : ℕ) (next : Option ℕ) : Option (Memory α) :=
  (m.cell a).map fun c => { m with cell := Function.update m.cell a (some { c with next := next }) }

end Memory

/-- Cells are given with their names and values. -/
def Links (m : Memory α) : Option ℕ → List (ℕ × α) → Option ℕ → Prop
  | p, [], q => p = q
  | p, (a, x) :: cells, q => p = some a ∧ ∃ next, m.cell a = some ⟨x, next⟩ ∧ Links m next cells q

variable {m m' : Memory α} {p q : Option ℕ} {cells cells' : List (ℕ × α)} {a : ℕ} {x : α}

theorem links_append : Links m p (cells ++ cells') q ↔
    ∃ r, Links m p cells r ∧ Links m r cells' q := by
  induction cells generalizing p with
  | nil =>
      constructor
      · exact fun h => ⟨p, rfl, h⟩
      · rintro ⟨r, rfl, h⟩
        exact h
  | cons c cells ih =>
      constructor
      · rintro ⟨hp, next, hcell, hrest⟩
        obtain ⟨r, hr, hq⟩ := ih.mp hrest
        exact ⟨r, ⟨hp, next, hcell, hr⟩, hq⟩
      · rintro ⟨r, ⟨hp, next, hcell, hr⟩, hq⟩
        exact ⟨hp, next, hcell, ih.mpr ⟨r, hr, hq⟩⟩

theorem links_singleton : Links m p [(a, x)] q ↔ p = some a ∧ m.cell a = some ⟨x, q⟩ := by
  constructor
  · rintro ⟨hp, next, hcell, rfl⟩
    exact ⟨hp, hcell⟩
  · rintro ⟨hp, hcell⟩
    exact ⟨hp, q, hcell, rfl⟩

/-- Only the cells themselves matter. -/
theorem Links.congr (h : Links m p cells q) (hcells : ∀ c ∈ cells, m'.cell c.1 = m.cell c.1) :
    Links m' p cells q := by
  induction cells generalizing p with
  | nil => exact h
  | cons c cells ih =>
      obtain ⟨hp, next, hcell, hrest⟩ := h
      refine ⟨hp, next, (hcells c (List.mem_cons_self ..)).trans hcell, ih hrest ?_⟩
      exact fun d hd => hcells d (List.mem_cons_of_mem c hd)

theorem Links.head (h : Links m p cells none) : p = cells.head?.map Prod.fst := by
  cases cells with
  | nil => exact h
  | cons c cells => exact h.1

/-- What is linked is allocated. -/
theorem Links.isSome (h : Links m p cells q) {c : ℕ × α} (hc : c ∈ cells) :
    (m.cell c.1).isSome := by
  induction cells generalizing p with
  | nil => cases hc
  | cons d cells ih =>
      obtain ⟨-, next, hcell, hrest⟩ := h
      rcases List.mem_cons.mp hc with rfl | hc
      · rw [hcell]
        rfl
      · exact ih hrest hc

/-- The last cell may be linked to somewhere else. -/
theorem Links.setLast (h : Links m p cells q) (hnodup : (cells.map Prod.fst).Nodup)
    (hne : cells ≠ []) (next : Option ℕ) : ∃ last m', cells.getLast? = some last ∧
      m.cell last.1 = some ⟨last.2, q⟩ ∧ m.setNext last.1 next = some m' ∧ m'.count = m.count ∧
      Links m' p cells next ∧ ∀ b, b ≠ last.1 → m'.cell b = m.cell b := by
  obtain ⟨init, ⟨a, x⟩, rfl⟩ := (List.eq_nil_or_concat' cells).resolve_left hne
  obtain ⟨r, hcells, hlast⟩ := links_append.mp h
  obtain ⟨hr, hcell⟩ := links_singleton.mp hlast
  rw [List.map_append, List.nodup_append] at hnodup
  have hother (b : ℕ) (hb : b ≠ a) :
      Function.update m.cell a (some ⟨x, next⟩) b = m.cell b := Function.update_of_ne hb ..
  refine ⟨(a, x), { m with cell := Function.update m.cell a (some ⟨x, next⟩) },
    List.getLast?_concat, hcell, by rw [Memory.setNext, hcell]; rfl, rfl,
    links_append.mpr ⟨r, hcells.congr fun c hc => hother c.1 ?_, ?_⟩, hother⟩
  · exact hnodup.2.2 c.1 (List.mem_map_of_mem hc) a (by simp)
  · exact links_singleton.mpr ⟨hr, Function.update_self ..⟩

theorem Memory.alloc_of_ne (m : Memory α) (x : α) (next : Option ℕ) {b : ℕ} (hb : b ≠ m.count) :
    (m.alloc x next).cell b = m.cell b :=
  Function.update_of_ne hb ..

theorem Memory.alloc_self (m : Memory α) (x : α) (next : Option ℕ) :
    (m.alloc x next).cell m.count = some ⟨x, next⟩ :=
  Function.update_self ..

theorem Memory.free_of_ne (m : Memory α) {a b : ℕ} (hb : b ≠ a) : (m.free a).cell b = m.cell b :=
  Function.update_of_ne hb ..

end LinkedCells
