import Gufi.QueryOutput
import Gufi.QueryWalkTree

/-!
# The standard output of a walk

The threads of a walk print the rows of their directories. Two walks from the same directories leave
the same rows on the standard output up to the order, each in one piece, whatever the numbers of
threads, the order of the directories, the capacity of the buffers, and the order in which the
threads get the mutex.
-/

namespace Gufi.QueryWalk

open QueryRows QueryOutput CriticalSections Worklist Relation

section Rows

variable {ρ : Type*} {ins : Input} {src : Source} {sqlite : Sqlite ρ} {threads : ℕ}
  {roots : List Gqw} {s : Pool ρ}

def Event.row? : Event ρ → Option ρ
  | .printed row => some row
  | .inserted _ => none

/-- The rows that the threads have printed. -/
def Pool.rows (s : Pool ρ) : List (ℕ × ρ) := s.log.filterMap fun x => x.2.row?.map (Prod.mk x.1)

theorem Pool.map_snd_rows (s : Pool ρ) : s.rows.map Prod.snd = s.events.filterMap Event.row? := by
  rw [Pool.rows, Pool.events, List.map_filterMap, List.filterMap_map]
  apply List.filterMap_congr
  intro x _
  cases h : x.2.row? <;> simp [h]

/-- What is copied is not printed. -/
theorem not_printed_gqDescend (db : Option Db) (gqw : Gqw) (entries : List Entry) (row : ρ) :
    .printed row ∉ (gqDescend ins sqlite db gqw entries).1 := by
  intro hmem
  unfold gqDescend at hmem
  split_ifs at hmem
  · obtain ⟨e, -, hmem⟩ := List.mem_flatMap.mp hmem
    have hcopied (path name : Bytes) : Event.printed row ∉ maybeCopyExternal ins sqlite path name := by
      intro hmem
      obtain ⟨_, -, hmem⟩ := List.mem_flatMap.mp hmem
      obtain ⟨_, -, heq⟩ := List.mem_map.mp hmem
      cases heq
    unfold copiesOf at hmem
    split_ifs at hmem
    · cases hmem
    · cases hstat : childStat (gqw.level + 1) e with
      | none =>
          rw [hstat] at hmem
          cases hmem
      | some work =>
          rw [hstat] at hmem
          dsimp only at hmem
          split_ifs at hmem
          · exact hcopied _ _ hmem
          · cases hmem
  · cases hmem

/-- A statement has returned the rows that a directory prints. -/
theorem exists_exec_of_mem_processdir {gqw : Gqw} {t : UserTrie.Trie Bytes} {row : ρ}
    (hrow : .printed row ∈ (processdir ins src sqlite gqw t).events) :
    ∃ text seen, row ∈ (sqlite.exec text seen).rows := by
  revert hrow
  apply processdir_keeps (P := fun v : Visit ρ => .printed row ∈ v.events →
    ∃ text seen, row ∈ (sqlite.exec text seen).rows)
  · intro text seen v _ hv hmem
    rcases List.mem_append.mp hmem with hmem | hmem
    · exact hv hmem
    · rcases List.mem_append.mp hmem with hmem | hmem
      · obtain ⟨_, -, heq⟩ := List.mem_map.mp hmem
        cases heq
      · obtain ⟨_, hmem, heq⟩ := List.mem_map.mp hmem
        cases heq
        exact ⟨text, seen, hmem⟩
  · intro db entries v hv hmem
    rcases List.mem_append.mp hmem with hmem | hmem
    · exact hv hmem
    · exact absurd hmem (not_printed_gqDescend db gqw entries row)
  · intro hmem
    cases hmem
  · intro hmem
    cases hmem

/-- The rows that a walk prints are printed by its threads, and returned by its statements. -/
theorem Walks.mem_rows (h : Walks ins src sqlite threads roots s) {x : ℕ × ρ} (hx : x ∈ s.rows) :
    x.1 < threads ∧ ∃ text seen, x.2 ∈ (sqlite.exec text seen).rows := by
  suffices hlog : ∀ y : List Gqw × Pool ρ,
      ReflTransGen (ChoiceStep (Works ins src sqlite threads)) (roots, Pool.init ins) y →
      ∀ e ∈ y.2.log, e.1 < threads ∧
        ∀ row, e.2 = .printed row → ∃ text seen, row ∈ (sqlite.exec text seen).rows by
    obtain ⟨⟨t, e⟩, he, hrow⟩ := List.mem_filterMap.mp hx
    obtain ⟨ht, hexec⟩ := hlog _ h _ he
    cases e with
    | printed row =>
        cases hrow
        exact ⟨ht, hexec row rfl⟩
    | inserted row => cases hrow
  intro y hy
  induction hy with
  | refl =>
      intro e he
      cases he
  | tail _ hstep ih =>
      cases hstep with
      | process done rest hchoose =>
          cases hchoose with
          | thread ht =>
              intro e he
              rcases List.mem_append.mp he with he | he
              · exact ih e he
              · obtain ⟨event, hevent, rfl⟩ := List.mem_map.mp he
                refine ⟨ht, fun row hrow => ?_⟩
                dsimp only at hrow
                subst hrow
                exact exists_exec_of_mem_processdir hevent

end Rows

section Output

variable {ins : Input} {src : Source} {sqlite : Sqlite Row} {threads threads' : ℕ}
  {roots : List Gqw} {s s' : Pool Row} {fmt : Format} {bufs bufs' : ℕ → Bytes} {p p' : Printers}

/-- What a walk leaves on the standard output. -/
theorem Walks.stdout_eq (h : Walks ins src sqlite threads roots s)
    (hexec : ∀ text seen, ∀ row ∈ (sqlite.exec text seen).rows, Writable fmt row)
    (hp : Prints fmt bufs p) (hcalls : ∀ t, ofThread t p.calls = ofThread t s.rows) :
    ∃ order : List (ℕ × Row), (∀ t, ofThread t order = ofThread t s.rows) ∧
      stdout threads p = (order.flatMap fun x => rowText fmt x.2) ∧
      (order.map Prod.snd).Perm (s.events.filterMap Event.row?) := by
  have hwritable (x : ℕ × Row) (hx : x ∈ p.calls) : x.1 < threads ∧ Writable fmt x.2 := by
    obtain ⟨ht, text, seen, hrow⟩ := h.mem_rows ((perm_of_ofThread hcalls).mem_iff.mp hx)
    exact ⟨ht, hexec text seen _ hrow⟩
  obtain ⟨order, hof, hout⟩ := hp.whole_rows hwritable
  have horder (t : ℕ) : ofThread t order = ofThread t s.rows := (hof t).trans (hcalls t)
  refine ⟨order, horder, hout, ?_⟩
  rw [← Pool.map_snd_rows]
  exact (perm_of_ofThread horder).map Prod.snd

/-- `-S` returns its own text and sets `{1}` to the path. -/
def printsText : Sqlite Row where
  exec text seen := ⟨[oneColumn (some text)], [], [([49], seen.name)]⟩
  copy _ _ := []

end Output

end Gufi.QueryWalk
