import Gufi.CategoryHist
import Mathlib.Data.UInt

/-!
# Combining category histograms

The accumulator of a category histogram is a table of sums: the place of a category in the list is
the address of its count.
-/

namespace Gufi.CategoryHist

open UserTrie
open Trace (cString)

section Accumulators

variable {acc : Accumulator} {t : List (Bytes × UInt64)} {k : Bytes} {x : UInt64}

/-- The trie, the counts and the categories are those of a table. -/
structure Accumulator.Holds (acc : Accumulator) (t : List (Bytes × UInt64)) : Prop where
  categories : acc.categories = t.map Prod.fst
  counts : acc.counts = t.map Prod.snd
  trie : ∀ k, trieSearch acc.trie k = (SumTable.position t k).map some
  nodup : (t.map Prod.fst).Nodup

theorem holds_empty : Accumulator.empty.Holds [] :=
  ⟨rfl, rfl, trieSearch_alloc, List.nodup_nil⟩

theorem Accumulator.Holds.push (h : acc.Holds t) (hk : k ∉ t.map Prod.fst) (x : UInt64) :
    (acc.push k x).Holds (SumTable.add t k x) := by
  rw [SumTable.add_of_notMem hk]
  refine ⟨?_, ?_, ?_, ?_⟩
  · rw [Accumulator.push, h.categories, List.map_append]
    rfl
  · rw [Accumulator.push, h.counts, List.map_append]
    rfl
  · intro k'
    rw [SumTable.position_concat hk, Accumulator.push, trieSearch_insert, h.counts, List.length_map]
    by_cases hk' : k' = k
    · rw [hk', Function.update_self, if_pos rfl]
      rfl
    · rw [Function.update_of_ne hk', if_neg hk', h.trie]
  · rw [← SumTable.add_of_notMem hk]
    exact SumTable.nodup_add h.nodup

theorem Accumulator.Holds.addTo (h : acc.Holds t) {i : ℕ} (hpos : SumTable.position t k = some i)
    (x : UInt64) :
    ∃ acc', acc.addTo (some i) x = some acc' ∧ acc'.Holds (SumTable.add t k x) := by
  have hmem : k ∈ t.map Prod.fst := by
    by_contra hk
    rw [SumTable.position_eq_none_iff.mpr hk] at hpos
    cases hpos
  have hlt : i < acc.counts.length := by
    rw [h.counts, List.length_map]
    exact SumTable.lt_length_of_position hpos
  have hkeys := SumTable.keys_add_of_mem hmem x
  refine ⟨_, if_pos hlt, ?_, ?_, ?_, SumTable.nodup_add h.nodup⟩
  · rw [hkeys, h.categories]
  · rw [SumTable.values_add_of_position hpos, h.counts]
  · intro k'
    rw [SumTable.position_congr hkeys, h.trie]

/-- A category is counted where it is, or put at the end. -/
theorem Accumulator.Holds.add (h : acc.Holds t) (k : Bytes) (x : UInt64) :
    ∃ acc', (match trieSearch acc.trie k with
        | some count => acc.addTo count x
        | none => some (acc.push k x)) = some acc' ∧ acc'.Holds (SumTable.add t k x) := by
  rw [h.trie]
  cases hpos : SumTable.position t k with
  | none => exact ⟨_, rfl, h.push (SumTable.position_eq_none_iff.mp hpos) x⟩
  | some i => exact h.addTo hpos x

theorem Accumulator.Holds.find (h : acc.Holds t) (hk : k ∈ t.map Prod.fst) :
    acc.find k = some (SumTable.value t k) := by
  rw [Accumulator.find, h.trie]
  cases hpos : SumTable.position t k with
  | none => exact absurd hk (SumTable.position_eq_none_iff.mp hpos)
  | some i =>
      simp only [Option.map_some, h.counts, List.getElem?_map, SumTable.getElem?_position hpos]

/-- Every category that was counted is found. -/
theorem Accumulator.Holds.mapM_find {β : Type} (h : acc.Holds t) (f : Bytes → UInt64 → β)
    {cats : List Bytes} (hcats : ∀ cat ∈ cats, cat ∈ t.map Prod.fst) :
    (cats.mapM fun cat => (acc.find cat).map (f cat)) =
      some (cats.map fun cat => f cat (SumTable.value t cat)) := by
  induction cats with
  | nil => rfl
  | cons cat cats ih =>
      rw [List.mapM_cons, h.find (hcats cat List.mem_cons_self),
        ih fun c hc => hcats c (List.mem_cons_of_mem cat hc)]
      rfl

end Accumulators

section Combine

variable {acc : Accumulator} {t : List (Bytes × UInt64)} {lhs rhs hist : List CategoryBucket}

/-- The categories of a histogram and their counts. -/
def entries (hist : List CategoryBucket) : List (Bytes × UInt64) :=
  hist.map fun b => (b.name, b.count)

/-- The lengths are those of the names, and no category is there twice. -/
structure Distinct (hist : List CategoryBucket) : Prop where
  len : ∀ b ∈ hist, b.len = b.name.length
  nodup : ((entries hist).map Prod.fst).Nodup

theorem combineInplace_exists (h : acc.Holds t) (hlen : ∀ b ∈ hist, b.len = b.name.length) :
    ∃ acc', categoryHistCombineInplace acc hist true = some acc' ∧
      acc'.Holds (SumTable.addAll t (entries hist)) := by
  induction hist generalizing acc t with
  | nil => exact ⟨acc, rfl, h⟩
  | cons b hist ih =>
      obtain ⟨acc', hadd, hholds⟩ := h.add b.name b.count
      obtain ⟨acc'', hrest, hall⟩ := ih hholds fun b' hb => hlen b' (List.mem_cons_of_mem b hb)
      refine ⟨acc'', ?_, hall⟩
      have hone : combineBucket true acc b = some acc' := by
        rw [combineBucket, hlen b List.mem_cons_self, List.take_length]
        exact hadd
      rw [categoryHistCombineInplace, List.foldlM_cons, hone]
      exact hrest

/-- The first histogram is taken over without asking if its categories are there. -/
theorem combineInplace_fresh (h : acc.Holds t) (hlen : ∀ b ∈ hist, b.len = b.name.length)
    (hnodup : ((t ++ entries hist).map Prod.fst).Nodup) :
    ∃ acc', categoryHistCombineInplace acc hist false = some acc' ∧
      acc'.Holds (SumTable.addAll t (entries hist)) := by
  induction hist generalizing acc t with
  | nil => exact ⟨acc, rfl, h⟩
  | cons b hist ih =>
      have hentries : entries (b :: hist) = (b.name, b.count) :: entries hist := rfl
      have hnew : b.name ∉ t.map Prod.fst := by
        rw [hentries, List.map_append, List.map_cons] at hnodup
        exact fun hmem => (List.nodup_append'.mp hnodup).2.2 hmem List.mem_cons_self
      have hpush := h.push hnew b.count
      have hnext : ((SumTable.add t b.name b.count ++ entries hist).map Prod.fst).Nodup := by
        rw [SumTable.add_of_notMem hnew, List.append_assoc]
        exact hnodup
      obtain ⟨acc', hrest, hall⟩ :=
        ih hpush (fun b' hb => hlen b' (List.mem_cons_of_mem b hb)) hnext
      refine ⟨acc', ?_, hall⟩
      have hone : combineBucket false acc b = some (acc.push b.name b.count) := by
        rw [combineBucket, hlen b List.mem_cons_self, List.take_length]
        rfl
      rw [categoryHistCombineInplace, List.foldlM_cons, hone]
      exact hrest

/-- The buckets of a table. -/
def buckets (t : List (Bytes × UInt64)) : List CategoryBucket :=
  t.map fun p => ⟨p.1, p.1.length, p.2⟩

theorem entries_buckets (t : List (Bytes × UInt64)) : entries (buckets t) = t := by
  rw [entries, buckets, List.map_map]
  exact List.map_id t

theorem buckets_entries (h : Distinct hist) : buckets (entries hist) = hist := by
  rw [entries, buckets, List.map_map]
  conv_rhs => rw [← List.map_id hist]
  apply List.map_congr_left
  intro b hb
  simp only [Function.comp_apply, ← h.len b hb, id]

theorem categoryHistCombine_eq (hl : Distinct lhs) (hr : ∀ b ∈ rhs, b.len = b.name.length) :
    categoryHistCombine lhs rhs =
      some (buckets (SumTable.addAll (SumTable.addAll [] (entries lhs)) (entries rhs))) := by
  obtain ⟨acc, hfirst, hacc⟩ := combineInplace_fresh holds_empty hl.len hl.nodup
  obtain ⟨acc', hsecond, hacc'⟩ := combineInplace_exists hacc hr
  have hkeys : ∀ cat ∈ acc'.categories, cat ∈ _ := fun cat hcat => hacc'.categories ▸ hcat
  have hcats := hacc'.mapM_find (fun cat count => CategoryBucket.mk cat cat.length count) hkeys
  rw [categoryHistCombine, hfirst]
  simp only [Option.bind_eq_bind, Option.bind_some, hsecond]
  rw [hcats, hacc'.categories, buckets, List.map_map]
  congr 1
  apply List.map_congr_left
  intro p hp
  rw [Function.comp_apply, SumTable.value_of_mem hacc'.nodup hp]

/-- The count of a category, which is 0 if it is not there. -/
def countOf (hist : List CategoryBucket) (cat : Bytes) : UInt64 := SumTable.value (entries hist) cat

/-- Each category of either side once, with the sum of its counts. -/
structure Combined (lhs rhs hist : List CategoryBucket) : Prop where
  distinct : Distinct hist
  categories : ∀ cat, cat ∈ hist.map CategoryBucket.name ↔
    cat ∈ lhs.map CategoryBucket.name ∨ cat ∈ rhs.map CategoryBucket.name
  count : ∀ cat, countOf hist cat = countOf lhs cat + countOf rhs cat

theorem map_fst_entries (hist : List CategoryBucket) :
    (entries hist).map Prod.fst = hist.map CategoryBucket.name := by
  rw [entries, List.map_map]
  rfl

theorem distinct_buckets {t : List (Bytes × UInt64)} (h : (t.map Prod.fst).Nodup) :
    Distinct (buckets t) := by
  refine ⟨?_, by rwa [entries_buckets]⟩
  intro b hb
  obtain ⟨p, -, rfl⟩ := List.mem_map.mp hb
  rfl

theorem categoryHistCombine_combined (hl : Distinct lhs) (hr : Distinct rhs) :
    ∃ hist, categoryHistCombine lhs rhs = some hist ∧ Combined lhs rhs hist := by
  refine ⟨_, categoryHistCombine_eq hl hr.len, ?_, ?_, ?_⟩
  · exact distinct_buckets (SumTable.nodup_addAll (SumTable.nodup_addAll List.nodup_nil))
  · intro cat
    rw [← map_fst_entries, ← map_fst_entries, ← map_fst_entries, entries_buckets,
      SumTable.mem_keys_addAll, SumTable.mem_keys_addAll, List.map_nil,
      or_iff_right (List.not_mem_nil)]
  · intro cat
    rw [countOf, entries_buckets, SumTable.value_addAll, SumTable.value_addAll,
      SumTable.total_eq_value hl.nodup, SumTable.total_eq_value hr.nodup, SumTable.value, zero_add]
    rfl

/-- Histograms with the same categories and counts are the same up to their order. -/
theorem perm_of_countOf {hist' : List CategoryBucket} (h : Distinct hist) (h' : Distinct hist')
    (hcats : ∀ cat, cat ∈ hist.map CategoryBucket.name ↔ cat ∈ hist'.map CategoryBucket.name)
    (hcount : ∀ cat, countOf hist cat = countOf hist' cat) : hist.Perm hist' := by
  rw [← buckets_entries h, ← buckets_entries h']
  apply List.Perm.map
  apply SumTable.perm_of_value h.nodup h'.nodup
  · intro cat
    rw [map_fst_entries, map_fst_entries, hcats]
  · exact hcount

theorem Combined.perm {hist' : List CategoryBucket} {lhs' rhs' : List CategoryBucket}
    (h : Combined lhs rhs hist) (h' : Combined lhs' rhs' hist')
    (hcats : ∀ cat, cat ∈ lhs.map CategoryBucket.name ∨ cat ∈ rhs.map CategoryBucket.name ↔
      cat ∈ lhs'.map CategoryBucket.name ∨ cat ∈ rhs'.map CategoryBucket.name)
    (hcount : ∀ cat, countOf lhs cat + countOf rhs cat = countOf lhs' cat + countOf rhs' cat) :
    hist.Perm hist' := by
  apply perm_of_countOf h.distinct h'.distinct
  · intro cat
    rw [h.categories, h'.categories, hcats]
  · intro cat
    rw [h.count, h'.count, hcount]

/-- Combining adds the counts, in any order and in any groups. -/
theorem categoryHistCombine_adds {a b c : List CategoryBucket} (ha : Distinct a) (hb : Distinct b)
    (hc : Distinct c) :
    ∃ ab ba bc abThenC aThenBc,
      categoryHistCombine a b = some ab ∧ categoryHistCombine b a = some ba ∧
      categoryHistCombine b c = some bc ∧ categoryHistCombine ab c = some abThenC ∧
      categoryHistCombine a bc = some aThenBc ∧
      Combined a b ab ∧ ab.Perm ba ∧ abThenC.Perm aThenBc := by
  obtain ⟨ab, hab, hcab⟩ := categoryHistCombine_combined ha hb
  obtain ⟨ba, hba, hcba⟩ := categoryHistCombine_combined hb ha
  obtain ⟨bc, hbc, hcbc⟩ := categoryHistCombine_combined hb hc
  obtain ⟨x, hx, hcx⟩ := categoryHistCombine_combined hcab.distinct hc
  obtain ⟨y, hy, hcy⟩ := categoryHistCombine_combined ha hcbc.distinct
  refine ⟨ab, ba, bc, x, y, hab, hba, hbc, hx, hy, hcab, ?_, ?_⟩
  · exact hcab.perm hcba (fun cat => or_comm) fun cat => add_comm _ _
  · apply hcx.perm hcy
    · intro cat
      rw [hcab.categories, hcbc.categories, or_assoc]
    · intro cat
      rw [hcab.count, hcbc.count, add_assoc]

theorem categoryHistCombine_adds_three :
    ∃ ab ba bc abThenC aThenBc,
      categoryHistCombine [⟨[97], 1, 2⟩, ⟨[], 0, 1⟩] [⟨[97, 98], 2, 3⟩, ⟨[97], 1, 4⟩] = some ab ∧
      categoryHistCombine [⟨[97, 98], 2, 3⟩, ⟨[97], 1, 4⟩] [⟨[97], 1, 2⟩, ⟨[], 0, 1⟩] = some ba ∧
      categoryHistCombine [⟨[97, 98], 2, 3⟩, ⟨[97], 1, 4⟩] [⟨[98], 1, 1⟩] = some bc ∧
      categoryHistCombine ab [⟨[98], 1, 1⟩] = some abThenC ∧
      categoryHistCombine [⟨[97], 1, 2⟩, ⟨[], 0, 1⟩] bc = some aThenBc ∧
      Combined [⟨[97], 1, 2⟩, ⟨[], 0, 1⟩] [⟨[97, 98], 2, 3⟩, ⟨[97], 1, 4⟩] ab ∧
      ab.Perm ba ∧ abThenC.Perm aThenBc :=
  categoryHistCombine_adds ⟨by decide, by decide⟩ ⟨by decide, by decide⟩ ⟨by decide, by decide⟩

end Combine

end Gufi.CategoryHist
