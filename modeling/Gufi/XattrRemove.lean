import Gufi.Trace
import Mathlib.Algebra.Order.BigOperators.Group.List

/-!
# Removing extended attributes

`xattr_remove` moves the last pair into the place of the one that goes, and looks at this place
again. The counters of `struct xattrs` are unsigned and follow every removal.
-/

namespace Gufi.XattrRemove

open Gufi.Trace

section Program

/-- `struct xattrs`; the array keeps the length it was allocated with. -/
structure Xattrs where
  pairs : List Xattr
  nameLen : UInt64
  len : UInt64
  count : UInt64
deriving DecidableEq

/-- `strncmp(a, b, n) == 0` -/
def strncmpEq : ℕ → Bytes → Bytes → Bool
  | 0, _, _ => true
  | n + 1, a, b =>
    if a.headD 0 = b.headD 0 then a.headD 0 = 0 || strncmpEq n a.tail b.tail else false

def isNamed (name : Bytes) (x : Xattr) : Bool :=
  x.name.length = name.length && strncmpEq name.length x.name name

/-- The body of the loop for a pair that goes; `none` is a read outside of the array. -/
def removePair (x : Xattrs) (i : ℕ) (p : Xattr) : Option Xattrs :=
  let count := x.count - 1
  let pairs :=
    if i ≠ count.toNat then (x.pairs[count.toNat]?).map (x.pairs.set i) else some x.pairs
  pairs.map fun pairs =>
    { pairs := pairs
      nameLen := x.nameLen - .ofNat p.name.length
      len := x.len - (.ofNat p.name.length + .ofNat p.value.length)
      count := count }

theorem removePair_count {x x' : Xattrs} {i : ℕ} {p : Xattr} (h : removePair x i p = some x') :
    x'.count = x.count - 1 := by
  obtain ⟨pairs, _, rfl⟩ := Option.map_eq_some_iff.mp h
  rfl

theorem toNat_pred {count : UInt64} {i : ℕ} (h : i < count.toNat) :
    (count - 1).toNat = count.toNat - 1 := by
  have hone : (1 : UInt64) ≤ count := UInt64.le_iff_toNat_le.mpr (Nat.lt_of_le_of_lt i.zero_le h)
  simpa using UInt64.toNat_sub_of_le count 1 hone

def removeFrom (name : Bytes) (i removed : ℕ) (x : Xattrs) : Option (ℕ × Xattrs) :=
  if i < x.count.toNat then
    match x.pairs[i]? with
    | none => none
    | some p =>
      if isNamed name p then
        match h : removePair x i p with
        | none => none
        | some x' => removeFrom name i (removed + 1) x'
      else removeFrom name (i + 1) removed x
  else some (removed, x)
termination_by x.count.toNat - i
decreasing_by
  · rw [removePair_count h, toNat_pred ‹_›]
    omega
  · omega

/-- `xattr_remove` -/
def xattrRemove (x : Xattrs) (name : Bytes) : Option (ℕ × Xattrs) := removeFrom name 0 0 x

/-- `xattrs_to_file`, which takes its prefixes from the counters. -/
def toFile (x : Xattrs) : Option Bytes :=
  if x.count.toNat ≤ x.pairs.length then
    some (lengthPrefix (x.len + 2 * x.count + 4).toNat ++
      (lengthPrefix x.count.toNat ++ pairsToFile (x.pairs.take x.count.toNat)))
  else none

end Program

section Counters

/-- The pairs that count. -/
def Xattrs.live (x : Xattrs) : List Xattr := x.pairs.take x.count.toNat

def namesLen (xattrs : List Xattr) : ℕ := (xattrs.map fun x => x.name.length).sum

structure Xattrs.Consistent (x : Xattrs) : Prop where
  count : x.live.length = x.count.toNat
  nameLen : x.nameLen.toNat = namesLen x.live
  len : x.len.toNat = xattrsLen x.live

theorem strncmpEq_iff (a b : Bytes) (hlen : a.length = b.length) (hnul : 0 ∉ b) :
    strncmpEq b.length a b ↔ a = b := by
  induction a generalizing b with
  | nil =>
      obtain rfl := List.length_eq_zero_iff.mp hlen.symm
      simp [strncmpEq]
  | cons c a ih =>
      cases b with
      | nil => cases hlen
      | cons d b =>
          have hd : d ≠ 0 := fun h => hnul (by simp [h])
          have := ih b (by simpa using hlen) fun h => hnul (by simp [h])
          simp only [strncmpEq, List.length_cons, List.headD_cons, List.tail_cons, List.cons.injEq]
          by_cases hcd : c = d
          · subst hcd
            simpa [hd] using this
          · simp [hcd]

theorem isNamed_iff {name : Bytes} (hnul : 0 ∉ name) (x : Xattr) :
    isNamed name x ↔ x.name = name := by
  simp only [isNamed, Bool.and_eq_true, decide_eq_true_eq]
  constructor
  · rintro ⟨hlen, hcmp⟩
    exact (strncmpEq_iff _ _ hlen hnul).mp hcmp
  · intro h
    exact ⟨congrArg _ h, (strncmpEq_iff _ _ (congrArg _ h) hnul).mpr h⟩

theorem Xattrs.Consistent.count_le {x : Xattrs} (h : x.Consistent) :
    x.count.toNat ≤ x.pairs.length := by
  rw [← h.count]
  exact List.length_take_le' _ _

/-- The counters of the file are those of the pairs it holds. -/
theorem toFile_eq {x : Xattrs} (h : x.Consistent)
    (hfits : x.len.toNat + 2 * x.count.toNat + 4 < 2 ^ 64) :
    toFile x = some (xattrsToFile x.live) := by
  have hprefix : (x.len + 2 * x.count + 4).toNat = xattrsLen x.live + 2 * x.live.length + 4 := by
    rw [← h.len, h.count]
    simp only [UInt64.toNat_add, UInt64.toNat_mul, UInt64.reduceToNat]
    omega
  rw [toFile, if_pos h.count_le, hprefix, ← h.count]
  simp only [xattrsToFile, Xattrs.live, List.length_take, h.count_le, min_eq_left]

end Counters

section Removal

/-- Taking the last element into the place of another removes this one. -/
theorem perm_cons_set_last {α : Type*} {l : List α} {i n : ℕ} {p last : α} (hi : l[i]? = some p)
    (hn : l[n]? = some last) (hin : i ≤ n) :
    (l.take (n + 1)).Perm (p :: (l.set i last).take n) := by
  have hlast : l.take (n + 1) = l.take n ++ [last] := by
    rw [List.take_add_one, hn]
    rfl
  rw [hlast, List.take_set]
  rcases Nat.eq_or_lt_of_le hin with rfl | hlt
  · obtain rfl : p = last := Option.some.inj (hi.symm.trans hn)
    rw [List.set_eq_of_length_le (List.length_take_le _ _)]
    exact List.perm_append_singleton _ _
  · have hp : (l.take n)[i]? = some p := by rw [List.getElem?_take_of_lt hlt, hi]
    obtain ⟨hlen, rfl⟩ := List.getElem?_eq_some_iff.mp hp
    calc
      List.Perm (l.take n ++ [last]) (last :: l.take n) := List.perm_append_singleton _ _
      List.Perm _ (last :: (l.take n)[i] :: (l.take n).eraseIdx i) :=
        (List.getElem_cons_eraseIdx_perm hlen).symm.cons _
      List.Perm _ ((l.take n)[i] :: last :: (l.take n).eraseIdx i) := List.Perm.swap _ _ _
      List.Perm _ ((l.take n)[i] :: (l.take n).set i last) :=
        (List.set_perm_cons_eraseIdx hlen last).symm.cons _

theorem toNat_sub_ofNat {x : UInt64} {a b : ℕ} (h : x.toNat = a + b) :
    (x - .ofNat a).toNat = b := by
  have hlt : a < 2 ^ 64 := by
    have := x.toNat_lt
    omega
  have ha : (UInt64.ofNat a).toNat = a := UInt64.toNat_ofNat_of_lt' hlt
  rw [UInt64.toNat_sub_of_le _ _ (UInt64.le_iff_toNat_le.mpr (by omega)), ha]
  omega

variable {x : Xattrs}

theorem removePair_spec (hx : x.Consistent) {i : ℕ} {p : Xattr} (hi : i < x.count.toNat)
    (hp : x.pairs[i]? = some p) :
    ∃ x', removePair x i p = some x' ∧ x'.Consistent ∧ x.live.Perm (p :: x'.live) ∧
      x'.live.take i = x.live.take i := by
  have hcount := toNat_pred hi
  have hle := hx.count_le
  obtain ⟨last, hlast⟩ : ∃ last, x.pairs[x.count.toNat - 1]? = some last :=
    ⟨_, List.getElem?_eq_getElem (by omega)⟩
  obtain ⟨pairs, hpairs, htake, hlen⟩ : ∃ pairs,
      (if i ≠ (x.count - 1).toNat then (x.pairs[(x.count - 1).toNat]?).map (x.pairs.set i)
        else some x.pairs) = some pairs ∧
      pairs.take (x.count - 1).toNat = (x.pairs.set i last).take (x.count - 1).toNat ∧
      pairs.length = x.pairs.length := by
    rw [hcount, hlast]
    by_cases hne : i = x.count.toNat - 1
    · refine ⟨x.pairs, if_neg (not_not.mpr hne), ?_, rfl⟩
      rw [List.take_set, List.set_eq_of_length_le]
      exact (List.length_take_le _ _).trans hne.ge
    · exact ⟨x.pairs.set i last, if_pos hne, rfl, List.length_set⟩
  have hperm : x.live.Perm (p :: pairs.take (x.count - 1).toNat) := by
    rw [htake, hcount]
    have := perm_cons_set_last hp hlast (Nat.le_sub_one_of_lt hi)
    rwa [Nat.sub_add_cancel (Nat.zero_lt_of_lt hi)] at this
  refine ⟨_, Option.map_eq_some_iff.mpr ⟨pairs, hpairs, rfl⟩, ⟨?_, ?_, ?_⟩, hperm, ?_⟩
  · simp only [Xattrs.live, List.length_take, hcount]
    omega
  · apply toNat_sub_ofNat
    rw [hx.nameLen]
    exact (hperm.map _).sum_eq
  · rw [← UInt64.ofNat_add]
    apply toNat_sub_ofNat
    rw [hx.len]
    exact (hperm.map _).sum_eq
  · change (pairs.take (x.count - 1).toNat).take i = (x.pairs.take x.count.toNat).take i
    rw [htake, hcount, List.take_take, List.take_take, min_eq_left (Nat.le_sub_one_of_lt hi),
      min_eq_left hi.le, List.take_set, List.set_eq_of_length_le (List.length_take_le _ _)]

/-- What a removal leaves and returns. -/
structure Removes (x : Xattrs) (name : Bytes) (removed : ℕ) (x' : Xattrs) : Prop where
  consistent : x'.Consistent
  others : x'.live.Perm (x.live.filter fun p => p.name ≠ name)
  removed : removed = x.live.countP fun p => p.name = name

theorem removeFrom_spec {name : Bytes} (hnul : 0 ∉ name) (i removed : ℕ) (hx : x.Consistent)
    (hbefore : ∀ p ∈ x.live.take i, p.name ≠ name) :
    ∃ n x', removeFrom name i removed x = some (removed + n, x') ∧ Removes x name n x' := by
  fun_induction removeFrom name i removed x with
  | case1 i removed x hi hnone =>
      have := hx.count_le
      have := List.getElem?_eq_none_iff.mp hnone
      omega
  | case2 i removed x hi p hp hnamed hnone =>
      obtain ⟨x', hx', _⟩ := removePair_spec hx hi hp
      rw [hnone] at hx'
      cases hx'
  | case3 i removed x hi p hp hnamed x' hremove ih =>
      obtain ⟨_, hx', hcons, hperm, htake⟩ := removePair_spec hx hi hp
      obtain rfl := Option.some.inj (hx'.symm.trans hremove)
      obtain ⟨n, x'', hrun, hrest⟩ := ih hcons (htake ▸ hbefore)
      have hname := (isNamed_iff hnul p).mp hnamed
      refine ⟨n + 1, x'', by rw [hrun, Nat.add_assoc, Nat.add_comm 1], hrest.consistent, ?_, ?_⟩
      · apply hrest.others.trans
        have := hperm.filter fun p => p.name ≠ name
        rw [List.filter_cons_of_neg (by simpa using hname)] at this
        exact this.symm
      · rw [hrest.removed, hperm.countP_eq, List.countP_cons_of_pos (by simpa using hname)]
  | case4 i removed x hi p hp hnamed ih =>
      apply ih hx
      intro q hq
      have hlive : x.live[i]? = some p := by rw [Xattrs.live, List.getElem?_take_of_lt hi, hp]
      rw [List.take_add_one, hlive] at hq
      rcases List.mem_append.mp hq with hq | hq
      · exact hbefore q hq
      · obtain rfl : q = p := by simpa using hq
        exact fun h => hnamed ((isNamed_iff hnul q).mpr h)
  | case5 i removed x hi =>
      have hnone : ∀ p ∈ x.live, p.name ≠ name := by
        rwa [List.take_of_length_le (hx.count.trans_le (Nat.le_of_not_lt hi))] at hbefore
      refine ⟨0, x, rfl, hx, ?_, ?_⟩
      · rw [List.filter_eq_self.mpr fun p hp => by simpa using hnone p hp]
      · exact (List.countP_eq_zero.mpr fun p hp => by simpa using hnone p hp).symm

/-- No pair of the name is left, the others are, the number of removed pairs is returned and the
counters are again those of the pairs. -/
theorem xattrRemove_removes (hx : x.Consistent) {name : Bytes} (hnul : 0 ∉ name) :
    ∃ removed x', xattrRemove x name = some (removed, x') ∧ Removes x name removed x' ∧
      ∀ p ∈ x'.live, p.name ≠ name := by
  obtain ⟨n, x', hrun, hrest⟩ := removeFrom_spec hnul 0 0 hx (by simp)
  refine ⟨n, x', by rw [xattrRemove, hrun, Nat.zero_add], hrest, ?_⟩
  intro p hp
  simpa using (List.mem_filter.mp (hrest.others.mem_iff.mp hp)).2

/-- A file system attribute twice and another one. -/
def threePairs : Xattrs :=
  ⟨[⟨[97], [1, 2]⟩, ⟨[98], [3]⟩, ⟨[97], []⟩], 3, 6, 3⟩

theorem xattrRemove_removes_threePairs : threePairs.Consistent ∧ 0 ∉ [(97 : UInt8)] ∧
    ∃ removed x', xattrRemove threePairs [97] = some (removed, x') ∧
      Removes threePairs [97] removed x' ∧ ∀ p ∈ x'.live, p.name ≠ [97] :=
  have hcons : threePairs.Consistent := ⟨by decide, by decide, by decide⟩
  ⟨hcons, by decide, xattrRemove_removes hcons (by decide)⟩

/-- What `xattrs_to_file` then writes is the encoding of the pairs that are left. -/
theorem toFile_of_removes {name : Bytes} {removed : ℕ} {x' : Xattrs} (hx : x.Consistent)
    (h : Removes x name removed x') (hfits : x.len.toNat + 2 * x.count.toNat + 4 < 2 ^ 64) :
    toFile x' = some (xattrsToFile x'.live) := by
  have hlen : x'.len.toNat ≤ x.len.toNat := by
    rw [hx.len, h.consistent.len, xattrsLen, (h.others.map _).sum_eq]
    exact (List.filter_sublist.map _).sum_le_sum fun _ _ => Nat.zero_le _
  have hcount : x'.count.toNat ≤ x.count.toNat := by
    rw [← hx.count, ← h.consistent.count, h.others.length_eq]
    exact List.length_filter_le _ _
  exact toFile_eq h.consistent (by omega)

end Removal

end Gufi.XattrRemove
