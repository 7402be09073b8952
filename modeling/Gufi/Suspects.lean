import Gufi.NameTrie
import Gufi.Scanf
import Gufi.SwapItems

/-!
# The list of suspects

The suspects file has inodes with their types. The inodes of directories go into one trie, those of
files and links into another, as they are written in the file. They are looked up in the digits that
`printf` writes, so that an inode with leading zeros or a sign is not found.
-/

namespace Gufi.Suspects

open Stdio Swap

section Model

/-- What `fscanf` reads with `%s %c`. -/
structure SuspectLine where
  inodeStr : Bytes
  type : UInt8
  nonempty : inodeStr ≠ []
  noBlank : ∀ c ∈ inodeStr, isBlank c = false ∧ c ≠ 0
  fits : inodeStr.length < 32

/-- `sscanf` with `%lu`. -/
def SuspectLine.inode (l : SuspectLine) : Option UInt64 :=
  (scanUnsigned 10 none l.inodeStr).map fun r => UInt64.ofNat r.1

/-- `min` and `max` are there to skip most searches. -/
structure SuspectInodes where
  min : UInt64
  max : UInt64
  inodes : Trie UInt8

/-- The suspects of `struct PoolArgs`. -/
structure SuspectLists where
  dir : SuspectInodes
  fl : SuspectInodes

def SuspectInodes.zero : SuspectInodes := ⟨UInt64.ofNat (2 ^ 64 - 1), 0, Trie.alloc⟩

def SuspectInodes.insert (s : SuspectInodes) (inode : UInt64) (inodeStr : Bytes) : SuspectInodes :=
  { min := if s.min > inode then inode else s.min
    max := if s.max < inode then inode else s.max
    inodes := s.inodes.insert inodeStr }

/-- A line of the file. -/
def SuspectLists.add (s : SuspectLists) (l : SuspectLine) : SuspectLists :=
  match l.inode with
  | none => s
  | some inode =>
      if l.type = 100 then { s with dir := s.dir.insert inode l.inodeStr }
      else if l.type = 102 ∨ l.type = 108 then { s with fl := s.fl.insert inode l.inodeStr }
      else s

def setupSuspectFile (lines : List SuspectLine) : SuspectLists :=
  lines.foldl SuspectLists.add ⟨SuspectInodes.zero, SuspectInodes.zero⟩

def findInode (s : SuspectInodes) (inode : UInt64) : Bool :=
  if inode < s.min then false
  else if inode > s.max then false
  else s.inodes.search (numeral 10 inode.toNat)

/-- The inode is in the file, with a type that is looked for. -/
def Listed (lines : List SuspectLine) (types : List UInt8) (inode : UInt64) : Prop :=
  ∃ l ∈ lines, l.type ∈ types ∧ l.inode = some inode

/-- It is there as `printf` writes it. -/
def ListedPlainly (lines : List SuspectLine) (types : List UInt8) (inode : UInt64) : Prop :=
  ∃ l ∈ lines, l.type ∈ types ∧ l.inodeStr = numeral 10 inode.toNat

end Model

section Search

variable {lines : List SuspectLine} {types : List UInt8} {inode : UInt64}

theorem SuspectLine.inode_of_numeral {l : SuspectLine} (h : l.inodeStr = numeral 10 inode.toNat) :
    l.inode = some inode := by
  have hread := readDigits_numeral (by omega) (by omega : 10 ≤ 16) inode.toNat
  have hnumber := isNumber_numeral (by omega) (by omega : 10 ≤ 16) inode.toNat
  have hscan : scanUnsigned 10 none (numeral 10 inode.toNat ++ []) =
      some ((readDigits 10 0 (numeral 10 inode.toNat)).1, (numeral 10 inode.toNat).length) :=
    scanUnsigned_append hnumber (numeral_ne_nil 10 inode.toNat) (.inr ⟨rfl, nofun⟩)
      (by rw [hread]; exact inode.toNat_lt)
  rw [List.append_nil, hread] at hscan
  rw [SuspectLine.inode, h, hscan, Option.map_some, UInt64.ofNat_toNat]

theorem ListedPlainly.listed (h : ListedPlainly lines types inode) : Listed lines types inode := by
  obtain ⟨l, hl, htype, hstr⟩ := h
  exact ⟨l, hl, htype, l.inode_of_numeral hstr⟩

/-- The inodes that have been inserted, as strings, and that all are within the bounds. -/
structure SuspectInodes.Has (s : SuspectInodes) (lines : List SuspectLine) (types : List UInt8) :
    Prop where
  search : ∀ str, s.inodes.search str = true ↔
    ∃ l ∈ lines, l.type ∈ types ∧ l.inode.isSome ∧ l.inodeStr = str
  bounds : ∀ inode, Listed lines types inode → s.min ≤ inode ∧ inode ≤ s.max

theorem SuspectInodes.zero_has (types : List UInt8) : SuspectInodes.zero.Has [] types where
  search str := by
    rw [SuspectInodes.zero, Trie.search_alloc]
    simp
  bounds inode h := by
    obtain ⟨l, hl, -⟩ := h
    cases hl

theorem exists_mem_snoc {p : SuspectLine → Prop} {l : SuspectLine} :
    (∃ l' ∈ lines ++ [l], p l') ↔ (∃ l' ∈ lines, p l') ∨ p l := by
  simp only [List.mem_append, List.mem_singleton, or_and_right, exists_or, exists_eq_left]

/-- A line that is not of these types changes nothing. -/
theorem SuspectInodes.Has.skip {s : SuspectInodes} (h : s.Has lines types) {l : SuspectLine}
    (hl : l.type ∉ types ∨ l.inode = none) : s.Has (lines ++ [l]) types where
  search str := by
    rw [h.search, exists_mem_snoc, or_iff_left]
    rintro ⟨htype, hsome, -⟩
    rcases hl with hl | hl
    · exact hl htype
    · rw [hl] at hsome
      cases hsome
  bounds inode hlisted := by
    rcases exists_mem_snoc.mp hlisted with hlisted | ⟨htype, hinode⟩
    · exact h.bounds inode hlisted
    · rcases hl with hl | hl
      · exact absurd htype hl
      · rw [hl] at hinode
        cases hinode

theorem SuspectInodes.Has.insert {s : SuspectInodes} (h : s.Has lines types) {l : SuspectLine}
    (htype : l.type ∈ types) (hinode : l.inode = some inode) :
    (s.insert inode l.inodeStr).Has (lines ++ [l]) types where
  search str := by
    rw [SuspectInodes.insert, Trie.search_insert, h.search, exists_mem_snoc, or_comm]
    refine or_congr_right ⟨fun hstr => ⟨htype, by rw [hinode]; rfl, hstr.symm⟩, ?_⟩
    rintro ⟨-, -, hstr⟩
    exact hstr.symm
  bounds inode' hlisted := by
    have hmin : (s.insert inode l.inodeStr).min ≤ s.min ∧
        (s.insert inode l.inodeStr).min ≤ inode := by
      simp only [SuspectInodes.insert]
      split_ifs with hlt
      · exact ⟨UInt64.le_of_lt hlt, UInt64.le_refl _⟩
      · exact ⟨UInt64.le_refl _, UInt64.not_lt.mp hlt⟩
    have hmax : s.max ≤ (s.insert inode l.inodeStr).max ∧
        inode ≤ (s.insert inode l.inodeStr).max := by
      simp only [SuspectInodes.insert]
      split_ifs with hlt
      · exact ⟨UInt64.le_of_lt hlt, UInt64.le_refl _⟩
      · exact ⟨UInt64.le_refl _, UInt64.not_lt.mp hlt⟩
    rcases exists_mem_snoc.mp hlisted with hlisted | ⟨-, hinode'⟩
    · obtain ⟨hlo, hhi⟩ := h.bounds inode' hlisted
      exact ⟨UInt64.le_trans hmin.1 hlo, UInt64.le_trans hhi hmax.1⟩
    · rw [hinode, Option.some_inj] at hinode'
      subst hinode'
      exact ⟨hmin.2, hmax.2⟩

/-- Directories are in one list, files and links in the other. -/
theorem setupSuspectFile_has (lines : List SuspectLine) :
    (setupSuspectFile lines).dir.Has lines [100] ∧
      (setupSuspectFile lines).fl.Has lines [102, 108] := by
  induction lines using List.reverseRecOn with
  | nil => exact ⟨SuspectInodes.zero_has _, SuspectInodes.zero_has _⟩
  | append_singleton lines l ih =>
      obtain ⟨hdir, hfl⟩ := ih
      rw [setupSuspectFile, List.foldl_append, List.foldl_cons, List.foldl_nil,
        ← setupSuspectFile, SuspectLists.add]
      cases hinode : l.inode with
      | none => exact ⟨hdir.skip (.inr hinode), hfl.skip (.inr hinode)⟩
      | some inode =>
          dsimp only
          split_ifs with htype htype'
          · refine ⟨hdir.insert (by simp [htype]) hinode, hfl.skip (.inl ?_)⟩
            rw [htype]
            decide
          · refine ⟨hdir.skip (.inl (by simpa using htype)), hfl.insert ?_ hinode⟩
            simpa using htype'
          · exact ⟨hdir.skip (.inl (by simpa using htype)),
              hfl.skip (.inl (by simpa using htype'))⟩

/-- The bounds do not keep an inode from being found. -/
theorem findInode_iff {s : SuspectInodes} (h : s.Has lines types) :
    findInode s inode = true ↔ ListedPlainly lines types inode := by
  rw [findInode]
  constructor
  · intro hfound
    split_ifs at hfound
    obtain ⟨l, hl, htype, -, hstr⟩ := (h.search _).mp hfound
    exact ⟨l, hl, htype, hstr⟩
  · intro hplain
    obtain ⟨hmin, hmax⟩ := h.bounds inode hplain.listed
    obtain ⟨l, hl, htype, hstr⟩ := hplain
    rw [if_neg (UInt64.not_lt.mpr hmin), if_neg (UInt64.not_lt.mpr hmax)]
    exact (h.search _).mpr ⟨l, hl, htype, by rw [l.inode_of_numeral hstr]; rfl, hstr⟩

end Search

end Gufi.Suspects
