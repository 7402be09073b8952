import Gufi.Schema
import Mathlib.Logic.Function.Basic

/-!
# Tries with user data

`trie_delete` frees the nodes of a path on its way back up to the next leaf. A node that is not a
leaf is freed with all of its children, and a path that is not there is followed all the same. The
trie is compared with a map from keys to user data.
-/

namespace Gufi.UserTrie

section Program

/-- `trie_t`; `freeUser` tells if there is a function that frees the user data. -/
inductive Trie (δ : Type*)
  | node (isLeaf : Bool) (userData : Option δ) (freeUser : Bool)
    (character : UInt8 → Option (Trie δ))

variable {δ : Type*}

def trieAlloc : Trie δ := .node false none false fun _ => none

/-- `trie_insert` -/
def trieInsert : Trie δ → Bytes → Option δ → Bool → Trie δ
  | .node _ _ _ character, [], userData, freeUser => .node true userData freeUser character
  | .node isLeaf userData' freeUser' character, c :: str, userData, freeUser =>
      .node isLeaf userData' freeUser' (Function.update character c
        (some (trieInsert ((character c).getD trieAlloc) str userData freeUser)))

/-- `trie_search`, with what it puts into `*user_data`. -/
def trieSearch : Trie δ → Bytes → Option (Option δ)
  | .node isLeaf userData _ _, [] => if isLeaf then some userData else none
  | .node _ _ _ character, c :: str =>
      match character c with
      | none => none
      | some child => trieSearch child str

def trieHaveChildren (character : UInt8 → Option (Trie δ)) : Bool :=
  (List.range 256).any fun i => (character (.ofNat i)).isSome

/-- `trie_delete_recursive` on the pointer to a node, with what becomes of it and if it was freed.
It is `none` where `NULL` is dereferenced. -/
def trieDeleteRecursive : Option (Trie δ) → Bytes → Option (Option (Trie δ) × Bool)
  | none, _ => none
  | some (.node isLeaf userData freeUser character), c :: str =>
      match trieDeleteRecursive (character c) str with
      | none => none
      | some (child, freed) =>
        if freed && !isLeaf then some (none, true)
        else some (some (.node isLeaf userData freeUser (Function.update character c child)), false)
  | some (.node isLeaf userData freeUser character), [] =>
      if isLeaf then
        if trieHaveChildren character then
          some (some (.node false (if freeUser then none else userData) false character), false)
        else some (none, true)
      else some (some (.node isLeaf userData freeUser character), false)

/-- `trie_delete` -/
def trieDelete : Trie δ → Bytes → Option (Trie δ × Bool)
  | .node isLeaf userData freeUser character, [] =>
      some (.node isLeaf userData freeUser character, isLeaf)
  | .node isLeaf userData freeUser character, c :: str =>
      (trieDeleteRecursive (character c) str).map fun (child, freed) =>
        (.node isLeaf userData freeUser (Function.update character c child), freed)

inductive Call (δ : Type*)
  | insert (str : Bytes) (userData : Option δ) (freeUser : Bool)
  | delete (str : Bytes)
  | search (str : Bytes)

def Call.run (t : Trie δ) : Call δ → Option (Trie δ)
  | .insert str userData freeUser => some (trieInsert t str userData freeUser)
  | .delete str => (trieDelete t str).map Prod.fst
  | .search _ => some t

/-- The trie after these calls; `none` if one of them crashed. -/
def run (calls : List (Call δ)) : Option (Trie δ) := calls.foldlM Call.run trieAlloc

end Program

section Map

variable {δ : Type*}

/-- The keys and their user data. -/
abbrev KeyMap (δ : Type*) := Bytes → Option (Option δ)

def Call.apply (m : KeyMap δ) : Call δ → KeyMap δ
  | .insert str userData _ => Function.update m str (some userData)
  | .delete str => Function.update m str none
  | .search _ => m

def mapOf (calls : List (Call δ)) : KeyMap δ := calls.foldl Call.apply fun _ => none

/-- After any number of the calls, every search finds what is in the map. -/
def Implements (calls : List (Call δ)) : Prop :=
  ∀ n, ∃ t, run (calls.take n) = some t ∧ ∀ key, trieSearch t key = mapOf (calls.take n) key

/-- The node of `q` is freed when `key` is deleted: there is no key behind `key`, and none on the
path from `q` to it. -/
structure Frees (m : KeyMap δ) (key q : Bytes) : Prop where
  onPath : q <+: key
  present : (m key).isSome
  last : ∀ k, (m k).isSome → key <+: k → k = key
  notLeaf : ∀ p, (m p).isSome → q <+: p → p <+: key → p = key

/-- A key that `trie_delete` deletes as it should: the empty key only if it is not there, any other
one if its path is there and no other key branches off from what is freed. -/
structure Deletable (m : KeyMap δ) (key : Bytes) : Prop where
  nil : key = [] → m [] = none
  path : key ≠ [] → ∃ k, (m k).isSome ∧ key <+: k
  alone : ∀ q ≠ [], Frees m key q → ∀ k, (m k).isSome → q <+: k → k = key

end Map

section Nodes

variable {δ : Type*} {isLeaf freeUser : Bool} {userData : Option δ}
  {character : UInt8 → Option (Trie δ)} {t : Trie δ} {c : UInt8} {str : Bytes}

/-- What is found from a pointer to a node on. -/
def searchFrom : Option (Trie δ) → KeyMap δ
  | none => fun _ => none
  | some t => trieSearch t

theorem trieSearch_cons : trieSearch (.node isLeaf userData freeUser character) (c :: str) =
    searchFrom (character c) str := by
  rw [trieSearch]
  cases character c <;> rfl

theorem trieSearch_alloc (key : Bytes) : trieSearch (trieAlloc : Trie δ) key = none := by
  cases key <;> rfl

theorem trieSearch_insert (t : Trie δ) (str : Bytes) (userData : Option δ) (freeUser : Bool) :
    trieSearch (trieInsert t str userData freeUser) =
      Function.update (trieSearch t) str (some userData) := by
  induction str generalizing t with
  | nil =>
      obtain ⟨isLeaf, userData', freeUser', character⟩ := t
      funext key
      cases key with
      | nil => rw [Function.update_self]; rfl
      | cons d key => rw [Function.update_of_ne (List.cons_ne_nil d key)]; rfl
  | cons c str ih =>
      obtain ⟨isLeaf, userData', freeUser', character⟩ := t
      funext key
      cases key with
      | nil => rw [Function.update_of_ne (List.cons_ne_nil c str).symm]; rfl
      | cons d key =>
          rw [trieInsert, trieSearch_cons]
          by_cases hd : d = c
          · subst hd
            rw [Function.update_self, searchFrom, ih]
            by_cases hkey : key = str
            · rw [hkey, Function.update_self, Function.update_self]
            · rw [Function.update_of_ne hkey, Function.update_of_ne (by simpa using hkey),
                trieSearch_cons]
              cases character d with
              | none => rw [Option.getD_none, trieSearch_alloc]; rfl
              | some child => rfl
          · rw [Function.update_of_ne hd, Function.update_of_ne (by simp [hd]), trieSearch_cons]

/-- Below every node but the head there is a leaf. -/
inductive WellFormed : Trie δ → Prop
  | node {isLeaf : Bool} {userData : Option δ} {freeUser : Bool}
      {character : UInt8 → Option (Trie δ)}
      (children : ∀ c child, character c = some child → WellFormed child)
      (leaves : ∀ c child, character c = some child → ∃ key, (trieSearch child key).isSome) :
      WellFormed (.node isLeaf userData freeUser character)

theorem WellFormed.child (h : WellFormed (.node isLeaf userData freeUser character))
    {child : Trie δ} (hc : character c = some child) :
    WellFormed child ∧ ∃ key, (trieSearch child key).isSome := by
  obtain ⟨hchildren, hleaves⟩ := h
  exact ⟨hchildren c child hc, hleaves c child hc⟩

theorem WellFormed.update (h : WellFormed (.node isLeaf userData freeUser character))
    {isLeaf' freeUser' : Bool} {userData' : Option δ} {child : Option (Trie δ)}
    (hchild : ∀ t, child = some t → WellFormed t ∧ ∃ key, (trieSearch t key).isSome) :
    WellFormed (.node isLeaf' userData' freeUser' (Function.update character c child)) := by
  have hnew : ∀ d t, Function.update character c child d = some t →
      WellFormed t ∧ ∃ key, (trieSearch t key).isSome := by
    intro d t hd
    by_cases hdc : d = c
    · rw [hdc, Function.update_self] at hd
      exact hchild t hd
    · rw [Function.update_of_ne hdc] at hd
      exact h.child hd
  exact .node (fun d t hd => (hnew d t hd).1) fun d t hd => (hnew d t hd).2

theorem wellFormed_alloc : WellFormed (trieAlloc : Trie δ) :=
  .node (fun _ _ h => nomatch h) fun _ _ h => nomatch h

theorem wellFormed_insert (h : WellFormed t) (str : Bytes) (userData : Option δ)
    (freeUser : Bool) : WellFormed (trieInsert t str userData freeUser) := by
  induction str generalizing t with
  | nil =>
      obtain ⟨hchildren, hleaves⟩ := h
      exact .node hchildren hleaves
  | cons c str ih =>
      obtain ⟨isLeaf, userData', freeUser', character⟩ := t
      apply h.update
      rintro t ⟨⟩
      refine ⟨ih ?_, str, ?_⟩
      · cases hc : character c with
        | none => exact wellFormed_alloc
        | some child => exact (h.child hc).1
      · rw [trieSearch_insert, Function.update_self]
        rfl

theorem trieHaveChildren_iff :
    trieHaveChildren character = true ↔ ∃ c, (character c).isSome := by
  rw [trieHaveChildren, List.any_eq_true]
  constructor
  · rintro ⟨i, -, hi⟩
    exact ⟨_, hi⟩
  · rintro ⟨c, hc⟩
    refine ⟨c.toNat, List.mem_range.mpr c.toNat_lt, ?_⟩
    rwa [UInt8.ofNat_toNat]

end Nodes

section Deletion

variable {δ : Type*} {isLeaf freeUser : Bool} {userData : Option δ}
  {character : UInt8 → Option (Trie δ)} {c : UInt8} {str q : Bytes} {m : KeyMap δ}

/-- What is not found any more: the key and all that is below a node that is freed. -/
def Lost (m : KeyMap δ) (key k : Bytes) : Prop := k = key ∨ ∃ q, q <+: k ∧ Frees m key q

/-- The same without the node at which the key begins, as the head is never freed. -/
def LostBelow (m : KeyMap δ) (key k : Bytes) : Prop :=
  k = key ∨ ∃ q ≠ [], q <+: k ∧ Frees m key q

/-- A pointer to a node below the head. -/
def Good (ptr : Option (Trie δ)) : Prop :=
  ∀ t, ptr = some t → WellFormed t ∧ ∃ key, (trieSearch t key).isSome

/-- What `trie_delete_recursive` does to a pointer from which these keys are found. -/
structure Deleted (m : KeyMap δ) (key : Bytes) (ptr : Option (Trie δ)) (freed : Bool) : Prop where
  path : ∃ k, (m k).isSome ∧ key <+: k
  freed_iff : freed = true ↔ Frees m key []
  isNone : ptr.isNone = freed
  good : Good ptr
  lost : ∀ k, Lost m key k → searchFrom ptr k = none
  kept : ∀ k, ¬Lost m key k → searchFrom ptr k = m k

/-- What is below a child: the keys that begin with its character. -/
theorem frees_cons : Frees m (c :: str) (c :: q) ↔ Frees (fun k => m (c :: k)) str q := by
  constructor
  · intro h
    refine ⟨(List.cons_prefix_cons.mp h.onPath).2, h.present, ?_, ?_⟩
    · intro k hk hpre
      exact (List.cons.inj (h.last _ hk (List.cons_prefix_cons.mpr ⟨rfl, hpre⟩))).2
    · intro p hp hq hstr
      exact (List.cons.inj (h.notLeaf _ hp (List.cons_prefix_cons.mpr ⟨rfl, hq⟩)
        (List.cons_prefix_cons.mpr ⟨rfl, hstr⟩))).2
  · intro h
    refine ⟨List.cons_prefix_cons.mpr ⟨rfl, h.onPath⟩, h.present, ?_, ?_⟩
    · intro k hk hpre
      obtain ⟨rest, rfl⟩ := hpre
      exact congrArg _ (h.last (str ++ rest) hk (List.prefix_append _ _))
    · intro p hp hq hstr
      obtain ⟨rest, rfl⟩ := hq
      exact congrArg _ (h.notLeaf (q ++ rest) hp (List.prefix_append _ _)
        (List.cons_prefix_cons.mp hstr).2)

theorem frees_cons_nil :
    Frees m (c :: str) [] ↔ Frees (fun k => m (c :: k)) str [] ∧ m [] = none := by
  constructor
  · intro h
    refine ⟨frees_cons.mp ⟨?_, h.present, h.last, ?_⟩, ?_⟩
    · exact List.cons_prefix_cons.mpr ⟨rfl, List.nil_prefix⟩
    · exact fun p hp _ => h.notLeaf p hp List.nil_prefix
    · cases hm : m [] with
      | none => rfl
      | some d => cases h.notLeaf [] (by rw [hm]; rfl) List.nil_prefix List.nil_prefix
  · rintro ⟨h, hnil⟩
    have hcons := frees_cons.mpr h
    refine ⟨List.nil_prefix, h.present, hcons.last, ?_⟩
    intro p hp _ hstr
    cases p with
    | nil => rw [hnil] at hp; cases hp
    | cons d p =>
        obtain ⟨rfl, -⟩ := List.cons_prefix_cons.mp hstr
        exact hcons.notLeaf _ hp (List.cons_prefix_cons.mpr ⟨rfl, List.nil_prefix⟩) hstr

theorem lost_iff {key k : Bytes} : Lost m key k ↔ LostBelow m key k ∨ Frees m key [] := by
  constructor
  · rintro (heq | ⟨q, hq, hfrees⟩)
    · exact Or.inl (Or.inl heq)
    · cases q with
      | nil => exact Or.inr hfrees
      | cons d q => exact Or.inl (Or.inr ⟨_, List.cons_ne_nil d q, hq, hfrees⟩)
  · rintro ((heq | ⟨q, -, hq, hfrees⟩) | hfrees)
    · exact Or.inl heq
    · exact Or.inr ⟨q, hq, hfrees⟩
    · exact Or.inr ⟨[], List.nil_prefix, hfrees⟩

theorem lostBelow_cons {k : Bytes} : LostBelow m (c :: str) k ↔
    ∃ k', k = c :: k' ∧ Lost (fun k => m (c :: k)) str k' := by
  constructor
  · rintro (rfl | ⟨q, hne, ⟨rest, rfl⟩, hfrees⟩)
    · exact ⟨str, rfl, Or.inl rfl⟩
    · obtain ⟨d, q, rfl⟩ := List.exists_cons_of_ne_nil hne
      obtain ⟨rfl, -⟩ := List.cons_prefix_cons.mp hfrees.onPath
      exact ⟨q ++ rest, rfl, Or.inr ⟨q, List.prefix_append _ _, frees_cons.mp hfrees⟩⟩
  · rintro ⟨k', rfl, rfl | ⟨q, hq, hfrees⟩⟩
    · exact Or.inl rfl
    · exact Or.inr ⟨c :: q, List.cons_ne_nil c q, List.cons_prefix_cons.mpr ⟨rfl, hq⟩,
        frees_cons.mpr hfrees⟩

theorem lost_cons {k : Bytes} :
    Lost m (c :: str) (c :: k) ↔ Lost (fun k => m (c :: k)) str k := by
  rw [lost_iff, lostBelow_cons]
  constructor
  · rintro (⟨k', heq, hlost⟩ | hfrees)
    · rwa [(List.cons.inj heq).2]
    · exact Or.inr ⟨[], List.nil_prefix, (frees_cons_nil.mp hfrees).1⟩
  · exact fun hlost => Or.inl ⟨k, rfl, hlost⟩

/-- Other keys are only lost if the node itself is freed. -/
theorem lost_of_ne {k : Bytes} (hk : ∀ k', k ≠ c :: k') :
    Lost m (c :: str) k ↔ Frees m (c :: str) [] := by
  rw [lost_iff, lostBelow_cons, or_iff_right]
  rintro ⟨k', heq, -⟩
  exact hk k' heq

theorem trieSearch_node_nil : trieSearch (.node isLeaf userData freeUser character) [] =
    if isLeaf then some userData else none := rfl

theorem lost_nil_iff (hfrees : ¬Frees m [] []) {k : Bytes} : Lost m [] k ↔ k = [] := by
  refine ⟨?_, Or.inl⟩
  rintro (h | ⟨q, -, hq⟩)
  · exact h
  · exact absurd (List.prefix_nil.mp hq.onPath ▸ hq) hfrees

/-- A node that is freed is lost with all that is below it. -/
theorem Deleted.of_frees {key : Bytes} (hpath : ∃ k, (m k).isSome ∧ key <+: k)
    (hfrees : Frees m key []) : Deleted m key none true where
  path := hpath
  freed_iff := ⟨fun _ => hfrees, fun _ => rfl⟩
  isNone := rfl
  good _ ht := nomatch ht
  lost _ _ := rfl
  kept _ hk := absurd (Or.inr ⟨[], List.nil_prefix, hfrees⟩) hk

theorem trieSearch_update_cons {ptr : Option (Trie δ)} {k : Bytes} :
    trieSearch (.node isLeaf userData freeUser (Function.update character c ptr)) (c :: k) =
      searchFrom ptr k := by
  rw [trieSearch_cons, Function.update_self]

theorem trieSearch_update_of_ne {ptr : Option (Trie δ)} {k : Bytes} (hk : ∀ k', k ≠ c :: k') :
    trieSearch (.node isLeaf userData freeUser (Function.update character c ptr)) k =
      trieSearch (.node isLeaf userData freeUser character) k := by
  cases k with
  | nil => rfl
  | cons d k =>
      have hd : d ≠ c := fun h => hk k (h ▸ rfl)
      rw [trieSearch_cons, trieSearch_cons, Function.update_of_ne hd]

/-- Deleting the key of the node itself. -/
theorem deleted_nil (hgood : Good (some (.node isLeaf userData freeUser character))) :
    ∃ ptr freed,
      trieDeleteRecursive (some (.node isLeaf userData freeUser character)) [] = some (ptr, freed) ∧
      Deleted (trieSearch (.node isLeaf userData freeUser character)) [] ptr freed := by
  obtain ⟨hwell, key, hkey⟩ := hgood _ rfl
  have hpath : ∃ k, (trieSearch (.node isLeaf userData freeUser character) k).isSome ∧ [] <+: k :=
    ⟨key, hkey, List.nil_prefix⟩
  rw [trieDeleteRecursive]
  cases isLeaf with
  | false =>
      have hfrees : ¬Frees (trieSearch (.node false userData freeUser character)) [] [] :=
        fun h => nomatch h.present
      refine ⟨_, _, rfl, hpath, ⟨(fun h => nomatch h), fun h => absurd h hfrees⟩, rfl, hgood, ?_,
        fun _ _ => rfl⟩
      intro k hk
      rw [(lost_nil_iff hfrees).mp hk]
      rfl
  | true =>
      cases hchildren : trieHaveChildren character with
      | true =>
          obtain ⟨c, hc⟩ := trieHaveChildren_iff.mp hchildren
          obtain ⟨child, hchild⟩ := Option.isSome_iff_exists.mp hc
          obtain ⟨-, k, hk⟩ := hwell.child hchild
          have hbelow : ∀ (l : Bool) (d : Option δ) (f : Bool),
              (trieSearch (.node l d f character) (c :: k)).isSome := by
            intro l d f
            rw [trieSearch_cons, hchild]
            exact hk
          have hfrees : ¬Frees (trieSearch (.node true userData freeUser character)) [] [] :=
            fun h => nomatch h.last _ (hbelow true userData freeUser) List.nil_prefix
          refine ⟨_, _, rfl, hpath, ⟨(fun h => nomatch h), fun h => absurd h hfrees⟩, rfl, ?_,
            ?_, ?_⟩
          · rintro t ⟨⟩
            obtain ⟨hc, hl⟩ := hwell
            exact ⟨.node hc hl, _, hbelow _ _ _⟩
          · intro k hk
            rw [(lost_nil_iff hfrees).mp hk]
            rfl
          · intro k hk
            rw [lost_nil_iff hfrees] at hk
            cases k with
            | nil => exact absurd rfl hk
            | cons d k => rw [searchFrom, trieSearch_cons, trieSearch_cons]
      | false =>
          have hnone : ∀ c, character c = none := by
            intro c
            by_contra hc
            have := trieHaveChildren_iff.mpr ⟨c, Option.isSome_iff_ne_none.mpr hc⟩
            rw [hchildren] at this
            cases this
          have honly : ∀ k, (trieSearch (.node true userData freeUser character) k).isSome →
              k = [] := by
            intro k hk
            cases k with
            | nil => rfl
            | cons d k => rw [trieSearch_cons, hnone] at hk; cases hk
          have hfrees : Frees (trieSearch (.node true userData freeUser character)) [] [] :=
            ⟨List.nil_prefix, rfl, fun k hk _ => honly k hk, fun p hp _ _ => honly p hp⟩
          exact ⟨_, _, rfl, .of_frees hpath hfrees⟩

/-- Deleting a key below a node. -/
theorem deleted_cons {ptr : Option (Trie δ)} {freed : Bool}
    (hgood : Good (some (.node isLeaf userData freeUser character)))
    (hrun : trieDeleteRecursive (character c) str = some (ptr, freed))
    (hdeleted : Deleted (searchFrom (character c)) str ptr freed) :
    ∃ ptr freed, trieDeleteRecursive (some (.node isLeaf userData freeUser character)) (c :: str) =
        some (ptr, freed) ∧
      Deleted (trieSearch (.node isLeaf userData freeUser character)) (c :: str) ptr freed := by
  obtain ⟨hwell, key, hkey⟩ := hgood _ rfl
  have hbelow : (fun k => trieSearch (.node isLeaf userData freeUser character) (c :: k)) =
      searchFrom (character c) := funext fun _ => trieSearch_cons
  have hpath : ∃ k, (trieSearch (.node isLeaf userData freeUser character) k).isSome ∧
      c :: str <+: k := by
    obtain ⟨k, hk, hpre⟩ := hdeleted.path
    exact ⟨c :: k, trieSearch_cons ▸ hk, List.cons_prefix_cons.mpr ⟨rfl, hpre⟩⟩
  have hfrees : Frees (trieSearch (.node isLeaf userData freeUser character)) (c :: str) [] ↔
      freed = true ∧ isLeaf = false := by
    rw [frees_cons_nil, hbelow, ← hdeleted.freed_iff, trieSearch_node_nil]
    cases isLeaf <;> simp
  rw [trieDeleteRecursive, hrun]
  by_cases hup : freed = true ∧ isLeaf = false
  · exact ⟨none, true, by simp [hup.1, hup.2], .of_frees hpath (hfrees.mpr hup)⟩
  · have hnot := mt hfrees.mp hup
    have hlost : ∀ k, (∀ k', k ≠ c :: k') →
        ¬Lost (trieSearch (.node isLeaf userData freeUser character)) (c :: str) k :=
      fun k hk => mt (lost_of_ne hk).mp hnot
    refine ⟨some (.node isLeaf userData freeUser (Function.update character c ptr)), false, ?_,
      hpath, ⟨(fun h => nomatch h), fun h => absurd h hnot⟩, rfl, ?_, ?_, ?_⟩
    · have hand : (freed && !isLeaf) = false := by simpa using hup
      simp only [hand, Bool.false_eq_true, if_false]
    · rintro t ⟨⟩
      refine ⟨hwell.update hdeleted.good, ?_⟩
      cases hleaf : isLeaf with
      | true => exact ⟨[], rfl⟩
      | false =>
          -- the child was not freed, so there is a leaf in it
          have hfreed : freed = false := by
            rw [hleaf] at hup
            simpa using hup
          obtain ⟨child, rfl⟩ := Option.isNone_eq_false_iff.mp (hdeleted.isNone.trans hfreed)
            |> Option.isSome_iff_exists.mp
          obtain ⟨-, k, hk⟩ := hdeleted.good child rfl
          exact ⟨c :: k, trieSearch_update_cons ▸ hk⟩
    · intro k hk
      by_cases hc : ∃ k', k = c :: k'
      · obtain ⟨k', rfl⟩ := hc
        rw [lost_cons, hbelow] at hk
        rw [searchFrom, trieSearch_update_cons]
        exact hdeleted.lost k' hk
      · exact absurd hk (hlost k (not_exists.mp hc))
    · intro k hk
      by_cases hc : ∃ k', k = c :: k'
      · obtain ⟨k', rfl⟩ := hc
        rw [lost_cons, hbelow] at hk
        rw [searchFrom, trieSearch_update_cons, trieSearch_cons]
        exact hdeleted.kept k' hk
      · exact trieSearch_update_of_ne (not_exists.mp hc)

/-- `trie_delete_recursive` crashes exactly if there is no path for the key. -/
theorem trieDeleteRecursive_cases {ptr : Option (Trie δ)} (hgood : Good ptr) (str : Bytes) :
    (trieDeleteRecursive ptr str = none ∧ ¬∃ k, (searchFrom ptr k).isSome ∧ str <+: k) ∨
      ∃ ptr' freed, trieDeleteRecursive ptr str = some (ptr', freed) ∧
        Deleted (searchFrom ptr) str ptr' freed := by
  induction str generalizing ptr with
  | nil =>
      cases ptr with
      | none => exact Or.inl ⟨rfl, fun ⟨_, h, _⟩ => nomatch h⟩
      | some t =>
          obtain ⟨isLeaf, userData, freeUser, character⟩ := t
          exact Or.inr (deleted_nil hgood)
  | cons c str ih =>
      cases ptr with
      | none => exact Or.inl ⟨rfl, fun ⟨_, h, _⟩ => nomatch h⟩
      | some t =>
          obtain ⟨isLeaf, userData, freeUser, character⟩ := t
          have hchild : Good (character c) := fun child hc => (hgood _ rfl).1.child hc
          rcases ih hchild with ⟨hnone, hpath⟩ | ⟨ptr', freed, hrun, hdeleted⟩
          · refine Or.inl ⟨by rw [trieDeleteRecursive, hnone], ?_⟩
            rintro ⟨k, hk, rest, rfl⟩
            refine hpath ⟨str ++ rest, ?_, List.prefix_append _ _⟩
            rwa [searchFrom, List.cons_append, trieSearch_cons] at hk
          · exact Or.inr (deleted_cons hgood hrun hdeleted)

end Deletion

section Runs

variable {δ : Type*} {t : Trie δ} {m : KeyMap δ} {key : Bytes}

theorem trieDelete_nil (t : Trie δ) : (trieDelete t []).map Prod.fst = some t := by
  obtain ⟨isLeaf, userData, freeUser, character⟩ := t
  rfl

/-- Below the head, a deletion is that of the rest of the key from a child. -/
theorem trieDelete_cases (hwell : WellFormed t) (hkey : key ≠ []) :
    (trieDelete t key = none ∧ ¬∃ k, (trieSearch t k).isSome ∧ key <+: k) ∨
      ∃ t' freed, trieDelete t key = some (t', freed) ∧ WellFormed t' ∧
        (∃ k, (trieSearch t k).isSome ∧ key <+: k) ∧
        ∀ k, (LostBelow (trieSearch t) key k → trieSearch t' k = none) ∧
          (¬LostBelow (trieSearch t) key k → trieSearch t' k = trieSearch t k) := by
  obtain ⟨isLeaf, userData, freeUser, character⟩ := t
  obtain ⟨c, str, rfl⟩ := List.exists_cons_of_ne_nil hkey
  have hbelow : (fun k => trieSearch (.node isLeaf userData freeUser character) (c :: k)) =
      searchFrom (character c) := funext fun _ => trieSearch_cons
  have hgood : Good (character c) := fun child hc => hwell.child hc
  rcases trieDeleteRecursive_cases hgood str with ⟨hnone, hpath⟩ | ⟨ptr, freed, hrun, hdeleted⟩
  · refine Or.inl ⟨by rw [trieDelete, hnone, Option.map_none], ?_⟩
    rintro ⟨k, hk, rest, rfl⟩
    refine hpath ⟨str ++ rest, ?_, List.prefix_append _ _⟩
    rwa [List.cons_append, trieSearch_cons] at hk
  · refine Or.inr ⟨_, freed, by rw [trieDelete, hrun, Option.map_some], ?_, ?_, ?_⟩
    · exact hwell.update hdeleted.good
    · obtain ⟨k, hk, hpre⟩ := hdeleted.path
      exact ⟨c :: k, trieSearch_cons ▸ hk, List.cons_prefix_cons.mpr ⟨rfl, hpre⟩⟩
    · intro k
      rw [lostBelow_cons, hbelow]
      by_cases hc : ∃ k', k = c :: k'
      · obtain ⟨k', rfl⟩ := hc
        rw [trieSearch_cons, trieSearch_cons, Function.update_self]
        constructor
        · rintro ⟨k'', heq, hlost⟩
          rw [(List.cons.inj heq).2]
          exact hdeleted.lost k'' hlost
        · exact fun hlost => hdeleted.kept k' fun h => hlost ⟨k', rfl, h⟩
      · refine ⟨fun ⟨k', heq, _⟩ => absurd ⟨k', heq⟩ hc, fun _ => ?_⟩
        cases k with
        | nil => rfl
        | cons d k =>
            have hd : d ≠ c := fun h => hc ⟨k, h ▸ rfl⟩
            rw [trieSearch_cons, trieSearch_cons, Function.update_of_ne hd]

/-- A trie from which the keys of the map are found, and no others. -/
structure Represents (t : Trie δ) (m : KeyMap δ) : Prop where
  wellFormed : WellFormed t
  search : trieSearch t = m

theorem represents_delete_iff (h : Represents t m) (key : Bytes) :
    (∃ t', (trieDelete t key).map Prod.fst = some t' ∧
      trieSearch t' = Function.update m key none) ↔ Deletable m key := by
  obtain ⟨hwell, rfl⟩ := h
  by_cases hkey : key = []
  · subst hkey
    rw [trieDelete_nil]
    constructor
    · rintro ⟨t', ht', hsearch⟩
      obtain rfl := Option.some.inj ht'
      refine ⟨fun _ => ?_, fun h => absurd rfl h, ?_⟩
      · rw [hsearch, Function.update_self]
      · exact fun q hq hfrees => absurd (List.prefix_nil.mp hfrees.onPath) hq
    · intro hdel
      refine ⟨t, rfl, ?_⟩
      rw [Function.eq_update_iff]
      exact ⟨hdel.nil rfl, fun _ _ => rfl⟩
  · rcases trieDelete_cases hwell hkey with ⟨hnone, hpath⟩ |
      ⟨t', freed, hrun, -, hpath, hcases⟩
    · rw [hnone]
      exact ⟨(fun ⟨_, h, _⟩ => nomatch h), fun hdel => absurd (hdel.path hkey) hpath⟩
    · rw [hrun]
      constructor
      · rintro ⟨t'', ht'', hsearch⟩
        obtain rfl := Option.some.inj ht''
        refine ⟨fun h => absurd h hkey, fun _ => hpath, ?_⟩
        intro q hq hfrees k hk hpre
        by_contra hne
        have hlost := (hcases k).1 (Or.inr ⟨q, hq, hpre, hfrees⟩)
        rw [hsearch, Function.update_of_ne hne] at hlost
        rw [hlost] at hk
        cases hk
      · intro hdel
        refine ⟨t', rfl, ?_⟩
        rw [Function.eq_update_iff]
        refine ⟨(hcases key).1 (Or.inl rfl), fun k hne => ?_⟩
        by_cases hlost : LostBelow (trieSearch t) key k
        · rw [(hcases k).1 hlost]
          obtain ⟨q, hq, hpre, hfrees⟩ := hlost.resolve_left hne
          by_contra hk
          exact hne (hdel.alone q hq hfrees k (Option.isSome_iff_ne_none.mpr (Ne.symm hk)) hpre)
        · exact (hcases k).2 hlost

theorem wellFormed_delete (hwell : WellFormed t) {t' : Trie δ}
    (h : (trieDelete t key).map Prod.fst = some t') : WellFormed t' := by
  by_cases hkey : key = []
  · subst hkey
    rw [trieDelete_nil] at h
    exact Option.some.inj h ▸ hwell
  · rcases trieDelete_cases hwell hkey with ⟨hnone, -⟩ | ⟨t'', freed, hrun, hwell', -⟩
    · rw [hnone] at h
      cases h
    · rw [hrun] at h
      exact Option.some.inj h ▸ hwell'

/-- A call that does to the map what it should. -/
def Call.Meets (m : KeyMap δ) : Call δ → Prop
  | .delete key => Deletable m key
  | _ => True

theorem represents_run_iff (h : Represents t m) (call : Call δ) :
    (∃ t', call.run t = some t' ∧ trieSearch t' = call.apply m) ↔ call.Meets m := by
  cases call with
  | insert str userData freeUser =>
      refine iff_of_true ⟨_, rfl, ?_⟩ trivial
      rw [trieSearch_insert, h.search]
      rfl
  | delete key => exact represents_delete_iff h key
  | search str => exact iff_of_true ⟨t, rfl, h.search⟩ trivial

theorem wellFormed_run (hwell : WellFormed t) {call : Call δ} {t' : Trie δ}
    (h : call.run t = some t') : WellFormed t' := by
  cases call with
  | insert str userData freeUser =>
      obtain rfl := Option.some.inj h
      exact wellFormed_insert hwell _ _ _
  | delete key => exact wellFormed_delete hwell h
  | search str => exact Option.some.inj h ▸ hwell

theorem run_concat (calls : List (Call δ)) (call : Call δ) :
    run (calls ++ [call]) = (run calls).bind call.run := by
  simp only [run, List.foldlM_append, List.foldlM_cons, List.foldlM_nil]
  cases calls.foldlM Call.run trieAlloc with
  | none => rfl
  | some t => exact bind_pure (call.run t)

theorem mapOf_concat (calls : List (Call δ)) (call : Call δ) :
    mapOf (calls ++ [call]) = call.apply (mapOf calls) := by
  rw [mapOf, List.foldl_concat]
  rfl

theorem run_take_succ {calls : List (Call δ)} {n : ℕ} {call : Call δ}
    (h : calls[n]? = some call) :
    run (calls.take (n + 1)) = (run (calls.take n)).bind call.run := by
  rw [List.take_add_one, h]
  exact run_concat _ _

theorem mapOf_take_succ {calls : List (Call δ)} {n : ℕ} {call : Call δ}
    (h : calls[n]? = some call) :
    mapOf (calls.take (n + 1)) = call.apply (mapOf (calls.take n)) := by
  rw [List.take_add_one, h]
  exact mapOf_concat _ _

theorem wellFormed_run_take (calls : List (Call δ)) (n : ℕ) {t : Trie δ}
    (h : run (calls.take n) = some t) : WellFormed t := by
  induction n generalizing t with
  | zero =>
      obtain rfl := Option.some.inj h
      exact wellFormed_alloc
  | succ n ih =>
      cases hcall : calls[n]? with
      | none =>
          rw [List.take_add_one, hcall, Option.toList_none, List.append_nil] at h
          exact ih h
      | some call =>
          rw [run_take_succ hcall] at h
          obtain ⟨t', hrun, hstep⟩ := Option.bind_eq_some_iff.mp h
          exact wellFormed_run (ih hrun) hstep

theorem represents_of_deletable {calls : List (Call δ)}
    (h : ∀ n key, calls[n]? = some (.delete key) → Deletable (mapOf (calls.take n)) key) (n : ℕ) :
    ∃ t, run (calls.take n) = some t ∧ Represents t (mapOf (calls.take n)) := by
  induction n with
  | zero => exact ⟨trieAlloc, rfl, wellFormed_alloc, funext trieSearch_alloc⟩
  | succ n ih =>
      cases hcall : calls[n]? with
      | none =>
          rw [List.take_add_one, hcall, Option.toList_none, List.append_nil]
          exact ih
      | some call =>
          obtain ⟨t, hrun, hrep⟩ := ih
          have hmeets : call.Meets (mapOf (calls.take n)) := by
            cases call with
            | delete key => exact h n key hcall
            | _ => trivial
          obtain ⟨t', ht', hsearch⟩ := (represents_run_iff hrep call).mpr hmeets
          rw [run_take_succ hcall, mapOf_take_succ hcall, hrun]
          exact ⟨t', ht', wellFormed_run hrep.wellFormed ht', hsearch⟩

/-- The trie does what a map does exactly if each key is one that `trie_delete` deletes as it
should. -/
theorem implements_iff (calls : List (Call δ)) : Implements calls ↔
    ∀ n key, calls[n]? = some (.delete key) → Deletable (mapOf (calls.take n)) key := by
  constructor
  · intro h n key hcall
    obtain ⟨t, hrun, hsearch⟩ := h n
    obtain ⟨t', hrun', hsearch'⟩ := h (n + 1)
    have hrep : Represents t (mapOf (calls.take n)) :=
      ⟨wellFormed_run_take calls n hrun, funext hsearch⟩
    rw [run_take_succ hcall, hrun, Option.bind_some] at hrun'
    rw [mapOf_take_succ hcall] at hsearch'
    exact (represents_delete_iff hrep key).mp ⟨t', hrun', funext hsearch'⟩
  · intro h n
    obtain ⟨t, hrun, hrep⟩ := represents_of_deletable h n
    exact ⟨t, hrun, fun key => congrFun hrep.search key⟩

/-- Of `ab` and `ac`, the first is deleted: the node of `a` is freed with both. -/
def twoBranches : List (Call ℕ) :=
  [.insert [97, 98] (some 1) false, .insert [97, 99] (some 2) false, .delete [97, 98]]

set_option maxRecDepth 2000 in
theorem not_implements : ¬Implements twoBranches := by
  intro h
  obtain ⟨t, hrun, hsearch⟩ := h 3
  have hfound : (run (twoBranches.take 3)).map (fun t => trieSearch t [97, 99]) =
      some (some (some 2)) := by
    rw [hrun, Option.map_some, hsearch]
    decide
  have hlost : (run (twoBranches.take 3)).map (fun t => trieSearch t [97, 99]) = some none := by
    decide
  rw [hlost] at hfound
  cases hfound

/-- A key that is not there and has no path ends in a crash. -/
example : run [Call.delete [97], .search [97]] = (none : Option (Trie ℕ)) := rfl

end Runs

end Gufi.UserTrie
