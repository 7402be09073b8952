import Gufi.LinkedCells
import Mathlib.Data.List.Nodup

/-!
# Singly linked lists

Several `sll_t` over one memory. An operation has no result where it follows a null pointer or a
node that was freed. `apply` is what the operations are for.
-/

namespace Gufi.SinglyLinkedList

open LinkedCells

variable {ι α : Type} [DecidableEq ι]

section Model

/-- `sll_t`. -/
structure Sll where
  head : Option ℕ
  tail : Option ℕ
  size : ℕ

/-- `sll_init`. -/
def sllInit : Sll := ⟨none, none, 0⟩

structure State (ι α : Type) where
  mem : Memory α
  sll : ι → Sll

def State.init : State ι α := ⟨Memory.empty, fun _ => sllInit⟩

def State.set (st : State ι α) (i : ι) (sll : Sll) : State ι α :=
  { st with sll := Function.update st.sll i sll }

def sllPushFront (st : State ι α) (i : ι) (data : α) : State ι α :=
  let sll := st.sll i
  let node := st.mem.count
  { st with mem := st.mem.alloc data sll.head }.set i
    ⟨some node, if sll.head = none then some node else sll.tail, sll.size + 1⟩

/-- The tail, if there is one, is linked to the new node. -/
def linkTail (mem : Memory α) (tail : Option ℕ) (node : ℕ) : Option (Memory α) :=
  match tail with
  | some tail => mem.setNext tail (some node)
  | none => some mem

def sllPushBack (st : State ι α) (i : ι) (data : α) : Option (State ι α) := do
  let sll := st.sll i
  let node := st.mem.count
  let mem ← linkTail (st.mem.alloc data none) sll.tail node
  return { st with mem := mem }.set i
    ⟨if sll.head = none then some node else sll.head, some node, sll.size + 1⟩

/-- `none` for the data is the null pointer of an empty list. -/
def sllPopFront (st : State ι α) (i : ι) : Option (State ι α × Option α) :=
  let sll := st.sll i
  if sll.size = 0 then some (st, none)
  else do
    let head ← sll.head
    let node ← st.mem.cell head
    return ({ st with mem := st.mem.free head }.set i
      ⟨node.next, if sll.tail = some head then none else sll.tail, sll.size - 1⟩, some node.data)

/-- `sll_loop` up to node number `n`, with `last` and `i`. -/
def findLast (mem : Memory α) : ℕ → Option ℕ → ℕ → ℕ → Option (ℕ × ℕ)
  | 0, _, last, i => some (last, i)
  | _ + 1, none, last, i => some (last, i)
  | n + 1, some node, _, i => (mem.cell node).bind fun c => findLast mem n c.next node (i + 1)

/-- First the two lists are connected. -/
def connect (st : State ι α) (dst src : ι) : Option (State ι α) :=
  if (st.sll dst).head = none then
    some (st.set dst { st.sll dst with head := (st.sll src).head })
  else do
    let tail ← (st.sll dst).tail
    let mem ← st.mem.setNext tail (st.sll src).head
    return { st with mem := mem }

/-- The heads, tails and sizes once `i` nodes up to `last` are moved. -/
def relink (st : State ι α) (dst src : ι) (next : Option ℕ) (last i : ℕ) : State ι α :=
  let st := st.set src { st.sll src with head := next }
  let st := st.set dst { st.sll dst with tail := some last }
  let st := st.set dst { st.sll dst with size := (st.sll dst).size + i }
  st.set src { st.sll src with size := (st.sll src).size - i }

def sllMoveAppendFirst (st : State ι α) (dst src : ι) (n : ℕ) : Option (State ι α) :=
  if (st.sll src).size = 0 then some st
  else do
    let st ← connect st dst src
    if (st.sll src).size ≤ n then
      let st := st.set dst
        { st.sll dst with size := (st.sll dst).size + (st.sll src).size }
      let st := st.set dst { st.sll dst with tail := (st.sll src).tail }
      return st.set src sllInit
    else
      let head ← (st.sll src).head
      let (last, i) ← findLast st.mem n (some head) head 0
      let node ← st.mem.cell last
      let mem ← st.mem.setNext last none
      return relink { st with mem := mem } dst src node.next last i

def sllMoveAppend (st : State ι α) (dst src : ι) : Option (State ι α) :=
  sllMoveAppendFirst st dst src (st.sll src).size

inductive Call (ι α : Type)
  | pushFront (i : ι) (data : α)
  | pushBack (i : ι) (data : α)
  | popFront (i : ι)
  | moveAppendFirst (dst src : ι) (n : ℕ)
  | moveAppend (dst src : ι)

/-- The state after a call, and what it returns. -/
def step (st : State ι α) : Call ι α → Option (State ι α × Option α)
  | .pushFront i data => some (sllPushFront st i data, none)
  | .pushBack i data => (sllPushBack st i data).map (·, none)
  | .popFront i => sllPopFront st i
  | .moveAppendFirst dst src n => (sllMoveAppendFirst st dst src n).map (·, none)
  | .moveAppend dst src => (sllMoveAppend st dst src).map (·, none)

def run (st : State ι α) : List (Call ι α) → Option (State ι α × List (Option α))
  | [] => some (st, [])
  | call :: calls => do
    let first ← step st call
    let rest ← run first.1 calls
    return (rest.1, first.2 :: rest.2)

end Model

section Lists

/-- The first `n` elements go from `src` to the end of `dst`. -/
def move (xs : ι → List α) (dst src : ι) (n : ℕ) : ι → List α :=
  let left := Function.update xs src ((xs src).drop n)
  Function.update left dst (left dst ++ (xs src).take n)

/-- What a call does to lists, and what it returns. -/
def apply (xs : ι → List α) : Call ι α → (ι → List α) × Option α
  | .pushFront i data => (Function.update xs i (data :: xs i), none)
  | .pushBack i data => (Function.update xs i (xs i ++ [data]), none)
  | .popFront i => (Function.update xs i (xs i).tail, (xs i).head?)
  | .moveAppendFirst dst src n => (move xs dst src n, none)
  | .moveAppend dst src => (move xs dst src (xs src).length, none)

def applyAll (xs : ι → List α) : List (Call ι α) → (ι → List α) × List (Option α)
  | [] => (xs, [])
  | call :: calls =>
    let rest := applyAll (apply xs call).1 calls
    (rest.1, (apply xs call).2 :: rest.2)

/-- The nodes of a list: its head leads through all of them, its tail is the last one. -/
structure ListAt (mem : Memory α) (sll : Sll) (cells : List (ℕ × α)) : Prop where
  links : Links mem sll.head cells none
  tail : sll.tail = cells.getLast?.map Prod.fst
  size : sll.size = cells.length

/-- No node is in two lists, or twice in one, and each has been allocated. -/
structure Apart (cells : ι → List (ℕ × α)) (count : ℕ) : Prop where
  nodup : ∀ i, ((cells i).map Prod.fst).Nodup
  disjoint : ∀ i j, i ≠ j → ∀ c ∈ cells i, ∀ d ∈ cells j, c.1 ≠ d.1
  allocated : ∀ i, ∀ c ∈ cells i, c.1 < count

structure Holds (st : State ι α) (cells : ι → List (ℕ × α)) : Prop
    extends Apart cells st.mem.count where
  list : ∀ i, ListAt st.mem (st.sll i) (cells i)

/-- The lists that the heads, tails and sizes stand for. -/
def Represents (st : State ι α) (xs : ι → List α) : Prop :=
  ∃ cells, Holds st cells ∧ ∀ i, (cells i).map Prod.snd = xs i

/-- A move takes at least one node, and not all nodes of a list to itself. -/
def Moves (xs : ι → List α) (dst src : ι) (n : ℕ) : Prop :=
  xs src = [] ∨ 0 < n ∧ (dst = src → n < (xs src).length)

def Works (xs : ι → List α) : Call ι α → Prop
  | .moveAppendFirst dst src n => Moves xs dst src n
  | .moveAppend dst src => Moves xs dst src (xs src).length
  | _ => True

end Lists

section Push

variable {st : State ι α} {xs : ι → List α} {cells : ι → List (ℕ × α)} {i : ι} {x : α}

theorem ListAt.head {mem : Memory α} {sll : Sll} {cells : List (ℕ × α)}
    (h : ListAt mem sll cells) : sll.head = cells.head?.map Prod.fst :=
  h.links.head

theorem ListAt.congr {mem mem' : Memory α} {sll : Sll} {cells : List (ℕ × α)}
    (h : ListAt mem sll cells) (hcells : ∀ c ∈ cells, mem'.cell c.1 = mem.cell c.1) :
    ListAt mem' sll cells :=
  ⟨h.links.congr hcells, h.tail, h.size⟩

@[simp]
theorem State.mem_set (st : State ι α) (i : ι) (sll : Sll) : (st.set i sll).mem = st.mem := rfl

@[simp]
theorem State.sll_set_self (st : State ι α) (i : ι) (sll : Sll) : (st.set i sll).sll i = sll :=
  Function.update_self ..

@[simp]
theorem State.sll_set_of_ne {i j : ι} (h : j ≠ i) (st : State ι α) (sll : Sll) :
    (st.set i sll).sll j = st.sll j :=
  Function.update_of_ne h ..

omit [DecidableEq ι] in
theorem Holds.init : Holds (State.init : State ι α) fun _ => [] where
  list _ := ⟨rfl, rfl, rfl⟩
  nodup _ := List.nodup_nil
  disjoint _ _ _ _ hc := nomatch hc
  allocated _ _ hc := nomatch hc

omit [DecidableEq ι] in
theorem Represents.init : Represents (State.init : State ι α) fun _ => [] :=
  ⟨fun _ => [], Holds.init, fun _ => rfl⟩

/-- One list gets other nodes, which the others do not have. -/
theorem Apart.update {count count' : ℕ} (h : Apart cells count) {new : List (ℕ × α)}
    (hnodup : (new.map Prod.fst).Nodup)
    (hdisjoint : ∀ j, j ≠ i → ∀ c ∈ new, ∀ d ∈ cells j, c.1 ≠ d.1)
    (hallocated : ∀ c ∈ new, c.1 < count') (hcount : count ≤ count') :
    Apart (Function.update cells i new) count' where
  nodup j := by
    by_cases hj : j = i
    · subst hj
      rwa [Function.update_self]
    · rw [Function.update_of_ne hj]
      exact h.nodup j
  disjoint j k hjk c hc d hd := by
    by_cases hj : j = i
    · subst hj
      rw [Function.update_self] at hc
      rw [Function.update_of_ne hjk.symm] at hd
      exact hdisjoint k hjk.symm c hc d hd
    · rw [Function.update_of_ne hj] at hc
      by_cases hk : k = i
      · subst hk
        rw [Function.update_self] at hd
        exact (hdisjoint j hj d hd c hc).symm
      · rw [Function.update_of_ne hk] at hd
        exact h.disjoint j k hjk c hc d hd
  allocated j c hc := by
    by_cases hj : j = i
    · subst hj
      rw [Function.update_self] at hc
      exact hallocated c hc
    · rw [Function.update_of_ne hj] at hc
      exact Nat.lt_of_lt_of_le (h.allocated j c hc) hcount

/-- A list gets the next node. -/
theorem Apart.push {count : ℕ} (h : Apart cells count) {new : List (ℕ × α)}
    (hnew : new.Perm ((count, x) :: cells i)) :
    Apart (Function.update cells i new) (count + 1) := by
  have hmem : ∀ c ∈ new, c = (count, x) ∨ c ∈ cells i := fun c hc =>
    List.mem_cons.mp (hnew.mem_iff.mp hc)
  have hne : ∀ j, ∀ c ∈ cells j, c.1 ≠ count := fun j c hc => Nat.ne_of_lt (h.allocated j c hc)
  refine h.update ?_ (fun j hj c hc d hd => ?_) (fun c hc => ?_) (Nat.le_succ _)
  · rw [(hnew.map Prod.fst).nodup_iff, List.map_cons, List.nodup_cons]
    refine ⟨fun hcount => ?_, h.nodup i⟩
    obtain ⟨c, hc, hcount⟩ := List.mem_map.mp hcount
    exact hne i c hc hcount
  · rcases hmem c hc with rfl | hc
    · exact (hne j d hd).symm
    · exact h.disjoint i j hj.symm c hc d hd
  · rcases hmem c hc with rfl | hc
    · exact Nat.lt_succ_self _
    · exact Nat.lt_succ_of_lt (h.allocated i c hc)

/-- A list keeps some of its nodes. -/
theorem Apart.sublist {count : ℕ} (h : Apart cells count) {new : List (ℕ × α)}
    (hnew : new.Sublist (cells i)) : Apart (Function.update cells i new) count :=
  h.update ((hnew.map Prod.fst).nodup (h.nodup i))
    (fun j hj c hc => h.disjoint i j hj.symm c (hnew.subset hc))
    (fun c hc => h.allocated i c (hnew.subset hc)) (Nat.le_refl _)

/-- Only the nodes of one list have changed. -/
theorem Holds.update (h : Holds st cells) {mem : Memory α} {sll : Sll} {new : List (ℕ × α)}
    (hlist : ListAt mem sll new)
    (hframe : ∀ j, j ≠ i → ∀ c ∈ cells j, mem.cell c.1 = st.mem.cell c.1)
    (hapart : Apart (Function.update cells i new) mem.count) :
    Holds (State.set { st with mem := mem } i sll) (Function.update cells i new) where
  toApart := hapart
  list j := by
    by_cases hj : j = i
    · subst hj
      rw [State.sll_set_self, Function.update_self]
      exact hlist
    · rw [State.sll_set_of_ne hj, Function.update_of_ne hj]
      exact (h.list j).congr (hframe j hj)

theorem map_update {β γ : Type} (f : β → γ) (g : ι → List β) (i : ι) (l : List β)
    {ys : ι → List γ} (h : ∀ j, (g j).map f = ys j) (j : ι) :
    (Function.update g i l j).map f = Function.update ys i (l.map f) j := by
  by_cases hj : j = i
  · subst hj
    rw [Function.update_self, Function.update_self]
  · rw [Function.update_of_ne hj, Function.update_of_ne hj, h j]

omit [DecidableEq ι] in
/-- The next node is in no list. -/
theorem Holds.ne_count (h : Holds st cells) (j : ι) : ∀ c ∈ cells j, c.1 ≠ st.mem.count :=
  fun c hc => Nat.ne_of_lt (h.allocated j c hc)

theorem Represents.pushFront (h : Represents st xs) (i : ι) (x : α) :
    Represents (sllPushFront st i x) (Function.update xs i (x :: xs i)) := by
  obtain ⟨cells, hholds, hxs⟩ := h
  have hlist := hholds.list i
  refine ⟨Function.update cells i ((st.mem.count, x) :: cells i), hholds.update ⟨?_, ?_, ?_⟩
    (fun j _ c hc => st.mem.alloc_of_ne x _ (hholds.ne_count j c hc))
    (hholds.toApart.push (List.Perm.refl _)), fun j => ?_⟩
  · refine ⟨rfl, (st.sll i).head, st.mem.alloc_self x _, hlist.links.congr fun c hc => ?_⟩
    exact st.mem.alloc_of_ne x _ (hholds.ne_count i c hc)
  · rw [hlist.head, hlist.tail]
    cases cells i with
    | nil => rfl
    | cons c rest => rfl
  · rw [hlist.size, List.length_cons]
  · rw [map_update Prod.snd cells i _ hxs, List.map_cons, hxs]

omit [DecidableEq ι] in
/-- The next node is linked behind the last one. -/
theorem Holds.linkTail (h : Holds st cells) (i : ι) (x : α) : ∃ mem,
    linkTail (st.mem.alloc x none) (st.sll i).tail st.mem.count = some mem ∧
      mem.count = st.mem.count + 1 ∧ Links mem
        (if (st.sll i).head = none then some st.mem.count else (st.sll i).head)
        (cells i ++ [(st.mem.count, x)]) none ∧
      ∀ j, j ≠ i → ∀ c ∈ cells j, mem.cell c.1 = st.mem.cell c.1 := by
  have hlist := h.list i
  have halloc (j : ι) (c : ℕ × α) (hc : c ∈ cells j) :
      (st.mem.alloc x none).cell c.1 = st.mem.cell c.1 :=
    st.mem.alloc_of_ne x none (h.ne_count j c hc)
  by_cases hnil : cells i = []
  · rw [hlist.tail, hlist.head, hnil]
    refine ⟨_, rfl, rfl, ?_, fun j _ => halloc j⟩
    exact links_singleton.mpr ⟨rfl, st.mem.alloc_self x none⟩
  · obtain ⟨last, mem, hlast, -, hset, hcount, hmem, hother⟩ :=
      (hlist.links.congr (halloc i)).setLast (h.nodup i) hnil (some st.mem.count)
    have hlastmem : last ∈ cells i := List.mem_of_getLast? hlast
    have hhead : (st.sll i).head ≠ none := by
      rw [hlist.head]
      simpa using hnil
    refine ⟨mem, ?_, hcount, ?_, fun j hj c hc => ?_⟩
    · rw [hlist.tail, hlast]
      exact hset
    · rw [if_neg hhead]
      refine links_append.mpr ⟨_, hmem, links_singleton.mpr ⟨rfl, ?_⟩⟩
      rw [hother _ (h.ne_count i _ hlastmem).symm]
      exact st.mem.alloc_self x none
    · rw [hother c.1 (h.disjoint j i hj c hc _ hlastmem)]
      exact halloc j c hc

theorem Represents.pushBack (h : Represents st xs) (i : ι) (x : α) :
    ∃ st', sllPushBack st i x = some st' ∧
      Represents st' (Function.update xs i (xs i ++ [x])) := by
  obtain ⟨cells, hholds, hxs⟩ := h
  obtain ⟨mem, hmem, hcount, hlinks, hframe⟩ := hholds.linkTail i x
  have hapart := hholds.toApart.push (List.perm_append_singleton (st.mem.count, x) (cells i))
  rw [← hcount] at hapart
  refine ⟨_, by rw [sllPushBack, hmem]; rfl,
    Function.update cells i (cells i ++ [(st.mem.count, x)]), hholds.update ⟨hlinks, ?_, ?_⟩
      hframe hapart, fun j => ?_⟩
  · rw [List.getLast?_concat]
    rfl
  · rw [(hholds.list i).size, List.length_append, List.length_singleton]
  · rw [map_update Prod.snd cells i _ hxs, List.map_append, List.map_singleton, hxs]

theorem Represents.popFront (h : Represents st xs) (i : ι) : ∃ st',
    sllPopFront st i = some (st', (xs i).head?) ∧
      Represents st' (Function.update xs i (xs i).tail) := by
  obtain ⟨cells, hholds, hxs⟩ := h
  have hlist := hholds.list i
  cases hcells : cells i with
  | nil =>
      have hnil : xs i = [] := by rw [← hxs, hcells, List.map_nil]
      have hsize : (st.sll i).size = 0 := by rw [hlist.size, hcells, List.length_nil]
      refine ⟨st, by rw [sllPopFront, if_pos hsize, hnil]; rfl, cells, hholds, fun j => ?_⟩
      rw [hnil, List.tail_nil, ← hnil, Function.update_eq_self, hxs]
  | cons c rest =>
      obtain ⟨a, x⟩ := c
      have hmem : (a, x) ∈ cells i := by rw [hcells]; exact List.mem_cons_self ..
      have hsize : (st.sll i).size ≠ 0 := by
        rw [hlist.size, hcells]
        exact Nat.succ_ne_zero _
      have hlinks := hlist.links
      rw [hcells] at hlinks
      obtain ⟨hhead, next, hcell, hrest⟩ := hlinks
      have hnodup := hholds.nodup i
      rw [hcells, List.map_cons, List.nodup_cons] at hnodup
      have hne : ∀ c ∈ rest, c.1 ≠ a := fun c hc heq =>
        hnodup.1 (List.mem_map.mpr ⟨c, hc, heq⟩)
      have hstep : sllPopFront st i = some (State.set { st with mem := st.mem.free a } i
          ⟨next, if (st.sll i).tail = some a then none else (st.sll i).tail,
            (st.sll i).size - 1⟩, some x) := by
        rw [sllPopFront, if_neg hsize, hhead]
        simp only [Option.bind_eq_bind, Option.bind_some, hcell]
        rfl
      have hhd : (xs i).head? = some x := by rw [← hxs, hcells]; rfl
      have hsub : rest.Sublist (cells i) := by
        rw [hcells]
        exact List.sublist_cons_self ..
      refine ⟨_, by rw [hstep, hhd], Function.update cells i rest, hholds.update ⟨?_, ?_, ?_⟩
        (fun j hj c hc => st.mem.free_of_ne (hholds.disjoint j i hj c hc _ hmem))
        (hholds.toApart.sublist hsub), fun j => ?_⟩
      · exact hrest.congr fun c hc => st.mem.free_of_ne (hne c hc)
      · rw [hlist.tail, hcells]
        cases rest with
        | nil => exact if_pos rfl
        | cons c rest =>
            rw [List.getLast?_cons_cons, if_neg]
            intro heq
            obtain ⟨last, hlast, rfl⟩ := Option.map_eq_some_iff.mp heq
            exact hne last (List.mem_of_getLast? hlast) rfl
      · rw [hlist.size, hcells]
        rfl
      · rw [map_update Prod.snd cells i _ hxs, ← hxs i, hcells]
        rfl

end Push

section Move

variable {st : State ι α} {xs : ι → List α} {cells : ι → List (ℕ × α)} {dst src : ι}

omit [DecidableEq ι] in
/-- Walking over `n` linked nodes ends at the last one. -/
theorem findLast_links {mem : Memory α} {p q : Option ℕ} {taken : List (ℕ × α)}
    (h : Links mem p taken q) (last i : ℕ) : findLast mem taken.length p last i =
      some ((taken.getLast?.map Prod.fst).getD last, i + taken.length) := by
  induction taken generalizing p last i with
  | nil => rfl
  | cons c taken ih =>
      obtain ⟨rfl, next, hcell, hrest⟩ := h
      rw [List.length_cons, findLast, hcell, Option.bind_some, ih hrest, Nat.add_assoc,
        Nat.add_comm 1]
      cases taken with
      | nil => rfl
      | cons d taken =>
          rw [List.getLast?_cons_cons]
          cases hlast : (d :: taken).getLast? with
          | none => simp at hlast
          | some e => rfl

/-- `src` is linked behind `dst`. -/
theorem connect_holds (h : Holds st cells) (dst src : ι) : ∃ st',
    connect st dst src = some st' ∧ st'.mem.count = st.mem.count ∧
      Links st'.mem (st'.sll dst).head (cells dst) (st.sll src).head ∧
      (∀ a, (∀ c ∈ cells dst, c.1 ≠ a) → st'.mem.cell a = st.mem.cell a) ∧
      (∀ j, j ≠ dst → st'.sll j = st.sll j) ∧
      (st'.sll dst).tail = (st.sll dst).tail ∧ (st'.sll dst).size = (st.sll dst).size ∧
      (cells dst ≠ [] → st'.sll dst = st.sll dst) := by
  have hlist := h.list dst
  by_cases hnil : cells dst = []
  · have hhead : (st.sll dst).head = none := by rw [hlist.head, hnil]; rfl
    refine ⟨st.set dst ⟨(st.sll src).head, (st.sll dst).tail, (st.sll dst).size⟩,
      by rw [connect, if_pos hhead], rfl, ?_, fun _ _ => rfl,
      fun j hj => State.sll_set_of_ne hj .., ?_, ?_, fun hne => absurd hnil hne⟩
    · rw [hnil, State.sll_set_self]
      rfl
    · rw [State.sll_set_self]
    · rw [State.sll_set_self]
  · obtain ⟨last, mem, hlast, -, hset, hcount, hmem, hother⟩ :=
      hlist.links.setLast (h.nodup dst) hnil (st.sll src).head
    have hhead : (st.sll dst).head ≠ none := by
      rw [hlist.head]
      simpa using hnil
    have htail : (st.sll dst).tail = some last.1 := by
      rw [hlist.tail, hlast]
      rfl
    refine ⟨{ st with mem := mem }, ?_, hcount, hmem, fun a ha => hother a ?_, fun _ _ => rfl, rfl,
      rfl, fun _ => rfl⟩
    · rw [connect, if_neg hhead, htail]
      simp only [Option.bind_eq_bind, Option.bind_some, hset]
      rfl
    · exact (ha last (List.mem_of_getLast? hlast)).symm

/-- The nodes of `move`. -/
def moveCells (cells : ι → List (ℕ × α)) (dst src : ι) (taken rest : List (ℕ × α)) :
    ι → List (ℕ × α) :=
  let left := Function.update cells src rest
  Function.update left dst (left dst ++ taken)

variable {taken rest : List (ℕ × α)} {n : ℕ}

theorem moveCells_dst (hdst : dst ≠ src) :
    moveCells cells dst src taken rest dst = cells dst ++ taken := by
  rw [moveCells, Function.update_self, Function.update_of_ne hdst]

theorem moveCells_src (hdst : dst ≠ src) : moveCells cells dst src taken rest src = rest := by
  rw [moveCells, Function.update_of_ne hdst.symm, Function.update_self]

theorem moveCells_self : moveCells cells src src taken rest src = rest ++ taken := by
  rw [moveCells, Function.update_self, Function.update_self]

theorem moveCells_of_ne {j : ι} (hdst : j ≠ dst) (hsrc : j ≠ src) :
    moveCells cells dst src taken rest j = cells j := by
  rw [moveCells, Function.update_of_ne hdst, Function.update_of_ne hsrc]

theorem Apart.moveCells {count : ℕ} (h : Apart cells count) (hcells : cells src = taken ++ rest)
    (dst : ι) : Apart (moveCells cells dst src taken rest) count := by
  have hnodup := h.nodup src
  rw [hcells, List.map_append] at hnodup
  have htaken : ∀ c ∈ taken, c ∈ cells src := fun c hc => by
    rw [hcells]
    exact List.mem_append_left _ hc
  have hleft : Apart (Function.update cells src rest) count :=
    h.sublist (by rw [hcells]; exact List.sublist_append_right ..)
  refine hleft.update ?_ (fun j hj c hc d hd => ?_) (fun c hc => ?_) (Nat.le_refl _)
  · by_cases hdst : dst = src
    · subst hdst
      rw [Function.update_self, List.map_append]
      exact List.nodup_append_comm.mp hnodup
    · rw [Function.update_of_ne hdst, List.map_append, List.nodup_append]
      refine ⟨h.nodup dst, hnodup.of_append_left, fun a ha b hb => ?_⟩
      obtain ⟨c, hc, rfl⟩ := List.mem_map.mp ha
      obtain ⟨d, hd, rfl⟩ := List.mem_map.mp hb
      exact h.disjoint dst src hdst c hc d (htaken d hd)
  · rcases List.mem_append.mp hc with hmem | hmem
    · exact hleft.disjoint dst j hj.symm c hmem d hd
    · by_cases hsrc : j = src
      · subst hsrc
        rw [Function.update_self] at hd
        exact (List.nodup_append.mp hnodup).2.2 c.1 (List.mem_map_of_mem hmem) d.1
          (List.mem_map_of_mem hd)
      · rw [Function.update_of_ne hsrc] at hd
        exact h.disjoint src j (Ne.symm hsrc) c (htaken c hmem) d hd
  · rcases List.mem_append.mp hc with hc | hc
    · exact hleft.allocated dst c hc
    · exact h.allocated src c (htaken c hc)

theorem map_moveCells (hxs : ∀ i, (cells i).map Prod.snd = xs i) (n : ℕ) (dst src j : ι) :
    (moveCells cells dst src ((cells src).take n) ((cells src).drop n) j).map Prod.snd =
      move xs dst src n j := by
  have hleft := map_update Prod.snd cells src ((cells src).drop n) hxs
  rw [List.map_drop, hxs] at hleft
  rw [moveCells, map_update Prod.snd _ dst _ hleft, List.map_append, hleft, List.map_take, hxs]
  rfl

/-- Nothing is moved from an empty list. -/
theorem Represents.moveNone (h : Represents st xs) (hsrc : xs src = []) (dst : ι) (n : ℕ) :
    sllMoveAppendFirst st dst src n = some st ∧ move xs dst src n = xs := by
  obtain ⟨cells, hholds, hxs⟩ := h
  have hsize : (st.sll src).size = 0 := by
    rw [(hholds.list src).size, ← List.length_map, hxs, hsrc]
    rfl
  refine ⟨by rw [sllMoveAppendFirst, if_pos hsize], ?_⟩
  rw [move, hsrc, List.drop_nil, List.take_nil, List.append_nil, ← hsrc, Function.update_eq_self,
    Function.update_eq_self]

theorem Represents.moveAll (h : Represents st xs) (hdst : dst ≠ src) (hne : xs src ≠ [])
    (hn : (xs src).length ≤ n) : ∃ st', sllMoveAppendFirst st dst src n = some st' ∧
      Represents st' (move xs dst src n) := by
  obtain ⟨cells, hholds, hxs⟩ := h
  have hsrc := hholds.list src
  have hcells : cells src ≠ [] := fun hnil => hne (by rw [← hxs, hnil, List.map_nil])
  have hlen : (cells src).length ≤ n := by rwa [← List.length_map, hxs]
  obtain ⟨st₁, hconnect, hcount, hlinks, hother, hsll, htail, hsize, -⟩ :=
    connect_holds hholds dst src
  have hpos : (st.sll src).size ≠ 0 := by
    rw [hsrc.size]
    exact mt List.length_eq_zero_iff.mp hcells
  have hle : (st₁.sll src).size ≤ n := by
    rw [hsll src hdst.symm, hsrc.size]
    exact hlen
  have hstep : sllMoveAppendFirst st dst src n = some (((st₁.set dst
      ⟨(st₁.sll dst).head, (st₁.sll dst).tail, (st₁.sll dst).size + (st₁.sll src).size⟩).set dst
      ⟨(st₁.sll dst).head, (st₁.sll src).tail, (st₁.sll dst).size + (st₁.sll src).size⟩).set src
      sllInit) := by
    rw [sllMoveAppendFirst, if_neg hpos, hconnect]
    simp only [Option.bind_eq_bind, Option.bind_some, if_pos hle, State.sll_set_self,
      State.sll_set_of_ne hdst.symm]
    rfl
  have hframe (j : ι) (hj : j ≠ dst) : ∀ c ∈ cells j, st₁.mem.cell c.1 = st.mem.cell c.1 :=
    fun c hc => hother c.1 fun d hd => hholds.disjoint dst j hj.symm d hd c hc
  have hmap := map_moveCells hxs n dst src
  rw [List.take_of_length_le hlen, List.drop_of_length_le hlen] at hmap
  refine ⟨_, hstep, _, ⟨?_, fun j => ?_⟩, hmap⟩
  · rw [State.mem_set, State.mem_set, State.mem_set, hcount]
    exact hholds.toApart.moveCells (List.append_nil _).symm dst
  · rw [State.mem_set, State.mem_set, State.mem_set]
    by_cases hjsrc : j = src
    · subst hjsrc
      rw [State.sll_set_self, moveCells_src hdst]
      exact ⟨rfl, rfl, rfl⟩
    · rw [State.sll_set_of_ne hjsrc]
      by_cases hjdst : j = dst
      · subst hjdst
        rw [State.sll_set_self, moveCells_dst hdst]
        refine ⟨links_append.mpr ⟨_, hlinks, hsrc.links.congr (hframe src hdst.symm)⟩, ?_, ?_⟩
        · rw [hsll src hdst.symm, hsrc.tail, List.getLast?_append_of_ne_nil _ hcells]
        · rw [hsize, hsll src hdst.symm, hsrc.size, (hholds.list j).size, List.length_append]
      · rw [State.sll_set_of_ne hjdst, State.sll_set_of_ne hjdst, moveCells_of_ne hjdst hjsrc,
          hsll j hjdst]
        exact (hholds.list j).congr (hframe j hjdst)

/-- What `src` is linked to behind its nodes, once the lists are connected. -/
theorem links_connected (h : Holds st cells) {st₁ : State ι α} (hne : cells src ≠ [])
    (hlinks : Links st₁.mem (st₁.sll dst).head (cells dst) (st.sll src).head)
    (hother : ∀ a, (∀ c ∈ cells dst, c.1 ≠ a) → st₁.mem.cell a = st.mem.cell a)
    (hdst : cells dst ≠ [] → st₁.sll dst = st.sll dst) :
    Links st₁.mem (st.sll src).head (cells src)
      (if dst = src then (st.sll src).head else none) := by
  by_cases hself : dst = src
  · subst hself
    rw [if_pos rfl]
    rwa [hdst hne] at hlinks
  · rw [if_neg hself]
    refine (h.list src).links.congr fun c hc => hother c.1 fun d hd => ?_
    exact h.disjoint dst src hself d hd c hc

section Relink

variable {next : Option ℕ} {last i : ℕ} {j : ι}

theorem sll_relink_self :
    (relink st src src next last i).sll src = ⟨next, some last, (st.sll src).size + i - i⟩ := by
  simp only [relink, State.sll_set_self]

theorem sll_relink_src (h : dst ≠ src) :
    (relink st dst src next last i).sll src =
      ⟨next, (st.sll src).tail, (st.sll src).size - i⟩ := by
  simp only [relink, State.sll_set_self, State.sll_set_of_ne h.symm]

theorem sll_relink_dst (h : dst ≠ src) :
    (relink st dst src next last i).sll dst =
      ⟨(st.sll dst).head, some last, (st.sll dst).size + i⟩ := by
  simp only [relink, State.sll_set_self, State.sll_set_of_ne h]

theorem sll_relink_of_ne (hdst : j ≠ dst) (hsrc : j ≠ src) :
    (relink st dst src next last i).sll j = st.sll j := by
  simp only [relink, State.sll_set_of_ne hsrc, State.sll_set_of_ne hdst]

end Relink

/-- The lists have been connected, and `mem` has the first nodes of `src` cut off from the rest. -/
structure Cut (st st₁ : State ι α) (mem : Memory α) (cells : ι → List (ℕ × α)) (dst src : ι)
    (taken rest : List (ℕ × α)) (next : Option ℕ) : Prop where
  count : mem.count = st.mem.count
  moved : Links mem (st.sll src).head taken none
  left : Links mem next rest (if dst = src then (st.sll src).head else none)
  linked : dst ≠ src → Links mem (st₁.sll dst).head (cells dst) (st.sll src).head
  others : ∀ j, j ≠ dst → j ≠ src → ∀ c ∈ cells j, mem.cell c.1 = st.mem.cell c.1
  sll : ∀ j, j ≠ dst → st₁.sll j = st.sll j
  source : st₁.sll src = st.sll src
  size : (st₁.sll dst).size = (st.sll dst).size

theorem Holds.cut (h : Holds st cells) (hcells : cells src = taken ++ rest) (htaken : taken ≠ [])
    (hrest : rest ≠ []) (dst : ι) : ∃ st₁ mem next last, taken.getLast? = some last ∧
      sllMoveAppendFirst st dst src taken.length =
        some (relink { st₁ with mem := mem } dst src next last.1 taken.length) ∧
      Cut st st₁ mem cells dst src taken rest next := by
  have hne : cells src ≠ [] := by
    rw [hcells]
    exact List.append_ne_nil_of_left_ne_nil htaken rest
  obtain ⟨st₁, hconnect, hcount, hlinks, hother, hsll, -, hsize, hdst⟩ := connect_holds h dst src
  have hchain := links_connected h hne hlinks hother hdst
  rw [hcells] at hchain
  obtain ⟨next, hmoved, hleft⟩ := links_append.mp hchain
  have hnodup := h.nodup src
  rw [hcells, List.map_append, List.nodup_append] at hnodup
  obtain ⟨last, mem, hlast, hcell, hset, hmemcount, hmem, hmemother⟩ :=
    hmoved.setLast hnodup.1 htaken none
  have hlastmem : last ∈ taken := List.mem_of_getLast? hlast
  have hlastsrc : last ∈ cells src := by
    rw [hcells]
    exact List.mem_append_left _ hlastmem
  have hsource : st₁.sll src = st.sll src := by
    by_cases hself : dst = src
    · subst hself
      exact hdst hne
    · exact hsll src (Ne.symm hself)
  have hlength : (st.sll src).size = taken.length + rest.length := by
    rw [(h.list src).size, hcells, List.length_append]
  have hsize0 : (st.sll src).size ≠ 0 := by
    have := List.length_pos_iff.mpr htaken
    omega
  have hgt : ¬(st.sll src).size ≤ taken.length := by
    have := List.length_pos_iff.mpr hrest
    omega
  obtain ⟨head, hhead⟩ : ∃ head, (st.sll src).head = some head := by
    rw [(h.list src).head]
    exact Option.ne_none_iff_exists'.mp (by simpa using hne)
  have hwalk : findLast st₁.mem taken.length (some head) head 0 =
      some (last.1, taken.length) := by
    have hwalk := findLast_links hmoved head 0
    rwa [hlast, Nat.zero_add, hhead] at hwalk
  refine ⟨st₁, mem, next, last, hlast, ?_, {
    count := hmemcount.trans hcount
    moved := hmem
    left := hleft.congr fun c hc => hmemother c.1 ?_
    linked := fun hself => hlinks.congr fun c hc => hmemother c.1 ?_
    others := fun j hjdst hjsrc c hc => ?_
    sll := hsll
    source := hsource
    size := hsize }⟩
  · rw [sllMoveAppendFirst, if_neg hsize0, hconnect]
    simp only [Option.bind_eq_bind, Option.bind_some, hsource, if_neg hgt, hhead, hwalk, hcell,
      hset]
    rfl
  · exact (hnodup.2.2 last.1 (List.mem_map_of_mem hlastmem) c.1 (List.mem_map_of_mem hc)).symm
  · exact h.disjoint dst src hself c hc _ hlastsrc
  · rw [hmemother c.1 (h.disjoint j src hjsrc c hc _ hlastsrc)]
    exact hother c.1 fun d hd => h.disjoint dst j hjdst.symm d hd c hc

/-- With the new heads, tails and sizes the nodes are those of the lists again. -/
theorem Cut.holds {st₁ : State ι α} {mem : Memory α} {next : Option ℕ} {last : ℕ × α}
    (hcut : Cut st st₁ mem cells dst src taken rest next) (h : Holds st cells)
    (hcells : cells src = taken ++ rest) (hrest : rest ≠ []) (hlast : taken.getLast? = some last) :
    Holds (relink { st₁ with mem := mem } dst src next last.1 taken.length)
      (moveCells cells dst src taken rest) := by
  have hsrc := h.list src
  have hlength : (cells src).length = taken.length + rest.length := by
    rw [hcells, List.length_append]
  have htail : ∀ front : List (ℕ × α), some last.1 = (front ++ taken).getLast?.map Prod.fst := by
    intro front
    rw [List.getLast?_append, hlast]
    rfl
  have hapart := h.toApart.moveCells hcells dst
  rw [← hcut.count] at hapart
  refine ⟨hapart, fun j => ?_⟩
  by_cases hself : dst = src
  · subst hself
    by_cases hj : j = dst
    · subst hj
      have hleft := hcut.left
      rw [if_pos rfl] at hleft
      rw [moveCells_self, sll_relink_self]
      refine ⟨links_append.mpr ⟨_, hleft, hcut.moved⟩, htail rest, ?_⟩
      change (st₁.sll j).size + _ - _ = _
      rw [hcut.source, hsrc.size, hlength, List.length_append]
      omega
    · rw [moveCells_of_ne hj hj, sll_relink_of_ne hj hj]
      change ListAt mem (st₁.sll j) (cells j)
      rw [hcut.sll j hj]
      exact (h.list j).congr (hcut.others j hj hj)
  · by_cases hjsrc : j = src
    · subst hjsrc
      have hleft := hcut.left
      rw [if_neg hself] at hleft
      rw [moveCells_src hself, sll_relink_src hself]
      refine ⟨hleft, ?_, ?_⟩
      · change (st₁.sll j).tail = _
        rw [hcut.source, hsrc.tail, hcells, List.getLast?_append_of_ne_nil _ hrest]
      · change (st₁.sll j).size - _ = _
        rw [hcut.source, hsrc.size, hlength]
        omega
    · by_cases hj : j = dst
      · subst hj
        rw [moveCells_dst hself, sll_relink_dst hself]
        refine ⟨links_append.mpr ⟨_, hcut.linked hself, hcut.moved⟩, htail (cells j), ?_⟩
        change (st₁.sll j).size + _ = _
        rw [hcut.size, (h.list j).size, List.length_append]
      · rw [moveCells_of_ne hj hjsrc, sll_relink_of_ne hj hjsrc]
        change ListAt mem (st₁.sll j) (cells j)
        rw [hcut.sll j hj]
        exact (h.list j).congr (hcut.others j hj hjsrc)

theorem Represents.moveFirst (h : Represents st xs) (dst : ι) (hpos : 0 < n)
    (hn : n < (xs src).length) : ∃ st', sllMoveAppendFirst st dst src n = some st' ∧
      Represents st' (move xs dst src n) := by
  obtain ⟨cells, hholds, hxs⟩ := h
  have hlen : n < (cells src).length := by rwa [← List.length_map, hxs]
  have hsplit : cells src = (cells src).take n ++ (cells src).drop n :=
    (List.take_append_drop n _).symm
  have htaken : ((cells src).take n).length = n := List.length_take_of_le (Nat.le_of_lt hlen)
  have htakenne : (cells src).take n ≠ [] := List.ne_nil_of_length_pos (by omega)
  have hrestne : (cells src).drop n ≠ [] := by
    rw [ne_eq, List.drop_eq_nil_iff]
    omega
  obtain ⟨st₁, mem, next, last, hlast, hstep, hcut⟩ := hholds.cut hsplit htakenne hrestne dst
  have hcutholds := hcut.holds hholds hsplit hrestne hlast
  rw [htaken] at hstep hcutholds
  exact ⟨_, hstep, _, hcutholds, map_moveCells hxs n dst src⟩

end Move

section Runs

variable {st : State ι α} {xs : ι → List α} {calls : List (Call ι α)}

theorem Represents.moveAppendFirst (h : Represents st xs) {dst src : ι} {n : ℕ}
    (hmoves : Moves xs dst src n) : ∃ st', sllMoveAppendFirst st dst src n = some st' ∧
      Represents st' (move xs dst src n) := by
  by_cases hsrc : xs src = []
  · obtain ⟨hstep, hmove⟩ := h.moveNone hsrc dst n
    exact ⟨st, hstep, by rwa [hmove]⟩
  · obtain ⟨hpos, hself⟩ := hmoves.resolve_left hsrc
    rcases Nat.lt_or_ge n (xs src).length with hlt | hle
    · exact h.moveFirst dst hpos hlt
    · exact h.moveAll (fun hdst => Nat.not_lt.mpr hle (hself hdst)) hsrc hle

/-- Every call does to the lists what it is for, and returns what it should. -/
theorem Represents.step (h : Represents st xs) {call : Call ι α} (hworks : Works xs call) :
    ∃ st', step st call = some (st', (apply xs call).2) ∧ Represents st' (apply xs call).1 := by
  cases call with
  | pushFront i data => exact ⟨_, rfl, h.pushFront i data⟩
  | pushBack i data =>
      obtain ⟨st', hstep, hrep⟩ := h.pushBack i data
      exact ⟨st', by rw [SinglyLinkedList.step, hstep]; rfl, hrep⟩
  | popFront i => exact h.popFront i
  | moveAppendFirst dst src n =>
      obtain ⟨st', hstep, hrep⟩ := h.moveAppendFirst hworks
      exact ⟨st', by rw [SinglyLinkedList.step, hstep]; rfl, hrep⟩
  | moveAppend dst src =>
      obtain ⟨st', hstep, hrep⟩ := h.moveAppendFirst hworks
      have hsize : (st.sll src).size = (xs src).length := by
        obtain ⟨cells, hholds, hxs⟩ := h
        rw [(hholds.list src).size, ← hxs, List.length_map]
      exact ⟨st', by rw [SinglyLinkedList.step, sllMoveAppend, hsize, hstep]; rfl, hrep⟩

/-- Every call of the run works on the lists that the calls before it have made. -/
def WorksAll (xs : ι → List α) : List (Call ι α) → Prop
  | [] => True
  | call :: calls => Works xs call ∧ WorksAll (apply xs call).1 calls

theorem Represents.run (h : Represents st xs) (hworks : WorksAll xs calls) : ∃ st',
    run st calls = some (st', (applyAll xs calls).2) ∧ Represents st' (applyAll xs calls).1 := by
  induction calls generalizing st xs with
  | nil => exact ⟨st, rfl, h⟩
  | cons call calls ih =>
      obtain ⟨st₁, hstep, hrep⟩ := h.step hworks.1
      obtain ⟨st₂, hrun, hrep⟩ := ih hrep hworks.2
      refine ⟨st₂, ?_, hrep⟩
      rw [SinglyLinkedList.run, hstep]
      simp only [Option.bind_eq_bind, Option.bind_some, hrun]
      rfl

theorem WorksAll.of_append {done rest : List (Call ι α)} (h : WorksAll xs (done ++ rest)) :
    WorksAll xs done := by
  induction done generalizing xs with
  | nil => trivial
  | cons call done ih => exact ⟨h.1, ih h.2⟩

/-- After every call of a run in which no move is of zero nodes, or of all nodes of a list to
itself, the heads, tails and sizes stand for the lists, and all calls returned what they should. -/
theorem represents_of_worksAll (calls : List (Call ι α)) (h : WorksAll (fun _ => []) calls)
    (done : List (Call ι α)) (hdone : done <+: calls) : ∃ st',
    run State.init done = some (st', (applyAll (fun _ => []) done).2) ∧
      Represents st' (applyAll (fun _ => []) done).1 := by
  obtain ⟨rest, rfl⟩ := hdone
  exact Represents.init.run h.of_append

omit [DecidableEq ι] in
/-- The pointers are null just where the list is empty, and the size is the length. -/
theorem Represents.sll (h : Represents st xs) (i : ι) :
    ((st.sll i).head = none ↔ xs i = []) ∧ ((st.sll i).tail = none ↔ xs i = []) ∧
      (st.sll i).size = (xs i).length := by
  obtain ⟨cells, hholds, hxs⟩ := h
  have hlist := hholds.list i
  have hnil : xs i = [] ↔ cells i = [] := by rw [← hxs, List.map_eq_nil_iff]
  refine ⟨?_, ?_, ?_⟩
  · rw [hlist.head, Option.map_eq_none_iff, List.head?_eq_none_iff, hnil]
  · rw [hlist.tail, Option.map_eq_none_iff, List.getLast?_eq_none_iff, hnil]
  · rw [hlist.size, ← hxs, List.length_map]

/-- Three elements, two of which are moved. -/
def threeCalls : List (Call Bool ℕ) :=
  [.pushBack false 5, .pushBack false 6, .pushFront false 4, .moveAppendFirst true false 2,
    .popFront false]

theorem represents_threeCalls : ∃ st',
    run State.init threeCalls = some (st', (applyAll (fun _ => []) threeCalls).2) ∧
      Represents st' (applyAll (fun _ => []) threeCalls).1 := by
  refine represents_of_worksAll threeCalls ⟨trivial, trivial, trivial, ?_, trivial, trivial⟩
    threeCalls (List.prefix_refl _)
  exact .inr ⟨Nat.two_pos, fun h => nomatch h⟩

/-- A move of no nodes takes one, which no size counts. -/
theorem not_represents : ¬∀ (calls : List (Call Bool ℕ)), ∃ st',
    run State.init calls = some (st', (applyAll (fun _ => []) calls).2) ∧
      Represents st' (applyAll (fun _ => []) calls).1 := by
  intro hall
  obtain ⟨st', hrun, hrep⟩ := hall [.pushBack false 5, .moveAppendFirst true false 0]
  have hhead : (st'.sll true).head = none := ((hrep.sll true).1).mpr rfl
  obtain rfl : _ = st' := congrArg Prod.fst (Option.some.inj hrun)
  exact absurd hhead (by decide)

end Runs

end Gufi.SinglyLinkedList
