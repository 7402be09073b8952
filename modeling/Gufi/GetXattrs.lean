import Gufi.Schema

/-!
# Reading the extended attributes of an entry

`xattrs_get` lists the names, counts those of users, and goes over the list once more to get their
values. A value that is not there any more makes the count smaller while the loop runs up to it,
and so does an empty value. What is read or written outside of a buffer ends the model.
-/

namespace Gufi.Descend

section Program

def MAXXATTR : ℕ := 65536

/-- What `listxattr` writes: the names with a NUL behind each of them. -/
structure NameList where
  names : List Bytes
  noNul : ∀ name ∈ names, 0 ∉ name
  fits : (names.flatMap fun name => name ++ [0]).length ≤ MAXXATTR

def NameList.bytes (l : NameList) : Bytes := l.names.flatMap fun name => name ++ [0]

/-- The value of an attribute that is still there. -/
structure XattrValue where
  value : Bytes
  fits : value.length ≤ MAXXATTR

structure Xattr where
  name : Bytes
  value : Bytes
deriving DecidableEq

/-- `struct xattrs`. The array has its allocated length. -/
structure Xattrs where
  pairs : List Xattr
  nameLen : ℕ
  len : ℕ
  count : ℕ
deriving DecidableEq

def xattrsSetup : Xattrs := ⟨[], 0, 0, 0⟩

def xattrsAlloc (x : Xattrs) : Xattrs := { x with pairs := List.replicate x.count ⟨[], []⟩ }

/-- `strlen(list + offset)`, which must end in the list. -/
def strlenAt (list : Bytes) (offset : ℕ) : Option ℕ :=
  if 0 ∈ list.drop offset then some ((list.drop offset).takeWhile (· ≠ 0)).length else none

/-- The name is longer than `user.` and starts with it. -/
def isUser (name : Bytes) : Prop := 5 < name.length ∧ name.take 5 = [117, 115, 101, 114, 46]

instance (name : Bytes) : Decidable (isUser name) := inferInstanceAs (Decidable (_ ∧ _))

/-- The first loop, which counts the names. -/
def countUser (list : Bytes) (offset count : ℕ) : Option ℕ :=
  if offset < list.length then
    match strlenAt list offset with
    | none => none
    | some nameLen =>
        countUser list (offset + nameLen + 1)
          (if isUser ((list.drop offset).take nameLen) then count + 1 else count)
  else some count
termination_by list.length - offset

theorem lt_length_of_strlenAt {list : Bytes} {offset n : ℕ} (h : strlenAt list offset = some n) :
    offset < list.length := by
  rw [strlenAt] at h
  split at h
  · rename_i hmem
    by_contra hle
    rw [List.drop_of_length_le (Nat.le_of_not_lt hle)] at hmem
    cases hmem
  · cases h

/-- The second loop. `calls` counts the calls of `getxattr`. -/
def getValues (list : Bytes) (getxattr : ℕ → Option XattrValue) (x : Xattrs) (i offset calls : ℕ) :
    Option Xattrs :=
  if i < x.count then
    match h : strlenAt list offset with
    | none => none
    | some nameLen =>
        let name := (list.drop offset).take nameLen
        if isUser name then
          if i < x.pairs.length then
            -- what does not fit is cut off
            let name := name.take (MAXXATTR - 1)
            match (getxattr calls).filter fun v => v.value ≠ [] with
            | some v =>
                getValues list getxattr
                  { pairs := x.pairs.set i ⟨name, v.value⟩
                    nameLen := x.nameLen + name.length
                    len := x.len + (name.length + v.value.length)
                    count := x.count }
                  (i + 1) (offset + nameLen + 1) (calls + 1)
            | none =>
                getValues list getxattr
                  { x with pairs := x.pairs.set i ⟨name, []⟩, count := x.count - 1 }
                  i (offset + nameLen + 1) (calls + 1)
          else none
        else getValues list getxattr x i (offset + nameLen + 1) calls
  else some x
termination_by list.length - offset
decreasing_by all_goals
  have := lt_length_of_strlenAt h
  omega

/-- `xattrs_get` -/
def xattrsGet (listxattr : Option NameList) (getxattr : ℕ → Option XattrValue) (x : Xattrs) :
    Option Xattrs :=
  match listxattr with
  | none => some x
  | some l =>
      (countUser l.bytes 0 x.count).bind fun count =>
        getValues l.bytes getxattr (xattrsAlloc { x with count := count }) 0 0 0

end Program

section Collected

/-- The attributes of users whose values are there. -/
def collected (getxattr : ℕ → Option XattrValue) : List Bytes → ℕ → List Xattr
  | [], _ => []
  | name :: names, calls =>
      if isUser name then
        match (getxattr calls).filter fun v => v.value ≠ [] with
        | some v => ⟨name, v.value⟩ :: collected getxattr names (calls + 1)
        | none => collected getxattr names (calls + 1)
      else collected getxattr names calls

/-- The first pairs of the array are these, and the counters are theirs. -/
structure Xattrs.Filled (x : Xattrs) (done : List Xattr) (i : ℕ) : Prop where
  take : x.pairs.take i = done
  length : done.length = i
  nameLen : x.nameLen = (done.map fun p => p.name.length).sum
  len : x.len = (done.map fun p => p.name.length + p.value.length).sum

variable {getxattr : ℕ → Option XattrValue} {before name rest : Bytes} {names : List Bytes}
  {x : Xattrs} {done : List Xattr} {i calls : ℕ}

theorem strlenAt_append (before rest : Bytes) (hname : 0 ∉ name) :
    strlenAt (before ++ (name ++ 0 :: rest)) before.length = some name.length ∧
      ((before ++ (name ++ 0 :: rest)).drop before.length).take name.length = name := by
  have hbytes : ∀ c ∈ name, decide (c ≠ 0) = true :=
    fun c hc => decide_eq_true (ne_of_mem_of_not_mem hc hname)
  rw [strlenAt, List.drop_left, if_pos (List.mem_append_right _ List.mem_cons_self),
    List.takeWhile_append_of_pos hbytes, List.takeWhile_cons_of_neg (by decide), List.append_nil]
  exact ⟨rfl, List.take_left⟩

theorem length_append_name (before name : Bytes) :
    before.length + name.length + 1 = (before ++ (name ++ [0])).length := by
  simp only [List.length_append, List.length_singleton, Nat.add_assoc]

theorem append_name (before name rest : Bytes) :
    before ++ (name ++ 0 :: rest) = (before ++ (name ++ [0])) ++ rest := by
  simp only [List.append_assoc, List.singleton_append]

theorem countUser_append (before : Bytes) (hnames : ∀ name ∈ names, 0 ∉ name) (count : ℕ) :
    countUser (before ++ names.flatMap fun name => name ++ [0]) before.length count =
      some (count + names.countP fun name => decide (isUser name)) := by
  induction names generalizing before count with
  | nil =>
      rw [countUser, List.flatMap_nil, List.append_nil, if_neg (Nat.lt_irrefl _)]
      rfl
  | cons name names ih =>
      obtain ⟨hname, hnames⟩ := List.forall_mem_cons.mp hnames
      have hlt : before.length <
          (before ++ (name ++ 0 :: names.flatMap fun n => n ++ [0])).length := by
        simp only [List.length_append, List.length_cons]
        omega
      obtain ⟨hlen, htake⟩ :=
        strlenAt_append before (names.flatMap fun name => name ++ [0]) hname
      rw [countUser, List.flatMap_cons, List.append_assoc, List.singleton_append, if_pos hlt, hlen]
      dsimp only
      rw [htake, append_name, length_append_name, ih _ hnames, List.countP_cons]
      split <;> simp [*, Nat.add_assoc, Nat.add_comm]

theorem collected_eq_nil (h : names.countP (fun name => decide (isUser name)) = 0) (calls : ℕ) :
    collected getxattr names calls = [] := by
  induction names with
  | nil => rfl
  | cons name names ih =>
      rw [List.countP_cons] at h
      have hname : ¬isUser name := by
        intro hname
        rw [if_pos (decide_eq_true hname)] at h
        cases h
      rw [collected, if_neg hname, ih (Nat.eq_zero_of_add_eq_zero_right h)]

theorem Xattrs.Filled.push (h : x.Filled done i) (hi : i < x.pairs.length) (p : Xattr) :
    Filled
      { pairs := x.pairs.set i p
        nameLen := x.nameLen + p.name.length
        len := x.len + (p.name.length + p.value.length)
        count := x.count }
      (done ++ [p]) (i + 1) where
  take := by
    rw [List.take_succ_eq_append_getElem (by rwa [List.length_set]), List.getElem_set_self,
      List.take_set_of_le (Nat.le_refl i), h.take]
  length := by rw [List.length_append, h.length, List.length_singleton]
  nameLen := by rw [List.map_append, List.sum_append, ← h.nameLen, List.map_singleton,
    List.sum_singleton]
  len := by rw [List.map_append, List.sum_append, ← h.len, List.map_singleton, List.sum_singleton]

theorem Xattrs.Filled.skip (h : x.Filled done i) (p : Xattr) (count : ℕ) :
    Filled { x with pairs := x.pairs.set i p, count := count } done i where
  take := by rw [List.take_set_of_le (Nat.le_refl i), h.take]
  length := h.length
  nameLen := h.nameLen
  len := h.len

/-- The count goes down to what has been filled when no names of users are left. -/
theorem getValues_append (before : Bytes) (calls : ℕ)
    (hnames : ∀ name ∈ names, 0 ∉ name ∧ name.length < MAXXATTR) (hx : x.Filled done i)
    (hcount : x.count = i + names.countP fun name => decide (isUser name))
    (hpairs : x.count ≤ x.pairs.length) :
    ∃ x', getValues (before ++ names.flatMap fun name => name ++ [0]) getxattr x i before.length
        calls = some x' ∧
      x'.Filled (done ++ collected getxattr names calls) x'.count := by
  induction names generalizing before x done i calls with
  | nil =>
      obtain rfl : x.count = i := hcount
      refine ⟨x, ?_, ?_⟩
      · rw [getValues, if_neg (Nat.lt_irrefl _)]
      · rwa [collected, List.append_nil]
  | cons name names ih =>
      obtain ⟨⟨hname, hfits⟩, hnames⟩ := List.forall_mem_cons.mp hnames
      obtain ⟨hlen, htake⟩ :=
        strlenAt_append before (names.flatMap fun name => name ++ [0]) hname
      by_cases hi : i < x.count
      · have hstep : ∀ x' i' calls', getValues
            (before ++ (name ++ 0 :: names.flatMap fun name => name ++ [0])) getxattr x' i'
              (before.length + name.length + 1) calls' =
            getValues ((before ++ (name ++ [0])) ++ names.flatMap fun name => name ++ [0]) getxattr
              x' i' (before ++ (name ++ [0])).length calls' := by
          intro x' i' calls'
          rw [append_name, length_append_name]
        rw [List.countP_cons] at hcount
        rw [getValues, List.flatMap_cons, List.append_assoc, List.singleton_append, if_pos hi]
        split
        · rename_i hnone
          cases hlen.symm.trans hnone
        rename_i n hn
        obtain rfl := Option.some_inj.mp (hlen.symm.trans hn)
        dsimp only
        rw [htake, collected]
        by_cases huser : isUser name
        · have hcut : name.take (MAXXATTR - 1) = name := List.take_of_length_le (by omega)
          have hi' : i < x.pairs.length := hi.trans_le hpairs
          rw [if_pos (decide_eq_true huser)] at hcount
          rw [if_pos huser, if_pos huser, if_pos hi', hcut]
          cases (getxattr calls).filter fun v => v.value ≠ [] with
          | some v =>
              dsimp only
              rw [hstep, List.append_cons done]
              refine ih _ _ hnames (hx.push hi' ⟨name, v.value⟩) (show x.count = _ by omega) ?_
              rwa [List.length_set]
          | none =>
              have hless : x.count - 1 = i + names.countP fun n => decide (isUser n) := by omega
              dsimp only
              rw [hstep]
              refine ih _ _ hnames (hx.skip ⟨name, []⟩ (x.count - 1)) hless ?_
              rw [List.length_set]
              exact (Nat.sub_le ..).trans hpairs
        · rw [if_neg (mt of_decide_eq_true huser)] at hcount
          rw [if_neg huser, if_neg huser, hstep]
          exact ih _ _ hnames hx hcount hpairs
      · have hzero : (name :: names).countP (fun name => decide (isUser name)) = 0 := by omega
        refine ⟨x, ?_, ?_⟩
        · rw [getValues, if_neg hi]
        · rw [collected_eq_nil hzero, List.append_nil]
          rw [hzero, Nat.add_zero] at hcount
          rwa [hcount]

theorem NameList.length_lt (l : NameList) (hname : name ∈ l.names) : name.length < MAXXATTR := by
  have hle : (name ++ [0]).length ≤ (l.names.map fun name => name ++ [0]).flatten.length :=
    (List.sublist_flatten_of_mem (List.mem_map_of_mem (f := (· ++ [0])) hname)).length_le
  rw [List.length_append] at hle
  exact hle.trans l.fits

/-- All indices are in range, and the counters are those of the values that are there. -/
theorem xattrsGet_eq (listxattr : Option NameList) (getxattr : ℕ → Option XattrValue) :
    ∃ x, xattrsGet listxattr getxattr xattrsSetup = some x ∧
      x.Filled (listxattr.elim [] fun l => collected getxattr l.names 0) x.count := by
  cases listxattr with
  | none => exact ⟨_, rfl, rfl, rfl, rfl, rfl⟩
  | some l =>
      have hcount := countUser_append [] l.noNul 0
      have hnames := fun name hname => And.intro (l.noNul name hname) (l.length_lt hname)
      rw [List.nil_append, List.length_nil, Nat.zero_add] at hcount
      have hsetup : (xattrsAlloc { xattrsSetup with
          count := l.names.countP fun name => decide (isUser name) }).Filled [] 0 :=
        ⟨rfl, rfl, rfl, rfl⟩
      obtain ⟨x, hx, hfilled⟩ := @getValues_append getxattr _ _ _ _ [] 0 hnames hsetup
        (Nat.zero_add _).symm (List.length_replicate ..).ge
      refine ⟨x, ?_, hfilled⟩
      rw [xattrsGet, NameList.bytes, show xattrsSetup.count = 0 from rfl, hcount, Option.bind_some]
      exact hx

end Collected

section Readable

/-- A name in the namespace `user`. -/
def UserName (name : Bytes) : Prop := ∃ rest, rest ≠ [] ∧ name = [117, 115, 101, 114, 46] ++ rest

theorem isUser_iff {name : Bytes} : isUser name ↔ UserName name := by
  constructor
  · rintro ⟨hlen, htake⟩
    refine ⟨name.drop 5, ?_, ?_⟩
    · rw [ne_eq, List.drop_eq_nil_iff]
      omega
    · rw [← htake, List.take_append_drop]
  · rintro ⟨rest, hne, rfl⟩
    have hpos := List.length_pos_iff.mpr hne
    refine ⟨?_, rfl⟩
    rw [List.length_append]
    change 5 < 5 + rest.length
    omega

instance : DecidablePred UserName := fun _ => decidable_of_iff _ isUser_iff

/-- The attributes of users whose values could be read, empty ones too. The first call of `getxattr`
is the one with the given number. -/
def readable (getxattr : ℕ → Option XattrValue) (names : List Bytes) (calls : ℕ) : List Xattr :=
  ((names.filter fun name => decide (UserName name)).zipIdx calls).filterMap fun call =>
    (getxattr call.2).map fun v => ⟨call.1, v.value⟩

/-- `xattrs_get` returns them in their order, with counters that are theirs. -/
def CollectsReadable (l : NameList) (getxattr : ℕ → Option XattrValue) : Prop :=
  ∃ x, xattrsGet (some l) getxattr xattrsSetup = some x ∧
    x.Filled (readable getxattr l.names 0) x.count

variable {getxattr : ℕ → Option XattrValue}

theorem readable_cons (name : Bytes) (names : List Bytes) (calls : ℕ) :
    readable getxattr (name :: names) calls =
      if UserName name then
        ((getxattr calls).map fun v => (⟨name, v.value⟩ : Xattr)).toList ++
          readable getxattr names (calls + 1)
      else readable getxattr names calls := by
  by_cases hname : UserName name
  · rw [readable, List.filter_cons, if_pos (decide_eq_true hname), List.zipIdx_cons,
      List.filterMap_cons, if_pos hname]
    cases getxattr calls <;> rfl
  · rw [readable, List.filter_cons, if_neg (mt of_decide_eq_true hname), if_neg hname]
    rfl

/-- Empty values are left out. -/
theorem collected_eq_filter (names : List Bytes) (calls : ℕ) :
    collected getxattr names calls =
      (readable getxattr names calls).filter fun x => decide (x.value ≠ []) := by
  induction names generalizing calls with
  | nil => rfl
  | cons name names ih =>
      rw [collected, readable_cons]
      by_cases hname : isUser name
      · rw [if_pos hname, if_pos (isUser_iff.mp hname), List.filter_append, ih]
        cases getxattr calls with
        | none => rfl
        | some v => by_cases hv : v.value = [] <;> simp [Option.filter, hv]
      · rw [if_neg hname, if_neg (mt isUser_iff.mpr hname), ih]

theorem mem_readable {names : List Bytes} {x : Xattr} : x ∈ readable getxattr names 0 ↔
    ∃ i v, (names.filter fun name => decide (UserName name))[i]? = some x.name ∧
      getxattr i = some v ∧ v.value = x.value := by
  rw [readable, List.mem_filterMap]
  constructor
  · rintro ⟨⟨name, i⟩, hcall, hvalue⟩
    obtain ⟨v, hv, rfl⟩ := Option.map_eq_some_iff.mp hvalue
    exact ⟨i, v, List.mk_mem_zipIdx_iff_getElem?.mp hcall, hv, rfl⟩
  · rintro ⟨i, v, hname, hv, hvalue⟩
    refine ⟨(x.name, i), List.mk_mem_zipIdx_iff_getElem?.mpr hname, ?_⟩
    rw [hv, Option.map_some, hvalue]

theorem Xattrs.Filled.unique {x : Xattrs} {done done' : List Xattr} {i : ℕ} (h : x.Filled done i)
    (h' : x.Filled done' i) : done = done' :=
  h.take.symm.trans h'.take

/-- Exactly the readable attributes of users are returned just if none of them is empty. -/
theorem collectsReadable_iff (l : NameList) (getxattr : ℕ → Option XattrValue) :
    CollectsReadable l getxattr ↔
      ∀ i < l.names.countP fun name => decide (UserName name),
        ∀ v, getxattr i = some v → v.value ≠ [] := by
  obtain ⟨x, hx, hfilled⟩ := xattrsGet_eq (some l) getxattr
  have hreturns : CollectsReadable l getxattr ↔
      collected getxattr l.names 0 = readable getxattr l.names 0 := by
    constructor
    · rintro ⟨x', hx', hfilled'⟩
      obtain rfl := Option.some.inj (hx.symm.trans hx')
      exact hfilled.unique hfilled'
    · intro heq
      exact ⟨x, hx, heq ▸ hfilled⟩
  rw [hreturns, collected_eq_filter, List.filter_eq_self, List.countP_eq_length_filter]
  constructor
  · intro h i hi v hv
    exact of_decide_eq_true (h ⟨_, v.value⟩
      (mem_readable.mpr ⟨i, v, List.getElem?_eq_getElem hi, hv, rfl⟩))
  · intro h a ha
    obtain ⟨i, v, hname, hv, hvalue⟩ := mem_readable.mp ha
    obtain ⟨hi, -⟩ := List.getElem?_eq_some_iff.mp hname
    exact decide_eq_true (hvalue ▸ h i hi v hv)

/-- `user.a` -/
def oneName : NameList := ⟨[[117, 115, 101, 114, 46, 97]], by decide, by decide⟩

/-- The attribute is there and its value is empty, but it is not returned. -/
theorem not_collectsReadable :
    readable (fun _ => some ⟨[], Nat.zero_le _⟩) oneName.names 0 =
        [⟨[117, 115, 101, 114, 46, 97], []⟩] ∧
      ¬∀ (l : NameList) (getxattr : ℕ → Option XattrValue), CollectsReadable l getxattr := by
  have hreadable : readable (fun _ => some ⟨[], Nat.zero_le _⟩) oneName.names 0 =
      [⟨[117, 115, 101, 114, 46, 97], []⟩] := by decide
  refine ⟨hreadable, fun h => ?_⟩
  obtain ⟨x, hx, hfilled⟩ := h oneName fun _ => some ⟨[], Nat.zero_le _⟩
  obtain ⟨x', hx', hfilled'⟩ := xattrsGet_eq (some oneName) fun _ => some ⟨[], Nat.zero_le _⟩
  obtain rfl := Option.some.inj (hx.symm.trans hx')
  have hsame := hfilled.unique hfilled'
  rw [hreadable, Option.elim_some, collected_eq_filter, hreadable] at hsame
  exact absurd hsame (by decide)

end Readable

end Gufi.Descend
