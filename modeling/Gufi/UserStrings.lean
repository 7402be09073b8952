import Gufi.UserTrie
import Mathlib.Data.List.TakeWhile

/-!
# User strings in the SQL of a query

`save_replacements` records each brace that is closed, also the braces inside of a placeholder it
has recorded already. `replace_sql` then copies the text between two recorded positions, with a
length that is negative if the second one is inside of the first.
-/

namespace Gufi.UserStrings

open UserTrie

section Program

def USER_STR_START : UInt8 := 123

def USER_STR_END : UInt8 := 125

/-- `usk_t`: the indexes of the braces. -/
structure Usk where
  start : ℕ
  stop : ℕ
deriving DecidableEq

/-- `save_user_str` -/
def saveUserStr (sql : Bytes) (i : ℕ) (idx : List Usk) : List Usk :=
  let j := i + 1 + ((sql.drop (i + 1)).takeWhile (· ≠ USER_STR_END)).length
  if i + 1 = j then idx
  else if j = sql.length then idx
  else idx ++ [⟨i, j⟩]

/-- `save_replacements` -/
def saveReplacements (sql : Bytes) : List Usk :=
  (List.range sql.length).foldl
    (fun idx i => if sql[i]? = some USER_STR_START then saveUserStr sql i idx else idx) []

inductive Failure
  | keyNotFound (key : Bytes)
  | negativeCopy
  | overrun
  | nullValue
deriving DecidableEq

/-- The text that was put together, the size of its buffer and the place in the original. -/
structure Replacing where
  origStart : ℕ
  replaced : Bytes
  allocd : ℕ
deriving DecidableEq

/-- `memcpy` behind what is in the buffer. -/
def append (r : Replacing) (text : Bytes) : Except Failure Replacing :=
  if r.replaced.length + text.length ≤ r.allocd then
    .ok { r with replaced := r.replaced ++ text }
  else .error .overrun

/-- The text of the original up to an index. -/
def copyUpTo (orig : Bytes) (stop : ℕ) (r : Replacing) : Except Failure Replacing :=
  if r.origStart ≤ stop then
    (append r ((orig.drop r.origStart).take (stop - r.origStart))).map fun r =>
      { r with origStart := stop }
  else .error .negativeCopy

/-- `replace_user_str` -/
def replaceUserStr (orig : Bytes) (usk : Usk) (userStrs : UserTrie.Trie Bytes) (r : Replacing) :
    Except Failure Replacing :=
  let key := (orig.drop (usk.start + 1)).take ((usk.stop - 1) - (usk.start + 1) + 1)
  match trieSearch userStrs key with
  | none => .error (.keyNotFound key)
  | some none => .error .nullValue
  | some (some val) =>
    let required := r.replaced.length + val.length + 1
    let allocd := if r.allocd ≤ required then required * 2 else r.allocd
    (append { r with allocd := allocd } val).map fun r => { r with origStart := usk.stop }

/-- The body of the loop over the recorded positions. -/
def replaceOne (orig : Bytes) (userStrs : UserTrie.Trie Bytes) (r : Replacing) (usk : Usk) :
    Except Failure Replacing :=
  let required := r.replaced.length + (usk.start - r.origStart) + 1
  let allocd := if r.allocd ≤ required then required * 2 else r.allocd
  match copyUpTo orig usk.start { r with allocd := allocd } with
  | .error e => .error e
  | .ok r =>
    match if orig[usk.start]? = some USER_STR_START then replaceUserStr orig usk userStrs r
        else .ok r with
    | .error e => .error e
    | .ok r => .ok { r with origStart := r.origStart + 1 }

/-- What is done behind the loop. -/
def finish (orig : Bytes) (r : Replacing) : Except Failure Bytes :=
  let required := r.replaced.length + (orig.length - r.origStart) + 1
  let allocd := if r.allocd < required then required else r.allocd
  match copyUpTo orig orig.length { r with allocd := allocd } with
  | .error e => .error e
  | .ok r => if r.replaced.length < r.allocd then .ok r.replaced else .error .overrun

/-- `replace_sql` -/
def replaceSql (orig : Bytes) (idx : List Usk) (userStrs : UserTrie.Trie Bytes) :
    Except Failure Bytes :=
  if idx = [] then .ok orig
  else
    match idx.foldlM (replaceOne orig userStrs) ⟨0, [], 0⟩ with
    | .error e => .error e
    | .ok r => finish orig r

/-- The user strings that were inserted one after the other. -/
def insertAll (strs : List (Bytes × Bytes)) : UserTrie.Trie Bytes :=
  strs.foldl (fun t s => trieInsert t s.1 (some s.2) true) trieAlloc

end Program

section Pieces

/-- A byte that stays as it is, or a placeholder with its key. -/
inductive Piece
  | byte (c : UInt8)
  | placeholder (key : Bytes)

/-- The key of the placeholder that begins with a brace in front of this text. -/
def keyOf (rest : Bytes) : Option Bytes :=
  let key := rest.takeWhile (· ≠ USER_STR_END)
  if key ≠ [] ∧ key.length < rest.length then some key else none

/-- The placeholders of a text from left to right, and what is between them. -/
def pieces : Bytes → List Piece
  | [] => []
  | c :: rest =>
    if c = USER_STR_START then
      match keyOf rest with
      | some key => .placeholder key :: pieces (rest.drop (key.length + 1))
      | none => .byte c :: pieces rest
    else .byte c :: pieces rest
termination_by sql => sql.length
decreasing_by all_goals simp; try omega

def Piece.key? : Piece → Option Bytes
  | .byte _ => none
  | .placeholder key => some key

def placeholders (sql : Bytes) : List Bytes := (pieces sql).filterMap Piece.key?

def Piece.text (m : Bytes → Option Bytes) : Piece → Bytes
  | .byte c => [c]
  | .placeholder key => (m key).getD []

/-- The value of the last user string with this key. -/
def valueOf (strs : List (Bytes × Bytes)) (key : Bytes) : Option Bytes :=
  (strs.reverse.find? fun s => s.1 = key).map Prod.snd

/-- The result is the text with its placeholders replaced, or a key is not found. -/
structure Substitutes (m : Bytes → Option Bytes) (sql : Bytes) (result : Except Failure Bytes) :
    Prop where
  replaced : (∀ key ∈ placeholders sql, (m key).isSome) →
    result = .ok ((pieces sql).flatMap (Piece.text m))
  error : (∃ key ∈ placeholders sql, m key = none) → ∃ key, result = .error (.keyNotFound key)

/-- A key with a brace that is not its last byte. -/
def Nested (key : Bytes) : Prop := USER_STR_START ∈ key.dropLast

instance (key : Bytes) : Decidable (Nested key) := inferInstanceAs (Decidable (_ ∈ _))

/-- The placeholders one after the other, as `replace_sql` takes them. -/
def outcome (m : Bytes → Option Bytes) : List Piece → Bytes → Except Failure Bytes
  | [], done => .ok done
  | .byte c :: rest, done => outcome m rest (done ++ [c])
  | .placeholder key :: rest, done =>
    match m key with
    | none => .error (.keyNotFound key)
    | some val => if Nested key then .error .negativeCopy else outcome m rest (done ++ val)

end Pieces

section Recorded

/-- The positions that are recorded in the rest of a text, whose first index is `i`. -/
def recorded : ℕ → Bytes → List Usk
  | _, [] => []
  | i, c :: rest =>
    if c = USER_STR_START then
      match keyOf rest with
      | some key => ⟨i, i + 1 + key.length⟩ :: recorded (i + 1) rest
      | none => recorded (i + 1) rest
    else recorded (i + 1) rest

variable {sql rest key : Bytes} {i : ℕ}

theorem saveUserStr_eq (before : Bytes) (c : UInt8) (rest : Bytes) (idx : List Usk) :
    saveUserStr (before ++ c :: rest) before.length idx =
      match keyOf rest with
      | some key => idx ++ [⟨before.length, before.length + 1 + key.length⟩]
      | none => idx := by
  have hdrop : (before ++ c :: rest).drop (before.length + 1) = rest := by simp
  have hle : (rest.takeWhile (· ≠ USER_STR_END)).length ≤ rest.length :=
    (List.takeWhile_prefix _).length_le
  simp only [saveUserStr, keyOf, hdrop]
  generalize rest.takeWhile (· ≠ USER_STR_END) = key at hle
  by_cases hnil : key = []
  · simp [hnil]
  · have hpos : 0 < key.length := List.length_pos_iff.mpr hnil
    have hlen : (before ++ c :: rest).length = before.length + 1 + rest.length := by
      simp only [List.length_append, List.length_cons]
      omega
    rw [if_neg (by omega), hlen]
    by_cases hend : key.length = rest.length
    · rw [if_pos (by omega), if_neg fun h => h.2.ne hend]
    · rw [if_neg (by omega), if_pos ⟨hnil, by omega⟩]

theorem saveReplacements_eq (sql : Bytes) : saveReplacements sql = recorded 0 sql := by
  have hgen : ∀ (rest before : Bytes) (idx : List Usk), before ++ rest = sql →
      (List.range' before.length rest.length).foldl
        (fun idx i => if sql[i]? = some USER_STR_START then saveUserStr sql i idx else idx) idx =
      idx ++ recorded before.length rest := by
    intro rest
    induction rest with
    | nil => simp [recorded]
    | cons c rest ih =>
        intro before idx hsql
        have hnext := fun idx => ih (before ++ [c]) idx (by rw [← hsql]; simp)
        simp only [List.length_append, List.length_singleton] at hnext
        have hget : sql[before.length]? = some USER_STR_START ↔ c = USER_STR_START := by
          rw [← hsql]
          simp
        rw [List.length_cons, List.range'_succ, List.foldl_cons, hnext, recorded]
        by_cases hc : c = USER_STR_START
        · rw [if_pos (hget.mpr hc), if_pos hc, ← hsql, saveUserStr_eq]
          cases keyOf rest with
          | none => rfl
          | some key => simp
        · rw [if_neg (mt hget.mp hc), if_neg hc]
  rw [saveReplacements, List.range_eq_range']
  exact hgen sql [] [] rfl

theorem keyOf_eq_some (h : keyOf rest = some key) :
    key ≠ [] ∧ USER_STR_END ∉ key ∧ ∃ after, rest = key ++ USER_STR_END :: after := by
  simp only [keyOf] at h
  split at h
  · rename_i hkey
    obtain rfl := Option.some.inj h
    refine ⟨hkey.1, ?_, ?_⟩
    · intro hmem
      simpa using List.mem_takeWhile_imp hmem
    · have hsplit := List.takeWhile_append_dropWhile (p := (· ≠ USER_STR_END)) (l := rest)
      cases hdrop : rest.dropWhile (· ≠ USER_STR_END) with
      | nil =>
          rw [hdrop, List.append_nil] at hsplit
          rw [hsplit] at hkey
          exact absurd hkey.2 (lt_irrefl _)
      | cons c after =>
          have hc : c = USER_STR_END := by
            have hhead := List.head?_dropWhile_not (p := (· ≠ USER_STR_END)) (l := rest)
            rw [hdrop] at hhead
            simpa using hhead
          rw [hdrop, hc] at hsplit
          exact ⟨after, hsplit.symm⟩
  · cases h

theorem keyOf_append (hkey : USER_STR_END ∉ key) (after : Bytes) :
    keyOf (key ++ USER_STR_END :: after) = if key = [] then none else some key := by
  have htake : (key ++ USER_STR_END :: after).takeWhile (· ≠ USER_STR_END) = key := by
    rw [List.takeWhile_append_of_pos]
    · simp
    · intro c hc
      simpa using fun h : c = USER_STR_END => hkey (h ▸ hc)
  have hlt : key.length < (key ++ USER_STR_END :: after).length := by simp
  simp only [keyOf, htake]
  by_cases hnil : key = []
  · rw [if_pos hnil, if_neg fun h => h.1 hnil]
  · rw [if_neg hnil, if_pos ⟨hnil, hlt⟩]

/-- Inside of a key, no position is recorded, or else the first one is in front of its end. -/
theorem recorded_key (hkey : USER_STR_END ∉ key) (after : Bytes) (i : ℕ) :
    (¬Nested key → recorded i (key ++ USER_STR_END :: after) =
      recorded (i + key.length + 1) after) ∧
    (Nested key → ∃ usk behind, recorded i (key ++ USER_STR_END :: after) = usk :: behind ∧
      usk.start < i + key.length) := by
  induction key generalizing i with
  | nil =>
      refine ⟨fun _ => ?_, fun h => nomatch h⟩
      rw [List.nil_append, recorded, if_neg (by decide)]
      rfl
  | cons c key ih =>
      have hrest : USER_STR_END ∉ key := fun h => hkey (List.mem_cons_of_mem c h)
      obtain ⟨hplain, hnested⟩ := ih hrest (i + 1)
      rw [List.cons_append, recorded, keyOf_append hrest, List.length_cons]
      have hadd : i + 1 + key.length = i + (key.length + 1) := by omega
      rw [hadd] at hplain hnested
      cases key with
      | nil =>
          refine ⟨fun _ => ?_, fun h => nomatch h⟩
          rw [if_pos rfl]
          simp only [ite_self]
          exact hplain fun h => nomatch h
      | cons d key =>
          have hcons : Nested (c :: d :: key) ↔ c = USER_STR_START ∨ Nested (d :: key) := by
            rw [Nested, List.dropLast_cons_cons, List.mem_cons, Nested, eq_comm]
          rw [hcons, if_neg (List.cons_ne_nil d key)]
          by_cases hc : c = USER_STR_START
          · rw [if_pos hc]
            exact ⟨fun h => absurd (Or.inl hc) h, fun _ => ⟨_, _, rfl, by simp⟩⟩
          · rw [if_neg hc, or_iff_right hc]
            exact ⟨hplain, hnested⟩

end Recorded

section Replacing

variable {m : Bytes → Option Bytes} {userStrs : UserTrie.Trie Bytes} {orig rest text key : Bytes}
  {r : Replacing}

theorem copyUpTo_pending (hdrop : orig.drop r.origStart = text ++ rest)
    (hroom : r.replaced.length + text.length ≤ r.allocd) :
    copyUpTo orig (r.origStart + text.length) r =
      .ok { r with replaced := r.replaced ++ text, origStart := r.origStart + text.length } := by
  have htext : (orig.drop r.origStart).take (r.origStart + text.length - r.origStart) = text := by
    rw [hdrop, Nat.add_sub_cancel_left, List.take_left]
  rw [copyUpTo, if_pos (Nat.le_add_right _ _), htext, append, if_pos hroom]
  rfl

/-- The text that is not copied yet goes to the end. -/
theorem finish_pending (hdrop : orig.drop r.origStart = text)
    (hlen : r.origStart + text.length = orig.length) :
    finish orig r = .ok (r.replaced ++ text) := by
  rw [finish]
  generalize hsize : (if r.allocd < _ then _ else _) = size
  have hroom : r.replaced.length + text.length < size := by
    rw [← hsize]
    split <;> omega
  have hcopy := @copyUpTo_pending orig [] text { r with allocd := size } (by simpa using hdrop)
    hroom.le
  simp only [hlen] at hcopy
  simp only [hcopy, List.length_append]
  rw [if_pos hroom]

theorem replaceUserStr_eq {usk : Usk} {val : Bytes}
    (hslice : (orig.drop (usk.start + 1)).take ((usk.stop - 1) - (usk.start + 1) + 1) = key)
    (hval : trieSearch userStrs key = some (some val)) :
    ∃ allocd, replaceUserStr orig usk userStrs r = .ok ⟨usk.stop, r.replaced ++ val, allocd⟩ := by
  refine ⟨if r.allocd ≤ r.replaced.length + val.length + 1 then
    (r.replaced.length + val.length + 1) * 2 else r.allocd, ?_⟩
  simp only [replaceUserStr, hslice, hval]
  rw [append, if_pos]
  · rfl
  · simp only
    split <;> omega

/-- A placeholder behind text that is not copied yet. -/
theorem replaceOne_placeholder (hstrs : ∀ key, trieSearch userStrs key = (m key).map some)
    (hdrop : orig.drop r.origStart = text ++ USER_STR_START :: (key ++ rest)) (hkey : key ≠ []) :
    ∃ allocd, replaceOne orig userStrs r
        ⟨r.origStart + text.length, r.origStart + text.length + 1 + key.length⟩ =
      match m key with
      | none => .error (.keyNotFound key)
      | some val =>
        .ok ⟨r.origStart + text.length + 1 + key.length + 1, r.replaced ++ text ++ val,
          allocd⟩ := by
  have hpos : 0 < key.length := List.length_pos_iff.mpr hkey
  have hbehind : orig.drop (r.origStart + text.length) = USER_STR_START :: (key ++ rest) := by
    rw [← List.drop_drop, hdrop, List.drop_left]
  have hget : orig[r.origStart + text.length]? = some USER_STR_START := by
    rw [← List.head?_drop, hbehind, List.head?_cons]
  have hslice : (orig.drop (r.origStart + text.length + 1)).take
      ((r.origStart + text.length + 1 + key.length - 1) - (r.origStart + text.length + 1) + 1) =
      key := by
    have hlen : (r.origStart + text.length + 1 + key.length - 1) -
        (r.origStart + text.length + 1) + 1 = key.length := by omega
    rw [hlen, ← List.drop_drop, hbehind, List.drop_one, List.tail_cons, List.take_left]
  have hfound := hstrs key
  rw [replaceOne]
  generalize hsize : (if r.allocd ≤ _ then _ else _) = size
  have hroom : r.replaced.length + text.length ≤ size := by
    rw [← hsize]
    simp only [Nat.add_sub_cancel_left]
    split <;> omega
  have hcopy := @copyUpTo_pending orig _ text { r with allocd := size } hdrop hroom
  simp only at hcopy
  simp only [hcopy, hget, if_true]
  cases hm : m key with
  | none =>
      rw [hm] at hfound
      refine ⟨0, ?_⟩
      simp only [replaceUserStr, hslice, hfound, Option.map_none]
  | some val =>
      rw [hm] at hfound
      obtain ⟨allocd, hval⟩ : ∃ allocd, replaceUserStr orig ⟨r.origStart + text.length,
          r.origStart + text.length + 1 + key.length⟩ userStrs
            ⟨r.origStart + text.length, r.replaced ++ text, size⟩ = _ :=
        replaceUserStr_eq hslice hfound
      refine ⟨allocd, ?_⟩
      simp only [hval]

/-- A position inside of what was replaced already. -/
theorem replaceOne_negative {usk : Usk} (h : usk.start < r.origStart) :
    replaceOne orig userStrs r usk = .error .negativeCopy := by
  rw [replaceOne]
  simp only [copyUpTo, if_neg (Nat.not_le.mpr h)]

/-- What `replace_sql` does with the positions from there on. -/
def runFrom (orig : Bytes) (userStrs : UserTrie.Trie Bytes) (idx : List Usk) (r : Replacing) :
    Except Failure Bytes :=
  idx.foldlM (replaceOne orig userStrs) r >>= finish orig

theorem runFrom_cons_error {usk : Usk} {idx : List Usk} {e : Failure}
    (h : replaceOne orig userStrs r usk = .error e) :
    runFrom orig userStrs (usk :: idx) r = .error e := by
  rw [runFrom, List.foldlM_cons, h]
  rfl

theorem runFrom_cons_ok {usk : Usk} {idx : List Usk} {r' : Replacing}
    (h : replaceOne orig userStrs r usk = .ok r') :
    runFrom orig userStrs (usk :: idx) r = runFrom orig userStrs idx r' := by
  rw [runFrom, List.foldlM_cons, h]
  rfl

/-- A byte that is not the begin of a placeholder is copied later. -/
theorem runFrom_byte {c : UInt8}
    (ih : ∀ {text : Bytes} {r : Replacing}, orig.drop r.origStart = text ++ rest →
      r.origStart + text.length + rest.length = orig.length →
      runFrom orig userStrs (recorded (r.origStart + text.length) rest) r =
        outcome m (pieces rest) (r.replaced ++ text))
    (hdrop : orig.drop r.origStart = text ++ c :: rest)
    (hlen : r.origStart + text.length + (c :: rest).length = orig.length) :
    runFrom orig userStrs (recorded (r.origStart + text.length + 1) rest) r =
      outcome m (.byte c :: pieces rest) (r.replaced ++ text) := by
  have hnext := @ih (text ++ [c]) r (by simpa using hdrop)
    (by simp only [List.length_append, List.length_cons, List.length_nil] at hlen ⊢; omega)
  rw [List.length_append, List.length_singleton, ← Nat.add_assoc] at hnext
  rw [hnext, outcome, List.append_assoc]

theorem runFrom_eq (hstrs : ∀ key, trieSearch userStrs key = (m key).map some) (rest : Bytes)
    {text : Bytes} {r : Replacing} (hdrop : orig.drop r.origStart = text ++ rest)
    (hlen : r.origStart + text.length + rest.length = orig.length) :
    runFrom orig userStrs (recorded (r.origStart + text.length) rest) r =
      outcome m (pieces rest) (r.replaced ++ text) := by
  induction rest using pieces.induct generalizing text r with
  | case1 =>
      rw [List.append_nil] at hdrop
      rw [pieces, outcome]
      exact finish_pending hdrop hlen
  | case2 rest key hkey ih =>
      obtain ⟨hne, hend, after, rfl⟩ := keyOf_eq_some hkey
      have hafter : (key ++ USER_STR_END :: after).drop (key.length + 1) = after := by simp
      rw [hafter] at ih
      obtain ⟨allocd, hone⟩ := replaceOne_placeholder hstrs hdrop hne
      have hbehind : orig.drop (r.origStart + text.length + 1 + key.length + 1) = after := by
        have hsplit : orig.drop r.origStart =
            (text ++ USER_STR_START :: key ++ [USER_STR_END]) ++ after := by
          rw [hdrop]
          simp
        have hlength : (text ++ USER_STR_START :: key ++ [USER_STR_END]).length =
            text.length + 1 + key.length + 1 := by
          simp only [List.length_append, List.length_cons, List.length_nil]
          omega
        have hindex : r.origStart + text.length + 1 + key.length + 1 = r.origStart +
            (text ++ USER_STR_START :: key ++ [USER_STR_END]).length := by
          omega
        rw [hindex, ← List.drop_drop, hsplit, List.drop_left]
      obtain ⟨hplain, hnested⟩ := recorded_key hend after (r.origStart + text.length + 1)
      rw [recorded, if_pos rfl, hkey, pieces, if_pos rfl, hkey]
      simp only [hafter, outcome]
      cases hm : m key with
      | none =>
          rw [hm] at hone
          exact runFrom_cons_error hone
      | some val =>
          rw [hm] at hone
          simp only
          rw [runFrom_cons_ok hone]
          by_cases hin : Nested key
          · obtain ⟨usk, behind, hrec, hlt⟩ := hnested hin
            rw [if_pos hin, hrec]
            exact runFrom_cons_error (replaceOne_negative (by simp only; omega))
          · rw [if_neg hin, hplain hin]
            have hnext := @ih [] ⟨r.origStart + text.length + 1 + key.length + 1,
              r.replaced ++ text ++ val, allocd⟩ hbehind (by
                simp only [List.length_append, List.length_cons, List.length_nil] at hlen ⊢
                omega)
            simpa using hnext
  | case3 rest hkey ih =>
      rw [recorded, if_pos rfl, hkey, pieces, if_pos rfl, hkey]
      exact runFrom_byte ih hdrop hlen
  | case4 c rest hc ih =>
      rw [recorded, if_neg hc, pieces, if_neg hc]
      exact runFrom_byte ih hdrop hlen

theorem replaceSql_eq (hstrs : ∀ key, trieSearch userStrs key = (m key).map some) (sql : Bytes) :
    replaceSql sql (saveReplacements sql) userStrs = outcome m (pieces sql) [] := by
  have hrun : runFrom sql userStrs (recorded (0 + [].length) sql) ⟨0, [], 0⟩ = _ :=
    runFrom_eq hstrs sql rfl (by simp)
  simp only [List.length_nil, Nat.add_zero, List.append_nil] at hrun
  rw [saveReplacements_eq, ← hrun, replaceSql]
  split
  · rename_i hnil
    rw [hnil]
    exact (finish_pending (r := ⟨0, [], 0⟩) List.drop_zero (Nat.zero_add _)).symm
  · rw [runFrom]
    cases (recorded 0 sql).foldlM (replaceOne sql userStrs) ⟨0, [], 0⟩ <;> rfl

end Replacing

section Substitution

variable {m : Bytes → Option Bytes}

/-- Taking the placeholders in order is replacing them, unless one with a brace in its key is met
before one that is not in the map. -/
theorem outcome_iff (ps : List Piece) (done : Bytes) :
    (((∀ key ∈ ps.filterMap Piece.key?, (m key).isSome) →
        outcome m ps done = .ok (done ++ ps.flatMap (Piece.text m))) ∧
      ((∃ key ∈ ps.filterMap Piece.key?, m key = none) →
        ∃ key, outcome m ps done = .error (.keyNotFound key))) ↔
    ∀ key, (ps.filterMap Piece.key?).find? (fun key => (m key).isNone || Nested key) = some key →
      m key = none := by
  induction ps generalizing done with
  | nil => simp [outcome]
  | cons p ps ih =>
      cases p with
      | byte c =>
          have := ih (done ++ [c])
          simpa [outcome, Piece.key?, Piece.text] using this
      | placeholder key =>
          have hkeys : (Piece.placeholder key :: ps).filterMap Piece.key? =
              key :: ps.filterMap Piece.key? := rfl
          rw [hkeys, List.find?_cons]
          simp only [outcome, List.forall_mem_cons, List.flatMap_cons, Piece.text]
          cases hm : m key with
          | none => simp [hm]
          | some val =>
              by_cases hin : Nested key
              · simp [hin, hm]
              · have := ih (done ++ val)
                simpa [hin, hm] using this

theorem trieSearch_insertAll (strs : List (Bytes × Bytes)) (key : Bytes) :
    trieSearch (insertAll strs) key = (valueOf strs key).map some := by
  induction strs using List.reverseRecOn with
  | nil => exact trieSearch_alloc key
  | append_singleton strs s ih =>
      rw [insertAll, List.foldl_concat, ← insertAll, trieSearch_insert, valueOf,
        List.reverse_concat, List.find?_cons]
      by_cases hs : s.1 = key
      · rw [← hs, Function.update_self]
        simp
      · rw [Function.update_of_ne (Ne.symm hs), ih]
        simp [hs, valueOf]

/-- The placeholders are replaced exactly if, of those with a key that is missing or has a brace in
it, the first one is missing. -/
theorem substitutes_iff (strs : List (Bytes × Bytes)) (sql : Bytes) :
    Substitutes (valueOf strs) sql (replaceSql sql (saveReplacements sql) (insertAll strs)) ↔
      ∀ key, (placeholders sql).find? (fun key => (valueOf strs key).isNone || Nested key) =
        some key → valueOf strs key = none := by
  rw [replaceSql_eq (trieSearch_insertAll strs), placeholders, ← outcome_iff (pieces sql) []]
  exact ⟨fun h => ⟨h.replaced, h.error⟩, fun h => ⟨h.1, h.2⟩⟩

/-- The placeholder `{a{b}` of a key that is in the map. -/
theorem not_substitutes : ¬Substitutes (valueOf [([97, 123, 98], [120])]) [123, 97, 123, 98, 125]
    (replaceSql [123, 97, 123, 98, 125] (saveReplacements [123, 97, 123, 98, 125])
      (insertAll [([97, 123, 98], [120])])) := by
  have hrun : replaceSql [123, 97, 123, 98, 125] (saveReplacements [123, 97, 123, 98, 125])
      (insertAll [([97, 123, 98], [120])]) = .error .negativeCopy := by decide
  rw [hrun]
  intro h
  by_cases hall : ∀ key ∈ placeholders [123, 97, 123, 98, 125],
      (valueOf [([97, 123, 98], [120])] key).isSome
  · cases h.replaced hall
  · push Not at hall
    obtain ⟨key, hkey, hnone⟩ := hall
    obtain ⟨_, herr⟩ := h.error ⟨key, hkey, by simpa using hnone⟩
    cases herr

end Substitution

end Gufi.UserStrings
