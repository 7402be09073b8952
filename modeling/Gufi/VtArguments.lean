import Gufi.PosixShell
import Gufi.VtFilter

/-!
# Arguments of a virtual table

`gufi_vt` takes its command from the arguments of `CREATE VIRTUAL TABLE`. What is done afterwards
with plugins and with the types of the columns does not change it.
-/

namespace Gufi.VtFilter

open ExternalAttach Stdio

section Connect

/-- The fields of `gq_cmd_t` that a key sets. -/
inductive Scalar
  | threads | a | minLevel | maxLevel | pathList | remoteCmd | dirMatchUid | dirMatchGid
  | setupResColType | I | T | S | E | K | J | G | F | p
deriving DecidableEq

/-- The fields of `gq_cmd_t` that a key adds to. -/
inductive Listed
  | indexroots | plugins | noPrintErrno | remoteArgs
deriving DecidableEq

inductive Key
  | scalar (field : Scalar)
  | listed (field : Listed)
  | externalAttach
  | externalCopy
  | verbose
deriving DecidableEq

/-- The keys in the order in which they are compared. -/
def keys : List (String × Key) :=
  [("n", .scalar .threads), ("a", .scalar .a), ("I", .scalar .I), ("T", .scalar .T),
    ("S", .scalar .S), ("E", .scalar .E), ("K", .scalar .K), ("J", .scalar .J), ("G", .scalar .G),
    ("F", .scalar .F), ("p", .scalar .p), ("Q", .externalAttach), ("index", .listed .indexroots),
    ("plugin", .listed .plugins), ("threads", .scalar .threads), ("verbose", .verbose),
    ("VERBOSE", .verbose), ("min_level", .scalar .minLevel), ("max_level", .scalar .maxLevel),
    ("path_list", .scalar .pathList), ("remote_cmd", .scalar .remoteCmd),
    ("remote_arg", .listed .remoteArgs), ("dir_match_uid", .scalar .dirMatchUid),
    ("dir_match_gid", .scalar .dirMatchGid), ("external_copy", .externalCopy),
    ("no_print_errno", .listed .noPrintErrno), ("external_attach", .externalAttach),
    ("setup_res_col_type", .scalar .setupResColType)]

def keyOf (key : Bytes) : Option Key := (keys.find? fun k => text k.1 = key).map Prod.snd

def GqCmd.get (cmd : GqCmd) : Scalar → Str
  | .threads => cmd.threads
  | .a => cmd.a
  | .minLevel => cmd.minLevel
  | .maxLevel => cmd.maxLevel
  | .pathList => cmd.pathList
  | .remoteCmd => cmd.remoteCmd
  | .dirMatchUid => cmd.dirMatchUid
  | .dirMatchGid => cmd.dirMatchGid
  | .setupResColType => cmd.setupResColType
  | .I => cmd.I
  | .T => cmd.T
  | .S => cmd.S
  | .E => cmd.E
  | .K => cmd.K
  | .J => cmd.J
  | .G => cmd.G
  | .F => cmd.F
  | .p => cmd.p

def GqCmd.set (cmd : GqCmd) (value : Str) : Scalar → GqCmd
  | .threads => { cmd with threads := value }
  | .a => { cmd with a := value }
  | .minLevel => { cmd with minLevel := value }
  | .maxLevel => { cmd with maxLevel := value }
  | .pathList => { cmd with pathList := value }
  | .remoteCmd => { cmd with remoteCmd := value }
  | .dirMatchUid => { cmd with dirMatchUid := value, dirMatchUidSet := true }
  | .dirMatchGid => { cmd with dirMatchGid := value, dirMatchGidSet := true }
  | .setupResColType => { cmd with setupResColType := value }
  | .I => { cmd with I := value }
  | .T => { cmd with T := value }
  | .S => { cmd with S := value }
  | .E => { cmd with E := value }
  | .K => { cmd with K := value }
  | .J => { cmd with J := value }
  | .G => { cmd with G := value }
  | .F => { cmd with F := value }
  | .p => { cmd with p := value }

def GqCmd.list (cmd : GqCmd) : Listed → List Str
  | .indexroots => cmd.indexroots
  | .plugins => cmd.plugins
  | .noPrintErrno => cmd.noPrintErrno
  | .remoteArgs => cmd.remoteArgs

def GqCmd.push (cmd : GqCmd) (value : Str) : Listed → GqCmd
  | .indexroots => { cmd with indexroots := cmd.indexroots ++ [value] }
  | .plugins => { cmd with plugins := cmd.plugins ++ [value] }
  | .noPrintErrno => { cmd with noPrintErrno := cmd.noPrintErrno ++ [value] }
  | .remoteArgs => { cmd with remoteArgs := cmd.remoteArgs ++ [value] }

def SQLITE_MISUSE : ℤ := 21

def SQLITE_CONSTRAINT : ℤ := 19

/-- Why there is no command: the key is a null pointer, or the table is refused. -/
inductive Failure
  | nullKey
  | refused (rc : ℤ) (message : Bytes)

/-- `strtok_r` with `"="`: the key, and what is behind its `=`. -/
def splitKey (arg : Bytes) : Option (Bytes × Option Bytes) :=
  let arg := arg.dropWhile (· = 61)
  if arg = [] then none
  else some (arg.takeWhile (· ≠ 61), match arg.dropWhile (· ≠ 61) with
    | [] => none
    | _ :: value => some value)

/-- `parse_external_attach_args` -/
def parseExternalAttachArgs (arg : Bytes) : Option Eas :=
  match blankWords arg with
  | basename :: table :: template :: view :: _ => some ⟨basename, table, template, view⟩
  | _ => none

/-- `parse_external_copy_args` -/
def parseExternalCopyArgs (arg : Bytes) : Option Ecs :=
  let arg := arg.dropWhile (· = 32)
  if arg = [] then none
  else
    let basenamePattern := setRefstr none (some (arg.takeWhile (· ≠ 32)))
    let sql := setRefstr none (some (arg.dropWhile (· ≠ 32)).tail)
    if existing basenamePattern = none || existing sql = none then none
    else some ⟨basenamePattern, sql⟩

/-- A key with its value. -/
def takeValue (cmd : GqCmd) (key value : Bytes) : Except Failure GqCmd :=
  match keyOf key with
  | some (.scalar field) => .ok (cmd.set (setRefstr (cmd.get field) (some value)) field)
  | some (.listed field) => .ok (cmd.push (setRefstr none (some value)) field)
  | some .externalAttach =>
    match parseExternalAttachArgs value with
    | none => .error (.refused SQLITE_MISUSE (text "Bad external attach database args"))
    | some eas => .ok { cmd with externalAttach := cmd.externalAttach ++ [eas] }
  | some .externalCopy =>
    match parseExternalCopyArgs value with
    | none => .error (.refused SQLITE_MISUSE (text "Bad external copy database args"))
    | some ecs => .ok { cmd with externalCopy := cmd.externalCopy ++ [ecs] }
  | some .verbose =>
    match strtol value with
    | none => .error (.refused SQLITE_MISUSE (text "Bad verbose value: " ++ value))
    | some n => .ok { cmd with verbose := n.bmod (2 ^ 32) }
  | none =>
    if key.length = 1 then .error (.refused SQLITE_MISUSE (text "Unknown argument: " ++ key))
    else .error (.refused SQLITE_CONSTRAINT (text "Unknown key: " ++ key))

/-- One argument, which is an index root if it has no value. -/
def takeArg (cmd : GqCmd) (arg : Bytes) : Except Failure GqCmd :=
  match splitKey arg with
  | none => .error .nullKey
  | some (_, none) => .ok (cmd.push (setRefstr none (some arg)) .indexroots)
  | some (key, some value) => takeValue cmd key value

/-- `gufi_vtpu_xConnect`, up to the command that the table keeps. -/
def gufiVtpuXConnect (argv : List Bytes) : Except Failure GqCmd := do
  let cmd ← argv.foldlM takeArg { threads := setRefstr none (some (text "1")) }
  if cmd.indexroots = [] ∧ existing cmd.pathList = none then
    .error (.refused SQLITE_CONSTRAINT (text "Missing indexroot or path_list"))
  else .ok cmd

end Connect

section Strip

/-- What `set_refstr` makes of a value. -/
def strip (value : Bytes) : Str := setRefstr none (some value)

/-- A value that is not empty and has no quotes around it. -/
structure Bare (value : Bytes) : Prop where
  ne_nil : value ≠ []
  first : ∀ c ∈ value.head?, isQuote c = false
  last : ∀ c ∈ value.getLast?, isQuote c = false

variable {q : UInt8} {v u : Bytes}

theorem strip_cons (hq : isQuote q = true) (v : Bytes) : strip (q :: v) = strip v := by
  simp only [strip, setRefstr, List.dropWhile_cons_of_pos hq]

theorem strip_concat (hq : isQuote q = true) (v : Bytes) : strip (v ++ [q]) = strip v := by
  simp only [strip, setRefstr]
  rw [List.dropWhile_append]
  split
  · rename_i hnil
    rw [List.isEmpty_iff] at hnil
    simp [hnil, hq]
  · rw [List.rdropWhile_concat_pos isQuote (v.dropWhile isQuote) q hq]

/-- The quotes of a value are taken off. -/
theorem strip_quoted (hq : isQuote q = true) (v : Bytes) : strip (q :: (v ++ [q])) = strip v := by
  rw [strip_cons hq, strip_concat hq]

theorem bare_of_strip (h : strip v = some u) : Bare u := by
  simp only [strip, setRefstr] at h
  split at h
  · exact nomatch h
  · rename_i hne
    obtain rfl := Option.some.inj h
    obtain ⟨rest, hprefix⟩ := List.rdropWhile_prefix isQuote (v.dropWhile isQuote)
    refine ⟨hne, ?_, ?_⟩
    · intro c hc
      have hhead := List.head?_dropWhile_not isQuote v
      rw [← hprefix, List.head?_append, hc] at hhead
      simpa using hhead
    · intro c hc
      have hlast := List.rdropWhile_last_not isQuote (v.dropWhile isQuote) hne
      rw [List.getLast?_eq_some_getLast hne] at hc
      rw [Option.some.inj hc] at hlast
      exact Bool.eq_false_iff.mpr hlast

theorem Bare.strip_eq (h : Bare v) : strip v = some v := by
  have hfirst : v.dropWhile isQuote = v := by
    cases v with
    | nil => rfl
    | cons c v => exact List.dropWhile_cons_of_neg (by rw [h.first c rfl]; exact Bool.false_ne_true)
  have hlast : v.rdropWhile isQuote = v := by
    rw [List.rdropWhile_eq_self_iff]
    intro hne
    rw [h.last _ (List.getLast?_eq_some_getLast hne)]
    exact Bool.false_ne_true
  simp only [strip, setRefstr, hfirst, hlast, if_neg h.ne_nil]

/-- A value stays as it is exactly if it is not empty and no quotes are around it. -/
theorem strip_eq_some_iff : strip v = some v ↔ Bare v :=
  ⟨bare_of_strip, Bare.strip_eq⟩

/-- What is inside of the quotes around a word, if there are any. -/
def unquote : Bytes → Bytes
  | [] => []
  | q :: rest => if isQuote q ∧ rest.getLast? = some q then rest.dropLast else q :: rest

theorem strip_unquote (w : Bytes) : strip (unquote w) = strip w := by
  cases w with
  | nil => rfl
  | cons q rest =>
      rw [unquote]
      split
      · rename_i h
        obtain ⟨hq, hlast⟩ := h
        obtain ⟨inner, rfl⟩ := List.getLast?_eq_some_iff.mp hlast
        rw [List.dropLast_concat, strip_quoted hq]
      · rfl

theorem strip_eq_unquote_iff {w : Bytes} : strip w = some (unquote w) ↔ Bare (unquote w) := by
  rw [← strip_unquote, strip_eq_some_iff]

end Strip

section Words

variable {q : UInt8} {v w : Bytes}

/-- The words between the blanks of a value. -/
def valueWords (value : Bytes) : List Bytes := (value.splitOn 32).filter (· ≠ [])

theorem blankWords_eq (v : Bytes) : blankWords v = (valueWords v).map strip := rfl

theorem valueWords_append (v w : Bytes) :
    valueWords (v ++ 32 :: w) = valueWords v ++ valueWords w := by
  rw [valueWords, List.splitOn_append_cons_self, List.filter_append]
  rfl

theorem valueWords_of_notMem (h : 32 ∉ w) (hne : w ≠ []) : valueWords w = [w] := by
  rw [valueWords, List.splitOn_eq_singleton h]
  simp [hne]

theorem blank_of_isQuote (hq : isQuote q = true) : q ≠ 32 := by
  rintro rfl
  exact nomatch hq

theorem strip_singleton (hq : isQuote q = true) : strip [q] = none := by
  rw [strip_cons hq]
  rfl

/-- A quote in front of the words belongs to the first one, or stands alone. -/
theorem blankWords_cons (hq : isQuote q = true) (v : Bytes) (hne : v ≠ []) :
    blankWords (q :: v) = (if v.head? = some 32 then [none] else []) ++ blankWords v := by
  have hq32 : ∀ {w : Bytes}, 32 ∉ w → 32 ∉ q :: w := fun hw hmem =>
    (List.mem_cons.mp hmem).elim (fun h => blank_of_isQuote hq h.symm) hw
  by_cases hmem : 32 ∈ v
  · obtain ⟨a, b, rfl, ha⟩ := List.eq_append_cons_of_mem hmem
    rw [← List.cons_append, blankWords_eq, blankWords_eq, valueWords_append, valueWords_append,
      valueWords_of_notMem (hq32 ha) (List.cons_ne_nil q a)]
    cases a with
    | nil => simp [strip_singleton hq, valueWords]
    | cons c a =>
        have hc : c ≠ 32 := fun h => ha (h ▸ List.mem_cons_self)
        rw [valueWords_of_notMem ha (List.cons_ne_nil c a)]
        simp [strip_cons hq, hc]
  · have hhead : v.head? ≠ some 32 := fun h => hmem (List.mem_of_head? h)
    rw [blankWords_eq, blankWords_eq, valueWords_of_notMem (hq32 hmem) (List.cons_ne_nil q v),
      valueWords_of_notMem hmem hne, if_neg hhead]
    simp [strip_cons hq]

/-- A quote behind the words belongs to the last one, or stands alone. -/
theorem blankWords_concat (hq : isQuote q = true) (v : Bytes) :
    blankWords (v ++ [q]) =
      blankWords v ++ if v = [] ∨ v.getLast? = some 32 then [none] else [] := by
  have hq32 : ∀ {w : Bytes}, 32 ∉ w → 32 ∉ w ++ [q] := fun hw hmem =>
    (List.mem_append.mp hmem).elim hw fun h => blank_of_isQuote hq (List.mem_singleton.mp h).symm
  have hone : ∀ {w : Bytes}, 32 ∉ w → blankWords (w ++ [q]) =
      blankWords w ++ if w = [] then [none] else [] := by
    intro w hw
    rw [blankWords_eq, blankWords_eq,
      valueWords_of_notMem (hq32 hw) (List.append_ne_nil_of_right_ne_nil _ (List.cons_ne_nil q []))]
    by_cases hnil : w = []
    · subst hnil
      simp [strip_singleton hq, valueWords]
    · rw [valueWords_of_notMem hw hnil, if_neg hnil]
      simp [strip_concat hq]
  by_cases hmem : 32 ∈ v
  · obtain ⟨b, a, hsplit, hb⟩ := List.eq_append_cons_of_mem (List.mem_reverse.mpr hmem)
    obtain rfl : v = a.reverse ++ 32 :: b.reverse := by
      rw [← List.reverse_reverse v, hsplit]
      simp
    have hb' : 32 ∉ b.reverse := fun h => hb (List.mem_reverse.mp h)
    have hlast : (a.reverse ++ 32 :: b.reverse = [] ∨
        (a.reverse ++ 32 :: b.reverse).getLast? = some 32) ↔ b.reverse = [] := by
      cases b with
      | nil => simp
      | cons c b =>
          have hc : c ≠ 32 := fun h => hb (h ▸ List.mem_cons_self)
          simp [List.getLast?_append, List.getLast?_cons, hc]
    have hrest := hone hb'
    rw [blankWords_eq, blankWords_eq] at hrest
    simp only [hlast]
    rw [List.append_assoc, List.cons_append, blankWords_eq, blankWords_eq, valueWords_append,
      valueWords_append, List.map_append, List.map_append, hrest, List.append_assoc]
  · have hlast : v.getLast? ≠ some 32 := fun h => hmem (List.mem_of_getLast? h)
    simp only [hlast, or_false]
    exact hone hmem

/-- The words of a quoted value. A quote with a blank behind it or in front of it is a word. -/
def attachWords (value : Bytes) : List Str :=
  (if value.head? = some 32 then [none] else []) ++ blankWords value ++
    if value = [] ∨ value.getLast? = some 32 then [none] else []

theorem blankWords_quoted (hq : isQuote q = true) (v : Bytes) :
    blankWords (q :: (v ++ [q])) = attachWords v := by
  have hhead : (v ++ [q]).head? = some 32 ↔ v.head? = some 32 := by
    cases v with
    | nil => simp [blank_of_isQuote hq]
    | cons c v => rfl
  rw [blankWords_cons hq _ (List.append_ne_nil_of_right_ne_nil _ (List.cons_ne_nil q [])),
    blankWords_concat hq, attachWords, List.append_assoc]
  simp only [hhead]

end Words

section Arguments

/-- `key=value` with quotes around the value. -/
structure Arg where
  name : Bytes
  quote : UInt8
  value : Bytes
  name_ne : name ≠ []
  noEquals : 61 ∉ name
  quoted : isQuote quote = true

def Arg.text (arg : Arg) : Bytes := arg.name ++ 61 :: arg.quote :: (arg.value ++ [arg.quote])

/-- The values of a key, in order. -/
def values (args : List Arg) (key : Key) : List Bytes :=
  args.filterMap fun arg => if keyOf arg.name = some key then some arg.value else none

/-- The last value of a key, which is the one that counts. -/
def given (args : List Arg) (field : Scalar) : Option Bytes :=
  (values args (.scalar field)).getLast?

/-- The pattern and the SQL of `external_copy`. -/
def copyPattern (value : Bytes) : Bytes := value.takeWhile (· ≠ 32)

def copySql (value : Bytes) : Bytes := (value.dropWhile (· ≠ 32)).tail

variable {args : List Arg} {cmd cmd' : GqCmd} {arg : Arg} {field g : Scalar} {l l' : Listed}

theorem values_concat (args : List Arg) (arg : Arg) (key : Key) :
    values (args ++ [arg]) key =
      values args key ++ if keyOf arg.name = some key then [arg.value] else [] := by
  rw [values, List.filterMap_append, ← values]
  congr 1
  by_cases hkey : keyOf arg.name = some key <;> simp [hkey]

theorem given_concat (args : List Arg) (arg : Arg) (field : Scalar) :
    given (args ++ [arg]) field =
      if keyOf arg.name = some (.scalar field) then some arg.value else given args field := by
  rw [given, values_concat]
  split
  · exact List.getLast?_concat
  · rw [List.append_nil]
    rfl

theorem splitKey_text (arg : Arg) :
    splitKey arg.text = some (arg.name, some (arg.quote :: (arg.value ++ [arg.quote]))) := by
  obtain ⟨name, quote, value, hne, heq, hquote⟩ := arg
  have hkeep : ∀ c ∈ name, decide (c ≠ 61) = true := by
    intro c hc
    rw [decide_eq_true_iff]
    rintro rfl
    exact heq hc
  have hstart : (name ++ 61 :: quote :: (value ++ [quote])).dropWhile (· = 61) =
      name ++ 61 :: quote :: (value ++ [quote]) := by
    cases name with
    | nil => exact absurd rfl hne
    | cons c name =>
        have hc : c ≠ 61 := of_decide_eq_true (hkeep c List.mem_cons_self)
        exact List.dropWhile_cons_of_neg (by simpa using hc)
  simp only [splitKey, Arg.text, hstart]
  rw [if_neg (List.append_ne_nil_of_left_ne_nil hne _), List.takeWhile_append_of_pos hkeep,
    List.dropWhile_append_of_pos hkeep]
  simp

theorem get_set (cmd : GqCmd) (value : Str) (field g : Scalar) :
    (cmd.set value field).get g = if g = field then value else cmd.get g := by
  cases field <;> cases g <;> rfl

theorem get_push (cmd : GqCmd) (value : Str) (l : Listed) (g : Scalar) :
    (cmd.push value l).get g = cmd.get g := by
  cases l <;> cases g <;> rfl

theorem list_set (cmd : GqCmd) (value : Str) (field : Scalar) (l : Listed) :
    (cmd.set value field).list l = cmd.list l := by
  cases field <;> cases l <;> rfl

theorem list_push (cmd : GqCmd) (value : Str) (l l' : Listed) :
    (cmd.push value l).list l' = cmd.list l' ++ if l' = l then [value] else [] := by
  cases l <;> cases l' <;> simp [GqCmd.push, GqCmd.list]

def Eas.words (eas : Eas) : List Str := [eas.basename, eas.table, eas.templateTable, eas.view]

def Ecs.words (ecs : Ecs) : List Str := [ecs.basenamePattern, ecs.sql]

/-- What the command has of the arguments so far. -/
structure Taken (args : List Arg) (cmd : GqCmd) : Prop where
  scalar : ∀ f, cmd.get f =
    (given args f).elim (if f = .threads then some (text "1") else none) strip
  uidSet : cmd.dirMatchUidSet = (given args .dirMatchUid).isSome
  gidSet : cmd.dirMatchGidSet = (given args .dirMatchGid).isSome
  listed : ∀ l, cmd.list l = (values args (.listed l)).map strip
  attach : cmd.externalAttach.map Eas.words =
    (values args .externalAttach).map fun value => (attachWords value).take 4
  four : ∀ value ∈ values args .externalAttach, 4 ≤ (attachWords value).length
  copy : cmd.externalCopy.map Ecs.words =
    (values args .externalCopy).map fun value => [strip (copyPattern value), strip (copySql value)]

theorem taken_nil : Taken [] { threads := setRefstr none (some (text "1")) } where
  scalar f := by cases f <;> rfl
  uidSet := rfl
  gidSet := rfl
  listed l := by cases l <;> rfl
  attach := rfl
  four _ hvalue := nomatch hvalue
  copy := rfl

theorem parseExternalAttachArgs_quoted {q : UInt8} {v : Bytes} {eas : Eas}
    (hq : isQuote q = true) (h : parseExternalAttachArgs (q :: (v ++ [q])) = some eas) :
    eas.words = (attachWords v).take 4 ∧ 4 ≤ (attachWords v).length := by
  rw [parseExternalAttachArgs, blankWords_quoted hq] at h
  split at h
  · rename_i hwords
    obtain rfl := Option.some.inj h
    rw [hwords]
    exact ⟨rfl, by simp⟩
  · exact nomatch h

theorem parseExternalCopyArgs_quoted {q : UInt8} {v : Bytes} {ecs : Ecs}
    (hq : isQuote q = true) (h : parseExternalCopyArgs (q :: (v ++ [q])) = some ecs) :
    ecs.words = [strip (copyPattern v), strip (copySql v)] := by
  have hq32 := blank_of_isQuote hq
  have hstart : (q :: (v ++ [q])).dropWhile (· = 32) = q :: (v ++ [q]) :=
    List.dropWhile_cons_of_neg (by simpa using hq32)
  have hword : ∀ {w : Bytes}, 32 ∉ w → ∀ c ∈ w, decide (c ≠ 32) = true := by
    intro w hw c hc
    rw [decide_eq_true_iff]
    rintro rfl
    exact hw hc
  simp only [parseExternalCopyArgs, hstart] at h
  rw [if_neg (List.cons_ne_nil _ _)] at h
  split at h
  · exact nomatch h
  · rename_i hexists
    obtain rfl := Option.some.inj h
    by_cases hmem : 32 ∈ v
    · obtain ⟨a, b, rfl, ha⟩ := List.eq_append_cons_of_mem hmem
      have hqa : 32 ∉ q :: a := fun h => (List.mem_cons.mp h).elim hq32.symm ha
      have htext : q :: (a ++ 32 :: b ++ [q]) = (q :: a) ++ 32 :: (b ++ [q]) := by
        rw [List.append_assoc, List.cons_append, List.cons_append]
      have hsplit : ∀ {w rest : Bytes}, 32 ∉ w →
          (w ++ 32 :: rest).takeWhile (· ≠ 32) = w ∧
            ((w ++ 32 :: rest).dropWhile (· ≠ 32)).tail = rest := by
        intro w rest hw
        rw [List.takeWhile_append_of_pos (hword hw), List.dropWhile_append_of_pos (hword hw)]
        simp
      rw [Ecs.words, copyPattern, copySql, htext, (hsplit hqa).1, (hsplit hqa).2, (hsplit ha).1,
        (hsplit ha).2, ← strip_cons hq, ← strip_concat hq b]
      rfl
    · -- without a blank there is no SQL
      have hall : 32 ∉ q :: (v ++ [q]) := by
        intro h
        rw [List.mem_cons, List.mem_append, List.mem_singleton] at h
        rcases h with h | h | h
        · exact hq32 h.symm
        · exact hmem h
        · exact hq32 h.symm
      have hnil : (q :: (v ++ [q])).dropWhile (· ≠ 32) = [] := by
        rw [List.dropWhile_eq_nil_iff]
        exact hword hall
      refine absurd ?_ hexists
      rw [hnil, Bool.or_eq_true]
      exact Or.inr rfl

theorem values_of_ne {k : Key} (hkey : keyOf arg.name = some k) (key : Key) (hne : key ≠ k) :
    values (args ++ [arg]) key = values args key := by
  rw [values_concat, hkey, if_neg fun h => hne (Option.some.inj h).symm, List.append_nil]

theorem values_of_eq {key : Key} (hkey : keyOf arg.name = some key) :
    values (args ++ [arg]) key = values args key ++ [arg.value] := by
  rw [values_concat, if_pos hkey]

theorem given_of_ne {k : Key} (hkey : keyOf arg.name = some k) (field : Scalar)
    (hne : .scalar field ≠ k) : given (args ++ [arg]) field = given args field := by
  rw [given, values_of_ne hkey _ hne, given]

theorem dirMatchUidSet_set (cmd : GqCmd) (value : Str) (field : Scalar) :
    (cmd.set value field).dirMatchUidSet = (field == .dirMatchUid || cmd.dirMatchUidSet) := by
  cases field <;> rfl

theorem dirMatchGidSet_set (cmd : GqCmd) (value : Str) (field : Scalar) :
    (cmd.set value field).dirMatchGidSet = (field == .dirMatchGid || cmd.dirMatchGidSet) := by
  cases field <;> rfl

theorem external_set (cmd : GqCmd) (value : Str) (field : Scalar) :
    (cmd.set value field).externalAttach = cmd.externalAttach ∧
      (cmd.set value field).externalCopy = cmd.externalCopy := by
  cases field <;> exact ⟨rfl, rfl⟩

theorem Taken.set (h : Taken args cmd) (hkey : keyOf arg.name = some (.scalar field)) :
    Taken (args ++ [arg]) (cmd.set (strip arg.value) field) where
  scalar f := by
    rw [get_set, given_concat, hkey, h.scalar]
    by_cases hf : f = field
    · rw [if_pos hf, if_pos (by rw [hf])]
      rfl
    · rw [if_neg hf, if_neg fun h => hf (Key.scalar.inj (Option.some.inj h)).symm]
  uidSet := by
    rw [dirMatchUidSet_set, given_concat, hkey, h.uidSet]
    by_cases hf : field = .dirMatchUid <;> simp [hf]
  gidSet := by
    rw [dirMatchGidSet_set, given_concat, hkey, h.gidSet]
    by_cases hf : field = .dirMatchGid <;> simp [hf]
  listed l := by rw [list_set, values_of_ne hkey (.listed l) nofun, h.listed]
  attach := by rw [(external_set _ _ _).1, values_of_ne hkey .externalAttach nofun, h.attach]
  four := by
    rw [values_of_ne hkey .externalAttach nofun]
    exact h.four
  copy := by rw [(external_set _ _ _).2, values_of_ne hkey .externalCopy nofun, h.copy]

theorem Taken.push (h : Taken args cmd) (hkey : keyOf arg.name = some (.listed l)) :
    Taken (args ++ [arg]) (cmd.push (strip arg.value) l) where
  scalar f := by rw [get_push, given_of_ne hkey f nofun, h.scalar]
  uidSet := by
    rw [given_of_ne hkey .dirMatchUid nofun, ← h.uidSet]
    cases l <;> rfl
  gidSet := by
    rw [given_of_ne hkey .dirMatchGid nofun, ← h.gidSet]
    cases l <;> rfl
  listed l' := by
    rw [list_push, values_concat, hkey, h.listed, List.map_append]
    by_cases hl : l' = l
    · rw [if_pos hl, if_pos (by rw [hl])]
      rfl
    · rw [if_neg hl, if_neg fun h => hl (Key.listed.inj (Option.some.inj h)).symm]
      rfl
  attach := by
    rw [values_of_ne hkey .externalAttach nofun, ← h.attach]
    cases l <;> rfl
  four := by
    rw [values_of_ne hkey .externalAttach nofun]
    exact h.four
  copy := by
    rw [values_of_ne hkey .externalCopy nofun, ← h.copy]
    cases l <;> rfl

theorem Taken.pushAttach (h : Taken args cmd) (hkey : keyOf arg.name = some .externalAttach)
    {eas : Eas} (hwords : eas.words = (attachWords arg.value).take 4)
    (hfour : 4 ≤ (attachWords arg.value).length) :
    Taken (args ++ [arg]) { cmd with externalAttach := cmd.externalAttach ++ [eas] } where
  scalar f := by
    rw [given_of_ne hkey f nofun, ← h.scalar]
    cases f <;> rfl
  uidSet := by rw [given_of_ne hkey .dirMatchUid nofun, ← h.uidSet]
  gidSet := by rw [given_of_ne hkey .dirMatchGid nofun, ← h.gidSet]
  listed l := by
    rw [values_of_ne hkey (.listed l) nofun, ← h.listed]
    cases l <;> rfl
  attach := by
    rw [values_of_eq hkey, List.map_append, List.map_append, h.attach, List.map_singleton, hwords]
    rfl
  four := by
    rw [values_of_eq hkey, List.forall_mem_append]
    exact ⟨h.four, List.forall_mem_singleton.mpr hfour⟩
  copy := by rw [values_of_ne hkey .externalCopy nofun, ← h.copy]

theorem Taken.pushCopy (h : Taken args cmd) (hkey : keyOf arg.name = some .externalCopy)
    {ecs : Ecs} (hwords : ecs.words = [strip (copyPattern arg.value), strip (copySql arg.value)]) :
    Taken (args ++ [arg]) { cmd with externalCopy := cmd.externalCopy ++ [ecs] } where
  scalar f := by
    rw [given_of_ne hkey f nofun, ← h.scalar]
    cases f <;> rfl
  uidSet := by rw [given_of_ne hkey .dirMatchUid nofun, ← h.uidSet]
  gidSet := by rw [given_of_ne hkey .dirMatchGid nofun, ← h.gidSet]
  listed l := by
    rw [values_of_ne hkey (.listed l) nofun, ← h.listed]
    cases l <;> rfl
  attach := by rw [values_of_ne hkey .externalAttach nofun, ← h.attach]
  four := by
    rw [values_of_ne hkey .externalAttach nofun]
    exact h.four
  copy := by
    rw [values_of_eq hkey, List.map_append, List.map_append, h.copy, List.map_singleton, hwords]
    rfl

theorem strtol_quoted {q : UInt8} (hq : isQuote q = true) (v : Bytes) : strtol (q :: v) = none := by
  have hq' : q = 39 ∨ q = 34 := by
    rwa [isQuote, Bool.or_eq_true, decide_eq_true_iff, decide_eq_true_iff] at hq
  have hread : readDecimal (q :: v) = none := by
    rcases hq' with rfl | rfl <;> exact if_pos rfl
  rw [strtol, hread]
  rfl

/-- A key adds its value to what is known of the others. -/
theorem Taken.step (h : Taken args cmd) (arg : Arg) (hstep : takeArg cmd arg.text = .ok cmd') :
    Taken (args ++ [arg]) cmd' := by
  rw [takeArg, splitKey_text] at hstep
  simp only [takeValue] at hstep
  split at hstep
  · rename_i field hkey
    obtain rfl := Except.ok.inj hstep
    have hstrip : setRefstr (cmd.get field) (some (arg.quote :: (arg.value ++ [arg.quote]))) =
        strip arg.value := strip_quoted arg.quoted arg.value
    rw [hstrip]
    exact h.set hkey
  · rename_i l hkey
    obtain rfl := Except.ok.inj hstep
    have hstrip : setRefstr none (some (arg.quote :: (arg.value ++ [arg.quote]))) =
        strip arg.value := strip_quoted arg.quoted arg.value
    rw [hstrip]
    exact h.push hkey
  · rename_i hkey
    split at hstep
    · exact nomatch hstep
    · rename_i eas hparse
      obtain rfl := Except.ok.inj hstep
      obtain ⟨hwords, hfour⟩ := parseExternalAttachArgs_quoted arg.quoted hparse
      exact h.pushAttach hkey hwords hfour
  · rename_i hkey
    split at hstep
    · exact nomatch hstep
    · rename_i ecs hparse
      obtain rfl := Except.ok.inj hstep
      exact h.pushCopy hkey (parseExternalCopyArgs_quoted arg.quoted hparse)
  · -- a quoted number is refused
    split at hstep
    · exact nomatch hstep
    · rename_i n hread
      rw [strtol_quoted arg.quoted] at hread
      exact nomatch hread
  · split at hstep <;> exact nomatch hstep

theorem taken_of_foldlM (h : (args.map Arg.text).foldlM takeArg
    { threads := setRefstr none (some (text "1")) } = .ok cmd) : Taken args cmd := by
  induction args using List.reverseRecOn generalizing cmd with
  | nil =>
      obtain rfl := Except.ok.inj h
      exact taken_nil
  | append_singleton args arg ih =>
      rw [List.map_append, List.foldlM_append] at h
      cases hargs : (args.map Arg.text).foldlM takeArg
          { threads := setRefstr none (some (text "1")) } with
      | error e =>
          rw [hargs] at h
          exact nomatch h
      | ok before =>
          rw [hargs, List.map_singleton] at h
          have hstep : takeArg before arg.text = .ok cmd := by
            cases hlast : takeArg before arg.text with
            | error e => simp [bind, Except.bind, hlast] at h
            | ok after => simpa [bind, Except.bind, hlast, pure, Except.pure] using h
          exact (ih hargs).step arg hstep

theorem taken_of_connect (h : gufiVtpuXConnect (args.map Arg.text) = .ok cmd) : Taken args cmd := by
  rw [gufiVtpuXConnect] at h
  cases hargs : (args.map Arg.text).foldlM takeArg
      { threads := setRefstr none (some (text "1")) } with
  | error e =>
      rw [hargs] at h
      exact nomatch h
  | ok before =>
      rw [hargs] at h
      simp only [bind, Except.bind] at h
      split at h
      · exact nomatch h
      · exact Except.ok.inj h ▸ taken_of_foldlM hargs

end Arguments

end Gufi.VtFilter
