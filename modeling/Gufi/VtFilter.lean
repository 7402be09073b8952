import Gufi.ExternalAttach

/-!
# Filtering a virtual table

A `gufi_vt` table keeps one command, and every `xFilter` call writes its arguments into it before
`gufi_query` is started with it. A `NULL` leaves what is there, and index roots and arguments of the
remote command are appended. A text that was written into the command stays as it is, although
SQLite may have freed it. What `verbose` prints is left out.
-/

namespace Gufi.VtFilter

open ExternalAttach Stdio

section Command

/-- A `char *`, or a `str_t` without its length. -/
abbrev Str := Option Bytes

/-- `eas_t`. -/
structure Eas where
  basename : Str
  table : Str
  templateTable : Str
  view : Str

/-- `ecs_t`. -/
structure Ecs where
  basenamePattern : Str
  sql : Str

/-- `gq_cmd_t`, as `gq_cmd_init` sets it up. -/
structure GqCmd where
  remoteCmd : Str := none
  remoteArgs : List Str := []
  verbose : ℤ := 0
  threads : Str := none
  a : Str := none
  minLevel : Str := none
  maxLevel : Str := none
  dirMatchUid : Str := none
  dirMatchUidSet : Bool := false
  dirMatchGid : Str := none
  dirMatchGidSet : Bool := false
  setupResColType : Str := none
  I : Str := none
  T : Str := none
  S : Str := none
  E : Str := none
  K : Str := none
  J : Str := none
  G : Str := none
  F : Str := none
  pathList : Str := none
  p : Str := none
  plugins : List Str := []
  noPrintErrno : List Str := []
  externalAttach : List Eas := []
  externalCopy : List Ecs := []
  indexroots : List Str := []

/-- The text, where `str_exists`. -/
def existing (s : Str) : Str := s.filter (· ≠ [])

/-- The flags before `--dir-match-uid`. -/
def levelFlags (cmd : GqCmd) : List (String × Str) :=
  [("-a", cmd.a), ("--min-level", cmd.minLevel), ("--max-level", cmd.maxLevel),
    ("--path-list", cmd.pathList)]

/-- The flags behind `--dir-match-gid`. -/
def sqlFlags (cmd : GqCmd) : List (String × Str) :=
  [("--setup-res-col-type", cmd.setupResColType), ("-I", cmd.I), ("-T", cmd.T), ("-S", cmd.S),
    ("-E", cmd.E), ("-K", cmd.K), ("-J", cmd.J), ("-G", cmd.G), ("-F", cmd.F), ("-p", cmd.p)]

/-- `--dir-match-uid` or `--dir-match-gid`, which may stand without an id. -/
def dirMatch (flag : String) (id : Str) (set : Bool) : Str :=
  match existing id with
  | some id => some (text flag ++ text "=" ++ id)
  | none => if set then some (text flag) else none

/-- `%s`. -/
def printed (s : Str) : Bytes := s.getD (text "(null)")

/-- `flatten_argv`. -/
def flattenArgv (flag : String) (refstr : Str) : Bytes :=
  (existing refstr).elim [] fun data => text flag ++ text " \"" ++ data ++ text "\" "

/-- A flag with arguments in single quotes. -/
def flattenQuoted (flag : String) (args : List Str) : Bytes :=
  text flag ++ args.flatMap (fun arg => text " '" ++ printed arg ++ text "'") ++ text " "

/-- `flat`: the command in one argument. -/
def flat (cmd : GqCmd) : Bytes :=
  text "gufi_query " ++ text "--print-tlv " ++ text "-x " ++
    (existing cmd.threads).elim [] (fun threads => text "--threads " ++ threads ++ text " ") ++
    (levelFlags cmd).flatMap (fun flag => flattenArgv flag.1 flag.2) ++
    (dirMatch "--dir-match-uid" cmd.dirMatchUid cmd.dirMatchUidSet).elim [] (· ++ text " ") ++
    (dirMatch "--dir-match-gid" cmd.dirMatchGid cmd.dirMatchGidSet).elim [] (· ++ text " ") ++
    (sqlFlags cmd).flatMap (fun flag => flattenArgv flag.1 flag.2) ++
    cmd.plugins.flatMap (fun plugin => flattenQuoted "--plugin" [plugin]) ++
    cmd.noPrintErrno.flatMap (fun err => flattenQuoted "--no-print-errno" [err]) ++
    cmd.externalAttach.flatMap (fun eas => flattenQuoted "--external-attach"
      [eas.basename, eas.table, eas.templateTable, eas.view]) ++
    cmd.externalCopy.flatMap (fun ecs => flattenQuoted "--external-copy"
      [ecs.basenamePattern, ecs.sql]) ++
    cmd.indexroots.flatMap fun indexroot => printed indexroot ++ text " "

/-- `set_argv`. -/
def setArgv (flag : String) (refstr : Str) : List Str :=
  (existing refstr).elim [] fun data => [some (text flag), some data]

/-- The command in separate arguments. -/
def separate (cmd : GqCmd) : List Str :=
  [some (text "gufi_query"), some (text "--print-tlv"), some (text "-x")] ++
    setArgv "--threads" cmd.threads ++
    (levelFlags cmd).flatMap (fun flag => setArgv flag.1 flag.2) ++
    (dirMatch "--dir-match-uid" cmd.dirMatchUid cmd.dirMatchUidSet).toList.map some ++
    (dirMatch "--dir-match-gid" cmd.dirMatchGid cmd.dirMatchGidSet).toList.map some ++
    (sqlFlags cmd).flatMap (fun flag => setArgv flag.1 flag.2) ++
    cmd.plugins.flatMap (fun plugin => [some (text "--plugin"), plugin]) ++
    cmd.noPrintErrno.flatMap (fun err => [some (text "--no-print-errno"), err]) ++
    cmd.externalAttach.flatMap (fun eas => [some (text "--external-attach"), eas.basename,
      eas.table, eas.templateTable, eas.view]) ++
    cmd.externalCopy.flatMap (fun ecs => [some (text "--external-copy"), ecs.basenamePattern,
      ecs.sql]) ++
    cmd.indexroots

/-- What `execvp` takes of an `argv`, which is the arguments before the first null pointer. -/
def execArgs : List Str → List Bytes
  | some arg :: argv => arg :: execArgs argv
  | _ => []

/-- `gufi_query`, up to the `argv` that is started. -/
def gufiQuery (cmd : GqCmd) : List Bytes :=
  execArgs (match existing cmd.remoteCmd with
    | some remote => some remote :: cmd.remoteArgs ++ [some (flat cmd)]
    | none => separate cmd)

end Command

section Filter

/-- `gufi_vtab`. -/
structure GufiVtab where
  cmd : GqCmd
  fixedSchema : Bool

def isQuote (c : UInt8) : Bool := c = 39 || c = 34

/-- `set_refstr`, with what `refstr` was. -/
def setRefstr (refstr : Str) : Str → Str
  | none => refstr
  | some value =>
    let data := (value.dropWhile isQuote).rdropWhile isQuote
    if data = [] then none else some data

/-- `gufi_vt_xConnect`, for the tables with a fixed schema. -/
def gufiVtXConnect (name : String) (t s e vr : Bool) : GufiVtab :=
  let selectFrom := text "SELECT path(), epath(), fpath(), path(), level(), * FROM " ++
    text name ++ text ";"
  let selectFromVr := text "SELECT path(), epath(), fpath(), rpath(sname, sroll), level(), * FROM "
    ++ text name ++ text ";"
  { cmd := {
      T := setRefstr none (if t then some selectFrom else none)
      S := setRefstr none (if s then some (if vr then selectFromVr else selectFrom) else none)
      E := setRefstr none (if e then some (if vr then selectFromVr else selectFrom) else none) }
    fixedSchema := true }

/-- `argv[i]`. What is not passed is treated like a `NULL`. -/
def argument (args : List Str) (i : ℕ) : Str := (args[i]?).join

/-- The words between blanks, as `strtok_r` and `set_refstr` give them. -/
def blankWords (value : Bytes) : List Str :=
  ((value.splitOn 32).filter (· ≠ [])).map fun word => setRefstr none (some word)

/-- The index roots that a call names. -/
def rootsOf (args : List Str) : List Str := (argument args 0).elim [] blankWords

/-- The command after the arguments before `verbose`. -/
def takeWalk (cmd : GqCmd) (args : List Str) : GqCmd :=
  { cmd with
    indexroots := cmd.indexroots ++ rootsOf args
    threads := setRefstr (setRefstr cmd.threads (some (text "1"))) (argument args 1)
    minLevel := setRefstr cmd.minLevel (argument args 2)
    maxLevel := setRefstr cmd.maxLevel (argument args 3)
    pathList := setRefstr cmd.pathList (argument args 4) }

/-- `%d` into `verbose`, which is an `int`. -/
def readVerbose (verbose : ℤ) : Str → Except Bytes ℤ
  | none => .ok verbose
  | some value =>
    match strtol value with
    | none => .error (text "Bad verbose value: '" ++ value ++ text "'")
    | some n => .ok (n.bmod (2 ^ 32))

/-- The command after all arguments. -/
def takeRemote (cmd : GqCmd) (verbose : ℤ) (args : List Str) : GqCmd :=
  { cmd with
    verbose := verbose
    remoteCmd := setRefstr cmd.remoteCmd (argument args 6)
    remoteArgs := cmd.remoteArgs ++ (argument args 7).elim [] blankWords }

/-- `gufi_vtFilter`, up to the command that is started; otherwise the message. -/
def gufiVtFilter (vtab : GufiVtab) (args : List Str) : GufiVtab × Except Bytes (List Bytes) :=
  if vtab.fixedSchema then
    match argument args 0 with
    | none => (vtab, .error (text "Missing index"))
    | some _ =>
      let cmd := takeWalk vtab.cmd args
      match readVerbose cmd.verbose (argument args 5) with
      | .error message => ({ vtab with cmd := cmd }, .error message)
      | .ok verbose =>
        let cmd := takeRemote cmd verbose args
        ({ vtab with cmd := cmd }, .ok (gufiQuery cmd))
  else (vtab, .ok (gufiQuery vtab.cmd))

end Filter

section Runs

/-- The table after some calls. -/
def after (vtab : GufiVtab) (calls : List (List Str)) : GufiVtab :=
  calls.foldl (fun vtab args => (gufiVtFilter vtab args).1) vtab

/-- Each call of a run, with the table as the call finds it. -/
def steps : GufiVtab → List (List Str) → List (GufiVtab × List Str)
  | _, [] => []
  | vtab, args :: calls => (vtab, args) :: steps (gufiVtFilter vtab args).1 calls

/-- Every call of the run starts what it would start if it were the first. -/
def RunsOwnArguments (created : GufiVtab) (calls : List (List Str)) : Prop :=
  (steps created calls).map (fun step => (gufiVtFilter step.1 step.2).2) =
    calls.map fun args => (gufiVtFilter created args).2

/-- What no call writes. -/
def unwritten (cmd : GqCmd) : GqCmd :=
  { cmd with
    remoteCmd := none
    remoteArgs := []
    verbose := 0
    threads := none
    minLevel := none
    maxLevel := none
    pathList := none
    indexroots := [] }

/-- What a call reads of the table, where its arguments do not say it, is as it was created. -/
structure Untouched (created vtab : GufiVtab) (args : List Str) : Prop where
  indexroots : vtab.cmd.indexroots = created.cmd.indexroots
  minLevel : argument args 2 = none → vtab.cmd.minLevel = created.cmd.minLevel
  maxLevel : argument args 3 = none → vtab.cmd.maxLevel = created.cmd.maxLevel
  pathList : argument args 4 = none → vtab.cmd.pathList = created.cmd.pathList
  remoteCmd : argument args 6 = none → vtab.cmd.remoteCmd = created.cmd.remoteCmd
  remoteArgs : existing (setRefstr vtab.cmd.remoteCmd (argument args 6)) ≠ none →
    vtab.cmd.remoteArgs = created.cmd.remoteArgs

/-- A call that starts `gufi_query` on a table with a fixed schema. -/
def Accepted (args : List Str) : Prop :=
  argument args 0 ≠ none ∧ ∀ value ∈ argument args 5, strtol value ≠ none

variable {created vtab : GufiVtab} {cmd : GqCmd} {args : List Str} {calls : List (List Str)}

theorem setRefstr_congr {old old' value : Str} (h : value = none → old = old') :
    setRefstr old value = setRefstr old' value := by
  cases value with
  | none => exact h rfl
  | some value => rfl

section Cases

theorem call_cases (args : List Str) : argument args 0 = none ∨
    (argument args 0 ≠ none ∧ ∃ value, argument args 5 = some value ∧ strtol value = none) ∨
    Accepted args := by
  by_cases hroots : argument args 0 = none
  · exact .inl hroots
  · by_cases hverbose : ∀ value ∈ argument args 5, strtol value ≠ none
    · exact .inr (.inr ⟨hroots, hverbose⟩)
    · push Not at hverbose
      exact .inr (.inl ⟨hroots, hverbose⟩)

theorem filter_of_not_fixed (h : vtab.fixedSchema = false) :
    gufiVtFilter vtab args = (vtab, .ok (gufiQuery vtab.cmd)) := by
  rw [gufiVtFilter, if_neg (by rw [h]; exact Bool.false_ne_true)]

theorem filter_of_missing (hfixed : vtab.fixedSchema = true) (h : argument args 0 = none) :
    gufiVtFilter vtab args = (vtab, .error (text "Missing index")) := by
  rw [gufiVtFilter, if_pos hfixed, h]

theorem filter_of_bad (hfixed : vtab.fixedSchema = true) (h : argument args 0 ≠ none)
    {value : Bytes} (hvalue : argument args 5 = some value) (hbad : strtol value = none) :
    gufiVtFilter vtab args = ({ vtab with cmd := takeWalk vtab.cmd args },
      .error (text "Bad verbose value: '" ++ value ++ text "'")) := by
  obtain ⟨roots, hroots⟩ := Option.ne_none_iff_exists'.mp h
  simp only [gufiVtFilter, if_pos hfixed, hroots, hvalue, readVerbose, hbad]

theorem filter_of_accepted (hfixed : vtab.fixedSchema = true) (h : Accepted args) :
    ∃ verbose, gufiVtFilter vtab args =
      ({ vtab with cmd := takeRemote (takeWalk vtab.cmd args) verbose args },
        .ok (gufiQuery (takeRemote (takeWalk vtab.cmd args) verbose args))) := by
  obtain ⟨roots, hroots⟩ := Option.ne_none_iff_exists'.mp h.1
  cases hvalue : argument args 5 with
  | none =>
    refine ⟨vtab.cmd.verbose, ?_⟩
    simp only [gufiVtFilter, if_pos hfixed, hroots, hvalue, readVerbose, takeWalk]
  | some value =>
    obtain ⟨n, hn⟩ := Option.ne_none_iff_exists'.mp (h.2 value hvalue)
    refine ⟨n.bmod (2 ^ 32), ?_⟩
    simp only [gufiVtFilter, if_pos hfixed, hroots, hvalue, readVerbose, hn]

end Cases

section Step

/-- What no call changes: the kind of the table, all of a table without a fixed schema, and what is
not written. -/
structure Keeps (created vtab : GufiVtab) : Prop where
  fixedSchema : vtab.fixedSchema = created.fixedSchema
  not_fixed : created.fixedSchema = false → vtab = created
  unwritten : unwritten vtab.cmd = unwritten created.cmd

theorem Keeps.refl (created : GufiVtab) : Keeps created created := ⟨rfl, fun _ => rfl, rfl⟩

theorem Keeps.step (h : Keeps created vtab) (args : List Str) :
    Keeps created (gufiVtFilter vtab args).1 := by
  cases hschema : created.fixedSchema with
  | false =>
    have hvtab := h.not_fixed hschema
    subst hvtab
    rw [filter_of_not_fixed hschema]
    exact .refl vtab
  | true =>
    have hfixed := h.fixedSchema.trans hschema
    rcases call_cases args with hmissing | ⟨hroots, value, hvalue, hbad⟩ | haccepted
    · rw [filter_of_missing hfixed hmissing]
      exact h
    · rw [filter_of_bad hfixed hroots hvalue hbad]
      exact ⟨h.fixedSchema, fun hnot => absurd hschema (by simp [hnot]), h.unwritten⟩
    · obtain ⟨verbose, heq⟩ := filter_of_accepted hfixed haccepted
      rw [heq]
      exact ⟨h.fixedSchema, fun hnot => absurd hschema (by simp [hnot]), h.unwritten⟩

/-- The arguments of a command say nothing of `verbose`, and nothing of the arguments of a remote
command that is not there. -/
theorem gufiQuery_congr {cmd cmd' : GqCmd} (hunwritten : unwritten cmd = unwritten cmd')
    (hthreads : cmd.threads = cmd'.threads) (hminLevel : cmd.minLevel = cmd'.minLevel)
    (hmaxLevel : cmd.maxLevel = cmd'.maxLevel) (hpathList : cmd.pathList = cmd'.pathList)
    (hindexroots : cmd.indexroots = cmd'.indexroots) (hremote : cmd.remoteCmd = cmd'.remoteCmd)
    (hargs : existing cmd.remoteCmd ≠ none → cmd.remoteArgs = cmd'.remoteArgs) :
    gufiQuery cmd = gufiQuery cmd' := by
  have hflat : flat cmd = flat cmd' ∧ separate cmd = separate cmd' := by
    cases cmd
    cases cmd'
    simp only [unwritten, GqCmd.mk.injEq, true_and] at hunwritten
    simp only at hthreads hminLevel hmaxLevel hpathList hindexroots
    simp only [flat, separate, levelFlags, sqlFlags, hthreads, hminLevel, hmaxLevel, hpathList,
      hindexroots, hunwritten, and_self]
  unfold gufiQuery
  rw [← hremote, hflat.1, hflat.2]
  cases hexists : existing cmd.remoteCmd with
  | none => rfl
  | some remote => simp only [hargs (by rw [hexists]; exact Option.some_ne_none remote)]

/-- A call on a table that is untouched starts what it starts on the table as it was created. -/
theorem filter_eq_of_untouched (hkeeps : Keeps created vtab)
    (h : created.fixedSchema = true → Accepted args → Untouched created vtab args) :
    (gufiVtFilter vtab args).2 = (gufiVtFilter created args).2 := by
  cases hschema : created.fixedSchema with
  | false => rw [hkeeps.not_fixed hschema]
  | true =>
    have hfixed := hkeeps.fixedSchema.trans hschema
    rcases call_cases args with hmissing | ⟨hroots, value, hvalue, hbad⟩ | haccepted
    · rw [filter_of_missing hfixed hmissing, filter_of_missing hschema hmissing]
    · rw [filter_of_bad hfixed hroots hvalue hbad, filter_of_bad hschema hroots hvalue hbad]
    · have huntouched := h hschema haccepted
      obtain ⟨verbose, heq⟩ := filter_of_accepted hfixed haccepted
      obtain ⟨verbose', heq'⟩ := filter_of_accepted hschema haccepted
      rw [heq, heq']
      refine congrArg Except.ok (gufiQuery_congr hkeeps.unwritten rfl ?_ ?_ ?_ ?_ ?_ ?_)
      · exact setRefstr_congr huntouched.minLevel
      · exact setRefstr_congr huntouched.maxLevel
      · exact setRefstr_congr huntouched.pathList
      · exact congrArg (· ++ rootsOf args) huntouched.indexroots
      · exact setRefstr_congr huntouched.remoteCmd
      · intro hremote
        exact congrArg (· ++ (argument args 7).elim [] blankWords)
          (huntouched.remoteArgs hremote)

end Step

section Main

/-- Index roots accumulate: those of every call stay in the table. -/
theorem indexroots_after (hfixed : created.fixedSchema = true) (calls : List (List Str)) :
    (after created calls).fixedSchema = true ∧
      (after created calls).cmd.indexroots = created.cmd.indexroots ++ calls.flatMap rootsOf := by
  induction calls using List.reverseRecOn with
  | nil => exact ⟨hfixed, (List.append_nil _).symm⟩
  | append_singleton calls args ih =>
    obtain ⟨hschema, hroots⟩ := ih
    rw [after, List.foldl_append, List.foldl_cons, List.foldl_nil, ← after, List.flatMap_append,
      List.flatMap_singleton, ← List.append_assoc, ← hroots]
    rcases call_cases args with hmissing | ⟨hindex, value, hvalue, hbad⟩ | haccepted
    · rw [filter_of_missing hschema hmissing, rootsOf, hmissing]
      exact ⟨hschema, (List.append_nil _).symm⟩
    · rw [filter_of_bad hschema hindex hvalue hbad]
      exact ⟨hschema, rfl⟩
    · obtain ⟨verbose, heq⟩ := filter_of_accepted hschema haccepted
      rw [heq]
      exact ⟨hschema, rfl⟩

/-- The index roots are untouched if and only if no call has named one. -/
theorem indexroots_untouched_iff (hfixed : created.fixedSchema = true) (calls : List (List Str)) :
    (after created calls).cmd.indexroots = created.cmd.indexroots ↔
      ∀ args ∈ calls, rootsOf args = [] := by
  rw [(indexroots_after hfixed calls).2, List.append_right_eq_self, List.flatMap_eq_nil_iff]

theorem steps_eq_of_untouched (hkeeps : Keeps created vtab)
    (h : ∀ step ∈ steps vtab calls, created.fixedSchema = true → Accepted step.2 →
      Untouched created step.1 step.2) :
    (steps vtab calls).map (fun step => (gufiVtFilter step.1 step.2).2) =
      calls.map fun args => (gufiVtFilter created args).2 := by
  induction calls generalizing vtab with
  | nil => rfl
  | cons args calls ih =>
    have hhead := filter_eq_of_untouched hkeeps (h (vtab, args) (List.mem_cons_self ..))
    have htail := ih (hkeeps.step args) fun step hstep => h step (List.mem_cons_of_mem _ hstep)
    rw [steps, List.map_cons, List.map_cons, hhead, htail]

/-- A run starts its own commands if every call finds the table as it was created, where it does not
say itself what to put there. -/
theorem runsOwnArguments_of_untouched (created : GufiVtab) (calls : List (List Str))
    (h : ∀ step ∈ steps created calls, created.fixedSchema = true → Accepted step.2 →
      Untouched created step.1 step.2) : RunsOwnArguments created calls :=
  steps_eq_of_untouched (.refl created) h

/-- `gufi_vt_pentries`. -/
def pentries : GufiVtab := gufiVtXConnect "pentries" false false true false

/-- A run of two calls that name a path list each, and no index root before the second one. -/
theorem runsOwnArguments_two : RunsOwnArguments pentries
    [[some [], some (text "2"), some (text "1"), some (text "2"), some (text "/l")],
      [some (text "a b"), none, some (text "0"), some (text "1"), some (text "/m")]] := by
  refine runsOwnArguments_of_untouched _ _ fun step hstep _ _ => ?_
  simp only [steps, List.mem_cons, List.not_mem_nil, or_false] at hstep
  rcases hstep with rfl | rfl
  · exact ⟨rfl, fun _ => rfl, fun _ => rfl, fun _ => rfl, fun _ => rfl, fun _ => rfl⟩
  · exact ⟨rfl, nofun, nofun, nofun, fun _ => rfl, fun _ => rfl⟩

/-- A call for `b` after one for `a` searches both. -/
theorem not_runsOwnArguments :
    (gufiVtFilter (after pentries [[some (text "a")]]) [some (text "b")]).2 =
        .ok [text "gufi_query", text "--print-tlv", text "-x", text "--threads", text "1",
          text "-E", text "SELECT path(), epath(), fpath(), path(), level(), * FROM pentries;",
          text "a", text "b"] ∧
      ¬∀ created calls, RunsOwnArguments created calls := by
  refine ⟨rfl, fun hall => ?_⟩
  have hrun := hall pentries [[some (text "a")], [some (text "b")]]
  have hlengths := congrArg (List.map fun outcome => (outcome.toOption.getD []).length) hrun
  exact absurd hlengths (by decide)

end Main

end Runs

end Gufi.VtFilter
