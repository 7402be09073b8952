import Gufi.VtArguments
import Mathlib.Algebra.Order.BigOperators.Group.List

/-!
# From the arguments of a table to `argv`

Every quoted value is followed through the command of a `gufi_vt` table to the `argv` that is
started, and through the shell if the command is sent to another host.
-/

namespace Gufi.VtFilter

open ExternalAttach
open PosixShell (Piece shellWords)

section Items

/-- What stands for one value in `argv`. -/
inductive Item
  | fixed (word : String)
  | threads (value : Bytes)
  | option (flag : String) (value : Bytes)
  | dirMatch (flag : String) (value : Bytes)
  | listed (flag : String) (value : Bytes)
  | externalAttach (value : Bytes)
  | externalCopy (value : Bytes)
  | root (value : Bytes)

/-- The value as `set_refstr` leaves it. -/
def Item.argv : Item → List Str
  | fixed word => [some (text word)]
  | threads value => setArgv "--threads" (strip value)
  | option flag value => setArgv flag (strip value)
  | dirMatch flag value => (VtFilter.dirMatch flag (strip value) true).toList.map some
  | listed flag value => [some (text flag), strip value]
  | externalAttach value => some (text "--external-attach") :: (attachWords value).take 4
  | externalCopy value =>
    [some (text "--external-copy"), strip (copyPattern value), strip (copySql value)]
  | root value => [strip value]

/-- The value as it is in the flattened command. -/
def Item.flat : Item → Bytes
  | fixed word => text word ++ text " "
  | threads value =>
    (existing (strip value)).elim [] fun threads => text "--threads " ++ threads ++ text " "
  | option flag value => flattenArgv flag (strip value)
  | dirMatch flag value => (VtFilter.dirMatch flag (strip value) true).elim [] (· ++ text " ")
  | listed flag value => flattenQuoted flag [strip value]
  | externalAttach value => flattenQuoted "--external-attach" ((attachWords value).take 4)
  | externalCopy value =>
    flattenQuoted "--external-copy" [strip (copyPattern value), strip (copySql value)]
  | root value => printed (strip value) ++ text " "

/-- At least four words, of which some may be missing. -/
def fourWords (value : Bytes) : List Str :=
  (List.range (max 4 (valueWords value).length)).map fun i => (valueWords value)[i]?.map unquote

/-- The value inside of its quotes. An id may be empty, and the words of an external database and
the SQL for one may have quotes of their own. -/
def Item.expected : Item → List Str
  | fixed word => [some (text word)]
  | threads value => [some (text "--threads"), some value]
  | option flag value => [some (text flag), some value]
  | dirMatch flag value =>
    [some (if value = [] then text flag else text flag ++ text "=" ++ value)]
  | listed flag value => [some (text flag), some value]
  | externalAttach value => some (text "--external-attach") :: fourWords value
  | externalCopy value => [some (text "--external-copy"), some (unquote (copyPattern value)),
      some (unquote (copySql value))]
  | root value => [some value]

/-- The words of the flattened command with their quotes. -/
def Item.pieces : Item → List Piece
  | fixed word => [.plain (text word)]
  | threads value => [.plain (text "--threads"), .plain value]
  | option flag value => [.plain (text flag), .double value]
  | dirMatch flag value =>
    [.plain (if value = [] then text flag else text flag ++ text "=" ++ value)]
  | listed flag value => [.plain (text flag), .single value]
  | externalAttach value => .plain (text "--external-attach") ::
      (valueWords value).map fun word => .single (unquote word)
  | externalCopy value => [.plain (text "--external-copy"), .single (unquote (copyPattern value)),
      .single (unquote (copySql value))]
  | root value => [.plain value]

/-- The value is not changed by `set_refstr`, which takes quotes off as often as there are any. -/
def Item.Kept : Item → Prop
  | fixed _ => True
  | threads value | option _ value | listed _ value | root value => Bare value
  | dirMatch _ value => value = [] ∨ Bare value
  | externalAttach value => (valueWords value).length = 4 ∧ value.head? ≠ some 32 ∧
      ∀ word ∈ valueWords value, Bare (unquote word)
  | externalCopy value => Bare (unquote (copyPattern value)) ∧ Bare (unquote (copySql value))

def levelOptions : List (String × Scalar) :=
  [("-a", .a), ("--min-level", .minLevel), ("--max-level", .maxLevel), ("--path-list", .pathList)]

def sqlOptions : List (String × Scalar) :=
  [("--setup-res-col-type", .setupResColType), ("-I", .I), ("-T", .T), ("-S", .S), ("-E", .E),
    ("-K", .K), ("-J", .J), ("-G", .G), ("-F", .F), ("-p", .p)]

def optionItem (args : List Arg) (o : String × Scalar) : List Item :=
  (given args o.2).toList.map (.option o.1)

/-- What stands in `argv`, in order. There is one thread if no number is given. -/
def items (args : List Arg) : List Item :=
  [.fixed "gufi_query", .fixed "--print-tlv", .fixed "-x",
      .threads ((given args .threads).getD (text "1"))] ++
    levelOptions.flatMap (optionItem args) ++
    (given args .dirMatchUid).toList.map (.dirMatch "--dir-match-uid") ++
    (given args .dirMatchGid).toList.map (.dirMatch "--dir-match-gid") ++
    sqlOptions.flatMap (optionItem args) ++
    (values args (.listed .plugins)).map (.listed "--plugin") ++
    (values args (.listed .noPrintErrno)).map (.listed "--no-print-errno") ++
    (values args .externalAttach).map .externalAttach ++
    (values args .externalCopy).map .externalCopy ++
    (values args (.listed .indexroots)).map .root

variable {args : List Arg} {cmd : GqCmd}

theorem levelFlags_eq (cmd : GqCmd) :
    levelFlags cmd = levelOptions.map fun o => (o.1, cmd.get o.2) := rfl

theorem sqlFlags_eq (cmd : GqCmd) : sqlFlags cmd = sqlOptions.map fun o => (o.1, cmd.get o.2) := rfl

theorem Taken.get_option (h : Taken args cmd) {f : Scalar} (hf : f ≠ .threads) :
    cmd.get f = (given args f).bind strip := by
  rw [h.scalar, if_neg hf]
  cases given args f <;> rfl

/-- A flag is there for each option that is given. -/
theorem Taken.flatMap_options (h : Taken args cmd) {β : Type} {f : String → Str → List β}
    {g : Item → List β} (hnone : ∀ flag, f flag none = [])
    (hsome : ∀ flag value, f flag (strip value) = g (.option flag value))
    {options : List (String × Scalar)} (hoptions : ∀ o ∈ options, o.2 ≠ .threads) :
    (options.map fun o => (o.1, cmd.get o.2)).flatMap (fun flag => f flag.1 flag.2) =
      (options.flatMap (optionItem args)).flatMap g := by
  rw [List.flatMap_map, List.flatMap_assoc]
  refine List.flatMap_congr fun o ho => ?_
  rw [h.get_option (hoptions o ho), optionItem]
  cases given args o.2 with
  | none => exact hnone o.1
  | some value => exact (hsome o.1 value).trans (List.append_nil _).symm

theorem flatMap_dirMatch {β : Type} {f : Str → List β} {g : Item → List β} {flag : String}
    (hnone : f none = [])
    (hsome : ∀ value, f (dirMatch flag (strip value) true) = g (.dirMatch flag value))
    (id : Option Bytes) : f (id.bind fun value => dirMatch flag (strip value) true) =
      (id.toList.map (Item.dirMatch flag)).flatMap g := by
  cases id with
  | none => exact hnone
  | some value => exact (hsome value).trans (List.append_nil _).symm

theorem Taken.flatMap_attach (h : Taken args cmd) {β : Type} (f : List Str → List β) :
    cmd.externalAttach.flatMap (fun eas => f eas.words) =
      ((values args .externalAttach).map fun value => (attachWords value).take 4).flatMap f := by
  rw [← h.attach, List.flatMap_map]

theorem Taken.flatMap_copy (h : Taken args cmd) {β : Type} (f : List Str → List β) :
    cmd.externalCopy.flatMap (fun ecs => f ecs.words) =
      ((values args .externalCopy).map fun value =>
        [strip (copyPattern value), strip (copySql value)]).flatMap f := by
  rw [← h.copy, List.flatMap_map]

theorem option_ne_threads :
    (∀ o ∈ levelOptions, o.2 ≠ .threads) ∧ ∀ o ∈ sqlOptions, o.2 ≠ .threads := by
  decide

theorem Taken.threads_eq (h : Taken args cmd) :
    cmd.threads = strip ((given args .threads).getD (text "1")) := by
  have hget : cmd.threads = _ := h.scalar .threads
  rw [hget, if_pos rfl]
  cases given args .threads <;> rfl

theorem Taken.dirMatch_eq (h : Taken args cmd) :
    dirMatch "--dir-match-uid" cmd.dirMatchUid cmd.dirMatchUidSet =
        (given args .dirMatchUid).bind (fun value =>
          dirMatch "--dir-match-uid" (strip value) true) ∧
      dirMatch "--dir-match-gid" cmd.dirMatchGid cmd.dirMatchGidSet =
        (given args .dirMatchGid).bind (fun value =>
          dirMatch "--dir-match-gid" (strip value) true) := by
  have huid : cmd.dirMatchUid = _ := h.get_option (f := .dirMatchUid) (by decide)
  have hgid : cmd.dirMatchGid = _ := h.get_option (f := .dirMatchGid) (by decide)
  rw [huid, hgid, h.uidSet, h.gidSet]
  constructor
  · cases given args .dirMatchUid <;> rfl
  · cases given args .dirMatchGid <;> rfl

/-- The local `argv`. -/
theorem separate_eq (h : Taken args cmd) : separate cmd = (items args).flatMap Item.argv := by
  have hoption : ∀ {options : List (String × Scalar)}, (∀ o ∈ options, o.2 ≠ .threads) →
      (options.map fun o => (o.1, cmd.get o.2)).flatMap (fun flag => setArgv flag.1 flag.2) =
        (options.flatMap (optionItem args)).flatMap Item.argv :=
    h.flatMap_options (fun _ => rfl) fun _ _ => rfl
  have hdir : ∀ (flag : String) (id : Option Bytes),
      (id.bind fun value => dirMatch flag (strip value) true).toList.map some =
        (id.toList.map (Item.dirMatch flag)).flatMap Item.argv :=
    fun flag => flatMap_dirMatch (f := fun id => id.toList.map some) rfl fun _ => rfl
  have hattach : cmd.externalAttach.flatMap (fun eas => [some (text "--external-attach"),
      eas.basename, eas.table, eas.templateTable, eas.view]) = _ :=
    h.flatMap_attach (some (text "--external-attach") :: ·)
  have hcopy : cmd.externalCopy.flatMap (fun ecs => [some (text "--external-copy"),
      ecs.basenamePattern, ecs.sql]) = _ := h.flatMap_copy (some (text "--external-copy") :: ·)
  have hplugins : cmd.plugins = _ := h.listed .plugins
  have hnoPrint : cmd.noPrintErrno = _ := h.listed .noPrintErrno
  have hroots : cmd.indexroots = _ := (h.listed .indexroots).trans List.map_eq_flatMap
  rw [separate, levelFlags_eq, sqlFlags_eq, hoption option_ne_threads.1,
    hoption option_ne_threads.2, h.threads_eq, h.dirMatch_eq.1, h.dirMatch_eq.2, hdir, hdir,
    hplugins, hnoPrint, hattach, hcopy, hroots, items]
  simp only [List.flatMap_append, List.flatMap_map, List.flatMap_cons, Item.argv, List.append_assoc,
    List.cons_append, List.nil_append]

/-- The flattened command. -/
theorem flat_eq (h : Taken args cmd) : VtFilter.flat cmd = (items args).flatMap Item.flat := by
  have hoption : ∀ {options : List (String × Scalar)}, (∀ o ∈ options, o.2 ≠ .threads) →
      (options.map fun o => (o.1, cmd.get o.2)).flatMap (fun flag => flattenArgv flag.1 flag.2) =
        (options.flatMap (optionItem args)).flatMap Item.flat :=
    h.flatMap_options (fun _ => rfl) fun _ _ => rfl
  have hdir : ∀ (flag : String) (id : Option Bytes),
      (id.bind fun value => dirMatch flag (strip value) true).elim [] (· ++ text " ") =
        (id.toList.map (Item.dirMatch flag)).flatMap Item.flat :=
    fun flag => flatMap_dirMatch (f := fun id => id.elim [] (· ++ text " ")) rfl fun _ => rfl
  have hattach : cmd.externalAttach.flatMap (fun eas => flattenQuoted "--external-attach"
      [eas.basename, eas.table, eas.templateTable, eas.view]) = _ :=
    h.flatMap_attach (flattenQuoted "--external-attach")
  have hcopy : cmd.externalCopy.flatMap (fun ecs => flattenQuoted "--external-copy"
      [ecs.basenamePattern, ecs.sql]) = _ := h.flatMap_copy (flattenQuoted "--external-copy")
  have hplugins : cmd.plugins = _ := h.listed .plugins
  have hnoPrint : cmd.noPrintErrno = _ := h.listed .noPrintErrno
  have hroots : cmd.indexroots = _ := h.listed .indexroots
  have hfixed : text "gufi_query " = text "gufi_query" ++ text " " ∧
      text "--print-tlv " = text "--print-tlv" ++ text " " ∧
        text "-x " = text "-x" ++ text " " := by
    decide
  rw [VtFilter.flat, hfixed.1, hfixed.2.1, hfixed.2.2, levelFlags_eq, sqlFlags_eq,
    hoption option_ne_threads.1, hoption option_ne_threads.2, h.threads_eq, h.dirMatch_eq.1,
    h.dirMatch_eq.2, hdir, hdir, hplugins, hnoPrint, hattach, hcopy, hroots, items]
  simp only [List.flatMap_append, List.flatMap_map, List.flatMap_cons, List.flatMap_nil, Item.flat,
    List.append_assoc, List.append_nil]

end Items

section Kept

variable {args : List Arg} {cmd : GqCmd} {value : Bytes} {flag : String} {item : Item}

/-- Words that the code adds do not end with a quote, and an external database has been accepted. -/
def Item.Accepted : Item → Prop
  | fixed word | option word _ | dirMatch word _ | listed word _ =>
    (Piece.plain (text word)).Ends
  | externalAttach value => 4 ≤ (attachWords value).length
  | _ => True

theorem option_ends {options : List (String × Scalar)}
    (hends : ∀ o ∈ options, (Piece.plain (text o.1)).Ends) :
    ∀ item ∈ options.flatMap (optionItem args), item.Accepted := by
  intro item hitem
  obtain ⟨o, ho, hitem⟩ := List.mem_flatMap.mp hitem
  obtain ⟨value, -, rfl⟩ := List.mem_map.mp hitem
  exact hends o ho

theorem forall_accepted (h : Taken args cmd) : ∀ item ∈ items args, item.Accepted := by
  have hmap : ∀ {f : Bytes → Item} (l : List Bytes), (∀ value ∈ l, (f value).Accepted) →
      ∀ item ∈ l.map f, item.Accepted := fun l hl => List.forall_mem_map.mpr hl
  have huid : (Piece.plain (text "--dir-match-uid")).Ends := by decide
  have hgid : (Piece.plain (text "--dir-match-gid")).Ends := by decide
  have hplugin : (Piece.plain (text "--plugin")).Ends := by decide
  have hnoPrint : (Piece.plain (text "--no-print-errno")).Ends := by decide
  have hfixed : ∀ word ∈ ["gufi_query", "--print-tlv", "-x"], (Piece.plain (text word)).Ends := by
    decide
  simp only [items, List.forall_mem_append]
  refine ⟨⟨⟨⟨⟨⟨⟨⟨⟨?_, option_ends (by decide)⟩, ?_⟩, ?_⟩, option_ends (by decide)⟩, ?_⟩, ?_⟩, ?_⟩,
    ?_⟩, ?_⟩
  · intro item hitem
    simp only [List.mem_cons, List.not_mem_nil, or_false] at hitem
    rcases hitem with rfl | rfl | rfl | rfl
    · exact hfixed _ (by simp)
    · exact hfixed _ (by simp)
    · exact hfixed _ (by simp)
    · trivial
  · exact hmap _ fun value _ => huid
  · exact hmap _ fun value _ => hgid
  · exact hmap _ fun value _ => hplugin
  · exact hmap _ fun value _ => hnoPrint
  · exact hmap _ h.four
  · exact hmap _ fun value _ => trivial
  · exact hmap _ fun value _ => trivial

theorem existing_strip (value : Bytes) : existing (strip value) = strip value := by
  cases hstrip : strip value with
  | none => rfl
  | some v =>
      exact Option.filter_eq_some_iff.mpr ⟨rfl, decide_eq_true (bare_of_strip hstrip).ne_nil⟩

/-- Taken as it is or not at all, a value is never longer than it should be. -/
theorem length_argv_le (h : item.Accepted) : item.argv.length ≤ item.expected.length := by
  have hset : ∀ (flag : String) (value : Bytes), (setArgv flag (strip value)).length ≤ 2 := by
    intro flag value
    rw [setArgv]
    cases existing (strip value) <;> simp
  cases item with
  | threads value => exact hset _ _
  | option flag value => exact hset _ _
  | dirMatch flag value =>
      rw [Item.argv, List.length_map]
      exact Option.length_toList_le
  | externalAttach value =>
      simp only [Item.argv, Item.expected, List.length_cons, fourWords, List.length_map,
        List.length_range, List.length_take]
      omega
  | _ => exact Nat.le_refl _

theorem setArgv_eq_iff : setArgv flag (strip value) = [some (text flag), some value] ↔
    Bare value := by
  rw [← strip_eq_some_iff, setArgv, existing_strip]
  cases strip value with
  | none => simp
  | some v => simp

theorem dirMatch_eq_iff : dirMatch flag (strip value) true =
    some (if value = [] then text flag else text flag ++ text "=" ++ value) ↔
      value = [] ∨ Bare value := by
  rw [← strip_eq_some_iff, dirMatch, existing_strip]
  by_cases hnil : value = []
  · subst hnil
    simp [strip, setRefstr]
  · rw [if_neg hnil, or_iff_right hnil]
    cases strip value with
    | none =>
        refine iff_of_false ?_ (Option.some_ne_none value).symm
        intro h
        have hlength := congrArg List.length (Option.some.inj h)
        rw [List.append_assoc, List.length_append, List.length_append] at hlength
        have hone : (text "=").length = 1 := by decide
        omega
    | some v => simp

theorem fourWords_eq (h : 4 ≤ (valueWords value).length) :
    fourWords value = (valueWords value).map (some ∘ unquote) := by
  rw [fourWords, Nat.max_eq_right h]
  apply List.ext_getElem
  · simp
  · intro i hi hi'
    have hlt : i < (valueWords value).length := by simpa using hi'
    simp [List.getElem?_eq_getElem hlt]

/-- A word is missing if there are not four of them. -/
theorem none_mem_fourWords (h : (valueWords value).length < 4) : none ∈ fourWords value := by
  rw [fourWords, List.mem_map]
  refine ⟨(valueWords value).length, List.mem_range.mpr (by omega), ?_⟩
  rw [List.getElem?_eq_none (Nat.le_refl _), Option.map_none]

theorem take_attachWords (hfirst : value.head? ≠ some 32) (h : (valueWords value).length = 4) :
    (attachWords value).take 4 = (valueWords value).map strip := by
  rw [attachWords, if_neg hfirst, List.nil_append, blankWords_eq,
    List.take_append_of_le_length (by rw [List.length_map, h]),
    List.take_of_length_le (by rw [List.length_map, h])]

theorem attach_eq_iff (h : 4 ≤ (attachWords value).length) :
    ((attachWords value).take 4 = fourWords value ∧ none ∉ (attachWords value).take 4) ↔
      (Item.externalAttach value).Kept := by
  constructor
  · rintro ⟨heq, hnone⟩
    have hlength := congrArg List.length heq
    rw [List.length_take_of_le h, fourWords, List.length_map, List.length_range] at hlength
    have hfour : (valueWords value).length = 4 := by
      rcases Nat.lt_or_ge (valueWords value).length 4 with hlt | hge
      · exact absurd (heq ▸ none_mem_fourWords hlt) hnone
      · omega
    have hfirst : value.head? ≠ some 32 := by
      intro hblank
      rw [attachWords, if_pos hblank] at hnone
      exact hnone List.mem_cons_self
    rw [take_attachWords hfirst hfour, fourWords_eq hfour.ge, List.map_inj_left] at heq
    exact ⟨hfour, hfirst, fun word hword => strip_eq_unquote_iff.mp (heq word hword)⟩
  · rintro ⟨hfour, hfirst, hbare⟩
    have hkeep : (attachWords value).take 4 = (valueWords value).map (some ∘ unquote) := by
      rw [take_attachWords hfirst hfour]
      exact List.map_congr_left fun word hword => strip_eq_unquote_iff.mpr (hbare word hword)
    rw [hkeep, fourWords_eq hfour.ge]
    exact ⟨rfl, by simp⟩

/-- The value arrives exactly if `set_refstr` does not change it. -/
theorem argv_eq_iff (h : item.Accepted) :
    (item.argv = item.expected ∧ none ∉ item.argv) ↔ item.Kept := by
  have hset : ∀ (flag : String) (value : Bytes),
      (setArgv flag (strip value) = [some (text flag), some value] ∧
        none ∉ setArgv flag (strip value)) ↔ Bare value := by
    intro flag value
    rw [← @setArgv_eq_iff value flag]
    exact and_iff_left_of_imp fun h => by rw [h]; simp
  cases item with
  | fixed word => simp [Item.argv, Item.expected, Item.Kept]
  | threads value => exact hset "--threads" value
  | option flag value => exact hset flag value
  | dirMatch flag value =>
      rw [Item.Kept, ← @dirMatch_eq_iff value flag, Item.argv, Item.expected,
        and_iff_left (by simp)]
      cases VtFilter.dirMatch flag (strip value) true <;> simp
  | listed flag value =>
      rw [Item.Kept, ← strip_eq_some_iff, Item.argv, Item.expected]
      simp +contextual
  | externalAttach value =>
      rw [← attach_eq_iff h, Item.argv, Item.expected, List.cons_eq_cons, List.mem_cons, not_or]
      simp
  | externalCopy value =>
      rw [Item.Kept, ← strip_eq_unquote_iff, ← strip_eq_unquote_iff, Item.argv, Item.expected]
      simp +contextual
  | root value =>
      rw [Item.Kept, ← strip_eq_some_iff, Item.argv, Item.expected]
      simp +contextual

end Kept

section Flattened

variable {args : List Arg} {cmd : GqCmd} {value : Bytes} {item : Item}

/-- The blank behind a quoted word is printed in front of the next one. -/
theorem flattenQuoted_eq (flag : String) (words : List Bytes) :
    flattenQuoted flag (words.map some) =
      (Piece.plain (text flag) :: words.map Piece.single).flatMap Piece.text := by
  have hquotes : text " '" = [32, 39] ∧ text "'" = [39] ∧ text " " = [32] := by decide
  have hwords : (words.map some).flatMap (fun arg => text " '" ++ printed arg ++ text "'") ++ [32] =
      32 :: (words.map Piece.single).flatMap Piece.text := by
    induction words with
    | nil => rfl
    | cons word words ih =>
        rw [List.map_cons, List.flatMap_cons, List.append_assoc, ih, hquotes.1, hquotes.2.1]
        simp [Piece.text, printed]
  rw [flattenQuoted, hquotes.2.2, List.append_assoc, hwords, List.flatMap_cons, Piece.text]
  simp

/-- A value that is kept is printed as it is. -/
theorem flat_eq_pieces (h : item.Kept) : item.flat = item.pieces.flatMap Piece.text := by
  have hblank : text " " = [32] := by decide
  cases item with
  | fixed word => simp [Item.flat, Item.pieces, Piece.text, hblank]
  | threads value =>
      have hthreads : text "--threads " = text "--threads" ++ [32] := by decide
      rw [Item.flat, existing_strip, h.strip_eq, Option.elim_some, hthreads, hblank]
      simp [Item.pieces, Piece.text]
  | option flag value =>
      have hquotes : text " \"" = [32, 34] ∧ text "\" " = [34, 32] := by decide
      rw [Item.flat, flattenArgv, existing_strip, h.strip_eq, Option.elim_some, hquotes.1,
        hquotes.2]
      simp [Item.pieces, Piece.text]
  | dirMatch flag value =>
      rw [Item.flat, dirMatch_eq_iff.mpr h, Option.elim_some, hblank]
      simp [Item.pieces, Piece.text]
  | listed flag value =>
      rw [Item.flat, h.strip_eq]
      exact flattenQuoted_eq flag [value]
  | externalAttach value =>
      obtain ⟨hfour, hfirst, hbare⟩ := h
      have hkeep : (attachWords value).take 4 = ((valueWords value).map unquote).map some := by
        rw [take_attachWords hfirst hfour, List.map_map]
        exact List.map_congr_left fun word hword => strip_eq_unquote_iff.mpr (hbare word hword)
      rw [Item.flat, hkeep, flattenQuoted_eq, Item.pieces, List.map_map]
      rfl
  | externalCopy value =>
      rw [Item.flat, strip_eq_unquote_iff.mpr h.1, strip_eq_unquote_iff.mpr h.2]
      exact flattenQuoted_eq "--external-copy" [_, _]
  | root value =>
      rw [Item.flat, h.strip_eq, hblank]
      simp [Item.pieces, Piece.text, printed]

theorem expected_eq_words (h : item.Kept) :
    item.expected = (item.pieces.map Piece.word).map some := by
  cases item with
  | externalAttach value =>
      rw [Item.expected, fourWords_eq h.1.ge, Item.pieces]
      simp [Piece.word, Function.comp_def]
  | _ => rfl

theorem Bare.ends (h : Bare value) {p : Piece} (hp : p.word = value) : p.Ends :=
  ⟨hp ▸ h.ne_nil, hp ▸ h.last⟩

theorem pieces_ends (h : item.Kept) (haccepted : item.Accepted) : ∀ p ∈ item.pieces, p.Ends := by
  have hthreads : (Piece.plain (text "--threads")).Ends := by decide
  have hattach : (Piece.plain (text "--external-attach")).Ends := by decide
  have hcopy : (Piece.plain (text "--external-copy")).Ends := by decide
  cases item with
  | fixed word => exact List.forall_mem_singleton.mpr haccepted
  | threads value =>
      exact List.forall_mem_cons.mpr ⟨hthreads, List.forall_mem_singleton.mpr (h.ends rfl)⟩
  | option flag value =>
      exact List.forall_mem_cons.mpr ⟨haccepted, List.forall_mem_singleton.mpr (h.ends rfl)⟩
  | dirMatch flag value =>
      refine List.forall_mem_singleton.mpr ?_
      rcases h with rfl | h
      · exact haccepted
      · rw [if_neg h.ne_nil]
        refine ⟨List.append_ne_nil_of_right_ne_nil _ h.ne_nil, ?_⟩
        intro c hc
        refine h.last c ?_
        obtain ⟨d, hd⟩ := Option.ne_none_iff_exists'.mp (mt List.getLast?_eq_none_iff.mp h.ne_nil)
        rw [Piece.word, List.getLast?_append, hd] at hc
        rw [hd]
        exact hc
  | listed flag value =>
      exact List.forall_mem_cons.mpr ⟨haccepted, List.forall_mem_singleton.mpr (h.ends rfl)⟩
  | externalAttach value =>
      refine List.forall_mem_cons.mpr ⟨hattach, List.forall_mem_map.mpr ?_⟩
      exact fun word hword => (h.2.2 word hword).ends rfl
  | externalCopy value =>
      exact List.forall_mem_cons.mpr ⟨hcopy, List.forall_mem_cons.mpr ⟨h.1.ends rfl,
        List.forall_mem_singleton.mpr (h.2.ends rfl)⟩⟩
  | root value => exact List.forall_mem_singleton.mpr (h.ends rfl)

end Flattened

section Reaches

variable {args : List Arg} {cmd : GqCmd}

theorem execArgs_map_some (words : List Bytes) : execArgs (words.map some) = words := by
  induction words with
  | nil => rfl
  | cons word words ih => rw [List.map_cons, execArgs, ih]

/-- All of `argv` is taken if there is no null pointer in it. -/
theorem execArgs_eq_iff {argv expected : List Str} (hlength : argv.length ≤ expected.length) :
    (execArgs argv).map some = expected ↔ argv = expected ∧ none ∉ argv := by
  induction argv generalizing expected with
  | nil => simp [execArgs]
  | cons arg argv ih =>
      cases expected with
      | nil => exact absurd hlength (Nat.not_succ_le_zero _)
      | cons e expected =>
          cases arg with
          | none => simp [execArgs]
          | some arg =>
              rw [execArgs, List.map_cons, List.cons_eq_cons, List.cons_eq_cons,
                ih (Nat.le_of_succ_le_succ hlength), List.mem_cons, not_or]
              simp [and_assoc]

theorem length_flatMap_le {α β : Type} {l : List α} {f g : α → List β}
    (h : ∀ x ∈ l, (f x).length ≤ (g x).length) : (l.flatMap f).length ≤ (l.flatMap g).length := by
  rw [List.length_flatMap, List.length_flatMap]
  exact List.sum_le_sum h

/-- If no piece is longer than it should be, all of them have their own places. -/
theorem flatMap_eq_flatMap_iff {α β : Type} {l : List α} {f g : α → List β}
    (h : ∀ x ∈ l, (f x).length ≤ (g x).length) :
    l.flatMap f = l.flatMap g ↔ ∀ x ∈ l, f x = g x := by
  refine ⟨fun heq => ?_, List.flatMap_congr⟩
  induction l with
  | nil => exact List.forall_mem_nil _
  | cons x l ih =>
      rw [List.forall_mem_cons] at h
      rw [List.flatMap_cons, List.flatMap_cons] at heq
      have hrest := length_flatMap_le h.2
      have hlength := congrArg List.length heq
      rw [List.length_append, List.length_append] at hlength
      obtain ⟨hx, hl⟩ := List.append_inj heq (by have := h.1; omega)
      exact List.forall_mem_cons.mpr ⟨hx, ih h.2 hl⟩

/-- All values are in `argv` exactly if each of them is kept. -/
theorem execArgs_separate_iff (h : Taken args cmd) :
    (execArgs (separate cmd)).map some = (items args).flatMap Item.expected ↔
      ∀ item ∈ items args, item.Kept := by
  have hle : ∀ item ∈ items args, item.argv.length ≤ item.expected.length := fun item hitem =>
    length_argv_le (forall_accepted h item hitem)
  have hnone : none ∉ (items args).flatMap Item.argv ↔ ∀ item ∈ items args, none ∉ item.argv := by
    rw [List.mem_flatMap, not_exists]
    exact forall_congr' fun item => not_and
  rw [separate_eq h, execArgs_eq_iff (length_flatMap_le hle), flatMap_eq_flatMap_iff hle, hnone]
  constructor
  · rintro ⟨heq, hnone⟩ item hitem
    exact (argv_eq_iff (forall_accepted h item hitem)).mp ⟨heq item hitem, hnone item hitem⟩
  · intro hkept
    have hargv := fun item hitem =>
      (argv_eq_iff (forall_accepted h item hitem)).mpr (hkept item hitem)
    exact ⟨fun item hitem => (hargv item hitem).1, fun item hitem => (hargv item hitem).2⟩

/-- If each value is kept, the shell gets back the words of the local `argv` exactly if each word is
safe in its quotes. -/
theorem shellWords_flat_iff (h : Taken args cmd) (hkept : ∀ item ∈ items args, item.Kept) :
    shellWords (VtFilter.flat cmd) = some (execArgs (separate cmd)) ↔
      ∀ item ∈ items args, ∀ p ∈ item.pieces, p.isSafe = true := by
  have hflat : VtFilter.flat cmd =
      ((items args).flatMap Item.pieces).flatMap Piece.text := by
    rw [flat_eq h, List.flatMap_assoc]
    exact List.flatMap_congr fun item hitem => flat_eq_pieces (hkept item hitem)
  have hargv : execArgs (separate cmd) = ((items args).flatMap Item.pieces).map Piece.word := by
    refine List.map_injective_iff.mpr (Option.some_injective Bytes) ?_
    rw [(execArgs_separate_iff h).mpr hkept, List.map_flatMap, List.map_flatMap]
    exact List.flatMap_congr fun item hitem => expected_eq_words (hkept item hitem)
  have hends : ∀ p ∈ (items args).flatMap Item.pieces, p.Ends := by
    intro p hp
    obtain ⟨item, hitem, hp⟩ := List.mem_flatMap.mp hp
    exact pieces_ends (hkept item hitem) (forall_accepted h item hitem) p hp
  rw [hflat, hargv, PosixShell.shellWords_iff hends]
  simp only [List.mem_flatMap]
  exact ⟨fun hsafe item hitem p hp => hsafe p ⟨item, hitem, hp⟩,
    fun hsafe p ⟨item, hitem, hp⟩ => hsafe item hitem p hp⟩

/-- Every value inside of its quotes is in the `argv` that is started, and a remote command is
started with its own arguments and with a text of which a shell makes the local `argv`. -/
structure Reaches (args : List Arg) (cmd : GqCmd) : Prop where
  values : (execArgs (separate cmd)).map some = (items args).flatMap Item.expected
  own : given args .remoteCmd = none → gufiQuery cmd = execArgs (separate cmd)
  remote : ∀ remote ∈ given args .remoteCmd,
    gufiQuery cmd = remote :: VtFilter.values args (.listed .remoteArgs) ++ [VtFilter.flat cmd] ∧
      shellWords (VtFilter.flat cmd) = some (execArgs (separate cmd))

/-- No value is empty or has more quotes around it, and the words for a shell are safe in the quotes
that they get. -/
structure Fits (args : List Arg) : Prop where
  kept : ∀ item ∈ items args, item.Kept
  remote : ∀ remote ∈ given args .remoteCmd, Bare remote ∧
    (∀ value ∈ VtFilter.values args (.listed .remoteArgs), Bare value) ∧
      ∀ item ∈ items args, ∀ p ∈ item.pieces, p.isSafe = true

instance : DecidablePred Bare := fun _ => decidable_of_iff _ strip_eq_some_iff

instance : DecidablePred Item.Kept
  | .fixed _ => inferInstanceAs (Decidable True)
  | .threads value | .option _ value | .listed _ value | .root value =>
    inferInstanceAs (Decidable (Bare value))
  | .dirMatch _ value => inferInstanceAs (Decidable (value = [] ∨ Bare value))
  | .externalAttach value => inferInstanceAs (Decidable ((valueWords value).length = 4 ∧
      value.head? ≠ some 32 ∧ ∀ word ∈ valueWords value, Bare (unquote word)))
  | .externalCopy value => inferInstanceAs (Decidable (Bare (unquote (copyPattern value)) ∧
      Bare (unquote (copySql value))))

instance : DecidablePred Fits := fun args =>
  decidable_of_iff ((∀ item ∈ items args, item.Kept) ∧ ∀ remote ∈ given args .remoteCmd,
    Bare remote ∧ (∀ value ∈ values args (.listed .remoteArgs), Bare value) ∧
      ∀ item ∈ items args, ∀ p ∈ item.pieces, p.isSafe = true)
    ⟨fun h => ⟨h.1, h.2⟩, fun h => ⟨h.1, h.2⟩⟩

theorem gufiQuery_own (h : Taken args cmd) (hnone : given args .remoteCmd = none) :
    gufiQuery cmd = execArgs (separate cmd) := by
  have hget : cmd.remoteCmd = _ := h.get_option (f := .remoteCmd) (by decide)
  rw [gufiQuery, hget, hnone]
  rfl

/-- The remote command is started with its arguments exactly if all of them are kept. -/
theorem gufiQuery_remote_iff (h : Taken args cmd) {remote : Bytes}
    (hremote : given args .remoteCmd = some remote) :
    gufiQuery cmd = remote :: values args (.listed .remoteArgs) ++ [VtFilter.flat cmd] ↔
      Bare remote ∧ ∀ value ∈ values args (.listed .remoteArgs), Bare value := by
  have hget : cmd.remoteCmd = _ := h.get_option (f := .remoteCmd) (by decide)
  have hlist : cmd.remoteArgs = _ := h.listed .remoteArgs
  rw [gufiQuery, hget, hremote, Option.bind_some, existing_strip, hlist]
  cases hstrip : strip remote with
  | none =>
      -- the command runs here, and its first word is no remote command
      refine iff_of_false ?_ ?_
      · intro heq
        have hhead : text "gufi_query" = remote := Option.some.inj (congrArg List.head? heq)
        rw [← hhead] at hstrip
        exact absurd hstrip (by decide)
      · rintro ⟨hbare, -⟩
        rw [hbare.strip_eq] at hstrip
        exact nomatch hstrip
  | some word =>
      have hwords : some word :: (values args (.listed .remoteArgs)).map strip ++
          [some (VtFilter.flat cmd)] =
          (remote :: values args (.listed .remoteArgs) ++ [VtFilter.flat cmd]).map some ↔
            Bare remote ∧ ∀ value ∈ values args (.listed .remoteArgs), Bare value := by
        rw [List.map_append, List.map_cons, List.map_singleton,
          List.append_cancel_right_eq, List.cons_eq_cons, List.map_inj_left, ← hstrip,
          strip_eq_some_iff]
        exact and_congr_right' (forall₂_congr fun value _ => strip_eq_some_iff)
      rw [← (List.map_injective_iff.mpr (Option.some_injective Bytes)).eq_iff,
        execArgs_eq_iff (Nat.le_of_eq (by simp)), ← hwords]
      refine and_iff_left_of_imp fun heq => ?_
      rw [heq]
      simp

/-- An index with SQL for it, which is queried on another host. -/
def remoteArgs (sql : String) : List Arg :=
  [⟨text "index", 39, text "/a", by decide, by decide, rfl⟩,
    ⟨text "E", 34, text sql, by decide, by decide, rfl⟩,
    ⟨text "remote_cmd", 39, text "ssh", by decide, by decide, rfl⟩,
    ⟨text "remote_arg", 39, text "host", by decide, by decide, rfl⟩]

end Reaches

end Gufi.VtFilter
