import Gufi.VtCursor

/-!
# Cursors that wait for a blocked child

`popen_argv_close` waits before it closes the pipe. A cursor that is closed early, or that meets a
row it cannot read, may wait forever, just if what it has not read does not fit into the pipe.
-/

namespace Gufi.VtCursor

open Stdio Pipe

section Reading

variable {fd : ℕ} {output : Bytes}

theorem runOn_read_size (size : ℕ) :
    (read_size fd size).runOn fd output = some (output.take size, output.drop size) := by
  simp only [read_size, Program.runOn, if_true, List.nil_append]
  rfl

theorem bind_runOn {α β : Type} (p : Program α) (f : α → Program β) :
    (p >>= f).runOn fd output = (p.runOn fd output).bind fun r => (f r.1).runOn fd r.2 :=
  p.runOn_bind f fd output

/-- The number of the pipe does not matter. -/
theorem exists_readCols (count : ℕ) (output : Bytes) :
    ∃ r, ∀ fd, (readCols fd count).runOn fd output = some r := by
  induction count generalizing output with
  | zero => exact ⟨_, fun fd => rfl⟩
  | succ count ih =>
      simp only [readCols, bind_runOn, runOn_read_size, Option.bind_some]
      rcases output.take 2 with _ | ⟨type, _ | ⟨lol, _ | ⟨c, rest⟩⟩⟩
      · exact ⟨_, fun fd => rfl⟩
      · exact ⟨_, fun fd => rfl⟩
      · simp only [bind_runOn, runOn_read_size, Option.bind_some]
        generalize output.drop 2 = rest
        split_ifs
        · exact ⟨_, fun fd => rfl⟩
        · cases scanHex (lol - 48).toNat (rest.take (toSize (lol - 48))) with
          | none => exact ⟨_, fun fd => rfl⟩
          | some len =>
              simp only [bind_runOn, runOn_read_size, Option.bind_some]
              split_ifs
              · exact ⟨_, fun fd => rfl⟩
              · obtain ⟨⟨cols, left⟩, hcols⟩ := ih ((rest.drop (toSize (lol - 48))).drop len.1)
                simp only [bind_runOn, hcols, Option.bind_some]
                cases cols <;> exact ⟨_, fun fd => rfl⟩
      · exact ⟨_, fun fd => rfl⟩

theorem exists_readRow (output : Bytes) : ∃ r, ∀ fd, (readRow fd).runOn fd output = some r := by
  simp only [readRow, bind_runOn, runOn_read_size, Option.bind_some]
  split_ifs
  · exact ⟨_, fun fd => rfl⟩
  · cases scanHex 8 (output.take 12) with
    | none => exact ⟨_, fun fd => rfl⟩
    | some row_len =>
        cases scanHex 4 ((output.take 12).drop 8) with
        | none => exact ⟨_, fun fd => rfl⟩
        | some col_count =>
            obtain ⟨⟨cols, left⟩, hcols⟩ :=
              exists_readCols (columnCount col_count.1) (output.drop 12)
            simp only [bind_runOn, hcols, Option.bind_some]
            cases cols <;> exact ⟨_, fun fd => rfl⟩

/-- What is read as a row from the beginning of an output, and what is left. -/
def takeRow (output : Bytes) : Option (ℕ × List (UInt8 × Bytes)) × Bytes :=
  ((readRow 0).runOn 0 output).getD (none, [])

theorem runOn_readRow (fd : ℕ) (output : Bytes) :
    (readRow fd).runOn fd output = some (takeRow output) := by
  obtain ⟨r, hr⟩ := exists_readRow output
  rw [hr fd, takeRow, hr 0]
  rfl

end Reading

section Condition

/-- What is left when a scan stops, after a row of length `len`, and whether it came to the end. -/
def scanRest : ℕ → ℕ → Bytes → Bytes × Bool
  | _, 0, rest => (rest, true)
  | 0, _ + 1, rest => (rest, false)
  | rows + 1, _ + 1, rest => scanRest rows ((takeRow rest).1.elim 0 Prod.fst) (takeRow rest).2

/-- What a cursor leaves of an output fits into the pipe whenever it waits for the child: when it
meets the end or something that is no row, and when it is closed with this child. The first argument
is what is left of the last output, if the cursor still has the child. -/
def WaitsFit (capacity : ℕ) : Option Bytes → List Scan → Prop
  | left, [] => ∀ rest, left = some rest → rest.length ≤ capacity
  | left, scan :: scans =>
    match scan.child with
    | none => ∀ rest, left = some rest → rest.length ≤ capacity
    | some child =>
      match takeRow child.output with
      | (none, rest) =>
        rest.length ≤ capacity ∧ (child.status = 0 → WaitsFit capacity none scans)
      | (some (len, _), rest) =>
        match scanRest scan.rows len rest with
        | (rest, true) => rest.length ≤ capacity ∧ WaitsFit capacity none scans
        | (rest, false) => WaitsFit capacity (some rest) scans

end Condition

section Programs

variable {capacity : ℕ} {cs : List Source} {cur cur' : Cursor} {fd : ℕ} {c : Source}

theorem closesWaited_bind {α β : Type} {p : Program α} {f : α → Program β}
    (h : p.ClosesWaited []) (hf : ∀ a, (f a).ClosesWaited []) : (p >>= f).ClosesWaited [] :=
  h.bind hf

theorem closesWaited_popen_argv_close (output : Option Output) :
    (popen_argv_close output).ClosesWaited [] := by
  cases output with
  | none => trivial
  | some pid => exact fun status => ⟨List.mem_cons_self, trivial⟩

theorem closesWaited_readCols (fd count : ℕ) : (readCols fd count).ClosesWaited [] := by
  induction count with
  | zero => trivial
  | succ count ih =>
      refine closesWaited_bind (fun _ => trivial) fun tlol => ?_
      split
      · refine closesWaited_bind (fun _ => trivial) fun digits => ?_
        split
        · trivial
        · split
          · trivial
          · refine closesWaited_bind (fun _ => trivial) fun data => ?_
            split
            · trivial
            · refine closesWaited_bind ih fun cols => ?_
              cases cols <;> trivial
      · trivial

theorem closesWaited_readRow (fd : ℕ) : (readRow fd).ClosesWaited [] := by
  refine closesWaited_bind (fun _ => trivial) fun text => ?_
  split
  · trivial
  · split
    · trivial
    · split
      · trivial
      · refine closesWaited_bind (closesWaited_readCols fd _) fun cols => ?_
        cases cols <;> trivial

theorem closesWaited_gufi_query_read_row (cur : Cursor) :
    (gufi_query_read_row cur).ClosesWaited [] := by
  unfold gufi_query_read_row
  split
  · trivial
  · refine closesWaited_bind (closesWaited_readRow _) fun row => ?_
    cases row <;> trivial

theorem closesWaited_gufi_vtEof (cur : Cursor) : (gufi_vtEof cur).ClosesWaited [] := by
  unfold gufi_vtEof
  split
  · exact closesWaited_bind (closesWaited_popen_argv_close _) fun _ => trivial
  · trivial

theorem closesWaited_scanRows (rows : ℕ) (cur : Cursor) : (scanRows rows cur).ClosesWaited [] := by
  induction rows generalizing cur with
  | zero => exact closesWaited_bind (closesWaited_gufi_vtEof cur) fun _ => trivial
  | succ rows ih =>
      refine closesWaited_bind (closesWaited_gufi_vtEof cur) fun ⟨cur', eof⟩ => ?_
      dsimp only
      split
      · trivial
      · refine closesWaited_bind ?_ fun cur => ih cur
        exact closesWaited_bind (closesWaited_gufi_query_read_row _) fun _ => trivial

theorem closesWaited_gufi_vtFilter (child : Option Pipe.Child) (cur : Cursor) :
    (gufi_vtFilter child cur).ClosesWaited [] := by
  refine closesWaited_bind ?_ fun output => ?_
  · cases child with
    | none => trivial
    | some child => exact fun _ => trivial
  · split
    · trivial
    · refine closesWaited_bind (closesWaited_gufi_query_read_row _) fun ⟨cur', row⟩ => ?_
      dsimp only
      split
      · trivial
      · exact closesWaited_bind (closesWaited_popen_argv_close _) fun _ => trivial

theorem closesWaited_useCursor (scans : List Scan) (cur : Cursor) :
    (useCursor scans cur).ClosesWaited [] := by
  have hclose (cur : Cursor) : (gufi_vtClose cur).ClosesWaited [] :=
    closesWaited_bind (closesWaited_popen_argv_close _) fun _ => trivial
  induction scans generalizing cur with
  | nil => exact hclose cur
  | cons scan scans ih =>
      refine closesWaited_bind (closesWaited_gufi_vtFilter _ _) fun ⟨cur', rc⟩ => ?_
      dsimp only
      split
      · exact hclose _
      · exact closesWaited_bind (closesWaited_scanRows _ _) fun cur => ih cur

/-- What a cursor has after a row was read, or none. -/
def afterRow (cur : Cursor) : Option (ℕ × List (UInt8 × Bytes)) → Cursor × Bool
  | none => (gufi_vtab_cursor_fini cur, false)
  | some (len, cols) => ({ cur with len := len, cols := cols }, true)

theorem bind_bind {α β γ : Type} (p : Program α) (f : α → Program β) (g : β → Program γ) :
    (p >>= f) >>= g = p >>= fun a => f a >>= g :=
  p.bind_assoc f g

theorem runOn_gufi_query_read_row (hcur : cur.output = some fd) (output : Bytes) :
    (gufi_query_read_row cur).runOn fd output =
      some (afterRow cur (takeRow output).1, (takeRow output).2) := by
  obtain ⟨out, rowid, len, cols⟩ := cur
  obtain rfl : out = some fd := hcur
  simp only [gufi_query_read_row, bind_runOn, runOn_readRow, Option.bind_some]
  rcases (takeRow output).1 with _ | ⟨len, cols⟩ <;> rfl

theorem fits_gufi_query_read_row {k : Cursor × Bool → Program Unit} (hcur : cur.output = some fd)
    (hc : cs[fd]? = some c) (hopen : c.closed = false) :
    (gufi_query_read_row cur >>= k).Fits capacity cs ↔
      (k (afterRow cur (takeRow c.unread).1)).Fits capacity
        (cs.set fd { c with unread := (takeRow c.unread).2 }) :=
  Program.fits_bind hc hopen (runOn_gufi_query_read_row hcur c.unread)

theorem fits_popen_argv_close {k : ℤ → Program Unit} (hc : cs[fd]? = some c) :
    (popen_argv_close (some fd) >>= k).Fits capacity cs ↔ c.unread.length ≤ capacity ∧
      (k c.status).Fits capacity (cs.modify fd fun c => { c with closed := true }) := by
  change (Program.wait fd _).Fits capacity cs ↔ _
  simp only [Program.Fits, hc]
  rfl

theorem fits_gufi_vtEof {k : Cursor × Bool → Program Unit} (hcur : cur.output = some fd)
    (hc : cs[fd]? = some c) :
    (gufi_vtEof cur >>= k).Fits capacity cs ↔
      if cur.len = 0 then c.unread.length ≤ capacity ∧ (k ({ cur with output := none }, true)).Fits
        capacity (cs.modify fd fun c => { c with closed := true })
      else (k (cur, false)).Fits capacity cs := by
  unfold gufi_vtEof
  split
  · rw [bind_bind, hcur]
    exact fits_popen_argv_close hc
  · exact Iff.rfl

/-- A program that uses nothing of a cursor but its child. -/
def OfOutput (k : Cursor → Program Unit) : Prop :=
  ∀ cur cur' : Cursor, cur.output = cur'.output → k cur = k cur'

theorem fits_scanRows {k : Cursor → Program Unit} (hk : OfOutput k) (rows : ℕ)
    (hcur : cur.output = some fd) (hc : cs[fd]? = some c) (hopen : c.closed = false) :
    (scanRows rows cur >>= k).Fits capacity cs ↔
      match scanRest rows cur.len c.unread with
      | (rest, true) => rest.length ≤ capacity ∧ (k ⟨none, 0, 0, []⟩).Fits capacity
          ((cs.set fd { c with unread := rest }).modify fd fun c => { c with closed := true })
      | (rest, false) =>
        (k ⟨some fd, 0, 0, []⟩).Fits capacity (cs.set fd { c with unread := rest }) := by
  induction rows generalizing cur cs c with
  | zero =>
      rw [scanRows, bind_bind, fits_gufi_vtEof hcur hc]
      rcases hlen : cur.len with _ | len
      · rw [if_pos rfl, scanRest]
        dsimp only
        rw [set_self hc, hk ⟨none, 0, 0, []⟩ ⟨none, cur.rowid, 0, cur.cols⟩ rfl]
        rfl
      · rw [if_neg (Nat.succ_ne_zero len), scanRest]
        dsimp only
        rw [set_self hc, hk ⟨some fd, 0, 0, []⟩ cur hcur.symm]
        rfl
  | succ rows ih =>
      rw [scanRows, bind_bind, fits_gufi_vtEof hcur hc]
      rcases hlen : cur.len with _ | len
      · rw [if_pos rfl, scanRest]
        dsimp only
        rw [set_self hc, hk ⟨none, 0, 0, []⟩ ⟨none, cur.rowid, 0, cur.cols⟩ rfl]
        rfl
      · rw [if_neg (Nat.succ_ne_zero len), scanRest]
        dsimp only
        have hfini : (gufi_vtab_cursor_fini cur).output = some fd := hcur
        rw [if_neg Bool.false_ne_true, bind_bind, gufi_vtNext, bind_bind,
          fits_gufi_query_read_row hfini hc hopen]
        have hself : (cs.set fd { c with unread := (takeRow c.unread).2 })[fd]? =
            some { c with unread := (takeRow c.unread).2 } :=
          List.getElem?_set_self (List.getElem?_eq_some_iff.mp hc).1
        rcases (takeRow c.unread).1 with _ | ⟨len', cols⟩
        · have hnext := @ih _ { gufi_vtab_cursor_fini cur with rowid := cur.rowid + 0 } _
            hcur hself hopen
          simp only [List.set_set] at hnext
          exact hnext
        · have hnext := @ih _ ⟨cur.output, cur.rowid + 1, len', cols⟩ _ hcur hself hopen
          simp only [List.set_set] at hnext
          exact hnext

/-- Of a cursor only the child counts. -/
theorem ofOutput_useCursor (scans : List Scan) : OfOutput (useCursor scans) := by
  intro cur cur' h
  have hclose : gufi_vtClose cur = gufi_vtClose cur' := by
    change (popen_argv_close cur.output >>= _) = (popen_argv_close cur'.output >>= _)
    rw [h]
  cases scans with
  | nil => exact hclose
  | cons scan scans =>
      obtain ⟨child, rows⟩ := scan
      cases child with
      | none => exact hclose
      | some child => rfl

/-- What is left of the output of a child that a cursor has. -/
def Holds (cs : List Source) (output : Option Output) (left : Option Bytes) : Prop :=
  match output with
  | none => left = none
  | some fd => ∃ c, cs[fd]? = some c ∧ c.closed = false ∧ left = some c.unread

theorem holds_none {rowid len : ℕ} {cols : List (UInt8 × Bytes)} :
    Holds cs (⟨none, rowid, len, cols⟩ : Cursor).output none := rfl

theorem fits_gufi_vtClose {left : Option Bytes} (h : Holds cs cur.output left) :
    (gufi_vtClose cur).Fits capacity cs ↔ ∀ rest, left = some rest → rest.length ≤ capacity := by
  change (popen_argv_close cur.output >>= fun _ => pure ()).Fits capacity cs ↔ _
  cases hcur : cur.output with
  | none =>
      rw [hcur] at h
      obtain rfl : left = none := h
      exact iff_of_true trivial nofun
  | some fd =>
      rw [hcur] at h
      obtain ⟨c, hc, hopen, rfl⟩ := h
      rw [fits_popen_argv_close hc]
      constructor
      · rintro ⟨hfits, -⟩ rest hrest
        rwa [← Option.some.inj hrest]
      · exact fun hall => ⟨hall _ rfl, trivial⟩

theorem fits_gufi_vtFilter {k : Cursor × Rc → Program Unit} (child : Pipe.Child) :
    (gufi_vtFilter (some child) cur >>= k).Fits capacity cs ↔
      match takeRow child.output with
      | (none, rest) => rest.length ≤ capacity ∧
        (k (⟨none, 0, 0, []⟩, if child.status ≠ 0 then .error else .ok)).Fits capacity
          (cs ++ [⟨rest, true, child.status⟩])
      | (some (len, cols), rest) => (k (⟨some cs.length, 0, len, cols⟩, .ok)).Fits capacity
          (cs ++ [⟨rest, false, child.status⟩]) := by
  have hc (rest : Bytes) : (cs ++ [(⟨rest, false, child.status⟩ : Source)])[cs.length]? =
      some ⟨rest, false, child.status⟩ := List.getElem?_concat_length
  have hset (rest : Bytes) : (cs ++ [(⟨child.output, false, child.status⟩ : Source)]).set cs.length
      ⟨rest, false, child.status⟩ = cs ++ [⟨rest, false, child.status⟩] := by
    rw [List.set_append_right _ _ le_rfl, Nat.sub_self]
    rfl
  -- the result of the row that is read first
  have hstart : (gufi_vtFilter (some child) cur >>= k).Fits capacity cs ↔
      (gufi_query_read_row ⟨some cs.length, 0, 0, []⟩ >>= fun r : Cursor × Bool =>
        (if r.2 then pure (r.1, Rc.ok) else do
          let ret ← popen_argv_close r.1.output
          pure (({ r.1 with output := none } : Cursor),
            if ret ≠ 0 then Rc.error else Rc.ok)) >>= k).Fits
              capacity (cs ++ [⟨child.output, false, child.status⟩]) := by
    rw [← bind_bind]
    rfl
  rw [hstart, fits_gufi_query_read_row rfl (hc _) rfl]
  dsimp only
  rw [hset]
  rcases takeRow child.output with ⟨_ | ⟨len, cols⟩, rest⟩
  · simp only [afterRow, gufi_vtab_cursor_fini, Bool.false_eq_true, if_false]
    have hmodify : (cs ++ [(⟨rest, false, child.status⟩ : Source)]).modify cs.length
        (fun c => { c with closed := true }) = cs ++ [⟨rest, true, child.status⟩] := by
      rw [List.modify_eq_take_cons_drop (by simp)]
      simp
    rw [bind_bind, fits_popen_argv_close (hc rest), hmodify]
    refine and_congr_right fun _ => ?_
    simp only [ne_eq, Int.natCast_eq_zero]
    rfl
  · exact Iff.rfl

theorem fits_useCursor (scans : List Scan) {left : Option Bytes}
    (h : Holds cs cur.output left) :
    (useCursor scans cur).Fits capacity cs ↔ WaitsFit capacity left scans := by
  induction scans generalizing cs cur left with
  | nil => exact fits_gufi_vtClose h
  | cons scan scans ih =>
      obtain ⟨child, rows⟩ := scan
      cases child with
      | none => exact fits_gufi_vtClose h
      | some child =>
          rw [useCursor, fits_gufi_vtFilter, WaitsFit]
          dsimp only
          rcases takeRow child.output with ⟨_ | ⟨len, cols⟩, rest⟩
          · refine and_congr_right fun _ => ?_
            by_cases hstatus : child.status = 0
            · have hend (cur' : Cursor) (hcur' : cur'.output = none) (hlen : cur'.len = 0) :
                  scanRows rows cur' >>= useCursor scans = useCursor scans cur' := by
                obtain ⟨output, rowid, len, cols⟩ := cur'
                obtain rfl : output = (none : Option Output) := hcur'
                obtain rfl : len = 0 := hlen
                cases rows <;> rfl
              rw [if_neg (not_not.mpr hstatus), if_neg nofun, hend _ rfl rfl]
              exact (ih holds_none).trans ⟨fun h _ => h, fun h => h hstatus⟩
            · rw [if_pos hstatus, if_pos rfl]
              exact iff_of_true trivial fun h => absurd h hstatus
          · dsimp only
            rw [if_neg nofun, fits_scanRows (ofOutput_useCursor scans) rows rfl
              List.getElem?_concat_length rfl]
            dsimp only
            rcases scanRest rows len rest with ⟨left', _ | _⟩
            · exact ih ⟨_, List.getElem?_set_self (by simp), rfl, rfl⟩
            · exact and_congr_right fun _ => ih holds_none

end Programs

section Rows

open QueryRows hiding readRow

variable {row : Row} {rows : List Row} {rest : Bytes} {capacity : ℕ}

/-- What `QueryRows.readColumns` reads from all of the output. -/
theorem readCols_of_readColumns {fd i count room : ℕ} {input : Bytes} {cols : List (UInt8 × Bytes)}
    (h : readColumns i count room input = .ok (cols, rest)) :
    (readCols fd count).runOn fd input = some (some cols, rest) := by
  induction count generalizing i room input cols with
  | zero =>
      obtain ⟨rfl, rfl⟩ := Prod.mk.inj (Except.ok.inj h)
      rfl
  | succ count ih =>
      obtain - | ⟨type, - | ⟨lol, input⟩⟩ := input
      · cases h
      · cases h
      · rw [readColumns] at h
        split_ifs at h with hlol
        obtain ⟨hsmall, henough⟩ := not_or.mp hlol
        have hsize : toSize (lol - 48) = (lol - 48).toNat := if_pos (Nat.lt_of_not_le hsmall)
        have hdigits : (input.take (lol - 48).toNat).length = (lol - 48).toNat :=
          List.length_take_of_le (Nat.le_of_not_lt henough)
        cases hscan : scanHex (lol - 48).toNat (input.take (lol - 48).toNat) with
        | none =>
            rw [hscan] at h
            cases h
        | some len =>
            rw [hscan] at h
            dsimp only at h
            split_ifs at h with hdata hroom
            have hlen : ((input.drop (lol - 48).toNat).take len.1).length = len.1 :=
              List.length_take_of_le (Nat.le_of_not_lt hdata)
            cases hrest : readColumns (i + 1) count (room - (2 + (lol - 48).toNat + len.1))
                ((input.drop (lol - 48).toNat).drop len.1) with
            | error e =>
                rw [hrest] at h
                cases h
            | ok r =>
                rw [hrest] at h
                obtain ⟨rfl, rfl⟩ := Prod.mk.inj (Except.ok.inj h)
                simp only [readCols, bind_runOn, runOn_read_size, Option.bind_some,
                  List.take_succ_cons, List.take_zero, List.drop_succ_cons, List.drop_zero, hsize,
                  hdigits, hscan, hlen, ne_eq, not_true, or_false, if_neg hsmall, if_false]
                rw [ih hrest]
                rfl

theorem takeRow_rowToFile (h : IsRow row) (rest : Bytes) :
    takeRow (rowToFile row ++ rest) =
      (some ((row.map Column.length).sum, row.map Column.decoded), rest) := by
  have hlen8 := length_padded (by omega : 1 < 16) (by omega) h.len
  have hlen4 := length_padded (by omega : 1 < 16) (by omega) h.count
  have hscan8 := scanHex_append (isNumber_padded (by omega) le_rfl 8 (rowLen row))
    (by rw [← List.length_pos_iff, hlen8]; omega) (by omega) (padded 4 16 row.length)
  have hscan4 := scanHex_append (isNumber_padded (by omega) le_rfl 4 row.length)
    (by rw [← List.length_pos_iff, hlen4]; omega) (by omega) []
  rw [hlen8, readDigits_padded (by omega) le_rfl] at hscan8
  rw [hlen4, readDigits_padded (by omega) le_rfl, List.append_nil] at hscan4
  have hsplit : rowToFile row ++ rest = (padded 8 16 (rowLen row) ++ padded 4 16 row.length) ++
      (row.flatMap columnToFile ++ rest) := by
    simp only [rowToFile, List.append_assoc]
  have hlen12 : (padded 8 16 (rowLen row) ++ padded 4 16 row.length).length = 12 := by
    rw [List.length_append, hlen8, hlen4]
  have hcount : columnCount row.length = row.length := by
    have hlt := h.count
    have hmod : row.length % 2 ^ 32 = row.length := Nat.mod_eq_of_lt (by omega)
    rw [columnCount, hmod, if_pos (by omega)]
  have hrow : (rowLen row + 2 ^ 64 - 12) % 2 ^ 64 = (row.map Column.length).sum := by
    have hlt := h.len
    have hle : rowLen row = (row.map Column.length).sum + 12 := rfl
    omega
  have hcolumns := @readColumns_append rest (row.map Column.length).sum row 0 0
    (fun c hc => h.length_text_lt hc) le_rfl
  rw [Nat.add_zero, readColumns] at hcolumns
  have hcols := @readCols_of_readColumns _ 0 _ _ _ _ _ hcolumns
  rw [takeRow, readRow, bind_runOn, runOn_read_size, hsplit, List.take_left' hlen12,
    List.drop_left' hlen12]
  simp only [Option.bind_some, hlen12, ne_eq, not_true, if_false, hscan8, List.drop_left' hlen8,
    hscan4, hcount]
  rw [bind_runOn, hcols, List.append_nil, h.map_text, ← hrow]
  rfl

theorem sum_length_pos (h : IsRow row) : 0 < (row.map Column.length).sum := by
  obtain ⟨c, columns, rfl⟩ := List.exists_cons_of_ne_nil h.ne_nil
  rw [List.map_cons, List.sum_cons, Column.length]
  omega

theorem scanRest_rows (hrows : ∀ row ∈ rows, IsRow row) (n : ℕ) {len : ℕ} (hlen : 0 < len) :
    scanRest n len (rows.flatMap rowToFile) =
      ((rows.drop n).flatMap rowToFile, decide (rows.length < n)) := by
  obtain ⟨len, rfl⟩ := Nat.exists_eq_succ_of_ne_zero (Nat.ne_of_gt hlen)
  induction n generalizing rows len with
  | zero => rfl
  | succ n ih =>
      cases rows with
      | nil =>
          have hnone : takeRow [] = (none, []) := rfl
          rw [scanRest, List.flatMap_nil, hnone]
          cases n <;> rfl
      | cons row rows =>
          have hrow := hrows row List.mem_cons_self
          obtain ⟨len', hlen'⟩ := Nat.exists_eq_succ_of_ne_zero (Nat.ne_of_gt (sum_length_pos hrow))
          rw [scanRest, List.flatMap_cons, takeRow_rowToFile hrow]
          dsimp only [Option.elim_some]
          rw [hlen', ih (fun r hr => hrows r (List.mem_cons_of_mem row hr)) _ (Nat.succ_pos _),
            List.drop_succ_cons, List.length_cons]
          simp

theorem length_flatMap_rowToFile (hrows : ∀ row ∈ rows, IsRow row) :
    (rows.flatMap rowToFile).length = (rows.map rowLen).sum := by
  rw [List.length_flatMap]
  congr 1
  exact List.map_congr_left fun row hrow => (hrows row hrow).length_rowToFile

/-- A cursor that is closed after `n` more rows than the first of some that were printed. -/
theorem neverDeadlocks_rows_iff (hcapacity : 0 < capacity) (hrows : ∀ row ∈ rows, IsRow row)
    (status n : ℕ) :
    NeverDeadlocks capacity
      (useCursor [⟨some ⟨rows.flatMap rowToFile, status⟩, n⟩] gufi_vtOpen) ↔
      ((rows.drop (n + 1)).map rowLen).sum ≤ capacity := by
  have hopen : Holds [] gufi_vtOpen.output none := rfl
  rw [neverDeadlocks_iff hcapacity (closesWaited_useCursor _ _), fits_useCursor _ hopen, WaitsFit]
  dsimp only
  cases rows with
  | nil =>
      have hnone : takeRow [] = (none, []) := rfl
      rw [List.flatMap_nil, hnone]
      exact iff_of_true ⟨Nat.zero_le _, fun _ => nofun⟩ (Nat.zero_le _)
  | cons row rows =>
      have hrest : ∀ r ∈ rows, IsRow r := fun r hr => hrows r (List.mem_cons_of_mem row hr)
      have hrow := hrows row List.mem_cons_self
      have hlen : ((rows.drop n).flatMap rowToFile).length = ((rows.drop n).map rowLen).sum :=
        length_flatMap_rowToFile fun r hr => hrest r (List.mem_of_mem_drop hr)
      rw [List.flatMap_cons, takeRow_rowToFile hrow]
      dsimp only
      rw [scanRest_rows hrest n (sum_length_pos hrow), List.drop_succ_cons, ← hlen]
      by_cases hend : rows.length < n
      · rw [decide_eq_true hend]
        exact ⟨fun h => h.1, fun h => ⟨h, nofun⟩⟩
      · rw [decide_eq_false hend]
        exact ⟨fun h => h _ rfl, fun h rest hrest => Option.some.inj hrest ▸ h⟩

end Rows

section Statement

open QueryRows hiding readRow

/-- A cursor never waits for a child that is blocked just if what it leaves of an output fits into
the pipe whenever it waits. -/
theorem neverDeadlocks_useCursor_iff (capacity : ℕ) (hcapacity : 0 < capacity) (scans : List Scan) :
    NeverDeadlocks capacity (useCursor scans gufi_vtOpen) ↔ WaitsFit capacity none scans := by
  rw [neverDeadlocks_iff hcapacity (closesWaited_useCursor scans gufi_vtOpen)]
  exact fits_useCursor scans rfl

def twoRows : List Row := [oneColumn (some [97, 98]), oneColumn (some [99, 100])]

theorem isRow_twoRows : ∀ row ∈ twoRows, IsRow row := by
  intro row hrow
  simp only [twoRows, List.mem_cons, List.not_mem_nil, or_false] at hrow
  obtain rfl | rfl := hrow
  · exact isRow_oneColumn (by simp) (by decide)
  · exact isRow_oneColumn (by simp) (by decide)

/-- A cursor that is filtered again after the first row, and closed after the first row of the
second output. -/
theorem neverDeadlocks_twice : 0 < 32 ∧ NeverDeadlocks 32
    (useCursor [⟨some ⟨twoRows.flatMap rowToFile, 0⟩, 0⟩, ⟨some ⟨twoRows.flatMap rowToFile, 0⟩, 0⟩]
      gufi_vtOpen) := by
  refine ⟨by decide, (neverDeadlocks_useCursor_iff 32 (by decide) _).mpr ?_⟩
  have htake : takeRow (twoRows.flatMap rowToFile) =
      (some (5, [(3, [97, 98])]), rowToFile (oneColumn (some [99, 100]))) := by decide +kernel
  simp only [WaitsFit, htake, scanRest]
  intro rest hrest
  rw [← Option.some.inj hrest]
  decide

/-- The second of two rows does not fit into a pipe for 16 bytes. -/
theorem not_neverDeadlocks : ¬ NeverDeadlocks 16
    (useCursor [⟨some ⟨twoRows.flatMap rowToFile, 0⟩, 0⟩] gufi_vtOpen) := by
  rw [neverDeadlocks_rows_iff (by decide) isRow_twoRows]
  decide

end Statement

end Gufi.VtCursor
