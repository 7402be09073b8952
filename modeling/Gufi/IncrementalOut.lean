import Gufi.IncrementalRows

/-!
# Directories that leave their places

The first pass deletes the directories that are gone and parks those that moved. Each of the others
is where it was, and nothing changes outside of the index and of the parking lot.
-/

namespace Gufi.IncrementalUpdate

open FileTree

section Places

variable {File : Type*}

/-- Where a directory belongs: in the directory of its parent, or at the top. -/
def slotOf (dir : ℕ → ℕ) (top : ℕ) (base : Path) (r : SnapshotRow) : ℕ × Bytes :=
  (if r.path = base then top else dir r.pinode, r.path.getLast?.getD [])

variable {fs : FileSystem Bytes File} {dirs : GufiDirs} {base : Path} {top : ℕ}
  {rows : List SnapshotRow} {dir : ℕ → ℕ} {place : ℕ → Option (ℕ × Bytes)}
  {files : ℕ → Bytes → Option File} {r p : SnapshotRow} {n : Bytes}

theorem slotOf_base (hr : r.path = base) :
    slotOf dir top base r = (top, base.getLast?.getD []) := by
  rw [slotOf, if_pos hr, hr]

theorem IsTree.ne_base (hrows : IsTree base rows) (hp : p ∈ rows) (hpath : r.path = p.path ++ [n]) :
    r.path ≠ base := by
  intro hbase
  have hle := (hrows.base_prefix hp).length_le
  rw [← hbase, hpath] at hle
  simp at hle

theorem IsTree.slotOf_below (hrows : IsTree base rows) (hp : p ∈ rows)
    (hpath : r.path = p.path ++ [n]) (hpinode : r.pinode = p.inode) :
    slotOf dir top base r = (dir p.inode, n) := by
  rw [slotOf, if_neg (hrows.ne_base hp hpath), hpath, List.getLast?_concat, Option.getD_some,
    hpinode]

/-- A directory is entered in its place if the directories above it are in theirs. -/
theorem slot_row (hrows : IsTree base rows) (hnamed : base ≠ [])
    (htop : fs.resolve dirs.indexParent base.dropLast = some (.dir top))
    (hfs : Realizes fs dir place files) (hr : r ∈ rows)
    (hplaces : ∀ s ∈ rows, s.path <+: r.path → s ≠ r →
      place s.inode = some (slotOf dir top base s)) :
    fs.slot dirs.indexParent r.path = some (slotOf dir top base r) := by
  obtain ⟨k, hk⟩ : ∃ k, r.path.length = k := ⟨_, rfl⟩
  induction k generalizing r with
  | zero =>
      have hle := (hrows.base_prefix hr).length_le
      have hpos := List.length_pos_of_ne_nil hnamed
      omega
  | succ k ih =>
      rcases hrows.parent r hr with hbase | ⟨p, hp, n, hpath, hpinode⟩
      · rw [slotOf_base hbase, hbase, List.getLast?_eq_some_getLast hnamed, Option.getD_some]
        conv_lhs => rw [← List.dropLast_concat_getLast hnamed]
        exact slot_concat_of_dir htop
      · have hlen : p.path.length = k := by
          rw [hpath] at hk
          simpa using hk
        have hpre : p.path <+: r.path := by
          rw [hpath]
          exact List.prefix_append _ _
        have hshort {s : SnapshotRow} (hs : s.path <+: p.path) : s ≠ r := by
          rintro rfl
          have hle := hs.length_le
          omega
        have hslot := ih hp (fun s hs hsp _ => hplaces s hs (hsp.trans hpre) (hshort hsp)) hlen
        have hparent : fs.resolve dirs.indexParent p.path = some (.dir (dir p.inode)) := by
          rw [resolve_of_slot hslot]
          exact hfs.lookup_place (hplaces p hp hpre (hshort List.prefix_rfl))
        rw [hrows.slotOf_below hp hpath hpinode, hpath]
        exact slot_concat_of_dir hparent

/-- A path leads to its directory if the directories on it are in their places. -/
theorem resolve_row (hrows : IsTree base rows) (hnamed : base ≠ [])
    (htop : fs.resolve dirs.indexParent base.dropLast = some (.dir top))
    (hfs : Realizes fs dir place files) (hr : r ∈ rows)
    (hplaces : ∀ s ∈ rows, s.path <+: r.path → place s.inode = some (slotOf dir top base s)) :
    fs.resolve dirs.indexParent r.path = some (.dir (dir r.inode)) := by
  have hslot := slot_row hrows hnamed htop hfs hr fun s hs hpre _ => hplaces s hs hpre
  rw [resolve_of_slot hslot]
  exact hfs.lookup_place (hplaces r hr List.prefix_rfl)

end Places

section Start

variable {File : Type*} (fs : FileSystem Bytes File) (dirs : GufiDirs) (index : List SnapshotRow)

def rowOf (inode : ℕ) : Option SnapshotRow := index.find? fun i => i.inode = inode

/-- The directory of an inode before the update. -/
def dir₀ (inode : ℕ) : ℕ :=
  ((rowOf index inode).bind fun i => fs.resolveDir dirs.indexParent i.path).getD 0

def place₀ (inode : ℕ) : Option (ℕ × Bytes) :=
  (rowOf index inode).bind fun i => fs.slot dirs.indexParent i.path

def files₀ (inode : ℕ) (n : Bytes) : Option File :=
  match fs.lookup (dir₀ fs dirs index inode) n with
  | some (.file f) => some f
  | _ => none

variable {fs dirs index} {base : Path} {top : ℕ} {i : SnapshotRow}

theorem rowOf_of_mem (hindex : IsTree base index) (hi : i ∈ index) :
    rowOf index i.inode = some i := find?_inode hindex hi

theorem resolve_dir₀ (hindex : IsTree base index) (hdirs : Indexed dirs fs base index)
    (hi : i ∈ index) :
    fs.resolve dirs.indexParent i.path = some (.dir (dir₀ fs dirs index i.inode)) := by
  obtain ⟨e, he⟩ := hdirs.dir i hi
  rw [dir₀, rowOf_of_mem hindex hi, Option.bind_some, resolveDir_eq_some.mpr he]
  exact he

theorem exists_row_of_place₀ {x : ℕ} {q : ℕ × Bytes} (h : place₀ fs dirs index x = some q) :
    ∃ i ∈ index, i.inode = x := by
  obtain ⟨i, hi, -⟩ := Option.bind_eq_some_iff.mp h
  exact ⟨i, List.mem_of_find?_eq_some hi, by simpa using List.find?_some hi⟩

theorem place₀_eq (hset : Setting dirs fs base top) (hindex : IsTree base index)
    (hdirs : Indexed dirs fs base index) (hi : i ∈ index) :
    place₀ fs dirs index i.inode = some (slotOf (dir₀ fs dirs index) top base i) := by
  rw [place₀, rowOf_of_mem hindex hi, Option.bind_some]
  rcases hindex.parent i hi with hbase | ⟨p, hp, n, hpath, hpinode⟩
  · rw [slotOf_base hbase, hbase, List.getLast?_eq_some_getLast hset.named, Option.getD_some]
    conv_lhs => rw [← List.dropLast_concat_getLast hset.named]
    exact slot_concat_of_dir hset.top
  · rw [hindex.slotOf_below hp hpath hpinode, hpath]
    exact slot_concat_of_dir (resolve_dir₀ hindex hdirs hp)

theorem realizes₀ (hset : Setting dirs fs base top) (hindex : IsTree base index)
    (hdirs : Indexed dirs fs base index) :
    Realizes fs (dir₀ fs dirs index) (place₀ fs dirs index) (files₀ fs dirs index) where
  entry x q hx d n := by
    obtain ⟨i, hi, rfl⟩ := exists_row_of_place₀ hx
    have hresolve := resolve_dir₀ hindex hdirs hi
    rw [place₀, rowOf_of_mem hindex hi, Option.bind_some] at hx
    rw [resolve_of_slot hx] at hresolve
    constructor
    · intro hlookup
      obtain ⟨rfl, rfl⟩ := hset.wellFormed.unique _ _ _ _ _ hlookup hresolve
      rfl
    · rintro rfl
      exact hresolve
  closed x q hx n e he := by
    obtain ⟨i, hi, rfl⟩ := exists_row_of_place₀ hx
    obtain ⟨path, hpath⟩ := hindex.base_prefix hi
    have hresolve := resolve_dir₀ hindex hdirs hi
    rw [← resolve_concat_of_dir hresolve, ← hpath, List.append_assoc] at he
    obtain ⟨j, hj, hjpath⟩ := hdirs.row _ e he
    have hjdir := resolve_dir₀ hindex hdirs hj
    rw [hjpath, he] at hjdir
    exact ⟨j.inode, _, place₀_eq hset hindex hdirs hj, (Entry.dir.inj (Option.some.inj hjdir)).symm⟩
  file x q _ n f := by
    unfold files₀
    split <;> simp_all
  inj x q y r hx hy hdir := by
    obtain ⟨i, hi, rfl⟩ := exists_row_of_place₀ hx
    obtain ⟨j, hj, rfl⟩ := exists_row_of_place₀ hy
    have hi' := resolve_dir₀ hindex hdirs hi
    have hj' := resolve_dir₀ hindex hdirs hj
    rw [hdir] at hi'
    rw [hindex.eq_of_path hi hj (hset.wellFormed.resolve_inj hi' hj')]
  bounded := hset.wellFormed.bounded
  fresh := hset.wellFormed.fresh

theorem files₀_eq_some {x : ℕ} {n : Bytes} {f : File} : files₀ fs dirs index x n = some f ↔
    fs.lookup (dir₀ fs dirs index x) n = some (.file f) := by
  unfold files₀
  split <;> simp_all

end Start

section Around

variable {File : Type*} {dirs : GufiDirs} {fs fs' : FileSystem Bytes File} {base : Path} {top : ℕ}
  {index tree : List SnapshotRow} {outs ins : List DiffRow} {i : SnapshotRow}

theorem Update.place₀_eq (h : Update dirs fs base top index tree outs ins) (hi : i ∈ index) :
    place₀ fs dirs index i.inode = some (slotOf (dir₀ fs dirs index) top base i) :=
  IncrementalUpdate.place₀_eq h.setting h.isIndex h.indexed hi

theorem Update.realizes₀ (h : Update dirs fs base top index tree outs ins) :
    Realizes fs (dir₀ fs dirs index) (place₀ fs dirs index) (files₀ fs dirs index) :=
  IncrementalUpdate.realizes₀ h.setting h.isIndex h.indexed

theorem Update.resolve_dir₀ (h : Update dirs fs base top index tree outs ins) (hi : i ∈ index) :
    fs.resolve dirs.indexParent i.path = some (.dir (dir₀ fs dirs index i.inode)) :=
  IncrementalUpdate.resolve_dir₀ h.isIndex h.indexed hi

theorem Update.slot₀ (h : Update dirs fs base top index tree outs ins) (hi : i ∈ index) :
    fs.slot dirs.indexParent i.path = some (slotOf (dir₀ fs dirs index) top base i) := by
  have hplace := h.place₀_eq hi
  rwa [place₀, rowOf_of_mem h.isIndex hi, Option.bind_some] at hplace

theorem Update.dir₀_ne_lot (h : Update dirs fs base top index tree outs ins) (hi : i ∈ index) :
    dir₀ fs dirs index i.inode ≠ dirs.parkingLot := by
  intro hlot
  obtain ⟨path, hpath⟩ := h.isIndex.base_prefix hi
  have hresolve := h.resolve_dir₀ hi
  rw [hlot, ← hpath] at hresolve
  exact h.setting.below path hresolve

/-- A path that is shorter than the index's does not lead to a directory of the index. -/
theorem Update.dir₀_ne_of_length_lt (h : Update dirs fs base top index tree outs ins)
    (hi : i ∈ index) {path : Path} {e : ℕ} (hlen : path.length < base.length)
    (he : fs.resolve dirs.indexParent path = some (.dir e)) : dir₀ fs dirs index i.inode ≠ e := by
  rintro rfl
  have hpath := h.setting.wellFormed.resolve_inj he (h.resolve_dir₀ hi)
  have hle := (h.isIndex.base_prefix hi).length_le
  rw [← hpath] at hle
  omega

theorem Update.length_dropLast_lt (h : Update dirs fs base top index tree outs ins) :
    base.dropLast.length < base.length := by
  have hpos := List.length_pos_of_ne_nil h.setting.named
  rw [List.length_dropLast]
  omega

theorem Update.dir₀_ne_top (h : Update dirs fs base top index tree outs ins) (hi : i ∈ index) :
    dir₀ fs dirs index i.inode ≠ top :=
  h.dir₀_ne_of_length_lt hi h.length_dropLast_lt h.setting.top

theorem Update.top_lt_next (h : Update dirs fs base top index tree outs ins) : top < fs.next :=
  h.setting.wellFormed.lt_next_of_resolve h.setting.index h.setting.top

/-- An entry is at the top or in a directory of the index. -/
theorem Update.slotOf_fst (h : Update dirs fs base top index tree outs ins) (hi : i ∈ index) :
    (slotOf (dir₀ fs dirs index) top base i).1 = top ∨
      ∃ p ∈ index, (slotOf (dir₀ fs dirs index) top base i).1 = dir₀ fs dirs index p.inode := by
  rcases h.isIndex.parent i hi with hbase | ⟨p, hp, n, hpath, hpinode⟩
  · exact .inl (by rw [slotOf_base hbase])
  · exact .inr ⟨p, hp, by rw [h.isIndex.slotOf_below hp hpath hpinode]⟩

/-- The entry of the top directory, and the directory is not empty on the way to a row below. -/
theorem Update.root_full (h : Update dirs fs base top index tree outs ins) {place files}
    (hfs : Realizes fs' (dir₀ fs dirs index) place files) (hi : i ∈ index) (hne : i.path ≠ base)
    (hplaces : ∀ s ∈ index, s.path <+: i.path →
      place s.inode = some (slotOf (dir₀ fs dirs index) top base s)) :
    fs'.vacant top (base.getLast?.getD []) = false := by
  obtain ⟨p, hp, hbase, s, hs, hpre, n, hpath, hpinode⟩ := h.isIndex.exists_child hi hne
  have hroot := hplaces p hp (by rw [hbase]; exact h.isIndex.base_prefix hi)
  have hchild := hplaces s hs hpre
  rw [slotOf_base hbase] at hroot
  rw [h.isIndex.slotOf_below hp hpath hpinode] at hchild
  rw [FileSystem.vacant, hfs.lookup_place hroot]
  exact hfs.isEmpty_eq_false hchild

/-- Only the top directory can be where it would be parked. -/
theorem Update.path_of_lot_eq (h : Update dirs fs base top index tree outs ins) (hi : i ∈ index)
    (hready : LotReady dirs fs i)
    (heq : (dirs.parkingLot, lotName i.inode) = (top, base.getLast?.getD [])) : i.path = base := by
  by_contra hne
  rcases hready with hvacant | hslot
  · obtain ⟨hlot, hname⟩ := Prod.mk.inj heq
    rw [hlot, hname, h.root_full h.realizes₀ hi hne fun s hs _ => h.place₀_eq hs] at hvacant
    exact Bool.false_ne_true hvacant
  · obtain ⟨p, hp, n, hpath, hpinode⟩ := (h.isIndex.parent i hi).resolve_left hne
    rw [h.slot₀ hi, heq, h.isIndex.slotOf_below hp hpath hpinode] at hslot
    exact h.dir₀_ne_top hp (Prod.mk.inj (Option.some.inj hslot)).1

theorem Update.tree_path_of_lot_eq (h : Update dirs fs base top index tree outs ins)
    (hi : i ∈ index) (hready : LotReady dirs fs i)
    (heq : (dirs.parkingLot, lotName i.inode) = (top, base.getLast?.getD [])) {t : SnapshotRow}
    (ht : t ∈ tree) (hinode : i.inode = t.inode) : t.path = base := by
  have hbase := h.path_of_lot_eq hi hready heq
  have hslot := h.slot₀ hi
  rw [slotOf_base hbase, hbase, ← heq] at hslot
  exact h.lot i hi hslot hbase t ht hinode

/-- A directory that is gone holds only `db.db`, or the name in the parking lot is not taken. -/
def OutReady (dirs : GufiDirs) (fs : FileSystem Bytes File) (r : DiffRow) : Prop :=
  match r.index, r.tree with
  | some i, none => Bare dirs fs i.path
  | some i, some _ => LotReady dirs fs i
  | none, _ => False

/-- Directories outside of the index are as they were, except for the entry of the index and those
that were made in the parking lot. -/
def SameOutside (dirs : GufiDirs) (fs : FileSystem Bytes File) (base : Path) (top : ℕ)
    (index : List SnapshotRow) (done : List DiffRow) (fs' : FileSystem Bytes File) : Prop :=
  ∀ d n, d < fs.next → (∀ i ∈ index, d ≠ dir₀ fs dirs index i.inode) →
    (d, n) ≠ (top, base.getLast?.getD []) →
    (∀ r ∈ done, ∀ i t, r.index = some i → r.tree = some t →
      (d, n) ≠ (dirs.parkingLot, lotName i.inode)) → fs'.lookup d n = fs.lookup d n

/-- The rows that the first query returns, in whatever order. -/
theorem Update.mem_outs_iff (h : Update dirs fs base top index tree outs ins) {r : DiffRow} :
    r ∈ outs ↔ ∃ i ∈ index, r.index = some i ∧
      ((r.tree = none ∧ ∀ t ∈ tree, t.inode ≠ i.inode) ∨
        ∃ t ∈ tree, t.inode = i.inode ∧ r.tree = some t ∧ Changed i t) :=
  h.order.removes.mem_iff.trans (mem_getDeletesAndMoveOuts h.isTree)

theorem Update.mem_outs_of_changed (h : Update dirs fs base top index tree outs ins)
    {t : SnapshotRow} (hi : i ∈ index) (ht : t ∈ tree) (hinode : i.inode = t.inode)
    (hchanged : Changed i t) : ⟨some i, some t⟩ ∈ outs :=
  h.mem_outs_iff.mpr ⟨i, hi, rfl, .inr ⟨t, ht, hinode.symm, rfl, hchanged⟩⟩

theorem Update.mem_ins_iff (h : Update dirs fs base top index tree outs ins) {r : DiffRow} :
    r ∈ ins ↔ ∃ t ∈ tree, r.tree = some t ∧
      ((r.index = none ∧ ∀ i ∈ index, i.inode ≠ t.inode) ∨
        ∃ i ∈ index, i.inode = t.inode ∧ r.index = some i ∧ Changed i t) :=
  h.order.creates.mem_iff.trans (mem_getCreatesAndMoveIns h.isTree)

theorem Update.mem_index (h : Update dirs fs base top index tree outs ins) {r : DiffRow}
    (hr : r ∈ outs) (hi : r.index = some i) : i ∈ index := by
  obtain ⟨j, hj, hrj, -⟩ := h.mem_outs_iff.mp hr
  rwa [Option.some.inj (hi.symm.trans hrj)]

/-- The way to the index is as it was. -/
theorem SameOutside.resolve_above {done : List DiffRow}
    (hsame : SameOutside dirs fs base top index done fs')
    (h : Update dirs fs base top index tree outs ins) (hdone : ∀ r ∈ done, r ∈ outs)
    (hready : ∀ r ∈ done, OutReady dirs fs r) {path : Path} (hpath : path <+: base.dropLast) :
    fs'.resolve dirs.indexParent path = fs.resolve dirs.indexParent path := by
  refine resolve_congr fun q m e hq he => ?_
  have hway := hq.trans hpath
  have hlen : q.length < base.dropLast.length := by
    have hle := hway.length_le
    simp only [List.length_append, List.length_singleton] at hle
    omega
  have hshort := hlen.trans h.length_dropLast_lt
  have htop : e ≠ top := by
    rintro rfl
    rw [h.setting.wellFormed.resolve_inj he h.setting.top] at hlen
    exact lt_irrefl _ hlen
  refine hsame e m (h.setting.wellFormed.lt_next_of_resolve h.setting.index he)
    (fun i hi => (h.dir₀_ne_of_length_lt hi hshort he).symm)
    (fun heq => htop (Prod.mk.inj heq).1) ?_
  rintro r hr i t hi ht heq
  have himem := h.mem_index (hdone r hr) hi
  have hlot : LotReady dirs fs i := by
    have hr := hready r hr
    rwa [OutReady, hi, ht] at hr
  rcases hlot with hvacant | hslot
  · obtain ⟨s, hs, hbase⟩ := h.isIndex.exists_base himem
    obtain ⟨path', hway'⟩ := hway.trans (List.dropLast_prefix base)
    have hfull := h.resolve_dir₀ hs
    cases path' with
    | nil =>
        have hlen' := congrArg List.length hway'
        have hle := hway.length_le
        have hlt := h.length_dropLast_lt
        rw [List.append_nil] at hlen'
        omega
    | cons n path' =>
        rw [hbase, ← hway'] at hfull
        obtain ⟨d, hd, hempty⟩ := exists_dir_of_resolve_append hfull
        rw [resolve_concat_of_dir he] at hd
        obtain ⟨rfl, rfl⟩ := Prod.mk.inj heq
        have hfree : fs.isEmpty d = true := by simpa [FileSystem.vacant, hd] using hvacant
        exact Bool.false_ne_true (hempty.symm.trans hfree)
  · rw [h.slot₀ himem, ← heq] at hslot
    have hfst := congrArg Prod.fst (Option.some.inj hslot)
    rcases h.slotOf_fst himem with htop' | ⟨p, hp, hdir⟩
    · exact htop (hfst.symm.trans htop')
    · exact h.dir₀_ne_of_length_lt hp hshort he (hdir.symm.trans hfst)

end Around

section Run

variable {File : Type*} {fs : FileSystem Bytes File} {rows : List DiffRow}
  {callback : FileSystem Bytes File → DiffRow → FileSystem Bytes File × Bool}

/-- If a call succeeds exactly when its row is ready, and then keeps the invariant, all calls
succeed exactly when all rows are ready. -/
theorem applyRows_invariant (Inv : List DiffRow → FileSystem Bytes File → Prop)
    (Ready : DiffRow → Prop) (hfirst : Inv [] fs)
    (hstep : ∀ done r rest fs', rows = done ++ r :: rest → Inv done fs' →
      ((callback fs' r).2 = true ↔ Ready r) ∧ (Ready r → Inv (done ++ [r]) (callback fs' r).1)) :
    ((applyRows callback rows fs).2 = true ↔ ∀ r ∈ rows, Ready r) ∧
      ((∀ r ∈ rows, Ready r) → Inv rows (applyRows callback rows fs).1) := by
  suffices hrun : ∀ done rest fs', rows = done ++ rest → Inv done fs' →
      ((applyRows callback rest fs').2 = true ↔ ∀ r ∈ rest, Ready r) ∧
        ((∀ r ∈ rest, Ready r) → Inv rows (applyRows callback rest fs').1) from
    hrun [] rows fs rfl hfirst
  intro done rest
  induction rest generalizing done with
  | nil =>
      intro fs' hrows hinv
      rw [List.append_nil] at hrows
      subst hrows
      exact ⟨iff_of_true rfl (by simp), fun _ => hinv⟩
  | cons r rest ih =>
      intro fs' hrows hinv
      obtain ⟨hready, hnext⟩ := hstep done r rest fs' hrows hinv
      have hrest (hr : Ready r) := ih (done ++ [r]) (callback fs' r).1 (by simp [hrows]) (hnext hr)
      simp only [applyRows, Bool.and_eq_true, List.forall_mem_cons, hready]
      exact ⟨and_congr_right fun hr => (hrest hr).1, fun hall => (hrest hall.1).2 hall.2⟩

end Run

section Outs

variable {File : Type*}

/-- The state after some rows of the first pass. -/
structure MovedOut (dirs : GufiDirs) (fs : FileSystem Bytes File) (base : Path) (top : ℕ)
    (index : List SnapshotRow) (done : List DiffRow) (fs' : FileSystem Bytes File)
    (place : ℕ → Option (ℕ × Bytes)) (files : ℕ → Bytes → Option File) : Prop where
  realizes : Realizes fs' (dir₀ fs dirs index) place files
  rows : ∀ x q, place x = some q → ∃ i ∈ index, i.inode = x
  kept : ∀ i ∈ index, (∀ r ∈ done, r.index ≠ some i) →
    place i.inode = some (slotOf (dir₀ fs dirs index) top base i)
  parked : ∀ r ∈ done, ∀ i t, r.index = some i → r.tree = some t →
    place i.inode = some (dirs.parkingLot, lotName i.inode)
  deleted : ∀ r ∈ done, ∀ i, r.index = some i → r.tree = none → place i.inode = none
  files : ∀ x q, place x = some q → files x = files₀ fs dirs index x
  root : fs'.lookup top (base.getLast?.getD []) = none ∨
    ∃ x, place x = some (top, base.getLast?.getD [])
  outside : SameOutside dirs fs base top index done fs'
  ready : ∀ r ∈ done, OutReady dirs fs r
  wellFormed : fs'.WellFormed
  next : fs'.next = fs.next

variable {dirs : GufiDirs} {fs fs' : FileSystem Bytes File} {base : Path} {top : ℕ}
  {index tree : List SnapshotRow} {outs ins done rest : List DiffRow} {r : DiffRow}
  {i t : SnapshotRow} {place : ℕ → Option (ℕ × Bytes)} {files : ℕ → Bytes → Option File}

/-- The directories above the one that is next have not left. -/
theorem MovedOut.place_above (hout : MovedOut dirs fs base top index done fs' place files)
    (h : Update dirs fs base top index tree outs ins) (hsplit : outs = done ++ r :: rest)
    (hi : r.index = some i) {s : SnapshotRow} (hs : s ∈ index) (hpre : s.path <+: i.path) :
    place s.inode = some (slotOf (dir₀ fs dirs index) top base s) := by
  refine hout.kept s hs fun u hu hus => ?_
  by_cases hsi : s = i
  · subst hsi
    exact h.order.not_done_out h.isIndex h.isTree hsplit u hu (hus.trans hi.symm)
  · have hdepth := h.isIndex.depth_lt_of_prefix (h.mem_index (by simp [hsplit]) hi) hs hpre hsi
    refine h.order.not_done_of_depth_lt hsplit ?_ hu
    simpa [DiffRow.indexDepth, hus, hi] using hdepth

theorem MovedOut.resolve_top (hout : MovedOut dirs fs base top index done fs' place files)
    (h : Update dirs fs base top index tree outs ins) (hdone : ∀ r ∈ done, r ∈ outs) :
    fs'.resolve dirs.indexParent base.dropLast = some (.dir top) := by
  rw [hout.outside.resolve_above h hdone hout.ready List.prefix_rfl]
  exact h.setting.top

theorem MovedOut.slot (hout : MovedOut dirs fs base top index done fs' place files)
    (h : Update dirs fs base top index tree outs ins) (hsplit : outs = done ++ r :: rest)
    (hi : r.index = some i) :
    fs'.slot dirs.indexParent i.path = some (slotOf (dir₀ fs dirs index) top base i) :=
  slot_row h.isIndex h.setting.named (hout.resolve_top h fun s hs => by simp [hsplit, hs])
    hout.realizes (h.mem_index (by simp [hsplit]) hi)
    fun _ hs hpre _ => hout.place_above h hsplit hi hs hpre

theorem MovedOut.start (h : Update dirs fs base top index tree outs ins)
    (hbase : ∀ f, fs.resolve dirs.indexParent base ≠ some (.file f)) :
    MovedOut dirs fs base top index [] fs (place₀ fs dirs index) (files₀ fs dirs index) where
  realizes := h.realizes₀
  rows _ _ := exists_row_of_place₀
  kept i hi _ := h.place₀_eq hi
  parked := by simp
  deleted := by simp
  files _ _ _ := rfl
  root := by
    have hslot : fs.resolve dirs.indexParent base = fs.lookup top (base.getLast?.getD []) := by
      rw [List.getLast?_eq_some_getLast h.setting.named, Option.getD_some,
        ← resolve_concat_of_dir h.setting.top, List.dropLast_concat_getLast]
    cases hlookup : fs.lookup top (base.getLast?.getD []) with
    | none => exact .inl rfl
    | some v =>
        rw [hlookup] at hslot
        cases v with
        | file f => exact absurd hslot (hbase f)
        | dir e =>
            obtain ⟨i, hi, hpath⟩ := h.indexed.row [] e (by rwa [List.append_nil])
            rw [List.append_nil] at hpath
            refine .inr ⟨i.inode, ?_⟩
            rw [h.place₀_eq hi, slotOf_base hpath]
  outside _ _ _ _ _ _ := rfl
  ready := by simp
  wellFormed := h.setting.wellFormed
  next := rfl

/-- A directory that has a place is where it was or in the parking lot. -/
theorem MovedOut.place_cases (hout : MovedOut dirs fs base top index done fs' place files) {x : ℕ}
    {q : ℕ × Bytes} (hx : place x = some q) : ∃ i ∈ index, i.inode = x ∧
      ((∀ r ∈ done, r.index ≠ some i) ∧ q = slotOf (dir₀ fs dirs index) top base i ∨
        q = (dirs.parkingLot, lotName x)) := by
  obtain ⟨i, hi, rfl⟩ := hout.rows x q hx
  refine ⟨i, hi, rfl, ?_⟩
  by_cases hdone : ∀ r ∈ done, r.index ≠ some i
  · exact .inl ⟨hdone, Option.some.inj (hx.symm.trans (hout.kept i hi hdone))⟩
  · right
    simp only [not_forall, not_not] at hdone
    obtain ⟨r, hr, hri⟩ := hdone
    cases hrt : r.tree with
    | none =>
        rw [hout.deleted r hr i hri hrt] at hx
        exact nomatch hx
    | some t => exact Option.some.inj (hx.symm.trans (hout.parked r hr i t hri hrt))

theorem MovedOut.place_root (hout : MovedOut dirs fs base top index done fs' place files)
    (h : Update dirs fs base top index tree outs ins) (hsplit : outs = done ++ r :: rest)
    (hi : r.index = some i) :
    ∃ s ∈ index, s.path = base ∧ place s.inode = some (top, base.getLast?.getD []) := by
  have hmem := h.mem_index (by simp [hsplit]) hi
  obtain ⟨s, hs, hbase⟩ := h.isIndex.exists_base hmem
  have hplace := hout.place_above h hsplit hi hs (by rw [hbase]; exact h.isIndex.base_prefix hmem)
  rw [slotOf_base hbase] at hplace
  exact ⟨s, hs, hbase, hplace⟩

/-- The invariant is kept if only the directory, its entry and its name in the parking lot
change. -/
theorem MovedOut.leave (hout : MovedOut dirs fs base top index done fs' place files)
    (h : Update dirs fs base top index tree outs ins) (hsplit : outs = done ++ r :: rest)
    (hi : r.index = some i) (hready : OutReady dirs fs r) {fs'' : FileSystem Bytes File}
    {files' : ℕ → Bytes → Option File}
    (hrealizes : Realizes fs'' (dir₀ fs dirs index) (Function.update place i.inode
      (r.tree.map fun _ => (dirs.parkingLot, lotName i.inode))) files')
    (hfiles : ∀ x, x ≠ i.inode ∨ r.tree ≠ none → files' x = files x)
    (hroot : i.path = base → fs''.lookup top (base.getLast?.getD []) = none ∨
      ∃ x, Function.update place i.inode
        (r.tree.map fun _ => (dirs.parkingLot, lotName i.inode)) x =
          some (top, base.getLast?.getD []))
    (hlookup : ∀ d n, (d, n) ≠ slotOf (dir₀ fs dirs index) top base i →
      d ≠ dir₀ fs dirs index i.inode →
      (∀ t, r.tree = some t → (d, n) ≠ (dirs.parkingLot, lotName i.inode)) →
      fs''.lookup d n = fs'.lookup d n) (hwell : fs''.WellFormed) (hnext : fs''.next = fs'.next) :
    MovedOut dirs fs base top index (done ++ [r]) fs'' (Function.update place i.inode
      (r.tree.map fun _ => (dirs.parkingLot, lotName i.inode))) files' := by
  have hmem := h.mem_index (by simp [hsplit]) hi
  have hplace := hout.place_above h hsplit hi hmem List.prefix_rfl
  have hother {s : DiffRow} (hs : s ∈ done) {j : SnapshotRow} (hj : s.index = some j)
      (hjmem : j ∈ index) : j.inode ≠ i.inode := by
    intro hinode
    obtain rfl := h.isIndex.eq_of_inode hjmem hmem hinode
    exact h.order.not_done_out h.isIndex h.isTree hsplit s hs (hj.trans hi.symm)
  have hmemDone {s : DiffRow} (hs : s ∈ done) {j : SnapshotRow} (hj : s.index = some j) :
      j ∈ index := h.mem_index (by simp [hsplit, hs]) hj
  constructor
  · exact hrealizes
  · intro x q hx
    by_cases hxi : x = i.inode
    · exact ⟨i, hmem, hxi.symm⟩
    · rw [Function.update_of_ne hxi] at hx
      exact hout.rows x q hx
  · intro j hj hdone
    have hji : j.inode ≠ i.inode := by
      intro hinode
      obtain rfl := h.isIndex.eq_of_inode hj hmem hinode
      exact hdone r (by simp) hi
    rw [Function.update_of_ne hji]
    exact hout.kept j hj fun s hs => hdone s (by simp [hs])
  · intro s hs j t hj ht
    rcases List.mem_append.mp hs with hs | hs
    · rw [Function.update_of_ne (hother hs hj (hmemDone hs hj))]
      exact hout.parked s hs j t hj ht
    · obtain rfl := List.mem_singleton.mp hs
      obtain rfl : i = j := Option.some.inj (hi.symm.trans hj)
      rw [Function.update_self, ht, Option.map_some]
  · intro s hs j hj ht
    rcases List.mem_append.mp hs with hs | hs
    · rw [Function.update_of_ne (hother hs hj (hmemDone hs hj))]
      exact hout.deleted s hs j hj ht
    · obtain rfl := List.mem_singleton.mp hs
      obtain rfl : i = j := Option.some.inj (hi.symm.trans hj)
      rw [Function.update_self, ht, Option.map_none]
  · intro x q hx
    by_cases hxi : x = i.inode
    · subst hxi
      rw [Function.update_self] at hx
      have htree : r.tree ≠ none := fun hnone => by simp [hnone] at hx
      rw [hfiles _ (.inr htree), hout.files _ _ hplace]
    · rw [Function.update_of_ne hxi] at hx
      rw [hfiles x (.inl hxi), hout.files x q hx]
  · by_cases hbase : i.path = base
    · exact hroot hbase
    · obtain ⟨s, hs, hsbase, hsplace⟩ := hout.place_root h hsplit hi
      have hsi : s.inode ≠ i.inode := by
        intro hinode
        rw [h.isIndex.eq_of_inode hs hmem hinode] at hsbase
        exact hbase hsbase
      exact .inr ⟨s.inode, by rwa [Function.update_of_ne hsi]⟩
  · intro d n hd hdir htop hlot
    rw [hlookup d n ?_ (hdir i hmem) fun t ht => hlot r (by simp) i t hi ht]
    · exact hout.outside d n hd hdir htop fun s hs => hlot s (by simp [hs])
    · intro hslot
      rcases h.isIndex.parent i hmem with hbase | ⟨p, hp, m, hpath, hpinode⟩
      · exact htop (hslot.trans (slotOf_base hbase))
      · rw [h.isIndex.slotOf_below hp hpath hpinode] at hslot
        exact hdir p hp (Prod.mk.inj hslot).1
  · intro s hs
    rcases List.mem_append.mp hs with hs | hs
    · exact hout.ready s hs
    · rwa [List.mem_singleton.mp hs]
  · exact hwell
  · rw [hnext, hout.next]

/-- The name in the parking lot is taken as it was before the update. -/
theorem MovedOut.vacant_lot (hout : MovedOut dirs fs base top index done fs' place files)
    (h : Update dirs fs base top index tree outs ins) (hsplit : outs = done ++ r :: rest)
    (hi : r.index = some i)
    (hne : slotOf (dir₀ fs dirs index) top base i ≠ (dirs.parkingLot, lotName i.inode)) :
    fs'.vacant dirs.parkingLot (lotName i.inode) =
      fs.vacant dirs.parkingLot (lotName i.inode) := by
  have hmem := h.mem_index (by simp [hsplit]) hi
  have hwell := h.setting.wellFormed
  by_cases heq : (dirs.parkingLot, lotName i.inode) = (top, base.getLast?.getD [])
  · have hbase : i.path ≠ base := fun hbase => hne ((slotOf_base hbase).trans heq.symm)
    obtain ⟨hlot, hname⟩ := Prod.mk.inj heq
    rw [hlot, hname, h.root_full h.realizes₀ hmem hbase fun s hs _ => h.place₀_eq hs,
      h.root_full hout.realizes hmem hbase fun s hs => hout.place_above h hsplit hi hs]
  have hlookup : fs'.lookup dirs.parkingLot (lotName i.inode) =
      fs.lookup dirs.parkingLot (lotName i.inode) := by
    refine hout.outside _ _ h.setting.lot (fun j hj => (h.dir₀_ne_lot hj).symm) heq ?_
    rintro s hs j t hj - hname
    obtain rfl := h.isIndex.eq_of_inode hmem (h.mem_index (by simp [hsplit, hs]) hj)
      (lotName_injective (Prod.mk.inj hname).2)
    exact h.order.not_done_out h.isIndex h.isTree hsplit s hs (hj.trans hi.symm)
  rw [FileSystem.vacant, FileSystem.vacant, hlookup]
  split
  · rfl
  · rename_i y hy
    by_cases htop : y = top
    · subst htop
      obtain ⟨s, hs, hbase, hplace⟩ := hout.place_root h hsplit hi
      have hplace₀ := h.place₀_eq hs
      rw [slotOf_base hbase] at hplace₀
      rw [hout.realizes.isEmpty_eq_false hplace, h.realizes₀.isEmpty_eq_false hplace₀]
    · have hlot : y ≠ dirs.parkingLot := by
        rintro rfl
        have hself : fs.resolve dirs.parkingLot [lotName i.inode] =
            some (.dir dirs.parkingLot) := by
          simp [FileSystem.resolve, hy]
        exact absurd (hwell.acyclic _ _ hself) (by simp)
      refine isEmpty_congr fun n => hout.outside y n (hwell.bounded _ _ _ hy) ?_
        (fun hyn => htop (Prod.mk.inj hyn).1) fun _ _ _ _ _ _ hyn => hlot (Prod.mk.inj hyn).1
      rintro j hj rfl
      have hslot := (h.realizes₀.entry _ _ (h.place₀_eq hj) _ _).mp hy
      rcases h.isIndex.parent j hj with hbase | ⟨p, hp, m, hpath, hpinode⟩
      · exact heq (hslot.trans (slotOf_base hbase))
      · rw [h.isIndex.slotOf_below hp hpath hpinode] at hslot
        exact h.dir₀_ne_lot hp (Prod.mk.inj hslot).1.symm
  · rfl

theorem Update.inode_eq (h : Update dirs fs base top index tree outs ins) (hr : r ∈ outs)
    (hi : r.index = some i) (ht : r.tree = some t) : t.inode = i.inode := by
  obtain ⟨j, -, hrj, hcase⟩ := h.mem_outs_iff.mp hr
  obtain rfl : i = j := Option.some.inj (hi.symm.trans hrj)
  rcases hcase with ⟨hnone, -⟩ | ⟨u, -, hinode, hru, -⟩
  · rw [ht] at hnone
    exact nomatch hnone
  · rwa [Option.some.inj (ht.symm.trans hru)]

/-- A directory that moved goes to the parking lot if its name there is not taken. -/
theorem MovedOut.park (hout : MovedOut dirs fs base top index done fs' place files)
    (h : Update dirs fs base top index tree outs ins) (hsplit : outs = done ++ r :: rest)
    (hi : r.index = some i) (ht : r.tree = some t) :
    ((applyRemovesAndMoveOuts dirs fs' r).2 = true ↔ LotReady dirs fs i) ∧
    (LotReady dirs fs i → ∃ place files,
      MovedOut dirs fs base top index (done ++ [r]) (applyRemovesAndMoveOuts dirs fs' r).1
        place files) := by
  have hmem := h.mem_index (by simp [hsplit]) hi
  have hplace := hout.place_above h hsplit hi hmem List.prefix_rfl
  have houtReady : OutReady dirs fs r ↔ LotReady dirs fs i := by rw [OutReady, hi, ht]
  set q := slotOf (dir₀ fs dirs index) top base i with hq
  have hslot : fs'.slot dirs.indexParent i.path = some q := hout.slot h hsplit hi
  have hlotslot : fs'.slot dirs.parkingLot [lotName t.inode] =
      some (dirs.parkingLot, lotName i.inode) := by
    rw [h.inode_eq (by simp [hsplit]) hi ht]
    rfl
  by_cases hown : q = (dirs.parkingLot, lotName i.inode)
  · have hready : LotReady dirs fs i := by
      refine .inr ?_
      rw [h.slot₀ hmem, ← hq, hown]
    have hrename := rename_self (hown ▸ hslot) hlotslot (hown ▸ hout.realizes.lookup_place hplace)
    have hkept : Function.update place i.inode
        (r.tree.map fun _ => (dirs.parkingLot, lotName i.inode)) = place := by
      rw [ht, Option.map_some, ← hown, ← hplace, Function.update_eq_self]
    simp only [applyRemovesAndMoveOuts, hi, ht, hrename]
    refine ⟨iff_of_true trivial hready, fun _ => ⟨_, files, hout.leave h hsplit hi
      (houtReady.mpr hready) ?_ (fun _ _ => rfl) ?_ (fun _ _ _ _ _ => rfl) hout.wellFormed rfl⟩⟩
    · rw [hkept]
      exact hout.realizes
    · intro hbase
      right
      rw [hkept]
      exact ⟨i.inode, by rw [hplace, hq, slotOf_base hbase]⟩
  · have hrename := rename_eq hslot hlotslot (hout.realizes.lookup_place hplace) hown
      (fun p hp => by
        obtain rfl := List.prefix_nil.mp hp
        intro hdir
        exact h.dir₀_ne_lot hmem (Entry.dir.inj (Option.some.inj hdir)).symm)
    have hvacant := hout.vacant_lot h hsplit hi hown
    have hready : LotReady dirs fs i ↔
        fs'.vacant dirs.parkingLot (lotName i.inode) = true := by
      rw [hvacant, LotReady, h.slot₀ hmem, ← hq]
      exact or_iff_left fun heq => hown (Option.some.inj heq)
    rw [hready] at houtReady ⊢
    simp only [applyRemovesAndMoveOuts, hi, ht, hrename]
    by_cases hfree : fs'.vacant dirs.parkingLot (lotName i.inode) = true
    · simp only [if_pos hfree]
      refine ⟨iff_of_true trivial hfree, fun _ => ⟨_, files, hout.leave h hsplit hi
        (houtReady.mpr hfree) ?_ (fun _ _ => rfl) ?_ ?_ ?_ rfl⟩⟩
      · rw [ht, Option.map_some]
        refine hout.realizes.relocate hplace (dirs.parkingLot, lotName i.inode) ?_ ?_ ?_
        · rintro y s hy hne rfl
          obtain ⟨j, hj, rfl, ⟨-, hjslot⟩ | hlot⟩ := hout.place_cases hy
          · rcases h.isIndex.parent j hj with hbase | ⟨p, hp, m, hpath, hpinode⟩
            · have heq := hjslot.trans (slotOf_base hbase)
              have hpath := h.path_of_lot_eq hmem (hready.mpr hfree) heq
              exact hne (congrArg _ (h.isIndex.eq_of_path hj hmem (hbase.trans hpath.symm)))
            · rw [h.isIndex.slotOf_below hp hpath hpinode] at hjslot
              exact h.dir₀_ne_lot hp (Prod.mk.inj hjslot).1.symm
          · exact hne (lotName_injective (Prod.mk.inj hlot).2).symm
        · intro y s hy hdir
          obtain ⟨j, hj, rfl⟩ := hout.rows y s hy
          exact absurd hdir (h.dir₀_ne_lot hj)
        · rw [hout.next]
          exact h.setting.lot
      · intro hbase
        left
        have hne : (q.1, q.2) ≠ (dirs.parkingLot, lotName i.inode) := hown
        have hgone : ((fs'.remove q.1 q.2).put dirs.parkingLot (lotName i.inode)
            (.dir (dir₀ fs dirs index i.inode))).lookup q.1 q.2 = none := by
          rw [lookup_put_of_ne hne]
          exact lookup_remove_self
        rw [hq.trans (slotOf_base hbase)] at hgone ⊢
        exact hgone
      · intro d n hdn _ hlot
        have hne : (d, n) ≠ (q.1, q.2) := hdn
        rw [lookup_put_of_ne (hlot t ht), lookup_remove_of_ne hne]
      · refine hout.wellFormed.move (hout.realizes.lookup_place hplace)
          (dirs.parkingLot, lotName i.inode) (by rw [hout.next]; exact h.setting.lot) ?_
        intro path hpath
        obtain ⟨y, s, hy, hdir⟩ := hout.realizes.exists_of_resolve hplace hpath
        obtain ⟨j, hj, rfl⟩ := hout.rows y s hy
        exact h.dir₀_ne_lot hj hdir
    · simp only [if_neg hfree]
      exact ⟨iff_of_false Bool.false_ne_true hfree, fun hv => absurd hv hfree⟩

theorem Update.gone (h : Update dirs fs base top index tree outs ins) (hr : r ∈ outs)
    (hi : r.index = some i) (ht : r.tree = none) : ∀ t ∈ tree, t.inode ≠ i.inode := by
  obtain ⟨j, -, hrj, hcase⟩ := h.mem_outs_iff.mp hr
  obtain rfl : i = j := Option.some.inj (hi.symm.trans hrj)
  rcases hcase with ⟨-, hgone⟩ | ⟨u, -, -, hru, -⟩
  · exact hgone
  · rw [ht] at hru
    exact nomatch hru

/-- All directories below one that is next to be deleted have left. -/
theorem MovedOut.no_child (hout : MovedOut dirs fs base top index done fs' place files)
    (h : Update dirs fs base top index tree outs ins) (hsplit : outs = done ++ r :: rest)
    (hi : r.index = some i) (ht : r.tree = none) {y : ℕ} {n : Bytes} :
    place y ≠ some (dir₀ fs dirs index i.inode, n) := by
  intro hy
  have hr : r ∈ outs := by simp [hsplit]
  have hmem := h.mem_index hr hi
  obtain ⟨j, hj, rfl, ⟨hkept, hslot⟩ | hlot⟩ := hout.place_cases hy
  · rcases h.isIndex.parent j hj with hbase | ⟨p, hp, m, hpath, hpinode⟩
    · rw [slotOf_base hbase] at hslot
      exact h.dir₀_ne_top hmem (Prod.mk.inj hslot).1
    · rw [h.isIndex.slotOf_below hp hpath hpinode] at hslot
      have hpi : p.inode = i.inode := h.realizes₀.inj _ _ _ _ (h.place₀_eq hp) (h.place₀_eq hmem)
        (Prod.mk.inj hslot).1.symm
      obtain rfl := h.isIndex.eq_of_inode hp hmem hpi
      rcases out_or_unchanged h.isTree hj with ⟨s, hs, hsj⟩ | ⟨t, htmem, -, hsame⟩
      · refine hkept s (h.order.done_of_depth_lt hsplit (h.order.removes.mem_iff.mpr hs) ?_) hsj
        have hdepth : p.depth < j.depth := h.isIndex.depth p hp j hj (by simp [hpath])
        simpa [DiffRow.indexDepth, hi, hsj] using hdepth
      · obtain ⟨hsamePinode, hsamePath⟩ := not_or.mp hsame
        rcases h.isTree.parent t htmem with hbase | ⟨u, hu, -, -, hupinode⟩
        · exact h.isIndex.ne_base hp hpath ((not_not.mp hsamePath).trans hbase)
        · refine h.gone hr hi ht u hu ?_
          rw [← hupinode, ← not_not.mp hsamePinode, hpinode]
  · exact h.dir₀_ne_lot hmem (Prod.mk.inj hlot).1

/-- A directory that is gone is deleted if it holds `db.db` and no other file. -/
theorem MovedOut.delete (hout : MovedOut dirs fs base top index done fs' place files)
    (h : Update dirs fs base top index tree outs ins) (hsplit : outs = done ++ r :: rest)
    (hi : r.index = some i) (ht : r.tree = none) :
    ((applyRemovesAndMoveOuts dirs fs' r).2 = true ↔ Bare dirs fs i.path) ∧
    (Bare dirs fs i.path → ∃ place files,
      MovedOut dirs fs base top index (done ++ [r]) (applyRemovesAndMoveOuts dirs fs' r).1
        place files) := by
  have hmem := h.mem_index (by simp [hsplit]) hi
  have hplace := hout.place_above h hsplit hi hmem List.prefix_rfl
  have hdir : fs'.resolve dirs.indexParent i.path = some (.dir (dir₀ fs dirs index i.inode)) := by
    rw [resolve_of_slot (hout.slot h hsplit hi)]
    exact hout.realizes.lookup_place hplace
  have hbare : Bare dirs fs i.path ↔ (∃ f, files i.inode dbname = some f) ∧
      ∀ n f, files i.inode n = some f → n = dbname := by
    simp only [Bare, resolve_concat_of_dir (h.resolve_dir₀ hmem), hout.files _ _ hplace,
      files₀_eq_some]
  rw [hbare]
  by_cases hdb : ∃ f, files i.inode dbname = some f
  · obtain ⟨f, hf⟩ := hdb
    have hdrop := hout.realizes.dropFile hplace hf
    set fs₁ := fs'.remove (dir₀ fs dirs index i.inode) dbname with hfs₁
    set files₁ := Function.update files i.inode (Function.update (files i.inode) dbname none)
      with hfiles₁
    have hunlink : fs'.unlink dirs.indexParent (i.path ++ [dbname]) = some fs₁ :=
      (unlink_eq_some (slot_concat_of_dir hdir)).mpr
        ⟨⟨f, (hout.realizes.file _ _ hplace _ _).mpr hf⟩, rfl⟩
    have hsame : SameOutside dirs fs base top index done fs₁ := by
      intro d n hd hne htop hlot
      have hdn : (d, n) ≠ (dir₀ fs dirs index i.inode, dbname) := by simp [hne i hmem]
      rw [hfs₁, lookup_remove_of_ne hdn]
      exact hout.outside d n hd hne htop hlot
    have htop₁ : fs₁.resolve dirs.indexParent base.dropLast = some (.dir top) := by
      rw [hsame.resolve_above h (fun s hs => by simp [hsplit, hs]) hout.ready List.prefix_rfl]
      exact h.setting.top
    have hslot₁ := slot_row h.isIndex h.setting.named htop₁ hdrop hmem
      fun s hs hpre _ => hout.place_above h hsplit hi hs hpre
    have hrmdir := rmdir_eq hslot₁ (hdrop.lookup_place hplace)
    have hfiles₁_eq (n : Bytes) (hn : n ≠ dbname) : files₁ i.inode n = files i.inode n := by
      rw [hfiles₁, Function.update_self, Function.update_of_ne hn]
    have hempty : fs₁.isEmpty (dir₀ fs dirs index i.inode) = true ↔
        ∀ n f, files i.inode n = some f → n = dbname := by
      rw [isEmpty_eq_true_iff]
      constructor
      · intro hnone n g hg
        by_contra hn
        have hfile := (hdrop.file _ _ hplace n g).mpr ((hfiles₁_eq n hn).trans hg)
        rw [hnone n] at hfile
        cases hfile
      · intro honly n
        rcases hdrop.lookup_dir hplace n with hnone | ⟨g, hg, -⟩ | ⟨y, hy, -⟩
        · exact hnone
        · by_cases hn : n = dbname
          · subst hn
            rw [hfiles₁, Function.update_self, Function.update_self] at hg
            cases hg
          · exact absurd (honly n g ((hfiles₁_eq n hn).symm.trans hg)) hn
        · exact absurd hy (hout.no_child h hsplit hi ht)
    simp only [applyRemovesAndMoveOuts, hi, ht, hunlink, hrmdir]
    by_cases honly : fs₁.isEmpty (dir₀ fs dirs index i.inode) = true
    · simp only [if_pos honly]
      have hready : OutReady dirs fs r := by
        rw [OutReady, hi, ht]
        exact hbare.mpr ⟨⟨f, hf⟩, hempty.mp honly⟩
      refine ⟨iff_of_true trivial ⟨⟨f, hf⟩, hempty.mp honly⟩, fun _ => ⟨_, files₁, hout.leave h
        hsplit hi hready ?_ ?_ ?_ ?_ ?_ rfl⟩⟩
      · rw [ht, Option.map_none]
        exact hdrop.discard hplace
      · rintro x (hx | hx)
        · rw [hfiles₁, Function.update_of_ne hx]
        · exact absurd ht hx
      · intro hbase
        have hgone : (fs₁.remove (slotOf (dir₀ fs dirs index) top base i).1
          (slotOf (dir₀ fs dirs index) top base i).2).lookup _ _ = none := lookup_remove_self
        rw [slotOf_base hbase] at hgone ⊢
        exact .inl hgone
      · intro d n hslot hne _
        set q := slotOf (dir₀ fs dirs index) top base i
        have hdq : (d, n) ≠ (q.1, q.2) := hslot
        have hdn : (d, n) ≠ (dir₀ fs dirs index i.inode, dbname) := by simp [hne]
        rw [lookup_remove_of_ne hdq, hfs₁, lookup_remove_of_ne hdn]
      · exact (hout.wellFormed.remove (_, dbname)).remove _
    · simp only [if_neg honly]
      have hnot := fun hall => honly (hempty.mpr hall)
      exact ⟨iff_of_false Bool.false_ne_true fun hall => hnot hall.2,
        fun hall => absurd hall.2 hnot⟩
  · have hunlink : fs'.unlink dirs.indexParent (i.path ++ [dbname]) = none := by
      rw [Option.eq_none_iff_forall_ne_some]
      intro fs₁ hfs₁
      obtain ⟨⟨f, hf⟩, -⟩ := (unlink_eq_some (slot_concat_of_dir hdir)).mp hfs₁
      exact hdb ⟨f, (hout.realizes.file _ _ hplace _ _).mp hf⟩
    simp only [applyRemovesAndMoveOuts, hi, ht, hunlink]
    exact ⟨iff_of_false Bool.false_ne_true fun hall => hdb hall.1, fun hall => absurd hall.1 hdb⟩

theorem movedOut_applyRows (h : Update dirs fs base top index tree outs ins)
    (hbase : ∀ f, fs.resolve dirs.indexParent base ≠ some (.file f)) :
    ((applyRows (applyRemovesAndMoveOuts dirs) outs fs).2 = true ↔ ∀ r ∈ outs, OutReady dirs fs r) ∧
    ((∀ r ∈ outs, OutReady dirs fs r) → ∃ place files, MovedOut dirs fs base top index outs
      (applyRows (applyRemovesAndMoveOuts dirs) outs fs).1 place files) := by
  refine applyRows_invariant (fun done fs' => ∃ place files,
    MovedOut dirs fs base top index done fs' place files) (OutReady dirs fs)
    ⟨_, _, MovedOut.start h hbase⟩ ?_
  rintro done r rest fs' hsplit ⟨place, files, hout⟩
  have hr : r ∈ outs := by simp [hsplit]
  obtain ⟨i, -, hi, -⟩ := h.mem_outs_iff.mp hr
  cases ht : r.tree with
  | none =>
      have hready : OutReady dirs fs r ↔ Bare dirs fs i.path := by rw [OutReady, hi, ht]
      rw [hready]
      exact hout.delete h hsplit hi ht
  | some t =>
      have hready : OutReady dirs fs r ↔ LotReady dirs fs i := by rw [OutReady, hi, ht]
      rw [hready]
      exact hout.park h hsplit hi ht

end Outs

end Gufi.IncrementalUpdate
