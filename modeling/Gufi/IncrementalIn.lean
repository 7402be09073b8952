import Gufi.IncrementalOut

/-!
# Directories that come to their places

The second pass makes the directories that are new and takes those that moved out of the parking
lot. The directories above each of them have come to their places before.
-/

namespace Gufi.IncrementalUpdate

open FileTree

section Settled

variable {index tree : List SnapshotRow} {outs ins done rest : List DiffRow} {r : DiffRow}
  {i t p : SnapshotRow} {base : Path} {n : Bytes}

/-- The directory did not leave its place, or came to it. -/
def Settled (index : List SnapshotRow) (done : List DiffRow) (t : SnapshotRow) : Prop :=
  (∃ i ∈ index, i.inode = t.inode ∧ ¬ Changed i t) ∨ ∃ r ∈ done, r.tree = some t

theorem Settled.append (h : Settled index done t) (rows : List DiffRow) :
    Settled index (done ++ rows) t := by
  refine h.imp_right ?_
  rintro ⟨r, hr, hrt⟩
  exact ⟨r, List.mem_append_left _ hr, hrt⟩

/-- Each part of a path that is not shorter than the top's is the path of a row. -/
theorem IsTree.exists_of_prefix (h : IsTree base tree) (ht : t ∈ tree) {path : Path}
    (hbase : base <+: path) (hpath : path <+: t.path) : ∃ s ∈ tree, s.path = path := by
  obtain ⟨k, hk⟩ : ∃ k, t.path.length = k := ⟨_, rfl⟩
  induction k generalizing t with
  | zero =>
      have hle := hpath.length_le
      have hnil : path = [] := List.eq_nil_of_length_eq_zero (by omega)
      exact ⟨t, ht, (hpath.eq_of_length (by simp [hnil, hk])).symm⟩
  | succ k ih =>
      by_cases hlen : path.length = t.path.length
      · exact ⟨t, ht, (hpath.eq_of_length hlen).symm⟩
      · have hle := hpath.length_le
        rcases h.parent t ht with htop | ⟨p, hp, m, hparent, -⟩
        · have hshort := hbase.length_le
          rw [← htop] at hshort
          omega
        · have hplen : p.path.length = k := by
            rw [hparent] at hk
            simpa using hk
          refine ih hp ?_ hplen
          refine List.prefix_of_prefix_length_le hpath ?_ (by omega)
          rw [hparent]
          exact List.prefix_append _ _

end Settled

section Ins

variable {File : Type*}

/-- The state after some rows of the second pass. -/
structure MovedIn (dirs : GufiDirs) (fs : FileSystem Bytes File) (base : Path) (top : ℕ)
    (index tree : List SnapshotRow) (outs done : List DiffRow) (fs' : FileSystem Bytes File)
    (dir : ℕ → ℕ) (place : ℕ → Option (ℕ × Bytes)) (files : ℕ → Bytes → Option File) : Prop where
  realizes : Realizes fs' dir place files
  rows : ∀ x q, place x = some q → ∃ t ∈ tree, t.inode = x
  settled : ∀ t ∈ tree, Settled index done t → place t.inode = some (slotOf dir top base t)
  parked : ∀ t ∈ tree, ¬ Settled index done t → ∀ i ∈ index, i.inode = t.inode →
    place t.inode = some (dirs.parkingLot, lotName t.inode)
  absent : ∀ t ∈ tree, ¬ Settled index done t → (∀ i ∈ index, i.inode ≠ t.inode) →
    place t.inode = none
  old : ∀ i ∈ index, dir i.inode = dir₀ fs dirs index i.inode
  survived : ∀ t ∈ tree, ∀ i ∈ index, i.inode = t.inode →
    files t.inode = files₀ fs dirs index t.inode
  made : ∀ t ∈ tree, Settled index done t → (∀ i ∈ index, i.inode ≠ t.inode) →
    fs.next ≤ dir t.inode ∧ ∀ n, files t.inode n = none
  root : fs'.lookup top (base.getLast?.getD []) = none ∨
    ∃ x, place x = some (top, base.getLast?.getD [])
  outside : SameOutside dirs fs base top index outs fs'
  ready : ∀ r ∈ outs, OutReady dirs fs r
  wellFormed : fs'.WellFormed
  next : fs.next ≤ fs'.next

variable {dirs : GufiDirs} {fs fs' : FileSystem Bytes File} {base : Path} {top : ℕ}
  {index tree : List SnapshotRow} {outs ins done rest : List DiffRow} {r : DiffRow}
  {i t p : SnapshotRow} {dir : ℕ → ℕ} {place : ℕ → Option (ℕ × Bytes)}
  {files : ℕ → Bytes → Option File} {n : Bytes}

/-- The first pass leaves what the second begins with. -/
theorem MovedOut.movedIn (hout : MovedOut dirs fs base top index outs fs' place files)
    (h : Update dirs fs base top index tree outs ins) :
    MovedIn dirs fs base top index tree outs [] fs' (dir₀ fs dirs index) place files := by
  have hkept {i t : SnapshotRow} (hi : i ∈ index) (ht : t ∈ tree) (hinode : i.inode = t.inode)
      (hsame : ¬ Changed i t) : place i.inode =
        some (slotOf (dir₀ fs dirs index) top base i) := by
    refine hout.kept i hi fun r hr hri => ?_
    obtain ⟨j, -, hrj, hcase⟩ := h.mem_outs_iff.mp hr
    obtain rfl : i = j := Option.some.inj (hri.symm.trans hrj)
    rcases hcase with ⟨-, hgone⟩ | ⟨u, hu, huinode, -, hchanged⟩
    · exact hgone t ht hinode.symm
    · obtain rfl := h.isTree.eq_of_inode hu ht (huinode.trans hinode)
      exact hsame hchanged
  constructor
  · exact hout.realizes
  · intro x q hx
    obtain ⟨i, hi, rfl⟩ := hout.rows x q hx
    by_contra hgone
    have hgone' : ∀ t ∈ tree, t.inode ≠ i.inode := fun t ht hinode => hgone ⟨t, ht, hinode⟩
    have hr : (⟨some i, none⟩ : DiffRow) ∈ outs :=
      h.mem_outs_iff.mpr ⟨i, hi, rfl, .inl ⟨rfl, hgone'⟩⟩
    rw [hout.deleted _ hr i rfl rfl] at hx
    cases hx
  · rintro t ht (⟨i, hi, hinode, hsame⟩ | ⟨r, hr, -⟩)
    · obtain ⟨hpinode, hpath⟩ := not_or.mp hsame
      rw [← hinode, hkept hi ht hinode hsame, slotOf, slotOf, not_not.mp hpinode,
        not_not.mp hpath]
    · cases hr
  · intro t ht hmoved i hi hinode
    have hchanged : Changed i t := by
      by_contra hsame
      exact hmoved (.inl ⟨i, hi, hinode, hsame⟩)
    rw [← hinode]
    exact hout.parked _ (h.mem_outs_of_changed hi ht hinode hchanged) i t rfl rfl
  · intro t ht _ hnew
    rw [Option.eq_none_iff_forall_ne_some]
    intro q hq
    obtain ⟨i, hi, hinode⟩ := hout.rows _ q hq
    exact hnew i hi hinode
  · exact fun _ _ => rfl
  · intro t ht i hi hinode
    by_cases hsame : Changed i t
    · have hr := h.mem_outs_of_changed hi ht hinode hsame
      rw [← hinode]
      exact hout.files _ _ (hout.parked _ hr i t rfl rfl)
    · rw [← hinode]
      exact hout.files _ _ (hkept hi ht hinode hsame)
  · rintro t ht (⟨i, hi, hinode, -⟩ | ⟨r, hr, -⟩) hnew
    · exact absurd hinode (hnew i hi)
    · cases hr
  · exact hout.root
  · exact hout.outside
  · exact hout.ready
  · exact hout.wellFormed
  · exact hout.next.ge

theorem Update.mem_tree (h : Update dirs fs base top index tree outs ins) (hr : r ∈ ins)
    (ht : r.tree = some t) : t ∈ tree := by
  obtain ⟨u, hu, hru, -⟩ := h.mem_ins_iff.mp hr
  rwa [Option.some.inj (ht.symm.trans hru)]

theorem Update.not_settled (h : Update dirs fs base top index tree outs ins)
    (hsplit : ins = done ++ r :: rest) (ht : r.tree = some t) : ¬ Settled index done t := by
  have hr : r ∈ ins := by simp [hsplit]
  rintro (⟨i, hi, hinode, hsame⟩ | ⟨s, hs, hst⟩)
  · obtain ⟨u, -, hru, hcase⟩ := h.mem_ins_iff.mp hr
    obtain rfl : t = u := Option.some.inj (ht.symm.trans hru)
    rcases hcase with ⟨-, hnew⟩ | ⟨j, hj, hjinode, -, hchanged⟩
    · exact hnew i hi hinode
    · obtain rfl := h.isIndex.eq_of_inode hi hj (hinode.trans hjinode.symm)
      exact hsame hchanged
  · exact h.order.not_done_in h.isIndex h.isTree hsplit s hs (hst.trans ht.symm)

/-- The directories above the one that is next are in their places. -/
theorem Update.settled_above (h : Update dirs fs base top index tree outs ins)
    (hsplit : ins = done ++ r :: rest) (ht : r.tree = some t) (hp : p ∈ tree)
    (hpre : p.path <+: t.path) (hne : p ≠ t) : Settled index done p := by
  have htmem := h.mem_tree (by simp [hsplit]) ht
  rcases in_or_unchanged h.isTree hp with ⟨s, hs, hsp⟩ | hsame
  · refine .inr ⟨s, h.order.done_in_of_depth_lt hsplit (h.order.creates.mem_iff.mpr hs) ?_, hsp⟩
    have hdepth := h.isTree.depth_lt_of_prefix htmem hp hpre hne
    simpa [DiffRow.treeDepth, hsp, ht] using hdepth
  · exact .inl hsame

theorem Update.settled_parent (h : Update dirs fs base top index tree outs ins)
    (hsplit : ins = done ++ r :: rest) (ht : r.tree = some t) (hp : p ∈ tree)
    (hpath : t.path = p.path ++ [n]) : Settled index done p := by
  refine h.settled_above hsplit ht hp ?_ ?_
  · rw [hpath]
    exact List.prefix_append _ _
  · rintro rfl
    simp at hpath

/-- The parent of a directory in its place may be in the parking lot, but is not new. -/
theorem MovedIn.exists_place_parent
    (hin : MovedIn dirs fs base top index tree outs done fs' dir place files)
    (h : Update dirs fs base top index tree outs ins) (hsplit : ins = done ++ rest)
    (hsettled : Settled index done t) (hp : p ∈ tree) (hpath : t.path = p.path ++ [n])
    (hpinode : t.pinode = p.inode) : ∃ q, place p.inode = some q := by
  by_cases hps : Settled index done p
  · exact ⟨_, hin.settled p hp hps⟩
  · rcases hsettled with ⟨i, hi, hinode, hsame⟩ | ⟨s, hs, hst⟩
    · obtain ⟨hsamePinode, hsamePath⟩ := not_or.mp hsame
      rcases h.isIndex.parent i hi with hbase | ⟨j, hj, -, -, hjinode⟩
      · exact absurd ((not_not.mp hsamePath).symm.trans hbase) (h.isTree.ne_base hp hpath)
      · have hsameInode : j.inode = p.inode := by
          rw [← hjinode, not_not.mp hsamePinode, hpinode]
        exact ⟨_, hin.parked p hp hps j hj hsameInode⟩
    · obtain ⟨before, after, hdone⟩ := List.append_of_mem hs
      have hsplit' : ins = before ++ s :: (after ++ rest) := by simp [hsplit, hdone]
      have hbefore := (h.settled_parent hsplit' hst hp hpath).append (s :: after)
      rw [← hdone] at hbefore
      exact absurd hbefore hps

theorem MovedIn.place_cases
    (hin : MovedIn dirs fs base top index tree outs done fs' dir place files)
    {x : ℕ} {q : ℕ × Bytes} (hx : place x = some q) : ∃ t ∈ tree, t.inode = x ∧
      (Settled index done t ∧ q = slotOf dir top base t ∨
        ¬ Settled index done t ∧ (∃ i ∈ index, i.inode = x) ∧
          q = (dirs.parkingLot, lotName x)) := by
  obtain ⟨t, ht, rfl⟩ := hin.rows x q hx
  refine ⟨t, ht, rfl, ?_⟩
  by_cases hsettled : Settled index done t
  · exact .inl ⟨hsettled, Option.some.inj (hx.symm.trans (hin.settled t ht hsettled))⟩
  · right
    by_cases hold : ∃ i ∈ index, i.inode = t.inode
    · obtain ⟨i, hi, hinode⟩ := hold
      exact ⟨hsettled, ⟨i, hi, hinode⟩,
        Option.some.inj (hx.symm.trans (hin.parked t ht hsettled i hi hinode))⟩
    · rw [hin.absent t ht hsettled fun i hi hinode => hold ⟨i, hi, hinode⟩] at hx
      exact nomatch hx

/-- The directories of the tree are neither the one above the index nor the parking lot. -/
theorem MovedIn.dir_ne (hin : MovedIn dirs fs base top index tree outs done fs' dir place files)
    (h : Update dirs fs base top index tree outs ins) {x : ℕ} {q : ℕ × Bytes}
    (hx : place x = some q) : dir x ≠ top ∧ dir x ≠ dirs.parkingLot := by
  by_cases hold : ∃ i ∈ index, i.inode = x
  · obtain ⟨i, hi, rfl⟩ := hold
    rw [hin.old i hi]
    exact ⟨h.dir₀_ne_top hi, h.dir₀_ne_lot hi⟩
  · obtain ⟨t, ht, rfl, ⟨hsettled, -⟩ | ⟨-, hi, -⟩⟩ := hin.place_cases hx
    · have hnext := (hin.made t ht hsettled fun i hi hinode => hold ⟨i, hi, hinode⟩).1
      have htop := h.top_lt_next
      have hlot := h.setting.lot
      constructor <;> omega
    · exact absurd hi hold

theorem MovedIn.lotReady (hin : MovedIn dirs fs base top index tree outs done fs' dir place files)
    (h : Update dirs fs base top index tree outs ins) (hi : i ∈ index) (ht : t ∈ tree)
    (hinode : i.inode = t.inode) (hchanged : Changed i t) : LotReady dirs fs i :=
  hin.ready _ (h.mem_outs_of_changed hi ht hinode hchanged)

/-- Only the top of the tree can be where it would be parked. -/
theorem MovedIn.path_of_lot_eq
    (hin : MovedIn dirs fs base top index tree outs done fs' dir place files)
    (h : Update dirs fs base top index tree outs ins) (ht : t ∈ tree)
    (hnot : ¬ Settled index done t) (hold : ∃ i ∈ index, i.inode = t.inode)
    (heq : (dirs.parkingLot, lotName t.inode) = (top, base.getLast?.getD [])) : t.path = base := by
  obtain ⟨i, hi, hinode⟩ := hold
  have hchanged : Changed i t := by
    by_contra hsame
    exact hnot (.inl ⟨i, hi, hinode, hsame⟩)
  rw [← hinode] at heq
  exact h.tree_path_of_lot_eq hi (hin.lotReady h hi ht hinode hchanged) heq ht hinode

theorem MovedIn.resolve_top
    (hin : MovedIn dirs fs base top index tree outs done fs' dir place files)
    (h : Update dirs fs base top index tree outs ins) :
    fs'.resolve dirs.indexParent base.dropLast = some (.dir top) := by
  rw [hin.outside.resolve_above h (fun _ hr => hr) hin.ready List.prefix_rfl]
  exact h.setting.top

theorem MovedIn.slot (hin : MovedIn dirs fs base top index tree outs done fs' dir place files)
    (h : Update dirs fs base top index tree outs ins) (hsplit : ins = done ++ r :: rest)
    (ht : r.tree = some t) :
    fs'.slot dirs.indexParent t.path = some (slotOf dir top base t) :=
  slot_row h.isTree h.setting.named (hin.resolve_top h) hin.realizes
    (h.mem_tree (by simp [hsplit]) ht) fun s hs hpre hne =>
      hin.settled s hs (h.settled_above hsplit ht hs hpre hne)

theorem MovedIn.slotOf_lt_next
    (hin : MovedIn dirs fs base top index tree outs done fs' dir place files)
    (h : Update dirs fs base top index tree outs ins) (hsplit : ins = done ++ r :: rest)
    (ht : r.tree = some t) : (slotOf dir top base t).1 < fs'.next := by
  rcases h.isTree.parent t (h.mem_tree (by simp [hsplit]) ht) with
    hbase | ⟨p, hp, n, hpath, hpinode⟩
  · rw [slotOf_base hbase]
    exact h.top_lt_next.trans_le hin.next
  · rw [h.isTree.slotOf_below hp hpath hpinode]
    exact hin.realizes.lt_next (hin.settled p hp (h.settled_parent hsplit ht hp hpath))

/-- The path of the next directory does not pass through the directory itself. -/
theorem MovedIn.resolve_ne
    (hin : MovedIn dirs fs base top index tree outs done fs' dir place files)
    (h : Update dirs fs base top index tree outs ins) (hsplit : ins = done ++ r :: rest)
    (ht : r.tree = some t) (hi : i ∈ index) (hinode : i.inode = t.inode) {q : ℕ × Bytes}
    (hplace : place t.inode = some q) {path : Path} (hpath : path <+: t.path.dropLast) :
    fs'.resolve dirs.indexParent path ≠ some (.dir (dir t.inode)) := by
  have htmem := h.mem_tree (by simp [hsplit]) ht
  have hbase := h.isTree.base_prefix htmem
  have hpath' := hpath.trans (List.dropLast_prefix _)
  have hlen := hpath.length_le
  rw [List.length_dropLast] at hlen
  have hpos := List.length_pos_of_ne_nil h.setting.named
  have hle := hbase.length_le
  intro hself
  rcases le_or_gt base.length path.length with hlong | hshort
  · have hbase' := List.prefix_of_prefix_length_le hbase hpath' hlong
    obtain ⟨s, hs, rfl⟩ := h.isTree.exists_of_prefix htmem hbase' hpath'
    have habove {u : SnapshotRow} (hu : u ∈ tree) (hpre : u.path <+: s.path) :
        place u.inode = some (slotOf dir top base u) := by
      have hulen := hpre.length_le
      refine hin.settled u hu (h.settled_above hsplit ht hu (hpre.trans hpath') ?_)
      rintro rfl
      omega
    rw [resolve_row h.isTree h.setting.named (hin.resolve_top h) hin.realizes hs
      fun u hu hpre => habove hu hpre] at hself
    have hsame := hin.realizes.inj _ _ _ _ (habove hs List.prefix_rfl) hplace
      (Entry.dir.inj (Option.some.inj hself))
    obtain rfl := h.isTree.eq_of_inode hs htmem hsame
    omega
  · have habove : path <+: base.dropLast := by
      refine List.prefix_of_prefix_length_le hpath' ((List.dropLast_prefix _).trans hbase) ?_
      rw [List.length_dropLast]
      omega
    rw [hin.outside.resolve_above h (fun _ hr => hr) hin.ready habove, ← hinode,
      hin.old i hi] at hself
    exact h.dir₀_ne_of_length_lt hi hshort hself rfl

/-- The place of the next directory is not below the directory itself. -/
theorem MovedIn.slotOf_ne_below
    (hin : MovedIn dirs fs base top index tree outs done fs' dir place files)
    (h : Update dirs fs base top index tree outs ins) (hsplit : ins = done ++ r :: rest)
    (ht : r.tree = some t) {q : ℕ × Bytes} (hplace : place t.inode = some q) {path : Path} :
    fs'.resolve (dir t.inode) path ≠ some (.dir (slotOf dir top base t).1) := by
  have htmem := h.mem_tree (by simp [hsplit]) ht
  have htop {path : Path} : fs'.resolve (dir t.inode) path ≠ some (.dir top) := by
    intro hpath
    obtain ⟨y, s, hy, hdir⟩ := hin.realizes.exists_of_resolve hplace hpath
    exact (hin.dir_ne h hy).1 hdir
  -- the way up from a directory above leads to the top
  have habove {s : SnapshotRow} (hs : s ∈ tree) (hpre : s.path <+: t.path) (hne : s ≠ t)
      {path : Path} : fs'.resolve (dir t.inode) path ≠ some (.dir (dir s.inode)) := by
    intro hpath
    obtain ⟨k, hk⟩ : ∃ k, s.path.length = k := ⟨_, rfl⟩
    induction k using Nat.strong_induction_on generalizing s path with
    | _ k ih =>
        have hsplace := hin.settled s hs (h.settled_above hsplit ht hs hpre hne)
        cases path using List.reverseRecOn with
        | nil =>
            have hinode := hin.realizes.inj _ _ _ _ hplace hsplace
              (Entry.dir.inj (Option.some.inj hpath))
            exact hne (h.isTree.eq_of_inode hs htmem hinode.symm)
        | append_singleton path n =>
            obtain ⟨e, he, hn⟩ := exists_dir_of_resolve_concat hpath
            have hslot := (hin.realizes.entry _ _ hsplace _ _).mp hn
            rcases h.isTree.parent s hs with hbase | ⟨p, hp, m, hppath, hpinode⟩
            · rw [slotOf_base hbase] at hslot
              obtain ⟨rfl, -⟩ := Prod.mk.inj hslot
              exact htop he
            · rw [h.isTree.slotOf_below hp hppath hpinode] at hslot
              obtain ⟨rfl, -⟩ := Prod.mk.inj hslot
              have hlen : p.path.length < s.path.length := by simp [hppath]
              have hppre : p.path <+: t.path := by
                refine .trans ?_ hpre
                rw [hppath]
                exact List.prefix_append _ _
              have hpt : p ≠ t := by
                rintro rfl
                exact absurd hpre.length_le (Nat.not_le.mpr hlen)
              exact ih p.path.length (hk ▸ hlen) hp hppre hpt he rfl
  rcases h.isTree.parent t htmem with hbase | ⟨p, hp, n, hpath, hpinode⟩
  · rw [slotOf_base hbase]
    exact htop
  · rw [h.isTree.slotOf_below hp hpath hpinode]
    refine habove hp ?_ ?_
    · rw [hpath]
      exact List.prefix_append _ _
    · rintro rfl
      simp at hpath

/-- No surviving directory has a file where the directory of the row belongs. -/
def InReady (dirs : GufiDirs) (fs : FileSystem Bytes File) (index tree : List SnapshotRow)
    (r : DiffRow) : Prop :=
  ∀ t, r.tree = some t → ∀ p ∈ tree, ∀ i ∈ index, i.inode = p.inode → ∀ n,
    t.path = p.path ++ [n] → ∀ f, fs.resolve dirs.indexParent (i.path ++ [n]) ≠ some (.file f)

/-- The place of the next directory is free, or a file that survived is there. -/
theorem MovedIn.target (hin : MovedIn dirs fs base top index tree outs done fs' dir place files)
    (h : Update dirs fs base top index tree outs ins) (hsplit : ins = done ++ r :: rest)
    (ht : r.tree = some t) (hout : place t.inode ≠ some (slotOf dir top base t)) :
    (InReady dirs fs index tree r ∧
      fs'.lookup (slotOf dir top base t).1 (slotOf dir top base t).2 = none) ∨
    ¬ InReady dirs fs index tree r ∧ ∃ f,
      fs'.lookup (slotOf dir top base t).1 (slotOf dir top base t).2 = some (.file f) := by
  have htmem := h.mem_tree (by simp [hsplit]) ht
  have hnot := h.not_settled hsplit ht
  have hparent {u p : SnapshotRow} {n : Bytes} (hsettled : Settled index done u)
      (hp : p ∈ tree) (hpath : u.path = p.path ++ [n]) (hpinode : u.pinode = p.inode) :=
    hin.exists_place_parent h hsplit hsettled hp hpath hpinode
  -- a directory that is in this place is the one that is next
  have hfree {y : ℕ} : place y ≠ some (slotOf dir top base t) := by
    intro hy
    obtain ⟨u, hu, rfl, ⟨hsettled, hslot⟩ | ⟨hunot, hold, hslot⟩⟩ := hin.place_cases hy
    · suffices hpath : u.path = t.path by
        rw [h.isTree.eq_of_path hu htmem hpath] at hsettled
        exact hnot hsettled
      rcases h.isTree.parent t htmem with hbase | ⟨p, hp, n, hpath, hpinode⟩ <;>
        rcases h.isTree.parent u hu with hbase' | ⟨p', hp', n', hpath', hpinode'⟩
      · rw [hbase, hbase']
      · obtain ⟨q, hq⟩ := hparent hsettled hp' hpath' hpinode'
        rw [slotOf_base hbase, h.isTree.slotOf_below hp' hpath' hpinode'] at hslot
        exact absurd (Prod.mk.inj hslot).1.symm (hin.dir_ne h hq).1
      · rw [h.isTree.slotOf_below hp hpath hpinode, slotOf_base hbase'] at hslot
        have hplace := hin.settled p hp (h.settled_parent hsplit ht hp hpath)
        exact absurd (Prod.mk.inj hslot).1 (hin.dir_ne h hplace).1
      · obtain ⟨q, hq⟩ := hparent hsettled hp' hpath' hpinode'
        have hplace := hin.settled p hp (h.settled_parent hsplit ht hp hpath)
        rw [h.isTree.slotOf_below hp hpath hpinode,
          h.isTree.slotOf_below hp' hpath' hpinode'] at hslot
        obtain ⟨hdir, rfl⟩ := Prod.mk.inj hslot
        have hpp' := h.isTree.eq_of_inode hp hp' (hin.realizes.inj _ _ _ _ hplace hq hdir)
        rw [hpath, hpath', hpp']
    · rcases h.isTree.parent t htmem with hbase | ⟨p, hp, n, hpath, hpinode⟩
      · rw [slotOf_base hbase] at hslot
        have hubase := hin.path_of_lot_eq h hu hunot hold hslot.symm
        obtain rfl := h.isTree.eq_of_path hu htmem (hubase.trans hbase.symm)
        exact hout hy
      · have hplace := hin.settled p hp (h.settled_parent hsplit ht hp hpath)
        rw [h.isTree.slotOf_below hp hpath hpinode] at hslot
        exact (hin.dir_ne h hplace).2 (Prod.mk.inj hslot).1
  rcases h.isTree.parent t htmem with hbase | ⟨p, hp, n, hpath, hpinode⟩
  · left
    refine ⟨?_, ?_⟩
    · intro u hu p hp i _ _ n hpath
      obtain rfl : t = u := Option.some.inj (ht.symm.trans hu)
      exact absurd hbase (h.isTree.ne_base hp hpath)
    · rw [slotOf_base hbase]
      refine hin.root.resolve_right ?_
      rintro ⟨x, hx⟩
      rw [← slotOf_base hbase] at hx
      exact hfree hx
  · have hplace := hin.settled p hp (h.settled_parent hsplit ht hp hpath)
    have hslot : slotOf dir top base t = (dir p.inode, n) :=
      h.isTree.slotOf_below hp hpath hpinode
    have hold {i : SnapshotRow} (hi : i ∈ index) (hinode : i.inode = p.inode) (f : File) :
        files p.inode n = some f ↔
          fs.resolve dirs.indexParent (i.path ++ [n]) = some (.file f) := by
      rw [hin.survived p hp i hi hinode, files₀_eq_some, ← hinode,
        resolve_concat_of_dir (h.resolve_dir₀ hi)]
    rw [hslot]
    rcases hin.realizes.lookup_dir hplace n with hnone | ⟨f, hf, hfile⟩ | ⟨y, hy, -⟩
    · left
      refine ⟨?_, hnone⟩
      intro u hu p' hp' i hi hinode n' hpath' f hf
      obtain rfl : t = u := Option.some.inj (ht.symm.trans hu)
      obtain ⟨hpp', hn⟩ := List.append_inj' (hpath.symm.trans hpath') rfl
      obtain rfl := h.isTree.eq_of_path hp hp' hpp'
      obtain rfl := List.singleton_inj.mp hn
      rw [← hold hi hinode, ← hin.realizes.file _ _ hplace] at hf
      rw [hnone] at hf
      exact nomatch hf
    · right
      refine ⟨fun hready => ?_, f, hfile⟩
      by_cases hnew : ∃ i ∈ index, i.inode = p.inode
      · obtain ⟨i, hi, hinode⟩ := hnew
        exact hready t ht p hp i hi hinode n hpath f ((hold hi hinode f).mp hf)
      · have hsettled := h.settled_parent hsplit ht hp hpath
        rw [(hin.made p hp hsettled fun i hi hinode => hnew ⟨i, hi, hinode⟩).2 n] at hf
        exact nomatch hf
    · rw [← hslot] at hy
      exact absurd hy hfree

theorem slotOf_congr {dir' : ℕ → ℕ} (hdir : t.path ≠ base → dir' t.pinode = dir t.pinode) :
    slotOf dir' top base t = slotOf dir top base t := by
  rw [slotOf, slotOf]
  split_ifs with hbase
  · rfl
  · rw [hdir hbase]

/-- The invariant is kept if only the place of the directory and its name in the parking lot
change. -/
theorem MovedIn.enter (hin : MovedIn dirs fs base top index tree outs done fs' dir place files)
    (h : Update dirs fs base top index tree outs ins) (hsplit : ins = done ++ r :: rest)
    (ht : r.tree = some t) {fs'' : FileSystem Bytes File} {dir' : ℕ → ℕ}
    {files' : ℕ → Bytes → Option File}
    (hrealizes : Realizes fs'' dir' (Function.update place t.inode
      (some (slotOf dir top base t))) files')
    (hother : ∀ x ≠ t.inode, dir' x = dir x ∧ files' x = files x)
    (hold : ∀ i ∈ index, i.inode = t.inode →
      dir' t.inode = dir t.inode ∧ files' t.inode = files t.inode)
    (hnew : (∀ i ∈ index, i.inode ≠ t.inode) →
      fs.next ≤ dir' t.inode ∧ ∀ n, files' t.inode n = none)
    (hlookup : ∀ d n, (d, n) ≠ slotOf dir top base t →
      (∀ i ∈ index, i.inode = t.inode → (d, n) ≠ (dirs.parkingLot, lotName t.inode)) →
      fs''.lookup d n = fs'.lookup d n)
    (hwell : fs''.WellFormed) (hnext : fs'.next ≤ fs''.next) :
    MovedIn dirs fs base top index tree outs (done ++ [r]) fs'' dir' (Function.update place t.inode
      (some (slotOf dir top base t))) files' := by
  have htmem := h.mem_tree (by simp [hsplit]) ht
  have hnot := h.not_settled hsplit ht
  have htdone : Settled index (done ++ [r]) t := .inr ⟨r, by simp, ht⟩
  have hsplits {u : SnapshotRow} (hut : u ≠ t) (hu : Settled index (done ++ [r]) u) :
      Settled index done u := by
    refine hu.imp_right ?_
    rintro ⟨s, hs, hsu⟩
    rcases List.mem_append.mp hs with hs | hs
    · exact ⟨s, hs, hsu⟩
    · obtain rfl := List.mem_singleton.mp hs
      exact absurd (Option.some.inj (hsu.symm.trans ht)) hut
  have hne {u : SnapshotRow} (hu : u ∈ tree) (hut : u ≠ t) : u.inode ≠ t.inode :=
    fun hinode => hut (h.isTree.eq_of_inode hu htmem hinode)
  -- a place that is below the directory is there only if the directory was parked
  have hslot {u : SnapshotRow} (hu : u ∈ tree) (hsettled : u = t ∨ Settled index done u) :
      slotOf dir' top base u = slotOf dir top base u := by
    refine slotOf_congr fun hbase => ?_
    obtain ⟨p, hp, n, hpath, hpinode⟩ := (h.isTree.parent u hu).resolve_left hbase
    rw [hpinode]
    by_cases hpt : p = t
    · subst hpt
      rcases hsettled with rfl | hsettled
      · simp at hpath
      · obtain ⟨q, hq⟩ := hin.exists_place_parent h hsplit hsettled hp hpath hpinode
        by_cases hi : ∃ i ∈ index, i.inode = p.inode
        · obtain ⟨i, hi, hinode⟩ := hi
          exact (hold i hi hinode).1
        · rw [hin.absent p hp hnot fun i hi' hinode => hi ⟨i, hi', hinode⟩] at hq
          exact nomatch hq
    · exact (hother _ (hne hp hpt)).1
  constructor
  · exact hrealizes
  · intro x q hx
    by_cases hxt : x = t.inode
    · exact ⟨t, htmem, hxt.symm⟩
    · rw [Function.update_of_ne hxt] at hx
      exact hin.rows x q hx
  · intro u hu hsettled
    by_cases hut : u = t
    · subst hut
      rw [Function.update_self, hslot hu (.inl rfl)]
    · rw [Function.update_of_ne (hne hu hut), hslot hu (.inr (hsplits hut hsettled))]
      exact hin.settled u hu (hsplits hut hsettled)
  · intro u hu hnotSettled i hi hinode
    have hut : u ≠ t := by
      rintro rfl
      exact hnotSettled htdone
    rw [Function.update_of_ne (hne hu hut)]
    exact hin.parked u hu (fun hs => hnotSettled (hs.append [r])) i hi hinode
  · intro u hu hnotSettled hnew'
    have hut : u ≠ t := by
      rintro rfl
      exact hnotSettled htdone
    rw [Function.update_of_ne (hne hu hut)]
    exact hin.absent u hu (fun hs => hnotSettled (hs.append [r])) hnew'
  · intro i hi
    by_cases hit : i.inode = t.inode
    · rw [hit, (hold i hi hit).1, ← hit, hin.old i hi]
    · rw [(hother _ hit).1, hin.old i hi]
  · intro u hu i hi hinode
    by_cases hut : u = t
    · subst hut
      rw [(hold i hi hinode).2, hin.survived u hu i hi hinode]
    · rw [(hother _ (hne hu hut)).2, hin.survived u hu i hi hinode]
  · intro u hu hsettled hnew'
    by_cases hut : u = t
    · subst hut
      exact hnew hnew'
    · rw [(hother _ (hne hu hut)).1, (hother _ (hne hu hut)).2]
      exact hin.made u hu (hsplits hut hsettled) hnew'
  · by_cases hroot : slotOf dir top base t = (top, base.getLast?.getD [])
    · exact .inr ⟨t.inode, by rw [Function.update_self, hroot]⟩
    · have hne : t.path ≠ base := fun hbase => hroot (slotOf_base hbase)
      have hlotne (hi : ∃ i ∈ index, i.inode = t.inode) :
          (top, base.getLast?.getD []) ≠ (dirs.parkingLot, lotName t.inode) :=
        fun heq => hne (hin.path_of_lot_eq h htmem hnot hi heq.symm)
      rw [hlookup _ _ (Ne.symm hroot) fun i hi hinode => hlotne ⟨i, hi, hinode⟩]
      refine hin.root.imp_right ?_
      rintro ⟨x, hx⟩
      have hxt : x ≠ t.inode := by
        rintro rfl
        obtain ⟨u, hu, hinode, ⟨hsettled, -⟩ | ⟨-, hi, hlot⟩⟩ := hin.place_cases hx
        · rw [h.isTree.eq_of_inode hu htmem hinode] at hsettled
          exact hnot hsettled
        · exact hlotne hi hlot
      exact ⟨x, by rwa [Function.update_of_ne hxt]⟩
  · intro d n hd hdir htop hlot
    rw [hlookup d n ?_ ?_]
    · exact hin.outside d n hd hdir htop hlot
    · intro hslot
      rcases h.isTree.parent t htmem with hbase | ⟨p, hp, m, hpath, hpinode⟩
      · exact htop (hslot.trans (slotOf_base hbase))
      · rw [h.isTree.slotOf_below hp hpath hpinode] at hslot
        obtain ⟨rfl, -⟩ := Prod.mk.inj hslot
        by_cases hi : ∃ i ∈ index, i.inode = p.inode
        · obtain ⟨i, hi, hinode⟩ := hi
          refine hdir i hi ?_
          rw [← hinode, hin.old i hi]
        · have hmade := (hin.made p hp (h.settled_parent hsplit ht hp hpath)
            fun i hi' hinode => hi ⟨i, hi', hinode⟩).1
          omega
    · intro i hi hinode
      have hchanged : Changed i t := by
        by_contra hsame
        exact hnot (.inl ⟨i, hi, hinode, hsame⟩)
      rw [← hinode]
      exact hlot _ (h.mem_outs_of_changed hi htmem hinode hchanged) i t rfl rfl
  · exact hin.ready
  · exact hwell
  · exact hin.next.trans hnext

/-- A new directory is made in its place. -/
theorem MovedIn.create (hin : MovedIn dirs fs base top index tree outs done fs' dir place files)
    (h : Update dirs fs base top index tree outs ins) (hsplit : ins = done ++ r :: rest)
    (ht : r.tree = some t) (hi : r.index = none) :
    ((applyCreatesAndMoveIns dirs fs' r).2 = true ↔ InReady dirs fs index tree r) ∧
    (InReady dirs fs index tree r → ∃ dir place files,
      MovedIn dirs fs base top index tree outs (done ++ [r]) (applyCreatesAndMoveIns dirs fs' r).1
        dir place files) := by
  have htmem := h.mem_tree (by simp [hsplit]) ht
  have hnew : ∀ i ∈ index, i.inode ≠ t.inode := by
    have hr : r ∈ ins := by simp [hsplit]
    obtain ⟨u, -, hru, hcase⟩ := h.mem_ins_iff.mp hr
    obtain rfl : t = u := Option.some.inj (ht.symm.trans hru)
    rcases hcase with ⟨-, hnew⟩ | ⟨j, -, -, hrj, -⟩
    · exact hnew
    · rw [hi] at hrj
      exact nomatch hrj
  have hmkdir := mkdir_eq (hin.slot h hsplit ht)
  have habsent := hin.absent t htmem (h.not_settled hsplit ht) hnew
  rcases hin.target h hsplit ht (by simp [habsent]) with ⟨hready, hnone⟩ | ⟨hready, f, hfile⟩
  · have hbound := hin.slotOf_lt_next h hsplit ht
    have hcreate := hin.realizes.create habsent _ hnone hbound
    simp only [hnone, Option.isNone_none, if_true] at hmkdir
    simp only [applyCreatesAndMoveIns, hi, ht, hmkdir]
    refine ⟨iff_of_true trivial hready, fun _ => ⟨_, _, _, hin.enter h hsplit ht hcreate ?_ ?_ ?_ ?_
      (hin.wellFormed.mkdir hbound) (Nat.le_succ _)⟩⟩
    · intro x hx
      exact ⟨Function.update_of_ne hx .., Function.update_of_ne hx ..⟩
    · exact fun i hi hinode => absurd hinode (hnew i hi)
    · intro _
      rw [Function.update_self, Function.update_self]
      exact ⟨hin.next, fun _ => rfl⟩
    · intro d n hne _
      exact lookup_put_of_ne (n := (slotOf dir top base t).2) hne
  · simp only [hfile, Option.isNone_some, Bool.false_eq_true, if_false] at hmkdir
    simp only [applyCreatesAndMoveIns, hi, ht, hmkdir]
    exact ⟨iff_of_false Bool.false_ne_true hready, fun hr => absurd hr hready⟩

/-- A directory comes back from the parking lot. -/
theorem MovedIn.comeBack (hin : MovedIn dirs fs base top index tree outs done fs' dir place files)
    (h : Update dirs fs base top index tree outs ins) (hsplit : ins = done ++ r :: rest)
    (ht : r.tree = some t) (hi : r.index = some i) :
    ((applyCreatesAndMoveIns dirs fs' r).2 = true ↔ InReady dirs fs index tree r) ∧
    (InReady dirs fs index tree r → ∃ dir place files,
      MovedIn dirs fs base top index tree outs (done ++ [r]) (applyCreatesAndMoveIns dirs fs' r).1
        dir place files) := by
  have htmem := h.mem_tree (by simp [hsplit]) ht
  obtain ⟨himem, hinode⟩ : i ∈ index ∧ i.inode = t.inode := by
    have hr : r ∈ ins := by simp [hsplit]
    obtain ⟨u, -, hru, hcase⟩ := h.mem_ins_iff.mp hr
    obtain rfl : t = u := Option.some.inj (ht.symm.trans hru)
    rcases hcase with ⟨hnone, -⟩ | ⟨j, hj, hjinode, hrj, -⟩
    · rw [hi] at hnone
      exact nomatch hnone
    · rw [Option.some.inj (hi.symm.trans hrj)]
      exact ⟨hj, hjinode⟩
  have hplace := hin.parked t htmem (h.not_settled hsplit ht) i himem hinode
  have hlookup := hin.realizes.lookup_place hplace
  have hlotslot : fs'.slot dirs.parkingLot [lotName t.inode] =
      some (dirs.parkingLot, lotName t.inode) := rfl
  by_cases hne : slotOf dir top base t = (dirs.parkingLot, lotName t.inode)
  · have hready : InReady dirs fs index tree r := by
      intro u hu p hp j _ _ n hpath
      obtain rfl : t = u := Option.some.inj (ht.symm.trans hu)
      obtain ⟨p', hp', hsame, hpinode⟩ :=
        h.isTree.parent_of_append htmem hpath (h.isTree.base_prefix hp)
      rw [h.isTree.slotOf_below hp' (by rw [hpath, hsame]) hpinode] at hne
      have hplace' := hin.settled p' hp'
        (h.settled_parent hsplit ht hp' (by rw [hpath, hsame]))
      exact absurd (Prod.mk.inj hne).1 (hin.dir_ne h hplace').2
    have hrename := rename_self hlotslot (hne ▸ hin.slot h hsplit ht) hlookup
    have hkept : Function.update place t.inode (some (slotOf dir top base t)) = place := by
      rw [hne, ← hplace, Function.update_eq_self]
    simp only [applyCreatesAndMoveIns, hi, ht, hrename]
    refine ⟨iff_of_true trivial hready, fun _ => ⟨_, _, _, hin.enter h hsplit ht
      (by rw [hkept]; exact hin.realizes) (fun _ _ => ⟨rfl, rfl⟩) (fun _ _ _ => ⟨rfl, rfl⟩)
      (fun hnew => absurd hinode (hnew i himem)) (fun _ _ _ _ => rfl) hin.wellFormed le_rfl⟩⟩
  have hrename := rename_eq hlotslot (hin.slot h hsplit ht) hlookup (Ne.symm hne)
    fun _ hpath => hin.resolve_ne h hsplit ht himem hinode hplace hpath
  have hout : place t.inode ≠ some (slotOf dir top base t) := by
    rw [hplace]
    exact fun heq => hne (Option.some.inj heq).symm
  rcases hin.target h hsplit ht hout with ⟨hready, hnone⟩ | ⟨hready, f, hfile⟩
  · have hbound := hin.slotOf_lt_next h hsplit ht
    have hmove := hin.realizes.relocate hplace (slotOf dir top base t)
      (by
        rintro y q hy - rfl
        rw [hin.realizes.lookup_place hy] at hnone
        exact nomatch hnone)
      (by
        intro y q hy hdir
        rw [Option.eq_none_iff_forall_ne_some]
        intro f hf
        have hfile := (hin.realizes.file y q hy _ f).mpr hf
        rw [hdir, hnone] at hfile
        exact nomatch hfile)
      hbound
    have hvacant : fs'.vacant (slotOf dir top base t).1 (slotOf dir top base t).2 = true := by
      rw [FileSystem.vacant, hnone]
    simp only [hvacant, if_true] at hrename
    simp only [applyCreatesAndMoveIns, hi, ht, hrename]
    refine ⟨iff_of_true trivial hready, fun _ => ⟨_, _, _, hin.enter h hsplit ht hmove ?_ ?_ ?_ ?_
      (hin.wellFormed.move hlookup _ hbound fun path hpath =>
        hin.slotOf_ne_below h hsplit ht hplace hpath) le_rfl⟩⟩
    · exact fun _ _ => ⟨rfl, rfl⟩
    · exact fun _ _ _ => ⟨rfl, rfl⟩
    · exact fun hnew => absurd hinode (hnew i himem)
    · intro d n hslot hlot
      have hq : (d, n) ≠ ((slotOf dir top base t).1, (slotOf dir top base t).2) := hslot
      rw [lookup_put_of_ne hq, lookup_remove_of_ne (hlot i himem hinode)]
  · have hvacant : fs'.vacant (slotOf dir top base t).1 (slotOf dir top base t).2 = false := by
      rw [FileSystem.vacant, hfile]
    simp only [hvacant, Bool.false_eq_true, if_false] at hrename
    simp only [applyCreatesAndMoveIns, hi, ht, hrename]
    exact ⟨iff_of_false Bool.false_ne_true hready, fun hr => absurd hr hready⟩

theorem MovedOut.movedIn_applyRows
    (hout : MovedOut dirs fs base top index outs fs' place files)
    (h : Update dirs fs base top index tree outs ins) :
    ((applyRows (applyCreatesAndMoveIns dirs) ins fs').2 = true ↔
      ∀ r ∈ ins, InReady dirs fs index tree r) ∧
    ((∀ r ∈ ins, InReady dirs fs index tree r) → ∃ dir place files,
      MovedIn dirs fs base top index tree outs ins
        (applyRows (applyCreatesAndMoveIns dirs) ins fs').1 dir place files) := by
  refine applyRows_invariant (fun done fs' => ∃ dir place files,
    MovedIn dirs fs base top index tree outs done fs' dir place files) (InReady dirs fs index tree)
    ⟨_, _, _, hout.movedIn h⟩ ?_
  rintro done r rest fs' hsplit ⟨dir, place, files, hin⟩
  have hr : r ∈ ins := by simp [hsplit]
  obtain ⟨t, -, ht, -⟩ := h.mem_ins_iff.mp hr
  cases hi : r.index with
  | none => exact hin.create h hsplit ht hi
  | some i => exact hin.comeBack h hsplit ht hi

/-- All calls succeed exactly when all rows are ready. -/
theorem Update.applyChanges_succeeds (h : Update dirs fs base top index tree outs ins)
    (hbase : ∀ f, fs.resolve dirs.indexParent base ≠ some (.file f)) :
    ((applyChanges dirs fs outs ins).2 = true ↔
      (∀ r ∈ outs, OutReady dirs fs r) ∧ ∀ r ∈ ins, InReady dirs fs index tree r) ∧
    ((applyChanges dirs fs outs ins).2 = true → ∃ dir place files,
      MovedIn dirs fs base top index tree outs ins (applyChanges dirs fs outs ins).1
        dir place files) := by
  obtain ⟨hsucceeds, hmoved⟩ := movedOut_applyRows h hbase
  simp only [applyChanges, Bool.and_eq_true, hsucceeds]
  constructor
  · refine and_congr_right fun hready => ?_
    obtain ⟨place, files, hout⟩ := hmoved hready
    exact (hout.movedIn_applyRows h).1
  · rintro ⟨hready, hback⟩
    obtain ⟨place, files, hout⟩ := hmoved hready
    exact (hout.movedIn_applyRows h).2 ((hout.movedIn_applyRows h).1.mp hback)

/-- After the second pass each directory of the tree is in its place. -/
theorem MovedIn.settled_all (hin : MovedIn dirs fs base top index tree outs ins fs' dir place files)
    (h : Update dirs fs base top index tree outs ins) (ht : t ∈ tree) :
    place t.inode = some (slotOf dir top base t) := by
  refine hin.settled t ht ?_
  rcases in_or_unchanged h.isTree ht with ⟨r, hr, hrt⟩ | hsame
  · exact .inr ⟨r, h.order.creates.mem_iff.mpr hr, hrt⟩
  · exact .inl hsame

theorem MovedIn.resolve (hin : MovedIn dirs fs base top index tree outs ins fs' dir place files)
    (h : Update dirs fs base top index tree outs ins) (ht : t ∈ tree) :
    fs'.resolve dirs.indexParent t.path = some (.dir (dir t.inode)) :=
  resolve_row h.isTree h.setting.named (hin.resolve_top h) hin.realizes ht
    fun _ hs _ => hin.settled_all h hs

/-- The directories of the index are those of the tree. -/
theorem MovedIn.indexed (hin : MovedIn dirs fs base top index tree outs ins fs' dir place files)
    (h : Update dirs fs base top index tree outs ins) : Indexed dirs fs' base tree where
  dir t ht := ⟨_, hin.resolve h ht⟩
  row path e he := by
    have hcase {y : ℕ} {q : ℕ × Bytes} (hy : place y = some q) :
        ∃ t ∈ tree, t.inode = y ∧ q = slotOf dir top base t := by
      obtain ⟨t, ht, rfl⟩ := hin.rows y q hy
      exact ⟨t, ht, rfl, Option.some.inj (hy.symm.trans (hin.settled_all h ht))⟩
    induction path using List.reverseRecOn generalizing e with
    | nil =>
        rw [List.append_nil] at he ⊢
        have hbase : fs'.resolve dirs.indexParent base =
            fs'.lookup top (base.getLast?.getD []) := by
          rw [List.getLast?_eq_some_getLast h.setting.named, Option.getD_some,
            ← resolve_concat_of_dir (hin.resolve_top h), List.dropLast_concat_getLast]
        rw [hbase] at he
        rcases hin.root with hnone | ⟨x, hx⟩
        · rw [hnone] at he
          exact nomatch he
        · obtain ⟨t, ht, rfl, hslot⟩ := hcase hx
          rcases h.isTree.parent t ht with htop | ⟨p, hp, n, hpath, hpinode⟩
          · exact ⟨t, ht, htop⟩
          · rw [h.isTree.slotOf_below hp hpath hpinode] at hslot
            exact absurd (Prod.mk.inj hslot).1.symm (hin.dir_ne h (hin.settled_all h hp)).1
    | append_singleton path n ih =>
        rw [← List.append_assoc] at he
        obtain ⟨d, hd, hn⟩ := exists_dir_of_resolve_concat he
        obtain ⟨p, hp, hpath⟩ := ih d hd
        have hdir := hin.resolve h hp
        rw [hpath, hd] at hdir
        obtain rfl := Entry.dir.inj (Option.some.inj hdir)
        obtain ⟨y, q, hy, rfl⟩ := hin.realizes.closed _ _ (hin.settled_all h hp) n e hn
        obtain ⟨t, ht, rfl, hslot⟩ := hcase hy
        have hq := (hin.realizes.entry _ _ hy _ _).mp hn
        rw [hslot] at hq
        rcases h.isTree.parent t ht with htop | ⟨u, hu, m, hupath, hupinode⟩
        · rw [slotOf_base htop] at hq
          exact absurd (Prod.mk.inj hq).1 (hin.dir_ne h (hin.settled_all h hp)).1
        · rw [h.isTree.slotOf_below hu hupath hupinode] at hq
          obtain ⟨hsame, rfl⟩ := Prod.mk.inj hq
          have hinode := hin.realizes.inj _ _ _ _ (hin.settled_all h hp)
            (hin.settled_all h hu) hsame
          refine ⟨t, ht, ?_⟩
          rw [hupath, ← h.isTree.eq_of_inode hp hu hinode, hpath, List.append_assoc]

/-- The files of a directory that survived are found at its new path. -/
theorem MovedIn.files_survived
    (hin : MovedIn dirs fs base top index tree outs ins fs' dir place files)
    (h : Update dirs fs base top index tree outs ins) (ht : t ∈ tree) (hi : i ∈ index)
    (hinode : i.inode = t.inode) (n : Bytes) (f : File) :
    fs'.resolve dirs.indexParent (t.path ++ [n]) = some (.file f) ↔
      fs.resolve dirs.indexParent (i.path ++ [n]) = some (.file f) := by
  rw [resolve_concat_of_dir (hin.resolve h ht), resolve_concat_of_dir (h.resolve_dir₀ hi),
    hin.realizes.file _ _ (hin.settled_all h ht), hin.survived t ht i hi hinode, files₀_eq_some,
    hinode]

end Ins

end Gufi.IncrementalUpdate
