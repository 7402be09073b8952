import Gufi.IncrementalUpdate

/-!
# Rows of an incremental update

Which directories are taken out of the index and which are put in, said of the two snapshots. A
directory that is in neither pass has the same path and the same parent in both.
-/

namespace Gufi.IncrementalUpdate

section Trees

variable {base : Path} {rows : List SnapshotRow} {r s : SnapshotRow}

theorem IsTree.eq_of_inode (h : IsTree base rows) (hr : r ∈ rows) (hs : s ∈ rows)
    (hinode : r.inode = s.inode) : r = s :=
  List.inj_on_of_nodup_map h.inodes hr hs hinode

theorem IsTree.eq_of_path (h : IsTree base rows) (hr : r ∈ rows) (hs : s ∈ rows)
    (hpath : r.path = s.path) : r = s :=
  List.inj_on_of_nodup_map h.paths hr hs hpath

/-- The paths of the rows begin with the path of the top. -/
theorem IsTree.base_prefix (h : IsTree base rows) (hr : r ∈ rows) : base <+: r.path := by
  obtain ⟨k, hk⟩ : ∃ k, r.path.length = k := ⟨_, rfl⟩
  induction k generalizing r with
  | zero =>
      rcases h.parent r hr with hbase | ⟨p, -, n, hpath, -⟩
      · rw [hbase]
      · rw [hpath] at hk
        simp at hk
  | succ k ih =>
      rcases h.parent r hr with hbase | ⟨p, hp, n, hpath, -⟩
      · rw [hbase]
      · rw [hpath] at hk ⊢
        have hlen : p.path.length = k := by simpa using hk
        exact (ih hp hlen).trans (List.prefix_append _ _)

/-- The top is among the rows. -/
theorem IsTree.exists_base (h : IsTree base rows) (hr : r ∈ rows) : ∃ s ∈ rows, s.path = base := by
  obtain ⟨k, hk⟩ : ∃ k, r.path.length = k := ⟨_, rfl⟩
  induction k generalizing r with
  | zero =>
      rcases h.parent r hr with hbase | ⟨p, -, n, hpath, -⟩
      · exact ⟨r, hr, hbase⟩
      · rw [hpath] at hk
        simp at hk
  | succ k ih =>
      rcases h.parent r hr with hbase | ⟨p, hp, n, hpath, -⟩
      · exact ⟨r, hr, hbase⟩
      · rw [hpath] at hk
        exact ih hp (by simpa using hk)

/-- A row below another has a parent in between. -/
theorem IsTree.parent_of_append (h : IsTree base rows) (hr : r ∈ rows) {path : Path} {n : Bytes}
    (hpath : r.path = path ++ [n]) (hbase : base <+: path) :
    ∃ p ∈ rows, p.path = path ∧ r.pinode = p.inode := by
  rcases h.parent r hr with htop | ⟨p, hp, m, hparent, hpinode⟩
  · have hlen := hbase.length_le
    have hsame := congrArg List.length (htop.symm.trans hpath)
    simp only [List.length_append, List.length_singleton] at hsame
    omega
  · obtain ⟨hsame, -⟩ := List.append_inj' (hparent.symm.trans hpath) rfl
    exact ⟨p, hp, hsame, hpinode⟩

/-- The way to a row below the top goes through a child of the top. -/
theorem IsTree.exists_child (h : IsTree base rows) (hr : r ∈ rows) (hne : r.path ≠ base) :
    ∃ p ∈ rows, p.path = base ∧
      ∃ s ∈ rows, s.path <+: r.path ∧ ∃ n, s.path = p.path ++ [n] ∧ s.pinode = p.inode := by
  obtain ⟨k, hk⟩ : ∃ k, r.path.length = k := ⟨_, rfl⟩
  induction k generalizing r with
  | zero =>
      obtain ⟨p, -, n, hpath, -⟩ := (h.parent r hr).resolve_left hne
      rw [hpath] at hk
      simp at hk
  | succ k ih =>
      obtain ⟨p, hp, n, hpath, hpinode⟩ := (h.parent r hr).resolve_left hne
      by_cases hbase : p.path = base
      · exact ⟨p, hp, hbase, r, hr, List.prefix_rfl, n, hpath, hpinode⟩
      · rw [hpath] at hk
        obtain ⟨q, hq, hqbase, s, hs, hpre, hs'⟩ := ih hp hbase (by simpa using hk)
        refine ⟨q, hq, hqbase, s, hs, hpre.trans ?_, hs'⟩
        rw [hpath]
        exact List.prefix_append _ _

theorem IsTree.depth_lt_of_prefix (h : IsTree base rows) (hr : r ∈ rows) (hs : s ∈ rows)
    (hpath : s.path <+: r.path) (hne : s ≠ r) : s.depth < r.depth := by
  refine h.depth s hs r hr (Nat.lt_of_le_of_ne hpath.length_le fun hlen => hne ?_)
  exact h.eq_of_path hs hr (hpath.eq_of_length hlen)

end Trees

section Passes

variable {index tree : List SnapshotRow} {r : DiffRow} {i t : SnapshotRow} {base : Path}

theorem find?_inode (htree : IsTree base tree) (ht : t ∈ tree) :
    (tree.find? fun s => s.inode = t.inode) = some t := by
  obtain ⟨s, hs⟩ := Option.isSome_iff_exists.mp
    (List.find?_isSome.mpr ⟨t, ht, by simp⟩ : (tree.find? fun s => s.inode = t.inode).isSome)
  have hinode : s.inode = t.inode := by simpa using List.find?_some hs
  rw [hs, htree.eq_of_inode (List.mem_of_find?_eq_some hs) ht hinode]

theorem find?_inode_eq_none {k : ℕ} : (tree.find? fun s => s.inode = k) = none ↔
    ∀ s ∈ tree, s.inode ≠ k := by
  simp [List.find?_eq_none]

theorem mem_getDeletesAndMoveOuts (htree : IsTree base tree) :
    r ∈ getDeletesAndMoveOuts index tree ↔ ∃ i ∈ index, r.index = some i ∧
      ((r.tree = none ∧ ∀ t ∈ tree, t.inode ≠ i.inode) ∨
        ∃ t ∈ tree, t.inode = i.inode ∧ r.tree = some t ∧ Changed i t) := by
  rw [getDeletesAndMoveOuts, incrDiff, List.mem_filter, List.mem_filter, List.mem_append]
  constructor
  · rintro ⟨⟨hr | hr, -⟩, hout⟩
    · obtain ⟨i, hi, rfl⟩ := List.mem_map.mp hr
      refine ⟨i, hi, rfl, ?_⟩
      cases hfind : tree.find? fun t => t.inode = i.inode with
      | none => exact .inl ⟨rfl, find?_inode_eq_none.mp hfind⟩
      | some t =>
          have hinode : t.inode = i.inode := by simpa using List.find?_some hfind
          refine .inr ⟨t, List.mem_of_find?_eq_some hfind, hinode, rfl, ?_⟩
          simpa [DiffRow.newParent, DiffRow.renamed, hfind, Changed] using hout
    · obtain ⟨t, -, rfl⟩ := List.mem_map.mp hr
      simp [DiffRow.newParent, DiffRow.renamed] at hout
  · rintro ⟨i, hi, hindex, ⟨htree', hnone⟩ | ⟨t, ht, hinode, htree', hchanged⟩⟩
    · obtain ⟨rindex, rtree⟩ := r
      obtain rfl : rindex = some i := hindex
      obtain rfl : rtree = none := htree'
      refine ⟨⟨.inl (List.mem_map.mpr ⟨i, hi, ?_⟩), by simp⟩, by simp⟩
      rw [find?_inode_eq_none.mpr hnone]
    · obtain ⟨rindex, rtree⟩ := r
      obtain rfl : rindex = some i := hindex
      obtain rfl : rtree = some t := htree'
      refine ⟨⟨.inl (List.mem_map.mpr ⟨i, hi, ?_⟩), ?_⟩, ?_⟩
      · rw [← hinode, find?_inode htree ht]
      · rcases hchanged with h | h <;> simp [DiffRow.newParent, DiffRow.renamed, h]
      · rcases hchanged with h | h <;> simp [DiffRow.newParent, DiffRow.renamed, h]

theorem mem_getCreatesAndMoveIns (htree : IsTree base tree) :
    r ∈ getCreatesAndMoveIns index tree ↔ ∃ t ∈ tree, r.tree = some t ∧
      ((r.index = none ∧ ∀ i ∈ index, i.inode ≠ t.inode) ∨
        ∃ i ∈ index, i.inode = t.inode ∧ r.index = some i ∧ Changed i t) := by
  rw [getCreatesAndMoveIns, incrDiff, List.mem_filter, List.mem_filter, List.mem_append]
  constructor
  · rintro ⟨⟨hr | hr, -⟩, hout⟩
    · obtain ⟨i, hi, rfl⟩ := List.mem_map.mp hr
      cases hfind : tree.find? fun t => t.inode = i.inode with
      | none => simp [DiffRow.newParent, DiffRow.renamed, hfind] at hout
      | some t =>
          have hinode : t.inode = i.inode := by simpa using List.find?_some hfind
          refine ⟨t, List.mem_of_find?_eq_some hfind, rfl, .inr ⟨i, hi, hinode.symm, rfl, ?_⟩⟩
          simpa [DiffRow.newParent, DiffRow.renamed, hfind, Changed] using hout
    · obtain ⟨t, ht, rfl⟩ := List.mem_map.mp hr
      obtain ⟨ht, hnone⟩ := List.mem_filter.mp ht
      exact ⟨t, ht, rfl, .inl ⟨rfl, find?_inode_eq_none.mp (by simpa using hnone)⟩⟩
  · rintro ⟨t, ht, hr, ⟨hindex', hnone⟩ | ⟨i, hi, hinode, hindex', hchanged⟩⟩
    · obtain ⟨rindex, rtree⟩ := r
      obtain rfl : rtree = some t := hr
      obtain rfl : rindex = none := hindex'
      refine ⟨⟨.inr (List.mem_map.mpr ⟨t, List.mem_filter.mpr ⟨ht, ?_⟩, rfl⟩), by simp⟩, by simp⟩
      rw [find?_inode_eq_none.mpr hnone]
      rfl
    · obtain ⟨rindex, rtree⟩ := r
      obtain rfl : rtree = some t := hr
      obtain rfl : rindex = some i := hindex'
      refine ⟨⟨.inl (List.mem_map.mpr ⟨i, hi, ?_⟩), ?_⟩, ?_⟩
      · rw [hinode, find?_inode htree ht]
      · rcases hchanged with h | h <;> simp [DiffRow.newParent, DiffRow.renamed, h]
      · rcases hchanged with h | h <;> simp [DiffRow.newParent, DiffRow.renamed, h]

/-- A directory that is not taken out is in the tree as it was. -/
theorem out_or_unchanged (htree : IsTree base tree) (hi : i ∈ index) :
    (∃ r ∈ getDeletesAndMoveOuts index tree, r.index = some i) ∨
      ∃ t ∈ tree, t.inode = i.inode ∧ ¬ Changed i t := by
  by_cases hstays : ∃ t ∈ tree, t.inode = i.inode
  · obtain ⟨t, ht, hinode⟩ := hstays
    by_cases hchanged : Changed i t
    · exact .inl ⟨⟨some i, some t⟩, (mem_getDeletesAndMoveOuts htree).mpr
        ⟨i, hi, rfl, .inr ⟨t, ht, hinode, rfl, hchanged⟩⟩, rfl⟩
    · exact .inr ⟨t, ht, hinode, hchanged⟩
  · have hgone : ∀ t ∈ tree, t.inode ≠ i.inode := fun t ht hinode => hstays ⟨t, ht, hinode⟩
    exact .inl ⟨⟨some i, none⟩,
      (mem_getDeletesAndMoveOuts htree).mpr ⟨i, hi, rfl, .inl ⟨rfl, hgone⟩⟩, rfl⟩

/-- A directory that is not put in was in the index as it is. -/
theorem in_or_unchanged (htree : IsTree base tree) (ht : t ∈ tree) :
    (∃ r ∈ getCreatesAndMoveIns index tree, r.tree = some t) ∨
      ∃ i ∈ index, i.inode = t.inode ∧ ¬ Changed i t := by
  by_cases hold : ∃ i ∈ index, i.inode = t.inode
  · obtain ⟨i, hi, hinode⟩ := hold
    by_cases hchanged : Changed i t
    · exact .inl ⟨⟨some i, some t⟩, (mem_getCreatesAndMoveIns htree).mpr
        ⟨t, ht, rfl, .inr ⟨i, hi, hinode, rfl, hchanged⟩⟩, rfl⟩
    · exact .inr ⟨i, hi, hinode, hchanged⟩
  · have hnew : ∀ i ∈ index, i.inode ≠ t.inode := fun i hi hinode => hold ⟨i, hi, hinode⟩
    exact .inl ⟨⟨none, some t⟩,
      (mem_getCreatesAndMoveIns htree).mpr ⟨t, ht, rfl, .inl ⟨rfl, hnew⟩⟩, rfl⟩

theorem nodup_allMatches (hindex : IsTree base index) (htree : IsTree base tree) :
    (unchangedRenamedDeleted index tree ++ created index tree).Nodup := by
  refine List.nodup_append.mpr ⟨?_, ?_, ?_⟩
  · refine (hindex.inodes.of_map _).map fun i j hij => ?_
    exact Option.some.inj (congrArg DiffRow.index hij)
  · refine ((htree.inodes.of_map _).filter _).map fun s t hst => ?_
    exact Option.some.inj (congrArg DiffRow.tree hst)
  · rintro a ha b hb rfl
    obtain ⟨i, -, rfl⟩ := List.mem_map.mp ha
    obtain ⟨t, -, ht⟩ := List.mem_map.mp hb
    exact nomatch congrArg DiffRow.index ht

/-- A directory of the index is taken out once. -/
theorem eq_of_index_eq (htree : IsTree base tree) {r s : DiffRow}
    (hr : r ∈ getDeletesAndMoveOuts index tree) (hs : s ∈ getDeletesAndMoveOuts index tree)
    (hindex : r.index = s.index) : r = s := by
  obtain ⟨i, -, hri, hrt⟩ := (mem_getDeletesAndMoveOuts htree).mp hr
  obtain ⟨j, -, hsj, hst⟩ := (mem_getDeletesAndMoveOuts htree).mp hs
  obtain rfl : i = j := Option.some.inj (hri.symm.trans (hindex.trans hsj))
  have htrees : r.tree = s.tree := by
    rcases hrt with ⟨hrt, hnone⟩ | ⟨t, ht, hinode, hrt, -⟩ <;>
      rcases hst with ⟨hst, hnone'⟩ | ⟨u, hu, hinode', hst, -⟩
    · rw [hrt, hst]
    · exact absurd hinode' (hnone u hu)
    · exact absurd hinode (hnone' t ht)
    · rw [hrt, hst, htree.eq_of_inode ht hu (hinode.trans hinode'.symm)]
  cases r
  cases s
  simp_all

/-- A directory of the tree is put in once. -/
theorem eq_of_tree_eq (hindex : IsTree base index) (htree : IsTree base tree) {r s : DiffRow}
    (hr : r ∈ getCreatesAndMoveIns index tree) (hs : s ∈ getCreatesAndMoveIns index tree)
    (htrees : r.tree = s.tree) : r = s := by
  obtain ⟨t, -, hrt, hri⟩ := (mem_getCreatesAndMoveIns htree).mp hr
  obtain ⟨u, -, hsu, hsi⟩ := (mem_getCreatesAndMoveIns htree).mp hs
  obtain rfl : t = u := Option.some.inj (hrt.symm.trans (htrees.trans hsu))
  have hindexes : r.index = s.index := by
    rcases hri with ⟨hri, hnone⟩ | ⟨i, hi, hinode, hri, -⟩ <;>
      rcases hsi with ⟨hsi, hnone'⟩ | ⟨j, hj, hinode', hsi, -⟩
    · rw [hri, hsi]
    · exact absurd hinode' (hnone j hj)
    · exact absurd hinode (hnone' i hi)
    · rw [hri, hsi, hindex.eq_of_inode hi hj (hinode.trans hinode'.symm)]
  cases r
  cases s
  simp_all

variable {outs ins done rest : List DiffRow}

theorem Ordered.not_done_out (h : Ordered index tree outs ins) (hindex : IsTree base index)
    (htree : IsTree base tree) (hsplit : outs = done ++ r :: rest) :
    ∀ s ∈ done, s.index ≠ r.index := by
  intro s hs heq
  have hnodup : outs.Nodup := h.removes.nodup_iff.mpr
    (((nodup_allMatches hindex htree).filter _).filter _)
  have hr : r ∈ outs := by simp [hsplit]
  have hs' : s ∈ outs := by simp [hsplit, hs]
  obtain rfl := eq_of_index_eq htree (h.removes.mem_iff.mp hs') (h.removes.mem_iff.mp hr) heq
  rw [hsplit] at hnodup
  exact (List.nodup_append.mp hnodup).2.2 s hs s (by simp) rfl

theorem Ordered.not_done_in (h : Ordered index tree outs ins) (hindex : IsTree base index)
    (htree : IsTree base tree) (hsplit : ins = done ++ r :: rest) :
    ∀ s ∈ done, s.tree ≠ r.tree := by
  intro s hs heq
  have hnodup : ins.Nodup := h.creates.nodup_iff.mpr
    (((nodup_allMatches hindex htree).filter _).filter _)
  have hr : r ∈ ins := by simp [hsplit]
  have hs' : s ∈ ins := by simp [hsplit, hs]
  obtain rfl := eq_of_tree_eq hindex htree (h.creates.mem_iff.mp hs') (h.creates.mem_iff.mp hr) heq
  rw [hsplit] at hnodup
  exact (List.nodup_append.mp hnodup).2.2 s hs s (by simp) rfl

/-- Directories above are taken out later. -/
theorem Ordered.not_done_of_depth_lt (h : Ordered index tree outs ins)
    (hsplit : outs = done ++ r :: rest) {s : DiffRow} (hdepth : s.indexDepth < r.indexDepth) :
    s ∉ done := by
  intro hs
  have hpairs := h.upwards
  rw [hsplit] at hpairs
  exact absurd ((List.pairwise_append.mp hpairs).2.2 s hs r (by simp)) (Nat.not_le.mpr hdepth)

/-- Directories below have been taken out. -/
theorem Ordered.done_of_depth_lt (h : Ordered index tree outs ins)
    (hsplit : outs = done ++ r :: rest) {s : DiffRow} (hs : s ∈ outs)
    (hdepth : r.indexDepth < s.indexDepth) : s ∈ done := by
  have hpairs := h.upwards
  rw [hsplit] at hs hpairs
  have hbelow := (List.pairwise_cons.mp (List.pairwise_append.mp hpairs).2.1).1
  rcases List.mem_append.mp hs with hs | hs
  · exact hs
  · rcases List.mem_cons.mp hs with rfl | hs
    · exact absurd hdepth (lt_irrefl _)
    · exact absurd (hbelow s hs) (Nat.not_le.mpr hdepth)

/-- Directories above have been put in. -/
theorem Ordered.done_in_of_depth_lt (h : Ordered index tree outs ins)
    (hsplit : ins = done ++ r :: rest) {s : DiffRow} (hs : s ∈ ins)
    (hdepth : s.treeDepth < r.treeDepth) : s ∈ done := by
  have hpairs := h.downwards
  rw [hsplit] at hs hpairs
  have hbelow := (List.pairwise_cons.mp (List.pairwise_append.mp hpairs).2.1).1
  rcases List.mem_append.mp hs with hs | hs
  · exact hs
  · rcases List.mem_cons.mp hs with rfl | hs
    · exact absurd hdepth (lt_irrefl _)
    · exact absurd (hbelow s hs) (Nat.not_le.mpr hdepth)

end Passes

end Gufi.IncrementalUpdate
