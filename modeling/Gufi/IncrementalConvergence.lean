import Gufi.IncrementalIn

/-!
# Incremental update converges

The directories of the index end where those of the tree are, and those that survived keep their
databases. `mkdir` and `rename` fail if the tree has a directory named `db.db` in a directory that
has a database, and if something is left in the parking lot under the name of a directory.
-/

namespace Gufi.IncrementalUpdate

open FileTree

section Convergence

variable {File : Type*}

/-- All calls succeeded, the index has the directories of the tree, and each directory that survived
has its database. -/
structure Converges (dirs : GufiDirs) (fs : FileSystem Bytes File) (base : Path)
    (index tree : List SnapshotRow) (result : FileSystem Bytes File × Bool) : Prop where
  succeeds : result.2 = true
  paths : Indexed dirs result.1 base tree
  databases : ∀ i ∈ index, ∀ t ∈ tree, i.inode = t.inode → ∀ f,
    fs.resolve dirs.indexParent (i.path ++ [dbname]) = some (.file f) →
      result.1.resolve dirs.indexParent (t.path ++ [dbname]) = some (.file f)

variable {dirs : GufiDirs} {fs : FileSystem Bytes File} {base : Path} {top : ℕ}
  {index tree : List SnapshotRow} {outs ins : List DiffRow}

theorem Update.outReady_iff (h : Update dirs fs base top index tree outs ins)
    (hbare : ∀ i ∈ index, Bare dirs fs i.path) :
    (∀ r ∈ outs, OutReady dirs fs r) ↔
      ∀ i ∈ index, ∀ t ∈ tree, i.inode = t.inode → Changed i t → LotReady dirs fs i := by
  constructor
  · intro hready i hi t ht hinode hchanged
    exact hready _ (h.mem_outs_of_changed hi ht hinode hchanged)
  · intro hlot r hr
    obtain ⟨i, hi, hri, ⟨hrt, -⟩ | ⟨t, ht, hinode, hrt, hchanged⟩⟩ :=
      h.mem_outs_iff.mp hr
    · rw [OutReady, hri, hrt]
      exact hbare i hi
    · rw [OutReady, hri, hrt]
      exact hlot i hi t ht hinode.symm hchanged

theorem Update.inReady_iff (h : Update dirs fs base top index tree outs ins)
    (hbare : ∀ i ∈ index, Bare dirs fs i.path) :
    (∀ r ∈ ins, InReady dirs fs index tree r) ↔
      ∀ t ∈ tree, ∀ p ∈ tree, ∀ i ∈ index, i.inode = p.inode → t.path ≠ p.path ++ [dbname] := by
  constructor
  · intro hready t ht p hp i hi hinode hpath
    obtain ⟨f, hf⟩ := (hbare i hi).1
    rcases in_or_unchanged h.isTree ht with ⟨r, hr, hrt⟩ | ⟨j, hj, hjinode, hsame⟩
    · exact hready r (h.order.creates.mem_iff.mpr hr) t hrt p hp i hi hinode dbname hpath f hf
    · obtain ⟨hpinode, hjpath⟩ := not_or.mp hsame
      have hjpath' : j.path = p.path ++ [dbname] := (not_not.mp hjpath).trans hpath
      have hbase := h.isTree.base_prefix hp
      obtain ⟨k, hk, hkpath, hkinode⟩ := h.isIndex.parent_of_append hj hjpath' hbase
      obtain ⟨q, hq, hqpath, hqinode⟩ := h.isTree.parent_of_append ht hpath hbase
      obtain rfl := h.isTree.eq_of_path hq hp hqpath
      have hik : i.inode = k.inode := by rw [hinode, ← hqinode, ← hkinode, not_not.mp hpinode]
      obtain rfl := h.isIndex.eq_of_inode hi hk hik
      have hdir := h.resolve_dir₀ hj
      rw [hjpath', ← hkpath, hf] at hdir
      exact nomatch hdir
  · intro hnames r hr t hrt p hp i hi hinode n hpath f hf
    obtain rfl := (hbare i hi).2 n f hf
    exact hnames t (h.mem_tree hr hrt) p hp i hi hinode hpath

end Convergence

section Examples

/-- An index `r` that holds `a` and `b`, and an empty parking lot. -/
def twoDirs : FileSystem Bytes ℕ :=
  (((((({ entries := fun _ => ∅, next := 5 } : FileSystem Bytes ℕ).put 0 [114] (.dir 1)).put
    1 dbname (.file 1)).put 1 [97] (.dir 2)).put 1 [98] (.dir 3)).put 2 dbname (.file 2)).put
    3 dbname (.file 3)

def twoDirsIndex : List SnapshotRow :=
  [⟨[[114]], 1, 0, 0, false⟩, ⟨[[114], [97]], 2, 1, 1, false⟩, ⟨[[114], [98]], 3, 1, 1, false⟩]

/-- The directories are swapped, and there is a new one. -/
def swappedTree : List SnapshotRow :=
  [⟨[[114]], 1, 0, 0, false⟩, ⟨[[114], [97]], 3, 1, 1, false⟩, ⟨[[114], [98]], 2, 1, 1, false⟩,
    ⟨[[114], [98], [99]], 4, 2, 2, false⟩]

/-- There is a new directory named `db.db`. -/
def dbnameTree : List SnapshotRow := twoDirsIndex ++ [⟨[[114], dbname], 4, 1, 1, false⟩]

theorem lookup_twoDirs {d : ℕ} {n : Bytes} : twoDirs.lookup d n =
    if (d, n) = (3, dbname) then some (.file 3) else if (d, n) = (2, dbname) then some (.file 2)
    else if (d, n) = (1, [98]) then some (.dir 3) else if (d, n) = (1, [97]) then some (.dir 2)
    else if (d, n) = (1, dbname) then some (.file 1)
    else if (d, n) = (0, [114]) then some (.dir 1) else none := by
  simp only [twoDirs, lookup_put]
  rfl

theorem lookup_twoDirs_dir {d e : ℕ} {n : Bytes} (h : twoDirs.lookup d n = some (.dir e)) :
    d = 0 ∧ n = [114] ∧ e = 1 ∨ d = 1 ∧ n = [97] ∧ e = 2 ∨ d = 1 ∧ n = [98] ∧ e = 3 := by
  rw [lookup_twoDirs] at h
  split_ifs at h <;> simp_all

theorem lookup_twoDirs_file {d f : ℕ} {n : Bytes} (h : twoDirs.lookup d n = some (.file f)) :
    n = dbname := by
  rw [lookup_twoDirs] at h
  split_ifs at h <;> simp_all

theorem setting_twoDirs : Setting ⟨0, 4⟩ twoDirs [[114]] 0 where
  wellFormed :=
    { unique := by
        intro d n d' n' e h h'
        rcases lookup_twoDirs_dir h with ⟨rfl, rfl, rfl⟩ | ⟨rfl, rfl, rfl⟩ | ⟨rfl, rfl, rfl⟩ <;>
          rcases lookup_twoDirs_dir h' with h' | h' | h' <;> simp_all
      acyclic := fun d path hp => (eq_nil_or_lt_of_resolve (fun d n e h => by
        rcases lookup_twoDirs_dir h with h | h | h <;> omega) hp).resolve_right (lt_irrefl d)
      bounded := by
        intro d n e h
        change e < 5
        rcases lookup_twoDirs_dir h with h | h | h <;> omega
      fresh := by
        intro d hd n
        change 5 ≤ d at hd
        rw [lookup_twoDirs]
        split_ifs <;> simp_all }
  named := by simp
  index := by decide
  lot := by decide
  top := rfl
  below := by
    intro path hpath
    cases path using List.reverseRecOn with
    | nil => exact absurd (Entry.dir.inj (Option.some.inj hpath)) (by decide)
    | append_singleton path n =>
        rw [← List.append_assoc] at hpath
        obtain ⟨c, -, hn⟩ := exists_dir_of_resolve_concat hpath
        rcases lookup_twoDirs_dir hn with h | h | h <;> simp at h

theorem resolve_twoDirs {path : Path} {e : ℕ}
    (h : twoDirs.resolve 0 ([[114]] ++ path) = some (.dir e)) :
    path = [] ∧ e = 1 ∨ path = [[97]] ∧ e = 2 ∨ path = [[98]] ∧ e = 3 := by
  induction path using List.reverseRecOn generalizing e with
  | nil => exact .inl ⟨rfl, (Entry.dir.inj (Option.some.inj h)).symm⟩
  | append_singleton path n ih =>
      rw [← List.append_assoc] at h
      obtain ⟨c, hc, hn⟩ := exists_dir_of_resolve_concat h
      rcases ih hc with ⟨rfl, rfl⟩ | ⟨rfl, rfl⟩ | ⟨rfl, rfl⟩ <;>
        rcases lookup_twoDirs_dir hn with h | h | h <;> simp_all

theorem indexed_twoDirs : Indexed ⟨0, 4⟩ twoDirs [[114]] twoDirsIndex where
  dir r hr := by
    simp only [twoDirsIndex, List.mem_cons, List.not_mem_nil, or_false] at hr
    rcases hr with rfl | rfl | rfl
    · exact ⟨1, rfl⟩
    · exact ⟨2, rfl⟩
    · exact ⟨3, rfl⟩
  row path e h := by
    rcases resolve_twoDirs h with ⟨rfl, -⟩ | ⟨rfl, -⟩ | ⟨rfl, -⟩ <;> simp [twoDirsIndex]

theorem bare_twoDirs : ∀ i ∈ twoDirsIndex, Bare ⟨0, 4⟩ twoDirs i.path := by
  intro i hi
  obtain ⟨e, he⟩ := indexed_twoDirs.dir i hi
  refine ⟨?_, fun n f hf => ?_⟩
  · simp only [twoDirsIndex, List.mem_cons, List.not_mem_nil, or_false] at hi
    rcases hi with rfl | rfl | rfl
    · exact ⟨1, rfl⟩
    · exact ⟨2, rfl⟩
    · exact ⟨3, rfl⟩
  · rw [resolve_concat_of_dir he] at hf
    exact lookup_twoDirs_file hf

/-- Whether the rows are a tree can be computed. -/
theorem isTree_of_dropLast {base : Path} {rows : List SnapshotRow}
    (h : (rows.map (·.inode)).Nodup ∧ (rows.map (·.path)).Nodup ∧
      (∀ r ∈ rows, ∀ s ∈ rows, r.path.length < s.path.length → r.depth < s.depth) ∧
      ∀ r ∈ rows, r.path = base ∨
        r.path ≠ [] ∧ ∃ p ∈ rows, r.path.dropLast = p.path ∧ r.pinode = p.inode) :
    IsTree base rows := by
  refine ⟨h.1, h.2.1, h.2.2.1, fun r hr => (h.2.2.2 r hr).imp_right ?_⟩
  rintro ⟨hne, p, hp, hpath, hpinode⟩
  refine ⟨p, hp, r.path.getLast hne, ?_, hpinode⟩
  rw [← hpath, List.dropLast_concat_getLast]

theorem isTree_twoDirsIndex : IsTree [[114]] twoDirsIndex := isTree_of_dropLast (by decide)

end Examples

end Gufi.IncrementalUpdate
