import Gufi.FileTree
import Gufi.Schema

/-!
# Moving the directories of an index

`gufi_incremental_update` compares snapshots of an index and of its tree by inode. The rows that
differ are applied in two passes: directories that are gone are removed and those that moved go to
the parking lot, from the bottom upwards. Then new directories are made and the others are moved
in, from the top downwards. A call that fails is reported, and the next row is taken.
-/

namespace Gufi.IncrementalUpdate

open FileTree

section Rows

abbrev Path := List Bytes

/-- A directory in a snapshot. -/
structure SnapshotRow where
  path : Path
  inode : ℕ
  pinode : ℕ
  depth : ℕ
  suspect : Bool
deriving DecidableEq

/-- A row of `urd`, `created` and `diff`. A side without a match is `NULL`. -/
structure DiffRow where
  index : Option SnapshotRow
  tree : Option SnapshotRow
deriving DecidableEq

/-- `indexpinode != treepinode`, which is not true of `NULL`. -/
def DiffRow.newParent (r : DiffRow) : Bool :=
  match r.index, r.tree with
  | some i, some t => i.pinode ≠ t.pinode
  | _, _ => false

/-- `indexpath != treepath` -/
def DiffRow.renamed (r : DiffRow) : Bool :=
  match r.index, r.tree with
  | some i, some t => i.path ≠ t.path
  | _, _ => false

def DiffRow.suspect (r : DiffRow) : Bool :=
  match r.tree with
  | some t => t.suspect
  | none => false

def DiffRow.indexDepth (r : DiffRow) : ℕ :=
  match r.index with
  | some i => i.depth
  | none => 0

def DiffRow.treeDepth (r : DiffRow) : ℕ :=
  match r.tree with
  | some t => t.depth
  | none => 0

variable (index tree : List SnapshotRow)

/-- `UNCHANGED_RENAMED_DELETED_CREATE`. The inode is the primary key of a snapshot. -/
def unchangedRenamedDeleted : List DiffRow :=
  index.map fun i => ⟨some i, tree.find? fun t => t.inode = i.inode⟩

/-- `CREATED_CREATE` -/
def created : List DiffRow :=
  (tree.filter fun t => (index.find? fun i => i.inode = t.inode).isNone).map fun t =>
    ⟨none, some t⟩

/-- `INCR_DIFF_CREATE` -/
def incrDiff : List DiffRow :=
  (unchangedRenamedDeleted index tree ++ created index tree).filter fun r =>
    r.newParent || r.renamed || r.index.isNone || r.tree.isNone || r.suspect

/-- `GET_DELETES_AND_MOVE_OUTS` without the order. -/
def getDeletesAndMoveOuts : List DiffRow :=
  (incrDiff index tree).filter fun r => r.tree.isNone || r.newParent || r.renamed

/-- `GET_CREATES_AND_MOVE_INS` without the order. -/
def getCreatesAndMoveIns : List DiffRow :=
  (incrDiff index tree).filter fun r => r.index.isNone || r.newParent || r.renamed

/-- The rows that the two queries return, in any order that the depths allow. -/
structure Ordered (outs ins : List DiffRow) : Prop where
  removes : outs.Perm (getDeletesAndMoveOuts index tree)
  upwards : outs.Pairwise fun r s => s.indexDepth ≤ r.indexDepth
  creates : ins.Perm (getCreatesAndMoveIns index tree)
  downwards : ins.Pairwise fun r s => r.treeDepth ≤ s.treeDepth

end Rows

section Calls

variable {File : Type*}

/-- The directory of the index in which the paths begin, and the parking lot. -/
structure GufiDirs where
  indexParent : ℕ
  parkingLot : ℕ

/-- The name of a directory in the parking lot: `d.` and the inode. -/
def lotName (inode : ℕ) : Bytes := [100, 46] ++ decimal inode

variable (dirs : GufiDirs) (fs : FileSystem Bytes File) (r : DiffRow)

/-- `apply_removes_and_move_outs_callback`, and whether all calls succeeded. -/
def applyRemovesAndMoveOuts : FileSystem Bytes File × Bool :=
  match r.index, r.tree with
  | some i, none =>
    match fs.unlink dirs.indexParent (i.path ++ [dbname]) with
    | none => (fs, false)
    | some fs =>
      match fs.rmdir dirs.indexParent i.path with
      | none => (fs, false)
      | some fs => (fs, true)
  | some i, some t =>
    match fs.rename dirs.indexParent i.path dirs.parkingLot [lotName t.inode] with
    | none => (fs, false)
    | some fs => (fs, true)
  | none, _ => (fs, false)

/-- `apply_creates_and_move_ins_callback`, and whether all calls succeeded. -/
def applyCreatesAndMoveIns : FileSystem Bytes File × Bool :=
  match r.index, r.tree with
  | none, some t =>
    match fs.mkdir dirs.indexParent t.path with
    | none => (fs, false)
    | some fs => (fs, true)
  | some _, some t =>
    match fs.rename dirs.parkingLot [lotName t.inode] dirs.indexParent t.path with
    | none => (fs, false)
    | some fs => (fs, true)
  | _, none => (fs, false)

/-- A query calls back for each row. -/
def applyRows (callback : FileSystem Bytes File → DiffRow → FileSystem Bytes File × Bool) :
    List DiffRow → FileSystem Bytes File → FileSystem Bytes File × Bool
  | [], fs => (fs, true)
  | r :: rows, fs =>
    let first := callback fs r
    let rest := applyRows callback rows first.1
    (rest.1, first.2 && rest.2)

/-- Both passes. -/
def applyChanges (outs ins : List DiffRow) : FileSystem Bytes File × Bool :=
  let out := applyRows (applyRemovesAndMoveOuts dirs) outs fs
  let back := applyRows (applyCreatesAndMoveIns dirs) ins out.1
  (back.1, out.2 && back.2)

end Calls

theorem lotName_injective {x y : ℕ} (h : lotName x = lotName y) : x = y :=
  decimal_injective (List.append_cancel_left h)

section Statement

variable {File : Type*}

/-- A snapshot of a tree whose top has the path `base`. -/
structure IsTree (base : Path) (rows : List SnapshotRow) : Prop where
  inodes : (rows.map (·.inode)).Nodup
  paths : (rows.map (·.path)).Nodup
  depth : ∀ r ∈ rows, ∀ s ∈ rows, r.path.length < s.path.length → r.depth < s.depth
  parent : ∀ r ∈ rows, r.path = base ∨
    ∃ p ∈ rows, ∃ n, r.path = p.path ++ [n] ∧ r.pinode = p.inode

/-- The rows are those of the directories at `base` and below. -/
structure Indexed (dirs : GufiDirs) (fs : FileSystem Bytes File) (base : Path)
    (rows : List SnapshotRow) : Prop where
  dir : ∀ r ∈ rows, ∃ e, fs.resolve dirs.indexParent r.path = some (.dir e)
  row : ∀ path e, fs.resolve dirs.indexParent (base ++ path) = some (.dir e) →
    ∃ r ∈ rows, r.path = base ++ path

/-- A file system with the directory above the index. The parking lot is not in the index. -/
structure Setting (dirs : GufiDirs) (fs : FileSystem Bytes File) (base : Path) (top : ℕ) :
    Prop where
  wellFormed : fs.WellFormed
  named : base ≠ []
  index : dirs.indexParent < fs.next
  lot : dirs.parkingLot < fs.next
  top : fs.resolve dirs.indexParent base.dropLast = some (.dir top)
  below : ∀ path, fs.resolve dirs.indexParent (base ++ path) ≠ some (.dir dirs.parkingLot)

/-- A directory that is in both snapshots with another parent or another path. -/
def Changed (i t : SnapshotRow) : Prop := i.pinode ≠ t.pinode ∨ i.path ≠ t.path

/-- The name of the directory in the parking lot is not taken, or is where the directory is. -/
def LotReady (dirs : GufiDirs) (fs : FileSystem Bytes File) (i : SnapshotRow) : Prop :=
  fs.vacant dirs.parkingLot (lotName i.inode) = true ∨
    fs.slot dirs.indexParent i.path = some (dirs.parkingLot, lotName i.inode)

/-- A directory that holds `db.db` and no other file. -/
def Bare (dirs : GufiDirs) (fs : FileSystem Bytes File) (path : Path) : Prop :=
  (∃ f, fs.resolve dirs.indexParent (path ++ [dbname]) = some (.file f)) ∧
    ∀ n f, fs.resolve dirs.indexParent (path ++ [n]) = some (.file f) → n = dbname

/-- An index, the two snapshots, and the rows of both passes. If the index is where its top
directory would be parked, the directory is the top of the tree as well. -/
structure Update (dirs : GufiDirs) (fs : FileSystem Bytes File) (base : Path) (top : ℕ)
    (index tree : List SnapshotRow) (outs ins : List DiffRow) : Prop where
  setting : Setting dirs fs base top
  isIndex : IsTree base index
  indexed : Indexed dirs fs base index
  isTree : IsTree base tree
  order : Ordered index tree outs ins
  lot : ∀ i ∈ index, fs.slot dirs.indexParent base = some (dirs.parkingLot, lotName i.inode) →
    i.path = base → ∀ t ∈ tree, i.inode = t.inode → t.path = base

end Statement

end Gufi.IncrementalUpdate
