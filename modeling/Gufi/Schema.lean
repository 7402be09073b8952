import Gufi.SqlTable
import Gufi.UnixAccess
import Mathlib.Data.Nat.Digits.Lemmas

/-!
# The databases of an index directory

Every directory of an index holds one `db.db` with the tables of `dbutils.h`, and per-user and
per-group databases for the extended attributes that not every reader of the directory may see.
Only the columns the modelled functions read are named. The other columns of a row are carried
unchanged in `cols`. Flag columns hold 0 or 1 and are booleans here.
-/

namespace Gufi

open UnixAccess

/-- File names, paths and column texts are byte strings. -/
abbrev Bytes := List UInt8

structure EntryRow where
  name : Bytes
  inode : ℕ
  cols : List Bytes
deriving DecidableEq

/-- A row of `pentries`: an entry with the inodes of its directory and of that directory's
parent. -/
structure PEntryRow where
  entry : EntryRow
  pinode : ℕ
  ppinode : ℕ
deriving DecidableEq

structure SummaryRow where
  name : Bytes
  inode : ℕ
  perms : Permissions
  totfiles : ℕ
  totlinks : ℕ
  depth : ℕ
  cols : List Bytes
  pinode : ℕ
  isroot : Bool
  canrollup : Bool
  isrolledup : Bool
deriving DecidableEq

structure TreeSummaryRow where
  inode : ℕ
  cols : List ℤ
deriving DecidableEq

structure XattrRow where
  inode : ℕ
  name : Bytes
  value : Bytes
deriving DecidableEq

inductive ExternalType
  | xattrs
  | userDb
deriving DecidableEq

structure ExternalDb where
  type : ExternalType
  pinode : ℕ
  filename : Bytes
  perms : Permissions
deriving DecidableEq

/-- `PRIMARY KEY(type, pinode, filename)` of both `external_dbs` tables. -/
def ExternalDb.key (x : ExternalDb) : ExternalType × ℕ × Bytes :=
  (x.type, x.pinode, x.filename)

/-- The tables of `db.db`. The `treesummary` table is created later than the others. -/
structure Db where
  entries : List EntryRow
  summary : List SummaryRow
  pentriesRollup : List PEntryRow
  treesummary : Option (List TreeSummaryRow)
  xattrsPwd : List XattrRow
  xattrsRollup : List XattrRow
  externalDbsPwd : List ExternalDb
  externalDbsRollup : List ExternalDb
deriving DecidableEq, Inhabited

/-- A per-user or per-group database with the ownership and mode of its file. -/
structure XattrDb where
  perms : Permissions
  pwd : List XattrRow
  rollup : List XattrRow
deriving DecidableEq

/-- `xattrs_avail` of a per-user or per-group database. -/
def XattrDb.avail (x : XattrDb) : List XattrRow :=
  SqlTable.union x.pwd x.rollup

namespace Db

/-- `SELECT ... FROM summary WHERE isroot == 1`. -/
def rootRows (db : Db) : List SummaryRow :=
  db.summary.filter (·.isroot)

/-- The name read by `SELECT name FROM summary WHERE isroot == 1`. -/
def rootName (db : Db) : Bytes :=
  (db.rootRows.map (·.name)).headD []

/-- The left side of the `pentries` view: the directory's own entries. -/
def ownPentries (db : Db) : List PEntryRow :=
  db.entries.flatMap fun e => db.rootRows.map fun s => ⟨e, s.inode, s.pinode⟩

def pentries (db : Db) : List PEntryRow :=
  SqlTable.union db.ownPentries db.pentriesRollup

def xattrsAvail (db : Db) : List XattrRow :=
  SqlTable.union db.xattrsPwd db.xattrsRollup

def externalDbs (db : Db) : List ExternalDb :=
  SqlTable.union db.externalDbsPwd db.externalDbsRollup

/-- `SELECT ... FROM external_dbs WHERE type == 'xattrs'`. -/
def externalXattrs (db : Db) : List ExternalDb :=
  db.externalDbs.filter (·.type = .xattrs)

end Db

/-- An index directory: its `db.db`, if it could be created, and the xattr databases by name. -/
structure Dir where
  db : Option Db
  xattrDbs : Bytes → Option XattrDb

namespace Dir

def setDb (d : Dir) (db : Db) : Dir :=
  { d with db := some db }

def setXattrDb (d : Dir) (f : Bytes) (x : Option XattrDb) : Dir :=
  { d with xattrDbs := Function.update d.xattrDbs f x }

@[simp] theorem setDb_db (d : Dir) (db : Db) : (d.setDb db).db = some db := rfl

@[simp] theorem setDb_xattrDbs (d : Dir) (db : Db) : (d.setDb db).xattrDbs = d.xattrDbs := rfl

@[simp] theorem setXattrDb_db (d : Dir) (f : Bytes) (x : Option XattrDb) :
    (d.setXattrDb f x).db = d.db := rfl

@[simp] theorem setXattrDb_xattrDbs (d : Dir) (f : Bytes) (x : Option XattrDb) :
    (d.setXattrDb f x).xattrDbs = Function.update d.xattrDbs f x := rfl

theorem ext_iff' {d d' : Dir} : d = d' ↔ d.db = d'.db ∧ ∀ f, d.xattrDbs f = d'.xattrDbs f := by
  cases d
  cases d'
  simp [funext_iff]

end Dir

section Filenames

/-- `%llu`. -/
def decimal (n : ℕ) : Bytes :=
  if n = 0 then [48] else ((Nat.digits 10 n).map fun d => UInt8.ofNat (48 + d)).reverse

/-- The number is read back from the digits. -/
theorem ofDigits_decimal (n : ℕ) :
    Nat.ofDigits 10 ((decimal n).reverse.map fun c => c.toNat - 48) = n := by
  have hdigit : ∀ d < 10, (UInt8.ofNat (48 + d)).toNat - 48 = d := by decide
  unfold decimal
  split_ifs with hn
  · simp [hn]
  · have hmap : (Nat.digits 10 n).map (fun d => (UInt8.ofNat (48 + d)).toNat - 48) =
        Nat.digits 10 n :=
      (List.map_congr_left fun d hd => hdigit d (Nat.digits_lt_base (by omega) hd)).trans
        (List.map_id _)
    rw [List.reverse_reverse, List.map_map, Function.comp_def, hmap]
    exact Nat.ofDigits_digits 10 n

theorem decimal_injective {m n : ℕ} (h : decimal m = decimal n) : m = n := by
  rw [← ofDigits_decimal m, h, ofDigits_decimal]

/-- `db.db`. -/
def dbname : Bytes := [100, 98, 46, 100, 98]

/-- `uid.%llu.db`. -/
def xattrUidFilename (uid : ℕ) : Bytes :=
  [117, 105, 100, 46] ++ decimal uid ++ [46, 100, 98]

/-- `gid+r.%llu.db`. -/
def xattrGidWReadFilename (gid : ℕ) : Bytes :=
  [103, 105, 100, 43, 114, 46] ++ decimal gid ++ [46, 100, 98]

/-- `gid-r.%llu.db`. -/
def xattrGidWoReadFilename (gid : ℕ) : Bytes :=
  [103, 105, 100, 45, 114, 46] ++ decimal gid ++ [46, 100, 98]

end Filenames

end Gufi
