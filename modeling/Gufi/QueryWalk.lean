import Gufi.Emission
import Gufi.Rollup
import Gufi.UriPaths
import Gufi.UserStrings

/-!
# The walk of gufi_query

The threads of `gufi_query` work off a queue of directories. A directory is attached to the database
of the thread, its subdirectories are enqueued unless it is rolled up, and the statements are run
on it. A thread keeps the strings that its statements set from one directory to the next, so what a
directory is asked may depend on what the thread was at before.

What SQLite makes of a statement is a parameter. The index does not change during a walk, so the
directories are taken one at a time. Plugins and the views over extended attributes are left out.
-/

namespace Gufi.QueryWalk

open Swap Descend UriPaths UserStrings Worklist Relation
open UserTrie (trieAlloc trieInsert trieSearch)

section Input

/-- `process_sql` -/
inductive ProcessSql
  | runOnRow
  | runSe
  | runTse
deriving DecidableEq

/-- `dir_match`, with the ids that are set. -/
structure DirMatch where
  uid : Option UInt32
  gid : Option UInt32

/-- `in->dir_match.on != DIR_MATCH_NONE` -/
def DirMatch.on (m : DirMatch) : Bool := m.uid.isSome || m.gid.isSome

def dirMatch (m : DirMatch) (st : Stat) : Bool :=
  match m.uid, m.gid with
  | none, none => true
  | some uid, none => uid = st.uid
  | none, some gid => gid = st.gid
  | some uid, some gid => uid = st.uid && gid = st.gid

/-- One pattern of `--external-copy`. The pattern is matched by the PCRE2 library. -/
structure Ecs where
  isMatch : Bytes → Bool
  sql : Bytes

structure Input where
  minLevel : ℕ
  maxLevel : ℕ
  processSql : ProcessSql
  dirMatch : DirMatch
  skip : Trie UInt8
  keepMatime : Bool
  sourcePrefix : Bytes
  tsum : Bytes
  sum : Bytes
  ent : Bytes
  externalAttach : Bool
  externalCopy : List Ecs

/-- `gqw_t`. The name for SQLite is the escaped name. -/
structure Gqw where
  name : Bytes
  basenameLen : ℕ
  level : ℕ
  idMatch : Bool
  sqlite3Name : Bytes
  escaped : sqlite3Name = Gufi.sqliteUriPath name

/-- The escaped name goes with the name. -/
theorem Gqw.ext_of_name {g g' : Gqw} (hname : g.name = g'.name)
    (hlen : g.basenameLen = g'.basenameLen) (hlevel : g.level = g'.level)
    (hmatch : g.idMatch = g'.idMatch) : g = g' := by
  obtain ⟨_, _, _, _, _, rfl⟩ := g
  obtain ⟨_, _, _, _, _, rfl⟩ := g'
  cases hname
  cases hlen
  cases hlevel
  cases hmatch
  rfl

/-- An entry that `readdir` returns, and what `stat` and `lstat` return for it. -/
structure Entry where
  dirent : Dirent
  stat : Option Stat
  lstat : Option (Stat × Int64)

/-- The index: what `opendir` and `readdir` return, what is attached by the name for SQLite, and
for which directories the times of `db.db` can be read. -/
structure Source where
  opendir : Bytes → Option (List Entry)
  attachdb : Bytes → Option Db
  saveMatime : Bytes → Bool

/-- What a statement reads: the directory, its database, the inode that the views over external
databases are for, and the subdirectories that have been enqueued. -/
structure Seen where
  name : Bytes
  basenameLen : ℕ
  level : ℕ
  db : Db
  view : Option Bytes
  subdirsWalked : ℕ

def Gqw.seen (gqw : Gqw) (db : Db) (view : Option Bytes) (subdirsWalked : ℕ) : Seen :=
  ⟨gqw.name, gqw.basenameLen, gqw.level, db, view, subdirsWalked⟩

variable (ρ : Type*)

/-- What a statement returns to the callback, inserts into the database of the thread, and gives
to `setstr`. -/
structure Answer where
  rows : List ρ
  inserts : List ρ
  strs : List (Bytes × Bytes)

/-- What statements do with a directory, and what those of `--external-copy` insert from a file. -/
structure Sqlite where
  exec : Bytes → Seen → Answer ρ
  copy : Bytes → Bytes → List ρ

inductive Event
  | printed (row : ρ)
  | inserted (row : ρ)
deriving DecidableEq

end Input

variable {ρ : Type*} (ins : Input) (src : Source) (sqlite : Sqlite ρ)

section Descent

/-- `statuso` of a new work item. Entries right below an input path may be links. -/
def childStat (nextLevel : ℕ) (e : Entry) : Option Work :=
  if nextLevel < 2 then
    e.stat.map fun st => { zeroWork with statuso := st, statCalled := NOT_STATX_CALLED }
  else trySkipLstat e.dirent e.lstat zeroWork

def skips (name : Bytes) : Bool := ins.skip.search name || name = dbname

theorem escaped_child {dir : Gqw} (name : Bytes) : dir.sqlite3Name ++ slash ::
    Gufi.sqliteUriPath name = Gufi.sqliteUriPath (dir.name ++ slash :: name) := by
  rw [sqliteUriPath_join, dir.escaped]

/-- `new_gqw_with_name`, with what `gq_descend` adds. -/
def childOf (gqw : Gqw) (e : Entry) : Gqw where
  name := gqw.name ++ slash :: e.dirent.name
  basenameLen := e.dirent.name.length
  level := gqw.level + 1
  idMatch := gqw.idMatch
  sqlite3Name := gqw.sqlite3Name ++ slash :: Gufi.sqliteUriPath e.dirent.name
  escaped := escaped_child _

/-- The match of the owner of a subdirectory: not asked for once an ancestor has matched. -/
def matchChild (gqw child : Gqw) (e : Entry) (work : Work) : Option Gqw :=
  if ins.dirMatch.on ∧ gqw.idMatch = false ∧ ins.minLevel ≤ child.level then
    match lstatWrapper e.lstat work with
    | none => none
    | some work =>
        if dirMatch ins.dirMatch work.statuso then some { child with idMatch := true } else none
  else some child

/-- The subdirectory that is enqueued for an entry. -/
def subdirOf (gqw : Gqw) (e : Entry) : Option Gqw :=
  if skips ins e.dirent.name then none
  else match childStat (gqw.level + 1) e with
    | none => none
    | some work => if IsDir work then matchChild ins gqw (childOf gqw e) e work else none

/-- `maybe_copy_external` for a file or a link. -/
def maybeCopyExternal (path name : Bytes) : List (Event ρ) :=
  (ins.externalCopy.filter fun ecs => ecs.isMatch name).flatMap fun ecs =>
    (sqlite.copy ecs.sql path).map Event.inserted

/-- What is copied of an entry. Nothing can be attached while no database is open. -/
def copiesOf (db : Option Db) (gqw : Gqw) (e : Entry) : List (Event ρ) :=
  if skips ins e.dirent.name then []
  else match childStat (gqw.level + 1) e with
    | none => []
    | some work =>
        if db.isSome ∧ (work.statuso.mode &&& S_IFMT = S_IFREG ∨
            work.statuso.mode &&& S_IFMT = S_IFLNK) then
          maybeCopyExternal ins sqlite (gqw.name ++ slash :: e.dirent.name) e.dirent.name
        else []

/-- `gq_descend`: what is copied, and what is enqueued. -/
def gqDescend (db : Option Db) (gqw : Gqw) (entries : List Entry) : List (Event ρ) × List Gqw :=
  if gqw.level + 1 ≤ ins.maxLevel then
    (entries.flatMap (copiesOf ins sqlite db gqw), entries.filterMap (subdirOf ins gqw))
  else ([], [])

end Descent

section Statements

/-- What a thread has done with a directory, and the strings it has now. -/
structure Visit (ρ : Type*) where
  events : List (Event ρ)
  userStrs : UserTrie.Trie Bytes
  items : List Gqw

/-- `setstr` -/
def setstr (t : UserTrie.Trie Bytes) (s : Bytes × Bytes) : UserTrie.Trie Bytes :=
  trieInsert t s.1 (some s.2) true

def Answer.events (a : Answer ρ) : List (Event ρ) :=
  a.inserts.map .inserted ++ a.rows.map .printed

def Visit.add (v : Visit ρ) (a : Answer ρ) : Visit ρ :=
  { v with events := v.events ++ a.events, userStrs := a.strs.foldl setstr v.userStrs }

def Visit.descend (v : Visit ρ) (below : List (Event ρ) × List Gqw) : Visit ρ :=
  { v with events := v.events ++ below.1, items := v.items ++ below.2 }

/-- `replace_sql` and `querydb`, with the number of rows. -/
def runStatement (sql : Bytes) (seen : Seen) (v : Visit ρ) : Option (Visit ρ × ℕ) :=
  match replaceSql sql (saveReplacements sql) v.userStrs with
  | .error _ => none
  | .ok text =>
      let answer := sqlite.exec text seen
      some (v.add answer, answer.rows.length)

/-- `-T`. With `none` a string could not be replaced. -/
def runTsum (seen : Seen) (v : Visit ρ) : Option (Visit ρ × ℕ) :=
  if ins.tsum = [] ∨ ins.processSql = .runSe ∨ seen.db.treesummary = none then some (v, 1)
  else (runStatement sqlite ins.tsum seen v).map fun r =>
    (r.1, if ins.processSql = .runTse then 1 else r.2)

/-- `-S`. -/
def runSum (seen : Seen) (v : Visit ρ) : Option (Visit ρ × ℕ) :=
  if ins.sum = [] then some (v, 1)
  else (runStatement sqlite ins.sum seen v).map fun r =>
    (r.1, if ins.processSql = .runOnRow then r.2 else 1)

/-- `-E`. -/
def runEnt (seen : Seen) (v : Visit ρ) : Visit ρ :=
  if ins.ent = [] then v else ((runStatement sqlite ins.ent seen v).map Prod.fst).getD v

/-- `-S` and `-E`. -/
def runSumEnt (seen : Seen) (v : Visit ρ) : Visit ρ :=
  match runSum ins sqlite seen v with
  | none => v
  | some (v, recs) => if 0 < recs then runEnt ins sqlite seen v else v

/-- The first part of `process_queries`, with the count of subdirectories. -/
def descendFrom (gqw : Gqw) (entries : List Entry) (db : Option Db) (descend : Bool)
    (v : Visit ρ) (walked : ℕ) : Visit ρ × ℕ :=
  if descend ∧ (db.map getIsrolledup).getD false = false then
    let below := gqDescend ins sqlite db gqw entries
    (v.descend below, below.2.length)
  else (v, walked)

/-- The second part of `process_queries`. -/
def askDirectory (gqw : Gqw) (db : Option Db) (view : Option Bytes) (v : Visit ρ) (walked : ℕ) :
    Visit ρ :=
  match db with
  | none => v
  | some db =>
      if ins.minLevel ≤ gqw.level then runSumEnt ins sqlite (gqw.seen db view walked) v else v

/-- `process_queries` -/
def processQueries (gqw : Gqw) (entries : List Entry) (db : Option Db) (view : Option Bytes)
    (descend : Bool) (v : Visit ρ) (walked : ℕ) : Visit ρ × ℕ :=
  let r := descendFrom ins sqlite gqw entries db descend v walked
  (askDirectory ins sqlite gqw db view r.1 r.2, r.2)

/-- `process_queries` for one view after the other. Only the first one descends. -/
def processViews (gqw : Gqw) (entries : List Entry) (db : Db) :
    List (Option Bytes) → Bool → Visit ρ → ℕ → Visit ρ
  | [], _, v, _ => v
  | view :: views, descend, v, walked =>
      let r := processQueries ins sqlite gqw entries (some db) view descend v walked
      processViews gqw entries db views false r.1 r.2

/-- The views over external databases: one for each row of `summary`, which has no rows at the
parent of an index root. -/
def viewsOf (db : Db) : List (Option Bytes) :=
  if ins.externalAttach then
    if db.summary = [] then [some []] else db.summary.map fun s => some (decimal s.inode)
  else [none]

/-- `n` -/
def keyName : Bytes := [110]

/-- `i` -/
def keyPath : Bytes := [105]

/-- `s` -/
def keySource : Bytes := [115]

/-- `{n}` and `{i}` of a directory. -/
def setDirectory (gqw : Gqw) (t : UserTrie.Trie Bytes) : UserTrie.Trie Bytes :=
  trieInsert (trieInsert t keyName (some (gqw.name.drop (gqw.name.length - gqw.basenameLen))) false)
    keyPath (some gqw.name) false

/-- What is done with a directory whose database is attached. -/
def processDb (gqw : Gqw) (entries : List Entry) (db : Db) (t : UserTrie.Trie Bytes) : Visit ρ :=
  match runTsum ins sqlite (gqw.seen db none 0) ⟨[], setDirectory gqw t, []⟩ with
  | none => ⟨[], setDirectory gqw t, []⟩
  | some (v, recs) =>
      if 0 < recs then processViews ins sqlite gqw entries db (viewsOf ins db) true v 0 else v

/-- The database that is attached. Nothing is before the walk is deep enough. -/
def attached (gqw : Gqw) : Option Db :=
  if ins.minLevel ≤ gqw.level then src.attachdb gqw.sqlite3Name else none

/-- `processdir` -/
def processdir (gqw : Gqw) (t : UserTrie.Trie Bytes) : Visit ρ :=
  match src.opendir gqw.name with
  | none => ⟨[], t, []⟩
  | some entries =>
      if ins.keepMatime ∧ src.saveMatime gqw.name = false then ⟨[], t, []⟩
      else match attached ins src gqw with
        | none => (processQueries ins sqlite gqw entries none none true ⟨[], t, []⟩ 0).1
        | some db => processDb ins sqlite gqw entries db t

end Statements

section Roots

/-- The length without the slashes at the end, of a path that begins with one byte to be kept. -/
def stripSlashes (path : Bytes) : Bytes :=
  path.take 1 ++ (path.drop 1).rdropWhile (· = slash)

/-- `dirname_len` -/
def dirnameLen (path : Bytes) : ℕ :=
  (((path.rdropWhile (· = slash)).rdropWhile (· ≠ slash)).length)

/-- `validate_source`, with what `stat` returns for the argument. -/
def validateSource (path : Bytes) (stat : Option Stat) : Option Gqw :=
  if path = [] then none
  else match stat with
    | none => none
    | some st =>
        if st.mode &&& S_IFMT ≠ S_IFDIR then none
        else if ins.dirMatch.on ∧ ins.minLevel = 0 ∧ dirMatch ins.dirMatch st = false then none
        else some
          { name := stripSlashes path
            basenameLen := (stripSlashes path).length - dirnameLen (stripSlashes path)
            level := 0
            idMatch := ins.dirMatch.on && ins.minLevel = 0
            sqlite3Name := Gufi.sqliteUriPath (stripSlashes path)
            escaped := rfl }

/-- What `gqw_process_path_list` makes of a line. The root is only named when there is a minimum
level. -/
def pathListItem (root line : Bytes) : Gqw :=
  let line := line.rdropWhile fun c => c = 13 ∨ c = 10
  let name := if ins.minLevel = 0 then line else root ++ slash :: line
  { name := name
    basenameLen := name.length - (((name.drop 1).rdropWhile (· ≠ slash)).length + 1)
    level := ins.minLevel
    idMatch := false
    sqlite3Name := Gufi.sqliteUriPath name
    escaped := rfl }

/-- `gqw_process_path_list`, with what `lstat` returns for the directories. -/
def gqwProcessPathList (lstat : Bytes → Option Stat) (root : Bytes) (lines : List Bytes) :
    List Gqw :=
  (lines.map (pathListItem ins root)).filter fun g =>
    !ins.dirMatch.on || (lstat g.name).any (dirMatch ins.dirMatch)

end Roots

section Run

/-- The strings of every thread, and what the threads did so far. -/
structure Pool (ρ : Type*) where
  userStrs : ℕ → UserTrie.Trie Bytes
  log : List (ℕ × Event ρ)

/-- The strings a thread begins with. -/
def initialStrs : UserTrie.Trie Bytes :=
  if ins.sourcePrefix = [] then trieAlloc
  else trieInsert trieAlloc keySource (some ins.sourcePrefix) false

def Pool.init : Pool ρ := ⟨fun _ => initialStrs ins, []⟩

/-- Some thread processes the directory. -/
inductive Works (threads : ℕ) (gqw : Gqw) (s : Pool ρ) : Pool ρ × List Gqw → Prop
  | thread {t : ℕ} (ht : t < threads) : Works threads gqw s
      (⟨Function.update s.userStrs t (processdir ins src sqlite gqw (s.userStrs t)).userStrs,
        s.log ++ (processdir ins src sqlite gqw (s.userStrs t)).events.map fun e => (t, e)⟩,
        (processdir ins src sqlite gqw (s.userStrs t)).items)

/-- A finished walk from the directories that `main` enqueues. -/
def Walks (threads : ℕ) (roots : List Gqw) (s : Pool ρ) : Prop :=
  ReflTransGen (ChoiceStep (Works ins src sqlite threads)) (roots, Pool.init ins) ([], s)

/-- What has been printed and inserted. -/
def Pool.events (s : Pool ρ) : List (Event ρ) := s.log.map Prod.snd

/-- What a thread with new strings does with a directory. -/
def expand (gqw : Gqw) : List (Event ρ) × List Gqw :=
  let v := processdir ins src sqlite gqw (initialStrs ins)
  (v.events, v.items)

end Run

end Gufi.QueryWalk
