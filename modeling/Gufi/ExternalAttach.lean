import Gufi.NameCounter
import Gufi.Schema
import Gufi.Trace
import Mathlib.Data.List.DropRight

/-!
# External databases

`gufi_query` attaches the databases that a directory names in `external_dbs`, joins those of one
kind into a view, queries, drops the views and detaches. The names the databases are attached under
come from one counter. Detaching reads the rows again and counts down.
-/

namespace Gufi.ExternalAttach

open NameCounter Stdio

def text (s : String) : Bytes := s.toList.map fun c => UInt8.ofNat c.toNat

def MAXSQL : ℕ := 8192

/-- `external_increment_attachname`: the name for a value of the counter. SQLite ignores the case of
names, so names are kept in lower case. -/
def attachName (n : ℕ) : Bytes := text "extdb" ++ numeral 10 n

section Rows

/-- `sqlite_basename`. -/
def sqliteBasename (path : Bytes) : Bytes :=
  let trimmed := (path.takeWhile (· ≠ 0)).rdropWhile (· = 47)
  if trimmed = [] then [47] else trimmed.drop (trimmed.length - Trace.basenameLen trimmed)

def typeText : ExternalType → Bytes
  | .xattrs => text "xattrs"
  | .userDb => text "user_db"

/-- `basename_comp`, with the inode of a directory and the base name of a requested view. -/
def basenameComp (dirInode basename : Bytes) : Bytes :=
  text "(pinode == '" ++ dirInode ++ text "') AND (basename(filename) == '" ++ basename ++
    text "')"

/-- `external_create_query`, before it is cut to the buffer. -/
def externalCreateQuery (cols : Bytes) (type : ExternalType) (extra : Option (Bytes × Bytes)) :
    Bytes :=
  text "SELECT " ++ cols ++ text " FROM external_dbs WHERE (type == '" ++ typeText type ++
    text "')" ++
    (match extra with
      | some (dirInode, basename) => text " AND " ++ basenameComp dirInode basename
      | none => []) ++
    text ";"

/-- The rows the query selects. A text that is cut ends inside a literal or before a closing
parenthesis, and SQLite refuses it. Only the semicolon may be missing. -/
def externalRows (db : Db) (cols : Bytes) (type : ExternalType) (extra : Option (Bytes × Bytes)) :
    Option (List ExternalDb) :=
  if (externalCreateQuery cols type extra).length ≤ MAXSQL then
    some (db.externalDbs.filter fun x => x.type = type ∧
      ∀ e ∈ extra, numeral 10 x.pinode = e.1 ∧ sqliteBasename x.filename = e.2)
  else none

end Rows

section Connection

/-- A view and the names of the attached databases its text selects from. -/
structure View where
  name : Bytes
  refs : List Bytes
deriving DecidableEq

/-- What `external_concatenate` and the cleanup change. `unioncmd` has the databases in the text of
the view that is being put together. -/
structure Conn where
  names : Held Bytes
  views : List View
  unioncmd : List Bytes

inductive Phase
  | attach
  | query
  | detach
deriving DecidableEq

inductive Action
  | attach (filename : Bytes)
  | createView (view : Bytes)
  | createViewIfNotExists (view : Bytes)
  | createViews (views : List Bytes)
  | processQueries
  | dropView (view : Bytes)
  | dropViews (views : List Bytes)
  | detach
deriving DecidableEq

structure Call where
  phase : Phase
  action : Action
deriving DecidableEq

/-- A call and how it ends: whether SQLite accepts the statement, and how many databases are left
in the text of a view that was cut to the buffer. -/
structure Event extends Call where
  ok : Bool
  kept : ℕ

-- how SQLite reads the name of a view
variable (ident : Bytes → Bytes)

def hasView (view : Bytes) (views : List View) : Bool := views.any (·.name = ident view)

/-- `create_extdb_views_noiter` and `create_extdb_views_iter` stop at the first statement that
fails. These views select from no external database. -/
def createViews : List Bytes → List View → List View
  | [], views => views
  | view :: rest, views =>
      if hasView ident view views then views
      else createViews rest (views ++ [⟨ident view, []⟩])

/-- `drop_extdb_views` also stops at the first statement that fails. -/
def dropViews : List Bytes → List View → List View
  | [], views => views
  | view :: rest, views =>
      if hasView ident view views then dropViews rest (views.filter (·.name ≠ ident view))
      else views

local instance : LawfulBEq Bytes := inferInstance

def step (e : Event) (c : Conn) : Conn :=
  match e.action with
  | .attach _ =>
      let attached := e.ok ∧ attachName c.names.next ∉ c.names.held
      { c with
        names := c.names.acquire attachName e.ok
        unioncmd := if attached then c.unioncmd ++ [attachName c.names.next] else c.unioncmd }
  | .createView view =>
      if e.ok ∧ ¬ hasView ident view c.views then
        { c with views := c.views ++ [⟨ident view, c.unioncmd.take e.kept⟩], unioncmd := [] }
      else { c with unioncmd := [] }
  | .createViewIfNotExists view =>
      if hasView ident view c.views then { c with unioncmd := [] }
      else { c with views := c.views ++ [⟨ident view, []⟩], unioncmd := [] }
  | .createViews views => { c with views := createViews ident views c.views, unioncmd := [] }
  | .processQueries => { c with unioncmd := [] }
  | .dropView view =>
      { c with views := c.views.filter (·.name ≠ ident view), unioncmd := [] }
  | .dropViews views => { c with views := dropViews ident views c.views, unioncmd := [] }
  | .detach => { c with names := c.names.release attachName, unioncmd := [] }

def run (events : List Event) (c : Conn) : Conn :=
  events.foldl (fun c e => step ident e c) c

end Connection

section Calls

/-- `eas_t`. The base name stands in the query as it is, so one with a quote would end the literal
there; such views are left out. -/
structure ExternalView where
  basename : Bytes
  view : Bytes
  unquoted : 39 ∉ basename

def externalConcatenate (db : Db) (type : ExternalType) (extra : Option (Bytes × Bytes))
    (view : Bytes) : List Action :=
  match externalRows db (text "filename") type extra with
  | none => []
  | some rows => rows.map (fun x => .attach x.filename) ++ [.createView view]

def externalConcatenateCleanup (db : Db) (view : Bytes) (type : ExternalType)
    (extra : Option (Bytes × Bytes)) : List Action :=
  .dropView view ::
    match externalRows db (text "0") type extra with
    | none => []
    | some rows => rows.map fun _ => .detach

variable (setup : List ExternalView) (processXattrs : Bool) (db : Db)

def attachExtdbs (dirInode : Bytes) : List Action :=
  setup.flatMap fun user =>
    externalConcatenate db .userDb (some (dirInode, user.basename)) user.view

def detachExtdbs (dirInode : Option Bytes) : List Action :=
  setup.flatMap fun user =>
    match dirInode with
    | some inode => externalConcatenateCleanup db user.view .userDb (some (inode, user.basename))
    | none => [.dropView user.view]

/-- The views `esummary` to `evrxpentries`. -/
def extdbViews : List Bytes :=
  [text "esummary", text "epentries", text "exsummary", text "expentries", text "evrsummary",
    text "evrpentries", text "evrxsummary", text "evrxpentries"]

/-- One pass over the queries, with the databases of one directory attached. -/
def extdbPass (attachInode : Bytes) (detachInode : Option Bytes) : List Call :=
  (attachExtdbs setup db attachInode ++ [Action.createViews extdbViews]).map (⟨.attach, ·⟩) ++
    ⟨.query, .processQueries⟩ ::
    (.dropViews extdbViews.reverse :: detachExtdbs setup db detachInode).map (⟨.detach, ·⟩)

/-- `SELECT inode FROM tree.summary`. -/
def dirInodes : List Bytes := db.summary.map fun row => numeral 10 row.inode

/-- There is no inode at the parent of the index root only. -/
def extdbPasses : List (List Call) :=
  if setup = [] then [[⟨.query, .processQueries⟩]]
  else if dirInodes db = [] then [extdbPass setup db [] none]
  else (dirInodes db).map fun inode => extdbPass setup db inode (some inode)

/-- The views of `xattr_create_views`. -/
def xattrViews : List Bytes :=
  [text "xentries", text "xpentries", text "xsummary", text "vrxpentries", text "vrxsummary"]

def setupXattrsViews : List Call :=
  (externalConcatenate db .xattrs none (text "xattrs") ++
    xattrViews.map Action.createViewIfNotExists).map (⟨.attach, ·⟩)

def cleanupXattrsViews : List Call :=
  (externalConcatenateCleanup db (text "xattrs") .xattrs none).map (⟨.detach, ·⟩)

/-- The part of `processdir` that deals with external databases. -/
def processdir : List Call :=
  (if processXattrs then setupXattrsViews db else []) ++ (extdbPasses setup db).flatten ++
    (if processXattrs then cleanupXattrsViews db else [])

end Calls

end Gufi.ExternalAttach
