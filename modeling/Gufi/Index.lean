import Gufi.Schema

/-!
# Index trees and the paths SQLite opens

An index is a map from directory paths to directory contents, read along a fixed directory tree.
`ATTACH` takes a URI, so the file it opens is the one at the decoded path: `sqliteUriDecode` is
SQLite's decoding of the path part and `sqliteUriPath` is the program's escaping. A path that was
escaped is decoded to itself; a path that was not is decoded to itself only when it contains
nothing that SQLite interprets.
-/

namespace Gufi

abbrev Index := Bytes → Dir

section Uri

def slash : UInt8 := 47

/-- The conversions of `sqlite_uri_path`. -/
def uriConvert (c : UInt8) : Bytes :=
  if c = 35 then [37, 50, 51]
  else if c = 63 then [37, 51, 102]
  else if c = 37 then [37, 50, 53]
  else [c]

def sqliteUriPath (src : Bytes) : Bytes :=
  src.flatMap uriConvert

def hexValue (c : UInt8) : Option ℕ :=
  if 48 ≤ c ∧ c ≤ 57 then some (c.toNat - 48)
  else if 97 ≤ c ∧ c ≤ 102 then some (c.toNat - 87)
  else if 65 ≤ c ∧ c ≤ 70 then some (c.toNat - 55)
  else none

/-- The octet named by two hexadecimal digits. -/
def hexOctet (a b : UInt8) : Option ℕ :=
  match hexValue a, hexValue b with
  | some x, some y => some (16 * x + y)
  | _, _ => none

/-- The path part of a URI filename. It ends at `?`, at `#` and at an escaped NUL. A percent sign
that no two hexadecimal digits follow stands for itself. -/
def sqliteUriDecode : Bytes → Bytes
  | [] => []
  | [c] => if c = 35 ∨ c = 63 then [] else [c]
  | [c, a] => if c = 35 ∨ c = 63 then [] else c :: sqliteUriDecode [a]
  | c :: a :: b :: rest =>
      if c = 35 ∨ c = 63 then []
      else if c = 37 then
        match hexOctet a b with
        | some 0 => []
        | some n => UInt8.ofNat n :: sqliteUriDecode rest
        | none => c :: sqliteUriDecode (a :: b :: rest)
      else c :: sqliteUriDecode (a :: b :: rest)

theorem sqliteUriDecode_plain {c : UInt8} (h35 : c ≠ 35) (h63 : c ≠ 63) (h37 : c ≠ 37)
    (rest : Bytes) : sqliteUriDecode (c :: rest) = c :: sqliteUriDecode rest := by
  match rest with
  | [] => simp [sqliteUriDecode, h35, h63]
  | [a] => simp [sqliteUriDecode, h35, h63]
  | a :: b :: rest => rw [sqliteUriDecode, if_neg (by simp [h35, h63]), if_neg h37]

theorem sqliteUriDecode_uriConvert (c : UInt8) (rest : Bytes) :
    sqliteUriDecode (uriConvert c ++ rest) = c :: sqliteUriDecode rest := by
  unfold uriConvert
  split_ifs with h35 h63 h37
  · subst h35
    rfl
  · subst h63
    rfl
  · subst h37
    rfl
  · exact sqliteUriDecode_plain h35 h63 h37 rest

/-- Escaping a path and letting SQLite decode it gives the path back. -/
theorem sqliteUriDecode_sqliteUriPath (p rest : Bytes) :
    sqliteUriDecode (sqliteUriPath p ++ rest) = p ++ sqliteUriDecode rest := by
  induction p with
  | nil => rfl
  | cons c p ih =>
      have happ : sqliteUriPath (c :: p) ++ rest = uriConvert c ++ (sqliteUriPath p ++ rest) := by
        simp [sqliteUriPath]
      rw [happ, sqliteUriDecode_uriConvert, ih]
      rfl

/-- A raw directory path that SQLite's decoding leaves as it is, whatever file follows. -/
def UriClean (p : Bytes) : Prop :=
  ∀ q, sqliteUriDecode (p ++ slash :: q) = p ++ slash :: sqliteUriDecode q

theorem uriClean_of_plain {p : Bytes} (h : ∀ c ∈ p, c ≠ 35 ∧ c ≠ 63 ∧ c ≠ 37) : UriClean p := by
  intro q
  induction p with
  | nil => exact sqliteUriDecode_plain (by decide) (by decide) (by decide) q
  | cons c p ih =>
      obtain ⟨h35, h63, h37⟩ := h c (List.mem_cons_self ..)
      rw [List.cons_append, sqliteUriDecode_plain h35 h63 h37,
        ih (fun x hx => h x (List.mem_cons_of_mem c hx))]
      rfl

theorem forall_mem_of_all {p : UInt8 → Prop} [DecidablePred p] {l : Bytes}
    (h : l.all (fun c => decide (p c)) = true) : ∀ c ∈ l, p c := by
  simpa using h

end Uri

section Lookup

/-- A path up to its last slash, and the rest. -/
def splitPath (p : Bytes) : Bytes × Bytes :=
  (((p.reverse.dropWhile (· ≠ slash)).tail).reverse, (p.reverse.takeWhile (· ≠ slash)).reverse)

theorem splitPath_append {d f : Bytes} (hf : slash ∉ f) :
    splitPath (d ++ slash :: f) = (d, f) := by
  have hrev : (d ++ slash :: f).reverse = f.reverse ++ slash :: d.reverse := by simp
  have hall : ∀ c ∈ f.reverse, (decide (c ≠ slash)) = true := by
    intro c hc
    have hcf : c ∈ f := List.mem_reverse.mp hc
    simp only [decide_eq_true_eq]
    rintro rfl
    exact hf hcf
  unfold splitPath
  rw [hrev, List.dropWhile_append_of_pos hall, List.takeWhile_append_of_pos hall]
  simp

/-- The `db.db` at a path. -/
def Index.dbAt (ix : Index) (p : Bytes) : Option Db :=
  if (splitPath p).2 = dbname then (ix (splitPath p).1).db else none

/-- The per-user or per-group database at a path. -/
def Index.xattrDbAt (ix : Index) (p : Bytes) : Option XattrDb :=
  (ix (splitPath p).1).xattrDbs (splitPath p).2

theorem dbAt_append (ix : Index) (d : Bytes) : ix.dbAt (d ++ slash :: dbname) = (ix d).db := by
  rw [Index.dbAt, splitPath_append (by decide)]
  simp

theorem xattrDbAt_append (ix : Index) (d : Bytes) {f : Bytes} (hf : slash ∉ f) :
    ix.xattrDbAt (d ++ slash :: f) = (ix d).xattrDbs f := by
  rw [Index.xattrDbAt, splitPath_append hf]

/-- The database a URI of the form `<directory>/db.db` opens. -/
def Index.attachDb (ix : Index) (uri : Bytes) : Option Db :=
  ix.dbAt (sqliteUriDecode (uri ++ slash :: dbname))

/-- Attaching through the escaped name of a directory opens that directory's `db.db`. -/
theorem attachDb_sqliteUriPath (ix : Index) (p : Bytes) :
    ix.attachDb (sqliteUriPath p) = (ix p).db := by
  have hdb : sqliteUriDecode (slash :: dbname) = slash :: dbname := by decide
  rw [Index.attachDb, sqliteUriDecode_sqliteUriPath, hdb, dbAt_append]

end Lookup

/-- A directory path with the subdirectories in the order `readdir` returns them. -/
inductive DirTree
  | node (path : Bytes) (subdirs : List DirTree)

namespace DirTree

def path : DirTree → Bytes
  | .node p _ => p

def subdirs : DirTree → List DirTree
  | .node _ cs => cs

theorem eta (t : DirTree) : t = .node t.path t.subdirs := by
  cases t
  rfl

theorem induct {motive : DirTree → Prop}
    (node : ∀ p cs, (∀ c ∈ cs, motive c) → motive (.node p cs)) : ∀ t, motive t
  | .node p cs => node p cs (fun c _ => induct node c)

mutual

/-- The directories of the tree with their levels, each before those below it. -/
def levels : ℕ → DirTree → List (ℕ × DirTree)
  | l, .node p cs => (l, .node p cs) :: levelsList (l + 1) cs

def levelsList : ℕ → List DirTree → List (ℕ × DirTree)
  | _, [] => []
  | l, c :: cs => levels l c ++ levelsList l cs

end

theorem levelsList_eq (l : ℕ) (cs : List DirTree) : levelsList l cs = cs.flatMap (levels l) := by
  induction cs with
  | nil => rfl
  | cons c cs ih => rw [levelsList, ih, List.flatMap_cons]

theorem levels_eq (l : ℕ) (t : DirTree) :
    t.levels l = (l, t) :: t.subdirs.flatMap (levels (l + 1)) := by
  cases t with
  | node p cs => rw [levels, levelsList_eq]; rfl

theorem mem_levels_subdir {k l : ℕ} {s t c : DirTree} (h : (l, s) ∈ t.levels k)
    (hc : c ∈ s.subdirs) : (l + 1, c) ∈ t.levels k := by
  induction t using DirTree.induct generalizing k with
  | node p cs ih =>
      rw [levels_eq] at h ⊢
      rcases List.mem_cons.mp h with heq | h
      · obtain ⟨rfl, rfl⟩ := Prod.mk.inj heq
        apply List.mem_cons_of_mem
        refine List.mem_flatMap.mpr ⟨c, hc, ?_⟩
        rw [levels_eq]
        exact List.mem_cons_self ..
      · obtain ⟨d, hd, h⟩ := List.mem_flatMap.mp h
        exact List.mem_cons_of_mem _ (List.mem_flatMap.mpr ⟨d, hd, ih d hd h⟩)

theorem levels_succ (k : ℕ) (t : DirTree) :
    t.levels (k + 1) = (t.levels k).map fun x => (x.1 + 1, x.2) := by
  induction t using DirTree.induct generalizing k with
  | node p cs ih =>
      rw [levels_eq, levels_eq, List.map_cons, List.map_flatMap]
      congr 1
      exact List.flatMap_congr fun c hc => ih c hc (k + 1)

/-- The directories of the tree, each before those below it. -/
def subtrees (t : DirTree) : List DirTree :=
  (t.levels 0).map Prod.snd

def paths (t : DirTree) : List Bytes :=
  t.subtrees.map path

theorem map_snd_levels (l : ℕ) (t : DirTree) : (t.levels l).map Prod.snd = t.subtrees := by
  induction t using DirTree.induct generalizing l with
  | node p cs ih =>
      rw [subtrees, levels_eq, levels_eq, List.map_cons, List.map_cons, List.map_flatMap,
        List.map_flatMap]
      congr 1
      exact List.flatMap_congr (fun c hc => (ih c hc (l + 1)).trans (ih c hc 1).symm)

theorem subtrees_eq (t : DirTree) : t.subtrees = t :: t.subdirs.flatMap subtrees := by
  rw [← map_snd_levels 0, levels_eq, List.map_cons, List.map_flatMap]
  congr 1
  exact List.flatMap_congr (fun c _ => map_snd_levels 1 c)

theorem exists_level {s t : DirTree} (h : s ∈ t.subtrees) (k : ℕ) : ∃ l, (l, s) ∈ t.levels k := by
  rw [← map_snd_levels k] at h
  obtain ⟨⟨l, s'⟩, hs, rfl⟩ := List.mem_map.mp h
  exact ⟨l, hs⟩

theorem mem_subtrees_of_mem_levels {root t : DirTree} {l k : ℕ} (h : (l, t) ∈ root.levels k) :
    t ∈ root.subtrees := by
  rw [← map_snd_levels k]
  exact List.mem_map_of_mem h

theorem self_mem_subtrees (t : DirTree) : t ∈ t.subtrees := by
  rw [subtrees_eq]
  exact List.mem_cons_self ..

theorem subtrees_subset_of_mem {s t : DirTree} (h : s ∈ t.subtrees) :
    s.subtrees ⊆ t.subtrees := by
  induction t using DirTree.induct with
  | node p cs ih =>
      rw [subtrees_eq] at h
      rcases List.mem_cons.mp h with rfl | hc
      · exact fun _ hx => hx
      · obtain ⟨c, hc, hs⟩ := List.mem_flatMap.mp hc
        intro x hx
        rw [subtrees_eq]
        exact List.mem_cons_of_mem _ (List.mem_flatMap.mpr ⟨c, hc, ih c hc hs hx⟩)

theorem subdir_mem_subtrees {s t c : DirTree} (h : s ∈ t.subtrees) (hc : c ∈ s.subdirs) :
    c ∈ t.subtrees := by
  apply subtrees_subset_of_mem h
  rw [subtrees_eq]
  exact List.mem_cons_of_mem _ (List.mem_flatMap.mpr ⟨c, hc, c.self_mem_subtrees⟩)

section Fold

variable {α : Type*} (f : Bytes → List α → α)

mutual

/-- A value computed upwards, from a directory's path and the values of its subdirectories. -/
def fold : DirTree → α
  | .node p cs => f p (foldList cs)

def foldList : List DirTree → List α
  | [] => []
  | c :: cs => fold c :: foldList cs

end

theorem fold_eq (t : DirTree) : t.fold f = f t.path (t.subdirs.map (fold f)) := by
  have hlist (cs : List DirTree) : foldList f cs = cs.map (fold f) := by
    induction cs with
    | nil => rfl
    | cons c cs ih => rw [foldList, ih, List.map_cons]
  cases t with
  | node p cs => rw [fold, hlist]; rfl

/-- Values computed by equal steps are equal. -/
theorem fold_congr {g : Bytes → List α → α} {t : DirTree}
    (h : ∀ s ∈ t.subtrees, ∀ l, f s.path l = g s.path l) : t.fold f = t.fold g := by
  induction t using DirTree.induct with
  | node p cs ih =>
      have hcs : cs.map (fold f) = cs.map (fold g) :=
        List.map_congr_left fun c hc => ih c hc fun s hs =>
          h s (subtrees_subset_of_mem (subdir_mem_subtrees (self_mem_subtrees _) hc) hs)
      rw [fold_eq, fold_eq]
      change f p (cs.map (fold f)) = g p (cs.map (fold g))
      rw [hcs]
      exact h _ (self_mem_subtrees _) _

end Fold

end DirTree

/-- The last part of a directory's path. -/
def DirTree.name (t : DirTree) : Bytes :=
  (splitPath t.path).2

/-- A file name: not empty, without NUL and without a slash, and neither `.` nor `..`. -/
def LegalName (n : Bytes) : Prop :=
  n ≠ [] ∧ 0 ∉ n ∧ slash ∉ n ∧ n ≠ [46] ∧ n ≠ [46, 46]

instance (n : Bytes) : Decidable (LegalName n) :=
  inferInstanceAs (Decidable (_ ∧ _))

/-- What a file system promises of a directory tree: a subdirectory's path is the directory's
path with a legal name below it, and no path occurs twice. -/
structure DirTree.WellFormed (t : DirTree) : Prop where
  legal : ∀ s ∈ t.subtrees, ∀ c ∈ s.subdirs, ∃ n, LegalName n ∧ c.path = s.path ++ slash :: n
  nodup : t.paths.Nodup

namespace DirTree.WellFormed

variable {t : DirTree}

theorem subtree {s : DirTree} (h : t.WellFormed) (hs : s ∈ t.subtrees) : s.WellFormed where
  legal := fun x hx => h.legal x (subtrees_subset_of_mem hs hx)
  nodup := by
    induction t using DirTree.induct with
    | node p cs ih =>
        rw [subtrees_eq] at hs
        rcases List.mem_cons.mp hs with rfl | hc
        · exact h.nodup
        · obtain ⟨c, hc, hsc⟩ := List.mem_flatMap.mp hc
          have hn := h.nodup
          rw [paths, subtrees_eq, List.map_cons, List.nodup_cons, List.map_flatMap] at hn
          have hcn : c.paths.Nodup := (List.nodup_flatMap.mp hn.2).1 c hc
          exact ih c hc ⟨fun x hx => h.legal x (by
            rw [subtrees_eq]
            exact List.mem_cons_of_mem _ (List.mem_flatMap.mpr ⟨c, hc, hx⟩)), hcn⟩ hsc

/-- In a well-formed tree a path determines its directory. -/
theorem eq_of_path_eq (h : t.WellFormed) {s s' : DirTree} (hs : s ∈ t.subtrees)
    (hs' : s' ∈ t.subtrees) (hp : s.path = s'.path) : s = s' :=
  List.inj_on_of_nodup_map h.nodup hs hs' hp

/-- In a well-formed tree a path determines its directory and its level. -/
theorem levels_eq_of_path_eq (h : t.WellFormed) {k l l' : ℕ} {s s' : DirTree}
    (hs : (l, s) ∈ t.levels k) (hs' : (l', s') ∈ t.levels k) (hp : s.path = s'.path) :
    (l, s) = (l', s') := by
  have hnodup : ((t.levels k).map fun x => x.2.path).Nodup := by
    have hmap : ((t.levels k).map fun x => x.2.path) = t.paths := by
      rw [paths, ← map_snd_levels k, List.map_map]
      rfl
    rw [hmap]
    exact h.nodup
  exact List.inj_on_of_nodup_map hnodup hs hs' hp

theorem length_path_lt (h : t.WellFormed) {s c : DirTree} (hs : s ∈ t.subtrees)
    (hc : c ∈ s.subdirs) : s.path.length < c.path.length := by
  obtain ⟨n, -, hn⟩ := h.legal s hs c hc
  rw [hn, List.length_append, List.length_cons]
  omega

theorem length_path_le (h : t.WellFormed) {s : DirTree} (hs : s ∈ t.subtrees) :
    t.path.length ≤ s.path.length := by
  induction t using DirTree.induct with
  | node p cs ih =>
      rw [subtrees_eq] at hs
      rcases List.mem_cons.mp hs with rfl | hs
      · exact le_rfl
      · obtain ⟨c, hc, hsc⟩ := List.mem_flatMap.mp hs
        have hmem : c ∈ (DirTree.node p cs).subtrees :=
          subdir_mem_subtrees (self_mem_subtrees _) hc
        calc (DirTree.node p cs).path.length ≤ c.path.length :=
              (h.length_path_lt (self_mem_subtrees _) hc).le
          _ ≤ s.path.length := ih c hc (h.subtree hmem) hsc

theorem exists_path_append (h : t.WellFormed) {s : DirTree} (hs : s ∈ t.subtrees) :
    ∃ r, s.path = t.path ++ r := by
  induction t using DirTree.induct with
  | node p cs ih =>
      rw [subtrees_eq] at hs
      rcases List.mem_cons.mp hs with rfl | hs
      · exact ⟨[], (List.append_nil _).symm⟩
      · obtain ⟨c, hc, hsc⟩ := List.mem_flatMap.mp hs
        have hmem : c ∈ (DirTree.node p cs).subtrees :=
          subdir_mem_subtrees (self_mem_subtrees _) hc
        obtain ⟨r, hr⟩ := ih c hc (h.subtree hmem) hsc
        obtain ⟨n, -, hn⟩ := h.legal _ (self_mem_subtrees _) c hc
        exact ⟨slash :: n ++ r, by rw [hr, hn, List.append_assoc]⟩

/-- A directory is a subdirectory of one directory only. -/
theorem parent_unique (h : t.WellFormed) {s s' c : DirTree} (hs : s ∈ t.subtrees)
    (hs' : s' ∈ t.subtrees) (hc : c ∈ s.subdirs) (hc' : c ∈ s'.subdirs) : s = s' := by
  obtain ⟨n, ⟨-, -, hn, -⟩, hpath⟩ := h.legal s hs c hc
  obtain ⟨n', ⟨-, -, hn', -⟩, hpath'⟩ := h.legal s' hs' c hc'
  apply h.eq_of_path_eq hs hs'
  rw [hpath] at hpath'
  have hsplit := congrArg (fun p => (splitPath p).1) hpath'
  simpa only [splitPath_append hn, splitPath_append hn'] using hsplit

end DirTree.WellFormed

end Gufi
