import Gufi.Descend
import Gufi.Index
import Gufi.SwapRoundTrip

/-!
# Paths for SQLite

Each walk keeps the escaped path of a directory beside its path. That of a child is made of that of
its parent and the escaped name, in a buffer for which every byte of the name is taken to need
three.
-/

namespace Gufi.UriPaths

open Swap Descend ByteBuffer

section Model

/-- `sqlite_uri_path`: what it writes into a buffer, and how many bytes of the source it got to. -/
def convertPath : ℕ → Bytes → Bytes × ℕ
  | _, [] => ([], 0)
  | size, c :: src =>
      if size = 0 then ([], 0)
      else
        let converted := (uriConvert c).take size
        let (rest, used) := convertPath (size - converted.length) src
        (converted ++ rest, used + 1)

/-- `SNFORMAT_S`, and what it returns. It takes lengths as `unsigned int`. -/
def snformat (buf : Bytes) (pos size : ℕ) (texts : List Bytes) : Bytes × ℕ :=
  let text := texts.flatMap fun text => text.take (text.length % 2 ^ 32)
  (snprintf buf pos size text, min text.length (size - 1))

/-- A path in the buffer that has been allocated for it. -/
structure UriName where
  size : ℕ
  buf : Bytes
  len : ℕ

def UriName.bytes (u : UriName) : Bytes := u.buf.take u.len

/-- The buffer has not been written past its end. -/
def UriName.InBlock (u : UriName) : Prop := u.buf.length = u.size ∧ u.len ≤ u.size

variable (heap : Malloc)

/-- The escaped path of a directory, `/`, and the escaped name of a child. -/
def appendName (dirname basename : Bytes) : UriName :=
  let size := dirname.length + 1 + 3 * basename.length + 1
  let (buf, len) := snformat (heap.block size).bytes 0 size [dirname, [slash]]
  let (converted, _) := convertPath (size - len) basename
  ⟨size, put buf len converted, len + converted.length⟩

def newAltPathname (dirname : Bytes) : Option Bytes → UriName
  | some basename => appendName heap dirname basename
  | none =>
      let size := 3 * dirname.length + 1
      let (converted, _) := convertPath size dirname
      ⟨size, put (heap.block size).bytes 0 converted, converted.length⟩

/-- The `uri` of a child in `ls_dirs`, which is ended with a NUL. -/
def lsDirsUri (uri dName : Bytes) : UriName :=
  let child := appendName heap uri dName
  { child with buf := put child.buf child.len [0] }

def pathOf (root : Bytes) (names : List Bytes) : Bytes :=
  names.foldl (fun dir name => dir ++ slash :: name) root

/-- What is kept of a directory below the root by a walk. -/
def uriOf (append : Bytes → Bytes → UriName) (root : Bytes) (names : List Bytes) : UriName :=
  names.foldl (fun parent name => append parent.bytes name) (newAltPathname heap root none)

/-- The arguments of `new_gqw_with_name`, and what `stat` and `lstat` return. -/
structure GqwArgs where
  pre : Bytes
  basename : Bytes
  entry : Dirent
  nextLevel : ℤ
  sqlite3Pre : Bytes
  stat : Option Stat
  lstat : Option (Stat × Int64)

def NOT_STATX_CALLED : UInt32 := 1

def IsDir (work : Work) : Prop := work.statuso.mode &&& S_IFMT = S_IFDIR

instance (work : Work) : Decidable (IsDir work) := inferInstanceAs (Decidable (_ = _))

/-- The size of the block. Every byte of the basename may be replaced. -/
def GqwArgs.nameLen (a : GqwArgs) : ℕ := a.pre.length + 1 + a.basename.length

def GqwArgs.sqlite3NameLen (a : GqwArgs) : ℕ := a.sqlite3Pre.length + 1 + 3 * a.basename.length

/-- The bytes behind the structure with the second name, if the entry has one. -/
def GqwArgs.sqlite3Name (a : GqwArgs) (names : Bytes) : Bytes × ℕ :=
  let start := a.nameLen + 1
  let size := a.sqlite3NameLen + 1
  let (names, len) := snformat names start size [a.sqlite3Pre]
  if a.basename.length = 0 then (names, len)
  else
    let (names, one) := snformat names (start + len) (size - len) [[slash]]
    let (converted, _) := convertPath (size - (len + one)) a.basename
    (put names (start + (len + one)) converted, len + one + converted.length)

/-- The pointers in a structure that has been moved. -/
def relocate (nameLen : ℕ) (gqw : Gqw) (addr : UInt64) : Gqw :=
  let name := addr + UInt64.ofNat Gqw.layout.size
  { gqw with
    work := { gqw.work with name := name }
    sqlite3Name :=
      if gqw.sqlite3Name ≠ 0 then name + UInt64.ofNat (nameLen + 1 + 1) else 0 }

/-- The block is shrunk, and the pointers are set again if it has moved. -/
def shrink (realloc : Option Malloc) (nameLen : ℕ) (gqw : Gqw) (m : Mem) (size : ℕ) : Mem :=
  match realloc with
  | none => m
  | some heap' =>
      let r := heap'.realloc m size
      if r.addr = m.addr then r
      else r.store Gqw.layout (relocate nameLen gqw r.addr)

/-- `new_gqw_with_name`. Only directories have a name for SQLite. -/
def newGqwWithName (realloc : Option Malloc) (a : GqwArgs) : Option Mem :=
  let size := a.nameLen + 1 + a.sqlite3NameLen + 1
  let block := heap.block (Gqw.layout.size + size)
  let name := block.addr + UInt64.ofNat Gqw.layout.size
  let (names, nameLen) := snformat (List.replicate size 0) 0 (a.nameLen + 1)
    [a.pre, [slash], a.basename]
  let work := { zeroWork with name := name, nameLen := UInt64.ofNat nameLen }
  let work :=
    if a.nextLevel < 2 then
      a.stat.map fun st => { work with statuso := st, statCalled := NOT_STATX_CALLED }
    else trySkipLstat a.entry a.lstat work
  work.map fun work =>
    let (names, len) := if IsDir work then a.sqlite3Name names else (names, 0)
    let gqw : Gqw :=
      { comp := ⟨0, 0, 0⟩
        work := work
        idMatch := 0
        sqlite3Name := if IsDir work then name + UInt64.ofNat (a.nameLen + 1) else 0
        sqlite3NameLen := UInt64.ofNat len }
    let m : Mem := ⟨block.addr, Gqw.layout.encode gqw ++ names, block.behind⟩
    shrink realloc a.nameLen gqw m (Gqw.layout.size + nameLen + 1 + len + 1)

def gqwSize (g : Gqw) : ℕ :=
  Gqw.layout.size + g.work.nameLen.toNat + 1 + g.sqlite3NameLen.toNat + 1

end Model

section Buffers

variable {heap : Malloc} {path dirname basename : Bytes}

theorem sqliteUriPath_cons (c : UInt8) (src : Bytes) :
    Gufi.sqliteUriPath (c :: src) = uriConvert c ++ Gufi.sqliteUriPath src :=
  List.flatMap_cons ..

theorem sqliteUriPath_append (p q : Bytes) :
    Gufi.sqliteUriPath (p ++ q) = Gufi.sqliteUriPath p ++ Gufi.sqliteUriPath q :=
  List.flatMap_append ..

theorem sqliteUriPath_join (dir name : Bytes) : Gufi.sqliteUriPath (dir ++ slash :: name) =
    Gufi.sqliteUriPath dir ++ slash :: Gufi.sqliteUriPath name := by
  rw [sqliteUriPath_append, sqliteUriPath_cons]
  rfl

theorem length_uriConvert (c : UInt8) :
    0 < (uriConvert c).length ∧ (uriConvert c).length ≤ 3 := by
  unfold uriConvert
  split_ifs
  · decide
  · decide
  · decide
  · exact ⟨Nat.one_pos, Nat.le_add_left 1 2⟩

theorem length_sqliteUriPath_le (p : Bytes) : (Gufi.sqliteUriPath p).length ≤ 3 * p.length := by
  induction p with
  | nil => exact le_rfl
  | cons c p ih =>
      have hc := (length_uriConvert c).2
      rw [sqliteUriPath_cons, List.length_append, List.length_cons]
      omega

theorem length_le_sqliteUriPath (p : Bytes) : p.length ≤ (Gufi.sqliteUriPath p).length := by
  induction p with
  | nil => exact le_rfl
  | cons c p ih =>
      have hc := (length_uriConvert c).1
      rw [sqliteUriPath_cons, List.length_append, List.length_cons]
      omega

/-- What does not fit is left out. -/
theorem convertPath_fst (size : ℕ) (src : Bytes) :
    (convertPath size src).1 = (Gufi.sqliteUriPath src).take size := by
  induction src generalizing size with
  | nil => rw [convertPath, Gufi.sqliteUriPath, List.flatMap_nil, List.take_nil]
  | cons c src ih =>
      rw [convertPath]
      split_ifs with hsize
      · rw [hsize, List.take_zero]
      · dsimp only
        rw [ih, sqliteUriPath_cons, List.take_append, List.length_take]
        congr 2
        omega

theorem convertPath_eq {size : ℕ} (h : 3 * path.length ≤ size) :
    (convertPath size path).1 = Gufi.sqliteUriPath path := by
  rw [convertPath_fst, List.take_of_length_le ((length_sqliteUriPath_le path).trans h)]

/-- The whole source has been converted when there is room for it. -/
theorem convertPath_snd {size : ℕ} {src : Bytes} (h : (Gufi.sqliteUriPath src).length ≤ size) :
    (convertPath size src).2 = src.length := by
  induction src generalizing size with
  | nil => rfl
  | cons c src ih =>
      rw [sqliteUriPath_cons, List.length_append] at h
      have hpos := (length_uriConvert c).1
      rw [convertPath, if_neg (by omega)]
      dsimp only
      rw [List.take_of_length_le (by omega), ih (by omega), List.length_cons]

/-- No byte of an escaped path ends the path part of a URI. -/
theorem not_mem_sqliteUriPath (p : Bytes) :
    35 ∉ Gufi.sqliteUriPath p ∧ 63 ∉ Gufi.sqliteUriPath p := by
  have hconvert (c : UInt8) : 35 ∉ uriConvert c ∧ 63 ∉ uriConvert c := by
    unfold uriConvert
    split_ifs with h35 h63 h37
    · decide
    · decide
    · decide
    · exact ⟨fun h => h35 (List.mem_singleton.mp h).symm,
        fun h => h63 (List.mem_singleton.mp h).symm⟩
  constructor
  · intro h
    obtain ⟨c, -, hc⟩ := List.mem_flatMap.mp h
    exact (hconvert c).1 hc
  · intro h
    obtain ⟨c, -, hc⟩ := List.mem_flatMap.mp h
    exact (hconvert c).2 hc

theorem snformat_eq {buf : Bytes} {pos size : ℕ} {texts : List Bytes}
    (h : ∀ text ∈ texts, text.length < 2 ^ 32) (hfits : texts.flatten.length < size) :
    snformat buf pos size texts = (snprintf buf pos size texts.flatten, texts.flatten.length) := by
  have hwhole : (texts.flatMap fun text => text.take (text.length % 2 ^ 32)) = texts.flatten := by
    rw [List.flatMap_def, List.map_congr_left fun text htext => by
      rw [Nat.mod_eq_of_lt (h text htext), List.take_length], List.map_id']
  rw [snformat, hwhole]
  exact congrArg _ (Nat.min_eq_left (Nat.le_sub_one_of_lt hfits))

/-- The buffer has the path and room for a NUL, and has not been written past its end. -/
structure UriName.Holds (u : UriName) (path : Bytes) : Prop where
  length_buf : u.buf.length = u.size
  lt_size : u.len < u.size
  bytes : u.bytes = path

theorem holds_appendName (hdir : dirname.length < 2 ^ 32) (basename : Bytes) :
    (appendName heap dirname basename).Holds (dirname ++ slash :: Gufi.sqliteUriPath basename) := by
  obtain ⟨size, hsize⟩ : ∃ size, dirname.length + 1 + 3 * basename.length + 1 = size := ⟨_, rfl⟩
  have hblock := heap.length_block size
  have hconverted := length_sqliteUriPath_le basename
  have htexts : ([dirname, [slash]] : List Bytes).flatten = dirname ++ [slash] := by
    rw [List.flatten_cons, List.flatten_singleton]
  have hlen : (dirname ++ [slash]).length = dirname.length + 1 := by
    rw [List.length_append, List.length_singleton]
  have hsnformat := @snformat_eq (heap.block size).bytes 0 size [dirname, [slash]]
    (List.forall_mem_cons.mpr ⟨hdir, List.forall_mem_singleton.mpr (by decide)⟩)
    (by rw [htexts, hlen]; omega)
  rw [htexts, hlen] at hsnformat
  have hname : appendName heap dirname basename =
      ⟨size, put (snprintf (heap.block size).bytes 0 size (dirname ++ [slash]))
        (dirname.length + 1) (Gufi.sqliteUriPath basename),
        dirname.length + 1 + (Gufi.sqliteUriPath basename).length⟩ := by
    rw [appendName, hsize, hsnformat]
    dsimp only
    rw [convertPath_eq (by omega)]
  have hempty : Filled (heap.block size).bytes 0 [] := ⟨Nat.zero_le _, List.take_zero⟩
  have hdirname : Filled (snprintf (heap.block size).bytes 0 size (dirname ++ [slash])) _ _ :=
    hempty.snprintf (by omega) (by omega)
  rw [hlen, Nat.zero_add, List.nil_append] at hdirname
  have hroom : dirname.length + 1 + (Gufi.sqliteUriPath basename).length ≤
      (snprintf (heap.block size).bytes 0 size (dirname ++ [slash])).length := by
    rw [length_snprintf (by omega)]
    omega
  rw [hname]
  refine ⟨?_, ?_, ?_⟩
  · rw [length_put hroom, length_snprintf (by omega), hblock]
  · dsimp only
    omega
  · exact (hdirname.put hroom).take.trans (by rw [List.append_assoc, List.singleton_append])

theorem holds_newAltPathname_none (path : Bytes) :
    (newAltPathname heap path none).Holds (Gufi.sqliteUriPath path) := by
  have hconverted := length_sqliteUriPath_le path
  have hblock := heap.length_block (3 * path.length + 1)
  have hempty : Filled (heap.block (3 * path.length + 1)).bytes 0 [] :=
    ⟨Nat.zero_le _, List.take_zero⟩
  have hput : Filled (put (heap.block (3 * path.length + 1)).bytes 0 (Gufi.sqliteUriPath path))
    _ _ := hempty.put (by omega)
  rw [Nat.zero_add, List.nil_append] at hput
  rw [newAltPathname]
  dsimp only
  rw [convertPath_eq (Nat.le_succ _)]
  exact ⟨(length_put (by omega)).trans hblock, by dsimp only; omega, hput.take⟩

/-- The NUL is in the block. -/
theorem holds_lsDirsUri (hdir : dirname.length < 2 ^ 32) (basename : Bytes) :
    (lsDirsUri heap dirname basename).Holds (dirname ++ slash :: Gufi.sqliteUriPath basename) := by
  have h := @holds_appendName heap dirname hdir basename
  have hroom : (appendName heap dirname basename).len + ([0] : Bytes).length ≤
      (appendName heap dirname basename).buf.length := by
    rw [h.length_buf]
    exact h.lt_size
  refine ⟨(length_put hroom).trans h.length_buf, h.lt_size, Eq.trans ?_ h.bytes⟩
  exact (take_put hroom (Nat.zero_le _)).trans (List.append_nil _)

theorem length_le_pathOf (root : Bytes) (names : List Bytes) :
    (Gufi.sqliteUriPath root).length ≤ (Gufi.sqliteUriPath (pathOf root names)).length := by
  induction names generalizing root with
  | nil => exact le_rfl
  | cons name names ih =>
      refine le_trans ?_ (ih (root ++ slash :: name))
      rw [sqliteUriPath_append, List.length_append]
      exact Nat.le_add_right _ _

/-- Below the root each path is made of that of the parent. -/
theorem holds_uriOf {append : Bytes → Bytes → UriName}
    (happend : ∀ {dirname} basename, dirname.length < 2 ^ 32 →
      (append dirname basename).Holds (dirname ++ slash :: Gufi.sqliteUriPath basename))
    {root : Bytes} {names : List Bytes}
    (hfits : (Gufi.sqliteUriPath (pathOf root names)).length < 2 ^ 32) :
    (uriOf heap append root names).Holds (Gufi.sqliteUriPath (pathOf root names)) := by
  rw [uriOf]
  have hroot := @holds_newAltPathname_none heap root
  generalize newAltPathname heap root none = u at hroot
  induction names generalizing root u with
  | nil => exact hroot
  | cons name names ih =>
      have hdir : u.bytes.length < 2 ^ 32 := by
        rw [hroot.bytes]
        exact (length_le_pathOf root (name :: names)).trans_lt hfits
      have hchild := happend name hdir
      rw [hroot.bytes, ← sqliteUriPath_join] at hchild
      refine @ih (root ++ slash :: name) hfits (append u.bytes name) ?_
      rw [hroot.bytes]
      exact hchild

end Buffers

section Gqws

variable {heap : Malloc} {realloc : Option Malloc} {a : GqwArgs} {m : Mem}

def GqwArgs.name (a : GqwArgs) : Bytes := a.pre ++ slash :: a.basename

/-- The mode that is found out for the entry. -/
def GqwArgs.mode (a : GqwArgs) : Option UInt32 :=
  if a.nextLevel < 2 then a.stat.map fun st => st.mode
  else
    match a.entry.type with
    | .dir => some S_IFDIR
    | .lnk => some S_IFLNK
    | .reg => some S_IFREG
    | .fifo | .sock | .chr | .blk => some 0
    | .unknown => a.lstat.map fun (st, _) => st.mode

/-- `gq_descend` calls the function with the names of a directory and of an entry in it, which is a
directory too. -/
structure GqwArgs.Called (a : GqwArgs) : Prop where
  isDir : ∃ mode, a.mode = some mode ∧ mode &&& S_IFMT = S_IFDIR
  basename : a.basename ≠ []
  sqlite3Pre : a.sqlite3Pre = Gufi.sqliteUriPath a.pre
  noNul : 0 ∉ a.name
  fits : (Gufi.sqliteUriPath a.pre).length < 2 ^ 32
  basenameFits : a.basename.length < 2 ^ 32

theorem GqwArgs.length_name (a : GqwArgs) : a.name.length = a.nameLen := by
  rw [GqwArgs.name, GqwArgs.nameLen, List.length_append, List.length_cons]
  omega

theorem snformat_zeros {content : Bytes} {pos k size : ℕ} {text : Bytes}
    (hpos : content.length = pos) (h : text.length < 2 ^ 32) (hsize : text.length < size)
    (hroom : text.length < k) : snformat (content ++ List.replicate k 0) pos size [text] =
      (content ++ text ++ List.replicate (k - text.length) 0, text.length) := by
  have htext : ([text] : List Bytes).flatten = text := List.flatten_singleton
  rw [snformat_eq (List.forall_mem_singleton.mpr h) (by rwa [htext]), htext, ← hpos,
    snprintf_zeros hsize hroom, List.append_assoc]

theorem GqwArgs.Called.length_uri (h : a.Called) : (Gufi.sqliteUriPath a.name).length =
    a.sqlite3Pre.length + 1 + (Gufi.sqliteUriPath a.basename).length := by
  rw [GqwArgs.name, sqliteUriPath_join, List.length_append, List.length_cons, ← h.sqlite3Pre]
  omega

theorem GqwArgs.Called.length_uri_le (h : a.Called) :
    (Gufi.sqliteUriPath a.name).length ≤ a.sqlite3NameLen := by
  rw [h.length_uri]
  exact Nat.add_le_add_left (length_sqliteUriPath_le a.basename) _

/-- The second name is behind the NUL of the first, with zeros up to the end of the block. -/
theorem GqwArgs.sqlite3Name_eq (h : a.Called) : ∃ k,
    a.sqlite3Name (a.name ++ List.replicate (1 + (a.sqlite3NameLen + 1)) 0) =
      (a.name ++ [0] ++ Gufi.sqliteUriPath a.name ++ List.replicate (k + 1) 0,
        (Gufi.sqliteUriPath a.name).length) := by
  have hconverted := length_sqliteUriPath_le a.basename
  have hname := a.length_name
  have hsize : a.sqlite3NameLen = a.sqlite3Pre.length + 1 + 3 * a.basename.length := rfl
  have hlen := h.length_uri
  have hpre : a.sqlite3Pre.length < 2 ^ 32 := by
    rw [h.sqlite3Pre]
    exact h.fits
  refine ⟨a.sqlite3NameLen - (Gufi.sqliteUriPath a.name).length, ?_⟩
  have hstart : (a.name ++ [0]).length = a.nameLen + 1 := by
    rw [List.length_append, hname, List.length_singleton]
  have hfirst := @snformat_zeros (a.name ++ [0]) (a.nameLen + 1) (a.sqlite3NameLen + 1)
    (a.sqlite3NameLen + 1) a.sqlite3Pre hstart hpre (by omega) (by omega)
  have hsecond := @snformat_zeros (a.name ++ [0] ++ a.sqlite3Pre)
    (a.nameLen + 1 + a.sqlite3Pre.length) (a.sqlite3NameLen + 1 - a.sqlite3Pre.length)
    (a.sqlite3NameLen + 1 - a.sqlite3Pre.length) [slash]
    (by rw [List.length_append, hstart]) (by decide)
    (by rw [List.length_singleton]; omega) (by rw [List.length_singleton]; omega)
  have hthird := @put_zeros (a.name ++ [0] ++ a.sqlite3Pre ++ [slash])
    (Gufi.sqliteUriPath a.basename)
    (a.sqlite3NameLen + 1 - a.sqlite3Pre.length - ([slash] : Bytes).length)
  rw [@List.length_append _ _ [slash], @List.length_append _ _ a.sqlite3Pre, hstart,
    Nat.add_assoc] at hthird
  have huri : Gufi.sqliteUriPath a.name =
      a.sqlite3Pre ++ ([slash] ++ Gufi.sqliteUriPath a.basename) := by
    rw [GqwArgs.name, sqliteUriPath_join, h.sqlite3Pre]
    rfl
  have hone : ([slash] : Bytes).length = 1 := rfl
  have hzeros : a.sqlite3NameLen + 1 - a.sqlite3Pre.length - ([slash] : Bytes).length -
      (Gufi.sqliteUriPath a.basename).length =
        a.sqlite3NameLen - (Gufi.sqliteUriPath a.name).length + 1 := by
    omega
  have hzero : List.replicate 1 (0 : UInt8) = [0] := rfl
  rw [List.replicate_add, ← List.append_assoc, hzero, GqwArgs.sqlite3Name]
  dsimp only
  rw [hfirst, if_neg (mt List.length_eq_zero_iff.mp h.basename)]
  dsimp only
  rw [hsecond]
  dsimp only
  rw [convertPath_eq (by omega), hthird, hzeros]
  refine Prod.ext ?_ (by dsimp only; omega)
  rw [huri]
  simp only [List.append_assoc]

theorem GqwArgs.names_eq (h : a.Called) :
    snformat (List.replicate (a.nameLen + 1 + a.sqlite3NameLen + 1) 0) 0 (a.nameLen + 1)
      [a.pre, [slash], a.basename] =
      (a.name ++ List.replicate (1 + (a.sqlite3NameLen + 1)) 0, a.name.length) := by
  have hpre : a.pre.length < 2 ^ 32 := (length_le_sqliteUriPath a.pre).trans_lt h.fits
  have htexts : ([a.pre, [slash], a.basename] : List Bytes).flatten = a.name := by
    rw [List.flatten_cons, List.flatten_cons, List.flatten_singleton]
    rfl
  have hname := a.length_name
  have hzeros := @snprintf_zeros [] a.name (a.nameLen + 1 + a.sqlite3NameLen + 1) (a.nameLen + 1)
    (by omega) (by omega)
  rw [List.nil_append, List.nil_append, List.length_nil] at hzeros
  have hrest : a.nameLen + 1 + a.sqlite3NameLen + 1 - a.name.length =
      1 + (a.sqlite3NameLen + 1) := by omega
  rw [snformat_eq, htexts, hzeros, hrest]
  · exact List.forall_mem_cons.mpr ⟨hpre, List.forall_mem_cons.mpr
      ⟨by decide, List.forall_mem_singleton.mpr h.basenameFits⟩⟩
  · rw [htexts, hname]
    exact Nat.lt_succ_self _

/-- Blocks of a size that can be allocated are not at `NULL` and do not wrap around. -/
def Placed (heap : Malloc) : Prop :=
  ∀ n ≤ 2 ^ 63, (heap.block n).addr ≠ 0 ∧ (heap.block n).addr.toNat + n ≤ 2 ^ 64

theorem Placed.pointer_ne_zero (h : Placed heap) {k n : ℕ} (hn : n ≤ 2 ^ 63) (hk : k < n) :
    (heap.block n).addr + UInt64.ofNat k ≠ 0 := by
  obtain ⟨haddr, hend⟩ := h n hn
  have hpos : (heap.block n).addr.toNat ≠ 0 := fun hzero => haddr (UInt64.toNat_inj.mp hzero)
  have hsmall : k < 2 ^ 64 := by omega
  intro hzero
  have hsum := congrArg UInt64.toNat hzero
  rw [UInt64.toNat_add, UInt64.toNat_ofNat_of_lt' hsmall, UInt64.toNat_zero,
    Nat.mod_eq_of_lt (by omega)] at hsum
  omega

theorem GqwArgs.Called.size_le (h : a.Called) :
    Gqw.layout.size + (a.nameLen + 1 + a.sqlite3NameLen + 1) ≤ 2 ^ 63 := by
  have hpre := (length_le_sqliteUriPath a.pre).trans_lt h.fits
  have hsqlite3Pre : a.sqlite3Pre.length < 2 ^ 32 := by
    rw [h.sqlite3Pre]
    exact h.fits
  have hbase := h.basenameFits
  have hlayout : Gqw.layout.size = 336 := rfl
  rw [GqwArgs.nameLen, GqwArgs.sqlite3NameLen]
  omega

theorem load_of_bytes {g : Gqw} {rest : Bytes} (h : m.bytes = Gqw.layout.encode g ++ rest) :
    m.load Gqw.layout = some g := by
  rw [Mem.load, h, ObjectLayout.Layout.read_encode, Option.map_some]

/-- The names stay behind the structure, of which only the pointers change. -/
theorem shrink_cases {nameLen j : ℕ} {gqw : Gqw} {names : Bytes}
    (hm : m.bytes = Gqw.layout.encode gqw ++ names) :
    (shrink realloc nameLen gqw m (Gqw.layout.size + j)).addr = m.addr ∧
      (∀ heap', realloc = some heap' → (heap'.block (Gqw.layout.size + j)).addr = m.addr) ∧
      (∃ rest, (shrink realloc nameLen gqw m (Gqw.layout.size + j)).bytes =
        Gqw.layout.encode gqw ++ (names.take j ++ rest)) ∨
    ∃ heap', realloc = some heap' ∧ (heap'.block (Gqw.layout.size + j)).addr ≠ m.addr ∧
      (shrink realloc nameLen gqw m (Gqw.layout.size + j)).addr =
        (heap'.block (Gqw.layout.size + j)).addr ∧
      ∃ rest, (shrink realloc nameLen gqw m (Gqw.layout.size + j)).bytes =
        Gqw.layout.encode (relocate nameLen gqw (heap'.block (Gqw.layout.size + j)).addr) ++
          (names.take j ++ rest) := by
  cases realloc with
  | none =>
      refine .inl ⟨rfl, fun _ h => (nomatch h), names.drop j, ?_⟩
      rw [List.take_append_drop]
      exact hm
  | some heap' =>
      have hbytes : (heap'.realloc m (Gqw.layout.size + j)).bytes = Gqw.layout.encode gqw ++
          (names.take j ++ (heap'.block (Gqw.layout.size + j)).bytes.drop m.bytes.length) := by
        rw [Malloc.realloc]
        dsimp only
        rw [← List.append_assoc, hm, ← Gqw.layout.length_encode gqw, List.take_length_add_append]
      rw [shrink]
      by_cases haddr : (heap'.realloc m (Gqw.layout.size + j)).addr = m.addr
      · rw [if_pos haddr]
        exact .inl ⟨haddr, fun _ h => Option.some_inj.mp h ▸ haddr, _, hbytes⟩
      · rw [if_neg haddr]
        refine .inr ⟨heap', rfl, haddr, rfl,
          (heap'.block (Gqw.layout.size + j)).bytes.drop m.bytes.length, ?_⟩
        rw [Mem.bytes_store, hbytes, List.drop_left' (Gqw.layout.length_encode gqw)]
        rfl

/-- The bytes behind the structure of a directory. -/
def GqwArgs.namesSize (a : GqwArgs) : ℕ :=
  a.name.length + 1 + (Gufi.sqliteUriPath a.name).length + 1

/-- `realloc` returns a block at another address. -/
def Moves (heap : Malloc) (realloc : Option Malloc) (a : GqwArgs) : Prop :=
  ∃ heap', realloc = some heap' ∧ (heap'.block (Gqw.layout.size + a.namesSize)).addr ≠
    (heap.block (Gqw.layout.size + (a.nameLen + 1 + a.sqlite3NameLen + 1))).addr

/-- The block of a directory, and what its structure has in it. -/
structure IsGqw (m : Mem) (g : Gqw) (name : Bytes) (shift : ℕ) : Prop where
  bytes : ∃ slack, m.bytes = Gqw.layout.encode g ++
    (name ++ [0] ++ Gufi.sqliteUriPath name ++ [0] ++ slack)
  comp : g.comp.yes = 0
  workComp : g.work.compressed.yes = 0
  nameLen : g.work.nameLen = UInt64.ofNat name.length
  sqlite3NameLen : g.sqlite3NameLen = UInt64.ofNat (Gufi.sqliteUriPath name).length
  sqlite3Name : g.sqlite3Name =
    m.addr + UInt64.ofNat (Gqw.layout.size + (name.length + 1 + shift))
  notNull : g.sqlite3Name ≠ 0

theorem load_shrink {nameLen j : ℕ} {gqw : Gqw} {names : Bytes}
    (hm : m.bytes = Gqw.layout.encode gqw ++ names) :
    ∃ g, (shrink realloc nameLen gqw m (Gqw.layout.size + j)).load Gqw.layout = some g ∧
      g.work.statuso = gqw.work.statuso := by
  obtain ⟨-, -, rest, hbytes⟩ | ⟨heap', -, -, -, rest, hbytes⟩ :=
    @shrink_cases realloc m nameLen j gqw names hm
  · exact ⟨_, load_of_bytes hbytes, rfl⟩
  · exact ⟨_, load_of_bytes hbytes, rfl⟩

theorem GqwArgs.mode_eq (a : GqwArgs) {w : Work} (hcalled : w.statCalled = 0)
    (hmode : w.statuso.mode = 0) :
    (if a.nextLevel < 2 then
        a.stat.map fun st => { w with statuso := st, statCalled := NOT_STATX_CALLED }
      else trySkipLstat a.entry a.lstat w).map (fun work => work.statuso.mode) = a.mode := by
  rw [GqwArgs.mode]
  split_ifs
  · rw [Option.map_map]
    rfl
  · cases htype : a.entry.type with
    | unknown =>
        rw [trySkipLstat, htype]
        dsimp only
        rw [lstatWrapper, if_neg (not_not.mpr hcalled), Option.map_map]
        rfl
    | dir | lnk | reg =>
        rw [trySkipLstat, htype]
        rfl
    | fifo | sock | chr | blk =>
        rw [trySkipLstat, htype]
        exact congrArg some hmode

/-- The stat that is loaded is the one of the work item. -/
theorem load_newGqwWithName_statuso (h : a.Called) (hm : newGqwWithName heap realloc a = some m) :
    ∃ work g, (if a.nextLevel < 2 then
        a.stat.map fun st => { zeroWork with
          name := (heap.block (Gqw.layout.size + (a.nameLen + 1 + a.sqlite3NameLen + 1))).addr +
            UInt64.ofNat Gqw.layout.size
          nameLen := UInt64.ofNat a.name.length
          statuso := st
          statCalled := NOT_STATX_CALLED }
      else trySkipLstat a.entry a.lstat { zeroWork with
        name := (heap.block (Gqw.layout.size + (a.nameLen + 1 + a.sqlite3NameLen + 1))).addr +
          UInt64.ofNat Gqw.layout.size
        nameLen := UInt64.ofNat a.name.length }) = some work ∧
      m.load Gqw.layout = some g ∧ g.work.statuso = work.statuso := by
  rw [newGqwWithName, a.names_eq h] at hm
  dsimp only at hm
  obtain ⟨work, hwork, hm⟩ := Option.map_eq_some_iff.mp hm
  rw [Nat.add_assoc Gqw.layout.size, Nat.add_assoc Gqw.layout.size,
    Nat.add_assoc Gqw.layout.size] at hm
  have hload : ∃ g, m.load Gqw.layout = some g ∧ g.work.statuso = work.statuso := by
    rw [← hm]
    exact load_shrink rfl
  obtain ⟨g, hg, hstatuso⟩ := hload
  exact ⟨work, g, hwork, hg, hstatuso⟩

/-- The type of the entry is that of the work item. -/
theorem load_newGqwWithName (h : a.Called) (hm : newGqwWithName heap realloc a = some m) :
    ∃ g, m.load Gqw.layout = some g ∧ IsDir g.work := by
  obtain ⟨mode, hmode, hdir⟩ := h.isDir
  obtain ⟨work, g, hwork, hload, hstatuso⟩ := load_newGqwWithName_statuso h hm
  refine ⟨g, hload, ?_⟩
  have hwork' := @GqwArgs.mode_eq a { zeroWork with
    name := (heap.block (Gqw.layout.size + (a.nameLen + 1 + a.sqlite3NameLen + 1))).addr +
      UInt64.ofNat Gqw.layout.size
    nameLen := UInt64.ofNat a.name.length } rfl rfl
  rw [hwork, Option.map_some, hmode, Option.some_inj] at hwork'
  rw [IsDir, hstatuso, hwork']
  exact hdir

theorem exists_newGqwWithName (h : a.Called) (heap : Malloc) (realloc : Option Malloc) :
    ∃ m, newGqwWithName heap realloc a = some m := by
  obtain ⟨mode, hmode, -⟩ := h.isDir
  have hwork := @GqwArgs.mode_eq a { zeroWork with
    name := (heap.block (Gqw.layout.size + (a.nameLen + 1 + a.sqlite3NameLen + 1))).addr +
      UInt64.ofNat Gqw.layout.size
    nameLen := UInt64.ofNat a.name.length } rfl rfl
  rw [hmode] at hwork
  obtain ⟨work, hwork, -⟩ := Option.map_eq_some_iff.mp hwork
  rw [newGqwWithName, a.names_eq h]
  dsimp only
  rw [hwork]
  exact ⟨_, rfl⟩

/-- The pointer to the second name is one too far if the block has moved. -/
theorem isGqw_newGqwWithName (h : a.Called) (hplaced : Placed heap)
    (hplaced' : ∀ heap', realloc = some heap' → Placed heap')
    (hm : newGqwWithName heap realloc a = some m) {g : Gqw} (hg : m.load Gqw.layout = some g)
    (hdir : IsDir g.work) :
    Moves heap realloc a ∧ IsGqw m g a.name 1 ∨ ¬Moves heap realloc a ∧ IsGqw m g a.name 0 := by
  obtain ⟨k, hsqlite3Name⟩ := a.sqlite3Name_eq h
  obtain ⟨work', g', hwork', hg', hstatuso⟩ := load_newGqwWithName_statuso h hm
  rw [newGqwWithName, a.names_eq h] at hm
  dsimp only at hm
  obtain ⟨work, hwork, hm⟩ := Option.map_eq_some_iff.mp hm
  have hkeeps : work.compressed = zeroWork.compressed ∧
      work.nameLen = UInt64.ofNat a.name.length := by
    split_ifs at hwork
    · obtain ⟨st, -, rfl⟩ := Option.map_eq_some_iff.mp hwork
      exact ⟨rfl, rfl⟩
    · exact (trySkipLstat_keeps hwork).2
  have hsize : Gqw.layout.size + a.name.length + 1 + (Gufi.sqliteUriPath a.name).length + 1 =
      Gqw.layout.size + a.namesSize := by
    rw [GqwArgs.namesSize]
    omega
  have hisDir : IsDir work := by
    obtain rfl := Option.some_inj.mp (hg'.symm.trans hg)
    obtain rfl := Option.some_inj.mp (hwork'.symm.trans hwork)
    rwa [IsDir, hstatuso] at hdir
  rw [if_pos hisDir, if_pos hisDir, hsqlite3Name] at hm
  dsimp only at hm
  obtain ⟨block, hblock⟩ : ∃ block, block =
    heap.block (Gqw.layout.size + (a.nameLen + 1 + a.sqlite3NameLen + 1)) := ⟨_, rfl⟩
  obtain ⟨gqw, hgqw⟩ : ∃ gqw : Gqw, gqw = ⟨⟨0, 0, 0⟩, work, 0,
    block.addr + UInt64.ofNat Gqw.layout.size + UInt64.ofNat (a.nameLen + 1),
    UInt64.ofNat (Gufi.sqliteUriPath a.name).length⟩ := ⟨_, rfl⟩
  rw [hsize, ← hblock, ← hgqw] at hm
  have htake : (a.name ++ [0] ++ Gufi.sqliteUriPath a.name ++ List.replicate (k + 1) 0).take
      a.namesSize = a.name ++ [0] ++ Gufi.sqliteUriPath a.name ++ [0] := by
    rw [List.replicate_succ, List.append_cons, List.take_left']
    rw [GqwArgs.namesSize, List.length_append, List.length_append, List.length_append,
      List.length_singleton]
  have hroom : Gqw.layout.size + a.namesSize ≤
      Gqw.layout.size + (a.nameLen + 1 + a.sqlite3NameLen + 1) := by
    have hle := h.length_uri_le
    rw [GqwArgs.namesSize, a.length_name]
    omega
  have hpointer : gqw.sqlite3Name =
      block.addr + UInt64.ofNat (Gqw.layout.size + (a.name.length + 1 + 0)) := by
    rw [hgqw, ← a.length_name, UInt64.add_assoc, ← UInt64.ofNat_add]
  have hnotNull : gqw.sqlite3Name ≠ 0 := by
    rw [hpointer, hblock]
    exact hplaced.pointer_ne_zero h.size_le (by rw [GqwArgs.namesSize] at hroom; omega)
  obtain ⟨haddr, hstays, rest, hbytes⟩ | ⟨heap', hheap', hmoves, haddr, rest, hbytes⟩ :=
    @shrink_cases realloc
      ⟨block.addr, Gqw.layout.encode gqw ++ _, block.behind⟩ a.nameLen a.namesSize gqw _ rfl
  · rw [hm, htake] at hbytes
    rw [hm] at haddr
    obtain rfl := Option.some_inj.mp ((load_of_bytes hbytes).symm.trans hg)
    refine .inr ⟨fun ⟨heap', hheap', hmoves⟩ => hmoves ((hstays heap' hheap').trans ?_),
      ⟨rest, ?_⟩, ?_, ?_, ?_, ?_, ?_, hnotNull⟩
    · show block.addr = _
      rw [hblock]
    · rw [hbytes, List.append_assoc]
    · rw [hgqw]
    · rw [hgqw]
      exact congrArg Compressed.yes hkeeps.1
    · rw [hgqw]
      exact hkeeps.2
    · rw [hgqw]
    · rw [hpointer, haddr]
  · rw [hm, htake] at hbytes
    rw [hm] at haddr
    obtain rfl := Option.some_inj.mp ((load_of_bytes hbytes).symm.trans hg)
    have hpointer' : (relocate a.nameLen gqw
        (heap'.block (Gqw.layout.size + a.namesSize)).addr).sqlite3Name =
        (heap'.block (Gqw.layout.size + a.namesSize)).addr +
          UInt64.ofNat (Gqw.layout.size + (a.name.length + 1 + 1)) := by
      rw [relocate]
      dsimp only
      rw [if_pos hnotNull, ← a.length_name, UInt64.add_assoc, ← UInt64.ofNat_add]
    refine .inl ⟨⟨heap', hheap', ?_⟩, ⟨rest, ?_⟩, ?_, ?_, ?_, ?_, ?_, ?_⟩
    · rw [← hblock]
      exact hmoves
    · rw [hbytes, List.append_assoc]
    · rw [hgqw]
      rfl
    · rw [hgqw]
      exact congrArg Compressed.yes hkeeps.1
    · rw [hgqw]
      exact hkeeps.2
    · rw [hgqw]
      rfl
    · rw [hpointer', haddr]
    · rw [hpointer']
      refine (hplaced' heap' hheap').pointer_ne_zero (hroom.trans h.size_le) ?_
      have hpos : 0 < (Gufi.sqliteUriPath a.name).length := by
        rw [h.length_uri]
        omega
      rw [GqwArgs.namesSize]
      omega

end Gqws

section Names

variable {m : Mem} {g : Gqw} {name : Bytes} {shift : ℕ}

/-- The bytes that the structure points to are the escaped path. -/
def HasUri (m : Mem) (name : Bytes) : Prop :=
  ∃ g, m.load Gqw.layout = some g ∧
    m.read g.sqlite3Name g.sqlite3NameLen.toNat = some (Gufi.sqliteUriPath name)

/-- The size of the block of a directory. -/
def blockSize (name : Bytes) : ℕ :=
  Gqw.layout.size + (name.length + (1 + ((Gufi.sqliteUriPath name).length + 1)))

theorem IsGqw.load (h : IsGqw m g name shift) : m.load Gqw.layout = some g := by
  obtain ⟨slack, hbytes⟩ := h.bytes
  exact load_of_bytes hbytes

theorem IsGqw.hasUri_iff (h : IsGqw m g name shift) (hsmall : blockSize name < 2 ^ 64)
    (hshift : shift ≤ 1) : ∃ rest, HasUri m name ↔
      ((Gufi.sqliteUriPath name ++ 0 :: rest).drop shift).take
        (Gufi.sqliteUriPath name).length = Gufi.sqliteUriPath name := by
  obtain ⟨slack, hbytes⟩ := h.bytes
  rw [blockSize] at hsmall
  have hnameLen : (name ++ [0]).length = name.length + 1 := by
    rw [List.length_append, List.length_singleton]
  have hlen : g.sqlite3NameLen.toNat = (Gufi.sqliteUriPath name).length := by
    rw [h.sqlite3NameLen, UInt64.toNat_ofNat_of_lt' (by omega : _ < 2 ^ 64)]
  have hsplit : m.bytes ++ m.behind = Gqw.layout.encode g ++ ((name ++ [0]) ++
      (Gufi.sqliteUriPath name ++ 0 :: (slack ++ m.behind))) := by
    rw [hbytes]
    simp only [List.append_assoc, List.cons_append, List.nil_append]
  have htail : m.tail g.sqlite3Name =
      (Gufi.sqliteUriPath name ++ 0 :: (slack ++ m.behind)).drop shift := by
    rw [h.sqlite3Name, Mem.tail_add _ (by omega), ← List.drop_drop, ← List.drop_drop, hsplit,
      List.drop_left' (Gqw.layout.length_encode g), List.drop_left' hnameLen]
  refine ⟨slack ++ m.behind, ?_⟩
  rw [← htail, ← hlen, ← Mem.read_eq_some_iff hlen.symm]
  constructor
  · rintro ⟨g', hg', hread⟩
    obtain rfl := Option.some_inj.mp (hg'.symm.trans h.load)
    exact hread
  · exact fun hread => ⟨g, h.load, hread⟩

theorem zero_not_mem_sqliteUriPath (h : 0 ∉ name) : 0 ∉ Gufi.sqliteUriPath name := by
  intro hzero
  obtain ⟨c, hc, hconvert⟩ := List.mem_flatMap.mp hzero
  unfold uriConvert at hconvert
  split_ifs at hconvert
  · exact absurd hconvert (by decide)
  · exact absurd hconvert (by decide)
  · exact absurd hconvert (by decide)
  · obtain rfl := List.mem_singleton.mp hconvert
    exact h hc

theorem IsGqw.hasUri (h : IsGqw m g name 0) (hsmall : blockSize name < 2 ^ 64) :
    HasUri m name := by
  obtain ⟨rest, hiff⟩ := h.hasUri_iff hsmall (Nat.zero_le 1)
  refine hiff.mpr ?_
  rw [List.drop_zero, List.take_left' rfl]

/-- From the second byte on the NUL is read too. -/
theorem IsGqw.not_hasUri (h : IsGqw m g name 1) (hsmall : blockSize name < 2 ^ 64)
    (hname : name ≠ []) (hnul : 0 ∉ name) : ¬HasUri m name := by
  obtain ⟨rest, hiff⟩ := h.hasUri_iff hsmall le_rfl
  rw [hiff]
  intro huri
  obtain ⟨c, name, rfl⟩ := List.exists_cons_of_ne_nil hname
  obtain ⟨d, uri, hd⟩ : ∃ d uri, Gufi.sqliteUriPath (c :: name) = d :: uri := by
    refine List.exists_cons_of_ne_nil fun hnil => ?_
    have hpos := (length_uriConvert c).1
    rw [sqliteUriPath_cons, List.append_eq_nil_iff] at hnil
    rw [hnil.1] at hpos
    exact Nat.lt_irrefl _ hpos
  refine zero_not_mem_sqliteUriPath hnul ?_
  rw [hd, List.cons_append, List.drop_succ_cons, List.drop_zero, List.length_cons,
    List.take_length_add_append, List.take_succ_cons, List.take_zero] at huri
  rw [hd, ← huri]
  exact List.mem_append_right _ List.mem_cons_self

/-- The item that is compressed. -/
def IsGqw.item (h : IsGqw m g name shift) (hsmall : blockSize name < 2 ^ 64) : GqwItem where
  gqw := g
  name := name
  nameLen := by
    rw [blockSize] at hsmall
    rw [h.nameLen, UInt64.toNat_ofNat_of_lt' (by omega : _ < 2 ^ 64)]
  sqlite3NameLen := by
    rw [blockSize] at hsmall
    rw [h.sqlite3NameLen, UInt64.toNat_ofNat_of_lt' (by omega : _ < 2 ^ 64)]
    rfl
  sqlite3Name := h.notNull
  plain := h.comp
  workPlain := h.workComp
  small := hsmall

/-- `decompress_gqw` sets the pointer from the length of the name. -/
theorem IsGqw.decompressGqw (h : IsGqw m g name shift) (hsmall : blockSize name < 2 ^ 64)
    {zlib : Zlib} (hz : zlib.Documented) {comp : Bool}
    (hfits : comp = true → blockSize name < 2 ^ 16) (malloc realloc heap : Malloc) :
    ∃ m', decompressGqw zlib heap (compressStruct zlib malloc realloc comp m (gqwSize g)) =
      some m' ∧ HasUri m' name := by
  obtain ⟨slack, hbytes⟩ := h.bytes
  have hitem : m.bytes = (h.item hsmall).bytes ++ slack := by
    rw [hbytes, GqwItem.bytes]
    show _ = Gqw.layout.encode g ++ (name ++ 0 :: (Gufi.sqliteUriPath name ++ [0])) ++ slack
    simp only [List.append_assoc, List.cons_append, List.nil_append]
  have hlength : (h.item hsmall).bytes.length = blockSize name := (h.item hsmall).length_bytes
  have hgqwSize : gqwSize g = (h.item hsmall).bytes.length := by
    have hnameLen : g.work.nameLen.toNat = name.length := (h.item hsmall).nameLen
    have hsqlite3NameLen : g.sqlite3NameLen.toNat = (Gufi.sqliteUriPath name).length :=
      (h.item hsmall).sqlite3NameLen
    rw [hlength, gqwSize, blockSize, hnameLen, hsqlite3NameLen]
    omega
  have hin : ∃ m', Swap.decompressGqw zlib heap
      (compressStruct zlib malloc realloc comp m (h.item hsmall).bytes.length) = some m' ∧
        (h.item hsmall).IsIn m' := by
    obtain hplain | ⟨hstream, hout⟩ := compressStruct_of_append malloc realloc hitem
    · rw [hplain]
      refine @GqwItem.isIn_of_slack zlib (h.item hsmall) m m slack ?_ ?_ heap
        (decompressStruct_of_plain heap (Gqw.load_comp g hbytes) h.comp)
      · rw [hbytes, List.length_append, Gqw.layout.length_encode]
        exact Nat.le_add_right _ _
      · rw [hitem, List.drop_append_of_le_length (h.item hsmall).offset_le]
    · obtain ⟨out, hout⟩ := Option.isSome_iff_exists.mp hout
      obtain ⟨hcomp, hcompress, hlt⟩ := @shrunk_eq_some zlib comp
        { m with bytes := (h.item hsmall).bytes } out hout
      obtain ⟨rest, -, hq⟩ := @compressStruct_of_some zlib comp
        { m with bytes := (h.item hsmall).bytes } out malloc realloc hout
      have hpayload : COMP_OFFSET + ((h.item hsmall).bytes.drop COMP_OFFSET).length =
          (h.item hsmall).bytes.length := by
        rw [List.length_drop]
        exact Nat.add_sub_cancel' (h.item hsmall).offset_le
      dsimp only at hcompress hlt hq
      rw [← hpayload] at hq
      have hsmaller : out.length + COMP_OFFSET < 2 ^ 64 := hlt.trans (hlength.trans_lt hsmall)
      obtain ⟨m', hm', hmlen, hmdrop⟩ := (decompressStruct_stream hz heap _ hcompress hsmaller hq).1
        (by rw [hpayload, hlength]; exact hfits hcomp)
      rw [hstream]
      rw [hpayload] at hm'
      exact GqwItem.isIn_of_whole (hmlen.trans hpayload) hmdrop heap hm'
  obtain ⟨m', hm', g', hload, -, -, hread⟩ := hin
  rw [hgqwSize]
  exact ⟨m', hm', g', hload, hread⟩

end Names

section Main

variable (heap : Malloc) (realloc : Option Malloc) (a : GqwArgs)

/-- What `sqlite_uri_path` writes is decoded to the path. -/
def PathFaithful (path : Bytes) : Prop :=
  ∀ size, (Gufi.sqliteUriPath path).length ≤ size →
    (convertPath size path).2 = path.length ∧
    sqliteUriDecode (convertPath size path).1 = path ∧
    35 ∉ (convertPath size path).1 ∧ 63 ∉ (convertPath size path).1

/-- What a walk keeps of a directory is its escaped path. -/
def ChildFaithful (root : Bytes) (names : List Bytes) : Prop :=
  (Gufi.sqliteUriPath (pathOf root names)).length < 2 ^ 32 →
    (uriOf heap (fun dirname basename => newAltPathname heap dirname (some basename)) root
      names).Holds (Gufi.sqliteUriPath (pathOf root names)) ∧
    (uriOf heap (lsDirsUri heap) root names).Holds (Gufi.sqliteUriPath (pathOf root names))

/-- A new item has the escaped path, and also when it has been taken out of the queue. The length of
an item that is compressed has 16 bits. -/
def GqwFaithful : Prop :=
  ∃ m g, newGqwWithName heap realloc a = some m ∧ m.load Gqw.layout = some g ∧
    HasUri m a.name ∧
    ∀ zlib : Zlib, zlib.Documented → ∀ comp, (comp = true → blockSize a.name < 2 ^ 16) →
      ∀ malloc realloc' heap', ∃ m', decompressGqw zlib heap'
        (compressStruct zlib malloc realloc' comp m (gqwSize g)) = some m' ∧ HasUri m' a.name

theorem pathFaithful (path : Bytes) : PathFaithful path := by
  intro size hsize
  obtain ⟨h35, h63⟩ := not_mem_sqliteUriPath path
  refine ⟨convertPath_snd hsize, ?_⟩
  rw [convertPath_fst, List.take_of_length_le hsize]
  refine ⟨?_, h35, h63⟩
  have hdecode := sqliteUriDecode_sqliteUriPath path []
  rwa [List.append_nil, sqliteUriDecode, List.append_nil] at hdecode

theorem childFaithful (root : Bytes) (names : List Bytes) : ChildFaithful heap root names :=
  fun hfits => ⟨holds_uriOf (fun basename hdir => holds_appendName hdir basename) hfits,
    holds_uriOf (fun basename hdir => holds_lsDirsUri hdir basename) hfits⟩

variable {heap realloc a}

theorem GqwArgs.Called.blockSize_lt (h : a.Called) : blockSize a.name < 2 ^ 64 := by
  have hsize := h.size_le
  have huri := h.length_uri_le
  have hname := a.length_name
  rw [blockSize]
  omega

theorem gqwFaithful_iff (h : a.Called) (hplaced : Placed heap)
    (hplaced' : ∀ heap', realloc = some heap' → Placed heap') :
    GqwFaithful heap realloc a ↔ ¬Moves heap realloc a := by
  have hname : a.name ≠ [] := List.append_ne_nil_of_right_ne_nil _ (List.cons_ne_nil _ _)
  obtain ⟨m, hm⟩ := exists_newGqwWithName h heap realloc
  obtain ⟨g, hg, hdir⟩ := load_newGqwWithName h hm
  obtain ⟨hmoves, hgqw⟩ | ⟨hmoves, hgqw⟩ := isGqw_newGqwWithName h hplaced hplaced' hm hg hdir
  · refine iff_of_false ?_ (not_not.mpr hmoves)
    rintro ⟨m', g', hm', -, huri, -⟩
    obtain rfl := Option.some_inj.mp (hm.symm.trans hm')
    exact hgqw.not_hasUri h.blockSize_lt hname h.noNul huri
  · refine iff_of_true ⟨m, g, hm, hg, hgqw.hasUri h.blockSize_lt, ?_⟩ hmoves
    exact fun zlib hz comp hfits malloc realloc' heap' =>
      hgqw.decompressGqw h.blockSize_lt hz hfits malloc realloc' heap'

/-- Escaped paths are faithful besides that of an item of a query whose block has moved. -/
theorem faithful_iff (h : a.Called) (hplaced : Placed heap)
    (hplaced' : ∀ heap', realloc = some heap' → Placed heap') :
    ((∀ path, PathFaithful path) ∧ (∀ root names, ChildFaithful heap root names) ∧
      GqwFaithful heap realloc a) ↔ ¬Moves heap realloc a := by
  rw [← gqwFaithful_iff h hplaced hplaced']
  exact ⟨fun hall => hall.2.2, fun hgqw => ⟨pathFaithful, childFaithful heap, hgqw⟩⟩

theorem placed_blocksAt {addr : UInt64} (haddr : addr ≠ 0) (hsmall : addr.toNat ≤ 2 ^ 63) :
    Placed (blocksAt addr) :=
  fun _ hn => ⟨haddr, Nat.add_le_add hsmall hn⟩

/-- The directory `#` in `a`. -/
def hashArgs : GqwArgs where
  pre := [97]
  basename := [35]
  entry := ⟨1, .dir, [35]⟩
  nextLevel := 2
  sqlite3Pre := [97]
  stat := none
  lstat := none

theorem hashArgs_called : hashArgs.Called where
  isDir := ⟨S_IFDIR, rfl, rfl⟩
  basename := by decide
  sqlite3Pre := rfl
  noNul := by decide
  fits := by decide
  basenameFits := by decide

theorem faithful_hash : (∀ path, PathFaithful path) ∧
    (∀ root names, ChildFaithful (blocksAt 16) root names) ∧
      GqwFaithful (blocksAt 16) (some (blocksAt 16)) hashArgs :=
  (faithful_iff hashArgs_called (placed_blocksAt (by decide) (by decide)) fun _ hheap' =>
    Option.some_inj.mp hheap' ▸ placed_blocksAt (by decide) (by decide)).mpr
      fun ⟨_, hheap', hmoves⟩ => hmoves (Option.some_inj.mp hheap' ▸ rfl)

/-- The block has moved. -/
theorem not_faithful_hash : ¬((∀ path, PathFaithful path) ∧
    (∀ root names, ChildFaithful (blocksAt 16) root names) ∧
      GqwFaithful (blocksAt 16) (some (blocksAt 1024)) hashArgs) := by
  rintro ⟨-, -, hgqw⟩
  have hiff := @gqwFaithful_iff (blocksAt 16) (some (blocksAt 1024)) hashArgs hashArgs_called
    (placed_blocksAt (by decide) (by decide)) fun _ hheap' =>
      Option.some_inj.mp hheap' ▸ placed_blocksAt (by decide) (by decide)
  exact hiff.mp hgqw ⟨blocksAt 1024, rfl, by decide⟩

end Main

end Gufi.UriPaths
