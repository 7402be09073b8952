import Gufi.TraceRoundTrip
import Gufi.TraceStream

/-!
# Whole traces are read back

A trace of a tree has the line of each directory before the lines of its entries. It is read back
exactly if every line is carried by the format and has no newline of its own: the name of a file
may hold a newline, and the reader takes it for the end of the line.
-/

namespace Gufi.Trace

open TextLines

section Statement

abbrev Item := Work × EntryData

/-- A directory of the tree and what stands in it. -/
structure Listing where
  dir : Item
  entries : List Item

def Listing.items (listing : Listing) : List Item := listing.dir :: listing.entries

/-- Directories, regular files and links, as the callers of `worktofile` have them. -/
structure Listing.IsLegal (prefixLen : ℕ) (listing : Listing) : Prop where
  items : ∀ item ∈ listing.items, IsEntry prefixLen item.1 item.2
  dir : listing.dir.2.type = 100
  entries : ∀ entry ∈ listing.entries, entry.2.type = 102 ∨ entry.2.type = 108

variable (delim : UInt8) (prefixLen : ℕ)

def itemColumns (item : Item) : Bytes := columns delim prefixLen item.1 item.2

/-- The trace of a tree. -/
def traceOf (tree : List Listing) : Bytes :=
  tree.flatMap fun listing => listing.items.flatMap fun item =>
    worktofile delim prefixLen item.1 item.2

/-- What is read back of an item. -/
def readBack (item : Item) : Item := ({ item.1 with name := item.1.name.drop prefixLen }, item.2)

/-- The stanzas that are processed are those of the tree, and each line is read as its item. The
line of an entry is read in a buffer that is longer than the line, with any bytes behind its NUL. -/
structure ReadsBack (tree : List Listing) : Prop where
  stanzas : seekableStanzas ⟨delim, false⟩ (traceOf delim prefixLen tree) =
    tree.map fun listing => (itemColumns delim prefixLen listing.dir,
      listing.entries.map (itemColumns delim prefixLen))
  dirs : ∀ listing ∈ tree, linetowork delim (itemColumns delim prefixLen listing.dir)
    EntryData.zero = .ok (readBack prefixLen listing.dir)
  entries : ∀ listing ∈ tree, ∀ entry ∈ listing.entries, ∀ stale,
    linetowork delim (itemColumns delim prefixLen entry ++ 0 :: stale) EntryData.zero =
      .ok (readBack prefixLen entry)

end Statement

section Lines

variable {delim : UInt8} {prefixLen : ℕ} {tree : List Listing}

theorem traceOf_eq_joined (tree : List Listing) : traceOf delim prefixLen tree =
    ((tree.flatMap Listing.items).map (itemColumns delim prefixLen)).flatMap (· ++ [10]) := by
  induction tree with
  | nil => rfl
  | cons listing tree ih =>
      rw [List.flatMap_cons, List.map_append, List.flatMap_append, ← ih, traceOf,
        List.flatMap_cons, ← traceOf, List.flatMap_map]
      rfl

/-- Lines that end at their own newline only are the lines of the trace. -/
theorem lines_traceOf
    (h : ∀ item ∈ tree.flatMap Listing.items, 10 ∉ itemColumns delim prefixLen item) :
    (readUpTo 10 (traceOf delim prefixLen tree) (traceOf delim prefixLen tree).length 0).map
      Prod.fst = (tree.flatMap Listing.items).map (itemColumns delim prefixLen) := by
  have hlines : ∀ line ∈ (tree.flatMap Listing.items).map (itemColumns delim prefixLen),
      10 ∉ line := by
    intro line hline
    obtain ⟨item, hitem, rfl⟩ := List.mem_map.mp hline
    exact h item hitem
  have hread := map_fst_readUpTo_joined [] _ hlines
  rw [traceOf_eq_joined]
  simpa using hread

theorem itemColumns_ne_nil (item : Item) : itemColumns delim prefixLen item ≠ [] := by
  intro hnil
  have hlength := congrArg List.length hnil
  simp [itemColumns, columns, prefixed] at hlength

/-- The scouts see the type of an item whose name is short enough. -/
theorem lineKind_itemColumns {item : Item} (h : item.1.name.length - prefixLen < 16 ^ 4) :
    ScoutTraceArgs.lineKind ⟨delim, false⟩ (itemColumns delim prefixLen item) =
      kindOfType item.2.type := by
  have hname : (item.1.name.drop prefixLen).length < 16 ^ 4 := by
    rw [List.length_drop]
    exact h
  have hline : itemColumns delim prefixLen item =
      lengthPrefix (item.1.name.drop prefixLen).length ++ (item.1.name.drop prefixLen ++
        (delim :: item.2.type :: delim :: entryToFile delim item.1 item.2)) := by
    simp [itemColumns, columns, prefixed, field]
  have hlength : ¬(itemColumns delim prefixLen item).length - 4 <
      (item.1.name.drop prefixLen).length := by
    rw [hline]
    simp only [List.length_append, List.length_cons, length_lengthPrefix hname]
    omega
  have hdrop : (itemColumns delim prefixLen item ++ [0]).drop
      (4 + (item.1.name.drop prefixLen).length) =
        delim :: item.2.type :: delim :: (entryToFile delim item.1 item.2 ++ [0]) := by
    rw [hline, ← List.drop_drop, List.append_assoc, drop_lengthPrefix hname, List.append_assoc,
      List.drop_left]
    rfl
  rw [ScoutTraceArgs.lineKind, if_neg (by simp), hline, scanHex_lengthPrefix hname, ← hline]
  simp only [ne_eq, not_true, if_false, if_neg hlength, hdrop]
  rfl

end Lines

section Stanzas

variable {sta : ScoutTraceArgs} {line dir : Bytes} {body entries lines : List Bytes}

/-- The lines of the stanzas, in their order. -/
def joinStanzas (tree : List (Bytes × List Bytes)) : List Bytes :=
  tree.flatMap fun s => s.1 :: s.2

/-- The directory line is one, and the entry lines are lines of entries. -/
def IsStanza (sta : ScoutTraceArgs) (s : Bytes × List Bytes) : Prop :=
  (s.1 ≠ [] ∧ sta.lineKind s.1 = .directory) ∧
    ∀ line ∈ s.2, line ≠ [] ∧ sta.lineKind line = .entry

theorem stanzasBehind_append (hentries : ∀ line ∈ entries, line ≠ [] ∧ sta.lineKind line = .entry) :
    stanzasBehind sta dir body (entries ++ lines) =
      stanzasBehind sta dir (body ++ entries) lines := by
  induction entries generalizing body with
  | nil => simp
  | cons line entries ih =>
      obtain ⟨hne, hkind⟩ := hentries line (List.mem_cons_self ..)
      rw [List.cons_append, stanzasBehind, if_neg hne, hkind]
      simp only
      rw [ih fun l hl => hentries l (List.mem_cons_of_mem line hl), List.append_assoc,
        List.singleton_append]

/-- Stanzas are found as they were joined. -/
theorem stanzas_joinStanzas {tree : List (Bytes × List Bytes)} (h : ∀ s ∈ tree, IsStanza sta s) :
    stanzas sta (joinStanzas tree) = tree := by
  have hbehind (dir : Bytes) (body : List Bytes) :
      stanzasBehind sta dir body (joinStanzas tree) = (dir, body) :: tree := by
    induction tree generalizing dir body with
    | nil => rfl
    | cons s tree ih =>
        obtain ⟨⟨hne, hkind⟩, hentries⟩ := h s (List.mem_cons_self ..)
        have hrest := ih fun s' hs' => h s' (List.mem_cons_of_mem s hs')
        rw [joinStanzas, List.flatMap_cons, List.cons_append, stanzasBehind, if_neg hne, hkind]
        simp only
        rw [stanzasBehind_append hentries, List.nil_append, ← joinStanzas, hrest]
  cases tree with
  | nil => rfl
  | cons s tree =>
      obtain ⟨⟨hne, hkind⟩, -⟩ := h s (List.mem_cons_self ..)
      -- the first directory line is met as one behind any stanza
      have hfirst := hbehind [] []
      rw [joinStanzas, List.flatMap_cons, List.cons_append, stanzasBehind, if_neg hne, hkind]
        at hfirst
      rw [joinStanzas, List.flatMap_cons, List.cons_append, stanzas, if_neg hne, hkind]
      exact (List.cons.inj hfirst).2

theorem subset_of_mem_stanzasBehind {s : Bytes × List Bytes}
    (hs : s ∈ stanzasBehind sta dir body lines) :
    (s.1 = dir ∨ s.1 ∈ lines) ∧ ∀ line ∈ s.2, line ∈ body ∨ line ∈ lines := by
  induction lines generalizing dir body with
  | nil =>
      rw [stanzasBehind, List.mem_singleton] at hs
      rw [hs]
      exact ⟨.inl rfl, fun line hline => .inl hline⟩
  | cons first lines ih =>
      have hmore (hs : s ∈ stanzasBehind sta dir (body ++ [first]) lines) :
          (s.1 = dir ∨ s.1 ∈ first :: lines) ∧
            ∀ line ∈ s.2, line ∈ body ∨ line ∈ first :: lines := by
        obtain ⟨hdir, hbody⟩ := ih hs
        refine ⟨hdir.imp id (List.mem_cons_of_mem first), fun line hline => ?_⟩
        have := hbody line hline
        simp only [List.mem_append, List.mem_singleton] at this
        simp only [List.mem_cons]
        tauto
      rw [stanzasBehind] at hs
      split at hs
      · exact hmore hs
      · split at hs
        · exact absurd hs List.not_mem_nil
        · obtain rfl | hs := List.mem_cons.mp hs
          · exact ⟨.inl rfl, fun line hline => .inl hline⟩
          · obtain ⟨hdir, hbody⟩ := ih hs
            refine ⟨.inr ?_, fun line hline => .inr ?_⟩
            · exact List.mem_cons.mpr hdir
            · exact List.mem_cons_of_mem _ (by simpa using hbody line hline)
        · exact hmore hs

theorem subset_of_mem_stanzas {s : Bytes × List Bytes} (hs : s ∈ stanzas sta lines) :
    ∀ line ∈ s.1 :: s.2, line ∈ lines := by
  cases lines with
  | nil => exact absurd hs List.not_mem_nil
  | cons first lines =>
      rw [stanzas] at hs
      split at hs
      · exact absurd hs List.not_mem_nil
      · split at hs
        · obtain ⟨hdir, hbody⟩ := subset_of_mem_stanzasBehind hs
          intro line hline
          obtain rfl | hline := List.mem_cons.mp hline
          · exact List.mem_cons.mpr hdir
          · exact List.mem_cons_of_mem first (by simpa using hbody line hline)
        · exact absurd hs List.not_mem_nil

/-- No line that is processed has a newline. -/
theorem newline_notMem_seekableStanzas {file : Bytes} {s : Bytes × List Bytes}
    (hs : s ∈ seekableStanzas sta file) : ∀ line ∈ s.1 :: s.2, 10 ∉ line := by
  rw [seekableStanzas_eq, List.mem_map] at hs
  obtain ⟨raw, hraw, rfl⟩ := hs
  intro line hline
  have hmem : line ∈ raw.1 :: raw.2 := by
    obtain rfl | hline := List.mem_cons.mp hline
    · exact List.mem_cons_self ..
    · exact List.mem_cons_of_mem _ ((List.takeWhile_sublist _).subset hline)
  obtain ⟨r, hr, rfl⟩ := List.mem_map.mp (subset_of_mem_stanzas hraw line hmem)
  exact not_mem_of_mem_readUpTo hr

end Stanzas

section Framing

variable {delim : UInt8} {prefixLen : ℕ} {tree : List Listing}

/-- What a trace can carry: the lines that the format carries, and that have no newline. -/
def CarriesItem (delim : UInt8) (prefixLen : ℕ) (item : Item) : Prop :=
  Carried delim prefixLen item.1 item.2 ∧ 10 ∉ itemColumns delim prefixLen item

theorem ReadsBack.carriesItem (hdelim : FieldDelim delim)
    (hlegal : ∀ listing ∈ tree, listing.IsLegal prefixLen) (h : ReadsBack delim prefixLen tree)
    {listing : Listing} (hlisting : listing ∈ tree) {item : Item} (hitem : item ∈ listing.items) :
    CarriesItem delim prefixLen item := by
  obtain ⟨hitems, hdir, hentries⟩ := hlegal listing hlisting
  have hstanza : (itemColumns delim prefixLen listing.dir,
      listing.entries.map (itemColumns delim prefixLen)) ∈
        seekableStanzas ⟨delim, false⟩ (traceOf delim prefixLen tree) := by
    rw [h.stanzas]
    exact List.mem_map_of_mem hlisting
  refine ⟨?_, newline_notMem_seekableStanzas hstanza _
    (List.mem_map_of_mem (f := itemColumns delim prefixLen) hitem)⟩
  obtain rfl | hentry := List.mem_cons.mp hitem
  · have hread := h.dirs listing hlisting
    rw [← List.append_nil (itemColumns delim prefixLen listing.dir)] at hread
    exact carried_of_linetowork hdelim (hitems _ hitem) (by rw [hdir]; decide) hread
  · have hread := h.entries listing hlisting item hentry []
    have hexternal : item.2.type ≠ 101 := by
      obtain htype | htype := hentries item hentry <;> rw [htype] <;> decide
    exact carried_of_linetowork hdelim (hitems _ hitem) hexternal hread

theorem readsBack_of_carriesItem (hdelim : FieldDelim delim)
    (hlegal : ∀ listing ∈ tree, listing.IsLegal prefixLen)
    (h : ∀ listing ∈ tree, ∀ item ∈ listing.items, CarriesItem delim prefixLen item) :
    ReadsBack delim prefixLen tree where
  stanzas := by
    have hjoined : (tree.flatMap Listing.items).map (itemColumns delim prefixLen) =
        joinStanzas (tree.map fun listing => (itemColumns delim prefixLen listing.dir,
          listing.entries.map (itemColumns delim prefixLen))) := by
      rw [joinStanzas, List.flatMap_map, List.map_flatMap]
      rfl
    have hstanza : ∀ s ∈ tree.map fun listing => (itemColumns delim prefixLen listing.dir,
        listing.entries.map (itemColumns delim prefixLen)), IsStanza ⟨delim, false⟩ s := by
      intro s hs
      obtain ⟨listing, hlisting, rfl⟩ := List.mem_map.mp hs
      obtain ⟨-, hdir, hentries⟩ := hlegal listing hlisting
      have hkind {item : Item} (hitem : item ∈ listing.items) :
          itemColumns delim prefixLen item ≠ [] ∧
            ScoutTraceArgs.lineKind ⟨delim, false⟩ (itemColumns delim prefixLen item) =
              kindOfType item.2.type :=
        ⟨itemColumns_ne_nil item, lineKind_itemColumns (h listing hlisting item hitem).1.nameLen⟩
      refine ⟨?_, fun line hline => ?_⟩
      · obtain ⟨hne, hkind⟩ := hkind (List.mem_cons_self ..)
        exact ⟨hne, by rw [hkind, hdir]; rfl⟩
      · obtain ⟨entry, hentry, rfl⟩ := List.mem_map.mp hline
        obtain ⟨hne, hkind⟩ := hkind (List.mem_cons_of_mem _ hentry)
        refine ⟨hne, ?_⟩
        obtain htype | htype := hentries entry hentry <;> rw [hkind, htype] <;> rfl
    rw [seekableStanzas_eq, lines_traceOf, hjoined, stanzas_joinStanzas hstanza]
    · rw [List.map_congr_left, List.map_id]
      intro s hs
      have hfull : s.2.takeWhile notBlank = s.2 := by
        rw [List.takeWhile_eq_self_iff]
        intro line hline
        have hne := ((hstanza s hs).2 line hline).1
        simpa [notBlank] using hne
      rw [hfull]
      rfl
    · intro item hitem
      obtain ⟨listing, hlisting, hmem⟩ := List.mem_flatMap.mp hitem
      exact (h listing hlisting item hmem).2
  dirs := by
    intro listing hlisting
    have hmem : listing.dir ∈ listing.items := List.mem_cons_self ..
    have hread := (h listing hlisting _ hmem).1.linetowork_append hdelim
      ((hlegal listing hlisting).items _ hmem) [] EntryData.zero
    rw [List.append_nil] at hread
    exact hread
  entries := by
    intro listing hlisting entry hentry stale
    have hmem : entry ∈ listing.items := List.mem_cons_of_mem _ hentry
    exact (h listing hlisting entry hmem).1.linetowork_append hdelim
      ((hlegal listing hlisting).items entry hmem) (0 :: stale) EntryData.zero

/-- A trace is read back as the tree it was written from exactly if every line is carried by the
format and has no newline but its last byte. -/
theorem readsBack_iff (hdelim : FieldDelim delim)
    (hlegal : ∀ listing ∈ tree, listing.IsLegal prefixLen) :
    ReadsBack delim prefixLen tree ↔
      ∀ listing ∈ tree, ∀ item ∈ listing.items, CarriesItem delim prefixLen item :=
  ⟨fun h _ hlisting _ hitem => h.carriesItem hdelim hlegal hlisting hitem,
    readsBack_of_carriesItem hdelim hlegal⟩

/-- The directory `/d` with the regular file of the given name. -/
def listingWith (name : Bytes) : Listing where
  dir := (⟨[47, 100], 1, ⟨2, 0o040755, 2, 1001, 1001, 0, 4096, 0, 0, 0, 0⟩, 0, 1⟩,
    { EntryData.zero with type := 100 })
  entries := [(⟨[47, 100, 47] ++ name, name.length,
    ⟨7, 0o100644, 1, 1001, 1001, 3, 4096, 8, -1, 0, 5⟩, 5, 2⟩,
    { EntryData.zero with type := 102 })]

theorem isLegal_listingWith {name : Bytes} (hnul : 0 ∉ name) (hslash : 47 ∉ name) :
    ∀ listing ∈ [listingWith name], listing.IsLegal 0 := by
  have hempty {size : ℕ} (hsize : 0 < size) : IsText size [] := ⟨List.not_mem_nil, hsize⟩
  have hbasename : name.length = basenameLen ([47, 100, 47] ++ name) := by
    have hall : ∀ c ∈ name.reverse, decide (c ≠ 47) = true := by
      intro c hc
      have hne : c ≠ 47 := fun h => hslash (h ▸ List.mem_reverse.mp hc)
      simpa using hne
    rw [basenameLen, List.reverse_append, List.takeWhile_append_of_pos hall]
    simp
  intro listing hlisting
  obtain rfl := List.mem_singleton.mp hlisting
  refine ⟨?_, rfl, ?_⟩
  · intro item hitem
    obtain rfl | hentry := List.mem_cons.mp hitem
    · exact ⟨by simp [listingWith], Nat.zero_le _, by rfl, hempty (by decide), hempty (by decide),
        hempty (by decide)⟩
    · obtain rfl := List.mem_singleton.mp hentry
      refine ⟨?_, Nat.zero_le _, hbasename, hempty (by decide), hempty (by decide),
        hempty (by decide)⟩
      simpa [listingWith] using hnul
  · intro entry hentry
    obtain rfl := List.mem_singleton.mp hentry
    exact .inl rfl

/-- The delimiter in a name does no harm. -/
theorem readsBack_listingWith_delim : ReadsBack fielddelim 0 [listingWith [97, fielddelim, 98]] :=
  (readsBack_iff (by decide) (isLegal_listingWith (by decide) (by decide))).mpr (by
    intro listing hlisting item hitem
    obtain rfl := List.mem_singleton.mp hlisting
    obtain rfl | hentry := List.mem_cons.mp hitem
    · exact ⟨⟨by decide, by decide, by decide, by decide, nofun⟩, by decide +kernel⟩
    · obtain rfl := List.mem_singleton.mp hentry
      exact ⟨⟨by decide, by decide, by decide, by decide, nofun⟩, by decide +kernel⟩)

/-- The rest of a name behind a newline is a line without a length, and nothing is processed. -/
theorem listingWith_newline_not_readsBack :
    (∀ listing ∈ [listingWith [97, 10, 98]], listing.IsLegal 0) ∧
      ¬ReadsBack fielddelim 0 [listingWith [97, 10, 98]] := by
  refine ⟨isLegal_listingWith (by decide) (by decide), fun h => ?_⟩
  have hnone : seekableStanzas ⟨fielddelim, false⟩
      (traceOf fielddelim 0 [listingWith [97, 10, 98]]) = [] := by decide +kernel
  exact absurd (hnone.symm.trans h.stanzas) (List.cons_ne_nil _ _).symm

end Framing

end Gufi.Trace
