import Mathlib.Data.List.Basic

/-!
# Texts in stanzas

Some lines are headers, and each header asks for the lines that follow it up to the next one.
-/

namespace Stanzas

variable {Line : Type*} (isHeader : Line → Bool) (body : Line → List Line)

/-- The lines up to the next header. -/
def upToHeader (lines : List Line) : List Line := lines.takeWhile fun l => !isHeader l

/-- Every header is followed by exactly the lines that it asks for. -/
def WellFramed (lines : List Line) : Prop :=
  ∀ before l after, lines = before ++ l :: after → isHeader l → upToHeader isHeader after = body l

/-- Nothing stands before the first header. -/
def HeaderFirst (lines : List Line) : Prop := ∀ l, lines.head? = some l → isHeader l

variable {isHeader body} {a b lines : List Line} {l : Line}

theorem upToHeader_append (ha : ∀ x ∈ a, isHeader x = false) :
    upToHeader isHeader (a ++ b) = a ++ upToHeader isHeader b :=
  List.takeWhile_append_of_pos (by simpa using ha)

theorem HeaderFirst.upToHeader_eq_nil (h : HeaderFirst isHeader lines) :
    upToHeader isHeader lines = [] := by
  cases lines with
  | nil => rfl
  | cons l lines => rw [upToHeader, List.takeWhile_cons_of_neg (by simpa using h l rfl)]

theorem headerFirst_nil : HeaderFirst isHeader [] := by
  intro l hl
  simp at hl

theorem headerFirst_cons (hl : isHeader l) : HeaderFirst isHeader (l :: lines) := by
  intro x hx
  obtain rfl := Option.some.inj hx
  exact hl

theorem HeaderFirst.append (ha : HeaderFirst isHeader a) (hb : HeaderFirst isHeader b) :
    HeaderFirst isHeader (a ++ b) := by
  cases a with
  | nil => exact hb
  | cons l a => exact headerFirst_cons (ha l rfl)

theorem wellFramed_nil : WellFramed isHeader body [] := by
  intro before l after h
  simp at h

theorem wellFramed_cons : WellFramed isHeader body (l :: lines) ↔
    (isHeader l → upToHeader isHeader lines = body l) ∧ WellFramed isHeader body lines := by
  constructor
  · intro h
    exact ⟨h [] l lines rfl, fun before x after hx => h (l :: before) x after (by rw [hx]; rfl)⟩
  · rintro ⟨hfirst, hrest⟩ before x after hx
    cases before with
    | nil =>
        obtain ⟨rfl, rfl⟩ := List.cons.inj hx
        exact hfirst
    | cons y before =>
        exact hrest before x after (List.cons.inj hx).2

theorem wellFramed_append_of_body (ha : ∀ x ∈ a, isHeader x = false) :
    WellFramed isHeader body (a ++ b) ↔ WellFramed isHeader body b := by
  induction a with
  | nil => rfl
  | cons l a ih =>
      obtain ⟨hl, ha⟩ := List.forall_mem_cons.mp ha
      rw [List.cons_append, wellFramed_cons, ih ha, and_iff_right]
      intro hheader
      rw [hl] at hheader
      exact nomatch hheader

/-- Texts are put together at headers. -/
theorem wellFramed_append (hb : HeaderFirst isHeader b) : WellFramed isHeader body (a ++ b) ↔
    WellFramed isHeader body a ∧ WellFramed isHeader body b := by
  induction a with
  | nil => simp [wellFramed_nil]
  | cons l a ih =>
      have hup : upToHeader isHeader (a ++ b) = upToHeader isHeader a := by
        have hnil := hb.upToHeader_eq_nil
        rw [upToHeader] at hnil
        rw [upToHeader, upToHeader, List.takeWhile_append, hnil]
        split_ifs with hall
        · rw [List.append_nil, (List.takeWhile_prefix _).eq_of_length hall]
        · rfl
      rw [List.cons_append, wellFramed_cons, wellFramed_cons, ih, hup, and_assoc]

theorem wellFramed_flatMap {α : Type*} {f : α → List Line} {xs : List α}
    (hf : ∀ x ∈ xs, HeaderFirst isHeader (f x)) :
    WellFramed isHeader body (xs.flatMap f) ↔ ∀ x ∈ xs, WellFramed isHeader body (f x) := by
  have hall : HeaderFirst isHeader (xs.flatMap f) ∧
      (WellFramed isHeader body (xs.flatMap f) ↔ ∀ x ∈ xs, WellFramed isHeader body (f x)) := by
    induction xs with
    | nil => simp [wellFramed_nil, headerFirst_nil]
    | cons x xs ih =>
        obtain ⟨hx, hxs⟩ := List.forall_mem_cons.mp hf
        obtain ⟨hfirst, hiff⟩ := ih hxs
        rw [List.flatMap_cons, wellFramed_append hfirst, hiff, List.forall_mem_cons]
        exact ⟨hx.append hfirst, Iff.rfl⟩
  exact hall.2

theorem wellFramed_stanza (hbody : ∀ x ∈ body l, isHeader x = false) :
    WellFramed isHeader body (l :: body l) := by
  rw [wellFramed_cons, ← List.append_nil (body l), wellFramed_append_of_body hbody,
    upToHeader_append hbody]
  exact ⟨fun _ => rfl, wellFramed_nil⟩

/-- A header after which other lines of the body stand than those up to the next header. -/
theorem wellFramed_open_iff (hl : isHeader l) (ha : ∀ x ∈ a, isHeader x = false)
    (hb : HeaderFirst isHeader b) : WellFramed isHeader body (l :: (a ++ b)) ↔
      a = body l ∧ WellFramed isHeader body b := by
  rw [wellFramed_cons, wellFramed_append_of_body ha, upToHeader_append ha, hb.upToHeader_eq_nil,
    List.append_nil, forall_prop_of_true hl]

/-- A text in stanzas is the headers with what they ask for, behind lines without a header. -/
theorem WellFramed.eq_append_flatMap (h : WellFramed isHeader body lines) : lines =
    upToHeader isHeader lines ++ (lines.filter isHeader).flatMap fun l => l :: body l := by
  induction lines with
  | nil => rfl
  | cons l lines ih =>
      obtain ⟨hbody, hrest⟩ := wellFramed_cons.mp h
      have hlines := ih hrest
      by_cases hl : isHeader l = true
      · have hnone : upToHeader isHeader (l :: lines) = [] :=
          (headerFirst_cons hl).upToHeader_eq_nil
        rw [hnone, List.filter_cons_of_pos hl, List.flatMap_cons, ← hbody hl, List.nil_append,
          List.cons_append, ← hlines]
      · have hup : upToHeader isHeader (l :: lines) = l :: upToHeader isHeader lines :=
          List.takeWhile_cons_of_pos (by simpa using hl)
        rw [hup, List.filter_cons_of_neg hl, List.cons_append, ← hlines]

theorem WellFramed.eq_flatMap (h : WellFramed isHeader body lines)
    (hfirst : HeaderFirst isHeader lines) :
    lines = (lines.filter isHeader).flatMap fun l => l :: body l := by
  have hlines := h.eq_append_flatMap
  rwa [hfirst.upToHeader_eq_nil, List.nil_append] at hlines

end Stanzas
