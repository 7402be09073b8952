import Mathlib.Data.Finset.Insert

/-!
# Unix permission classes

A user is checked against a file by exactly one of three classes: owner when the uid matches,
otherwise group when the gid is among the user's groups, otherwise other. The class selects
three bits of the mode word.

A statement about all users and two files is therefore a statement about the pairs of classes
that one user can hold at once. `Compatible` lists those pairs from the two ownerships alone, and
`forall_user_iff` exchanges the quantifier over users for one over compatible pairs.
-/

namespace UnixAccess

/-- Mode word and ownership of a file or directory. -/
structure Permissions where
  mode : ℕ
  uid : ℕ
  gid : ℕ
deriving DecidableEq, Repr

/-- A user with the set of groups it belongs to. -/
structure User where
  uid : ℕ
  gids : Finset ℕ

inductive AccessClass
  | owner
  | group
  | other
deriving DecidableEq, Repr

/-- Position of the class's three bits in the mode word. -/
def AccessClass.shift : AccessClass → ℕ
  | .owner => 6
  | .group => 3
  | .other => 0

def r : ℕ := 4

def w : ℕ := 2

def rx : ℕ := 5

theorem AccessClass.forall_iff {P : AccessClass → Prop} :
    (∀ c, P c) ↔ P .owner ∧ P .group ∧ P .other := by
  constructor
  · intro h
    exact ⟨h .owner, h .group, h .other⟩
  · rintro ⟨ho, hg, ht⟩ c
    cases c
    · exact ho
    · exact hg
    · exact ht

section Masks

/-- A mode contains a mask when it has every bit of it. -/
theorem land_eq_iff {m a : ℕ} : m &&& a = a ↔ ∀ i, a.testBit i = true → m.testBit i = true := by
  constructor
  · intro h i hi
    have hbit := congrArg (fun n => n.testBit i) h
    simpa [hi] using hbit
  · intro h
    apply Nat.eq_of_testBit_eq
    intro i
    cases ha : a.testBit i with
    | false => simp [ha]
    | true => simp [ha, h i ha]

theorem land_lor_eq_iff {m a b : ℕ} :
    m &&& (a ||| b) = a ||| b ↔ m &&& a = a ∧ m &&& b = b := by
  simp only [land_eq_iff, Nat.testBit_or, Bool.or_eq_true]
  constructor
  · intro h
    exact ⟨fun i hi => h i (Or.inl hi), fun i hi => h i (Or.inr hi)⟩
  · rintro ⟨ha, hb⟩ i (hi | hi)
    · exact ha i hi
    · exact hb i hi

end Masks

namespace Permissions

/-- The class's bits contain every wanted bit. -/
def Grants (p : Permissions) (c : AccessClass) (want : ℕ) : Prop :=
  p.mode &&& (want <<< c.shift) = want <<< c.shift

instance (p : Permissions) (c : AccessClass) (want : ℕ) : Decidable (p.Grants c want) :=
  inferInstanceAs (Decidable (_ = _))

end Permissions

namespace User

/-- The single class by which the user is checked. -/
def classOf (u : User) (p : Permissions) : AccessClass :=
  if u.uid = p.uid then .owner else if p.gid ∈ u.gids then .group else .other

def Can (u : User) (want : ℕ) (p : Permissions) : Prop :=
  p.Grants (u.classOf p) want

instance (u : User) (want : ℕ) (p : Permissions) : Decidable (u.Can want p) :=
  inferInstanceAs (Decidable (p.Grants _ _))

end User

/-- The pairs of classes some user can hold at two files, in terms of their ownerships. -/
def Compatible (p q : Permissions) : AccessClass → AccessClass → Prop
  | .owner, .owner => p.uid = q.uid
  | .owner, _ => p.uid ≠ q.uid
  | _, .owner => p.uid ≠ q.uid
  | .group, .other => p.gid ≠ q.gid
  | .other, .group => p.gid ≠ q.gid
  | _, _ => True

theorem compatible_classOf (u : User) (p q : Permissions) :
    Compatible p q (u.classOf p) (u.classOf q) := by
  unfold User.classOf
  split_ifs with hp hpg hq hqg hq hqg hq hqg <;> simp only [Compatible]
  all_goals first | omega | (intro he; simp_all)

theorem exists_user_of_compatible {p q : Permissions} {a b : AccessClass}
    (h : Compatible p q a b) : ∃ u : User, u.classOf p = a ∧ u.classOf q = b := by
  have hfresh : p.uid + q.uid + 1 ≠ p.uid ∧ p.uid + q.uid + 1 ≠ q.uid := by omega
  cases a with
  | owner =>
    cases b with
    | owner => exact ⟨⟨p.uid, ∅⟩, by simp [User.classOf], by simp_all [User.classOf, Compatible]⟩
    | group =>
      exact ⟨⟨p.uid, {q.gid}⟩, by simp [User.classOf], by simp_all [User.classOf, Compatible]⟩
    | other => exact ⟨⟨p.uid, ∅⟩, by simp [User.classOf], by simp_all [User.classOf, Compatible]⟩
  | group =>
    cases b with
    | owner =>
      exact ⟨⟨q.uid, {p.gid}⟩, by simp_all [User.classOf, Compatible, eq_comm],
        by simp [User.classOf]⟩
    | group =>
      exact ⟨⟨p.uid + q.uid + 1, {p.gid, q.gid}⟩, by simp [User.classOf, hfresh],
        by simp [User.classOf, hfresh]⟩
    | other =>
      exact ⟨⟨p.uid + q.uid + 1, {p.gid}⟩, by simp [User.classOf, hfresh],
        by simp_all [User.classOf, Compatible, eq_comm]⟩
  | other =>
    cases b with
    | owner =>
      exact ⟨⟨q.uid, ∅⟩, by simp_all [User.classOf, Compatible, eq_comm],
        by simp [User.classOf]⟩
    | group =>
      exact ⟨⟨p.uid + q.uid + 1, {q.gid}⟩, by simp_all [User.classOf, Compatible],
        by simp [User.classOf, hfresh]⟩
    | other =>
      exact ⟨⟨p.uid + q.uid + 1, ∅⟩, by simp [User.classOf, hfresh],
        by simp [User.classOf, hfresh]⟩

/-- Quantifying over users amounts to quantifying over the compatible pairs of classes. -/
theorem forall_user_iff (p q : Permissions) (P : AccessClass → AccessClass → Prop) :
    (∀ u : User, P (u.classOf p) (u.classOf q)) ↔ ∀ a b, Compatible p q a b → P a b := by
  constructor
  · intro h a b hab
    obtain ⟨u, rfl, rfl⟩ := exists_user_of_compatible hab
    exact h u
  · intro h u
    exact h _ _ (compatible_classOf u p q)

end UnixAccess
