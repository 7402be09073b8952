import Gufi.OwnContent

/-!
# Who can see what a rollup makes visible

After a rollup everyone who can read and enter the directory sees the rows of everything below it.
`check_pair_permissions` is asked of every directory and its children on the way up, so an accepted
tree is `Rollable`. The uids agree throughout such a tree, but the rules for `ug+rx` and `u+rx` do
not ask that group and others be shut out of the parent, and the rule for `o+rx` asks nothing of
owner and group. `NoWider` is what has to hold of the top and every directory below it.
-/

namespace Gufi

open UnixAccess

namespace DirTree

/-- Every child is rollable and passes `check_pair_permissions` with the directory. -/
inductive Rollable (perms : Bytes → Permissions) : DirTree → Prop
  | node {p : Bytes} {cs : List DirTree} (hcs : ∀ c ∈ cs, Rollable perms c)
      (hp : ∀ c ∈ cs, checkPairPermissions (perms p) (perms c.path) = true) :
      Rollable perms (.node p cs)

variable {perms : Bytes → Permissions} {t : DirTree}

theorem Rollable.uid_eq (h : t.Rollable perms) :
    ∀ s ∈ t.subtrees, (perms t.path).uid = (perms s.path).uid := by
  induction h with
  | node hcs hp ih =>
      intro s hs
      rw [subtrees_eq] at hs
      rcases List.mem_cons.mp hs with rfl | hs
      · rfl
      · obtain ⟨c, hc, hsc⟩ := List.mem_flatMap.mp hs
        exact (uid_eq_of_checkPairPermissions (hp c hc)).trans (ih c hc s hsc)

end DirTree

/-- Read and execute permission for the owner, and for group and others of `p`, carries over to
`d`. With different groups, a member of the group of one directory may be among the others of the
other one. -/
def NoWider (p d : Permissions) : Prop :=
  (p.Grants .owner rx → d.Grants .owner rx) ∧
    if p.gid = d.gid then
      (p.Grants .group rx → d.Grants .group rx) ∧ (p.Grants .other rx → d.Grants .other rx)
    else p.Grants .group rx ∨ p.Grants .other rx → d.Grants .group rx ∧ d.Grants .other rx

theorem forall_user_can_rx_iff {p d : Permissions} (hu : p.uid = d.uid) :
    (∀ u : User, u.Can rx p → u.Can rx d) ↔ NoWider p d := by
  change (∀ u : User, p.Grants (u.classOf p) rx → d.Grants (u.classOf d) rx) ↔ _
  rw [forall_user_iff p d fun a b => p.Grants a rx → d.Grants b rx]
  simp only [AccessClass.forall_iff, Compatible, NoWider, hu, ne_eq, not_true_eq_false]
  by_cases hg : p.gid = d.gid <;> grind

/-- A tree that is accepted for rollup keeps access as it was exactly when no directory below is
narrower than the top. -/
theorem rollup_never_widens_iff (perms : Bytes → Permissions) (t : DirTree)
    (ht : t.Rollable perms) :
    (∀ u : User, u.Can rx (perms t.path) → ∀ s ∈ t.subtrees, u.Can rx (perms s.path)) ↔
      ∀ s ∈ t.subtrees, NoWider (perms t.path) (perms s.path) := by
  constructor
  · intro h s hs
    exact (forall_user_can_rx_iff (ht.uid_eq s hs)).mp (fun u hu => h u hu s hs)
  · intro h u hu s hs
    exact (forall_user_can_rx_iff (ht.uid_eq s hs)).mpr (h s hs) u hu

section Example

/-- A directory `/r` that is `drwxr-xr-x` with a subdirectory `/r/s` that is `drwx------`. -/
def privateSubdir : DirTree :=
  .node [47, 114] [.node [47, 114, 47, 115] []]

def privateSubdirPerms (p : Bytes) : Permissions :=
  if p = [47, 114] then ⟨0o755, 1000, 1000⟩ else ⟨0o700, 1000, 1000⟩

theorem rollable_privateSubdir : privateSubdir.Rollable privateSubdirPerms := by
  refine .node (fun c hc => ?_) (fun c hc => ?_)
  · rw [List.mem_singleton.mp hc]
    exact .node (fun _ h => by cases h) (fun _ h => by cases h)
  · rw [List.mem_singleton.mp hc]
    decide

theorem not_rollup_never_widens :
    ¬∀ (perms : Bytes → Permissions) (t : DirTree), t.Rollable perms → ∀ u : User,
      u.Can rx (perms t.path) → ∀ s ∈ t.subtrees, u.Can rx (perms s.path) := by
  intro h
  have hs := h privateSubdirPerms privateSubdir rollable_privateSubdir ⟨1001, ∅⟩ (by decide)
    (.node [47, 114, 47, 115] []) (List.mem_cons_of_mem _ (List.mem_cons_self ..))
  revert hs
  decide

theorem rollup_never_widens_privateSubdir :
    ¬∀ u : User, u.Can rx (privateSubdirPerms privateSubdir.path) →
      ∀ s ∈ privateSubdir.subtrees, u.Can rx (privateSubdirPerms s.path) := by
  rw [rollup_never_widens_iff privateSubdirPerms privateSubdir rollable_privateSubdir]
  intro h
  have hs := h (.node [47, 114, 47, 115] []) (List.mem_cons_of_mem _ (List.mem_cons_self ..))
  revert hs
  simp only [NoWider]
  decide

end Example

section Accept

theorem length_filterMap_db {children : List Child} (h : ∀ c ∈ children, c.db.isSome = true) :
    (children.filterMap (·.db)).length = children.length := by
  induction children with
  | nil => rfl
  | cons c cs ih =>
      obtain ⟨db, hdb⟩ := Option.isSome_iff_exists.mp (h c (List.mem_cons_self ..))
      rw [List.filterMap_cons_some hdb, List.length_cons, List.length_cons,
        ih (fun x hx => h x (List.mem_cons_of_mem c hx))]

theorem canRollup_of_ne_nil {dst : Db} {children : List Child} (h : children ≠ []) :
    canRollup dst children =
      if children.countP (·.rolledup) ≠ children.length then (0, 0)
      else if children.all (·.db.isSome) then
        let dbs := children.filterMap (·.db)
        let legal := dbs.countP fun db =>
          checkPairPermissions (getPermissions dst) (getRootPermissions db)
        (if legal = children.length then 1 else 0, (dbs.map (·.pentries.length)).sum)
      else (-1, 0) := by
  cases children with
  | nil => exact absurd rfl h
  | cons c cs => rfl

/-- `can_rollup` allows a rollup when all children rolled up and pass the permission check. -/
theorem canRollup_eq_one_iff {dst : Db} {children : List Child} :
    (canRollup dst children).1 = 1 ↔ ∀ c ∈ children, c.rolledup = true ∧
      ∃ db, c.db = some db ∧
        checkPairPermissions (getPermissions dst) (getRootPermissions db) = true := by
  by_cases hne : children = []
  · simp [hne, canRollup]
  · rw [canRollup_of_ne_nil hne]
    by_cases hroll : children.countP (·.rolledup) = children.length
    · by_cases hdb : children.all (·.db.isSome) = true
      · rw [if_neg (not_not.mpr hroll), if_pos hdb]
        have hsome : ∀ c ∈ children, c.db.isSome = true := by simpa using hdb
        have hlen := length_filterMap_db hsome
        rw [List.countP_eq_length] at hroll
        simp only
        rw [← hlen]
        constructor
        · intro hlegal c hc
          have hcount : (children.filterMap (·.db)).countP (fun db =>
              checkPairPermissions (getPermissions dst) (getRootPermissions db)) =
              (children.filterMap (·.db)).length := by
            by_contra hne
            simp [hne] at hlegal
          obtain ⟨db, hcdb⟩ := Option.isSome_iff_exists.mp (hsome c hc)
          refine ⟨hroll c hc, db, hcdb, ?_⟩
          exact List.countP_eq_length.mp hcount db (List.mem_filterMap.mpr ⟨c, hc, hcdb⟩)
        · intro h
          rw [if_pos]
          refine List.countP_eq_length.mpr (fun db hmem => ?_)
          obtain ⟨c, hc, hcdb⟩ := List.mem_filterMap.mp hmem
          obtain ⟨-, db', hdb', hpass⟩ := h c hc
          rw [hcdb] at hdb'
          cases hdb'
          exact hpass
      · rw [if_neg (not_not.mpr hroll), if_neg hdb]
        constructor
        · intro h
          exact absurd h (by decide)
        · intro h
          refine absurd (List.all_eq_true.mpr (fun c hc => ?_)) hdb
          obtain ⟨-, db, hcdb, -⟩ := h c hc
          simp [hcdb]
    · rw [if_pos hroll]
      constructor
      · intro h
        exact absurd h (by decide)
      · intro h
        exact absurd (List.countP_eq_length.mpr (fun c hc => (h c hc).1)) hroll

theorem canRollup_of_shouldRollup_pos {cfg : Config} {level : ℕ} {dst : Db}
    {children : List Child} (h : 0 < shouldRollup cfg level dst children) :
    (canRollup dst children).1 = 1 := by
  have hle : (canRollup dst children).1 = 1 ∨ (canRollup dst children).1 ≤ 0 := by
    unfold canRollup
    split
    · exact Or.inl rfl
    · split_ifs
      · exact Or.inr le_rfl
      · simp only
        split_ifs
        · exact Or.inl rfl
        · exact Or.inr le_rfl
      · exact Or.inr (by decide)
  unfold shouldRollup at h
  split_ifs at h with hmin hlimit
  · exact absurd h (by decide)
  · exact absurd h (by decide)
  · simp only at h
    split_ifs at h with hsum
    · exact absurd h (by decide)
    · omega

end Accept

section Run

variable {ts : TreeSummaryCode} {cfg : Config} {attach : AttachXattr}

theorem canRollup_of_rollupAscend {level : ℕ} {path : Bytes} {own : Dir} {children : List Child}
    (h : (rollupAscend ts cfg attach level path own children).rolledup = true) :
    ∃ db, own.db = some db ∧
      (canRollup { db with treesummary := some [] } children).1 = 1 := by
  unfold rollupAscend at h
  cases hdb : own.db with
  | none => simp [hdb] at h
  | some db =>
      simp only [hdb] at h
      split_ifs at h with hpos hzero
      · exact ⟨db, rfl, canRollup_of_shouldRollup_pos hpos⟩

/-- In any run over an index that has nothing rolled up, a directory is rolled up only when the
permissions in the index make its tree rollable. -/
theorem RunReaches.rollable {F : DirFaults → Prop} {root : DirTree} {ix : Index} {s : RunState}
    (hroot : root.WellFormed) (hix : ∀ t ∈ root.subtrees, (ix t.path).Unrolled)
    (h : RunReaches ts cfg F root ix s) {t : DirTree} (ht : t ∈ root.subtrees)
    (hasc : s.ascended t.path = true) (hroll : s.rolledup t.path = true) :
    t.Rollable fun p => (ix p).permissions := by
  revert t
  induction h with
  | refl =>
      intro t _ hasc _
      cases hasc
  | @tail s s' hrun hstep ih =>
      cases hstep with
      | @ascend l t₀ flt ht₀ hnew hdone hflt =>
          intro t ht hasc hroll
          change Function.update s.ascended t₀.path true t.path = true at hasc
          change Function.update s.rolledup t₀.path _ t.path = true at hroll
          by_cases hp : t.path = t₀.path
          · have hmem := DirTree.mem_subtrees_of_mem_levels ht₀
            rw [hroot.eq_of_path_eq ht hmem hp] at hroll ⊢
            rw [Function.update_self, RunState.ascendResult] at hroll
            split_ifs at hroll with hlevel
            obtain ⟨db, hdb, hcan⟩ := canRollup_of_rollupAscend hroll
            have hown : s.ix t₀.path = ix t₀.path := RunReaches.ix_eq_of_not_ascended hrun hnew
            rw [hown] at hdb
            rw [canRollup_eq_one_iff] at hcan
            have hchild : ∀ c ∈ t₀.subdirs, s.rolledup c.path = true ∧
                checkPairPermissions (ix t₀.path).permissions (ix c.path).permissions = true := by
              intro c hc
              obtain ⟨i, hi⟩ := List.getElem?_of_mem hc
              obtain ⟨hr, cdb, hcdb, hpass⟩ := hcan _ (RunState.mem_children.mpr ⟨i, c, hi, rfl⟩)
              refine ⟨hr, ?_⟩
              change (s.ix c.path).db = some cdb at hcdb
              obtain ⟨db', hdb', hun⟩ := (hix t₀ hmem).db
              rw [hdb] at hdb'
              cases hdb'
              have hperm := Dir.permissions_eq_of_content_eq (RunReaches.content_eq hrun
                (hix c (DirTree.subdir_mem_subtrees hmem hc)).settled)
              rw [← hperm]
              simp only [Dir.permissions, hdb, hcdb, Option.map_some, Option.getD_some,
                ← hun.getPermissions_eq]
              exact hpass
            rw [t₀.eta]
            refine .node (fun c hc => ?_) (fun c hc => (hchild c hc).2)
            exact ih (DirTree.subdir_mem_subtrees hmem hc) (hdone c hc) (hchild c hc).1
          · rw [Function.update_of_ne hp] at hasc hroll
            exact ih ht hasc hroll

end Run

end Gufi
