import Gufi.BottomUpOrder

/-!
# What a finished bottom-up walk has ascended

A directory that does not open calls its parent like one that ascended. A directory in which an
entry cannot be examined, and one whose descend function fails, is dropped: its parent keeps
waiting for it. `Visited` is what a walk gets to, read off the answers of the file system and of
the descend function alone. A finished walk has ascended every directory it descended exactly when
none that is visited below a root is dropped.
-/

namespace Gufi

namespace BottomUpWalk

open BottomUpTask

variable {ua : UserArgs} {level : ℕ} {roots : List DirTree} {s s' : BottomUpWalk}

section Answers

/-- The directory opens, its entries can be examined, and its descend function succeeds. -/
def Succeeds (ua : UserArgs) (b : BottomUp) : Prop :=
  ua.opens b = true ∧ ua.stats b = true ∧ (ua.descendRc b).1 = 0

/-- The directory opens, but an entry cannot be examined or the descend function fails. -/
def Drops (ua : UserArgs) (b : BottomUp) : Prop :=
  ua.opens b = true ∧ ¬(ua.stats b = true ∧ (ua.descendRc b).1 = 0)

/-- The directories that a walk gets to. -/
inductive Visited (ua : UserArgs) (level : ℕ) (roots : List DirTree) : BottomUp → Prop
  | root {t : DirTree} (ht : t ∈ roots) : Visited ua level roots (BottomUp.root level t)
  | subdir {b c : BottomUp} (hb : Visited ua level roots b) (hsucceeds : Succeeds ua b)
      (hdown : ua.GoesDown b) (hc : c ∈ b.subdirs) : Visited ua level roots c

/-- What became of a directory agrees with the answers for it. -/
structure Answered (ua : UserArgs) (s : BottomUpWalk) : Prop where
  descending : ∀ b, .descending b ∈ s.tasks → ua.opens b = true ∧ ua.stats b = true
  descended : ∀ b ∈ s.descended, Succeeds ua b
  unopened : ∀ b ∈ s.unopened, ua.opens b = false
  dropped : ∀ b ∈ s.dropped, Drops ua b

theorem descending_notMem_ascendParent (b x : BottomUp) : .descending x ∉ ascendParent b := by
  unfold ascendParent
  cases b.parent <;> simp

theorem answered_step (h : Answered ua s) (hstep : Step ua s s') : Answered ua s' := by
  have hrest : ∀ {a rest}, s.tasks = a ::ₘ rest → ∀ b, .descending b ∈ rest →
      ua.opens b = true ∧ ua.stats b = true :=
    fun htask b hb => h.descending b (htask ▸ Multiset.mem_cons_of_mem hb)
  cases hstep with
  | openFails b rest htask hopen =>
      refine ⟨fun x hx => ?_, h.descended, ?_, h.dropped⟩
      · rcases Multiset.mem_add.mp hx with hx | hx
        · exact absurd hx (descending_notMem_ascendParent b x)
        · exact hrest htask x hx
      · intro x hx
        rcases Multiset.mem_cons.mp hx with rfl | hx
        · exact hopen
        · exact h.unopened x hx
  | statFails b rest htask hopen hstat =>
      refine ⟨hrest htask, h.descended, h.unopened, ?_⟩
      intro x hx
      rcases Multiset.mem_cons.mp hx with rfl | hx
      · exact ⟨hopen, fun hboth => by simp [hstat] at hboth⟩
      · exact h.dropped x hx
  | descend b rest htask hopen hstat =>
      refine ⟨fun x hx => ?_, h.descended, h.unopened, h.dropped⟩
      rcases Multiset.mem_cons.mp hx with hx | hx
      · cases hx
        exact ⟨hopen, hstat⟩
      · exact hrest htask x hx
  | descendFails b rest htask hrc =>
      have hb := h.descending b (htask ▸ Multiset.mem_cons_self _ _)
      refine ⟨hrest htask, h.descended, h.unopened, ?_⟩
      intro x hx
      rcases Multiset.mem_cons.mp hx with rfl | hx
      · exact ⟨hb.1, fun hboth => hrc hboth.2⟩
      · exact h.dropped x hx
  | goDown b rest htask hrc hdown =>
      have hb := h.descending b (htask ▸ Multiset.mem_cons_self _ _)
      refine ⟨fun x hx => ?_, ?_, h.unopened, h.dropped⟩
      · exact hrest htask x (by simpa using hx)
      · intro x hx
        rcases Multiset.mem_cons.mp hx with rfl | hx
        · exact ⟨hb.1, hb.2, hrc⟩
        · exact h.descended x hx
  | turn b rest htask hrc hdown =>
      have hb := h.descending b (htask ▸ Multiset.mem_cons_self _ _)
      refine ⟨fun x hx => ?_, ?_, h.unopened, h.dropped⟩
      · exact hrest htask x (by simpa using hx)
      · intro x hx
        rcases Multiset.mem_cons.mp hx with rfl | hx
        · exact ⟨hb.1, hb.2, hrc⟩
        · exact h.descended x hx
  | enqueue b c cs rest htask =>
      exact ⟨fun x hx => hrest htask x (by simpa using hx), h.descended, h.unopened, h.dropped⟩
  | unlock b rest htask => exact ⟨hrest htask, h.descended, h.unopened, h.dropped⟩
  | countDown b rest htask hlock hremaining =>
      exact ⟨hrest htask, h.descended, h.unopened, h.dropped⟩
  | ascend b rest htask hlock hremaining =>
      exact ⟨fun x hx => hrest htask x (by simpa using hx), h.descended, h.unopened, h.dropped⟩
  | ascended b rest htask =>
      refine ⟨fun x hx => ?_, h.descended, h.unopened, h.dropped⟩
      rcases Multiset.mem_add.mp hx with hx | hx
      · exact absurd hx (descending_notMem_ascendParent b x)
      · exact hrest htask x hx

theorem answered_start (ua : UserArgs) (level : ℕ) (roots : List DirTree) :
    Answered ua (start level roots) where
  descending b hb := by simp [start] at hb
  descended b hb := absurd hb (Multiset.notMem_zero b)
  unopened b hb := absurd hb (Multiset.notMem_zero b)
  dropped b hb := absurd hb (Multiset.notMem_zero b)

theorem answered_of_reaches (hrun : Reaches ua (start level roots) s) : Answered ua s := by
  induction hrun with
  | refl => exact answered_start ua level roots
  | tail _ hstep ih => exact answered_step ih hstep

end Answers

section Finished

variable (h : Ordered ua level roots s) (ha : Answered ua s)

include h ha in
theorem visited_of_offered {x : BottomUp} (hpos : 0 < s.offered ua level roots x) :
    Visited ua level roots x := by
  induction hn : x.above.length generalizing x with
  | zero =>
      have hx : x.parent = none := by
        rw [BottomUp.parent, List.length_eq_zero_iff.mp hn]
      rw [offered_of_parent_eq_none hx] at hpos
      obtain ⟨t, ht, rfl⟩ := List.mem_map.mp (List.count_pos_iff.mp hpos)
      exact Visited.root ht
  | succ n ih =>
      obtain ⟨p, hx, hp⟩ := exists_parent_of_length_above hn
      obtain ⟨hdown, hdescended, hmem⟩ := goesDown_of_offered_pos hx hpos
      have hpos' : 0 < s.offered ua level roots p := by
        have hle := h.descended_le_offered p
        have hcount := Multiset.count_pos.mpr hdescended
        omega
      exact (ih hpos' hp).subdir (ha.descended p hdescended) hdown hmem

variable (hdone : s.tasks = 0)

include h hdone in
theorem offered_eq_of_finished (x : BottomUp) :
    s.offered ua level roots x =
      s.descended.count x + s.unopened.count x + s.dropped.count x := by
  have harrived := h.arrived x
  rw [hdone] at harrived
  simpa [total] using harrived.symm

include ha in
theorem count_unopened_eq_zero {x : BottomUp} (hx : ua.opens x = true) :
    s.unopened.count x = 0 := by
  rw [Multiset.count_eq_zero]
  intro hmem
  rw [ha.unopened x hmem] at hx
  cases hx

include ha in
theorem count_dropped_eq_zero {x : BottomUp} (hx : ¬Drops ua x) : s.dropped.count x = 0 := by
  rw [Multiset.count_eq_zero]
  exact fun hmem => hx (ha.dropped x hmem)

include ha in
theorem count_descended_eq_zero {x : BottomUp} (hx : Drops ua x) : s.descended.count x = 0 := by
  rw [Multiset.count_eq_zero]
  exact fun hmem => hx.2 (ha.descended x hmem).2

include h ha hdone

theorem descended_of_finished {x : BottomUp} (hpos : 0 < s.offered ua level roots x)
    (hx : Succeeds ua x) : x ∈ s.descended := by
  have heq := offered_eq_of_finished h hdone x
  have hunopened := count_unopened_eq_zero ha hx.1
  have hdropped := count_dropped_eq_zero ha (fun hd => hd.2 hx.2)
  exact Multiset.count_pos.mp (by omega)

/-- A finished walk has got to every directory that the answers lead to. -/
theorem offered_pos_of_visited {x : BottomUp} (hx : Visited ua level roots x) :
    0 < s.offered ua level roots x := by
  induction hx with
  | root ht =>
      rw [offered_of_parent_eq_none (BottomUp.parent_root ..), List.count_pos_iff]
      exact List.mem_map_of_mem ht
  | @subdir b c _ hsucceeds hdown hc ih =>
      have hb := descended_of_finished h ha hdone ih hsucceeds
      rw [offered_of_parent_eq (parent_of_mem_subdirs hc), if_pos hdown]
      exact Nat.mul_pos (Multiset.count_pos.mpr hb) (List.count_pos_iff.mpr hc)

variable (hwf : ∀ t ∈ roots, t.WellFormed) (hroots : roots.Nodup)
include hwf hroots

omit ha hdone in
theorem descended_eq_one {x : BottomUp} (hx : x ∈ s.descended) : s.descended.count x = 1 := by
  have hpos := Multiset.count_pos.mpr hx
  have hone := h.offered_le_one hwf hroots x
  have hle := h.descended_le_offered x
  omega

/-- The parent of a dropped directory is never ascended. -/
theorem ascended_eq_zero_of_drops {c p : BottomUp} (hc : Visited ua level roots c)
    (hp : c.parent = some p) (hdrops : Drops ua c) :
    p ∈ s.descended ∧ s.ascended.count p = 0 := by
  have hpos := offered_pos_of_visited h ha hdone hc
  obtain ⟨hdown, hdescended, hmem⟩ := goesDown_of_offered_pos hp hpos
  refine ⟨hdescended, ?_⟩
  have hunsettled : s.ascended.count c + s.unopened.count c ≠ 1 := by
    have hascended := h.ascended_le c
    have hzero := count_descended_eq_zero ha hdrops
    have hopen := count_unopened_eq_zero ha hdrops.1
    omega
  have hremaining : s.remaining p ≠ 0 := fun hzero =>
    hunsettled (h.settled_of_remaining_eq_zero hwf hroots hdown hdescended hzero c hmem)
  have hrisen := h.risen p hdown
  rw [if_neg hremaining] at hrisen
  omega

/-- Without dropped directories below the roots, every descended directory is ascended. -/
theorem ascended_eq_one (hkeep : ∀ c p, Visited ua level roots c → c.parent = some p →
    ¬Drops ua c) : ∀ {b : BottomUp}, b ∈ s.descended → s.ascended.count b = 1 := by
  intro b hb
  induction hdir : b.dir using DirTree.induct generalizing b with
  | node path subdirs ih =>
      have hone := descended_eq_one h hwf hroots hb
      by_cases hdown : ua.GoesDown b
      · have hsettled : ∀ c ∈ b.subdirs, 1 ≤ s.ascended.count c + s.unopened.count c := by
          intro c hc
          have hoffered : 0 < s.offered ua level roots c := by
            rw [offered_of_parent_eq (parent_of_mem_subdirs hc), if_pos hdown, hone, Nat.one_mul]
            exact List.count_pos_iff.mpr hc
          have hvisited := visited_of_offered h ha hoffered
          have hdropped := count_dropped_eq_zero ha (hkeep c b hvisited (parent_of_mem_subdirs hc))
          have heq := offered_eq_of_finished h hdone c
          rcases Nat.eq_zero_or_pos (s.descended.count c) with hzero | hpos
          · omega
          · obtain ⟨d, hd, rfl⟩ := List.mem_map.mp hc
            rw [hdir] at hd
            rw [ih d hd (Multiset.count_pos.mp hpos) rfl]
            omega
        have hcounted := h.counted b hdown
        have hsum : b.subdirs.length ≤ s.settled b := by
          unfold settled
          have hcard := List.card_nsmul_le_sum
            (b.subdirs.map fun c => s.ascended.count c + s.unopened.count c) 1
            (by simpa using hsettled)
          simpa using hcard
        have hrisen := h.risen b hdown
        rw [hdone, hone] at hcounted hrisen
        simp only [total, Multiset.map_zero, Multiset.sum_zero] at hcounted hrisen
        have hzero : s.remaining b = 0 := by omega
        rw [if_pos hzero] at hrisen
        omega
      · have hturned := (h.turned b hdown).2
        rw [hdone] at hturned
        simp only [total, Multiset.map_zero, Multiset.sum_zero] at hturned
        omega

end Finished

end BottomUpWalk

end Gufi
