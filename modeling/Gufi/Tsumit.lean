import Gufi.Aggregates
import Mathlib.Algebra.Order.Group.Int
import Mathlib.Algebra.Ring.Int.Defs
import Mathlib.Data.Nat.Cast.Basic

/-!
# Adding up summaries

`struct sum` holds what a summary says of one directory, or of a whole tree once `totsubdirs` is
positive. `tsumit` adds one such struct to another. `flatFold` is what the summary of a tree is for:
one pass over the summaries of its directories.

`Summarizes U k s` says what `s` holds after the structs in `U` were added to a zeroed struct, in
any order and in any grouping, when `totsubdirs` was corrected by `k`. The four time totals of a
struct that counts no files are left out by `tsumit`; `lostTime` is what is lost.
-/

namespace Gufi

open Aggregates

section Fields

/-- The values with a minimum and a maximum. -/
inductive RangeField
  | uid
  | gid
  | size
  | blocks
  | ctime
  | mtime
  | atime
  | crtime
  | ossint1
  | ossint2
  | ossint3
  | ossint4
deriving DecidableEq

inductive TimeField
  | ctime
  | mtime
  | atime
  | crtime
deriving DecidableEq

/-- The other totals. -/
inductive TotField
  | zero
  | ltk
  | mtk
  | ltm
  | mtm
  | mtg
  | mtt
  | blocks
  | xattr
  | ossint1
  | ossint2
  | ossint3
  | ossint4
deriving DecidableEq

/-- `maxsubdirfiles`, `maxsubdirlinks` and `maxsubdirsize`. -/
inductive SubdirField
  | files
  | links
  | size
deriving DecidableEq

end Fields

def llongMax : ℤ := 2 ^ 63 - 1

def llongMin : ℤ := -2 ^ 63

/-- `struct sum`. -/
structure Sums where
  totfiles : ℤ
  totlinks : ℤ
  totsize : ℤ
  minval : RangeField → ℤ
  maxval : RangeField → ℤ
  tottime : TimeField → ℤ
  tot : TotField → ℤ
  totsubdirs : ℤ
  maxsubdir : SubdirField → ℤ
  totextdbs : ℤ

def zeroit : Sums where
  totfiles := 0
  totlinks := 0
  totsize := 0
  minval _ := llongMax
  maxval _ := llongMin
  tottime _ := 0
  tot _ := 0
  totsubdirs := 0
  maxsubdir _ := llongMin
  totextdbs := 0

instance : Inhabited Sums := ⟨zeroit⟩

namespace Sums

/-- The total that a maximum over subdirectories is taken of. -/
def total (s : Sums) : SubdirField → ℤ
  | .files => s.totfiles
  | .links => s.totlinks
  | .size => s.totsize

def HasFiles (s : Sums) : Prop :=
  0 < s.totfiles

instance (s : Sums) : Decidable s.HasFiles :=
  inferInstanceAs (Decidable (_ < _))

/-- A positive `totsubdirs` tells a tree summary from the summary of a directory. -/
def subdirMax (s : Sums) (d : SubdirField) : ℤ :=
  if 0 < s.totsubdirs then s.maxsubdir d else s.total d

/-- The directories the struct is about. -/
def dirs (s : Sums) : ℤ :=
  1 + if 0 < s.totsubdirs then s.totsubdirs else 0

/-- `totsubdirs--`. -/
def dropSubdir (s : Sums) : Sums :=
  { s with totsubdirs := s.totsubdirs - 1 }

def noExtdbs (s : Sums) : Sums :=
  { s with totextdbs := 0 }

theorem eq_of_fields {s s' : Sums} (htotal : ∀ d, s.total d = s'.total d)
    (hmin : ∀ f, s.minval f = s'.minval f) (hmax : ∀ f, s.maxval f = s'.maxval f)
    (htime : ∀ f, s.tottime f = s'.tottime f) (htot : ∀ f, s.tot f = s'.tot f)
    (hsubdirs : s.totsubdirs = s'.totsubdirs) (hmaxsub : ∀ d, s.maxsubdir d = s'.maxsubdir d)
    (hext : s.totextdbs = s'.totextdbs) : s = s' := by
  obtain ⟨files, links, size, minval, maxval, tottime, tot, subdirs, maxsub, ext'⟩ := s
  obtain rfl : files = s'.totfiles := htotal .files
  obtain rfl : links = s'.totlinks := htotal .links
  obtain rfl : size = s'.totsize := htotal .size
  obtain rfl : minval = s'.minval := funext hmin
  obtain rfl : maxval = s'.maxval := funext hmax
  obtain rfl : tottime = s'.tottime := funext htime
  obtain rfl : tot = s'.tot := funext htot
  obtain rfl : subdirs = s'.totsubdirs := hsubdirs
  obtain rfl : maxsub = s'.maxsubdir := funext hmaxsub
  obtain rfl : ext' = s'.totextdbs := hext
  rfl

theorem total_noExtdbs (s : Sums) (d : SubdirField) : s.noExtdbs.total d = s.total d := by
  cases d <;> rfl

/-- Totals are not negative, as the counts and sizes they are made of. -/
structure Valid (s : Sums) : Prop where
  total : ∀ d, 0 ≤ s.total d
  subdirMax : ∀ d, 0 ≤ s.subdirMax d

theorem Valid.of_noExtdbs {s : Sums} (h : s.noExtdbs.Valid) : s.Valid := by
  have hsub (d : SubdirField) : s.noExtdbs.subdirMax d = s.subdirMax d := by
    unfold Sums.subdirMax
    rw [total_noExtdbs]
    rfl
  exact ⟨fun d => total_noExtdbs s d ▸ h.total d, fun d => hsub d ▸ h.subdirMax d⟩

end Sums

/-- Adds `sumin` to `smout`. Minima, maxima and the totals of the times are taken only from a
struct that counts files. -/
def tsumit (sumin smout : Sums) : Sums where
  totsubdirs := smout.totsubdirs + 1 + if 0 < sumin.totsubdirs then sumin.totsubdirs else 0
  maxsubdir d := max (smout.maxsubdir d)
    (if 0 < sumin.totsubdirs then sumin.maxsubdir d else sumin.total d)
  totfiles := smout.totfiles + sumin.totfiles
  totlinks := smout.totlinks + sumin.totlinks
  minval f := if 0 < sumin.totfiles then min (smout.minval f) (sumin.minval f) else smout.minval f
  maxval f := if 0 < sumin.totfiles then max (smout.maxval f) (sumin.maxval f) else smout.maxval f
  tottime f := if 0 < sumin.totfiles then smout.tottime f + sumin.tottime f else smout.tottime f
  tot f := smout.tot f + sumin.tot f
  totsize := smout.totsize + sumin.totsize
  totextdbs := smout.totextdbs + sumin.totextdbs

theorem total_tsumit (u s : Sums) (d : SubdirField) :
    (tsumit u s).total d = u.total d + s.total d := by
  cases d <;> exact add_comm _ _

section FlatFold

/-- The columns of a `summary` row that are numbers, other than the counts named by the row.
`size` is that of the directory itself. -/
structure SumColumns where
  size : ℕ
  totsize : ℕ
  minval : RangeField → ℤ
  maxval : RangeField → ℤ
  tottime : TimeField → ℤ
  tot : TotField → ℤ

/-- What the summary row of one directory says, with the number of its external databases. -/
structure DirSummary extends SumColumns where
  totfiles : ℕ
  totlinks : ℕ
  externalDbs : ℕ

namespace DirSummary

/-- What `querytsdb` fills in from a row of `summary`. -/
def sums (r : DirSummary) : Sums where
  totfiles := r.totfiles
  totlinks := r.totlinks
  totsize := r.totsize
  minval := r.minval
  maxval := r.maxval
  tottime := r.tottime
  tot := r.tot
  totsubdirs := 0
  maxsubdir _ := 0
  totextdbs := r.externalDbs

def noExternalDbs (r : DirSummary) : DirSummary :=
  { r with externalDbs := 0 }

theorem sums_valid (r : DirSummary) : r.sums.Valid := by
  have htotal : ∀ d, 0 ≤ r.sums.total d := by
    intro d
    cases d <;> exact Int.natCast_nonneg _
  exact ⟨htotal, htotal⟩

end DirSummary

/-- The summary of a tree from the summaries of its directories: totals over all of them, minima
and maxima over those that hold files, and the largest totals of one directory. -/
def flatFold (rows : Multiset DirSummary) : Sums where
  totfiles := (rows.map fun r => (r.totfiles : ℤ)).sum
  totlinks := (rows.map fun r => (r.totlinks : ℤ)).sum
  totsize := (rows.map fun r => (r.totsize : ℤ)).sum
  minval f := agg min llongMax (fun r : DirSummary => 0 < r.totfiles) (fun r => r.minval f) rows
  maxval f := agg max llongMin (fun r : DirSummary => 0 < r.totfiles) (fun r => r.maxval f) rows
  tottime f := (rows.map fun r => r.tottime f).sum
  tot f := (rows.map fun r => r.tot f).sum
  totsubdirs := rows.card - 1
  maxsubdir d := agg max llongMin (fun _ => True) (fun r : DirSummary => r.sums.total d) rows
  totextdbs := (rows.map fun r => (r.externalDbs : ℤ)).sum

end FlatFold

section Units

/-- One pass over structs that each stand for one or more directories. -/
def foldUnits (U : Multiset Sums) : Sums where
  totfiles := (U.map fun u => u.totfiles).sum
  totlinks := (U.map fun u => u.totlinks).sum
  totsize := (U.map fun u => u.totsize).sum
  minval f := agg min llongMax Sums.HasFiles (fun u => u.minval f) U
  maxval f := agg max llongMin Sums.HasFiles (fun u => u.maxval f) U
  tottime f := (U.map fun u => u.tottime f).sum
  tot f := (U.map fun u => u.tot f).sum
  totsubdirs := (U.map Sums.dirs).sum
  maxsubdir d := agg max llongMin (fun _ => True) (fun u => u.subdirMax d) U
  totextdbs := (U.map fun u => u.totextdbs).sum

/-- The time totals of the structs that count no files. -/
def lostTime (U : Multiset Sums) (f : TimeField) : ℤ :=
  ((U.filter fun u => ¬u.HasFiles).map fun u => u.tottime f).sum

variable {U M : Multiset Sums} {u : Sums}

theorem total_foldUnits (U : Multiset Sums) (d : SubdirField) :
    (foldUnits U).total d = (U.map fun u => u.total d).sum := by
  cases d <;> rfl

theorem lostTime_add (M U : Multiset Sums) (f : TimeField) :
    lostTime (M + U) f = lostTime M f + lostTime U f := by
  simp only [lostTime, Multiset.filter_add, Multiset.map_add, Multiset.sum_add]

theorem lostTime_cons_of_hasFiles (h : u.HasFiles) (U : Multiset Sums) (f : TimeField) :
    lostTime (u ::ₘ U) f = lostTime U f := by
  rw [lostTime, Multiset.filter_cons_of_neg (p := fun u : Sums => ¬u.HasFiles) _ (not_not.mpr h)]
  rfl

theorem lostTime_cons_of_not_hasFiles (h : ¬u.HasFiles) (U : Multiset Sums) (f : TimeField) :
    lostTime (u ::ₘ U) f = u.tottime f + lostTime U f := by
  rw [lostTime, Multiset.filter_cons_of_pos (p := fun u : Sums => ¬u.HasFiles) _ h,
    Multiset.map_cons, Multiset.sum_cons]
  rfl

theorem lostTime_of_forall_not_hasFiles (h : ∀ u ∈ U, ¬u.HasFiles) (f : TimeField) :
    lostTime U f = (foldUnits U).tottime f := by
  rw [lostTime, Multiset.filter_eq_self.mpr h]
  rfl

/-- The two passes over parts of the structs, put together. -/
theorem foldUnits_add (M U : Multiset Sums) :
    foldUnits (M + U) =
      { totfiles := (foldUnits M).totfiles + (foldUnits U).totfiles
        totlinks := (foldUnits M).totlinks + (foldUnits U).totlinks
        totsize := (foldUnits M).totsize + (foldUnits U).totsize
        minval f := min ((foldUnits M).minval f) ((foldUnits U).minval f)
        maxval f := max ((foldUnits M).maxval f) ((foldUnits U).maxval f)
        tottime f := (foldUnits M).tottime f + (foldUnits U).tottime f
        tot f := (foldUnits M).tot f + (foldUnits U).tot f
        totsubdirs := (foldUnits M).totsubdirs + (foldUnits U).totsubdirs
        maxsubdir d := max ((foldUnits M).maxsubdir d) ((foldUnits U).maxsubdir d)
        totextdbs := (foldUnits M).totextdbs + (foldUnits U).totextdbs } := by
  simp only [foldUnits, Multiset.map_add, Multiset.sum_add, agg_add]

theorem foldUnits_cons (u : Sums) (U : Multiset Sums) :
    foldUnits (u ::ₘ U) = foldUnits ({u} + U) := by
  rw [Multiset.singleton_add]

/-- Parts may be replaced by parts with the same pass. -/
theorem foldUnits_add_congr {M N U V : Multiset Sums} (hM : foldUnits M = foldUnits N)
    (hU : foldUnits U = foldUnits V) : foldUnits (M + U) = foldUnits (N + V) := by
  rw [foldUnits_add, foldUnits_add, hM, hU]

theorem foldUnits_map_noExtdbs (U : Multiset Sums) :
    foldUnits (U.map Sums.noExtdbs) = (foldUnits U).noExtdbs := by
  have hzero : (U.map fun u => (Sums.noExtdbs u).totextdbs).sum = 0 :=
    Multiset.sum_map_zero
  unfold foldUnits
  simp only [agg_map, Multiset.map_map, Function.comp_def, hzero]
  rfl

theorem lostTime_map_noExtdbs (U : Multiset Sums) (f : TimeField) :
    lostTime (U.map Sums.noExtdbs) f = lostTime U f := by
  unfold lostTime
  rw [Multiset.filter_map, Multiset.map_map]
  rfl

theorem map_sum_map {α β γ : Type*} (f : α → Multiset β) (g : β → γ) (l : List α) :
    (l.map f).sum.map g = (l.map fun a => (f a).map g).sum := by
  induction l with
  | nil => rfl
  | cons a l ih => rw [List.map_cons, List.sum_cons, Multiset.map_add, ih, List.map_cons,
      List.sum_cons]

theorem foldUnits_map_sum_congr {α : Type*} {f g : α → Multiset Sums} {l : List α}
    (h : ∀ a ∈ l, foldUnits (f a) = foldUnits (g a)) :
    foldUnits (l.map f).sum = foldUnits (l.map g).sum := by
  induction l with
  | nil => rfl
  | cons a l ih =>
      rw [List.map_cons, List.map_cons, List.sum_cons, List.sum_cons]
      exact foldUnits_add_congr (h a (List.mem_cons_self ..))
        (ih fun b hb => h b (List.mem_cons_of_mem a hb))

theorem maxsubdir_nonneg (hU : U ≠ 0) (hvalid : ∀ u ∈ U, u.Valid) (d : SubdirField) :
    0 ≤ (foldUnits U).maxsubdir d := by
  obtain ⟨u, hu⟩ := Multiset.exists_mem_of_ne_zero hU
  have hle : u.subdirMax d ≤ (foldUnits U).maxsubdir d :=
    le_agg_max (fun u : Sums => u.subdirMax d) hu trivial
  exact ((hvalid u hu).subdirMax d).trans hle

theorem one_le_dirs (u : Sums) : 1 ≤ u.dirs := by
  unfold Sums.dirs
  split_ifs <;> omega

theorem card_le_totsubdirs (U : Multiset Sums) : (U.card : ℤ) ≤ (foldUnits U).totsubdirs := by
  induction U using Multiset.induction with
  | empty => exact le_refl 0
  | cons u U ih =>
      have hdirs := one_le_dirs u
      have hcons : (foldUnits (u ::ₘ U)).totsubdirs = u.dirs + (foldUnits U).totsubdirs := by
        simp only [foldUnits, Multiset.map_cons, Multiset.sum_cons]
      rw [Multiset.card_cons, hcons]
      push_cast
      omega

end Units

section Rows

variable {rows : Multiset DirSummary}

/-- For the rows of directories the pass is the flat fold, but that it counts every directory. -/
theorem foldUnits_map_sums (rows : Multiset DirSummary) :
    foldUnits (rows.map DirSummary.sums) = { flatFold rows with totsubdirs := rows.card } := by
  have hfiles : ∀ r ∈ rows, (r.sums.HasFiles ↔ 0 < r.totfiles) :=
    fun r _ => Int.natCast_pos
  have hdirs : (rows.map fun r => r.sums.dirs).sum = rows.card := by
    have hone : (rows.map fun r => r.sums.dirs) = rows.map fun _ => (1 : ℤ) := rfl
    rw [hone, Multiset.map_const', Multiset.sum_replicate, nsmul_eq_mul, mul_one]
  unfold foldUnits flatFold
  simp only [agg_map, Multiset.map_map, Function.comp_def, hdirs, Sums.mk.injEq]
  refine ⟨rfl, rfl, rfl, ?_, ?_, rfl, rfl, trivial, rfl, rfl⟩
  · funext f
    exact agg_congr min llongMax _ hfiles fun _ _ => rfl
  · funext f
    exact agg_congr max llongMin _ hfiles fun _ _ => rfl

theorem total_flatFold (rows : Multiset DirSummary) (d : SubdirField) :
    (flatFold rows).total d = (rows.map fun r => r.sums.total d).sum := by
  cases d <;> rfl

theorem flatFold_noExternalDbs (rows : Multiset DirSummary) :
    flatFold (rows.map DirSummary.noExternalDbs) = (flatFold rows).noExtdbs := by
  have hzero : (rows.map fun r => (r.noExternalDbs.externalDbs : ℤ)).sum = 0 :=
    Multiset.sum_map_zero
  have htotal (r : DirSummary) (d : SubdirField) :
      r.noExternalDbs.sums.total d = r.sums.total d := by
    cases d <;> rfl
  unfold flatFold
  simp only [agg_map, Multiset.map_map, Function.comp_def, Multiset.card_map, hzero, htotal]
  rfl

/-- The largest totals are read in the right place, also in the summary of a single directory. -/
theorem subdirMax_flatFold (hrows : rows ≠ 0) (d : SubdirField) :
    (flatFold rows).subdirMax d = (flatFold rows).maxsubdir d := by
  have hcard : 0 < rows.card := Multiset.card_pos.mpr hrows
  unfold Sums.subdirMax
  split_ifs with hsub
  · rfl
  · have hone : rows.card = 1 := by
      have hcast : ¬(0 < (rows.card : ℤ) - 1) := hsub
      omega
    obtain ⟨r, rfl⟩ := Multiset.card_eq_one.mp hone
    have hnonneg := r.sums_valid.total d
    have hmin : llongMin ≤ 0 := by decide
    have hagg : (flatFold {r}).maxsubdir d = max (r.sums.total d) llongMin := rfl
    rw [hagg, total_flatFold, Multiset.map_singleton, Multiset.sum_singleton,
      max_eq_left (hmin.trans hnonneg)]

theorem flatFold_valid (hrows : rows ≠ 0) : (flatFold rows).Valid := by
  constructor
  · intro d
    rw [total_flatFold]
    apply Multiset.sum_nonneg
    intro x hx
    obtain ⟨r, -, rfl⟩ := Multiset.mem_map.mp hx
    exact r.sums_valid.total d
  · intro d
    obtain ⟨r, hr⟩ := Multiset.exists_mem_of_ne_zero hrows
    rw [subdirMax_flatFold hrows]
    have hle : r.sums.total d ≤ (flatFold rows).maxsubdir d :=
      le_agg_max (fun r : DirSummary => r.sums.total d) hr trivial
    exact (r.sums_valid.total d).trans hle

/-- A tree summary that is the flat fold of some rows stands for them. -/
theorem foldUnits_flatFold (hrows : rows ≠ 0) :
    foldUnits {flatFold rows} = foldUnits (rows.map DirSummary.sums) := by
  have hfiles : (flatFold rows).HasFiles ↔ ∃ r ∈ rows, 0 < r.totfiles := by
    have hpos := sum_pos_iff (fun r : DirSummary => (r.totfiles : ℤ))
      fun r (_ : r ∈ rows) => Int.natCast_nonneg _
    simp only [Int.natCast_pos] at hpos
    exact hpos
  have hcard : 0 < rows.card := Multiset.card_pos.mpr hrows
  have hdirs : (flatFold rows).dirs = rows.card := by
    unfold Sums.dirs flatFold
    dsimp only
    split_ifs <;> omega
  rw [foldUnits_map_sums]
  unfold foldUnits
  simp only [Multiset.map_singleton, Multiset.sum_singleton, hdirs, Sums.mk.injEq, true_and]
  refine ⟨?_, ?_, ?_, trivial⟩
  · funext f
    exact agg_singleton_of_eq min llongMax _ hfiles fun _ => rfl
  · funext f
    exact agg_singleton_of_eq max llongMin _ hfiles fun _ => rfl
  · funext d
    exact agg_singleton_of_eq max llongMin _ (by simpa using Multiset.exists_mem_of_ne_zero hrows)
      fun _ => subdirMax_flatFold hrows d

end Rows

/-- What a struct holds once the structs in `U` were added up, when `totsubdirs` was corrected by
`k`. Without any of them `maxsubdir` may still hold 0 from a thread that was idle. -/
structure Summarizes (U : Multiset Sums) (k : ℤ) (s : Sums) : Prop where
  total : ∀ d, s.total d = (foldUnits U).total d
  minval : ∀ f, s.minval f = (foldUnits U).minval f
  maxval : ∀ f, s.maxval f = (foldUnits U).maxval f
  tottime : ∀ f, s.tottime f + lostTime U f = (foldUnits U).tottime f
  tot : ∀ f, s.tot f = (foldUnits U).tot f
  totsubdirs : s.totsubdirs + k = (foldUnits U).totsubdirs
  maxsubdir : U ≠ 0 → ∀ d, s.maxsubdir d = (foldUnits U).maxsubdir d
  maxsubdirIdle : U = 0 → ∀ d, s.maxsubdir d ≤ 0
  totextdbs : s.totextdbs = (foldUnits U).totextdbs

namespace Summarizes

variable {U M : Multiset Sums} {u s : Sums} {k j : ℤ}

theorem zeroit : Summarizes 0 0 zeroit where
  total d := by cases d <;> rfl
  minval _ := rfl
  maxval _ := rfl
  tottime _ := rfl
  tot _ := rfl
  totsubdirs := rfl
  maxsubdir h := absurd rfl h
  maxsubdirIdle _ _ := (by decide : llongMin ≤ 0)
  totextdbs := rfl

theorem dropSubdir (h : Summarizes U k s) : Summarizes U (k + 1) s.dropSubdir where
  total d := by
    rw [← h.total d]
    cases d <;> rfl
  minval := h.minval
  maxval := h.maxval
  tottime := h.tottime
  tot := h.tot
  totsubdirs := by
    have hsub := h.totsubdirs
    change s.totsubdirs - 1 + (k + 1) = _
    omega
  maxsubdir := h.maxsubdir
  maxsubdirIdle := h.maxsubdirIdle
  totextdbs := h.totextdbs

/-- What one call of `tsumit` does. -/
theorem tsumit (h : Summarizes U k s) (hu : u.Valid) : Summarizes (u ::ₘ U) k (tsumit u s) where
  total d := by
    rw [total_tsumit, h.total, total_foldUnits, total_foldUnits, Multiset.map_cons,
      Multiset.sum_cons]
  minval f := by
    change (if 0 < u.totfiles then min (s.minval f) (u.minval f) else s.minval f) = _
    rw [h.minval]
    split_ifs with hfiles
    · exact (min_comm _ _).trans (agg_cons_of_pos min llongMax (fun u : Sums => u.minval f)
        (p := Sums.HasFiles) hfiles U).symm
    · exact (agg_cons_of_neg min llongMax (fun u : Sums => u.minval f)
        (p := Sums.HasFiles) hfiles U).symm
  maxval f := by
    change (if 0 < u.totfiles then max (s.maxval f) (u.maxval f) else s.maxval f) = _
    rw [h.maxval]
    split_ifs with hfiles
    · exact (max_comm _ _).trans (agg_cons_of_pos max llongMin (fun u : Sums => u.maxval f)
        (p := Sums.HasFiles) hfiles U).symm
    · exact (agg_cons_of_neg max llongMin (fun u : Sums => u.maxval f)
        (p := Sums.HasFiles) hfiles U).symm
  tottime f := by
    have htime := h.tottime f
    have hcons : (foldUnits (u ::ₘ U)).tottime f = u.tottime f + (foldUnits U).tottime f := by
      simp only [foldUnits, Multiset.map_cons, Multiset.sum_cons]
    change (if 0 < u.totfiles then s.tottime f + u.tottime f else s.tottime f) + _ = _
    split_ifs with hfiles
    · rw [lostTime_cons_of_hasFiles hfiles]
      omega
    · rw [lostTime_cons_of_not_hasFiles hfiles]
      omega
  tot f := by
    change s.tot f + u.tot f = _
    simp only [h.tot, foldUnits, Multiset.map_cons, Multiset.sum_cons, add_comm]
  totsubdirs := by
    have hsub := h.totsubdirs
    have hcons : (foldUnits (u ::ₘ U)).totsubdirs = u.dirs + (foldUnits U).totsubdirs := by
      simp only [foldUnits, Multiset.map_cons, Multiset.sum_cons]
    change s.totsubdirs + 1 + (if 0 < u.totsubdirs then u.totsubdirs else 0) + k = _
    rw [hcons, Sums.dirs]
    omega
  maxsubdir _ d := by
    have hnonneg := hu.subdirMax d
    have hcons : (foldUnits (u ::ₘ U)).maxsubdir d =
        max (u.subdirMax d) ((foldUnits U).maxsubdir d) :=
      agg_cons_of_pos max llongMin _ (p := fun _ : Sums => True) trivial U
    change max (s.maxsubdir d) (u.subdirMax d) = _
    rw [hcons, max_comm]
    rcases eq_or_ne U 0 with rfl | hU
    · have hmin : llongMin ≤ 0 := by decide
      have hidle := h.maxsubdirIdle rfl d
      change max _ _ = max _ llongMin
      rw [max_eq_left (hidle.trans hnonneg), max_eq_left (hmin.trans hnonneg)]
    · rw [h.maxsubdir hU]
  maxsubdirIdle h := absurd h (Multiset.cons_ne_zero)
  totextdbs := by
    change s.totextdbs + u.totextdbs = _
    simp only [h.totextdbs, foldUnits, Multiset.map_cons, Multiset.sum_cons, add_comm]

theorem hasFiles_iff (h : Summarizes M j s) (hvalid : ∀ u ∈ M, u.Valid) :
    s.HasFiles ↔ ∃ u ∈ M, u.HasFiles := by
  have htotal := h.total .files
  change s.totfiles = (M.map fun u => u.totfiles).sum at htotal
  rw [Sums.HasFiles, htotal]
  exact sum_pos_iff _ fun u hu => (hvalid u hu).total .files

/-- The times of a struct that counts no files were all lost before. -/
theorem tottime_eq_zero (h : Summarizes M j s) (hvalid : ∀ u ∈ M, u.Valid) (hfiles : ¬s.HasFiles)
    (f : TimeField) : s.tottime f = 0 := by
  have hnone : ∀ u ∈ M, ¬u.HasFiles := by
    intro u hu hfu
    exact hfiles ((h.hasFiles_iff hvalid).mpr ⟨u, hu, hfu⟩)
  have htime := h.tottime f
  rw [lostTime_of_forall_not_hasFiles hnone] at htime
  omega

theorem lostTime_singleton (h : Summarizes M j s) (hvalid : ∀ u ∈ M, u.Valid) (f : TimeField) :
    lostTime {s} f = 0 := by
  rw [← Multiset.cons_zero]
  by_cases hfiles : s.HasFiles
  · exact lostTime_cons_of_hasFiles hfiles 0 f
  · rw [lostTime_cons_of_not_hasFiles hfiles, h.tottime_eq_zero hvalid hfiles]
    rfl

/-- A struct that adds up others may be taken for one that stands for all of them: one with the
directories of all but one of them, or one that nothing was added to. -/
theorem subdirMax_eq (h : Summarizes M j s) (hvalid : ∀ u ∈ M, u.Valid) (hM : M ≠ 0)
    (hj : j = 0 ∨ j = 1) (d : SubdirField) : s.subdirMax d = (foldUnits M).maxsubdir d := by
  unfold Sums.subdirMax
  split_ifs with hsub
  · exact h.maxsubdir hM d
  · have hcard := card_le_totsubdirs M
    have hpos := Multiset.card_pos.mpr hM
    have hsubdirs := h.totsubdirs
    have hone : M.card = 1 := by omega
    obtain ⟨u, rfl⟩ := Multiset.card_eq_one.mp hone
    have hdirs : (foldUnits {u}).totsubdirs = u.dirs := Multiset.sum_singleton _
    have hplain : ¬0 < u.totsubdirs := by
      intro hpos
      rw [hdirs, Sums.dirs, if_pos hpos] at hsubdirs
      omega
    have htotal : (foldUnits {u}).total d = u.total d := by
      cases d <;> exact Multiset.sum_singleton _
    have hagg : (foldUnits {u}).maxsubdir d = max (u.subdirMax d) llongMin := rfl
    have hnonneg := (hvalid u (Multiset.mem_singleton_self u)).total d
    have hmin : llongMin ≤ 0 := by decide
    rw [h.total, htotal, hagg, Sums.subdirMax, if_neg hplain, max_eq_left (hmin.trans hnonneg)]

theorem valid (h : Summarizes M j s) (hvalid : ∀ u ∈ M, u.Valid) (hj : j = 0 ∨ j = 1) :
    s.Valid := by
  have htotal : ∀ d, 0 ≤ s.total d := by
    intro d
    rw [h.total, total_foldUnits]
    apply Multiset.sum_nonneg
    intro x hx
    obtain ⟨u, hu, rfl⟩ := Multiset.mem_map.mp hx
    exact (hvalid u hu).total d
  refine ⟨htotal, fun d => ?_⟩
  rcases eq_or_ne M 0 with rfl | hM
  · have hsubdirs := h.totsubdirs
    have hzero : (foldUnits 0).totsubdirs = 0 := rfl
    rw [Sums.subdirMax, if_neg (by omega)]
    exact htotal d
  · rw [h.subdirMax_eq hvalid hM hj]
    exact maxsubdir_nonneg hM hvalid d

theorem subdirMax_of_zero (h : Summarizes 0 0 s) (d : SubdirField) : s.subdirMax d = 0 := by
  have hsubdirs := h.totsubdirs
  have hzero : (foldUnits 0).totsubdirs = 0 := rfl
  rw [Sums.subdirMax, if_neg (by omega), h.total]
  cases d <;> rfl

/-- Adding a struct that itself adds up others adds up all of them. -/
theorem merge {c : Sums} (hc : Summarizes M j c) (hs : Summarizes U k s)
    (hvalid : ∀ u ∈ M, u.Valid) (hvalidU : ∀ u ∈ U, u.Valid) (hj : j = 0 ∨ j = 1 ∧ M ≠ 0) :
    Summarizes (M + U) (k + j - 1) (Gufi.tsumit c s) := by
  have hj' : j = 0 ∨ j = 1 := hj.imp id And.left
  have h := hs.tsumit (hc.valid hvalid hj')
  have hfiles := hc.hasFiles_iff hvalid
  constructor
  · intro d
    rw [h.total, total_foldUnits, total_foldUnits, Multiset.map_cons, Multiset.sum_cons,
      Multiset.map_add, Multiset.sum_add, hc.total, total_foldUnits]
  · intro f
    rw [h.minval, foldUnits_cons, foldUnits_add, foldUnits_add]
    exact congrArg₂ min (agg_singleton_of_eq min llongMax _ hfiles fun _ => hc.minval f) rfl
  · intro f
    rw [h.maxval, foldUnits_cons, foldUnits_add, foldUnits_add]
    exact congrArg₂ max (agg_singleton_of_eq max llongMin _ hfiles fun _ => hc.maxval f) rfl
  · intro f
    have htime := h.tottime f
    have hctime := hc.tottime f
    rw [foldUnits_cons, foldUnits_add] at htime
    rw [lostTime_add, foldUnits_add]
    have hone : (foldUnits {c}).tottime f = c.tottime f := Multiset.sum_singleton _
    dsimp only at htime ⊢
    by_cases hcf : c.HasFiles
    · rw [lostTime_cons_of_hasFiles hcf] at htime
      omega
    · have hzero := hc.tottime_eq_zero hvalid hcf f
      rw [lostTime_cons_of_not_hasFiles hcf] at htime
      omega
  · intro f
    have hone : (foldUnits {c}).tot f = c.tot f := Multiset.sum_singleton _
    rw [h.tot, foldUnits_cons, foldUnits_add, foldUnits_add]
    dsimp only
    rw [hone, hc.tot]
  · have hsub := h.totsubdirs
    have hcsub := hc.totsubdirs
    have hcard := card_le_totsubdirs M
    have hone : (foldUnits {c}).totsubdirs = c.dirs := Multiset.sum_singleton _
    have hnonneg : 0 ≤ c.totsubdirs := by
      rcases hj with rfl | ⟨rfl, hM⟩
      · omega
      · have hpos := Multiset.card_pos.mpr hM
        omega
    have hdirs : c.dirs = 1 + c.totsubdirs := by
      unfold Sums.dirs
      split_ifs <;> omega
    rw [foldUnits_cons, foldUnits_add] at hsub
    rw [foldUnits_add]
    dsimp only at hsub ⊢
    omega
  · intro hMU d
    rcases eq_or_ne M 0 with rfl | hM
    · obtain rfl : j = 0 := hj.resolve_right fun hj => hj.2 rfl
      rw [zero_add] at hMU ⊢
      change max (s.maxsubdir d) (c.subdirMax d) = _
      rw [hc.subdirMax_of_zero, hs.maxsubdir hMU, max_eq_left (maxsubdir_nonneg hMU hvalidU d)]
    · rw [h.maxsubdir Multiset.cons_ne_zero, foldUnits_cons, foldUnits_add, foldUnits_add]
      exact congrArg₂ max (agg_singleton_of_eq max llongMin _
        (by simpa using Multiset.exists_mem_of_ne_zero hM)
        fun _ => hc.subdirMax_eq hvalid hM hj' d) rfl
  · intro hMU d
    obtain rfl : M = 0 := Multiset.le_zero.mp (hMU ▸ Multiset.le_add_right M U)
    obtain rfl : U = 0 := by rwa [zero_add] at hMU
    obtain rfl : j = 0 := hj.resolve_right fun hj => hj.2 rfl
    change max (s.maxsubdir d) (c.subdirMax d) ≤ 0
    rw [hc.subdirMax_of_zero]
    exact max_le (hs.maxsubdirIdle rfl d) le_rfl
  · have hone : (foldUnits {c}).totextdbs = c.totextdbs := Multiset.sum_singleton _
    rw [h.totextdbs, foldUnits_cons, foldUnits_add, foldUnits_add]
    dsimp only
    rw [hone, hc.totextdbs]

theorem noExtdbs (h : Summarizes U k s) : Summarizes (U.map Sums.noExtdbs) k s.noExtdbs where
  total d := by
    rw [foldUnits_map_noExtdbs, Sums.total_noExtdbs, Sums.total_noExtdbs]
    exact h.total d
  minval f := by
    rw [foldUnits_map_noExtdbs]
    exact h.minval f
  maxval f := by
    rw [foldUnits_map_noExtdbs]
    exact h.maxval f
  tottime f := by
    rw [foldUnits_map_noExtdbs, lostTime_map_noExtdbs]
    exact h.tottime f
  tot f := by
    rw [foldUnits_map_noExtdbs]
    exact h.tot f
  totsubdirs := by
    rw [foldUnits_map_noExtdbs]
    exact h.totsubdirs
  maxsubdir hU d := by
    rw [foldUnits_map_noExtdbs]
    exact h.maxsubdir (fun hzero => hU (by rw [hzero]; rfl)) d
  maxsubdirIdle hU := h.maxsubdirIdle (Multiset.map_eq_zero.mp hU)
  totextdbs := by
    rw [foldUnits_map_noExtdbs]
    rfl

/-- The struct is the flat fold of the rows that its parts stand for exactly when no time was
lost. -/
theorem eq_flatFold_iff {rows : Multiset DirSummary} (h : Summarizes U 1 s) (hU : U ≠ 0)
    (hrows : foldUnits U = foldUnits (rows.map DirSummary.sums)) :
    s = flatFold rows ↔ ∀ f, lostTime U f = 0 := by
  rw [foldUnits_map_sums] at hrows
  have htime (f : TimeField) : (foldUnits U).tottime f = (flatFold rows).tottime f := by
    rw [hrows]
  constructor
  · rintro rfl f
    have hlost := h.tottime f
    have heq := htime f
    omega
  · intro hlost
    apply Sums.eq_of_fields
    · intro d
      rw [h.total, hrows]
      cases d <;> rfl
    · intro f
      rw [h.minval, hrows]
    · intro f
      rw [h.maxval, hrows]
    · intro f
      rw [← htime, ← h.tottime, hlost, add_zero]
    · intro f
      rw [h.tot, hrows]
    · have hsub := h.totsubdirs
      rw [hrows] at hsub
      exact eq_sub_of_add_eq hsub
    · intro d
      rw [h.maxsubdir hU, hrows]
    · rw [h.totextdbs, hrows]

end Summarizes

end Gufi
