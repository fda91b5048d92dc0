import Mathlib.Algebra.BigOperators.Group.Finset.Piecewise
import Mathlib.Algebra.Order.Group.Int
import Mathlib.Data.Fintype.Basic
import Mathlib.Data.Prod.Lex

/-!
# Unit transfer between loaded groups

Groups `i : ι` hold `size i` units under an average load `avg i`. One
transfer step moves a single unit into the most loaded group, taken from
the least loaded of the others that can spare one (two units or more),
when the loads differ by more than a threshold `T`. Ties are broken by the
order of `ι`: the comparison is lexicographic in `(avg i, i)`.

`Step` is a relation on sizes alone. Receiver and donor are unique, so it
is deterministic; no group ever falls below one unit and the total is
constant.
-/

namespace Transfer

variable {ι : Type*}

/-- The comparison key: load first, then the group's own order. -/
def key (avg : ι → ℤ) (i : ι) : ℤ ×ₗ ι := toLex (avg i, i)

theorem key_injective (avg : ι → ℤ) : Function.Injective (key avg) := by
  intro i j h
  have h' : (avg i, i) = (avg j, j) := toLex.injective h
  exact congrArg Prod.snd h'

variable [LinearOrder ι]

/-- `r` is the most loaded group. -/
def IsReceiver (avg : ι → ℤ) (r : ι) : Prop := ∀ i, key avg i ≤ key avg r

/-- `d` is the least loaded group other than `r` that can spare a unit. -/
structure IsDonor (avg size : ι → ℤ) (r d : ι) : Prop where
  ne : d ≠ r
  spare : 2 ≤ size d
  least : ∀ i, i ≠ r → 2 ≤ size i → key avg d ≤ key avg i

/-- The transfer from `d` to `r` is due. -/
structure Fires (T : ℤ) (avg size : ι → ℤ) (r d : ι) : Prop where
  receiver : IsReceiver avg r
  donor : IsDonor avg size r d
  gap : avg d < avg r - T

/-- The sizes after one unit went from `d` to `r`. -/
def move (size : ι → ℤ) (r d : ι) : ι → ℤ :=
  fun i => if i = r then size i + 1 else if i = d then size i - 1 else size i

/-- One step: the due transfer, or nothing when none is due. -/
inductive Step (T : ℤ) (avg size : ι → ℤ) : (ι → ℤ) → Prop
  | moved {r d : ι} (h : Fires T avg size r d) : Step T avg size (move size r d)
  | stays (h : ∀ r d, ¬ Fires T avg size r d) : Step T avg size size

theorem key_le_iff {avg : ι → ℤ} {i j : ι} :
    key avg i ≤ key avg j ↔ avg i < avg j ∨ avg i = avg j ∧ i ≤ j := by
  simp [key, Prod.Lex.toLex_le_toLex]

theorem IsReceiver.unique {avg : ι → ℤ} {r r' : ι}
    (h : IsReceiver avg r) (h' : IsReceiver avg r') : r = r' :=
  key_injective avg (le_antisymm (h' r) (h r'))

theorem IsDonor.unique {avg size : ι → ℤ} {r d d' : ι}
    (h : IsDonor avg size r d) (h' : IsDonor avg size r d') : d = d' :=
  key_injective avg
    (le_antisymm (h.least d' h'.ne h'.spare) (h'.least d h.ne h.spare))

theorem Fires.unique {T : ℤ} {avg size : ι → ℤ} {r d r' d' : ι}
    (h : Fires T avg size r d) (h' : Fires T avg size r' d') : r = r' ∧ d = d' := by
  obtain rfl := h.receiver.unique h'.receiver
  exact ⟨rfl, h.donor.unique h'.donor⟩

/-- The step is a function of the loads and the sizes. -/
theorem Step.unique {T : ℤ} {avg size s s' : ι → ℤ}
    (h : Step T avg size s) (h' : Step T avg size s') : s = s' := by
  cases h with
  | moved hf =>
      cases h' with
      | moved hf' =>
          obtain ⟨rfl, rfl⟩ := hf.unique hf'
          rfl
      | stays hn => exact absurd hf (hn _ _)
  | stays hn =>
      cases h' with
      | moved hf' => exact absurd hf' (hn _ _)
      | stays _ => rfl

@[simp] theorem move_receiver (size : ι → ℤ) (r d : ι) :
    move size r d r = size r + 1 := by
  simp [move]

@[simp] theorem move_donor {size : ι → ℤ} {r d : ι} (h : d ≠ r) :
    move size r d d = size d - 1 := by
  simp [move, h]

@[simp] theorem move_other {size : ι → ℤ} {r d i : ι} (hr : i ≠ r) (hd : i ≠ d) :
    move size r d i = size i := by
  simp [move, hr, hd]

/-- No group falls below one unit: only a group with two can give. -/
theorem Step.one_le {T : ℤ} {avg size s : ι → ℤ} (h : Step T avg size s)
    (hpos : ∀ i, 1 ≤ size i) : ∀ i, 1 ≤ s i := by
  intro i
  cases h with
  | stays _ => exact hpos i
  | @moved r d hf =>
      have hi := hpos i
      by_cases hr : i = r
      · subst hr
        simp
        omega
      · by_cases hd : i = d
        · subst hd
          rw [move_donor hr]
          have := hf.donor.spare
          omega
        · rw [move_other hr hd]
          exact hi

theorem sum_move [Fintype ι] {size : ι → ℤ} {r d : ι} (h : d ≠ r) :
    ∑ i, move size r d i = ∑ i, size i := by
  have hsplit : ∀ i, move size r d i
      = size i + ((if i = r then 1 else 0) - (if i = d then 1 else 0)) := by
    intro i
    by_cases hr : i = r
    · subst hr
      simp [Ne.symm h]
    · by_cases hd : i = d
      · subst hd
        simp [move, h]
        omega
      · simp [hr, hd]
  simp [hsplit, Finset.sum_add_distrib]

/-- The number of units is constant. -/
theorem Step.sum_eq [Fintype ι] {T : ℤ} {avg size s : ι → ℤ}
    (h : Step T avg size s) : ∑ i, s i = ∑ i, size i := by
  cases h with
  | moved hf => exact sum_move hf.donor.ne
  | stays _ => rfl

end Transfer
