import Mathlib

/-!
# Counted loops over integer ranges

`for (j = lo; j < hi; j++)` visits exactly `Int.range lo hi`, in that
order. The facts here are the ones a loop body that sums, counts or
indexes needs: length, position, membership and the sum as a `Finset` sum.
-/

namespace IntRange

@[simp] theorem length_range (lo hi : ℤ) : (Int.range lo hi).length = (hi - lo).toNat := by
  simp [Int.range]

theorem getElem?_range {lo hi : ℤ} {i : ℕ} (h : lo + i < hi) :
    (Int.range lo hi)[i]? = some (lo + i) := by
  have hi' : i < (hi - lo).toNat := by omega
  simp [Int.range, hi']

theorem nodup_range (lo hi : ℤ) : (Int.range lo hi).Nodup := by
  refine List.Nodup.map ?_ List.nodup_range
  intro a b hab
  simpa using hab

/-- The loop's sum is the sum over the half-open interval. -/
theorem sum_range (f : ℤ → ℤ) (lo hi : ℤ) :
    ((Int.range lo hi).map f).sum = ∑ j ∈ Finset.Ico lo hi, f j := by
  have hset : (Int.range lo hi).toFinset = Finset.Ico lo hi := by
    ext j
    simp [Int.mem_range_iff]
  rw [← hset, List.sum_toFinset f (nodup_range lo hi)]

end IntRange
