import Mathlib.Algebra.BigOperators.Intervals
import Mathlib.Analysis.Convex.Slope
import Mathlib.Analysis.Convex.SpecificFunctions.Pow

/-!
# The steps of a power

For an exponent between 0 and 1 the step from `k ^ s` to `(k + 1) ^ s` shrinks
with `k`, and lies between the slopes at its two ends.
-/

namespace Lib

variable {s : ℝ} (h0 : 0 ≤ s) (h1 : s ≤ 1)
include h0 h1

/-- The power lies below its tangents. -/
theorem rpow_sub_le {x y : ℝ} (hx : 0 < x) (hy : 0 ≤ y) : y ^ s - x ^ s ≤ s * x ^ (s - 1) * (y - x) := by
  have hratio : -1 ≤ (y - x) / x := by
    rw [le_div_iff₀ hx]
    linarith
  have hone : 1 + (y - x) / x = y / x := by
    field_simp
    ring
  have hbernoulli := rpow_one_add_le_one_add_mul_self hratio h0 h1
  rw [hone, Real.div_rpow hy hx.le, div_le_iff₀ (Real.rpow_pos_of_pos hx s)] at hbernoulli
  rw [Real.rpow_sub_one hx.ne']
  calc y ^ s - x ^ s ≤ (1 + s * ((y - x) / x)) * x ^ s - x ^ s := sub_le_sub_right hbernoulli _
    _ = s * (x ^ s / x) * (y - x) := by field_simp; ring

theorem step_le_slope {k : ℕ} (hk : 0 < k) :
    ((k + 1 : ℕ) : ℝ) ^ s - (k : ℝ) ^ s ≤ s * (k : ℝ) ^ (s - 1) := by
  have hle := rpow_sub_le h0 h1 (Nat.cast_pos.mpr hk) (Nat.cast_nonneg (k + 1))
  simpa using hle

theorem slope_le_step (k : ℕ) :
    s * ((k + 1 : ℕ) : ℝ) ^ (s - 1) ≤ ((k + 1 : ℕ) : ℝ) ^ s - (k : ℝ) ^ s := by
  have hle := rpow_sub_le h0 h1 (Nat.cast_pos.mpr k.succ_pos) (Nat.cast_nonneg k)
  have hone : (k : ℝ) - (k + 1 : ℕ) = -1 := by
    push_cast
    ring
  rw [hone] at hle
  linarith

theorem step_antitone (k : ℕ) :
    ((k + 2 : ℕ) : ℝ) ^ s - ((k + 1 : ℕ) : ℝ) ^ s ≤ ((k + 1 : ℕ) : ℝ) ^ s - (k : ℝ) ^ s := by
  have hmem : ∀ j : ℕ, (j : ℝ) ∈ Set.Ici 0 := fun j => Set.mem_Ici.mpr (Nat.cast_nonneg j)
  have hlt : (k : ℝ) < (k + 1 : ℕ) ∧ ((k + 1 : ℕ) : ℝ) < (k + 2 : ℕ) :=
    ⟨Nat.cast_lt.mpr k.lt_succ_self, Nat.cast_lt.mpr (k + 1).lt_succ_self⟩
  have hslope := (Real.concaveOn_rpow h0 h1).slope_anti_adjacent (hmem k) (hmem (k + 2)) hlt.1 hlt.2
  have hone : ((k + 2 : ℕ) : ℝ) - (k + 1 : ℕ) = 1 ∧ ((k + 1 : ℕ) : ℝ) - k = 1 := by
    push_cast
    constructor <;> ring
  rwa [hone.1, hone.2, div_one, div_one] at hslope

/-- From one step to the sum of all that follow. -/
theorem step_mul_sum_le {j : ℕ} (hj : 0 < j) {n : ℕ} (hn : j ≤ n) :
    (((j + 1 : ℕ) : ℝ) ^ s - (j : ℝ) ^ s) * ∑ i ∈ Finset.Ico j n, ((i + 1 : ℕ) : ℝ) ^ (s - 1) ≤
      (j : ℝ) ^ (s - 1) * ((n : ℝ) ^ s - (j : ℝ) ^ s) := by
  have hsteps : ∑ i ∈ Finset.Ico j n, (((i + 1 : ℕ) : ℝ) ^ s - (i : ℝ) ^ s) = (n : ℝ) ^ s - (j : ℝ) ^ s :=
    Finset.sum_Ico_sub (fun i : ℕ => (i : ℝ) ^ s) hn
  rw [← hsteps, Finset.mul_sum, Finset.mul_sum]
  refine Finset.sum_le_sum fun i _ => ?_
  have hnonneg : ∀ k : ℕ, 0 ≤ (k : ℝ) ^ (s - 1) := fun k => Real.rpow_nonneg (Nat.cast_nonneg k) _
  calc (((j + 1 : ℕ) : ℝ) ^ s - (j : ℝ) ^ s) * ((i + 1 : ℕ) : ℝ) ^ (s - 1)
      ≤ s * (j : ℝ) ^ (s - 1) * ((i + 1 : ℕ) : ℝ) ^ (s - 1) :=
        mul_le_mul_of_nonneg_right (step_le_slope h0 h1 hj) (hnonneg _)
    _ = (j : ℝ) ^ (s - 1) * (s * ((i + 1 : ℕ) : ℝ) ^ (s - 1)) := by ring
    _ ≤ (j : ℝ) ^ (s - 1) * (((i + 1 : ℕ) : ℝ) ^ s - (i : ℝ) ^ s) :=
        mul_le_mul_of_nonneg_left (slope_le_step h0 h1 i) (hnonneg _)

end Lib
