import Mathlib.Algebra.BigOperators.Intervals
import Mathlib.Analysis.Convex.Function
import Mathlib.Tactic.FieldSimp
import Mathlib.Tactic.Linarith

/-!
# Right Riemann sums of a convex function

The mean of a convex antitone function over the right ends of `n` equal pieces
of the unit interval grows with `n`: between two neighbours of the finer
division the function lies below its chord.
-/

namespace Lib

section
variable {K : Type} [Field K] [LinearOrder K] [IsStrictOrderedRing K]

/-- The mean over the right ends of `n` equal pieces of the unit interval. -/
def rightMean (f : K → K) (n : ℕ) : K := (∑ i ∈ Finset.range n, f ((i + 1 : ℕ) / n)) / n

omit [LinearOrder K] [IsStrictOrderedRing K] in
/-- Each value is counted with the weight that is left to it, and with that of its neighbour below. -/
theorem sum_chords (g : ℕ → K) (n : K) : ∀ k : ℕ,
    ∑ i ∈ Finset.range k, ((n - (i + 1 : ℕ)) * g i + (i + 1 : ℕ) * g (i + 1)) =
      (n - 1) * ∑ i ∈ Finset.range k, g i + k * g k
  | 0 => by simp
  | k + 1 => by
    rw [Finset.sum_range_succ, sum_chords g n k, Finset.sum_range_succ]
    push_cast
    ring

variable {f : K → K} (hconvex : ConvexOn K (Set.Ioi 0) f) (hanti : AntitoneOn f (Set.Ioi 0))
include hconvex

theorem chord_le {n i : ℕ} (hi : i < n) : (n : K) * f ((i + 1 : ℕ) / n) ≤
    (n - (i + 1 : ℕ)) * f ((i + 1 : ℕ) / (n + 1 : ℕ)) + (i + 1 : ℕ) * f ((i + 1 + 1 : ℕ) / (n + 1 : ℕ)) := by
  have hn : (0 : K) < n := Nat.cast_pos.mpr (Nat.zero_lt_of_lt hi)
  have hn' : (0 : K) < (n + 1 : ℕ) := Nat.cast_pos.mpr n.succ_pos
  have hle : ((i + 1 : ℕ) : K) ≤ n := Nat.cast_le.mpr hi
  have hpos : ∀ j : ℕ, (0 : K) < ((j + 1 : ℕ) : K) / (n + 1 : ℕ) := fun j =>
    div_pos (Nat.cast_pos.mpr j.succ_pos) hn'
  have hrest : (0 : K) ≤ (n - (i + 1 : ℕ)) / n := div_nonneg (sub_nonneg.mpr hle) hn.le
  have hpart : (0 : K) ≤ (i + 1 : ℕ) / n := div_nonneg (Nat.cast_nonneg _) hn.le
  have hone : ((n - (i + 1 : ℕ)) / n + (i + 1 : ℕ) / n : K) = 1 := by
    rw [← add_div, sub_add_cancel, div_self hn.ne']
  have hchord := hconvex.2 (hpos i) (hpos (i + 1)) hrest hpart hone
  have hpoint : ((n - (i + 1 : ℕ)) / n : K) • (((i + 1 : ℕ) : K) / (n + 1 : ℕ)) +
      ((i + 1 : ℕ) / n : K) • (((i + 1 + 1 : ℕ) : K) / (n + 1 : ℕ)) = (i + 1 : ℕ) / n := by
    simp only [smul_eq_mul]
    field_simp
    push_cast
    ring
  rw [hpoint] at hchord
  have hmul := mul_le_mul_of_nonneg_left hchord hn.le
  simp only [smul_eq_mul] at hmul
  refine hmul.trans_eq ?_
  field_simp

include hanti

theorem rightMean_succ {n : ℕ} (hn : 0 < n) : rightMean f n ≤ rightMean f (n + 1) := by
  have hn₀ : (0 : K) < n := Nat.cast_pos.mpr hn
  have hn₁ : (0 : K) < (n + 1 : ℕ) := Nat.cast_pos.mpr n.succ_pos
  have hchords := Finset.sum_le_sum fun i (hi : i ∈ Finset.range n) => chord_le hconvex (Finset.mem_range.mp hi)
  rw [← Finset.mul_sum, sum_chords (fun i => f ((i + 1 : ℕ) / (n + 1 : ℕ)))] at hchords
  have hlast : (n : K) * f ((n + 1 : ℕ) / (n + 1 : ℕ)) ≤ ∑ i ∈ Finset.range n, f ((i + 1 : ℕ) / (n + 1 : ℕ)) := by
    have hle : ∀ i ∈ Finset.range n, f ((n + 1 : ℕ) / (n + 1 : ℕ)) ≤ f ((i + 1 : ℕ) / (n + 1 : ℕ)) := fun i hi =>
      hanti (div_pos (Nat.cast_pos.mpr i.succ_pos) hn₁) (div_pos hn₁ hn₁)
        (div_le_div_of_nonneg_right (Nat.cast_le.mpr (Nat.succ_le_succ (Finset.mem_range.mp hi).le)) hn₁.le)
    have hsum := Finset.sum_le_sum hle
    rwa [Finset.sum_const, Finset.card_range, nsmul_eq_mul] at hsum
  rw [rightMean, rightMean, Finset.sum_range_succ, div_le_div_iff₀ hn₀ hn₁]
  refine le_of_mul_le_mul_left ?_ hn₀
  have hscaled := mul_le_mul_of_nonneg_right hchords hn₁.le
  push_cast at hscaled hlast ⊢
  linarith

theorem rightMean_mono {m n : ℕ} (hm : 0 < m) (hmn : m ≤ n) : rightMean f m ≤ rightMean f n := by
  induction n, hmn using Nat.le_induction with
  | base => exact le_rfl
  | succ n hmn ih => exact ih.trans (rightMean_succ hconvex hanti (lt_of_lt_of_le hm hmn))

end

end Lib
