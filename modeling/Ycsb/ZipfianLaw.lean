import Mathlib.MeasureTheory.Measure.Lebesgue.Basic
import Mathlib.Order.SuccPred.IntervalSucc
import Ycsb.Lib.Powers
import Ycsb.ZipfianRange

/-!
# The popularity of the numbers

How likely `Next` is to yield each number, for a draw that is uniform over the
unit interval. The first two numbers have their Zipfian shares. Behind them each
number is drawn between two powers, and a generator that is asked for more than
it was made for leaves a gap.
-/

namespace Ycsb

open Lib MeasureTheory

namespace ZipfianGenerator

/-! ## The intervals -/

/-- From here on a draw behind the first two numbers reaches `k`. -/
noncomputable def low (g : ZipfianGenerator ℝ) (num k : ℕ) : ℝ := 1 - (1 - ((k : ℝ) / num) ^ (1 - g.theta)) / g.eta

noncomputable def cut (g : ZipfianGenerator ℝ) (num : ℕ) : ℕ → ℝ
  | 0 => 0
  | 1 => 1 / g.zetaN
  | k + 2 => max (g.zeta2 / g.zetaN) (g.low num (k + 2))

/-- Made for `m` numbers, the generator draws from the `num` it was ever asked for. -/
structure Drawing (m num : ℕ) (theta : ℝ) (g : ZipfianGenerator ℝ) : Prop where
  theta_pos : 0 < theta
  theta_lt : theta < 1
  three_le : 3 ≤ m
  le_num : m ≤ num
  grown : Grown Real.rpow m num theta g

namespace Drawing

variable {theta : ℝ} {m num : ℕ} {g : ZipfianGenerator ℝ} (h : Drawing m num theta g)
include h

theorem eta : 0 < g.eta ∧ g.eta ≤ 1 := eta_bounds h.theta_pos h.theta_lt h.three_le h.le_num h.grown

theorem exponent_pos : 0 < 1 - theta := sub_pos.mpr h.theta_lt

theorem m_pos : (0 : ℝ) < m := Nat.cast_pos.mpr (Nat.zero_lt_of_lt h.three_le)

theorem num_pos : (0 : ℝ) < num := Nat.cast_pos.mpr (Nat.zero_lt_of_lt (h.three_le.trans h.le_num))

theorem zetas : 1 < g.zeta2 ∧ g.zeta2 < g.zetaN := by
  rw [h.grown.zeta2_eq, h.grown.zetaN_eq]
  refine ⟨?_, zeta_strictMono theta (h.three_le.trans h.le_num)⟩
  rw [zeta_two]
  exact lt_add_of_pos_right 1 (Real.rpow_pos_of_pos (by norm_num) theta)

theorem zetaN_pos : 0 < g.zetaN := by linarith [h.zetas.1, h.zetas.2]

theorem threshold_lt : g.zeta2 / g.zetaN < 1 := (div_lt_one h.zetaN_pos).mpr h.zetas.2

theorem low_le_iff (k : ℕ) (u : ℝ) :
    g.low num k ≤ u ↔ ((k : ℝ) / num) ^ (1 - theta) ≤ g.eta * u - g.eta + 1 := by
  rw [low, h.grown.theta_eq, sub_le_comm, le_div_iff₀ h.eta.1]
  constructor <;> intro hle <;> linarith

theorem reach_iff (k : ℕ) {u : ℝ} (hu : 0 ≤ u) :
    (k : ℝ) ≤ num * Real.rpow (g.eta * u - g.eta + 1) g.alpha ↔ g.low num k ≤ u := by
  obtain ⟨heta, heta'⟩ := h.eta
  have hx : 0 ≤ g.eta * u - g.eta + 1 := by nlinarith
  have hk : (0 : ℝ) ≤ k / num := div_nonneg (Nat.cast_nonneg k) h.num_pos.le
  rw [h.low_le_iff, Real.rpow_eq_pow, h.grown.alpha_eq, one_div, ← Real.le_rpow_inv_iff_of_pos hk hx h.exponent_pos,
    div_le_iff₀ h.num_pos, mul_comm]

theorem low_strictMono : StrictMono (g.low num) := by
  intro j k hjk
  have hdiv : (j : ℝ) / num < k / num := div_lt_div_of_pos_right (Nat.cast_lt.mpr hjk) h.num_pos
  have hpow : ((j : ℝ) / num) ^ (1 - theta) < ((k : ℝ) / num) ^ (1 - theta) :=
    Real.rpow_lt_rpow (div_nonneg (Nat.cast_nonneg j) h.num_pos.le) hdiv h.exponent_pos
  rw [low, low, h.grown.theta_eq]
  exact sub_lt_sub_left (div_lt_div_of_pos_right (by linarith) h.eta.1) 1

theorem low_num : g.low num num = 1 := by
  rw [low, div_self h.num_pos.ne', Real.one_rpow, sub_self, zero_div, sub_zero]

theorem eta_mul : g.eta * (1 - g.zeta2 / g.zetaN) = 1 - (2 / m : ℝ) ^ (1 - theta) := by
  have hden : 1 - g.zeta2 / g.zetaN ≠ 0 := (sub_pos.mpr h.threshold_lt).ne'
  rw [h.grown.eta, ← h.grown.zeta2_eq, ← h.grown.zetaN_eq, div_mul_cancel₀ _ hden, Real.rpow_eq_pow]

theorem low_le_threshold_iff (k : ℕ) : g.low num k ≤ g.zeta2 / g.zetaN ↔ k * m ≤ 2 * num := by
  have hx : g.eta * (g.zeta2 / g.zetaN) - g.eta + 1 = (2 / m : ℝ) ^ (1 - theta) := by linarith [h.eta_mul]
  have hk : (0 : ℝ) ≤ k / num := div_nonneg (Nat.cast_nonneg k) h.num_pos.le
  rw [h.low_le_iff, hx, Real.rpow_le_rpow_iff hk (div_nonneg zero_le_two h.m_pos.le) h.exponent_pos,
    div_le_div_iff₀ h.num_pos h.m_pos]
  exact_mod_cast Iff.rfl

theorem cut_mono : Monotone (g.cut num) := by
  refine monotone_nat_of_le_succ fun k => ?_
  match k with
  | 0 => exact (one_div_pos.mpr h.zetaN_pos).le
  | 1 => exact (div_le_div_of_nonneg_right h.zetas.1.le h.zetaN_pos.le).trans (le_max_left _ _)
  | k + 2 => exact max_le_max_left _ (h.low_strictMono (Nat.lt_succ_self _)).le

theorem low_two : g.low num 2 ≤ g.zeta2 / g.zetaN :=
  (h.low_le_threshold_iff 2).mpr (Nat.mul_le_mul_left 2 h.le_num)

theorem cut_two : g.cut num 2 = g.zeta2 / g.zetaN := max_eq_left h.low_two

theorem cut_num : g.cut num num = 1 := by
  obtain ⟨k, hk⟩ : ∃ k, num = k + 2 := ⟨num - 2, by have := h.three_le; have := h.le_num; omega⟩
  have hcut : g.cut num (k + 2) = max (g.zeta2 / g.zetaN) (g.low num (k + 2)) := rfl
  rw [← hk, h.low_num] at hcut
  rw [hcut]
  exact max_eq_right h.threshold_lt.le

/-! ## A draw -/

theorem floor_slot {u : ℝ} (hu : g.zeta2 / g.zetaN ≤ u) (hu' : u < 1) {y : ℝ}
    (hreach : ∀ k : ℕ, (k : ℝ) ≤ y ↔ g.low num k ≤ u) :
    0 ≤ y ∧ ⌊y⌋₊ < num ∧ g.cut num ⌊y⌋₊ ≤ u ∧ u < g.cut num (⌊y⌋₊ + 1) := by
  have htwo := (hreach 2).mpr (h.low_two.trans hu)
  have hnonneg : 0 ≤ y := le_trans (Nat.cast_nonneg 2) htwo
  have hlt : ⌊y⌋₊ < num := (Nat.floor_lt hnonneg).mpr <| not_le.mp fun hle => by
    have hone := (hreach num).mp hle
    rw [h.low_num] at hone
    exact absurd hone (not_le.mpr hu')
  have hfloor := (hreach ⌊y⌋₊).mp (Nat.floor_le hnonneg)
  have hnext : u < g.low num (⌊y⌋₊ + 1) := not_le.mp fun hle => by
    have hge := (hreach (⌊y⌋₊ + 1)).mpr hle
    exact absurd (Nat.lt_floor_add_one y) (not_lt.mpr (by exact_mod_cast hge))
  obtain ⟨k, hk⟩ := Nat.exists_eq_add_of_le' (Nat.le_floor htwo)
  rw [hk] at hlt hfloor hnext ⊢
  exact ⟨hnonneg, hlt, max_le hu hfloor, lt_max_of_lt_right hnext⟩

/-- Every draw lies in the interval of the number that it yields. -/
theorem exists_slot (hbase : g.base + num < 2 ^ 64) {u : ℝ} (hu : 0 ≤ u) (hu' : u < 1) :
    ∃ k, sample Real.rpow g num u = g.base + k ∧ g.cut num k ≤ u ∧ u < g.cut num (k + 1) := by
  have hnum := h.three_le.trans h.le_num
  have hsecond : 1 + Real.rpow (1 / 2) g.theta = g.zeta2 := by
    rw [h.grown.theta_eq, h.grown.zeta2_eq, zeta_two]
  unfold sample
  simp only [hsecond]
  split
  · rename_i hfirst
    exact ⟨0, rfl, hu, (lt_div_iff₀ h.zetaN_pos).mpr hfirst⟩
  · rename_i hfirst
    split
    · rename_i hlt
      refine ⟨1, u64_of_lt (by omega), (div_le_iff₀ h.zetaN_pos).mpr (not_lt.mp hfirst), ?_⟩
      rw [h.cut_two]
      exact (lt_div_iff₀ h.zetaN_pos).mpr hlt
    · rename_i hge
      have hthreshold : g.zeta2 / g.zetaN ≤ u := (div_le_iff₀ h.zetaN_pos).mpr (not_lt.mp hge)
      obtain ⟨hnonneg, hlt, hslot⟩ := h.floor_slot hthreshold hu' fun k => h.reach_iff k hu
      refine ⟨_, ?_, hslot⟩
      rw [add_comm (g.base : ℝ), Nat.floor_add_natCast hnonneg, add_comm, u64_of_lt (by omega)]

theorem draw_iff (hbase : g.base + num < 2 ^ 64) {u : ℝ} (hu : 0 ≤ u) (hu' : u < 1) (k : ℕ) :
    sample Real.rpow g num u = g.base + k ↔ u ∈ Set.Ico (g.cut num k) (g.cut num (k + 1)) := by
  obtain ⟨j, hj, hslot⟩ := h.exists_slot hbase hu hu'
  rw [hj, Nat.add_left_cancel_iff]
  constructor
  · rintro rfl
    exact hslot
  · intro hk
    by_contra hne
    exact Set.disjoint_left.mp (Monotone.pairwise_disjoint_on_Ico_succ h.cut_mono hne) hslot hk

/-! ## The lengths of the intervals -/

theorem first_lengths : g.cut num 1 - g.cut num 0 = 1 / g.zetaN ∧
    g.cut num 2 - g.cut num 1 = (1 / 2 : ℝ) ^ theta / g.zetaN := by
  have hcut : g.cut num 1 = 1 / g.zetaN ∧ g.cut num 0 = 0 := ⟨rfl, rfl⟩
  rw [h.cut_two, hcut.1, hcut.2, h.grown.zeta2_eq, zeta_two, Real.rpow_eq_pow, sub_zero]
  exact ⟨rfl, by rw [← sub_div, add_sub_cancel_left]⟩

theorem length_zero_iff {k : ℕ} (hk : 2 ≤ k) :
    g.cut num (k + 1) - g.cut num k = 0 ↔ (k + 1) * m ≤ 2 * num := by
  obtain ⟨j, rfl⟩ := Nat.exists_eq_add_of_le' hk
  have hlt : g.low num (j + 2) < g.low num (j + 3) := h.low_strictMono (Nat.lt_succ_self _)
  rw [sub_eq_zero, ← h.low_le_threshold_iff]
  constructor
  · intro heq
    have hmax : max (g.zeta2 / g.zetaN) (g.low num (j + 3)) = max (g.zeta2 / g.zetaN) (g.low num (j + 2)) := heq
    rcases le_total (g.low num (j + 3)) (g.zeta2 / g.zetaN) with hle | hle
    · exact hle
    · rw [max_eq_right hle] at hmax
      rcases max_choice (g.zeta2 / g.zetaN) (g.low num (j + 2)) with hc | hc
      · exact (hmax.trans hc).le
      · exact absurd (hmax.trans hc) hlt.ne'
  · intro hle
    exact (max_eq_left hle).trans (max_eq_left (hlt.le.trans hle)).symm

end Drawing

/-! ### When it was asked for no more than it was made for -/

namespace Drawing

variable {theta : ℝ} {m : ℕ} {g : ZipfianGenerator ℝ} (h : Drawing m m theta g)
include h

theorem low_two_eq : g.low m 2 = g.zeta2 / g.zetaN := by
  refine h.low_two.antisymm ?_
  rw [low, h.grown.theta_eq, Nat.cast_two, ← h.eta_mul, mul_div_cancel_left₀ _ h.eta.1.ne', sub_sub_cancel]

theorem cut_eq_low {k : ℕ} (hk : 2 ≤ k) : g.cut m k = g.low m k := by
  obtain ⟨j, rfl⟩ := Nat.exists_eq_add_of_le' hk
  exact max_eq_right (h.low_two_eq ▸ h.low_strictMono.monotone hk)

theorem low_sub (j k : ℕ) : g.low m k - g.low m j =
    ((k : ℝ) ^ (1 - theta) - (j : ℝ) ^ (1 - theta)) / ((m : ℝ) ^ (1 - theta) * g.eta) := by
  have hpow : (m : ℝ) ^ (1 - theta) ≠ 0 := (Real.rpow_pos_of_pos h.m_pos _).ne'
  have heta := h.eta.1.ne'
  rw [low, low, h.grown.theta_eq, Real.div_rpow (Nat.cast_nonneg k) h.m_pos.le,
    Real.div_rpow (Nat.cast_nonneg j) h.m_pos.le]
  field_simp
  ring

theorem scale_pos : 0 < (m : ℝ) ^ (1 - theta) * g.eta := mul_pos (Real.rpow_pos_of_pos h.m_pos _) h.eta.1

/-- What is behind the first two numbers is divided among the others. -/
theorem rest_eq : ((m : ℝ) ^ (1 - theta) - (2 : ℕ) ^ (1 - theta)) / ((m : ℝ) ^ (1 - theta) * g.eta) =
    (g.zetaN - g.zeta2) / g.zetaN := by
  rw [← h.low_sub, h.low_num, h.low_two_eq, sub_div, div_self h.zetaN_pos.ne']

theorem zeta_sub : g.zetaN - g.zeta2 = ∑ i ∈ Finset.Ico 2 m, ((i + 1 : ℕ) : ℝ) ^ (1 - theta - 1) := by
  rw [h.grown.zetaN_eq, h.grown.zeta2_eq, zeta_eq_range, zeta_eq_range,
    ← Finset.sum_Ico_eq_sub _ (Nat.le_of_succ_le h.three_le)]
  refine Finset.sum_congr rfl fun i _ => ?_
  rw [sub_sub_cancel_left, Real.rpow_neg (Nat.cast_nonneg _), one_div]

theorem third_le : g.low m 3 - g.low m 2 ≤ (1 / 2 : ℝ) ^ theta / g.zetaN := by
  have hsteps := step_mul_sum_le h.exponent_pos.le (sub_le_self 1 h.theta_pos.le) two_pos
    (Nat.le_of_succ_le h.three_le)
  have hhalf : ((2 : ℕ) : ℝ) ^ (1 - theta - 1) = (1 / 2 : ℝ) ^ theta := by
    rw [sub_sub_cancel_left, Real.rpow_neg (Nat.cast_nonneg _), Nat.cast_two,
      Real.div_rpow zero_le_one zero_le_two, Real.one_rpow, one_div]
  have hzeta : 0 < g.zetaN - g.zeta2 := sub_pos.mpr h.zetas.2
  have hrest := (div_eq_div_iff h.scale_pos.ne' h.zetaN_pos.ne').mp h.rest_eq
  rw [← h.zeta_sub, hhalf] at hsteps
  rw [h.low_sub, div_le_div_iff₀ h.scale_pos h.zetaN_pos]
  refine le_of_mul_le_mul_right ?_ hzeta
  calc _ = (((2 + 1 : ℕ) : ℝ) ^ (1 - theta) - ((2 : ℕ) : ℝ) ^ (1 - theta)) * (g.zetaN - g.zeta2) * g.zetaN := by ring
    _ ≤ (1 / 2 : ℝ) ^ theta * ((m : ℝ) ^ (1 - theta) - ((2 : ℕ) : ℝ) ^ (1 - theta)) * g.zetaN :=
        mul_le_mul_of_nonneg_right hsteps h.zetaN_pos.le
    _ = (1 / 2 : ℝ) ^ theta * ((m : ℝ) ^ (1 - theta) * g.eta) * (g.zetaN - g.zeta2) := by
        rw [mul_assoc, hrest]
        ring

theorem length_eq {k : ℕ} (hk : 2 ≤ k) : g.cut m (k + 1) - g.cut m k = (1 - g.zeta2 / g.zetaN) *
    ((((k + 1 : ℕ) : ℝ) ^ (1 - theta) - (k : ℝ) ^ (1 - theta)) / ((m : ℝ) ^ (1 - theta) - 2 ^ (1 - theta))) := by
  have hden : (0 : ℝ) < (m : ℝ) ^ (1 - theta) - 2 ^ (1 - theta) :=
    sub_pos.mpr (Real.rpow_lt_rpow zero_le_two (by exact_mod_cast h.three_le) h.exponent_pos)
  have hrest := h.rest_eq
  rw [Nat.cast_two, sub_div g.zetaN, div_self h.zetaN_pos.ne'] at hrest
  rw [h.cut_eq_low hk, h.cut_eq_low (hk.trans (Nat.le_succ k)), h.low_sub, ← hrest]
  field_simp [h.scale_pos.ne', hden.ne']

theorem length_pos : ∀ k, 0 < g.cut m (k + 1) - g.cut m k
  | 0 => by
    rw [h.first_lengths.1]
    exact one_div_pos.mpr h.zetaN_pos
  | 1 => by
    rw [h.first_lengths.2]
    exact div_pos (Real.rpow_pos_of_pos (by norm_num) theta) h.zetaN_pos
  | k + 2 => by
    rw [h.cut_eq_low (by omega), h.cut_eq_low (by omega)]
    exact sub_pos.mpr (h.low_strictMono (Nat.lt_succ_self _))

theorem lengths_antitone (k : ℕ) :
    g.cut m (k + 2) - g.cut m (k + 1) ≤ g.cut m (k + 1) - g.cut m k := by
  match k with
  | 0 =>
    rw [h.first_lengths.1, h.first_lengths.2]
    exact div_le_div_of_nonneg_right (Real.rpow_le_one (by norm_num) (by norm_num) h.theta_pos.le) h.zetaN_pos.le
  | 1 =>
    rw [h.first_lengths.2, h.cut_eq_low le_rfl, h.cut_eq_low (Nat.le_succ 2)]
    exact h.third_le
  | k + 2 =>
    rw [h.cut_eq_low (by omega), h.cut_eq_low (by omega), h.cut_eq_low (by omega), h.low_sub, h.low_sub]
    exact div_le_div_of_nonneg_right (step_antitone h.exponent_pos.le (sub_le_self 1 h.theta_pos.le) _) h.scale_pos.le

end Drawing

/-! ## The shares -/

/-- The measure of the draws for which the next call yields the number `k`. -/
noncomputable def share (g : ZipfianGenerator ℝ) (num k : ℕ) : ℝ :=
  volume.real {u : ℝ | 0 ≤ u ∧ u < 1 ∧ ∃ g', g.next Real.rpow num u = some g' ∧ g'.lastValue = g.base + k}

section
variable {theta : ℝ} {m num : ℕ} {g : ZipfianGenerator ℝ} (h : Drawing m num theta (recompute Real.rpow g num))
  (hnum : num < kMaxNumItems) (hbase : g.base + num < 2 ^ 64)
include h hnum hbase

theorem share_eq {k : ℕ} (hk : k < num) : share g num k =
    (recompute Real.rpow g num).cut num (k + 1) - (recompute Real.rpow g num).cut num k := by
  have hrbase : (recompute Real.rpow g num).base = g.base := recompute_base g num
  have hnext : ∀ u, g.next Real.rpow num u = some { recompute Real.rpow g num with
      lastValue := sample Real.rpow (recompute Real.rpow g num) num u } := fun u =>
    if_pos ⟨(Nat.le_of_succ_le h.three_le).trans h.le_num, hnum⟩
  have hset : {u : ℝ | 0 ≤ u ∧ u < 1 ∧ ∃ g', g.next Real.rpow num u = some g' ∧ g'.lastValue = g.base + k} =
      Set.Ico ((recompute Real.rpow g num).cut num k) ((recompute Real.rpow g num).cut num (k + 1)) := by
    ext u
    have hdraw := fun hu hu' => h.draw_iff (hrbase ▸ hbase) (u := u) hu hu' k
    simp only [hnext, Set.mem_ofPred_eq, Option.some.injEq, exists_eq_left']
    constructor
    · rintro ⟨hu, hu', hsample⟩
      exact (hdraw hu hu').mp (hrbase ▸ hsample)
    · intro hslot
      have hu : 0 ≤ u := (h.cut_mono (Nat.zero_le k)).trans hslot.1
      have hu' : u < 1 := hslot.2.trans_le (h.cut_num ▸ h.cut_mono (Nat.succ_le_of_lt hk))
      exact ⟨hu, hu', hrbase ▸ (hdraw hu hu').mpr hslot⟩
  rw [share, hset]
  exact Real.volume_real_Ico_of_le (h.cut_mono (Nat.le_succ k))

theorem sum_share : ∑ k ∈ Finset.range num, share g num k = 1 := by
  have hzero : (recompute Real.rpow g num).cut num 0 = 0 := rfl
  rw [Finset.sum_congr rfl fun k hk => share_eq h hnum hbase (Finset.mem_range.mp hk), Finset.sum_range_sub,
    h.cut_num, hzero, sub_zero]

end

theorem Reached.drawing {min max : ℕ} (hmin : min ≤ max) (hmax : max < 2 ^ 64 - 1) {theta : ℝ} (h0 : 0 < theta)
    (h1 : theta < 1) {calls : List (ℕ × ℝ)} {g : ZipfianGenerator ℝ} (hg : Reached min max theta calls g)
    (hthree : 3 ≤ max - min + 1) {num : ℕ} (hle : max - min + 1 ≤ num) (hcalls : ∀ c ∈ calls, c.1 ≤ num) :
    Drawing (max - min + 1) num theta (recompute Real.rpow g num) ∧ g.base = min := by
  obtain ⟨hgrown, hgbase, _⟩ := hg.grown hmin hmax
  have hgrown := hgrown.recompute num
  rw [max_eq_right (largest_le_iff.mpr ⟨hle, hcalls⟩)] at hgrown
  exact ⟨⟨h0, h1, hthree, hle, hgrown⟩, hgbase⟩

section
variable {min max : ℕ} (hmin : min ≤ max) (hmax : max < 2 ^ 64 - 1) {theta : ℝ} (h0 : 0 < theta) (h1 : theta < 1)
  {calls : List (ℕ × ℝ)} {g : ZipfianGenerator ℝ} (hg : Reached min max theta calls g) (hthree : 3 ≤ max - min + 1)
include hmin hmax h0 h1 hg hthree

/-- **How likely each number is.** When the generator draws from the largest number it was ever asked
for, the first two numbers have their Zipfian shares. Behind them it skips the numbers below twice
the factor by which it has grown. -/
theorem share_law {num : ℕ} (hle : max - min + 1 ≤ num) (hcalls : ∀ c ∈ calls, c.1 ≤ num)
    (hnum : num < kMaxNumItems) (hbase : min + num < 2 ^ 64) :
    share g num 0 = 1 / zeta Real.rpow num theta ∧
    share g num 1 = (1 / 2 : ℝ) ^ theta / zeta Real.rpow num theta ∧
    ∑ k ∈ Finset.range num, share g num k = 1 ∧
    ∀ k, 2 ≤ k → k < num → (share g num k = 0 ↔ (k + 1) * (max - min + 1) ≤ 2 * num) := by
  obtain ⟨h, rfl⟩ := hg.drawing hmin hmax h0 h1 hthree hle hcalls
  have hfirst := h.first_lengths
  rw [h.grown.zetaN_eq] at hfirst
  refine ⟨?_, ?_, sum_share h hnum hbase, fun k hk hkn => ?_⟩
  · rw [share_eq h hnum hbase (by omega), hfirst.1]
  · rw [share_eq h hnum hbase (by omega), hfirst.2]
  · rw [share_eq h hnum hbase hkn, h.length_zero_iff hk]

/-- **The popular numbers come first.** After calls with no more numbers than the generator was made for,
a call with exactly that many can draw every one of them, and none is more likely than the one before it. -/
theorem popular_first (hcalls : ∀ c ∈ calls, c.1 ≤ max - min + 1) (hnum : max - min + 1 < kMaxNumItems) :
    (∀ k, k + 1 < max - min + 1 →
      0 < share g (max - min + 1) (k + 1) ∧ share g (max - min + 1) (k + 1) ≤ share g (max - min + 1) k) ∧
    ∀ k, 2 ≤ k → k < max - min + 1 → share g (max - min + 1) k =
      (1 - zeta Real.rpow 2 theta / zeta Real.rpow (max - min + 1) theta) *
        ((((k + 1 : ℕ) : ℝ) ^ (1 - theta) - (k : ℝ) ^ (1 - theta)) /
          (((max - min + 1 : ℕ) : ℝ) ^ (1 - theta) - 2 ^ (1 - theta))) := by
  obtain ⟨h, rfl⟩ := hg.drawing hmin hmax h0 h1 hthree le_rfl hcalls
  have hbase' : g.base + (max - g.base + 1) < 2 ^ 64 := by omega
  constructor
  · intro k hk
    rw [share_eq h hnum hbase' hk, share_eq h hnum hbase' (Nat.lt_of_succ_lt hk)]
    exact ⟨h.length_pos (k + 1), h.lengths_antitone k⟩
  · intro k hk hkn
    rw [share_eq h hnum hbase' hkn, h.length_eq hk, h.grown.zeta2_eq, h.grown.zetaN_eq]

end

/-- Made for three numbers and asked for six, the generator does not draw the third one. -/
theorem share_law_three_six : ∃ g, Reached 0 2 (1 / 2) [(5, 0)] g ∧ share g 6 0 = 1 / zeta Real.rpow 6 (1 / 2) ∧
    share g 6 2 = 0 := by
  obtain ⟨g, hg⟩ := exists_reached (m := 3) (by decide) (1 / 2) [(5, 0)] (by simp [kMaxNumItems])
  have hlaw := share_law (by decide) (by decide) (by norm_num) (by norm_num) hg (by decide)
    (show 2 - 0 + 1 ≤ 6 by decide) (by simp) (by decide) (by decide)
  exact ⟨g, hg, hlaw.1, (hlaw.2.2.2 2 (by decide) (by decide)).mpr (by decide)⟩

theorem popular_first_four : ∃ g, Reached 0 3 (1 / 2) [] g ∧ 0 < share g 4 3 ∧ share g 4 3 ≤ share g 4 2 := by
  obtain ⟨g, hg⟩ := exists_reached (m := 4) (by decide) (1 / 2) [] (by simp)
  exact ⟨g, hg, (popular_first (by decide) (by decide) (by norm_num) (by norm_num) hg (by decide) (by simp)
    (by decide)).1 2 (by decide)⟩

end ZipfianGenerator

end Ycsb
