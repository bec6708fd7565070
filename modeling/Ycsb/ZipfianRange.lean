import Mathlib.Analysis.MeanInequalities
import Ycsb.KeySpace
import Ycsb.Lib.Riemann
import Ycsb.ZipfianSound

/-!
# The range of a Zipfian generator

`eta_` keeps the number that `Next` yields below `num` as long as it is positive
and at most one. The upper bound is a fact about the means of `1 / x ^ theta`.
-/

namespace Ycsb

open Lib

/-! ## The powers -/

theorem convexOn_rpow_neg {theta : ℝ} (htheta : 0 ≤ theta) : ConvexOn ℝ (Set.Ioi 0) fun x : ℝ => 1 / x ^ theta := by
  refine ⟨convex_Ioi 0, fun x hx y hy a b ha hb hab => ?_⟩
  have hx : (0 : ℝ) < x := hx
  have hy : (0 : ℝ) < y := hy
  have hgeom : 0 < x ^ a * y ^ b := by positivity
  have hle : (x ^ a * y ^ b) ^ theta ≤ (a * x + b * y) ^ theta :=
    Real.rpow_le_rpow hgeom.le (Real.geom_mean_le_arith_mean2_weighted ha hb hx.le hy.le hab) htheta
  have hpow : (x ^ a * y ^ b) ^ theta = (x ^ theta) ^ a * (y ^ theta) ^ b := by
    rw [Real.mul_rpow (by positivity) (by positivity), ← Real.rpow_mul hx.le, ← Real.rpow_mul hy.le,
      mul_comm a, mul_comm b, Real.rpow_mul hx.le, Real.rpow_mul hy.le]
  have hmean : (1 / x ^ theta) ^ a * (1 / y ^ theta) ^ b ≤ a * (1 / x ^ theta) + b * (1 / y ^ theta) :=
    Real.geom_mean_le_arith_mean2_weighted ha hb (by positivity) (by positivity) hab
  calc 1 / (a • x + b • y) ^ theta ≤ 1 / ((x ^ theta) ^ a * (y ^ theta) ^ b) :=
        one_div_le_one_div_of_le (by positivity) (hpow ▸ hle)
    _ = (1 / x ^ theta) ^ a * (1 / y ^ theta) ^ b := by
        rw [Real.div_rpow zero_le_one (by positivity), Real.div_rpow zero_le_one (by positivity), Real.one_rpow,
          Real.one_rpow, one_div_mul_one_div]
    _ ≤ a • (1 / x ^ theta) + b • (1 / y ^ theta) := hmean

theorem antitoneOn_rpow_neg {theta : ℝ} (htheta : 0 ≤ theta) :
    AntitoneOn (fun x : ℝ => 1 / x ^ theta) (Set.Ioi 0) := fun _ hx _ _ hxy =>
  one_div_le_one_div_of_le (Real.rpow_pos_of_pos hx theta) (Real.rpow_le_rpow (le_of_lt hx) hxy htheta)

namespace ZipfianGenerator

variable {theta : ℝ}

theorem zeta_eq_range (n : ℕ) : zeta Real.rpow n theta = ∑ i ∈ Finset.range n, 1 / ((i + 1 : ℕ) : ℝ) ^ theta := by
  induction n with
  | zero => rfl
  | succ n ih => rw [zeta_succ, ih, Finset.sum_range_succ, Real.rpow_eq_pow]

/-- The sum up to `n` is a mean of the power over the unit interval. -/
theorem zeta_eq_mean {n : ℕ} (hn : 0 < n) :
    zeta Real.rpow n theta = (n : ℝ) ^ (1 - theta) * rightMean (fun x => 1 / x ^ theta) n := by
  have hn' : (0 : ℝ) < n := Nat.cast_pos.mpr hn
  have hterm : ∀ i ∈ Finset.range n,
      1 / (((i + 1 : ℕ) : ℝ) / n) ^ theta = (n : ℝ) ^ theta * (1 / ((i + 1 : ℕ) : ℝ) ^ theta) := by
    intro i _
    rw [Real.div_rpow (Nat.cast_nonneg _) hn'.le, one_div_div, mul_one_div]
  have hpow : (n : ℝ) ^ theta ≠ 0 := (Real.rpow_pos_of_pos hn' theta).ne'
  rw [zeta_eq_range, rightMean, Finset.sum_congr rfl hterm, ← Finset.mul_sum, Real.rpow_sub hn', Real.rpow_one]
  field_simp

theorem zeta_pos {n : ℕ} (hn : 0 < n) : 0 < zeta Real.rpow n theta := by
  have hlt : zeta Real.rpow 0 theta < zeta Real.rpow n theta := zeta_strictMono theta hn
  exact hlt

theorem zeta_ratio_le (htheta : 0 ≤ theta) {m n : ℕ} (hm : 0 < m) (hmn : m ≤ n) :
    zeta Real.rpow m theta / zeta Real.rpow n theta ≤ ((m : ℝ) / n) ^ (1 - theta) := by
  have hm' : (0 : ℝ) < m := Nat.cast_pos.mpr hm
  have hn' : (0 : ℝ) < n := Nat.cast_pos.mpr (lt_of_lt_of_le hm hmn)
  have hmean := rightMean_mono (convexOn_rpow_neg htheta) (antitoneOn_rpow_neg htheta) hm hmn
  rw [div_le_iff₀ (zeta_pos (lt_of_lt_of_le hm hmn)), zeta_eq_mean hm, zeta_eq_mean (lt_of_lt_of_le hm hmn),
    Real.div_rpow hm'.le hn'.le, ← mul_assoc, div_mul_cancel₀ _ (Real.rpow_pos_of_pos hn' _).ne']
  exact mul_le_mul_of_nonneg_left hmean (Real.rpow_nonneg hm'.le _)

/-! ## `eta_` -/

variable {m count : ℕ} {g : ZipfianGenerator ℝ}

theorem eta_bounds (h0 : 0 < theta) (h1 : theta < 1) (hm : 3 ≤ m) (hcount : m ≤ count)
    (h : Grown Real.rpow m count theta g) : 0 < g.eta ∧ g.eta ≤ 1 := by
  have hm' : (0 : ℝ) < m := Nat.cast_pos.mpr (by omega)
  have hlt : (2 / m : ℝ) ^ (1 - theta) < 1 := by
    refine Real.rpow_lt_one (by positivity) ?_ (by linarith)
    rw [div_lt_one hm']
    exact_mod_cast hm
  have hpos : 0 < zeta Real.rpow count theta := zeta_pos (by omega)
  have hstrict : zeta Real.rpow 2 theta < zeta Real.rpow count theta := zeta_strictMono theta (by omega)
  have hden : 0 < 1 - zeta Real.rpow 2 theta / zeta Real.rpow count theta :=
    sub_pos.mpr ((div_lt_one hpos).mpr hstrict)
  have hgrow : zeta Real.rpow 2 theta / zeta Real.rpow count theta ≤ zeta Real.rpow 2 theta / zeta Real.rpow m theta :=
    div_le_div_of_nonneg_left (zeta_pos (by omega)).le (zeta_pos (by omega)) ((zeta_strictMono theta).monotone hcount)
  have hratio := zeta_ratio_le h0.le (m := 2) (n := m) (by omega) (by omega)
  rw [h.eta, Real.rpow_eq_pow]
  refine ⟨div_pos (by linarith) hden, ?_⟩
  rw [div_le_one hden]
  have hcast : ((2 : ℕ) : ℝ) = 2 := rfl
  rw [hcast] at hratio
  linarith

/-- With two items `eta_` has no share for the numbers behind them. -/
theorem eta_two (h : Grown Real.rpow 2 count theta g) : g.eta = 0 := by
  rw [h.eta, Real.rpow_eq_pow, Nat.cast_ofNat, div_self two_ne_zero, Real.one_rpow, sub_self, zero_div]

theorem zeta_two : zeta Real.rpow 2 theta = 1 + Real.rpow (1 / 2) theta := by
  have hinv : (1 / 2 : ℝ) ^ theta = 1 / 2 ^ theta := by rw [Real.div_rpow zero_le_one two_pos.le, Real.one_rpow]
  rw [zeta_eq_range, Finset.sum_range_succ, Finset.sum_range_one, Real.rpow_eq_pow, hinv]
  simp

/-! ## One draw -/

theorem sample_inRange {num : ℕ} {u : ℝ} (hnum : 2 ≤ num) (hbase : g.base + num < 2 ^ 64) (heta : 0 < g.eta ∧ g.eta ≤ 1)
    (halpha : 0 < g.alpha) (hu : 0 ≤ u) (hu' : u < 1) :
    g.base ≤ sample Real.rpow g num u ∧ sample Real.rpow g num u < g.base + num := by
  have hnum' : (0 : ℝ) < num := Nat.cast_pos.mpr (by omega)
  unfold sample
  dsimp only
  split
  · omega
  · split
    · rw [u64_of_lt (by omega)]
      omega
    · have hlow : 0 ≤ g.eta * u - g.eta + 1 := by nlinarith
      have hhigh : g.eta * u - g.eta + 1 < 1 := by nlinarith
      have hpow : (g.eta * u - g.eta + 1) ^ g.alpha < 1 := Real.rpow_lt_one hlow hhigh halpha
      have hnonneg : 0 ≤ (g.eta * u - g.eta + 1) ^ g.alpha := Real.rpow_nonneg hlow _
      have hge : g.base ≤ ⌊(g.base : ℝ) + num * Real.rpow (g.eta * u - g.eta + 1) g.alpha⌋₊ := by
        refine Nat.le_floor ?_
        rw [Real.rpow_eq_pow]
        exact le_add_of_nonneg_right (mul_nonneg hnum'.le hnonneg)
      have hlt : ⌊(g.base : ℝ) + num * Real.rpow (g.eta * u - g.eta + 1) g.alpha⌋₊ < g.base + num := by
        rw [Nat.floor_lt (by positivity), Real.rpow_eq_pow]
        push_cast
        nlinarith
      rw [u64_of_lt (by omega)]
      exact ⟨hge, hlt⟩

theorem sample_two {num : ℕ} {u : ℝ} (hzeta : g.zetaN = zeta Real.rpow 2 g.theta) (hnum : 2 ≤ num)
    (hbase : g.base + num < 2 ^ 64) (hu' : u < 1) :
    g.base ≤ sample Real.rpow g num u ∧ sample Real.rpow g num u < g.base + num := by
  have hpos : 0 < zeta Real.rpow 2 g.theta := zeta_pos two_pos
  have hsecond : u * g.zetaN < 1 + Real.rpow (1 / 2) g.theta := by
    rw [hzeta, ← zeta_two]
    nlinarith
  unfold sample
  dsimp only
  rw [if_pos hsecond]
  split
  · omega
  · rw [u64_of_lt (by omega)]
    omega

theorem sample_out {num : ℕ} (htheta : g.zeta2 = zeta Real.rpow 2 g.theta) (hlt : zeta Real.rpow 2 g.theta < g.zetaN)
    (heta : g.eta = 0) (hbase : g.base + num < 2 ^ 64) :
    sample Real.rpow g num (g.zeta2 / g.zetaN) = g.base + num := by
  have hpos : 0 < zeta Real.rpow 2 g.theta := zeta_pos two_pos
  have huz : g.zeta2 / g.zetaN * g.zetaN = 1 + Real.rpow (1 / 2) g.theta := by
    rw [div_mul_cancel₀ _ (hpos.trans hlt).ne', htheta, zeta_two]
  have hhalf : 0 < Real.rpow (1 / 2) g.theta := Real.rpow_pos_of_pos (by norm_num) _
  unfold sample
  dsimp only
  rw [huz, if_neg (by linarith), if_neg (lt_irrefl _), heta, zero_mul, sub_zero, zero_add, Real.rpow_eq_pow,
    Real.one_rpow, mul_one, ← Nat.cast_add, Nat.floor_natCast, u64_of_lt hbase]

/-! ## Every draw of a run -/

section
variable {K : Type} [DivisionRing K] [LinearOrder K] [FloorSemiring K] {pow : K → K → K}

omit [LinearOrder K] [FloorSemiring K] in
theorem recompute_base (g : ZipfianGenerator K) (num : ℕ) : (recompute pow g num).base = g.base := by
  unfold recompute
  split <;> rfl

theorem next_eq {g g' : ZipfianGenerator K} {num : ℕ} {u : K} (h : g.next pow num u = some g') :
    (2 ≤ num ∧ num < kMaxNumItems) ∧
      g' = { recompute pow g num with lastValue := sample pow (recompute pow g num) num u } := by
  unfold next at h
  split at h
  · rename_i hnum
    exact ⟨hnum, (Option.some.inj h).symm⟩
  · cases h

theorem nexts_base : ∀ {calls : List (ℕ × K)} {g g' : ZipfianGenerator K}, g.nexts pow calls = some g' →
    g'.base = g.base
  | [], _, _, h => by rw [← Option.some.inj h]
  | c :: calls, g, g', h => by
    obtain ⟨g₁, h₁, h₂⟩ := Option.bind_eq_some_iff.mp h
    rw [nexts_base h₂, (next_eq h₁).2]
    exact recompute_base g c.1

theorem nexts_calls : ∀ {calls : List (ℕ × K)} {g g' : ZipfianGenerator K}, g.nexts pow calls = some g' →
    ∀ c ∈ calls, 2 ≤ c.1 ∧ c.1 < kMaxNumItems
  | [], _, _, _ => fun _ hc => absurd hc List.not_mem_nil
  | c :: calls, g, g', h => by
    obtain ⟨g₁, h₁, h₂⟩ := Option.bind_eq_some_iff.mp h
    exact List.forall_mem_cons.mpr ⟨(next_eq h₁).1, nexts_calls h₂⟩

theorem grown_init {min max : ℕ} {theta u : K} {g : ZipfianGenerator K} (hmin : min ≤ max) (hmax : max < 2 ^ 64 - 1)
    (h : init pow min max theta u = some g) :
    Grown pow (max - min + 1) (max - min + 1) theta g ∧ g.base = min ∧ 2 ≤ max - min + 1 := by
  have hitems : u64 (u64Sub max min + 1) = max - min + 1 := by
    rw [u64Sub_of_le hmin (by omega)]
    exact u64_of_lt (by omega)
  rw [init, hitems] at h
  split at h
  · rename_i hm
    have hnew : Grown pow (max - min + 1) (max - min + 1) theta (construct pow (max - min + 1) min theta) :=
      ⟨rfl, rfl, rfl, rfl, rfl, rfl, rfl⟩
    obtain ⟨g', hg', hgrown⟩ := hnew.next hm u
    rw [h, Option.some.injEq] at hg'
    subst hg'
    rw [max_self] at hgrown
    refine ⟨hgrown, ?_, hm.1⟩
    rw [(next_eq h).2]
    exact recompute_base _ _
  · cases h

theorem next_iff_sample {g : ZipfianGenerator K} {num min : ℕ} {u : K} (hnum : 2 ≤ num ∧ num < kMaxNumItems) :
    (∃ g', g.next pow num u = some g' ∧ min ≤ g'.lastValue ∧ g'.lastValue < min + num) ↔
      min ≤ sample pow (recompute pow g num) num u ∧ sample pow (recompute pow g num) num u < min + num := by
  have hnext : g.next pow num u = some
      { recompute pow g num with lastValue := sample pow (recompute pow g num) num u } := if_pos hnum
  simp [hnext]

end

/-- Made for two numbers and asked for more, the generator has a draw that yields the number behind the last. -/
theorem grown_two_out (h : Grown Real.rpow 2 count theta g) (hcount : 2 < count) {num : ℕ}
    (hbase : g.base + num < 2 ^ 64) : ∃ u, 0 ≤ u ∧ u < 1 ∧ sample Real.rpow g num u = g.base + num := by
  have hlt : zeta Real.rpow 2 g.theta < g.zetaN := by
    rw [h.theta_eq, h.zetaN_eq]
    exact zeta_strictMono theta hcount
  have hpos : 0 < zeta Real.rpow 2 g.theta := zeta_pos two_pos
  have hzeta2 : g.zeta2 = zeta Real.rpow 2 g.theta := by rw [h.zeta2_eq, h.theta_eq]
  refine ⟨g.zeta2 / g.zetaN, ?_, ?_, sample_out hzeta2 hlt (eta_two h) hbase⟩
  · rw [hzeta2]
    exact (div_pos hpos (hpos.trans hlt)).le
  · rw [hzeta2]
    exact (div_lt_one (hpos.trans hlt)).mpr hlt

theorem grown_two_inRange (h : Grown Real.rpow 2 2 theta g) {num : ℕ} {u : ℝ} (hnum : 2 ≤ num)
    (hbase : g.base + num < 2 ^ 64) (hu : u < 1) :
    g.base ≤ sample Real.rpow g num u ∧ sample Real.rpow g num u < g.base + num :=
  sample_two (by rw [h.theta_eq, h.zetaN_eq]) hnum hbase hu

/-- Where a generator with the numbers `min` to `max` has arrived after the calls. -/
def Reached (min max : ℕ) (theta : ℝ) (calls : List (ℕ × ℝ)) (g : ZipfianGenerator ℝ) : Prop :=
  ∃ u g₀, init Real.rpow min max theta u = some g₀ ∧ g₀.nexts Real.rpow calls = some g

theorem Reached.grown {min max : ℕ} (hmin : min ≤ max) (hmax : max < 2 ^ 64 - 1) {calls : List (ℕ × ℝ)}
    (h : Reached min max theta calls g) :
    Grown Real.rpow (max - min + 1) (largest (max - min + 1) calls) theta g ∧ g.base = min ∧ 2 ≤ max - min + 1 := by
  obtain ⟨u₀, g₀, hinit, hcalls⟩ := h
  obtain ⟨hnew, hbase, hitems⟩ := grown_init hmin hmax hinit
  obtain ⟨g₁, hg₁, hgrown⟩ := hnew.nexts (nexts_calls hcalls)
  rw [hcalls, Option.some.injEq] at hg₁
  exact ⟨hg₁ ▸ hgrown, (nexts_base hcalls).trans hbase, hitems⟩

/-- **Which draws stay in range.** In exact arithmetic `Next(num)` yields one of the `num` numbers from
`min` on, whatever was asked for before, exactly if the generator was made for at least three
numbers or was never asked for more than two. -/
theorem next_inRange_iff {min max : ℕ} (hmin : min ≤ max) (hmax : max < 2 ^ 64 - 1) (h0 : 0 < theta) (h1 : theta < 1)
    {calls : List (ℕ × ℝ)} (hg : Reached min max theta calls g) {num : ℕ} (hnum : 2 ≤ num) (hnum' : num < kMaxNumItems)
    (hbase : min + num < 2 ^ 64) :
    (∀ u, 0 ≤ u → u < 1 → ∃ g', g.next Real.rpow num u = some g' ∧ min ≤ g'.lastValue ∧ g'.lastValue < min + num) ↔
      3 ≤ max - min + 1 ∨ num ≤ 2 ∧ ∀ c ∈ calls, c.1 ≤ 2 := by
  obtain ⟨hgrown, hgbase, hitems⟩ := hg.grown hmin hmax
  -- the generator that draws, with its number of items, the largest number asked for, and its base
  have hr := hgrown.recompute num
  have hrbase : (recompute Real.rpow g num).base = min :=
    (recompute_base g num).trans hgbase
  simp only [next_iff_sample (And.intro hnum hnum')]
  generalize recompute Real.rpow g num = r at hr hrbase
  rw [← hrbase] at hbase ⊢
  have halpha : 0 < r.alpha := by
    rw [hr.alpha_eq]
    exact one_div_pos.mpr (sub_pos.mpr h1)
  have hle := (le_largest (max - min + 1) calls).trans (le_max_left _ num)
  have hcount : Max.max (largest (max - min + 1) calls) num ≤ 2 ↔
      max - min + 1 ≤ 2 ∧ num ≤ 2 ∧ ∀ c ∈ calls, c.1 ≤ 2 := by
    rw [max_le_iff, largest_le_iff]
    tauto
  by_cases hthree : 3 ≤ max - min + 1
  · refine ⟨fun _ => Or.inl (hrbase ▸ hthree), fun _ u hu hu' => ?_⟩
    exact sample_inRange hnum hbase (eta_bounds h0 h1 hthree hle hr) halpha hu hu'
  · have htwo : max - min + 1 = 2 := by omega
    rw [or_iff_right (hrbase ▸ hthree)]
    constructor
    · intro hall
      by_contra hnot
      have hgt : 2 < Max.max (largest (max - min + 1) calls) num := by
        rw [← not_le, hcount]
        exact fun h => hnot h.2
      rw [htwo] at hr hgt
      obtain ⟨u, hu, hu', hout⟩ := grown_two_out hr hgt hbase
      exact absurd (hout ▸ (hall u hu hu').2) (lt_irrefl _)
    · intro hall u _ hu'
      have hmax : Max.max (largest (max - min + 1) calls) num = 2 :=
        le_antisymm (hcount.mpr ⟨htwo.le, hall⟩) (hnum.trans (le_max_right _ _))
      rw [hmax, htwo] at hr
      exact grown_two_inRange hr hnum hbase hu'

theorem exists_reached {m : ℕ} (hm : 2 ≤ m ∧ m < kMaxNumItems) (theta : ℝ) (calls : List (ℕ × ℝ))
    (hcalls : ∀ c ∈ calls, 2 ≤ c.1 ∧ c.1 < kMaxNumItems) : ∃ g, Reached 0 (m - 1) theta calls g := by
  obtain ⟨g₀, hg₀, hgrown⟩ := grown_ofItems Real.rpow hm theta 0
  obtain ⟨g, hg, _⟩ := hgrown.nexts hcalls
  have hlt : m < 2 ^ 64 := hm.2.trans_le (by decide)
  obtain ⟨n, rfl⟩ : ∃ n, m = n + 1 := ⟨m - 1, by omega⟩
  rw [ofItems, u64Pred_succ (by omega)] at hg₀
  exact ⟨g, 0, g₀, hg₀, hg⟩

theorem next_inRange_two_three :
    (∃ g, Reached 0 2 (1 / 2) [(5, 0)] g ∧ ∀ u, 0 ≤ u → u < 1 →
      ∃ g', g.next Real.rpow 4 u = some g' ∧ 0 ≤ g'.lastValue ∧ g'.lastValue < 0 + 4) ∧
    ∃ g, Reached 0 1 (1 / 2) [] g ∧ ¬ ∀ u, 0 ≤ u → u < 1 →
      ∃ g', g.next Real.rpow 3 u = some g' ∧ 0 ≤ g'.lastValue ∧ g'.lastValue < 0 + 3 := by
  obtain ⟨g, hg⟩ := exists_reached (m := 3) (by decide) (1 / 2) [(5, 0)] (by simp [kMaxNumItems])
  obtain ⟨f, hf⟩ := exists_reached (m := 2) (by decide) (1 / 2) [] (by simp)
  refine ⟨⟨g, hg, ?_⟩, f, hf, ?_⟩
  · exact (next_inRange_iff (by decide) (by decide) (by norm_num) (by norm_num) hg (by decide) (by decide)
      (by decide)).mpr (Or.inl (by decide))
  · rw [next_inRange_iff (by decide) (by decide) (by norm_num) (by norm_num) hf (by decide) (by decide) (by decide)]
    decide

end ZipfianGenerator

/-! ## The latest records -/

/-- What the skewed generator draws is what the key chooser of the model is allowed to draw. -/
theorem SkewedLatestGenerator.next_yields {theta : ℝ} (h0 : 0 < theta) (h1 : theta < 1) {m : ℕ} (hm : 3 ≤ m)
    (hm' : m < kMaxNumItems) {calls : List (ℕ × ℝ)} {g : SkewedLatestGenerator ℝ}
    (hg : ZipfianGenerator.Reached 0 (m - 1) theta calls g.zipfian) {last : ℕ} (hlast : 2 ≤ last)
    (hlast' : last < kMaxNumItems) {u : ℝ} (hu : 0 ≤ u) (hu' : u < 1) :
    ∃ g' sample, g.next Real.rpow last u = some g' ∧ KeyChooser.skewedLatest.Yields last sample ∧
      g'.last = KeyChooser.skewedLatest.next last sample := by
  have hbound : kMaxNumItems < 2 ^ 64 - 1 := by decide
  obtain ⟨z, hz, _, hlt⟩ := (ZipfianGenerator.next_inRange_iff (Nat.zero_le (m - 1)) (by omega) h0 h1 hg hlast hlast'
    (by omega)).mpr (Or.inl (by omega)) u hu hu'
  rw [Nat.zero_add] at hlt
  refine ⟨⟨z, u64Sub last z.lastValue⟩, z.lastValue, ?_, hlt, ?_⟩
  · rw [SkewedLatestGenerator.next, hz]
    rfl
  · exact u64Sub_of_le hlt.le (by omega)

end Ycsb
