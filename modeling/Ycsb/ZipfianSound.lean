import Mathlib.Algebra.BigOperators.Intervals
import Mathlib.Analysis.SpecialFunctions.Pow.Real
import Ycsb.Zipfian

/-!
# Growing a Zipfian generator

`Next` with a larger number extends `zeta_n_` by the missing terms, which gives
the sum for the new number. `Eta` reads `items_`, which keeps the first number,
so `eta_` is that of a new generator only while no number exceeds the first.
-/

namespace Ycsb

namespace ZipfianGenerator

section
variable {K : Type} [DivisionRing K] (pow : K → K → K)

theorem zetaFrom_append {a b c : ℕ} (hab : a ≤ b) (hbc : b ≤ c) (theta z : K) :
    zetaFrom pow b c theta (zetaFrom pow a b theta z) = zetaFrom pow a c theta z := by
  unfold zetaFrom
  rw [← List.foldl_append]
  have happend : List.range' (a + 1) (b - a) ++ List.range' (a + 1 + 1 * (b - a)) (c - b) =
      List.range' (a + 1) (b - a + (c - b)) := List.range'_append
  rw [show a + 1 + 1 * (b - a) = b + 1 by omega, show b - a + (c - b) = c - a by omega] at happend
  rw [happend]

theorem zetaFrom_zeta {a b : ℕ} (hab : a ≤ b) (theta : K) :
    zetaFrom pow a b theta (zeta pow a theta) = zeta pow b theta := zetaFrom_append pow (Nat.zero_le a) hab theta 0

theorem zeta_succ (num : ℕ) (theta : K) :
    zeta pow (num + 1) theta = zeta pow num theta + 1 / pow ((num + 1 : ℕ) : K) theta := by
  rw [← zetaFrom_zeta pow (Nat.le_succ num)]
  simp [zetaFrom]

theorem zeta_eq_sum (num : ℕ) (theta : K) :
    zeta pow num theta = ∑ i ∈ Finset.Icc 1 num, 1 / pow (i : K) theta := by
  induction num with
  | zero => rfl
  | succ num ih => rw [zeta_succ, ih, Finset.sum_Icc_succ_top (Nat.le_add_left 1 num)]

end

/-! ## What every `Next` keeps -/

/-- The largest number of items that the calls of `Next`, and the construction with `m`, are made with. -/
def largest {K : Type} (m : ℕ) (calls : List (ℕ × K)) : ℕ := calls.foldl (fun count c => max count c.1) m

theorem largest_le_iff {K : Type} {n : ℕ} : ∀ {calls : List (ℕ × K)} {m : ℕ},
    largest m calls ≤ n ↔ m ≤ n ∧ ∀ c ∈ calls, c.1 ≤ n
  | [], m => by simp [largest]
  | c :: calls, m => by
    have hcons : largest m (c :: calls) = largest (max m c.1) calls := rfl
    rw [hcons, largest_le_iff, max_le_iff, List.forall_mem_cons, and_assoc]

theorem le_largest {K : Type} (m : ℕ) (calls : List (ℕ × K)) : m ≤ largest m calls :=
  (largest_le_iff.mp le_rfl).1

theorem largest_lt {K : Type} {n m : ℕ} {calls : List (ℕ × K)} (hm : m < n) (hcalls : ∀ c ∈ calls, c.1 < n) :
    largest m calls < n := by
  have hle : largest m calls ≤ n - 1 :=
    largest_le_iff.mpr ⟨Nat.le_sub_one_of_lt hm, fun c hc => Nat.le_sub_one_of_lt (hcalls c hc)⟩
  omega

section
variable {K : Type} [DivisionRing K] (pow : K → K → K)

variable [LinearOrder K] [FloorSemiring K]

/-- A generator of `m` items whose largest number so far is `count`. -/
structure Grown (m count : ℕ) (theta : K) (g : ZipfianGenerator K) : Prop where
  items_eq : g.items = m
  theta_eq : g.theta = theta
  alpha_eq : g.alpha = 1 / (1 - theta)
  zeta2_eq : g.zeta2 = zeta pow 2 theta
  countForZeta_eq : g.countForZeta = count
  zetaN_eq : g.zetaN = zeta pow count theta
  eta_eq : g.eta = etaOf pow g

variable {pow} {m count : ℕ} {theta : K} {g : ZipfianGenerator K}

omit [LinearOrder K] [FloorSemiring K] in
theorem Grown.recompute (h : Grown pow m count theta g) (num : ℕ) :
    Grown pow m (max count num) theta (recompute pow g num) := by
  unfold ZipfianGenerator.recompute
  split
  · rename_i hlt
    rw [h.countForZeta_eq] at hlt
    rw [max_eq_right (le_of_lt hlt)]
    have hzeta : zetaFrom pow g.countForZeta num g.theta g.zetaN = zeta pow num theta := by
      rw [h.countForZeta_eq, h.theta_eq, h.zetaN_eq, zetaFrom_zeta pow (le_of_lt hlt)]
    exact ⟨h.items_eq, h.theta_eq, h.alpha_eq, h.zeta2_eq, rfl, hzeta, rfl⟩
  · rename_i hlt
    rw [h.countForZeta_eq] at hlt
    rw [max_eq_left (not_lt.mp hlt)]
    exact h

theorem Grown.next (h : Grown pow m count theta g) {num : ℕ} (hnum : 2 ≤ num ∧ num < kMaxNumItems) (u : K) :
    ∃ g', g.next pow num u = some g' ∧ Grown pow m (max count num) theta g' := by
  have hr := h.recompute num
  rw [ZipfianGenerator.next, if_pos hnum]
  exact ⟨_, rfl, hr.items_eq, hr.theta_eq, hr.alpha_eq, hr.zeta2_eq, hr.countForZeta_eq, hr.zetaN_eq, hr.eta_eq⟩

theorem Grown.nexts : ∀ {calls : List (ℕ × K)} {count : ℕ} {g : ZipfianGenerator K}, Grown pow m count theta g →
    (∀ c ∈ calls, 2 ≤ c.1 ∧ c.1 < kMaxNumItems) →
    ∃ g', g.nexts pow calls = some g' ∧ Grown pow m (largest count calls) theta g'
  | [], _, g, h, _ => ⟨g, rfl, h⟩
  | c :: calls, _, g, h, hcalls => by
    obtain ⟨g₁, hg₁, h₁⟩ := h.next (hcalls c List.mem_cons_self) c.2
    obtain ⟨g₂, hg₂, h₂⟩ := h₁.nexts fun c' hc' => hcalls c' (List.mem_cons_of_mem c hc')
    exact ⟨g₂, by rw [ZipfianGenerator.nexts, hg₁]; exact hg₂, h₂⟩

variable (pow) in
theorem grown_ofItems (hm : 2 ≤ m ∧ m < kMaxNumItems) (theta u : K) :
    ∃ g, ofItems pow m theta u = some g ∧ Grown pow m m theta g := by
  have hitems : u64 (u64Sub (u64Pred m) 0 + 1) = m := by
    have hlt : m < 2 ^ 64 := hm.2.trans_le (by decide)
    obtain ⟨n, rfl⟩ : ∃ n, m = n + 1 := ⟨m - 1, by omega⟩
    rw [u64Pred_succ (by omega), u64Sub_of_le (Nat.zero_le n) (by omega)]
    exact u64_of_lt hlt
  rw [ofItems, init, hitems, if_pos hm]
  have h : Grown pow m m theta (construct pow m 0 theta) := ⟨rfl, rfl, rfl, rfl, rfl, rfl, rfl⟩
  obtain ⟨g', hg', h'⟩ := h.next hm u
  rw [max_self] at h'
  exact ⟨g', hg', h'⟩

/-! ## A generator of the largest number -/

variable (pow)

/-- A generator of `m` items after the calls. -/
def grow (m : ℕ) (theta u : K) (calls : List (ℕ × K)) : Option (ZipfianGenerator K) :=
  (ofItems pow m theta u).bind fun g => g.nexts pow calls

def params (g : ZipfianGenerator K) : K × K × K × K := (g.zetaN, g.eta, g.alpha, g.zeta2)

theorem grown_grow (hm : 2 ≤ m ∧ m < kMaxNumItems) (theta u : K) {calls : List (ℕ × K)}
    (hcalls : ∀ c ∈ calls, 2 ≤ c.1 ∧ c.1 < kMaxNumItems) :
    ∃ g, grow pow m theta u calls = some g ∧ Grown pow m (largest m calls) theta g := by
  obtain ⟨g₀, hg₀, h₀⟩ := grown_ofItems pow hm theta u
  obtain ⟨g, hg, h⟩ := h₀.nexts hcalls
  exact ⟨g, by rw [grow, hg₀]; exact hg, h⟩

/-- The skewed generator drives its Zipfian one with the numbers it finds in `basis_`. -/
theorem nexts_skewedLatest : ∀ (calls : List (ℕ × K)) (g : SkewedLatestGenerator K),
    (g.nexts pow calls).map SkewedLatestGenerator.zipfian = g.zipfian.nexts pow calls
  | [], _ => rfl
  | c :: calls, g => by
    rw [SkewedLatestGenerator.nexts, SkewedLatestGenerator.next, ZipfianGenerator.nexts]
    cases g.zipfian.next pow c.1 c.2 with
    | none => rfl
    | some zipfian => exact nexts_skewedLatest calls ⟨zipfian, u64Sub c.1 zipfian.lastValue⟩

end

/-! ## Real powers -/

open Real in
theorem zeta_strictMono (theta : ℝ) : StrictMono fun num => zeta rpow num theta := by
  apply strictMono_nat_of_lt_succ
  intro num
  rw [zeta_succ]
  have hpos : 0 < ((num + 1 : ℕ) : ℝ) ^ theta := Real.rpow_pos_of_pos (by positivity) theta
  exact lt_add_of_pos_right _ (one_div_pos.mpr hpos)

/-- `zeta_2_` is less than `zeta_n_`. -/
theorem eta_denominator {theta : ℝ} {count : ℕ} (hcount : 3 ≤ count) :
    1 - zeta Real.rpow 2 theta / zeta Real.rpow count theta ≠ 0 := by
  have h2 : zeta Real.rpow 2 theta < zeta Real.rpow count theta := zeta_strictMono theta hcount
  have h0 : zeta Real.rpow 0 theta < zeta Real.rpow count theta := zeta_strictMono theta (by omega)
  have hpos : 0 < zeta Real.rpow count theta := h0
  exact ne_of_gt (sub_pos.mpr ((div_lt_one hpos).mpr h2))

/-- `eta_` tells the number of items. -/
theorem eta_inj {theta : ℝ} (htheta : theta < 1) {m n count : ℕ} (hm : 0 < m) (hn : 0 < n) (hcount : 3 ≤ count) :
    (1 - Real.rpow (2 / m) (1 - theta)) / (1 - zeta Real.rpow 2 theta / zeta Real.rpow count theta) =
      (1 - Real.rpow (2 / n) (1 - theta)) / (1 - zeta Real.rpow 2 theta / zeta Real.rpow count theta) ↔ m = n := by
  have hm' : (0 : ℝ) < m := Nat.cast_pos.mpr hm
  have hn' : (0 : ℝ) < n := Nat.cast_pos.mpr hn
  rw [div_left_inj' (eta_denominator hcount), sub_right_inj, Real.rpow_eq_pow, Real.rpow_eq_pow,
    Real.rpow_left_inj (by positivity) (by positivity) (by linarith),
    div_eq_div_iff (ne_of_gt hm') (ne_of_gt hn'), mul_right_inj' two_ne_zero, Nat.cast_inj, eq_comm]

/-- The calls leave what a new generator of the largest number has. -/
def GrowsLikeNew (m : ℕ) (theta u : ℝ) (calls : List (ℕ × ℝ)) (u' : ℝ) : Prop :=
  ∃ g f, grow Real.rpow m theta u calls = some g ∧ ofItems Real.rpow (largest m calls) theta u' = some f ∧
    g.countForZeta = largest m calls ∧ g.zetaN = ∑ i ∈ Finset.Icc 1 (largest m calls), 1 / (i : ℝ) ^ theta ∧
    g.params = f.params

theorem Grown.eta {m count : ℕ} {theta : ℝ} {g : ZipfianGenerator ℝ} (h : Grown Real.rpow m count theta g) : g.eta =
    (1 - Real.rpow (2 / m) (1 - theta)) / (1 - zeta Real.rpow 2 theta / zeta Real.rpow count theta) := by
  rw [h.eta_eq, etaOf, h.items_eq, h.theta_eq, h.zeta2_eq, h.zetaN_eq]

theorem Grown.params_eq_iff {m count : ℕ} {theta : ℝ} (htheta : theta < 1) {g f : ZipfianGenerator ℝ} (hm : 0 < m)
    (hcount : 3 ≤ count) (hg : Grown Real.rpow m count theta g) (hf : Grown Real.rpow count count theta f) :
    g.params = f.params ↔ m = count := by
  unfold params
  rw [hg.zetaN_eq, hf.zetaN_eq, hg.alpha_eq, hf.alpha_eq, hg.zeta2_eq, hf.zeta2_eq, hg.eta, hf.eta]
  simp only [Prod.mk.injEq, and_true, true_and]
  exact eta_inj htheta hm (by omega) hcount

/-- Only `eta_` can differ. -/
theorem growsLikeNew_iff_largest {m : ℕ} {theta : ℝ} (htheta : theta < 1) (hm : 3 ≤ m ∧ m < kMaxNumItems)
    {calls : List (ℕ × ℝ)} (hcalls : ∀ c ∈ calls, 3 ≤ c.1 ∧ c.1 < kMaxNumItems) (u u' : ℝ) :
    GrowsLikeNew m theta u calls u' ↔ m = largest m calls := by
  have hle := le_largest m calls
  have hlt := largest_lt hm.2 fun c hc => (hcalls c hc).2
  obtain ⟨g, hg, hgrown⟩ := grown_grow Real.rpow ⟨by omega, hm.2⟩ theta u fun c hc =>
    ⟨by have := (hcalls c hc).1; omega, (hcalls c hc).2⟩
  have hlargest : 2 ≤ largest m calls ∧ largest m calls < kMaxNumItems := ⟨by omega, hlt⟩
  obtain ⟨f, hf, hnew⟩ := grown_ofItems Real.rpow hlargest theta u'
  have hiff := hgrown.params_eq_iff htheta (by omega) (by omega) hnew
  constructor
  · rintro ⟨g', f', hg', hf', -, -, hparams⟩
    cases hg.symm.trans hg'
    cases hf.symm.trans hf'
    exact hiff.mp hparams
  · intro heq
    exact ⟨g, f, hg, hf, hgrown.countForZeta_eq, hgrown.zetaN_eq.trans (zeta_eq_sum _ _ _), hiff.mpr heq⟩

theorem growsLikeNew_iff {m : ℕ} {theta : ℝ} (htheta : 0 < theta ∧ theta < 1) (hm : 3 ≤ m ∧ m < kMaxNumItems)
    {calls : List (ℕ × ℝ)} (hcalls : ∀ c ∈ calls, 3 ≤ c.1 ∧ c.1 < kMaxNumItems) (u u' : ℝ) :
    GrowsLikeNew m theta u calls u' ↔ ∀ c ∈ calls, c.1 ≤ m := by
  rw [growsLikeNew_iff_largest htheta.2 hm hcalls]
  have hle := le_largest m calls
  constructor
  · intro heq
    exact (largest_le_iff.mp (le_of_eq heq.symm)).2
  · intro hcalls
    exact le_antisymm hle (largest_le_iff.mpr ⟨le_rfl, hcalls⟩)

theorem growsLikeNew_same : GrowsLikeNew 5 (1 / 2) 0 [(3, 1 / 4), (5, 1 / 2)] (1 / 3) :=
  (growsLikeNew_iff (by norm_num) (by decide) (by simp [kMaxNumItems]) 0 (1 / 3)).mpr (by simp)

theorem four_not_growsLikeNew : ¬ GrowsLikeNew 3 (1 / 2) 0 [(4, 0)] 0 := by
  rw [growsLikeNew_iff_largest (by norm_num) (by decide) (by simp [kMaxNumItems])]
  simp [largest]

end ZipfianGenerator

end Ycsb
