import Mathlib.Data.Int.ModEq
import Mathlib.Data.Nat.Bitwise
import Mathlib.Tactic.LinearCombination
import Ycsb.Workload

/-!
# The key hash on 32-bit numbers

Each turn of `FNVHash64` adds a small number to the hash and multiplies it by
the prime. Two numbers below 2^32 with one hash give a polynomial with small
coefficients that vanishes at the prime; such a polynomial is zero.
-/

namespace Ycsb

open Lib

namespace utils

def octet (val i : ℕ) : ℕ := val / 256 ^ i % 256

def absorb (hash octet : ℕ) : ℕ := u64 ((hash ^^^ octet) * kFNVPrime64)

theorem octet_lt (val i : ℕ) : octet val i < 256 := Nat.mod_lt _ (by decide)

theorem fnvStep_eq (hash val i : ℕ) :
    fnvStep (hash, val / 256 ^ i) = (absorb hash (octet val i), val / 256 ^ (i + 1)) := by
  have hand : val / 256 ^ i &&& 0x00ff = octet val i := Nat.and_two_pow_sub_one_eq_mod _ 8
  have hshift : (val / 256 ^ i) >>> 8 = val / 256 ^ (i + 1) := by
    rw [Nat.shiftRight_eq_div_pow, Nat.div_div_eq_div_mul, Nat.pow_succ 256 i]
  simp only [fnvStep, hand, hshift, absorb]

theorem repeat_fnvStep (hash val : ℕ) : ∀ (n : ℕ), Nat.repeat fnvStep n (hash, val) =
    ((List.range n).foldl (fun hash i => absorb hash (octet val i)) hash, val / 256 ^ n)
  | 0 => by simp [Nat.repeat]
  | n + 1 => by rw [Nat.repeat, repeat_fnvStep hash val n, fnvStep_eq, List.range_succ, List.foldl_concat]

theorem fnvHash64_eq (val : ℕ) :
    fnvHash64 val = (List.range 8).foldl (fun hash i => absorb hash (octet val i)) kFNVOffsetBasis64 :=
  congrArg Prod.fst (repeat_fnvStep kFNVOffsetBasis64 val 8)

/-! ## One octet -/

theorem xor_octet (hash : ℕ) {o : ℕ} (ho : o < 256) : (hash ^^^ o) / 256 = hash / 256 := by
  have h := Nat.shiftRight_xor_distrib (a := hash) (b := o) (i := 8)
  simp only [Nat.shiftRight_eq_div_pow] at h
  rw [show (256 : ℕ) = 2 ^ 8 from rfl, h, Nat.div_eq_of_lt (show o < 2 ^ 8 from ho), Nat.xor_zero]

theorem absorb_modEq (hash o : ℕ) : (absorb hash o : ℤ) ≡ (hash ^^^ o : ℕ) * kFNVPrime64 [ZMOD 2 ^ 64] := by
  rw [absorb, u64, Int.natCast_mod, Int.natCast_mul]
  exact Int.mod_modEq _ _

/-- What one octet on either side adds to the difference of two hashes. -/
theorem absorb_apart (x y : ℕ) {a b : ℕ} (ha : a < 256) (hb : b < 256) :
    ∃ f : ℤ, (-510 ≤ f ∧ f ≤ 510) ∧ (absorb x a : ℤ) - absorb y b ≡ (x - y + f) * kFNVPrime64 [ZMOD 2 ^ 64] ∧
      (x = y → f = 0 → a = b) := by
  have hx := xor_octet x ha
  have hy := xor_octet y hb
  refine ⟨(x ^^^ a : ℕ) - (y ^^^ b : ℕ) - (x - y), by omega, ?_, fun he hf => ?_⟩
  · rw [add_sub_cancel, sub_mul]
    exact (absorb_modEq x a).sub (absorb_modEq y b)
  · subst he
    have heq : x ^^^ a = x ^^^ b := by omega
    exact Nat.xor_right_injective heq

theorem absorb_lt (hash o : ℕ) : absorb hash o < 2 ^ 64 := Nat.mod_lt _ (Nat.two_pow_pos 64)

theorem absorb_zero_injective {hash hash' : ℕ} (h : hash < 2 ^ 64) (h' : hash' < 2 ^ 64)
    (he : absorb hash 0 = absorb hash' 0) : hash = hash' := by
  simp only [absorb, Nat.xor_zero] at he
  have hmod : hash ≡ hash' [MOD 2 ^ 64] := Nat.ModEq.cancel_right_of_coprime (by decide) he
  exact hmod.eq_of_lt_of_lt h h'

/-! ## Four octets -/

theorem quotients {e f g k : ℤ} (he : -510 ≤ e ∧ e ≤ 510) (hf : -510 ≤ f ∧ f ≤ 510) (hg : -510 ≤ g ∧ g ≤ 510)
    (hk : -510 ≤ k ∧ k ≤ 510) (h : ((e * 435 + f) * 435 + g) * 435 + k = 0) :
    ∃ r q : ℤ, f = -435 * e - r ∧ g = 435 * r - q ∧ k = 435 * q ∧
      (-1 ≤ e ∧ e ≤ 1) ∧ (-1 ≤ r ∧ r ≤ 1) ∧ -1 ≤ q ∧ q ≤ 1 := by
  obtain ⟨q, rfl⟩ : ∃ q, k = 435 * q := ⟨-((e * 435 + f) * 435 + g), by omega⟩
  have hq : -1 ≤ q ∧ q ≤ 1 := by omega
  obtain ⟨r, rfl⟩ : ∃ r, g = 435 * r - q := ⟨-(e * 435 + f), by omega⟩
  have hr : -1 ≤ r ∧ r ≤ 1 := by omega
  obtain rfl : f = -435 * e - r := by omega
  exact ⟨r, q, rfl, rfl, rfl, by omega, hr, hq⟩

/-- Modulo 2^64 a polynomial at `2^40 + 435` is its value plus 2^40 times its derivative, at 435. -/
theorem value_derivative {e f g k : ℤ} (he : -510 ≤ e ∧ e ≤ 510) (hf : -510 ≤ f ∧ f ≤ 510)
    (hg : -510 ≤ g ∧ g ≤ 510) (hk : -510 ≤ k ∧ k ≤ 510)
    (h : ((e * kFNVPrime64 + f) * kFNVPrime64 + g) * kFNVPrime64 + k ≡ 0 [ZMOD 2 ^ 64]) :
    ((e * 435 + f) * 435 + g) * 435 + k = 0 ∧ ∃ y, e * 567675 + f * 870 + g = 2 ^ 24 * y := by
  have hp : (kFNVPrime64 : ℤ) = 2 ^ 40 + 435 := by norm_num [kFNVPrime64]
  obtain ⟨m, hm⟩ := h.symm.dvd
  rw [hp, sub_zero] at hm
  have htaylor : (((e * 435 + f) * 435 + g) * 435 + k) + 2 ^ 40 * (e * 567675 + f * 870 + g) =
      2 ^ 64 * (m - 2 ^ 16 * (e * 1305 + f) - 2 ^ 56 * e) := by linear_combination hm
  generalize m - 2 ^ 16 * (e * 1305 + f) - 2 ^ 56 * e = y at htaylor
  have hbound : -(2 ^ 39) ≤ ((e * 435 + f) * 435 + g) * 435 + k ∧ ((e * 435 + f) * 435 + g) * 435 + k ≤ 2 ^ 39 := by
    omega
  generalize ((e * 435 + f) * 435 + g) * 435 + k = value at htaylor hbound ⊢
  generalize e * 567675 + f * 870 + g = derivative at htaylor ⊢
  have hvalue : value = 0 := by omega
  exact ⟨hvalue, y, by omega⟩

theorem small_root {e f g k : ℤ} (he : -510 ≤ e ∧ e ≤ 510) (hf : -510 ≤ f ∧ f ≤ 510) (hg : -510 ≤ g ∧ g ≤ 510)
    (hk : -510 ≤ k ∧ k ≤ 510) (h : ((e * kFNVPrime64 + f) * kFNVPrime64 + g) * kFNVPrime64 + k ≡ 0 [ZMOD 2 ^ 64]) :
    e = 0 ∧ f = 0 ∧ g = 0 ∧ k = 0 := by
  obtain ⟨hroot, y, hy⟩ := value_derivative he hf hg hk h
  obtain ⟨r, q, rfl, rfl, rfl, he', hr, hq⟩ := quotients he hf hg hk hroot
  have hy0 : y = 0 := by omega
  subst hy0
  obtain ⟨rfl, rfl, rfl⟩ : e = 0 ∧ r = 0 ∧ q = 0 := by omega
  simp

theorem prime_cancel {x : ℤ} (h : x * kFNVPrime64 ≡ 0 [ZMOD 2 ^ 64]) : x ≡ 0 [ZMOD 2 ^ 64] :=
  Int.modEq_zero_iff_dvd.mpr (Int.dvd_of_dvd_mul_left_of_gcd_one (Int.modEq_zero_iff_dvd.mp h) rfl)

theorem absorb4_injective {hash a b c d a' b' c' d' : ℕ} (ha : a < 256) (hb : b < 256) (hc : c < 256) (hd : d < 256)
    (ha' : a' < 256) (hb' : b' < 256) (hc' : c' < 256) (hd' : d' < 256)
    (h : absorb (absorb (absorb (absorb hash a) b) c) d = absorb (absorb (absorb (absorb hash a') b') c') d') :
    a = a' ∧ b = b' ∧ c = c' ∧ d = d' := by
  obtain ⟨e, he, h1, hea⟩ := absorb_apart hash hash ha ha'
  obtain ⟨f, hf, h2, hfb⟩ := absorb_apart (absorb hash a) (absorb hash a') hb hb'
  obtain ⟨g, hg, h3, hgc⟩ := absorb_apart (absorb (absorb hash a) b) (absorb (absorb hash a') b') hc hc'
  obtain ⟨k, hk, h4, hkd⟩ :=
    absorb_apart (absorb (absorb (absorb hash a) b) c) (absorb (absorb (absorb hash a') b') c') hd hd'
  rw [sub_self, zero_add] at h1
  rw [h, sub_self] at h4
  have hroot : ((e * kFNVPrime64 + f) * kFNVPrime64 + g) * kFNVPrime64 + k ≡ 0 [ZMOD 2 ^ 64] := by
    have h2' := h2.trans ((h1.add_right f).mul_right _)
    have h3' := h3.trans ((h2'.add_right g).mul_right _)
    exact ((h3'.add_right k).symm).trans (prime_cancel h4.symm)
  obtain ⟨rfl, rfl, rfl, rfl⟩ := small_root he hf hg hk hroot
  obtain rfl := hea rfl rfl
  obtain rfl := hfb rfl rfl
  obtain rfl := hgc rfl rfl
  exact ⟨rfl, rfl, rfl, hkd rfl rfl⟩

/-! ## Numbers below 2^32 -/

theorem octet_of_lt {val i : ℕ} (hval : val < 2 ^ 32) (hi : 4 ≤ i) : octet val i = 0 := by
  have hle : 256 ^ 4 ≤ 256 ^ i := Nat.pow_le_pow_right (by decide) hi
  rw [octet, Nat.div_eq_of_lt (Nat.lt_of_lt_of_le hval hle), Nat.zero_mod]

theorem octets_injective {m n : ℕ} (hm : m < 2 ^ 32) (hn : n < 2 ^ 32)
    (h : octet m 0 = octet n 0 ∧ octet m 1 = octet n 1 ∧ octet m 2 = octet n 2 ∧ octet m 3 = octet n 3) : m = n := by
  simp only [octet] at h
  omega

theorem foldl_range8 {α : Type} (f : α → ℕ → α) (x : α) :
    (List.range 8).foldl f x = f (f (f (f (f (f (f (f x 0) 1) 2) 3) 4) 5) 6) 7 := rfl

theorem fnvHash64_of_lt {n : ℕ} (hn : n < 2 ^ 32) : fnvHash64 n = absorb (absorb (absorb (absorb
    (absorb (absorb (absorb (absorb kFNVOffsetBasis64 (octet n 0)) (octet n 1)) (octet n 2)) (octet n 3)) 0) 0) 0) 0 := by
  rw [fnvHash64_eq, foldl_range8, octet_of_lt hn (le_refl 4), octet_of_lt hn (Nat.le_succ 4),
    octet_of_lt hn (Nat.le_add_right 4 2), octet_of_lt hn (Nat.le_add_right 4 3)]

/-- The last four turns absorb nothing; they are multiplications by an odd number. -/
theorem absorb_zeros_injective {x y : ℕ} (hx : x < 2 ^ 64) (hy : y < 2 ^ 64)
    (h : absorb (absorb (absorb (absorb x 0) 0) 0) 0 = absorb (absorb (absorb (absorb y 0) 0) 0) 0) : x = y := by
  have h1 := absorb_zero_injective (absorb_lt _ _) (absorb_lt _ _) h
  have h2 := absorb_zero_injective (absorb_lt _ _) (absorb_lt _ _) h1
  have h3 := absorb_zero_injective (absorb_lt _ _) (absorb_lt _ _) h2
  exact absorb_zero_injective hx hy h3

theorem fnvHash64_injOn : Set.InjOn fnvHash64 {n | n < 2 ^ 32} := by
  intro m hm n hn h
  rw [fnvHash64_of_lt hm, fnvHash64_of_lt hn] at h
  have h4 := absorb_zeros_injective (absorb_lt _ _) (absorb_lt _ _) h
  exact octets_injective hm hn (absorb4_injective (octet_lt m 0) (octet_lt m 1) (octet_lt m 2) (octet_lt m 3)
    (octet_lt n 0) (octet_lt n 1) (octet_lt n 2) (octet_lt n 3) h4)

end utils

end Ycsb
