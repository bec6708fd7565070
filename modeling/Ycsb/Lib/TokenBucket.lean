import Mathlib.Data.Int.Init
import Mathlib.Tactic.Ring

/-!
# Token buckets

A bucket gains `rate` in each `unit` of time, rounded down at each refill, up to
`cap`. What was taken is paid by the time that has passed, but for the level; a
taker in debt that waits until the debt is paid has waited long enough, within
one tick.
-/

namespace Lib

structure Bucket where
  rate : ℤ
  cap : ℤ
  level : ℤ
  last : ℤ

namespace Bucket

variable (unit : ℤ)

def refill (k : Bucket) (now : ℤ) : Bucket :=
  { k with level := min k.cap (k.level + ((now - k.last) * k.rate).tdiv unit), last := now }

def take (k : Bucket) (n : ℤ) : Bucket := { k with level := k.level - n }

/-- How long a bucket in debt takes to fill up to zero. -/
def delay (k : Bucket) : ℤ := (-k.level * unit).tdiv k.rate

/-- Since `start`, `taken` was taken, and the time paid for it but for the level. -/
def Paid (start taken : ℤ) (k : Bucket) : Prop := (k.level + taken) * unit ≤ (k.last - start) * k.rate

variable {unit} {k : Bucket} {start taken now n : ℤ}

theorem tdiv_mul_le {a b : ℤ} (ha : 0 ≤ a) (hb : 0 < b) : a.tdiv b * b ≤ a := by
  rw [Int.tdiv_eq_ediv_of_nonneg ha]
  exact Int.ediv_mul_le a (ne_of_gt hb)

theorem lt_tdiv_add_one_mul {a b : ℤ} (ha : 0 ≤ a) (hb : 0 < b) : a < (a.tdiv b + 1) * b := by
  rw [Int.tdiv_eq_ediv_of_nonneg ha]
  exact Int.lt_ediv_add_one_mul_self a hb

theorem Paid.refill (hunit : 0 < unit) (hrate : 0 ≤ k.rate) (hnow : k.last ≤ now) (h : Paid unit start taken k) :
    Paid unit start taken (k.refill unit now) := by
  have hgain := tdiv_mul_le (Int.mul_nonneg (Int.sub_nonneg_of_le hnow) hrate) hunit
  have hmin := min_le_right k.cap (k.level + ((now - k.last) * k.rate).tdiv unit)
  unfold Paid at h ⊢
  unfold Bucket.refill
  dsimp only
  calc (min k.cap (k.level + ((now - k.last) * k.rate).tdiv unit) + taken) * unit
      ≤ (k.level + ((now - k.last) * k.rate).tdiv unit + taken) * unit :=
        Int.mul_le_mul_of_nonneg_right (Int.add_le_add_right hmin taken) (le_of_lt hunit)
    _ = (k.level + taken) * unit + ((now - k.last) * k.rate).tdiv unit * unit := by ring
    _ ≤ (k.last - start) * k.rate + (now - k.last) * k.rate := Int.add_le_add h hgain
    _ = (now - start) * k.rate := by ring

theorem Paid.take (h : Paid unit start taken k) : Paid unit start (taken + n) (k.take n) := by
  have heq : k.level - n + (taken + n) = k.level + taken := by ring
  unfold Paid Bucket.take at *
  dsimp only
  rw [heq]
  exact h

theorem Paid.of_nonneg (hunit : 0 < unit) (h : Paid unit start taken k) (hlevel : 0 ≤ k.level) :
    taken * unit ≤ (k.last - start) * k.rate :=
  le_trans (Int.mul_le_mul_of_nonneg_right (by omega) (le_of_lt hunit)) h

/-- In debt, all that was taken is paid for after the delay. -/
theorem Paid.of_delay (hunit : 0 < unit) (hrate : 0 < k.rate) (h : Paid unit start taken k) (hlevel : k.level < 0) :
    taken * unit ≤ (k.last + k.delay unit + 1 - start) * k.rate := by
  have hdebt : 0 ≤ -k.level * unit := Int.mul_nonneg (by omega) (le_of_lt hunit)
  have hwait := lt_tdiv_add_one_mul hdebt hrate
  unfold Paid at h
  unfold delay
  calc taken * unit = (k.level + taken) * unit + -k.level * unit := by ring
    _ ≤ (k.last - start) * k.rate + ((-k.level * unit).tdiv k.rate + 1) * k.rate := Int.add_le_add h (le_of_lt hwait)
    _ = (k.last + (-k.level * unit).tdiv k.rate + 1 - start) * k.rate := by ring

/-- A level below zero by more than what was taken is paid for at once. -/
theorem Paid.of_level (hunit : 0 < unit) (h : k.level + taken ≤ 0) : Paid unit k.last taken k := by
  unfold Paid
  rw [Int.sub_self, Int.zero_mul]
  exact Int.mul_nonpos_of_nonpos_of_nonneg h (le_of_lt hunit)

/-! ## The deepest debt -/

theorem delay_nonneg (hunit : 0 < unit) (hrate : 0 < k.rate) (hlevel : k.level < 0) : 0 ≤ k.delay unit :=
  Int.tdiv_nonneg (Int.mul_nonneg (by omega) (le_of_lt hunit)) (le_of_lt hrate)

theorem delay_mul_le (hunit : 0 < unit) (hrate : 0 < k.rate) (hlevel : k.level < 0) :
    k.delay unit * k.rate ≤ -k.level * unit :=
  tdiv_mul_le (Int.mul_nonneg (by omega) (le_of_lt hunit)) hrate

/-- A bucket that has waited out its debt is short of zero by the two roundings at most. -/
theorem refill_gt (hunit : 0 < unit) (hrate : 0 < k.rate) (hcap : 0 ≤ k.cap) (hnow : k.last ≤ now)
    (hwait : k.level < 0 → k.last + k.delay unit ≤ now) : -(unit + k.rate) < (k.refill unit now).level * unit := by
  have helapsed : 0 ≤ (now - k.last) * k.rate := Int.mul_nonneg (Int.sub_nonneg_of_le hnow) (le_of_lt hrate)
  have hround := lt_tdiv_add_one_mul helapsed hunit
  have hgain := Int.tdiv_nonneg helapsed (le_of_lt hunit)
  have hlevel : (k.refill unit now).level = min k.cap (k.level + ((now - k.last) * k.rate).tdiv unit) := rfl
  rw [hlevel]
  generalize ((now - k.last) * k.rate).tdiv unit = gain at hround hgain
  have hshort : -(unit + k.rate) < 0 := by omega
  by_cases hfull : k.cap ≤ k.level + gain
  · rw [min_eq_left hfull]
    exact lt_of_lt_of_le hshort (Int.mul_nonneg hcap (le_of_lt hunit))
  · rw [min_eq_right (le_of_lt (not_le.mp hfull))]
    by_cases hdebt : k.level < 0
    · have hwaited : (-k.level * unit).tdiv k.rate + 1 ≤ now - k.last + 1 := by
        have hw := hwait hdebt
        unfold delay at hw
        omega
      have hround' := lt_tdiv_add_one_mul (Int.mul_nonneg (by omega : 0 ≤ -k.level) (le_of_lt hunit)) hrate
      have hpaid := lt_of_lt_of_le hround' (Int.mul_le_mul_of_nonneg_right hwaited (le_of_lt hrate))
      calc -(unit + k.rate)
          < k.level * unit + ((now - k.last) * k.rate - unit) := by
            rw [Int.add_mul (now - k.last), Int.one_mul, Int.neg_mul] at hpaid
            omega
        _ ≤ k.level * unit + gain * unit := by
            rw [Int.add_mul, Int.one_mul] at hround
            omega
        _ = (k.level + gain) * unit := by ring
    · exact lt_of_lt_of_le hshort (Int.mul_nonneg (by omega) (le_of_lt hunit))

end Bucket

end Lib
