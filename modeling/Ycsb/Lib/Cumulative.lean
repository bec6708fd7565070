import Mathlib.Algebra.Order.Group.Defs
import Mathlib.Algebra.BigOperators.Group.List.Basic
import Mathlib.Algebra.Order.BigOperators.Group.List

/-!
# Cumulative weights

The weights of a list, laid end to end, cut the interval up to their sum into one
slot for each.
-/

namespace Lib

section
variable {K : Type} [AddCommGroup K] [LinearOrder K] [IsOrderedAddMonoid K]

/-- The sum of the weights before position `k`. -/
def below (ws : List K) (k : ℕ) : K := (ws.take k).sum

omit [LinearOrder K] [IsOrderedAddMonoid K] in
@[simp] theorem below_zero (ws : List K) : below ws 0 = 0 := rfl

omit [LinearOrder K] [IsOrderedAddMonoid K] in
@[simp] theorem below_cons_succ (w : K) (ws : List K) (k : ℕ) : below (w :: ws) (k + 1) = w + below ws k :=
  List.sum_cons

omit [LinearOrder K] [IsOrderedAddMonoid K] in
theorem below_length (ws : List K) : below ws ws.length = ws.sum := by rw [below, List.take_length]

omit [LinearOrder K] [IsOrderedAddMonoid K] in
theorem below_succ {ws : List K} {k : ℕ} (hk : k < ws.length) : below ws (k + 1) = below ws k + ws[k] := by
  rw [below, List.sum_take_succ ws k hk]
  rfl

theorem below_nonneg {ws : List K} (hws : ∀ w ∈ ws, 0 ≤ w) (k : ℕ) : 0 ≤ below ws k :=
  List.sum_nonneg fun w hw => hws w (List.mem_of_mem_take hw)

theorem below_mono {ws : List K} (hws : ∀ w ∈ ws, 0 ≤ w) {j k : ℕ} (h : j ≤ k) : below ws j ≤ below ws k := by
  have hsplit : ws.take k = ws.take j ++ (ws.take k).drop j := by
    conv_lhs => rw [← List.take_append_drop j (ws.take k), List.take_take, min_eq_left h]
  have hrest : 0 ≤ ((ws.take k).drop j).sum :=
    List.sum_nonneg fun w hw => hws w (List.mem_of_mem_take (List.mem_of_mem_drop hw))
  rw [below, below, hsplit, List.sum_append]
  exact le_add_of_nonneg_right hrest

theorem below_le_sum {ws : List K} (hws : ∀ w ∈ ws, 0 ≤ w) {k : ℕ} (hk : k ≤ ws.length) : below ws k ≤ ws.sum :=
  below_length ws ▸ below_mono hws hk

/-- Every point below the sum is in a slot. -/
theorem exists_slot : ∀ {ws : List K} {x : K}, 0 ≤ x → x < ws.sum →
    ∃ k < ws.length, below ws k ≤ x ∧ x < below ws (k + 1)
  | [], x, h0, hx => absurd hx (not_lt.mpr h0)
  | w :: ws, x, h0, hx => by
    by_cases hw : x < w
    · exact ⟨0, Nat.succ_pos _, h0, by simpa using hw⟩
    · rw [List.sum_cons] at hx
      obtain ⟨k, hk, hle, hlt⟩ := exists_slot (sub_nonneg.mpr (not_lt.mp hw)) (sub_lt_iff_lt_add'.mpr hx)
      refine ⟨k + 1, Nat.succ_lt_succ hk, ?_, ?_⟩
      · rw [below_cons_succ]
        exact le_sub_iff_add_le'.mp hle
      · rw [below_cons_succ]
        exact sub_lt_iff_lt_add'.mp hlt

theorem slot_unique {ws : List K} (hws : ∀ w ∈ ws, 0 ≤ w) {x : K} {j k : ℕ} (hj : below ws j ≤ x)
    (hj' : x < below ws (j + 1)) (hk : below ws k ≤ x) (hk' : x < below ws (k + 1)) : j = k := by
  have hle : ∀ {a b : ℕ}, below ws b ≤ x → x < below ws (a + 1) → b ≤ a := by
    intro a b hb ha
    by_contra hab
    exact absurd (hb.trans_lt ha) (not_lt.mpr (below_mono hws (by omega)))
  exact le_antisymm (hle hj hk') (hle hk hj')

end

end Lib
