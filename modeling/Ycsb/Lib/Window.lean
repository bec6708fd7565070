import Mathlib.Order.Bounds.Basic
import Mathlib.Algebra.Ring.Nat
import Mathlib.Data.Fin.Basic
import Mathlib.Data.Set.Insert
import Mathlib.Logic.Function.Basic

/-!
# Low-water marks and cyclic windows

A set of numbers grows from `s` upward, in any order. Its low-water mark is the
end of the unbroken stretch at `s`. A cyclic window of `w` bits stands for the
set on the `w` numbers above the mark.
-/

namespace Lib

/-! ## Marks -/

/-- The ends of unbroken stretches of `A` from `s`; `s - 1` is the empty stretch. -/
def marks (A : Set ℕ) (s : ℕ) : Set ℕ := {L | s ≤ L + 1 ∧ ∀ v, s ≤ v → v ≤ L → v ∈ A}

theorem isGreatest_marks {A : Set ℕ} {s L : ℕ} (hL : L ∈ marks A s) (hn : L + 1 ∉ A) :
    IsGreatest (marks A s) L := by
  refine ⟨hL, fun L' hL' => ?_⟩
  rcases Nat.lt_or_ge L L' with h | h
  · exact absurd (hL'.2 (L + 1) hL.1 h) hn
  · exact h

theorem marks_extend {A : Set ℕ} {s L L' : ℕ} (hL : L ∈ marks A s) (hle : L ≤ L')
    (hnew : ∀ v, L < v → v ≤ L' → v ∈ A) : L' ∈ marks A s := by
  refine ⟨le_trans hL.1 (Nat.succ_le_succ hle), fun v hs hv => ?_⟩
  rcases Nat.lt_or_ge L v with h | h
  · exact hnew v h hv
  · exact hL.2 v hs h

theorem marks_mono {A B : Set ℕ} {s L : ℕ} (h : A ⊆ B) (hL : L ∈ marks A s) : L ∈ marks B s :=
  ⟨hL.1, fun v hs hv => h (hL.2 v hs hv)⟩

/-! ## Windows -/

section
variable {w : ℕ} [NeZero w]

theorem slot_inj {L i j : ℕ} (hi : L < i) (hiw : i ≤ L + w) (hj : L < j) (hjw : j ≤ L + w)
    (h : Fin.ofNat w i = Fin.ofNat w j) : i = j := by
  have hmod : i % w = j % w := congrArg Fin.val h
  have hi' := Nat.div_add_mod i w
  have hj' := Nat.div_add_mod j w
  rcases Nat.lt_trichotomy (i / w) (j / w) with hd | hd | hd
  · have := Nat.mul_le_mul_left w (Nat.succ_le_of_lt hd)
    rw [Nat.mul_succ] at this
    omega
  · rw [hd] at hi'; omega
  · have := Nat.mul_le_mul_left w (Nat.succ_le_of_lt hd)
    rw [Nat.mul_succ] at this
    omega

theorem slot_surj (L : ℕ) (k : Fin w) : ∃ i, L < i ∧ i ≤ L + w ∧ Fin.ofNat w i = k := by
  have hw : 0 < w := Nat.pos_of_ne_zero (NeZero.ne w)
  have hk := k.isLt
  -- the distance from `L + 1` to the next number with slot `k`
  let d := (k.val + (w - (L + 1) % w)) % w
  have hd : d < w := Nat.mod_lt _ hw
  have hm := Nat.mod_lt (L + 1) hw
  refine ⟨L + 1 + d, by omega, by omega, Fin.ext ?_⟩
  change (L + 1 + d) % w = k.val
  have h1 : (L + 1 + d) % w = ((L + 1) % w + (k.val + (w - (L + 1) % w))) % w := by
    rw [Nat.add_mod]
    simp only [d, Nat.mod_mod]
    rw [← Nat.add_mod, Nat.mod_add_mod]
  have h2 : (L + 1) % w + (k.val + (w - (L + 1) % w)) = k.val + w := by omega
  rw [h1, h2, Nat.add_mod_right, Nat.mod_eq_of_lt hk]

/-- The bits tell, for each number of the window above `L`, whether it is in `A`. -/
def Stands (bits : Fin w → Bool) (A : Set ℕ) (L : ℕ) : Prop :=
  ∀ i, L < i → i ≤ L + w → (bits (Fin.ofNat w i) = true ↔ i ∈ A)

theorem Stands.unique {bits bits' : Fin w → Bool} {A : Set ℕ} {L : ℕ} (h : Stands bits A L)
    (h' : Stands bits' A L) : bits = bits' := by
  funext k
  obtain ⟨i, hi, hiw, rfl⟩ := slot_surj L k
  exact Bool.eq_iff_iff.mpr ((h i hi hiw).trans (h' i hi hiw).symm)

theorem Stands.set {bits : Fin w → Bool} {A : Set ℕ} {L v : ℕ} (h : Stands bits A L) (hv : L < v)
    (hvw : v ≤ L + w) : Stands (Function.update bits (Fin.ofNat w v) true) (insert v A) L := by
  intro i hi hiw
  by_cases hiv : i = v
  · subst hiv; simp
  · have hne : Fin.ofNat w i ≠ Fin.ofNat w v := fun e => hiv (slot_inj hi hiw hv hvw e)
    rw [Function.update_of_ne hne, h i hi hiw, Set.mem_insert_iff]
    exact ⟨Or.inr, fun e => e.resolve_left hiv⟩

theorem Stands.advance {bits : Fin w → Bool} {A : Set ℕ} {L : ℕ} (h : Stands bits A L)
    (hn : L + 1 + w ∉ A) : Stands (Function.update bits (Fin.ofNat w (L + 1)) false) A (L + 1) := by
  intro i hi hiw
  have hw : 0 < w := Nat.pos_of_ne_zero (NeZero.ne w)
  rcases Nat.lt_or_ge i (L + 1 + w) with hlt | hge
  · have hne : Fin.ofNat w i ≠ Fin.ofNat w (L + 1) := fun e => by
      have := slot_inj (L := L) (by omega) (by omega) (by omega) (by omega) e
      omega
    rw [Function.update_of_ne hne]
    exact h i (by omega) (by omega)
  · have hi' : i = L + 1 + w := by omega
    subst hi'
    have he : Fin.ofNat w (L + 1 + w) = Fin.ofNat w (L + 1) := Fin.ext (Nat.add_mod_right _ _)
    rw [he, Function.update_self]
    exact ⟨fun e => absurd e (by decide), fun e => absurd e hn⟩

theorem slot_alias {L v : ℕ} (hv : L + w < v) :
    ∃ i, L < i ∧ i ≤ L + w ∧ Fin.ofNat w i = Fin.ofNat w v ∧ i ≠ v := by
  obtain ⟨i, hi, hiw, he⟩ := slot_surj L (Fin.ofNat w v)
  exact ⟨i, hi, hiw, he, by omega⟩

end

end Lib
