import Mathlib.Algebra.BigOperators.Group.Finset.Piecewise
import Mathlib.Order.Lattice

/-!
# Aggregates that several threads keep

A counter of fixed width lags the exact sum by what is still due, and a minimum
is reached once every value has had its turn. A maximum is a minimum of the
opposite order.
-/

namespace Lib

/-! ## Sums over threads -/

theorem sum_update {ι α : Type} [Fintype ι] [DecidableEq ι] (due : α → ℕ) (r : ι → α) (i : ι) (x : α) :
    ∑ j, due (Function.update r i x j) = ∑ j ∈ Finset.univ.erase i, due (r j) + due x := by
  rw [← Finset.sum_erase_add _ _ (Finset.mem_univ i), Function.update_self]
  congr 1
  exact Finset.sum_congr rfl fun j hj => by rw [Function.update_of_ne (Finset.ne_of_mem_erase hj)]

theorem sum_update_move {ι α M : Type} [AddCommMonoid M] [Fintype ι] [DecidableEq ι] (due : α → M) (r : ι → α) {i : ι}
    {x : α} {m : M} (h : due (r i) = m + due x) : m + ∑ j, due (Function.update r i x j) = ∑ j, due (r j) := by
  rw [← Finset.add_sum_erase _ _ (Finset.mem_univ i), ← Finset.add_sum_erase (Finset.univ) (fun j => due (r j))
    (Finset.mem_univ i), Function.update_self, h, add_assoc]
  congr 2
  exact Finset.sum_congr rfl fun j hj => by rw [Function.update_of_ne (Finset.ne_of_mem_erase hj)]

theorem sum_enter {ι α : Type} [Fintype ι] [DecidableEq ι] {due : α → ℕ} {r : ι → α} {i : ι} (hi : due (r i) = 0)
    (x : α) : ∑ j, due (Function.update r i x j) = ∑ j, due (r j) + due x := by
  rw [sum_update, ← Finset.sum_erase_add _ _ (Finset.mem_univ i), hi, Nat.add_zero]

theorem exists_enter {ι α : Type} [DecidableEq ι] {P : α → Prop} {r : ι → α} {i : ι} (hi : ¬ P (r i)) (x : α)
    (h : ∃ j, P (r j)) : ∃ j, P (Function.update r i x j) := by
  obtain ⟨j, hj⟩ := h
  refine ⟨j, ?_⟩
  rwa [Function.update_of_ne]
  intro hij
  exact hi (hij ▸ hj)

theorem exists_leave {ι α : Type} [DecidableEq ι] {P : α → Prop} {Q : Prop} {r : ι → α} {i : ι} {x : α}
    (hi : P (r i) → Q ∨ P x) (h : ∃ j, P (r j)) : Q ∨ ∃ j, P (Function.update r i x j) := by
  obtain ⟨j, hj⟩ := h
  by_cases hij : j = i
  · subst hij
    exact (hi hj).imp_right fun hx => ⟨j, by rwa [Function.update_self]⟩
  · exact Or.inr ⟨j, by rwa [Function.update_of_ne hij]⟩

/-! ## Counters -/

/-- A counter below `modulus`, and what has to be added to it yet, make up `total`. -/
def Booked (modulus cell due total : ℕ) : Prop := ∃ c, cell = c % modulus ∧ c + due = total

/-- Some of what is due is added to the counter. -/
def Pays (modulus cell cell' due due' : ℕ) : Prop :=
  due' = due ∧ cell' = cell ∨ ∃ x, due' + x = due ∧ cell' = (cell + x) % modulus

section
variable {modulus cell cell' due due' rest total : ℕ}

theorem Booked.zero : Booked modulus 0 0 0 := ⟨0, (Nat.zero_mod _).symm, rfl⟩

theorem Booked.call (h : Booked modulus cell due total) (x : ℕ) : Booked modulus cell (due + x) (total + x) := by
  obtain ⟨c, hc, rfl⟩ := h
  exact ⟨c, hc, (Nat.add_assoc c due x).symm⟩

theorem Booked.pay (h : Booked modulus cell (rest + due) total) (hpay : Pays modulus cell cell' due due') :
    Booked modulus cell' (rest + due') total := by
  rcases hpay with ⟨rfl, rfl⟩ | ⟨x, rfl, rfl⟩
  · exact h
  · obtain ⟨c, rfl, rfl⟩ := h
    exact ⟨c + x, Nat.mod_add_mod _ _ _, by omega⟩

theorem Booked.grows (h : Booked modulus cell (rest + due) total) (hlt : total < modulus)
    (hpay : Pays modulus cell cell' due due') : cell ≤ cell' := by
  rcases hpay with ⟨_, rfl⟩ | ⟨x, rfl, rfl⟩
  · exact le_rfl
  · obtain ⟨c, rfl, rfl⟩ := h
    rw [Nat.mod_eq_of_lt (by omega : c < modulus), Nat.mod_eq_of_lt (by omega)]
    exact Nat.le_add_right c x

theorem Booked.settled (h : Booked modulus cell 0 total) (hlt : total < modulus) : cell = total := by
  obtain ⟨c, rfl, rfl⟩ := h
  exact Nat.mod_eq_of_lt hlt

end

/-! ## Extrema -/

section
variable {α : Type} [LinearOrder α]

/-- `cell` is `top` or one of the values seen, and below all of them that are not `due`. -/
structure Converging (top cell : α) (seen : List α) (due : α → Prop) : Prop where
  attained : cell = top ∨ cell ∈ seen
  bound : ∀ x ∈ seen, cell ≤ x ∨ due x

variable {top cell cell' x : α} {seen : List α} {due due' : α → Prop}

theorem Converging.call {c : Prop} [Decidable c] (h : Converging top cell seen due) (hx : c → due' x)
    (hmono : ∀ y, due y → due' y) : Converging top cell (seen ++ if c then [x] else []) due' := by
  refine ⟨h.attained.imp_right (List.mem_append_left _), fun y hy => ?_⟩
  rcases List.mem_append.mp hy with hy | hy
  · exact (h.bound y hy).imp_right (hmono y)
  · by_cases hc : c
    · rw [if_pos hc, List.mem_singleton] at hy
      rw [hy]
      exact Or.inr (hx hc)
    · simp [hc] at hy

theorem Converging.lower (h : Converging top cell seen due) (hcell : cell' = cell ∨ cell' ≤ cell ∧ cell' ∈ seen)
    (hdue : ∀ y, due y → cell' ≤ y ∨ due' y) : Converging top cell' seen due' := by
  have hle : cell' ≤ cell := hcell.elim (fun h => h.le) fun h => h.1
  refine ⟨?_, fun y hy => ?_⟩
  · rcases hcell with rfl | ⟨_, hmem⟩
    · exact h.attained
    · exact Or.inr hmem
  · rcases h.bound y hy with hb | hd
    · exact Or.inl (hle.trans hb)
    · exact hdue y hd

theorem foldr_min_le : ∀ {seen : List α}, x ∈ seen → seen.foldr min top ≤ x
  | y :: seen, h => by
    rcases List.mem_cons.mp h with rfl | h
    · exact min_le_left _ _
    · exact (min_le_right _ _).trans (foldr_min_le h)

theorem foldr_min_le_top : ∀ (seen : List α), seen.foldr min top ≤ top
  | [] => le_rfl
  | _ :: seen => (min_le_right _ _).trans (foldr_min_le_top seen)

theorem le_foldr_min : ∀ {seen : List α}, cell ≤ top → (∀ x ∈ seen, cell ≤ x) → cell ≤ seen.foldr min top
  | [], ht, _ => ht
  | y :: _, ht, h =>
    le_min (h y List.mem_cons_self) (le_foldr_min ht fun x hx => h x (List.mem_cons_of_mem y hx))

theorem Converging.settled (h : Converging top cell seen due) (hnone : ∀ x, ¬ due x) (htop : ∀ x ∈ seen, x ≤ top) :
    cell = seen.foldr min top := by
  refine le_antisymm (le_foldr_min ?_ fun x hx => (h.bound x hx).resolve_right (hnone x)) ?_
  · exact h.attained.elim (fun h => h.le) (htop cell)
  · rcases h.attained with rfl | hmem
    · exact foldr_min_le_top seen
    · exact foldr_min_le hmem

end

end Lib
