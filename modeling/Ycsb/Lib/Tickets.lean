import Mathlib.Data.Fintype.Card
import Mathlib.Data.List.Nodup
import Mathlib.Data.List.Perm.Lattice
import Mathlib.Logic.Function.Basic
import Mathlib.Order.Interval.Finset.Nat
import Mathlib.Tactic.Common
import Ycsb.Lib.Threads

/-!
# Tickets

A counter hands out consecutive numbers. Each is held by one holder until it is
spent, and it is spent once.
-/

namespace Lib

variable {ι : Type} {lo hi : ℕ} {held : ι → Option ℕ} {spent : List ℕ}

structure Tickets (lo hi : ℕ) (held : ι → Option ℕ) (spent : List ℕ) : Prop where
  le : lo ≤ hi
  nodup : spent.Nodup
  cover : ∀ n, (n ∈ spent ∨ ∃ i, held i = some n) ↔ lo ≤ n ∧ n < hi
  fresh : ∀ i n, held i = some n → n ∉ spent
  single : ∀ i j n, held i = some n → held j = some n → i = j

namespace Tickets

theorem start (h : ∀ i, held i = none) : Tickets lo lo held [] where
  le := Nat.le_refl lo
  nodup := List.nodup_nil
  cover n := by
    simp only [List.not_mem_nil, h, false_or]
    constructor
    · intro ⟨_, hn⟩
      cases hn
    · intro hn
      omega
  fresh _ _ _ := List.not_mem_nil
  single i _ _ hi _ := by rw [h] at hi; cases hi

theorem next_new (h : Tickets lo hi held spent) : hi ∉ spent ∧ ∀ i, held i ≠ some hi :=
  ⟨fun hm => Nat.lt_irrefl _ ((h.cover hi).mp (Or.inl hm)).2,
    fun i hm => Nat.lt_irrefl _ ((h.cover hi).mp (Or.inr ⟨i, hm⟩)).2⟩

variable [DecidableEq ι] {i : ι}

theorem draw (h : Tickets lo hi held spent) (hnone : held i = none) :
    Tickets lo (hi + 1) (Function.update held i (some hi)) spent := by
  obtain ⟨hout, hnew⟩ := h.next_new
  have hle := h.le
  refine ⟨by omega, h.nodup, fun n => ?_, fun j n hj => ?_, apart_update (P := fun n a => a = some n) ?_ h.single⟩
  · rw [Function.exists_update_iff held fun _ a => a = some n]
    have hcover := h.cover n
    constructor
    · rintro (hm | hn | ⟨j, _, hj⟩)
      · have := hcover.mp (Or.inl hm)
        omega
      · have := Option.some.inj hn
        omega
      · have := hcover.mp (Or.inr ⟨j, hj⟩)
        omega
    · intro hn
      -- a number is the one just drawn, or was drawn before
      by_cases hlast : n = hi
      · exact Or.inr (Or.inl (congrArg some hlast.symm))
      · rcases hcover.mpr (by omega) with hm | ⟨j, hj⟩
        · exact Or.inl hm
        · refine Or.inr (Or.inr ⟨j, ?_, hj⟩)
          rintro rfl
          rw [hnone] at hj
          cases hj
  · by_cases hji : j = i
    · subst hji
      rw [Function.update_self] at hj
      exact Option.some.inj hj ▸ hout
    · rw [Function.update_of_ne hji] at hj
      exact h.fresh j n hj
  · intro n hn j _ hj
    exact hnew j (hj.trans hn.symm)

theorem spend {n : ℕ} (h : Tickets lo hi held spent) (hheld : held i = some n) :
    Tickets lo hi (Function.update held i none) (spent ++ [n]) := by
  have hkeep : ∀ {j m}, Function.update held i none j = some m → j ≠ i ∧ held j = some m := by
    intro j m hj
    by_cases hji : j = i
    · subst hji
      rw [Function.update_self] at hj
      cases hj
    · rw [Function.update_of_ne hji] at hj
      exact ⟨hji, hj⟩
  refine ⟨h.le, ?_, fun m => ?_, fun j m hj hm => ?_, fun j k m hj hk => h.single j k m (hkeep hj).2 (hkeep hk).2⟩
  · rw [List.nodup_append_comm]
    exact List.nodup_cons.mpr ⟨h.fresh i n hheld, h.nodup⟩
  · rw [← h.cover m, List.mem_append, List.mem_singleton]
    constructor
    · rintro ((hm | rfl) | ⟨j, hj⟩)
      · exact Or.inl hm
      · exact Or.inr ⟨i, hheld⟩
      · exact Or.inr ⟨j, (hkeep hj).2⟩
    · rintro (hm | ⟨j, hj⟩)
      · exact Or.inl (Or.inl hm)
      · by_cases hji : j = i
        · subst hji
          rw [hheld] at hj
          exact Or.inl (Or.inr (Option.some.inj hj).symm)
        · exact Or.inr ⟨j, by rw [Function.update_of_ne hji]; exact hj⟩
  · obtain ⟨hji, hj⟩ := hkeep hj
    rcases List.mem_append.mp hm with hm | hm
    · exact h.fresh j m hj hm
    · rw [List.mem_singleton.mp hm] at hj
      exact hji (h.single j i n hj hheld)

omit [DecidableEq ι] in
theorem perm_range' (h : Tickets lo hi held spent) (hnone : ∀ i, held i = none) :
    spent.Perm (List.range' lo (hi - lo)) := by
  apply (List.perm_ext_iff_of_nodup h.nodup List.nodup_range').mpr
  intro n
  have hcover := h.cover n
  have hle := h.le
  simp only [hnone] at hcover
  rw [List.mem_range'_1]
  constructor
  · intro hm
    have := hcover.mp (Or.inl hm)
    omega
  · intro hm
    rcases hcover.mpr (by omega) with hm | ⟨_, hm⟩
    · exact hm
    · cases hm

/-! ## Counting -/

omit [DecidableEq ι] in
theorem length_le (h : Tickets lo hi held spent) : spent.length ≤ hi - lo := by
  rw [← List.toFinset_card_of_nodup h.nodup, ← Nat.card_Ico lo hi]
  refine Finset.card_le_card fun n hn => ?_
  exact Finset.mem_Ico.mpr ((h.cover n).mp (Or.inl (List.mem_toFinset.mp hn)))

omit [DecidableEq ι] in
/-- A number that was drawn and is not spent has a holder of its own. -/
theorem unspent_le [Fintype ι] (h : Tickets lo hi held spent) :
    ((Finset.Ico lo hi).filter (· ∉ spent)).card ≤ (Finset.univ.filter fun i => (held i).isSome).card := by
  refine (Finset.card_le_card fun n hn => ?_).trans (Finset.card_image_le (f := fun i => (held i).getD 0))
  obtain ⟨hn, hout⟩ := Finset.mem_filter.mp hn
  obtain ⟨i, hi⟩ := ((h.cover n).mpr (Finset.mem_Ico.mp hn)).resolve_left hout
  refine Finset.mem_image.mpr ⟨i, Finset.mem_filter.mpr ⟨Finset.mem_univ i, ?_⟩, ?_⟩
  · rw [hi]
    rfl
  · rw [hi]
    rfl

end Tickets

end Lib
