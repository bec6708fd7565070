import Ycsb.Sequential

/-!
# Rejection with keys in sequence

A counter is 0 or in the range, so the draws run through the range in a circle.
They meet its first number within one round, and no number of the range is below
it: the loop ends if that number is accepted, and only then.
-/

namespace Ycsb

open Lib

theorem mod_succ {m : ℕ} (hm : 0 < m) (a : ℕ) : (a + 1) % m = if a % m + 1 < m then a % m + 1 else 0 := by
  have hlt := Nat.mod_lt a hm
  rw [← Nat.mod_add_mod]
  split
  · rename_i h
    exact Nat.mod_eq_of_lt h
  · rw [show a % m + 1 = m by omega, Nat.mod_self]

namespace SequentialGenerator

/-- The number after `val` in the circle. -/
def succ (g : SequentialGenerator) (val : ℕ) : ℕ := if val + 1 < g.max then val + 1 else g.min

/-- What the counter of a thread can be. -/
def Counts (g : SequentialGenerator) (counter : ℕ) : Prop := counter = 0 ∨ g.min ≤ counter ∧ counter < g.max

section
variable {g : SequentialGenerator} (hmin : g.min < g.max) (hmax : g.max < 2 ^ 64)

include hmin in
theorem succ_mem {val : ℕ} (h : g.min ≤ val) : g.min ≤ g.succ val ∧ g.succ val < g.max := by
  unfold succ
  split
  · omega
  · exact ⟨le_rfl, hmin⟩

include hmin in
theorem next_val_mem {counter : ℕ} (h : g.Counts counter) :
    g.min ≤ (g.next counter).1 ∧ (g.next counter).1 < g.max := by
  show g.min ≤ ite _ _ _ ∧ ite _ _ _ < g.max
  split
  · exact ⟨le_rfl, hmin⟩
  · rename_i hne
    exact h.resolve_left hne

include hmin hmax in
theorem next_counter {counter : ℕ} (h : g.Counts counter) : (g.next counter).2 = g.succ (g.next counter).1 := by
  have hval := next_val_mem hmin h
  have hu : u64 ((g.next counter).1 + 1) = (g.next counter).1 + 1 := u64_of_lt (by omega)
  have hnext : (g.next counter).2 =
      if g.max ≤ u64 ((g.next counter).1 + 1) then g.min else u64 ((g.next counter).1 + 1) := rfl
  rw [hnext, hu, succ]
  split <;> split <;> omega

include hmin hmax in
theorem counts_next {counter : ℕ} (h : g.Counts counter) : g.Counts (g.next counter).2 := by
  rw [next_counter hmin hmax h]
  exact Or.inr (succ_mem hmin (next_val_mem hmin h).1)

include hmin hmax in
/-- A counter that has wrapped to 0 stands for 0, which is then the first number. -/
theorem next_next {counter : ℕ} (h : g.Counts counter) : (g.next (g.next counter).2).1 = g.succ (g.next counter).1 := by
  have hmem := succ_mem hmin (next_val_mem hmin h).1
  rw [next_counter hmin hmax h]
  show ite _ _ _ = _
  split <;> omega

include hmin hmax in
theorem counts_stateAt {counter : ℕ} (h : g.Counts counter) (n : ℕ) : g.Counts (stateAt g.next counter n) :=
  stateAt_inv g.next (fun _ => counts_next hmin hmax) h n

include hmin hmax in
theorem drawAt_mem {counter : ℕ} (h : g.Counts counter) (i : ℕ) :
    g.min ≤ drawAt g.next counter i ∧ drawAt g.next counter i < g.max :=
  next_val_mem hmin (counts_stateAt hmin hmax h i)

include hmin hmax in
theorem drawAt_succ {counter : ℕ} (h : g.Counts counter) (i : ℕ) :
    drawAt g.next counter (i + 1) = g.succ (drawAt g.next counter i) := by
  unfold drawAt
  rw [stateAt_succ]
  exact next_next hmin hmax (counts_stateAt hmin hmax h i)

include hmin hmax in
/-- The circle, counted from the first draw. -/
theorem drawAt_eq {counter : ℕ} (h : g.Counts counter) (i : ℕ) : drawAt g.next counter i =
    g.min + (drawAt g.next counter 0 - g.min + i) % (g.max - g.min) := by
  induction i with
  | zero =>
    have hmem := drawAt_mem hmin hmax h 0
    rw [Nat.add_zero, Nat.mod_eq_of_lt (by omega)]
    omega
  | succ i ih =>
    have hlt := Nat.mod_lt (drawAt g.next counter 0 - g.min + i) (Nat.sub_pos_of_lt hmin)
    rw [drawAt_succ hmin hmax h, ih, succ, ← Nat.add_assoc (drawAt g.next counter 0 - g.min) i 1,
      mod_succ (Nat.sub_pos_of_lt hmin)]
    split <;> split <;> omega

include hmin hmax in
/-- In one round every number of the range is drawn, and once. -/
theorem existsUnique_drawAt {counter : ℕ} (h : g.Counts counter) {val : ℕ} (hval : g.min ≤ val ∧ val < g.max) (i : ℕ) :
    ∃! j, (i ≤ j ∧ j < i + (g.max - g.min)) ∧ drawAt g.next counter j = val := by
  have hfrom : ∀ k, drawAt g.next counter (i + k) =
      g.min + (drawAt g.next counter i - g.min + k) % (g.max - g.min) := by
    intro k
    have hshift := drawAt_eq hmin hmax (counts_stateAt hmin hmax h i) k
    unfold drawAt at hshift ⊢
    rw [stateAt_stateAt] at hshift
    exact hshift
  have hmem := drawAt_mem hmin hmax h i
  have hm : 0 < g.max - g.min := Nat.sub_pos_of_lt hmin
  have hsum : drawAt g.next counter i - g.min + (val - g.min + (g.max - drawAt g.next counter i)) =
      val - g.min + (g.max - g.min) := by omega
  have hdrawn : drawAt g.next counter
      (i + (val - g.min + (g.max - drawAt g.next counter i)) % (g.max - g.min)) = val := by
    rw [hfrom, Nat.add_mod_mod, hsum, Nat.add_mod_right, Nat.mod_eq_of_lt (by omega)]
    omega
  refine ⟨_, ⟨⟨Nat.le_add_right _ _, Nat.add_lt_add_left (Nat.mod_lt _ hm) i⟩, hdrawn⟩, ?_⟩
  rintro j ⟨⟨hij, hj⟩, hdraw⟩
  obtain ⟨k, rfl⟩ := Nat.exists_eq_add_of_le hij
  rw [← hdrawn, hfrom, hfrom, Nat.add_right_inj] at hdraw
  have hk := Nat.ModEq.add_left_cancel' _ hdraw
  rw [Nat.ModEq, Nat.mod_mod, Nat.mod_eq_of_lt (by omega)] at hk
  rw [hk]

/-! ## The loop of `NextTransactionKeyNum` -/

/-- The loop from a counter, while `Last()` is `last`. -/
structure KeyLoop (g : SequentialGenerator) (last counter : ℕ) : Prop where
  terminates : (∃ fuel, (CoreWorkload.sequentialKeyNums g last fuel counter).isSome = true) ↔ g.min ≤ last
  bounded : ∀ fuel draws counter', CoreWorkload.sequentialKeyNums g last fuel counter = some (draws, counter') →
    draws.length ≤ g.max - g.min ∧ ∃ keyNum, draws.getLast? = some keyNum ∧ g.min ≤ keyNum ∧
      keyNum ≤ g.max - 1 ∧ keyNum ≤ last
  inOrder : ∀ fuel draws counter', CoreWorkload.sequentialKeyNums g last fuel counter = some (draws, counter') →
    draws = (List.range draws.length).map (drawAt g.next counter)
  cyclic : ∀ i, drawAt g.next counter (i + 1) =
    if drawAt g.next counter i + 1 < g.max then drawAt g.next counter i + 1 else g.min
  once : ∀ val, g.min ≤ val → val < g.max → ∀ i, ∃! j, (i ≤ j ∧ j < i + (g.max - g.min)) ∧
    drawAt g.next counter j = val

/-- In the first round the first number of the range is drawn. -/
theorem accepted_in_round (hmin : g.min < g.max) (hmax : g.max < 2 ^ 64) {counter last : ℕ} (h : g.Counts counter)
    (hlast : g.min ≤ last) : ∃ i < g.max - g.min, decide (last < drawAt g.next counter i) = false := by
  obtain ⟨i, ⟨⟨-, hi⟩, hdraw⟩, -⟩ := existsUnique_drawAt hmin hmax h ⟨le_rfl, hmin⟩ 0
  exact ⟨i, by omega, by rw [hdraw]; exact decide_eq_false (not_lt.mpr hlast)⟩

theorem keyLoop_of_counts (hmin : g.min < g.max) (hmax : g.max < 2 ^ 64) (last : ℕ) {counter : ℕ}
    (h : g.Counts counter) : KeyLoop g last counter where
  terminates := by
    refine retry_terminates_iff.trans ⟨?_, ?_⟩
    · rintro ⟨i, hi⟩
      exact (drawAt_mem hmin hmax h i).1.trans (not_lt.mp (of_decide_eq_false hi))
    · intro hlast
      obtain ⟨i, -, hi⟩ := accepted_in_round hmin hmax h hlast
      exact ⟨i, hi⟩
  bounded := by
    intro fuel draws counter' hdraws
    obtain ⟨n, -, haccept, rfl⟩ := retry_eq_some hdraws
    have hmem := drawAt_mem hmin hmax h n
    have hle : drawAt g.next counter n ≤ last := not_lt.mp (of_decide_eq_false haccept.1)
    obtain ⟨i, hi, haccepted⟩ := accepted_in_round hmin hmax h (hmem.1.trans hle)
    have hn := accepted_le haccept haccepted
    refine ⟨?_, drawAt g.next counter n, ?_, hmem.1, by omega, hle⟩
    · rw [List.length_map, List.length_range]
      omega
    · rw [List.range_succ, List.map_append, List.map_singleton, List.getLast?_concat]
  inOrder := by
    intro fuel draws counter' hdraws
    obtain ⟨n, -, -, rfl⟩ := retry_eq_some hdraws
    rw [List.length_map, List.length_range]
  cyclic := drawAt_succ hmin hmax h
  once := fun _ h0 h1 => existsUnique_drawAt hmin hmax h ⟨h0, h1⟩

theorem keyLoop (hmin : g.min < g.max) (hmax : g.max < 2 ^ 64) (last n : ℕ) :
    KeyLoop g last (stateAt g.next 0 n) :=
  keyLoop_of_counts hmin hmax last (counts_stateAt hmin hmax (Or.inl rfl) n)

theorem keyLoop_five : KeyLoop ⟨2, 5⟩ 3 (stateAt (next ⟨2, 5⟩) 0 2) := keyLoop (by decide) (by decide) 3 2

end

end SequentialGenerator

end Ycsb
