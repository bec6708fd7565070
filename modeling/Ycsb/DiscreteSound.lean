import Mathlib.Algebra.Order.Field.Basic
import Ycsb.Lib.Cumulative
import Ycsb.Discrete

/-!
# A discrete generator follows its weights

The loop of `Next` subtracts shares until the rest of the draw lies within one,
which is the slot of the draw among the cumulative weights.
-/

namespace Ycsb

open Lib

namespace DiscreteGenerator

variable {α : Type}

/-! ## The loop of `Next` -/

def weights (values : List (α × ℚ)) : List ℚ := values.map Prod.snd

/-- The draw `u` falls into the share of the value at position `k`. -/
def InShare (values : List (α × ℚ)) (k : ℕ) (u : ℚ) : Prop :=
  below (weights values) k / (weights values).sum ≤ u ∧ u < below (weights values) (k + 1) / (weights values).sum

theorem choose_slot {sum : ℚ} (hsum : 0 < sum) : ∀ {values : List (α × ℚ)} {u : ℚ} {k : ℕ} (hk : k < values.length),
    (∀ v ∈ values, 0 < v.2) → below (weights values) k / sum ≤ u → u < below (weights values) (k + 1) / sum →
    choose sum values u = some values[k].1
  | v :: values, u, 0, _, _, _, hlt => by
    rw [choose, if_pos]
    · rfl
    · simpa [weights] using hlt
  | v :: values, u, k + 1, hk, hpos, hle, hlt => by
    obtain ⟨-, hvalues⟩ := List.forall_mem_cons.mp hpos
    have hcons : weights (v :: values) = v.2 :: weights values := rfl
    rw [hcons, below_cons_succ, add_div] at hle hlt
    have hbelow : 0 ≤ below (weights values) k / sum := by
      refine div_nonneg (below_nonneg ?_ k) (le_of_lt hsum)
      intro w hw
      obtain ⟨v', hv', rfl⟩ := List.mem_map.mp hw
      exact le_of_lt (hvalues v' hv')
    rw [choose, if_neg (by linarith)]
    exact choose_slot hsum (Nat.lt_of_succ_lt_succ hk) hvalues (by linarith) (by linarith)

/-! ## The generator -/

theorem foldl_addValue : ∀ (values : List (α × ℚ)) (g : DiscreteGenerator α),
    (values.foldl (fun g v => g.addValue v.1 v.2) g).values = g.values ++ values ∧
      (values.foldl (fun g v => g.addValue v.1 v.2) g).sum = g.sum + (weights values).sum
  | [], g => by simp [weights]
  | v :: values, g => by
    obtain ⟨hvalues, hsum⟩ := foldl_addValue values (g.addValue v.1 v.2)
    rw [List.foldl_cons, hvalues, hsum]
    constructor
    · simp [addValue]
    · simp [addValue, weights, add_assoc]

theorem ofValues_values (values : List (α × ℚ)) : (ofValues values).values = values :=
  (foldl_addValue values empty).1

theorem ofValues_sum (values : List (α × ℚ)) : (ofValues values).sum = (weights values).sum :=
  ((foldl_addValue values empty).2).trans (zero_add _)

section
variable {values : List (α × ℚ)} (hne : values ≠ []) (hpos : ∀ v ∈ values, 0 < v.2)

include hpos in
theorem weights_pos : ∀ w ∈ weights values, 0 < w := by
  intro w hw
  obtain ⟨v, hv, rfl⟩ := List.mem_map.mp hw
  exact hpos v hv

include hpos in
theorem weights_nonneg : ∀ w ∈ weights values, 0 ≤ w := fun w hw => le_of_lt (weights_pos hpos w hw)

include hne hpos in
theorem weights_sum_pos : 0 < (weights values).sum :=
  List.sum_pos _ (weights_pos hpos) (by simpa [weights] using hne)

include hne hpos in
theorem inShare_iff {k : ℕ} {u : ℚ} : InShare values k u ↔
    below (weights values) k ≤ u * (weights values).sum ∧
      u * (weights values).sum < below (weights values) (k + 1) := by
  have hsum := weights_sum_pos hne hpos
  rw [InShare, div_le_iff₀ hsum, lt_div_iff₀ hsum]

include hne hpos in
/-- Every draw falls into one share. -/
theorem existsUnique_inShare {u : ℚ} (h0 : 0 ≤ u) (h1 : u < 1) : ∃! k, k < values.length ∧ InShare values k u := by
  have hsum := weights_sum_pos hne hpos
  obtain ⟨k, hk, hslot⟩ := exists_slot (mul_nonneg h0 (le_of_lt hsum)) (mul_lt_of_lt_one_left hsum h1)
  refine ⟨k, ⟨by simpa [weights] using hk, (inShare_iff hne hpos).mpr hslot⟩, ?_⟩
  rintro j ⟨-, hj⟩
  obtain ⟨hle, hlt⟩ := (inShare_iff hne hpos).mp hj
  exact slot_unique (weights_nonneg hpos) hle hlt hslot.1 hslot.2

include hne hpos in
theorem next_inShare {u : ℚ} {k : ℕ} (hk : k < values.length) (hshare : InShare values k u) :
    (ofValues values).next u = some (values[k].1, { ofValues values with last := some values[k].1 }) := by
  have hchoose : choose (ofValues values).sum (ofValues values).values u = some values[k].1 := by
    rw [ofValues_sum, ofValues_values]
    exact choose_slot (weights_sum_pos hne hpos) hk hpos hshare.1 hshare.2
  rw [next, hchoose]
  rfl

include hne hpos in
/-- A value that is added once is drawn from its share alone. -/
theorem next_eq_iff (hnodup : (values.map Prod.fst).Nodup) {k : ℕ} (hk : k < values.length) {u : ℚ} (h0 : 0 ≤ u)
    (h1 : u < 1) : ((ofValues values).next u).map Prod.fst = some values[k].1 ↔ InShare values k u := by
  constructor
  · intro h
    obtain ⟨j, ⟨hj, hshare⟩, -⟩ := existsUnique_inShare hne hpos h0 h1
    rw [next_inShare hne hpos hj hshare, Option.map_some, Option.some.injEq] at h
    have hjk : (values.map Prod.fst).get ⟨j, by simpa using hj⟩ = (values.map Prod.fst).get ⟨k, by simpa using hk⟩ := by
      simpa using h
    cases Fin.val_eq_of_eq (hnodup.get_inj_iff.mp hjk)
    exact hshare
  · intro h
    rw [next_inShare hne hpos hk h]
    rfl

end

end DiscreteGenerator

/-! ## The operations of the workload -/

open DiscreteGenerator

/-- What `Init` adds to `op_chooser_`. -/
def Proportions.added (p : Proportions) : List (Operation × ℚ) := p.weights.filter fun v => 0 < v.2

def Proportions.total (p : Proportions) : ℚ := (DiscreteGenerator.weights p.added).sum

theorem opChooser_eq (p : Proportions) : CoreWorkload.opChooser p = ofValues p.added := by
  unfold CoreWorkload.opChooser ofValues Proportions.added
  rw [List.foldl_filter]
  simp

theorem added_nodup (p : Proportions) : (p.added.map Prod.fst).Nodup := by
  have hops : p.weights.map Prod.fst = [.read, .update, .insert, .scan, .readModifyWrite, .rdidx] := rfl
  refine (List.filter_sublist.map Prod.fst).nodup ?_
  rw [hops]
  decide

/-- The share of an operation is an interval of draws as long as its part of the total. -/
theorem opChooser_interval (p : Proportions) {v : Operation × ℚ} (hv : v ∈ p.weights) (hpos : 0 < v.2) :
    ∃ a, 0 ≤ a ∧ a + v.2 / p.total ≤ 1 ∧ ∀ u, 0 ≤ u → u < 1 →
      (((CoreWorkload.opChooser p).next u).map Prod.fst = some v.1 ↔ a ≤ u ∧ u < a + v.2 / p.total) := by
  have hadded : v ∈ p.added := List.mem_filter.mpr ⟨hv, decide_eq_true hpos⟩
  have hpositive : ∀ v ∈ p.added, 0 < v.2 := fun v hv => of_decide_eq_true (List.mem_filter.mp hv).2
  have hne := List.ne_nil_of_mem hadded
  have hsum := weights_sum_pos hne hpositive
  have hnonneg := weights_nonneg hpositive
  obtain ⟨k, hk, rfl⟩ := List.getElem_of_mem hadded
  have hk' : k < (weights p.added).length := by simpa [weights] using hk
  have hnext : below (weights p.added) (k + 1) = below (weights p.added) k + p.added[k].2 := by
    rw [below_succ hk']
    simp [weights]
  refine ⟨below (weights p.added) k / p.total, div_nonneg (below_nonneg hnonneg k) (le_of_lt hsum), ?_, ?_⟩
  · rw [← add_div, ← hnext]
    exact (div_le_one hsum).mpr (below_le_sum hnonneg hk')
  · intro u h0 h1
    rw [opChooser_eq, next_eq_iff hne hpositive (added_nodup p) hk h0 h1, InShare, hnext, add_div]
    rfl

theorem next_cumulative :
    (∀ {α : Type} (values : List (α × ℚ)), values ≠ [] → (∀ v ∈ values, 0 < v.2) → ∀ u : ℚ, 0 ≤ u → u < 1 →
      (∃! k, k < values.length ∧ InShare values k u) ∧ ∀ k (hk : k < values.length), InShare values k u →
        (ofValues values).next u = some (values[k].1, { ofValues values with last := some values[k].1 })) ∧
    ∀ (p : Proportions) (v : Operation × ℚ), v ∈ p.weights → 0 < v.2 →
      ∃ a, 0 ≤ a ∧ a + v.2 / p.total ≤ 1 ∧ ∀ u, 0 ≤ u → u < 1 →
        (((CoreWorkload.opChooser p).next u).map Prod.fst = some v.1 ↔ a ≤ u ∧ u < a + v.2 / p.total) := by
  refine ⟨fun values hne hpos u h0 h1 => ⟨existsUnique_inShare hne hpos h0 h1, ?_⟩, ?_⟩
  · intro k hk hshare
    exact next_inShare hne hpos hk hshare
  · intro p v hv hpos
    exact opChooser_interval p hv hpos

theorem next_cumulative_half : ((ofValues [('a', 1), ('b', 3)]).next (1 / 2)).map Prod.fst = some 'b' := by
  have h := next_cumulative.1 [('a', (1 : ℚ)), ('b', 3)] (by simp) (by simp) (1 / 2) (by norm_num) (by norm_num)
  rw [h.2 1 (by decide) (by norm_num [InShare, weights, below])]
  rfl

end Ycsb
