import Mathlib.Data.List.Range
import Mathlib.Data.Nat.Find
import Mathlib.Logic.Function.Iterate

/-!
# Drawing until a value is accepted

A generator steps its state and yields a value. The loop draws until a value is
not rejected; `fuel` bounds its turns.
-/

namespace Lib

section
variable {σ α : Type} (next : σ → α × σ) (reject : α → Bool)

/-- The state after `n` draws. -/
def stateAt (s : σ) (n : ℕ) : σ := (fun s => (next s).2)^[n] s

/-- The draw after `n` draws. -/
def drawAt (s : σ) (n : ℕ) : α := (next (stateAt next s n)).1

/-- The values drawn, the last one accepted, and the state behind them. -/
def retry : ℕ → σ → Option (List α × σ)
  | 0, _ => none
  | fuel + 1, s =>
    let (a, s) := next s
    if reject a then (retry fuel s).map fun r => (a :: r.1, r.2) else some ([a], s)

theorem stateAt_succ (s : σ) (n : ℕ) : stateAt next s (n + 1) = (next (stateAt next s n)).2 :=
  Function.iterate_succ_apply' _ _ _

theorem stateAt_next (s : σ) (n : ℕ) : stateAt next (next s).2 n = stateAt next s (n + 1) :=
  (Function.iterate_succ_apply _ _ _).symm

theorem stateAt_stateAt (s : σ) (m n : ℕ) : stateAt next (stateAt next s m) n = stateAt next s (m + n) := by
  unfold stateAt
  rw [Nat.add_comm, Function.iterate_add_apply]

theorem drawAt_next (s : σ) (n : ℕ) : drawAt next (next s).2 n = drawAt next s (n + 1) := by
  unfold drawAt
  rw [stateAt_next]

theorem stateAt_inv {I : σ → Prop} (hstep : ∀ s, I s → I (next s).2) {s : σ} (h : I s) (n : ℕ) :
    I (stateAt next s n) := by
  induction n with
  | zero => exact h
  | succ n ih => rw [stateAt_succ]; exact hstep _ ih

/-- The draw after `n` draws is the first that is accepted. -/
def AcceptedAt (s : σ) (n : ℕ) : Prop :=
  reject (drawAt next s n) = false ∧ ∀ i < n, reject (drawAt next s i) = true

variable {next reject}

theorem AcceptedAt.tail {s : σ} {n : ℕ} (h : AcceptedAt next reject s (n + 1)) :
    reject (next s).1 = true ∧ AcceptedAt next reject (next s).2 n := by
  refine ⟨h.2 0 (Nat.succ_pos n), ?_, fun i hi => ?_⟩
  · rw [drawAt_next]
    exact h.1
  · rw [drawAt_next]
    exact h.2 (i + 1) (Nat.succ_lt_succ hi)

theorem retry_of_accepted : ∀ {n fuel : ℕ} {s : σ}, AcceptedAt next reject s n → n < fuel →
    retry next reject fuel s = some ((List.range (n + 1)).map (drawAt next s), stateAt next s (n + 1))
  | 0, fuel + 1, s, h, _ => by
    have haccept : reject (next s).1 = false := h.1
    simp only [retry, haccept, Bool.false_eq_true, if_false]
    rfl
  | n + 1, fuel + 1, s, h, hfuel => by
    obtain ⟨hreject, hrest⟩ := h.tail
    have hdraws : (List.range (n + 1 + 1)).map (drawAt next s) =
        (next s).1 :: (List.range (n + 1)).map (drawAt next (next s).2) := by
      rw [List.range_succ_eq_map, List.map_cons, List.map_map]
      rfl
    simp only [retry, hreject, if_true, retry_of_accepted hrest (Nat.lt_of_succ_lt_succ hfuel), Option.map_some]
    rw [hdraws, stateAt_next]

theorem exists_accepted : ∀ {fuel : ℕ} {s : σ} {r : List α × σ}, retry next reject fuel s = some r →
    ∃ n < fuel, AcceptedAt next reject s n
  | fuel + 1, s, r, h => by
    by_cases hreject : reject (next s).1 = true
    · simp only [retry, hreject, if_true, Option.map_eq_some_iff] at h
      obtain ⟨r', hr', -⟩ := h
      obtain ⟨n, hn, haccept, hbefore⟩ := exists_accepted hr'
      refine ⟨n + 1, Nat.succ_lt_succ hn, by rw [← drawAt_next]; exact haccept, fun i hi => ?_⟩
      cases i with
      | zero => exact hreject
      | succ i =>
        rw [← drawAt_next]
        exact hbefore i (Nat.lt_of_succ_lt_succ hi)
    · exact ⟨0, Nat.succ_pos fuel, eq_false_of_ne_true hreject, fun i hi => absurd hi (Nat.not_lt_zero i)⟩

/-- The loop draws what the generator yields in order, up to the first value that is accepted. -/
theorem retry_eq_some {fuel : ℕ} {s s' : σ} {draws : List α} (h : retry next reject fuel s = some (draws, s')) :
    ∃ n < fuel, AcceptedAt next reject s n ∧ draws = (List.range (n + 1)).map (drawAt next s) := by
  obtain ⟨n, hn, haccept⟩ := exists_accepted h
  rw [retry_of_accepted haccept hn] at h
  cases h
  exact ⟨n, hn, haccept, rfl⟩

theorem accepted_le {s : σ} {n i : ℕ} (h : AcceptedAt next reject s n) (hi : reject (drawAt next s i) = false) :
    n ≤ i := by
  by_contra hlt
  rw [h.2 i (not_le.mp hlt)] at hi
  cases hi

theorem exists_acceptedAt {s : σ} {i : ℕ} (hi : reject (drawAt next s i) = false) :
    ∃ n ≤ i, AcceptedAt next reject s n := by
  have hex : ∃ i, reject (drawAt next s i) = false := ⟨i, hi⟩
  refine ⟨Nat.find hex, Nat.find_min' hex hi, Nat.find_spec hex, fun j hj => ?_⟩
  exact eq_true_of_ne_false (Nat.find_min hex hj)

/-- The loop ends if the generator yields a value that is accepted, and only then. -/
theorem retry_terminates_iff {s : σ} :
    (∃ fuel, (retry next reject fuel s).isSome = true) ↔ ∃ i, reject (drawAt next s i) = false := by
  constructor
  · rintro ⟨fuel, h⟩
    obtain ⟨r, hr⟩ := Option.isSome_iff_exists.mp h
    obtain ⟨n, -, haccept⟩ := exists_accepted hr
    exact ⟨n, haccept.1⟩
  · rintro ⟨i, hi⟩
    obtain ⟨n, -, haccept⟩ := exists_acceptedAt hi
    exact ⟨n + 1, by rw [retry_of_accepted haccept (Nat.lt_succ_self n)]; rfl⟩

end

end Lib
