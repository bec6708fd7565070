import Mathlib.Data.Finset.Insert
import Mathlib.Data.Nat.ModEq
import Ycsb.Lib.Window
import Ycsb.Lib.Trans

/-!
# Counter generators

`CounterGenerator` hands out consecutive numbers. `AcknowledgedCounterGenerator`
also tracks which of them have been acknowledged, in a bit window indexed modulo
its size, and publishes the last number of the unbroken acknowledged stretch.
-/

namespace Ycsb

def u64 (n : ℕ) : ℕ := n % 2 ^ 64

theorem u64_of_lt {n : ℕ} (h : n < 2 ^ 64) : u64 n = n := Nat.mod_eq_of_lt h

def u64Pred (n : ℕ) : ℕ := u64 (n + (2 ^ 64 - 1))

theorem u64Pred_succ {n : ℕ} (h : n < 2 ^ 64) : u64Pred (n + 1) = n := by
  unfold u64Pred u64
  rw [show n + 1 + (2 ^ 64 - 1) = n + 2 ^ 64 by omega, Nat.add_mod_right, Nat.mod_eq_of_lt h]

/-- A difference of two `uint64_t`. -/
def u64Sub (a b : ℕ) : ℕ := u64 (a + (2 ^ 64 - b))

theorem u64Sub_of_le {a b : ℕ} (h : b ≤ a) (ha : a < 2 ^ 64) : u64Sub a b = a - b := by
  unfold u64Sub
  rw [show a + (2 ^ 64 - b) = a - b + 2 ^ 64 by omega]
  unfold u64
  rw [Nat.add_mod_right, Nat.mod_eq_of_lt (by omega)]

theorem u64Sub_lt (a b : ℕ) : u64Sub a b < 2 ^ 64 := Nat.mod_lt _ (by decide)

theorem u64Sub_add_mod {a b : ℕ} (hb : b ≤ 2 ^ 64) : (u64Sub a b + b) % 2 ^ 64 = a % 2 ^ 64 := by
  unfold u64Sub u64
  rw [Nat.mod_add_mod, show a + (2 ^ 64 - b) + b = a + 2 ^ 64 by omega, Nat.add_mod_right]

/-- A difference of two sums that have wrapped. -/
theorem u64Sub_mod_add (a b : ℕ) : u64Sub ((a + b) % 2 ^ 64) (a % 2 ^ 64) = b % 2 ^ 64 := by
  have h := u64Sub_add_mod (a := (a + b) % 2 ^ 64) (Nat.le_of_lt (Nat.mod_lt a (by decide : 0 < 2 ^ 64)))
  rw [Nat.add_mod_mod, Nat.mod_mod, Nat.add_comm a b] at h
  have h' := Nat.ModEq.add_right_cancel' a h
  rwa [Nat.ModEq, Nat.mod_eq_of_lt (u64Sub_lt _ _), Nat.add_comm b a] at h'

structure Exception where
  message : String
  deriving DecidableEq, Repr

structure CounterGenerator where
  counter : ℕ

namespace CounterGenerator

def next (g : CounterGenerator) : ℕ × CounterGenerator :=
  (g.counter, { g with counter := u64 (g.counter + 1) })

def last (g : CounterGenerator) : ℕ := u64Pred g.counter

end CounterGenerator

def kWindowSize : ℕ := 1 <<< 16

def kWindowMask : ℕ := kWindowSize - 1

theorem kWindowSize_eq : kWindowSize = 65536 := rfl

theorem and_mask (value : ℕ) : value &&& kWindowMask = value % kWindowSize :=
  Nat.and_two_pow_sub_one_eq_mod value 16

instance : NeZero kWindowSize := ⟨by decide⟩

def slot (value : ℕ) : Fin kWindowSize :=
  ⟨value &&& kWindowMask, by rw [and_mask]; exact Nat.mod_lt _ (by decide)⟩

theorem slot_eq (value : ℕ) : slot value = Fin.ofNat kWindowSize value := Fin.ext (and_mask value)

attribute [irreducible] kWindowSize

abbrev AckWindow := Fin kWindowSize → Bool

structure AcknowledgedCounterGenerator extends CounterGenerator where
  limit : ℕ
  ackWindow : AckWindow

/-- The loop of `Acknowledge`: clear set slots from `i` on, up to `until`. -/
def ackScan (till i : ℕ) (win : AckWindow) : ℕ × AckWindow :=
  if i < till then
    if win (slot i) then ackScan till (i + 1) (Function.update win (slot i) false) else (i, win)
  else (i, win)
termination_by till - i

namespace AcknowledgedCounterGenerator

def init (start : ℕ) : AcknowledgedCounterGenerator where
  counter := start
  limit := u64Pred start
  ackWindow := fun _ => false

def next (g : AcknowledgedCounterGenerator) : ℕ × AcknowledgedCounterGenerator :=
  (g.toCounterGenerator.next.1, { g with toCounterGenerator := g.toCounterGenerator.next.2 })

def last (g : AcknowledgedCounterGenerator) : ℕ := g.limit

def acknowledge (g : AcknowledgedCounterGenerator) (value : ℕ) :
    Except Exception AcknowledgedCounterGenerator :=
  if g.ackWindow (slot value) then .error ⟨"Not enough window size"⟩
  else
    let win := Function.update g.ackWindow (slot value) true
    let till := u64 (g.limit + kWindowSize)
    let scanned := ackScan till (u64 (g.limit + 1)) win
    .ok { g with limit := u64Pred scanned.1, ackWindow := scanned.2 }

end AcknowledgedCounterGenerator

/-! ## Runs of the generator -/

structure AckState where
  gen : AcknowledgedCounterGenerator
  handed : Finset ℕ
  acked : Finset ℕ

inductive AckEvent where
  | next
  | ack (value : ℕ)

namespace AckState

def init (start : ℕ) : AckState := ⟨.init start, ∅, ∅⟩

/-- One atomic step. `none`: the value was never handed out, or was acknowledged
before, or `Acknowledge` throws. -/
def step (σ : AckState) : AckEvent → Option AckState
  | .next => some { σ with gen := σ.gen.next.2, handed := insert σ.gen.next.1 σ.handed }
  | .ack value =>
    if value ∈ σ.handed ∧ value ∉ σ.acked then
      match σ.gen.acknowledge value with
      | .ok gen => some { σ with gen := gen, acked := insert value σ.acked }
      | .error _ => none
    else none

end AckState

end Ycsb
