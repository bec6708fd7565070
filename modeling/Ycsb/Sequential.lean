import Ycsb.Lib.Retry
import Ycsb.Workload

/-!
# Keys in sequence

`SequentialGenerator` keeps its counter for each thread, not for each object. A
counter that is 0 has not been set. `NextTransactionKeyNum` draws from it until a
number is not above `Last()`.
-/

namespace Ycsb

open Lib

structure SequentialGenerator where
  min : ℕ
  max : ℕ

/-- The value, and the counter of the thread. -/
def SequentialGenerator.next (g : SequentialGenerator) (counter : ℕ) : ℕ × ℕ :=
  let val := if counter = 0 then g.min else counter
  let counter := u64 (val + 1)
  (val, if g.max ≤ counter then g.min else counter)

/-- The numbers that `NextTransactionKeyNum` draws while `Last()` is `last`, the key at their end. -/
def CoreWorkload.sequentialKeyNums (g : SequentialGenerator) (last fuel counter : ℕ) : Option (List ℕ × ℕ) :=
  retry g.next (fun keyNum => decide (last < keyNum)) fuel counter

end Ycsb
