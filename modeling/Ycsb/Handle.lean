import Mathlib.Order.Basic
import Ycsb.Client

/-!
# The shared database handle

`LeveldbDB` and `RocksdbDB` share one static handle among the threads. `Init`
counts a user and opens the database if the handle is null; `Cleanup` uncounts it
and deletes the database at zero. It does not reset the handle.
-/

namespace Ycsb

open Lib

/-- The static members. Databases are numbered in the order they are opened;
`deleted` lists those that were deleted, as often as they were. -/
structure Handle where
  db : Option ℕ
  refCnt : ℤ
  opened : ℕ
  deleted : List ℕ

inductive HandleAct where
  | init
  | op
  | cleanup
  deriving DecidableEq

namespace Handle

def static : Handle := ⟨none, 0, 0, []⟩

def init (h : Handle) : Handle :=
  let h := { h with refCnt := h.refCnt + 1 }
  match h.db with
  | some _ => h
  | none => { h with db := some h.opened, opened := h.opened + 1 }

def cleanup (h : Handle) : Handle :=
  let h := { h with refCnt := h.refCnt - 1 }
  if h.refCnt ≠ 0 then h else { h with deleted := h.deleted ++ h.db.toList }

def act (h : Handle) : HandleAct → Handle
  | .init => h.init
  | .op => h
  | .cleanup => h.cleanup

theorem init_refCnt (h : Handle) : h.init.refCnt = h.refCnt + 1 := by
  obtain ⟨db, n, opened, deleted⟩ := h
  cases db <;> rfl

theorem cleanup_refCnt (h : Handle) : h.cleanup.refCnt = h.refCnt - 1 := by
  unfold cleanup
  by_cases h0 : h.refCnt - 1 = 0
  · exact congrArg Handle.refCnt (if_neg (not_not_intro h0))
  · exact congrArg Handle.refCnt (if_pos h0)

def IsOpen (h : Handle) : Prop := ∃ k, h.db = some k ∧ k < h.opened ∧ k ∉ h.deleted

end Handle

def handleCode : DBCode HandleAct := ⟨[.init], .op, [.cleanup]⟩

abbrev HandleRun (T : ℕ) := Threads (Fin T) HandleAct Handle

namespace HandleRun

variable {T : ℕ}

/-- Neither binding overrides `ReInitBeforeTransaction`. -/
def start (v : Invocation T) : HandleRun T := .init (v.phases handleCode false) .static

def step (s : HandleRun T) (e : ThreadEvent (Fin T)) : Option (HandleRun T) :=
  Threads.step (fun _ a h => h.act a) s e

end HandleRun

end Ycsb
