import Mathlib.Logic.Function.Basic
import Ycsb.KeySpace
import Ycsb.Workload

/-!
# The checking workload

A load in which the thread that counts insert `checkingcount + 1` ends the process,
whatever the other threads are doing, and a later run that reads the keys from the
first on and counts those it finds.
-/

namespace Ycsb

open Lib DB

/-! ## The load -/

/-- Where a thread is in `DoInsert`: in `DB::Insert`, behind it and before `fetch_add`, or in `exit`. -/
inductive InsertPc where
  | idle
  | inserting (keyNum : ℕ)
  | uncounted
  | exiting
  deriving DecidableEq

/-- `inserted` are the numbers whose insert has returned, in that order. -/
structure CheckedLoad (S : KVStore Bytes Bytes) (T : ℕ) where
  insertKeySequence : CounterGenerator
  txCount : ℤ
  left : Fin T → ℕ
  pc : Fin T → InsertPc
  inserted : List ℕ
  db : S.State
  exited : Bool

inductive CheckedEvent (T : ℕ) where
  | next (t : Fin T)
  | insert (t : Fin T) (d : Draws)
  | count (t : Fin T)
  | exit (t : Fin T)

namespace CheckedLoad

variable {S : KVStore Bytes Bytes} {T : ℕ} (wl : CoreWorkload) (stopAt : ℤ) (s : CheckedLoad S T)

def init (insertStart recordCount : ℕ) : CheckedLoad S T where
  insertKeySequence := ⟨insertStart⟩
  txCount := 0
  left t := threadOps recordCount T t
  pc _ := .idle
  inserted := []
  db := S.empty
  exited := false

/-- `CheckingWorkload::DoInsert`. The thread that sees `stop_at_` calls `exit`, and the others run on
until the process has ended. -/
def step (e : CheckedEvent T) : Option (CheckedLoad S T) :=
  if s.exited then none
  else
    match e with
    | .next t =>
      if s.pc t = .idle ∧ 0 < s.left t then
        let (keyNum, insertKeySequence) := s.insertKeySequence.next
        some { s with
          insertKeySequence
          left := Function.update s.left t (s.left t - 1)
          pc := Function.update s.pc t (.inserting keyNum) }
      else none
    | .insert t d =>
      match s.pc t with
      | .inserting keyNum =>
        let (_, db) := RocksdbDB.insertSingle S s.db (wl.buildKeyName keyNum) (wl.newValues d)
        some { s with db, pc := Function.update s.pc t .uncounted, inserted := s.inserted ++ [keyNum] }
      | _ => none
    | .count t =>
      match s.pc t with
      | .uncounted =>
        some { s with
          txCount := s.txCount + 1
          pc := Function.update s.pc t (if s.txCount = stopAt then .exiting else .idle) }
      | _ => none
    | .exit t => if s.pc t = .exiting then some { s with exited := true } else none

end CheckedLoad

/-! ## The check -/

/-- `pc` is the number that a thread is reading. -/
structure CheckRun (T : ℕ) where
  insertKeySequence : CounterGenerator
  correctCount : ℕ
  left : Fin T → ℕ
  pc : Fin T → Option ℕ
  oks : Fin T → ℕ

inductive CheckEvent (T : ℕ) where
  | next (t : Fin T)
  | read (t : Fin T) (d : Draws)

namespace CheckRun

variable {T : ℕ} (S : KVStore Bytes Bytes) (wl : CoreWorkload) (db : S.State) (s : CheckRun T)

def init (insertStart operationCount : ℕ) : CheckRun T where
  insertKeySequence := ⟨insertStart⟩
  correctCount := 0
  left t := threadOps operationCount T t
  pc _ := none
  oks _ := 0

def Returned : Prop := ∀ t, s.pc t = none ∧ s.left t = 0

instance : Decidable s.Returned := inferInstanceAs (Decidable (∀ t, s.pc t = none ∧ s.left t = 0))

/-- `CheckingWorkload::DoTransaction`. A read that faults ends the process. -/
def step : CheckEvent T → Option (CheckRun T)
  | .next t =>
    if s.pc t = none ∧ 0 < s.left t then
      let (keyNum, insertKeySequence) := s.insertKeySequence.next
      some { s with
        insertKeySequence
        left := Function.update s.left t (s.left t - 1)
        pc := Function.update s.pc t (some keyNum) }
    else none
  | .read t d =>
    match s.pc t with
    | none => none
    | some keyNum =>
      match RocksdbDB.readSingle S wl.fieldCount db (wl.buildKeyName keyNum) (wl.readFields d) [] with
      | .error _ => none
      | .ok (status, _) =>
        some { s with
          correctCount := s.correctCount + if status = .kOK then 1 else 0
          pc := Function.update s.pc t none
          oks := Function.update s.oks t (s.oks t + if status = .kOK then 1 else 0) }

end CheckRun

end Ycsb
