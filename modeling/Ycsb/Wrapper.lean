import Mathlib.Algebra.Order.Ring.Rat
import Ycsb.Workload

/-!
# The measuring wrapper and `DoTransaction` over it

`DBWrapper` forwards each call to the wrapped database, times it and reports it.
The wrapped database is arbitrary.
-/

namespace Ycsb

open Lib DB

/-- The indices of the measurements: the operations, and after them their `_FAILED` variants. -/
inductive OpType where
  | done (op : Operation)
  | failed (op : Operation)
  deriving DecidableEq

inductive WrappedCall where
  | call (c : Call)
  | readIdx (idx : ℕ)

/-- What the wrapped database does with a call: its new state, the status or the exception, and
the time it took. -/
abbrev Behaviour (δ : Type) := δ → WrappedCall → δ × Except Exception Status × ℕ

/-- A `DBWrapper` with its measurements. `calls` are the calls that reached the wrapped database. -/
structure DBWrapper (δ : Type) where
  db : δ
  calls : List (WrappedCall × Except Exception Status)
  reports : List (OpType × ℕ)

namespace DBWrapper

variable {δ : Type} (base : Behaviour δ) (w : DBWrapper δ)

/-- An exception of the wrapped call passes by `Report`. -/
def timed (op : Operation) (c : WrappedCall) : Except Exception Status × DBWrapper δ :=
  let (db, answer, elapsed) := base w.db c
  let calls := w.calls ++ [(c, answer)]
  match answer with
  | .ok s =>
    (.ok s, { db, calls, reports := w.reports ++ [(if s = .kOK then .done op else .failed op, elapsed)] })
  | .error e => (.error e, { w with db, calls })

def read (key : Bytes) (fields : Option (List Bytes)) : Except Exception Status × DBWrapper δ :=
  timed base w .read (.call (.read key fields))

def scan (key : Bytes) (recordCount : ℤ) (fields : Option (List Bytes)) : Except Exception Status × DBWrapper δ :=
  timed base w .scan (.call (.scan key recordCount fields))

def update (key : Bytes) (values : Row) : Except Exception Status × DBWrapper δ :=
  timed base w .update (.call (.update key values))

def insert (key : Bytes) (values : Row) : Except Exception Status × DBWrapper δ :=
  timed base w .insert (.call (.insert key values))

def delete (key : Bytes) : Except Exception Status × DBWrapper δ := timed base w .delete (.call (.delete key))

def readIdx (idx : ℕ) : Except Exception Status × DBWrapper δ := timed base w .rdidx (.readIdx idx)

end DBWrapper

structure Proportions where
  read : ℚ
  update : ℚ
  insert : ℚ
  scan : ℚ
  readModifyWrite : ℚ
  rdidx : ℚ

/-- The operations that `Init` adds to `op_chooser_`. -/
def Proportions.opChooser (p : Proportions) : List Operation :=
  [(Operation.read, p.read), (.update, p.update), (.insert, p.insert), (.scan, p.scan),
    (.readModifyWrite, p.readModifyWrite), (.rdidx, p.rdidx)].filterMap
    fun v => if 0 < v.2 then some v.1 else none

/-- A client thread's view: the key sequence and the wrapper. -/
structure Driver (δ : Type) where
  transactionInsertKeySequence : AcknowledgedCounterGenerator
  wrapper : DBWrapper δ

namespace Driver

variable {δ : Type} (wl : CoreWorkload) (base : Behaviour δ) (s : Driver δ) (d : Draws)

/-- An operation on a drawn key; `none` while the loop of `NextTransactionKeyNum` has not ended. -/
def withKey (f : ℕ → Except Exception Status × DBWrapper δ) : Option (Except Exception Status) × Driver δ :=
  match CoreWorkload.nextTransactionKeyNum d s.transactionInsertKeySequence with
  | some keyNum =>
    let (status, wrapper) := f keyNum
    (some status, { s with wrapper })
  | none => (none, s)

def transactionRead (keyNum : ℕ) : Except Exception Status × DBWrapper δ :=
  let key := wl.buildKeyName keyNum
  DBWrapper.read base s.wrapper key (wl.readFields d)

def transactionReadModifyWrite (keyNum : ℕ) : Except Exception Status × DBWrapper δ :=
  let key := wl.buildKeyName keyNum
  match DBWrapper.read base s.wrapper key (wl.readFields d) with
  | (.ok _, wrapper) => DBWrapper.update base wrapper key (wl.newValues d)
  | (.error e, wrapper) => (.error e, wrapper)

def transactionScan (keyNum : ℕ) : Except Exception Status × DBWrapper δ :=
  let key := wl.buildKeyName keyNum
  let len := toInt (d.scanLen % 2 ^ 32)
  DBWrapper.scan base s.wrapper key len (wl.readFields d)

def transactionUpdate (keyNum : ℕ) : Except Exception Status × DBWrapper δ :=
  let key := wl.buildKeyName keyNum
  DBWrapper.update base s.wrapper key (wl.newValues d)

def transactionInsert : Except Exception Status × Driver δ :=
  let (keyNum, seq) := s.transactionInsertKeySequence.next
  let key := wl.buildKeyName keyNum
  match DBWrapper.insert base s.wrapper key (wl.newValues d) with
  | (.ok status, wrapper) =>
    match seq.acknowledge keyNum with
    | .ok transactionInsertKeySequence => (.ok status, { transactionInsertKeySequence, wrapper })
    | .error e => (.error e, { transactionInsertKeySequence := seq, wrapper })
  | (.error e, wrapper) => (.error e, { transactionInsertKeySequence := seq, wrapper })

/-- `TransactionReadIdx`, which nothing calls. -/
def transactionReadIdx (idx : ℕ) : Except Exception Status × DBWrapper δ := DBWrapper.readIdx base s.wrapper idx

/-- `status` is a local without initial value; `uninit` is what it holds then. -/
def doTransaction (uninit : Status) : Option (Except Exception Bool) × Driver δ :=
  let (status, s') := match d.op with
    | .read => s.withKey d (s.transactionRead wl base d)
    | .update => s.withKey d (s.transactionUpdate wl base d)
    | .insert =>
      let (status, s') := s.transactionInsert wl base d
      (some status, s')
    | .scan => s.withKey d (s.transactionScan wl base d)
    | .readModifyWrite => s.withKey d (s.transactionReadModifyWrite wl base d)
    | .rdidx => (some (.ok uninit), s)
    | .delete => (some (.error ⟨"Operation request is not recognized!"⟩), s)
  (status.map (Except.map fun status => decide (status = .kOK)), s')

end Driver

/-- What one `DoTransaction` did: its calls and reports, and what it returned or threw; `none` if
it is still drawing a key. -/
structure Outcome where
  op : Operation
  calls : List (WrappedCall × Except Exception Status)
  reports : List (OpType × ℕ)
  ending : Option (Except Exception Bool)

/-- The transactions of a thread; one that does not return is the last. -/
def Driver.runAll {δ : Type} (wl : CoreWorkload) (base : Behaviour δ) :
    Driver δ → List (Draws × Status) → List Outcome × Driver δ
  | s, [] => ([], s)
  | s, d :: ds =>
    let (ending, s') := s.doTransaction wl base d.1 d.2
    let o : Outcome := ⟨d.1.op, s'.wrapper.calls.drop s.wrapper.calls.length,
      s'.wrapper.reports.drop s.wrapper.reports.length, ending⟩
    match ending with
    | some (.ok _) =>
      let (outcomes, s'') := runAll wl base s' ds
      (o :: outcomes, s'')
    | _ => ([o], s')

end Ycsb
