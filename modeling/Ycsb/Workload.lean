import Ycsb.Counter
import Ycsb.Rocksdb

/-!
# The core workload over RocksDB

`CoreWorkload` builds keys and rows, and turns each drawn operation into calls of
the binding. What its generators yield during an operation is given with the
operation.
-/

namespace Ycsb

open Lib DB

namespace utils

def kFNVOffsetBasis64 : ℕ := 0xCBF29CE484222325

def kFNVPrime64 : ℕ := 1099511628211

/-- One turn of the loop: the hash, and the value shifted. -/
def fnvStep (s : ℕ × ℕ) : ℕ × ℕ :=
  let octet := s.2 &&& 0x00ff
  (u64 ((s.1 ^^^ octet) * kFNVPrime64), s.2 >>> 8)

def fnvHash64 (val : ℕ) : ℕ := (Nat.repeat fnvStep 8 (kFNVOffsetBasis64, val)).1

def hash (val : ℕ) : ℕ := fnvHash64 val

end utils

inductive Operation where
  | insert
  | read
  | update
  | scan
  | readModifyWrite
  | delete
  | rdidx
  deriving DecidableEq

structure CoreWorkload where
  fieldCount : ℕ
  fieldPrefix : Bytes
  readAllFields : Bool
  writeAllFields : Bool
  orderedInserts : Bool
  zeroPadding : ℤ
  zeroPadding_int : -2 ^ 31 ≤ zeroPadding ∧ zeroPadding < 2 ^ 31

def CoreWorkload.default : CoreWorkload where
  fieldCount := 10
  fieldPrefix := [102, 105, 101, 108, 100]
  readAllFields := true
  writeAllFields := false
  orderedInserts := false
  zeroPadding := 20
  zeroPadding_int := by decide

/-- What the generators yield in one operation: `op_chooser_`, `key_chooser_` in
each turn of its loop, `field_chooser_`, `scan_len_chooser_`, and the bytes of
the field values in order. -/
structure Draws where
  op : Operation
  keyNums : List ℕ
  field : ℕ
  scanLen : ℕ
  bytes : ℕ → Bytes

def userPrefix : Bytes := [117, 115, 101, 114]

namespace CoreWorkload

variable (wl : CoreWorkload) (d : Draws)

def buildKeyName (keyNum : ℕ) : Bytes :=
  let keyNum := if wl.orderedInserts then keyNum else utils.hash keyNum
  let value := decimal keyNum
  -- a difference of two `int`s
  let fill := max 0 ((wl.zeroPadding - value.length).bmod (2 ^ 32))
  userPrefix ++ List.replicate fill.toNat 48 ++ value

def fieldName (i : ℕ) : Bytes := wl.fieldPrefix ++ decimal i

def buildValues : Row := (List.range wl.fieldCount).map fun i => (wl.fieldName i, d.bytes i)

/-- The call of `NextFieldName` is commented out, so the name stays empty. -/
def buildSingleValue : Row := [([], d.bytes 0)]

def nextFieldName : Bytes := wl.fieldName d.field

/-- The loop draws until a number is not above `Last()`; `none` as long as none was. -/
def nextTransactionKeyNum (g : AcknowledgedCounterGenerator) : Option ℕ :=
  d.keyNums.find? fun keyNum => !decide (g.last < keyNum)

def newValues : Row := if wl.writeAllFields then wl.buildValues d else buildSingleValue d

def readFields : Option (List Bytes) := if wl.readAllFields then none else some [wl.nextFieldName d]

end CoreWorkload

/-- The state of a run: the key sequences and the store. `updated` is the update
that the last operation made, if it returned `kOK`; `thrown` ends the program. -/
structure WorkloadState (S : KVStore Bytes Bytes) where
  insertKeySequence : CounterGenerator
  transactionInsertKeySequence : AcknowledgedCounterGenerator
  db : S.State
  updated : Option (Bytes × Row)
  thrown : Option Exception

inductive WorkloadEvent where
  | doInsert (d : Draws)
  | doTransaction (d : Draws)

namespace CoreWorkload

variable {S : KVStore Bytes Bytes} (wl : CoreWorkload) (s : WorkloadState S) (d : Draws)

def init (insertStart recordCount : ℕ) : WorkloadState S where
  insertKeySequence := ⟨insertStart⟩
  transactionInsertKeySequence := .init recordCount
  db := S.empty
  updated := none
  thrown := none

def doInsert : WorkloadState S × Bool :=
  let (keyNum, insertKeySequence) := s.insertKeySequence.next
  let key := wl.buildKeyName keyNum
  let values := wl.newValues d
  let (status, db) := RocksdbDB.insertSingle S s.db key values
  ({ s with insertKeySequence, db, updated := none }, status = .kOK)

def transactionRead (keyNum : ℕ) : Except Fault (WorkloadState S × Status) := do
  let key := wl.buildKeyName keyNum
  let (status, _) ← RocksdbDB.readSingle S wl.fieldCount s.db key (wl.readFields d) []
  return ({ s with updated := none }, status)

def transactionUpdate (keyNum : ℕ) : Except Fault (WorkloadState S × Status) := do
  let key := wl.buildKeyName keyNum
  let values := wl.newValues d
  let (status, db) ← RocksdbDB.updateSingle S wl.fieldCount s.db key values
  return ({ s with db, updated := if status = .kOK then some (key, values) else none }, status)

def transactionReadModifyWrite (keyNum : ℕ) : Except Fault (WorkloadState S × Status) := do
  let (s, _) ← transactionRead wl s d keyNum
  transactionUpdate wl s d keyNum

def transactionScan (keyNum : ℕ) : Except Fault (WorkloadState S × Status) := do
  let key := wl.buildKeyName keyNum
  let len := toInt (d.scanLen % 2 ^ 32)
  let (status, _) ← RocksdbDB.scanSingle S wl.fieldCount s.db key len (wl.readFields d) []
  return ({ s with updated := none }, status)

def transactionInsert : WorkloadState S × Status :=
  let (keyNum, seq) := s.transactionInsertKeySequence.next
  let key := wl.buildKeyName keyNum
  let values := wl.newValues d
  let (status, db) := RocksdbDB.insertSingle S s.db key values
  match seq.acknowledge keyNum with
  | .ok seq => ({ s with transactionInsertKeySequence := seq, db, updated := none }, status)
  | .error e => ({ s with transactionInsertKeySequence := seq, db, updated := none, thrown := some e }, status)

/-- An operation on a drawn key; without a key yet, it is still drawing. -/
def withKey (f : ℕ → Except Fault (WorkloadState S × Status)) : Except Fault (WorkloadState S × Option Status) :=
  match nextTransactionKeyNum d s.transactionInsertKeySequence with
  | some keyNum => (f keyNum).map fun r => (r.1, some r.2)
  | none => .ok ({ s with updated := none }, none)

/-- The state and the status, which `RDIDX` leaves undetermined. -/
def doTransaction : Except Fault (WorkloadState S × Option Status) :=
  match d.op with
  | .read => withKey s d (transactionRead wl s d)
  | .update => withKey s d (transactionUpdate wl s d)
  | .insert =>
    let r := transactionInsert wl s d
    .ok (r.1, some r.2)
  | .scan => withKey s d (transactionScan wl s d)
  | .readModifyWrite => withKey s d (transactionReadModifyWrite wl s d)
  | .rdidx => .ok ({ s with updated := none }, none)
  | .delete =>
    .ok ({ s with updated := none, thrown := some ⟨"Operation request is not recognized!"⟩ }, none)

def step : WorkloadEvent → Except Fault (WorkloadState S)
  | .doInsert d => if s.thrown.isSome then .ok s else .ok (doInsert wl s d).1
  | .doTransaction d => if s.thrown.isSome then .ok s else (doTransaction wl s d).map Prod.fst

end CoreWorkload

end Ycsb
