import Ycsb.Lib.Cursor
import Ycsb.Rocksdb

/-!
# Scans of the WiredTiger binding

One row for each key, in RocksDB's format. A scan positions the cursor of the
session and takes its rows from there.
-/

namespace Ycsb

open Lib DB

namespace WTDB

/-- `error_check` throws when a call of WiredTiger fails. -/
inductive Failure where
  | fault (e : Fault)
  | thrown
  deriving DecidableEq

def deserializeRow (fieldcount : ℕ) (values : Row) (data : Bytes) : Except Fault Row :=
  RocksdbDB.deserializeFull fieldcount values data

def deserializeRowFilter (values : Row) (data : Bytes) (fields : List Bytes) : Except Fault Row :=
  RocksdbDB.deserializeRowFilter values data fields

section
variable (C : Cursor Bytes Bytes) (fieldcount : ℕ) (fields : Option (List Bytes))

/-- The row that a turn of the loop decodes. -/
def decodeRow (data : Bytes) : Except Fault Row :=
  match fields with
  | some fields => deserializeRowFilter [] data fields
  | none => deserializeRow fieldcount [] data

/-- `for (; !ret && i < len; ++i)`, with `len` turns left. Nothing in it assigns `ret` or moves the cursor. -/
def scanLoop (pos : C.Pos) : ℕ → List Row → Except Fault (List Row)
  | 0, result => .ok result
  | len + 1, result => do
    let values ← decodeRow fieldcount fields (C.entry pos).2
    scanLoop pos len (result ++ [values])

def scanSingleEntry (key : Bytes) (len : ℤ) (result : List Row) : Except Failure (Status × List Row) := do
  let (pos, exact) ← match C.searchNear key with
    | some found => .ok found
    | none => .error .thrown
  match if exact < 0 then C.next pos else some pos with
  | none => return (.kOK, result)
  | some pos =>
    let result ← (scanLoop C fieldcount fields pos len.toNat result).mapError .fault
    return (.kOK, result)

end

end WTDB

end Ycsb
