import Ycsb.Lib.Merge
import Ycsb.Rocksdb

/-!
# Updates by the merge operator

With `rocksdb.mergeupdate` an update only adds an operand to the record. RocksDB
combines adjacent operands when it likes, and in any grouping, by `Merge`.
-/

namespace Ycsb

open Lib

namespace YCSBUpdateMerge

/-- The loop over `values` for one new field. -/
def mergeField (values : Row) (new : Field) : Row :=
  match replaceFirst new.1 new.2 values with
  | some values => values
  | none => values ++ [new]

/-- What `Merge` appends to `newValue`; `existing_value` is not null. -/
def merge (existing second newValue : Bytes) : Except Fault Bytes := do
  let (values, _) ← RocksdbDB.deserializeRow [] existing
  let (newValues, _) ← RocksdbDB.deserializeRow [] second
  return RocksdbDB.serializeRow (newValues.foldl mergeField values) newValue

/-- One way to combine a value and its operands. Each merge has a new string for its result. -/
def combine : FreeMagma Bytes → Except Fault Bytes
  | .of data => .ok data
  | .mul left right => do
    let existing ← combine left
    let second ← combine right
    merge existing second []

end YCSBUpdateMerge

/-- The value of a record and the operands that wait behind it, after one more `Merge` call. -/
def RocksdbDB.mergeSingle (record : FreeSemigroup Bytes) (values : Row) : FreeSemigroup Bytes :=
  record * FreeSemigroup.of (serializeRow values [])

end Ycsb
