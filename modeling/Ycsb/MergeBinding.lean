import Ycsb.Lib.MergeStore
import Ycsb.UpdateMerge

/-!
# The RocksDB binding with `rocksdb.mergeupdate`

`Init` selects `MergeSingle` for updates. It reads nothing: it leaves an operand,
which RocksDB merges when a reader comes, or earlier in the background.
-/

namespace Ycsb

open Lib DB

/-- `Merge` as RocksDB calls it: there may be no value, and the string for the result is new. -/
def YCSBUpdateMerge.mergeValue (existing : Option Bytes) (second : Bytes) : Except Fault Bytes :=
  match existing with
  | none => throw .assertion
  | some existing => merge existing second []

namespace MergeDB

variable (M : MergeStore Bytes Bytes Fault) (fieldcount : ℕ)

/-- `Get`, then the fields of the row. -/
def readSingle (db : M.State) (key : Bytes) (fields : Option (List Bytes)) (result : Row) :
    Except Fault (Status × Row) := do
  match ← M.get db key with
  | none => return (.kNotFound, result)
  | some data => do
    let result ← RocksdbDB.deserializeSelected fieldcount result data fields
    return (.kOK, result)

def scanSingle (db : M.State) (key : Bytes) (len : ℤ) (fields : Option (List Bytes)) (result : List Row) :
    Except Fault (Status × List Row) := do
  let dbIter ← M.seek db key
  let result ← M.forEach (fun (result : List Row) entry => do
    let values ← RocksdbDB.deserializeSelected fieldcount [] entry.2 fields
    return result ++ [values]) len.toNat dbIter result
  return (.kOK, result)

def mergeSingle (db : M.State) (key : Bytes) (values : Row) : Status × M.State :=
  (.kOK, M.merge db key (RocksdbDB.serializeRow values []))

def insertSingle (db : M.State) (key : Bytes) (values : Row) : Status × M.State :=
  (.kOK, M.put db key (RocksdbDB.serializeRow values []))

def deleteSingle (db : M.State) (key : Bytes) : Status × M.State := (.kOK, M.delete db key)

def call (db : M.State) : Call → Except Fault (M.State × Reply)
  | .read key fields => do
    let (s, result) ← readSingle M fieldcount db key fields []
    return (db, .row s result)
  | .scan key len fields => do
    let (s, result) ← scanSingle M fieldcount db key len fields []
    return (db, .rows s result)
  | .update key values =>
    let (s, db) := mergeSingle M db key values
    return (db, .status s)
  | .insert key values =>
    let (s, db) := insertSingle M db key values
    return (db, .status s)
  | .delete key =>
    let (s, db) := deleteSingle M db key
    return (db, .status s)

end MergeDB

/-- A call of some client, or what RocksDB does in the background. -/
inductive MergeEvent (ω : Type) where
  | call (c : Call)
  | work (w : ω)

namespace MergeEvent

variable (M : MergeStore Bytes Bytes Fault) (fieldcount : ℕ)

def step (db : M.State) : MergeEvent M.Work → Except Fault (M.State × Option Reply)
  | .call c => do
    let (db, r) ← MergeDB.call M fieldcount db c
    return (db, some r)
  | .work w => do
    let db ← M.work db w
    return (db, none)

def calls {ω : Type} (es : List (MergeEvent ω)) : List Call :=
  es.filterMap fun e =>
    match e with
    | .call c => some c
    | .work _ => none

end MergeEvent

end Ycsb
