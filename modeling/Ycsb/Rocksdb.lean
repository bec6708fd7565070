import Ycsb.Lib.KVStore
import Ycsb.Row

/-!
# The RocksDB binding, single format

The methods that `Init` selects for `rocksdb.format=single`, over any store with
the calls of RocksDB. A failed `assert` and an access outside a buffer are faults.
-/

namespace Ycsb

open Lib

namespace DB

inductive Status where
  | kOK
  | kError
  | kNotFound
  | kNotImplemented
  deriving DecidableEq, Repr

/-- A call of the `DB` interface. `fields = none` is `NULL`: all fields. -/
inductive Call where
  | read (key : Bytes) (fields : Option (List Bytes))
  | scan (key : Bytes) (len : ℤ) (fields : Option (List Bytes))
  | update (key : Bytes) (values : Row)
  | insert (key : Bytes) (values : Row)
  | delete (key : Bytes)

inductive Reply where
  | status (s : Status)
  | row (s : Status) (result : Row)
  | rows (s : Status) (result : List Row)
  deriving DecidableEq

end DB

namespace RocksdbDB

open DB

variable (S : KVStore Bytes Bytes) (fieldcount : ℕ)

/-- `DeserializeRow` and the assertion behind it. -/
def deserializeFull (result : Row) (data : Bytes) : Except Fault Row := do
  let (result, _) ← deserializeRow result data
  if result.length = fieldcount then return result else throw .assertion

def deserializeSelected (result : Row) (data : Bytes) : Option (List Bytes) → Except Fault Row
  | some fields => deserializeRowFilter result data fields
  | none => deserializeFull fieldcount result data

def readSingle (db : S.State) (key : Bytes) (fields : Option (List Bytes)) (result : Row) :
    Except Fault (Status × Row) :=
  match S.get db key with
  | none => return (.kNotFound, result)
  | some data => do
    let result ← deserializeSelected fieldcount result data fields
    return (.kOK, result)

def scanSingle (db : S.State) (key : Bytes) (len : ℤ) (fields : Option (List Bytes)) (result : List Row) :
    Except Fault (Status × List Row) := do
  let result ← S.forEach (fun (result : List Row) entry => do
    let values ← deserializeSelected fieldcount [] entry.2 fields
    return result ++ [values]) len.toNat (S.seek db key) result
  return (.kOK, result)

/-- The loop over `current_values` for one new field; `found` is asserted. -/
def updateField (current : Row) (new : Field) : Except Fault Row :=
  match replaceFirst new.1 new.2 current with
  | some current => return current
  | none => throw .assertion

def updateSingle (db : S.State) (key : Bytes) (values : Row) : Except Fault (Status × S.State) :=
  match S.get db key with
  | none => return (.kNotFound, db)
  | some data => do
    let current ← deserializeFull fieldcount [] data
    let current ← values.foldlM updateField current
    return (.kOK, S.put db key (serializeRow current []))

def insertSingle (db : S.State) (key : Bytes) (values : Row) : Status × S.State :=
  (.kOK, S.put db key (serializeRow values []))

def deleteSingle (db : S.State) (key : Bytes) : Status × S.State := (.kOK, S.delete db key)

def call (db : S.State) : Call → Except Fault (S.State × Reply)
  | .read key fields => do
    let (s, result) ← readSingle S fieldcount db key fields []
    return (db, .row s result)
  | .scan key len fields => do
    let (s, result) ← scanSingle S fieldcount db key len fields []
    return (db, .rows s result)
  | .update key values => do
    let (s, db) ← updateSingle S fieldcount db key values
    return (db, .status s)
  | .insert key values =>
    let (s, db) := insertSingle S db key values
    return (db, .status s)
  | .delete key =>
    let (s, db) := deleteSingle S db key
    return (db, .status s)

end RocksdbDB

end Ycsb
