import Mathlib.Logic.Function.Basic
import Ycsb.Leveldb

/-!
# Concurrent updates of one record

`UpdateSingle` and `UpdateSingleEntry` read the record, change it and write it
back. The store is shared; its `Get` and its `Put` are the atomic steps.
-/

namespace Ycsb

open Lib DB

/-- What `UpdateSingle` does between its `Get` and its `Put`. -/
def RocksdbDB.updateData (fieldcount : ℕ) (values : Row) (data : Bytes) : Except Fault Bytes := do
  let current ← deserializeFull fieldcount [] data
  let current ← values.foldlM updateField current
  return serializeRow current []

inductive Binding where
  | rocksdb
  | leveldb

def Binding.modify : Binding → ℕ → Row → Bytes → Except Fault Bytes
  | .rocksdb => RocksdbDB.updateData
  | .leveldb => LeveldbDB.updateEntry

def Binding.update (b : Binding) (S : KVStore Bytes Bytes) :
    ℕ → S.State → Bytes → Row → Except Fault (Status × S.State) :=
  match b with
  | .rocksdb => RocksdbDB.updateSingle S
  | .leveldb => LeveldbDB.updateSingleEntry S

inductive UpdatePc where
  | start
  | modified (data : Bytes)
  | returned (s : Status)
  | faulted (e : Fault)

structure Updates (S : KVStore Bytes Bytes) (ι : Type) where
  db : S.State
  pc : ι → UpdatePc

namespace Updates

variable {ι : Type} [DecidableEq ι] (b : Binding) {S : KVStore Bytes Bytes} (fieldcount : ℕ) (key : Bytes)
  (values : ι → Row)

def init (db : S.State) : Updates S ι := ⟨db, fun _ => .start⟩

def afterGet (values : Row) : Option Bytes → UpdatePc
  | none => .returned .kNotFound
  | some data =>
    match b.modify fieldcount values data with
    | .error e => .faulted e
    | .ok data => .modified data

def step (s : Updates S ι) (i : ι) : Option (Updates S ι) :=
  match s.pc i with
  | .start => some { s with pc := Function.update s.pc i (afterGet b fieldcount (values i) (S.get s.db key)) }
  | .modified data => some { db := S.put s.db key data, pc := Function.update s.pc i (.returned .kOK) }
  | .returned _ | .faulted _ => none

end Updates

end Ycsb
