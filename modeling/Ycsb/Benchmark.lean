import Ycsb.KeySpace
import Ycsb.Update

/-!
# A benchmark run over RocksDB

The client threads of both phases over one shared store. An operation ends in
calls of the store: the `Get` and the `Put` of `UpdateSingle` are two of them,
and other threads can come in between.
-/

namespace Ycsb

open Lib DB

/-- A call of the store inside an operation on a chosen key. -/
inductive StoreCall where
  | read
  | scan
  | get
  | put (data : Bytes)

/-- The calls that an operation begins with; `DB::Update` begins with a `Get`. -/
def Operation.calls : Operation → List StoreCall
  | .read => [.read]
  | .update => [.get]
  | .scan => [.scan]
  | .readModifyWrite => [.read, .get]
  | .insert | .delete | .rdidx => []

/-- `status` is what the last call of the database returned to a thread, `oks` its count in `ClientThread`. -/
structure Benchmark (S : KVStore Bytes Bytes) (T : ℕ) where
  clients : Clients T
  db : S.State
  calls : Fin T → List StoreCall
  status : Fin T → Status
  oks : Fin T → ℕ

inductive BenchmarkEvent (T : ℕ) where
  | client (e : ClientEvent T) (d : Draws)
  | call (t : Fin T) (d : Draws)

namespace CoreWorkload

variable (wl : CoreWorkload) (S : KVStore Bytes Bytes)

/-- One call: the store, the status, and the calls that follow from it. -/
def storeCall (db : S.State) (key : Bytes) (d : Draws) : StoreCall → Except Fault (S.State × Status × List StoreCall)
  | .read => do
    let (status, _) ← RocksdbDB.readSingle S wl.fieldCount db key (wl.readFields d) []
    return (db, status, [])
  | .scan => do
    let len := toInt (d.scanLen % 2 ^ 32)
    let (status, _) ← RocksdbDB.scanSingle S wl.fieldCount db key len (wl.readFields d) []
    return (db, status, [])
  | .get =>
    match S.get db key with
    | none => return (db, .kNotFound, [])
    | some data => do
      let data ← RocksdbDB.updateData wl.fieldCount (wl.newValues d) data
      return (db, .kOK, [.put data])
  | .put data => return (S.put db key data, .kOK, [])

end CoreWorkload

namespace Benchmark

variable {S : KVStore Bytes Bytes} {T : ℕ} (wl : CoreWorkload) (cfg : Settings) (b : Benchmark S T)

def init : Benchmark S T where
  clients := .init cfg
  db := S.empty
  calls _ := []
  status _ := .kError
  oks _ := 0

/-- `oks += wl->DoInsert(..)` or `oks += wl->DoTransaction(..)`. -/
def finish (t : Fin T) : Benchmark S T :=
  { b with oks := Function.update b.oks t (b.oks t + if b.status t = .kOK then 1 else 0) }

def insertRecord (t : Fin T) (d : Draws) : Benchmark S T :=
  match b.clients.pc t with
  | .inserting keyNum =>
    let (status, db) := RocksdbDB.insertSingle S b.db (wl.buildKeyName keyNum) (wl.newValues d)
    { b with db, status := Function.update b.status t status }
  | _ => b

/-- What an event does beside the key numbers. `RDIDX`, which returns a status that is not set, is left out. -/
def effect (d : Draws) : ClientEvent T → Option (Benchmark S T)
  | .next _ => if b.clients.phase = .load ∨ d.op = .insert then some b else none
  | .build _ | .check _ => some b
  | .insert t =>
    let b := b.insertRecord wl t d
    some (if b.clients.phase = .load then b.finish t else b)
  | .acknowledge t => some (b.finish t)
  | .choose t _ =>
    if b.clients.Ready t then
      if d.op.calls.isEmpty then none else some { b with calls := Function.update b.calls t d.op.calls }
    else some b
  | .touch t => if (b.calls t).isEmpty then some (b.finish t) else none
  | .rdidx _ => none
  | .join => some { b with oks := fun _ => 0 }

/-- `none` also when a call faults, which ends the program. -/
def step : BenchmarkEvent T → Option (Benchmark S T)
  | .client e d => (b.clients.step cfg e).bind fun clients => (b.effect wl d e).map fun b => { b with clients }
  | .call t d =>
    match b.clients.pc t, b.calls t with
    | .touching keyNum, c :: rest =>
      match wl.storeCall S b.db (wl.buildKeyName keyNum) d c with
      | .ok (db, status, more) =>
        some { b with
          db
          calls := Function.update b.calls t (more ++ rest)
          status := Function.update b.status t status }
      | .error _ => none
    | _, _ => none

end Benchmark

end Ycsb
