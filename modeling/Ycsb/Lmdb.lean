import Ycsb.Handle
import Ycsb.Lib.Txn
import Ycsb.Rocksdb

/-!
# The LMDB binding

Every method is a transaction on a map of bytes. `Read` takes a snapshot; the
others, `Scan` too, are write transactions. A call of LMDB that fails throws, and
`main` ends the process.
-/

namespace Ycsb

open Lib DB

namespace LmdbDB

inductive Failure where
  | fault (f : Fault)
  | exception (what : String)

abbrev Prog := TxnProg Bytes Bytes ℤ Failure Reply

variable (notFound : ℤ) (strerror : ℤ → String) (fieldCount : ℕ)

def failed (what : String) (ret : ℤ) : Failure := .exception (what ++ strerror ret)

def asserted {α : Type} (x : Except Fault α) (k : α → Prog) : Prog :=
  match x with
  | .error f => .throw (.fault f)
  | .ok a => k a

/-- A return code other than zero is thrown. -/
def checked (o : TxnOp Bytes Bytes) (what : String) (k : Bytes → Prog) : Prog :=
  .call o fun
    | .error ret => .throw (failed strerror what ret)
    | .ok val => k (val.getD [])

def serializeRow (values : Row) : Bytes := RocksdbDB.serializeRow values []

def deserializeRow (values : Row) (data : Bytes) : Except Fault Row := RocksdbDB.deserializeFull fieldCount values data

def deserializeRowFilter (values : Row) (data : Bytes) (fields : List Bytes) : Except Fault Row :=
  RocksdbDB.deserializeRowFilter values data fields

def deserializeSelected (values : Row) (data : Bytes) : Option (List Bytes) → Except Fault Row
  | some fields => deserializeRowFilter values data fields
  | none => deserializeRow fieldCount values data

/-! ## What the methods do behind `mdb_txn_begin` -/

def read (key : Bytes) (fields : Option (List Bytes)) (result : Row) : Prog :=
  .call (.get key) fun
    | .error ret =>
      if ret = notFound then .abort (.row .kNotFound result) else .throw (failed strerror "Read mdb_get: " ret)
    | .ok val =>
      asserted (deserializeSelected fieldCount result (val.getD []) fields) fun result => .abort (.row .kOK result)

def scanCleanup (s : Status) (result : List Row) : Prog := .call .cursorClose fun _ => .abort (.rows s result)

/-- The loop of `Scan`. Whatever `MDB_NEXT` fails with ends it. -/
def scanLoop (fields : Option (List Bytes)) : ℕ → Bytes → List Row → Prog
  | 0, _, result => scanCleanup .kOK result
  | n + 1, val, result =>
    asserted (deserializeSelected fieldCount [] val fields) fun values =>
      .call .cursorNext fun
        | .error _ => scanCleanup .kOK (result ++ [values])
        | .ok val => scanLoop fields n (val.getD []) (result ++ [values])

/-- `MDB_SET` finds the key itself only. -/
def scan (key : Bytes) (len : ℤ) (fields : Option (List Bytes)) (result : List Row) : Prog :=
  checked strerror .cursorOpen "Scan mdb_cursor_open: " fun _ =>
    .call (.cursorSet key) fun
      | .error ret =>
        if ret = notFound then scanCleanup .kNotFound result
        else .throw (failed strerror "Scan mdb_cursor_get: " ret)
      | .ok val => scanLoop fieldCount fields len.toNat (val.getD []) result

def update (key : Bytes) (values : Row) : Prog :=
  checked strerror (.get key) "Update mdb_get: " fun val =>
    asserted (deserializeRow fieldCount [] val) fun current =>
      asserted (values.foldlM RocksdbDB.updateField current) fun current =>
        checked strerror (.put key (serializeRow current)) "Update mdb_put: " fun _ =>
          .commit (.status .kOK) (failed strerror "Update mdb_txn_commit: ")

def insert (key : Bytes) (values : Row) : Prog :=
  checked strerror (.put key (serializeRow values)) "Insert mdb_put: " fun _ =>
    .commit (.status .kOK) (failed strerror "Insert mdb_txn_commit: ")

def delete (key : Bytes) : Prog :=
  checked strerror (.del key) "Delete mdb_del: " fun _ =>
    .commit (.status .kOK) (failed strerror "Delete mdb_txn_commit: ")

def body : Call → Prog
  | .read key fields => read notFound strerror fieldCount key fields []
  | .scan key len fields => scan notFound strerror fieldCount key len fields []
  | .update key values => update strerror fieldCount key values
  | .insert key values => insert strerror key values
  | .delete key => delete strerror key

/-- The flags of `mdb_txn_begin`. `Scan` begins a write transaction and aborts it. -/
def readOnly : Call → Bool
  | .read _ _ => true
  | .scan _ _ _ | .update _ _ | .insert _ _ | .delete _ => false

def beginFailed : Call → ℤ → Failure
  | .read _ _ => failed strerror "Read mdb_txn_begin: "
  | .scan _ _ _ => failed strerror "Scan mdb_txn_begin: "
  | .update _ _ => failed strerror "Update mdb_txn_begin: "
  | .insert _ _ => failed strerror "Insert mdb_txn_begin: "
  | .delete _ => failed strerror "Delete mdb_txn_begin: "

def code : TxnCode Bytes Bytes ℤ Failure Call Reply := ⟨readOnly, beginFailed strerror, body notFound strerror fieldCount⟩

end LmdbDB

/-! ## The shared environment -/

/-- The static members. Environments are numbered in the order they are opened. -/
structure LmdbEnv where
  env : Option ℕ
  refCnt : ℤ
  opened : ℕ
  closed : List ℕ

namespace LmdbEnv

def static : LmdbEnv := ⟨none, 0, 0, []⟩

def init (e : LmdbEnv) : LmdbEnv :=
  let refCnt := e.refCnt
  let e := { e with refCnt := refCnt + 1 }
  if refCnt ≠ 0 then e else { e with env := some e.opened, opened := e.opened + 1 }

def cleanup (e : LmdbEnv) : LmdbEnv :=
  let e := { e with refCnt := e.refCnt - 1 }
  if e.refCnt ≠ 0 then e else { e with closed := e.closed ++ e.env.toList }

def act (e : LmdbEnv) : HandleAct → LmdbEnv
  | .init => e.init
  | .op => e
  | .cleanup => e.cleanup

def IsOpen (e : LmdbEnv) : Prop := ∃ k, e.env = some k ∧ k < e.opened ∧ k ∉ e.closed

end LmdbEnv

abbrev LmdbEnvRun (T : ℕ) := Threads (Fin T) HandleAct LmdbEnv

namespace LmdbEnvRun

variable {T : ℕ}

def start (v : Invocation T) : LmdbEnvRun T := .init (v.phases handleCode false) .static

def step (s : LmdbEnvRun T) (e : Lib.ThreadEvent (Fin T)) : Option (LmdbEnvRun T) :=
  Threads.step (fun _ a e => e.act a) s e

end LmdbEnvRun

end Ycsb
