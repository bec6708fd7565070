import Ycsb.Lib.Trans
import Ycsb.Rpc

/-!
# The SQLite server

A server thread answers `READ` from a buffer of its own, the other requests from
the buffer that comes with each request. SQLite keeps one table of texts, which
all threads change. Which call of SQLite fails, if it is made, is part of the request.
-/

namespace Ycsb

open Lib DB

abbrev SqlTable := Bytes → Option Bytes

inductive SqlReqType where
  | read
  | update
  | insert
  | delete
  deriving DecidableEq

inductive SqliteCall where
  | prepare
  | bind
  | step
  deriving DecidableEq

inductive SqlStmt where
  | update (key value : Bytes)
  | insert (key value : Bytes)
  | delete (key : Bytes)

/-- What SQLite makes of the table when it steps a statement, `none` if the step fails. -/
abbrev SqlExec := SqlStmt → SqlTable → Option SqlTable

/-- A table with a primary key. -/
def SqlStmt.onTable : SqlExec
  | .update key value, table => some (if (table key).isSome then Function.update table key (some value) else table)
  | .insert key value, table => if (table key).isSome then none else some (Function.update table key (some value))
  | .delete key, table => some (Function.update table key none)

/-- A server thread, and the table. `prepared` are the statements in `prepared_stmts_`. -/
structure SqliteSvr where
  table : SqlTable
  prepared : SqlReqType → Bool
  context : ServerContext

namespace SqliteSvr

def init (table : SqlTable) (msgSize preSize : ℕ) : SqliteSvr where
  table := table
  prepared := fun _ => false
  context := ⟨.alloc msgSize, .alloc preSize⟩

def deserializeKey (mem : Bytes) : Except Fault Bytes := do
  let len ← read32 mem 0
  readBytes mem 4 len

/-- The status in front of what the buffer holds, whose size stays. -/
def putStatus (resp : MsgBuffer) (s : Status) : Except Fault MsgBuffer := do
  let buf ← write resp.buf 0 (leStatus s)
  return { resp with buf }

variable (svr : SqliteSvr) (req : Bytes) (failed : Option SqliteCall)

/-- The buffer to answer with, behind the preparation of the statement. -/
def readResponse (key : Bytes) : Except Fault MsgBuffer :=
  let resp := svr.context.respBuf
  if failed = some .bind then RocksdbSvr.writeStatus resp .kError
  else if failed = some .step then putStatus resp .kError
  else
    match svr.table key with
    | some value => do
      let resp ← resp.resize (4 + value.length)
      let buf ← write resp.buf 0 (leStatus .kOK)
      let buf ← write buf 4 value
      return { resp with buf }
    | none => putStatus resp .kNotFound

def readHandler : Except Fault SqliteSvr := do
  let key ← deserializeKey req
  if svr.prepared .read = false ∧ failed = some .prepare then
    let respBuf ← RocksdbSvr.writeStatus svr.context.respBuf .kError
    return { svr with context := { svr.context with respBuf } }
  let respBuf ← readResponse svr failed key
  return { svr with
    prepared := Function.update svr.prepared .read true
    context := { svr.context with respBuf } }

variable (sql : SqlExec)

/-- The handlers that change the table. -/
def writeHandler (type : SqlReqType) (stmt : Bytes → Bytes → SqlStmt) : Except Fault SqliteSvr := do
  let key ← deserializeKey req
  let offset := key.length + 4
  let value ← readBytes req offset (req.length - offset)
  if svr.prepared type = false ∧ failed = some .prepare then
    let preResp ← RocksdbSvr.writeStatus svr.context.preResp .kError
    return { svr with context := { svr.context with preResp } }
  let prepared := Function.update svr.prepared type true
  let done := if failed = some .bind ∨ failed = some .step then none else sql (stmt key value) svr.table
  let preResp ← RocksdbSvr.writeStatus svr.context.preResp (if done.isSome then .kOK else .kError)
  return { table := done.getD svr.table, prepared, context := { svr.context with preResp } }

def insertHandler : Except Fault SqliteSvr := writeHandler svr req failed sql .insert .insert

def updateHandler : Except Fault SqliteSvr := writeHandler svr req failed sql .update .update

def deleteHandler : Except Fault SqliteSvr := writeHandler svr req failed sql .delete fun key _ => .delete key

def handler : SqlReqType → Except Fault SqliteSvr
  | .read => readHandler svr req failed
  | .update => updateHandler svr req failed sql
  | .insert => insertHandler svr req failed sql
  | .delete => deleteHandler svr req failed sql

/-- A statement that is prepared is not prepared again. -/
def Possible (type : SqlReqType) : Prop := failed = some .prepare → svr.prepared type = false

instance (type : SqlReqType) : Decidable (Possible svr failed type) := by unfold Possible; infer_instance

end SqliteSvr

/-- What happens to a server thread: its requests, and what other threads do to the table. -/
inductive SqliteEvent where
  | request (type : SqlReqType) (req : Bytes) (failed : Option SqliteCall)
  | others (table : SqlTable)

namespace SqliteSvr

variable (sql : SqlExec)

def step (svr : SqliteSvr) : SqliteEvent → Option SqliteSvr
  | .request type req failed =>
    if svr.Possible failed type then (svr.handler req failed sql type).toOption else none
  | .others table => some { svr with table }

/-- The bytes that the thread sends in answer to a `READ`. -/
def answer (svr : SqliteSvr) (req : Bytes) (failed : Option SqliteCall) : Option Bytes :=
  (svr.step sql (.request .read req failed)).map fun svr => svr.context.respBuf.data

end SqliteSvr

end Ycsb
