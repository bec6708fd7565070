import Ycsb.Sqlite

/-!
# The SQLite client and the embedded SQLite binding

`SQLiteDB` sends a call to the thread of the server that it has a session with;
`SQLocalDB` steps the statements itself. The server has no handler for a scan,
and `SQLocalDB::Scan` is not implemented.
-/

namespace Ycsb

open Lib DB

inductive SqlCall where
  | read (key : Bytes) (fields : Option (List Bytes))
  | update (key : Bytes) (values : Row)
  | insert (key : Bytes) (values : Row)
  | delete (key : Bytes)

def SqlCall.type : SqlCall → SqlReqType
  | read _ _ => .read
  | update _ _ => .update
  | insert _ _ => .insert
  | delete _ => .delete

/-- A call of one of several threads, and which call of SQLite fails in it, if it is made. -/
structure SqlEvent (n : ℕ) where
  thread : Fin n
  call : SqlCall
  failed : Option SqliteCall

/-! ## The client -/

/-- A client thread, and the thread of the server that it is connected to. -/
structure SqliteSession where
  req : MsgBuffer
  resp : MsgBuffer
  prepared : SqlReqType → Bool
  context : ServerContext

namespace SQLiteDB

def serializeKey (key buf : Bytes) : Except Fault (Bytes × ℕ) := RocksdbCli.serializeKey key buf

def serializeRow (values : Row) (buf : Bytes) (base : ℕ) : Except Fault (Bytes × ℕ) :=
  RocksdbCli.serializeRow values buf base

def keyRequest (req : MsgBuffer) (key : Bytes) : Except Fault MsgBuffer := do
  let (buf, kSize) ← serializeKey key req.buf
  MsgBuffer.resize { req with buf } kSize

def rowRequest (req : MsgBuffer) (key : Bytes) (values : Row) : Except Fault MsgBuffer := do
  let (buf, kSize) ← serializeKey key req.buf
  let (buf, vSize) ← serializeRow values buf kSize
  MsgBuffer.resize { req with buf } (kSize + vSize)

/-- What a call does before it waits. -/
def request (req : MsgBuffer) : SqlCall → Except Fault MsgBuffer
  | .read key _ | .delete key => keyRequest req key
  | .update key values | .insert key values => rowRequest req key values

def reply (resp : MsgBuffer) : SqlCall → Except Fault Reply
  | .read _ _ => do
    let (s, result) ← RocksdbCli.readReply resp []
    return .row s result
  | .update _ _ | .insert _ _ | .delete _ => do
    return .status (← RocksdbCli.statusReply resp)

end SQLiteDB

/-- The buffer that the handler enqueues. -/
def ServerContext.sent (context : ServerContext) : SqlReqType → MsgBuffer
  | .read => context.respBuf
  | .update | .insert | .delete => context.preResp

namespace SqliteSession

def init (msgSize preSize : ℕ) : SqliteSession :=
  ⟨.alloc msgSize, .alloc msgSize, fun _ => false, ⟨.alloc msgSize, .alloc preSize⟩⟩

/-- A call from end to end. -/
def call (sql : SqlExec) (s : SqliteSession) (table : SqlTable) (c : SqlCall) (failed : Option SqliteCall) :
    Except Fault (SqliteSession × SqlTable × Reply) := do
  let req ← SQLiteDB.request s.req c
  let svr ← SqliteSvr.handler ⟨table, s.prepared, s.context⟩ req.data failed sql c.type
  let resp ← s.resp.receive (svr.context.sent c.type).data
  let r ← SQLiteDB.reply resp c
  return (⟨req, resp, svr.prepared, svr.context⟩, svr.table, r)

end SqliteSession

/-- The clients and the threads of the server, which share one connection to SQLite. -/
structure SqliteNet (n : ℕ) where
  table : SqlTable
  sessions : Fin n → SqliteSession

namespace SqliteNet

variable {n : ℕ}

def init (table : SqlTable) (msgSize preSize : ℕ) : SqliteNet n := ⟨table, fun _ => .init msgSize preSize⟩

def step (sql : SqlExec) (net : SqliteNet n) (e : SqlEvent n) : Except Fault (SqliteNet n × Reply) := do
  let (session, table, r) ← (net.sessions e.thread).call sql net.table e.call e.failed
  return (⟨table, Function.update net.sessions e.thread session⟩, r)

end SqliteNet

/-! ## The embedded binding -/

/-- A thread, and the table. -/
structure SQLocalDB where
  table : SqlTable
  prepared : SqlReqType → Bool

namespace SQLocalDB

def serializeRow (values : Row) : Bytes := RocksdbDB.serializeRow values []

def deserializeRow (values : Row) (data : Bytes) : Except Fault (Row × ℕ) := RocksdbDB.deserializeRow values data

variable (db : SQLocalDB) (failed : Option SqliteCall)

/-- How every method begins: `none` if the statement is not there and cannot be prepared. -/
def prepare (type : SqlReqType) : Option SQLocalDB :=
  if db.prepared type = false ∧ failed = some .prepare then none
  else some { db with prepared := Function.update db.prepared type true }

def read (key : Bytes) (result : Row) : Except Fault (SQLocalDB × Status × Row) :=
  match db.prepare failed .read with
  | none => return (db, .kError, result)
  | some db =>
    if failed = some .bind ∨ failed = some .step then return (db, .kError, result)
    else
      match db.table key with
      | none => return (db, .kNotFound, result)
      | some value => do
        let (result, _) ← deserializeRow result value
        return (db, .kOK, result)

variable (sql : SqlExec)

/-- The methods that change the table. -/
def write (type : SqlReqType) (stmt : SqlStmt) : SQLocalDB × Status :=
  match db.prepare failed type with
  | none => (db, .kError)
  | some db =>
    match if failed = some .bind ∨ failed = some .step then none else sql stmt db.table with
    | none => (db, .kError)
    | some table => ({ db with table }, .kOK)

def update (key : Bytes) (values : Row) : SQLocalDB × Status :=
  write db failed sql .update (.update key (serializeRow values))

def insert (key : Bytes) (values : Row) : SQLocalDB × Status :=
  write db failed sql .insert (.insert key (serializeRow values))

def delete (key : Bytes) : SQLocalDB × Status := write db failed sql .delete (.delete key)

/-- `Read` returns the whole row, whichever fields it is asked for. -/
def call (c : SqlCall) : Except Fault (SQLocalDB × Reply) :=
  match c with
  | .read key _ => do
    let (db, s, result) ← read db failed key []
    return (db, .row s result)
  | .update key values =>
    let (db, s) := update db failed sql key values
    return (db, .status s)
  | .insert key values =>
    let (db, s) := insert db failed sql key values
    return (db, .status s)
  | .delete key =>
    let (db, s) := delete db failed sql key
    return (db, .status s)

end SQLocalDB

/-- The threads of one process. -/
structure SqlocalThreads (n : ℕ) where
  table : SqlTable
  prepared : Fin n → SqlReqType → Bool

namespace SqlocalThreads

variable {n : ℕ}

def init (table : SqlTable) : SqlocalThreads n := ⟨table, fun _ _ => false⟩

def step (sql : SqlExec) (p : SqlocalThreads n) (e : SqlEvent n) : Except Fault (SqlocalThreads n × Reply) := do
  let (db, r) ← SQLocalDB.call ⟨p.table, p.prepared e.thread⟩ e.failed sql e.call
  return (⟨db.table, Function.update p.prepared e.thread db.prepared⟩, r)

end SqlocalThreads

end Ycsb
