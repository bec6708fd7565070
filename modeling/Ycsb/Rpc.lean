import Ycsb.Rocksdb

/-!
# The RocksDB client and its server

`RocksdbCli` fills a request buffer, waits, and decodes a response buffer; the
server has one handler for each type of request. The calls of the client are
cut where it waits: a request up to `enqueue_request`, a reply after
`pollForRpcComplete`.
-/

namespace Ycsb

open Lib DB

/-- `erpc::MsgBuffer`: the allocated bytes, and how many of them are data. -/
structure MsgBuffer where
  buf : Bytes
  dataSize : ℕ

namespace MsgBuffer

def alloc (size : ℕ) : MsgBuffer := ⟨List.replicate size 0, size⟩

def data (msg : MsgBuffer) : Bytes := msg.buf.take msg.dataSize

def resize (msg : MsgBuffer) (size : ℕ) : Except Fault MsgBuffer :=
  if size ≤ msg.buf.length then .ok { msg with dataSize := size } else .error .assertion

/-- The buffer after a message of these bytes has come in. -/
def receive (msg : MsgBuffer) (bytes : Bytes) : Except Fault MsgBuffer := do
  let msg ← msg.resize bytes.length
  let buf ← write msg.buf 0 bytes
  return { msg with buf }

end MsgBuffer

inductive ReqType where
  | read
  | put
  | delete
  | scan
  deriving DecidableEq

/-! ## Words in a message -/

namespace DB.Status

def code : Status → ℕ
  | kOK => 0
  | kError => 1
  | kNotFound => 2
  | kNotImplemented => 3

/-- A number that is no enumerator is not a value of the type. -/
def ofCode : ℕ → Except Fault Status
  | 0 => .ok kOK
  | 1 => .ok kError
  | 2 => .ok kNotFound
  | 3 => .ok kNotImplemented
  | _ => .error .read

end DB.Status

def leStatus (s : Status) : Bytes := le32 s.code

def readStatus (mem : Bytes) (p : ℕ) : Except Fault Status := do
  Status.ofCode (← read32 mem p)

def leInt (n : ℤ) : Bytes := le32 (n % 2 ^ 32).toNat

def readInt (mem : Bytes) (p : ℕ) : Except Fault ℤ := do
  let n ← read32 mem p
  return toInt n

/-! ## The client -/

namespace RocksdbCli

/-- The key at the front of a buffer, and the size it takes. -/
def serializeKey (key : Bytes) (buf : Bytes) : Except Fault (Bytes × ℕ) := do
  let buf ← write buf 0 (le32 key.length)
  let buf ← write buf 4 key
  return (buf, 4 + key.length)

def keyRequest (type : ReqType) (req : MsgBuffer) (key : Bytes) : Except Fault (ReqType × MsgBuffer) := do
  let (buf, kSize) ← serializeKey key req.buf
  let req ← MsgBuffer.resize { req with buf } kSize
  return (type, req)

def readRequest (req : MsgBuffer) (key : Bytes) : Except Fault (ReqType × MsgBuffer) :=
  keyRequest .read req key

def scanRequest (req : MsgBuffer) (key : Bytes) (len : ℤ) : Except Fault (ReqType × MsgBuffer) := do
  let (buf, kSize) ← serializeKey key req.buf
  let buf ← write buf kSize (leInt len)
  let req ← MsgBuffer.resize { req with buf } (kSize + 4)
  return (.scan, req)

def updateRequest (req : MsgBuffer) (key : Bytes) (values : Row) : Except Fault (ReqType × MsgBuffer) := do
  let (buf, kSize) ← serializeKey key req.buf
  let (buf, vSize) ← serializeRow values buf kSize
  let req ← MsgBuffer.resize { req with buf } (kSize + vSize)
  return (.put, req)

def deleteRequest (req : MsgBuffer) (key : Bytes) : Except Fault (ReqType × MsgBuffer) :=
  keyRequest .delete req key

/-- What a call does before it waits. `Read` and `Scan` send no field list, `Insert` is `Update`. -/
def request (req : MsgBuffer) : Call → Except Fault (ReqType × MsgBuffer)
  | .read key _ => readRequest req key
  | .scan key len _ => scanRequest req key len
  | .update key values => updateRequest req key values
  | .insert key values => updateRequest req key values
  | .delete key => deleteRequest req key

/-- The sized rows of a response, each read with its own limit. -/
def readRow (mem : Bytes) (p : ℕ) : Except Fault (Row × ℕ) := do
  let len ← read32 mem p
  let p := p + 4
  let (values, _) ← deserializeRow [] mem p (p + len)
  return (values, p + len)

theorem readRow_advance {mem : Bytes} {p q : ℕ} {values : Row} (h : readRow mem p = .ok (values, q)) : p < q := by
  unfold readRow at h
  obtain ⟨len, _, h⟩ := bind_ok.mp h
  obtain ⟨r, _, h⟩ := bind_ok.mp h
  cases h
  omega

def rowItem (mem : Bytes) : Item Row where
  read := readRow mem
  advance := readRow_advance

def deserializeRowVector (results : List Row) (mem : Bytes) (p lim : ℕ) : Except Fault (List Row × ℕ) :=
  readWhile (rowItem mem) lim (fun _ => true) (fun results values => results ++ [values]) p results

def readReply (resp : MsgBuffer) (result : Row) : Except Fault (Status × Row) := do
  if resp.dataSize < 4 then return (.kError, result)
  let s ← readStatus resp.buf 0
  if s ≠ .kOK then return (s, result)
  let vSize := resp.dataSize - 4
  let (result, _) ← deserializeRow result resp.buf 4 (4 + vSize)
  return (.kOK, result)

def scanReply (resp : MsgBuffer) (result : List Row) : Except Fault (Status × List Row) := do
  if resp.dataSize < 4 then return (.kError, result)
  let s ← readStatus resp.buf 0
  if s ≠ .kOK then return (s, result)
  let vSize := resp.dataSize - 4
  let (result, _) ← deserializeRowVector result resp.buf 4 (4 + vSize)
  return (.kOK, result)

/-- `Read` and `Scan` behind `pollForRpcComplete`, when the memory is the response and nothing else. The
status is whatever word the response begins with. -/
def readResponse (msg : Bytes) (result : Row) : Except Fault (ℕ × Row) := do
  if msg.length < 4 then return (Status.kError.code, result)
  let s ← read32 msg 0
  if s ≠ Status.kOK.code then return (s, result)
  let vSize := msg.length - 4
  let (result, _) ← deserializeRow result msg 4 (4 + vSize)
  return (Status.kOK.code, result)

def scanResponse (msg : Bytes) (result : List Row) : Except Fault (ℕ × List Row) := do
  if msg.length < 4 then return (Status.kError.code, result)
  let s ← read32 msg 0
  if s ≠ Status.kOK.code then return (s, result)
  let vSize := msg.length - 4
  let (result, _) ← deserializeRowVector result msg 4 (4 + vSize)
  return (Status.kOK.code, result)

def statusReply (resp : MsgBuffer) : Except Fault Status :=
  if resp.dataSize = 4 then readStatus resp.buf 0 else throw .assertion

def reply (resp : MsgBuffer) : Call → Except Fault Reply
  | .read _ _ => do
    let (s, result) ← readReply resp []
    return .row s result
  | .scan _ _ _ => do
    let (s, result) ← scanReply resp []
    return .rows s result
  | .update _ _ | .insert _ _ | .delete _ => do
    return .status (← statusReply resp)

end RocksdbCli

/-! ## Another client -/

namespace LazyKV

def deserializeRow (values : Row) (mem : Bytes) (p lim : ℕ) : Except Fault (Row × ℕ) :=
  RocksdbCli.deserializeRow values mem p lim

/-- `Read` behind `pollForRpcComplete`. -/
def readResponse (msg : Bytes) (result : Row) : Except Fault (ℕ × Row) := do
  if msg.length < 4 then return (Status.kError.code, result)
  let status ← read32 msg 0
  if status = Status.kOK.code then
    let (result, _) ← deserializeRow result msg 4 msg.length
    return (status, result)
  return (status, result)

end LazyKV

/-! ## The server -/

/-- The buffers a handler can answer with: that of its thread, and the one each request comes with. -/
structure ServerContext where
  respBuf : MsgBuffer
  preResp : MsgBuffer

namespace RocksdbSvr

variable (S : KVStore Bytes Bytes)

def deserializeKey (mem : Bytes) (p : ℕ) : Except Fault Bytes := do
  let len ← read32 mem p
  readBytes mem (p + 4) len

def writeStatus (resp : MsgBuffer) (s : Status) : Except Fault MsgBuffer := do
  let resp ← resp.resize 4
  let buf ← write resp.buf 0 (leStatus s)
  return { resp with buf }

def readHandler (db : S.State) (req : Bytes) (resp : MsgBuffer) : Except Fault MsgBuffer := do
  let key ← deserializeKey req 0
  match S.get db key with
  | none => writeStatus resp .kNotFound
  | some data =>
    let resp ← resp.resize (4 + data.length)
    let buf ← write resp.buf 0 (leStatus .kOK)
    let buf ← write buf 4 data
    return { resp with buf }

def putHandler (db : S.State) (req : Bytes) (resp : MsgBuffer) : Except Fault (S.State × MsgBuffer) := do
  let key ← deserializeKey req 0
  let offset := key.length + 4
  let value ← readBytes req offset (req.length - offset)
  let db := S.put db key value
  let resp ← writeStatus resp .kOK
  return (db, resp)

def deleteHandler (db : S.State) (req : Bytes) (resp : MsgBuffer) : Except Fault (S.State × MsgBuffer) := do
  let key ← deserializeKey req 0
  let db := S.delete db key
  let resp ← writeStatus resp .kOK
  return (db, resp)

/-- One turn of the loop of `scan_handler`: the buffer and the offset behind the value of the entry. -/
def scanStep (s : Bytes × ℕ) (entry : Bytes × Bytes) : Except Fault (Bytes × ℕ) := do
  let (buf, offset) := s
  let buf ← write buf offset (le32 entry.2.length)
  let offset := offset + 4
  let buf ← write buf offset entry.2
  let offset := offset + entry.2.length
  return (buf, offset)

def scanHandler (db : S.State) (req : Bytes) (resp : MsgBuffer) : Except Fault MsgBuffer := do
  let key ← deserializeKey req 0
  let len ← readInt req (4 + key.length)
  let (buf, offset) ← S.forEach scanStep len.toNat (S.seek db key) (resp.buf, 4)
  let buf ← write buf 0 (leStatus .kOK)
  MsgBuffer.resize { resp with buf } offset

def handle (db : S.State) (type : ReqType) (req : Bytes) (c : ServerContext) :
    Except Fault (S.State × ServerContext × Bytes) :=
  match type with
  | .read => do
    let resp ← readHandler S db req c.respBuf
    return (db, { c with respBuf := resp }, resp.data)
  | .put => do
    let (db, resp) ← putHandler S db req c.preResp
    return (db, { c with preResp := resp }, resp.data)
  | .delete => do
    let (db, resp) ← deleteHandler S db req c.preResp
    return (db, { c with preResp := resp }, resp.data)
  | .scan => do
    let resp ← scanHandler S db req c.respBuf
    return (db, { c with respBuf := resp }, resp.data)

end RocksdbSvr

/-! ## One call from end to end -/

structure Link (S : KVStore Bytes Bytes) where
  req : MsgBuffer
  resp : MsgBuffer
  server : ServerContext
  db : S.State

def Link.init (S : KVStore Bytes Bytes) (msgSize preSize : ℕ) : Link S :=
  ⟨.alloc msgSize, .alloc msgSize, ⟨.alloc msgSize, .alloc preSize⟩, S.empty⟩

def RocksdbCli.call {S : KVStore Bytes Bytes} (s : Link S) (c : Call) : Except Fault (Link S × Reply) := do
  let (type, req) ← request s.req c
  let (db, server, bytes) ← RocksdbSvr.handle S s.db type req.data s.server
  let resp ← s.resp.receive bytes
  let r ← reply resp c
  return (⟨req, resp, server, db⟩, r)

end Ycsb
