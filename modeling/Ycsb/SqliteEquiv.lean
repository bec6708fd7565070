import Ycsb.SqliteCli
import Ycsb.SqliteSound

/-!
# Client and server answer as the embedded binding does

Both bindings make the same calls of SQLite. The bytes that the server sends for
an absent key and for a failed step depend on earlier answers, but the client
looks at the status only.
-/

namespace Ycsb

open Lib DB

def SqlStmt.value : SqlStmt → Option Bytes
  | .update _ value | .insert _ value => some value
  | .delete _ => none

/-- A value that is in the table after a statement was there before or was bound to it. -/
def SqlExec.Keeps (sql : SqlExec) : Prop := ∀ stmt table table', sql stmt table = some table' →
  ∀ key value, table' key = some value → stmt.value = some value ∨ ∃ key', table key' = some value

/-! ## What the calls of SQLite come to -/

/-- The table, and the statements that each thread has prepared. -/
structure SqlShared (n : ℕ) where
  table : SqlTable
  prepared : Fin n → SqlReqType → Bool

namespace SqlShared

/-- A statement that is prepared is not prepared again. -/
def effective (prepared : Bool) (failed : Option SqliteCall) : Option SqliteCall :=
  if prepared = true ∧ failed = some .prepare then none else failed

def decode (value : Bytes) : Row :=
  match RocksdbDB.deserializeRow [] value with
  | .ok r => r.1
  | .error _ => []

def answer (table : SqlTable) (key : Bytes) (failed : Option SqliteCall) : Reply :=
  if failed.isSome then .row .kError []
  else
    match table key with
    | none => .row .kNotFound []
    | some value => .row .kOK (decode value)

/-- The table behind a statement, if it was stepped. -/
def change (sql : SqlExec) (table : SqlTable) (stmt : SqlStmt) (failed : Option SqliteCall) : Option SqlTable :=
  if failed.isSome then none else sql stmt table

def status (done : Option SqlTable) : Status := if done.isSome then .kOK else .kError

def write (sql : SqlExec) (table : SqlTable) (stmt : SqlStmt) (failed : Option SqliteCall) : SqlTable × Reply :=
  ((change sql table stmt failed).getD table, .status (status (change sql table stmt failed)))

def call (sql : SqlExec) (table : SqlTable) (c : SqlCall) (failed : Option SqliteCall) : SqlTable × Reply :=
  match c with
  | .read key _ => (table, answer table key failed)
  | .update key values => write sql table (.update key (rowBytes values)) failed
  | .insert key values => write sql table (.insert key (rowBytes values)) failed
  | .delete key => write sql table (.delete key) failed

def prepare (prepared : SqlReqType → Bool) (type : SqlReqType) (failed : Option SqliteCall) : SqlReqType → Bool :=
  if failed = some .prepare then prepared else Function.update prepared type true

variable {n : ℕ}

def init (table : SqlTable) : SqlShared n := ⟨table, fun _ _ => false⟩

def step (sql : SqlExec) (m : SqlShared n) (e : SqlEvent n) : SqlShared n × Reply :=
  let failed := effective (m.prepared e.thread e.call.type) e.failed
  let r := call sql m.table e.call failed
  (⟨r.1, Function.update m.prepared e.thread (prepare (m.prepared e.thread) e.call.type failed)⟩, r.2)

theorem effective_possible {prepared : Bool} {failed : Option SqliteCall}
    (h : effective prepared failed = some .prepare) : prepared = false := by
  unfold effective at h
  split at h
  · cases h
  · rename_i hnot
    exact eq_false_of_ne_true fun hprepared => hnot ⟨hprepared, h⟩

theorem effective_cases (prepared : Bool) (failed : Option SqliteCall) :
    effective prepared failed = failed ∨ prepared = true ∧ failed = some .prepare ∧ effective prepared failed = none := by
  unfold effective
  split
  · rename_i h
    exact Or.inr ⟨h.1, h.2, rfl⟩
  · exact Or.inl rfl

/-! ## The rows in a table -/

/-- Every value is a row that a response can hold. -/
def Stored (msgSize : ℕ) (table : SqlTable) : Prop :=
  ∀ key value, table key = some value → ∃ row, value = rowBytes row ∧ 4 + value.length ≤ msgSize

theorem Stored.sized {msgSize : ℕ} {table : SqlTable} (h : Stored msgSize table) (hsz : msgSize < 2 ^ 32) {key value : Bytes}
    (hvalue : table key = some value) : ∃ row, value = rowBytes row ∧ Sized row := by
  obtain ⟨row, rfl, hlen⟩ := h key value hvalue
  exact ⟨row, rfl, sized_of_length (by omega)⟩

theorem decode_rowBytes {row : Row} (h : Sized row) : decode (rowBytes row) = row := by
  rw [decode, RocksdbDB.deserializeRow_rowBytes h]

end SqlShared

namespace SqlCall

def bytes : SqlCall → Bytes
  | read key _ | delete key => frame key
  | update key values | insert key values => frame key ++ rowBytes values

def key : SqlCall → Bytes
  | read key _ | update key _ | insert key _ | delete key => key

def value : SqlCall → Bytes
  | read _ _ | delete _ => []
  | update _ values | insert _ values => rowBytes values

theorem bytes_eq (c : SqlCall) : c.bytes = frame c.key ++ c.value := by
  cases c with
  | read | delete => exact (List.append_nil _).symm
  | update | insert => rfl

end SqlCall

/-! ## The client -/

namespace SQLiteDB

open MsgBuffer

theorem keyRequest_eq {req : MsgBuffer} {key : Bytes} (h : (frame key).length ≤ req.buf.length) :
    keyRequest req key = .ok (req.hold (frame key)) := by
  rw [keyRequest, serializeKey, RocksdbCli.serializeKey_eq, write_front h]
  exact resize_hold (frame_length key).symm

theorem rowRequest_eq {req : MsgBuffer} {key : Bytes} {values : Row}
    (h : (frame key ++ rowBytes values).length ≤ req.buf.length) :
    rowRequest req key values = .ok (req.hold (frame key ++ rowBytes values)) := by
  obtain ⟨buf', hkey, hlen, hw⟩ := RocksdbCli.serializeKey_front h
  have hn : 4 + key.length + (rowBytes values).length = (frame key ++ rowBytes values).length := by
    rw [List.length_append, frame_length]
  have hle : 4 + key.length ≤ buf'.length := by
    rw [List.length_append, frame_length] at h
    omega
  rw [rowRequest, serializeKey, hkey]
  simp only [bind, Except.bind, serializeRow, RocksdbCli.serializeRow_write values hle, hw, Except.map]
  exact resize_hold hn

theorem request_eq {req : MsgBuffer} (c : SqlCall) (h : c.bytes.length ≤ req.buf.length) :
    request req c = .ok (req.hold c.bytes) := by
  cases c with
  | read | delete => exact keyRequest_eq h
  | update | insert => exact rowRequest_eq h

/-- Behind a status that is no `kOK` the client does not look. -/
theorem readReply_status (resp : MsgBuffer) {s : Status} (hs : s ≠ .kOK) (rest : Bytes) :
    RocksdbCli.readReply (resp.hold (leStatus s ++ rest)) [] = .ok (s, []) := by
  have hsize : (resp.hold (leStatus s ++ rest)).dataSize = 4 + rest.length := List.length_append
  rw [RocksdbCli.readReply, hsize, if_neg (by omega), RocksdbCli.readStatus_hold]
  simp only [bind, Except.bind, hs, ne_eq, not_false_eq_true, if_true]
  rfl

end SQLiteDB

/-! ## The server -/

namespace SqliteSvr

variable {sql : SqlExec} {svr : SqliteSvr} {key value : Bytes} {failed : Option SqliteCall} {type : SqlReqType}

/-- Failures that do not happen do not matter. -/
theorem handler_effective (svr : SqliteSvr) (req : Bytes) (failed : Option SqliteCall) (type : SqlReqType) :
    svr.handler req failed sql type = svr.handler req (SqlShared.effective (svr.prepared type) failed) sql type := by
  rcases SqlShared.effective_cases (svr.prepared type) failed with h | ⟨hprepared, rfl, h⟩
  · rw [h]
  · rw [h]
    cases type <;> simp [handler, readHandler, updateHandler, insertHandler, deleteHandler, writeHandler, hprepared,
      readResponse]

theorem deserializeKey_frame (hk : key.length < 2 ^ 32) : deserializeKey (frame key ++ value) = .ok key :=
  RocksdbSvr.deserializeKey_frame (p := 0) (t := value) rfl hk

theorem writeHandler_eq {stmt : Bytes → Bytes → SqlStmt} {done : Option SqlTable} (hk : key.length < 2 ^ 32)
    (hfit : 4 ≤ svr.context.preResp.buf.length) (hpossible : failed = some .prepare → svr.prepared type = false)
    (hdone : SqlShared.change sql svr.table (stmt key value) failed = done) :
    svr.writeHandler (frame key ++ value) failed sql type stmt = .ok ⟨done.getD svr.table,
      SqlShared.prepare svr.prepared type failed, { svr.context with
        preResp := svr.context.preResp.hold (leStatus (SqlShared.status done)) }⟩ := by
  subst hdone
  have hoff : key.length + 4 = (frame key).length := by rw [frame_length, Nat.add_comm]
  have hvalue : readBytes (frame key ++ value) (frame key).length value.length = .ok value :=
    readBytes_append (t := []) (by rw [List.drop_left, List.append_nil]) (by rw [List.length_append]; omega)
  simp only [writeHandler, deserializeKey_frame hk, bind, Except.bind, hoff, List.length_append,
    Nat.add_sub_cancel_left, hvalue, RocksdbSvr.writeStatus_eq _ hfit]
  cases failed with
  | none =>
    rw [if_neg (by simp)]
    rfl
  | some c =>
    cases c with
    | prepare =>
      rw [if_pos ⟨hpossible rfl, rfl⟩]
      rfl
    | bind | step =>
      rw [if_neg (by simp)]
      rfl

/-- A handler that changes the table does what its statement does. -/
theorem write_eq (sql : SqlExec) (svr : SqliteSvr) {c : SqlCall} (hk : c.key.length < 2 ^ 32)
    (hfit : 4 ≤ svr.context.preResp.buf.length) (hwrite : c.type ≠ .read)
    (hpossible : failed = some .prepare → svr.prepared c.type = false) :
    ∃ s, (SqlShared.call sql svr.table c failed).2 = .status s ∧
      svr.handler c.bytes failed sql c.type = .ok ⟨(SqlShared.call sql svr.table c failed).1,
        SqlShared.prepare svr.prepared c.type failed,
        { svr.context with preResp := svr.context.preResp.hold (leStatus s) }⟩ := by
  rw [SqlCall.bytes_eq]
  cases c with
  | read => exact absurd rfl hwrite
  | update | insert | delete => exact ⟨_, rfl, writeHandler_eq hk hfit hpossible rfl⟩

theorem putStatus_eq {resp : MsgBuffer} (s : Status) (hfit : 4 ≤ resp.buf.length) :
    putStatus resp s = .ok ⟨leStatus s ++ resp.buf.drop 4, resp.dataSize⟩ := by
  have hw : write resp.buf 0 (leStatus s) = .ok (leStatus s ++ resp.buf.drop 4) := MsgBuffer.write_front hfit
  rw [putStatus, hw]
  rfl

theorem readResponse_eq (hfit : 4 ≤ svr.context.respBuf.buf.length)
    (hrow : ∀ value, svr.table key = some value → 4 + value.length ≤ svr.context.respBuf.buf.length)
    (hprepare : failed ≠ some .prepare) : ∃ resp, svr.readResponse failed key = .ok resp := by
  cases failed with
  | some call =>
    cases call with
    | prepare => exact absurd rfl hprepare
    | bind => exact ⟨_, RocksdbSvr.writeStatus_eq _ hfit⟩
    | step => exact ⟨_, putStatus_eq _ hfit⟩
  | none =>
    unfold readResponse
    simp only [reduceCtorEq, if_false]
    cases hvalue : svr.table key with
    | none => exact ⟨_, putStatus_eq _ hfit⟩
    | some value =>
      have hlen : (leStatus .kOK ++ value).length ≤ svr.context.respBuf.buf.length := by
        rw [List.length_append, leStatus_length]
        exact hrow value hvalue
      have hs : write svr.context.respBuf.buf 0 (leStatus .kOK) =
          .ok (leStatus .kOK ++ svr.context.respBuf.buf.drop (leStatus .kOK).length) := MsgBuffer.write_front hfit
      have hd := write_behind (b := value) hs
      rw [MsgBuffer.write_front hlen, Nat.zero_add, leStatus_length] at hd
      rw [leStatus_length] at hs
      simp only [bind, Except.bind, MsgBuffer.resize, if_pos (hrow value hvalue), hs, hd]
      exact ⟨_, rfl⟩

theorem readHandler_eq (svr : SqliteSvr) (hk : key.length < 2 ^ 32) (hfit : 4 ≤ svr.context.respBuf.buf.length)
    (hrow : ∀ value, svr.table key = some value → 4 + value.length ≤ svr.context.respBuf.buf.length)
    (hpossible : failed = some .prepare → svr.prepared .read = false) :
    ∃ resp, Answers svr.table key svr.context.respBuf failed resp ∧
      svr.readHandler (frame key) failed = .ok ⟨svr.table, SqlShared.prepare svr.prepared .read failed,
        { svr.context with respBuf := resp }⟩ := by
  have hkey : deserializeKey (frame key ++ []) = .ok key := deserializeKey_frame hk
  rw [List.append_nil] at hkey
  simp only [readHandler, hkey, bind, Except.bind]
  by_cases hprepare : failed = some .prepare
  · subst hprepare
    rw [if_pos ⟨hpossible rfl, rfl⟩, RocksdbSvr.writeStatus_eq _ hfit]
    exact ⟨_, .early (by decide), rfl⟩
  · obtain ⟨resp, hresp⟩ := readResponse_eq hfit hrow hprepare
    rw [if_neg fun h => hprepare h.2, SqlShared.prepare, if_neg hprepare, hresp]
    exact ⟨resp, (readResponse_ok hprepare hresp).2, rfl⟩

/-- What the client makes of an answer, whatever was in the buffer before. -/
theorem Answers.reply {table : SqlTable} {resp sent : MsgBuffer} (h : Answers table key resp failed sent)
    (hmin : 4 ≤ resp.dataSize) (hsized : ∀ value, table key = some value → ∃ row, value = rowBytes row ∧ Ycsb.Sized row)
    (client : MsgBuffer) (fields : Option (List Bytes)) :
    SQLiteDB.reply (client.hold sent.data) (.read key fields) = .ok (SqlShared.answer table key failed) := by
  have hstale : ∀ {s : Status}, s ≠ .kOK →
      SQLiteDB.reply (client.hold (MsgBuffer.data ⟨leStatus s ++ resp.buf.drop 4, resp.dataSize⟩)) (.read key fields) =
        .ok (.row s []) := by
    intro s hs
    have hdata : MsgBuffer.data ⟨leStatus s ++ resp.buf.drop 4, resp.dataSize⟩ =
        leStatus s ++ (resp.buf.drop 4).take (resp.dataSize - 4) := by
      rw [MsgBuffer.data, List.take_append, List.take_of_length_le hmin, leStatus_length]
    rw [hdata, SQLiteDB.reply, SQLiteDB.readReply_status client hs]
    rfl
  cases h with
  | @early call hcall =>
    have hreply := SQLiteDB.readReply_status client (s := .kError) (by decide) []
    rw [List.append_nil] at hreply
    rw [MsgBuffer.hold_data, SQLiteDB.reply, hreply]
    rfl
  | failed => exact hstale (by decide)
  | @row value hvalue =>
    obtain ⟨row, rfl, hrow⟩ := hsized value hvalue
    rw [MsgBuffer.hold_data, SQLiteDB.reply, RocksdbCli.readReply_hold client hrow, SqlShared.answer, hvalue]
    simp only [SqlShared.decode_rowBytes hrow]
    rfl
  | absent hnone =>
    rw [hstale (by decide), SqlShared.answer, hnone]
    rfl

theorem Answers.fits {table : SqlTable} {resp sent : MsgBuffer} (h : Answers table key resp failed sent)
    (hfit : 4 ≤ resp.buf.length) (hmin : 4 ≤ resp.dataSize) (hmax : resp.dataSize ≤ resp.buf.length)
    (hrow : ∀ value, table key = some value → 4 + value.length ≤ resp.buf.length) :
    sent.buf.length = resp.buf.length ∧ 4 ≤ sent.dataSize ∧ sent.dataSize ≤ resp.buf.length := by
  have hput : ∀ s : Status, (leStatus s ++ resp.buf.drop 4).length = resp.buf.length := by
    intro s
    rw [List.length_append, List.length_drop, leStatus_length]
    omega
  cases h with
  | early => exact ⟨MsgBuffer.hold_capacity hfit, Nat.le_refl 4, hfit⟩
  | failed | absent => exact ⟨hput _, hmin, hmax⟩
  | @row value hvalue =>
    have hlen : (leStatus .kOK ++ value).length = 4 + value.length := List.length_append
    have hle := hrow value hvalue
    rw [MsgBuffer.hold_capacity (hlen ▸ hle), MsgBuffer.hold, hlen]
    exact ⟨rfl, Nat.le_add_right 4 _, hle⟩

end SqliteSvr

/-! ## A session -/

namespace SqliteSession

structure Fits (msgSize : ℕ) (s : SqliteSession) : Prop where
  req : s.req.buf.length = msgSize
  resp : s.resp.buf.length = msgSize
  capacity : s.context.respBuf.buf.length = msgSize
  size : 4 ≤ s.context.respBuf.dataSize ∧ s.context.respBuf.dataSize ≤ msgSize
  pre : 4 ≤ s.context.preResp.buf.length

theorem fits_init {msgSize preSize : ℕ} (hmsg : 4 ≤ msgSize) (hpre : 4 ≤ preSize) :
    Fits msgSize (init msgSize preSize) where
  req := List.length_replicate
  resp := List.length_replicate
  capacity := List.length_replicate
  size := ⟨hmsg, Nat.le_refl _⟩
  pre := hpre.trans_eq List.length_replicate.symm

variable {sql : SqlExec} {msgSize : ℕ} {s : SqliteSession} {table : SqlTable} {failed : Option SqliteCall}

theorem call_eq {c : SqlCall} {svr : SqliteSvr} {r : Reply}
    (h : Fits msgSize s) (hreq : c.bytes.length ≤ msgSize)
    (hhandler : SqliteSvr.handler ⟨table, s.prepared, s.context⟩ c.bytes failed sql c.type = .ok svr)
    (hsent : (svr.context.sent c.type).data.length ≤ msgSize)
    (hreply : SQLiteDB.reply (s.resp.hold (svr.context.sent c.type).data) c = .ok r) :
    s.call sql table c failed = .ok (⟨s.req.hold c.bytes, s.resp.hold (svr.context.sent c.type).data, svr.prepared,
      svr.context⟩, svr.table, r) := by
  rw [call, SQLiteDB.request_eq c (h.req.symm ▸ hreq)]
  simp only [bind, Except.bind, MsgBuffer.hold_data, hhandler, MsgBuffer.receive_eq (h.resp.symm ▸ hsent), hreply]
  rfl

theorem Fits.answered (h : Fits msgSize s) (context : ServerContext) {req resp : Bytes}
    (hreq : req.length ≤ msgSize) (hresp : resp.length ≤ msgSize) (prepared : SqlReqType → Bool)
    (hcapacity : context.respBuf.buf.length = msgSize)
    (hsize : 4 ≤ context.respBuf.dataSize ∧ context.respBuf.dataSize ≤ msgSize)
    (hpre : 4 ≤ context.preResp.buf.length) : Fits msgSize ⟨s.req.hold req, s.resp.hold resp, prepared, context⟩ where
  req := (MsgBuffer.hold_capacity (h.req.symm ▸ hreq)).trans h.req
  resp := (MsgBuffer.hold_capacity (h.resp.symm ▸ hresp)).trans h.resp
  capacity := hcapacity
  size := hsize
  pre := hpre

theorem read_call {key : Bytes} {fields : Option (List Bytes)} (hsz : msgSize < 2 ^ 32) (h : Fits msgSize s)
    (hstored : SqlShared.Stored msgSize table) (hreq : (frame key).length ≤ msgSize)
    (hpossible : failed = some .prepare → s.prepared .read = false) :
    ∃ s', s.call sql table (.read key fields) failed = .ok (s', table, SqlShared.answer table key failed) ∧
      Fits msgSize s' ∧ s'.prepared = SqlShared.prepare s.prepared .read failed := by
  have hk : key.length < 2 ^ 32 := by
    rw [frame_length] at hreq
    omega
  have hfit : 4 ≤ s.context.respBuf.buf.length := h.capacity ▸ h.size.1.trans h.size.2
  have hrow : ∀ value, table key = some value → 4 + value.length ≤ s.context.respBuf.buf.length := by
    intro value hvalue
    obtain ⟨row, -, hlen⟩ := hstored key value hvalue
    exact h.capacity ▸ hlen
  obtain ⟨sent, hanswers, hhandler⟩ := SqliteSvr.readHandler_eq ⟨table, s.prepared, s.context⟩ hk hfit hrow hpossible
  obtain ⟨hcapacity, hsize⟩ := hanswers.fits hfit h.size.1 (h.capacity ▸ h.size.2) hrow
  -- whatever is sent fits, also when it is what was sent before
  have hdata : sent.data.length ≤ msgSize := by
    rw [MsgBuffer.data, List.length_take, hcapacity]
    exact (Nat.min_le_right _ _).trans_eq h.capacity
  have hreply := hanswers.reply h.size.1 (fun value hvalue => hstored.sized hsz hvalue) s.resp fields
  exact ⟨_, call_eq (c := .read key fields) h hreq hhandler hdata hreply,
    h.answered { s.context with respBuf := sent } hreq hdata _ (hcapacity.trans h.capacity)
      ⟨hsize.1, hsize.2.trans_eq h.capacity⟩ h.pre, rfl⟩

theorem write_call {c : SqlCall} (hsz : msgSize < 2 ^ 32) (h : Fits msgSize s) (hreq : c.bytes.length ≤ msgSize)
    (hwrite : c.type ≠ .read) (hpossible : failed = some .prepare → s.prepared c.type = false) :
    ∃ s', s.call sql table c failed =
        .ok (s', (SqlShared.call sql table c failed).1, (SqlShared.call sql table c failed).2) ∧
      Fits msgSize s' ∧ s'.prepared = SqlShared.prepare s.prepared c.type failed := by
  have hk : c.key.length < 2 ^ 32 := by
    rw [SqlCall.bytes_eq, List.length_append, frame_length] at hreq
    omega
  obtain ⟨status, hstatus, hhandler⟩ :=
    SqliteSvr.write_eq sql ⟨table, s.prepared, s.context⟩ hk h.pre hwrite hpossible
  -- a write answers from the preallocated response
  have hsent : ({ s.context with preResp := s.context.preResp.hold (leStatus status) }.sent c.type) =
      s.context.preResp.hold (leStatus status) := by
    cases c with
    | read => exact absurd rfl hwrite
    | update | insert | delete => rfl
  have hdata : (s.context.preResp.hold (leStatus status)).data.length ≤ msgSize := by
    rw [MsgBuffer.hold_data, leStatus_length]
    exact h.size.1.trans h.size.2
  have hreply : SQLiteDB.reply (s.resp.hold (s.context.preResp.hold (leStatus status)).data) c =
      .ok (SqlShared.call sql table c failed).2 := by
    rw [MsgBuffer.hold_data, hstatus]
    cases c with
    | read => exact absurd rfl hwrite
    | update | insert | delete => rw [SQLiteDB.reply, RocksdbCli.statusReply_hold]; rfl
  have hcapacity : (s.context.preResp.hold (leStatus status)).buf.length = s.context.preResp.buf.length :=
    MsgBuffer.hold_capacity h.pre
  exact ⟨_, call_eq h hreq hhandler (hsent.symm ▸ hdata) (hsent.symm ▸ hreply),
    h.answered { s.context with preResp := s.context.preResp.hold (leStatus status) } hreq
      (hsent.symm ▸ hdata) _ h.capacity h.size (h.pre.trans_eq hcapacity.symm), rfl⟩

/-- A call through the server does what it does to the table. -/
theorem call_shared (sql : SqlExec) (c : SqlCall) (hsz : msgSize < 2 ^ 32) (h : Fits msgSize s)
    (hstored : SqlShared.Stored msgSize table) (hreq : c.bytes.length ≤ msgSize)
    (hpossible : failed = some .prepare → s.prepared c.type = false) :
    ∃ s', s.call sql table c failed =
        .ok (s', (SqlShared.call sql table c failed).1, (SqlShared.call sql table c failed).2) ∧
      Fits msgSize s' ∧ s'.prepared = SqlShared.prepare s.prepared c.type failed := by
  cases c with
  | read key fields => exact read_call hsz h hstored hreq hpossible
  | update | insert | delete => exact write_call hsz h hreq (nofun) hpossible

theorem call_effective (sql : SqlExec) (s : SqliteSession) (table : SqlTable) (c : SqlCall)
    (failed : Option SqliteCall) : s.call sql table c failed = s.call sql table c (SqlShared.effective (s.prepared c.type) failed) := by
  rw [call, call]
  refine congrArg _ (funext fun req => ?_)
  rw [SqliteSvr.handler_effective]

end SqliteSession

/-! ## The embedded binding -/

namespace SQLocalDB

variable {sql : SqlExec} {table : SqlTable} (prepared : SqlReqType → Bool) {failed : Option SqliteCall}

theorem prepare_eq {db : SQLocalDB} {type : SqlReqType} (hpossible : failed = some .prepare → db.prepared type = false) :
    db.prepare failed type = if failed = some .prepare then none
      else some { db with prepared := SqlShared.prepare db.prepared type failed } := by
  unfold prepare SqlShared.prepare
  by_cases hprepare : failed = some .prepare
  · rw [if_pos ⟨hpossible hprepare, hprepare⟩, if_pos hprepare]
  · rw [if_neg fun h => hprepare h.2, if_neg hprepare, if_neg hprepare]

theorem write_eq (db : SQLocalDB) {type : SqlReqType} {stmt : SqlStmt} {done : Option SqlTable}
    (hpossible : failed = some .prepare → db.prepared type = false)
    (hdone : SqlShared.change sql db.table stmt failed = done) :
    db.write failed sql type stmt = (⟨done.getD db.table, SqlShared.prepare db.prepared type failed⟩,
      SqlShared.status done) := by
  subst hdone
  rw [write, prepare_eq hpossible, SqlShared.change]
  cases failed with
  | none =>
    simp only [reduceCtorEq, if_false, or_self, Option.isSome_none, Bool.false_eq_true]
    cases sql stmt db.table <;> rfl
  | some c => cases c <;> rfl

theorem read_shared (key : Bytes) (fields : Option (List Bytes))
    (hsized : ∀ value, table key = some value → ∃ row, value = rowBytes row ∧ Sized row)
    (hpossible : failed = some .prepare → prepared .read = false) :
    SQLocalDB.call ⟨table, prepared⟩ failed sql (.read key fields) =
      .ok (⟨table, SqlShared.prepare prepared .read failed⟩, SqlShared.answer table key failed) := by
  rw [call, read, prepare_eq hpossible]
  cases failed with
  | some call => cases call <;> rfl
  | none =>
    rw [SqlShared.answer]
    simp only [reduceCtorEq, if_false, or_self, Option.isSome_none, Bool.false_eq_true]
    cases hvalue : table key with
    | none => rfl
    | some value =>
      obtain ⟨row, rfl, hrow⟩ := hsized value hvalue
      simp only [SqlShared.decode_rowBytes hrow, deserializeRow, RocksdbDB.deserializeRow_rowBytes hrow]
      rfl

theorem write_shared {c : SqlCall} (hwrite : c.type ≠ .read)
    (hpossible : failed = some .prepare → prepared c.type = false) :
    SQLocalDB.call ⟨table, prepared⟩ failed sql c =
      .ok (⟨(SqlShared.call sql table c failed).1, SqlShared.prepare prepared c.type failed⟩,
        (SqlShared.call sql table c failed).2) := by
  have hrow : ∀ values, serializeRow values = rowBytes values := fun values => RocksdbDB.serializeRow_eq values []
  cases c with
  | read => exact absurd rfl hwrite
  | update key values =>
    rw [call, update, hrow, write_eq _ hpossible rfl]
    rfl
  | insert key values =>
    rw [call, insert, hrow, write_eq _ hpossible rfl]
    rfl
  | delete key =>
    rw [call, delete, write_eq _ hpossible rfl]
    rfl

theorem call_shared (c : SqlCall)
    (hsized : ∀ key value, table key = some value → ∃ row, value = rowBytes row ∧ Sized row)
    (hpossible : failed = some .prepare → prepared c.type = false) :
    SQLocalDB.call ⟨table, prepared⟩ failed sql c =
      .ok (⟨(SqlShared.call sql table c failed).1, SqlShared.prepare prepared c.type failed⟩,
        (SqlShared.call sql table c failed).2) := by
  cases c with
  | read key fields => exact read_shared prepared key fields (hsized key) hpossible
  | update | insert | delete => exact write_shared prepared nofun hpossible

theorem prepare_effective (db : SQLocalDB) (type : SqlReqType) (failed : Option SqliteCall) :
    db.prepare failed type = db.prepare (SqlShared.effective (db.prepared type) failed) type := by
  rcases SqlShared.effective_cases (db.prepared type) failed with h | ⟨hprepared, rfl, h⟩
  · rw [h]
  · rw [h, prepare, prepare, hprepared]
    rfl

theorem call_effective (sql : SqlExec) (db : SQLocalDB) (c : SqlCall) (failed : Option SqliteCall) :
    db.call failed sql c = db.call (SqlShared.effective (db.prepared c.type) failed) sql c := by
  rcases SqlShared.effective_cases (db.prepared c.type) failed with h | ⟨hprepared, rfl, h⟩
  · rw [h]
  · have hprepare : db.prepare (some .prepare) c.type = db.prepare none c.type := by
      rw [prepare_effective, h]
    rw [h]
    cases c with
    | read key fields =>
      rw [call, call, read, read]
      rw [SqlCall.type] at hprepare
      rw [hprepare]
      rfl
    | update key values | insert key values | delete key =>
      rw [SqlCall.type] at hprepare
      simp only [call, update, insert, delete, write, hprepare]
      rfl

end SQLocalDB

/-! ## Any interleaving -/

namespace SqlShared

variable {n : ℕ} {msgSize : ℕ} {sql : SqlExec}

theorem stored_write (hsql : sql.Keeps) {table : SqlTable} {stmt : SqlStmt} {failed : Option SqliteCall}
    (h : Stored msgSize table)
    (hvalue : ∀ value, stmt.value = some value → ∃ row, value = rowBytes row ∧ 4 + value.length ≤ msgSize) :
    Stored msgSize (write sql table stmt failed).1 := by
  rw [write, change]
  split
  · exact h
  · cases hdone : sql stmt table with
    | none => exact h
    | some table' =>
      intro key value hkey
      rcases hsql stmt table table' hdone key value hkey with hnew | ⟨key', hold⟩
      · exact hvalue value hnew
      · exact h key' value hold

theorem stored_call (hsql : sql.Keeps) {table : SqlTable} {c : SqlCall} {failed : Option SqliteCall}
    (h : Stored msgSize table) (hreq : c.bytes.length ≤ msgSize) : Stored msgSize (call sql table c failed).1 := by
  have hrow : ∀ values, c.value = rowBytes values → 4 + (rowBytes values).length ≤ msgSize := by
    intro values hvalues
    rw [SqlCall.bytes_eq, List.length_append, frame_length] at hreq
    rw [← hvalues]
    omega
  cases c with
  | read key fields => exact h
  | update key values =>
    exact stored_write hsql h fun value hvalue => by
      cases hvalue
      exact ⟨values, rfl, hrow values rfl⟩
  | insert key values =>
    exact stored_write hsql h fun value hvalue => by
      cases hvalue
      exact ⟨values, rfl, hrow values rfl⟩
  | delete key => exact stored_write hsql h nofun

structure Served (msgSize : ℕ) (net : SqliteNet n) (m : SqlShared n) : Prop where
  table : net.table = m.table
  stored : Stored msgSize m.table
  sessions : ∀ i, (net.sessions i).Fits msgSize ∧ (net.sessions i).prepared = m.prepared i

theorem served_step (hsql : sql.Keeps) {net : SqliteNet n} {m : SqlShared n} (e : SqlEvent n) (hsz : msgSize < 2 ^ 32)
    (h : Served msgSize net m) (hp : e.call.bytes.length ≤ msgSize) :
    ∃ net', net.step sql e = .ok (net', (m.step sql e).2) ∧ Served msgSize net' (m.step sql e).1 := by
  obtain ⟨hfits, hprepared⟩ := h.sessions e.thread
  have heffective := SqliteSession.call_effective sql (net.sessions e.thread) net.table e.call e.failed
  rw [hprepared] at heffective
  have hpossible : effective (m.prepared e.thread e.call.type) e.failed = some .prepare →
      (net.sessions e.thread).prepared e.call.type = false := fun hfailed => hprepared ▸ effective_possible hfailed
  obtain ⟨s', hcall, hfits', hprepared'⟩ := SqliteSession.call_shared sql e.call hsz hfits h.stored hp hpossible
  rw [h.table, hcall] at heffective
  refine ⟨⟨_, Function.update net.sessions e.thread s'⟩, ?_, rfl, stored_call hsql h.stored hp, fun i => ?_⟩
  · simp only [SqliteNet.step, h.table, heffective, bind, Except.bind]
    rfl
  · by_cases hi : i = e.thread
    · subst hi
      simp only [step, Function.update_self]
      exact ⟨hfits', hprepared ▸ hprepared'⟩
    · simp only [step, Function.update_of_ne hi]
      exact h.sessions i

structure Embedded (msgSize : ℕ) (p : SqlocalThreads n) (m : SqlShared n) : Prop where
  table : p.table = m.table
  stored : Stored msgSize m.table
  prepared : p.prepared = m.prepared

theorem embedded_step (hsql : sql.Keeps) {p : SqlocalThreads n} {m : SqlShared n} (e : SqlEvent n)
    (hsz : msgSize < 2 ^ 32) (h : Embedded msgSize p m) (hp : e.call.bytes.length ≤ msgSize) :
    ∃ p', p.step sql e = .ok (p', (m.step sql e).2) ∧ Embedded msgSize p' (m.step sql e).1 := by
  have hcall := SQLocalDB.call_effective sql ⟨m.table, m.prepared e.thread⟩ e.call e.failed
  rw [SQLocalDB.call_shared (m.prepared e.thread) e.call (fun key value hvalue => h.stored.sized hsz hvalue)
    effective_possible] at hcall
  refine ⟨⟨_, Function.update m.prepared e.thread _⟩, ?_, rfl, stored_call hsql h.stored hp, rfl⟩
  simp only [SqlocalThreads.step, h.table, h.prepared, hcall, bind, Except.bind]
  rfl

/-- However the calls of the threads interleave, whichever calls of SQLite fail and whatever it makes of the
statements, the client and its server answer as the embedded binding does, and both leave the same table. -/
theorem sqlite_bindings_agree (hsql : sql.Keeps) {preSize : ℕ} {table : SqlTable} {events : List (SqlEvent n)}
    (hmin : 4 ≤ msgSize) (hsz : msgSize < 2 ^ 32) (hpre : 4 ≤ preSize) (hstored : Stored msgSize table)
    (hp : ∀ e ∈ events, e.call.bytes.length ≤ msgSize) :
    ∃ net p, exec (SqliteNet.step sql) (.init table msgSize preSize) events =
        .ok (net, (respond (step sql) (init table) events).2) ∧
      exec (SqlocalThreads.step sql) (.init table) events = .ok (p, (respond (step sql) (init table) events).2) ∧
      net.table = (respond (step sql) (init table) events).1.table ∧ p.table = net.table := by
  have hlegal : Legal (step sql) (fun _ (e : SqlEvent n) => e.call.bytes.length ≤ msgSize) (init table) events :=
    .of_forall hp
  obtain ⟨net, hnet, hserved⟩ := exec_refines (fun _ _ e h hp => served_step hsql e hsz h hp) events
    (.init table msgSize preSize) (init table) ⟨rfl, hstored, fun _ => ⟨SqliteSession.fits_init hmin hpre, rfl⟩⟩ hlegal
  obtain ⟨p, hlocal, hembedded⟩ := exec_refines (fun _ _ e h hp => embedded_step hsql e hsz h hp) events
    (.init table) (init table) ⟨rfl, hstored, rfl⟩ hlegal
  exact ⟨net, p, hnet, hlocal, hserved.table, hembedded.table.trans hserved.table.symm⟩

theorem onTable_keeps : SqlExec.Keeps SqlStmt.onTable := by
  have hupdate : ∀ {table : SqlTable} {key : Bytes} {new : Option Bytes} {key' value : Bytes},
      Function.update table key new key' = some value → new = some value ∨ ∃ key', table key' = some value := by
    intro table key new key' value h
    by_cases hkey : key' = key
    · rw [hkey, Function.update_self] at h
      exact Or.inl h
    · rw [Function.update_of_ne hkey] at h
      exact Or.inr ⟨key', h⟩
  intro stmt table table' hstep key' value hvalue
  cases stmt with
  | update key new =>
    cases hstep
    split at hvalue
    · exact hupdate hvalue
    · exact Or.inr ⟨key', hvalue⟩
  | insert key new =>
    simp only [SqlStmt.onTable] at hstep
    split at hstep
    · cases hstep
    · cases hstep
      exact hupdate hvalue
  | delete key =>
    cases hstep
    exact hupdate hvalue

/-- The second read is of an absent key, and its response ends in the row of the first. -/
def twoThreads : List (SqlEvent 2) :=
  [⟨0, .insert [1] [([2], [3])], none⟩, ⟨1, .read [1] none, none⟩, ⟨1, .read [4] none, none⟩,
    ⟨1, .insert [1] [([2], [5])], none⟩, ⟨0, .update [1] [([2], [6])], some .step⟩]

theorem sqlite_bindings_agree_two : ∃ net p,
    exec (SqliteNet.step SqlStmt.onTable) (.init (fun _ => none) 64 4) twoThreads = .ok (net, [.status .kOK, .row .kOK [([2], [3])],
      .row .kNotFound [], .status .kError, .status .kError]) ∧
    exec (SqlocalThreads.step SqlStmt.onTable) (.init fun _ => none) twoThreads = .ok (p, [.status .kOK, .row .kOK [([2], [3])],
      .row .kNotFound [], .status .kError, .status .kError]) ∧ p.table = net.table := by
  have hstored : Stored 64 (fun _ => none) := fun _ _ h => by cases h
  have hp : ∀ e ∈ twoThreads, e.call.bytes.length ≤ 64 := by decide
  have hreplies : (respond (step SqlStmt.onTable) (init fun _ => none) twoThreads).2 = [.status .kOK,
      .row .kOK (decode (rowBytes [([2], [3])])), .row .kNotFound [], .status .kError, .status .kError] := rfl
  rw [decode_rowBytes (by simp [Sized])] at hreplies
  obtain ⟨net, p, hnet, hlocal, _, htable⟩ :=
    sqlite_bindings_agree onTable_keeps (by decide : 4 ≤ 64) (by decide) (Nat.le_refl 4) hstored hp
  rw [hreplies] at hnet hlocal
  exact ⟨net, p, hnet, hlocal, htable⟩

end SqlShared

end Ycsb
