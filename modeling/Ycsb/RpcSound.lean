import Ycsb.RowSound
import Ycsb.Rpc

/-!
# What the messages carry

A request carries its call, a response carries a reply. Client and server agree
on both layouts: a handler given the bytes of a call answers with the bytes of
the reply of a map from keys to rows, and the client reads that reply back.
-/

namespace Ycsb

open Lib DB

/-! ## The record store of the server -/

namespace RpcStore

def call (m : OrdMap Bytes Row) : Call → OrdMap Bytes Row × Reply
  | .read key _ =>
    match m.get key with
    | none => (m, .row .kNotFound [])
    | some row => (m, .row .kOK row)
  | .scan key len _ => (m, .rows .kOK (((m.entries.filter fun a => decide (key ≤ a.1)).take len.toNat).map Prod.snd))
  | .update key values | .insert key values => (m.put key values, .status .kOK)
  | .delete key => (m.del key, .status .kOK)

theorem read_fst (m : OrdMap Bytes Row) (key : Bytes) (fields : Option (List Bytes)) :
    (call m (.read key fields)).1 = m := by
  rw [call]
  cases m.get key <;> rfl

end RpcStore

/-! ## Layouts -/

def reqType : Call → ReqType
  | .read _ _ => .read
  | .scan _ _ _ => .scan
  | .update _ _ | .insert _ _ => .put
  | .delete _ => .delete

def requestBytes : Call → Bytes
  | .read key _ | .delete key => frame key
  | .scan key len _ => frame key ++ leInt len
  | .update key values | .insert key values => frame key ++ rowBytes values

def encodeRow (row : Row) : Bytes := frame (rowBytes row)

def replyBytes : Reply → Bytes
  | .status s => leStatus s
  | .row s row => leStatus s ++ rowBytes row
  | .rows s rows => leStatus s ++ encodeAll encodeRow rows

theorem leStatus_length (s : Status) : (leStatus s).length = 4 := rfl

theorem leInt_length (n : ℤ) : (leInt n).length = 4 := rfl

theorem readStatus_leStatus {mem t : Bytes} {p : ℕ} {s : Status} (h : mem.drop p = leStatus s ++ t) :
    readStatus mem p = .ok s := by
  have hlt : s.code < 2 ^ 32 := by cases s <;> decide
  rw [readStatus, read32_le32 h hlt]
  cases s <;> rfl

theorem readInt_leInt {mem t : Bytes} {p : ℕ} {n : ℤ} (h : mem.drop p = leInt n ++ t)
    (hlo : -2 ^ 31 ≤ n) (hhi : n < 2 ^ 31) : readInt mem p = .ok n := by
  have hlt : (n % 2 ^ 32).toNat < 2 ^ 32 := by omega
  rw [readInt, read32_le32 h hlt]
  simp only [bind, Except.bind, pure, Except.pure, Except.ok.injEq, toInt]
  split <;> omega

theorem sized_of_length {row : Row} (h : (rowBytes row).length < 2 ^ 32) : Sized row := by
  intro f hf
  have hle : (encodeField f).length ≤ (rowBytes row).length :=
    (List.sublist_flatten_of_mem (List.mem_map_of_mem hf)).length_le
  simp only [encodeField, List.length_append, frame_length] at hle
  omega

/-! ## Buffers that hold a message -/

namespace MsgBuffer

/-- The buffer with a message of these bytes in front. -/
def hold (msg : MsgBuffer) (bytes : Bytes) : MsgBuffer := ⟨bytes ++ msg.buf.drop bytes.length, bytes.length⟩

@[simp] theorem hold_data (msg : MsgBuffer) (bytes : Bytes) : (msg.hold bytes).data = bytes := List.take_left ..

theorem hold_capacity {msg : MsgBuffer} {bytes : Bytes} (h : bytes.length ≤ msg.buf.length) :
    (msg.hold bytes).buf.length = msg.buf.length := by
  simp only [hold, List.length_append, List.length_drop]
  omega

theorem write_front {buf bytes : Bytes} (h : bytes.length ≤ buf.length) :
    write buf 0 bytes = .ok (bytes ++ buf.drop bytes.length) := by
  rw [write_ok (by omega), List.take_zero, List.nil_append, Nat.zero_add]

theorem receive_eq {msg : MsgBuffer} {bytes : Bytes} (h : bytes.length ≤ msg.buf.length) :
    msg.receive bytes = .ok (msg.hold bytes) := by
  rw [receive, resize, if_pos h]
  simp only [bind, Except.bind, write_front h]
  rfl

theorem resize_hold {msg : MsgBuffer} {bytes : Bytes} {n : ℕ} (hn : n = bytes.length) :
    resize { msg with buf := bytes ++ msg.buf.drop bytes.length } n = .ok (msg.hold bytes) := by
  subst hn
  exact if_pos (by rw [List.length_append]; omega)

end MsgBuffer

/-! ## Requests -/

namespace RocksdbCli

open MsgBuffer

theorem serializeKey_eq (key buf : Bytes) :
    serializeKey key buf = (write buf 0 (frame key)).map fun buf => (buf, 4 + key.length) := by
  rw [serializeKey, frame, ← write_write]
  cases write buf 0 (le32 key.length) with
  | error e => rfl
  | ok buf => cases h : write buf 4 key <;> simp [bind, Except.bind, h, Except.map, pure, Except.pure]

theorem serializeKey_front {key buf rest : Bytes} (h : (frame key ++ rest).length ≤ buf.length) :
    ∃ buf', serializeKey key buf = .ok (buf', 4 + key.length) ∧ buf'.length = buf.length ∧
      write buf' (4 + key.length) rest = .ok (frame key ++ rest ++ buf.drop (frame key ++ rest).length) := by
  have hfit : (frame key).length ≤ buf.length := by rw [List.length_append] at h; omega
  have hw := write_front hfit
  refine ⟨_, by rw [serializeKey_eq, hw]; rfl, write_length hw, ?_⟩
  rw [← frame_length, ← write_front h, ← write_behind hw, Nat.zero_add]

theorem keyRequest_eq {req : MsgBuffer} {key : Bytes} (type : ReqType) (h : (frame key).length ≤ req.buf.length) :
    keyRequest type req key = .ok (type, req.hold (frame key)) := by
  rw [keyRequest, serializeKey_eq, write_front h]
  simp only [Except.map, bind, Except.bind, resize_hold (frame_length key).symm]
  rfl

theorem scanRequest_eq {req : MsgBuffer} {key : Bytes} {len : ℤ}
    (h : (frame key ++ leInt len).length ≤ req.buf.length) :
    scanRequest req key len = .ok (.scan, req.hold (frame key ++ leInt len)) := by
  obtain ⟨buf', hkey, _, hw⟩ := serializeKey_front h
  have hn : 4 + key.length + 4 = (frame key ++ leInt len).length := by
    rw [List.length_append, frame_length, leInt_length]
  rw [scanRequest, hkey]
  simp only [bind, Except.bind, hw, resize_hold hn]
  rfl

theorem updateRequest_eq {req : MsgBuffer} {key : Bytes} {values : Row}
    (h : (frame key ++ rowBytes values).length ≤ req.buf.length) :
    updateRequest req key values = .ok (.put, req.hold (frame key ++ rowBytes values)) := by
  obtain ⟨buf', hkey, hlen, hw⟩ := serializeKey_front h
  have hn : 4 + key.length + (rowBytes values).length = (frame key ++ rowBytes values).length := by
    rw [List.length_append, frame_length]
  have hle : 4 + key.length ≤ buf'.length := by rw [hlen]; omega
  rw [updateRequest, hkey]
  simp only [bind, Except.bind, serializeRow_write values hle, hw, Except.map, resize_hold hn]
  rfl

theorem request_eq {req : MsgBuffer} (c : Call) (h : (requestBytes c).length ≤ req.buf.length) :
    request req c = .ok (reqType c, req.hold (requestBytes c)) := by
  cases c with
  | read key fields => exact keyRequest_eq .read h
  | scan key len fields => exact scanRequest_eq h
  | update key values => exact updateRequest_eq h
  | insert key values => exact updateRequest_eq h
  | delete key => exact keyRequest_eq .delete h

end RocksdbCli

/-! ## Replies -/

namespace RocksdbCli

theorem rowItem_reads {mem : Bytes} {row : Row} (h : (rowBytes row).length < 2 ^ 32) :
    ReadsAt (rowItem mem) encodeRow mem row := by
  intro p t hd
  rw [encodeRow, frame, List.append_assoc] at hd
  change readRow mem p = _
  rw [readRow, read32_le32 hd h]
  simp only [bind, Except.bind]
  have hrow : deserializeRow [] mem (p + 4) (p + 4 + (rowBytes row).length) =
      .ok (row, p + 4 + (rowBytes row).length) :=
    RocksdbDB.deserializeRowAt_rowBytes (sized_of_length h) (drop_after hd) rfl []
  rw [hrow, encodeRow, frame_length, ← Nat.add_assoc]
  rfl

theorem deserializeRowVector_rows {mem t : Bytes} {rows : List Row} {p lim : ℕ}
    (h : ∀ row ∈ rows, (rowBytes row).length < 2 ^ 32) (hd : mem.drop p = encodeAll encodeRow rows ++ t)
    (hlim : lim = p + (encodeAll encodeRow rows).length) (results : List Row) :
    deserializeRowVector results mem p lim = .ok (results ++ rows, lim) := by
  rw [deserializeRowVector, readWhile_all rows p results (fun row hrow => rowItem_reads (h row hrow)) hd hlim,
    foldl_snoc]

theorem hold_drop (resp : MsgBuffer) (a b : Bytes) :
    (resp.hold (a ++ b)).buf.drop a.length = b ++ resp.buf.drop (a ++ b).length := by
  rw [MsgBuffer.hold, List.append_assoc, List.drop_left]

theorem readStatus_hold (resp : MsgBuffer) (s : Status) (b : Bytes) :
    readStatus (resp.hold (leStatus s ++ b)).buf 0 = .ok s := by
  apply readStatus_leStatus (t := b ++ resp.buf.drop (leStatus s ++ b).length)
  rw [List.drop_zero, MsgBuffer.hold, List.append_assoc]

theorem readReply_hold (resp : MsgBuffer) {row : Row} (h : Sized row) :
    readReply (resp.hold (leStatus .kOK ++ rowBytes row)) [] = .ok (.kOK, row) := by
  have hsize : (resp.hold (leStatus .kOK ++ rowBytes row)).dataSize = 4 + (rowBytes row).length :=
    List.length_append
  have hrow : deserializeRow [] (resp.hold (leStatus .kOK ++ rowBytes row)).buf 4 (4 + (rowBytes row).length) =
      .ok (row, 4 + (rowBytes row).length) :=
    RocksdbDB.deserializeRowAt_rowBytes h (hold_drop resp (leStatus .kOK) (rowBytes row)) rfl []
  rw [readReply, hsize, if_neg (by omega), readStatus_hold]
  simp only [bind, Except.bind, Nat.add_sub_cancel_left, hrow]
  rfl

theorem readReply_notFound (resp : MsgBuffer) :
    readReply (resp.hold (leStatus .kNotFound ++ rowBytes [])) [] = .ok (.kNotFound, []) := by
  have hsize : (resp.hold (leStatus .kNotFound ++ rowBytes [])).dataSize = 4 := rfl
  rw [readReply, hsize, if_neg (by omega), readStatus_hold]
  rfl

theorem scanReply_hold (resp : MsgBuffer) {rows : List Row} (h : ∀ row ∈ rows, (rowBytes row).length < 2 ^ 32) :
    scanReply (resp.hold (leStatus .kOK ++ encodeAll encodeRow rows)) [] = .ok (.kOK, rows) := by
  have hsize : (resp.hold (leStatus .kOK ++ encodeAll encodeRow rows)).dataSize =
      4 + (encodeAll encodeRow rows).length := List.length_append
  have hrows := deserializeRowVector_rows h (hold_drop resp (leStatus .kOK) (encodeAll encodeRow rows)) rfl []
  rw [leStatus_length] at hrows
  rw [scanReply, hsize, if_neg (by omega), readStatus_hold]
  simp only [bind, Except.bind, Nat.add_sub_cancel_left, hrows]
  rfl

theorem statusReply_hold (resp : MsgBuffer) (s : Status) :
    statusReply (resp.hold (leStatus s)) = .ok s := by
  have h := readStatus_hold resp s []
  rw [List.append_nil] at h
  have hsize : (resp.hold (leStatus s)).dataSize = 4 := leStatus_length s
  rw [statusReply, if_pos hsize, h]

def Answers : Call → Reply → Prop
  | .read _ _, .row s row => s = .kOK ∧ Sized row ∨ s = .kNotFound ∧ row = []
  | .scan _ _ _, .rows s rows => s = .kOK ∧ ∀ row ∈ rows, (rowBytes row).length < 2 ^ 32
  | .update _ _, .status _ | .insert _ _, .status _ | .delete _, .status _ => True
  | _, _ => False

theorem reply_hold (resp : MsgBuffer) {c : Call} {r : Reply} (h : Answers c r) :
    reply (resp.hold (replyBytes r)) c = .ok r := by
  cases c with
  | read key fields =>
    cases r with
    | row s row =>
      rcases h with ⟨rfl, hs⟩ | ⟨rfl, rfl⟩
      · rw [reply, replyBytes, readReply_hold resp hs]; rfl
      · rw [reply, replyBytes, readReply_notFound]; rfl
    | status s => cases h
    | rows s rows => cases h
  | scan key len fields =>
    cases r with
    | rows s rows =>
      obtain ⟨rfl, hs⟩ := h
      rw [reply, replyBytes, scanReply_hold resp hs]; rfl
    | status s => cases h
    | row s row => cases h
  | update key values | insert key values | delete key =>
    cases r with
    | status s => rw [reply, replyBytes, statusReply_hold]; rfl
    | row s row => cases h
    | rows s rows => cases h

end RocksdbCli

/-! ## Handlers -/

namespace RocksdbSvr

theorem deserializeKey_frame {mem key t : Bytes} {p : ℕ} (h : mem.drop p = frame key ++ t)
    (hk : key.length < 2 ^ 32) : deserializeKey mem p = .ok key := by
  have hr := readFrame_frame h hk
  rw [readFrame] at hr
  rw [deserializeKey]
  cases h1 : read32 mem p with
  | error e => rw [h1] at hr; cases hr
  | ok len =>
    simp only [h1, bind, Except.bind] at hr ⊢
    cases h2 : readBytes mem (p + 4) len with
    | error e => rw [h2] at hr; cases hr
    | ok bs =>
      simp only [h2, pure, Except.pure, Except.ok.injEq, Prod.mk.injEq] at hr
      rw [hr.1]

theorem writeStatus_eq {resp : MsgBuffer} (s : Status) (h : 4 ≤ resp.buf.length) :
    writeStatus resp s = .ok (resp.hold (leStatus s)) := by
  have hfit : (leStatus s).length ≤ resp.buf.length := h
  exact MsgBuffer.receive_eq hfit

section
variable {S : KVStore Bytes Bytes}

theorem readHandler_some {db : S.State} {resp : MsgBuffer} {key data : Bytes} (hk : key.length < 2 ^ 32)
    (hget : S.get db key = some data) (hfit : (leStatus .kOK ++ data).length ≤ resp.buf.length) :
    readHandler S db (frame key) resp = .ok (resp.hold (leStatus .kOK ++ data)) := by
  have hkey : deserializeKey (frame key) 0 = .ok key := deserializeKey_frame (t := []) (by simp) hk
  have hlen : (leStatus .kOK ++ data).length = 4 + data.length := List.length_append
  have hfront : (leStatus .kOK).length ≤ resp.buf.length := by rw [leStatus_length]; omega
  have hs := MsgBuffer.write_front hfront
  have hd := write_behind (b := data) hs
  rw [MsgBuffer.write_front hfit, Nat.zero_add, leStatus_length] at hd
  rw [leStatus_length] at hs
  simp only [readHandler, hkey, bind, Except.bind, hget, MsgBuffer.resize]
  rw [if_pos (hlen ▸ hfit)]
  simp only [hs, hd, MsgBuffer.hold, hlen]
  rfl

theorem readHandler_none {db : S.State} {resp : MsgBuffer} {key : Bytes} (hk : key.length < 2 ^ 32)
    (hget : S.get db key = none) (hfit : 4 ≤ resp.buf.length) :
    readHandler S db (frame key) resp = .ok (resp.hold (leStatus .kNotFound)) := by
  have hkey : deserializeKey (frame key) 0 = .ok key := deserializeKey_frame (t := []) (by simp) hk
  simp only [readHandler, hkey, bind, Except.bind, hget, writeStatus_eq _ hfit]

theorem putHandler_eq (db : S.State) {resp : MsgBuffer} {key value : Bytes} (hk : key.length < 2 ^ 32)
    (hfit : 4 ≤ resp.buf.length) :
    putHandler S db (frame key ++ value) resp = .ok (S.put db key value, resp.hold (leStatus .kOK)) := by
  have hkey : deserializeKey (frame key ++ value) 0 = .ok key := deserializeKey_frame (t := value) rfl hk
  have hoff : key.length + 4 = (frame key).length := by rw [frame_length, Nat.add_comm]
  have hvalue : readBytes (frame key ++ value) (frame key).length value.length = .ok value :=
    readBytes_append (t := []) (by rw [List.drop_left, List.append_nil]) (by rw [List.length_append]; omega)
  simp only [putHandler, hkey, bind, Except.bind, hoff, List.length_append, Nat.add_sub_cancel_left, hvalue,
    writeStatus_eq _ hfit]
  rfl

theorem deleteHandler_eq (db : S.State) {resp : MsgBuffer} {key : Bytes} (hk : key.length < 2 ^ 32)
    (hfit : 4 ≤ resp.buf.length) :
    deleteHandler S db (frame key) resp = .ok (S.delete db key, resp.hold (leStatus .kOK)) := by
  have hkey : deserializeKey (frame key) 0 = .ok key := deserializeKey_frame (t := []) (by simp) hk
  simp only [deleteHandler, hkey, bind, Except.bind, writeStatus_eq _ hfit]
  rfl

/-! ### The scan -/

theorem scanStep_eq (buf : Bytes) (offset : ℕ) (e : Bytes × Bytes) :
    scanStep (buf, offset) e =
      (write buf (0 + offset) (frame e.2)).map fun buf => (buf, offset + (frame e.2).length) := by
  rw [Nat.zero_add, frame, ← write_write, List.length_append, le32_length]
  simp only [scanStep, bind, Except.bind, pure, Except.pure]
  cases write buf offset (le32 e.2.length) with
  | error e => rfl
  | ok buf => cases h : write buf (offset + 4) e.2 <;> simp [h, Except.map, Nat.add_assoc]

theorem write_header {buf buf' body : Bytes} (hdr : Bytes) (h : write buf hdr.length body = .ok buf')
    (hfit : (hdr ++ body).length ≤ buf.length) :
    write buf' 0 hdr = .ok (hdr ++ body ++ buf.drop (hdr ++ body).length) := by
  rw [List.length_append] at hfit
  have hlen := write_length h
  rw [write_ok hfit, Except.ok.injEq] at h
  rw [MsgBuffer.write_front (by omega), ← h, List.append_assoc, List.length_append]
  congr 2
  exact List.drop_left' (by rw [List.length_take]; omega)

theorem scanHandler_eq (hS : S.Ordered) {db : S.State} {resp : MsgBuffer} {key : Bytes} {len : ℤ}
    {l : List (Bytes × Bytes)} (hk : key.length < 2 ^ 32) (hlo : -2 ^ 31 ≤ len) (hhi : len < 2 ^ 31)
    (hl : ((hS.abs db).seek key).take len.toNat = l)
    (hfit : (leStatus .kOK ++ encodeAll (fun e => frame e.2) l).length ≤ resp.buf.length) :
    scanHandler S db (frame key ++ leInt len) resp =
      .ok (resp.hold (leStatus .kOK ++ encodeAll (fun e => frame e.2) l)) := by
  have hkey : deserializeKey (frame key ++ leInt len) 0 = .ok key := deserializeKey_frame (t := leInt len) rfl hk
  have hlen : readInt (frame key ++ leInt len) (4 + key.length) = .ok len :=
    readInt_leInt (t := []) (by rw [← frame_length, List.drop_left, List.append_nil]) hlo hhi
  have hsize : (leStatus .kOK ++ encodeAll (fun e => frame e.2) l).length =
      4 + (encodeAll (fun e => frame e.2) l).length := List.length_append
  have hroom : 4 + (encodeAll (fun e => frame e.2) l).length ≤ resp.buf.length := hsize ▸ hfit
  have hbody := write_ok hroom
  have hhdr := write_header (leStatus .kOK) hbody hfit
  have hloop : S.forEach scanStep len.toNat (S.seek db key) (resp.buf, 4) =
      (write resp.buf 4 (encodeAll (fun e => frame e.2) l)).map
        fun buf => (buf, 4 + (encodeAll (fun e => frame e.2) l).length) := by
    rw [KVStore.forEach_eq hS, hS.rest_seek, hl, foldlM_write scanStep_eq l resp.buf 4 (by omega)]
  simp only [scanHandler, hkey, hlen, bind, Except.bind, hloop, hbody, Except.map, hhdr]
  exact MsgBuffer.resize_hold hsize.symm

end

end RocksdbSvr

/-! ## A handler answers for the record store -/

def Sendable : Call → Prop
  | .scan key len _ => key.length < 2 ^ 32 ∧ -2 ^ 31 ≤ len ∧ len < 2 ^ 31
  | .read key _ | .update key _ | .insert key _ | .delete key => key.length < 2 ^ 32

def ServerContext.SameSize (c c' : ServerContext) : Prop :=
  c'.respBuf.buf.length = c.respBuf.buf.length ∧ c'.preResp.buf.length = c.preResp.buf.length

theorem encodeAll_entries (l : List (Bytes × Row)) :
    encodeAll (fun e => frame e.2) (l.map fun a => (a.1, rowBytes a.2)) =
      encodeAll encodeRow (l.map Prod.snd) := by
  simp only [encodeAll, List.map_map]
  rfl

theorem handle_eq {S : KVStore Bytes Bytes} (hS : S.Ordered) {db : S.State} {m : OrdMap Bytes Row}
    {ctx : ServerContext} (c : Call) (hb : hS.abs db = m.map rowBytes) (hc : Sendable c)
    (hpre : 4 ≤ ctx.preResp.buf.length)
    (hfit : (replyBytes (RpcStore.call m c).2).length ≤ ctx.respBuf.buf.length) :
    ∃ db' ctx', RocksdbSvr.handle S db (reqType c) (requestBytes c) ctx =
        .ok (db', ctx', replyBytes (RpcStore.call m c).2) ∧
      hS.abs db' = (RpcStore.call m c).1.map rowBytes ∧ ctx.SameSize ctx' := by
  cases c with
  | read key fields =>
    have hget : S.get db key = (m.get key).map rowBytes := by rw [hS.get_eq, hb, OrdMap.get_map]
    cases hk : m.get key with
    | none =>
      simp only [RpcStore.call, hk] at hfit ⊢
      rw [hk] at hget
      refine ⟨db, { ctx with respBuf := ctx.respBuf.hold (leStatus .kNotFound) }, ?_, hb,
        MsgBuffer.hold_capacity hfit, rfl⟩
      simp only [RocksdbSvr.handle, reqType, requestBytes, bind, Except.bind,
        RocksdbSvr.readHandler_none hc hget hfit]
      rfl
    | some row =>
      simp only [RpcStore.call, hk] at hfit ⊢
      rw [hk] at hget
      refine ⟨db, { ctx with respBuf := ctx.respBuf.hold (leStatus .kOK ++ rowBytes row) }, ?_, hb,
        MsgBuffer.hold_capacity hfit, rfl⟩
      simp only [RocksdbSvr.handle, reqType, requestBytes, bind, Except.bind,
        RocksdbSvr.readHandler_some hc hget hfit, MsgBuffer.hold_data]
      rfl
  | scan key len fields =>
    -- the iterator of the server runs over the records from the key on
    have hl : ((hS.abs db).seek key).take len.toNat =
        ((m.entries.filter fun a => decide (key ≤ a.1)).take len.toNat).map fun a => (a.1, rowBytes a.2) := by
      rw [hb, OrdMap.seek_map, OrdMap.seek_eq_filter, List.map_take]
    have hbytes : replyBytes (RpcStore.call m (.scan key len fields)).2 = leStatus .kOK ++ encodeAll
        (fun e => frame e.2) (((m.entries.filter fun a => decide (key ≤ a.1)).take len.toNat).map
          fun a => (a.1, rowBytes a.2)) := by
      rw [encodeAll_entries]; rfl
    rw [hbytes] at hfit ⊢
    refine ⟨db, { ctx with respBuf := ctx.respBuf.hold _ }, ?_, hb, MsgBuffer.hold_capacity hfit, rfl⟩
    simp only [RocksdbSvr.handle, reqType, requestBytes, bind, Except.bind,
      RocksdbSvr.scanHandler_eq hS hc.1 hc.2.1 hc.2.2 hl hfit, MsgBuffer.hold_data]
    rfl
  | update key values | insert key values =>
    -- both handlers put the row that was sent
    refine ⟨S.put db key (rowBytes values), { ctx with preResp := ctx.preResp.hold (leStatus .kOK) }, ?_, ?_,
      rfl, MsgBuffer.hold_capacity hpre⟩
    · simp only [RocksdbSvr.handle, reqType, requestBytes, bind, Except.bind,
        RocksdbSvr.putHandler_eq db hc hpre, MsgBuffer.hold_data]
      rfl
    · rw [hS.abs_put, hb, RpcStore.call, OrdMap.map_put]
  | delete key =>
    refine ⟨S.delete db key, { ctx with preResp := ctx.preResp.hold (leStatus .kOK) }, ?_, ?_, rfl,
      MsgBuffer.hold_capacity hpre⟩
    · simp only [RocksdbSvr.handle, reqType, requestBytes, bind, Except.bind,
        RocksdbSvr.deleteHandler_eq db hc hpre, MsgBuffer.hold_data]
      rfl
    · rw [hS.abs_delete, hb, RpcStore.call, OrdMap.map_del]

/-! ## The rows of the store -/

def Stored (size : ℕ) (m : OrdMap Bytes Row) : Prop := ∀ a ∈ m.entries, (rowBytes a.2).length ≤ size

theorem stored_call {size : ℕ} {m : OrdMap Bytes Row} (c : Call) (h : Stored size m)
    (hc : (requestBytes c).length ≤ size) : Stored size (RpcStore.call m c).1 := by
  cases c with
  | read key fields => rw [RpcStore.read_fst]; exact h
  | scan key len fields => exact h
  | update key values | insert key values =>
    intro a ha
    rcases OrdMap.mem_put ha with rfl | ha
    · rw [requestBytes, List.length_append] at hc
      exact Nat.le_trans (Nat.le_add_left ..) hc
    · exact h a ha
  | delete key => exact fun a ha => h a (OrdMap.mem_del ha)

theorem answers_call {size : ℕ} {m : OrdMap Bytes Row} (c : Call) (h : Stored size m) (hsize : size < 2 ^ 32) :
    RocksdbCli.Answers c (RpcStore.call m c).2 := by
  cases c with
  | read key fields =>
    rw [RpcStore.call]
    cases hk : m.get key with
    | none => exact Or.inr ⟨rfl, rfl⟩
    | some row =>
      have hrow := h _ (OrdMap.mem_of_get hk)
      exact Or.inl ⟨rfl, sized_of_length (Nat.lt_of_le_of_lt hrow hsize)⟩
  | scan key len fields =>
    refine ⟨rfl, fun row hrow => ?_⟩
    obtain ⟨a, ha, rfl⟩ := List.mem_map.mp hrow
    exact Nat.lt_of_le_of_lt (h a (List.mem_of_mem_filter (List.mem_of_mem_take ha))) hsize
  | update key values | insert key values | delete key => trivial

end Ycsb
