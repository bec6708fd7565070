import Ycsb.RpcSound

/-!
# Messages that do not fit, and responses from anywhere

The encoders of the client and the handlers write what they have, whatever the
size of the buffer; the decoders of the clients believe the lengths that they read.
-/

namespace Ycsb

open Lib DB

/-! ## Writes into the buffers -/

namespace RocksdbCli

theorem serializeKey_ok {key buf : Bytes} {r : Bytes × ℕ} (h : serializeKey key buf = .ok r) :
    r.2 = (frame key).length ∧ r.1.length = buf.length ∧ r.2 ≤ buf.length := by
  rw [serializeKey_eq] at h
  obtain ⟨buf', hw, rfl⟩ := map_ok.mp h
  have hfit := write_fits hw
  rw [Nat.zero_add] at hfit
  rw [frame_length] at hfit ⊢
  exact ⟨rfl, write_length hw, hfit⟩

theorem keyRequest_fits {type : ReqType} {req : MsgBuffer} {key : Bytes} {r : ReqType × MsgBuffer}
    (h : keyRequest type req key = .ok r) : (frame key).length ≤ req.buf.length := by
  obtain ⟨k, hk, _⟩ := bind_ok.mp h
  obtain ⟨hsize, _, hfit⟩ := serializeKey_ok hk
  rwa [← hsize]

theorem scanRequest_fits {req : MsgBuffer} {key : Bytes} {len : ℤ} {r : ReqType × MsgBuffer}
    (h : scanRequest req key len = .ok r) : (frame key ++ leInt len).length ≤ req.buf.length := by
  obtain ⟨k, hk, h⟩ := bind_ok.mp h
  obtain ⟨hsize, hlen, _⟩ := serializeKey_ok hk
  obtain ⟨buf, hw, _⟩ := bind_ok.mp h
  have hfit := write_fits hw
  rwa [hlen, hsize, ← List.length_append] at hfit

theorem updateRequest_fits {req : MsgBuffer} {key : Bytes} {values : Row} {r : ReqType × MsgBuffer}
    (h : updateRequest req key values = .ok r) : (frame key ++ rowBytes values).length ≤ req.buf.length := by
  obtain ⟨k, hk, h⟩ := bind_ok.mp h
  obtain ⟨hsize, hlen, hfit⟩ := serializeKey_ok hk
  obtain ⟨v, hv, _⟩ := bind_ok.mp h
  rw [serializeRow_write values (hlen ▸ hfit)] at hv
  obtain ⟨buf, hw, _⟩ := map_ok.mp hv
  have hfit := write_fits hw
  rwa [hlen, hsize, ← List.length_append] at hfit

theorem request_ok_iff (req : MsgBuffer) (c : Call) :
    (∃ r, request req c = .ok r) ↔ (requestBytes c).length ≤ req.buf.length := by
  refine ⟨fun h => ?_, fun h => ⟨_, request_eq c h⟩⟩
  obtain ⟨r, h⟩ := h
  cases c with
  | read key fields => exact keyRequest_fits h
  | scan key len fields => exact scanRequest_fits h
  | update key values => exact updateRequest_fits h
  | insert key values => exact updateRequest_fits h
  | delete key => exact keyRequest_fits h

end RocksdbCli

namespace RocksdbSvr

section
variable {S : KVStore Bytes Bytes}

theorem resize_fits {msg msg' : MsgBuffer} {n : ℕ} (h : msg.resize n = .ok msg') : n ≤ msg.buf.length := by
  by_contra hn
  rw [MsgBuffer.resize, if_neg hn] at h
  cases h

theorem readHandler_fits {db : S.State} {resp resp' : MsgBuffer} {key data : Bytes} (hk : key.length < 2 ^ 32)
    (hget : S.get db key = some data) (h : readHandler S db (frame key) resp = .ok resp') :
    (leStatus .kOK ++ data).length ≤ resp.buf.length := by
  have hkey : deserializeKey (frame key) 0 = .ok key := deserializeKey_frame (t := []) (by simp) hk
  rw [readHandler, hkey] at h
  obtain ⟨_, ⟨rfl⟩, h⟩ := bind_ok.mp h
  rw [hget] at h
  obtain ⟨_, hresize, _⟩ := bind_ok.mp h
  rw [List.length_append, leStatus_length]
  exact resize_fits hresize

theorem forEach_scanStep (hS : S.Ordered) {buf : Bytes} (h : 4 ≤ buf.length) (db : S.State) (key : Bytes) (len : ℤ) :
    S.forEach scanStep len.toNat (S.seek db key) (buf, 4) =
      (write buf 4 (encodeAll (fun e => frame e.2) (((hS.abs db).seek key).take len.toNat))).map fun buf' =>
        (buf', 4 + (encodeAll (fun e => frame e.2) (((hS.abs db).seek key).take len.toNat)).length) := by
  rw [KVStore.forEach_eq hS, hS.rest_seek, foldlM_write scanStep_eq _ buf 4 (by omega), Nat.zero_add]

theorem scanHandler_fits (hS : S.Ordered) {db : S.State} {resp resp' : MsgBuffer} {key : Bytes} {len : ℤ}
    (hk : key.length < 2 ^ 32) (hlo : -2 ^ 31 ≤ len) (hhi : len < 2 ^ 31) (hcap : 4 ≤ resp.buf.length)
    (h : scanHandler S db (frame key ++ leInt len) resp = .ok resp') :
    (leStatus .kOK ++ encodeAll (fun e => frame e.2) (((hS.abs db).seek key).take len.toNat)).length ≤
      resp.buf.length := by
  have hkey : deserializeKey (frame key ++ leInt len) 0 = .ok key := deserializeKey_frame (t := leInt len) rfl hk
  have hlen : readInt (frame key ++ leInt len) (4 + key.length) = .ok len :=
    readInt_leInt (t := []) (by rw [← frame_length, List.drop_left, List.append_nil]) hlo hhi
  rw [scanHandler, hkey] at h
  obtain ⟨_, ⟨rfl⟩, h⟩ := bind_ok.mp h
  rw [hlen] at h
  obtain ⟨_, ⟨rfl⟩, h⟩ := bind_ok.mp h
  obtain ⟨r, hloop, _⟩ := bind_ok.mp h
  rw [forEach_scanStep hS hcap] at hloop
  obtain ⟨buf, hw, _⟩ := map_ok.mp hloop
  rw [List.length_append, leStatus_length]
  exact write_fits hw

end

end RocksdbSvr

/-! ## A call inside the buffers -/

section
variable {S : KVStore Bytes Bytes} (hS : S.Ordered)

/-- All that the call writes goes into the buffers: the client makes its request, and
the handler of a read or a scan answers it. The other handlers answer into a buffer of eRPC. -/
def Served (S : KVStore Bytes Bytes) (db : S.State) (req resp : MsgBuffer) (c : Call) : Prop :=
  ∃ type req', RocksdbCli.request req c = .ok (type, req') ∧
    match c with
    | .read _ _ => ∃ resp', RocksdbSvr.readHandler S db req'.data resp = .ok resp'
    | .scan _ _ _ => ∃ resp', RocksdbSvr.scanHandler S db req'.data resp = .ok resp'
    | .update _ _ | .insert _ _ | .delete _ => True

/-- What `resp_buf_` has to hold for a call. -/
def responseBytes (db : S.State) : Call → Bytes
  | .read key _ =>
    match S.get db key with
    | none => leStatus .kNotFound
    | some data => leStatus .kOK ++ data
  | .scan key len _ => leStatus .kOK ++ encodeAll (fun e => frame e.2) (((hS.abs db).seek key).take len.toNat)
  | .update _ _ | .insert _ _ | .delete _ => []

/-- `len` is an `int`. -/
def IntLen : Call → Prop
  | .scan _ len _ => -2 ^ 31 ≤ len ∧ len < 2 ^ 31
  | .read _ _ | .update _ _ | .insert _ _ | .delete _ => True

theorem served_request {db : S.State} {req resp : MsgBuffer} {c : Call} (h : Served S db req resp c) :
    (requestBytes c).length ≤ req.buf.length := by
  obtain ⟨type, req', hreq, _⟩ := h
  exact (RocksdbCli.request_ok_iff req c).mp ⟨_, hreq⟩

theorem served_response {db : S.State} {req resp : MsgBuffer} {c : Call} (hcap : 4 ≤ resp.buf.length)
    (hsize : req.buf.length < 2 ^ 31) (hc : IntLen c) (h : Served S db req resp c) :
    (responseBytes hS db c).length ≤ resp.buf.length := by
  have hfit := served_request h
  obtain ⟨type, req', hreq, hresp⟩ := h
  rw [RocksdbCli.request_eq c hfit] at hreq
  cases hreq
  cases c with
  | read key fields =>
    simp only [MsgBuffer.hold_data] at hresp
    obtain ⟨resp', hresp⟩ := hresp
    rw [requestBytes, frame_length] at hfit
    rw [responseBytes]
    cases hget : S.get db key with
    | none => exact hcap
    | some data => exact RocksdbSvr.readHandler_fits (by omega) hget hresp
  | scan key len fields =>
    simp only [MsgBuffer.hold_data] at hresp
    obtain ⟨resp', hresp⟩ := hresp
    rw [requestBytes, List.length_append, frame_length] at hfit
    exact RocksdbSvr.scanHandler_fits hS (by omega) hc.1 hc.2 hcap hresp
  | update key values | insert key values | delete key => exact Nat.zero_le _

theorem served_of_fits {db : S.State} {req resp : MsgBuffer} {c : Call} (hcap : 4 ≤ resp.buf.length)
    (hsize : req.buf.length < 2 ^ 31) (hc : IntLen c) (hfit : (requestBytes c).length ≤ req.buf.length)
    (hfit' : (responseBytes hS db c).length ≤ resp.buf.length) : Served S db req resp c := by
  refine ⟨_, _, RocksdbCli.request_eq c hfit, ?_⟩
  cases c with
  | read key fields =>
    simp only [MsgBuffer.hold_data]
    rw [requestBytes, frame_length] at hfit
    rw [responseBytes] at hfit'
    cases hget : S.get db key with
    | none => exact ⟨_, RocksdbSvr.readHandler_none (by omega) hget hcap⟩
    | some data =>
      rw [hget] at hfit'
      exact ⟨_, RocksdbSvr.readHandler_some (by omega) hget hfit'⟩
  | scan key len fields =>
    simp only [MsgBuffer.hold_data]
    rw [requestBytes, List.length_append, frame_length] at hfit
    exact ⟨_, RocksdbSvr.scanHandler_eq hS (by omega) hc.1 hc.2 rfl hfit'⟩
  | update key values | insert key values | delete key => trivial

/-- **A call stays inside the buffers exactly when its request and its response fit.**
Nothing compares their sizes with `msg_size`. -/
theorem served_iff (S : KVStore Bytes Bytes) (hS : S.Ordered) (msgSize : ℕ) (hmin : 8 ≤ msgSize)
    (hmax : msgSize < 2 ^ 31) (db : S.State) (req resp : MsgBuffer) (hreq : req.buf.length = msgSize)
    (hresp : resp.buf.length = msgSize) (c : Call) (hc : IntLen c) :
    Served S db req resp c ↔
      (requestBytes c).length ≤ msgSize ∧ (responseBytes hS db c).length ≤ msgSize := by
  have hcap : 4 ≤ resp.buf.length := by omega
  have hsize : req.buf.length < 2 ^ 31 := by omega
  constructor
  · intro h
    exact ⟨hreq ▸ served_request h, hresp ▸ served_response hS hcap hsize hc h⟩
  · intro h
    exact served_of_fits hS hcap hsize hc (hreq.symm ▸ h.1) (hresp.symm ▸ h.2)

end

/-- `u1` with one field of two bytes. -/
def oneRow : OrdMap Bytes Bytes := OrdMap.empty.put [117, 49] (RocksdbDB.serializeRow [([102], [7, 7])] [])

theorem served_iff_oneRow : Served (OrdMap.store Bytes Bytes) oneRow (.alloc 32) (.alloc 32) (.read [117, 49] none) ∧
    Served (OrdMap.store Bytes Bytes) oneRow (.alloc 32) (.alloc 32) (.scan [117] 3 none) := by
  have hserved : ∀ c, IntLen c → (Served (OrdMap.store Bytes Bytes) oneRow (.alloc 32) (.alloc 32) c ↔ _) := fun c hc =>
    served_iff _ (OrdMap.storeOrdered Bytes Bytes) 32 (by decide) (by decide) oneRow _ _ rfl rfl c hc
  constructor
  · exact (hserved (.read [117, 49] none) trivial).mpr ⟨by decide, by decide⟩
  · exact (hserved (.scan [117] 3 none) ⟨by decide, by decide⟩).mpr ⟨by decide, by decide⟩

/-- A value of 1024 bytes in an update, with the default size of the buffers. -/
theorem not_served_default : ¬ Served (OrdMap.store Bytes Bytes) OrdMap.empty (.alloc 1024) (.alloc 1024)
    (.update [117] [([102], List.replicate 1024 0)]) := by
  intro h
  have hfit := served_request h
  simp only [requestBytes, encodeAll, encodeField, List.map_cons, List.map_nil, List.flatten_cons, List.flatten_nil,
    List.length_append, frame_length, MsgBuffer.alloc, List.length_replicate, List.length_nil] at hfit
  omega

/-! ## Responses from anywhere -/

namespace RocksdbCli

theorem deserializeRow_ok {mem : Bytes} {p lim q : ℕ} {row : Row} (hp : p ≤ mem.length)
    (h : deserializeRow [] mem p lim = .ok (row, q)) :
    mem.drop p = rowBytes row ++ mem.drop lim ∧ Sized row ∧ lim ≤ mem.length := by
  obtain ⟨hd, rfl, hs⟩ := RocksdbDB.deserializeRowAt_ok h
  exact ⟨hd, hs, readWhile_le (fun _ _ _ hr => (readField_ok hr).2.2.2.2) p [] row q hp h⟩

/-- A sized row: its fields end where its size says. -/
theorem readRow_ok {mem : Bytes} {p q : ℕ} {values : Row} (h : readRow mem p = .ok (values, q)) :
    mem.drop p = encodeRow values ++ mem.drop q ∧ (rowBytes values).length < 2 ^ 32 ∧ q ≤ mem.length := by
  obtain ⟨len, hlen, h⟩ := bind_ok.mp h
  obtain ⟨hd, hlt⟩ := read32_ok hlen
  obtain ⟨⟨row, q'⟩, hrow, h⟩ := bind_ok.mp h
  cases h
  have hp : p + 4 ≤ mem.length := le_length_of_drop hd (List.cons_ne_nil _ _)
  obtain ⟨hd', _, hle⟩ := deserializeRow_ok hp hrow
  have hsize : (rowBytes values).length = len := by
    have hcount := congrArg List.length hd'
    simp only [List.length_append, List.length_drop] at hcount
    omega
  refine ⟨?_, hsize ▸ hlt, hle⟩
  rw [hd, hd', encodeRow, frame, hsize, List.append_assoc]

theorem deserializeRowVector_ok {mem : Bytes} {p lim q : ℕ} {rows : List Row}
    (h : deserializeRowVector [] mem p lim = .ok (rows, q)) :
    mem.drop p = encodeAll encodeRow rows ++ mem.drop lim ∧ ∀ row ∈ rows, (rowBytes row).length < 2 ^ 32 := by
  have hx : ∀ p row q, (rowItem mem).read p = .ok (row, q) → mem.drop p = encodeRow row ++ mem.drop q ∧
      (rowBytes row).length < 2 ^ 32 := by
    intro p row q hr
    obtain ⟨hd, hlt, _⟩ := readRow_ok hr
    exact ⟨hd, hlt⟩
  obtain ⟨as, hrows, hd, _, hs⟩ := readWhile_exact hx p [] rows q h
  rw [foldl_snoc, List.nil_append] at hrows
  exact hrows ▸ ⟨hd, hs⟩

end RocksdbCli

/-- The client returns, with an error status, or with what the message encodes behind the status. -/
def Survives {α : Type} (enc : α → Bytes) (msg : Bytes) (response : Except Fault (ℕ × α)) : Prop :=
  ∃ s result, response = .ok (s, result) ∧ (s ≠ Status.kOK.code ∨ msg.drop 4 = enc result)

/-- Too short for a status, another status than `kOK`, or a body of the form expected. -/
def Benign (body : Bytes → Prop) (msg : Bytes) : Prop :=
  msg.length < 4 ∨ msg.take 4 ≠ leStatus .kOK ∨ body (msg.drop 4)

theorem read32_front {msg : Bytes} (h : 4 ≤ msg.length) :
    ∃ s, read32 msg 0 = .ok s ∧ (msg.take 4 = leStatus .kOK ↔ s = Status.kOK.code) := by
  match msg, h with
  | a :: b :: c :: d :: msg, _ =>
    refine ⟨word a b c d, rfl, ?_⟩
    show [a, b, c, d] = _ ↔ _
    rw [← le32_word]
    refine ⟨fun heq => ?_, fun heq => heq ▸ rfl⟩
    have hread : read32 (le32 (word a b c d)) 0 = .ok (word a b c d) :=
      read32_le32 (t := []) (List.append_nil _).symm (word_lt a b c d)
    rw [heq] at hread
    exact (Except.ok.inj hread).symm

/-- The common shape of the functions behind a response. -/
def answer {α : Type} (msg : Bytes) (start : α) (decode : Except Fault (α × ℕ)) : Except Fault (ℕ × α) :=
  if msg.length < 4 then .ok (Status.kError.code, start)
  else do
    let s ← read32 msg 0
    if s = Status.kOK.code then decode.map fun r => (s, r.1) else .ok (s, start)

theorem answer_survives {α : Type} {enc : α → Bytes} {P : α → Prop} {msg : Bytes} {start : α}
    {decode : Except Fault (α × ℕ)}
    (hok : 4 ≤ msg.length → ∀ r, decode = .ok r → msg.drop 4 = enc r.1 ∧ P r.1)
    (hdec : ∀ result, P result → msg.drop 4 = enc result → ∃ q, decode = .ok (result, q)) :
    Survives enc msg (answer msg start decode) ↔ Benign (fun body => ∃ result, P result ∧ body = enc result) msg := by
  by_cases hlen : msg.length < 4
  · rw [answer, if_pos hlen]
    exact ⟨fun _ => Or.inl hlen, fun _ => ⟨_, _, rfl, Or.inl (by decide)⟩⟩
  · obtain ⟨s, hs, hkOK⟩ := read32_front (not_lt.mp hlen)
    rw [answer, if_neg hlen, hs, Benign, Ne, hkOK]
    by_cases h0 : s = Status.kOK.code
    · have hbind : (Except.ok s >>= fun s =>
          if s = Status.kOK.code then decode.map fun r => (s, r.1) else .ok (s, start)) =
            decode.map fun r => (s, r.1) := if_pos h0
      rw [hbind]
      constructor
      · intro h
        obtain ⟨_, _, hmap, _⟩ := h
        obtain ⟨r, hr, _⟩ := map_ok.mp hmap
        obtain ⟨hd, hP⟩ := hok (not_lt.mp hlen) r hr
        exact Or.inr (Or.inr ⟨r.1, hP, hd⟩)
      · intro h
        obtain ⟨result, hP, hd⟩ := (h.resolve_left hlen).resolve_left (not_not.mpr h0)
        obtain ⟨q, hq⟩ := hdec result hP hd
        exact ⟨s, result, by rw [hq]; rfl, Or.inr hd⟩
    · exact ⟨fun _ => Or.inr (Or.inl h0), fun _ => ⟨s, start, if_neg h0, Or.inl h0⟩⟩

theorem answer_eq {α : Type} (msg : Bytes) (start : α) (decode : Except Fault (α × ℕ)) :
    (do
      if msg.length < 4 then return (Status.kError.code, start)
      let s ← read32 msg 0
      if s ≠ Status.kOK.code then return (s, start)
      let (result, _) ← decode
      return (Status.kOK.code, result)) = answer msg start decode := by
  unfold answer
  by_cases hlen : msg.length < 4
  · rw [if_pos hlen, if_pos hlen]
    rfl
  · rw [if_neg hlen, if_neg hlen]
    cases read32 msg 0 with
    | error e => rfl
    | ok s =>
      by_cases h0 : s = Status.kOK.code
      · simp only [bind, Except.bind, h0, ne_eq, not_true_eq_false, if_false, if_true]
        cases decode <;> rfl
      · simp only [bind, Except.bind, h0, ne_eq, not_false_eq_true, if_false, if_true]
        rfl

theorem RocksdbCli.readResponse_eq (msg : Bytes) (result : Row) :
    readResponse msg result = answer msg result (deserializeRow result msg 4 (4 + (msg.length - 4))) :=
  answer_eq msg result _

theorem RocksdbCli.scanResponse_eq (msg : Bytes) (result : List Row) :
    scanResponse msg result = answer msg result (deserializeRowVector result msg 4 (4 + (msg.length - 4))) :=
  answer_eq msg result _

theorem LazyKV.readResponse_eq (msg : Bytes) (result : Row) :
    readResponse msg result = answer msg result (deserializeRow result msg 4 msg.length) := by
  unfold readResponse answer
  by_cases hlen : msg.length < 4
  · rw [if_pos hlen, if_pos hlen]
    rfl
  · rw [if_neg hlen, if_neg hlen]
    cases read32 msg 0 with
    | error e => rfl
    | ok s =>
      by_cases h0 : s = Status.kOK.code
      · simp only [bind, Except.bind, h0, if_true]
        cases deserializeRow result msg 4 msg.length <;> rfl
      · simp only [bind, Except.bind, h0, if_false]
        rfl

theorem ofCode_kOK {s : ℕ} : Status.ofCode s = .ok .kOK ↔ s = Status.kOK.code := by
  unfold Status.ofCode Status.code
  split <;> simp_all

/-- With the status read as an enumerator, this is what the client does with the front of its buffer. -/
theorem RocksdbCli.readReply_eq (msg : Bytes) (result : Row) :
    readReply ⟨msg, msg.length⟩ result =
      (readResponse msg result).bind fun r => (Status.ofCode r.1).map fun s => (s, r.2) := by
  rw [readResponse_eq, answer, readReply]
  by_cases hlen : msg.length < 4
  · rw [if_pos hlen, if_pos hlen]
    rfl
  · rw [if_neg hlen, if_neg hlen, readStatus]
    cases read32 msg 0 with
    | error e => rfl
    | ok s =>
      simp only [bind, Except.bind]
      by_cases h0 : s = Status.kOK.code
      · rw [if_pos h0, ofCode_kOK.mpr h0]
        cases deserializeRow result msg 4 (4 + (msg.length - 4)) with
        | error e => rfl
        | ok r => simp [Except.map, ofCode_kOK.mpr h0, pure, Except.pure]
      · rw [if_neg h0]
        cases hcode : Status.ofCode s with
        | error e => simp [Except.map, hcode]
        | ok t =>
          have hne : t ≠ .kOK := fun heq => h0 (ofCode_kOK.mp (heq ▸ hcode))
          simp [Except.map, hcode, hne, pure, Except.pure]

def RowBody (body : Bytes) : Prop := ∃ row, Sized row ∧ body = rowBytes row

def RowsBody (body : Bytes) : Prop :=
  ∃ rows : List Row, (∀ row ∈ rows, (rowBytes row).length < 2 ^ 32) ∧ body = encodeAll encodeRow rows

theorem lim_eq {msg : Bytes} (h : 4 ≤ msg.length) : 4 + (msg.length - 4) = msg.length := Nat.add_sub_cancel' h

theorem deserializeRow_survives (msg : Bytes) :
    Survives rowBytes msg (answer msg [] (RocksdbCli.deserializeRow [] msg 4 (4 + (msg.length - 4)))) ↔
      Benign RowBody msg := by
  refine answer_survives (fun hlen r hr => ?_) fun row hs hd => ?_
  · obtain ⟨hd, hs, _⟩ := RocksdbCli.deserializeRow_ok hlen hr
    rw [lim_eq hlen, List.drop_length, List.append_nil] at hd
    exact ⟨hd, hs⟩
  · have hlim : 4 + (msg.length - 4) = 4 + (rowBytes row).length := by rw [← hd, List.length_drop]
    exact ⟨_, RocksdbDB.deserializeRowAt_rowBytes (t := []) hs (by rw [hd, List.append_nil]) hlim []⟩

theorem deserializeRowVector_survives (msg : Bytes) :
    Survives (encodeAll encodeRow) msg
        (answer msg [] (RocksdbCli.deserializeRowVector [] msg 4 (4 + (msg.length - 4)))) ↔
      Benign RowsBody msg := by
  refine answer_survives (fun hlen r hr => ?_) fun rows hs hd => ?_
  · obtain ⟨hd, hs⟩ := RocksdbCli.deserializeRowVector_ok hr
    rw [lim_eq hlen, List.drop_length, List.append_nil] at hd
    exact ⟨hd, hs⟩
  · have hlim : 4 + (msg.length - 4) = 4 + (encodeAll encodeRow rows).length := by rw [← hd, List.length_drop]
    exact ⟨_, RocksdbCli.deserializeRowVector_rows (t := []) hs (by rw [hd, List.append_nil]) hlim []⟩

theorem lazy_eq_cli (msg : Bytes) : LazyKV.readResponse msg [] = RocksdbCli.readResponse msg [] := by
  rw [LazyKV.readResponse_eq, RocksdbCli.readResponse_eq]
  by_cases hlen : msg.length < 4
  · rw [answer, answer, if_pos hlen, if_pos hlen]
  · rw [lim_eq (not_lt.mp hlen)]
    rfl

/-- **A client survives exactly the responses that are too short, carry an error, or are
well formed throughout.** It checks no length that it reads. -/
theorem survives_iff (msg : Bytes) :
    (Survives rowBytes msg (RocksdbCli.readResponse msg []) ↔ Benign RowBody msg) ∧
      (Survives (encodeAll encodeRow) msg (RocksdbCli.scanResponse msg []) ↔ Benign RowsBody msg) ∧
      (Survives rowBytes msg (LazyKV.readResponse msg []) ↔ Benign RowBody msg) := by
  rw [lazy_eq_cli, RocksdbCli.readResponse_eq, RocksdbCli.scanResponse_eq]
  exact ⟨deserializeRow_survives msg, deserializeRowVector_survives msg, deserializeRow_survives msg⟩

/-- `kOK`, and one byte of a length. -/
theorem not_survives_truncated : ¬ Survives rowBytes [0, 0, 0, 0, 1] (RocksdbCli.readResponse [0, 0, 0, 0, 1] []) ∧
    ¬ Survives (encodeAll encodeRow) [0, 0, 0, 0, 1] (RocksdbCli.scanResponse [0, 0, 0, 0, 1] []) ∧
    ¬ Survives rowBytes [0, 0, 0, 0, 1] (LazyKV.readResponse [0, 0, 0, 0, 1] []) := by
  have hrow : ¬ Benign RowBody [0, 0, 0, 0, 1] := by
    intro h
    obtain ⟨row, _, hbody⟩ := (h.resolve_left (by decide)).resolve_left (by decide)
    have hlen := congrArg List.length hbody
    cases row with
    | nil => cases hlen
    | cons f row =>
      simp only [encodeAll_cons, encodeField, List.length_append, frame_length, List.drop_succ_cons, List.drop_zero,
        List.length_singleton] at hlen
      omega
  have hrows : ¬ Benign RowsBody [0, 0, 0, 0, 1] := by
    intro h
    obtain ⟨rows, _, hbody⟩ := (h.resolve_left (by decide)).resolve_left (by decide)
    have hlen := congrArg List.length hbody
    cases rows with
    | nil => cases hlen
    | cons row rows =>
      simp only [encodeAll_cons, encodeRow, List.length_append, frame_length, List.drop_succ_cons, List.drop_zero,
        List.length_singleton] at hlen
      omega
  rw [lazy_eq_cli, RocksdbCli.readResponse_eq, RocksdbCli.scanResponse_eq, deserializeRow_survives,
    deserializeRowVector_survives]
  exact ⟨hrow, hrows, hrow⟩

end Ycsb
