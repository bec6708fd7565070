import Ycsb.RpcSound
import Ycsb.Sqlite

/-!
# What a `READ` of the SQLite server sends

A row, and a failure before the statement is stepped, set the size of the buffer
with what they write. An absent key and a failed step write the status only, so
that the size and the bytes behind it are those of an earlier answer.
-/

namespace Ycsb

open Lib DB

namespace SqliteSvr

/-! ## The buffer after a handler -/

theorem writeStatus_ok {resp resp' : MsgBuffer} {s : Status} (h : RocksdbSvr.writeStatus resp s = .ok resp') :
    4 ≤ resp.buf.length ∧ resp' = resp.hold (leStatus s) := by
  by_cases hfit : 4 ≤ resp.buf.length
  · rw [RocksdbSvr.writeStatus_eq s hfit] at h
    cases h
    exact ⟨hfit, rfl⟩
  · unfold RocksdbSvr.writeStatus at h
    obtain ⟨_, hresize, -⟩ := bind_ok.mp h
    rw [MsgBuffer.resize, if_neg hfit] at hresize
    cases hresize

theorem putStatus_ok {resp resp' : MsgBuffer} {s : Status} (h : putStatus resp s = .ok resp') :
    4 ≤ resp.buf.length ∧ resp' = ⟨leStatus s ++ resp.buf.drop 4, resp.dataSize⟩ := by
  unfold putStatus at h
  obtain ⟨buf, hwrite, h⟩ := bind_ok.mp h
  cases h
  have hfit : (leStatus s).length ≤ resp.buf.length := by
    have hfits := write_fits hwrite
    rwa [Nat.zero_add] at hfits
  rw [MsgBuffer.write_front hfit] at hwrite
  cases hwrite
  exact ⟨hfit, rfl⟩

/-- What a handler leaves behind when it does not set the size. -/
def stale (resp : MsgBuffer) (s : Status) : Bytes := (leStatus s ++ resp.buf.drop 4).take resp.dataSize

theorem stale_eq_iff {resp : MsgBuffer} (hfit : 4 ≤ resp.buf.length) (hsize : resp.dataSize ≤ resp.buf.length)
    (s : Status) : stale resp s = leStatus s ↔ resp.dataSize = 4 := by
  unfold stale
  constructor
  · intro h
    have hlen := congrArg List.length h
    rw [List.length_take, List.length_append, List.length_drop, leStatus_length] at hlen
    omega
  · intro h
    rw [h]
    exact List.take_left' (leStatus_length s)

theorem row_ok {resp resp' : MsgBuffer} {value : Bytes} (h : (do
      let resp ← resp.resize (4 + value.length)
      let buf ← write resp.buf 0 (leStatus .kOK)
      let buf ← write buf 4 value
      return { resp with buf }) = .ok resp') :
    (leStatus .kOK ++ value).length ≤ resp.buf.length ∧ resp' = resp.hold (leStatus .kOK ++ value) := by
  obtain ⟨sized, hresize, h⟩ := bind_ok.mp h
  obtain ⟨buf, hstatus, h⟩ := bind_ok.mp h
  obtain ⟨buf', hvalue, h⟩ := bind_ok.mp h
  cases h
  have hlen : (leStatus .kOK ++ value).length = 4 + value.length := List.length_append
  unfold MsgBuffer.resize at hresize
  split at hresize
  · rename_i hfit
    cases hresize
    have hbehind := write_behind (b := value) hstatus
    rw [Nat.zero_add, leStatus_length, hvalue, MsgBuffer.write_front (by rw [hlen]; exact hfit)] at hbehind
    cases hbehind
    refine ⟨by rw [hlen]; exact hfit, ?_⟩
    rw [MsgBuffer.hold, hlen]
  · cases hresize

/-- How a `READ` of `key` answers from the buffer `resp`. -/
inductive Answers (table : SqlTable) (key : Bytes) (resp : MsgBuffer) : Option SqliteCall → MsgBuffer → Prop where
  | early {failed : SqliteCall} (h : failed ≠ .step) :
      Answers table key resp (some failed) (resp.hold (leStatus .kError))
  | failed : Answers table key resp (some .step) ⟨leStatus .kError ++ resp.buf.drop 4, resp.dataSize⟩
  | row {value : Bytes} (h : table key = some value) :
      Answers table key resp none (resp.hold (leStatus .kOK ++ value))
  | absent (h : table key = none) : Answers table key resp none ⟨leStatus .kNotFound ++ resp.buf.drop 4, resp.dataSize⟩

theorem readResponse_ok {svr : SqliteSvr} {key : Bytes} {failed : Option SqliteCall} {resp : MsgBuffer}
    (hprepare : failed ≠ some .prepare) (h : svr.readResponse failed key = .ok resp) :
    4 ≤ svr.context.respBuf.buf.length ∧ Answers svr.table key svr.context.respBuf failed resp := by
  unfold readResponse at h
  cases failed with
  | some call =>
    cases call with
    | prepare => exact absurd rfl hprepare
    | bind =>
      obtain ⟨hfit, rfl⟩ := writeStatus_ok h
      exact ⟨hfit, .early (by decide)⟩
    | step =>
      obtain ⟨hfit, rfl⟩ := putStatus_ok h
      exact ⟨hfit, .failed⟩
  | none =>
    simp only [reduceCtorEq, if_false] at h
    cases hvalue : svr.table key with
    | none =>
      rw [hvalue] at h
      obtain ⟨hfit, rfl⟩ := putStatus_ok h
      exact ⟨hfit, .absent hvalue⟩
    | some value =>
      rw [hvalue] at h
      obtain ⟨hfit, rfl⟩ := row_ok h
      rw [List.length_append, leStatus_length] at hfit
      exact ⟨by omega, .row hvalue⟩

theorem readHandler_ok {svr svr' : SqliteSvr} {req key : Bytes} {failed : Option SqliteCall}
    (hpossible : svr.Possible failed .read) (hkey : deserializeKey req = .ok key)
    (h : svr.readHandler req failed = .ok svr') : 4 ≤ svr.context.respBuf.buf.length ∧ svr'.table = svr.table ∧
      Answers svr.table key svr.context.respBuf failed svr'.context.respBuf := by
  unfold readHandler at h
  rw [hkey] at h
  obtain ⟨_, heq, h⟩ := bind_ok.mp h
  cases heq
  split at h
  · rename_i hprepare
    obtain ⟨resp, hresp, h⟩ := bind_ok.mp h
    cases h
    obtain ⟨hfit, rfl⟩ := writeStatus_ok hresp
    rw [hprepare.2]
    exact ⟨hfit, rfl, .early (by decide)⟩
  · rename_i hprepared
    have hprepare : failed ≠ some .prepare := fun hfailed => hprepared ⟨hpossible hfailed, hfailed⟩
    obtain ⟨resp, hresp, h⟩ := bind_ok.mp h
    cases h
    obtain ⟨hfit, hanswers⟩ := readResponse_ok hprepare hresp
    exact ⟨hfit, rfl, hanswers⟩

/-! ## Any history -/

/-- The size of the buffer is one that it can have. -/
def Sized (svr : SqliteSvr) : Prop := svr.context.respBuf.dataSize ≤ svr.context.respBuf.buf.length

theorem Answers.sized {table : SqlTable} {key : Bytes} {resp resp' : MsgBuffer} {failed : Option SqliteCall}
    (h : Answers table key resp failed resp') (hfit : 4 ≤ resp.buf.length) (hsize : resp.dataSize ≤ resp.buf.length) :
    resp'.dataSize ≤ resp'.buf.length := by
  have hhold : ∀ bytes : Bytes, (resp.hold bytes).dataSize ≤ (resp.hold bytes).buf.length := by
    intro bytes
    rw [MsgBuffer.hold, List.length_append]
    exact Nat.le_add_right _ _
  have hkeep : ∀ s : Status, resp.dataSize ≤ (leStatus s ++ resp.buf.drop 4).length := by
    intro s
    rw [List.length_append, List.length_drop, leStatus_length]
    omega
  cases h with
  | early | row => exact hhold _
  | failed | absent => exact hkeep _

variable {sql : SqlExec}

theorem writeHandler_respBuf {svr svr' : SqliteSvr} {req : Bytes} {failed : Option SqliteCall} {type : SqlReqType}
    {stmt : Bytes → Bytes → SqlStmt} (h : svr.writeHandler req failed sql type stmt = .ok svr') :
    svr'.context.respBuf = svr.context.respBuf := by
  unfold writeHandler at h
  obtain ⟨key, _, h⟩ := bind_ok.mp h
  obtain ⟨value, _, h⟩ := bind_ok.mp h
  split at h
  · obtain ⟨resp, _, h⟩ := bind_ok.mp h
    cases h
    rfl
  · obtain ⟨resp, _, h⟩ := bind_ok.mp h
    cases h
    rfl

theorem step_request {svr svr' : SqliteSvr} {type : SqlReqType} {req : Bytes} {failed : Option SqliteCall}
    (h : svr.step sql (.request type req failed) = some svr') :
    svr.Possible failed type ∧ svr.handler req failed sql type = .ok svr' := by
  have hstep : svr.step sql (.request type req failed) =
      if svr.Possible failed type then (svr.handler req failed sql type).toOption else none := rfl
  rw [hstep] at h
  split at h
  · rename_i hpossible
    refine ⟨hpossible, ?_⟩
    cases hhandler : svr.handler req failed sql type with
    | error e => rw [hhandler] at h; cases h
    | ok svr'' => rw [hhandler] at h; cases h; rfl
  · cases h

theorem step_sized (svr : SqliteSvr) (e : SqliteEvent) (svr' : SqliteSvr) (hsized : Sized svr)
    (h : svr.step sql e = some svr') : Sized svr' := by
  cases e with
  | others table =>
    cases h
    exact hsized
  | request type req failed =>
    obtain ⟨hpossible, hhandler⟩ := step_request h
    cases type with
    | read =>
      obtain ⟨key, hkey, -⟩ := bind_ok.mp hhandler
      obtain ⟨hfit, -, hanswers⟩ := readHandler_ok hpossible hkey hhandler
      exact hanswers.sized hfit hsized
    | update | insert | delete =>
      unfold Sized
      rw [writeHandler_respBuf hhandler]
      exact hsized

theorem run_sized {table : SqlTable} {msgSize preSize : ℕ} {history : List SqliteEvent} {svr : SqliteSvr}
    (hrun : run (step sql) (init table msgSize preSize) history = some svr) : Sized svr := by
  refine run_inv (step sql) step_sized ?_ hrun
  show msgSize ≤ (List.replicate msgSize 0).length
  rw [List.length_replicate]

/-! ## The answers of two runs -/

theorem answer_ok {svr : SqliteSvr} {req key : Bytes} {failed : Option SqliteCall} {bytes : Bytes}
    (hkey : deserializeKey req = .ok key) (h : svr.answer sql req failed = some bytes) :
    4 ≤ svr.context.respBuf.buf.length ∧
      ∃ resp, Answers svr.table key svr.context.respBuf failed resp ∧ resp.data = bytes := by
  obtain ⟨svr', hstep, rfl⟩ := Option.map_eq_some_iff.mp h
  obtain ⟨hpossible, hhandler⟩ := step_request hstep
  obtain ⟨hfit, -, hanswers⟩ := readHandler_ok hpossible hkey hhandler
  exact ⟨hfit, _, hanswers, rfl⟩

/-- The two answers are the same, and of a failure or for an absent key they are the status. -/
def ReadAlike (table : SqlTable) (key : Bytes) (failed : Option SqliteCall) (bytes bytes' : Bytes) : Prop :=
  bytes = bytes' ∧ (failed = none → table key = none → bytes = leStatus .kNotFound) ∧
    (failed ≠ none → bytes = leStatus .kError)

/-- The handler sets the size of what it sends. -/
def SetsSize (table : SqlTable) (key : Bytes) (failed : Option SqliteCall) : Prop :=
  failed = some .prepare ∨ failed = some .bind ∨ failed = none ∧ table key ≠ none

theorem stale_alike {resp resp' : MsgBuffer} (hfit : 4 ≤ resp.buf.length) (hsize : resp.dataSize ≤ resp.buf.length)
    (hfit' : 4 ≤ resp'.buf.length) (hsize' : resp'.dataSize ≤ resp'.buf.length) (s : Status) :
    stale resp s = stale resp' s ∧ stale resp s = leStatus s ↔ resp.dataSize = 4 ∧ resp'.dataSize = 4 := by
  rw [← stale_eq_iff hfit hsize s, ← stale_eq_iff hfit' hsize' s]
  constructor
  · rintro ⟨heq, h⟩
    exact ⟨h, heq ▸ h⟩
  · rintro ⟨h, h'⟩
    exact ⟨h.trans h'.symm, h⟩

theorem Answers.alike_iff {table : SqlTable} {key : Bytes} {failed : Option SqliteCall}
    {resp resp' sent sent' : MsgBuffer}
    (h : Answers table key resp failed sent) (h' : Answers table key resp' failed sent')
    (halike : ∀ s, stale resp s = stale resp' s ∧ stale resp s = leStatus s ↔ resp.dataSize = 4 ∧ resp'.dataSize = 4) :
    ReadAlike table key failed sent.data sent'.data ↔
      SetsSize table key failed ∨ resp.dataSize = 4 ∧ resp'.dataSize = 4 := by
  unfold ReadAlike SetsSize
  cases h with
  | @early call hcall =>
    cases h' with
    | failed => exact absurd rfl hcall
    | early =>
      rw [MsgBuffer.hold_data, MsgBuffer.hold_data]
      cases call with
      | prepare | bind => simp
      | step => exact absurd rfl hcall
  | failed =>
    cases h' with
    | early hcall => exact absurd rfl hcall
    | failed =>
      -- both replies repeat what the buffer held
      have hsent := halike .kError
      unfold stale at hsent
      rw [← hsent]
      simp [MsgBuffer.data]
  | @row value hvalue =>
    cases h' with
    | absent hnone => rw [hvalue] at hnone; cases hnone
    | row hvalue' =>
      rw [hvalue, Option.some.injEq] at hvalue'
      rw [MsgBuffer.hold_data, MsgBuffer.hold_data, hvalue']
      simp [hvalue]
  | absent hnone =>
    cases h' with
    | row hvalue => rw [hvalue] at hnone; cases hnone
    | absent =>
      have hsent := halike .kNotFound
      unfold stale at hsent
      rw [← hsent]
      simp [MsgBuffer.data, hnone]

theorem readAlike_iff {table table' : SqlTable} {msgSize preSize : ℕ} {history history' : List SqliteEvent}
    {svr svr' : SqliteSvr} (hrun : run (step sql) (init table msgSize preSize) history = some svr)
    (hrun' : run (step sql) (init table' msgSize preSize) history' = some svr') (htable : svr.table = svr'.table)
    {key req req' : Bytes} (hkey : deserializeKey req = .ok key) (hkey' : deserializeKey req' = .ok key)
    {failed : Option SqliteCall} {bytes bytes' : Bytes} (hbytes : svr.answer sql req failed = some bytes)
    (hbytes' : svr'.answer sql req' failed = some bytes') :
    ReadAlike svr.table key failed bytes bytes' ↔ SetsSize svr.table key failed ∨
      svr.context.respBuf.dataSize = 4 ∧ svr'.context.respBuf.dataSize = 4 := by
  obtain ⟨hfit, resp, hanswers, rfl⟩ := answer_ok hkey hbytes
  obtain ⟨hfit', resp', hanswers', rfl⟩ := answer_ok hkey' hbytes'
  rw [← htable] at hanswers'
  exact hanswers.alike_iff hanswers' (stale_alike hfit (run_sized hrun) hfit' (run_sized hrun'))

/-! ## Two rows -/

def twoRows : SqlTable := fun key => if key = [1] then some [7] else if key = [2] then some [8, 9] else none

def afterRead (key : Bytes) : Option SqliteSvr :=
  run (step SqlStmt.onTable) (init twoRows 16 4) [.request .read (frame key) none]

theorem afterRead_table {key : Bytes} {svr : SqliteSvr} (h : afterRead key = some svr) : svr.table = twoRows := by
  obtain ⟨svr', hstep, hrun⟩ := (run_cons_some _).mp h
  cases hrun
  obtain ⟨hpossible, hhandler⟩ := step_request hstep
  obtain ⟨key', hkey, -⟩ := bind_ok.mp hhandler
  exact (readHandler_ok hpossible hkey hhandler).2.1

/-- The threads after a `READ` of either row, and what they then answer. -/
theorem afterRead_answers (key bytes : Bytes) (req : Bytes)
    (h : ((afterRead key).bind fun svr => svr.answer SqlStmt.onTable req none) = some bytes) :
    ∃ svr, afterRead key = some svr ∧ svr.table = twoRows ∧ svr.answer SqlStmt.onTable req none = some bytes := by
  obtain ⟨svr, hsvr, hbytes⟩ := Option.bind_eq_some_iff.mp h
  exact ⟨svr, hsvr, afterRead_table hsvr, hbytes⟩

theorem readAlike_present : ReadAlike twoRows [1] none (leStatus .kOK ++ [7]) (leStatus .kOK ++ [7]) := by
  obtain ⟨svr, hrun, htable, hbytes⟩ := afterRead_answers [1] (leStatus .kOK ++ [7]) (frame [1]) (by decide +kernel)
  obtain ⟨svr', hrun', htable', hbytes'⟩ :=
    afterRead_answers [2] (leStatus .kOK ++ [7]) (frame [1]) (by decide +kernel)
  have hkey : deserializeKey (frame [1]) = .ok [1] := by decide +kernel
  have h := readAlike_iff hrun hrun' (htable.trans htable'.symm) hkey hkey hbytes hbytes'
  rw [htable] at h
  exact h.mpr (Or.inl (Or.inr (Or.inr ⟨rfl, by decide⟩)))

/-- The answer for an absent key ends in the row that was read before. -/
theorem absent_answers_differ : ∃ svr svr' bytes bytes',
    run (step SqlStmt.onTable) (init twoRows 16 4) [.request .read (frame [1]) none] = some svr ∧
    run (step SqlStmt.onTable) (init twoRows 16 4) [.request .read (frame [2]) none] = some svr' ∧ svr.table = svr'.table ∧
    svr.table [3] = none ∧ deserializeKey (frame [3]) = .ok [3] ∧ svr.answer SqlStmt.onTable (frame [3]) none = some bytes ∧
    svr'.answer SqlStmt.onTable (frame [3]) none = some bytes' ∧ bytes = leStatus .kNotFound ++ [7] ∧
    ¬ ReadAlike svr.table [3] none bytes bytes' := by
  obtain ⟨svr, hrun, htable, hbytes⟩ :=
    afterRead_answers [1] (leStatus .kNotFound ++ [7]) (frame [3]) (by decide +kernel)
  obtain ⟨svr', hrun', htable', hbytes'⟩ :=
    afterRead_answers [2] (leStatus .kNotFound ++ [8, 9]) (frame [3]) (by decide +kernel)
  refine ⟨svr, svr', _, _, hrun, hrun', htable.trans htable'.symm, ?_, by decide +kernel, hbytes, hbytes', rfl, ?_⟩
  · rw [htable]
    rfl
  · rintro ⟨heq, -⟩
    exact absurd heq (by decide +kernel)

end SqliteSvr

end Ycsb
