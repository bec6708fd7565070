import Mathlib.Logic.Function.Basic
import Ycsb.Lib.Trans
import Ycsb.RpcSound

/-!
# Clients and server at work

Each client has a session to its own server thread and one call at a time. Its
thread, the server thread and the network take steps in any order. Whatever the
order, the calls behave as if the server had answered them one by one, and a call
that was made can always be brought to its answer.
-/

namespace Ycsb

open Lib DB

/-- A client with its session: the buffers and flag of `RocksdbCli`, the call
its thread is in, the calls it has returned from, the messages under way, and the
server thread at the other end. -/
structure Session where
  req : MsgBuffer
  resp : MsgBuffer
  complete : Bool
  current : Option Call
  done : List (Call × Reply)
  request : Option (ReqType × Bytes)
  response : Option Bytes
  server : ServerContext

def Session.answered (x : Session) (server : ServerContext) (resp : Bytes) : Session :=
  { x with request := none, response := some resp, server }

/-- All sessions and the store. `handled` records the calls in the order the server handled them. -/
structure RpcState (S : KVStore Bytes Bytes) (ι : Type) where
  session : ι → Session
  db : S.State
  handled : List (ι × Call)
  fault : Option Fault

inductive RpcEvent (ι : Type) where
  | call (i : ι) (c : Call)
  | handle (i : ι)
  | deliver (i : ι)
  | poll (i : ι)

namespace RpcState

variable {S : KVStore Bytes Bytes} {ι : Type} [DecidableEq ι]

def init (msgSize preSize : ℕ) : RpcState S ι where
  session _ :=
    { req := .alloc msgSize, resp := .alloc msgSize, complete := false, current := none, done := [],
      request := none, response := none, server := ⟨.alloc msgSize, .alloc preSize⟩ }
  db := S.empty
  handled := []
  fault := none

def setSession (s : RpcState S ι) (i : ι) (x : Session) : RpcState S ι :=
  { s with session := Function.update s.session i x }

def attempt (s : RpcState S ι) : Except Fault (RpcState S ι) → RpcState S ι
  | .ok t => t
  | .error e => { s with fault := some e }

def step (s : RpcState S ι) : RpcEvent ι → Option (RpcState S ι)
  | .call i c =>
    let x := s.session i
    if x.current.isSome then none
    else some <| s.attempt do
      let (type, req) ← RocksdbCli.request x.req c
      return s.setSession i { x with req, current := some c, request := some (type, req.data) }
  | .handle i =>
    let x := s.session i
    x.request.map fun (type, req) => s.attempt do
      let (db, server, resp) ← RocksdbSvr.handle S s.db type req x.server
      let handled := s.handled ++ (x.current.map fun c => (i, c)).toList
      return { s.setSession i (x.answered server resp) with db, handled }
  | .deliver i =>
    let x := s.session i
    x.response.map fun bytes => s.attempt do
      let resp ← x.resp.receive bytes
      return s.setSession i { x with resp, response := none, complete := true }
  | .poll i =>
    let x := s.session i
    if x.complete then
      x.current.map fun c => s.attempt do
        let r ← RocksdbCli.reply x.resp c
        return s.setSession i { x with complete := false, current := none, done := x.done ++ [(c, r)] }
    else none

def served (s : RpcState S ι) : OrdMap Bytes Row × List (ι × Call × Reply) :=
  serve RpcStore.call OrdMap.empty s.handled

def Fits (msgSize : ℕ) (s : RpcState S ι) : RpcEvent ι → Prop
  | .call _ c => Sendable c ∧ (requestBytes c).length ≤ msgSize
  | .handle i => ∀ c, (s.session i).current = some c →
      (replyBytes (RpcStore.call s.served.1 c).2).length ≤ msgSize
  | .deliver _ | .poll _ => True

/-- Client `i` can make a call, or steps for its call alone bring the answer. -/
def Answers (msgSize : ℕ) (s : RpcState S ι) (i : ι) : Prop :=
  match (s.session i).current with
  | none => ∀ c, Sendable c → (requestBytes c).length ≤ msgSize → ∃ t, s.step (.call i c) = some t ∧ t.fault = none
  | some c => s.Fits msgSize (.handle i) → ∃ rest t r, rest <:+ [.handle i, .deliver i, .poll i] ∧
      run step s rest = some t ∧ t.fault = none ∧ (t.session i).current = none ∧
      (t.session i).done = (s.session i).done ++ [(c, r)]

end RpcState

/-! ## What the events say -/

namespace RpcEvent

variable {ι : Type}

def client : RpcEvent ι → ι
  | .call i _ | .handle i | .deliver i | .poll i => i

variable [DecidableEq ι]

/-- The calls of client `i`. -/
def issued (i : ι) (es : List (RpcEvent ι)) : List Call :=
  es.filterMap fun
    | .call j c => if j = i then some c else none
    | _ => none

/-- How often client `i` has returned from a call. -/
def returns (i : ι) (es : List (RpcEvent ι)) : ℕ :=
  es.countP fun
    | .poll j => decide (j = i)
    | _ => false

def note (s : (ι → Option Call) × List (ι × Call)) : RpcEvent ι → (ι → Option Call) × List (ι × Call)
  | .call i c => (Function.update s.1 i (some c), s.2)
  | .handle i => (s.1, s.2 ++ ((s.1 i).map fun c => (i, c)).toList)
  | .deliver _ | .poll _ => s

/-- The last call of each client, and the calls that were the last of their client when handled. -/
def noted (es : List (RpcEvent ι)) : (ι → Option Call) × List (ι × Call) := es.foldl note (fun _ => none, [])

def handlings (es : List (RpcEvent ι)) : List (ι × Call) := (noted es).2

theorem noted_snoc (es : List (RpcEvent ι)) (e : RpcEvent ι) : noted (es ++ [e]) = note (noted es) e := by
  rw [noted, List.foldl_append]
  rfl

theorem issued_snoc (i : ι) (es : List (RpcEvent ι)) (e : RpcEvent ι) :
    issued i (es ++ [e]) = issued i es ++ issued i [e] := List.filterMap_append

theorem returns_snoc (i : ι) (es : List (RpcEvent ι)) (e : RpcEvent ι) :
    returns i (es ++ [e]) = returns i es + returns i [e] := List.countP_append

end RpcEvent

/-! ## The life of a call -/

/-- Where a client is in its call, and which calls the server has handled for it. -/
inductive Phase (msgSize : ℕ) (x : Session) : List (Call × Reply) → Prop where
  | idle (hc : x.current = none) (hq : x.request = none) (hp : x.response = none) (hf : x.complete = false) :
      Phase msgSize x x.done
  | sent (c : Call) (hc : x.current = some c) (hq : x.request = some (reqType c, requestBytes c))
      (hp : x.response = none) (hf : x.complete = false) (hs : Sendable c)
      (hfit : (requestBytes c).length ≤ msgSize) : Phase msgSize x x.done
  | handled (c : Call) (r : Reply) (hc : x.current = some c) (hq : x.request = none)
      (hp : x.response = some (replyBytes r)) (hf : x.complete = false) (ha : RocksdbCli.Answers c r)
      (hfit : (replyBytes r).length ≤ msgSize) : Phase msgSize x (x.done ++ [(c, r)])
  | delivered (c : Call) (r : Reply) (hc : x.current = some c) (hq : x.request = none) (hp : x.response = none)
      (hf : x.complete = true) (ha : RocksdbCli.Answers c r) (msg : MsgBuffer)
      (hm : x.resp = msg.hold (replyBytes r)) : Phase msgSize x (x.done ++ [(c, r)])

structure Session.Sizes (msgSize : ℕ) (x : Session) : Prop where
  req : x.req.buf.length = msgSize
  resp : x.resp.buf.length = msgSize
  server : x.server.respBuf.buf.length = msgSize
  pre : 4 ≤ x.server.preResp.buf.length

section
variable {S : KVStore Bytes Bytes} {ι : Type} [DecidableEq ι] (hS : S.Ordered) (msgSize : ℕ)

structure RpcInv (s : RpcState S ι) : Prop where
  fault : s.fault = none
  bytes : hS.abs s.db = s.served.1.map rowBytes
  stored : Stored msgSize s.served.1
  phase : ∀ i, Phase msgSize (s.session i) (historyOf i s.served.2)
  sizes : ∀ i, (s.session i).Sizes msgSize

variable {hS} {msgSize}

theorem RpcInv.setSession {s : RpcState S ι} (h : RpcInv hS msgSize s) {i : ι} {x : Session}
    (hphase : Phase msgSize x (historyOf i s.served.2)) (hsizes : x.Sizes msgSize) :
    RpcInv hS msgSize (s.setSession i x) where
  fault := h.fault
  bytes := h.bytes
  stored := h.stored
  phase := (Function.forall_update_iff s.session (fun i x => Phase msgSize x (historyOf i s.served.2))).mpr
    ⟨hphase, fun j _ => h.phase j⟩
  sizes := (Function.forall_update_iff s.session (fun _ x => x.Sizes msgSize)).mpr
    ⟨hsizes, fun j _ => h.sizes j⟩

theorem rpcInv_init (hS : S.Ordered) {preSize : ℕ} (hpre : 4 ≤ preSize) :
    RpcInv hS msgSize (RpcState.init msgSize preSize : RpcState S ι) where
  fault := rfl
  bytes := hS.abs_empty
  stored _ ha := absurd ha List.not_mem_nil
  phase _ := .idle rfl rfl rfl rfl
  sizes _ := ⟨List.length_replicate, List.length_replicate, List.length_replicate,
    by rw [RpcState.init]; exact hpre.trans_eq List.length_replicate.symm⟩

/-! ## One step -/

theorem step_call {s t : RpcState S ι} {i : ι} {c : Call} (h : RpcInv hS msgSize s)
    (hfits : s.Fits msgSize (.call i c)) (hstep : s.step (.call i c) = some t) : RpcInv hS msgSize t := by
  have hsize := h.sizes i
  have hle : (requestBytes c).length ≤ (s.session i).req.buf.length := by rw [hsize.req]; exact hfits.2
  have hphase := h.phase i
  generalize hmine : historyOf i s.served.2 = mine at hphase
  cases hphase with
  | idle hc hq hp hf =>
    simp only [RpcState.step, hc, Option.isSome_none, Bool.false_eq_true, if_false,
      RocksdbCli.request_eq c hle, bind, Except.bind, pure, Except.pure, RpcState.attempt, MsgBuffer.hold_data,
      Option.some.injEq] at hstep
    subst hstep
    refine h.setSession ?_ ⟨(MsgBuffer.hold_capacity hle).trans hsize.req, hsize.resp, hsize.server, hsize.pre⟩
    rw [hmine]
    exact .sent c rfl rfl hp hf hfits.1 hfits.2
  | sent c' hc | handled c' r hc | delivered c' r hc => simp [RpcState.step, hc] at hstep

theorem step_handle {s t : RpcState S ι} {i : ι} (h : RpcInv hS msgSize s) (hsz : msgSize < 2 ^ 32)
    (hfits : s.Fits msgSize (.handle i)) (hstep : s.step (.handle i) = some t) : RpcInv hS msgSize t := by
  have hsize := h.sizes i
  have hphase := h.phase i
  generalize hmine : historyOf i s.served.2 = mine at hphase
  cases hphase with
  | sent c hc hq hp hf hs hfit =>
    have hreply := hfits c hc
    obtain ⟨db', ctx', hh, hb, hsame⟩ := handle_eq hS c h.bytes hs hsize.pre (hsize.server.symm ▸ hreply)
    simp only [RpcState.step, hq, hc, Option.map_some, hh, bind, Except.bind, pure, Except.pure,
      RpcState.attempt, Option.toList_some, Option.some.injEq] at hstep
    -- the log grows by this call, so the store and the history of its client do
    have hserved : t.served =
        ((RpcStore.call s.served.1 c).1, s.served.2 ++ [(i, c, (RpcStore.call s.served.1 c).2)]) := by
      rw [RpcState.served, ← hstep]
      exact serve_snoc RpcStore.call OrdMap.empty s.handled i c
    have hmine' : ∀ j, j ≠ i → historyOf j t.served.2 = historyOf j s.served.2 := by
      intro j hj
      rw [hserved]
      exact historyOf_snoc_ne (Ne.symm hj) _ _
    have hphase' : Phase msgSize ((s.session i).answered ctx' (replyBytes (RpcStore.call s.served.1 c).2))
        (historyOf i t.served.2) := by
      rw [hserved, historyOf_snoc_self, hmine]
      exact .handled c _ hc rfl rfl hf (answers_call c h.stored hsz) hreply
    have hsession : t.session = Function.update s.session i
        ((s.session i).answered ctx' (replyBytes (RpcStore.call s.served.1 c).2)) := by rw [← hstep]; rfl
    refine ⟨by rw [← hstep]; exact h.fault, ?_, ?_, ?_, ?_⟩
    · rw [hserved, ← hstep]; exact hb
    · rw [hserved]; exact stored_call c h.stored hfit
    · rw [hsession]
      exact (Function.forall_update_iff s.session (fun j x => Phase msgSize x (historyOf j t.served.2))).mpr
        ⟨hphase', fun j hj => hmine' j hj ▸ h.phase j⟩
    · rw [hsession]
      exact (Function.forall_update_iff s.session (fun _ x => x.Sizes msgSize)).mpr
        ⟨⟨hsize.req, hsize.resp, hsame.1.trans hsize.server, hsame.2 ▸ hsize.pre⟩, fun j _ => h.sizes j⟩
  | idle _ hq | handled _ _ _ hq | delivered _ _ _ hq => simp [RpcState.step, hq] at hstep

theorem step_deliver {s t : RpcState S ι} {i : ι} (h : RpcInv hS msgSize s)
    (hstep : s.step (.deliver i) = some t) : RpcInv hS msgSize t := by
  have hsize := h.sizes i
  have hphase := h.phase i
  generalize hmine : historyOf i s.served.2 = mine at hphase
  cases hphase with
  | handled c r hc hq hp hf ha hfit =>
    have hle : (replyBytes r).length ≤ (s.session i).resp.buf.length := by rw [hsize.resp]; exact hfit
    simp only [RpcState.step, hp, Option.map_some, MsgBuffer.receive_eq hle, bind, Except.bind, pure, Except.pure,
      RpcState.attempt, Option.some.injEq] at hstep
    subst hstep
    refine h.setSession ?_ ⟨hsize.req, (MsgBuffer.hold_capacity hle).trans hsize.resp, hsize.server, hsize.pre⟩
    rw [hmine]
    exact .delivered c r hc hq rfl rfl ha _ rfl
  | idle _ _ hp | sent _ _ _ hp | delivered _ _ _ _ hp => simp [RpcState.step, hp] at hstep

theorem step_poll {s t : RpcState S ι} {i : ι} (h : RpcInv hS msgSize s)
    (hstep : s.step (.poll i) = some t) : RpcInv hS msgSize t := by
  have hsize := h.sizes i
  have hphase := h.phase i
  generalize hmine : historyOf i s.served.2 = mine at hphase
  cases hphase with
  | delivered c r hc hq hp hf ha msg hm =>
    have hreply : RocksdbCli.reply (s.session i).resp c = .ok r := hm ▸ RocksdbCli.reply_hold msg ha
    simp only [RpcState.step, hf, hc, if_true, Option.map_some, hreply, bind, Except.bind,
      pure, Except.pure, RpcState.attempt, Option.some.injEq] at hstep
    subst hstep
    refine h.setSession ?_ ⟨hsize.req, hsize.resp, hsize.server, hsize.pre⟩
    rw [hmine]
    exact .idle rfl hq hp rfl
  | idle _ _ _ hf | sent _ _ _ _ hf | handled _ _ _ _ _ hf => simp [RpcState.step, hf] at hstep

theorem step_inv {s t : RpcState S ι} {e : RpcEvent ι} (hsz : msgSize < 2 ^ 32) (h : RpcInv hS msgSize s)
    (hfits : s.Fits msgSize e) (hstep : s.step e = some t) : RpcInv hS msgSize t := by
  cases e with
  | call i c => exact step_call h hfits hstep
  | handle i => exact step_handle h hsz hfits hstep
  | deliver i => exact step_deliver h hstep
  | poll i => exact step_poll h hstep

theorem Phase.returned {x : Session} {mine : List (Call × Reply)} (h : Phase msgSize x mine) :
    mine = x.done ∨ ∃ c r, x.current = some c ∧ mine = x.done ++ [(c, r)] := by
  cases h with
  | idle | sent => exact Or.inl rfl
  | handled c r hc | delivered c r hc => exact Or.inr ⟨c, r, hc, rfl⟩

end

/-! ## What a step leaves -/

namespace RpcState

section
variable {S : KVStore Bytes Bytes} {ι : Type} [DecidableEq ι]

/-- The step of an event that did not fault. -/
inductive Stepped (s : RpcState S ι) : RpcEvent ι → RpcState S ι → Prop where
  | call (i : ι) (c : Call) (req : MsgBuffer) (type : ReqType) (hc : (s.session i).current = none) :
      Stepped s (.call i c)
        (s.setSession i { s.session i with req, current := some c, request := some (type, req.data) })
  | handle (i : ι) (db : S.State) (server : ServerContext) (resp : Bytes)
      (hq : (s.session i).request.isSome) : Stepped s (.handle i)
        { s.setSession i ((s.session i).answered server resp) with
          db, handled := s.handled ++ ((s.session i).current.map fun c => (i, c)).toList }
  | deliver (i : ι) (resp : MsgBuffer) :
      Stepped s (.deliver i) (s.setSession i { s.session i with resp, response := none, complete := true })
  | poll (i : ι) (c : Call) (r : Reply) (hc : (s.session i).current = some c) : Stepped s (.poll i)
      (s.setSession i { s.session i with complete := false, current := none, done := (s.session i).done ++ [(c, r)] })

omit [DecidableEq ι] in
theorem attempt_ok {s t : RpcState S ι} {r : Except Fault (RpcState S ι)} (h : s.attempt r = t) (hf : t.fault = none) :
    r = .ok t := by
  cases r with
  | ok _ => exact congrArg Except.ok h
  | error e =>
    subst h
    cases hf

theorem step_cases {s t : RpcState S ι} {e : RpcEvent ι} (h : s.step e = some t) (hf : t.fault = none) :
    Stepped s e t := by
  cases e with
  | call i c =>
    simp only [step] at h
    split at h
    · cases h
    · rename_i hc
      -- no assertion fails, so the request was built
      have hok := attempt_ok (Option.some.inj h) hf
      cases hreq : RocksdbCli.request (s.session i).req c with
      | error e =>
        rw [hreq] at hok
        cases hok
      | ok p =>
        rw [hreq] at hok
        cases hok
        exact .call i c _ _ (Option.not_isSome_iff_eq_none.mp hc)
  | handle i =>
    simp only [step] at h
    obtain ⟨⟨type, req⟩, hq, h⟩ := Option.map_eq_some_iff.mp h
    have hok := attempt_ok h hf
    cases hh : RocksdbSvr.handle S s.db type req (s.session i).server with
    | error e =>
      rw [hh] at hok
      cases hok
    | ok p =>
      rw [hh] at hok
      cases hok
      exact .handle i _ _ _ (by rw [hq]; rfl)
  | deliver i =>
    simp only [step] at h
    obtain ⟨bytes, _, h⟩ := Option.map_eq_some_iff.mp h
    have hok := attempt_ok h hf
    cases hr : (s.session i).resp.receive bytes with
    | error e =>
      rw [hr] at hok
      cases hok
    | ok resp =>
      rw [hr] at hok
      cases hok
      exact .deliver i resp
  | poll i =>
    simp only [step] at h
    split at h
    · obtain ⟨c, hc, h⟩ := Option.map_eq_some_iff.mp h
      have hok := attempt_ok h hf
      cases hr : RocksdbCli.reply (s.session i).resp c with
      | error e =>
        rw [hr] at hok
        cases hok
      | ok r =>
        rw [hr] at hok
        cases hok
        exact .poll i c r hc
    · cases h

/-- A session, as the events tell it. -/
structure ToldOf (es : List (RpcEvent ι)) (i : ι) (x : Session) : Prop where
  last : ∀ c, x.current = some c → (RpcEvent.noted es).1 i = some c
  issued : RpcEvent.issued i es = x.done.map Prod.fst ++ x.current.toList
  returns : x.done.length = RpcEvent.returns i es

theorem ToldOf.other {es : List (RpcEvent ι)} {e : RpcEvent ι} {j : ι} {x : Session} (h : ToldOf es j x)
    (hj : j ≠ e.client) : ToldOf (es ++ [e]) j x where
  last c hc := by
    rw [RpcEvent.noted_snoc, ← h.last c hc]
    cases e with
    | call i c => exact Function.update_of_ne hj _ _
    | _ => rfl
  issued := by
    rw [RpcEvent.issued_snoc, ← h.issued, List.append_right_eq_self]
    cases e with
    | call i c => simp [RpcEvent.issued, show i ≠ j from Ne.symm hj]
    | _ => rfl
  returns := by
    rw [RpcEvent.returns_snoc, h.returns, Nat.left_eq_add]
    cases e with
    | poll i => simp [RpcEvent.returns, show i ≠ j from Ne.symm hj]
    | _ => rfl

/-- The lists that the state keeps are those of the events. -/
structure Told (es : List (RpcEvent ι)) (s : RpcState S ι) : Prop where
  handled : s.handled = RpcEvent.handlings es
  session : ∀ i, ToldOf es i (s.session i)

theorem told_init (msgSize preSize : ℕ) : Told [] (init msgSize preSize : RpcState S ι) :=
  ⟨rfl, fun _ => ⟨fun _ hc => by simp [init] at hc, rfl, rfl⟩⟩

theorem Told.setSession {es : List (RpcEvent ι)} {s : RpcState S ι} {e : RpcEvent ι} {x : Session} (h : Told es s)
    (hx : ToldOf (es ++ [e]) e.client x) (i : ι) : ToldOf (es ++ [e]) i (Function.update s.session e.client x i) :=
  (Function.forall_update_iff s.session (ToldOf (es ++ [e]))).mpr ⟨hx, fun j hj => (h.session j).other hj⟩ i

theorem told_step {es : List (RpcEvent ι)} {s t : RpcState S ι} {e : RpcEvent ι} (h : Told es s)
    (hq : ∀ i, (s.session i).request.isSome → (s.session i).current.isSome) (hs : Stepped s e t) :
    Told (es ++ [e]) t := by
  cases hs with
  | call i c req type hc =>
    have hi := h.session i
    refine ⟨?_, h.setSession (e := .call i c) ⟨fun c' hc' => ?_, ?_, ?_⟩⟩
    · rw [RpcEvent.handlings, RpcEvent.noted_snoc]
      exact h.handled
    · rw [RpcEvent.noted_snoc]
      exact (Function.update_self ..).trans hc'
    · have hissued := hi.issued
      rw [hc, Option.toList_none, List.append_nil] at hissued
      rw [RpcEvent.issued_snoc]
      exact congrArg₂ (· ++ ·) hissued (by simp [RpcEvent.issued, RpcEvent.client])
    · rw [RpcEvent.returns_snoc]
      exact hi.returns
  | handle i db server resp hsome =>
    have hi := h.session i
    obtain ⟨c, hc⟩ := Option.isSome_iff_exists.mp (hq i hsome)
    refine ⟨?_, h.setSession (e := .handle i) ⟨fun c' hc' => ?_, ?_, ?_⟩⟩
    · rw [RpcEvent.handlings, RpcEvent.noted_snoc]
      simp only [RpcEvent.note, hi.last c hc, hc, h.handled, RpcEvent.handlings]
    · rw [RpcEvent.noted_snoc]
      exact hi.last c' hc'
    · rw [RpcEvent.issued_snoc]
      exact (List.append_nil _).trans hi.issued
    · rw [RpcEvent.returns_snoc]
      exact hi.returns
  | deliver i resp =>
    have hi := h.session i
    refine ⟨?_, h.setSession (e := .deliver i) ⟨fun c' hc' => ?_, ?_, ?_⟩⟩
    · rw [RpcEvent.handlings, RpcEvent.noted_snoc]
      exact h.handled
    · rw [RpcEvent.noted_snoc]
      exact hi.last c' hc'
    · rw [RpcEvent.issued_snoc]
      exact (List.append_nil _).trans hi.issued
    · rw [RpcEvent.returns_snoc]
      exact hi.returns
  | poll i c r hc =>
    have hi := h.session i
    refine ⟨?_, h.setSession (e := .poll i) ⟨fun _ hc' => (by cases hc'), ?_, ?_⟩⟩
    · rw [RpcEvent.handlings, RpcEvent.noted_snoc]
      exact h.handled
    -- the call that was current is now the last of those returned from
    · have hissued := hi.issued
      rw [hc] at hissued
      rw [RpcEvent.issued_snoc]
      refine (List.append_nil _).trans (hissued.trans ?_)
      simp
    · rw [RpcEvent.returns_snoc]
      change ((s.session i).done ++ [(c, r)]).length = RpcEvent.returns i es + _
      rw [List.length_append, ← hi.returns]
      simp [RpcEvent.returns, RpcEvent.client]

/-! ## A call can be brought to its answer -/

variable {hS : S.Ordered} {msgSize : ℕ}

theorem finish_poll {s : RpcState S ι} {i : ι} {c : Call} (h : RpcInv hS msgSize s) (hsz : msgSize < 2 ^ 32)
    (hc : (s.session i).current = some c) (hf : (s.session i).complete = true) : ∃ t r, s.step (.poll i) = some t ∧
      t.fault = none ∧ (t.session i).current = none ∧ (t.session i).done = (s.session i).done ++ [(c, r)] := by
  obtain ⟨t, ht⟩ : ∃ t, s.step (.poll i) = some t := by simp [step, hf, hc]
  have hinv := step_inv hsz h (e := .poll i) trivial ht
  cases step_cases ht hinv.fault with
  | poll _ c' r hc' =>
    rw [hc, Option.some.injEq] at hc'
    subst hc'
    exact ⟨_, r, ht, hinv.fault, by simp [setSession], by simp [setSession]⟩

theorem finish_deliver {s : RpcState S ι} {i : ι} {c : Call} (h : RpcInv hS msgSize s) (hsz : msgSize < 2 ^ 32)
    (hc : (s.session i).current = some c) (hp : (s.session i).response.isSome) : ∃ t r,
      run step s [.deliver i, .poll i] = some t ∧ t.fault = none ∧ (t.session i).current = none ∧
      (t.session i).done = (s.session i).done ++ [(c, r)] := by
  obtain ⟨bytes, hbytes⟩ := Option.isSome_iff_exists.mp hp
  obtain ⟨t, ht⟩ : ∃ t, s.step (.deliver i) = some t := by simp [step, hbytes]
  have hinv := step_inv hsz h (e := .deliver i) trivial ht
  cases step_cases ht hinv.fault with
  | deliver _ resp =>
    obtain ⟨u, r, hu, hfault, hcur, hdone⟩ := finish_poll hinv hsz (i := i) (c := c) (by simpa [setSession] using hc)
      (by simp [setSession])
    refine ⟨u, r, (run_cons_some _).mpr ⟨_, ht, (run_cons_some _).mpr ⟨u, hu, rfl⟩⟩, hfault, hcur, ?_⟩
    simpa [setSession] using hdone

theorem finish_handle {s : RpcState S ι} {i : ι} {c : Call} (h : RpcInv hS msgSize s) (hsz : msgSize < 2 ^ 32)
    (hc : (s.session i).current = some c) (hq : (s.session i).request.isSome) (hfits : s.Fits msgSize (.handle i)) :
    ∃ t r, run step s [.handle i, .deliver i, .poll i] = some t ∧ t.fault = none ∧ (t.session i).current = none ∧
      (t.session i).done = (s.session i).done ++ [(c, r)] := by
  obtain ⟨p, hreq⟩ := Option.isSome_iff_exists.mp hq
  obtain ⟨t, ht⟩ : ∃ t, s.step (.handle i) = some t := by simp [step, hreq]
  have hinv := step_inv hsz h hfits ht
  cases step_cases ht hinv.fault with
  | handle _ db server resp =>
    obtain ⟨u, r, hu, hfault, hcur, hdone⟩ := finish_deliver hinv hsz (i := i) (c := c)
      (by simpa [setSession, Session.answered] using hc) (by simp [setSession, Session.answered])
    refine ⟨u, r, (run_cons_some _).mpr ⟨_, ht, hu⟩, hfault, hcur, ?_⟩
    simpa [setSession, Session.answered] using hdone

theorem answers_of_inv {s : RpcState S ι} (h : RpcInv hS msgSize s) (hsz : msgSize < 2 ^ 32) (i : ι) :
    s.Answers msgSize i := by
  unfold Answers
  have hphase := h.phase i
  generalize historyOf i s.served.2 = mine at hphase
  cases hphase with
  | idle hc =>
    rw [hc]
    intro c hs hfit
    obtain ⟨t, ht⟩ : ∃ t, s.step (.call i c) = some t := by simp [step, hc]
    exact ⟨t, ht, (step_inv hsz h (e := .call i c) ⟨hs, hfit⟩ ht).fault⟩
  | sent c hc hq =>
    rw [hc]
    intro hfits
    obtain ⟨t, r, hrun, hend⟩ := finish_handle h hsz hc (by rw [hq]; rfl) hfits
    exact ⟨_, t, r, List.suffix_rfl, hrun, hend⟩
  | handled c r hc _ hp =>
    rw [hc]
    intro _
    obtain ⟨t, r, hrun, hend⟩ := finish_deliver h hsz hc (by rw [hp]; rfl)
    exact ⟨_, t, r, List.suffix_cons _ _, hrun, hend⟩
  | delivered c r hc _ _ hf =>
    rw [hc]
    intro _
    obtain ⟨t, r, hstep, hend⟩ := finish_poll h hsz hc hf
    exact ⟨[.poll i], t, r, ⟨[.handle i, .deliver i], rfl⟩, (run_cons_some _).mpr ⟨t, hstep, rfl⟩, hend⟩

theorem requested_of_inv {s : RpcState S ι} (h : RpcInv hS msgSize s) (i : ι)
    (hq : (s.session i).request.isSome) : (s.session i).current.isSome := by
  have hphase := h.phase i
  generalize historyOf i s.served.2 = mine at hphase
  cases hphase with
  | sent c hc => rw [hc]; rfl
  | idle _ hn | handled _ _ _ hn | delivered _ _ _ hn => simp [hn] at hq

end

end RpcState

/-- **The protocol loses, duplicates and corrupts nothing.** In every
interleaving no step faults, and the server has handled, at each handling step,
the call that its client was in. The store holds the rows that these calls leave.
Each client has returned as often as it has polled its answer, from its calls in
their order, with the replies of their handling steps. A call handled and not yet
returned from is the client's current one; and a client can always make a call,
or be brought to the answer of the one it is in. -/
theorem rpc_linearizable (S : KVStore Bytes Bytes) (hS : S.Ordered) {ι : Type} [DecidableEq ι]
    (msgSize preSize : ℕ) (hsz : msgSize < 2 ^ 32) (hpre : 4 ≤ preSize) (es : List (RpcEvent ι)) (u : RpcState S ι)
    (hfits : Along (RpcState.step (S := S)) (RpcState.Fits msgSize) (RpcState.init msgSize preSize) es)
    (hrun : run RpcState.step (RpcState.init msgSize preSize) es = some u) :
    u.fault = none ∧ u.handled = RpcEvent.handlings es ∧
      hS.abs u.db = (serve RpcStore.call OrdMap.empty (RpcEvent.handlings es)).1.map
        (fun row => RocksdbDB.serializeRow row []) ∧
      ∀ i, (u.session i).done.length = RpcEvent.returns i es ∧
        RpcEvent.issued i es = (u.session i).done.map Prod.fst ++ (u.session i).current.toList ∧
        (historyOf i (serve RpcStore.call OrdMap.empty (RpcEvent.handlings es)).2 = (u.session i).done ∨
          ∃ c r, (u.session i).current = some c ∧
            historyOf i (serve RpcStore.call OrdMap.empty (RpcEvent.handlings es)).2 = (u.session i).done ++ [(c, r)]) ∧
        u.Answers msgSize i := by
  obtain ⟨h, htold⟩ := run_inv_trace RpcState.step (I := fun es s => RpcInv hS msgSize s ∧ RpcState.Told es s)
    (fun es s e t hI hC hs => by
      have hinv := step_inv hsz hI.1 hC hs
      exact ⟨hinv, RpcState.told_step hI.2 (RpcState.requested_of_inv hI.1) (RpcState.step_cases hs hinv.fault)⟩)
    es [] _ u ⟨rpcInv_init hS hpre, RpcState.told_init _ _⟩ hfits hrun
  rw [List.nil_append] at htold
  rw [← htold.handled]
  refine ⟨h.fault, rfl, h.bytes.trans ?_, fun i =>
    ⟨(htold.session i).returns, (htold.session i).issued, (h.phase i).returned, RpcState.answers_of_inv h hsz i⟩⟩
  congr 1
  funext row
  exact (RocksdbDB.serializeRow_eq row []).symm

/-- A read that is handled before the insert it overlaps, and one after it. -/
def overlapping : List (RpcEvent Bool) :=
  [.call false (.insert [1] [([2], [3])]), .call true (.read [1] none), .handle true, .handle false, .deliver true,
    .deliver false, .poll true, .call true (.read [1] none), .handle true, .deliver true, .poll true]

theorem rpc_linearizable_overlapping : ∃ u : RpcState (OrdMap.store Bytes Bytes) Bool,
    run RpcState.step (RpcState.init 32 4) overlapping = some u ∧
    u.handled = [(true, .read [1] none), (false, .insert [1] [([2], [3])]), (true, .read [1] none)] ∧
    u.db.entries = [([1], RocksdbDB.serializeRow [([2], [3])] [])] ∧
    (u.session true).done = [(.read [1] none, .row .kNotFound []), (.read [1] none, .row .kOK [([2], [3])])] ∧
    (u.session false).done = [] ∧
    ∃ rest t r, run RpcState.step u rest = some t ∧ (t.session false).done = [(.insert [1] [([2], [3])], r)] := by
  have hfits : Along (RpcState.step (S := OrdMap.store Bytes Bytes)) (RpcState.Fits 32) (RpcState.init 32 4)
      overlapping := by
    refine .cons _ rfl ⟨by simp [Sendable], by decide⟩ (.cons _ rfl ⟨by simp [Sendable], by decide⟩ ?_)
    refine .cons _ rfl (fun c h => by cases h; decide) (.cons _ rfl (fun c h => by cases h; decide) ?_)
    refine .cons _ rfl trivial (.cons _ rfl trivial (.cons _ rfl trivial ?_))
    refine .cons _ rfl ⟨by simp [Sendable], by decide⟩ (.cons _ rfl (fun c h => by cases h; decide) ?_)
    exact .cons _ rfl trivial (.cons _ rfl trivial trivial)
  obtain ⟨u, hrun⟩ : ∃ u, run RpcState.step (RpcState.init 32 4 : RpcState (OrdMap.store Bytes Bytes) Bool)
    overlapping = some u := ⟨_, rfl⟩
  obtain ⟨_, hhandled, hdb, hsession⟩ := rpc_linearizable (OrdMap.store Bytes Bytes) (OrdMap.storeOrdered Bytes Bytes)
    32 4 (by decide) (by decide) overlapping u hfits hrun
  obtain ⟨hreturns, _, hhistory, _⟩ := hsession true
  obtain ⟨hreturns', hissued, _, hanswers⟩ := hsession false
  have hdone : (u.session false).done = [] := List.eq_nil_of_length_eq_zero hreturns'
  have hcur : (u.session false).current = some (.insert [1] [([2], [3])]) := by
    rw [hdone, List.map_nil, List.nil_append] at hissued
    exact Option.toList_eq_singleton_iff.mp hissued.symm
  refine ⟨u, hrun, hhandled, congrArg OrdMap.entries hdb, ?_, hdone, ?_⟩
  · rcases hhistory with h | ⟨c, r, _, h⟩
    · exact h.symm
    · have hlen := congrArg List.length h
      rw [List.length_append, hreturns] at hlen
      cases hlen
  · unfold RpcState.Answers at hanswers
    rw [hcur] at hanswers
    obtain ⟨rest, t, r, _, hrest, _, _, hd⟩ := hanswers fun c hc => by
      rw [hcur, Option.some.injEq] at hc
      subst hc
      exact show 4 ≤ 32 by decide
    exact ⟨rest, t, r, hrest, by rw [hd, hdone]; rfl⟩

end Ycsb
