import Ycsb.RocksdbSound
import Ycsb.RpcSound

/-!
# The client and server against the embedded binding

Both bindings implement the interface of `DB`, and their replies are compared
over sequences of inserts, updates and reads. The server replaces a row where
`RocksdbDB` overwrites some of its fields, and it sends the row whole.
-/

namespace Ycsb

open Lib DB

/-! ## A client alone with its server -/

def CallFits (msgSize : ℕ) (m : OrdMap Bytes Row) (c : Call) : Prop :=
  Sendable c ∧ (requestBytes c).length ≤ msgSize ∧ (replyBytes (RpcStore.call m c).2).length ≤ msgSize

section
variable {S : KVStore Bytes Bytes} (hS : S.Ordered) (msgSize : ℕ)

structure Linked (s : Link S) (m : OrdMap Bytes Row) : Prop where
  bytes : hS.abs s.db = m.map rowBytes
  stored : Stored msgSize m
  req : s.req.buf.length = msgSize
  resp : s.resp.buf.length = msgSize
  server : s.server.respBuf.buf.length = msgSize
  pre : 4 ≤ s.server.preResp.buf.length

variable {hS} {msgSize}

theorem linked_init {preSize : ℕ} (hpre : 4 ≤ preSize) :
    Linked hS msgSize (Link.init S msgSize preSize) OrdMap.empty where
  bytes := hS.abs_empty
  stored _ ha := absurd ha List.not_mem_nil
  req := List.length_replicate
  resp := List.length_replicate
  server := List.length_replicate
  pre := hpre.trans_eq List.length_replicate.symm

theorem call_linked {s : Link S} {m : OrdMap Bytes Row} (c : Call) (hsz : msgSize < 2 ^ 32)
    (h : Linked hS msgSize s m) (hfits : CallFits msgSize m c) :
    ∃ s', RocksdbCli.call s c = .ok (s', (RpcStore.call m c).2) ∧ Linked hS msgSize s' (RpcStore.call m c).1 := by
  obtain ⟨hs, hreq, hresp⟩ := hfits
  have hle : (requestBytes c).length ≤ s.req.buf.length := h.req.symm ▸ hreq
  have hle' : (replyBytes (RpcStore.call m c).2).length ≤ s.resp.buf.length := h.resp.symm ▸ hresp
  obtain ⟨db', server', hh, hb, hsame⟩ := handle_eq hS c h.bytes hs h.pre (h.server.symm ▸ hresp)
  refine ⟨⟨s.req.hold (requestBytes c), s.resp.hold _, server', db'⟩, ?_, hb, stored_call c h.stored hreq,
    (MsgBuffer.hold_capacity hle).trans h.req, (MsgBuffer.hold_capacity hle').trans h.resp,
    hsame.1.trans h.server, hsame.2 ▸ h.pre⟩
  rw [RocksdbCli.call, RocksdbCli.request_eq c hle]
  simp only [bind, Except.bind, MsgBuffer.hold_data, hh, MsgBuffer.receive_eq hle',
    RocksdbCli.reply_hold s.resp (answers_call c h.stored hsz)]
  rfl

theorem exec_linked (hS : S.Ordered) {preSize : ℕ} {calls : List Call} (hsz : msgSize < 2 ^ 32) (hpre : 4 ≤ preSize)
    (hc : Legal RpcStore.call (CallFits msgSize) OrdMap.empty calls) :
    ∃ s, exec RocksdbCli.call (Link.init S msgSize preSize) calls =
        .ok (s, (respond RpcStore.call OrdMap.empty calls).2) ∧
      Linked hS msgSize s (respond RpcStore.call OrdMap.empty calls).1 :=
  exec_refines (fun _ _ c h hc => call_linked c hsz h hc) calls _ OrdMap.empty (linked_init hpre) hc

end

/-! ## When the replies agree -/

/-- The calls that are compared: no scans and no deletes. -/
def IsRecordCall : Call → Prop
  | .read _ _ | .update _ _ | .insert _ _ => True
  | .scan _ _ _ | .delete _ => False

/-- For each inserted key the field names of its last `Insert`, and those of its last `Insert` or `Update`. -/
def namesGiven (k : OrdMap Bytes (List Bytes × List Bytes)) : Call → OrdMap Bytes (List Bytes × List Bytes) × Unit
  | .insert key values => (k.put key (names values, names values), ())
  | .update key values =>
    match k.get key with
    | none => (k, ())
    | some given => (k.put key (given.1, names values), ())
  | .read _ _ | .scan _ _ _ | .delete _ => (k, ())

/-- An update is of an inserted key; a read of an inserted key asks for the
names that were given last. -/
def Agrees (k : OrdMap Bytes (List Bytes × List Bytes)) : Call → Prop
  | .update key _ => (k.get key).isSome
  | .read key fields => ∀ given, k.get key = some given → fields.getD given.1 = given.2
  | .insert _ _ | .scan _ _ _ | .delete _ => True

inductive Related (n : ℕ) : Option Row → Option Row → Option (List Bytes × List Bytes) → Prop where
  | absent : Related n none none none
  | present (row row' : Row) (hw : RecordStore.Wf n row) (hsub : (names row').Nodup → row' ⊆ row) :
      Related n (some row) (some row') (some (names row, names row'))

theorem names_select {n : ℕ} {row : Row} {fields : Option (List Bytes)} (hw : RecordStore.Wf n row)
    (hf : RecordStore.Selects fields row) : names (RecordStore.select row fields) = fields.getD (names row) := by
  cases fields with
  | none => rfl
  | some fields =>
    have hsub := hf fields rfl
    have hpick := pick_eq_filter hw.nodup hsub
    have hnames := names_pick hsub
    rw [hpick] at hnames
    exact (congrArg names (List.filter_congr fun f _ => decide_eq_decide.mpr Iff.rfl)).trans hnames

theorem select_sublist (row : Row) : ∀ fields, (RecordStore.select row fields).Sublist row
  | none => List.Sublist.refl _
  | some _ => List.filter_sublist

theorem select_eq_iff {n : ℕ} {row row' : Row} {fields : Option (List Bytes)} (hw : RecordStore.Wf n row)
    (hf : RecordStore.Selects fields row) (hsub : (names row').Nodup → row' ⊆ row) :
    RecordStore.select row fields = row' ↔ fields.getD (names row) = names row' := by
  have hnames := names_select hw hf
  have hsel := select_sublist row fields
  constructor
  · intro h
    rw [← hnames, h]
  · intro h
    rw [h] at hnames
    have hnodup : (names row').Nodup := hnames ▸ hw.nodup.sublist (hsel.map Prod.fst)
    exact eq_of_names hw.nodup hsel.subset (hsub hnodup) hnames

theorem related_put {n : ℕ} {m m' : OrdMap Bytes Row} {k : OrdMap Bytes (List Bytes × List Bytes)}
    (h : ∀ key, Related n (m.get key) (m'.get key) (k.get key)) (key : Bytes) {row row' : Row}
    {given : List Bytes × List Bytes} (hnew : Related n (some row) (some row') (some given)) (key' : Bytes) :
    Related n ((m.put key row).get key') ((m'.put key row').get key') ((k.put key given).get key') := by
  simp only [OrdMap.get_put]
  by_cases hkey : key' = key
  · simp only [hkey, if_true]
    exact hnew
  · simp only [hkey, if_false]
    exact h key'

theorem call_related {n : ℕ} {m m' : OrdMap Bytes Row} {k : OrdMap Bytes (List Bytes × List Bytes)} (c : Call)
    (h : ∀ key, Related n (m.get key) (m'.get key) (k.get key)) (hc : RecordStore.Admissible n m c)
    (hr : IsRecordCall c) :
    ((RecordStore.call m c).2 = (RpcStore.call m' c).2 ↔ Agrees k c) ∧
      (Agrees k c → ∀ key, Related n ((RecordStore.call m c).1.get key) ((RpcStore.call m' c).1.get key)
        ((namesGiven k c).1.get key)) := by
  cases c with
  | scan key len fields | delete key => cases hr
  | insert key values =>
    refine ⟨⟨fun _ => trivial, fun _ => rfl⟩, fun _ => ?_⟩
    simp only [RecordStore.call, RpcStore.call, namesGiven]
    exact related_put h key (.present values values ⟨hc.1, hc.2.1, hc.2.2⟩ fun _ => List.Subset.refl _)
  | read key fields =>
    refine ⟨?_, fun _ key' => by rw [RecordStore.read_fst, RpcStore.read_fst]; exact h key'⟩
    have hk := h key
    simp only [RecordStore.call, RpcStore.call, Agrees]
    generalize hm : m.get key = o at hk
    generalize m'.get key = o' at hk
    generalize k.get key = g at hk
    cases hk with
    | absent => simp
    | present row row' hw hsub =>
      simp only [Option.some.injEq, forall_eq', Reply.row.injEq, true_and]
      exact select_eq_iff hw (hc row hm) hsub
  | update key values =>
    have hk := h key
    simp only [RecordStore.call, RpcStore.call, namesGiven, Agrees]
    generalize hm : m.get key = o at hk
    generalize hm' : m'.get key = o' at hk
    generalize hg : k.get key = g at hk
    cases hk with
    | absent => simp
    | present row row' hw hsub =>
      -- the server keeps the given fields only, the binding the whole record
      refine ⟨by simp, fun _ => related_put h key ?_⟩
      have hnames : names (overwrite row values) = names row := names_overwrite ..
      rw [← hnames]
      refine .present (overwrite row values) values (wf_overwrite hw (hc row hm).1) fun hn => subset_overwrite hn ?_
      intro name hname
      obtain ⟨f, hf, rfl⟩ := List.mem_map.mp hname
      exact (hc row hm).2 f hf

theorem respond_related {n : ℕ} : ∀ (calls : List Call) {m m' : OrdMap Bytes Row}
    {k : OrdMap Bytes (List Bytes × List Bytes)}, (∀ key, Related n (m.get key) (m'.get key) (k.get key)) →
    Legal RecordStore.call (RecordStore.Admissible n) m calls → (∀ c ∈ calls, IsRecordCall c) →
    ((respond RecordStore.call m calls).2 = (respond RpcStore.call m' calls).2 ↔ Legal namesGiven Agrees k calls)
  | [], _, _, _, _, _, _ => ⟨fun _ => trivial, fun _ => rfl⟩
  | c :: calls, m, m', k, h, hc, hr => by
    obtain ⟨hreply, hnext⟩ := call_related c h hc.1 (hr c List.mem_cons_self)
    have htail := fun ha => respond_related calls (hnext ha) hc.2 fun d hd => hr d (List.mem_cons_of_mem _ hd)
    simp only [respond, Legal, List.cons.injEq, hreply]
    exact and_congr_right htail

/-- **When the bindings reply alike.** The client and server give the replies of
`RocksdbDB` exactly if every update is of an inserted key and every read of an
inserted key asks for the fields of the last insert or update of that key. -/
theorem replies_agree_iff (S : KVStore Bytes Bytes) (hS : S.Ordered) (n msgSize preSize : ℕ)
    (hsz : msgSize < 2 ^ 32) (hpre : 4 ≤ preSize) (calls : List Call) (hr : ∀ c ∈ calls, IsRecordCall c)
    (hc : Legal RecordStore.call (RecordStore.Admissible n) OrdMap.empty calls)
    (hfits : Legal RpcStore.call (CallFits msgSize) OrdMap.empty calls) :
    (exec (RocksdbDB.call S n) S.empty calls).map Prod.snd =
        (exec RocksdbCli.call (Link.init S msgSize preSize) calls).map Prod.snd ↔
      Legal namesGiven Agrees OrdMap.empty calls := by
  obtain ⟨db, hdb, _⟩ := exec_coupled hS hc
  obtain ⟨s, hs, _⟩ := exec_linked hS hsz hpre hfits
  have hempty : ∀ key : Bytes, Related n ((OrdMap.empty : OrdMap Bytes Row).get key)
      ((OrdMap.empty : OrdMap Bytes Row).get key)
      ((OrdMap.empty : OrdMap Bytes (List Bytes × List Bytes)).get key) := fun _ => .absent
  rw [hdb, hs]
  simp only [Except.map, Except.ok.injEq]
  exact respond_related calls hempty hc hr

theorem replies_agree_full_update :
    (exec (RocksdbDB.call (OrdMap.store Bytes Bytes) 1) OrdMap.empty
        [.insert [1] [([7], [10])], .update [1] [([7], [20])], .read [1] none]).map Prod.snd =
      (exec RocksdbCli.call (Link.init (OrdMap.store Bytes Bytes) 32 4)
        [.insert [1] [([7], [10])], .update [1] [([7], [20])], .read [1] none]).map Prod.snd := by
  have hc : Legal RecordStore.call (RecordStore.Admissible 1) OrdMap.empty
      [.insert [1] [([7], [10])], .update [1] [([7], [20])], .read [1] none] :=
    ⟨⟨rfl, by decide, by simp [Sized]⟩, fun row h => by cases h; exact ⟨by simp [Sized], by decide⟩,
      fun row h => by rintro _ ⟨⟩, trivial⟩
  have hfits : Legal RpcStore.call (CallFits 32) OrdMap.empty
      [.insert [1] [([7], [10])], .update [1] [([7], [20])], .read [1] none] :=
    ⟨⟨by simp [Sendable], by decide, by decide⟩, ⟨by simp [Sendable], by decide, by decide⟩,
      ⟨by simp [Sendable], by decide, by decide⟩, trivial⟩
  exact (replies_agree_iff (OrdMap.store Bytes Bytes) (OrdMap.storeOrdered Bytes Bytes) 1 32 4 (by decide) (by decide)
    _ (by simp [IsRecordCall]) hc hfits).mpr ⟨trivial, rfl, fun given h => by cases h; rfl, trivial⟩

/-- The server has dropped the field that the update did not name. -/
theorem partial_update_diverges :
    (exec (RocksdbDB.call (OrdMap.store Bytes Bytes) 2) OrdMap.empty
        [.insert [1] [([7], [10]), ([8], [20])], .update [1] [([8], [30])], .read [1] none]).map Prod.snd =
      .ok [.status .kOK, .status .kOK, .row .kOK [([7], [10]), ([8], [30])]] ∧
    (exec RocksdbCli.call (Link.init (OrdMap.store Bytes Bytes) 32 4)
        [.insert [1] [([7], [10]), ([8], [20])], .update [1] [([8], [30])], .read [1] none]).map Prod.snd =
      .ok [.status .kOK, .status .kOK, .row .kOK [([8], [30])]] := by
  have hc : Legal RecordStore.call (RecordStore.Admissible 2) OrdMap.empty
      [.insert [1] [([7], [10]), ([8], [20])], .update [1] [([8], [30])], .read [1] none] :=
    ⟨⟨rfl, by decide, by simp [Sized]⟩, fun row h => by cases h; exact ⟨by simp [Sized], by decide⟩,
      fun row h => by rintro _ ⟨⟩, trivial⟩
  have hfits : Legal RpcStore.call (CallFits 32) OrdMap.empty
      [.insert [1] [([7], [10]), ([8], [20])], .update [1] [([8], [30])], .read [1] none] :=
    ⟨⟨by simp [Sendable], by decide, by decide⟩, ⟨by simp [Sendable], by decide, by decide⟩,
      ⟨by simp [Sendable], by decide, by decide⟩, trivial⟩
  obtain ⟨db, hdb, _⟩ := exec_coupled (OrdMap.storeOrdered Bytes Bytes) hc
  obtain ⟨s, hs, _⟩ := exec_linked (OrdMap.storeOrdered Bytes Bytes) (by decide) (Nat.le_refl 4) hfits
  exact ⟨congrArg (Except.map Prod.snd) hdb, congrArg (Except.map Prod.snd) hs⟩

end Ycsb
