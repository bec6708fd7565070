import Ycsb.HandleSound
import Ycsb.Lmdb
import Ycsb.RocksdbSound

/-!
# The LMDB binding is serializable

Whatever the threads do, their calls take effect one after the other on a map from
keys to rows. So no update is lost: `Update` reads and writes in one transaction.
-/

namespace Ycsb

open Lib DB

/-! ## The record store that the calls act on -/

namespace LmdbStore

/-- `Scan` starts at a key that is there. -/
def call (m : OrdMap Bytes Row) (c : Call) : OrdMap Bytes Row × Reply :=
  match c with
  | .scan key _ _ =>
    match m.get key with
    | none => (m, .rows .kNotFound [])
    | some _ => RecordStore.call m c
  | c => RecordStore.call m c

/-- A call whose strings fit their length fields, and which inserts no field twice. -/
def Encodable : Call → Prop
  | .update _ values => Sized values
  | .insert _ values => (names values).Nodup ∧ Sized values
  | _ => True

def Modifies : Call → Prop
  | .update _ _ | .delete _ => True
  | _ => False

end LmdbStore

/-! ## One call -/

namespace LmdbDB

structure RowOk (row : Row) : Prop where
  nodup : (names row).Nodup
  sized : Sized row

structure Holds (view : OrdMap Bytes Bytes) (m : OrdMap Bytes Row) : Prop where
  bytes : view = m.map rowBytes
  rows : ∀ a ∈ m.entries, RowOk a.2

variable {notFound : ℤ} {strerror : ℤ → String} {n : ℕ} {view : OrdMap Bytes Bytes} {m : OrdMap Bytes Row}

theorem Holds.get (h : Holds view m) (key : Bytes) : view.get key = (m.get key).map rowBytes := by
  rw [h.bytes, OrdMap.get_map]

theorem Holds.row (h : Holds view m) {key : Bytes} {row : Row} (hk : m.get key = some row) : RowOk row :=
  h.rows _ (OrdMap.mem_of_get hk)

theorem Holds.put (h : Holds view m) (key : Bytes) {row : Row} (hrow : RowOk row) :
    Holds (view.put key (serializeRow row)) (m.put key row) where
  bytes := by rw [h.bytes, serializeRow, RocksdbDB.serializeRow_eq, OrdMap.map_put, List.nil_append]
  rows a ha := by
    rcases OrdMap.mem_put ha with rfl | ha
    · exact hrow
    · exact h.rows a ha

theorem Holds.del (h : Holds view m) (key : Bytes) : Holds (view.del key) (m.del key) where
  bytes := by rw [h.bytes, OrdMap.map_del]
  rows a ha := h.rows a (OrdMap.mem_del ha)

theorem deserializeRow_ok {row row' : Row} (hs : Sized row) (h : deserializeRow n [] (rowBytes row) = .ok row') :
    row' = row := by
  unfold deserializeRow RocksdbDB.deserializeFull at h
  rw [RocksdbDB.deserializeRow_rowBytes hs] at h
  simp only [bind, Except.bind] at h
  split at h
  · exact (Except.ok.inj h).symm
  · cases h

theorem deserializeSelected_ok {row row' : Row} {fields : Option (List Bytes)} (hrow : RowOk row)
    (h : deserializeSelected n [] (rowBytes row) fields = .ok row') : row' = RecordStore.select row fields := by
  cases fields with
  | none => exact deserializeRow_ok hrow.sized h
  | some fs =>
    rw [deserializeSelected, deserializeRowFilter, RocksdbDB.deserializeRowFilter_rowBytes hrow.sized] at h
    split at h
    · rename_i hlen
      rw [← Except.ok.inj h, pick_eq_filter hrow.nodup (pick_length_iff.mp hlen)]
      exact List.filter_congr fun f _ => decide_eq_decide.mpr Iff.rfl
    · cases h

theorem foldlM_updateField_ok : ∀ (values row row' : Row), (names row).Nodup →
    values.foldlM RocksdbDB.updateField row = .ok row' → row' = overwrite row values
  | [], row, row', _, h => (Except.ok.inj h).symm
  | f :: values, row, row', hn, h => by
    rw [List.foldlM_cons] at h
    obtain ⟨row₁, hf, h⟩ := bind_ok.mp h
    unfold RocksdbDB.updateField at hf
    cases hr : replaceFirst f.1 f.2 row with
    | none =>
      rw [hr] at hf
      cases hf
    | some row₂ =>
      have hassign := replaceFirst_eq f.1 f.2 hn (mem_of_replaceFirst hr)
      rw [hassign] at hf
      cases hf
      exact foldlM_updateField_ok values _ row' (by rwa [names_assign]) h

theorem rowOk_overwrite {row values : Row} (h : RowOk row) (hs : Sized values) : RowOk (overwrite row values) where
  nodup := by rw [names_overwrite]; exact h.nodup
  sized f hf := by
    rcases mem_overwrite hf with hf | ⟨hf, _⟩
    · exact hs f hf
    · exact h.sized f hf

/-! ### The methods run alone -/

theorem run_asserted {α : Type} {x : Except Fault α} {k : α → Prog} {v : TxnView Bytes Bytes}
    {e : TxnEnd Bytes Bytes Reply} (h : (asserted x k).run notFound v = .ok e) :
    ∃ a, x = .ok a ∧ (k a).run notFound v = .ok e := by
  cases x with
  | error f => cases h
  | ok a => exact ⟨a, rfl, h⟩

theorem run_checked {o : TxnOp Bytes Bytes} {what : String} {k : Bytes → Prog} {v : TxnView Bytes Bytes}
    {e : TxnEnd Bytes Bytes Reply} (h : (checked strerror o what k).run notFound v = .ok e) :
    ∃ val, (v.call notFound o).1 = .ok val ∧ (k (val.getD [])).run notFound (v.call notFound o).2 = .ok e := by
  unfold checked TxnProg.run at h
  cases hr : (v.call notFound o).1 with
  | error ret =>
    rw [hr] at h
    cases h
  | ok val =>
    rw [hr] at h
    exact ⟨val, rfl, h⟩

theorem found_ok {x val : Option Bytes} (h : TxnView.found notFound x = .ok val) : x = val ∧ val.isSome := by
  cases x with
  | none => cases h
  | some b =>
    cases h
    exact ⟨rfl, rfl⟩

/-- What a call that succeeds does to the record store. -/
structure Agrees (m : OrdMap Bytes Row) (c : Call) (e : TxnEnd Bytes Bytes Reply) : Prop where
  reply : (LmdbStore.call m c).2 = e.reply
  commits : e.commits = true → readOnly c = false ∧ Holds e.map (LmdbStore.call m c).1
  keeps : e.commits = false → (LmdbStore.call m c).1 = m

theorem read_agrees {key : Bytes} {fields : Option (List Bytes)} {e : TxnEnd Bytes Bytes Reply} (h : Holds view m)
    (hrun : (read notFound strerror n key fields []).run notFound ⟨view, .closed⟩ = .ok e) :
    Agrees m (.read key fields) e := by
  simp only [read, TxnProg.run, TxnView.call, h.get] at hrun
  cases hk : m.get key with
  | none =>
    simp only [hk, Option.map_none, TxnView.found, if_true, TxnProg.run] at hrun
    cases hrun
    exact ⟨by simp [LmdbStore.call, RecordStore.call, hk], fun hc => (by cases hc),
      fun _ => RecordStore.read_fst m key fields⟩
  | some row =>
    simp only [hk, Option.map_some, TxnView.found] at hrun
    obtain ⟨row', hrow, hrun⟩ := run_asserted hrun
    cases hrun
    rw [deserializeSelected_ok (h.row hk) hrow]
    exact ⟨by simp [LmdbStore.call, RecordStore.call, hk], fun hc => (by cases hc),
      fun _ => RecordStore.read_fst m key fields⟩

/-- The cursor is at the first of the entries. -/
theorem scanLoop_ok {fields : Option (List Bytes)} : ∀ (k : ℕ) (a : Bytes × Row) (l : List (Bytes × Row))
    (result : List Row) (e : TxnEnd Bytes Bytes Reply), (∀ b ∈ a :: l, RowOk b.2) →
    (scanLoop n fields k (rowBytes a.2) result).run notFound
      ⟨view, .at ((a :: l).map fun b => (b.1, rowBytes b.2))⟩ = .ok e →
    e.commits = false ∧ e.reply = .rows .kOK (result ++ ((a :: l).take k).map fun b => RecordStore.select b.2 fields)
  | 0, a, l, result, e, _, h => by
    cases h
    simp
  | k + 1, a, l, result, e, hl, h => by
    obtain ⟨row, hrow, h⟩ := run_asserted h
    obtain rfl := deserializeSelected_ok (hl a List.mem_cons_self) hrow
    cases l with
    | nil =>
      cases h
      simp
    | cons b l =>
      have hnext := scanLoop_ok k b l (result ++ [RecordStore.select a.2 fields]) e
        (fun c hc => hl c (List.mem_cons_of_mem a hc)) h
      rwa [List.append_assoc, List.singleton_append] at hnext

theorem scan_keeps (m : OrdMap Bytes Row) (key : Bytes) (len : ℤ) (fields : Option (List Bytes)) :
    (LmdbStore.call m (.scan key len fields)).1 = m := by
  cases hk : m.get key <;> simp [LmdbStore.call, hk, RecordStore.call]

theorem scan_agrees {key : Bytes} {len : ℤ} {fields : Option (List Bytes)} {e : TxnEnd Bytes Bytes Reply}
    (h : Holds view m) (hrun : (scan notFound strerror n key len fields []).run notFound ⟨view, .closed⟩ = .ok e) :
    Agrees m (.scan key len fields) e := by
  obtain ⟨_, _, hrun⟩ := run_checked hrun
  simp only [TxnProg.run, TxnView.call, h.get] at hrun
  have hagrees : (LmdbStore.call m (.scan key len fields)).2 = e.reply → e.commits = false →
      Agrees m (.scan key len fields) e := fun hreply hc =>
    ⟨hreply, fun hw => (by rw [hc] at hw; cases hw), fun _ => scan_keeps m key len fields⟩
  cases hk : m.get key with
  | none =>
    simp only [hk, Option.map_none, TxnView.found, if_true] at hrun
    cases hrun
    exact hagrees (by simp [LmdbStore.call, hk]) rfl
  | some row =>
    obtain ⟨l, hseek⟩ := OrdMap.seek_of_get hk
    have hrest : view.seek key = ((key, row) :: l).map fun b => (b.1, rowBytes b.2) := by
      rw [h.bytes, OrdMap.seek_map, hseek]
    simp only [hk, Option.map_some, TxnView.found, Option.isSome_some, if_true, hrest, Option.getD_some] at hrun
    obtain ⟨hc, hreply⟩ := scanLoop_ok _ (key, row) l [] e
      (fun b hb => h.rows b (OrdMap.mem_seek.mp (hseek ▸ hb)).1) hrun
    rw [← hseek, OrdMap.seek_eq_filter, List.nil_append] at hreply
    refine hagrees ?_ hc
    rw [hreply]
    simp [LmdbStore.call, hk, RecordStore.call]

theorem update_agrees {key : Bytes} {values : Row} {e : TxnEnd Bytes Bytes Reply} (h : Holds view m) (hs : Sized values)
    (hrun : (update strerror n key values).run notFound ⟨view, .closed⟩ = .ok e) : Agrees m (.update key values) e := by
  obtain ⟨val, hget, hrun⟩ := run_checked hrun
  obtain ⟨hval, hsome⟩ := found_ok hget
  rw [h.get] at hval
  cases hk : m.get key with
  | none =>
    rw [hk] at hval
    subst hval
    cases hsome
  | some row =>
    rw [hk] at hval
    subst hval
    obtain ⟨current, hcurrent, hrun⟩ := run_asserted hrun
    obtain ⟨current', hcurrent', hrun⟩ := run_asserted hrun
    obtain rfl := deserializeRow_ok (h.row hk).sized hcurrent
    obtain rfl := foldlM_updateField_ok values _ _ (h.row hk).nodup hcurrent'
    obtain ⟨_, _, hrun⟩ := run_checked hrun
    cases hrun
    refine ⟨by simp [LmdbStore.call, RecordStore.call, hk], fun _ => ⟨rfl, ?_⟩, fun hc => by cases hc⟩
    simpa [LmdbStore.call, RecordStore.call, hk, TxnView.call] using h.put key (rowOk_overwrite (h.row hk) hs)

theorem insert_agrees {key : Bytes} {values : Row} {e : TxnEnd Bytes Bytes Reply} (h : Holds view m)
    (hvalues : RowOk values) (hrun : (insert strerror key values).run notFound ⟨view, .closed⟩ = .ok e) :
    Agrees m (.insert key values) e := by
  obtain ⟨_, _, hrun⟩ := run_checked hrun
  cases hrun
  exact ⟨rfl, fun _ => ⟨rfl, h.put key hvalues⟩, fun hc => by cases hc⟩

theorem delete_agrees {key : Bytes} {e : TxnEnd Bytes Bytes Reply} (h : Holds view m)
    (hrun : (delete strerror key).run notFound ⟨view, .closed⟩ = .ok e) : Agrees m (.delete key) e := by
  obtain ⟨_, hdel, hrun⟩ := run_checked hrun
  simp only [TxnView.call] at hdel hrun
  split at hdel
  · rename_i hsome
    rw [if_pos hsome] at hrun
    cases hrun
    exact ⟨rfl, fun _ => ⟨rfl, h.del key⟩, fun hc => by cases hc⟩
  · cases hdel

theorem body_agrees {c : Call} {e : TxnEnd Bytes Bytes Reply} (h : Holds view m) (hc : LmdbStore.Encodable c)
    (hrun : (body notFound strerror n c).run notFound ⟨view, .closed⟩ = .ok e) : Agrees m c e := by
  cases c with
  | read key fields => exact read_agrees h hrun
  | scan key len fields => exact scan_agrees h hrun
  | update key values => exact update_agrees h hc hrun
  | insert key values => exact insert_agrees h ⟨hc.1, hc.2⟩ hrun
  | delete key => exact delete_agrees h hrun

/-- An `Update` or `Delete` that returns has found its key. -/
theorem body_modifies {c : Call} {e : TxnEnd Bytes Bytes Reply} (hc : LmdbStore.Modifies c)
    (hrun : (body notFound strerror n c).run notFound ⟨view, .closed⟩ = .ok e) : e.reply = .status .kOK := by
  cases c with
  | update key values =>
    unfold body update at hrun
    obtain ⟨_, _, hrun⟩ := run_checked hrun
    obtain ⟨_, _, hrun⟩ := run_asserted hrun
    obtain ⟨_, _, hrun⟩ := run_asserted hrun
    obtain ⟨_, _, hrun⟩ := run_checked hrun
    cases hrun
    rfl
  | delete key =>
    unfold body delete at hrun
    obtain ⟨_, _, hrun⟩ := run_checked hrun
    cases hrun
    rfl
  | _ => exact hc.elim

/-! ### What the methods ask of LMDB -/

variable {opened : Prop} {isReadOnly : Bool}

theorem careful_asserted {α : Type} {x : Except Fault α} {k : α → Prog}
    (h : ∀ a, (k a).Careful notFound isReadOnly opened) : (asserted x k).Careful notFound isReadOnly opened := by
  cases x with
  | error f => trivial
  | ok a => exact h a

theorem careful_checked {o : TxnOp Bytes Bytes} {what : String} {k : Bytes → Prog}
    (hw : o.Writes → isReadOnly = false ∧ ¬ opened) (h : ∀ val, (k val).Careful notFound isReadOnly (o.Opens opened)) :
    (checked strerror o what k).Careful notFound isReadOnly opened := by
  refine ⟨hw, fun _ e _ => ⟨_, rfl⟩, fun r => ?_⟩
  cases r with
  | error e => trivial
  | ok val => exact h _

theorem careful_scanCleanup {status : Status} {result : List Row} :
    (scanCleanup status result).Careful notFound false True := ⟨False.elim, False.elim, fun _ => trivial⟩

theorem careful_scanLoop {fields : Option (List Bytes)} : ∀ (k : ℕ) (val : Bytes) (result : List Row),
    (scanLoop n fields k val result).Careful notFound false True
  | 0, _, _ => careful_scanCleanup
  | k + 1, val, result => by
    refine careful_asserted fun values => ⟨False.elim, False.elim, fun r => ?_⟩
    cases r with
    | error e => exact careful_scanCleanup
    | ok val => exact careful_scanLoop k _ _

theorem careful_body (c : Call) : (body notFound strerror n c).Careful notFound (readOnly c) False := by
  cases c with
  | read key fields =>
    refine ⟨False.elim, fun _ e he => ⟨_, if_neg he⟩, fun r => ?_⟩
    cases r with
    | error e =>
      simp only
      split <;> trivial
    | ok val =>
      refine careful_asserted fun _ => ?_
      trivial
  | scan key len fields =>
    unfold body scan
    refine careful_checked False.elim fun _ => ?_
    refine ⟨False.elim, fun _ e he => ⟨_, if_neg he⟩, fun r => ?_⟩
    cases r with
    | error e =>
      simp only
      split
      · exact careful_scanCleanup
      · trivial
    | ok val => exact careful_scanLoop _ _ _
  | update key values =>
    unfold body update
    refine careful_checked False.elim fun _ => careful_asserted fun _ => careful_asserted fun _ => ?_
    refine careful_checked (fun _ => ⟨rfl, not_false⟩) fun _ => ?_
    trivial
  | insert key values =>
    unfold body insert
    refine careful_checked (fun _ => ⟨rfl, not_false⟩) fun _ => ?_
    trivial
  | delete key =>
    unfold body delete
    refine careful_checked (fun _ => ⟨rfl, not_false⟩) fun _ => ?_
    trivial

end LmdbDB

/-! ## All threads -/

abbrev LmdbRun (S : TxnStore Bytes Bytes ℤ) (ι : Type) := TxnRun S ι LmdbDB.Failure Call Reply

namespace LmdbRun

variable {ι : Type} [DecidableEq ι]

abbrev Log (ι : Type) := List (ι × Call × Reply)

section
variable {S : TxnStore Bytes Bytes ℤ} (hS : S.Isolated)

/-- The calls of the log, one after the other on the record store, yield what the clients were replied
and what was committed. Each client made its calls in turn, and an `Update` or `Delete` that returned
found its key. -/
structure Serialised (m₀ : OrdMap Bytes Row) (prog : ι → List Call) (log : Log ι) (s : LmdbRun S ι) : Prop where
  replies : (respond LmdbStore.call m₀ (log.map fun a => a.2.1)).2 = log.map fun a => a.2.2
  committed : hS.committed s.env = (respond LmdbStore.call m₀ (log.map fun a => a.2.1)).1.map LmdbDB.serializeRow
  returned : ∀ i, (s.client i).history <+: historyOf i log
  idle : ∀ i, (s.client i).point = .idle → historyOf i log = (s.client i).history
  program : ∀ i, (historyOf i log).map Prod.fst <+: prog i
  finished : ∀ i, (s.client i).point = .idle → (s.client i).todo = [] → (historyOf i log).map Prod.fst = prog i
  found : ∀ a ∈ log, LmdbStore.Modifies a.2.1 → a.2.2 = .status .kOK

/-- The process from its start, on an environment that is open. -/
def start (env : S.State) (prog : ι → List Call) : LmdbRun S ι := TxnRun.start env prog

def step (strerror : ℤ → String) (n : ℕ) (s : LmdbRun S ι) (e : TxnEvent ι) : Option (LmdbRun S ι) :=
  TxnRun.step (LmdbDB.code S.notFound strerror n) s e

variable {hS} {strerror : ℤ → String} {n : ℕ} {env : S.State} {m₀ : OrdMap Bytes Row} {prog : ι → List Call} {log : Log ι}
  {s t : LmdbRun S ι}

theorem serializeRow_eq : LmdbDB.serializeRow = rowBytes := by
  funext row
  exact (RocksdbDB.serializeRow_eq row []).trans (List.nil_append _)

/-- A call that succeeds alone does what the record store does. -/
theorem effect_agrees {view view' : OrdMap Bytes Bytes} {m : OrdMap Bytes Row} {c : Call} {r : Reply}
    (hview : LmdbDB.Holds view m) (hc : LmdbStore.Encodable c)
    (he : (LmdbDB.code S.notFound strerror n).effect S.notFound view c = .ok (view', r)) :
    (LmdbStore.call m c).2 = r ∧ LmdbDB.Holds view' (LmdbStore.call m c).1 := by
  unfold TxnCode.effect at he
  cases hr : (LmdbDB.code S.notFound strerror n).runs S.notFound view c with
  | error e =>
    rw [hr] at he
    cases he
  | ok e =>
    rw [hr] at he
    cases he
    have hagrees := LmdbDB.body_agrees hview hc hr
    refine ⟨hagrees.reply, ?_⟩
    -- only a write that commits changes the records
    cases hcommits : e.commits with
    | false =>
      rw [hagrees.keeps hcommits, if_neg (by simp)]
      exact hview
    | true =>
      obtain ⟨hwrite, hholds⟩ := hagrees.commits hcommits
      rw [if_pos ⟨rfl, by simp [LmdbDB.code, hwrite]⟩]
      exact hholds

theorem effect_modifies {view view' : OrdMap Bytes Bytes} {c : Call} {r : Reply}
    (he : (LmdbDB.code S.notFound strerror n).effect S.notFound view c = .ok (view', r)) (hc : LmdbStore.Modifies c) :
    r = .status .kOK := by
  unfold TxnCode.effect at he
  cases hr : (LmdbDB.code S.notFound strerror n).runs S.notFound view c with
  | error e =>
    rw [hr] at he
    cases he
  | ok e =>
    rw [hr] at he
    cases he
    exact LmdbDB.body_modifies hc hr

theorem serialised (hm₀ : ∀ a ∈ m₀.entries, LmdbDB.RowOk a.2) (hprog : ∀ i, ∀ c ∈ prog i, LmdbStore.Encodable c)
    (h : TxnRun.Inv hS (LmdbDB.code S.notFound strerror n) (m₀.map LmdbDB.serializeRow) prog log s) :
    Serialised hS m₀ prog log s := by
  -- the calls of the log are calls of the clients' programs
  have hcalls : ∀ c ∈ log.map fun a => a.2.1, LmdbStore.Encodable c := by
    intro c hc
    obtain ⟨⟨i, c, r⟩, ha, rfl⟩ := List.mem_map.mp hc
    have hmem : (c, r) ∈ historyOf i log := List.mem_map.mpr ⟨(i, c, r), by simpa using ha, rfl⟩
    exact hprog i c ((h.program_initial i).subset (List.mem_map.mpr ⟨(c, r), hmem, rfl⟩))
  have hstart : LmdbDB.Holds (m₀.map LmdbDB.serializeRow) m₀ := ⟨by rw [serializeRow_eq], hm₀⟩
  obtain ⟨hreplies, hholds⟩ := exec_sound (fun _ _ _ _ _ => effect_agrees) _ _ _ _ _ hstart hcalls h.serial
  refine ⟨hreplies, ?_, fun i => (h.logged i).history_initial, fun i hi => (h.logged i).history_eq hi,
    h.program_initial, fun i hi htodo => ?_, ?_⟩
  · rw [hholds.bytes, serializeRow_eq]
  · have hprogram := h.program i
    rw [TxnClient.current, hi, htodo] at hprogram
    rw [(h.logged i).history_eq hi, ← hprogram]
    simp
  · exact exec_forall (P := fun c r => LmdbStore.Modifies c → r = .status .kOK) (fun _ _ _ _ => effect_modifies) h.serial

theorem inv_start (h0 : hS.committed env = m₀.map LmdbDB.serializeRow) :
    TxnRun.Inv hS (LmdbDB.code S.notFound strerror n) (m₀.map LmdbDB.serializeRow) prog [] (start env prog) :=
  TxnRun.Inv.start h0

/-- **LmdbDB is serializable.** At every point of every interleaving, and wherever the process exits,
the calls so far have taken effect one after the other. The order never changes: a call that has
returned stays before every call that is made later. -/
theorem lmdb_serializable (S : TxnStore Bytes Bytes ℤ) (hS : S.Isolated) (strerror : ℤ → String) (n : ℕ) {env : S.State}
    (h0 : hS.committed env = m₀.map LmdbDB.serializeRow) (hm₀ : ∀ a ∈ m₀.entries, LmdbDB.RowOk a.2)
    (hprog : ∀ i, ∀ c ∈ prog i, LmdbStore.Encodable c) {es es' : List (TxnEvent ι)} {s t : LmdbRun S ι}
    (hs : run (step strerror n) (start env prog) es = some s) (ht : run (step strerror n) s es' = some t) :
    ∃ log log', log <+: log' ∧ Serialised hS m₀ prog log s ∧ Serialised hS m₀ prog log' t := by
  obtain ⟨log, _, h⟩ := (inv_start h0).extend LmdbDB.careful_body hs
  obtain ⟨log', hle, h'⟩ := h.extend LmdbDB.careful_body ht
  exact ⟨log, log', hle, serialised hm₀ hprog h, serialised hm₀ hprog h'⟩

end

/-! ## An environment in memory -/

/-- `MDB_NOTFOUND`. -/
abbrev inMemory : TxnStore Bytes Bytes ℤ := MapEnv.store Bytes Bytes (-30798)

def noText : ℤ → String := fun _ => ""

/-- A client inserts a record while another one reads it. -/
def insertAndRead (i : Bool) : List Call := if i then [.insert [1] [([2], [3])]] else [.read [1] none]

/-- The snapshot of the reader is older than the record. -/
theorem lmdb_serializable_two : ∃ s : LmdbRun inMemory Bool,
    run (step noText 1) (start (MapEnv.start OrdMap.empty) insertAndRead)
      [.step false, .step true, .step true, .step true, .step false, .step false] = some s ∧
    (s.client false).history = [(.read [1] none, .row .kNotFound [])] ∧
    (s.client true).history = [(.insert [1] [([2], [3])], .status .kOK)] ∧
    ∃ log, Serialised (MapEnv.isolated (-30798)) OrdMap.empty insertAndRead log s := by
  have hprog : ∀ i, ∀ c ∈ insertAndRead i, LmdbStore.Encodable c := by
    intro i c hc
    cases i with
    | false =>
      obtain rfl := List.mem_singleton.mp hc
      trivial
    | true =>
      obtain rfl := List.mem_singleton.mp hc
      exact ⟨by decide, by simp [Sized]⟩
  have hempty : ∀ a ∈ (OrdMap.empty : OrdMap Bytes Row).entries, LmdbDB.RowOk a.2 := fun a ha => absurd ha List.not_mem_nil
  have hrun : ∃ s t : LmdbRun inMemory Bool,
      run (step noText 1) (start (MapEnv.start OrdMap.empty) insertAndRead) [.step false, .step true] = some s ∧
      run (step noText 1) s [.step true, .step true, .step false, .step false] = some t ∧
      (t.client false).history = [(.read [1] none, .row .kNotFound [])] ∧
      (t.client true).history = [(.insert [1] [([2], [3])], .status .kOK)] := ⟨_, _, rfl, rfl, rfl, rfl⟩
  obtain ⟨s, t, hs, ht, hread, hinsert⟩ := hrun
  have h0 : (MapEnv.isolated (-30798)).committed (MapEnv.start OrdMap.empty) =
      (OrdMap.empty : OrdMap Bytes Row).map LmdbDB.serializeRow := rfl
  obtain ⟨_, log, _, _, h⟩ := lmdb_serializable inMemory (MapEnv.isolated (-30798)) noText 1 h0 hempty hprog hs ht
  exact ⟨t, run_append_some _ hs ht, hread, hinsert, log, h⟩

/-! ## Updates of one record -/

def valuesOf : Call → Row
  | .update _ values => values
  | _ => []

theorem respond_updates {key : Bytes} : ∀ (us : List Row) (m : OrdMap Bytes Row) (row : Row), m.get key = some row →
    (respond LmdbStore.call m (us.map (.update key))).1.get key = some (overwrite row us.flatten)
  | [], m, row, hk => hk
  | values :: us, m, row, hk => by
    have hcall : (LmdbStore.call m (.update key values)).1 = m.put key (overwrite row values) := by
      simp [LmdbStore.call, RecordStore.call, hk]
    have hput : (m.put key (overwrite row values)).get key = some (overwrite row values) := by
      rw [OrdMap.get_put, if_pos rfl]
    rw [List.map_cons, respond, hcall, respond_updates us _ _ hput, List.flatten_cons]
    exact congrArg some (List.foldl_append ..).symm

/-- No update of a record is lost: when all clients have returned, it is the row that was there, updated
by every `Update` of every client, in an order in which each client's follow one another. -/
theorem lmdb_updates_kept (S : TxnStore Bytes Bytes ℤ) (hS : S.Isolated) (strerror : ℤ → String) (n : ℕ) {env : S.State}
    {m₀ : OrdMap Bytes Row} (h0 : hS.committed env = m₀.map LmdbDB.serializeRow)
    (hm₀ : ∀ a ∈ m₀.entries, LmdbDB.RowOk a.2) {key : Bytes} {row : Row} (hrow : m₀.get key = some row) {us : ι → List Row}
    (hus : ∀ i, ∀ values ∈ us i, Sized values) {es : List (TxnEvent ι)} {s : LmdbRun S ι}
    (hs : run (step strerror n) (start env fun i => (us i).map (.update key)) es = some s)
    (hdone : ∀ i, (s.client i).point = .idle ∧ (s.client i).todo = []) :
    ∃ order : List (ι × Row), (∀ i, (order.filter fun a => a.1 = i).map Prod.snd = us i) ∧
      (hS.committed s.env).get key = some (LmdbDB.serializeRow (overwrite row (order.map Prod.snd).flatten)) := by
  have hprog : ∀ i, ∀ c ∈ (us i).map (Call.update key), LmdbStore.Encodable c := by
    intro i c hc
    obtain ⟨values, hvalues, rfl⟩ := List.mem_map.mp hc
    exact hus i values hvalues
  obtain ⟨log, _, hinv⟩ := (inv_start h0).extend LmdbDB.careful_body hs
  have h := serialised hm₀ hprog hinv
  have hlog : ∀ i, (historyOf i log).map Prod.fst = (us i).map (.update key) :=
    fun i => h.finished i (hdone i).1 (hdone i).2
  -- the log holds updates of this key only
  have hmem : ∀ a ∈ log, a.2.1 = .update key (valuesOf a.2.1) := by
    intro a ha
    have hcall : a.2.1 ∈ (historyOf a.1 log).map Prod.fst :=
      List.mem_map.mpr ⟨a.2, List.mem_map.mpr ⟨a, by simpa using ha, rfl⟩, rfl⟩
    rw [hlog] at hcall
    obtain ⟨values, _, hc⟩ := List.mem_map.mp hcall
    rw [← hc, valuesOf]
  refine ⟨log.map fun a => (a.1, valuesOf a.2.1), fun i => ?_, ?_⟩
  · have hvalues := congrArg (List.map valuesOf) (hlog i)
    rw [List.map_map, List.map_map] at hvalues
    have hid : (us i).map (valuesOf ∘ Call.update key) = us i := by
      rw [show valuesOf ∘ Call.update key = id from rfl, List.map_id]
    rw [hid] at hvalues
    rw [← hvalues, historyOf, List.filter_map, List.map_map, List.map_map]
    rfl
  · have hcalls : (log.map fun a => a.2.1) = (log.map fun a => valuesOf a.2.1).map (Call.update key) := by
      rw [List.map_map]
      exact List.map_congr_left hmem
    rw [h.committed, hcalls, OrdMap.get_map, respond_updates _ _ _ hrow, List.map_map]
    rfl

/-- Each of two clients updates one of two fields. -/
def updateOne (i : Bool) : List Row := if i then [[([2], [5])]] else [[([1], [4])]]

def twoFields : OrdMap Bytes Row := OrdMap.empty.put [7] [([1], [0]), ([2], [0])]

def isIdle (s : LmdbRun inMemory Bool) (i : Bool) : Bool :=
  match (s.client i).point with
  | .idle => true
  | .inside _ _ _ | .thrown _ _ => false

theorem point_of_isIdle {s : LmdbRun inMemory Bool} {i : Bool} (h : isIdle s i = true) : (s.client i).point = .idle := by
  unfold isIdle at h
  split at h
  · assumption
  · cases h
  · cases h

/-- The second has to wait until the first has committed. -/
theorem lmdb_updates_kept_two : ∃ (s : LmdbRun inMemory Bool) (order : List (Bool × Row)),
    run (step noText 2) (start (MapEnv.start (twoFields.map LmdbDB.serializeRow)) fun i => (updateOne i).map (.update [7]))
        (List.replicate 4 (.step true) ++ List.replicate 4 (.step false)) = some s ∧
    (∀ i, (order.filter fun a => a.1 = i).map Prod.snd = updateOne i) ∧
    s.env.committed.get [7] =
      some (LmdbDB.serializeRow (overwrite [([1], [0]), ([2], [0])] (order.map Prod.snd).flatten)) := by
  have hend : (run (step noText 2)
      (start (S := inMemory) (MapEnv.start (twoFields.map LmdbDB.serializeRow)) fun i => (updateOne i).map (.update [7]))
      (List.replicate 4 (.step true) ++ List.replicate 4 (.step false))).any fun s =>
        decide (∀ i, isIdle s i = true ∧ (s.client i).todo.isEmpty = true) := by decide +kernel
  obtain ⟨s, hrun, hall⟩ := (Option.any_eq_true _ _).mp hend
  have hdone := of_decide_eq_true hall
  have h0 : (MapEnv.isolated (-30798)).committed (MapEnv.start (twoFields.map LmdbDB.serializeRow)) =
      twoFields.map LmdbDB.serializeRow := rfl
  have hrow : twoFields.get [7] = some [([1], [0]), ([2], [0])] := rfl
  have hrows : ∀ a ∈ twoFields.entries, LmdbDB.RowOk a.2 := by
    intro a ha
    obtain rfl := List.mem_singleton.mp ha
    exact ⟨by decide, by simp [Sized]⟩
  have hsized : ∀ i, ∀ values ∈ updateOne i, Sized values := by
    intro i values hvalues
    cases i with
    | false =>
      obtain rfl := List.mem_singleton.mp hvalues
      simp [Sized]
    | true =>
      obtain rfl := List.mem_singleton.mp hvalues
      simp [Sized]
  obtain ⟨order, horder, hget⟩ := lmdb_updates_kept inMemory (MapEnv.isolated (-30798)) noText 2 h0 hrows hrow hsized hrun
    fun i => ⟨point_of_isIdle (hdone i).1, List.isEmpty_iff.mp (hdone i).2⟩
  exact ⟨s, order, hrun, horder, hget⟩

end LmdbRun

/-! ## The shared environment -/

namespace LmdbEnv

/-- The environments that were opened are closed, but for the last one while there are users. -/
structure Life (e : LmdbEnv) : Prop where
  unused : e.refCnt = 0 → e.closed = List.range e.opened
  used : 0 < e.refCnt → ∃ k, e.env = some k ∧ e.opened = k + 1 ∧ e.closed = List.range k

variable {e : LmdbEnv}

theorem Life.open (h : e.Life) (hpos : 0 < e.refCnt) : e.IsOpen := by
  obtain ⟨k, henv, hopened, hclosed⟩ := h.used hpos
  exact ⟨k, henv, by omega, by simp [hclosed]⟩

theorem init_refCnt (e : LmdbEnv) : e.init.refCnt = e.refCnt + 1 := by
  unfold init
  dsimp only
  split <;> rfl

theorem cleanup_refCnt (e : LmdbEnv) : e.cleanup.refCnt = e.refCnt - 1 := by
  unfold cleanup
  dsimp only
  split <;> rfl

theorem Life.init (h : e.Life) (hpos : 0 ≤ e.refCnt) : e.init.Life where
  unused h0 := by
    rw [init_refCnt] at h0
    omega
  used _ := by
    unfold LmdbEnv.init
    by_cases h0 : e.refCnt = 0
    · exact ⟨e.opened, by simp [h0], by simp [h0], by simpa [h0] using h.unused h0⟩
    · simpa [h0] using h.used (by omega)

theorem Life.cleanup (h : e.Life) (hpos : 0 < e.refCnt) : e.cleanup.Life where
  unused h0 := by
    rw [cleanup_refCnt] at h0
    obtain ⟨k, henv, hopened, hclosed⟩ := h.used hpos
    simp [LmdbEnv.cleanup, h0, henv, hopened, hclosed, List.range_succ]
  used hpos' := by
    rw [cleanup_refCnt] at hpos'
    have hne : e.refCnt - 1 ≠ 0 := by omega
    simpa [LmdbEnv.cleanup, hne] using h.used hpos

end LmdbEnv

namespace LmdbEnvRun

open Threads

variable {T : ℕ}

/-- The count of users goes as that of the handles of the other bindings. -/
def Inv (r : Fin T → List HandleAct) (e : LmdbEnv) : Prop :=
  (∃ h : Handle, HandleRun.Counted r h ∧ h.refCnt = e.refCnt) ∧ e.Life

end LmdbEnvRun

end Ycsb
