import Ycsb.Lib.Trans
import Ycsb.Rocksdb
import Ycsb.RowSound

/-!
# The RocksDB binding refines a record store

Abstractly the binding is an ordered map from keys to rows. The store below it
holds the bytes of each row, and every call keeps it so.
-/

namespace Ycsb

open Lib DB

/-! ## The record store -/

namespace RecordStore

def select (row : Row) : Option (List Bytes) → Row
  | none => row
  | some fields => row.filter fun f => decide (f.1 ∈ fields)

def call (m : OrdMap Bytes Row) : Call → OrdMap Bytes Row × Reply
  | .read key fields =>
    match m.get key with
    | none => (m, .row .kNotFound [])
    | some row => (m, .row .kOK (select row fields))
  | .scan key len fields =>
    (m, .rows .kOK (((m.entries.filter fun a => decide (key ≤ a.1)).take len.toNat).map
      fun a => select a.2 fields))
  | .update key values =>
    match m.get key with
    | none => (m, .status .kNotFound)
    | some row => (m.put key (overwrite row values), .status .kOK)
  | .insert key values => (m.put key values, .status .kOK)
  | .delete key => (m.del key, .status .kOK)

theorem read_fst (m : OrdMap Bytes Row) (key : Bytes) (fields : Option (List Bytes)) :
    (call m (.read key fields)).1 = m := by
  rw [call]
  cases m.get key <;> rfl

def Selects (fields : Option (List Bytes)) (row : Row) : Prop :=
  ∀ names', fields = some names' → names'.Sublist (names row)

/-- Inserted rows have `n` fields with distinct names, updates name fields of
the row, and field lists are subsequences of the field names. -/
def Admissible (n : ℕ) (m : OrdMap Bytes Row) : Call → Prop
  | .read key fields => ∀ row, m.get key = some row → Selects fields row
  | .scan key len fields => ∀ a ∈ (m.entries.filter fun a => decide (key ≤ a.1)).take len.toNat,
      Selects fields a.2
  | .update key values => ∀ row, m.get key = some row → Sized values ∧ ∀ f ∈ values, f.1 ∈ names row
  | .insert _ values => values.length = n ∧ (names values).Nodup ∧ Sized values
  | .delete _ => True

structure Wf (n : ℕ) (row : Row) : Prop where
  length : row.length = n
  nodup : (names row).Nodup
  sized : Sized row

end RecordStore

open RecordStore

/-! ## Decoding a stored row -/

namespace RocksdbDB

theorem walk_filterStep : ∀ (row values : Row) (fields : List Bytes),
    (walk (fun s => !s.2.isEmpty) filterStep (values, fields) row).1.1 = values ++ pick fields row
  | [], values, fields => by simp [walk, pick]
  | f :: row, values, [] => by simp [walk]
  | f :: row, values, name :: rest => by
    have hgo : (!((values, name :: rest) : Row × List Bytes).2.isEmpty) = true := rfl
    rw [walk, if_pos hgo]
    by_cases h : name = f.1
    · have hs : filterStep (values, name :: rest) f = (values ++ [f], rest) := if_pos h
      rw [hs, walk_filterStep row, pick, if_pos h, List.append_assoc, List.singleton_append]
    · have hs : filterStep (values, name :: rest) f = (values, name :: rest) := if_neg h
      rw [hs, walk_filterStep row, pick, if_neg h]

theorem deserializeRowFilter_rowBytes {row : Row} (hs : Sized row) (fields : List Bytes) :
    deserializeRowFilter [] (rowBytes row) fields =
      if (pick fields row).length = fields.length then .ok (pick fields row) else .error .assertion := by
  have hr : ∀ f ∈ row, ReadsAt (fieldItem (rowBytes row)) encodeField (rowBytes row) f :=
    fun f hf => fieldItem_reads (hs f hf).1 (hs f hf).2
  have hd : (rowBytes row).drop 0 = encodeAll encodeField row ++ [] := by simp
  rw [deserializeRowFilter, deserializeRowFilterAt, readWhile_encode row 0 _ hr hd (Nat.zero_add _).symm]
  have hw := walk_filterStep row [] fields
  rw [List.nil_append] at hw
  simp only [bind, Except.bind, hw]
  rfl

theorem deserializeFull_rowBytes {n : ℕ} {row : Row} (h : Wf n row) :
    deserializeFull n [] (rowBytes row) = .ok row := by
  rw [deserializeFull, deserializeRow_rowBytes h.sized]
  simp only [bind, Except.bind, h.length]
  rfl

theorem deserializeSelected_rowBytes {n : ℕ} {row : Row} {fields : Option (List Bytes)} (h : Wf n row)
    (hf : Selects fields row) : deserializeSelected n [] (rowBytes row) fields = .ok (select row fields) := by
  cases fields with
  | none => exact deserializeFull_rowBytes h
  | some names' =>
    have hsub := hf names' rfl
    rw [deserializeSelected, deserializeRowFilter_rowBytes h.sized, if_pos (pick_length_iff.mpr hsub),
      pick_eq_filter h.nodup hsub]
    exact congrArg Except.ok (List.filter_congr fun f _ => decide_eq_decide.mpr Iff.rfl)

/-! ## Updating a row -/

theorem foldlM_updateField : ∀ (values row : Row), (names row).Nodup → (∀ f ∈ values, f.1 ∈ names row) →
    values.foldlM updateField row = .ok (overwrite row values)
  | [], _, _, _ => rfl
  | f :: values, row, hn, hv => by
    have hf := replaceFirst_eq f.1 f.2 hn (hv f List.mem_cons_self)
    rw [List.foldlM_cons, updateField, hf]
    apply foldlM_updateField values _ (by rwa [names_assign])
    intro g hg
    rw [names_assign]
    exact hv g (List.mem_cons_of_mem _ hg)

end RocksdbDB

theorem wf_overwrite {n : ℕ} {row values : Row} (h : RecordStore.Wf n row) (hs : Sized values) :
    RecordStore.Wf n (overwrite row values) where
  length := by
    rw [← List.length_map (f := Prod.fst), ← names, names_overwrite, names, List.length_map]
    exact h.length
  nodup := by rw [names_overwrite]; exact h.nodup
  sized f hf := by
    rcases mem_overwrite hf with hf | ⟨hf, _⟩
    · exact hs f hf
    · exact h.sized f hf

/-! ## The coupling -/

section
variable {S : KVStore Bytes Bytes} (hS : S.Ordered) (n : ℕ)

structure Coupled (db : S.State) (m : OrdMap Bytes Row) : Prop where
  bytes : hS.abs db = m.map rowBytes
  wf : ∀ a ∈ m.entries, RecordStore.Wf n a.2

variable {hS} {n}

theorem Coupled.get {db : S.State} {m : OrdMap Bytes Row} (h : Coupled hS n db m) (key : Bytes) :
    S.get db key = (m.get key).map rowBytes := by
  rw [hS.get_eq, h.bytes, OrdMap.get_map]

theorem Coupled.wf_get {db : S.State} {m : OrdMap Bytes Row} (h : Coupled hS n db m) {key : Bytes} {row : Row}
    (hk : m.get key = some row) : RecordStore.Wf n row := h.wf _ (OrdMap.mem_of_get hk)

theorem Coupled.put {db : S.State} {m : OrdMap Bytes Row} (h : Coupled hS n db m) (key : Bytes) {row : Row}
    (hw : RecordStore.Wf n row) : Coupled hS n (S.put db key (RocksdbDB.serializeRow row [])) (m.put key row) where
  bytes := by rw [hS.abs_put, h.bytes, RocksdbDB.serializeRow_eq, OrdMap.map_put, List.nil_append]
  wf a ha := by
    rcases OrdMap.mem_put ha with rfl | ha
    · exact hw
    · exact h.wf a ha

theorem Coupled.delete {db : S.State} {m : OrdMap Bytes Row} (h : Coupled hS n db m) (key : Bytes) :
    Coupled hS n (S.delete db key) (m.del key) where
  bytes := by rw [hS.abs_delete, h.bytes, OrdMap.map_del]
  wf a ha := h.wf a (OrdMap.mem_del ha)

theorem coupled_empty : Coupled hS n S.empty OrdMap.empty where
  bytes := hS.abs_empty
  wf _ ha := absurd ha List.not_mem_nil

/-! ## One call -/

theorem readSingle_coupled {db : S.State} {m : OrdMap Bytes Row} (h : Coupled hS n db m) {key : Bytes}
    {fields : Option (List Bytes)} (hf : ∀ row, m.get key = some row → RecordStore.Selects fields row) :
    RocksdbDB.readSingle S n db key fields [] =
      .ok (match m.get key with
        | none => (.kNotFound, [])
        | some row => (.kOK, RecordStore.select row fields)) := by
  rw [RocksdbDB.readSingle, h.get]
  cases hk : m.get key with
  | none => rfl
  | some row =>
    simp only [Option.map_some, RocksdbDB.deserializeSelected_rowBytes (h.wf_get hk) (hf row hk)]
    rfl

theorem foldlM_scan {fields : Option (List Bytes)} : ∀ (l : List (Bytes × Row)) (result : List Row),
    (∀ a ∈ l, RecordStore.Wf n a.2 ∧ RecordStore.Selects fields a.2) →
    (l.map fun a => (a.1, rowBytes a.2)).foldlM (fun (result : List Row) (entry : Bytes × Bytes) => do
        let values ← RocksdbDB.deserializeSelected n [] entry.2 fields
        return result ++ [values]) result =
      (.ok (result ++ l.map fun a => RecordStore.select a.2 fields) : Except Fault (List Row))
  | [], result, _ => by rw [List.map_nil, List.map_nil, List.append_nil]; rfl
  | a :: l, result, h => by
    have ha := h a List.mem_cons_self
    rw [List.map_cons, List.foldlM_cons, RocksdbDB.deserializeSelected_rowBytes ha.1 ha.2]
    refine (foldlM_scan l (result ++ [RecordStore.select a.2 fields])
      fun b hb => h b (List.mem_cons_of_mem _ hb)).trans ?_
    rw [List.map_cons, List.append_assoc, List.singleton_append]

theorem scanSingle_coupled {db : S.State} {m : OrdMap Bytes Row} (h : Coupled hS n db m) {key : Bytes} {len : ℤ}
    {fields : Option (List Bytes)}
    (hf : ∀ a ∈ (m.entries.filter fun a => decide (key ≤ a.1)).take len.toNat, RecordStore.Selects fields a.2) :
    RocksdbDB.scanSingle S n db key len fields [] =
      .ok (.kOK, ((m.entries.filter fun a => decide (key ≤ a.1)).take len.toNat).map
        fun a => RecordStore.select a.2 fields) := by
  have hrest : (hS.rest (S.seek db key)).take len.toNat =
      ((m.entries.filter fun a => decide (key ≤ a.1)).take len.toNat).map fun a => (a.1, rowBytes a.2) := by
    rw [hS.rest_seek, h.bytes, OrdMap.seek_map, OrdMap.seek_eq_filter, List.map_take]
  rw [RocksdbDB.scanSingle, KVStore.forEach_eq hS, hrest, foldlM_scan _ _ fun a ha =>
    ⟨h.wf a (List.mem_of_mem_filter (List.mem_of_mem_take ha)), hf a ha⟩]
  rfl

theorem updateSingle_coupled {db : S.State} {m : OrdMap Bytes Row} (h : Coupled hS n db m) {key : Bytes}
    {values : Row} (hv : ∀ row, m.get key = some row → Sized values ∧ ∀ f ∈ values, f.1 ∈ names row) :
    ∃ db', RocksdbDB.updateSingle S n db key values =
        .ok (match m.get key with
          | none => .kNotFound
          | some _ => .kOK, db') ∧
      Coupled hS n db' (RecordStore.call m (.update key values)).1 := by
  simp only [RocksdbDB.updateSingle, h.get, RecordStore.call]
  cases hk : m.get key with
  | none => exact ⟨db, rfl, h⟩
  | some row =>
    have hw := h.wf_get hk
    obtain ⟨hs, hnames⟩ := hv row hk
    simp only [Option.map_some, RocksdbDB.deserializeFull_rowBytes hw, bind, Except.bind,
      RocksdbDB.foldlM_updateField values row hw.nodup hnames]
    exact ⟨_, rfl, h.put key (wf_overwrite hw hs)⟩

theorem call_coupled {db : S.State} {m : OrdMap Bytes Row} (c : Call) (h : Coupled hS n db m)
    (hc : RecordStore.Admissible n m c) :
    ∃ db', RocksdbDB.call S n db c = .ok (db', (RecordStore.call m c).2) ∧
      Coupled hS n db' (RecordStore.call m c).1 := by
  cases c with
  | read key fields =>
    refine ⟨db, ?_, ?_⟩
    · rw [RocksdbDB.call, readSingle_coupled h hc, RecordStore.call]
      cases m.get key <;> rfl
    · rw [RecordStore.read_fst]
      exact h
  | scan key len fields => exact ⟨db, by rw [RocksdbDB.call, scanSingle_coupled h hc]; rfl, h⟩
  | update key values =>
    obtain ⟨db', hup, h'⟩ := updateSingle_coupled h hc
    refine ⟨db', ?_, h'⟩
    rw [RocksdbDB.call, hup, RecordStore.call]
    cases m.get key <;> rfl
  | insert key values => exact ⟨_, rfl, h.put key ⟨hc.1, hc.2.1, hc.2.2⟩⟩
  | delete key => exact ⟨_, rfl, h.delete key⟩

theorem exec_coupled (hS : S.Ordered) {calls : List Call}
    (hc : Legal RecordStore.call (RecordStore.Admissible n) OrdMap.empty calls) :
    ∃ db, exec (RocksdbDB.call S n) S.empty calls = .ok (db, (respond RecordStore.call OrdMap.empty calls).2) ∧
      Coupled hS n db (respond RecordStore.call OrdMap.empty calls).1 :=
  exec_refines (fun _ _ c h hc => call_coupled c h hc) calls S.empty OrdMap.empty coupled_empty hc

end

/-- **RocksdbDB refines a record store.** After any calls the replies are those
of the map from keys to rows, and the store holds `SerializeRow` of each row. -/
theorem rocksdb_refines (S : KVStore Bytes Bytes) (hS : S.Ordered) (n : ℕ) (calls : List Call)
    (hc : Legal RecordStore.call (RecordStore.Admissible n) OrdMap.empty calls) :
    ∃ db, exec (RocksdbDB.call S n) S.empty calls =
        .ok (db, (respond RecordStore.call OrdMap.empty calls).2) ∧
      hS.abs db = (respond RecordStore.call OrdMap.empty calls).1.map
        fun row => RocksdbDB.serializeRow row [] := by
  obtain ⟨db, hrun, hR⟩ := exec_coupled hS hc
  refine ⟨db, hrun, hR.bytes.trans ?_⟩
  congr 1
  funext row
  exact (RocksdbDB.serializeRow_eq row []).symm

theorem rocksdb_refines_update : ∃ db, exec (RocksdbDB.call (OrdMap.store Bytes Bytes) 2) OrdMap.empty
      [.insert [1] [([7], [10]), ([8], [20])], .update [1] [([8], [30])], .read [1] (some [[8]])] =
      .ok (db, [.status .kOK, .status .kOK, .row .kOK [([8], [30])]]) ∧
    db = (respond RecordStore.call OrdMap.empty
      [.insert [1] [([7], [10]), ([8], [20])], .update [1] [([8], [30])], .read [1] (some [[8]])]).1.map
        fun row => RocksdbDB.serializeRow row [] :=
  rocksdb_refines (OrdMap.store Bytes Bytes) (OrdMap.storeOrdered Bytes Bytes) 2 _
    ⟨⟨rfl, by decide, by simp [Sized]⟩, fun row h => by cases h; exact ⟨by simp [Sized], by decide⟩,
      fun row h => by cases h; rintro _ ⟨⟩; decide, trivial⟩

end Ycsb
