import Mathlib.Data.List.ReduceOption
import Ycsb.MergeBinding
import Ycsb.UpdateMergeSound

/-!
# The merge path in whole runs

A key is stored, or updates wait for a row that is not there. Background work
changes neither this nor what a reader of the key gets.
-/

namespace Ycsb

open Lib DB

/-- Rows have the fields of the schema, an update names some of them once each, and the fields that a read
wants are in the order of the schema. -/
def DB.Call.Fits (schema : List Bytes) : Call → Prop
  | .read _ fields => ∀ fs, fields = some fs → fs.Sublist schema
  | .scan _ _ fields => ∀ fs, fields = some fs → fs.Sublist schema
  | .update _ values => names values ⊆ schema ∧ (names values).Nodup ∧ Sized values
  | .insert _ values => names values = schema ∧ Sized values
  | .delete _ => True

namespace MergeEvent

def Fits {ω : Type} (schema : List Bytes) (es : List (MergeEvent ω)) : Prop := ∀ c ∈ calls es, c.Fits schema

end MergeEvent

/-! ## The store without its operands -/

namespace MergeRows

def call (t : OrdMap Bytes (Bool × Row)) : Call → OrdMap Bytes (Bool × Row) × Reply
  | .read key fields =>
    match t.get key with
    | none => (t, .row .kNotFound [])
    | some p => (t, .row .kOK (RecordStore.select p.2 fields))
  | .scan key len fields =>
    (t, .rows .kOK (((t.seek key).take len.toNat).map fun a => RecordStore.select a.2.2 fields))
  | .update key values =>
    (t.put key ((t.get key).elim (false, values) fun p => (p.1, merge p.2 values)), .status .kOK)
  | .insert key values => (t.put key (true, values), .status .kOK)
  | .delete key => (t.del key, .status .kOK)

/-- An update that finds no row. -/
def Misses {ν : Type} (t : OrdMap Bytes ν) : Call → Prop
  | .update key _ => t.get key = none
  | _ => False

/-- The rows, and whether an update has missed. -/
def note (s : OrdMap Bytes (Bool × Row) × Prop) (c : Call) : (OrdMap Bytes (Bool × Row) × Prop) × Reply :=
  (((call s.1 c).1, s.2 ∨ Misses s.1 c), (call s.1 c).2)

end MergeRows

/-- The call needs the value of a key that has operands only. `ScanSingle` calls `Next` after its last row too. -/
def DB.Call.Touches (stored : OrdMap Bytes Bool) : Call → Prop
  | .read key _ => stored.get key = some false
  | .scan key len _ => ∃ a ∈ (stored.seek key).take (len.toNat + 1), a.2 = false
  | _ => False

namespace MergeEvent

/-- Only the calls count. -/
def onCalls {τ ω : Type} (spec : τ → Call → τ × Reply) (t : τ) : MergeEvent ω → τ × Option Reply
  | .call c => ((spec t c).1, some (spec t c).2)
  | .work _ => (t, none)

def Aborts (M : MergeStore Bytes Bytes Fault) (db : M.State) (stored : OrdMap Bytes Bool) : MergeEvent M.Work → Prop
  | .call c => c.Touches stored
  | .work w => M.work db w = .error .assertion

end MergeEvent

namespace MergeDB

theorem multiplies : Chain.Multiplies YCSBUpdateMerge.mergeValue recordBytes Fault.assertion where
  some_eq a b := YCSBUpdateMerge.merge_rowBytes a.holds b.holds []
  none_eq _ := rfl

section
variable {M : MergeStore Bytes Bytes Fault} (hM : M.Merges YCSBUpdateMerge.mergeValue) (schema : List Bytes)

structure Holds (db : M.State) (t : OrdMap Bytes (Bool × Row)) (bare : Prop) : Prop where
  items : ∃ t' : OrdMap Bytes (Bool × Record),
    M.Multiplied hM recordBytes db t' bare ∧ t = t'.map fun p => (p.1, p.2.entries)
  row : ∀ a ∈ t.entries, a.2.1 = true → RowOf schema a.2.2

variable {hM schema} {db : M.State} {t : OrdMap Bytes (Bool × Row)} {bare : Prop}

theorem Holds.empty : Holds hM schema M.empty OrdMap.empty bare where
  items := ⟨OrdMap.empty, MergeStore.Multiplied.empty, rfl⟩
  row _ ha := absurd ha List.not_mem_nil

theorem Holds.get (h : Holds hM schema db t bare) (key : Bytes) :
    M.get db key = (t.get key).elim (.ok none) fun p => (Chain.read rowBytes .assertion p).map some := by
  obtain ⟨t', hitems, rfl⟩ := h.items
  rw [hitems.get multiplies, OrdMap.get_map]
  cases t'.get key <;> rfl

/-! ## One call -/

theorem deserialize_stored (hn : schema.Nodup) {fields : Option (List Bytes)}
    (hf : ∀ fs, fields = some fs → fs.Sublist schema) {row : Row} (hrow : RowOf schema row) :
    RocksdbDB.deserializeSelected schema.length [] (rowBytes row) fields = .ok (RecordStore.select row fields) := by
  refine RocksdbDB.deserializeSelected_rowBytes (hrow.wf hn) fun fs hfs => ?_
  rw [hrow.names]
  exact hf fs hfs

theorem readSingle_holds (hn : schema.Nodup) (h : Holds hM schema db t bare) (key : Bytes)
    {fields : Option (List Bytes)} (hf : ∀ fs, fields = some fs → fs.Sublist schema) :
    readSingle M schema.length db key fields [] =
      match t.get key with
      | none => .ok (.kNotFound, [])
      | some p => if p.1 then .ok (.kOK, RecordStore.select p.2 fields) else .error .assertion := by
  rw [readSingle, h.get]
  cases hk : t.get key with
  | none => rfl
  | some p =>
    obtain ⟨stored, row⟩ := p
    cases stored with
    | false => rfl
    | true =>
      have hload := deserialize_stored hn hf (h.row _ (OrdMap.mem_of_get hk) rfl)
      simp only [Option.elim_some, Chain.read, if_true, Except.map, bind, Except.bind, hload]
      rfl

/-- The body of the loop in `ScanSingle`. -/
def appendRow (fieldcount : ℕ) (fields : Option (List Bytes)) (result : List Row) (entry : Bytes × Bytes) :
    Except Fault (List Row) := do
  let values ← RocksdbDB.deserializeSelected fieldcount [] entry.2 fields
  return result ++ [values]

theorem scanSingle_eq (n : ℕ) (db : M.State) (key : Bytes) (len : ℤ) (fields : Option (List Bytes)) :
    scanSingle M n db key len fields [] =
      ((M.seek db key).bind fun it => M.forEach (appendRow n fields) len.toNat it []).map fun rows =>
        (.kOK, rows) := by
  rw [scanSingle]
  cases hseek : M.seek db key with
  | error e => rfl
  | ok it => rfl

theorem appendRow_stored (hn : schema.Nodup) {fields : Option (List Bytes)}
    (hf : ∀ fs, fields = some fs → fs.Sublist schema) {row : Row} (hrow : RowOf schema row) (key : Bytes)
    (result : List Row) : appendRow schema.length fields result (key, rowBytes row) =
      .ok (result ++ [RecordStore.select row fields]) := by
  rw [appendRow, deserialize_stored hn hf hrow]
  rfl

theorem foldlM_appendRow (hn : schema.Nodup) {fields : Option (List Bytes)}
    (hf : ∀ fs, fields = some fs → fs.Sublist schema) : ∀ (l : List (Bytes × Bool × Row)) (result : List Row),
    (∀ a ∈ l, RowOf schema a.2.2) →
      (l.map fun a => (a.1, rowBytes a.2.2)).foldlM (appendRow schema.length fields) result =
        .ok (result ++ l.map fun a => RecordStore.select a.2.2 fields)
  | [], result, _ => by
    rw [List.map_nil, List.map_nil, List.append_nil]
    rfl
  | a :: l, result, h => by
    rw [List.map_cons, List.foldlM_cons, appendRow_stored hn hf (h a List.mem_cons_self)]
    refine (foldlM_appendRow hn hf l _ fun b hb => h b (List.mem_cons_of_mem a hb)).trans ?_
    rw [List.map_cons, List.append_assoc, List.singleton_append]

theorem seek_entries (t' : OrdMap Bytes (Bool × Record)) (key : Bytes) :
    (t'.map fun p => (p.1, p.2.entries)).seek key = (t'.seek key).map fun a => (a.1, a.2.1, a.2.2.entries) :=
  OrdMap.seek_map ..

theorem forall_seek_entries {t' : OrdMap Bytes (Bool × Record)} {key : Bytes} {n : ℕ} :
    (∀ a ∈ ((t'.map fun p => (p.1, p.2.entries)).seek key).take n, a.2.1 = true) ↔
      ∀ a ∈ (t'.seek key).take n, a.2.1 = true := by
  rw [seek_entries, ← List.map_take]
  exact List.forall_mem_map

theorem Holds.row_seek (h : Holds hM schema db t bare) {key : Bytes} {a : Bytes × Bool × Row} (ha : a ∈ t.seek key)
    (hstored : a.2.1 = true) : RowOf schema a.2.2 := h.row a (OrdMap.mem_seek.mp ha).1 hstored

theorem scanSingle_ok (hn : schema.Nodup) (h : Holds hM schema db t bare) {key : Bytes} {len : ℤ}
    {fields : Option (List Bytes)} (hf : ∀ fs, fields = some fs → fs.Sublist schema)
    (hall : ∀ a ∈ (t.seek key).take (len.toNat + 1), a.2.1 = true) :
    scanSingle M schema.length db key len fields [] =
      .ok (.kOK, ((t.seek key).take len.toNat).map fun a => RecordStore.select a.2.2 fields) := by
  have hrows : ∀ a ∈ (t.seek key).take len.toNat, RowOf schema a.2.2 := fun a ha =>
    h.row_seek (List.mem_of_mem_take ha) (hall a (List.take_subset_take_left _ (Nat.le_succ _) ha))
  have hfold := foldlM_appendRow hn hf _ [] hrows
  obtain ⟨t', hitems, rfl⟩ := h.items
  rw [seek_entries, ← List.map_take, List.map_map] at hfold
  rw [scanSingle_eq, hitems.forEach_ok multiplies key len.toNat [] (forall_seek_entries.mp hall), seek_entries,
    ← List.map_take]
  exact congrArg (Except.map fun rows => (Status.kOK, rows)) hfold

theorem scanSingle_error (hn : schema.Nodup) (h : Holds hM schema db t bare) {key : Bytes} {len : ℤ}
    {fields : Option (List Bytes)} (hf : ∀ fs, fields = some fs → fs.Sublist schema)
    (hnot : ¬ ∀ a ∈ (t.seek key).take (len.toNat + 1), a.2.1 = true) :
    scanSingle M schema.length db key len fields [] = .error .assertion := by
  have hrows : ∀ a ∈ t.seek key, a.2.1 = true → RowOf schema a.2.2 := fun a ha hstored => h.row_seek ha hstored
  obtain ⟨t', hitems, rfl⟩ := h.items
  rw [seek_entries] at hrows
  have hbody : ∀ a ∈ t'.seek key, a.2.1 = true → ∀ s : List Row, ∃ s',
      appendRow schema.length fields s (a.1, recordBytes a.2.2) = .ok s' :=
    fun a ha hstored s => ⟨_, appendRow_stored hn hf (hrows _ (List.mem_map_of_mem ha) hstored) a.1 s⟩
  rw [scanSingle_eq, hitems.forEach_error multiplies key len.toNat [] hbody (mt forall_seek_entries.mpr hnot)]
  rfl

/-! ## What a call leaves -/

theorem Holds.insert (h : Holds hM schema db t bare) (hn : schema.Nodup) (key : Bytes) {values : Row}
    (hv : RowOf schema values) : Holds hM schema (insertSingle M db key values).2 (t.put key (true, values)) bare where
  items := by
    obtain ⟨t', hitems, rfl⟩ := h.items
    let new : Record := ⟨values, by rwa [hv.names], hv.sized⟩
    refine ⟨t'.put key (true, new), ?_, ?_⟩
    · rw [insertSingle, RocksdbDB.serializeRow_eq, List.nil_append]
      exact hitems.put key new
    · exact (OrdMap.map_put (fun p : Bool × Record => (p.1, p.2.entries)) t' key (true, new)).symm
  row a ha hstored := by
    rcases OrdMap.mem_put ha with rfl | ha
    · exact hv
    · exact h.row a ha hstored

theorem Holds.delete (h : Holds hM schema db t bare) (key : Bytes) :
    Holds hM schema (deleteSingle M db key).2 (t.del key) bare where
  items := by
    obtain ⟨t', hitems, rfl⟩ := h.items
    exact ⟨t'.del key, hitems.delete key, (OrdMap.map_del ..).symm⟩
  row a ha := h.row a (OrdMap.mem_del ha)

theorem rowOf_merge (hn : schema.Nodup) {row values : Row} (h : RowOf schema row) (hv : names values ⊆ schema)
    (hs : Sized values) : RowOf schema (merge row values) := by
  rw [merge_eq_overwrite (by rwa [h.names]) (by rwa [h.names])]
  exact h.overwrite hs

theorem Holds.update (h : Holds hM schema db t bare) (hn : schema.Nodup) (key : Bytes) {values : Row}
    (hv : names values ⊆ schema) (hd : (names values).Nodup) (hs : Sized values) :
    Holds hM schema (mergeSingle M db key values).2 (MergeRows.call t (.update key values)).1
      (bare ∨ t.get key = none) where
  items := by
    obtain ⟨t', hitems, rfl⟩ := h.items
    let new : Record := ⟨values, hd, hs⟩
    refine ⟨t'.mulIn key new, ?_, ?_⟩
    · rw [mergeSingle, RocksdbDB.serializeRow_eq, List.nil_append, OrdMap.get_map, Option.map_eq_none_iff]
      exact hitems.merge key new
    · rw [MergeRows.call, OrdMap.mulIn, OrdMap.map_put, OrdMap.get_map]
      cases t'.get key <;> rfl
  row a ha hstored := by
    rcases OrdMap.mem_put ha with rfl | ha
    · cases hk : t.get key with
      | none =>
        simp only [hk, Option.elim_none] at hstored
        cases hstored
      | some p =>
        simp only [hk, Option.elim_some] at hstored ⊢
        exact rowOf_merge hn (h.row _ (OrdMap.mem_of_get hk) hstored) hv hs
    · exact h.row a ha hstored

/-! ## One event -/

theorem touches_read {key : Bytes} {fields : Option (List Bytes)} :
    (Call.read key fields).Touches (t.map Prod.fst) ↔ ∃ p, t.get key = some p ∧ p.1 = false := by
  rw [Call.Touches, OrdMap.get_map, Option.map_eq_some_iff]

theorem touches_scan {key : Bytes} {len : ℤ} {fields : Option (List Bytes)} :
    (Call.scan key len fields).Touches (t.map Prod.fst) ↔
      ¬ ∀ a ∈ (t.seek key).take (len.toNat + 1), a.2.1 = true := by
  rw [Call.Touches, OrdMap.seek_map, ← List.map_take, not_forall]
  constructor
  · rintro ⟨_, hmem, hfalse⟩
    obtain ⟨a, ha, rfl⟩ := List.mem_map.mp hmem
    exact ⟨a, fun h => absurd (h ha) (Bool.eq_false_iff.mp hfalse)⟩
  · rintro ⟨a, h⟩
    obtain ⟨ha, hfalse⟩ := Classical.not_imp.mp h
    exact ⟨_, List.mem_map_of_mem ha, eq_false_of_ne_true hfalse⟩

theorem Holds.mono (h : Holds hM schema db t bare) {bare' : Prop} (hbare : bare → bare') :
    Holds hM schema db t bare' where
  items := by
    obtain ⟨t', hitems, ht⟩ := h.items
    exact ⟨t', hitems.mono hbare, ht⟩
  row := h.row

theorem call_ok (hn : schema.Nodup) (h : Holds hM schema db t bare) {c : Call} (hc : c.Fits schema)
    (ht : ¬ c.Touches (t.map Prod.fst)) : ∃ db', call M schema.length db c = .ok (db', (MergeRows.call t c).2) ∧
      Holds hM schema db' (MergeRows.call t c).1 (bare ∨ MergeRows.Misses t c) := by
  cases c with
  | read key fields =>
    rw [call, readSingle_holds hn h key hc, MergeRows.call]
    cases hk : t.get key with
    | none => exact ⟨db, rfl, h.mono Or.inl⟩
    | some p =>
      have hp : p.1 = true := by
        by_contra hp
        exact ht (touches_read.mpr ⟨p, hk, eq_false_of_ne_true hp⟩)
      refine ⟨db, ?_, h.mono Or.inl⟩
      simp only [if_pos hp]
      rfl
  | scan key len fields =>
    have hall := not_not.mp (mt touches_scan.mpr ht)
    refine ⟨db, ?_, h.mono Or.inl⟩
    rw [call, scanSingle_ok hn h hc hall]
    rfl
  | update key values => exact ⟨_, rfl, h.update hn key hc.1 hc.2.1 hc.2.2⟩
  | insert key values => exact ⟨_, rfl, (h.insert hn key ⟨hc.1, hc.2⟩).mono Or.inl⟩
  | delete key => exact ⟨_, rfl, (h.delete key).mono Or.inl⟩

theorem call_error (hn : schema.Nodup) (h : Holds hM schema db t bare) {c : Call} (hc : c.Fits schema)
    (ht : c.Touches (t.map Prod.fst)) : call M schema.length db c = .error .assertion := by
  cases c with
  | read key fields =>
    obtain ⟨p, hk, hp⟩ := touches_read.mp ht
    rw [call, readSingle_holds hn h key hc, hk]
    simp only [hp]
    rfl
  | scan key len fields =>
    rw [call, scanSingle_error hn h hc (touches_scan.mp ht)]
    rfl
  | update key values => exact absurd ht id
  | insert key values => exact absurd ht id
  | delete key => exact absurd ht id

theorem Holds.work (h : Holds hM schema db t bare) {w : M.Work} {db' : M.State} (hw : M.work db w = .ok db') :
    Holds hM schema db' t bare where
  items := by
    obtain ⟨t', hitems, ht⟩ := h.items
    exact ⟨t', hitems.work hw, ht⟩
  row := h.row

theorem Holds.work_error (h : Holds hM schema db t bare) {w : M.Work} {f : Fault} (hw : M.work db w = .error f) :
    bare ∧ f = .assertion := by
  obtain ⟨t', hitems, -⟩ := h.items
  exact hitems.work_error multiplies hw

theorem step_ok (hn : schema.Nodup) (h : Holds hM schema db t bare) {e : MergeEvent M.Work}
    (he : ∀ c, e = .call c → c.Fits schema) (ha : ¬ e.Aborts M db (t.map Prod.fst)) :
    ∃ db', e.step M schema.length db = .ok (db', (e.onCalls MergeRows.note (t, bare)).2) ∧
      Holds hM schema db' (e.onCalls MergeRows.note (t, bare)).1.1 (e.onCalls MergeRows.note (t, bare)).1.2 := by
  cases e with
  | call c =>
    obtain ⟨db', hcall, h'⟩ := call_ok hn h (he c rfl) ha
    refine ⟨db', ?_, h'⟩
    rw [MergeEvent.step, hcall]
    rfl
  | work w =>
    cases hw : M.work db w with
    | error f =>
      obtain ⟨-, rfl⟩ := h.work_error hw
      exact absurd hw ha
    | ok db' =>
      refine ⟨db', ?_, h.work hw⟩
      rw [MergeEvent.step, hw]
      rfl

theorem step_error (hn : schema.Nodup) (h : Holds hM schema db t bare) {e : MergeEvent M.Work}
    (he : ∀ c, e = .call c → c.Fits schema) (ha : e.Aborts M db (t.map Prod.fst)) :
    e.step M schema.length db = .error .assertion := by
  cases e with
  | call c =>
    rw [MergeEvent.step, call_error hn h (he c rfl) ha]
    rfl
  | work w =>
    have hw : M.work db w = .error .assertion := ha
    rw [MergeEvent.step, hw]
    rfl

end

end MergeDB

/-! ## Calls and events -/

namespace MergeEvent

variable {ω : Type}

theorem respond_onCalls {τ : Type} (spec : τ → Call → τ × Reply) : ∀ (es : List (MergeEvent ω)) (t : τ),
    (respond (onCalls spec) t es).1 = (respond spec t (calls es)).1 ∧
      (respond (onCalls spec) t es).2.reduceOption = (respond spec t (calls es)).2
  | [], _ => ⟨rfl, rfl⟩
  | .call c :: es, t => by
    obtain ⟨hstate, hreplies⟩ := respond_onCalls spec es (spec t c).1
    have hcalls : calls (.call c :: es) = c :: calls es := rfl
    rw [hcalls, respond, respond]
    refine ⟨hstate, ?_⟩
    exact (List.reduceOption_cons_of_some _ _).trans (congrArg _ hreplies)
  | .work _ :: es, t => respond_onCalls spec es t

theorem fits_call {schema : List Bytes} {es : List (MergeEvent ω)} (hes : Fits schema es) {e : MergeEvent ω}
    (he : e ∈ es) : ∀ c, e = .call c → c.Fits schema := by
  rintro c rfl
  exact hes c (List.mem_filterMap.mpr ⟨_, he, rfl⟩)

end MergeEvent

/-! ## Which keys are stored -/

namespace MergeRows

/-- A key that an update finds missing has operands only, until it is inserted or deleted. -/
def mark (stored : OrdMap Bytes Bool) : Call → OrdMap Bytes Bool
  | .update key _ =>
    match stored.get key with
    | none => stored.put key false
    | some _ => stored
  | .insert key _ => stored.put key true
  | .delete key => stored.del key
  | _ => stored

def marks (cs : List Call) : OrdMap Bytes Bool := cs.foldl mark OrdMap.empty

/-- Some update finds no row. -/
def Missed (cs : List Call) : Prop := ∃ before c after, cs = before ++ c :: after ∧ Misses (marks before) c

theorem call_mark (t : OrdMap Bytes (Bool × Row)) (c : Call) :
    (call t c).1.map Prod.fst = mark (t.map Prod.fst) c := by
  cases c with
  | read key fields =>
    rw [call]
    cases t.get key <;> rfl
  | scan key len fields => rfl
  | update key values =>
    rw [call, OrdMap.map_put, mark]
    cases hk : t.get key with
    | none => rw [OrdMap.get_map, hk]; rfl
    | some p =>
      have hfst : (t.map Prod.fst).get key = some p.1 := by rw [OrdMap.get_map, hk]; rfl
      rw [hfst]
      exact OrdMap.put_self hfst
  | insert key values => exact OrdMap.map_put ..
  | delete key => exact OrdMap.map_del ..

theorem misses_map (t : OrdMap Bytes (Bool × Row)) (c : Call) : Misses (t.map Prod.fst) c ↔ Misses t c := by
  cases c with
  | update key values => rw [Misses, Misses, OrdMap.get_map, Option.map_eq_none_iff]
  | read key fields | scan key len fields | insert key values | delete key => exact Iff.rfl

theorem respond_note : ∀ (cs : List Call) (t : OrdMap Bytes (Bool × Row)) (bare : Prop),
    (respond note (t, bare) cs).1.1 = (respond call t cs).1 ∧ (respond note (t, bare) cs).2 = (respond call t cs).2
  | [], _, _ => ⟨rfl, rfl⟩
  | c :: cs, t, bare => by
    obtain ⟨hstate, hreplies⟩ := respond_note cs (call t c).1 (bare ∨ Misses t c)
    exact ⟨hstate, congrArg (List.cons _) hreplies⟩

theorem respond_mark : ∀ (cs : List Call) (t : OrdMap Bytes (Bool × Row)),
    (respond call t cs).1.map Prod.fst = cs.foldl mark (t.map Prod.fst)
  | [], _ => rfl
  | c :: cs, t => by rw [respond, List.foldl_cons, ← call_mark, respond_mark cs]

theorem respond_bare : ∀ (cs : List Call) (t : OrdMap Bytes (Bool × Row)) (bare : Prop),
    (respond note (t, bare) cs).1.2 → bare ∨ ∃ before c after, cs = before ++ c :: after ∧
      Misses (before.foldl mark (t.map Prod.fst)) c
  | [], _, _, h => Or.inl h
  | c :: cs, t, bare, h => by
    rcases respond_bare cs (call t c).1 (bare ∨ Misses t c) h with (hbare | hmiss) | ⟨before, d, after, rfl, hmiss⟩
    · exact Or.inl hbare
    · exact Or.inr ⟨[], c, cs, rfl, (misses_map t c).mpr hmiss⟩
    · rw [call_mark] at hmiss
      exact Or.inr ⟨c :: before, d, after, rfl, hmiss⟩

end MergeRows

namespace MergeDB

section
variable {M : MergeStore Bytes Bytes Fault} {hM : M.Merges YCSBUpdateMerge.mergeValue} {schema : List Bytes}

theorem events_marks {ω : Type} (es : List (MergeEvent ω)) :
    (respond (MergeEvent.onCalls MergeRows.note) (OrdMap.empty, False) es).1.1.map Prod.fst =
      MergeRows.marks (MergeEvent.calls es) := by
  rw [(MergeEvent.respond_onCalls MergeRows.note es _).1, (MergeRows.respond_note _ _ _).1, MergeRows.respond_mark]
  rfl

theorem events_missed {ω : Type} {es : List (MergeEvent ω)}
    (h : (respond (MergeEvent.onCalls MergeRows.note) (OrdMap.empty, False) es).1.2) :
    MergeRows.Missed (MergeEvent.calls es) := by
  rw [(MergeEvent.respond_onCalls MergeRows.note es _).1] at h
  exact (MergeRows.respond_bare _ _ _ h).resolve_left id

theorem step_sound (hM : M.Merges YCSBUpdateMerge.mergeValue) (hn : schema.Nodup) (db : M.State)
    (t : OrdMap Bytes (Bool × Row) × Prop) (e : MergeEvent M.Work) (db' : M.State) (r : Option Reply)
    (h : Holds hM schema db t.1 t.2) (he : ∀ c, e = .call c → c.Fits schema)
    (hok : MergeEvent.step M schema.length db e = .ok (db', r)) :
    (MergeEvent.onCalls MergeRows.note t e).2 = r ∧ Holds hM schema db'
      (MergeEvent.onCalls MergeRows.note t e).1.1 (MergeEvent.onCalls MergeRows.note t e).1.2 := by
  by_cases ha : e.Aborts M db (t.1.map Prod.fst)
  · rw [step_error hn h he ha] at hok
    cases hok
  · obtain ⟨db'', hok', h'⟩ := step_ok hn h he ha
    rw [hok', Except.ok.injEq, Prod.mk.injEq] at hok
    obtain ⟨rfl, rfl⟩ := hok
    exact ⟨rfl, h'⟩

/-- What the events of a run have left. -/
theorem exec_holds (hM : M.Merges YCSBUpdateMerge.mergeValue) (hn : schema.Nodup) {es : List (MergeEvent M.Work)}
    (hes : MergeEvent.Fits schema es) {db : M.State} {rs : List (Option Reply)}
    (h : exec (MergeEvent.step M schema.length) M.empty es = .ok (db, rs)) :
    ∃ t bare, Holds hM schema db t bare ∧ t.map Prod.fst = MergeRows.marks (MergeEvent.calls es) ∧
      (bare → MergeRows.Missed (MergeEvent.calls es)) ∧
        (respond MergeRows.call OrdMap.empty (MergeEvent.calls es)).2 = rs.reduceOption := by
  obtain ⟨hreplies, hholds⟩ := exec_sound (step_sound hM hn) es M.empty db (OrdMap.empty, False) rs
    Holds.empty (fun _ he => MergeEvent.fits_call hes he) h
  refine ⟨_, _, hholds, events_marks es, events_missed, ?_⟩
  rw [← hreplies, (MergeEvent.respond_onCalls MergeRows.note es _).2, (MergeRows.respond_note _ _ _).2]

/-- A run goes through, or up to an event that aborts. -/
theorem exec_events (hM : M.Merges YCSBUpdateMerge.mergeValue) (hn : schema.Nodup) {es : List (MergeEvent M.Work)}
    (hes : MergeEvent.Fits schema es) :
    (∃ r, exec (MergeEvent.step M schema.length) M.empty es = .ok r) ∨
      ∃ before e after db rs, es = before ++ e :: after ∧
        exec (MergeEvent.step M schema.length) M.empty before = .ok (db, rs) ∧
          e.Aborts M db (MergeRows.marks (MergeEvent.calls before)) := by
  rcases exec_until (step_sound hM hn) es M.empty (OrdMap.empty, False) Holds.empty
      fun _ he => MergeEvent.fits_call hes he with
    ⟨db, hok, -⟩ | ⟨before, e, after, db, f, rfl, hok, h, hf⟩
  · exact Or.inl ⟨_, hok⟩
  · refine Or.inr ⟨before, e, after, db, _, rfl, hok, ?_⟩
    rw [← events_marks]
    by_contra ha
    obtain ⟨db', hok', -⟩ := step_ok hn h
      (MergeEvent.fits_call hes (List.mem_append_right before List.mem_cons_self)) ha
    rw [hok'] at hf
    cases hf

theorem fits_before {ω : Type} {before after : List (MergeEvent ω)} {e : MergeEvent ω}
    (hes : MergeEvent.Fits schema (before ++ e :: after)) : MergeEvent.Fits schema before := fun c hc =>
  hes c (List.mem_filterMap.mpr ((List.mem_filterMap.mp hc).imp fun _ h => ⟨List.mem_append_left _ h.1, h.2⟩))

/-- An event that aborts ends the run. -/
theorem exec_aborts (hM : M.Merges YCSBUpdateMerge.mergeValue) (hn : schema.Nodup)
    {before after : List (MergeEvent M.Work)} {e : MergeEvent M.Work}
    (hes : MergeEvent.Fits schema (before ++ e :: after)) {db : M.State} {rs : List (Option Reply)}
    (hok : exec (MergeEvent.step M schema.length) M.empty before = .ok (db, rs))
    (ha : e.Aborts M db (MergeRows.marks (MergeEvent.calls before))) :
    exec (MergeEvent.step M schema.length) M.empty (before ++ e :: after) = .error .assertion := by
  obtain ⟨t, bare, h, hmarks, -⟩ := exec_holds hM hn (fits_before hes) hok
  rw [← hmarks] at ha
  exact exec_error hok (step_error hn h
    (MergeEvent.fits_call hes (List.mem_append_right before List.mem_cons_self)) ha)

end

/-- **The process aborts exactly when the value of a key is needed that was updated while it was
missing**, by a call or by RocksDB itself, which needs one only after such an update. Where `UpdateSingle`
says kNotFound, `MergeSingle` says kOK and leaves an operand. -/
theorem merge_aborts_iff (M : MergeStore Bytes Bytes Fault) (hM : M.Merges YCSBUpdateMerge.mergeValue)
    (schema : List Bytes) (hn : schema.Nodup) (es : List (MergeEvent M.Work)) (hes : MergeEvent.Fits schema es) :
    (exec (MergeEvent.step M schema.length) M.empty es = .error .assertion ↔
      ∃ before e after db rs, es = before ++ e :: after ∧
        exec (MergeEvent.step M schema.length) M.empty before = .ok (db, rs) ∧
          e.Aborts M db (MergeRows.marks (MergeEvent.calls before))) ∧
      (exec (MergeEvent.step M schema.length) M.empty es ≠ .error .assertion →
        ∃ r, exec (MergeEvent.step M schema.length) M.empty es = .ok r) ∧
      ∀ before w after db rs, es = before ++ .work w :: after →
        exec (MergeEvent.step M schema.length) M.empty before = .ok (db, rs) →
          M.work db w = .error .assertion → MergeRows.Missed (MergeEvent.calls before) := by
  refine ⟨⟨fun herror => ?_, ?_⟩, fun hne => ?_, ?_⟩
  · refine (exec_events hM hn hes).resolve_left ?_
    rintro ⟨r, hok⟩
    rw [herror] at hok
    cases hok
  · rintro ⟨before, e, after, db, rs, rfl, hok, ha⟩
    exact exec_aborts hM hn hes hok ha
  · refine (exec_events hM hn hes).resolve_right ?_
    rintro ⟨before, e, after, db, rs, rfl, hok, ha⟩
    exact hne (exec_aborts hM hn hes hok ha)
  · rintro before w after db rs rfl hok hw
    obtain ⟨t, bare, h, -, hmissed, -⟩ := exec_holds hM hn (fits_before hes) hok
    exact hmissed (h.work_error hw).1

/-- Two operands of a missing row become one. -/
theorem join_operands (s : OrdMap Bytes (Chain (FreeMagma Bytes))) (key : Bytes) (a b : Record)
    (hs : s.get key = some ⟨false, ⟨.of (recordBytes a), [.of (recordBytes b)]⟩⟩) :
    ∃ s', Groups.work YCSBUpdateMerge.mergeValue s (key, 0) = .ok s' := by
  have hjoin : Chain.combine YCSBUpdateMerge.mergeValue (.of (recordBytes a) * .of (recordBytes b)) =
      .ok (recordBytes (a * b)) := multiplies.some_eq a b
  refine ⟨s.put key ⟨false, ⟨.of (recordBytes a) * .of (recordBytes b), []⟩⟩, ?_⟩
  rw [Groups.work, hs, Option.elim_some, Groups.join, hjoin]
  rfl

theorem merge_aborts_iff_next :
    exec (MergeEvent.step (Groups.store Bytes YCSBUpdateMerge.mergeValue) 1) OrdMap.empty
      [.call (.insert [5] [([97], [0])]), .call (.update [7] [([97], [1])]), .call (.update [7] [([97], [2])]),
        .work ([7], 0), .call (.scan [5] 1 none)] = .error .assertion := by
  have hsized : ∀ n : Byte, Sized [([97], [n])] := by
    intro n
    simp [Sized]
  have hfits : MergeEvent.Fits [[97]] ([.call (.insert [5] [([97], [0])]), .call (.update [7] [([97], [1])]),
      .call (.update [7] [([97], [2])]), .work ([7], 0), .call (.scan [5] 1 none)] :
        List (MergeEvent (Bytes × ℕ))) := by
    intro c hc
    rcases List.mem_cons.mp hc with rfl | hc
    · exact ⟨rfl, hsized 0⟩
    rcases List.mem_cons.mp hc with rfl | hc
    · exact ⟨by decide, by decide, hsized 1⟩
    rcases List.mem_cons.mp hc with rfl | hc
    · exact ⟨by decide, by decide, hsized 2⟩
    obtain rfl := List.mem_singleton.mp hc
    exact fun fs hfs => by cases hfs
  have hupdates : ∃ s rs, exec (MergeEvent.step (Groups.store Bytes YCSBUpdateMerge.mergeValue) 1) OrdMap.empty
      [.call (.insert [5] [([97], [0])]), .call (.update [7] [([97], [1])]),
        .call (.update [7] [([97], [2])])] = .ok (s, rs) ∧ OrdMap.get s [7] =
          some ⟨false, ⟨.of (rowBytes [([97], [1])]), [.of (rowBytes [([97], [2])])]⟩⟩ := ⟨_, _, rfl, rfl⟩
  obtain ⟨s, rs, hok, hget⟩ := hupdates
  -- the two operands are merged while the store is at rest
  obtain ⟨s', hs'⟩ := join_operands s [7] ⟨[([97], [1])], by decide, hsized 1⟩
    ⟨[([97], [2])], by decide, hsized 2⟩ hget
  have hwork : MergeEvent.step (Groups.store Bytes YCSBUpdateMerge.mergeValue) 1 s (.work ([7], 0)) =
      .ok (s', none) :=
    congrArg (fun r : Except Fault (OrdMap Bytes (Chain (FreeMagma Bytes))) =>
      r.bind fun db => .ok (db, (none : Option Reply))) hs'
  exact (merge_aborts_iff (Groups.store Bytes YCSBUpdateMerge.mergeValue) (Groups.merges Bytes _) [[97]] (by decide) _
    hfits).1.mpr ⟨_, .call (.scan [5] 1 none), [], s', _, rfl, exec_append hok (exec_one hwork),
      ⟨([7], false), by decide, rfl⟩⟩

/-! ## The path of `UpdateSingle` -/

def Rows (schema : List Bytes) (m : OrdMap Bytes Row) : Prop := ∀ a ∈ m.entries, RowOf schema a.2

variable {schema : List Bytes} {m : OrdMap Bytes Row}

theorem Rows.call (h : Rows schema m) {c : Call} (hc : c.Fits schema) : Rows schema (RecordStore.call m c).1 := by
  cases c with
  | read key fields =>
    rw [RecordStore.read_fst]
    exact h
  | scan key len fields => exact h
  | update key values =>
    rw [RecordStore.call]
    cases hk : m.get key with
    | none => exact h
    | some row =>
      intro a ha
      rcases OrdMap.mem_put ha with rfl | ha
      · exact (h _ (OrdMap.mem_of_get hk)).overwrite hc.2.2
      · exact h a ha
  | insert key values =>
    intro a ha
    rcases OrdMap.mem_put ha with rfl | ha
    · exact ⟨hc.1, hc.2⟩
    · exact h a ha
  | delete key => exact fun a ha => h a (OrdMap.mem_del ha)

theorem Rows.admissible (hn : schema.Nodup) (h : Rows schema m) {c : Call} (hc : c.Fits schema) :
    RecordStore.Admissible schema.length m c := by
  have hselects : ∀ {fields : Option (List Bytes)}, (∀ fs, fields = some fs → fs.Sublist schema) →
      ∀ a ∈ m.entries, RecordStore.Selects fields a.2 := by
    intro fields hf a ha fs hfs
    rw [(h a ha).names]
    exact hf fs hfs
  cases c with
  | read key fields => exact fun row hk => hselects hc _ (OrdMap.mem_of_get hk)
  | scan key len fields => exact fun a ha => hselects hc a (List.mem_of_mem_filter (List.mem_of_mem_take ha))
  | update key values =>
    intro row hk
    refine ⟨hc.2.2, fun f hf => ?_⟩
    rw [(h _ (OrdMap.mem_of_get hk)).names]
    exact hc.1 (List.mem_map_of_mem hf)
  | insert key values => exact ⟨by rw [← hc.1, List.length_map], hc.1 ▸ hn, hc.2⟩
  | delete key => exact trivial

theorem legal_fits (hn : schema.Nodup) : ∀ (cs : List Call) (m : OrdMap Bytes Row), Rows schema m →
    (∀ c ∈ cs, c.Fits schema) → Legal RecordStore.call (RecordStore.Admissible schema.length) m cs
  | [], _, _, _ => trivial
  | c :: cs, m, h, hc => by
    have hfits := hc c List.mem_cons_self
    exact ⟨h.admissible hn hfits, legal_fits hn cs _ (h.call hfits) fun d hd => hc d (List.mem_cons_of_mem c hd)⟩

/-- All keys are stored. -/
def allStored (m : OrdMap Bytes Row) : OrdMap Bytes (Bool × Row) := m.map fun row => (true, row)

section
variable {M : MergeStore Bytes Bytes Fault} {hM : M.Merges YCSBUpdateMerge.mergeValue}

theorem rows_of_holds {db : M.State} {bare : Prop} (h : Holds hM schema db (allStored m) bare) : Rows schema m :=
  fun a ha => h.row (a.1, true, a.2) (List.mem_map_of_mem ha) rfl

theorem allStored_touches (c : Call) : ¬ c.Touches ((allStored m).map Prod.fst) := by
  cases c with
  | read key fields =>
    rw [touches_read, allStored, OrdMap.get_map]
    rintro ⟨p, hp, hfalse⟩
    obtain ⟨row, -, rfl⟩ := Option.map_eq_some_iff.mp hp
    cases hfalse
  | scan key len fields =>
    rw [touches_scan, not_not, allStored, OrdMap.seek_map, ← List.map_take]
    intro a ha
    obtain ⟨b, _, rfl⟩ := List.mem_map.mp ha
    rfl
  | update key values => exact id
  | insert key values => exact id
  | delete key => exact id

/-- As long as no update misses, the two stores move together. -/
theorem call_allStored (hn : schema.Nodup) (h : Rows schema m) {c : Call} (hc : c.Fits schema)
    (hr : (RecordStore.call m c).2 ≠ .status .kNotFound) :
    MergeRows.call (allStored m) c = (allStored (RecordStore.call m c).1, (RecordStore.call m c).2) ∧
      ¬ MergeRows.Misses (allStored m) c := by
  cases c with
  | read key fields =>
    refine ⟨?_, id⟩
    rw [MergeRows.call, RecordStore.call, allStored, OrdMap.get_map]
    cases m.get key <;> rfl
  | scan key len fields =>
    refine ⟨?_, id⟩
    rw [MergeRows.call, RecordStore.call, allStored, OrdMap.seek_map, OrdMap.seek_eq_filter, ← List.map_take,
      List.map_map]
    rfl
  | update key values =>
    rw [RecordStore.call] at hr ⊢
    rw [MergeRows.call, MergeRows.Misses, allStored, OrdMap.get_map]
    cases hk : m.get key with
    | none => exact absurd (by rw [hk]) hr
    | some row =>
      have hrow := h _ (OrdMap.mem_of_get hk)
      -- the fields of a row keep their places, whichever path is taken
      have hmerge : merge row values = overwrite row values :=
        merge_eq_overwrite (by rwa [hrow.names]) (by rw [hrow.names]; exact hc.1)
      refine ⟨?_, Option.some_ne_none _⟩
      simp only [Option.map_some, Option.elim_some, hmerge, allStored, OrdMap.map_put]
  | insert key values =>
    refine ⟨?_, id⟩
    rw [MergeRows.call, RecordStore.call, allStored, allStored, OrdMap.map_put]
  | delete key =>
    refine ⟨?_, id⟩
    rw [MergeRows.call, RecordStore.call, allStored, allStored, OrdMap.map_del]

/-- What the events of a run need so that the two paths agree at every step. -/
def Hits {ω : Type} (schema : List Bytes) (m : OrdMap Bytes Row) (e : MergeEvent ω) : Prop :=
  ∀ c, e = .call c → c.Fits schema ∧ (RecordStore.call m c).2 ≠ .status .kNotFound

theorem step_hits (hn : schema.Nodup) {db : M.State} {e : MergeEvent M.Work}
    (h : Holds hM schema db (allStored m) False) (he : Hits schema m e) :
    ∃ db', e.step M schema.length db = .ok (db', (e.onCalls RecordStore.call m).2) ∧
      Holds hM schema db' (allStored (e.onCalls RecordStore.call m).1) False := by
  have ha : ¬ e.Aborts M db ((allStored m).map Prod.fst) := by
    cases e with
    | call c => exact allStored_touches c
    | work w => exact fun hw => (h.work_error hw).1
  obtain ⟨db', hstep, h'⟩ := step_ok hn h (fun c hc => (he c hc).1) ha
  refine ⟨db', ?_⟩
  cases e with
  | call c =>
    obtain ⟨hc, hr⟩ := he c rfl
    obtain ⟨hcall, hmiss⟩ := call_allStored hn (rows_of_holds h) hc hr
    rw [MergeEvent.onCalls, MergeRows.note, hcall] at hstep h'
    exact ⟨hstep, h'.mono fun hbare => hbare.elim id hmiss⟩
  | work w => exact ⟨hstep, h'⟩

theorem legal_hits {ω : Type} : ∀ (es : List (MergeEvent ω)) (m : OrdMap Bytes Row), MergeEvent.Fits schema es →
    Reply.status .kNotFound ∉ (respond RecordStore.call m (MergeEvent.calls es)).2 →
      Legal (MergeEvent.onCalls RecordStore.call) (Hits schema) m es
  | [], _, _, _ => trivial
  | .call c :: es, m, hes, hr => by
    have hcalls : MergeEvent.calls (.call c :: es) = c :: MergeEvent.calls es := rfl
    rw [hcalls, respond, List.mem_cons, not_or] at hr
    refine ⟨?_, legal_hits es _ (fun d hd => hes d (List.mem_cons_of_mem c hd)) hr.2⟩
    rintro d hd
    cases hd
    exact ⟨hes c List.mem_cons_self, Ne.symm hr.1⟩
  | .work _ :: es, m, hes, hr => ⟨fun _ hc => (nomatch hc), legal_hits es m hes hr⟩

theorem not_kNotFound : ∀ (cs : List Call) (t : OrdMap Bytes (Bool × Row)),
    Reply.status .kNotFound ∉ (respond MergeRows.call t cs).2
  | [], _ => List.not_mem_nil
  | c :: cs, t => by
    rw [respond, List.mem_cons, not_or]
    refine ⟨?_, not_kNotFound cs _⟩
    cases c with
    | read key fields =>
      rw [MergeRows.call]
      cases t.get key <;> simp
    | scan key len fields => simp [MergeRows.call]
    | update key values => simp [MergeRows.call]
    | insert key values => simp [MergeRows.call]
    | delete key => simp [MergeRows.call]

end

/-- **`MergeSingle` is `UpdateSingle`, wherever RocksDB merges, exactly in the runs in which
`UpdateSingle` finds every record it updates.** -/
theorem merge_agrees_iff (S : KVStore Bytes Bytes) (hS : S.Ordered) (M : MergeStore Bytes Bytes Fault)
    (hM : M.Merges YCSBUpdateMerge.mergeValue) (schema : List Bytes) (hn : schema.Nodup)
    (es : List (MergeEvent M.Work)) (hes : MergeEvent.Fits schema es) :
    ∃ plain rs, exec (RocksdbDB.call S schema.length) S.empty (MergeEvent.calls es) = .ok (plain, rs) ∧
      (Reply.status .kNotFound ∉ rs → ∃ db rs', exec (MergeEvent.step M schema.length) M.empty es = .ok (db, rs') ∧
        rs'.reduceOption = rs ∧ ∀ key, M.get db key = .ok (S.get plain key)) ∧
      ∀ db rs', exec (MergeEvent.step M schema.length) M.empty es = .ok (db, rs') → rs'.reduceOption = rs →
        Reply.status .kNotFound ∉ rs := by
  have hlegal := legal_fits hn (MergeEvent.calls es) OrdMap.empty (fun a ha => absurd ha List.not_mem_nil) hes
  obtain ⟨plain, hplain, hcoupled⟩ := exec_coupled hS hlegal
  refine ⟨plain, _, hplain, fun hr => ?_, fun db rs' hok hrs => ?_⟩
  · have hstep : ∀ (db : M.State) m (e : MergeEvent M.Work), Holds hM schema db (allStored m) False →
        Hits schema m e → ∃ db', MergeEvent.step M schema.length db e =
          .ok (db', (MergeEvent.onCalls RecordStore.call m e).2) ∧
            Holds hM schema db' (allStored (MergeEvent.onCalls RecordStore.call m e).1) False :=
      fun _ _ _ h he => step_hits hn h he
    obtain ⟨db, hok, h⟩ := exec_refines hstep es M.empty OrdMap.empty Holds.empty (legal_hits es _ hes hr)
    obtain ⟨hstate, hreplies⟩ := MergeEvent.respond_onCalls RecordStore.call es OrdMap.empty
    refine ⟨db, _, hok, hreplies, fun key => ?_⟩
    rw [h.get, hstate, hcoupled.get, allStored, OrdMap.get_map]
    cases (respond RecordStore.call OrdMap.empty (MergeEvent.calls es)).1.get key <;> rfl
  · obtain ⟨t, bare, -, -, -, hreplies⟩ := exec_holds hM hn hes hok
    rw [← hrs, ← hreplies]
    exact not_kNotFound _ _

theorem merge_agrees_iff_joined : ∃ db rs,
    exec (MergeEvent.step (Groups.store Bytes YCSBUpdateMerge.mergeValue) 2) OrdMap.empty
      [.call (.insert [7] [([97], [0]), ([98], [0])]), .call (.update [7] [([98], [1])]),
        .call (.update [7] [([98], [2]), ([97], [3])]), .work ([7], 1), .call (.read [7] none)] = .ok (db, rs) ∧
    rs.reduceOption = [.status .kOK, .status .kOK, .status .kOK, .row .kOK [([97], [3]), ([98], [2])]] := by
  have hfits : MergeEvent.Fits [[97], [98]] ([.call (.insert [7] [([97], [0]), ([98], [0])]),
      .call (.update [7] [([98], [1])]), .call (.update [7] [([98], [2]), ([97], [3])]), .work ([7], 1),
      .call (.read [7] none)] : List (MergeEvent (Bytes × ℕ))) := by
    intro c hc
    rcases List.mem_cons.mp hc with rfl | hc
    · exact ⟨rfl, by simp [Sized]⟩
    rcases List.mem_cons.mp hc with rfl | hc
    · exact ⟨by decide, by decide, by simp [Sized]⟩
    rcases List.mem_cons.mp hc with rfl | hc
    · exact ⟨by decide, by decide, by simp [Sized]⟩
    obtain rfl := List.mem_singleton.mp hc
    exact fun fs hfs => by cases hfs
  obtain ⟨plain, rs, hplain, hagree, _⟩ := merge_agrees_iff (OrdMap.store Bytes Bytes)
    (OrdMap.storeOrdered Bytes Bytes) (Groups.store Bytes YCSBUpdateMerge.mergeValue) (Groups.merges Bytes _)
    [[97], [98]] (by decide) _ hfits
  obtain ⟨db, hserial, _⟩ := exec_coupled (OrdMap.storeOrdered Bytes Bytes)
    (legal_fits (by decide) _ OrdMap.empty (fun a ha => absurd ha List.not_mem_nil) hfits)
  obtain ⟨rfl, rfl⟩ := Prod.mk.inj (Except.ok.inj (hserial.symm.trans hplain))
  obtain ⟨db, rs', hok, hrs, _⟩ := hagree (by decide)
  exact ⟨db, rs', hok, hrs⟩

end MergeDB

end Ycsb
