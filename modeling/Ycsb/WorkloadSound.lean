import Ycsb.RocksdbSound
import Ycsb.Workload

/-!
# The record schema of a workload run

With `writeallfields` every stored row has the fields of the schema, and no
operation fails an assertion. Without it the inserted row has one field, with an
empty name.
-/

namespace Ycsb

open Lib DB

namespace CoreWorkload

variable {S : KVStore Bytes Bytes} (wl : CoreWorkload)

/-! ## The property -/

def fieldNames : List Bytes := (List.range wl.fieldCount).map wl.fieldName

/-- Every stored value decodes to a row with the fields of the schema, and the
update made last is in the row of its key. -/
structure Schema (s : WorkloadState S) : Prop where
  stored : ∀ key data, S.get s.db key = some data →
    ∃ row, RocksdbDB.deserializeRow [] data = .ok (row, data.length) ∧ names row = wl.fieldNames
  updated : ∀ key values, s.updated = some (key, values) → ∃ data row, S.get s.db key = some data ∧
    RocksdbDB.deserializeRow [] data = .ok (row, data.length) ∧ values ⊆ row

/-- No operation fails, and the schema holds after each. -/
def SchemaHolds (s : WorkloadState S) (es : List WorkloadEvent) : Prop :=
  ∀ es', es' <+: es → ∃ t, es'.foldlM wl.step s = .ok t ∧ wl.Schema t

/-- What the generators can yield: an operation of the mix, a field number
below `fieldcount`, and values whose lengths are of type `int`. -/
structure DrawsOk (d : Draws) : Prop where
  op : d.op ≠ .delete ∧ d.op ≠ .rdidx
  field : d.field < wl.fieldCount
  bytes : ∀ i, (d.bytes i).length < 2 ^ 31

end CoreWorkload

namespace WorkloadEvent

def draws : WorkloadEvent → Draws
  | doInsert d => d
  | doTransaction d => d

def Inserts : WorkloadEvent → Prop
  | doInsert _ => True
  | doTransaction d => d.op = .insert

end WorkloadEvent

namespace CoreWorkload

section
variable {S : KVStore Bytes Bytes} {wl : CoreWorkload} {d : Draws}

/-! ## Field names and built values -/

theorem fieldName_injective : Function.Injective wl.fieldName :=
  fun _ _ h => decimal_injective (List.append_cancel_left h)

theorem fieldNames_nodup : wl.fieldNames.Nodup := List.nodup_range.map fieldName_injective

theorem nextFieldName_mem (hd : wl.DrawsOk d) : wl.nextFieldName d ∈ wl.fieldNames :=
  List.mem_map_of_mem (List.mem_range.mpr hd.field)

theorem names_buildValues : names (wl.buildValues d) = wl.fieldNames := by
  rw [buildValues, names, List.map_map]
  rfl

/-- All fields are written, under names that fit their length. -/
def WritesSchema (wl : CoreWorkload) : Prop :=
  wl.writeAllFields = true ∧ ∀ i < wl.fieldCount, (wl.fieldName i).length < 2 ^ 32

theorem sized_buildValues (hw : wl.WritesSchema) (hd : wl.DrawsOk d) : Sized (wl.buildValues d) := by
  intro f hf
  obtain ⟨i, hi, rfl⟩ := List.mem_map.mp hf
  exact ⟨hw.2 i (List.mem_range.mp hi), Nat.lt_trans (hd.bytes i) (by decide)⟩

theorem newValues_wf (hw : wl.WritesSchema) (hd : wl.DrawsOk d) :
    names (wl.newValues d) = wl.fieldNames ∧ RecordStore.Wf wl.fieldCount (wl.newValues d) := by
  rw [newValues, if_pos hw.1]
  refine ⟨names_buildValues, ?_, by rw [names_buildValues]; exact fieldNames_nodup, sized_buildValues hw hd⟩
  rw [buildValues, List.length_map, List.length_range]

/-! ## The invariant -/

variable (hS : S.Ordered) (wl)

structure Rows (s : WorkloadState S) (m : OrdMap Bytes Row) : Prop where
  coupled : Coupled hS wl.fieldCount s.db m
  schema : ∀ a ∈ m.entries, names a.2 = wl.fieldNames
  updated : ∀ key values, s.updated = some (key, values) → ∃ row, m.get key = some row ∧ values ⊆ row

def Ready (m : OrdMap Bytes Row) : Prop := wl.WritesSchema ∨ m = OrdMap.empty

variable {hS} {wl} {s : WorkloadState S} {m : OrdMap Bytes Row}

theorem Rows.schema_get (h : Rows wl hS s m) {key : Bytes} {row : Row} (hk : m.get key = some row) :
    names row = wl.fieldNames := h.schema _ (OrdMap.mem_of_get hk)

theorem Rows.toSchema (h : Rows wl hS s m) : wl.Schema s := by
  have hread : ∀ key row, m.get key = some row → S.get s.db key = some (rowBytes row) ∧
      RocksdbDB.deserializeRow [] (rowBytes row) = .ok (row, (rowBytes row).length) := by
    intro key row hk
    refine ⟨?_, RocksdbDB.deserializeRow_rowBytes (h.coupled.wf_get hk).sized⟩
    rw [h.coupled.get, hk, Option.map_some]
  refine ⟨fun key data hdata => ?_, fun key values hup => ?_⟩
  · rw [h.coupled.get, Option.map_eq_some_iff] at hdata
    obtain ⟨row, hk, rfl⟩ := hdata
    exact ⟨row, (hread key row hk).2, h.schema_get hk⟩
  · obtain ⟨row, hk, hsub⟩ := h.updated key values hup
    exact ⟨rowBytes row, row, (hread key row hk).1, (hread key row hk).2, hsub⟩

theorem selects_readFields (hd : wl.DrawsOk d) {row : Row} (hrow : names row = wl.fieldNames) :
    RecordStore.Selects (wl.readFields d) row := by
  intro fields hf
  rw [readFields] at hf
  split at hf
  · cases hf
  · simp only [Option.some.injEq] at hf
    subst hf
    rw [hrow, List.singleton_sublist]
    exact nextFieldName_mem hd

/-! ## The operations -/

theorem Rows.overwrites (h : Rows wl hS s m) (hm : wl.Ready m) (hd : wl.DrawsOk d) {key : Bytes} {row : Row}
    (hk : m.get key = some row) : names (wl.newValues d) = names row ∧ Sized (wl.newValues d) ∧
      (names (wl.newValues d)).Nodup := by
  rcases hm with hw | rfl
  · obtain ⟨hnames, hwf⟩ := newValues_wf hw hd
    exact ⟨hnames.trans (h.schema_get hk).symm, hwf.sized, hwf.nodup⟩
  · cases hk

theorem Rows.put {s' : WorkloadState S} (h : Rows wl hS s m) {key : Bytes} {row : Row}
    (hc : Coupled hS wl.fieldCount s'.db (m.put key row)) (hrow : names row = wl.fieldNames)
    (hup : ∀ k values, s'.updated = some (k, values) → k = key ∧ values ⊆ row) :
    Rows wl hS s' (m.put key row) where
  coupled := hc
  schema a ha := by
    rcases OrdMap.mem_put ha with rfl | ha
    · exact hrow
    · exact h.schema a ha
  updated k values hk := by
    obtain ⟨rfl, hsub⟩ := hup k values hk
    exact ⟨row, by rw [OrdMap.get_put, if_pos rfl], hsub⟩

theorem Rows.keep {s' : WorkloadState S} (h : Rows wl hS s m) (hdb : s'.db = s.db) (hup : s'.updated = none) :
    Rows wl hS s' m where
  coupled := hdb ▸ h.coupled
  schema := h.schema
  updated k values hk := by rw [hup] at hk; cases hk

variable (wl) in
theorem step_inserts {e : WorkloadEvent} (hthrown : ¬ s.thrown.isSome) (he : e.Inserts) :
    ∃ s' key, wl.step s e = .ok s' ∧ s'.db = S.put s.db key (RocksdbDB.serializeRow (wl.newValues e.draws) []) ∧
      s'.updated = none := by
  cases e with
  | doInsert d => exact ⟨_, wl.buildKeyName s.insertKeySequence.next.1, if_neg hthrown, rfl, rfl⟩
  | doTransaction d =>
    have hop : d.op = .insert := he
    refine ⟨(transactionInsert wl s d).1, wl.buildKeyName s.transactionInsertKeySequence.next.1, ?_, ?_⟩
    · simp only [step, if_neg hthrown, doTransaction, hop]
      rfl
    · simp only [transactionInsert]
      split <;> exact ⟨rfl, rfl⟩

theorem insert_rows {e : WorkloadEvent} (h : Rows wl hS s m) (hw : wl.WritesSchema) (hd : wl.DrawsOk e.draws)
    (hthrown : ¬ s.thrown.isSome) (he : e.Inserts) :
    ∃ s' m', wl.step s e = .ok s' ∧ Rows wl hS s' m' ∧ wl.Ready m' := by
  obtain ⟨s', key, hstep, hdb, hup⟩ := step_inserts wl hthrown he
  obtain ⟨hnames, hwf⟩ := newValues_wf hw hd
  refine ⟨s', m.put key (wl.newValues e.draws), hstep, h.put ?_ hnames fun k values hk => ?_, Or.inl hw⟩
  · rw [hdb]; exact h.coupled.put key hwf
  · rw [hup] at hk; cases hk

theorem transactionRead_rows (h : Rows wl hS s m) (hd : wl.DrawsOk d) (keyNum : ℕ) :
    ∃ s' status, transactionRead wl s d keyNum = .ok (s', status) ∧ Rows wl hS s' m ∧ s'.thrown = s.thrown := by
  have hsel : ∀ row, m.get (wl.buildKeyName keyNum) = some row → RecordStore.Selects (wl.readFields d) row :=
    fun row hk => selects_readFields hd (h.schema_get hk)
  simp only [transactionRead, readSingle_coupled h.coupled hsel, bind, Except.bind, pure, Except.pure]
  exact ⟨_, _, rfl, h.keep rfl rfl, rfl⟩

theorem transactionScan_rows (h : Rows wl hS s m) (hd : wl.DrawsOk d) (keyNum : ℕ) :
    ∃ s' status, transactionScan wl s d keyNum = .ok (s', status) ∧ Rows wl hS s' m ∧ s'.thrown = s.thrown := by
  have hsel : ∀ a ∈ (m.entries.filter fun a => decide (wl.buildKeyName keyNum ≤ a.1)).take
      (toInt (d.scanLen % 2 ^ 32)).toNat, RecordStore.Selects (wl.readFields d) a.2 :=
    fun a ha => selects_readFields hd (h.schema a (List.mem_of_mem_filter (List.mem_of_mem_take ha)))
  simp only [transactionScan, scanSingle_coupled h.coupled hsel, bind, Except.bind, pure, Except.pure]
  exact ⟨_, _, rfl, h.keep rfl rfl, rfl⟩

theorem transactionUpdate_rows (h : Rows wl hS s m) (hm : wl.Ready m) (hd : wl.DrawsOk d) (keyNum : ℕ) :
    ∃ s' m' status, transactionUpdate wl s d keyNum = .ok (s', status) ∧ Rows wl hS s' m' ∧ wl.Ready m' ∧
      s'.thrown = s.thrown := by
  have hv : ∀ row, m.get (wl.buildKeyName keyNum) = some row →
      Sized (wl.newValues d) ∧ ∀ f ∈ wl.newValues d, f.1 ∈ names row := by
    intro row hk
    obtain ⟨hnames, hs, _⟩ := h.overwrites hm hd hk
    exact ⟨hs, fun f hf => hnames ▸ List.mem_map_of_mem hf⟩
  obtain ⟨db', hup, hc⟩ := updateSingle_coupled h.coupled hv
  simp only [transactionUpdate, hup, bind, Except.bind, pure, Except.pure]
  cases hk : m.get (wl.buildKeyName keyNum) with
  | none =>
    have hc' : Coupled hS wl.fieldCount db' m := by
      rw [RecordStore.call, hk] at hc
      exact hc
    exact ⟨_, m, _, rfl, ⟨hc', h.schema, fun _ _ hk => by cases hk⟩, hm, rfl⟩
  | some row =>
    obtain ⟨hnames, _, hn⟩ := h.overwrites hm hd hk
    rw [RecordStore.call, hk] at hc
    refine ⟨_, m.put _ (overwrite row (wl.newValues d)), _, rfl, h.put hc ?_ ?_, ?_, rfl⟩
    · rw [names_overwrite, h.schema_get hk]
    · intro k values hval
      cases hval
      exact ⟨rfl, subset_overwrite hn (hnames ▸ List.Subset.refl _)⟩
    · rcases hm with hw | rfl
      · exact Or.inl hw
      · cases hk

theorem transactionReadModifyWrite_rows (h : Rows wl hS s m) (hm : wl.Ready m) (hd : wl.DrawsOk d) (keyNum : ℕ) :
    ∃ s' m' status, transactionReadModifyWrite wl s d keyNum = .ok (s', status) ∧ Rows wl hS s' m' ∧ wl.Ready m' ∧
      s'.thrown = s.thrown := by
  obtain ⟨s₁, status, hread, h₁, ht₁⟩ := transactionRead_rows h hd keyNum
  obtain ⟨s₂, m₂, status₂, hup, h₂, hm₂, ht₂⟩ := transactionUpdate_rows h₁ hm hd keyNum
  refine ⟨s₂, m₂, status₂, ?_, h₂, hm₂, ht₂.trans ht₁⟩
  simp only [transactionReadModifyWrite, hread, bind, Except.bind, hup]

theorem withKey_rows (h : Rows wl hS s m) (hm : wl.Ready m)
    {f : ℕ → Except Fault (WorkloadState S × Status)}
    (hf : ∀ keyNum, ∃ s' m' status, f keyNum = .ok (s', status) ∧ Rows wl hS s' m' ∧ wl.Ready m' ∧
      s'.thrown = s.thrown) :
    ∃ s' m', (withKey s d f).map Prod.fst = .ok s' ∧ Rows wl hS s' m' ∧ wl.Ready m' ∧ s'.thrown = s.thrown := by
  unfold withKey
  cases nextTransactionKeyNum d s.transactionInsertKeySequence with
  | none => exact ⟨_, m, rfl, h.keep rfl rfl, hm, rfl⟩
  | some keyNum =>
    obtain ⟨s', m', status, heq, h', hm', ht⟩ := hf keyNum
    exact ⟨s', m', by simp only [heq, Except.map], h', hm', ht⟩

theorem doTransaction_rows (h : Rows wl hS s m) (hm : wl.Ready m) (hd : wl.DrawsOk d)
    (hthrown : ¬ s.thrown.isSome) (hins : ¬ (WorkloadEvent.doTransaction d).Inserts) :
    ∃ s' m', wl.step s (.doTransaction d) = .ok s' ∧ Rows wl hS s' m' ∧ wl.Ready m' ∧
      (¬ (WorkloadEvent.doTransaction d).Inserts → s'.thrown = s.thrown) := by
  have hkeep : ∀ {f : ℕ → Except Fault (WorkloadState S × Status)},
      (∀ keyNum, ∃ s' status, f keyNum = .ok (s', status) ∧ Rows wl hS s' m ∧ s'.thrown = s.thrown) →
      ∀ keyNum, ∃ s' m' status, f keyNum = .ok (s', status) ∧ Rows wl hS s' m' ∧ wl.Ready m' ∧
        s'.thrown = s.thrown := by
    intro f hf keyNum
    obtain ⟨s', status, heq, h', ht⟩ := hf keyNum
    exact ⟨s', m, status, heq, h', hm, ht⟩
  rw [step, if_neg hthrown, doTransaction]
  cases hop : d.op with
  | insert => exact absurd hop hins
  | read =>
    obtain ⟨s', m', heq, h', hm', ht⟩ := withKey_rows (d := d) h hm (hkeep (transactionRead_rows h hd))
    exact ⟨s', m', heq, h', hm', fun _ => ht⟩
  | scan =>
    obtain ⟨s', m', heq, h', hm', ht⟩ := withKey_rows (d := d) h hm (hkeep (transactionScan_rows h hd))
    exact ⟨s', m', heq, h', hm', fun _ => ht⟩
  | update =>
    obtain ⟨s', m', heq, h', hm', ht⟩ := withKey_rows (d := d) h hm (transactionUpdate_rows h hm hd)
    exact ⟨s', m', heq, h', hm', fun _ => ht⟩
  | readModifyWrite =>
    obtain ⟨s', m', heq, h', hm', ht⟩ := withKey_rows (d := d) h hm (transactionReadModifyWrite_rows h hm hd)
    exact ⟨s', m', heq, h', hm', fun _ => ht⟩
  | delete => exact absurd hop hd.op.1
  | rdidx => exact absurd hop hd.op.2

theorem step_rows {e : WorkloadEvent} (h : Rows wl hS s m) (hm : wl.Ready m) (hd : wl.DrawsOk e.draws)
    (he : wl.WritesSchema ∨ ¬ e.Inserts) :
    ∃ s' m', wl.step s e = .ok s' ∧ Rows wl hS s' m' ∧ wl.Ready m' ∧ (¬ e.Inserts → s'.thrown = s.thrown) := by
  by_cases hthrown : s.thrown.isSome
  · refine ⟨s, m, ?_, h, hm, fun _ => rfl⟩
    cases e <;> exact if_pos hthrown
  · by_cases hins : e.Inserts
    · obtain ⟨s', m', hstep, h', hm'⟩ := insert_rows h (he.resolve_right fun hn => hn hins) hd hthrown hins
      exact ⟨s', m', hstep, h', hm', fun hn => absurd hins hn⟩
    · cases e with
      | doInsert d => exact absurd trivial hins
      | doTransaction d => exact doTransaction_rows h hm hd hthrown hins

/-! ## Runs -/

theorem run_rows {es : List WorkloadEvent} (hd : ∀ e ∈ es, wl.DrawsOk e.draws)
    (he : wl.WritesSchema ∨ ∀ e ∈ es, ¬ e.Inserts) : ∀ {s : WorkloadState S} {m : OrdMap Bytes Row},
    Rows wl hS s m → wl.Ready m → ∃ t m', es.foldlM wl.step s = .ok t ∧ Rows wl hS t m' ∧ wl.Ready m' ∧
      ((∀ e ∈ es, ¬ e.Inserts) → t.thrown = s.thrown) := by
  induction es with
  | nil => exact fun h hm => ⟨_, _, rfl, h, hm, fun _ => rfl⟩
  | cons e es ih =>
    intro s m h hm
    have he' : wl.WritesSchema ∨ ¬ e.Inserts := he.imp_right fun hn => hn e List.mem_cons_self
    obtain ⟨s', m', hstep, h', hm', ht'⟩ := step_rows h hm (hd e List.mem_cons_self) he'
    obtain ⟨t, m'', hrun, h'', hm'', ht''⟩ := ih (fun e he => hd e (List.mem_cons_of_mem _ he))
      (he.imp_right fun hn e he => hn e (List.mem_cons_of_mem _ he)) h' hm'
    refine ⟨t, m'', ?_, h'', hm'', fun hn => ?_⟩
    · rw [List.foldlM_cons, hstep]
      exact hrun
    · exact (ht'' fun e he => hn e (List.mem_cons_of_mem _ he)).trans (ht' (hn e List.mem_cons_self))

theorem rows_init (wl : CoreWorkload) (hS : S.Ordered) (insertStart recordCount : ℕ) :
    Rows wl hS (init insertStart recordCount) OrdMap.empty :=
  ⟨coupled_empty, fun _ ha => absurd ha List.not_mem_nil, fun _ _ h => by cases h⟩

theorem writesSchema_of_stored (hd : wl.DrawsOk d) {row : Row}
    (h : RocksdbDB.deserializeRow [] (RocksdbDB.serializeRow (wl.newValues d) []) =
      .ok (row, (RocksdbDB.serializeRow (wl.newValues d) []).length)) (hrow : names row = wl.fieldNames) :
    wl.WritesSchema := by
  have hs := (RocksdbDB.deserializeRow_exact h).2.2
  refine ⟨?_, fun i hi => ?_⟩
  · -- a single value decodes to an empty name, and no field of the schema has one
    by_contra hw
    have hsingle : Sized (buildSingleValue d) := by
      intro f hf
      rw [List.mem_singleton.mp hf]
      exact ⟨Nat.two_pow_pos 32, Nat.lt_trans (hd.bytes 0) (by decide)⟩
    rw [newValues, if_neg hw, RocksdbDB.serializeRow_eq, List.nil_append,
      RocksdbDB.deserializeRow_rowBytes hsingle, Except.ok.injEq, Prod.mk.injEq] at h
    have hmem : ([] : Bytes) ∈ wl.fieldNames := by
      rw [← hrow, ← h.1]
      exact List.mem_singleton_self _
    obtain ⟨i, _, hi⟩ := List.mem_map.mp hmem
    exact decimal_ne_nil i (List.append_eq_nil_iff.mp hi).2
  · have hmem : wl.fieldName i ∈ names row := by
      rw [hrow]
      exact List.mem_map_of_mem (List.mem_range.mpr hi)
    obtain ⟨f, hf, hname⟩ := List.mem_map.mp hmem
    exact hname ▸ (hs f hf).1

theorem first_insert : ∀ {es : List WorkloadEvent}, ¬ (∀ e ∈ es, ¬ e.Inserts) →
    ∃ es₁ e es₂, es = es₁ ++ e :: es₂ ∧ e.Inserts ∧ ∀ e' ∈ es₁, ¬ e'.Inserts
  | [], h => absurd (fun _ he => absurd he List.not_mem_nil) h
  | e :: es, h => by
    by_cases he : e.Inserts
    · exact ⟨[], e, es, rfl, he, fun _ he' => absurd he' List.not_mem_nil⟩
    · obtain ⟨es₁, e', es₂, rfl, he', h₁⟩ := first_insert fun hn => h (List.forall_mem_cons.mpr ⟨he, hn⟩)
      exact ⟨e :: es₁, e', es₂, rfl, he', List.forall_mem_cons.mpr ⟨he, h₁⟩⟩

theorem writesSchema_of_holds (hS : S.Ordered) {insertStart recordCount : ℕ}
    {es : List WorkloadEvent} (hd : ∀ e ∈ es, wl.DrawsOk e.draws)
    (h : wl.SchemaHolds (S := S) (init insertStart recordCount) es) (hins : ¬ ∀ e ∈ es, ¬ e.Inserts) :
    wl.WritesSchema := by
  obtain ⟨es₁, e, es₂, rfl, he, h₁⟩ := first_insert hins
  have hd₁ : ∀ e ∈ es₁, wl.DrawsOk e.draws := fun e he => hd e (List.mem_append_left _ he)
  have hde : wl.DrawsOk e.draws := hd e (by simp)
  obtain ⟨s, m, hrun, _, _, hthrown⟩ := run_rows hd₁ (Or.inr h₁) (rows_init wl hS insertStart recordCount)
    (Or.inr rfl)
  have hthrown : ¬ s.thrown.isSome := by rw [hthrown h₁]; exact Bool.false_ne_true
  obtain ⟨s', key, hstep, hdb, _⟩ := step_inserts wl hthrown he
  obtain ⟨t, ht, hschema⟩ := h (es₁ ++ [e]) ⟨es₂, by rw [List.append_assoc]; rfl⟩
  have hts : t = s' := by
    rw [List.foldlM_append, hrun] at ht
    simp only [bind, Except.bind, List.foldlM_cons, hstep, List.foldlM_nil, pure, Except.pure,
      Except.ok.injEq] at ht
    exact ht.symm
  subst hts
  have hget : S.get t.db key = some (RocksdbDB.serializeRow (wl.newValues e.draws) []) := by
    rw [hdb, hS.get_eq, hS.abs_put, OrdMap.get_put, if_pos rfl]
  obtain ⟨row, hrow, hnames⟩ := hschema.stored key _ hget
  exact writesSchema_of_stored hde hrow hnames

end

/-- **When the schema holds.** In a run of inserts and transactions every stored
value has the fields of the schema, no assertion fails and every update is
written, exactly if all fields are written under names that fit their length, or
no operation inserts a record. -/
theorem schema_holds_iff (S : KVStore Bytes Bytes) (hS : S.Ordered) (wl : CoreWorkload)
    (insertStart recordCount : ℕ) (es : List WorkloadEvent) (hd : ∀ e ∈ es, wl.DrawsOk e.draws) :
    wl.SchemaHolds (S := S) (init insertStart recordCount) es ↔
      (wl.writeAllFields = true ∧ ∀ i < wl.fieldCount, (wl.fieldName i).length < 2 ^ 32) ∨
        ∀ e ∈ es, ¬ e.Inserts := by
  constructor
  · intro h
    by_cases hins : ∀ e ∈ es, ¬ e.Inserts
    · exact Or.inr hins
    · exact Or.inl (writesSchema_of_holds hS hd h hins)
  · intro h es' hes
    have hsub : ∀ e ∈ es', e ∈ es := fun e he => hes.subset he
    obtain ⟨t, m, hrun, hrows, _⟩ := run_rows (fun e he => hd e (hsub e he))
      (h.imp_right fun hn e he => hn e (hsub e he)) (rows_init wl hS insertStart recordCount) (Or.inr rfl)
    exact ⟨t, hrun, hrows.toSchema⟩

theorem schema_holds_two_fields : SchemaHolds (S := OrdMap.store Bytes Bytes)
    { CoreWorkload.default with fieldCount := 2, writeAllFields := true } (init 0 1)
    [.doInsert ⟨.insert, [], 0, 1, fun _ => [65]⟩, .doTransaction ⟨.update, [0], 0, 1, fun _ => [66]⟩] := by
  have hd : ∀ op keyNums b, op ≠ .delete ∧ op ≠ .rdidx →
      DrawsOk { CoreWorkload.default with fieldCount := 2, writeAllFields := true }
        ⟨op, keyNums, 0, 1, fun _ => [b]⟩ := fun _ _ _ hop => ⟨hop, Nat.two_pos, fun _ => by simp⟩
  refine (schema_holds_iff (OrdMap.store Bytes Bytes) (OrdMap.storeOrdered Bytes Bytes) _ 0 1 _ ?_).mpr
    (Or.inl ⟨rfl, by decide⟩)
  intro e he
  simp only [List.mem_cons, List.not_mem_nil, or_false] at he
  rcases he with rfl | rfl
  · exact hd .insert [] 65 (by decide)
  · exact hd .update [0] 66 (by decide)

theorem step_read {S : KVStore Bytes Bytes} {wl : CoreWorkload} {s : WorkloadState S} {d : Draws} {keyNum : ℕ}
    {f : Fault} (hthrown : s.thrown = none) (hop : d.op = .read)
    (hkey : nextTransactionKeyNum d s.transactionInsertKeySequence = some keyNum)
    (hread : transactionRead wl s d keyNum = .error f) : wl.step s (.doTransaction d) = .error f := by
  simp only [step, hthrown, Option.isSome_none, Bool.false_eq_true, if_false, doTransaction, hop, withKey, hkey, hread,
    Except.map]

theorem transactionRead_asserts {S : KVStore Bytes Bytes} {wl : CoreWorkload} {s : WorkloadState S} {d : Draws}
    {keyNum : ℕ} {row : Row} (hget : S.get s.db (wl.buildKeyName keyNum) = some (RocksdbDB.serializeRow row []))
    (hs : Sized row) (hall : wl.readAllFields = true) (hlen : row.length ≠ wl.fieldCount) :
    transactionRead wl s d keyNum = .error .assertion := by
  have hfull : RocksdbDB.deserializeFull wl.fieldCount [] (RocksdbDB.serializeRow row []) = .error .assertion := by
    rw [RocksdbDB.deserializeFull, RocksdbDB.serializeRow_eq, List.nil_append, RocksdbDB.deserializeRow_rowBytes hs]
    exact if_neg hlen
  simp only [transactionRead, RocksdbDB.readSingle, hget, readFields, hall, if_true, RocksdbDB.deserializeSelected,
    hfull, bind, Except.bind]

theorem default_read_asserts :
    [WorkloadEvent.doInsert ⟨.insert, [], 0, 1, fun _ => [65]⟩, .doTransaction ⟨.read, [0], 0, 1, fun _ => []⟩].foldlM
        CoreWorkload.default.step (init 0 1 : WorkloadState (OrdMap.store Bytes Bytes)) =
      .error .assertion := by
  have hs : Sized [(([] : Bytes), ([65] : Bytes))] := by simp [Sized]
  have hinsert : CoreWorkload.default.step (init 0 1 : WorkloadState (OrdMap.store Bytes Bytes))
      (.doInsert ⟨.insert, [], 0, 1, fun _ => [65]⟩) =
      .ok (doInsert CoreWorkload.default (init 0 1) ⟨.insert, [], 0, 1, fun _ => [65]⟩).1 := rfl
  have hget : (OrdMap.store Bytes Bytes).get
      (doInsert CoreWorkload.default (init 0 1) ⟨.insert, [], 0, 1, fun _ => [65]⟩).1.db
      (CoreWorkload.default.buildKeyName 0) = some (RocksdbDB.serializeRow [([], [65])] []) :=
    (OrdMap.get_put ..).trans (if_pos rfl)
  have hkey : nextTransactionKeyNum ⟨.read, [0], 0, 1, fun _ => []⟩ (.init 1) = some 0 := rfl
  have hread := step_read rfl rfl hkey (transactionRead_asserts hget hs rfl (by decide))
  rw [List.foldlM_cons, hinsert]
  change (CoreWorkload.default.step _ (.doTransaction ⟨.read, [0], 0, 1, fun _ => []⟩) >>= pure) = _
  rw [hread]
  rfl

end CoreWorkload

end Ycsb
