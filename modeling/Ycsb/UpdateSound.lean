import Ycsb.Lib.GetPut
import Ycsb.RocksdbSound
import Ycsb.Update

/-!
# Which updates survive

The clients refine a shared row that each gets, overwrites and puts. The row at
the end is that of the updates in the provenance of the last `Put`.
-/

namespace Ycsb

open Lib DB

/-! ## One client's change -/

theorem rowBytes_injective {row row' : Row} (hs : Sized row) (hs' : Sized row') (h : rowBytes row = rowBytes row') :
    row = row' := by
  have hd := RocksdbDB.deserializeRow_rowBytes hs
  rw [h, RocksdbDB.deserializeRow_rowBytes hs', Except.ok.injEq, Prod.mk.injEq] at hd
  exact hd.1.symm

structure RowOf (fields : List Bytes) (row : Row) : Prop where
  names : names row = fields
  sized : Sized row

theorem RowOf.overwrite {fields : List Bytes} {row values : Row} (h : RowOf fields row) (hs : Sized values) :
    RowOf fields (overwrite row values) := by
  refine ⟨by rw [names_overwrite, h.names], fun f hf => ?_⟩
  rcases mem_overwrite hf with hf | ⟨hf, _⟩
  · exact hs f hf
  · exact h.sized f hf

theorem RowOf.foldl {ι : Type} {fields : List Bytes} {values : ι → Row} (hs : ∀ i, Sized (values i)) :
    ∀ (is : List ι) {row : Row}, RowOf fields row →
      RowOf fields (is.foldl (fun row i => Lib.overwrite row (values i)) row)
  | [], _, h => h
  | i :: is, _, h => RowOf.foldl hs is (h.overwrite (hs i))

theorem RowOf.wf {fields : List Bytes} {row : Row} (h : RowOf fields row) (hn : fields.Nodup) :
    RecordStore.Wf fields.length row where
  length := by rw [← h.names, List.length_map]
  nodup := by rwa [h.names]
  sized := h.sized

theorem modify_rowBytes (b : Binding) {fields : List Bytes} (hn : fields.Nodup) {row values : Row}
    (h : RowOf fields row) (hv : names values ⊆ fields) :
    b.modify fields.length values (rowBytes row) = .ok (rowBytes (overwrite row values)) := by
  have hfold := RocksdbDB.foldlM_updateField values row (h.names ▸ hn) fun f hf => by
    rw [h.names]
    exact hv (List.mem_map_of_mem hf)
  cases b with
  | rocksdb =>
    simp only [Binding.modify, RocksdbDB.updateData, RocksdbDB.deserializeFull_rowBytes (h.wf hn), bind,
      Except.bind, hfold, RocksdbDB.serializeRow_eq, List.nil_append]
    rfl
  | leveldb =>
    simp only [Binding.modify, LeveldbDB.updateEntry, LeveldbDB.deserializeRow, LeveldbDB.serializeRow,
      RocksdbDB.deserializeFull_rowBytes (h.wf hn), bind, Except.bind, hfold, RocksdbDB.serializeRow_eq, List.nil_append]
    rfl

namespace Updates

section
variable {ι : Type} [DecidableEq ι] {b : Binding} {S : KVStore Bytes Bytes} {key : Bytes} {fields : List Bytes}
  {values : ι → Row}

/-! ## One client -/

theorem update_eq (b : Binding) (S : KVStore Bytes Bytes) (fieldcount : ℕ) (db : S.State) (key : Bytes) (row : Row) :
    b.update S fieldcount db key row =
      match S.get db key with
      | none => .ok (.kNotFound, db)
      | some data => (b.modify fieldcount row data).map fun data => (.kOK, S.put db key data) := by
  cases b with
  | leveldb =>
    simp only [Binding.update, Binding.modify, LeveldbDB.updateSingleEntry]
    cases S.get db key with
    | none => rfl
    | some data =>
      simp only [bind, Except.bind]
      cases LeveldbDB.updateEntry fieldcount row data <;> rfl
  | rocksdb =>
    simp only [Binding.update, Binding.modify, RocksdbDB.updateSingle, RocksdbDB.updateData]
    cases S.get db key with
    | none => rfl
    | some data =>
      simp only [bind, Except.bind]
      cases RocksdbDB.deserializeFull fieldcount [] data with
      | error e => rfl
      | ok current =>
        simp only
        cases row.foldlM RocksdbDB.updateField current <;> rfl

/-- A client that no other one interrupts does what the function does. -/
theorem run_alone {fieldcount : ℕ} {db db' : S.State} {s : Status} {i : ι}
    (h : b.update S fieldcount db key (values i) = .ok (s, db')) : ∃ is : List ι, (∀ j ∈ is, j = i) ∧
      ∃ σ, run (step b fieldcount key values) (init db) is = some σ ∧ σ.db = db' ∧ σ.pc i = .returned s := by
  have hget : step b fieldcount key values (init db) i =
      some { db, pc := Function.update (fun _ => .start) i (afterGet b fieldcount (values i) (S.get db key)) } := rfl
  rw [update_eq] at h
  cases hdata : S.get db key with
  | none =>
    simp only [hdata, Except.ok.injEq, Prod.mk.injEq] at h
    refine ⟨[i], fun j hj => List.mem_singleton.mp hj, _, (run_cons_some _).mpr ⟨_, hget, rfl⟩, h.2, ?_⟩
    simp [hdata, afterGet, h.1]
  | some data =>
    cases hmod : b.modify fieldcount (values i) data with
    | error e => simp [hdata, hmod, Except.map] at h
    | ok data' =>
      simp only [hdata, hmod, Except.map, Except.ok.injEq, Prod.mk.injEq] at h
      simp only [hdata, afterGet, hmod] at hget
      have hput : step b fieldcount key values
          { db, pc := Function.update (fun _ => .start) i (.modified data') } i =
            some { db := S.put db key data', pc := Function.update (fun _ => .start) i (.returned .kOK) } := by
        simp only [step, Function.update_self, Function.update_idem]
      refine ⟨[i, i], by simp, _, (run_cons_some _).mpr ⟨_, hget, (run_cons_some _).mpr ⟨_, hput, rfl⟩⟩, h.2, ?_⟩
      simp [h.1]

/-! ## Refinement -/

inductive PcOf (fields : List Bytes) : UpdatePc → GetPut Row → Prop where
  | start : PcOf fields .start .start
  | modified {row : Row} (h : RowOf fields row) : PcOf fields (.modified (rowBytes row)) (.holding row)
  | returned : PcOf fields (.returned .kOK) .done

structure Refines (key : Bytes) (fields : List Bytes) (s : Updates S ι) (t : Shared ι Row) : Prop where
  stored : S.get s.db key = some (rowBytes t.cell)
  row : RowOf fields t.cell
  pc : ∀ i, PcOf fields (s.pc i) (t.client i)

theorem Refines.step (hS : S.Ordered) (hn : fields.Nodup) (hv : ∀ i, names (values i) ⊆ fields ∧ Sized (values i))
    {s : Updates S ι} {t t' : Shared ι Row} {i : ι} (h : Refines key fields s t)
    (hstep : Shared.step (fun i row => overwrite row (values i)) t i = some t') :
    ∃ s', Updates.step b fields.length key values s i = some s' ∧ Refines key fields s' t' := by
  have hupdate : ∀ {p x}, PcOf fields p x → ∀ j,
      PcOf fields (Function.update s.pc i p j) (Function.update t.client i x j) := by
    intro p x hp j
    by_cases hj : j = i
    · subst hj
      rwa [Function.update_self, Function.update_self]
    · rw [Function.update_of_ne hj, Function.update_of_ne hj]
      exact h.pc j
  have hi := h.pc i
  rcases Shared.step_cases hstep with ⟨hc, rfl⟩ | ⟨row, hc, rfl⟩
  · rw [hc] at hi
    cases hp : s.pc i <;> rw [hp] at hi <;> cases hi
    refine ⟨{ s with pc := Function.update s.pc i (afterGet b fields.length (values i) (S.get s.db key)) },
      by simp only [Updates.step, hp], h.stored, h.row, hupdate ?_⟩
    rw [h.stored]
    simp only [afterGet, modify_rowBytes b hn h.row (hv i).1]
    exact .modified (h.row.overwrite (hv i).2)
  · rw [hc] at hi
    cases hp : s.pc i <;> rw [hp] at hi <;> cases hi
    rename_i hrow
    refine ⟨{ db := S.put s.db key (rowBytes row), pc := Function.update s.pc i (.returned .kOK) },
      by simp only [Updates.step, hp], ?_, hrow, hupdate .returned⟩
    rw [hS.get_eq, hS.abs_put, OrdMap.get_put, if_pos rfl]

theorem Refines.run (hS : S.Ordered) (hn : fields.Nodup) (hv : ∀ i, names (values i) ⊆ fields ∧ Sized (values i)) :
    ∀ {is : List ι} {s : Updates S ι} {t t' : Shared ι Row}, Refines key fields s t →
      run (Shared.step fun i row => overwrite row (values i)) t is = some t' →
      ∃ s', run (Updates.step b fields.length key values) s is = some s' ∧ Refines key fields s' t'
  | [], s, t, t', h, hrun => by
    cases hrun
    exact ⟨s, rfl, h⟩
  | i :: is, s, t, t', h, hrun => by
    obtain ⟨u, hu, hrun⟩ := (run_cons_some _).mp hrun
    obtain ⟨s', hs', h'⟩ := h.step (b := b) hS hn hv hu
    obtain ⟨s'', hs'', h''⟩ := h'.run hS hn hv hrun
    exact ⟨s'', (run_cons_some _).mpr ⟨s', hs', hs''⟩, h''⟩

theorem run_provenance (hS : S.Ordered) (hn : fields.Nodup) (hv : ∀ i, names (values i) ⊆ fields ∧ Sized (values i))
    {schedule : List ι} (hsched : ∀ i, schedule.count i = 2) {row : Row} {db : S.State} (hrow : RowOf fields row)
    (hdb : S.get db key = some (rowBytes row)) :
    ∃ s, run (Updates.step b fields.length key values) (init db) schedule = some s ∧
      (∀ i, s.pc i = .returned .kOK) ∧
      S.get s.db key = some (rowBytes (overwrite row ((Shared.provenance schedule).flatMap values))) := by
  obtain ⟨t, ht, hdone, hcell⟩ := Shared.run_provenance (f := fun i row => overwrite row (values i)) hsched row
  have hinit : Refines key fields (init db) (Shared.init (ι := ι) row) := ⟨hdb, hrow, fun _ => .start⟩
  obtain ⟨s, hs, h⟩ := hinit.run (b := b) hS hn hv ht
  refine ⟨s, hs, fun i => ?_, ?_⟩
  · have hi := h.pc i
    rw [hdone i] at hi
    cases hp : s.pc i <;> rw [hp] at hi <;> cases hi
    rfl
  · rw [h.stored, hcell, foldl_overwrite]

/-! ## Some order -/

def sequential (values : ι → Row) (row : Row) (order : List ι) : Row :=
  order.foldl (fun row i => overwrite row (values i)) row

/-- All clients return `kOK`, and the record is that of the updates in some order.
When they share no field, every new value is in it. -/
def Applied (b : Binding) (S : KVStore Bytes Bytes) (fieldcount : ℕ) (key : Bytes) (values : ι → Row)
    (schedule : List ι) (row : Row) (db : S.State) : Prop :=
  ∃ s, run (Updates.step b fieldcount key values) (init db) schedule = some s ∧ (∀ i, s.pc i = .returned .kOK) ∧
    ∃ row', S.get s.db key = some (RocksdbDB.serializeRow row' []) ∧
      (∃ order : List ι, order.Nodup ∧ (∀ i, i ∈ order) ∧ row' = sequential values row order) ∧
      ((∀ i j, i ≠ j → List.Disjoint (names (values i)) (names (values j))) → ∀ i, values i ⊆ row')

/-- Every field that is updated is also updated by a client in the provenance of the last `Put`. -/
def Covers (sets : ι → List Bytes) (schedule : List ι) : Prop :=
  ∀ i, ∀ f ∈ sets i, ∃ j ∈ Shared.provenance schedule, f ∈ sets j

omit [DecidableEq ι] in
theorem names_flatMap (values : ι → Row) (is : List ι) :
    names (is.flatMap values) = is.flatMap fun i => names (values i) :=
  List.map_flatMap

omit [DecidableEq ι] in
theorem subset_sequential {order : List ι} {row : Row} (horder : order.Nodup) (hmem : ∀ i, i ∈ order)
    (hrow : RowOf fields row) (hsets : ∀ i, (names (values i)).Nodup ∧ names (values i) ⊆ fields)
    (hdisj : ∀ i j, i ≠ j → List.Disjoint (names (values i)) (names (values j))) (i : ι) :
    values i ⊆ sequential values row order := by
  have hnodup : (names (order.flatMap values)).Nodup := by
    rw [names_flatMap]
    exact List.nodup_flatMap.mpr ⟨fun i _ => (hsets i).1, horder.imp fun hij => hdisj _ _ hij⟩
  have hsub : names (order.flatMap values) ⊆ names row := by
    rw [names_flatMap, hrow.names]
    intro f hf
    obtain ⟨i, _, hf⟩ := List.mem_flatMap.mp hf
    exact (hsets i).2 hf
  rw [sequential, foldl_overwrite]
  exact fun f hf => subset_overwrite hnodup hsub (List.mem_flatMap.mpr ⟨i, hmem i, hf⟩)

theorem applied_of_covers (hS : S.Ordered) (hn : fields.Nodup)
    (hv : ∀ i, ((names (values i)).Nodup ∧ names (values i) ⊆ fields) ∧ Sized (values i)) {schedule : List ι}
    (hsched : ∀ i, schedule.count i = 2) (hcov : Covers (fun i => names (values i)) schedule) {row : Row}
    {db : S.State} (hrow : RowOf fields row) (hdb : S.get db key = some (rowBytes row)) :
    Applied b S fields.length key values schedule row db := by
  obtain ⟨s, hs, hdone, hget⟩ := run_provenance (b := b) hS hn (fun i => ⟨(hv i).1.2, (hv i).2⟩) hsched hrow hdb
  have hmem : ∀ i, i ∈ Shared.lostFirst schedule := fun i =>
    Shared.mem_lostFirst (List.count_pos_iff.mp (by rw [hsched i]; exact Nat.two_pos))
  have hseq : overwrite row ((Shared.provenance schedule).flatMap values) =
      sequential values row (Shared.lostFirst schedule) := by
    rw [sequential, foldl_overwrite, Shared.lostFirst, List.flatMap_append, overwrite_append, overwrite_overwrite]
    intro f hf
    rw [names_flatMap, List.mem_flatMap] at hf ⊢
    obtain ⟨i, _, hf⟩ := hf
    exact hcov i f hf
  refine ⟨s, hs, hdone, _, ?_, ⟨_, Shared.lostFirst_nodup schedule, hmem, rfl⟩, fun hdisj i => ?_⟩
  · rw [hget, hseq, RocksdbDB.serializeRow_eq, List.nil_append]
  · exact subset_sequential (Shared.lostFirst_nodup schedule) hmem hrow (fun i => (hv i).1) hdisj i

/-! ## The converse -/

def filled (value : Bytes) (fields : List Bytes) : Row := fields.map fun f => (f, value)

theorem names_filled (value : Bytes) (fields : List Bytes) : names (filled value fields) = fields := by
  simp [filled, names, Function.comp_def]

theorem sized_filled {value : Bytes} {fields : List Bytes} (hvalue : value.length < 2 ^ 32)
    (hlen : ∀ f ∈ fields, f.length < 2 ^ 32) : Sized (filled value fields) := by
  intro a ha
  obtain ⟨f, hf, rfl⟩ := List.mem_map.mp ha
  exact ⟨hlen f hf, hvalue⟩

theorem eq_of_mem_filled {value f g : Bytes} {fields : List Bytes} (h : (f, g) ∈ filled value fields) :
    f ∈ fields ∧ g = value := by
  obtain ⟨f', hf', heq⟩ := List.mem_map.mp h
  cases heq
  exact ⟨hf', rfl⟩

omit [DecidableEq ι] in
theorem mem_sequential_filled {sets : ι → List Bytes} {order : List ι} (hmem : ∀ i, i ∈ order) (value : Bytes)
    {row : Row} (hsets : ∀ i, sets i ⊆ names row) {i : ι} {f : Bytes} (hf : f ∈ sets i) :
    (f, value) ∈ sequential (fun i => filled value (sets i)) row order := by
  rw [sequential, foldl_overwrite]
  refine mem_overwrite_of_forall (hsets i hf) ?_ fun a ha _ => ?_
  · rw [names_flatMap, List.mem_flatMap]
    exact ⟨i, hmem i, by rwa [names_filled]⟩
  · obtain ⟨j, _, ha⟩ := List.mem_flatMap.mp ha
    exact (eq_of_mem_filled ha).2

/-- What is tested with: all fields empty at first, and each client sets its fields to `[1]`. -/
theorem covers_of_applied (hS : S.Ordered) (hn : fields.Nodup) (hlen : ∀ f ∈ fields, f.length < 2 ^ 32)
    {sets : ι → List Bytes} (hsets : ∀ i, sets i ⊆ fields) {schedule : List ι} (hsched : ∀ i, schedule.count i = 2)
    {db : S.State} (hdb : S.get db key = some (rowBytes (filled [] fields)))
    (happ : Applied b S fields.length key (fun i => filled [1] (sets i)) schedule (filled [] fields) db) :
    Covers sets schedule := by
  have hrow : RowOf fields (filled [] fields) := ⟨names_filled .., sized_filled (by decide) hlen⟩
  have hsized : ∀ i, Sized (filled [1] (sets i)) := fun i =>
    sized_filled (by decide) fun f hf => hlen f (hsets i hf)
  have hnames : ∀ i, names (filled [1] (sets i)) ⊆ fields := fun i => by
    rw [names_filled]
    exact hsets i
  obtain ⟨s, hs, _, hget⟩ := run_provenance (b := b) hS hn (fun i => ⟨hnames i, hsized i⟩) hsched hrow hdb
  obtain ⟨s', hs', _, row', hget', ⟨order, _, hmem, rfl⟩, _⟩ := happ
  rw [hs, Option.some.injEq] at hs'
  subst hs'
  rw [hget, RocksdbDB.serializeRow_eq, List.nil_append, Option.some.injEq] at hget'
  have hseq : Sized (sequential (fun i => filled [1] (sets i)) (filled [] fields) order) :=
    (RowOf.foldl hsized order hrow).sized
  have heq := rowBytes_injective ?_ hseq hget'
  · intro i f hf
    have hin := mem_sequential_filled hmem [1] (fun i => hrow.names ▸ hsets i) hf
    rw [← heq] at hin
    rcases mem_overwrite hin with hin | ⟨hin, _⟩
    · obtain ⟨j, hj, hin⟩ := List.mem_flatMap.mp hin
      exact ⟨j, hj, (eq_of_mem_filled hin).1⟩
    · cases (eq_of_mem_filled hin).2
  · rw [← foldl_overwrite]
    exact (RowOf.foldl hsized _ hrow).sized

/-- **Exactly the schedules whose last `Put` builds on every updated field apply
the updates in some order**, whatever the row and the new values. -/
theorem applied_iff (b : Binding) (hS : S.Ordered) (key : Bytes) (hn : fields.Nodup)
    (hlen : ∀ f ∈ fields, f.length < 2 ^ 32) {sets : ι → List Bytes} (hsets : ∀ i, (sets i).Nodup ∧ sets i ⊆ fields)
    {schedule : List ι} (hsched : ∀ i, schedule.count i = 2) :
    (∀ row values db, RowOf fields row → (∀ i, RowOf (sets i) (values i)) →
      S.get db key = some (RocksdbDB.serializeRow row []) →
      Applied b S fields.length key values schedule row db) ↔ Covers sets schedule := by
  constructor
  · intro happ
    have hget : ∀ row, S.get (S.put S.empty key (rowBytes row)) key = some (rowBytes row) := fun row => by
      rw [hS.get_eq, hS.abs_put, OrdMap.get_put, if_pos rfl]
    refine covers_of_applied (b := b) hS hn hlen (fun i => (hsets i).2) hsched (hget _) (happ _ _ _ ?_ ?_ ?_)
    · exact ⟨names_filled .., sized_filled (by decide) hlen⟩
    · exact fun i => ⟨names_filled .., sized_filled (by decide) fun f hf => hlen f ((hsets i).2 hf)⟩
    · rw [hget, RocksdbDB.serializeRow_eq, List.nil_append]
  · intro hcov row values db hrow hvalues hdb
    rw [RocksdbDB.serializeRow_eq, List.nil_append] at hdb
    refine applied_of_covers hS hn (fun i => ⟨?_, (hvalues i).sized⟩) hsched ?_ hrow hdb
    · rw [(hvalues i).names]
      exact hsets i
    · have heq : (fun i => names (values i)) = sets := funext fun i => (hvalues i).names
      rwa [heq]

/-- Clients one after the other lose nothing. -/
theorem covers_serial {sets : ι → List Bytes} {order : List ι} (hn : order.Nodup) (hmem : ∀ i, i ∈ order) :
    Covers sets (order.flatMap fun i => [i, i]) := by
  intro i f hf
  rw [Shared.provenance_serial hn]
  exact ⟨i, hmem i, hf⟩

end

/-- One client after the other. -/
theorem applied_iff_serial : ∃ db,
    (OrdMap.store Bytes Bytes).get db [117] = some (RocksdbDB.serializeRow (filled [] [[97], [98]]) []) ∧
      Applied .leveldb (OrdMap.store Bytes Bytes) 2 [117] (fun i : Bool => filled [1] [if i then [98] else [97]])
        [false, false, true, true] (filled [] [[97], [98]]) db := by
  have hcovers : Covers (fun i : Bool => [if i then [98] else [97]]) [false, false, true, true] :=
    @covers_serial Bool _ _ [false, true] (by decide) (by decide)
  have hnodup : ([[97], [98]] : List Bytes).Nodup := by decide
  have happlied := (applied_iff .leveldb (OrdMap.storeOrdered Bytes Bytes) [117] hnodup (by decide) (by decide)
    (by decide)).mpr hcovers
  refine ⟨OrdMap.empty.put [117] (RocksdbDB.serializeRow (filled [] [[97], [98]]) []), rfl, happlied _ _ _ ?_ ?_ rfl⟩
  · exact ⟨names_filled .., sized_filled (by decide) (by decide)⟩
  · exact fun i => ⟨names_filled .., sized_filled (by decide) (by cases i <;> decide)⟩

/-- Both clients get the record before either puts it: the first `Put` is lost, with its field. -/
theorem update_lost : RowOf [[97], [98]] (filled [] [[97], [98]]) ∧
    (∀ i : Bool, RowOf [if i then [98] else [97]] (filled [1] [if i then [98] else [97]])) ∧
    ∃ db, (OrdMap.store Bytes Bytes).get db [117] = some (RocksdbDB.serializeRow (filled [] [[97], [98]]) []) ∧
      ¬ Applied .rocksdb (OrdMap.store Bytes Bytes) 2 [117] (fun i : Bool => filled [1] [if i then [98] else [97]])
        [false, true, false, true] (filled [] [[97], [98]]) db := by
  have hdb : (OrdMap.store Bytes Bytes).get ((OrdMap.store Bytes Bytes).put OrdMap.empty [117]
      (rowBytes (filled [] [[97], [98]]))) [117] = some (rowBytes (filled [] [[97], [98]])) := by
    rw [(OrdMap.storeOrdered Bytes Bytes).get_eq]
    exact (OrdMap.get_put _ _ _ _).trans (if_pos rfl)
  refine ⟨⟨names_filled .., sized_filled (by decide) (by decide)⟩,
    fun i => ⟨names_filled .., sized_filled (by decide) (by cases i <;> decide)⟩,
    (OrdMap.store Bytes Bytes).put OrdMap.empty [117] (rowBytes (filled [] [[97], [98]])), ?_, fun happ => ?_⟩
  · rw [RocksdbDB.serializeRow_eq, List.nil_append]
    exact hdb
  · have hsets : ∀ i : Bool, [if i then [98] else [97]] ⊆ ([[97], [98]] : List Bytes) := by decide
    have hcov := covers_of_applied (OrdMap.storeOrdered Bytes Bytes) (by decide) (by decide) hsets
      (fun i => by cases i <;> rfl) hdb happ
    have hprov : Shared.provenance [false, true, false, true] = [true] := rfl
    obtain ⟨j, hj, hf⟩ := hcov false [97] (by simp)
    rw [hprov, List.mem_singleton] at hj
    subst hj
    cases List.mem_singleton.mp hf

end Updates

end Ycsb
