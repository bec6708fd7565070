import Ycsb.WorkloadSound

/-!
# Records written as a whole

With all fields written a record is the row of one operation, under a key whose
insert has returned.
-/

namespace Ycsb

open Lib DB

theorem overwrite_all {row values : Row} (hn : (names values).Nodup) (h : names row = names values) :
    overwrite row values = values := by
  have hnames : names (overwrite row values) = names values := (names_overwrite row values).trans h
  have hsub : values ⊆ overwrite row values := subset_overwrite hn (h ▸ List.Subset.refl _)
  exact eq_of_names (by rwa [hnames]) (List.Subset.refl _) hsub hnames

section
variable {S : KVStore Bytes Bytes} (wl : CoreWorkload) (hS : S.Ordered) (D : Draws → Prop)

/-- The records are those of the inserts that have returned, and each is the row of one operation. -/
structure Whole (db : S.State) (completed : Finset ℕ) (m : OrdMap Bytes Row) : Prop where
  coupled : Coupled hS wl.fieldCount db m
  written : ∀ a ∈ m.entries, ∃ d, D d ∧ a.2 = wl.newValues d
  keys : ∀ key, (m.get key).isSome ↔ ∃ keyNum ∈ completed, wl.buildKeyName keyNum = key

variable {wl} {hS} {D} {db : S.State} {completed : Finset ℕ} {m : OrdMap Bytes Row}

theorem Whole.empty : Whole wl hS D S.empty ∅ OrdMap.empty where
  coupled := coupled_empty
  written a ha := absurd ha List.not_mem_nil
  keys key := by
    have hnone : (OrdMap.empty : OrdMap Bytes Row).get key = none := rfl
    simp [hnone]

variable (hw : wl.WritesSchema) (hD : ∀ d, D d → wl.DrawsOk d)
include hw hD

theorem Whole.put (h : Whole wl hS D db completed m) {d : Draws} (hd : D d) (keyNum : ℕ) :
    Whole wl hS D (S.put db (wl.buildKeyName keyNum) (RocksdbDB.serializeRow (wl.newValues d) []))
      (insert keyNum completed) (m.put (wl.buildKeyName keyNum) (wl.newValues d)) where
  coupled := h.coupled.put _ (CoreWorkload.newValues_wf hw (hD d hd)).2
  written a ha := by
    rcases OrdMap.mem_put ha with rfl | ha
    · exact ⟨d, hd, rfl⟩
    · exact h.written a ha
  keys key := by
    rw [OrdMap.get_put, Finset.exists_mem_insert]
    by_cases hk : wl.buildKeyName keyNum = key
    · simp [hk]
    · simp [hk, Ne.symm hk, h.keys key]

omit hw hD in
theorem Whole.get (h : Whole wl hS D db completed m) {key data : Bytes} (hk : S.get db key = some data) :
    ∃ d, D d ∧ data = RocksdbDB.serializeRow (wl.newValues d) [] := by
  rw [h.coupled.get, Option.map_eq_some_iff] at hk
  obtain ⟨row, hrow, rfl⟩ := hk
  obtain ⟨d, hd, rfl⟩ := h.written _ (OrdMap.mem_of_get hrow)
  exact ⟨d, hd, (RocksdbDB.serializeRow_eq _ []).symm⟩

theorem Whole.names (h : Whole wl hS D db completed m) {a : Bytes × Row} (ha : a ∈ m.entries) :
    Lib.names a.2 = wl.fieldNames := by
  obtain ⟨d, hd, heq⟩ := h.written a ha
  rw [heq]
  exact (CoreWorkload.newValues_wf hw (hD d hd)).1

/-- A read finds what is there, and does not fault. -/
theorem Whole.read (h : Whole wl hS D db completed m) {d : Draws} (hd : wl.DrawsOk d) (key : Bytes) :
    ∃ result, RocksdbDB.readSingle S wl.fieldCount db key (wl.readFields d) [] =
      .ok (if (S.get db key).isSome then .kOK else .kNotFound, result) := by
  have hsel : ∀ row, m.get key = some row → RecordStore.Selects (wl.readFields d) row :=
    fun row hk => CoreWorkload.selects_readFields hd (h.names hw hD (OrdMap.mem_of_get hk))
  rw [readSingle_coupled h.coupled hsel, h.coupled.get]
  cases m.get key with
  | none => exact ⟨_, rfl⟩
  | some row => exact ⟨_, rfl⟩

end

end Ycsb
