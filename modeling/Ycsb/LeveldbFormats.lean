import Ycsb.LeveldbScan
import Ycsb.Lib.Spread
import Ycsb.Lib.Trans

/-!
# Whole runs over the two formats

In either format the binding refines the map from keys to rows. Below, the
single-entry format keeps the bytes of each row, the row-major format a block of
entries for each row.
-/

namespace Ycsb

open Lib DB

namespace LeveldbDB

section
variable {S : KVStore Bytes Bytes} (hS : S.Ordered) {wl : CoreWorkload} {length : ℕ}

/-- Keys have no colon and one length. Inserts have all fields, updates are of records that are there.
Scans begin at a record, and end each row where the record ends. -/
def Uniform (wl : CoreWorkload) (length : ℕ) (m : OrdMap Bytes Row) : Call → Prop
  | .read key fields => colon ∉ key ∧ key.length = length ∧ Subsequence wl fields
  | .scan key len fields => (m.get key).isSome ∧ Subsequence wl fields ∧ (len ≤ 1 ∨ EndsRecord wl fields)
  | .update key values =>
    (m.get key).isSome ∧ Sized values ∧ names values ⊆ (List.range wl.fieldCount).map wl.fieldName
  | .insert key values => Complete wl length (key, values)
  | .delete key => colon ∉ key ∧ key.length = length

/-! ## Row-major -/

/-- The store holds a block of entries for each record. -/
abbrev RowMajor (wl : CoreWorkload) (length : ℕ) (db : S.State) (m : OrdMap Bytes Row) : Prop :=
  OrdMap.SpreadOver (Complete wl length) block (hS.abs db) m

variable {hS} {db : S.State} {m : OrdMap Bytes Row}

theorem rowMajor_seek (h : RowMajor hS wl length db m) {key : Bytes} (hkey : key.length = length) :
    hS.rest (S.seek db key) = (m.seek key).flatMap block := by
  rw [hS.rest_seek]
  exact h.seek fun r hr a ha => le_block_iff (h.all r hr) hkey ha

/-- An iterator from the key of a record begins with the block of the record. -/
theorem rowMajor_seek_of_get (h : RowMajor hS wl length db m) {key : Bytes} {row : Row} (hget : m.get key = some row) :
    Complete wl length (key, row) ∧
      ∃ rows, m.seek key = (key, row) :: rows ∧ hS.rest (S.seek db key) = ((key, row) :: rows).flatMap block := by
  have hrec := h.all _ (OrdMap.mem_of_get hget)
  obtain ⟨rows, hseek⟩ := OrdMap.seek_of_get hget
  exact ⟨hrec, rows, hseek, hseek ▸ rowMajor_seek h hrec.length⟩

theorem read_rowMajor (h : RowMajor hS wl length db m) (hpos : 1 ≤ wl.fieldCount) {key : Bytes}
    (hkey : key.length = length) {fields : Option (List Bytes)} (hf : Subsequence wl fields) :
    readCompKeyRM S wl db key fields [] = .ok (match m.get key with
      | none => (.kNotFound, [])
      | some row => (.kOK, RecordStore.select row fields)) := by
  cases hget : m.get key with
  | some row =>
    obtain ⟨hrec, rows, -, hrest⟩ := rowMajor_seek_of_get h hget
    exact readCompKeyRM_row hS hrec.colon hrec.wf hrec.names hpos hrest (hf.selects hrec)
  | none =>
    have hentry := hS.entry_eq (S.seek db key)
    rw [rowMajor_seek h hkey] at hentry
    unfold readCompKeyRM
    cases hseek : m.seek key with
    | nil =>
      rw [hseek] at hentry
      simp only [hentry, List.flatMap_nil, List.head?_nil]
      rfl
    | cons r rows =>
      have hmem : r ∈ m.entries := (OrdMap.mem_seek.mp (hseek ▸ List.mem_cons_self : r ∈ m.seek key)).1
      have hrec := h.all r hmem
      obtain ⟨f, row, hcons⟩ := List.exists_cons_of_length_pos (l := r.2) (by rw [hrec.wf.length]; exact hpos)
      have hne : r.1 ≠ key := by
        rintro rfl
        rw [OrdMap.get_of_mem (v := r.2) hmem] at hget
        cases hget
      rw [hseek, List.flatMap_cons, block, hcons] at hentry
      have hfound : keyFromCompKey (compEntry r.1 f).1 = .ok r.1 := keyFromCompKey_build _ hrec.colon
      simp only [hentry, List.map_cons, List.cons_append, List.head?_cons, hfound, bind, Except.bind]
      rw [if_pos hne]
      rfl

theorem scan_rowMajor (h : RowMajor hS wl length db m) (hpos : 1 ≤ wl.fieldCount) {key : Bytes} {row : Row}
    (hget : m.get key = some row) {len : ℤ} {fields : Option (List Bytes)} (hf : Subsequence wl fields)
    (hend : len ≤ 1 ∨ EndsRecord wl fields) : scanCompKeyRM S wl db key len fields [] =
      .ok (.kOK, ((m.seek key).take len.toNat).map fun r => RecordStore.select r.2 fields) := by
  obtain ⟨hrec, rows, hseek, hrest⟩ := rowMajor_seek_of_get h hget
  have hrows : scanRows S wl fields len.toNat (S.seek db key) [] =
      .ok ((((key, row) :: rows).take len.toNat).map fun r => RecordStore.select r.2 fields) := by
    rcases hend with hone | hend
    · exact scanRows_le_one hS hpos hrec (hf.selects hrec) (by omega) hrest
    · have haligned : ∀ r ∈ (key, row) :: rows,
          Complete wl length r ∧ RecordStore.Selects fields r.2 ∧ rest fields r.2 = [] := by
        intro r hr
        rw [← hseek] at hr
        have hr := h.all r (OrdMap.mem_seek.mp hr).1
        exact ⟨hr, hf.selects hr, (rest_eq_nil_iff hr hpos hf).mpr hend⟩
      exact scanRows_aligned hS len.toNat [] hpos haligned hrest
  obtain ⟨f, row', hcons⟩ := List.exists_cons_of_length_pos (l := row) (by rw [hrec.wf.length]; exact hpos)
  have hentry : S.entry (S.seek db key) = some (compEntry key f) := by
    rw [hS.entry_eq, hrest, List.flatMap_cons, block, hcons]
    rfl
  have hfound : keyFromCompKey (compEntry key f).1 = .ok key := keyFromCompKey_build _ hrec.colon
  simp only [scanCompKeyRM, hentry, hfound, bind, Except.bind, hrows, hseek]
  rw [if_neg (not_not.mpr rfl)]
  rfl

theorem insert_rowMajor (h : RowMajor hS wl length db m) (hten : wl.fieldCount ≤ 10) {key : Bytes} {values : Row}
    (hr : Complete wl length (key, values)) :
    RowMajor hS wl length (insertCompKey S db key values).2 (m.put key values) := by
  rw [RowMajor, abs_insertCompKey]
  exact h.put (spread_block hten length) hr

theorem block_assign (key : Bytes) (row : Row) (f : Field) :
    block (key, assign row f.1 f.2) = assign (block (key, row)) (compEntry key f).1 (compEntry key f).2 := by
  simp only [block, assign, List.map_map]
  refine List.map_congr_left fun g _ => ?_
  have hkey : buildCompKey key g.1 = buildCompKey key f.1 ↔ g.1 = f.1 := by simp [buildCompKey]
  simp only [Function.comp, compEntry, hkey]
  split <;> rfl

/-- An update writes some of the entries of the block. -/
theorem block_overwrite (key : Bytes) : ∀ (values row : Row),
    block (key, overwrite row values) = overwrite (block (key, row)) (values.map (compEntry key))
  | [], _ => rfl
  | f :: values, row => by
    rw [overwrite_cons, block_overwrite key values, block_assign, List.map_cons, overwrite_cons]

theorem update_rowMajor (h : RowMajor hS wl length db m) (hten : wl.fieldCount ≤ 10) {key : Bytes} {row values : Row}
    (hget : m.get key = some row) (hs : Sized values)
    (hnames : names values ⊆ (List.range wl.fieldCount).map wl.fieldName) :
    RowMajor hS wl length (insertCompKey S db key values).2 (m.put key (overwrite row values)) := by
  rw [RowMajor, abs_insertCompKey]
  have hrec := h.all _ (OrdMap.mem_of_get hget)
  refine h.overwrite (spread_block hten length) hget ?_ ?_ (block_overwrite key values row)
  · exact ⟨hrec.colon, hrec.length, (names_overwrite row values).trans hrec.names, (wf_overwrite hrec.wf hs).sized⟩
  · intro compKey hkey
    simp only [names, List.map_map, List.mem_map] at hkey
    obtain ⟨f, hf, rfl⟩ := hkey
    have hname : f.1 ∈ names row := hrec.names ▸ hnames (List.mem_map_of_mem hf)
    obtain ⟨g, hg, hgf⟩ := List.mem_map.mp hname
    exact List.mem_map.mpr ⟨compEntry key g, List.mem_map_of_mem hg, congrArg (buildCompKey key) hgf⟩

theorem delete_rowMajor (h : RowMajor hS wl length db m) {key : Bytes} (hcolon : colon ∉ key)  :
    RowMajor hS wl length (deleteCompKey S wl db key).2 (m.del key) := by
  have hdel : ∀ (is : List ℕ) (db : S.State),
      hS.abs (is.foldl (fun db i => S.delete db (buildCompKey key (wl.fieldPrefix ++ decimal i))) db) =
        (is.map fun i => buildCompKey key (wl.fieldName i)).foldl OrdMap.del (hS.abs db) := by
    intro is
    induction is with
    | nil => exact fun _ => rfl
    | cons i is ih =>
      intro db
      rw [List.foldl_cons, ih, hS.abs_delete]
      rfl
  rw [RowMajor, deleteCompKey, hdel]
  refine h.del fun r hr a ha => ?_
  obtain ⟨f, hf, rfl⟩ := List.mem_map.mp ha
  have hrec := h.all r hr
  constructor
  · intro hmem
    obtain ⟨i, _, heq⟩ := List.mem_map.mp hmem
    exact (buildCompKey_inj hcolon hrec.colon heq).1.symm
  · rintro rfl
    have hname : f.1 ∈ (List.range wl.fieldCount).map wl.fieldName := hrec.names ▸ List.mem_map_of_mem hf
    obtain ⟨i, hi, hif⟩ := List.mem_map.mp hname
    exact List.mem_map.mpr ⟨i, hi, congrArg (buildCompKey r.1) hif⟩

/-- A call in the row-major format does what it does to the records. -/
theorem call_rowMajor (hpos : 1 ≤ wl.fieldCount) (hten : wl.fieldCount ≤ 10) (c : Call)
    (h : RowMajor hS wl length db m) (hc : Uniform wl length m c) :
    ∃ db', call S .rowMajor wl db c = .ok (db', (RecordStore.call m c).2) ∧
      RowMajor hS wl length db' (RecordStore.call m c).1 := by
  cases c with
  | read key fields =>
    refine ⟨db, ?_, (RecordStore.read_fst m key fields).symm ▸ h⟩
    rw [call, read, read_rowMajor h hpos hc.2.1 hc.2.2, RecordStore.call]
    cases m.get key <;> rfl
  | scan key len fields =>
    obtain ⟨row, hget⟩ := Option.isSome_iff_exists.mp hc.1
    refine ⟨db, ?_, h⟩
    rw [call, scan, scan_rowMajor h hpos hget hc.2.1 hc.2.2, OrdMap.seek_eq_filter]
    rfl
  | update key values =>
    obtain ⟨row, hget⟩ := Option.isSome_iff_exists.mp hc.1
    simp only [RecordStore.call, hget]
    exact ⟨_, rfl, update_rowMajor h hten hget hc.2.1 hc.2.2⟩
  | insert key values => exact ⟨_, rfl, insert_rowMajor h hten hc⟩
  | delete key => exact ⟨_, rfl, delete_rowMajor h hc.1⟩

/-! ## Single entries -/

theorem call_singleEntry_eq (S : KVStore Bytes Bytes) (wl : CoreWorkload) (db : S.State) (c : Call) :
    call S .singleEntry wl db c = RocksdbDB.call S wl.fieldCount db c := by
  cases c with
  | read key fields => cases fields <;> rfl
  | scan key len fields => cases fields <;> rfl
  | update key values =>
    have hupdate : updateSingleEntry S wl.fieldCount db key values =
        RocksdbDB.updateSingle S wl.fieldCount db key values := by
      unfold updateSingleEntry RocksdbDB.updateSingle
      cases S.get db key with
      | none => rfl
      | some data =>
        simp only [updateEntry, deserializeRow, serializeRow, bind_assoc, pure_bind]
    simp only [call, update, RocksdbDB.call, hupdate]
  | insert | delete => rfl

theorem Uniform.admissible {c : Call} (hc : Uniform wl length m c) (h : ∀ r ∈ m.entries, Complete wl length r) :
    RecordStore.Admissible wl.fieldCount m c := by
  cases c with
  | read key fields => exact fun row hget => hc.2.2.selects (h _ (OrdMap.mem_of_get hget))
  | scan key len fields => exact fun r hr => hc.2.1.selects (h r (List.mem_of_mem_filter (List.mem_of_mem_take hr)))
  | update key values =>
    refine fun row hget => ⟨hc.2.1, fun f hf => ?_⟩
    rw [(h _ (OrdMap.mem_of_get hget)).names]
    exact hc.2.2 (List.mem_map_of_mem hf)
  | insert key values => exact ⟨hc.wf.length, hc.wf.nodup, hc.wf.sized⟩
  | delete key => trivial

theorem complete_call {c : Call} (hc : Uniform wl length m c) (h : ∀ r ∈ m.entries, Complete wl length r) :
    ∀ r ∈ (RecordStore.call m c).1.entries, Complete wl length r := by
  cases c with
  | read key fields => exact (RecordStore.read_fst m key fields).symm ▸ h
  | scan key len fields => exact h
  | update key values =>
    obtain ⟨row, hget⟩ := Option.isSome_iff_exists.mp hc.1
    have hrec := h _ (OrdMap.mem_of_get hget)
    intro r hr
    simp only [RecordStore.call, hget] at hr
    rcases OrdMap.mem_put hr with rfl | hr
    · exact ⟨hrec.colon, hrec.length, (names_overwrite row values).trans hrec.names, (wf_overwrite hrec.wf hc.2.1).sized⟩
    · exact h r hr
  | insert key values =>
    intro r hr
    rcases OrdMap.mem_put hr with rfl | hr
    · exact hc
    · exact h r hr
  | delete key => exact fun r hr => h r (OrdMap.mem_del hr)

/-! ## Both formats -/

/-- **The two formats are one store.** After any calls both have given the replies of the map from keys to rows. -/
theorem formats_refine (S : KVStore Bytes Bytes) (hS : S.Ordered) (wl : CoreWorkload) (hpos : 1 ≤ wl.fieldCount)
    (hten : wl.fieldCount ≤ 10) (length : ℕ) (calls : List Call)
    (hc : Legal RecordStore.call (Uniform wl length) OrdMap.empty calls) :
    ∃ db db', exec (call S .rowMajor wl) S.empty calls = .ok (db, (respond RecordStore.call OrdMap.empty calls).2) ∧
      exec (call S .singleEntry wl) S.empty calls = .ok (db', (respond RecordStore.call OrdMap.empty calls).2) ∧
      (hS.abs db).entries = (respond RecordStore.call OrdMap.empty calls).1.entries.flatMap block ∧
      hS.abs db' = (respond RecordStore.call OrdMap.empty calls).1.map rowBytes := by
  have hempty : RowMajor hS wl length S.empty OrdMap.empty := by
    rw [RowMajor, hS.abs_empty]
    exact OrdMap.spreadOver_empty
  obtain ⟨db, hrow, hdb⟩ := exec_refines (fun _ _ c h hc => call_rowMajor hpos hten c h hc) calls S.empty OrdMap.empty
    hempty hc
  have hstep : ∀ db m c, (Coupled hS wl.fieldCount db m ∧ ∀ r ∈ m.entries, Complete wl length r) →
      Uniform wl length m c → ∃ db', call S .singleEntry wl db c = .ok (db', (RecordStore.call m c).2) ∧
        Coupled hS wl.fieldCount db' (RecordStore.call m c).1 ∧
        ∀ r ∈ (RecordStore.call m c).1.entries, Complete wl length r := by
    intro db m c h hc
    obtain ⟨db', hcall, h'⟩ := call_coupled c h.1 (hc.admissible h.2)
    exact ⟨db', (call_singleEntry_eq S wl db c).trans hcall, h', complete_call hc h.2⟩
  obtain ⟨db', hsingle, hdb', _⟩ := exec_refines hstep calls S.empty OrdMap.empty
    ⟨coupled_empty, hempty.all⟩ hc
  exact ⟨db, db', hrow, hsingle, hdb.entries, hdb'.bytes⟩

end

def oneUser : List Call :=
  [.insert [117, 49] [(twoFields.fieldName 0, [1]), (twoFields.fieldName 1, [2])],
    .update [117, 49] [(twoFields.fieldName 1, [9])], .scan [117, 49] 2 none, .delete [117, 49], .read [117, 49] none]

theorem formats_refine_one : ∃ db db',
    exec (call (OrdMap.store Bytes Bytes) .rowMajor twoFields) OrdMap.empty oneUser = .ok (db, [.status .kOK, .status .kOK,
      .rows .kOK [[(twoFields.fieldName 0, [1]), (twoFields.fieldName 1, [9])]], .status .kOK, .row .kNotFound []]) ∧
    exec (call (OrdMap.store Bytes Bytes) .singleEntry twoFields) OrdMap.empty oneUser = .ok (db', [.status .kOK,
      .status .kOK, .rows .kOK [[(twoFields.fieldName 0, [1]), (twoFields.fieldName 1, [9])]], .status .kOK,
      .row .kNotFound []]) := by
  have hnone : Subsequence twoFields none := nofun
  have hlegal : Legal RecordStore.call (Uniform twoFields 2) OrdMap.empty oneUser :=
    ⟨⟨by decide, rfl, rfl, by unfold Sized; decide⟩, ⟨by decide, by unfold Sized; decide, by decide⟩,
      ⟨by decide, hnone, Or.inr nofun⟩, ⟨by decide, rfl⟩, ⟨by decide, rfl, hnone⟩, trivial⟩
  obtain ⟨db, db', hrow, hsingle, _⟩ := formats_refine (OrdMap.store Bytes Bytes) (OrdMap.storeOrdered Bytes Bytes)
    twoFields (by decide) (by decide) 2 oneUser hlegal
  exact ⟨db, db', hrow, hsingle⟩

end LeveldbDB

end Ycsb
