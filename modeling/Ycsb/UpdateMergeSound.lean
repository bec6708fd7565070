import Ycsb.UpdateMerge
import Ycsb.UpdateSound

/-!
# Merging agrees with reading, changing and writing

The bytes of rows with distinct names form a semigroup under the operator, and
over the fields of a stored row it overwrites as `UpdateSingle` does.
-/

namespace Ycsb

open Lib DB

/-- Rows with distinct names that the format can hold. -/
abbrev Record := Table fun f : Field => f.1.length < 2 ^ 32 ∧ f.2.length < 2 ^ 32

def recordBytes (s : Record) : Bytes := rowBytes s.entries

namespace YCSBUpdateMerge

theorem mergeField_eq (values : Row) (new : Field) : mergeField values new = upsert values new := by
  rw [mergeField, upsert]
  cases replaceFirst new.1 new.2 values <;> rfl

theorem merge_rowBytes {row new : Row} (hs : Sized row) (hn : Sized new) (newValue : Bytes) :
    merge (rowBytes row) (rowBytes new) newValue = .ok (newValue ++ rowBytes (Lib.merge row new)) := by
  have hfold : new.foldl mergeField row = Lib.merge row new :=
    congrArg (fun f => new.foldl f row) (funext fun l => funext fun a => mergeField_eq l a)
  rw [merge, RocksdbDB.deserializeRow_rowBytes hs, RocksdbDB.deserializeRow_rowBytes hn]
  simp only [bind, Except.bind, hfold, RocksdbDB.serializeRow_eq]
  rfl

theorem combine_map (t : FreeMagma Record) :
    combine (FreeMagma.map recordBytes t) = .ok (recordBytes (FreeMagma.lift id t)) := by
  induction t with
  | ih1 s => rfl
  | ih2 s t hs ht =>
    rw [map_mul, ← FreeMagma.mul_eq, combine, hs, ht, map_mul]
    exact merge_rowBytes (FreeMagma.lift id s).holds (FreeMagma.lift id t).holds []

/-- Any grouping of the same operands gives the bytes of the rows merged from the left. -/
theorem combine_eq {t : FreeMagma Bytes} {s : Record} {us : List Record}
    (h : FreeMagma.toFreeSemigroup t = FreeSemigroup.map recordBytes ⟨s, us⟩) :
    combine t = .ok (rowBytes (us.foldl (fun l u => Lib.merge l u.entries) s.entries)) := by
  obtain ⟨t, rfl, ht⟩ := exists_map_tree _ t h
  rw [combine_map, lift_tree, ht, FreeSemigroup.lift_mk_eq_foldl, ← Table.entries_foldl]
  rfl

end YCSBUpdateMerge

/-! ## The two paths -/

theorem foldl_mergeSingle (row : Record) : ∀ (us l : List Record),
    us.foldl (fun record u => RocksdbDB.mergeSingle record u.entries) (FreeSemigroup.map recordBytes ⟨row, l⟩) =
      FreeSemigroup.map recordBytes ⟨row, l ++ us⟩
  | [], l => by rw [List.append_nil]; rfl
  | u :: us, l => by
    have hu : RocksdbDB.mergeSingle (FreeSemigroup.map recordBytes ⟨row, l⟩) u.entries =
        FreeSemigroup.map recordBytes (⟨row, l⟩ * FreeSemigroup.of u) := by
      rw [RocksdbDB.mergeSingle, RocksdbDB.serializeRow_eq, List.nil_append, map_mul]
      rfl
    rw [List.foldl_cons, hu]
    apply (foldl_mergeSingle row us (l ++ [u])).trans
    rw [List.append_assoc, List.singleton_append]

theorem updateSingle_record {S : KVStore Bytes Bytes} {db : S.State} {key : Bytes} {row u : Record}
    (hdb : S.get db key = some (rowBytes row.entries)) (hu : names u.entries ⊆ names row.entries) :
    RocksdbDB.updateSingle S row.entries.length db key u.entries =
      .ok (.kOK, S.put db key (rowBytes (row * u).entries)) := by
  have hrow : RowOf (names row.entries) row.entries := ⟨rfl, row.holds⟩
  have hmod := modify_rowBytes .rocksdb row.nodup hrow hu
  have hlen : (names row.entries).length = row.entries.length := List.length_map _
  rw [hlen, ← merge_eq_overwrite row.nodup hu, ← Table.entries_mul] at hmod
  have hup := Updates.update_eq .rocksdb S row.entries.length db key u.entries
  simp only [hdb, hmod] at hup
  exact hup

theorem exec_updates {S : KVStore Bytes Bytes} (hS : S.Ordered) (key : Bytes) : ∀ (us : List Record) (row : Record)
    (db : S.State), S.get db key = some (rowBytes row.entries) → (∀ u ∈ us, names u.entries ⊆ names row.entries) →
      ∃ db', exec (RocksdbDB.call S row.entries.length) db (us.map fun u => .update key u.entries) =
          .ok (db', us.map fun _ => .status .kOK) ∧
        S.get db' key = some (rowBytes (us.foldl (fun l u => merge l u.entries) row.entries))
  | [], row, db, hdb, _ => ⟨db, rfl, hdb⟩
  | u :: us, row, db, hdb, hu => by
    have hnames : names (row * u).entries = names row.entries := by
      rw [Table.entries_mul, merge_eq_overwrite row.nodup (hu u List.mem_cons_self), names_overwrite]
    have hlen : (row * u).entries.length = row.entries.length := by
      simpa using congrArg List.length hnames
    have hput : S.get (S.put db key (rowBytes (row * u).entries)) key = some (rowBytes (row * u).entries) := by
      rw [hS.get_eq, hS.abs_put, OrdMap.get_put, if_pos rfl]
    obtain ⟨db', hexec, hget⟩ := exec_updates hS key us (row * u) _ hput fun v hv => by
      rw [hnames]
      exact hu v (List.mem_cons_of_mem _ hv)
    refine ⟨db', ?_, hget⟩
    rw [List.map_cons, exec, RocksdbDB.call, updateSingle_record hdb (hu u List.mem_cons_self)]
    rw [hlen] at hexec
    simp only [bind, Except.bind, pure, Except.pure, hexec, Except.map, List.map_cons]

/-- **However RocksDB groups the operands, the merge path leaves the bytes of the
update path**, and the operator is associative. -/
theorem merge_path_eq_update_path (S : KVStore Bytes Bytes) (hS : S.Ordered) (row : Record) (us : List Record)
    (hu : ∀ u ∈ us, names u.entries ⊆ names row.entries) :
    (∀ db key, S.get db key = some (RocksdbDB.serializeRow row.entries []) →
      ∃ db' data, exec (RocksdbDB.call S row.entries.length) db (us.map fun u => .update key u.entries) =
          .ok (db', us.map fun _ => .status .kOK) ∧ S.get db' key = some data ∧
        ∀ t : FreeMagma Bytes, t.toFreeSemigroup =
            us.foldl (fun record u => RocksdbDB.mergeSingle record u.entries)
              (FreeSemigroup.of (RocksdbDB.serializeRow row.entries [])) →
          YCSBUpdateMerge.combine t = .ok data) ∧
      ∀ a b c : Record, ∃ data,
        YCSBUpdateMerge.combine (.mul (.mul (.of (RocksdbDB.serializeRow a.entries []))
          (.of (RocksdbDB.serializeRow b.entries []))) (.of (RocksdbDB.serializeRow c.entries []))) = .ok data ∧
        YCSBUpdateMerge.combine (.mul (.of (RocksdbDB.serializeRow a.entries []))
          (.mul (.of (RocksdbDB.serializeRow b.entries [])) (.of (RocksdbDB.serializeRow c.entries [])))) =
            .ok data := by
  simp only [RocksdbDB.serializeRow_eq, List.nil_append]
  refine ⟨fun db key hdb => ?_, fun a b c => ?_⟩
  · obtain ⟨db', hexec, hget⟩ := exec_updates hS key us row db hdb hu
    refine ⟨db', _, hexec, hget, fun t ht => YCSBUpdateMerge.combine_eq (ht.trans ?_)⟩
    exact foldl_mergeSingle row us []
  · have hleft : FreeMagma.toFreeSemigroup
          (.mul (.mul (.of (recordBytes a)) (.of (recordBytes b))) (.of (recordBytes c))) =
        FreeSemigroup.map recordBytes ⟨a, [b, c]⟩ := rfl
    exact ⟨_, YCSBUpdateMerge.combine_eq hleft, YCSBUpdateMerge.combine_eq hleft⟩

theorem merge_path_right_grouping : ∃ db' data,
    exec (RocksdbDB.call (OrdMap.store Bytes Bytes) 2) (OrdMap.put OrdMap.empty [117]
        (RocksdbDB.serializeRow [([97], [0]), ([98], [0])] []))
      [.update [117] [([98], [1])], .update [117] [([98], [2]), ([97], [3])]] =
        .ok (db', [.status .kOK, .status .kOK]) ∧ OrdMap.get db' [117] = some data ∧
      YCSBUpdateMerge.combine (.mul (.of (RocksdbDB.serializeRow [([97], [0]), ([98], [0])] []))
        (.mul (.of (RocksdbDB.serializeRow [([98], [1])] []))
          (.of (RocksdbDB.serializeRow [([98], [2]), ([97], [3])] [])))) = .ok data := by
  have hget : OrdMap.get (OrdMap.put OrdMap.empty [117] (RocksdbDB.serializeRow [([97], [0]), ([98], [0])] [])) [117] =
      some (RocksdbDB.serializeRow [([97], [0]), ([98], [0])] []) := (OrdMap.get_put ..).trans (if_pos rfl)
  obtain ⟨db', data, hexec, hget, hcombine⟩ := (merge_path_eq_update_path (OrdMap.store Bytes Bytes)
    (OrdMap.storeOrdered Bytes Bytes) ⟨[([97], [0]), ([98], [0])], by decide, by decide⟩
    [⟨[([98], [1])], by decide, by decide⟩, ⟨[([98], [2]), ([97], [3])], by decide, by decide⟩] (by decide)).1
    (OrdMap.put OrdMap.empty [117] (RocksdbDB.serializeRow [([97], [0]), ([98], [0])] [])) [117] hget
  exact ⟨db', data, hexec, hget, hcombine _ rfl⟩

end Ycsb
