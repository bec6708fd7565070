import Ycsb.KeyHash
import Ycsb.Lib.Padded
import Ycsb.RocksdbSound

/-!
# Keys of records

`BuildKeyName` gives distinct keys to distinct 32-bit record numbers. With
ordered inserts and room for 20 digits the keys sort like the numbers.
-/

namespace Ycsb

open Lib DB

namespace CoreWorkload

variable {wl : CoreWorkload}

theorem buildKeyName_eq (keyNum : ℕ) : ∃ fill, wl.buildKeyName keyNum =
    userPrefix ++ (List.replicate fill 48 ++ decimal (if wl.orderedInserts then keyNum else utils.hash keyNum)) :=
  ⟨_, List.append_assoc _ _ _⟩

theorem keyNum_of_buildKeyName {a b : ℕ} (h : wl.buildKeyName a = wl.buildKeyName b) :
    (if wl.orderedInserts then a else utils.hash a) = if wl.orderedInserts then b else utils.hash b := by
  obtain ⟨i, hi⟩ := wl.buildKeyName_eq a
  obtain ⟨j, hj⟩ := wl.buildKeyName_eq b
  rw [hi, hj] at h
  exact zeros_decimal_injective (List.append_cancel_left h)

theorem buildKeyName_inj {a b : ℕ} (ha : a < 2 ^ 32) (hb : b < 2 ^ 32) (h : wl.buildKeyName a = wl.buildKeyName b) :
    a = b := by
  have hnum := keyNum_of_buildKeyName h
  by_cases ho : wl.orderedInserts
  · rwa [if_pos ho, if_pos ho] at hnum
  · rw [if_neg ho, if_neg ho] at hnum
    exact utils.fnvHash64_injOn ha hb hnum

/-- **Record numbers never collide as keys.** -/
theorem key_injective (a b : ℕ) (ha : a < 2 ^ 32) (hb : b < 2 ^ 32) (hab : a ≠ b) :
    (∀ wl : CoreWorkload, wl.buildKeyName a ≠ wl.buildKeyName b) ∧ utils.fnvHash64 a ≠ utils.fnvHash64 b :=
  ⟨fun _ h => hab (buildKeyName_inj ha hb h), fun h => hab (utils.fnvHash64_injOn ha hb h)⟩

theorem key_injective_boundary : (∀ wl : CoreWorkload, wl.buildKeyName 0 ≠ wl.buildKeyName (2 ^ 32 - 1)) ∧
    utils.fnvHash64 0 ≠ utils.fnvHash64 (2 ^ 32 - 1) :=
  key_injective 0 (2 ^ 32 - 1) (by decide) (by decide) (by decide)

/-! ## Order -/

theorem decimal_length_u64 {n : ℕ} (hn : n < 2 ^ 64) : (decimal n).length ≤ 20 :=
  (decimal_length_le (by decide)).mpr (Nat.lt_trans hn (by decide))

theorem buildKeyName_ordered (ho : wl.orderedInserts = true) (hpad : 20 ≤ wl.zeroPadding) {n : ℕ} (hn : n < 2 ^ 64) :
    wl.buildKeyName n =
      userPrefix ++ (List.replicate (wl.zeroPadding.toNat - (decimal n).length) 48 ++ decimal n) := by
  have hlen := decimal_length_u64 hn
  have hint := wl.zeroPadding_int.2
  -- the difference lies between zero and the padding, so it does not wrap
  have hwrap : (wl.zeroPadding - (decimal n).length).bmod (2 ^ 32) = wl.zeroPadding - (decimal n).length :=
    Int.bmod_eq_of_le (by omega) (by omega)
  have hfill : (max 0 ((wl.zeroPadding - (decimal n).length).bmod (2 ^ 32))).toNat =
      wl.zeroPadding.toNat - (decimal n).length := by
    rw [hwrap]
    omega
  unfold buildKeyName
  simp only [ho, if_true, hfill, List.append_assoc]

theorem buildKeyName_lt_iff (ho : wl.orderedInserts = true) (hpad : 20 ≤ wl.zeroPadding) {a b : ℕ} (ha : a < 2 ^ 64)
    (hb : b < 2 ^ 64) : a < b ↔ wl.buildKeyName a < wl.buildKeyName b := by
  have hwidth : ∀ {n}, n < 2 ^ 64 → (decimal n).length ≤ wl.zeroPadding.toNat := fun hn => by
    have := decimal_length_u64 hn
    omega
  rw [buildKeyName_ordered ho hpad ha, buildKeyName_ordered ho hpad hb]
  simp only [userPrefix, List.cons_append, List.nil_append, List.cons_lt_cons_iff, lt_irrefl, false_or, true_and]
  exact (padded_lt_iff (hwidth ha) (hwidth hb)).symm

theorem seek_records {S : KVStore Bytes Bytes} (hS : S.Ordered) {db : S.State} {recs : Finset ℕ} {a : ℕ}
    (ho : wl.orderedInserts = true) (hpad : 20 ≤ wl.zeroPadding) (ha : a < 2 ^ 64) (hrecs : ∀ n ∈ recs, n < 2 ^ 64)
    (hdb : ∀ key, (S.get db key).isSome ↔ ∃ n ∈ recs, key = wl.buildKeyName n) :
    (hS.rest (S.seek db (wl.buildKeyName a))).map Prod.fst =
      ((recs.sort (· ≤ ·)).filter fun n => decide (a ≤ n)).map wl.buildKeyName := by
  have hall : ∀ n ∈ insert a recs, n < 2 ^ 64 := fun n hn => by
    rcases Finset.mem_insert.mp hn with rfl | hn
    · exact ha
    · exact hrecs n hn
  rw [hS.rest_seek]
  refine OrdMap.seek_keys (fun i hi j hj => buildKeyName_lt_iff ho hpad (hall i hi) (hall j hj)) fun key => ?_
  rw [← hS.get_eq]
  exact hdb key

theorem rest_eq_map {S : KVStore Bytes Bytes} (hS : S.Ordered) {db : S.State} {key : Bytes} {ns : List ℕ}
    {name data : ℕ → Bytes} (hkeys : (hS.rest (S.seek db key)).map Prod.fst = ns.map name)
    (hdata : ∀ n ∈ ns, S.get db (name n) = some (data n)) :
    hS.rest (S.seek db key) = ns.map fun n => (name n, data n) := by
  have hget : ∀ e ∈ hS.rest (S.seek db key), e = (e.1, (S.get db e.1).getD []) := fun e he => by
    rw [hS.rest_seek, OrdMap.seek_eq_filter] at he
    rw [hS.get_eq, OrdMap.get_of_mem (List.mem_of_mem_filter he)]
    rfl
  calc hS.rest (S.seek db key)
      = (hS.rest (S.seek db key)).map fun e => (e.1, (S.get db e.1).getD []) :=
        (List.map_id _).symm.trans (List.map_congr_left hget)
    _ = ((hS.rest (S.seek db key)).map Prod.fst).map fun k => (k, (S.get db k).getD []) := by rw [List.map_map]; rfl
    _ = ns.map fun n => (name n, data n) := by
      rw [hkeys, List.map_map]
      exact List.map_congr_left fun n hn => by simp [hdata n hn]

/-- **Zero padding makes key order match integer order**, and a scan from a
record visits the records from its number on, in increasing order. -/
theorem key_order (wl : CoreWorkload) (ho : wl.orderedInserts = true) (hpad : 20 ≤ wl.zeroPadding) :
    (∀ a b, a < 2 ^ 64 → b < 2 ^ 64 → (a < b ↔ wl.buildKeyName a < wl.buildKeyName b)) ∧
      ∀ (S : KVStore Bytes Bytes) (hS : S.Ordered) (db : S.State) (recs : Finset ℕ) (a : ℕ), a < 2 ^ 64 →
        (∀ n ∈ recs, n < 2 ^ 64) → (∀ key, (S.get db key).isSome ↔ ∃ n ∈ recs, key = wl.buildKeyName n) →
        (hS.rest (S.seek db (wl.buildKeyName a))).map Prod.fst =
            ((recs.sort (· ≤ ·)).filter fun n => decide (a ≤ n)).map wl.buildKeyName ∧
          ∀ (row : ℕ → Row) (len : ℤ), (∀ n ∈ recs, RecordStore.Wf wl.fieldCount (row n) ∧
              S.get db (wl.buildKeyName n) = some (RocksdbDB.serializeRow (row n) [])) →
            RocksdbDB.scanSingle S wl.fieldCount db (wl.buildKeyName a) len none [] =
              .ok (.kOK, (((recs.sort (· ≤ ·)).filter fun n => decide (a ≤ n)).take len.toNat).map row) := by
  refine ⟨fun a b ha hb => buildKeyName_lt_iff ho hpad ha hb, fun S hS db recs a ha hrecs hdb => ?_⟩
  have hkeys := seek_records hS ho hpad ha hrecs hdb
  refine ⟨hkeys, fun row len hrow => ?_⟩
  have hmem : ∀ n ∈ (recs.sort (· ≤ ·)).filter fun n => decide (a ≤ n), n ∈ recs := fun n hn =>
    (Finset.mem_sort _).mp (List.mem_of_mem_filter hn)
  have hrest : hS.rest (S.seek db (wl.buildKeyName a)) =
      ((recs.sort (· ≤ ·)).filter fun n => decide (a ≤ n)).map fun n => (wl.buildKeyName n, rowBytes (row n)) :=
    rest_eq_map hS hkeys fun n hn => by rw [(hrow n (hmem n hn)).2, RocksdbDB.serializeRow_eq, List.nil_append]
  have htake : ((((recs.sort (· ≤ ·)).filter fun n => decide (a ≤ n)).map
        fun n => (wl.buildKeyName n, rowBytes (row n))).take len.toNat) =
      ((((recs.sort (· ≤ ·)).filter fun n => decide (a ≤ n)).take len.toNat).map
        fun n => (wl.buildKeyName n, row n)).map fun e => (e.1, rowBytes e.2) := by
    rw [List.map_map, ← List.map_take]
    rfl
  have hwf : ∀ e ∈ (((recs.sort (· ≤ ·)).filter fun n => decide (a ≤ n)).take len.toNat).map
      fun n => (wl.buildKeyName n, row n), RecordStore.Wf wl.fieldCount e.2 ∧ RecordStore.Selects none e.2 := by
    intro e he
    obtain ⟨n, hn, rfl⟩ := List.mem_map.mp he
    exact ⟨(hrow n (hmem n (List.mem_of_mem_take hn))).1, fun _ h => by cases h⟩
  rw [RocksdbDB.scanSingle, KVStore.forEach_eq hS, hrest, htake, foldlM_scan _ _ hwf, List.nil_append, List.map_map]
  rfl

def orderedDefault : CoreWorkload := { CoreWorkload.default with orderedInserts := true }

theorem key_order_nine_ten :
    (OrdMap.seek ((OrdMap.empty.put (buildKeyName orderedDefault 10) [2]).put
        (buildKeyName orderedDefault 9) ([1] : Bytes)) (buildKeyName orderedDefault 9)).map Prod.fst =
      ((({9, 10} : Finset ℕ).sort (· ≤ ·)).filter fun n => decide (9 ≤ n)).map (buildKeyName orderedDefault) := by
  refine ((key_order orderedDefault rfl (le_refl _)).2 (OrdMap.store Bytes Bytes) (OrdMap.storeOrdered Bytes Bytes)
    ((OrdMap.empty.put (buildKeyName orderedDefault 10) [2]).put (buildKeyName orderedDefault 9) [1])
    {9, 10} 9 (by decide) (by simp) fun key => ?_).1
  change (((OrdMap.empty.put _ _).put _ _).get key).isSome ↔ _
  rw [OrdMap.get_put, OrdMap.get_put]
  by_cases h9 : key = buildKeyName orderedDefault 9
  · simp [h9]
  · by_cases h10 : key = buildKeyName orderedDefault 10
    · rw [if_neg h9, if_pos h10]
      simp [h10]
    · simp [h9, h10, OrdMap.empty, OrdMap.get]

end CoreWorkload

end Ycsb
