import Ycsb.KeySound
import Ycsb.Leveldb
import Ycsb.Lib.PrefixOrder

/-!
# When the row-major format reads what the single-entry format reads

The entries of a record lie together behind the position of its key, in the byte
order of the field names, unless a longer key begins with it. The loops need
them in the order of the field numbers.
-/

namespace Ycsb

open Lib DB

/-! ## Decoding with a filter -/

theorem RocksdbDB.deserializeRowFilter_ok_iff {row : Row} (hs : Sized row) (fields : List Bytes) :
    (∃ result, deserializeRowFilter [] (rowBytes row) fields = .ok result ∧ result.length = fields.length) ↔
      fields.Sublist (names row) := by
  rw [← pick_length_iff, deserializeRowFilter_rowBytes hs]
  by_cases h : (pick fields row).length = fields.length
  · rw [if_pos h]
    exact ⟨fun _ => h, fun _ => ⟨_, rfl, h⟩⟩
  · rw [if_neg h]
    refine ⟨fun hok => ?_, fun hlen => absurd hlen h⟩
    obtain ⟨_, hok, _⟩ := hok
    cases hok

/-- **The filtering decoders find all names exactly when these are a subsequence** of
the row's names; otherwise their assertion fails. What they return is then the
plain decoding restricted to the names, though they stop at the last one. -/
theorem deserializeRowFilter_exact (row : Row) (hs : Sized row) (fields : List Bytes) :
    ((∃ result, RocksdbDB.deserializeRowFilter [] (RocksdbDB.serializeRow row []) fields = .ok result ∧
        result.length = fields.length) ↔ fields.Sublist (names row)) ∧
      ((∃ result, LeveldbDB.deserializeRowFilter [] (LeveldbDB.serializeRow row []) fields = .ok result ∧
        result.length = fields.length) ↔ fields.Sublist (names row)) ∧
      (¬ fields.Sublist (names row) →
        RocksdbDB.deserializeRowFilter [] (RocksdbDB.serializeRow row []) fields = .error .assertion ∧
          LeveldbDB.deserializeRowFilter [] (LeveldbDB.serializeRow row []) fields = .error .assertion) ∧
      ((names row).Nodup → fields.Sublist (names row) → ∃ full q,
        RocksdbDB.deserializeRow [] (RocksdbDB.serializeRow row []) = .ok (full, q) ∧
          LeveldbDB.deserializeRow row.length [] (LeveldbDB.serializeRow row []) = .ok full ∧
          RocksdbDB.deserializeRowFilter [] (RocksdbDB.serializeRow row []) fields =
            .ok (full.filter fun f => decide (f.1 ∈ fields)) ∧
          LeveldbDB.deserializeRowFilter [] (LeveldbDB.serializeRow row []) fields =
            .ok (full.filter fun f => decide (f.1 ∈ fields))) := by
  simp only [LeveldbDB.deserializeRowFilter, LeveldbDB.deserializeRow, LeveldbDB.serializeRow,
    RocksdbDB.serializeRow_eq, List.nil_append]
  have hiff := RocksdbDB.deserializeRowFilter_ok_iff hs fields
  refine ⟨hiff, hiff, fun hsub => ?_, fun hn hsub => ?_⟩
  · rw [← pick_length_iff] at hsub
    rw [RocksdbDB.deserializeRowFilter_rowBytes hs, if_neg hsub]
    exact ⟨rfl, rfl⟩
  · have hfull : RocksdbDB.deserializeFull row.length [] (rowBytes row) = .ok row :=
      RocksdbDB.deserializeFull_rowBytes ⟨rfl, hn, hs⟩
    have hfilter : RocksdbDB.deserializeRowFilter [] (rowBytes row) fields =
        .ok (RecordStore.select row (some fields)) :=
      RocksdbDB.deserializeSelected_rowBytes (n := row.length) ⟨rfl, hn, hs⟩ fun _ heq => Option.some.inj heq ▸ hsub
    exact ⟨row, _, RocksdbDB.deserializeRow_rowBytes hs, hfull, hfilter, hfilter⟩

theorem deserializeRowFilter_exact_three : RocksdbDB.deserializeRowFilter []
      (RocksdbDB.serializeRow [([97], [1]), ([98], [2]), ([99], [3])] []) [[97], [99]] = .ok [([97], [1]), ([99], [3])] ∧
    LeveldbDB.deserializeRowFilter []
      (LeveldbDB.serializeRow [([97], [1]), ([98], [2]), ([99], [3])] []) [[99], [97]] = .error .assertion := by
  have hs : Sized [([97], [1]), ([98], [2]), ([99], [3])] := by unfold Sized; decide
  obtain ⟨full, q, hfull, _, hfilter, _⟩ := (deserializeRowFilter_exact _ hs [[97], [99]]).2.2.2 (by decide) (by decide)
  rw [RocksdbDB.serializeRow_eq, List.nil_append, RocksdbDB.deserializeRow_rowBytes hs, Except.ok.injEq,
    Prod.mk.injEq] at hfull
  rw [hfilter, ← hfull.1]
  exact ⟨rfl, ((deserializeRowFilter_exact _ hs [[99], [97]]).2.2.1 (by decide)).2⟩

namespace LeveldbDB

/-! ## Composite keys -/

theorem idxOf_colon : ∀ {key : Bytes} (field : Bytes), colon ∉ key →
    (key ++ colon :: field).idxOf? colon = some key.length
  | [], field, _ => by simp [List.idxOf?_cons]
  | b :: key, field, h => by
    have hb : b ≠ colon := fun hb => h (hb ▸ List.mem_cons_self)
    rw [List.cons_append, List.idxOf?_cons, beq_eq_false_iff_ne.mpr hb,
      idxOf_colon field fun hk => h (List.mem_cons_of_mem b hk)]
    rfl

theorem keyFromCompKey_build {key : Bytes} (field : Bytes) (h : colon ∉ key) :
    keyFromCompKey (buildCompKey key field) = .ok key := by
  rw [keyFromCompKey, buildCompKey, idxOf_colon field h]
  simp

theorem fieldFromCompKey_build {key : Bytes} (field : Bytes) (h : colon ∉ key) :
    fieldFromCompKey (buildCompKey key field) = .ok field := by
  rw [fieldFromCompKey, buildCompKey, idxOf_colon field h]
  simp

theorem build_of_split {compKey key field : Bytes} (hk : keyFromCompKey compKey = .ok key)
    (hf : fieldFromCompKey compKey = .ok field) : compKey = buildCompKey key field := by
  unfold keyFromCompKey at hk
  unfold fieldFromCompKey at hf
  cases hi : compKey.idxOf? colon with
  | none => simp [hi] at hk
  | some i =>
    simp only [hi, Except.ok.injEq] at hk hf
    obtain ⟨hlt, hcolon, _⟩ := List.idxOf?_eq_some_iff.mp hi
    rw [← hk, ← hf, buildCompKey, ← hcolon, ← List.drop_eq_getElem_cons hlt, List.take_append_drop]

theorem buildCompKey_inj {key key' field field' : Bytes} (h : colon ∉ key) (h' : colon ∉ key')
    (heq : buildCompKey key field = buildCompKey key' field') : key = key' ∧ field = field' := by
  have hk := keyFromCompKey_build field h
  have hf := fieldFromCompKey_build field h
  rw [heq, keyFromCompKey_build field' h', Except.ok.injEq] at hk
  rw [heq, fieldFromCompKey_build field' h', Except.ok.injEq] at hf
  exact ⟨hk.symm, hf.symm⟩

/-! ## Record keys -/

def IsRecordKey (key : Bytes) : Prop := ∃ digits, key = userPrefix ++ digits ∧ ∀ b ∈ digits, IsDigit b

theorem isRecordKey_buildKeyName (wl : CoreWorkload) (keyNum : ℕ) : IsRecordKey (wl.buildKeyName keyNum) := by
  obtain ⟨fill, h⟩ := wl.buildKeyName_eq keyNum
  refine ⟨_, h, fun b hb => ?_⟩
  exact (List.mem_append.mp hb).elim (isDigit_zeros b) (isDigit_decimal _ b)

theorem IsRecordKey.no_colon {key : Bytes} (h : IsRecordKey key) : colon ∉ key := by
  obtain ⟨digits, rfl, hdigits⟩ := h
  intro hmem
  rcases List.mem_append.mp hmem with hmem | hmem
  · exact absurd hmem (by decide)
  · exact absurd (hdigits _ hmem).2 (by decide)

theorem IsRecordKey.separated {a b : Bytes} (ha : IsRecordKey a) (hb : IsRecordKey b) : Separated colon a b := by
  obtain ⟨as, rfl, _⟩ := ha
  obtain ⟨bs, rfl, hbs⟩ := hb
  intro d t h
  rw [List.append_assoc] at h
  have hd := hbs d (by rw [List.append_cancel_left h]; simp)
  exact hd.2

/-! ## The loop over the entries -/

section
variable {S : KVStore Bytes Bytes} (hS : S.Ordered) {wl : CoreWorkload} {key : Bytes}

def compEntry (key : Bytes) (f : Field) : Bytes × Bytes := (buildCompKey key f.1, f.2)

theorem readCompEntry_build (h : colon ∉ key) {i : ℕ} {f : Field} (hf : f.1 = wl.fieldName i) :
    readCompEntry wl.fieldPrefix key i (compEntry key f) = .ok f := by
  simp only [readCompEntry, compEntry, keyFromCompKey_build _ h, fieldFromCompKey_build _ h, bind, Except.bind]
  rw [if_neg (by simp), if_neg (by rw [hf]; simp [CoreWorkload.fieldName])]
  rfl

theorem readCompEntry_ok {i : ℕ} {entry : Bytes × Bytes} {f : Field}
    (h : readCompEntry wl.fieldPrefix key i entry = .ok f) : entry.1 = buildCompKey key (wl.fieldName i) := by
  unfold readCompEntry at h
  cases hk : keyFromCompKey entry.1 with
  | error e => simp [hk, bind, Except.bind] at h
  | ok curKey =>
    cases hf : fieldFromCompKey entry.1 with
    | error e => simp [hk, hf, bind, Except.bind] at h
    | ok curField =>
      simp only [hk, hf, bind, Except.bind] at h
      by_cases hkey : curKey = key
      · by_cases hfield : curField = wl.fieldName i
        · exact build_of_split (hkey ▸ hk) (hfield ▸ hf)
        · rw [if_pos (show curField ≠ wl.fieldPrefix ++ decimal i from hfield)] at h
          split at h <;> cases h
      · rw [if_pos hkey] at h
        cases h

theorem forFields_row (h : colon ∉ key) {σ : Type} {more : σ → Bool} {body : σ → Field → σ} :
    ∀ {row : Row} {i : ℕ} {it : S.Iter} {tail : List (Bytes × Bytes)} {s : σ},
      names row = (List.range' i row.length).map wl.fieldName →
      hS.rest it = row.map (compEntry key) ++ tail →
      forFields S wl.fieldPrefix key more body row.length i it s = .ok (walk more body s row).1
  | [], _, _, _, _, _, _ => rfl
  | f :: row, i, it, tail, s, hrow, hrest => by
    rw [names, List.map_cons, List.length_cons, List.range'_succ, List.map_cons] at hrow
    obtain ⟨hf, hrow⟩ := List.cons.inj hrow
    have hentry : S.entry it = some (compEntry key f) := by rw [hS.entry_eq, hrest]; rfl
    have hnext : hS.rest (S.next it) = row.map (compEntry key) ++ tail := by rw [hS.rest_next, hrest]; rfl
    rw [List.length_cons, forFields]
    by_cases hmore : more s = true
    · rw [if_pos hmore]
      simp only [hentry, readCompEntry_build h hf, bind, Except.bind, walk, hmore, if_true]
      exact forFields_row h hrow hnext
    · rw [if_neg hmore]
      simp [walk, hmore]

/-- The loop without a filter accepts only fields in the order of their numbers. -/
theorem forFields_ok : ∀ {count i : ℕ} {it : S.Iter} {s r : Row},
    forFields S wl.fieldPrefix key (fun _ => true) (fun result field => result ++ [field]) count i it s = .ok r →
    ∃ m, r.length = s.length + m ∧
      ((List.range' i m).map fun j => buildCompKey key (wl.fieldName j)) <+: (hS.rest it).map Prod.fst
  | 0, i, it, s, r, h => by
    cases h
    exact ⟨0, rfl, List.nil_prefix⟩
  | count + 1, i, it, s, r, h => by
    rw [forFields, if_pos rfl] at h
    have hentry := hS.entry_eq it
    cases hrest : hS.rest it with
    | nil =>
      rw [hrest] at hentry
      rw [hentry] at h
      cases h
      exact ⟨0, rfl, List.nil_prefix⟩
    | cons e l =>
      rw [hrest] at hentry
      simp only [hentry, List.head?_cons] at h
      cases hf : readCompEntry wl.fieldPrefix key i e with
      | error err =>
        rw [hf] at h
        cases h
      | ok f =>
        rw [hf] at h
        obtain ⟨m, hlen, hpre⟩ := forFields_ok h
        refine ⟨m + 1, by rw [hlen]; simp; omega, ?_⟩
        rw [hS.rest_next, hrest, List.tail_cons] at hpre
        rw [List.range'_succ, List.map_cons, List.map_cons, readCompEntry_ok hf]
        exact (List.prefix_cons_inj _).mpr hpre

end

/-! ## The two stores -/

def insertAll {S : KVStore Bytes Bytes} (insert : S.State → Bytes → Row → Status × S.State)
    (recs : List (Bytes × Row)) : S.State :=
  recs.foldl (fun db r => (insert db r.1 r.2).2) S.empty

/-- Records with all fields, under distinct keys of `BuildKeyName`. -/
structure Records (wl : CoreWorkload) (recs : List (Bytes × Row)) : Prop where
  keys : ∀ r ∈ recs, ∃ keyNum, r.1 = wl.buildKeyName keyNum
  nodup : (recs.map Prod.fst).Nodup
  names : ∀ r ∈ recs, names r.2 = (List.range wl.fieldCount).map wl.fieldName
  sized : ∀ r ∈ recs, Sized r.2

section
variable {S : KVStore Bytes Bytes} (hS : S.Ordered) {wl : CoreWorkload} {recs : List (Bytes × Row)}

theorem Records.isRecordKey (h : Records wl recs) {r : Bytes × Row} (hr : r ∈ recs) : IsRecordKey r.1 := by
  obtain ⟨keyNum, hkey⟩ := h.keys r hr
  rw [hkey]
  exact isRecordKey_buildKeyName wl keyNum

theorem fieldName_inj {i j : ℕ} (h : wl.fieldName i = wl.fieldName j) : i = j :=
  decimal_injective (List.append_cancel_left h)

theorem Records.length (h : Records wl recs) {r : Bytes × Row} (hr : r ∈ recs) : r.2.length = wl.fieldCount := by
  rw [← List.length_map (f := Prod.fst), ← Lib.names, h.names r hr, List.length_map, List.length_range]

theorem Records.wf (h : Records wl recs) {r : Bytes × Row} (hr : r ∈ recs) :
    RecordStore.Wf wl.fieldCount r.2 where
  length := h.length hr
  nodup := by
    rw [h.names r hr]
    exact List.nodup_range.map fun _ _ => fieldName_inj
  sized := h.sized r hr

theorem abs_insertAll {insert : S.State → Bytes → Row → Status × S.State}
    {entries : Bytes × Row → List (Bytes × Bytes)}
    (h : ∀ db r, hS.abs (insert db r.1 r.2).2 = OrdMap.putAll (entries r) (hS.abs db)) :
    hS.abs (insertAll insert recs) = OrdMap.putAll (recs.flatMap entries) OrdMap.empty := by
  have hfold : ∀ (recs : List (Bytes × Row)) (db : S.State),
      hS.abs (recs.foldl (fun db r => (insert db r.1 r.2).2) db) =
        OrdMap.putAll (recs.flatMap entries) (hS.abs db) := by
    intro recs
    induction recs with
    | nil => exact fun _ => rfl
    | cons r recs ih =>
      intro db
      rw [List.foldl_cons, ih, h, List.flatMap_cons, OrdMap.putAll, OrdMap.putAll, OrdMap.putAll, List.foldl_append]
  rw [insertAll, hfold, hS.abs_empty]

theorem abs_insertAll_single : hS.abs (insertAll (insertSingleEntry S) recs) =
    OrdMap.putAll (recs.map fun r => (r.1, rowBytes r.2)) OrdMap.empty := by
  rw [List.map_eq_flatMap]
  apply abs_insertAll hS
  intro db r
  rw [insertSingleEntry, hS.abs_put, serializeRow, RocksdbDB.serializeRow_eq, List.nil_append]
  rfl

theorem abs_insertCompKey (db : S.State) (key : Bytes) (values : Row) :
    hS.abs (insertCompKey S db key values).2 = OrdMap.putAll (values.map (compEntry key)) (hS.abs db) := by
  rw [insertCompKey]
  induction values generalizing db with
  | nil => rfl
  | cons f values ih =>
    rw [List.foldl_cons, List.map_cons, ih, hS.abs_put]
    rfl

theorem abs_insertAll_comp : hS.abs (insertAll (insertCompKey S) recs) =
    OrdMap.putAll (recs.flatMap fun r => r.2.map (compEntry r.1)) OrdMap.empty :=
  abs_insertAll hS fun db r => abs_insertCompKey hS db r.1 r.2

theorem single_nodup (h : Records wl recs) : ((recs.map fun r => (r.1, rowBytes r.2)).map Prod.fst).Nodup := by
  rw [List.map_map]
  exact h.nodup

include hS in
theorem get_single (h : Records wl recs) {r : Bytes × Row} (hr : r ∈ recs) :
    S.get (insertAll (insertSingleEntry S) recs) r.1 = some (rowBytes r.2) := by
  rw [hS.get_eq, abs_insertAll_single, OrdMap.get_putAll (single_nodup h)]
  exact Or.inl (List.mem_map.mpr ⟨r, hr, rfl⟩)

include hS in
theorem get_single_none (h : Records wl recs) {key : Bytes} (hkey : ∀ r ∈ recs, r.1 ≠ key) :
    S.get (insertAll (insertSingleEntry S) recs) key = none := by
  apply Option.eq_none_iff_forall_ne_some.mpr
  intro data hdata
  rw [hS.get_eq, abs_insertAll_single, OrdMap.get_putAll (single_nodup h)] at hdata
  rcases hdata with hdata | ⟨_, hdata⟩
  · obtain ⟨r, hr, heq⟩ := List.mem_map.mp hdata
    exact hkey r hr (Prod.mk.inj heq).1
  · cases hdata

theorem comp_nodup (h : Records wl recs) :
    ((recs.flatMap fun r => r.2.map (compEntry r.1)).map Prod.fst).Nodup := by
  rw [List.map_flatMap, List.nodup_flatMap]
  constructor
  · intro r hr
    have hcomp : (r.2.map (compEntry r.1)).map Prod.fst = (Lib.names r.2).map (buildCompKey r.1) := by
      rw [List.map_map, Lib.names, List.map_map]
      rfl
    rw [hcomp]
    have hno := (h.isRecordKey hr).no_colon
    exact (h.wf hr).nodup.map fun _ _ heq => (buildCompKey_inj hno hno heq).2
  · apply (List.pairwise_map.mp h.nodup).imp_of_mem
    intro r r' hr hr' hne c hc hc'
    simp only [List.map_map, List.mem_map, Function.comp_apply, compEntry] at hc hc'
    obtain ⟨f, _, rfl⟩ := hc
    obtain ⟨f', _, heq⟩ := hc'
    exact hne (buildCompKey_inj (h.isRecordKey hr').no_colon (h.isRecordKey hr).no_colon heq).1.symm

theorem mem_comp (h : Records wl recs) {e : Bytes × Bytes} :
    e ∈ (hS.abs (insertAll (insertCompKey S) recs)).entries ↔ ∃ r ∈ recs, ∃ f ∈ r.2, e = compEntry r.1 f := by
  rw [abs_insertAll_comp, OrdMap.mem_putAll_empty (comp_nodup h)]
  simp [eq_comm]

theorem mem_seek (h : Records wl recs) {key : Bytes} {e : Bytes × Bytes} :
    e ∈ hS.rest (S.seek (insertAll (insertCompKey S) recs) key) ↔
      (∃ r ∈ recs, ∃ f ∈ r.2, e = compEntry r.1 f) ∧ key ≤ e.1 := by
  rw [hS.rest_seek, OrdMap.mem_seek, mem_comp hS h]

theorem seek_sorted (db : S.State) (key : Bytes) : (hS.rest (S.seek db key)).Pairwise fun a b => a.1 < b.1 := by
  rw [hS.rest_seek]
  exact OrdMap.seek_sorted _ key

/-! ## Reading -/

def PrefixFree (recs : List (Bytes × Row)) : Prop := ∀ r ∈ recs, ∀ r' ∈ recs, r.1 <+: r'.1 → r.1 = r'.1

theorem le_compKey {key key' : Bytes} (h : key <+: key') (field : Bytes) : key ≤ buildCompKey key' field := by
  obtain ⟨t, rfl⟩ := h
  apply le_of_lt
  rw [buildCompKey, List.append_assoc]
  have hnil : [] < t ++ colon :: field := by cases t <;> exact List.nil_lt_cons _ _
  have hlt := (append_lt_append_left key).mpr hnil
  rwa [List.append_nil] at hlt

theorem compKey_lt_iff (key : Bytes) (i j : ℕ) :
    buildCompKey key (wl.fieldName i) < buildCompKey key (wl.fieldName j) ↔ decimal i < decimal j := by
  have hsplit : ∀ n, buildCompKey key (wl.fieldName n) = key ++ colon :: wl.fieldPrefix ++ decimal n := fun n => by
    rw [List.append_assoc]
    rfl
  rw [hsplit, hsplit, append_lt_append_left]

theorem decimal_digit_lt {i j : ℕ} (hij : i < j) (hj : j < 10) : decimal i < decimal j := by
  have hlen : ∀ {n}, n < 10 → (decimal n).length = 1 := fun hn =>
    Nat.le_antisymm ((decimal_length_le Nat.one_pos).mpr hn) (List.length_pos_iff.mpr (decimal_ne_nil _))
  refine (lt_iff_decimalValue_lt (isDigit_decimal i) (isDigit_decimal j) ?_).mpr ?_
  · rw [hlen (hij.trans hj), hlen hj]
  · rwa [decimalValue_decimal, decimalValue_decimal]

theorem compEntry_sorted {row : Row} {key : Bytes} (hrow : names row = (List.range wl.fieldCount).map wl.fieldName)
    (hten : wl.fieldCount ≤ 10) : (row.map (compEntry key)).Pairwise fun a b => a.1 < b.1 := by
  have hcomp : (row.map (compEntry key)).map Prod.fst =
      (List.range wl.fieldCount).map fun i => buildCompKey key (wl.fieldName i) := by
    have hkeys := congrArg (List.map (buildCompKey key)) hrow
    simp only [List.map_map] at hkeys ⊢
    exact hkeys
  rw [← List.pairwise_map (f := Prod.fst) (R := (· < ·)), hcomp, List.pairwise_map]
  apply List.pairwise_lt_range.imp_of_mem
  intro _ _ _ hj hij
  exact (compKey_lt_iff key _ _).mpr (decimal_digit_lt hij ((List.mem_range.mp hj).trans_le hten))

/-- Behind the position of a key lie the entries of its record, in order. -/
theorem seek_row (h : Records wl recs) (hfree : PrefixFree recs) (hten : wl.fieldCount ≤ 10) {r : Bytes × Row}
    (hr : r ∈ recs) : ∃ tail, hS.rest (S.seek (insertAll (insertCompKey S) recs) r.1) =
      r.2.map (compEntry r.1) ++ tail := by
  have hpre : r.2.map (compEntry r.1) <+: hS.rest (S.seek (insertAll (insertCompKey S) recs) r.1) := by
    refine OrdMap.prefix_of_sorted (compEntry_sorted (h.names r hr) hten) (seek_sorted hS _ _) ?_ ?_
    · intro e he
      obtain ⟨f, hf, rfl⟩ := List.mem_map.mp he
      exact (mem_seek hS h).mpr ⟨⟨r, hr, f, hf, rfl⟩, le_compKey List.prefix_rfl _⟩
    · intro e he
      obtain ⟨⟨r', hr', f', hf', rfl⟩, hle⟩ := (mem_seek hS h).mp he
      by_cases hkey : r.1 = r'.1
      · have heq : r = r' := List.inj_on_of_nodup_map h.nodup hr hr' hkey
        subst heq
        exact Or.inl (List.mem_map_of_mem hf')
      · apply Or.inr
        intro e he
        obtain ⟨f, _, rfl⟩ := List.mem_map.mp he
        exact ((h.isRecordKey hr').separated (h.isRecordKey hr)).lt_of_le hkey
          (fun hp => hkey (hfree r hr r' hr' hp)) hle _
  obtain ⟨tail, htail⟩ := hpre
  exact ⟨tail, htail.symm⟩

theorem readCompKeyRM_row {db : S.State} {key : Bytes} (hkey : colon ∉ key) {row : Row}
    (hw : RecordStore.Wf wl.fieldCount row) (hrow : names row = (List.range wl.fieldCount).map wl.fieldName)
    (hpos : 1 ≤ wl.fieldCount) {tail : List (Bytes × Bytes)}
    (hrest : hS.rest (S.seek db key) = row.map (compEntry key) ++ tail) {fields : Option (List Bytes)}
    (hf : RecordStore.Selects fields row) :
    readCompKeyRM S wl db key fields [] = .ok (.kOK, RecordStore.select row fields) := by
  have hrange : names row = (List.range' 0 row.length).map wl.fieldName := by rw [hrow, hw.length, List.range_eq_range']
  have hentry : ∃ f, S.entry (S.seek db key) = some (compEntry key f) := by
    rw [hS.entry_eq, hrest]
    cases row with
    | nil => exact absurd hw.length (by simp; omega)
    | cons f row => exact ⟨f, rfl⟩
  obtain ⟨f, hentry⟩ := hentry
  have hloop : ∀ {σ : Type} (more : σ → Bool) (body : σ → Field → σ) (s : σ),
      forFields S wl.fieldPrefix key more body row.length 0 (S.seek db key) s = .ok (walk more body s row).1 :=
    fun _ _ _ => forFields_row hS hkey hrange hrest
  rw [hw.length] at hloop
  have hfound : keyFromCompKey (compEntry key f).1 = .ok key := keyFromCompKey_build _ hkey
  unfold readCompKeyRM
  simp only [hentry, hfound, bind, Except.bind]
  rw [if_neg (not_not.mpr rfl)]
  cases fields with
  | none =>
    simp only [hloop, walk_true, foldl_snoc, List.nil_append]
    rw [if_pos hw.length]
    rfl
  | some fields =>
    have hsub := hf fields rfl
    have hwalk := RocksdbDB.walk_filterStep row [] fields
    rw [List.nil_append] at hwalk
    simp only [hloop]
    rw [hwalk, if_pos (pick_length_iff.mpr hsub), pick_eq_filter hw.nodup hsub]
    exact congrArg (fun r => Except.ok (Status.kOK, r)) (List.filter_congr fun f _ => decide_eq_decide.mpr Iff.rfl)

theorem readSingleEntry_row {db : S.State} {key : Bytes} {row : Row} (hw : RecordStore.Wf wl.fieldCount row)
    (hget : S.get db key = some (rowBytes row)) {fields : Option (List Bytes)} (hf : RecordStore.Selects fields row) :
    readSingleEntry S wl.fieldCount db key fields [] = .ok (.kOK, RecordStore.select row fields) := by
  have hsel := RocksdbDB.deserializeSelected_rowBytes hw hf
  unfold readSingleEntry
  cases fields with
  | none =>
    change RocksdbDB.deserializeFull wl.fieldCount [] (rowBytes row) = _ at hsel
    simp only [hget, deserializeRow, hsel]
    rfl
  | some fields =>
    change RocksdbDB.deserializeRowFilter [] (rowBytes row) fields = _ at hsel
    simp only [hget, deserializeRowFilter, hsel]
    rfl

/-- The reads that the two layouts are compared on. -/
def FieldChoice (wl : CoreWorkload) (fields : Option (List Bytes)) : Prop :=
  fields = none ∨ ∃ i < wl.fieldCount, fields = some [wl.fieldName i]

theorem FieldChoice.selects {fields : Option (List Bytes)} (h : FieldChoice wl fields) {row : Row}
    (hrow : names row = (List.range wl.fieldCount).map wl.fieldName) : RecordStore.Selects fields row := by
  intro names' hnames
  rcases h with rfl | ⟨i, hi, rfl⟩
  · cases hnames
  · rw [Option.some.injEq] at hnames
    rw [← hnames, List.singleton_sublist, hrow]
    exact List.mem_map_of_mem (List.mem_range.mpr hi)

/-- The two layouts, filled with the same records, answer alike. -/
def ReadsAgree (S : KVStore Bytes Bytes) (wl : CoreWorkload) (recs : List (Bytes × Row)) : Prop :=
  (∀ r ∈ recs, ∀ fields, FieldChoice wl fields → ∃ result result',
    readCompKeyRM S wl (insertAll (insertCompKey S) recs) r.1 fields [] = .ok (.kOK, result) ∧
    readSingleEntry S wl.fieldCount (insertAll (insertSingleEntry S) recs) r.1 fields [] = .ok (.kOK, result') ∧
    ∀ f, f ∈ result ↔ f ∈ result') ∧
  ∀ key, (∀ r ∈ recs, r.1 ≠ key) → ∀ fields,
    readCompKeyRM S wl (insertAll (insertCompKey S) recs) key fields [] = .ok (.kNotFound, []) ∧
    readSingleEntry S wl.fieldCount (insertAll (insertSingleEntry S) recs) key fields [] = .ok (.kNotFound, [])

include hS in
theorem read_absent (h : Records wl recs) {key : Bytes} (hkey : ∀ r ∈ recs, r.1 ≠ key)
    (fields : Option (List Bytes)) :
    readCompKeyRM S wl (insertAll (insertCompKey S) recs) key fields [] = .ok (.kNotFound, []) := by
  have hentry := hS.entry_eq (S.seek (insertAll (insertCompKey S) recs) key)
  unfold readCompKeyRM
  cases hrest : hS.rest (S.seek (insertAll (insertCompKey S) recs) key) with
  | nil =>
    rw [hrest] at hentry
    simp only [hentry, List.head?_nil]
    rfl
  | cons e l =>
    have he := (mem_seek hS h).mp (hrest ▸ List.mem_cons_self)
    obtain ⟨⟨r, hr, f, _, rfl⟩, _⟩ := he
    rw [hrest] at hentry
    have hfound : keyFromCompKey (compEntry r.1 f).1 = .ok r.1 := keyFromCompKey_build _ (h.isRecordKey hr).no_colon
    simp only [hentry, List.head?_cons, hfound, bind, Except.bind]
    rw [if_pos (hkey r hr)]
    rfl

include hS in
theorem readsAgree_of (h : Records wl recs) (hpos : 1 ≤ wl.fieldCount) (hten : recs = [] ∨ wl.fieldCount ≤ 10)
    (hfree : PrefixFree recs) : ReadsAgree S wl recs := by
  refine ⟨fun r hr fields hf => ?_, fun key hkey fields => ⟨read_absent hS h hkey fields, ?_⟩⟩
  · have hten' := hten.resolve_left (List.ne_nil_of_mem hr)
    have hsel := hf.selects (h.names r hr)
    obtain ⟨tail, htail⟩ := seek_row hS h hfree hten' hr
    exact ⟨_, _, readCompKeyRM_row hS (h.isRecordKey hr).no_colon (h.wf hr) (h.names r hr) hpos htail hsel,
      readSingleEntry_row (h.wf hr) (get_single hS h hr) hsel, fun _ => Iff.rfl⟩
  · simp only [readSingleEntry, get_single_none hS h hkey]
    rfl

/-! ## The converse -/

theorem readCompKeyRM_ok {db : S.State} {key : Bytes} {result : Row}
    (h : readCompKeyRM S wl db key none [] = .ok (.kOK, result)) :
    (∃ e l, hS.rest (S.seek db key) = e :: l ∧ keyFromCompKey e.1 = .ok key) ∧
    ((List.range wl.fieldCount).map fun i => buildCompKey key (wl.fieldName i)) <+:
      (hS.rest (S.seek db key)).map Prod.fst := by
  have hentry := hS.entry_eq (S.seek db key)
  unfold readCompKeyRM at h
  cases hrest : hS.rest (S.seek db key) with
  | nil =>
    rw [hrest] at hentry
    simp only [hentry, List.head?_nil] at h
    cases h
  | cons e l =>
    rw [hrest] at hentry
    simp only [hentry, List.head?_cons, bind, Except.bind] at h
    cases hfound : keyFromCompKey e.1 with
    | error err =>
      rw [hfound] at h
      cases h
    | ok found =>
      simp only [hfound] at h
      by_cases hkey : found = key
      · rw [if_neg (not_not.mpr hkey)] at h
        refine ⟨⟨e, l, rfl, hkey ▸ hfound⟩, ?_⟩
        cases hloop : forFields S wl.fieldPrefix key (fun _ => true) (fun result field => result ++ [field])
            wl.fieldCount 0 (S.seek db key) [] with
        | error err =>
          rw [hloop] at h
          cases h
        | ok r =>
          -- the loop has read one entry for each field
          obtain ⟨m, hlen, hpre⟩ := forFields_ok hS hloop
          simp only [hloop] at h
          by_cases hcount : r.length = wl.fieldCount
          · rw [List.length_nil, Nat.zero_add, hcount] at hlen
            rwa [← hlen, ← List.range_eq_range', hrest] at hpre
          · rw [if_neg hcount] at h
            cases h
      · rw [if_pos hkey] at h
        cases h

include hS in
theorem prefixFree_of (h : Records wl recs) (hpos : 1 ≤ wl.fieldCount) (hagree : ReadsAgree S wl recs) :
    PrefixFree recs := by
  intro r hr r' hr' hpre
  by_contra hne
  obtain ⟨result, _, hread, _⟩ := hagree.1 r hr none (Or.inl rfl)
  obtain ⟨⟨e, l, hrest, hfound⟩, _⟩ := readCompKeyRM_ok hS hread
  obtain ⟨f, hf⟩ := List.exists_mem_of_length_pos (l := r'.2) (by rw [h.length hr']; omega)
  have hmem : compEntry r'.1 f ∈ e :: l := hrest ▸ (mem_seek hS h).mpr ⟨⟨r', hr', f, hf, rfl⟩, le_compKey hpre _⟩
  obtain ⟨⟨r'', hr'', f'', _, rfl⟩, _⟩ := (mem_seek hS h).mp (hrest ▸ List.mem_cons_self)
  rw [compEntry, keyFromCompKey_build _ (h.isRecordKey hr'').no_colon, Except.ok.injEq] at hfound
  have hlt : (compEntry r'.1 f).1 < (compEntry r''.1 f'').1 := by
    rw [compEntry, compEntry, hfound]
    exact ((h.isRecordKey hr).separated (h.isRecordKey hr')).lt hpre hne _ _
  have hsorted := seek_sorted hS (insertAll (insertCompKey S) recs) r.1
  rw [hrest] at hsorted
  rcases List.mem_cons.mp hmem with heq | hmem
  · exact lt_irrefl _ (heq ▸ hlt)
  · exact lt_asymm hlt ((List.pairwise_cons.mp hsorted).1 _ hmem)

include hS in
theorem fieldCount_le_of (hagree : ReadsAgree S wl recs) : recs = [] ∨ wl.fieldCount ≤ 10 := by
  cases recs with
  | nil => exact Or.inl rfl
  | cons r recs =>
    refine Or.inr (not_lt.mp fun hten => ?_)
    obtain ⟨result, _, hread, _⟩ := hagree.1 r List.mem_cons_self none (Or.inl rfl)
    obtain ⟨_, hpre⟩ := readCompKeyRM_ok hS hread
    have hsorted : (((List.range wl.fieldCount).map fun i => buildCompKey r.1 (wl.fieldName i))).Pairwise (· < ·) :=
      (List.pairwise_map.mpr (seek_sorted hS _ _)).sublist hpre.sublist
    -- the eleventh field sorts before the third
    have hlt := List.pairwise_iff_getElem.mp (List.pairwise_map.mp hsorted) 2 10 (by simp; omega) (by simpa using hten)
      (by decide)
    rw [List.getElem_range, List.getElem_range, compKey_lt_iff] at hlt
    exact absurd hlt (by decide)

/-- **The row-major layout answers like the single-entry layout exactly** for at most ten
fields, and keys of which none begins another. -/
theorem readsAgree_iff (S : KVStore Bytes Bytes) (hS : S.Ordered) (wl : CoreWorkload) (hpos : 1 ≤ wl.fieldCount)
    (recs : List (Bytes × Row)) (h : Records wl recs) :
    ReadsAgree S wl recs ↔ (recs = [] ∨ wl.fieldCount ≤ 10) ∧ PrefixFree recs :=
  ⟨fun hagree => ⟨fieldCount_le_of hS hagree, prefixFree_of hS h hpos hagree⟩,
    fun hcond => readsAgree_of hS h hpos hcond.1 hcond.2⟩

end

def numbered (wl : CoreWorkload) (keyNums : List ℕ) : List (Bytes × Row) :=
  keyNums.map fun n => (wl.buildKeyName n, wl.buildValues ⟨.insert, [], 0, 0, fun _ => []⟩)

theorem records_numbered {wl : CoreWorkload} {keyNums : List ℕ} (hn : (keyNums.map wl.buildKeyName).Nodup)
    (hlen : ∀ i < wl.fieldCount, (wl.fieldName i).length < 2 ^ 32) : Records wl (numbered wl keyNums) where
  keys r hr := by
    obtain ⟨n, _, rfl⟩ := List.mem_map.mp hr
    exact ⟨n, rfl⟩
  nodup := by
    rw [numbered, List.map_map]
    exact hn
  names r hr := by
    obtain ⟨n, _, rfl⟩ := List.mem_map.mp hr
    rw [CoreWorkload.buildValues, Lib.names, List.map_map]
    rfl
  sized r hr f hf := by
    obtain ⟨n, _, rfl⟩ := List.mem_map.mp hr
    obtain ⟨i, hi, rfl⟩ := List.mem_map.mp hf
    exact ⟨hlen i (List.mem_range.mp hi), Nat.two_pow_pos 32⟩

theorem readsAgree_default : ReadsAgree (OrdMap.store Bytes Bytes) .default (numbered .default [3, 4, 12]) :=
  (readsAgree_iff _ (OrdMap.storeOrdered Bytes Bytes) .default (by decide) _
    (records_numbered (by decide) (by decide))).mpr ⟨Or.inr (by decide), by unfold PrefixFree; decide⟩

def unpadded : CoreWorkload :=
  { CoreWorkload.default with orderedInserts := true, zeroPadding := 0, zeroPadding_int := by decide }

/-- `user10:...` sorts before `user1:...`, so the record `user1` is not found. -/
theorem reads_differ_one_ten : Records unpadded (numbered unpadded [1, 10]) ∧
    ¬ ReadsAgree (OrdMap.store Bytes Bytes) unpadded (numbered unpadded [1, 10]) := by
  have hrecs : Records unpadded (numbered unpadded [1, 10]) := records_numbered (by decide) (by decide)
  refine ⟨hrecs, fun hagree => ?_⟩
  have hfree := prefixFree_of (OrdMap.storeOrdered Bytes Bytes) hrecs (by decide) hagree
  exact absurd (hfree _ List.mem_cons_self _ (List.mem_cons_of_mem _ List.mem_cons_self) (by decide)) (by decide)

end LeveldbDB

end Ycsb
