import Ycsb.LeveldbSound

/-!
# Scanning the row-major format

A scan must stand at the first entry of a record whenever a turn of the outer
loop begins. The inner loop leaves a record behind its last requested field, so
this holds only when that is the record's last field.
-/

namespace Ycsb

open Lib DB

namespace LeveldbDB

/-! ## Where the filter stops -/

theorem walk_suffix {more : Row × List Bytes → Bool} {body : Row × List Bytes → Field → Row × List Bytes} :
    ∀ (row : Row) (s : Row × List Bytes), (walk more body s row).2 <:+ row
  | [], _ => List.suffix_rfl
  | f :: row, s => by
    rw [walk]
    split
    · exact (walk_suffix row (body s f)).trans (List.suffix_cons f row)
    · exact List.suffix_rfl

/-- The entries that a scan for `fields` leaves of a record. -/
def leftover (fields : List Bytes) (values row : Row) : Row :=
  (walk (fun s => !s.2.isEmpty) RocksdbDB.filterStep (values, fields) row).2

theorem leftover_nil (values row : Row) : leftover [] values row = row := by
  cases row <;> simp [leftover, walk]

theorem leftover_cons (name : Bytes) (rest : List Bytes) (values : Row) (f : Field) (row : Row) :
    leftover (name :: rest) values (f :: row) =
      if name = f.1 then leftover rest (values ++ [f]) row else leftover (name :: rest) values row := by
  have hmore : (!((values, name :: rest) : Row × List Bytes).2.isEmpty) = true := rfl
  have hstep : RocksdbDB.filterStep (values, name :: rest) f =
      if name = f.1 then (values ++ [f], rest) else (values, name :: rest) := rfl
  rw [leftover, walk, if_pos hmore, hstep]
  split <;> rfl

theorem leftover_eq_nil_iff : ∀ {row : Row} {fields : List Bytes} (values : Row), (names row).Nodup →
    fields ≠ [] → fields.Sublist (names row) →
    (leftover fields values row = [] ↔ fields.getLast? = (names row).getLast?)
  | [], fields, _, _, hne, hsub => absurd (List.sublist_nil.mp hsub) hne
  | f :: row, [], _, _, hne, _ => absurd rfl hne
  | f :: row, name :: rest, values, hn, _, hsub => by
    obtain ⟨hf, hn⟩ := List.nodup_cons.mp hn
    rw [leftover_cons]
    by_cases hname : name = f.1
    · rw [if_pos hname]
      subst hname
      have hsub : rest.Sublist (names row) := List.cons_sublist_cons.mp hsub
      cases rest with
      | nil =>
        rw [leftover_nil]
        cases row with
        | nil => simp
        | cons g row =>
          -- the last name lies behind `f`, and differs from it
          have hlast : (names (f :: g :: row)).getLast? = (names (g :: row)).getLast? := List.getLast?_cons_cons
          refine ⟨fun h => absurd h (List.cons_ne_nil g row), fun h => absurd ?_ hf⟩
          rw [hlast] at h
          exact List.mem_of_getLast? h.symm
      | cons name rest =>
        have hrow : row ≠ [] := fun h => by subst h; cases hsub
        obtain ⟨g, row, rfl⟩ := List.exists_cons_of_ne_nil hrow
        rw [leftover_eq_nil_iff _ hn (List.cons_ne_nil name rest) hsub, List.getLast?_cons_cons]
        exact Iff.rfl
    · rw [if_neg hname]
      have hsub : (name :: rest).Sublist (names row) := by
        rcases List.sublist_cons_iff.mp hsub with h | ⟨r, hr, _⟩
        · exact h
        · exact absurd (List.cons.inj hr).1 hname
      have hrow : row ≠ [] := fun h => by subst h; cases hsub
      obtain ⟨g, row, rfl⟩ := List.exists_cons_of_ne_nil hrow
      rw [leftover_eq_nil_iff _ hn (List.cons_ne_nil name rest) hsub]
      exact Iff.rfl

/-- A turn that has something to look for reads the first entry. -/
theorem leftover_suffix {fields : List Bytes} (hne : fields ≠ []) (values : Row) (f : Field) (row : Row) :
    leftover fields values (f :: row) <:+ row := by
  obtain ⟨name, rest, rfl⟩ := List.exists_cons_of_ne_nil hne
  rw [leftover_cons]
  split
  · exact walk_suffix row _
  · exact walk_suffix row _

/-! ## One record -/

section
variable {S : KVStore Bytes Bytes} (hS : S.Ordered) {wl : CoreWorkload}

theorem scanCompEntry_build {key : Bytes} (h : colon ∉ key) (j : ℕ) (f : Field) :
    scanCompEntry wl.fieldPrefix j (compEntry key f) = if f.1 = wl.fieldName j then .ok f else .error .assertion := by
  have hname : wl.fieldName j = wl.fieldPrefix ++ decimal j := rfl
  simp only [scanCompEntry, compEntry, keyFromCompKey_build _ h, fieldFromCompKey_build _ h, bind, Except.bind, hname]
  by_cases hf : f.1 = wl.fieldPrefix ++ decimal j
  · rw [if_pos hf, if_neg (not_not.mpr hf)]
    rfl
  · rw [if_neg hf, if_pos hf]
    rfl

/-- Over a record the inner loop is a walk over its fields, and leaves the iterator at the first one not read. -/
theorem scanFields_row {key : Bytes} (h : colon ∉ key) {σ : Type} {more : σ → Bool} {body : σ → Field → σ}
    {tail : List (Bytes × Bytes)} : ∀ {row : Row} {j : ℕ} {it : S.Iter} {s : σ},
      names row = (List.range' j row.length).map wl.fieldName →
      hS.rest it = row.map (compEntry key) ++ tail →
      ∃ it', scanFields S wl.fieldPrefix more body row.length j it s = .ok ((walk more body s row).1, it') ∧
        hS.rest it' = (walk more body s row).2.map (compEntry key) ++ tail
  | [], _, it, _, _, hrest => ⟨it, rfl, hrest⟩
  | f :: row, j, it, s, hrow, hrest => by
    rw [names, List.map_cons, List.length_cons, List.range'_succ, List.map_cons] at hrow
    obtain ⟨hf, hrow⟩ := List.cons.inj hrow
    have hentry : S.entry it = some (compEntry key f) := by rw [hS.entry_eq, hrest]; rfl
    have hnext : hS.rest (S.next it) = row.map (compEntry key) ++ tail := by rw [hS.rest_next, hrest]; rfl
    rw [List.length_cons, scanFields, walk]
    by_cases hmore : more s = true
    · rw [if_pos hmore, if_pos hmore]
      simp only [hentry, scanCompEntry_build h, if_pos hf, bind, Except.bind]
      exact scanFields_row h hrow hnext
    · rw [if_neg hmore, if_neg hmore]
      exact ⟨it, rfl, hrest⟩

/-- A record with all fields, under a key that the composite keys can hold. -/
structure Complete (wl : CoreWorkload) (length : ℕ) (r : Bytes × Row) : Prop where
  colon : colon ∉ r.1
  length : r.1.length = length
  names : names r.2 = (List.range wl.fieldCount).map wl.fieldName
  sized : Sized r.2

theorem Complete.wf {length : ℕ} {r : Bytes × Row} (h : Complete wl length r) : RecordStore.Wf wl.fieldCount r.2 where
  length := by rw [← List.length_map (f := Prod.fst), ← Lib.names, h.names, List.length_map, List.length_range]
  nodup := by
    rw [h.names]
    exact List.nodup_range.map fun _ _ => fieldName_inj
  sized := h.sized

def rest (fields : Option (List Bytes)) (row : Row) : Row :=
  match fields with
  | none => []
  | some fields => leftover fields [] row

theorem scanRow_record {length : ℕ} {r : Bytes × Row} (h : Complete wl length r) {fields : Option (List Bytes)}
    (hf : RecordStore.Selects fields r.2) {it : S.Iter} {tail : List (Bytes × Bytes)}
    (hrest : hS.rest it = r.2.map (compEntry r.1) ++ tail) :
    ∃ it', scanRow S wl fields it = .ok (RecordStore.select r.2 fields, it') ∧
      hS.rest it' = (rest fields r.2).map (compEntry r.1) ++ tail := by
  have hrow : names r.2 = (List.range' 0 r.2.length).map wl.fieldName := by
    rw [h.names, h.wf.length, List.range_eq_range']
  have hloop : ∀ {σ : Type} (more : σ → Bool) (body : σ → Field → σ) (s : σ), ∃ it',
      scanFields S wl.fieldPrefix more body wl.fieldCount 0 it s = .ok ((walk more body s r.2).1, it') ∧
        hS.rest it' = (walk more body s r.2).2.map (compEntry r.1) ++ tail := by
    rw [← h.wf.length]
    exact fun _ _ _ => scanFields_row hS h.colon hrow hrest
  cases fields with
  | none =>
    obtain ⟨it', hscan, hrest'⟩ := hloop (fun _ => true) (fun values field => values ++ [field]) []
    rw [walk_true, foldl_snoc, List.nil_append] at hscan hrest'
    refine ⟨it', ?_, hrest'⟩
    simp only [scanRow, hscan, bind, Except.bind]
    rw [if_pos h.wf.length]
    rfl
  | some fields =>
    obtain ⟨it', hscan, hrest'⟩ := hloop (fun s => !s.2.isEmpty) RocksdbDB.filterStep ([], fields)
    have hsub := hf fields rfl
    have hwalk := RocksdbDB.walk_filterStep r.2 [] fields
    rw [List.nil_append] at hwalk
    refine ⟨it', ?_, hrest'⟩
    simp only [scanRow, hscan, bind, Except.bind]
    rw [hwalk, if_pos (pick_length_iff.mpr hsub), pick_eq_filter h.wf.nodup hsub]
    exact congrArg (fun r => Except.ok (r, it')) (List.filter_congr fun f _ => decide_eq_decide.mpr Iff.rfl)

/-- A turn that does not begin at the first entry of a record fails. -/
theorem scanRow_misaligned (hpos : 1 ≤ wl.fieldCount) {key : Bytes} (h : colon ∉ key) {f : Field}
    (hf : f.1 ≠ wl.fieldName 0) {fields : List Bytes} (hne : fields ≠ []) {it : S.Iter}
    {tail : List (Bytes × Bytes)} (hrest : hS.rest it = compEntry key f :: tail) :
    scanRow S wl (some fields) it = .error .assertion := by
  have hentry : S.entry it = some (compEntry key f) := by rw [hS.entry_eq, hrest]; rfl
  have hmore : (!(([], fields) : Row × List Bytes).2.isEmpty) = true := by
    cases fields with
    | nil => exact absurd rfl hne
    | cons name fields => rfl
  obtain ⟨n, hn⟩ := Nat.exists_eq_add_of_le' hpos
  simp only [scanRow, hn, scanFields, if_pos hmore, hentry, scanCompEntry_build h, if_neg hf]
  rfl

/-! ## The outer loop -/

def block (r : Bytes × Row) : List (Bytes × Bytes) := r.2.map (compEntry r.1)

theorem scanRows_aligned {length : ℕ} {fields : Option (List Bytes)} : ∀ {rows : List (Bytes × Row)} (len : ℕ)
    {it : S.Iter} (result : List Row), 1 ≤ wl.fieldCount →
      (∀ r ∈ rows, Complete wl length r ∧ RecordStore.Selects fields r.2 ∧ rest fields r.2 = []) →
      hS.rest it = rows.flatMap block →
      scanRows S wl fields len it result = .ok (result ++ (rows.take len).map fun r => RecordStore.select r.2 fields)
  | _, 0, _, result, _, _, _ => by
    rw [List.take_zero, List.map_nil, List.append_nil]
    rfl
  | [], len + 1, it, result, _, _, hrest => by
    have hentry : S.entry it = none := by rw [hS.entry_eq, hrest]; rfl
    simp only [scanRows, hentry, List.take_nil, List.map_nil, List.append_nil]
  | r :: rows, len + 1, it, result, hpos, hrows, hrest => by
    obtain ⟨hr, hsel, hstop⟩ := hrows r List.mem_cons_self
    obtain ⟨it', hrow, hrest'⟩ := scanRow_record hS hr hsel hrest
    rw [hstop, List.map_nil, List.nil_append] at hrest'
    obtain ⟨f, row, hcons⟩ := List.exists_cons_of_length_pos (l := r.2) (by rw [hr.wf.length]; exact hpos)
    have hentry : S.entry it = some (compEntry r.1 f) := by
      rw [hS.entry_eq, hrest, List.flatMap_cons, block, hcons]
      rfl
    have htail := scanRows_aligned len (result ++ [RecordStore.select r.2 fields]) hpos
      (fun s hs => hrows s (List.mem_cons_of_mem _ hs)) hrest'
    simp only [scanRows, hentry, hrow, bind, Except.bind, htail]
    rw [List.take_succ_cons, List.map_cons, List.append_assoc, List.singleton_append]

/-- A turn behind a record that the turn before it has not read to its end. -/
theorem scanRows_misaligned {length : ℕ} {fields : List Bytes} (hpos : 1 ≤ wl.fieldCount) (hne : fields ≠ [])
    {r : Bytes × Row} (hr : Complete wl length r) (hsel : RecordStore.Selects (some fields) r.2)
    (hleft : leftover fields [] r.2 ≠ []) {rows : List (Bytes × Row)} {len : ℕ} (hlen : 2 ≤ len) {it : S.Iter}
    (hrest : hS.rest it = (r :: rows).flatMap block) (result : List Row) :
    scanRows S wl (some fields) len it result = .error .assertion := by
  obtain ⟨len, rfl⟩ := Nat.exists_eq_add_of_le' hlen
  obtain ⟨it', hrow, hrest'⟩ := scanRow_record hS hr hsel hrest
  obtain ⟨f, row, hcons⟩ := List.exists_cons_of_length_pos (l := r.2) (by rw [hr.wf.length]; exact hpos)
  obtain ⟨g, left, hg⟩ := List.exists_cons_of_ne_nil hleft
  have hentry : S.entry it = some (compEntry r.1 f) := by
    rw [hS.entry_eq, hrest, List.flatMap_cons, block, hcons]
    rfl
  -- what is left lies behind the first field
  have hname : g.1 ≠ wl.fieldName 0 := by
    have hmem : g ∈ row := by
      have hsuffix := leftover_suffix hne [] f row
      rw [← hcons, hg] at hsuffix
      exact hsuffix.subset List.mem_cons_self
    have hfirst : f.1 = wl.fieldName 0 := by
      have hnames := hr.names
      obtain ⟨n, hn⟩ := Nat.exists_eq_add_of_le' hpos
      rw [hcons, hn, Lib.names, List.map_cons, List.range_succ_eq_map, List.map_cons] at hnames
      exact (List.cons.inj hnames).1
    have hnodup := hr.wf.nodup
    rw [hcons] at hnodup
    exact fun heq => (List.nodup_cons.mp hnodup).1 (hfirst ▸ heq ▸ List.mem_map_of_mem hmem)
  have hrest'' : hS.rest it' = compEntry r.1 g :: (left.map (compEntry r.1) ++ rows.flatMap block) := by
    rw [hrest', rest, hg]
    rfl
  have hentry' : S.entry it' = some (compEntry r.1 g) := by rw [hS.entry_eq, hrest'']; rfl
  simp only [scanRows, hentry, hrow, bind, Except.bind, hentry', scanRow_misaligned hS hpos hr.colon hname hne hrest'']

/-! ## The two stores -/

theorem spread_block (hten : wl.fieldCount ≤ 10) (length : ℕ) : OrdMap.Spread (Complete wl length) block where
  sorted r hr := compEntry_sorted hr.names hten
  lt r r' hr hr' hlt a ha b hb := by
    obtain ⟨f, _, rfl⟩ := List.mem_map.mp ha
    obtain ⟨g, _, rfl⟩ := List.mem_map.mp hb
    refine append_lt_append_of_lt hlt (fun hpre => ?_) _ _
    exact hlt.ne (hpre.eq_of_length (hr.length.trans hr'.length.symm))
  keys r r' hr hr' hkey := by
    have hcomp : ∀ r : Bytes × Row, (block r).map Prod.fst = (names r.2).map (buildCompKey r.1) := fun r => by
      rw [block, List.map_map, names, List.map_map]
      rfl
    rw [hcomp, hcomp, hr.names, hr'.names, hkey]

/-- The records that the inserts leave. -/
abbrev records (recs : List (Bytes × Row)) : OrdMap Bytes Row := OrdMap.putAll recs OrdMap.empty

theorem complete_records (hten : wl.fieldCount ≤ 10) {length : ℕ} {recs : List (Bytes × Row)}
    (h : ∀ r ∈ recs, Complete wl length r) : ∀ r ∈ (records recs).entries, Complete wl length r :=
  ((spread_block hten length).putAll_flatMap recs h).2

/-- An iterator from a key stands where the key's own record would begin. -/
theorem le_block_iff {length : ℕ} {r : Bytes × Row} (hr : Complete wl length r) {key : Bytes}
    (hkey : key.length = length) {a : Bytes × Bytes} (ha : a ∈ block r) : key ≤ a.1 ↔ key ≤ r.1 := by
  obtain ⟨f, _, rfl⟩ := List.mem_map.mp ha
  constructor
  · intro hle
    refine not_lt.mp fun hlt => ?_
    have hno : ¬ r.1 <+: key := fun hp => hlt.ne (hp.eq_of_length (hr.length.trans hkey.symm))
    have hlt' := append_lt_append_of_lt hlt hno (colon :: f.1) []
    rw [List.append_nil] at hlt'
    exact absurd hle (not_le.mpr hlt')
  · intro hle
    rcases hle.eq_or_lt with heq | hlt
    · exact le_compKey (heq ▸ List.prefix_rfl) f.1
    · have hlt' := append_lt_append_of_lt hlt (fun hp => hlt.ne (hp.eq_of_length (hkey.trans hr.length.symm))) []
        (colon :: f.1)
      rw [List.append_nil] at hlt'
      exact hlt'.le

theorem seek_comp (hten : wl.fieldCount ≤ 10) {length : ℕ} {recs : List (Bytes × Row)}
    (h : ∀ r ∈ recs, Complete wl length r) {key : Bytes} (hkey : key.length = length) :
    hS.rest (S.seek (insertAll (insertCompKey S) recs) key) = ((records recs).seek key).flatMap block := by
  rw [hS.rest_seek, OrdMap.seek_eq_filter, OrdMap.seek_eq_filter, abs_insertAll_comp]
  refine (congrArg _ ((spread_block hten length).putAll_flatMap recs h).1).trans (OrdMap.filter_flatMap_block ?_)
  exact fun r hr a ha => decide_eq_decide.mpr (le_block_iff (complete_records hten h r hr) hkey ha)

theorem scanSingleEntry_eq (S : KVStore Bytes Bytes) (fieldcount : ℕ) (db : S.State) (key : Bytes) (len : ℤ)
    (fields : Option (List Bytes)) (result : List Row) :
    scanSingleEntry S fieldcount db key len fields result =
      RocksdbDB.scanSingle S fieldcount db key len fields result := by
  cases fields <;> rfl

theorem coupled_single {length : ℕ} (hten : wl.fieldCount ≤ 10) {recs : List (Bytes × Row)}
    (h : ∀ r ∈ recs, Complete wl length r) :
    Coupled hS wl.fieldCount (insertAll (insertSingleEntry S) recs) (records recs) where
  bytes := by
    rw [abs_insertAll_single, OrdMap.map_putAll]
    rfl
  wf a ha := (complete_records hten h a ha).wf

/-! ## Agreement -/

/-- Both scans succeed, with the same rows. -/
def ScansAgree (S : KVStore Bytes Bytes) (wl : CoreWorkload) (recs : List (Bytes × Row)) (key : Bytes) (len : ℤ)
    (fields : Option (List Bytes)) : Prop :=
  ∃ rows, scanCompKeyRM S wl (insertAll (insertCompKey S) recs) key len fields [] = .ok (.kOK, rows) ∧
    scanSingleEntry S wl.fieldCount (insertAll (insertSingleEntry S) recs) key len fields [] = .ok (.kOK, rows)

/-- `NULL`, or some of the field names in order. -/
def Subsequence (wl : CoreWorkload) (fields : Option (List Bytes)) : Prop :=
  ∀ names', fields = some names' → names' ≠ [] ∧ names'.Sublist ((List.range wl.fieldCount).map wl.fieldName)

theorem Subsequence.selects {fields : Option (List Bytes)} (hf : Subsequence wl fields) {length : ℕ}
    {r : Bytes × Row} (hr : Complete wl length r) : RecordStore.Selects fields r.2 := fun names' heq => by
  rw [hr.names]
  exact (hf names' heq).2

include hS in
theorem scansAgree_iff_rows {length : ℕ} (hpos : 1 ≤ wl.fieldCount) (hten : wl.fieldCount ≤ 10)
    {recs : List (Bytes × Row)} (h : ∀ r ∈ recs, Complete wl length r) {key : Bytes} {row : Row}
    (hget : (records recs).get key = some row) (len : ℤ) {fields : Option (List Bytes)} (hf : Subsequence wl fields) :
    ScansAgree S wl recs key len fields ↔
      scanRows S wl fields len.toNat (S.seek (insertAll (insertCompKey S) recs) key) [] =
        .ok ((((records recs).seek key).take len.toNat).map fun r => RecordStore.select r.2 fields) := by
  have hrec := complete_records hten h _ (OrdMap.mem_of_get hget)
  obtain ⟨rows, hseek⟩ := OrdMap.seek_of_get hget
  obtain ⟨f, row', hcons⟩ := List.exists_cons_of_length_pos (l := row) (by rw [hrec.wf.length]; exact hpos)
  have hentry : S.entry (S.seek (insertAll (insertCompKey S) recs) key) = some (compEntry key f) := by
    rw [hS.entry_eq, seek_comp hS hten h hrec.length, hseek, List.flatMap_cons, block, hcons]
    rfl
  have hcomp : scanCompKeyRM S wl (insertAll (insertCompKey S) recs) key len fields [] =
      (scanRows S wl fields len.toNat (S.seek (insertAll (insertCompKey S) recs) key) []).map
        fun rows => (.kOK, rows) := by
    -- the scan finds its key at the first entry
    have hfound : keyFromCompKey (compEntry key f).1 = .ok key := keyFromCompKey_build _ hrec.colon
    simp only [scanCompKeyRM, hentry, hfound, bind, Except.bind]
    rw [if_neg (not_not.mpr rfl)]
    cases scanRows S wl fields len.toNat (S.seek (insertAll (insertCompKey S) recs) key) [] <;> rfl
  have hsingle : scanSingleEntry S wl.fieldCount (insertAll (insertSingleEntry S) recs) key len fields [] =
      .ok (.kOK, (((records recs).seek key).take len.toNat).map fun r => RecordStore.select r.2 fields) := by
    rw [scanSingleEntry_eq, scanSingle_coupled (coupled_single hS hten h) fun a ha => ?_, OrdMap.seek_eq_filter]
    exact hf.selects (complete_records hten h a (List.mem_of_mem_filter (List.mem_of_mem_take ha)))
  rw [ScansAgree, hcomp, hsingle]
  constructor
  · intro hagree
    obtain ⟨rows', hok, heq⟩ := hagree
    rw [Except.ok.injEq, Prod.mk.injEq] at heq
    cases hscan : scanRows S wl fields len.toNat (S.seek (insertAll (insertCompKey S) recs) key) [] with
    | error e =>
      rw [hscan] at hok
      cases hok
    | ok rows =>
      rw [hscan] at hok
      cases hok
      rw [heq.2]
  · intro hscan
    rw [hscan]
    exact ⟨_, rfl, rfl⟩

/-- The last requested field is the last field of the records. -/
def EndsRecord (wl : CoreWorkload) (fields : Option (List Bytes)) : Prop :=
  ∀ names', fields = some names' → names'.getLast? = some (wl.fieldName (wl.fieldCount - 1))

theorem Complete.last_name {length : ℕ} {r : Bytes × Row} (hr : Complete wl length r) (hpos : 1 ≤ wl.fieldCount) :
    (Lib.names r.2).getLast? = some (wl.fieldName (wl.fieldCount - 1)) := by
  obtain ⟨n, hn⟩ := Nat.exists_eq_add_of_le' hpos
  rw [hr.names, hn, List.range_succ, List.map_append, List.map_singleton, List.getLast?_concat, Nat.add_sub_cancel]

theorem rest_eq_nil_iff {length : ℕ} {r : Bytes × Row} (hr : Complete wl length r) (hpos : 1 ≤ wl.fieldCount)
    {fields : Option (List Bytes)} (hf : Subsequence wl fields) : rest fields r.2 = [] ↔ EndsRecord wl fields := by
  cases fields with
  | none => exact ⟨fun _ _ heq => (nomatch heq), fun _ => rfl⟩
  | some names' =>
    have hsub := hf.selects hr names' rfl
    rw [rest, leftover_eq_nil_iff [] hr.wf.nodup (hf names' rfl).1 hsub, hr.last_name hpos]
    exact ⟨fun h _ heq => Option.some.inj heq ▸ h, fun h => h names' rfl⟩

theorem scanRows_le_one {length : ℕ} (hpos : 1 ≤ wl.fieldCount) {r : Bytes × Row} (hr : Complete wl length r)
    {fields : Option (List Bytes)} (hsel : RecordStore.Selects fields r.2) {rows : List (Bytes × Row)} {len : ℕ}
    (hlen : len ≤ 1) {it : S.Iter} (hrest : hS.rest it = (r :: rows).flatMap block) :
    scanRows S wl fields len it [] = .ok (((r :: rows).take len).map fun r => RecordStore.select r.2 fields) := by
  rcases Nat.le_one_iff_eq_zero_or_eq_one.mp hlen with rfl | rfl
  · rfl
  · obtain ⟨it', hrow, _⟩ := scanRow_record hS hr hsel hrest
    obtain ⟨f, row, hcons⟩ := List.exists_cons_of_length_pos (l := r.2) (by rw [hr.wf.length]; exact hpos)
    have hentry : S.entry it = some (compEntry r.1 f) := by
      rw [hS.entry_eq, hrest, List.flatMap_cons, block, hcons]
      rfl
    simp only [scanRows, hentry, hrow, bind, Except.bind]
    rfl

include hS in
/-- The second turn starts inside a record. -/
theorem scans_differ {length : ℕ} (hpos : 1 ≤ wl.fieldCount) (hten : wl.fieldCount ≤ 10) {recs : List (Bytes × Row)}
    (h : ∀ r ∈ recs, Complete wl length r) {key : Bytes} (hkey : key ∈ recs.map Prod.fst) {len : ℤ} (hlen : 2 ≤ len)
    {fields : Option (List Bytes)} (hf : Subsequence wl fields) (hend : ¬ EndsRecord wl fields) :
    ¬ ScansAgree S wl recs key len fields := by
  obtain ⟨row, hget⟩ := OrdMap.exists_get_putAll hkey
  have hrec := complete_records hten h _ (OrdMap.mem_of_get hget)
  obtain ⟨rows, hseek⟩ := OrdMap.seek_of_get hget
  have hrest := seek_comp hS hten h hrec.length
  have hleft : rest fields row ≠ [] := fun hnil => hend ((rest_eq_nil_iff hrec hpos hf).mp hnil)
  cases fields with
  | none => exact absurd rfl hleft
  | some names' =>
    intro hscan
    have htwo : 2 ≤ len.toNat := by omega
    rw [hseek] at hrest
    rw [scansAgree_iff_rows hS hpos hten h hget len hf,
      scanRows_misaligned hS hpos (hf names' rfl).1 hrec (hf.selects hrec) hleft htwo hrest] at hscan
    cases hscan

/-- **The row-major scan agrees with the single-entry scan exactly** when it is for one
record at most, or for all fields, or when the last requested field is the last of the record. -/
theorem scansAgree_iff (S : KVStore Bytes Bytes) (hS : S.Ordered) (wl : CoreWorkload) (hpos : 1 ≤ wl.fieldCount)
    (hten : wl.fieldCount ≤ 10) (length : ℕ) (recs : List (Bytes × Row)) (h : ∀ r ∈ recs, Complete wl length r)
    (key : Bytes) (hkey : key ∈ recs.map Prod.fst) (len : ℤ) (hlen : 0 ≤ len) (fields : Option (List Bytes))
    (hf : Subsequence wl fields) : ScansAgree S wl recs key len fields ↔ len ≤ 1 ∨ EndsRecord wl fields := by
  constructor
  · intro hagree
    by_contra hcond
    rw [not_or, not_le] at hcond
    exact scans_differ hS hpos hten h hkey hcond.1 hf hcond.2 hagree
  · intro hcond
    obtain ⟨row, hget⟩ := OrdMap.exists_get_putAll hkey
    have hrecords := complete_records hten h
    have hrec := hrecords _ (OrdMap.mem_of_get hget)
    obtain ⟨rows, hseek⟩ := OrdMap.seek_of_get hget
    have hrest := seek_comp hS hten h hrec.length
    rw [scansAgree_iff_rows hS hpos hten h hget len hf, hseek]
    rw [hseek] at hrest
    rcases hcond with hone | hend
    · exact scanRows_le_one hS hpos hrec (hf.selects hrec) (by omega) hrest
    · have haligned : ∀ r ∈ (key, row) :: rows,
          Complete wl length r ∧ RecordStore.Selects fields r.2 ∧ rest fields r.2 = [] := by
        intro r hr
        rw [← hseek, OrdMap.seek_eq_filter] at hr
        have hr := hrecords r (List.mem_of_mem_filter hr)
        exact ⟨hr, hf.selects hr, (rest_eq_nil_iff hr hpos hf).mpr hend⟩
      exact scanRows_aligned hS len.toNat [] hpos haligned hrest

end

def twoFields : CoreWorkload := { CoreWorkload.default with fieldCount := 2 }

def twoUsers : List (Bytes × Row) :=
  [([117, 49], [(twoFields.fieldName 0, [1]), (twoFields.fieldName 1, [2])]),
    ([117, 50], [(twoFields.fieldName 0, [3]), (twoFields.fieldName 1, [4])])]

theorem complete_twoUsers : ∀ r ∈ twoUsers, Complete twoFields 2 r := by
  intro r hr
  simp only [twoUsers, List.mem_cons, List.not_mem_nil, or_false] at hr
  rcases hr with rfl | rfl
  · exact ⟨by decide, rfl, rfl, by unfold Sized; decide⟩
  · exact ⟨by decide, rfl, rfl, by unfold Sized; decide⟩

theorem subsequence_single (i : ℕ) (hi : i < 2) : Subsequence twoFields (some [twoFields.fieldName i]) := by
  intro names' heq
  rw [← Option.some.inj heq]
  exact ⟨List.cons_ne_nil _ _, List.singleton_sublist.mpr (List.mem_map_of_mem (List.mem_range.mpr hi))⟩

theorem scansAgree_last_field :
    ScansAgree (OrdMap.store Bytes Bytes) twoFields twoUsers [117, 49] 2 (some [twoFields.fieldName 1]) :=
  (scansAgree_iff _ (OrdMap.storeOrdered Bytes Bytes) twoFields (by decide) (by decide) 2 twoUsers complete_twoUsers _
    (by decide) 2 (by decide) _ (subsequence_single 1 (by decide))).mpr
    (Or.inr fun _ heq => Option.some.inj heq ▸ rfl)

/-- Two records, two fields, the first of which is requested. -/
theorem scans_differ_first_field : (∀ r ∈ twoUsers, Complete twoFields 2 r) ∧
    Subsequence twoFields (some [twoFields.fieldName 0]) ∧
    ¬ ScansAgree (OrdMap.store Bytes Bytes) twoFields twoUsers [117, 49] 2 (some [twoFields.fieldName 0]) := by
  have hsub := subsequence_single 0 (by decide)
  refine ⟨complete_twoUsers, hsub, ?_⟩
  apply scans_differ (OrdMap.storeOrdered Bytes Bytes) (by decide) (by decide) complete_twoUsers (by decide) le_rfl hsub
  exact fun hend => absurd (hend _ rfl) (by decide)

end LeveldbDB

end Ycsb
