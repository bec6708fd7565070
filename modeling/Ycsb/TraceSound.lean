import Mathlib.Algebra.Order.BigOperators.Group.Finset
import Ycsb.Trace

/-!
# When a replay follows its trace

`len` is the size of the last file loaded, and the reader takes every file to
have that size. It follows the trace if the files it leaves behind have it.
-/

namespace Ycsb

open Lib

namespace InsertThreadState

/-! ## One key -/

section
variable {w : ℕ → Bytes} {n : ℕ → ℕ} {k m i c : ℕ}

/-- After `c` records of file `i`, with the files up to `k` loaded and `len` for `m` records. -/
def reading (w : ℕ → Bytes) (k m i c : ℕ) : InsertThreadState where
  workloads := (List.range (k + 1)).map w
  curWorkload := w i
  workloadI := i
  len := recordLength * m
  offset := recordLength * c

def keyAt (data : Bytes) (c : ℕ) : Bytes := (data.drop (recordLength * c + keyOffset)).take keyLength

theorem hasNextKey_reading : (reading w k m i c).hasNextKey = decide (c < m) := by
  apply decide_eq_decide.mpr
  change 27 * c + 27 ≤ 27 * m ↔ c < m
  omega

theorem getNextKey_eq {s : InsertThreadState} (h : s.hasNextKey = true) :
    s.getNextKey = (readBytes s.curWorkload (s.offset + keyOffset) keyLength).map fun key =>
      (key, { s with offset := s.offset + recordLength }) := by
  simp only [getNextKey, h, if_true, pure, Except.pure, bind, Except.bind]
  cases readBytes s.curWorkload (s.offset + keyOffset) keyLength <;> rfl

theorem readBytes_key (hw : (w i).length = recordLength * n i) :
    readBytes (w i) (recordLength * c + keyOffset) keyLength =
      if c < n i then .ok (keyAt (w i) c) else .error .read := by
  have hfit : recordLength * c + keyOffset + keyLength ≤ (w i).length ↔ c < n i := by
    rw [hw]
    simp only [recordLength, keyOffset, keyLength]
    omega
  by_cases hn : c < n i
  · rw [if_pos hn]
    exact if_pos (hfit.mpr hn)
  · rw [if_neg hn]
    exact if_neg (mt hfit.mp hn)

theorem getNextKey_stay (hw : (w i).length = recordLength * n i) (hm : c < m) (hn : c < n i) :
    (reading w k m i c).getNextKey = .ok (keyAt (w i) c, reading w k m i (c + 1)) := by
  rw [getNextKey_eq (by rw [hasNextKey_reading, decide_eq_true hm])]
  simp only [reading, readBytes_key hw, if_pos hn, Except.map]
  rfl

theorem getNextKey_overrun (hw : (w i).length = recordLength * n i) (hm : c < m) (hn : n i ≤ c) :
    (reading w k m i c).getNextKey = .error .read := by
  rw [getNextKey_eq (by rw [hasNextKey_reading, decide_eq_true hm])]
  simp only [reading, readBytes_key hw, if_neg (Nat.not_lt.mpr hn), Except.map]

theorem nextWorkload_reading (hi : i < k) : (reading w k m i c).nextWorkload = .ok (reading w k m (i + 1) 0) := by
  have hget : ((List.range (k + 1)).map w)[i + 1]? = some (w (i + 1)) := by
    rw [List.getElem?_map, List.getElem?_range (by omega)]
    rfl
  simp only [nextWorkload, reading, hget]
  rfl

theorem nextWorkload_last (hi : k ≤ i) : (reading w k m i c).nextWorkload = .error .read := by
  have hget : ((List.range (k + 1)).map w)[i + 1]? = none := by
    rw [List.getElem?_eq_none]
    simp
    omega
  simp only [nextWorkload, reading, hget]

theorem getNextKey_switch (hm : m ≤ c) (hi : i < k) (hpos : 0 < m) :
    (reading w k m i c).getNextKey = (reading w k m (i + 1) 0).getNextKey := by
  have hfalse : (reading w k m i c).hasNextKey = false := by
    rw [hasNextKey_reading]
    exact decide_eq_false (by omega)
  have htrue : (reading w k m (i + 1) 0).hasNextKey = true := by
    rw [hasNextKey_reading]
    exact decide_eq_true hpos
  simp only [getNextKey, hfalse, htrue, nextWorkload_reading hi, pure, Except.pure]
  rfl

theorem getNextKey_last (hm : m ≤ c) (hi : k ≤ i) : (reading w k m i c).getNextKey = .error .read := by
  have hfalse : (reading w k m i c).hasNextKey = false := by
    rw [hasNextKey_reading]
    exact decide_eq_false (by omega)
  simp only [getNextKey, hfalse, nextWorkload_last hi]
  rfl

end

/-! ## Several keys -/

theorem getKeys_succ (n : ℕ) (s : InsertThreadState) : getKeys (n + 1) s =
    s.getNextKey.bind fun r => (getKeys n r.2).map fun r' => (r.1 :: r'.1, r'.2) := by
  rw [getKeys]
  cases s.getNextKey with
  | error e => rfl
  | ok r =>
    change (getKeys n r.2 >>= _) = (getKeys n r.2).map _
    cases getKeys n r.2 <;> rfl

theorem getKeys_add : ∀ (a b : ℕ) (s : InsertThreadState), getKeys (a + b) s =
    (getKeys a s).bind fun r => (getKeys b r.2).map fun r' => (r.1 ++ r'.1, r'.2)
  | 0, b, s => by
    rw [Nat.zero_add, getKeys]
    change getKeys b s = (getKeys b s).map _
    cases getKeys b s <;> rfl
  | a + 1, b, s => by
    rw [Nat.add_right_comm, getKeys_succ, getKeys_succ]
    cases s.getNextKey with
    | error e => rfl
    | ok r =>
      simp only [Except.bind, getKeys_add a b r.2]
      cases getKeys a r.2 with
      | error e => rfl
      | ok r' =>
        simp only [Except.map]
        cases getKeys b r'.2 <;> rfl

theorem getKeys_snoc {a : ℕ} {s t u : InsertThreadState} {keys : List Bytes} {key : Bytes}
    (h : getKeys a s = .ok (keys, t)) (hnext : t.getNextKey = .ok (key, u)) :
    getKeys (a + 1) s = .ok (keys ++ [key], u) := by
  rw [getKeys_add, h]
  simp only [Except.bind]
  rw [getKeys_succ, hnext]
  rfl

theorem getKeys_prefix {a b : ℕ} {s t u : InsertThreadState} {keys keys' : List Bytes}
    (h : getKeys (a + 1 + b) s = .ok (keys', u)) (ha : getKeys a s = .ok (keys, t)) :
    ∃ key u', t.getNextKey = .ok (key, u') ∧ ∃ rest, keys' = keys ++ key :: rest := by
  rw [Nat.add_assoc, getKeys_add, ha] at h
  simp only [Except.bind, Nat.add_comm 1 b, getKeys_succ] at h
  cases hn : t.getNextKey with
  | error e => simp [hn, Except.map] at h
  | ok r =>
    simp only [hn] at h
    cases hb : getKeys b r.2 with
    | error e => simp [hb, Except.map] at h
    | ok r' =>
      simp only [hb, Except.map, Except.ok.injEq, Prod.mk.injEq] at h
      exact ⟨r.1, r.2, rfl, r'.1, h.1.symm⟩

end InsertThreadState

open InsertThreadState

/-! ## The trace -/

def traceKeys (files : List Bytes) (numOps : ℕ) : List Bytes := (List.range numOps).map (keyAt files.flatten)

section
variable {w : ℕ → Bytes} {n : ℕ → ℕ} {k K m i c : ℕ}

theorem keyAt_append {pre data post : Bytes} {a c : ℕ} (hpre : pre.length = recordLength * a)
    (hc : recordLength * (c + 1) ≤ data.length) : keyAt (pre ++ (data ++ post)) (a + c) = keyAt data c := by
  have hoff : recordLength * (a + c) + keyOffset = pre.length + (recordLength * c + keyOffset) := by
    rw [hpre, Nat.mul_add, Nat.add_assoc]
  have hle : keyLength ≤ (data.drop (recordLength * c + keyOffset)).length := by
    rw [List.length_drop]
    simp only [recordLength, keyOffset, keyLength] at hc ⊢
    omega
  have hle' : recordLength * c + keyOffset ≤ data.length := by
    simp only [recordLength, keyOffset] at hc ⊢
    omega
  rw [keyAt, hoff, ← List.drop_drop, List.drop_left, List.drop_append_of_le_length hle',
    List.take_append_of_le_length hle]
  rfl

theorem flatten_length (hw : ∀ j < i, (w j).length = recordLength * n j) :
    ((List.range i).map w).flatten.length = recordLength * ∑ j ∈ Finset.range i, n j := by
  induction i with
  | zero => rfl
  | succ i ih =>
    rw [List.range_succ, List.map_append, List.flatten_append, List.length_append, ih fun j hj => hw j (by omega),
      Finset.sum_range_succ, Nat.mul_add]
    simp [hw i (Nat.lt_succ_self i)]

theorem keyAt_flatten (hw : ∀ j < K, (w j).length = recordLength * n j) (hi : i < K) (hc : c < n i) :
    keyAt ((List.range K).map w).flatten (∑ j ∈ Finset.range i, n j + c) = keyAt (w i) c := by
  obtain ⟨d, rfl⟩ := Nat.exists_eq_add_of_lt hi
  have hsplit : ((List.range (i + d + 1)).map w).flatten = ((List.range i).map w).flatten ++
      (w i ++ ((List.range d).map fun j => w (i + 1 + j)).flatten) := by
    rw [Nat.add_right_comm, List.range_add, List.map_append, List.flatten_append, List.range_succ, List.map_append,
      List.flatten_append, List.map_map, List.append_assoc]
    simp [Function.comp_def]
  rw [hsplit]
  refine keyAt_append (flatten_length fun j hj => hw j (by omega)) ?_
  rw [hw i hi]
  exact Nat.mul_le_mul_left _ hc

theorem sum_full (hfull : ∀ j < i, n j = m) : ∑ j ∈ Finset.range i, n j = i * m := by
  rw [Finset.sum_congr rfl fun j hj => hfull j (Finset.mem_range.mp hj), Finset.sum_const, Finset.card_range,
    Nat.nsmul_eq_mul]

theorem traceKeys_add (hK : ∀ j < K, (w j).length = recordLength * n j) (hfull : ∀ j < i, n j = m) (hi : i < K)
    (hc : c ≤ n i) : traceKeys ((List.range K).map w) (i * m + c) =
      traceKeys ((List.range K).map w) (i * m) ++ (List.range c).map (keyAt (w i)) := by
  rw [traceKeys, List.range_add, List.map_append, List.map_map, traceKeys]
  congr 1
  apply List.map_congr_left
  intro d hd
  rw [List.mem_range] at hd
  rw [Function.comp_apply, ← sum_full hfull, keyAt_flatten hK hi (by omega)]

theorem traceKeys_next {files rest : List Bytes} {key : Bytes} {a b : ℕ}
    (h : traceKeys files (a + 1 + b) = traceKeys files a ++ key :: rest) : key = keyAt files.flatten a := by
  have hget := congrArg (·[a]?) h
  have hlen : (traceKeys files a).length = a := by simp [traceKeys]
  simp only [List.getElem?_append_right hlen.le, hlen, Nat.sub_self, List.getElem?_cons_zero] at hget
  simpa [traceKeys, List.getElem?_range (show a < a + 1 + b by omega)] using hget.symm

/-- A reader that is about to start a file reads it up to its end or to the end of `len`. -/
theorem getKeys_file {a : ℕ} {s t : InsertThreadState} {keys : List Bytes} (h : getKeys a s = .ok (keys, t))
    (ht : t.getNextKey = (reading w k m i 0).getNextKey) (hw : (w i).length = recordLength * n i)
    (hn : c + 1 ≤ n i) (hm : c + 1 ≤ m) :
    getKeys (a + (c + 1)) s = .ok (keys ++ (List.range (c + 1)).map (keyAt (w i)), reading w k m i (c + 1)) := by
  induction c with
  | zero => exact getKeys_snoc h (ht.trans (getNextKey_stay hw hm hn))
  | succ c ih =>
    rw [← Nat.add_assoc, getKeys_snoc (ih (by omega) (by omega)) (getNextKey_stay hw hm hn),
      List.range_succ (n := c + 1), List.map_append, ← List.append_assoc]
    rfl

/-- The reader follows the trace to file `i` if the files before it have `m` records. -/
theorem getKeys_full (hw : ∀ j ≤ k, (w j).length = recordLength * n j)
    (hK : ∀ j < K, (w j).length = recordLength * n j) (hpos : 0 < m) (hfull : ∀ j < i, n j = m) (hik : i ≤ k)
    (hiK : i < K) : ∃ t, getKeys (i * m) (reading w k m 0 0) = .ok (traceKeys ((List.range K).map w) (i * m), t) ∧
      t.getNextKey = (reading w k m i 0).getNextKey := by
  induction i with
  | zero => exact ⟨reading w k m 0 0, by simp [getKeys, traceKeys], rfl⟩
  | succ i ih =>
    obtain ⟨t, hget, hnext⟩ := ih (fun j hj => hfull j (by omega)) (by omega) (by omega)
    obtain ⟨c, rfl⟩ := Nat.exists_eq_add_of_lt hpos
    rw [Nat.zero_add] at *
    have hi : n i = c + 1 := hfull i (Nat.lt_succ_self i)
    refine ⟨reading w k (c + 1) i (c + 1), ?_, getNextKey_switch (Nat.le_refl _) (by omega) hpos⟩
    rw [Nat.succ_mul, getKeys_file hget hnext (hw i (by omega)) hi.ge (Nat.le_refl _),
      traceKeys_add hK (fun j hj => hfull j (by omega)) (by omega) hi.ge]

theorem getKeys_reading (hw : ∀ j ≤ k, (w j).length = recordLength * n j)
    (hK : ∀ j < K, (w j).length = recordLength * n j) (hpos : 0 < m) (hfull : ∀ j < i, n j = m) (hik : i ≤ k)
    (hiK : i < K) (hn : c ≤ n i) (hm : c ≤ m) (hc : 0 < c) :
    getKeys (i * m + c) (reading w k m 0 0) =
      .ok (traceKeys ((List.range K).map w) (i * m + c), reading w k m i c) := by
  obtain ⟨t, hget, hnext⟩ := getKeys_full hw hK hpos hfull hik hiK
  obtain ⟨c, rfl⟩ := Nat.exists_eq_add_of_lt hc
  rw [Nat.zero_add] at *
  rw [getKeys_file hget hnext (hw i hik) hn hm, traceKeys_add hK hfull hiK hn]

end

/-! ## The files of a thread -/

abbrev TraceSizes := ℕ → Option ℕ

/-- Every file has its number of records, and no other bytes. -/
def HasSizes (files : TraceFiles) (sizes : TraceSizes) : Prop :=
  ∀ number, (files number).map List.length = (sizes number).map (recordLength * ·)

section
variable (files : TraceFiles) (sizes : TraceSizes) (threadcount mythreadid numOps : ℕ)

def threadFile (i : ℕ) : Bytes := (files (fileNumber i threadcount mythreadid)).getD []

def records (i : ℕ) : ℕ := (sizes (fileNumber i threadcount mythreadid)).getD 0

/-- The records of a thread's first `i` files. -/
def total (i : ℕ) : ℕ := ∑ j ∈ Finset.range i, records sizes threadcount mythreadid j

/-- The first `K` files of the thread exist and have enough records. -/
def Covers (K : ℕ) : Prop :=
  (∀ i < K, (sizes (fileNumber i threadcount mythreadid)).isSome) ∧ numOps ≤ total sizes threadcount mythreadid K

/-- The keys of the thread's first records are read in order, and its files are no other thread's. -/
def Replays (K : ℕ) : Prop :=
  (∃ fuel, replay files threadcount mythreadid numOps fuel =
    some (.ok (traceKeys ((List.range K).map (threadFile files threadcount mythreadid)) numOps))) ∧
  ∀ otherid < threadcount, otherid ≠ mythreadid →
    ∀ i j, fileNumber i threadcount mythreadid ≠ fileNumber j threadcount otherid

def canOpen (i : ℕ) : Bool :=
  decide (fileNumber i threadcount mythreadid < 2 ^ 31) && (sizes (fileNumber i threadcount mythreadid)).isSome

/-- `k` is the last file that the constructor loads. -/
def LoadsTo (k : ℕ) : Prop :=
  (∀ j ≤ k, toInt (total sizes threadcount mythreadid j % 2 ^ 32) < numOps ∧ canOpen sizes threadcount mythreadid j) ∧
    numOps ≤ toInt (total sizes threadcount mythreadid (k + 1) % 2 ^ 32)

/-- The files the thread leaves behind have `m` records, and the file of its last key has the rest. -/
def FullUpTo (m : ℕ) : Prop :=
  (∀ j < (numOps - 1) / m, records sizes threadcount mythreadid j = m) ∧
    numOps ≤ (numOps - 1) / m * m + records sizes threadcount mythreadid ((numOps - 1) / m)

/-- All files the thread leaves behind have as many records as the last one it loads. -/
def EvenlyFilled : Prop :=
  0 < numOps ∧ ∃ k, LoadsTo sizes threadcount mythreadid numOps k ∧
    FullUpTo sizes threadcount mythreadid numOps (records sizes threadcount mythreadid k)

end

theorem fileNumber_inj {threadcount t t' i j : ℕ} (ht : t < threadcount) (ht' : t' < threadcount)
    (h : fileNumber i threadcount t = fileNumber j threadcount t') : t = t' := by
  have hmod := congrArg (· % threadcount) (Nat.succ.inj h)
  simpa [Nat.mul_add_mod_of_lt, Nat.add_comm, Nat.mod_eq_of_lt, ht, ht', Nat.add_mul_mod_self_right] using hmod

section
variable {files : TraceFiles} {sizes : TraceSizes} {threadcount mythreadid numOps i k K m : ℕ}

theorem threadFile_length (h : HasSizes files sizes) (i : ℕ) :
    (threadFile files threadcount mythreadid i).length = recordLength * records sizes threadcount mythreadid i := by
  have hi := h (fileNumber i threadcount mythreadid)
  unfold threadFile records
  cases hf : files (fileNumber i threadcount mythreadid) with
  | none =>
    rw [hf, Option.map_none, eq_comm, Option.map_eq_none_iff] at hi
    rw [hi]
    rfl
  | some data =>
    rw [hf, Option.map_some, eq_comm, Option.map_eq_some_iff] at hi
    obtain ⟨c, hc, hlen⟩ := hi
    rw [hc]
    exact hlen.symm

theorem openFile_eq (h : HasSizes files sizes) (i : ℕ) :
    openFile files (fileNumber i threadcount mythreadid) =
      if canOpen sizes threadcount mythreadid i then some (threadFile files threadcount mythreadid i) else none := by
  have hi := h (fileNumber i threadcount mythreadid)
  unfold openFile canOpen threadFile
  by_cases hlt : fileNumber i threadcount mythreadid < 2 ^ 31
  · cases hf : files (fileNumber i threadcount mythreadid) with
    | none =>
      rw [hf, Option.map_none, eq_comm, Option.map_eq_none_iff] at hi
      simp [hi]
    | some data =>
      rw [hf, Option.map_some, eq_comm, Option.map_eq_some_iff] at hi
      obtain ⟨c, hc, _⟩ := hi
      simp [hc]
  · rw [if_neg hlt, decide_eq_false hlt, Bool.false_and, if_neg Bool.false_ne_true]

theorem total_succ (i : ℕ) : total sizes threadcount mythreadid (i + 1) =
    total sizes threadcount mythreadid i + records sizes threadcount mythreadid i :=
  Finset.sum_range_succ _ _

/-! ## The loader -/

theorem load_succ (h : HasSizes files sizes) (fuel i : ℕ) (workloads : List Bytes) (len : ℕ)
    (hlt : toInt (total sizes threadcount mythreadid i % 2 ^ 32) < numOps)
    (hopen : canOpen sizes threadcount mythreadid i = true) :
    load files threadcount mythreadid numOps (fuel + 1) i (total sizes threadcount mythreadid i % 2 ^ 32) workloads len =
      load files threadcount mythreadid numOps fuel (i + 1) (total sizes threadcount mythreadid (i + 1) % 2 ^ 32)
        (workloads ++ [threadFile files threadcount mythreadid i])
        (recordLength * records sizes threadcount mythreadid i) := by
  rw [load, if_pos hlt, openFile_eq h, if_pos hopen]
  simp only [threadFile_length h]
  rw [Nat.mul_div_cancel_left _ (by decide : 0 < recordLength), Nat.mod_add_mod, total_succ]

theorem load_run (h : HasSizes files sizes) (hk : LoadsTo sizes threadcount mythreadid numOps k) :
    ∀ (d i : ℕ) (workloads : List Bytes) (len : ℕ), i + d = k →
      load files threadcount mythreadid numOps (d + 2) i (total sizes threadcount mythreadid i % 2 ^ 32) workloads len =
        some (.ok (workloads ++ (List.range (d + 1)).map fun j => threadFile files threadcount mythreadid (i + j),
          recordLength * records sizes threadcount mythreadid k)) := by
  intro d
  induction d with
  | zero =>
    intro i workloads len hi
    obtain rfl : i = k := hi
    rw [load_succ h 1 i workloads len (hk.1 i (Nat.le_refl _)).1 (hk.1 i (Nat.le_refl _)).2, load,
      if_neg (not_lt.mpr hk.2)]
    rfl
  | succ d ih =>
    intro i workloads len hi
    rw [load_succ h (d + 2) i workloads len (hk.1 i (by omega)).1 (hk.1 i (by omega)).2, ih _ _ _ (by omega),
      List.range_succ_eq_map (n := d + 1), List.map_cons, List.map_map, List.append_assoc]
    simp only [Function.comp_def, Nat.succ_eq_add_one, Nat.add_right_comm i 1, Nat.add_assoc i _ 1]
    rfl

theorem load_ends (h : HasSizes files sizes) : ∀ (fuel i : ℕ) (workloads : List Bytes) (len : ℕ) {r : List Bytes × ℕ},
    load files threadcount mythreadid numOps fuel i (total sizes threadcount mythreadid i % 2 ^ 32) workloads len =
      some (.ok r) →
    ∃ k, (∀ j, i ≤ j → j < k → toInt (total sizes threadcount mythreadid j % 2 ^ 32) < numOps ∧
        canOpen sizes threadcount mythreadid j) ∧
      i ≤ k ∧ numOps ≤ toInt (total sizes threadcount mythreadid k % 2 ^ 32) := by
  intro fuel
  induction fuel with
  | zero =>
    intro i workloads len r hload
    cases hload
  | succ fuel ih =>
    intro i workloads len r hload
    by_cases hlt : toInt (total sizes threadcount mythreadid i % 2 ^ 32) < numOps
    · by_cases hopen : canOpen sizes threadcount mythreadid i = true
      · rw [load_succ h fuel i workloads len hlt hopen] at hload
        obtain ⟨k, hbefore, hik, hend⟩ := ih _ _ _ hload
        refine ⟨k, ?_, by omega, hend⟩
        intro j hij hjk
        rcases Nat.eq_or_lt_of_le hij with rfl | hij
        · exact ⟨hlt, hopen⟩
        · exact hbefore j hij hjk
      · rw [load, if_pos hlt, openFile_eq h, if_neg hopen] at hload
        cases hload
    · exact ⟨i, fun j hij hji => absurd hji (by omega), Nat.le_refl _, not_lt.mp hlt⟩

theorem construct_run (h : HasSizes files sizes) (hk : LoadsTo sizes threadcount mythreadid numOps k) :
    construct files threadcount mythreadid numOps (k + 2) = some (.ok (reading
      (threadFile files threadcount mythreadid) k (records sizes threadcount mythreadid k) 0 0)) := by
  have hload := load_run h hk k 0 [] 0 (Nat.zero_add k)
  simp only [total, Finset.range_zero, Finset.sum_empty, Nat.zero_mod, List.nil_append, Nat.zero_add] at hload
  rw [construct, hload]
  simp only [Option.map_some, Except.bind, List.range_succ_eq_map (n := k), List.map_cons, reading]
  rfl

theorem load_mono {fuel fuel' : ℕ} (hle : fuel ≤ fuel') : ∀ {i loadedOps len : ℕ} {workloads : List Bytes}
    {r : Except Fault (List Bytes × ℕ)},
      load files threadcount mythreadid numOps fuel i loadedOps workloads len = some r →
      load files threadcount mythreadid numOps fuel' i loadedOps workloads len = some r := by
  induction fuel generalizing fuel' with
  | zero =>
    intro i loadedOps len workloads r h
    cases h
  | succ fuel ih =>
    intro i loadedOps len workloads r h
    obtain ⟨fuel', rfl⟩ := Nat.exists_eq_add_of_lt (Nat.lt_of_succ_le hle)
    rw [load] at h ⊢
    by_cases hlt : toInt loadedOps < numOps
    · rw [if_pos hlt] at h ⊢
      cases hopen : openFile files (fileNumber i threadcount mythreadid) with
      | none => rwa [hopen] at h
      | some workload =>
        rw [hopen] at h
        exact ih (by omega) h
    · rwa [if_neg hlt] at h ⊢

theorem replay_mono {fuel fuel' : ℕ} {r : Except Fault (List Bytes)} (hle : fuel ≤ fuel')
    (h : replay files threadcount mythreadid numOps fuel = some r) :
    replay files threadcount mythreadid numOps fuel' = some r := by
  rw [replay, construct] at h ⊢
  cases hload : load files threadcount mythreadid numOps fuel 0 0 [] 0 with
  | none =>
    rw [hload] at h
    cases h
  | some r' => rwa [load_mono hle hload, ← hload]

theorem replay_run (h : HasSizes files sizes) (hk : LoadsTo sizes threadcount mythreadid numOps k) :
    replay files threadcount mythreadid numOps (k + 2) = some ((getKeys numOps (reading
      (threadFile files threadcount mythreadid) k (records sizes threadcount mythreadid k) 0 0)).map Prod.fst) := by
  rw [replay, construct_run h hk]
  rfl

theorem replay_loads (h : HasSizes files sizes) {fuel : ℕ} {keys : List Bytes}
    (hrun : replay files threadcount mythreadid numOps fuel = some (.ok keys)) :
    0 < numOps ∧ ∃ k, LoadsTo sizes threadcount mythreadid numOps k := by
  cases hload : load files threadcount mythreadid numOps fuel 0 0 [] 0 with
  | none =>
    rw [replay, construct, hload] at hrun
    cases hrun
  | some r =>
    cases r with
    | error e =>
      rw [replay, construct, hload] at hrun
      cases hrun
    | ok r =>
      have hpos : 0 < numOps := by
        apply Nat.pos_of_ne_zero
        intro hz
        subst hz
        -- the vector is empty
        have hnone : replay files threadcount mythreadid 0 1 = some (.error .read) := by
          rw [replay, construct, load, if_neg (by decide)]
          rfl
        cases (replay_mono (Nat.le_max_left fuel 1) hrun).symm.trans (replay_mono (Nat.le_max_right fuel 1) hnone)
      obtain ⟨k, hbefore, _, hend⟩ := load_ends h fuel 0 [] 0 hload
      cases k with
      | zero => exact absurd hend (not_le.mpr (Int.natCast_pos.mpr hpos))
      | succ k => exact ⟨hpos, k, fun j hj => hbefore j (Nat.zero_le j) (Nat.lt_succ_of_le hj), hend⟩

theorem getKeys_of_replay (h : HasSizes files sizes) (hk : LoadsTo sizes threadcount mythreadid numOps k) {fuel : ℕ}
    {keys : List Bytes} (hrun : replay files threadcount mythreadid numOps fuel = some (.ok keys)) :
    ∃ s, getKeys numOps (reading (threadFile files threadcount mythreadid) k
      (records sizes threadcount mythreadid k) 0 0) = .ok (keys, s) := by
  have hsame := (replay_mono (Nat.le_max_left fuel (k + 2)) hrun).symm.trans
    (replay_mono (Nat.le_max_right fuel (k + 2)) (replay_run h hk))
  cases hkeys : getKeys numOps (reading (threadFile files threadcount mythreadid) k
      (records sizes threadcount mythreadid k) 0 0) with
  | error e =>
    rw [hkeys] at hsame
    cases hsame
  | ok r =>
    rw [hkeys] at hsame
    simp only [Except.map, Option.some.injEq, Except.ok.injEq] at hsame
    exact ⟨r.2, by rw [hsame]⟩

end

/-! ## When it follows the trace -/

section
variable {files : TraceFiles} {sizes : TraceSizes} {threadcount mythreadid numOps i k K m : ℕ}

theorem toInt_mod_le (n : ℕ) : toInt (n % 2 ^ 32) ≤ n := by
  unfold toInt
  split <;> omega

theorem records_pos (hpos : ∀ number c, sizes number = some c → 0 < c)
    (h : (sizes (fileNumber i threadcount mythreadid)).isSome) : 0 < records sizes threadcount mythreadid i := by
  obtain ⟨c, hc⟩ := Option.isSome_iff_exists.mp h
  rw [records, hc]
  exact hpos _ c hc

theorem LoadsTo.isSome (hk : LoadsTo sizes threadcount mythreadid numOps k) (hi : i ≤ k) :
    (sizes (fileNumber i threadcount mythreadid)).isSome := by
  have hopen := (hk.1 i hi).2
  rw [canOpen, Bool.and_eq_true] at hopen
  exact hopen.2

theorem reach (hk : LoadsTo sizes threadcount mythreadid numOps k) (hK : Covers sizes threadcount mythreadid numOps K)
    (hfull : ∀ j < i, records sizes threadcount mythreadid j = m) (hlt : i * m < numOps) : i ≤ k ∧ i < K := by
  have hshort : ∀ {a}, a ≤ i → total sizes threadcount mythreadid a < numOps := by
    intro a ha
    rw [total, sum_full fun j hj => hfull j (by omega)]
    exact Nat.lt_of_le_of_lt (Nat.mul_le_mul_right m ha) hlt
  constructor
  · apply Nat.le_of_not_lt
    intro hki
    have hle := hk.2.trans (toInt_mod_le _)
    have := hshort (a := k + 1) hki
    omega
  · apply Nat.lt_of_not_le
    intro hKi
    have := hshort hKi
    have := hK.2
    omega

theorem replays_of_evenlyFilled (ht : mythreadid < threadcount) (hpos : ∀ number c, sizes number = some c → 0 < c)
    (hK : Covers sizes threadcount mythreadid numOps K) (he : EvenlyFilled sizes threadcount mythreadid numOps)
    (h : HasSizes files sizes) : Replays files threadcount mythreadid numOps K := by
  obtain ⟨hN, k, hk, hfull, hlast⟩ := he
  have hm := records_pos hpos (hk.isSome (Nat.le_refl k))
  generalize hmk : records sizes threadcount mythreadid k = m at hfull hlast hm
  generalize hq : (numOps - 1) / m = q at hfull hlast
  have hle : q * m ≤ numOps - 1 := hq ▸ Nat.div_mul_le_self _ _
  have hlt : numOps - 1 < q * m + m := hq ▸ Nat.lt_div_mul_add hm
  obtain ⟨hqk, hqK⟩ := reach hk hK hfull (by omega)
  obtain ⟨c, hc⟩ := Nat.exists_eq_add_of_le (hle.trans (Nat.sub_le _ _))
  have hget := getKeys_reading (fun j _ => threadFile_length h j) (fun j _ => threadFile_length h j) hm hfull hqk hqK
    (c := c) (by omega) (by omega) (by omega)
  refine ⟨⟨k + 2, ?_⟩, fun otherid hother hne i j heq => hne (fileNumber_inj ht hother heq).symm⟩
  rw [replay_run h hk, hmk, hc, hget]
  rfl

/-- Files of zeros, but for one file of ones. -/
def markedFiles (sizes : TraceSizes) (marked : ℕ) : TraceFiles := fun number =>
  (sizes number).map fun c => List.replicate (recordLength * c) (if number = marked then 1 else 0)

theorem markedFiles_sizes (sizes : TraceSizes) (marked : ℕ) : HasSizes (markedFiles sizes marked) sizes := by
  intro number
  simp [markedFiles, Function.comp_def]

theorem keyAt_markedFiles {marked c : ℕ} (hc : c < records sizes threadcount mythreadid i) :
    keyAt (threadFile (markedFiles sizes marked) threadcount mythreadid i) c =
      List.replicate keyLength (if fileNumber i threadcount mythreadid = marked then 1 else 0) := by
  unfold threadFile markedFiles records at *
  cases hs : sizes (fileNumber i threadcount mythreadid) with
  | none => simp [hs] at hc
  | some n =>
    rw [hs, Option.getD_some] at hc
    have hlen : keyLength ≤ recordLength * n - (recordLength * c + keyOffset) := by
      simp only [keyLength, recordLength, keyOffset]
      omega
    simp only [Option.map_some, Option.getD_some, keyAt, List.drop_replicate, List.take_replicate,
      Nat.min_eq_left hlen]

theorem records_ge (h : HasSizes files sizes) (hpos : ∀ number c, sizes number = some c → 0 < c)
    (hk : LoadsTo sizes threadcount mythreadid numOps k) (hK : Covers sizes threadcount mythreadid numOps K)
    (hr : Replays files threadcount mythreadid numOps K)
    (hfull : ∀ j < i, records sizes threadcount mythreadid j = records sizes threadcount mythreadid k)
    (hm : m ≤ records sizes threadcount mythreadid k)
    (hle : i * records sizes threadcount mythreadid k + m ≤ numOps) : m ≤ records sizes threadcount mythreadid i := by
  apply Nat.le_of_not_lt
  intro hlt
  obtain ⟨hik, hiK⟩ := reach hk hK hfull (by omega)
  have hget := getKeys_reading (fun j _ => threadFile_length h j) (fun j _ => threadFile_length h j)
    (records_pos hpos (hk.isSome (Nat.le_refl k))) hfull hik hiK (Nat.le_refl _) (hlt.le.trans hm)
    (records_pos hpos (hk.isSome hik))
  obtain ⟨fuel, hrun⟩ := hr.1
  obtain ⟨s, hkeys⟩ := getKeys_of_replay h hk hrun
  obtain ⟨b, rfl⟩ := Nat.exists_eq_add_of_le ((Nat.add_le_add_left hlt _).trans hle)
  obtain ⟨key, u, hnext, _⟩ := getKeys_prefix hkeys hget
  rw [getNextKey_overrun (threadFile_length h i) (hlt.trans_le hm) (Nat.le_refl _)] at hnext
  cases hnext

theorem records_le (ht : mythreadid < threadcount) (hpos : ∀ number c, sizes number = some c → 0 < c)
    (hk : LoadsTo sizes threadcount mythreadid numOps k) (hK : Covers sizes threadcount mythreadid numOps K)
    (hr : Replays (markedFiles sizes (fileNumber i threadcount mythreadid)) threadcount mythreadid numOps K)
    (hfull : ∀ j < i, records sizes threadcount mythreadid j = records sizes threadcount mythreadid k)
    (hlt : i * records sizes threadcount mythreadid k + records sizes threadcount mythreadid k < numOps) :
    records sizes threadcount mythreadid i ≤ records sizes threadcount mythreadid k := by
  have h := markedFiles_sizes sizes (fileNumber i threadcount mythreadid)
  apply Nat.le_of_not_lt
  intro hmore
  obtain ⟨hik, hiK⟩ := reach hk hK hfull (by omega)
  have hm := records_pos hpos (hk.isSome (Nat.le_refl k))
  have hget := getKeys_reading (fun j _ => threadFile_length h j) (fun j _ => threadFile_length h j)
    hm hfull hik hiK hmore.le (Nat.le_refl _) hm
  obtain ⟨fuel, hrun⟩ := hr.1
  obtain ⟨s, hkeys⟩ := getKeys_of_replay h hk hrun
  obtain ⟨b, hb⟩ := Nat.exists_eq_add_of_le (Nat.succ_le_of_lt hlt)
  rw [Nat.succ_eq_add_one] at hb
  rw [hb] at hkeys
  obtain ⟨key, u, hnext, rest, heq⟩ := getKeys_prefix hkeys hget
  by_cases hlast : k ≤ i
  · rw [getNextKey_last (Nat.le_refl _) hlast] at hnext
    cases hnext
  · have hnextpos := records_pos hpos (hk.isSome (Nat.succ_le_of_lt (not_le.mp hlast)))
    rw [getNextKey_switch (Nat.le_refl _) (not_le.mp hlast) hm,
      getNextKey_stay (threadFile_length h (i + 1)) hm hnextpos, Except.ok.injEq, Prod.mk.injEq] at hnext
    -- the code's key is of the next file, the trace's of this one
    have hkey := hnext.1.trans (traceKeys_next heq)
    rw [← sum_full hfull, keyAt_flatten (fun j _ => threadFile_length h j) hiK hmore, keyAt_markedFiles hnextpos,
      keyAt_markedFiles hmore, if_pos rfl, if_neg ?_] at hkey
    · cases hkey
    · intro hsame
      simp only [fileNumber, Nat.succ_mul] at hsame
      omega

theorem evenlyFilled_of_replays (ht : mythreadid < threadcount) (hpos : ∀ number c, sizes number = some c → 0 < c)
    (hK : Covers sizes threadcount mythreadid numOps K)
    (hr : ∀ files, HasSizes files sizes → Replays files threadcount mythreadid numOps K) :
    EvenlyFilled sizes threadcount mythreadid numOps := by
  have h := markedFiles_sizes sizes 0
  obtain ⟨fuel, hrun⟩ := (hr _ h).1
  obtain ⟨hN, k, hk⟩ := replay_loads h hrun
  have hm := records_pos hpos (hk.isSome (Nat.le_refl k))
  have hle := Nat.div_mul_le_self (numOps - 1) (records sizes threadcount mythreadid k)
  have hfull : ∀ j < (numOps - 1) / records sizes threadcount mythreadid k,
      records sizes threadcount mythreadid j = records sizes threadcount mythreadid k := by
    intro j
    induction j using Nat.strong_induction_on with
    | _ j ih =>
      intro hj
      have hbefore := fun i hi => ih i hi (hi.trans hj)
      have hmul := Nat.mul_le_mul_right (records sizes threadcount mythreadid k) (Nat.succ_le_of_lt hj)
      rw [Nat.succ_mul] at hmul
      exact le_antisymm
        (records_le ht hpos hk hK (hr _ (markedFiles_sizes sizes _)) hbefore (by omega))
        (records_ge h hpos hk hK (hr _ h) hbefore (Nat.le_refl _) (by omega))
  refine ⟨hN, k, hk, hfull, ?_⟩
  have hlt := Nat.lt_div_mul_add (a := numOps - 1) hm
  have hlast := records_ge h hpos hk hK (hr _ h) hfull
    (m := numOps - (numOps - 1) / records sizes threadcount mythreadid k * records sizes threadcount mythreadid k)
    (by omega) (by omega)
  omega

/-- A thread replays its trace, whatever the keys, exactly if the files it leaves
behind have as many records as the last file it loads. -/
theorem replays_iff (ht : mythreadid < threadcount) (hpos : ∀ number c, sizes number = some c → 0 < c)
    (hK : Covers sizes threadcount mythreadid numOps K) :
    (∀ files, HasSizes files sizes → Replays files threadcount mythreadid numOps K) ↔
      EvenlyFilled sizes threadcount mythreadid numOps :=
  ⟨evenlyFilled_of_replays ht hpos hK, fun he _ h => replays_of_evenlyFilled ht hpos hK he h⟩

end

/-- Two files of two records each, and three keys to read. -/
theorem replays_iff_even : Replays (markedFiles (fun _ => some 2) 1) 1 0 3 2 ∧
    traceKeys ((List.range 2).map (threadFile (markedFiles (fun _ => some 2) 1) 1 0)) 3 =
      [List.replicate keyLength 1, List.replicate keyLength 1, List.replicate keyLength 0] := by
  have hK : Covers (fun _ => some 2) 1 0 3 2 := ⟨fun _ _ => rfl, by decide⟩
  have heven : EvenlyFilled (fun _ => some 2) 1 0 3 := by
    refine ⟨by decide, 1, ⟨?_, by decide⟩, ?_, by decide⟩ <;> decide
  refine ⟨?_, by decide⟩
  exact (replays_iff Nat.one_pos (fun _ c hc => Option.some.inj hc ▸ Nat.two_pos) hK).mpr heven _
    (markedFiles_sizes _ _)

/-- Two records and one: the second file's size is taken for the size of both. -/
theorem replay_uneven : HasSizes (markedFiles (fun number => if number = 1 then some 2 else some 1) 1)
      (fun number => if number = 1 then some 2 else some 1) ∧
    Covers (fun number => if number = 1 then some 2 else some 1) 1 0 3 2 ∧
    ¬ Replays (markedFiles (fun number => if number = 1 then some 2 else some 1) 1) 1 0 3 2 := by
  refine ⟨markedFiles_sizes _ _, ⟨?_, by decide⟩, ?_⟩
  · intro i _
    by_cases hi : fileNumber i 1 0 = 1 <;> simp [hi]
  · rintro ⟨⟨fuel, hrun⟩, _⟩
    have herr : replay (markedFiles (fun number => if number = 1 then some 2 else some 1) 1) 1 0 3 3 =
        some (.error .read) := rfl
    cases (replay_mono (Nat.le_max_left fuel 3) hrun).symm.trans (replay_mono (Nat.le_max_right fuel 3) herr)

end Ycsb
