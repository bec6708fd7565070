import Ycsb.RocksdbSound
import Ycsb.Wiredtiger

/-!
# What a WiredTiger scan returns

The loop never moves the cursor: a scan returns the row it stands on, once for
each record asked for.
-/

namespace Ycsb

open Lib DB

namespace WTDB

section
variable {C : Cursor Bytes Bytes} {m : OrdMap Bytes Bytes} (H : C.Over m) {fieldcount : ℕ}
  {fields : Option (List Bytes)}

theorem scanLoop_eq {pos : C.Pos} {row : Row} (h : decodeRow fieldcount fields (C.entry pos).2 = .ok row) :
    ∀ (len : ℕ) (result : List Row),
      scanLoop C fieldcount fields pos len result = .ok (result ++ List.replicate len row)
  | 0, result => by
    rw [List.replicate_zero, List.append_nil]
    rfl
  | len + 1, result => by
    rw [scanLoop, h]
    apply (scanLoop_eq h len (result ++ [row])).trans
    rw [List.append_assoc, List.singleton_append, List.replicate_succ]

include H in
theorem scanSingleEntry_start (hm : m.entries ≠ []) (key : Bytes) (len : ℤ) (result : List Row) :
    scanSingleEntry C fieldcount fields key len result =
      match C.start key with
      | none => .ok (.kOK, result)
      | some pos =>
        ((scanLoop C fieldcount fields pos len.toNat result).mapError .fault).map fun result => (.kOK, result) := by
  obtain ⟨pos, exact, hsearch⟩ := H.found hm key
  rw [scanSingleEntry, Cursor.start, hsearch]
  simp only [bind, Except.bind]
  cases (if exact < 0 then C.next pos else some pos) with
  | none => rfl
  | some pos => cases (scanLoop C fieldcount fields pos len.toNat result).mapError Failure.fault <;> rfl

/-- The scan succeeds with the rows of the first `len` keys from `key` on, in key order. -/
def ReturnsRange (C : Cursor Bytes Bytes) (m : OrdMap Bytes Bytes) (fieldcount : ℕ) (fields : Option (List Bytes))
    (key : Bytes) (len : ℤ) : Prop :=
  ∃ rows, scanSingleEntry C fieldcount fields key len [] = .ok (.kOK, rows) ∧
    List.Forall₂ (fun a row => decodeRow fieldcount fields a.2 = .ok row) ((m.seek key).take len.toNat) rows

theorem forall₂_replicate {α β : Type} {R : α → β → Prop} {b : β} : ∀ {as : List α} {n : ℕ},
    List.Forall₂ R as (List.replicate n b) ↔ as.length = n ∧ ∀ a ∈ as, R a b
  | [], 0 => by simp
  | [], n + 1 => by simp [List.replicate_succ]
  | a :: as, 0 => by simp
  | a :: as, n + 1 => by
    rw [List.replicate_succ, List.forall₂_cons, forall₂_replicate, List.length_cons, Nat.succ_inj,
      List.forall_mem_cons]
    exact and_left_comm

include H in
theorem returnsRange_start (hm : m.entries ≠ []) {key : Bytes} {pos : C.Pos} (hs : C.start key = some pos) {row : Row}
    (hrow : decodeRow fieldcount fields (C.entry pos).2 = .ok row) (len : ℤ) :
    ReturnsRange C m fieldcount fields key len ↔ len.toNat ≤ (m.seek key).length ∧
      ∀ a ∈ (m.seek key).take len.toNat, decodeRow fieldcount fields a.2 = .ok row := by
  have hscan : scanSingleEntry C fieldcount fields key len [] = .ok (.kOK, List.replicate len.toNat row) := by
    rw [scanSingleEntry_start H hm, hs]
    simp only [scanLoop_eq hrow]
    rfl
  have hlen : ((m.seek key).take len.toNat).length = len.toNat ↔ len.toNat ≤ (m.seek key).length := by
    rw [List.length_take, min_eq_left_iff]
  rw [ReturnsRange, hscan]
  constructor
  · intro h
    obtain ⟨rows, heq, hrows⟩ := h
    cases heq
    rw [forall₂_replicate, hlen] at hrows
    exact hrows
  · intro h
    refine ⟨_, rfl, ?_⟩
    rwa [forall₂_replicate, hlen]

/-- The range holds `len` rows, and the rows of its first `len` keys decode as `data` does. -/
def AllAlike (m : OrdMap Bytes Bytes) (fieldcount : ℕ) (fields : Option (List Bytes)) (key : Bytes) (len : ℤ)
    (data : Bytes) : Prop :=
  len ≤ (m.seek key).length ∧ ∀ a ∈ (m.seek key).take len.toNat, ∃ row,
    decodeRow fieldcount fields a.2 = .ok row ∧ decodeRow fieldcount fields data = .ok row

include H in
theorem returnsRange_nothing (hm : m.entries ≠ []) (key : Bytes) {len : ℤ} (hlen : len.toNat = 0) :
    ReturnsRange C m fieldcount fields key len := by
  refine ⟨[], ?_, ?_⟩
  · rw [scanSingleEntry_start H hm, hlen]
    cases C.start key <;> rfl
  · rw [hlen, List.take_zero]
    exact List.Forall₂.nil

include H in
theorem not_returnsRange_start (hm : m.entries ≠ []) {key : Bytes} {pos : C.Pos} (hs : C.start key = some pos)
    {e : Fault} (hrow : decodeRow fieldcount fields (C.entry pos).2 = .error e) {len : ℤ} (hlen : len.toNat ≠ 0) :
    ¬ ReturnsRange C m fieldcount fields key len := by
  obtain ⟨n, hn⟩ := Nat.exists_eq_succ_of_ne_zero hlen
  intro h
  obtain ⟨rows, heq, _⟩ := h
  rw [scanSingleEntry_start H hm, hs, hn] at heq
  simp only [scanLoop, hrow] at heq
  cases heq

include H in
theorem returnsRange_of_start (hm : m.entries ≠ []) {key : Bytes} {pos : C.Pos} (hs : C.start key = some pos)
    (len : ℤ) : ReturnsRange C m fieldcount fields key len ↔ AllAlike m fieldcount fields key len (C.entry pos).2 := by
  unfold AllAlike
  by_cases hlen : len.toNat = 0
  · have hnone : ∀ a ∈ (m.seek key).take len.toNat, ∃ row, decodeRow fieldcount fields a.2 = .ok row ∧
        decodeRow fieldcount fields (C.entry pos).2 = .ok row := by
      rw [hlen, List.take_zero]
      exact List.forall_mem_nil _
    exact ⟨fun _ => ⟨by omega, hnone⟩, fun _ => returnsRange_nothing H hm key hlen⟩
  · cases hrow : decodeRow fieldcount fields (C.entry pos).2 with
    | error e =>
      refine ⟨fun h => absurd h (not_returnsRange_start H hm hs hrow hlen), fun h => ?_⟩
      -- the first row of the range would have to decode as this one
      have hpos : 0 < ((m.seek key).take len.toNat).length := by
        rw [List.length_take]
        omega
      obtain ⟨a, ha⟩ := List.exists_mem_of_length_pos hpos
      obtain ⟨row, _, hok⟩ := h.2 a ha
      cases hok
    | ok row =>
      rw [returnsRange_start H hm hs hrow, Int.toNat_le]
      apply and_congr_right
      intro _
      apply forall₂_congr
      intro a _
      exact ⟨fun h => ⟨row, h, rfl⟩, fun h => by
        obtain ⟨row', h, heq⟩ := h
        exact heq ▸ h⟩

include H in
theorem returnsRange_of_start_none (hm : m.entries ≠ []) {key : Bytes} (hs : C.start key = none) (len : ℤ) :
    ReturnsRange C m fieldcount fields key len := by
  refine ⟨[], by rw [scanSingleEntry_start H hm, hs], ?_⟩
  rw [H.seek_nil_of_start_none hm hs, List.take_nil]
  exact List.Forall₂.nil

/-- **A scan returns the range exactly when the range begins with `len` rows like the one
the cursor stands on.** That one is the first of the range if the cursor finds adjacent keys. -/
theorem returnsRange_iff (C : Cursor Bytes Bytes) (m : OrdMap Bytes Bytes) (H : C.Over m) (hm : m.entries ≠ [])
    (fieldcount : ℕ) (fields : Option (List Bytes)) (key : Bytes) (len : ℤ) :
    (ReturnsRange C m fieldcount fields key len ↔
        ∀ pos, C.start key = some pos → AllAlike m fieldcount fields key len (C.entry pos).2) ∧
      (H.Adjacent → (ReturnsRange C m fieldcount fields key len ↔
        ∀ a ∈ (m.seek key).head?, AllAlike m fieldcount fields key len a.2)) := by
  cases hs : C.start key with
  | none =>
    have hrange : ReturnsRange C m fieldcount fields key len := returnsRange_of_start_none H hm hs len
    have hnil := H.seek_nil_of_start_none hm hs
    refine ⟨⟨fun _ pos hpos => (nomatch hpos), fun _ => hrange⟩, fun _ => ⟨fun _ a ha => ?_, fun _ => hrange⟩⟩
    rw [hnil] at ha
    cases ha
  | some pos =>
    have hiff : ReturnsRange C m fieldcount fields key len ↔ AllAlike m fieldcount fields key len (C.entry pos).2 :=
      returnsRange_of_start H hm hs len
    refine ⟨⟨fun h pos' hpos => Option.some.inj hpos ▸ hiff.mp h, fun h => hiff.mpr (h pos rfl)⟩, fun hadj => ?_⟩
    rw [hadj.seek_head hs]
    exact ⟨fun h a ha => Option.some.inj ha ▸ hiff.mp h, fun h => hiff.mpr (h _ rfl)⟩

end

def twoRows : OrdMap Bytes Bytes :=
  (OrdMap.empty.put [97] (rowBytes [([102], [1])])).put [98] (rowBytes [([102], [2])])

theorem decodeRow_oneField (value : Byte) :
    decodeRow 1 none (rowBytes [([102], [value])]) = .ok [([102], [value])] :=
  RocksdbDB.deserializeFull_rowBytes ⟨rfl, List.nodup_singleton _, by simp [Sized]⟩

theorem twoRows_decode : ∀ a ∈ twoRows.entries, ∃ row, decodeRow 1 none a.2 = .ok row := by
  intro a ha
  rcases OrdMap.mem_put ha with rfl | ha
  · exact ⟨_, decodeRow_oneField 2⟩
  · rcases OrdMap.mem_put ha with rfl | ha
    · exact ⟨_, decodeRow_oneField 1⟩
    · cases ha

theorem twoRows_seek : twoRows.seek [97] =
    [([97], rowBytes [([102], [1])]), ([98], rowBytes [([102], [2])])] := rfl

theorem returnsRange_one : ReturnsRange (Cursor.ofMap twoRows) twoRows 1 none [97] 1 := by
  apply ((returnsRange_iff _ _ (Cursor.ofMapOver twoRows) (by decide) 1 none [97] 1).2
    (Cursor.ofMap_adjacent twoRows)).mpr
  intro a ha
  rw [twoRows_seek, List.head?_cons, Option.mem_def, Option.some.injEq] at ha
  subst ha
  refine ⟨by decide, fun b hb => ?_⟩
  rw [twoRows_seek] at hb
  rw [List.mem_singleton.mp hb]
  exact ⟨_, decodeRow_oneField 1, decodeRow_oneField 1⟩

/-- Two rows that differ: the scan for both returns the first one twice. -/
theorem returnsRange_fails_two : (∀ a ∈ twoRows.entries, ∃ row, decodeRow 1 none a.2 = .ok row) ∧
    ¬ ReturnsRange (Cursor.ofMap twoRows) twoRows 1 none [97] 2 := by
  refine ⟨twoRows_decode, ?_⟩
  cases hs : (Cursor.ofMap twoRows).start [97] with
  | none =>
    have hnil := (Cursor.ofMapOver twoRows).seek_nil_of_start_none (by decide) hs
    rw [twoRows_seek] at hnil
    cases hnil
  | some pos =>
    have hhead := (Cursor.ofMap_adjacent twoRows).seek_head hs
    rw [twoRows_seek, List.head?_cons, Option.some.injEq] at hhead
    rw [returnsRange_of_start (Cursor.ofMapOver twoRows) (by decide) hs, AllAlike, twoRows_seek, ← hhead]
    intro hall
    obtain ⟨row, hsecond, hfirst⟩ := hall.2 ([98], rowBytes [([102], [2])]) (List.mem_cons_of_mem _ List.mem_cons_self)
    rw [decodeRow_oneField] at hsecond hfirst
    cases hsecond
    exact absurd hfirst (by decide)

end WTDB

end Ycsb
