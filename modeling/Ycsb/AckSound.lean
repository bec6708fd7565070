import Mathlib.Tactic.Ring
import Ycsb.Counter

/-!
# The acknowledged counter publishes acknowledged keys

Between two calls the window stands for the acknowledged set on the
`kWindowSize` numbers above `limit_`. This holds as long as no acknowledged
value lies more than one window above the limit.
-/

namespace Ycsb

open Lib

/-! ## The scan -/

theorem ackScan_spec {A : Set ℕ} {till i : ℕ} {win : AckWindow} :
    ∀ {L : ℕ}, i = L + 1 → Stands win A L → (∀ v ∈ A, v ≤ L + kWindowSize) →
      ∃ L', (ackScan till i win).1 = L' + 1 ∧ L ≤ L' ∧ (L' = L ∨ L' < till) ∧
        Stands (ackScan till i win).2 A L' ∧ (∀ v, L < v → v ≤ L' → v ∈ A) ∧
        (L' + 1 < till → L' + 1 ∉ A) := by
  fun_induction ackScan till i win with
  | case1 i win hlt hset ih =>
    intro L hi hst hA
    subst hi
    have hmem : L + 1 ∈ A := by
      rw [slot_eq] at hset
      exact (hst (L + 1) (by omega) (by rw [kWindowSize_eq]; omega)).mp hset
    have hout : L + 1 + kWindowSize ∉ A := fun h => by
      have := hA _ h
      omega
    have hst' : Stands (Function.update win (slot (L + 1)) false) A (L + 1) := by
      rw [slot_eq]; exact hst.advance hout
    obtain ⟨L', h1, hle, hb, hst'', hnew, hstop⟩ := ih rfl hst' fun v hv => le_trans (hA v hv) (by omega)
    refine ⟨L', h1, by omega, Or.inr (by omega), hst'', fun v hv hv' => ?_, hstop⟩
    rcases Nat.lt_or_ge (L + 1) v with h | h
    · exact hnew v h hv'
    · have : v = L + 1 := by omega
      exact this ▸ hmem
  | case2 i win hlt hset =>
    intro L hi hst _
    subst hi
    refine ⟨L, rfl, le_rfl, Or.inl rfl, hst, fun v hv hv' => by omega, fun _ hmem => hset ?_⟩
    rw [slot_eq]
    exact (hst (L + 1) (by omega) (by rw [kWindowSize_eq]; omega)).mpr hmem
  | case3 i win hlt =>
    intro L hi hst _
    subst hi
    exact ⟨L, rfl, le_rfl, Or.inl rfl, hst, fun v hv hv' => by omega, fun h => absurd h hlt⟩

/-! ## The invariant -/

structure AckInv (s : ℕ) (σ : AckState) : Prop where
  mark : σ.gen.limit ∈ marks σ.acked s
  stands : Stands σ.gen.ackWindow (σ.acked : Set ℕ) σ.gen.limit
  below : ∀ v ∈ (σ.acked : Set ℕ), v ≤ σ.gen.limit + kWindowSize
  sub : σ.acked ⊆ σ.handed
  handed : ∀ v, v ∈ σ.handed ↔ s ≤ v ∧ v < σ.gen.counter
  limit_lt : σ.gen.limit < σ.gen.counter
  counter_lt : σ.gen.counter < 2 ^ 64

theorem ackInv_init {s : ℕ} (h1 : 1 ≤ s) (h2 : s < 2 ^ 64) : AckInv s (AckState.init s) := by
  obtain ⟨n, rfl⟩ : ∃ n, s = n + 1 := ⟨s - 1, by omega⟩
  have hlim : (AckState.init (n + 1)).gen.limit = n := u64Pred_succ (by omega)
  refine ⟨?_, ?_, ?_, ?_, ?_, ?_, h2⟩
  · rw [hlim]; exact ⟨le_rfl, fun v h h' => by omega⟩
  · rw [hlim]
    intro i _ _
    simp [AckState.init, AcknowledgedCounterGenerator.init]
  · simp [AckState.init]
  · simp [AckState.init]
  · intro v
    simp only [AckState.init, AcknowledgedCounterGenerator.init, Finset.notMem_empty, false_iff]
    omega
  · rw [hlim]; exact Nat.lt_succ_self n

theorem ackInv_next {s : ℕ} {σ : AckState} (h : AckInv s σ) (hw : σ.gen.counter + 1 < 2 ^ 64) :
    AckInv s { σ with gen := σ.gen.next.2, handed := insert σ.gen.next.1 σ.handed } := by
  have hc : σ.gen.next.2.counter = σ.gen.counter + 1 := u64_of_lt hw
  refine ⟨h.mark, h.stands, h.below, fun v hv => Finset.mem_insert_of_mem (h.sub hv), fun v => ?_, ?_, ?_⟩
  · have hs := le_trans h.mark.1 h.limit_lt
    simp only [hc, Finset.mem_insert, h.handed v]
    change v = σ.gen.counter ∨ _ ↔ _
    omega
  · rw [hc]; exact Nat.lt_succ_of_lt h.limit_lt
  · rw [hc]; exact hw

def ackScanned (g : AcknowledgedCounterGenerator) (value : ℕ) : ℕ × AckWindow :=
  ackScan (u64 (g.limit + kWindowSize)) (u64 (g.limit + 1)) (Function.update g.ackWindow (slot value) true)

theorem ackScanned_spec {A : Set ℕ} {g : AcknowledgedCounterGenerator} {value : ℕ}
    (hlim : g.limit + 1 < 2 ^ 64) (hst : Stands (Function.update g.ackWindow (slot value) true) A g.limit)
    (hA : ∀ v ∈ A, v ≤ g.limit + kWindowSize) :
    ∃ L', (ackScanned g value).1 = L' + 1 ∧ g.limit ≤ L' ∧ Stands (ackScanned g value).2 A L' ∧
      (∀ v, g.limit < v → v ≤ L' → v ∈ A) ∧ (L' + 1 < u64 (g.limit + kWindowSize) → L' + 1 ∉ A) := by
  unfold ackScanned
  obtain ⟨L', h1, hle, _, h⟩ := ackScan_spec (u64_of_lt hlim) hst hA
  exact ⟨L', h1, hle, h⟩

theorem acknowledge_free {g : AcknowledgedCounterGenerator} {value : ℕ}
    (h : g.ackWindow (slot value) = false) :
    g.acknowledge value =
      .ok { g with limit := u64Pred (ackScanned g value).1, ackWindow := (ackScanned g value).2 } := by
  unfold AcknowledgedCounterGenerator.acknowledge
  rw [h]
  rfl

theorem slot_of_acknowledge {g g' : AcknowledgedCounterGenerator} {value : ℕ} (h : g.acknowledge value = .ok g') :
    g.ackWindow (slot value) = false := by
  unfold AcknowledgedCounterGenerator.acknowledge at h
  split at h
  · cases h
  · rename_i hfree
    exact Bool.eq_false_of_not_eq_true hfree

theorem acknowledge_counter {g g' : AcknowledgedCounterGenerator} {value : ℕ} (h : g.acknowledge value = .ok g') :
    g'.counter = g.counter := by
  rw [acknowledge_free (slot_of_acknowledge h)] at h
  cases h
  rfl

theorem slot_free {s value : ℕ} {σ : AckState} (h : AckInv s σ) (hlow : σ.gen.limit < value)
    (hv : value ≤ σ.gen.limit + kWindowSize) (hn : value ∉ σ.acked) :
    σ.gen.ackWindow (slot value) = false := by
  have := h.stands value hlow hv
  rw [slot_eq]
  cases hb : σ.gen.ackWindow (Fin.ofNat kWindowSize value) with
  | false => rfl
  | true => exact absurd (this.mp hb) (by simpa using hn)

theorem limit_lt_handed {s value : ℕ} {σ : AckState} (h : AckInv s σ) (hh : value ∈ σ.handed)
    (hn : value ∉ σ.acked) : σ.gen.limit < value := by
  rcases Nat.lt_or_ge σ.gen.limit value with h' | h'
  · exact h'
  · exact absurd (h.mark.2 value ((h.handed value).mp hh).1 h') (by simpa using hn)

theorem stands_insert {s value : ℕ} {σ : AckState} (h : AckInv s σ) (hlow : σ.gen.limit < value)
    (hv : value ≤ σ.gen.limit + kWindowSize) :
    Stands (Function.update σ.gen.ackWindow (slot value) true) (↑(insert value σ.acked) : Set ℕ)
      σ.gen.limit := by
  rw [slot_eq, Finset.coe_insert]
  exact h.stands.set hlow hv

theorem below_insert {s value : ℕ} {σ : AckState} (h : AckInv s σ)
    (hv : value ≤ σ.gen.limit + kWindowSize) :
    ∀ v ∈ (↑(insert value σ.acked) : Set ℕ), v ≤ σ.gen.limit + kWindowSize := by
  intro v hv'
  rw [Finset.coe_insert] at hv'
  rcases hv' with rfl | hv'
  · exact hv
  · exact h.below v hv'

theorem ackInv_ack {s value L' : ℕ} {σ : AckState} {win : AckWindow} (h : AckInv s σ)
    (hh : value ∈ σ.handed) (hv : value ≤ σ.gen.limit + kWindowSize) (hle : σ.gen.limit ≤ L')
    (hst : Stands win (↑(insert value σ.acked) : Set ℕ) L')
    (hnew : ∀ v, σ.gen.limit < v → v ≤ L' → v ∈ (↑(insert value σ.acked) : Set ℕ)) :
    AckInv s { σ with
      gen := { σ.gen with limit := L', ackWindow := win }, acked := insert value σ.acked } where
  mark := marks_extend (marks_mono (Finset.coe_subset.mpr (Finset.subset_insert _ _)) h.mark) hle hnew
  stands := hst
  below v hv' := le_trans (below_insert h hv v hv') (Nat.add_le_add_right hle _)
  sub := Finset.insert_subset hh h.sub
  handed := h.handed
  limit_lt := by
    rcases Nat.lt_or_ge σ.gen.limit L' with hl | hl
    · exact ((h.handed _).mp (Finset.insert_subset hh h.sub (hnew L' hl le_rfl))).2
    · exact Nat.lt_of_le_of_lt hl h.limit_lt
  counter_lt := h.counter_lt

theorem acknowledge_spec {s value : ℕ} {σ : AckState} (h : AckInv s σ) (hh : value ∈ σ.handed)
    (hn : value ∉ σ.acked) (hv : value ≤ σ.gen.limit + kWindowSize) :
    ∃ L' win, σ.gen.acknowledge value = .ok { σ.gen with limit := L', ackWindow := win } ∧
      AckInv s { σ with
        gen := { σ.gen with limit := L', ackWindow := win }, acked := insert value σ.acked } ∧
      σ.gen.limit ≤ L' ∧
      (σ.gen.limit + kWindowSize < 2 ^ 64 → L' + 1 < σ.gen.limit + kWindowSize →
        L' + 1 ∉ insert value σ.acked) := by
  have hlow := limit_lt_handed h hh hn
  have hlt := h.limit_lt
  have hbound := h.counter_lt
  have hok := acknowledge_free (slot_free h hlow hv hn)
  obtain ⟨L', h1, hle, hst, hnew, hstop⟩ :=
    ackScanned_spec (by omega) (stands_insert h hlow hv) (below_insert h hv)
  have hinv := ackInv_ack h hh hv hle hst hnew
  have hL' : L' < σ.gen.counter := hinv.limit_lt
  rw [h1, u64Pred_succ (by omega)] at hok
  refine ⟨L', _, hok, hinv, hle, fun hw hlt' hmem => ?_⟩
  rw [u64_of_lt hw] at hstop
  exact hstop hlt' hmem

/-! ## Runs within one window -/

def NoWrap (σ : AckState) : AckEvent → Prop
  | .next => σ.gen.counter + 1 < 2 ^ 64
  | .ack _ => True

/-- An acknowledged value lies at most one window above the limit. -/
def WithinWindow (σ : AckState) : AckEvent → Prop
  | .next => True
  | .ack value => value ≤ σ.gen.last + kWindowSize

/-! ## Exactness below the last slot -/

/-- No 64-bit expression wraps, and an acknowledged value is less than one window above the limit. -/
def InBound (σ : AckState) : AckEvent → Prop
  | .next => σ.gen.counter + 1 < 2 ^ 64
  | .ack value => σ.gen.last + kWindowSize < 2 ^ 64 ∧ value ≤ σ.gen.last + (kWindowSize - 1)

theorem InBound.noWrap {σ : AckState} {e : AckEvent} (h : InBound σ e) : NoWrap σ e := by
  cases e with
  | next => exact h
  | ack value => trivial

theorem InBound.withinWindow {σ : AckState} {e : AckEvent} (h : InBound σ e) : WithinWindow σ e := by
  cases e with
  | next => trivial
  | ack value => exact le_trans h.2 (Nat.add_le_add_left (Nat.sub_le _ _) _)

/-- The limit is as large as it can be, and the slot of the limit itself is free. -/
structure AckExact (s : ℕ) (σ : AckState) : Prop extends AckInv s σ where
  stop : σ.gen.limit + 1 ∉ σ.acked
  inside : ∀ v ∈ σ.acked, v < σ.gen.limit + kWindowSize

theorem ackExact_init {s : ℕ} (h1 : 1 ≤ s) (h2 : s < 2 ^ 64) : AckExact s (AckState.init s) :=
  ⟨ackInv_init h1 h2, by simp [AckState.init], by simp [AckState.init]⟩

theorem ackExact_step {s : ℕ} {σ σ' : AckState} {e : AckEvent} (h : AckExact s σ) (hC : InBound σ e)
    (hstep : σ.step e = some σ') : AckExact s σ' := by
  cases e with
  | next =>
    simp only [AckState.step, Option.some.injEq] at hstep
    exact hstep ▸ ⟨ackInv_next h.toAckInv hC.noWrap, h.stop, h.inside⟩
  | ack value =>
    simp only [AckState.step] at hstep
    split at hstep
    · rename_i hv
      obtain ⟨L', win, hok, hinv, hle, hstop⟩ := acknowledge_spec h.toAckInv hv.1 hv.2 hC.withinWindow
      simp only [hok, Option.some.injEq] at hstep
      have hin : ∀ v ∈ insert value σ.acked, v < σ.gen.limit + kWindowSize := by
        intro v hv'
        rcases Finset.mem_insert.mp hv' with rfl | hv'
        · have hpos := Nat.pos_of_ne_zero (NeZero.ne kWindowSize)
          have hval : v ≤ σ.gen.limit + (kWindowSize - 1) := hC.2
          omega
        · exact h.inside v hv'
      subst hstep
      refine ⟨hinv, fun hmem => ?_, fun v hv' => lt_of_lt_of_le (hin v hv') (Nat.add_le_add_right hle _)⟩
      exact hstop hC.1 (hin _ hmem) hmem
    · cases hstep

theorem ackExact_run {s : ℕ} {σ : AckState} {es : List AckEvent} (h1 : 1 ≤ s) (h2 : s < 2 ^ 64)
    (hC : Along AckState.step InBound (.init s) es) (hrun : run AckState.step (.init s) es = some σ) :
    AckExact s σ :=
  run_inv_along AckState.step (fun _ _ _ => ackExact_step) es _ _ (ackExact_init h1 h2) hC hrun

theorem AckExact.last_greatest {s : ℕ} {σ : AckState} (h : AckExact s σ) :
    IsGreatest (marks σ.acked s) σ.gen.last :=
  isGreatest_marks h.mark fun hm => h.stop (Finset.mem_coe.mp hm)

theorem AckExact.window_iff {s : ℕ} {σ : AckState} (h : AckExact s σ) (i : ℕ) (hi : σ.gen.last < i)
    (hiw : i ≤ σ.gen.last + kWindowSize) : σ.gen.ackWindow (slot i) = true ↔ i ∈ σ.acked := by
  rw [slot_eq]
  exact h.stands i hi hiw

theorem AckExact.determined {s : ℕ} {σ σ' : AckState} (h : AckExact s σ) (h' : AckExact s σ')
    (he : σ'.acked = σ.acked) : σ'.gen.last = σ.gen.last ∧ σ'.gen.ackWindow = σ.gen.ackWindow := by
  have hl : σ'.gen.limit = σ.gen.limit := by
    have hg' := h'.last_greatest
    rw [he] at hg'
    exact hg'.unique h.last_greatest
  have hst' := h'.stands
  rw [he, hl] at hst'
  exact ⟨hl, hst'.unique h.stands⟩

theorem AckExact.last_of_all {s : ℕ} {σ : AckState} (h : AckExact s σ)
    (hall : ∀ v ∈ σ.handed, v ∈ σ.acked) : σ.gen.last = σ.gen.counter - 1 := by
  have hlt := h.limit_lt
  have hge : ¬ σ.gen.limit + 1 < σ.gen.counter := fun hc =>
    h.stop (hall _ ((h.handed _).mpr ⟨h.mark.1, hc⟩))
  change σ.gen.limit = σ.gen.counter - 1
  omega

/-- **The acknowledgement window is exact.** While values are acknowledged less
than one window above the limit, `Acknowledge` does not throw, `Last` is the end
of the acknowledged stretch, and the window holds the acknowledged set; so the
order of the acknowledgements does not matter. -/
theorem ack_exact (s : ℕ) (h1 : 1 ≤ s) (h2 : s < 2 ^ 64) (es : List AckEvent) (σ : AckState)
    (hC : Along AckState.step InBound (.init s) es) (hrun : run AckState.step (.init s) es = some σ) :
    (∀ v ∈ σ.handed, v ∉ σ.acked → v ≤ σ.gen.last + 65535 → ∃ gen, σ.gen.acknowledge v = .ok gen) ∧
      IsGreatest (marks σ.acked s) σ.gen.last ∧
      (∀ i, σ.gen.last < i → i ≤ σ.gen.last + 65536 → (σ.gen.ackWindow (slot i) = true ↔ i ∈ σ.acked)) ∧
      (∀ es' σ', Along AckState.step InBound (.init s) es' → run AckState.step (.init s) es' = some σ' →
        σ'.acked = σ.acked → σ'.gen.last = σ.gen.last ∧ σ'.gen.ackWindow = σ.gen.ackWindow) ∧
      ((∀ v ∈ σ.handed, v ∈ σ.acked) → σ.gen.last = σ.gen.counter - 1) := by
  have h := ackExact_run h1 h2 hC hrun
  refine ⟨fun v hh hn hv => ?_, h.last_greatest, ?_, fun es' σ' hC' hrun' => ?_, h.last_of_all⟩
  · have hvw : v ≤ σ.gen.limit + kWindowSize := by
      rw [kWindowSize_eq]; exact le_trans hv (Nat.add_le_add_left (by decide) _)
    obtain ⟨L', win, hok, _⟩ := acknowledge_spec h.toAckInv hh hn hvw
    exact ⟨_, hok⟩
  · rw [← kWindowSize_eq]
    exact h.window_iff
  · exact h.determined (ackExact_run h1 h2 hC' hrun')

/-! ## Few values -/

theorem slot_ne {v w : ℕ} (h : v % 65536 ≠ w % 65536) : slot v ≠ slot w := by
  simp only [ne_eq, Fin.ext_iff, slot, and_mask, kWindowSize_eq]
  exact h

theorem ackScanned_zero {counter value : ℕ} {win : AckWindow} : ackScanned ⟨⟨counter⟩, 0, win⟩ value =
    ackScan 65536 1 (Function.update win (slot value) true) := by
  rw [ackScanned, show u64 (0 + kWindowSize) = 65536 by rw [kWindowSize_eq]; rfl]
  rfl

theorem acknowledge_first : ({ counter := 2, limit := 0, ackWindow := fun _ => false } :
      AcknowledgedCounterGenerator).acknowledge 1 =
    .ok { counter := 2, limit := 1, ackWindow := fun _ => false } := by
  have hscan : ackScan 65536 1 (Function.update (fun _ => false) (slot 1) true) = (2, fun _ => false) := by
    rw [ackScan, if_pos (by decide), if_pos (by simp), ackScan, if_pos (by decide), Function.update_idem,
      if_neg (by simp [slot_ne])]
    simp
  rw [acknowledge_free rfl, ackScanned_zero, hscan]
  rfl

/-- The slot of 1 is still free. -/
theorem acknowledge_ahead : ({ counter := 3, limit := 0, ackWindow := fun _ => false } :
      AcknowledgedCounterGenerator).acknowledge 2 =
    .ok { counter := 3, limit := 0, ackWindow := Function.update (fun _ => false) (slot 2) true } := by
  have hscan : ackScan 65536 1 (Function.update (fun _ => false) (slot 2) true) =
      (1, Function.update (fun _ => false) (slot 2) true) := by
    rw [ackScan, if_pos (by decide), if_neg (by simp [slot_ne])]
  rw [acknowledge_free rfl, ackScanned_zero, hscan]
  rfl

/-- The scan passes both slots. -/
theorem acknowledge_behind :
    ({ counter := 3, limit := 0, ackWindow := Function.update (fun _ => false) (slot 2) true } :
      AcknowledgedCounterGenerator).acknowledge 1 =
    .ok { counter := 3, limit := 2, ackWindow := fun _ => false } := by
  have hfree : Function.update (fun _ => false) (slot 2) true (slot 1) = false :=
    Function.update_of_ne (slot_ne (by decide)) _ _
  have hscan : ackScan 65536 1 (Function.update (Function.update (fun _ => false) (slot 2) true) (slot 1) true) =
      (3, fun _ => false) := by
    rw [ackScan, if_pos (by decide), if_pos (by simp), Function.update_idem, Function.update_eq_self_iff.mpr hfree.symm,
      ackScan, if_pos (by decide), if_pos (by simp), Function.update_idem, ackScan, if_pos (by decide),
      if_neg (by simp [slot_ne])]
    simp
  rw [acknowledge_free hfree, ackScanned_zero, hscan]
  rfl

/-- Two values, acknowledged the other way round. -/
theorem ack_exact_twoValues : ∃ σ, run AckState.step (.init 1) [.next, .next, .ack 2, .ack 1] = some σ ∧
    IsGreatest (marks σ.acked 1) σ.gen.last ∧ σ.acked = {1, 2} ∧ σ.gen.last = 2 := by
  have hahead : (AckState.mk ⟨⟨3⟩, 0, fun _ => false⟩ {2, 1} ∅).step (.ack 2) =
      some ⟨⟨⟨3⟩, 0, Function.update (fun _ => false) (slot 2) true⟩, {2, 1}, {2}⟩ := by
    rw [AckState.step, if_pos (by decide), acknowledge_ahead]
    rfl
  have hbehind : (AckState.mk ⟨⟨3⟩, 0, Function.update (fun _ => false) (slot 2) true⟩ {2, 1} {2}).step (.ack 1) =
      some ⟨⟨⟨3⟩, 2, fun _ => false⟩, {2, 1}, {1, 2}⟩ := by
    rw [AckState.step, if_pos (by decide), acknowledge_behind]
  have hrun : run AckState.step (.init 1) [.next, .next, .ack 2, .ack 1] =
      some ⟨⟨⟨3⟩, 2, fun _ => false⟩, {2, 1}, {1, 2}⟩ :=
    (run_cons_some _).mpr ⟨_, rfl, (run_cons_some _).mpr ⟨_, rfl, (run_cons_some _).mpr
      ⟨_, hahead, (run_cons_some _).mpr ⟨_, hbehind, rfl⟩⟩⟩⟩
  have hack : ∀ σ : AckState, σ.gen.last = 0 → ∀ v ≤ 2, InBound σ (.ack v) := fun σ h v hv => by
    rw [InBound, h, kWindowSize_eq]
    omega
  have hbound : Along AckState.step InBound (.init 1) [.next, .next, .ack 2, .ack 1] := by
    refine Along.cons _ rfl (by decide : 2 < 2 ^ 64) (Along.cons _ rfl (by decide : 3 < 2 ^ 64) ?_)
    exact Along.cons _ hahead (hack _ rfl 2 (by decide)) (Along.cons _ hbehind (hack _ rfl 1 (by decide)) trivial)
  exact ⟨_, hrun, (ack_exact 1 (by decide) (by decide) _ _ hbound hrun).2.1, rfl, rfl⟩

end Ycsb
