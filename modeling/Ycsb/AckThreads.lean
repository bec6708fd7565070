import Mathlib.Order.Interval.Finset.Nat
import Ycsb.AckSound
import Ycsb.Lib.Threads

/-!
# Client threads around an acknowledged counter

Each thread draws a key number, inserts the record and acknowledges the number
(`TransactionInsert`). A thread that is slow to acknowledge can be overtaken by
a whole window: the slot of its value is then set by a value one window later,
and the limit passes the value although its insert has not returned.
-/

namespace Ycsb

open Lib

variable {ι : Type}

/-- `outstanding t`: the value thread `t` has drawn and not yet acknowledged. -/
structure AckThreads (ι : Type) extends AckState where
  outstanding : ι → Option ℕ

inductive ThreadEvent (ι : Type) where
  | next (t : ι)
  | ack (t : ι)

namespace AckThreads

def init (start : ℕ) : AckThreads ι := { AckState.init start with outstanding := fun _ => none }

variable [DecidableEq ι]

def draw (σ : AckThreads ι) (t : ι) : AckThreads ι :=
  { σ with
    gen := σ.gen.next.2
    handed := insert σ.gen.next.1 σ.handed
    outstanding := Function.update σ.outstanding t (some σ.gen.next.1) }

def release (σ : AckThreads ι) (t : ι) (value : ℕ) (gen : AcknowledgedCounterGenerator) : AckThreads ι :=
  { σ with
    gen := gen
    acked := insert value σ.acked
    outstanding := Function.update σ.outstanding t none }

/-- `none`: the thread is not at this step of `TransactionInsert`, or `Acknowledge` throws. -/
def step (σ : AckThreads ι) : ThreadEvent ι → Option (AckThreads ι)
  | .next t =>
    match σ.outstanding t with
    | some _ => none
    | none => some (σ.draw t)
  | .ack t =>
    match σ.outstanding t with
    | none => none
    | some value =>
      match σ.gen.acknowledge value with
      | .error _ => none
      | .ok gen => some (σ.release t value gen)

def NoWrap (σ : AckThreads ι) : ThreadEvent ι → Prop
  | .next _ => σ.gen.counter + 1 < 2 ^ 64
  | .ack _ => True

def WithinWindow (σ : AckThreads ι) : ThreadEvent ι → Prop
  | .next _ => True
  | .ack t => ∀ value, σ.outstanding t = some value → value ≤ σ.gen.last + kWindowSize

/-- Outstanding values are handed out, not yet acknowledged, and held by one thread each. -/
structure Owned (σ : AckThreads ι) : Prop where
  pending : ∀ t v, σ.outstanding t = some v → v ∈ σ.handed ∧ v ∉ σ.acked
  single : ∀ t t' v, σ.outstanding t = some v → σ.outstanding t' = some v → t = t'

/-! ## One step -/

theorem step_next_iff {σ σ' : AckThreads ι} {t : ι} :
    σ.step (.next t) = some σ' ↔ σ.outstanding t = none ∧ σ' = σ.draw t := by
  simp only [step]
  cases σ.outstanding t with
  | none => simp [eq_comm]
  | some _ => simp

theorem step_ack_iff {σ σ' : AckThreads ι} {t : ι} :
    σ.step (.ack t) = some σ' ↔ ∃ value gen, σ.outstanding t = some value ∧
      σ.gen.acknowledge value = .ok gen ∧ σ' = σ.release t value gen := by
  simp only [step]
  cases σ.outstanding t with
  | none => simp
  | some value => cases h : σ.gen.acknowledge value <;> simp [h, eq_comm]

theorem draw_owned {s : ℕ} {σ : AckThreads ι} {t : ι} (hinv : AckInv s σ.toAckState) (ho : Owned σ) :
    Owned (σ.draw t) := by
  -- the value just drawn is not outstanding elsewhere: it was never handed out
  have hfresh : ∀ t', σ.outstanding t' ≠ some σ.gen.next.1 := fun t' ht' =>
    Nat.lt_irrefl _ ((hinv.handed _).mp (ho.pending _ _ ht').1).2
  refine ⟨fun t' v hv => ?_, apart_update (P := fun v a => a = some v) ?_ ho.single⟩
  · by_cases ht : t' = t
    · subst ht
      simp only [draw, Function.update_self, Option.some.injEq] at hv
      subst hv
      refine ⟨Finset.mem_insert_self _ _, fun hm => ?_⟩
      exact Nat.lt_irrefl _ ((hinv.handed _).mp (hinv.sub hm)).2
    · simp only [draw, Function.update_of_ne ht] at hv
      exact ⟨Finset.mem_insert_of_mem (ho.pending t' v hv).1, (ho.pending t' v hv).2⟩
  · intro v hv t' _ ht'
    exact hfresh t' (ht'.trans hv.symm)

theorem release_owned {σ : AckThreads ι} {t : ι} {value : ℕ} {gen : AcknowledgedCounterGenerator}
    (ho : Owned σ) (hval : σ.outstanding t = some value) : Owned (σ.release t value gen) := by
  have hout : ∀ t' v, (σ.release t value gen).outstanding t' = some v →
      t' ≠ t ∧ σ.outstanding t' = some v := by
    intro t' v hv
    by_cases ht : t' = t
    · subst ht; simp [release] at hv
    · simp only [release, Function.update_of_ne ht] at hv
      exact ⟨ht, hv⟩
  refine ⟨fun t' v hv => ?_, fun t' t'' v hv hv' => ?_⟩
  · obtain ⟨ht, hv'⟩ := hout t' v hv
    refine ⟨(ho.pending t' v hv').1, fun hm => ?_⟩
    rcases Finset.mem_insert.mp hm with rfl | hm
    · exact ht (ho.single t' t _ hv' hval)
    · exact (ho.pending t' v hv').2 hm
  · exact ho.single t' t'' v (hout t' v hv).2 (hout t'' v hv').2

theorem step_toAckState {s : ℕ} {σ σ' : AckThreads ι} {e : ThreadEvent ι} (hinv : AckInv s σ.toAckState)
    (ho : Owned σ) (hC : NoWrap σ e ∧ WithinWindow σ e) (h : σ.step e = some σ') :
    AckInv s σ'.toAckState ∧ Owned σ' := by
  cases e with
  | next t =>
    obtain ⟨_, rfl⟩ := step_next_iff.mp h
    exact ⟨ackInv_next hinv hC.1, draw_owned hinv ho⟩
  | ack t =>
    obtain ⟨value, gen, hval, hok, rfl⟩ := step_ack_iff.mp h
    have hmem := ho.pending t value hval
    obtain ⟨L', win, hok', hinv', _⟩ := acknowledge_spec hinv hmem.1 hmem.2 (hC.2 value hval)
    rw [hok, Except.ok.injEq] at hok'
    subst hok'
    exact ⟨hinv', release_owned ho hval⟩

omit [DecidableEq ι] in
theorem owned_init (s : ℕ) : Owned (init s : AckThreads ι) :=
  ⟨fun _ _ h => by simp [init] at h, fun _ _ _ h => by simp [init] at h⟩

theorem threads_run {s : ℕ} {σ : AckThreads ι} {es : List (ThreadEvent ι)} (h1 : 1 ≤ s)
    (h2 : s < 2 ^ 64) (hC : Along step (fun σ e => NoWrap σ e ∧ WithinWindow σ e) (init s) es)
    (hrun : run step (init s) es = some σ) : AckInv s σ.toAckState ∧ Owned σ :=
  run_inv_along step (I := fun σ => AckInv s σ.toAckState ∧ Owned σ)
    (fun _ _ _ h hC hs => step_toAckState h.1 h.2 hC hs) es _ _ ⟨ackInv_init h1 h2, owned_init s⟩ hC hrun

/-- **No unacknowledged key is published** while every value is acknowledged at
most one window above the limit. -/
theorem published_acked (s : ℕ) (h1 : 1 ≤ s) (h2 : s < 2 ^ 64) (es : List (ThreadEvent ι))
    (σ : AckThreads ι) (hC : Along step (fun σ e => NoWrap σ e ∧ WithinWindow σ e) (init s) es)
    (hrun : run step (init s) es = some σ) : ∀ v, s ≤ v → v ≤ σ.gen.last → v ∈ σ.acked :=
  fun v hs hv => (threads_run h1 h2 hC hrun).1.mark.2 v hs hv

def twoHeld : AckThreads Bool := ((init 1).draw false).draw true

def oneHeld : AckThreads Bool :=
  twoHeld.release true 2 ⟨⟨3⟩, 0, Function.update (fun _ => false) (slot 2) true⟩

def noneHeld : AckThreads Bool := oneHeld.release false 1 ⟨⟨3⟩, 2, fun _ => false⟩

/-- Two threads, and the second acknowledges first. -/
theorem published_acked_twoThreads : ∃ σ : AckThreads Bool,
    run step (init 1) [.next false, .next true, .ack true, .ack false] = some σ ∧ σ.gen.last = 2 ∧ 1 ∈ σ.acked ∧
      2 ∈ σ.acked := by
  have hahead : twoHeld.step (.ack true) = some oneHeld := step_ack_iff.mpr ⟨2, _, rfl, acknowledge_ahead, rfl⟩
  have hbehind : oneHeld.step (.ack false) = some noneHeld := step_ack_iff.mpr ⟨1, _, rfl, acknowledge_behind, rfl⟩
  have hrun : run step (init 1) [.next false, .next true, .ack true, .ack false] = some noneHeld :=
    (run_cons_some step).mpr ⟨_, rfl, (run_cons_some step).mpr ⟨_, rfl, (run_cons_some step).mpr
      ⟨_, hahead, (run_cons_some step).mpr ⟨_, hbehind, rfl⟩⟩⟩⟩
  have hack : ∀ (σ : AckThreads Bool) t v, σ.gen.last = 0 → σ.outstanding t = some v → v ≤ 2 →
      WithinWindow σ (.ack t) := by
    intro σ t v hlast hout hv value hvalue
    rw [hlast, kWindowSize_eq]
    have := Option.some.inj (hout.symm.trans hvalue)
    omega
  have hbound : Along step (fun σ e => NoWrap σ e ∧ WithinWindow σ e) (init 1)
      [.next false, .next true, .ack true, .ack false] := by
    refine Along.cons _ rfl ⟨(by decide : 2 < 2 ^ 64), trivial⟩ ?_
    refine Along.cons _ rfl ⟨(by decide : 3 < 2 ^ 64), trivial⟩ ?_
    exact Along.cons _ hahead ⟨trivial, hack _ true 2 rfl rfl (by decide)⟩
      (Along.cons _ hbehind ⟨trivial, hack _ false 1 rfl rfl (by decide)⟩ trivial)
  have hacked := published_acked 1 (by decide) (by decide) _ _ hbound hrun
  exact ⟨_, hrun, rfl, hacked 1 (by decide) (by decide), hacked 2 (by decide) (by decide)⟩

/-! ## A window overrun -/

/-- A value more than a window ahead that finds its slot free takes the slot of an
unacknowledged value. -/
theorem overrun_alias {s value : ℕ} {σ : AckState} (h : AckInv s σ)
    (hv : σ.gen.limit + kWindowSize < value) (hfree : σ.gen.ackWindow (slot value) = false) :
    ∃ i, σ.gen.limit < i ∧ i ≤ σ.gen.limit + kWindowSize ∧ i ∉ σ.acked ∧ slot i = slot value := by
  obtain ⟨i, hi, hiw, he, _⟩ := slot_alias hv
  rw [← slot_eq, ← slot_eq] at he
  refine ⟨i, hi, hiw, fun hm => ?_, he⟩
  have := (h.stands i hi hiw).mpr (Finset.mem_coe.mpr hm)
  rw [← slot_eq, he, hfree] at this
  cases this

/-- A value that takes the slot of the next one to be acknowledged publishes it. -/
theorem overrun_passes {s k : ℕ} {σ : AckState} (h : AckInv s σ) (hk : σ.gen.limit + 1 = k) (hout : k ∉ σ.acked)
    (hlt : σ.gen.limit + kWindowSize < 2 ^ 64) : ∃ gen, σ.gen.acknowledge (k + kWindowSize) = .ok gen ∧ k ≤ gen.last := by
  have hsize := kWindowSize_eq
  have halias : slot (k + kWindowSize) = slot k := Fin.ext (by simp only [slot, and_mask, Nat.add_mod_right])
  have hfree : σ.gen.ackWindow (slot (k + kWindowSize)) = false := by
    rw [halias]
    exact slot_free h (by omega) (by omega) hout
  -- after setting that slot the window stands for a set that has `k`
  have hst : Stands (Function.update σ.gen.ackWindow (slot (k + kWindowSize)) true) (insert k (σ.acked : Set ℕ))
      σ.gen.limit := by
    rw [halias, slot_eq]
    exact h.stands.set (by omega) (by omega)
  have hbelow : ∀ v ∈ insert k (σ.acked : Set ℕ), v ≤ σ.gen.limit + kWindowSize := by
    rintro v (rfl | hv)
    · omega
    · exact h.below v hv
  obtain ⟨L', h1, hle, _, hnew, hstop⟩ := ackScanned_spec (by omega) hst hbelow
  rw [u64_of_lt hlt] at hstop
  have hge : k ≤ L' := by
    by_contra hlt'
    have hL : L' = σ.gen.limit := by omega
    subst hL
    exact hstop (by omega) (Or.inl hk)
  have hL' : L' ≤ σ.gen.limit + kWindowSize := hbelow L' (hnew L' (by omega) le_rfl)
  have hok := acknowledge_free hfree
  rw [h1, u64Pred_succ (by omega)] at hok
  exact ⟨_, hok, hge⟩

structure Rounds (k : ℕ) (σ : AckThreads Bool) : Prop where
  inv : AckInv 1 σ.toAckState
  owned : Owned σ
  counter : σ.gen.counter = k + 2
  acked : σ.acked = Finset.Icc 2 (k + 1)
  slow : σ.outstanding false = some 1
  fast : σ.outstanding true = none

theorem Rounds.limit_zero {k : ℕ} {σ : AckThreads Bool} (h : Rounds k σ) : σ.gen.limit = 0 := by
  rcases Nat.eq_zero_or_pos σ.gen.limit with h0 | h0
  · exact h0
  · have := h.inv.mark.2 1 le_rfl h0
    rw [h.acked] at this
    simp at this

theorem rounds_zero : ∃ σ : AckThreads Bool, run step (init 1) [.next false] = some σ ∧
    Along step NoWrap (init 1 : AckThreads Bool) [.next false] ∧ Rounds 0 σ := by
  have hinv := ackInv_init (s := 1) (by decide) (by decide)
  have hC : NoWrap (init 1 : AckThreads Bool) (.next false) := show 1 + 1 < 2 ^ 64 by decide
  refine ⟨(init 1).draw false, rfl, ⟨hC, fun _ _ => trivial⟩, ?_⟩
  exact ⟨ackInv_next hinv hC, draw_owned hinv (owned_init 1), rfl, rfl, rfl, rfl⟩

theorem rounds_draw {k : ℕ} {σ : AckThreads Bool} (h : Rounds k σ) (hk : k ≤ 65535) :
    σ.step (.next true) = some (σ.draw true) ∧ NoWrap σ (.next true) ∧
      (σ.draw true).outstanding true = some (k + 2) ∧ (σ.draw true).gen.counter = k + 3 := by
  have hC : σ.gen.counter + 1 < 2 ^ 64 := by rw [h.counter]; omega
  refine ⟨step_next_iff.mpr ⟨h.fast, rfl⟩, hC, ?_, ?_⟩
  · change Function.update σ.outstanding true (some σ.gen.counter) true = _
    rw [Function.update_self, h.counter]
  · exact (u64_of_lt hC).trans (by rw [h.counter])

theorem rounds_succ {k : ℕ} {σ : AckThreads Bool} (h : Rounds k σ) (hk : k < 65535) :
    ∃ σ', run step σ [.next true, .ack true] = some σ' ∧
      Along step NoWrap σ [.next true, .ack true] ∧ Rounds (k + 1) σ' := by
  obtain ⟨hnext, hC, hout, hctr⟩ := rounds_draw h (by omega)
  have hinv := ackInv_next h.inv hC
  have howned := draw_owned (t := true) h.inv h.owned
  have hmem := howned.pending true _ hout
  have hwin : k + 2 ≤ (σ.draw true).gen.limit + kWindowSize := by rw [kWindowSize_eq]; omega
  obtain ⟨L', win, hok, hinv', _⟩ := acknowledge_spec (σ := (σ.draw true).toAckState) hinv hmem.1 hmem.2 hwin
  refine ⟨_, (run_cons_some step).mpr ⟨_, hnext, (run_cons_some step).mpr
    ⟨_, step_ack_iff.mpr ⟨_, _, hout, hok, rfl⟩, rfl⟩⟩, ⟨hC, fun _ _ => ⟨trivial, fun _ _ => trivial⟩⟩,
    ⟨hinv', release_owned howned hout, hctr, ?_, ?_, rfl⟩⟩
  · ext v
    simp only [release, draw, h.acked, Finset.mem_insert, Finset.mem_Icc]
    omega
  · simpa [release, draw] using h.slow

theorem rounds_run : ∀ k ≤ 65535, ∃ σ : AckThreads Bool,
    run step (init 1) (.next false :: (List.replicate k [.next true, .ack true]).flatten) = some σ ∧
      Along step NoWrap (init 1 : AckThreads Bool)
        (.next false :: (List.replicate k [.next true, .ack true]).flatten) ∧ Rounds k σ := by
  intro k
  induction k with
  | zero => exact fun _ => rounds_zero
  | succ k ih =>
    intro hk
    obtain ⟨σ, hrun, hC, h⟩ := ih (by omega)
    obtain ⟨σ', hrun', hC', h'⟩ := rounds_succ h (by omega)
    rw [List.replicate_succ', List.flatten_append, List.flatten_singleton, ← List.cons_append]
    exact ⟨σ', run_append_some step hrun hrun', (Along.append step hrun).mpr ⟨hC, hC'⟩, h'⟩

theorem rounds_overrun {σ : AckThreads Bool} (h : Rounds 65535 σ) :
    ∃ σ', run step σ [.next true, .ack true] = some σ' ∧
      Along step NoWrap σ [.next true, .ack true] ∧ 1 ≤ σ'.gen.last ∧ 1 ∉ σ'.acked := by
  obtain ⟨hnext, hC, hout, _⟩ := rounds_draw h le_rfl
  have hinv := ackInv_next h.inv hC
  have hone : 1 ∉ σ.acked := by rw [h.acked]; simp
  have hlim : (σ.draw true).gen.limit = 0 := h.limit_zero
  have hsize := kWindowSize_eq
  obtain ⟨gen, hok, hlast⟩ := overrun_passes (σ := (σ.draw true).toAckState) (k := 1) hinv (by rw [hlim]) hone (by omega)
  have hval : 65535 + 2 = 1 + kWindowSize := by omega
  rw [hval] at hout
  refine ⟨_, (run_cons_some step).mpr ⟨_, hnext, (run_cons_some step).mpr
    ⟨_, step_ack_iff.mpr ⟨_, _, hout, hok, rfl⟩, rfl⟩⟩, ⟨hC, fun _ _ => ⟨trivial, fun _ _ => trivial⟩⟩, hlast, fun hm => ?_⟩
  rcases Finset.mem_insert.mp hm with he | hm
  · omega
  · exact hone hm

/-- Thread `false` draws `1`; thread `true` then draws and acknowledges 65536 values. -/
def overrunSchedule : List (ThreadEvent Bool) :=
  .next false :: (List.replicate 65536 [.next true, .ack true]).flatten

/-- The overrun publishes `1`, which thread `false` has not acknowledged. -/
theorem overrun_publishes : ∃ σ : AckThreads Bool, run step (init 1) overrunSchedule = some σ ∧
    Along step NoWrap (init 1 : AckThreads Bool) overrunSchedule ∧ 1 ≤ σ.gen.last ∧ 1 ∉ σ.acked := by
  obtain ⟨σ, hrun, hC, h⟩ := rounds_run 65535 le_rfl
  obtain ⟨σ', hrun', hC', hlast, hone⟩ := rounds_overrun h
  rw [overrunSchedule, show (65536 : ℕ) = 65535 + 1 from rfl, List.replicate_succ', List.flatten_append,
    List.flatten_singleton, ← List.cons_append]
  exact ⟨σ', run_append_some step hrun hrun', (Along.append step hrun).mpr ⟨hC, hC'⟩, hlast, hone⟩

end AckThreads

end Ycsb
