import Ycsb.AckThreads
import Ycsb.Lib.Threads
import Ycsb.LoadSound

/-!
# Transactions and the keys of the load phase

The load phase starts at `insertstart`, the transaction phase at `recordcount`,
and the request distribution at zero. The three describe one interval of keys
exactly if `insertstart` is zero. New keys are touched once `Last()` has passed
them, so a thread that is overtaken by a window can let others touch its key.
-/

namespace Ycsb

open Lib

/-- A number drawn when all others are acknowledged can be acknowledged. -/
theorem ack_drawn {N v : ℕ} {acks : AckState} (h : AckExact N acks) (hall : acks.handed ⊆ acks.acked)
    (hv : acks.gen.counter = v) (hlt : v < 2 ^ 32) :
    v ≤ acks.gen.next.2.last + kWindowSize ∧ ∃ gen, acks.gen.next.2.acknowledge v = .ok gen ∧
      AckExact N { gen, handed := insert acks.gen.next.1 acks.handed, acked := insert v acks.acked } ∧
      insert acks.gen.next.1 acks.handed ⊆ insert v acks.acked ∧ gen.counter = v + 1 := by
  have hlast := h.last_of_all hall
  have hsize := kWindowSize_eq
  have hdraw : acks.step .next = some { acks with
      gen := acks.gen.next.2, handed := insert acks.gen.next.1 acks.handed } := rfl
  have h₁ := ackExact_step h (e := .next) (show acks.gen.counter + 1 < 2 ^ 64 by omega) hdraw
  have hout : v ∉ acks.acked := fun hm => by
    have := ((h.handed v).mp (h.sub hm)).2
    omega
  have hmem : v ∈ insert acks.gen.next.1 acks.handed := Finset.mem_insert.mpr (Or.inl hv.symm)
  have hwin : v ≤ acks.gen.next.2.last + (kWindowSize - 1) := by
    change v ≤ acks.gen.last + _
    omega
  have hle : v ≤ acks.gen.next.2.limit + kWindowSize := Nat.le_trans hwin (Nat.add_le_add_left (Nat.sub_le _ _) _)
  obtain ⟨L', win, hok, _⟩ := acknowledge_spec h₁.toAckInv hmem hout hle
  have hstep : ({ acks with
      gen := acks.gen.next.2, handed := insert acks.gen.next.1 acks.handed } : AckState).step (.ack v) =
      some { acks with
        gen := { acks.gen.next.2 with limit := L', ackWindow := win }
        handed := insert acks.gen.next.1 acks.handed, acked := insert v acks.acked } := by
    simp only [AckState.step]
    rw [if_pos ⟨hmem, hout⟩, hok]
  have hbound : InBound { acks with gen := acks.gen.next.2, handed := insert acks.gen.next.1 acks.handed } (.ack v) := by
    refine ⟨?_, hwin⟩
    change acks.gen.last + _ < _
    omega
  refine ⟨hle, _, hok, ackExact_step h₁ hbound hstep, ?_, ?_⟩
  · change insert acks.gen.counter acks.handed ⊆ insert v acks.acked
    rw [hv]
    exact Finset.insert_subset_insert v hall
  · change u64 (acks.gen.counter + 1) = v + 1
    rw [hv, u64_of_lt (by omega)]

namespace Clients

variable {T : ℕ} {cfg : Settings} {σ σ' : Clients T} {t : Fin T}

/-! ## The property -/

/-- A transaction touches a record whose insert has returned, and `TransactionInsert`
builds a key that was not built before. -/
def Existing (σ : Clients T) (e : ClientEvent T) : Prop :=
  σ.phase = .transaction →
    match e with
    | .touch t => ∀ keyNum, σ.pc t = .touching keyNum → keyNum ∈ σ.completed
    | .build t => ∀ keyNum, σ.pc t = .drawn keyNum → keyNum ∉ σ.builtKeys
    | _ => True

/-- Fewer key numbers than the window holds are handed out and not acknowledged. -/
def Outstanding (σ : Clients T) (_ : ClientEvent T) : Prop :=
  (σ.transactionInsertKeySequence.handed \ σ.transactionInsertKeySequence.acked).card < kWindowSize

/-- A number is acknowledged at most one window above the limit. -/
def InWindow (σ : Clients T) : ClientEvent T → Prop
  | .acknowledge t => ∀ keyNum, σ.pc t = .inserted keyNum →
      keyNum ≤ σ.transactionInsertKeySequence.gen.last + kWindowSize
  | _ => True

/-- As `InWindow`, but for the acknowledgements that do not throw. -/
def NoOverrun (σ : Clients T) : ClientEvent T → Prop
  | .acknowledge t => ∀ keyNum, σ.pc t = .inserted keyNum →
      σ.transactionInsertKeySequence.gen.ackWindow (slot keyNum) = false →
        keyNum ≤ σ.transactionInsertKeySequence.gen.last + kWindowSize
  | _ => True

theorem InWindow.noOverrun {e : ClientEvent T} (h : InWindow σ e) : NoOverrun σ e := by
  cases e with
  | acknowledge t => exact fun keyNum hpc _ => h keyNum hpc
  | _ => trivial

/-- The request distribution can draw this key number. -/
def Draws (cfg : Settings) (keyNum : ℕ) : Prop :=
  ∃ last sample, (keyChooser cfg).Yields last sample ∧ (keyChooser cfg).next last sample = keyNum

/-! ## Steps of the transaction phase -/

/-- The number of an insert that is not acknowledged yet. -/
def heldKey : Pc → Option ℕ
  | .drawn keyNum => some keyNum
  | .inserting keyNum => some keyNum
  | .inserted keyNum => some keyNum
  | _ => none

/-- The number that the request distribution has drawn for a thread. -/
def targetKey : Pc → Option ℕ
  | .chosen keyNum => some keyNum
  | .touching keyNum => some keyNum
  | _ => none

/-- A thread outside an insert goes to another such place; it may start an operation. -/
structure Moves (cfg : Settings) (σ σ' : Clients T) (t : Fin T) (pc : Pc) : Prop where
  out : heldKey (σ.pc t) = none
  out' : heldKey pc = none
  target : ∀ keyNum, targetKey pc = some keyNum → Draws cfg keyNum ∨ targetKey (σ.pc t) = some keyNum
  below : ∀ keyNum, pc = .touching keyNum → keyNum ≤ σ.transactionInsertKeySequence.gen.last
  eq : ∃ left, (∑ i, left i) ≤ ∑ i, σ.left i ∧ σ' = { σ with left, pc := Function.update σ.pc t pc }

theorem moves_goto {pc : Pc} (h : heldKey (σ.pc t) = none) (h' : heldKey pc = none)
    (ht : ∀ keyNum, targetKey pc = some keyNum → Draws cfg keyNum ∨ targetKey (σ.pc t) = some keyNum)
    (hb : ∀ keyNum, pc = .touching keyNum → keyNum ≤ σ.transactionInsertKeySequence.gen.last) :
    Moves cfg σ (σ.goto t pc) t pc := ⟨h, h', ht, hb, σ.left, Nat.le_refl _, rfl⟩

theorem moves_start {pc : Pc} (hr : σ.Ready t) (h' : heldKey pc = none)
    (ht : ∀ keyNum, targetKey pc = some keyNum → Draws cfg keyNum) (hb : ∀ keyNum, pc ≠ .touching keyNum) :
    Moves cfg σ (σ.start t pc) t pc where
  out := by rw [hr.1]; rfl
  out' := h'
  target keyNum hk := Or.inl (ht keyNum hk)
  below keyNum hk := absurd hk (hb keyNum)
  eq := ⟨_, Nat.le_of_succ_le (Nat.le_of_eq (sum_update_pred σ.left hr.2)), rfl⟩

/-- `TransactionInsert` after `Acknowledge`. -/
def release (σ : Clients T) (t : Fin T) (keyNum : ℕ) (gen : AcknowledgedCounterGenerator) : Clients T :=
  { σ.goto t .idle with
    transactionInsertKeySequence :=
      { σ.transactionInsertKeySequence with
        gen, acked := Insert.insert keyNum σ.transactionInsertKeySequence.acked } }

theorem release_pc_ne (σ : Clients T) {t t' : Fin T} (keyNum : ℕ) (gen : AcknowledgedCounterGenerator) (h : t' ≠ t) :
    (σ.release t keyNum gen).pc t' = σ.pc t' := Function.update_of_ne h ..

theorem release_pc_self (σ : Clients T) (t : Fin T) (keyNum : ℕ) (gen : AcknowledgedCounterGenerator) :
    (σ.release t keyNum gen).pc t = .idle := Function.update_self ..

theorem acknowledge_cases (h : transactionStep cfg σ (.acknowledge t) = some σ') :
    ∃ keyNum gen, σ.pc t = .inserted keyNum ∧ σ.transactionInsertKeySequence.gen.acknowledge keyNum = .ok gen ∧
      σ' = σ.release t keyNum gen := by
  simp only [transactionStep] at h
  cases hpc : σ.pc t with
  | inserted keyNum =>
    simp only [hpc] at h
    cases hok : σ.transactionInsertKeySequence.gen.acknowledge keyNum with
    | ok gen =>
      simp only [hok, Option.some.injEq] at h
      exact ⟨keyNum, gen, rfl, hok, h.symm⟩
    | error e => simp [hok] at h
  | _ => simp [hpc] at h

theorem choose_cases {sample : ℕ} (h : transactionStep cfg σ (.choose t sample) = some σ') :
    ∃ keyNum, Moves cfg σ σ' t (.chosen keyNum) := by
  simp only [transactionStep] at h
  split at h
  · rename_i hy
    have hdraws : ∀ keyNum, targetKey (.chosen ((keyChooser cfg).next σ.transactionInsertKeySequence.gen.last sample)) =
        some keyNum → Draws cfg keyNum := fun keyNum hk => ⟨_, sample, hy, Option.some.inj hk⟩
    split at h
    · rename_i hr
      cases h
      exact ⟨_, moves_start hr rfl hdraws fun _ hk => by cases hk⟩
    · split at h
      · rename_i hpc
        cases h
        exact ⟨_, moves_goto (by rw [hpc]; rfl) rfl (fun keyNum hk => Or.inl (hdraws keyNum hk)) fun _ hk => by cases hk⟩
      · cases h
  · cases h

theorem check_cases (h : transactionStep cfg σ (.check t) = some σ') : ∃ pc, Moves cfg σ σ' t pc := by
  simp only [transactionStep] at h
  cases hpc : σ.pc t with
  | chosen keyNum =>
    simp only [hpc, Option.some.injEq] at h
    subst h
    refine ⟨_, moves_goto (by rw [hpc]; rfl) ?_ (fun k hk => Or.inr ?_) fun k hk => ?_⟩
    · split <;> rfl
    · rw [hpc]
      split at hk
      · cases hk
      · exact hk
    · split at hk
      · cases hk
      · rename_i hle
        cases hk
        exact Nat.le_of_not_lt hle
  | _ => simp [hpc] at h

theorem touch_cases (h : transactionStep cfg σ (.touch t) = some σ') : Moves cfg σ σ' t .idle := by
  simp only [transactionStep] at h
  cases hpc : σ.pc t with
  | touching keyNum =>
    simp only [hpc, Option.some.injEq] at h
    subst h
    exact moves_goto (by rw [hpc]; rfl) rfl (fun _ hk => by cases hk) fun _ hk => by cases hk
  | _ => simp [hpc] at h

theorem rdidx_cases (h : transactionStep cfg σ (.rdidx t) = some σ') : Moves cfg σ σ' t .idle := by
  simp only [transactionStep] at h
  split at h
  · rename_i hr
    cases h
    exact moves_start hr rfl (fun _ hk => by cases hk) fun _ hk => by cases hk
  · cases h

/-- `TransactionInsert` after `Next()`. -/
def draw (σ : Clients T) (t : Fin T) : Clients T :=
  { σ.start t (.drawn σ.transactionInsertKeySequence.gen.next.1) with
    transactionInsertKeySequence :=
      { σ.transactionInsertKeySequence with
        gen := σ.transactionInsertKeySequence.gen.next.2
        handed := Insert.insert σ.transactionInsertKeySequence.gen.next.1 σ.transactionInsertKeySequence.handed } }

theorem draw_pc_self (σ : Clients T) (t : Fin T) :
    (σ.draw t).pc t = .drawn σ.transactionInsertKeySequence.gen.counter := Function.update_self ..

theorem draw_pc_ne (σ : Clients T) {t t' : Fin T} (h : t' ≠ t) : (σ.draw t).pc t' = σ.pc t' :=
  Function.update_of_ne h ..

theorem draw_left_ne (σ : Clients T) {t t' : Fin T} (h : t' ≠ t) : (σ.draw t).left t' = σ.left t' :=
  Function.update_of_ne h ..

theorem transactionStep_cases {e : ClientEvent T} (h : transactionStep cfg σ e = some σ') :
    (∃ t, e = .next t ∧ σ.Ready t ∧ σ' = σ.draw t) ∨
      (∃ t, e = .build t ∧ σ.build t = some σ') ∨
      (∃ t, e = .insert t ∧ σ.insert t .inserted = some σ') ∨
      (∃ t, e = .acknowledge t) ∨ ∃ t pc, Moves cfg σ σ' t pc := by
  cases e with
  | next t =>
    simp only [transactionStep] at h
    split at h
    · rename_i hr
      exact Or.inl ⟨t, rfl, hr, (Option.some.inj h).symm⟩
    · cases h
  | build t => exact Or.inr (Or.inl ⟨t, rfl, h⟩)
  | insert t => exact Or.inr (Or.inr (Or.inl ⟨t, rfl, h⟩))
  | acknowledge t => exact Or.inr (Or.inr (Or.inr (Or.inl ⟨t, rfl⟩)))
  | choose t sample =>
    obtain ⟨k, hm⟩ := choose_cases h
    exact Or.inr (Or.inr (Or.inr (Or.inr ⟨t, _, hm⟩)))
  | check t =>
    obtain ⟨pc, hm⟩ := check_cases h
    exact Or.inr (Or.inr (Or.inr (Or.inr ⟨t, pc, hm⟩)))
  | touch t => exact Or.inr (Or.inr (Or.inr (Or.inr ⟨t, _, touch_cases h⟩)))
  | rdidx t => exact Or.inr (Or.inr (Or.inr (Or.inr ⟨t, _, rdidx_cases h⟩)))
  | join => cases h

/-! ## The invariant -/

def ackThreads (σ : Clients T) : AckThreads (Fin T) :=
  { σ.transactionInsertKeySequence with outstanding := heldKey ∘ σ.pc }

/-- Key numbers are tickets from zero on, over both phases. -/
structure KeysInv (cfg : Settings) (σ : Clients T) : Prop where
  tickets : Tickets 0 σ.transactionInsertKeySequence.gen.counter (drawnKey ∘ σ.pc) σ.builtKeys
  total : σ.transactionInsertKeySequence.gen.counter + ∑ t, σ.left t ≤ cfg.recordCount + cfg.operationCount
  built : BuiltInv σ
  loaded : ∀ keyNum < cfg.recordCount, keyNum ∈ σ.completed
  target : ∀ t keyNum, targetKey (σ.pc t) = some keyNum → Draws cfg keyNum

/-- While no acknowledgement overruns the window, `Last()` has passed only records that are inserted. -/
structure RunInv (cfg : Settings) (σ : Clients T) : Prop extends KeysInv cfg σ where
  ack : AckInv cfg.recordCount σ.transactionInsertKeySequence
  owned : AckThreads.Owned σ.ackThreads
  acked : σ.transactionInsertKeySequence.acked ⊆ σ.completed
  inserted : ∀ t keyNum, σ.pc t = .inserted keyNum → keyNum ∈ σ.completed
  below : ∀ t keyNum, σ.pc t = .touching keyNum → keyNum ≤ σ.transactionInsertKeySequence.gen.last

theorem RunInv.published (h : RunInv cfg σ) {keyNum : ℕ}
    (hk : keyNum ≤ σ.transactionInsertKeySequence.gen.last) : keyNum ∈ σ.completed := by
  by_cases hN : keyNum < cfg.recordCount
  · exact h.loaded keyNum hN
  · exact h.acked (h.ack.mark.2 keyNum (Nat.le_of_not_lt hN) hk)

theorem drawnKey_of_heldKey {pc : Pc} (h : heldKey pc = none) : drawnKey pc = none := by
  cases pc <;> first | rfl | cases h

theorem not_inserting_of_heldKey {pc : Pc} (h : heldKey pc = none) (k : ℕ) : pc ≠ .inserting k := by
  rintro rfl
  cases h

theorem comp_heldKey (pc : Pc) : heldKey ∘ Function.update σ.pc t pc =
    Function.update (heldKey ∘ σ.pc) t (heldKey pc) := Function.comp_update ..

theorem comp_heldKey_same {pc : Pc} (h : heldKey pc = heldKey (σ.pc t)) :
    heldKey ∘ Function.update σ.pc t pc = heldKey ∘ σ.pc := by
  rw [comp_heldKey, h]
  exact Function.update_eq_self t _

theorem forall_goto {pc : Pc} {P : Pc → Prop} (h : ∀ t, P (σ.pc t)) (hpc : P pc) (t' : Fin T) :
    P (Function.update σ.pc t pc t') :=
  forall_update (P := fun _ => P) hpc (fun t' _ => h t') t'

theorem KeysInv.target_goto (h : KeysInv cfg σ) {pc : Pc}
    (hpc : ∀ keyNum, targetKey pc = some keyNum → Draws cfg keyNum) (t' : Fin T) (keyNum : ℕ)
    (hk : targetKey (Function.update σ.pc t pc t') = some keyNum) : Draws cfg keyNum :=
  forall_goto (P := fun pc => targetKey pc = some keyNum → Draws cfg keyNum) (fun t => h.target t keyNum) (hpc keyNum)
    t' hk

theorem keysInv_moves {pc : Pc} (h : KeysInv cfg σ) (hm : Moves cfg σ σ' t pc) : KeysInv cfg σ' := by
  obtain ⟨hout, hout', htarget, _, left, hleft, rfl⟩ := hm
  have hdrawn := comp_goto_same (σ := σ) ((drawnKey_of_heldKey hout').trans (drawnKey_of_heldKey hout).symm)
  have htotal := h.total
  refine ⟨?_, ?_, h.built.goto (not_inserting_of_heldKey hout) (not_inserting_of_heldKey hout'), h.loaded,
    h.target_goto fun k hk => (htarget k hk).elim id (h.target t k)⟩
  · simp only [hdrawn]
    exact h.tickets
  · simp only
    omega

theorem runInv_moves {pc : Pc} (h : RunInv cfg σ) (hm : Moves cfg σ σ' t pc) : RunInv cfg σ' := by
  have hkeys := keysInv_moves h.toKeysInv hm
  obtain ⟨hout, hout', _, hbelow, left, _, rfl⟩ := hm
  have hheld := comp_heldKey_same (σ := σ) (hout'.trans hout.symm)
  refine ⟨hkeys, h.ack, ?_, h.acked, fun t' k hk => ?_, fun t' k hk => ?_⟩
  · unfold ackThreads
    simp only [hheld]
    exact h.owned
  · refine forall_goto (P := fun pc => pc = .inserted k → k ∈ σ.completed) (fun t => h.inserted t k) ?_ t' hk
    rintro rfl
    cases hout'
  · exact forall_goto (P := fun pc => pc = .touching k → k ≤ σ.transactionInsertKeySequence.gen.last)
      (fun t => h.below t k) (hbelow k) t' hk

theorem KeysInv.counter_next (h : KeysInv cfg σ) (hleft : 0 < σ.left t) :
    σ.transactionInsertKeySequence.gen.counter + 1 < 2 ^ 64 := by
  have hsum := sum_update_pred σ.left hleft
  have htotal := h.total
  have hN := cfg.recordCount_int
  have hO := cfg.operationCount_int
  omega

theorem keysInv_next (h : KeysInv cfg σ) (hr : σ.Ready t) : KeysInv cfg (σ.draw t) := by
  have hcounter : σ.transactionInsertKeySequence.gen.next.2.counter = σ.transactionInsertKeySequence.gen.counter + 1 :=
    u64_of_lt (h.counter_next hr.2)
  obtain ⟨hidle, hleft⟩ := hr
  have hsum := sum_update_pred σ.left hleft
  have htotal := h.total
  refine ⟨?_, ?_, h.built.goto (fun k hk => ?_) (fun k hk => ?_), h.loaded, h.target_goto fun k hk => ?_⟩
  · simp only [draw, start, hcounter, comp_goto]
    exact h.tickets.draw (by simp [hidle, drawnKey])
  · simp only [draw, start, hcounter]
    omega
  · rw [hidle] at hk
    cases hk
  · cases hk
  · cases hk

theorem runInv_next (h : RunInv cfg σ) (hr : σ.Ready t) : RunInv cfg (σ.draw t) := by
  refine ⟨keysInv_next h.toKeysInv hr, ackInv_next h.ack (h.counter_next hr.2), ?_, h.acked, fun t' k hk => ?_,
    fun t' k hk => ?_⟩
  · have hdraw := AckThreads.draw_owned (t := t) h.ack h.owned
    unfold ackThreads
    simp only [draw, start, comp_heldKey]
    exact hdraw
  · refine forall_goto (P := fun pc => pc = .inserted k → k ∈ σ.completed) (fun t => h.inserted t k) ?_ t' hk
    intro hk
    cases hk
  · refine forall_goto (P := fun pc => pc = .touching k → k ≤ σ.transactionInsertKeySequence.gen.last)
      (fun t => h.below t k) ?_ t' hk
    intro hk
    cases hk

theorem keysInv_build (h : KeysInv cfg σ) (hb : σ.build t = some σ') : KeysInv cfg σ' := by
  have hbuilt := h.built.build hb
  obtain ⟨keyNum, hpc, rfl⟩ := build_iff.mp hb
  refine ⟨?_, h.total, hbuilt, h.loaded, h.target_goto fun k hk => ?_⟩
  · simp only [goto, comp_goto, builtKeys, List.map_append, List.map_singleton]
    exact h.tickets.spend (by simp [hpc, drawnKey])
  · cases hk

theorem runInv_build (h : RunInv cfg σ) (hb : σ.build t = some σ') : RunInv cfg σ' := by
  have hkeys := keysInv_build h.toKeysInv hb
  obtain ⟨keyNum, hpc, rfl⟩ := build_iff.mp hb
  have hsame : heldKey (.inserting keyNum) = heldKey (σ.pc t) := by rw [hpc]; rfl
  refine ⟨hkeys, h.ack, ?_, h.acked, fun t' k hk => ?_, fun t' k hk => ?_⟩
  · unfold ackThreads
    simp only [goto, comp_heldKey_same hsame]
    exact h.owned
  · refine forall_goto (P := fun pc => pc = .inserted k → k ∈ σ.completed) (fun t => h.inserted t k) ?_ t' hk
    intro hk
    cases hk
  · refine forall_goto (P := fun pc => pc = .touching k → k ≤ σ.transactionInsertKeySequence.gen.last)
      (fun t => h.below t k) ?_ t' hk
    intro hk
    cases hk

theorem keysInv_insert (h : KeysInv cfg σ) (hi : σ.insert t .inserted = some σ') : KeysInv cfg σ' := by
  have hbuilt := h.built.insert (fun _ _ hk => by cases hk) hi
  obtain ⟨keyNum, hpc, rfl⟩ := insert_iff.mp hi
  have hdrawn : drawnKey (.inserted keyNum) = drawnKey (σ.pc t) := by rw [hpc]; rfl
  refine ⟨?_, h.total, hbuilt, fun k hk => Finset.mem_insert_of_mem (h.loaded k hk), h.target_goto fun k hk => ?_⟩
  · simp only [goto, comp_goto_same hdrawn]
    exact h.tickets
  · cases hk

theorem runInv_insert (h : RunInv cfg σ) (hi : σ.insert t .inserted = some σ') : RunInv cfg σ' := by
  have hkeys := keysInv_insert h.toKeysInv hi
  obtain ⟨keyNum, hpc, rfl⟩ := insert_iff.mp hi
  have hheld : heldKey (.inserted keyNum) = heldKey (σ.pc t) := by rw [hpc]; rfl
  refine ⟨hkeys, h.ack, ?_, fun k hk => Finset.mem_insert_of_mem (h.acked hk), fun t' k hk => ?_, fun t' k hk => ?_⟩
  · unfold ackThreads
    simp only [goto, comp_heldKey_same hheld]
    exact h.owned
  · refine forall_goto (P := fun pc => pc = .inserted k → k ∈ Insert.insert keyNum σ.completed)
      (fun t hk => Finset.mem_insert_of_mem (h.inserted t k hk)) ?_ t' hk
    intro hk
    cases hk
    exact Finset.mem_insert_self _ _
  · refine forall_goto (P := fun pc => pc = .touching k → k ≤ σ.transactionInsertKeySequence.gen.last)
      (fun t => h.below t k) ?_ t' hk
    intro hk
    cases hk

theorem keysInv_acknowledge (h : KeysInv cfg σ) (hs : transactionStep cfg σ (.acknowledge t) = some σ') :
    KeysInv cfg σ' := by
  obtain ⟨keyNum, gen, hpc, hok, rfl⟩ := acknowledge_cases hs
  have hcounter := acknowledge_counter hok
  have hdrawn : drawnKey .idle = drawnKey (σ.pc t) := by rw [hpc]; rfl
  refine ⟨?_, ?_, h.built.goto (fun k hk => ?_) (fun k hk => ?_), h.loaded, h.target_goto fun k hk => ?_⟩
  · simp only [release, goto, comp_goto_same hdrawn, hcounter]
    exact h.tickets
  · simp only [release, hcounter]
    exact h.total
  · rw [hpc] at hk
    cases hk
  · cases hk
  · cases hk

theorem runInv_acknowledge (h : RunInv cfg σ) (hC : NoOverrun σ (.acknowledge t))
    (hs : transactionStep cfg σ (.acknowledge t) = some σ') : RunInv cfg σ' := by
  have hkeys := keysInv_acknowledge h.toKeysInv hs
  obtain ⟨keyNum, gen, hpc, hok, rfl⟩ := acknowledge_cases hs
  have hout : σ.ackThreads.outstanding t = some keyNum := congrArg heldKey hpc
  obtain ⟨hh, hn⟩ := h.owned.pending t keyNum hout
  have hle := hC keyNum hpc (slot_of_acknowledge hok)
  obtain ⟨L', win, hok', hinv, hlast, _⟩ := acknowledge_spec h.ack hh hn hle
  rw [hok, Except.ok.injEq] at hok'
  subst hok'
  refine ⟨hkeys, hinv, ?_, ?_, fun t' k hk => ?_, fun t' k hk => ?_⟩
  · unfold ackThreads
    simp only [release, goto, comp_heldKey]
    exact AckThreads.release_owned h.owned hout
  · exact Finset.insert_subset (h.inserted t keyNum hpc) h.acked
  · refine forall_goto (P := fun pc => pc = .inserted k → k ∈ σ.completed) (fun t => h.inserted t k) ?_ t' hk
    intro hk
    cases hk
  · refine forall_goto (P := fun pc => pc = .touching k → k ≤ L') (fun t hk => le_trans (h.below t k hk) hlast) ?_ t' hk
    intro hk
    cases hk

theorem keysInv_step {e : ClientEvent T} (h : KeysInv cfg σ) (hs : transactionStep cfg σ e = some σ') :
    KeysInv cfg σ' := by
  rcases transactionStep_cases hs with ⟨t, _, hr, rfl⟩ | ⟨t, _, hb⟩ | ⟨t, _, hi⟩ | ⟨t, rfl⟩ | ⟨t, pc, hm⟩
  · exact keysInv_next h hr
  · exact keysInv_build h hb
  · exact keysInv_insert h hi
  · exact keysInv_acknowledge h hs
  · exact keysInv_moves h hm

theorem runInv_step {e : ClientEvent T} (h : RunInv cfg σ) (hC : NoOverrun σ e)
    (hs : transactionStep cfg σ e = some σ') : RunInv cfg σ' := by
  rcases transactionStep_cases hs with ⟨t, _, hr, rfl⟩ | ⟨t, _, hb⟩ | ⟨t, _, hi⟩ | ⟨t, rfl⟩ | ⟨t, pc, hm⟩
  · exact runInv_next h hr
  · exact runInv_build h hb
  · exact runInv_insert h hi
  · exact runInv_acknowledge h hC hs
  · exact runInv_moves h hm

/-! ## Both phases -/

/-- What holds in the load phase, and `I` in the transaction phase. -/
structure PhaseInv (cfg : Settings) (I : Clients T → Prop) (σ : Clients T) : Prop where
  load : σ.phase = .load → LoadInv cfg σ
  transaction : σ.phase = .transaction → I σ

theorem phaseInv_init (hT : 0 < T) {I : Clients T → Prop} : PhaseInv cfg I (init cfg) :=
  ⟨fun _ => loadInv_init hT, fun h => by cases h⟩

theorem phaseInv_step {I : Clients T → Prop} {C : Clients T → ClientEvent T → Prop}
    (hjoin : ∀ σ, LoadInv cfg σ → σ.Returned →
      I { σ with phase := .transaction, left := fun t => threadOps cfg.operationCount T t })
    (hstep : ∀ σ e σ', I σ → C σ e → transactionStep cfg σ e = some σ' → I σ') {e : ClientEvent T}
    (h : PhaseInv cfg I σ) (hC : C σ e) (hs : step cfg σ e = some σ') : PhaseInv cfg I σ' := by
  unfold step at hs
  cases hp : σ.phase with
  | load =>
    rw [hp] at hs
    refine ⟨loadInv_step (h.load hp) hs, fun hp' => ?_⟩
    rcases loadStep_cases hs with ⟨t, _, _, rfl⟩ | ⟨t, _, hb⟩ | ⟨t, _, hi⟩ | ⟨_, hret, rfl⟩
    · exact absurd (hp.symm.trans hp') (by decide)
    · exact absurd (hp.symm.trans ((build_phase hb).symm.trans hp')) (by decide)
    · exact absurd (hp.symm.trans ((insert_phase hi).symm.trans hp')) (by decide)
    · exact hjoin σ (h.load hp) hret
  | transaction =>
    rw [hp] at hs
    refine ⟨fun hp' => ?_, fun _ => hstep σ e σ' (h.transaction hp) hC hs⟩
    exact absurd (hp.symm.trans ((transactionStep_phase hs).symm.trans hp')) (by decide)

/-! ## Runs from zero -/

theorem keysInv_join (h0 : cfg.insertStart = 0) (hT : 0 < T) (h : LoadInv cfg σ) (hret : σ.Returned) : KeysInv cfg
      { σ with phase := .transaction, left := fun t => threadOps cfg.operationCount T t } := by
  have hidle : ∀ t, σ.pc t = .idle := fun t => (hret t).1
  have hleft : ∑ t, σ.left t = 0 := Finset.sum_eq_zero fun t _ => (hret t).2
  have htotal := h.total
  rw [hleft, h0, Nat.add_zero, Nat.zero_add] at htotal
  have hseq := h.unused
  have htickets := h.tickets
  rw [h0, htotal] at htickets
  refine ⟨?_, ?_, h.built, fun k hk => ?_, fun t k hk => ?_⟩
  · simp only [hseq]
    exact htickets
  · simp only [hseq, sum_threadOps _ hT]
    exact Nat.le_refl _
  -- a number below `recordcount` was drawn, and no thread holds one
  · rcases (htickets.cover k).mpr ⟨Nat.zero_le k, hk⟩ with hm | ⟨t, ht⟩
    · rcases (h.built k).mp hm with hc | ⟨t, ht⟩
      · exact hc
      · rw [hidle] at ht
        cases ht
    · simp [hidle, drawnKey] at ht
  · simp [hidle, targetKey] at hk

theorem runInv_join (h0 : cfg.insertStart = 0) (hN : 1 ≤ cfg.recordCount) (hT : 0 < T) (h : LoadInv cfg σ)
    (hret : σ.Returned) : RunInv cfg
      { σ with phase := .transaction, left := fun t => threadOps cfg.operationCount T t } := by
  have hidle : ∀ t, σ.pc t = .idle := fun t => (hret t).1
  have hseq := h.unused
  refine ⟨keysInv_join h0 hT h hret, ?_, ⟨fun t k hk => ?_, fun t _ k hk => ?_⟩, ?_, fun t k hk => ?_, fun t k hk => ?_⟩
  · simp only [hseq]
    exact ackInv_init hN (Nat.lt_trans cfg.recordCount_int (by decide))
  · simp [ackThreads, hidle, heldKey] at hk
  · simp [ackThreads, hidle, heldKey] at hk
  · simp [hseq, AckState.init]
  · rw [hidle] at hk
    cases hk
  · rw [hidle] at hk
    cases hk

theorem phaseRun_step (h0 : cfg.insertStart = 0) (hN : 1 ≤ cfg.recordCount) (hT : 0 < T) {e : ClientEvent T}
    (h : PhaseInv cfg (RunInv cfg) σ) (hC : NoOverrun σ e) (hs : step cfg σ e = some σ') :
    PhaseInv cfg (RunInv cfg) σ' :=
  phaseInv_step (fun _ => runInv_join h0 hN hT) (fun _ _ _ => runInv_step) h hC hs

theorem phaseKeys_step (h0 : cfg.insertStart = 0) (hT : 0 < T) {e : ClientEvent T} (h : PhaseInv cfg (KeysInv cfg) σ)
    (hs : step cfg σ e = some σ') : PhaseInv cfg (KeysInv cfg) σ' :=
  phaseInv_step (C := fun _ _ => True) (fun _ => keysInv_join h0 hT) (fun _ _ _ h _ => keysInv_step h) h trivial hs

theorem run_keys (h0 : cfg.insertStart = 0) (hT : 0 < T) {es : List (ClientEvent T)}
    (hrun : run (step cfg) (init cfg) es = some σ) : PhaseInv cfg (KeysInv cfg) σ :=
  run_inv (step cfg) (fun _ _ _ h hs => phaseKeys_step h0 hT h hs) (phaseInv_init hT) hrun

theorem runInv_existing {e : ClientEvent T} (h : PhaseInv cfg (RunInv cfg) σ) : Existing σ e := by
  intro hp
  have hinv := h.transaction hp
  cases e with
  | touch t => exact fun k hk => hinv.published (hinv.below t k hk)
  | build t => exact fun k hk => hinv.tickets.fresh t k (congrArg drawnKey hk)
  | _ => trivial

theorem keysInv_existing (hdraws : ∀ keyNum, cfg.recordCount ≤ keyNum → ¬ Draws cfg keyNum) {e : ClientEvent T}
    (h : PhaseInv cfg (KeysInv cfg) σ) : Existing σ e := by
  intro hp
  have hinv := h.transaction hp
  cases e with
  | touch t =>
    intro k hk
    have htarget := hinv.target t k (congrArg targetKey hk)
    exact hinv.loaded k (Nat.lt_of_not_le fun hle => hdraws k hle htarget)
  | build t => exact fun k hk => hinv.tickets.fresh t k (congrArg drawnKey hk)
  | _ => trivial

/-- From zero, with no overrun or a distribution that leaves new keys alone. -/
theorem existing_of_zero (h0 : cfg.insertStart = 0) (hN : 1 ≤ cfg.recordCount) (hT : 0 < T) {es : List (ClientEvent T)}
    (hC : Along (step cfg) NoOverrun (init cfg) es ∨ ∀ keyNum, cfg.recordCount ≤ keyNum → ¬ Draws cfg keyNum) :
    Along (step cfg) Existing (init cfg) es := by
  rcases hC with hC | hdraws
  · exact Along.strengthen (step cfg) (I := PhaseInv cfg (RunInv cfg)) (fun _ _ h _ => runInv_existing h)
      (fun _ _ _ h hC hs => phaseRun_step h0 hN hT h hC hs) es _ (phaseInv_init hT) hC
  · exact Along.of_inv (step cfg) (I := PhaseInv cfg (KeysInv cfg)) (fun _ _ h => keysInv_existing hdraws h)
      (fun _ _ _ h hs => phaseKeys_step h0 hT h hs) es _ (phaseInv_init hT)

/-! ## Numbers that are not acknowledged -/

/-- Each of them is with a thread. -/
def HeldInv (σ : Clients T) : Prop :=
  ∀ v ∈ σ.transactionInsertKeySequence.handed, v ∉ σ.transactionInsertKeySequence.acked → ∃ t, heldKey (σ.pc t) = some v

theorem HeldInv.goto (h : HeldInv σ) (pc : Pc) (hpc : heldKey pc = heldKey (σ.pc t)) (left : Fin T → ℕ) :
    HeldInv { σ with left, pc := Function.update σ.pc t pc } := by
  intro v hv hn
  obtain ⟨t', ht'⟩ := h v hv hn
  refine ⟨t', ?_⟩
  have hcomp := congrFun (comp_heldKey_same hpc) t'
  exact hcomp.trans ht'

theorem heldInv_step {e : ClientEvent T} (h : HeldInv σ) (hs : transactionStep cfg σ e = some σ') : HeldInv σ' := by
  rcases transactionStep_cases hs with ⟨t, _, hr, rfl⟩ | ⟨t, _, hb⟩ | ⟨t, _, hi⟩ | ⟨t, rfl⟩ | ⟨t, pc, hm⟩
  · intro v hv hn
    rcases Finset.mem_insert.mp hv with rfl | hv
    · exact ⟨t, congrArg heldKey (draw_pc_self σ t)⟩
    · obtain ⟨t', ht'⟩ := h v hv hn
      have hne : t' ≠ t := by
        rintro rfl
        rw [hr.1] at ht'
        cases ht'
      exact ⟨t', (congrArg heldKey (draw_pc_ne σ hne)).trans ht'⟩
  · obtain ⟨keyNum, hpc, rfl⟩ := build_iff.mp hb
    exact h.goto (.inserting keyNum) (by rw [hpc]; rfl) σ.left
  · obtain ⟨keyNum, hpc, rfl⟩ := insert_iff.mp hi
    exact h.goto (.inserted keyNum) (by rw [hpc]; rfl) σ.left
  · obtain ⟨keyNum, gen, hpc, _, rfl⟩ := acknowledge_cases hs
    intro v hv hn
    have hv' := Finset.mem_insert.not.mp hn
    obtain ⟨t', ht'⟩ := h v hv fun hm => hv' (Or.inr hm)
    have hne : t' ≠ t := by
      rintro rfl
      rw [hpc] at ht'
      exact hv' (Or.inl (Option.some.inj ht').symm)
    exact ⟨t', (congrArg heldKey (release_pc_ne σ keyNum gen hne)).trans ht'⟩
  · obtain ⟨hout, hout', _, _, left, _, rfl⟩ := hm
    exact h.goto _ (hout'.trans hout.symm) left

theorem HeldInv.card_le (h : HeldInv σ) :
    (σ.transactionInsertKeySequence.handed \ σ.transactionInsertKeySequence.acked).card ≤ T := by
  have himage : σ.transactionInsertKeySequence.handed \ σ.transactionInsertKeySequence.acked ⊆
      Finset.univ.image fun t => (heldKey (σ.pc t)).getD 0 := by
    intro v hv
    obtain ⟨hv, hn⟩ := Finset.mem_sdiff.mp hv
    obtain ⟨t, ht⟩ := h v hv hn
    exact Finset.mem_image.mpr ⟨t, Finset.mem_univ t, by rw [ht]; rfl⟩
  calc _ ≤ (Finset.univ.image fun t => (heldKey (σ.pc t)).getD 0).card := Finset.card_le_card himage
    _ ≤ (Finset.univ : Finset (Fin T)).card := Finset.card_image_le
    _ = T := Finset.card_fin T

/-- Fewer threads than the window holds never have a window of keys outstanding. -/
theorem along_outstanding (hT : 0 < T) (hW : T < kWindowSize) (es : List (ClientEvent T)) :
    Along (step cfg) Outstanding (init cfg) es := by
  have hload : ∀ σ : Clients T, LoadInv cfg σ → HeldInv σ := fun σ h v hv => by
    simp [h.unused, AckState.init] at hv
  refine Along.of_inv (step cfg) (I := PhaseInv cfg HeldInv) (fun σ e h => ?_) (fun _ _ _ h hs => ?_) es _
    (phaseInv_init hT)
  · have hheld : HeldInv σ := by
      cases hp : σ.phase with
      | load => exact hload σ (h.load hp)
      | transaction => exact h.transaction hp
    exact Nat.lt_of_le_of_lt hheld.card_le hW
  · exact phaseInv_step (C := fun _ _ => True) (fun σ h _ => hload σ h) (fun _ _ _ h _ => heldInv_step h) h trivial hs

/-! ## Threads that act one after the other -/

section
variable (cfg)

/-- What the other fields of two states have in common. -/
structure Same (σ σ' : Clients T) : Prop where
  phase : σ'.phase = σ.phase
  left : σ'.left = σ.left
  keys : σ'.transactionInsertKeySequence = σ.transactionInsertKeySequence

theorem can_build {keyNum : ℕ} (hpc : σ.pc t = .drawn keyNum) : ∃ σ', step cfg σ (.build t) = some σ' ∧ Same σ σ' ∧
    σ'.pc = Function.update σ.pc t (.inserting keyNum) ∧ σ'.builtKeys = σ.builtKeys ++ [keyNum] := by
  refine ⟨{ σ.goto t (.inserting keyNum) with built := σ.built ++ [(t, keyNum)] }, ?_, ⟨rfl, rfl, rfl⟩, rfl,
    by simp [builtKeys]⟩
  have hb := build_iff.mpr ⟨keyNum, hpc, rfl⟩
  unfold step
  cases σ.phase <;> exact hb

theorem can_insert {keyNum : ℕ} (hpc : σ.pc t = .inserting keyNum) : ∃ σ', step cfg σ (.insert t) = some σ' ∧
    Same σ σ' ∧ σ'.pc = Function.update σ.pc t (if σ.phase = .load then .idle else .inserted keyNum) ∧
    σ'.builtKeys = σ.builtKeys := by
  unfold step
  cases hp : σ.phase with
  | load => exact ⟨_, insert_iff.mpr ⟨keyNum, hpc, rfl⟩, ⟨rfl, rfl, rfl⟩, rfl, rfl⟩
  | transaction => exact ⟨_, insert_iff.mpr ⟨keyNum, hpc, rfl⟩, ⟨rfl, rfl, rfl⟩, rfl, rfl⟩

theorem can_next_load (hp : σ.phase = .load) (hr : σ.Ready t) : ∃ σ' keyNum, step cfg σ (.next t) = some σ' ∧
    σ'.phase = .load ∧ σ'.pc = Function.update σ.pc t (.drawn keyNum) ∧
    σ'.left = Function.update σ.left t (σ.left t - 1) := by
  have hs : step cfg σ (.next t) = some { σ.start t (.drawn σ.insertKeySequence.counter) with
      insertKeySequence := σ.insertKeySequence.next.2 } := by
    unfold step
    rw [hp]
    exact if_pos hr
  exact ⟨_, _, hs, hp, rfl, rfl⟩

theorem can_next (hp : σ.phase = .transaction) (hr : σ.Ready t) : step cfg σ (.next t) = some (σ.draw t) := by
  unfold step
  rw [hp]
  exact if_pos hr

theorem can_acknowledge {keyNum : ℕ} {gen : AcknowledgedCounterGenerator} (hp : σ.phase = .transaction)
    (hpc : σ.pc t = .inserted keyNum) (hok : σ.transactionInsertKeySequence.gen.acknowledge keyNum = .ok gen) :
    step cfg σ (.acknowledge t) = some (σ.release t keyNum gen) := by
  simp only [step, hp, transactionStep, hpc, hok]
  rfl

abbrev Reach (cfg : Settings) (σ σ' : Clients T) := ReachedAlong (step cfg) InWindow σ σ'

variable {cfg}

theorem Reach.one {e : ClientEvent T} (h : step cfg σ e = some σ') (hC : InWindow σ e) : Reach cfg σ σ' :=
  ReachedAlong.one _ h hC

theorem Reach.trans {σ'' : Clients T} (h : Reach cfg σ σ') (h' : Reach cfg σ' σ'') : Reach cfg σ σ'' :=
  ReachedAlong.trans _ h h'

variable (cfg)

theorem update_twice {pc pc' : Pc} (h : σ'.pc = Function.update σ.pc t pc) :
    Function.update σ'.pc t pc' = Function.update σ.pc t pc' := by
  rw [h, Function.update_idem]

theorem reach_loaded (hp : σ.phase = .load) (hr : σ.Ready t) : ∃ σ', Reach cfg σ σ' ∧ σ'.phase = .load ∧
    σ'.pc = σ.pc ∧ σ'.left = Function.update σ.left t (σ.left t - 1) := by
  obtain ⟨σ₁, k, h1, hp1, hpc1, hl1⟩ := can_next_load cfg hp hr
  obtain ⟨σ₂, h2, hs2, hpc2, _⟩ := can_build cfg (σ := σ₁) (t := t) (by rw [hpc1, Function.update_self])
  obtain ⟨σ₃, h3, hs3, hpc3, _⟩ := can_insert cfg (σ := σ₂) (t := t) (by rw [hpc2, Function.update_self])
  have hp2 := hs2.phase.trans hp1
  rw [if_pos hp2, update_twice hpc2, update_twice hpc1, ← hr.1, Function.update_eq_self] at hpc3
  exact ⟨σ₃, ((Reach.one h1 trivial).trans (.one h2 trivial)).trans (.one h3 trivial), hs3.phase.trans hp2, hpc3,
    hs3.left.trans (hs2.left.trans hl1)⟩

theorem reach_load : ∀ {n : ℕ} {σ : Clients T}, σ.phase = .load → (∀ t, σ.pc t = .idle) → ∑ t, σ.left t = n →
    ∃ σ', Reach cfg σ σ' ∧ σ'.phase = .load ∧ σ'.Returned
  | 0, σ, hp, hidle, hleft =>
    ⟨σ, ReachedAlong.refl _ σ, hp, fun t => ⟨hidle t, Finset.sum_eq_zero_iff.mp hleft t (Finset.mem_univ t)⟩⟩
  | n + 1, σ, hp, hidle, hleft => by
    obtain ⟨t, _, ht⟩ := Finset.exists_ne_zero_of_sum_ne_zero (hleft.trans_ne (Nat.succ_ne_zero n))
    have hpos := Nat.pos_of_ne_zero ht
    obtain ⟨σ₁, h1, hp1, hpc1, hl1⟩ := reach_loaded cfg hp ⟨hidle t, hpos⟩
    have hsum : ∑ t, σ₁.left t = n := by
      have hsum := sum_update_pred σ.left hpos
      rw [hl1]
      omega
    obtain ⟨σ', h', hend⟩ := reach_load hp1 (fun t => by rw [hpc1]; exact hidle t) hsum
    exact ⟨σ', h1.trans h', hend⟩

/-- All threads are between operations, and no number is outstanding. -/
structure Resting (σ : Clients T) (left : Fin T → ℕ) (counter : ℕ) : Prop where
  phase : σ.phase = .transaction
  idle : ∀ t, σ.pc t = .idle
  left : σ.left = left
  exact : AckExact cfg.recordCount σ.transactionInsertKeySequence
  all : σ.transactionInsertKeySequence.handed ⊆ σ.transactionInsertKeySequence.acked
  counter : σ.transactionInsertKeySequence.gen.counter = counter
  loaded : ∀ keyNum, cfg.insertStart ≤ keyNum → keyNum < cfg.insertStart + cfg.recordCount → keyNum ∈ σ.builtKeys

variable {cfg}

theorem Resting.ready {left : Fin T → ℕ} {counter : ℕ} (h : Resting cfg σ left counter) (ht : 0 < left t) :
    σ.Ready t := ⟨h.idle t, by rw [h.left]; exact ht⟩

theorem reach_transaction (hN : 1 ≤ cfg.recordCount) (hT : 0 < T) : ∃ σ : Clients T, Reach cfg (init cfg) σ ∧
    Resting cfg σ (fun t => threadOps cfg.operationCount T t) cfg.recordCount := by
  obtain ⟨σ, hreach, hp, hret⟩ := reach_load cfg (σ := init cfg) rfl (fun _ => rfl) rfl
  obtain ⟨es, hrun, hC⟩ := hreach
  have hinv := run_load hT hrun hp
  have hjoin : step cfg σ .join =
      some { σ with phase := .transaction, left := fun t => threadOps cfg.operationCount T t } := by
    unfold step
    rw [hp]
    exact if_pos hret
  refine ⟨_, Reach.trans ⟨es, hrun, hC⟩ (.one hjoin trivial),
    ⟨rfl, fun t => (hret t).1, rfl, ?_, ?_, ?_, fun k hk hk' => ?_⟩⟩
  · simp only [hinv.unused]
    exact ackExact_init hN (Nat.lt_trans cfg.recordCount_int (by decide))
  · simp [hinv.unused, AckState.init]
  · simp only [hinv.unused]
    rfl
  · exact (hinv.perm hret).mem_iff.mpr (List.mem_range'_1.mpr ⟨hk, hk'⟩)

/-- `TransactionInsert` by one thread from `Next()` to before `Acknowledge`. -/
theorem reach_inserted (cfg : Settings) (hp : σ.phase = .transaction) (hr : σ.Ready t) : ∃ σ', Reach cfg σ σ' ∧
    σ'.phase = .transaction ∧ σ'.left = Function.update σ.left t (σ.left t - 1) ∧
    σ'.pc = Function.update σ.pc t (.inserted σ.transactionInsertKeySequence.gen.counter) ∧
    σ'.transactionInsertKeySequence = (σ.draw t).transactionInsertKeySequence ∧
    σ'.builtKeys = σ.builtKeys ++ [σ.transactionInsertKeySequence.gen.counter] := by
  have hpc1 : (σ.draw t).pc = Function.update σ.pc t (.drawn σ.transactionInsertKeySequence.gen.counter) := rfl
  obtain ⟨σ₂, h2, hs2, hpc2, hb2⟩ := can_build cfg (σ := σ.draw t) (t := t) (by rw [hpc1, Function.update_self])
  obtain ⟨σ₃, h3, hs3, hpc3, hb3⟩ := can_insert cfg (σ := σ₂) (t := t) (by rw [hpc2, Function.update_self])
  have hp2 : σ₂.phase = .transaction := hs2.phase.trans hp
  rw [if_neg (by rw [hp2]; decide), update_twice hpc2, update_twice hpc1] at hpc3
  exact ⟨σ₃, ((Reach.one (can_next cfg hp hr) trivial).trans (.one h2 trivial)).trans (.one h3 trivial),
    hs3.phase.trans hp2, hs3.left.trans hs2.left, hpc3, hs3.keys.trans hs2.keys, hb3.trans hb2⟩

theorem reach_insert {left : Fin T → ℕ} {v : ℕ} (h : Resting cfg σ left v) (ht : 0 < left t) (hv : v < 2 ^ 32) :
    ∃ σ', Reach cfg σ σ' ∧ Resting cfg σ' (Function.update left t (left t - 1)) (v + 1) := by
  obtain ⟨σ₁, h1, hp1, hl1, hpc1, hk1, hb1⟩ := reach_inserted cfg h.phase (h.ready ht)
  rw [h.counter] at hpc1 hb1
  obtain ⟨hwin, gen, hok, hexact, hall, hcounter⟩ := ack_drawn h.exact h.all h.counter hv
  have hgen : σ₁.transactionInsertKeySequence.gen = σ.transactionInsertKeySequence.gen.next.2 := by rw [hk1]; rfl
  have hpc : σ₁.pc t = .inserted v := by rw [hpc1, Function.update_self]
  have h2 := can_acknowledge cfg (t := t) hp1 hpc (by rw [hgen]; exact hok)
  have hC : InWindow σ₁ (.acknowledge t) := fun k hk => by
    rw [hpc, Pc.inserted.injEq] at hk
    rw [hgen]
    exact hk ▸ hwin
  refine ⟨_, h1.trans (.one h2 hC), ⟨hp1, fun t' => ?_, ?_, ?_, ?_, hcounter, fun k hk hk' => ?_⟩⟩
  · change Function.update σ₁.pc t .idle t' = .idle
    rw [update_twice hpc1, ← h.idle t, Function.update_eq_self]
    exact (h.idle t').trans (h.idle t).symm
  · rw [← h.left]
    exact hl1
  · simp only [release, hk1]
    exact hexact
  · simp only [release, hk1]
    exact hall
  · change k ∈ σ₁.builtKeys
    rw [hb1]
    exact List.mem_append_left _ (h.loaded k hk hk')

theorem reach_inserts : ∀ {j v : ℕ} {left : Fin T → ℕ} {σ : Clients T}, Resting cfg σ left v → j ≤ left t →
    v + j < 2 ^ 32 → ∃ σ', Reach cfg σ σ' ∧ Resting cfg σ' (Function.update left t (left t - j)) (v + j)
  | 0, v, left, σ, h, _, _ => ⟨σ, ReachedAlong.refl _ σ, by rwa [Nat.sub_zero, Function.update_eq_self]⟩
  | j + 1, v, left, σ, h, hj, hv => by
    obtain ⟨σ₁, h1, hrest1⟩ := reach_insert (t := t) h (by omega) (by omega)
    obtain ⟨σ₂, h2, hrest2⟩ := reach_inserts (j := j) hrest1 (by rw [Function.update_self]; omega) (by omega)
    rw [Function.update_self, Function.update_idem, Nat.sub_sub, Nat.add_assoc, Nat.add_comm 1 j] at hrest2
    exact ⟨σ₂, h1.trans h2, hrest2⟩

/-! ## A key inserted twice -/

theorem not_existing (cfg : Settings) (hN : 1 ≤ cfg.recordCount) (hpos : 0 < cfg.insertStart)
    (hops : cfg.operationCount = cfg.insertStart - cfg.recordCount + 1) : ∃ es : List (ClientEvent 1),
      Along (step cfg) InWindow (init cfg) es ∧ ¬ Along (step cfg) Existing (init cfg) es := by
  have hN' := cfg.recordCount_int
  have hs := cfg.insertStart_int
  obtain ⟨σ₀, h₀, hrest₀⟩ := reach_transaction hN Nat.one_pos
  have hshare : threadOps cfg.operationCount 1 0 = cfg.insertStart - cfg.recordCount + 1 := by
    simp [threadOps, Nat.mod_one, hops]
  obtain ⟨σ, hσ, hrest⟩ := reach_inserts (t := 0) (j := cfg.insertStart - cfg.recordCount) hrest₀
    (by simp only [Fin.val_zero, hshare]; omega) (by omega)
  have hr := hrest.ready (t := 0) (by simp only [Function.update_self, Fin.val_zero, hshare]; omega)
  have hnext := can_next cfg hrest.phase hr
  obtain ⟨es, hrun, hC⟩ := (h₀.trans hσ).trans (.one hnext trivial)
  have hbuild : Along (step cfg) InWindow (σ.draw 0) [.build 0] := ⟨trivial, fun _ _ => trivial⟩
  refine ⟨es ++ [.build 0], (Along.append _ hrun).mpr ⟨hC, hbuild⟩, fun hex => ?_⟩
  have hfresh := ((Along.append _ hrun).mp hex).2.1 hrest.phase _ (draw_pc_self σ 0)
  refine hfresh (hrest.loaded _ ?_ ?_)
  · rw [hrest.counter]
    omega
  · rw [hrest.counter]
    omega

/-! ## A key touched before its insert has returned -/

theorem Draws.again {keyNum last : ℕ} (h : Draws cfg keyNum) (h1 : 1 ≤ keyNum) (hlast : keyNum ≤ last) :
    ∃ sample, (keyChooser cfg).Yields last sample ∧ (keyChooser cfg).next last sample = keyNum := by
  obtain ⟨last', sample, hy, hk⟩ := h
  unfold keyChooser at hy hk ⊢
  cases hd : cfg.requestDist with
  | uniform =>
    rw [hd] at hy hk
    exact ⟨sample, hy, hk⟩
  | zipfian newKeys =>
    rw [hd] at hy hk
    exact ⟨sample, hy, hk⟩
  | latest =>
    refine ⟨last - keyNum, ?_, ?_⟩
    · change last - keyNum < last
      omega
    · change last - (last - keyNum) = keyNum
      omega

/-- Thread 0 has drawn `keyNum` and goes no further; thread 1 has drawn and acknowledged `j` more. -/
structure Stalled (cfg : Settings) (σ : Clients 2) (keyNum j n : ℕ) : Prop where
  phase : σ.phase = .transaction
  slow : σ.pc 0 = .drawn keyNum
  fast : σ.pc 1 = .idle
  left : σ.left 1 = n
  ack : AckInv cfg.recordCount σ.transactionInsertKeySequence
  limit : σ.transactionInsertKeySequence.gen.limit + 1 = keyNum
  out : keyNum ∉ σ.transactionInsertKeySequence.acked
  counter : σ.transactionInsertKeySequence.gen.counter = keyNum + 1 + j

variable {σ : Clients 2} {keyNum j n : ℕ}

theorem Stalled.ready (h : Stalled cfg σ keyNum j (n + 1)) : σ.Ready 1 :=
  ⟨h.fast, by rw [h.left]; exact Nat.succ_pos n⟩

theorem stalled_zero {left : Fin 2 → ℕ} (h : Resting cfg σ left keyNum) (h0 : 0 < left 0) (hv : keyNum < 2 ^ 32) :
    step cfg σ (.next 0) = some (σ.draw 0) ∧ Stalled cfg (σ.draw 0) keyNum 0 (left 1) := by
  have hcounter := h.counter
  have hlt := h.exact.limit_lt
  have hlast : σ.transactionInsertKeySequence.gen.limit = keyNum - 1 := (h.exact.last_of_all h.all).trans (by rw [hcounter])
  have hwrap : σ.transactionInsertKeySequence.gen.counter + 1 < 2 ^ 64 := by omega
  refine ⟨can_next cfg h.phase (h.ready h0), h.phase, ?_, ?_, ?_, ackInv_next h.exact.toAckInv hwrap, ?_, fun hm => ?_, ?_⟩
  · rw [draw_pc_self, hcounter]
  · exact (draw_pc_ne σ (by decide)).trans (h.idle 1)
  · exact (draw_left_ne σ (by decide)).trans (congrFun h.left 1)
  · change σ.transactionInsertKeySequence.gen.limit + 1 = keyNum
    omega
  · have := ((h.exact.handed keyNum).mp (h.exact.sub hm)).2
    omega
  · exact (u64_of_lt hwrap).trans (by omega)

/-- `TransactionInsert` by thread 1 up to `Acknowledge`, beside a stalled thread. -/
theorem stalled_inserted (h : Stalled cfg σ keyNum j (n + 1)) (hv : keyNum + j < 2 ^ 33) : ∃ σ', Reach cfg σ σ' ∧
    σ'.phase = .transaction ∧ σ'.pc 0 = .drawn keyNum ∧ σ'.pc 1 = .inserted (keyNum + 1 + j) ∧ σ'.left 1 = n ∧
    AckInv cfg.recordCount σ'.transactionInsertKeySequence ∧ σ'.transactionInsertKeySequence.gen.limit + 1 = keyNum ∧
    keyNum ∉ σ'.transactionInsertKeySequence.acked ∧ keyNum ∈ σ'.transactionInsertKeySequence.handed ∧
    keyNum + 1 + j ∉ σ'.transactionInsertKeySequence.acked ∧ keyNum + 1 + j ∈ σ'.transactionInsertKeySequence.handed ∧
    σ'.transactionInsertKeySequence.gen.counter = keyNum + 1 + (j + 1) := by
  obtain ⟨σ₁, h1, hp1, hl1, hpc1, hk1, _⟩ := reach_inserted cfg h.phase h.ready
  have hwrap : σ.transactionInsertKeySequence.gen.counter + 1 < 2 ^ 64 := by
    rw [h.counter]
    omega
  have hinv : AckInv cfg.recordCount σ₁.transactionInsertKeySequence := by
    rw [hk1]
    exact ackInv_next h.ack hwrap
  have hcounter : σ₁.transactionInsertKeySequence.gen.counter = keyNum + 1 + (j + 1) := by
    rw [hk1]
    exact (u64_of_lt hwrap).trans (by rw [h.counter]; omega)
  have hlimit := h.limit
  have hmark := h.ack.mark.1
  -- all numbers from that of the stalled thread on are handed out
  have hhanded : ∀ v, keyNum ≤ v → v ≤ keyNum + 1 + j → v ∈ σ₁.transactionInsertKeySequence.handed := fun v hv hv' =>
    (hinv.handed v).mpr ⟨by omega, by omega⟩
  refine ⟨σ₁, h1, hp1, ?_, ?_, ?_, hinv, ?_, ?_, hhanded _ (by omega) (by omega), fun hm => ?_,
    hhanded _ (by omega) (by omega), hcounter⟩
  · rw [hpc1, Function.update_of_ne (by decide)]
    exact h.slow
  · rw [hpc1, Function.update_self, h.counter]
  · rw [hl1, Function.update_self, h.left]
    rfl
  · rw [hk1]
    exact h.limit
  · rw [hk1]
    exact h.out
  · rw [hk1] at hm
    have := ((h.ack.handed _).mp (h.ack.sub hm)).2
    rw [h.counter] at this
    omega

theorem stalled_succ (h : Stalled cfg σ keyNum j (n + 1)) (hj : j + 1 < 65536) (hv : keyNum < 2 ^ 32) :
    ∃ σ', Reach cfg σ σ' ∧ Stalled cfg σ' keyNum (j + 1) n := by
  obtain ⟨σ₁, h1, hp1, hslow, hpc, hl1, hinv, hlimit, hout, hmem, hout', hmem', hcounter⟩ :=
    stalled_inserted h (by omega)
  have hsize := kWindowSize_eq
  have hle : keyNum + 1 + j ≤ σ₁.transactionInsertKeySequence.gen.limit + kWindowSize := by omega
  obtain ⟨L', win, hok, hinv', hge, _⟩ := acknowledge_spec hinv hmem' hout' hle
  have h2 := can_acknowledge cfg hp1 hpc hok
  have hkeep : keyNum ∉ Insert.insert (keyNum + 1 + j) σ₁.transactionInsertKeySequence.acked := fun hm =>
    (Finset.mem_insert.mp hm).elim (by omega) hout
  -- the limit cannot pass the key of the stalled thread
  have hlt : L' < keyNum := limit_lt_handed hinv' hmem hkeep
  refine ⟨_, h1.trans (.one h2 fun k hk => ?_), ⟨hp1, ?_, ?_, hl1, hinv', ?_, hkeep, hcounter⟩⟩
  · rw [hpc, Pc.inserted.injEq] at hk
    exact hk ▸ hle
  · rw [release_pc_ne _ _ _ (by decide)]
    exact hslow
  · rw [release_pc_self]
  · change L' + 1 = keyNum
    omega

theorem stalled_run : ∀ {j n : ℕ} {σ : Clients 2}, Stalled cfg σ keyNum 0 (n + j) → j < 65536 → keyNum < 2 ^ 32 →
    ∃ σ', Reach cfg σ σ' ∧ Stalled cfg σ' keyNum j n
  | 0, _, σ, h, _, _ => ⟨σ, ReachedAlong.refl _ σ, h⟩
  | j + 1, n, σ, h, hj, hv => by
    obtain ⟨σ₁, h1, hs1⟩ := stalled_run (j := j) (n := n + 1) (by rwa [Nat.add_assoc, Nat.add_comm 1 j]) (by omega) hv
    obtain ⟨σ₂, h2, hs2⟩ := stalled_succ hs1 hj hv
    exact ⟨σ₂, h1.trans h2, hs2⟩

/-- The acknowledgement one window later carries `Last()` past the stalled key. -/
theorem stalled_overrun (h : Stalled cfg σ keyNum 65535 (n + 1)) (hv : keyNum < 2 ^ 32) :
    ∃ es σ', run (step cfg) σ es = some σ' ∧ σ'.phase = .transaction ∧ σ'.pc 0 = .drawn keyNum ∧ σ'.pc 1 = .idle ∧
      σ'.left 1 = n ∧ keyNum ≤ σ'.transactionInsertKeySequence.gen.last := by
  obtain ⟨σ₁, ⟨es, hrun, _⟩, hp1, hslow, hpc, hl1, hinv, hlimit, hout, _⟩ := stalled_inserted h (by omega)
  have hsize := kWindowSize_eq
  obtain ⟨gen, hok, hlast⟩ := AckThreads.overrun_passes hinv hlimit hout (by omega)
  have hval : keyNum + 1 + 65535 = keyNum + kWindowSize := by omega
  rw [hval] at hpc
  have h2 := can_acknowledge cfg hp1 hpc hok
  refine ⟨es ++ [.acknowledge 1], σ₁.release 1 _ gen, run_append_some _ hrun ((run_cons_some _).mpr ⟨_, h2, rfl⟩), hp1,
    ?_, ?_, hl1, hlast⟩
  · rw [release_pc_ne _ _ _ (by decide)]
    exact hslow
  · rw [release_pc_self]

theorem touches {σ : Clients 2} (hp : σ.phase = .transaction) (hr : σ.Ready 1) (hd : Draws cfg keyNum) (h1 : 1 ≤ keyNum)
    (hlast : keyNum ≤ σ.transactionInsertKeySequence.gen.last) : ∃ sample σ',
      run (step cfg) σ [.choose 1 sample, .check 1] = some σ' ∧ σ'.phase = .transaction ∧
      σ'.pc = Function.update σ.pc 1 (.touching keyNum) := by
  obtain ⟨sample, hy, hk⟩ := hd.again h1 hlast
  have hchoose : step cfg σ (.choose 1 sample) = some (σ.start 1 (.chosen keyNum)) := by
    simp only [step, hp, transactionStep, hy, hr, hk, if_true]
  have hcheck : step cfg (σ.start 1 (.chosen keyNum)) (.check 1) =
      some ((σ.start 1 (.chosen keyNum)).goto 1 (.touching keyNum)) := by
    simp only [step, start, hp, transactionStep, Function.update_self, if_neg (Nat.not_lt.mpr hlast)]
  exact ⟨sample, _, (run_cons_some _).mpr ⟨_, hchoose, (run_cons_some _).mpr ⟨_, hcheck, rfl⟩⟩, hp,
    Function.update_idem ..⟩

theorem touches_unfinished (cfg : Settings) (h0 : cfg.insertStart = 0) (hN : 1 ≤ cfg.recordCount) (hk : cfg.recordCount ≤ keyNum)
    (hd : Draws cfg keyNum) (hops : cfg.operationCount = 2 * (keyNum - cfg.recordCount + 65537)) :
    ∃ es : List (ClientEvent 2), ¬ Along (step cfg) Existing (init cfg) es := by
  have hO := cfg.operationCount_int
  have hN' := cfg.recordCount_int
  obtain ⟨σ₀, h₀, hrest₀⟩ := reach_transaction (T := 2) hN Nat.two_pos
  have hshare : ∀ t : Fin 2, threadOps cfg.operationCount 2 t = keyNum - cfg.recordCount + 65537 := fun t => by
    simp [threadOps, hops]
  simp only [hshare] at hrest₀
  obtain ⟨σ₁, h₁, hrest₁⟩ := reach_inserts (t := 1) (j := keyNum - cfg.recordCount) hrest₀ (by omega) (by omega)
  rw [Nat.add_sub_cancel' hk] at hrest₁
  obtain ⟨hnext, hstalled⟩ := stalled_zero hrest₁ (by simp) (by omega)
  rw [Function.update_self, Nat.add_sub_cancel_left] at hstalled
  obtain ⟨σ₃, h₃, hstalled₃⟩ := stalled_run (j := 65535) (n := 2) hstalled (by omega) (by omega)
  obtain ⟨es₄, σ₄, h₄, hp₄, hslow, hfast, hleft, hlast⟩ := stalled_overrun hstalled₃ (by omega)
  obtain ⟨sample, σ₅, h₅, hp₅, hpc₅⟩ := touches hp₄ ⟨hfast, by rw [hleft]; exact Nat.one_pos⟩ hd (by omega) hlast
  obtain ⟨es, hrun, _⟩ := ((h₀.trans h₁).trans (.one hnext trivial)).trans h₃
  have hall := run_append_some _ (run_append_some _ hrun h₄) h₅
  refine ⟨es ++ es₄ ++ [.choose 1 sample, .check 1] ++ [.touch 1], fun hex => ?_⟩
  have htouch := ((Along.append _ hall).mp hex).2.1 hp₅ keyNum (by rw [hpc₅, Function.update_self])
  -- thread 0 still holds the key, so it is not even built
  have hkeys := (run_keys h0 Nat.two_pos hall).transaction hp₅
  have hheld : (drawnKey ∘ σ₅.pc) 0 = some keyNum := by
    simp only [Function.comp_apply, hpc₅, Function.update_of_ne (show (0 : Fin 2) ≠ 1 by decide), hslow, drawnKey]
  exact hkeys.tickets.fresh 0 keyNum hheld ((hkeys.built keyNum).mpr (Or.inl htouch))

end

/-! ## The two key intervals -/

/-- **When transactions stay within the key space.** A run in which no
acknowledgement overruns the window, or whose distribution leaves new keys alone,
touches only records whose insert has returned and inserts only new ones, exactly
if the load phase starts at zero. A distribution that draws a new key has runs of
two threads in which a key is touched before its insert has returned. -/
theorem key_space_iff (N s : ℕ) (dist : RequestDistribution) (hN : 3 ≤ N) (hN' : N < 2 ^ 31) (hs : s < 2 ^ 31) :
    ((∀ (operationCount : ℕ) (hO : operationCount < 2 ^ 31) (T : ℕ), 0 < T → ∀ es : List (ClientEvent T),
        Along (step ⟨N, s, operationCount, dist, hN', hs, hO⟩) Outstanding
          (init ⟨N, s, operationCount, dist, hN', hs, hO⟩) es →
        (Along (step ⟨N, s, operationCount, dist, hN', hs, hO⟩) NoOverrun
            (init ⟨N, s, operationCount, dist, hN', hs, hO⟩) es ∨
          ∀ keyNum, N ≤ keyNum → ¬ Draws ⟨N, s, operationCount, dist, hN', hs, hO⟩ keyNum) →
        Along (step ⟨N, s, operationCount, dist, hN', hs, hO⟩) Existing
          (init ⟨N, s, operationCount, dist, hN', hs, hO⟩) es) ↔
      s = 0) ∧
    (s = 0 → ∀ (operationCount : ℕ) (hO : operationCount < 2 ^ 31) (keyNum : ℕ), N ≤ keyNum →
      operationCount = 2 * (keyNum - N + 65537) → Draws ⟨N, s, operationCount, dist, hN', hs, hO⟩ keyNum →
      ∃ es : List (ClientEvent 2),
        Along (step ⟨N, s, operationCount, dist, hN', hs, hO⟩) Outstanding
          (init ⟨N, s, operationCount, dist, hN', hs, hO⟩) es ∧
        ¬ Along (step ⟨N, s, operationCount, dist, hN', hs, hO⟩) Existing
          (init ⟨N, s, operationCount, dist, hN', hs, hO⟩) es) := by
  have hN1 : 1 ≤ N := Nat.le_trans (by decide) hN
  refine ⟨⟨fun h => ?_, fun h0 operationCount hO T hT es _ hC => existing_of_zero h0 hN1 hT hC⟩,
    fun h0 operationCount hO keyNum hk hops hd => ?_⟩
  · by_contra hne
    have hO : s - N + 1 < 2 ^ 31 := by omega
    obtain ⟨es, hC, hex⟩ := not_existing ⟨N, s, s - N + 1, dist, hN', hs, hO⟩ hN1 (Nat.pos_of_ne_zero hne) rfl
    refine hex (h _ hO 1 Nat.one_pos es (along_outstanding Nat.one_pos (by rw [kWindowSize_eq]; decide) es) (Or.inl ?_))
    exact Along.mono _ (fun _ _ hin => hin.noOverrun) hC
  · obtain ⟨es, hex⟩ := touches_unfinished ⟨N, s, operationCount, dist, hN', hs, hO⟩ h0 hN1 hk hd hops
    exact ⟨es, along_outstanding Nat.two_pos (by rw [kWindowSize_eq]; decide) es, hex⟩

/-- A load of three records; then a new record is inserted and read as the latest. -/
def latestOfFour : List (ClientEvent 1) :=
  [.next 0, .build 0, .insert 0, .next 0, .build 0, .insert 0, .next 0, .build 0, .insert 0, .join,
    .next 0, .build 0, .insert 0] ++ [.acknowledge 0, .choose 0 0, .check 0, .touch 0]

theorem key_space_iff_zero :
    Along (step ⟨3, 0, 2, .latest, by decide, by decide, by decide⟩) Existing
        (init ⟨3, 0, 2, .latest, by decide, by decide, by decide⟩) latestOfFour ∧
      ∃ es : List (ClientEvent 2), ¬ Along (step ⟨3, 0, 131076, .latest, by decide, by decide, by decide⟩) Existing
        (init ⟨3, 0, 131076, .latest, by decide, by decide, by decide⟩) es := by
  obtain ⟨hiff, hnot⟩ := key_space_iff 3 0 .latest (by decide) (by decide) (by decide)
  refine ⟨hiff.mpr rfl 2 (by decide) 1 Nat.one_pos _ ?_ (Or.inl ?_), ?_⟩
  · exact along_outstanding Nat.one_pos (by rw [kWindowSize_eq]; decide) _
  · have hend : (run (step ⟨3, 0, 2, .latest, by decide, by decide, by decide⟩)
        (init ⟨3, 0, 2, .latest, by decide, by decide, by decide⟩ : Clients 1)
        [.next 0, .build 0, .insert 0, .next 0, .build 0, .insert 0, .next 0, .build 0, .insert 0, .join,
          .next 0, .build 0, .insert 0]).any
        fun σ => decide (σ.pc 0 = .inserted 3 ∧ σ.transactionInsertKeySequence.gen.last = 2) := by rfl
    obtain ⟨σ, hrun, h⟩ := (Option.any_eq_true _ _).mp hend
    obtain ⟨hpc, hlast⟩ := of_decide_eq_true h
    refine (Along.append _ hrun).mpr ⟨Along.of_forall _ (by simp [NoOverrun]), fun k hk _ => ?_, fun σ' _ => ?_⟩
    · rw [hpc, Pc.inserted.injEq] at hk
      rw [hlast, kWindowSize_eq]
      omega
    · exact Along.of_forall _ (by simp [NoOverrun])
  · obtain ⟨es, _, hex⟩ := hnot rfl 131076 (by decide) 4 (by decide) (by decide) ⟨5, 1, by decide, by decide⟩
    exact ⟨es, hex⟩

def fromOne : Settings :=
  ⟨3, 1, 1, .uniform, Nat.le_of_ble_eq_true rfl, Nat.le_of_ble_eq_true rfl, Nat.le_of_ble_eq_true rfl⟩

/-- With `insertstart` 1 a uniform read touches record 0. -/
theorem fromOne_touches_zero :
    Along (step fromOne) Outstanding (init fromOne : Clients 1)
        [.next 0, .build 0, .insert 0, .next 0, .build 0, .insert 0, .next 0, .build 0, .insert 0, .join,
          .choose 0 0, .check 0, .touch 0] ∧
      ¬ Along (step fromOne) Existing (init fromOne : Clients 1)
        [.next 0, .build 0, .insert 0, .next 0, .build 0, .insert 0, .next 0, .build 0, .insert 0, .join,
          .choose 0 0, .check 0, .touch 0] := by
  refine ⟨along_outstanding Nat.one_pos (by rw [kWindowSize_eq]; decide) _, fun hex => ?_⟩
  have hend : (run (step fromOne) (init fromOne : Clients 1)
      [.next 0, .build 0, .insert 0, .next 0, .build 0, .insert 0, .next 0, .build 0, .insert 0, .join,
        .choose 0 0, .check 0]).any
      fun σ => decide (σ.phase = .transaction ∧ σ.pc 0 = .touching 0 ∧ 0 ∉ σ.completed) := by rfl
  obtain ⟨σ, hrun, h⟩ := (Option.any_eq_true _ _).mp hend
  obtain ⟨hp, hpc, hout⟩ := of_decide_eq_true h
  have htouch : Along (step fromOne) Existing σ [.touch 0] := ((Along.append _ hrun).mp hex).2
  exact hout (htouch.1 hp 0 hpc)

end Clients

end Ycsb
