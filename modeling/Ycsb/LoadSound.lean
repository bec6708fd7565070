import Mathlib.Algebra.BigOperators.Fin
import Mathlib.Algebra.BigOperators.Group.Finset.Piecewise
import Ycsb.KeySpace
import Ycsb.Lib.Tickets

/-!
# The load phase inserts every record once

A number handed out by the key sequence is with one thread until it is passed
to `BuildKeyName`, once. The operations left to the threads and the numbers
handed out add up to the record count.
-/

namespace Ycsb

open Lib

/-! ## Shares of the threads -/

theorem threadOps_eq (n T i : ℕ) : threadOps n T i = n / T + if i < n % T then 1 else 0 := by
  unfold threadOps
  split <;> rfl

theorem threadOps_le (n T i j : ℕ) : threadOps n T i ≤ threadOps n T j + 1 := by
  rw [threadOps_eq, threadOps_eq]
  split <;> split <;> omega

theorem sum_lt (r : ℕ) : ∀ (T : ℕ), (∑ i ∈ Finset.range T, if i < r then 1 else 0) = min r T
  | 0 => by simp
  | T + 1 => by
    rw [Finset.sum_range_succ, sum_lt r T]
    by_cases h : T < r
    · rw [if_pos h]; omega
    · rw [if_neg h]; omega

theorem sum_threadOps (n : ℕ) {T : ℕ} (hT : 0 < T) : ∑ t : Fin T, threadOps n T t = n := by
  rw [Fin.sum_univ_eq_sum_range (threadOps n T) T]
  simp only [threadOps_eq, Finset.sum_add_distrib, Finset.sum_const, Finset.card_range, smul_eq_mul, sum_lt]
  rw [Nat.min_eq_left (Nat.le_of_lt (Nat.mod_lt n hT))]
  exact Nat.div_add_mod n T

theorem sum_update_pred {T : ℕ} (left : Fin T → ℕ) {t : Fin T} (h : 0 < left t) :
    (∑ i, Function.update left t (left t - 1) i) + 1 = ∑ i, left i := by
  rw [Finset.sum_update_of_mem (Finset.mem_univ t), ← Finset.add_sum_erase _ left (Finset.mem_univ t),
    Finset.sdiff_singleton_eq_erase]
  omega

namespace Clients

variable {T : ℕ} {cfg : Settings} {σ σ' : Clients T} {t : Fin T}

/-! ## Steps -/

theorem build_iff : σ.build t = some σ' ↔ ∃ keyNum, σ.pc t = .drawn keyNum ∧
    σ' = { σ.goto t (.inserting keyNum) with built := σ.built ++ [(t, keyNum)] } := by
  unfold build
  cases σ.pc t <;> simp [eq_comm]

theorem insert_iff {pc : ℕ → Pc} : σ.insert t pc = some σ' ↔ ∃ keyNum, σ.pc t = .inserting keyNum ∧
    σ' = { σ.goto t (pc keyNum) with completed := Insert.insert keyNum σ.completed } := by
  unfold insert
  cases σ.pc t <;> simp [eq_comm]

theorem loadStep_cases {e : ClientEvent T} (h : loadStep cfg σ e = some σ') :
    (∃ t, e = .next t ∧ σ.Ready t ∧ σ' = { σ.start t (.drawn σ.insertKeySequence.counter) with
        insertKeySequence := σ.insertKeySequence.next.2 }) ∨
      (∃ t, e = .build t ∧ σ.build t = some σ') ∨
      (∃ t, e = .insert t ∧ σ.insert t (fun _ => .idle) = some σ') ∨
      (e = .join ∧ σ.Returned ∧
        σ' = { σ with phase := .transaction, left := fun t => threadOps cfg.operationCount T t }) := by
  cases e with
  | next t =>
    simp only [loadStep] at h
    split at h
    · rename_i hr
      exact Or.inl ⟨t, rfl, hr, (Option.some.inj h).symm⟩
    · cases h
  | build t => exact Or.inr (Or.inl ⟨t, rfl, h⟩)
  | insert t => exact Or.inr (Or.inr (Or.inl ⟨t, rfl, h⟩))
  | join =>
    simp only [loadStep] at h
    split at h
    · rename_i hr
      exact Or.inr (Or.inr (Or.inr ⟨rfl, hr, (Option.some.inj h).symm⟩))
    · cases h
  | acknowledge t => cases h
  | choose t sample => cases h
  | check t => cases h
  | touch t => cases h
  | rdidx t => cases h

/-! ## The invariant -/

/-- The number a thread has drawn and not yet passed to `BuildKeyName`. -/
def drawnKey : Pc → Option ℕ
  | .drawn keyNum => some keyNum
  | _ => none

def builtKeys (σ : Clients T) : List ℕ := σ.built.map Prod.snd

def calls (σ : Clients T) (t : Fin T) : ℕ := (σ.built.map Prod.fst).count t

/-- A record whose `BuildKeyName` was called is inserted, or its insert has not returned. -/
def BuiltInv (σ : Clients T) : Prop :=
  ∀ keyNum, keyNum ∈ σ.builtKeys ↔ keyNum ∈ σ.completed ∨ ∃ t, σ.pc t = .inserting keyNum

structure LoadInv (cfg : Settings) (σ : Clients T) : Prop where
  tickets : Tickets cfg.insertStart σ.insertKeySequence.counter (drawnKey ∘ σ.pc) σ.builtKeys
  total : σ.insertKeySequence.counter + ∑ t, σ.left t = cfg.insertStart + cfg.recordCount
  share : ∀ t, σ.calls t + (drawnKey (σ.pc t)).toList.length + σ.left t = threadOps cfg.recordCount T t
  built : BuiltInv σ
  unused : σ.transactionInsertKeySequence = .init cfg.recordCount

theorem loadInv_init (hT : 0 < T) : LoadInv cfg (init cfg : Clients T) where
  tickets := Tickets.start fun _ => rfl
  total := by
    change cfg.insertStart + ∑ t : Fin T, threadOps cfg.recordCount T t = _
    rw [sum_threadOps _ hT]
  share t := by simp [calls, init, drawnKey]
  built keyNum := by simp [builtKeys, init]
  unused := rfl

theorem comp_goto (pc : Pc) : drawnKey ∘ Function.update σ.pc t pc =
    Function.update (drawnKey ∘ σ.pc) t (drawnKey pc) := Function.comp_update ..

theorem comp_goto_same {pc : Pc} (h : drawnKey pc = drawnKey (σ.pc t)) :
    drawnKey ∘ Function.update σ.pc t pc = drawnKey ∘ σ.pc := by
  rw [comp_goto, h]
  exact Function.update_eq_self t _

theorem exists_inserting {pc : Pc} {keyNum : ℕ} : (∃ t', Function.update σ.pc t pc t' = .inserting keyNum) ↔
    pc = .inserting keyNum ∨ ∃ t', t' ≠ t ∧ σ.pc t' = .inserting keyNum :=
  Function.exists_update_iff σ.pc fun _ a => a = .inserting keyNum

theorem inserting_other (ht : ∀ k, σ.pc t ≠ .inserting k) {keyNum : ℕ} :
    (∃ t', t' ≠ t ∧ σ.pc t' = .inserting keyNum) ↔ ∃ t', σ.pc t' = .inserting keyNum := by
  refine ⟨fun ⟨t', _, h⟩ => ⟨t', h⟩, fun ⟨t', h⟩ => ⟨t', ?_, h⟩⟩
  rintro rfl
  exact ht keyNum h

theorem BuiltInv.goto (h : BuiltInv σ) {pc : Pc} (ht : ∀ k, σ.pc t ≠ .inserting k) (hpc : ∀ k, pc ≠ .inserting k)
    (keyNum : ℕ) : keyNum ∈ σ.builtKeys ↔
      keyNum ∈ σ.completed ∨ ∃ t', Function.update σ.pc t pc t' = .inserting keyNum := by
  rw [exists_inserting, inserting_other ht, or_iff_right (hpc keyNum)]
  exact h keyNum

theorem BuiltInv.build (h : BuiltInv σ) (hb : σ.build t = some σ') : BuiltInv σ' := by
  obtain ⟨keyNum, hpc, rfl⟩ := build_iff.mp hb
  have ht : ∀ k, σ.pc t ≠ .inserting k := fun k hk => by
    rw [hpc] at hk
    cases hk
  intro k
  simp only [Clients.goto, builtKeys, List.map_append, List.map_singleton, List.mem_append, List.mem_singleton]
  rw [exists_inserting, inserting_other ht, Pc.inserting.injEq, eq_comm (a := keyNum), or_left_comm, or_comm (a := _ ∈ _)]
  exact or_congr_right (h k)

theorem BuiltInv.insert (h : BuiltInv σ) {pc : ℕ → Pc} (hpc' : ∀ k k', pc k ≠ .inserting k')
    (hi : σ.insert t pc = some σ') : BuiltInv σ' := by
  obtain ⟨keyNum, hpc, rfl⟩ := insert_iff.mp hi
  intro k
  change k ∈ σ.builtKeys ↔ _
  simp only [Clients.goto, Finset.mem_insert]
  rw [exists_inserting, or_iff_right (hpc' keyNum k), h k]
  constructor
  · rintro (hk | ⟨t', ht'⟩)
    · exact Or.inl (Or.inr hk)
    · by_cases he : t' = t
      · subst he
        rw [hpc, Pc.inserting.injEq] at ht'
        exact Or.inl (Or.inl ht'.symm)
      · exact Or.inr ⟨t', he, ht'⟩
  · rintro ((rfl | hk) | ⟨t', _, ht'⟩)
    · exact Or.inr ⟨t, hpc⟩
    · exact Or.inl hk
    · exact Or.inr ⟨t', ht'⟩

theorem loadInv_next (h : LoadInv cfg σ) (hr : σ.Ready t) : LoadInv cfg
    { σ.start t (.drawn σ.insertKeySequence.counter) with insertKeySequence := σ.insertKeySequence.next.2 } := by
  obtain ⟨hidle, hleft⟩ := hr
  have hsum := sum_update_pred σ.left hleft
  have htotal := h.total
  have hN := cfg.recordCount_int
  have hs := cfg.insertStart_int
  have hcounter : σ.insertKeySequence.next.2.counter = σ.insertKeySequence.counter + 1 := u64_of_lt (by omega)
  refine ⟨?_, ?_, fun t' => ?_, h.built.goto (fun k hk => ?_) (fun k hk => ?_), h.unused⟩
  · simp only [start, hcounter, comp_goto]
    exact h.tickets.draw (by simp [hidle, drawnKey])
  · simp only [start, hcounter]
    omega
  · have hshare := h.share t'
    by_cases ht' : t' = t
    · subst ht'
      simp only [hidle, drawnKey, Option.toList_none, List.length_nil] at hshare
      simp only [start, Function.update_self, drawnKey, Option.toList_some, List.length_singleton, calls] at hshare ⊢
      omega
    · simpa [start, Function.update_of_ne ht', calls] using hshare
  · rw [hidle] at hk
    cases hk
  · cases hk

theorem loadInv_build (h : LoadInv cfg σ) (hb : σ.build t = some σ') : LoadInv cfg σ' := by
  have hbuilt := h.built.build hb
  obtain ⟨keyNum, hpc, rfl⟩ := build_iff.mp hb
  refine ⟨?_, h.total, fun t' => ?_, hbuilt, h.unused⟩
  · simp only [goto, comp_goto, builtKeys, List.map_append, List.map_singleton]
    exact h.tickets.spend (by simp [hpc, drawnKey])
  · have hshare := h.share t'
    by_cases ht' : t' = t
    · subst ht'
      simp only [hpc, drawnKey, Option.toList_some, List.length_singleton] at hshare
      simp only [goto, Function.update_self, drawnKey, calls, List.map_append, List.map_singleton, List.count_append,
        List.count_singleton_self, Option.toList_none, List.length_nil] at hshare ⊢
      omega
    · have hne : t ≠ t' := fun he => ht' he.symm
      simpa [goto, Function.update_of_ne ht', calls, hne] using hshare

theorem loadInv_insert (h : LoadInv cfg σ) (hi : σ.insert t (fun _ => .idle) = some σ') : LoadInv cfg σ' := by
  have hbuilt := h.built.insert (fun _ _ hk => by cases hk) hi
  obtain ⟨keyNum, hpc, rfl⟩ := insert_iff.mp hi
  have hsame : drawnKey .idle = drawnKey (σ.pc t) := by rw [hpc]; rfl
  refine ⟨?_, h.total, fun t' => ?_, hbuilt, h.unused⟩
  · simp only [goto, comp_goto_same hsame]
    exact h.tickets
  · have hshare := h.share t'
    by_cases ht' : t' = t
    · subst ht'
      simpa [goto, hpc, drawnKey, calls] using hshare
    · simpa [goto, Function.update_of_ne ht', calls] using hshare

theorem loadInv_step {e : ClientEvent T} (h : LoadInv cfg σ) (hs : loadStep cfg σ e = some σ')
    (hphase : σ'.phase = .load) : LoadInv cfg σ' := by
  rcases loadStep_cases hs with ⟨t, _, hr, rfl⟩ | ⟨t, _, hb⟩ | ⟨t, _, hi⟩ | ⟨_, _, rfl⟩
  · exact loadInv_next h hr
  · exact loadInv_build h hb
  · exact loadInv_insert h hi
  · cases hphase

/-! ## Runs -/

theorem build_phase (h : σ.build t = some σ') : σ'.phase = σ.phase := by
  obtain ⟨_, _, rfl⟩ := build_iff.mp h
  rfl

theorem insert_phase {pc : ℕ → Pc} (h : σ.insert t pc = some σ') : σ'.phase = σ.phase := by
  obtain ⟨_, _, rfl⟩ := insert_iff.mp h
  rfl

theorem transactionStep_phase {e : ClientEvent T} (h : transactionStep cfg σ e = some σ') : σ'.phase = σ.phase := by
  cases e with
  | build t => exact build_phase h
  | insert t => exact insert_phase h
  | _ =>
    simp only [transactionStep] at h
    repeat' split at h
    all_goals cases h <;> rfl

theorem run_load {es : List (ClientEvent T)} (hT : 0 < T) (hrun : run (step cfg) (init cfg) es = some σ) :
    σ.phase = .load → LoadInv cfg σ := by
  refine run_inv (step cfg) (I := fun σ => σ.phase = .load → LoadInv cfg σ) (fun σ e σ' hI h hphase => ?_)
    (fun _ => loadInv_init hT) hrun
  unfold step at h
  cases hp : σ.phase with
  | load =>
    rw [hp] at h
    exact loadInv_step (hI hp) h hphase
  | transaction =>
    rw [hp] at h
    rw [transactionStep_phase h, hp] at hphase
    cases hphase

theorem LoadInv.perm (h : LoadInv cfg σ) (hret : σ.Returned) :
    σ.builtKeys.Perm (List.range' cfg.insertStart cfg.recordCount) := by
  have hleft : ∑ t, σ.left t = 0 := Finset.sum_eq_zero fun t _ => (hret t).2
  have htotal := h.total
  rw [hleft, Nat.add_zero] at htotal
  have hperm := h.tickets.perm_range' fun t => by simp [(hret t).1, drawnKey]
  rwa [htotal, Nat.add_sub_cancel_left] at hperm

/-- **The load phase inserts every record number exactly once.** When all
threads have returned, the numbers passed to `BuildKeyName` are those from
`insertstart` on, each once, and the shares of two threads differ by at most one. -/
theorem load_exact (cfg : Settings) (hT : 0 < T) (es : List (ClientEvent T)) (σ : Clients T)
    (hrun : run (step cfg) (init cfg) es = some σ) (hload : σ.phase = .load) (hret : σ.Returned) :
    σ.builtKeys.Perm (List.range' cfg.insertStart cfg.recordCount) ∧ ∀ t t', σ.calls t ≤ σ.calls t' + 1 := by
  have h := run_load hT hrun hload
  have hcalls : ∀ t, σ.calls t = threadOps cfg.recordCount T t := fun t => by
    have hshare := h.share t
    rw [(hret t).1, (hret t).2] at hshare
    exact hshare
  refine ⟨h.perm hret, fun t t' => ?_⟩
  rw [hcalls, hcalls]
  exact threadOps_le _ _ _ _

def threeFromFive : Settings := ⟨3, 5, 0, .uniform, by decide, by decide, by decide⟩

theorem load_exact_three : ∃ σ : Clients 2, run (step threeFromFive) (init threeFromFive)
      [.next 0, .next 1, .build 0, .insert 0, .next 0, .build 1, .build 0, .insert 0, .insert 1] = some σ ∧
    σ.builtKeys.Perm (List.range' 5 3) := by
  have hend : (run (step threeFromFive) (init threeFromFive : Clients 2)
      [.next 0, .next 1, .build 0, .insert 0, .next 0, .build 1, .build 0, .insert 0, .insert 1]).any
      fun σ => decide (σ.phase = .load ∧ σ.Returned) := by rfl
  obtain ⟨σ, hrun, h⟩ := (Option.any_eq_true _ _).mp hend
  have hret := of_decide_eq_true h
  exact ⟨σ, hrun, (load_exact threeFromFive Nat.two_pos _ σ hrun hret.1 hret.2).1⟩

end Clients

end Ycsb
