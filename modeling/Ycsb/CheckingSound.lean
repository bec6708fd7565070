import Ycsb.Checking
import Ycsb.Lib.Aggregate
import Ycsb.Lib.Threads
import Ycsb.LoadSound
import Ycsb.WholeRecords

/-!
# What the check can miss

When the process ends, every thread but the one that ends it holds at most one
number that is drawn and not inserted. So a check of as many keys as were inserted
misses less than one for each thread of the load.
-/

namespace Ycsb

open Lib DB

/-! ## The load -/

def InsertPc.held : InsertPc → Option ℕ
  | .inserting keyNum => some keyNum
  | _ => none

namespace CheckedEvent

def DrawsOk {T : ℕ} (wl : CoreWorkload) : CheckedEvent T → Prop
  | .insert _ d => wl.DrawsOk d
  | _ => True

end CheckedEvent

namespace CheckedLoad

variable {S : KVStore Bytes Bytes} {T : ℕ} {wl : CoreWorkload} {hS : S.Ordered} {stopAt : ℤ} {insertStart recordCount : ℕ}
  {s s' : CheckedLoad S T} {t : Fin T}

variable (wl) (hS) (stopAt) (insertStart) (recordCount) in
structure LoadOk (s : CheckedLoad S T) : Prop where
  tickets : Tickets insertStart s.insertKeySequence.counter (InsertPc.held ∘ s.pc) s.inserted
  total : s.insertKeySequence.counter + ∑ t, s.left t = insertStart + recordCount
  counted : s.txCount + (having (· = InsertPc.uncounted) s.pc).card = s.inserted.length
  stopping : ∀ t, s.pc t = .exiting → stopAt < s.txCount
  exited : s.exited = true → ∃ t, s.pc t = .exiting
  stored : ∃ m, Whole wl hS wl.DrawsOk s.db s.inserted.toFinset m

theorem comp_held (pc : InsertPc) : InsertPc.held ∘ Function.update s.pc t pc =
    Function.update (InsertPc.held ∘ s.pc) t pc.held := Function.comp_update ..

theorem loadOk_init (hT : 0 < T) :
    LoadOk wl hS stopAt insertStart recordCount (init insertStart recordCount : CheckedLoad S T) where
  tickets := Tickets.start fun _ => rfl
  total := by
    change insertStart + ∑ t : Fin T, threadOps recordCount T t = _
    rw [sum_threadOps _ hT]
  counted := by
    have hnone : having (· = InsertPc.uncounted) (init insertStart recordCount : CheckedLoad S T).pc = ∅ := by
      ext t
      simp [mem_having, init]
    rw [hnone]
    rfl
  stopping t ht := by cases ht
  exited h := by cases h
  stored := ⟨_, Whole.empty⟩

theorem LoadOk.stopping_update (h : LoadOk wl hS stopAt insertStart recordCount s) {pc : InsertPc} (hpc : pc ≠ .exiting) :
    ∀ i, Function.update s.pc t pc i = .exiting → stopAt < s.txCount :=
  forall_update (P := fun _ pc => pc = InsertPc.exiting → stopAt < s.txCount) (fun hx => absurd hx hpc) fun i _ => h.stopping i

theorem LoadOk.next (h : LoadOk wl hS stopAt insertStart recordCount s) (hbound : insertStart + recordCount < 2 ^ 64)
    (hex : s.exited = false) (hr : s.pc t = .idle ∧ 0 < s.left t) :
    LoadOk wl hS stopAt insertStart recordCount { s with
      insertKeySequence := s.insertKeySequence.next.2
      left := Function.update s.left t (s.left t - 1)
      pc := Function.update s.pc t (.inserting s.insertKeySequence.next.1) } := by
  obtain ⟨hidle, hleft⟩ := hr
  have hsum := sum_update_pred s.left hleft
  have htotal := h.total
  have hcounter : s.insertKeySequence.next.2.counter = s.insertKeySequence.counter + 1 := u64_of_lt (by omega)
  have hrun : ¬ s.exited = true := Bool.eq_false_iff.mp hex
  refine ⟨?_, ?_, ?_, h.stopping_update (by simp), fun he => absurd he hrun, h.stored⟩
  · simp only [hcounter, comp_held]
    exact h.tickets.draw (by simp [hidle, InsertPc.held])
  · simp only [hcounter]
    omega
  · simp only
    rw [having_stay (by simp [hidle])]
    exact h.counted

theorem LoadOk.insert (hw : wl.WritesSchema) (h : LoadOk wl hS stopAt insertStart recordCount s)
    (hex : s.exited = false) {keyNum : ℕ} (hpc : s.pc t = .inserting keyNum) {d : Draws} (hd : wl.DrawsOk d) :
    LoadOk wl hS stopAt insertStart recordCount { s with
      db := S.put s.db (wl.buildKeyName keyNum) (RocksdbDB.serializeRow (wl.newValues d) [])
      pc := Function.update s.pc t .uncounted
      inserted := s.inserted ++ [keyNum] } := by
  have hcounted := h.counted
  have hrun : ¬ s.exited = true := Bool.eq_false_iff.mp hex
  have henter := having_enter (P := (· = InsertPc.uncounted)) (r := s.pc) (i := t) (x := .uncounted) (by simp [hpc]) rfl
  obtain ⟨m, hm⟩ := h.stored
  refine ⟨?_, h.total, ?_, h.stopping_update (by simp), fun he => absurd he hrun, m.put (wl.buildKeyName keyNum) (wl.newValues d), ?_⟩
  · simp only [comp_held]
    exact h.tickets.spend (by simp [hpc, InsertPc.held])
  · simp only [List.length_append, List.length_singleton]
    omega
  · have hset : (s.inserted ++ [keyNum]).toFinset = Insert.insert keyNum s.inserted.toFinset := by
      ext k
      simp
    simp only [hset]
    exact hm.put hw (fun _ hd => hd) hd keyNum

theorem LoadOk.count (h : LoadOk wl hS stopAt insertStart recordCount s) (hex : s.exited = false)
    (hpc : s.pc t = .uncounted) : LoadOk wl hS stopAt insertStart recordCount { s with
      txCount := s.txCount + 1
      pc := Function.update s.pc t (if s.txCount = stopAt then .exiting else .idle) } := by
  have hcounted := h.counted
  have hrun : ¬ s.exited = true := Bool.eq_false_iff.mp hex
  have hleave := having_leave (P := (· = InsertPc.uncounted)) (r := s.pc) (i := t)
    (x := if s.txCount = stopAt then .exiting else .idle) hpc (by split <;> decide)
  refine ⟨?_, h.total, ?_, ?_, fun he => absurd he hrun, h.stored⟩
  · have hsame : Function.update (InsertPc.held ∘ s.pc) t
        (if s.txCount = stopAt then InsertPc.exiting else .idle).held = InsertPc.held ∘ s.pc := by
      rw [Function.update_eq_self_iff]
      split <;> simp [hpc, InsertPc.held]
    simp only [comp_held, hsame]
    exact h.tickets
  · simp only
    omega
  · refine forall_update (P := fun _ pc => pc = InsertPc.exiting → stopAt < s.txCount + 1) (fun hx => ?_) fun i _ hi => ?_
    · split at hx
      · omega
      · cases hx
    · exact (h.stopping i hi).trans (Int.lt_succ _)

theorem LoadOk.step (hw : wl.WritesSchema) (hbound : insertStart + recordCount < 2 ^ 64)
    (h : LoadOk wl hS stopAt insertStart recordCount s) {e : CheckedEvent T} (hd : e.DrawsOk wl)
    (hs : s.step wl stopAt e = some s') : LoadOk wl hS stopAt insertStart recordCount s' := by
  unfold CheckedLoad.step at hs
  split at hs
  · cases hs
  · rename_i hex
    have hex := Bool.eq_false_iff.mpr hex
    cases e with
    | next t =>
      simp only at hs
      split at hs
      · rename_i hr
        cases hs
        exact h.next hbound hex hr
      · cases hs
    | insert t d =>
      simp only at hs
      split at hs
      · rename_i keyNum hpc
        cases hs
        exact h.insert hw hex hpc hd
      · cases hs
    | count t =>
      simp only at hs
      split at hs
      · rename_i hpc
        cases hs
        exact h.count hex hpc
      · cases hs
    | exit t =>
      simp only at hs
      split at hs
      · rename_i hpc
        cases hs
        exact ⟨h.tickets, h.total, h.counted, h.stopping, fun _ => ⟨t, hpc⟩, h.stored⟩
      · cases hs

/-! ### When the process ends -/

theorem LoadOk.stopped (h : LoadOk wl hS stopAt insertStart recordCount s) (hex : s.exited = true) :
    stopAt + 1 ≤ s.inserted.length := by
  obtain ⟨t, ht⟩ := h.exited hex
  have hlt := h.stopping t ht
  have hcounted := h.counted
  omega

/-- Of the first numbers, as many as were inserted in all, less than `T` are missing. -/
theorem LoadOk.missing (h : LoadOk wl hS stopAt insertStart recordCount s) (hex : s.exited = true) {n : ℕ}
    (hn : n ≤ s.inserted.length) :
    ((Finset.Ico insertStart (insertStart + n)).filter (· ∉ s.inserted)).card ≤ T - 1 := by
  obtain ⟨t, ht⟩ := h.exited hex
  have hlength := h.tickets.length_le
  have hsub : (Finset.Ico insertStart (insertStart + n)).filter (· ∉ s.inserted) ⊆
      (Finset.Ico insertStart s.insertKeySequence.counter).filter (· ∉ s.inserted) := by
    refine Finset.filter_subset_filter _ (Finset.Ico_subset_Ico_right ?_)
    have hle := h.tickets.le
    omega
  have hholders : (Finset.univ.filter fun i => ((InsertPc.held ∘ s.pc) i).isSome) ⊆
      having (fun pc => pc.held.isSome = true) s.pc := fun i hi => by
    rw [mem_having]
    exact (Finset.mem_filter.mp hi).2
  -- the thread that ends the process holds no number
  have hlt := Finset.card_lt_univ_of_notMem (s := having (fun pc => pc.held.isSome = true) s.pc) (x := t)
    (by rw [mem_having, ht]; decide)
  rw [Fintype.card_fin] at hlt
  have hle := (Finset.card_le_card hsub).trans (h.tickets.unspent_le.trans (Finset.card_le_card hholders))
  omega

end CheckedLoad

/-! ## The check -/

namespace CheckEvent

def DrawsOk {T : ℕ} (wl : CoreWorkload) : CheckEvent T → Prop
  | .read _ d => wl.DrawsOk d
  | .next _ => True

end CheckEvent

namespace CheckRun

variable {S : KVStore Bytes Bytes} {T : ℕ} {wl : CoreWorkload} {db : S.State} {insertStart operationCount : ℕ}
  {s s' : CheckRun T} {t : Fin T}

def Reads (S : KVStore Bytes Bytes) (wl : CoreWorkload) (db : S.State) (s : CheckRun T) : CheckEvent T → Prop
  | .read t d => ∀ keyNum, s.pc t = some keyNum → ∃ r,
      RocksdbDB.readSingle S wl.fieldCount db (wl.buildKeyName keyNum) (wl.readFields d) [] = .ok r
  | .next _ => True

variable (wl) (db) in
def found (keyNum : ℕ) : Bool := (S.get db (wl.buildKeyName keyNum)).isSome

variable (wl) (db) (insertStart) (operationCount) in
/-- `spent` are the numbers that were read. -/
structure CheckOk (s : CheckRun T) (spent : List ℕ) : Prop where
  tickets : Tickets insertStart s.insertKeySequence.counter s.pc spent
  total : s.insertKeySequence.counter + ∑ t, s.left t = insertStart + operationCount
  correct : s.correctCount = (spent.filter (found wl db)).length
  oks : ∑ t, s.oks t = s.correctCount

theorem checkOk_init (hT : 0 < T) :
    CheckOk wl db insertStart operationCount (init insertStart operationCount : CheckRun T) [] where
  tickets := Tickets.start fun _ => rfl
  total := by
    change insertStart + ∑ t : Fin T, threadOps operationCount T t = _
    rw [sum_threadOps _ hT]
  correct := rfl
  oks := by simp [init]

theorem CheckOk.next {spent : List ℕ} (h : CheckOk wl db insertStart operationCount s spent)
    (hbound : insertStart + operationCount < 2 ^ 64) (hr : s.pc t = none ∧ 0 < s.left t) :
    CheckOk wl db insertStart operationCount { s with
      insertKeySequence := s.insertKeySequence.next.2
      left := Function.update s.left t (s.left t - 1)
      pc := Function.update s.pc t (some s.insertKeySequence.next.1) } spent := by
  have hsum := sum_update_pred s.left hr.2
  have htotal := h.total
  have hcounter : s.insertKeySequence.next.2.counter = s.insertKeySequence.counter + 1 := u64_of_lt (by omega)
  refine ⟨?_, ?_, h.correct, h.oks⟩
  · simp only [hcounter]
    exact h.tickets.draw hr.1
  · simp only [hcounter]
    omega

theorem CheckOk.read {spent : List ℕ} (h : CheckOk wl db insertStart operationCount s spent) {keyNum : ℕ}
    (hpc : s.pc t = some keyNum) : CheckOk wl db insertStart operationCount { s with
      correctCount := s.correctCount + if found wl db keyNum = true then 1 else 0
      pc := Function.update s.pc t none
      oks := Function.update s.oks t (s.oks t + if found wl db keyNum = true then 1 else 0) } (spent ++ [keyNum]) where
  tickets := h.tickets.spend hpc
  total := h.total
  correct := by
    simp only [h.correct, List.filter_append, List.length_append, List.filter_singleton]
    cases found wl db keyNum <;> rfl
  oks := by
    have hsum := sum_update (fun n : ℕ => n) s.oks t (s.oks t + if found wl db keyNum = true then 1 else 0)
    have hold := Finset.sum_erase_add _ s.oks (Finset.mem_univ t)
    have hoks := h.oks
    simp only at hsum ⊢
    omega

section
variable {completed : Finset ℕ} {m : OrdMap Bytes Row} {hS : S.Ordered} (hw : wl.WritesSchema)
  (hm : Whole wl hS wl.DrawsOk db completed m)
include hw hm

theorem step_reads {e : CheckEvent T} (hd : e.DrawsOk wl) : Reads S wl db s e := by
  cases e with
  | next t => trivial
  | read t d =>
    intro keyNum _
    obtain ⟨result, hread⟩ := hm.read hw (fun _ hd => hd) hd (wl.buildKeyName keyNum)
    exact ⟨_, hread⟩

theorem CheckOk.step {spent : List ℕ} (h : CheckOk wl db insertStart operationCount s spent)
    (hbound : insertStart + operationCount < 2 ^ 64) {e : CheckEvent T} (hd : e.DrawsOk wl)
    (hs : s.step S wl db e = some s') : ∃ spent', CheckOk wl db insertStart operationCount s' spent' := by
  cases e with
  | next t =>
    simp only [CheckRun.step] at hs
    split at hs
    · rename_i hr
      cases hs
      exact ⟨_, h.next hbound hr⟩
    · cases hs
  | read t d =>
    simp only [CheckRun.step] at hs
    split at hs
    · cases hs
    · rename_i keyNum hpc
      obtain ⟨result, hread⟩ := hm.read hw (fun _ hd => hd) hd (wl.buildKeyName keyNum)
      have hiff : (if (S.get db (wl.buildKeyName keyNum)).isSome = true then Status.kOK else .kNotFound) = .kOK ↔
          found wl db keyNum = true := by
        unfold found
        split <;> simp_all
      rw [hread] at hs
      simp only [hiff, Option.some.injEq] at hs
      subst hs
      exact ⟨_, h.read hpc⟩

end

theorem CheckOk.returned {spent : List ℕ} (h : CheckOk wl db insertStart operationCount s spent) (hret : s.Returned) :
    s.correctCount = ((List.range' insertStart operationCount).filter (found wl db)).length := by
  have hleft : ∑ t, s.left t = 0 := Finset.sum_eq_zero fun t _ => (hret t).2
  have htotal := h.total
  rw [hleft, Nat.add_zero] at htotal
  have hperm := h.tickets.perm_range' fun t => (hret t).1
  rw [htotal, Nat.add_sub_cancel_left] at hperm
  rw [h.correct]
  exact (hperm.filter _).length_eq

theorem length_filter_range' (p : ℕ → Bool) (a n : ℕ) :
    ((List.range' a n).filter p).length = ((Finset.Ico a (a + n)).filter fun k => p k = true).card := by
  rw [← List.toFinset_card_of_nodup (List.Nodup.filter p List.nodup_range')]
  congr 1
  ext k
  simp [List.mem_range'_1]

theorem found_of_mem {hS : S.Ordered} {completed : Finset ℕ} {m : OrdMap Bytes Row}
    (hm : Whole wl hS wl.DrawsOk db completed m) {keyNum : ℕ} (hk : keyNum ∈ completed) : found wl db keyNum = true := by
  rw [found, hm.coupled.get, Option.isSome_map]
  exact (hm.keys _).mpr ⟨keyNum, hk, rfl⟩

/-! ## Both processes -/

/-- **What the check finds.** When the load ends the process, more than `checkingcount` inserts have
returned. A later check of its store reads without a fault, counts the keys that are there, and of as
many keys as were inserted it misses less than one for each thread of the load. -/
theorem check_finds (S : KVStore Bytes Bytes) (hS : S.Ordered) (wl : CoreWorkload) (hw : wl.WritesSchema)
    {insertStart recordCount : ℕ} (hstart : insertStart < 2 ^ 31) (hcount : recordCount < 2 ^ 31) {T : ℕ} (hT : 0 < T)
    (stopAt : ℤ) {es : List (CheckedEvent T)} (hd : ∀ e ∈ es, e.DrawsOk wl) {u : CheckedLoad S T}
    (hrun : run (CheckedLoad.step wl stopAt) (.init insertStart recordCount) es = some u) (hexit : u.exited = true) :
    stopAt + 1 ≤ u.inserted.length ∧
    ∀ {T' : ℕ}, 0 < T' → ∀ n < 2 ^ 31, ∀ es' : List (CheckEvent T'), (∀ e ∈ es', e.DrawsOk wl) →
      Along (CheckRun.step S wl u.db) (Reads S wl u.db) (.init insertStart n) es' ∧
      ∀ v, run (CheckRun.step S wl u.db) (.init insertStart n) es' = some v → v.Returned →
        ∑ t, v.oks t = v.correctCount ∧
        v.correctCount = ((List.range' insertStart n).filter (found wl u.db)).length ∧
        (n ≤ u.inserted.length → n ≤ v.correctCount + (T - 1)) := by
  have hload : CheckedLoad.LoadOk wl hS stopAt insertStart recordCount u := by
    refine run_inv_along (CheckedLoad.step wl stopAt) (C := fun _ e => e.DrawsOk wl) (fun s e s' h hde hs => ?_) es _ u
      (CheckedLoad.loadOk_init hT) (Along.of_forall _ fun e he _ => hd e he) hrun
    exact h.step hw (by omega) hde hs
  obtain ⟨m, hm⟩ := hload.stored
  refine ⟨hload.stopped hexit, fun hT' n hn es' hd' => ?_⟩
  refine ⟨Along.of_forall _ fun e he s => step_reads hw hm (hd' e he), fun v hrun' hret => ?_⟩
  have hcheck : ∃ spent, CheckOk wl u.db insertStart n v spent := by
    refine run_inv_along (CheckRun.step S wl u.db) (C := fun _ e => e.DrawsOk wl)
      (I := fun v => ∃ spent, CheckOk wl u.db insertStart n v spent) (fun s e s' h hde hs => ?_) es' _ v
      ⟨[], checkOk_init hT'⟩ (Along.of_forall _ fun e he _ => hd' e he) hrun'
    obtain ⟨spent, h⟩ := h
    exact h.step hw hm (by omega) hde hs
  obtain ⟨spent, hcheck⟩ := hcheck
  refine ⟨hcheck.oks, hcheck.returned hret, fun hle => ?_⟩
  have hmissing := hload.missing hexit hle
  -- a key that is missing was not inserted
  have hlost : (Finset.Ico insertStart (insertStart + n)).filter (fun k => ¬ found wl u.db k = true) ⊆
      (Finset.Ico insertStart (insertStart + n)).filter (· ∉ u.inserted) := by
    refine Finset.monotone_filter_right _ fun k _ hk hmem => ?_
    exact hk (found_of_mem hm (List.mem_toFinset.mpr hmem))
  have hsplit := Finset.card_filter_add_card_filter_not (s := Finset.Ico insertStart (insertStart + n))
    (fun k => found wl u.db k = true)
  rw [Nat.card_Ico, Nat.add_sub_cancel_left] at hsplit
  rw [hcheck.returned hret, length_filter_range']
  have hle' := (Finset.card_le_card hlost).trans hmissing
  omega

def oneField : CoreWorkload := { CoreWorkload.default with fieldCount := 1, writeAllFields := true }

/-- The second thread stops at its second insert. The third inserts behind that, and the first never does. -/
def stopsAtTwo (i j k : Fin 3) : List (CheckedEvent 3) :=
  let d : Draws := ⟨.insert, [], 0, 1, fun _ => [65]⟩
  [.next i, .next j, .insert j d, .count j, .next j, .next k, .insert j d, .count j, .insert k d, .exit j]

def readThree (i : Fin 1) : List (CheckEvent 1) :=
  let d : Draws := ⟨.read, [], 0, 1, fun _ => []⟩
  [.next i, .read i d, .next i, .read i d, .next i, .read i d]

theorem check_finds_two : ∃ u : CheckedLoad (OrdMap.store Bytes Bytes) 3,
    run (CheckedLoad.step oneField 1) (.init 0 6) (stopsAtTwo 0 1 2) = some u ∧ u.exited = true ∧
    u.inserted.length = 3 ∧
    ∃ v, run (step (OrdMap.store Bytes Bytes) oneField u.db) (.init 0 3) (readThree 0) = some v ∧ v.Returned ∧
      v.correctCount = ((List.range' 0 3).filter (found oneField u.db)).length ∧ 3 ≤ v.correctCount + 2 ∧
      v.correctCount = 2 := by
  have hend : (run (CheckedLoad.step oneField 1) (.init 0 6 : CheckedLoad (OrdMap.store Bytes Bytes) 3)
      (stopsAtTwo 0 1 2)).any (fun u => u.exited && u.inserted.length == 3 &&
        (run (step (OrdMap.store Bytes Bytes) oneField u.db) (.init 0 3) (readThree 0)).any
          fun v => decide v.Returned && v.correctCount == 2) := by decide +kernel
  obtain ⟨u, hrun, hall⟩ := (Option.any_eq_true _ _).mp hend
  rw [Bool.and_eq_true, Bool.and_eq_true, beq_iff_eq] at hall
  obtain ⟨⟨hexit, hlength⟩, hcheck⟩ := hall
  obtain ⟨v, hrun', hret⟩ := (Option.any_eq_true _ _).mp hcheck
  rw [Bool.and_eq_true, decide_eq_true_eq, beq_iff_eq] at hret
  have hins : oneField.DrawsOk ⟨.insert, [], 0, 1, fun _ => [65]⟩ := ⟨by decide, Nat.one_pos, fun _ => by simp⟩
  have hread : oneField.DrawsOk ⟨.read, [], 0, 1, fun _ => []⟩ := ⟨by decide, Nat.one_pos, fun _ => by simp⟩
  have hload : ∀ e ∈ stopsAtTwo 0 1 2, e.DrawsOk oneField := by simp [stopsAtTwo, CheckedEvent.DrawsOk, hins]
  have hreads : ∀ e ∈ readThree 0, e.DrawsOk oneField := by simp [readThree, CheckEvent.DrawsOk, hread]
  obtain ⟨-, hfinds⟩ := check_finds (OrdMap.store Bytes Bytes) (OrdMap.storeOrdered Bytes Bytes) oneField
    ⟨rfl, by decide⟩ (by decide) (by decide) (by decide) 1 hload hrun hexit
  obtain ⟨-, hcorrect, hmissed⟩ := (hfinds Nat.one_pos 3 (by decide) (readThree 0) hreads).2 v hrun' hret.1
  exact ⟨u, hrun, hexit, hlength, v, hrun', hret.1, hcorrect, hmissed hlength.ge, hret.2⟩

end CheckRun

end Ycsb
