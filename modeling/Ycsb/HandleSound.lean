import Ycsb.Handle

/-!
# When the handle is open

The count of users is the number of threads that have initialised and not
cleaned up. The handle is safe as long as no thread initialises after the count
has come back to zero; afterwards the handle is stale.
-/

namespace Ycsb

open Lib Threads

/-! ## What is left to a thread -/

inductive Working : List HandleAct → Prop where
  | cleanup : Working [.cleanup]
  | op {l : List HandleAct} (h : Working l) : Working (.op :: l)

inductive Program : List HandleAct → Prop where
  | finished : Program []
  | fresh {l : List HandleAct} (h : Working l) : Program (.init :: l)
  | working {l : List HandleAct} (h : Working l) : Program l

theorem not_working_nil : ¬ Working [] := fun h => by cases h

theorem not_working_init {l : List HandleAct} : ¬ Working (.init :: l) := fun h => by cases h

theorem working_ops : ∀ n : ℕ, Working (List.replicate n .op ++ [.cleanup])
  | 0 => .cleanup
  | n + 1 => .op (working_ops n)

theorem Working.no_init {l : List HandleAct} (h : Working l) : HandleAct.init ∉ l := by
  induction h with
  | cleanup => decide
  | op _ ih => simpa using ih

namespace HandleRun

variable {T : ℕ} {r : Fin T → List HandleAct} {h : Handle} {i : Fin T} {a : HandleAct} {rest : List HandleAct}

theorem start_program (v : Invocation T) (i : Fin T) :
    (start v).remaining i = [] ∨ ∃ l, Working l ∧ (start v).remaining i = .init :: l := by
  obtain ⟨doLoad, doTransaction, loadOps, runOps⟩ := v
  cases doLoad <;> cases doTransaction
  · exact Or.inl rfl
  · right
    refine ⟨_, working_ops (runOps i), ?_⟩
    simp [start, remaining, init, Invocation.phases, clientThread, handleCode]
  · right
    refine ⟨_, working_ops (loadOps i), ?_⟩
    simp [start, remaining, init, Invocation.phases, clientThread, handleCode]
  · right
    refine ⟨_, working_ops (loadOps i + runOps i), ?_⟩
    simp [start, remaining, init, Invocation.phases, clientThread, handleCode]
    rw [← List.append_assoc, List.replicate_append_replicate]

/-! ## The count of users -/

structure Counted (r : Fin T → List HandleAct) (h : Handle) : Prop where
  program : ∀ i, Program (r i)
  refs : h.refCnt = (having Working r).card

theorem counted_start (v : Invocation T) : Counted (start v).remaining .static := by
  have hnone : having Working (start v).remaining = ∅ := by
    ext i
    rw [mem_having]
    rcases start_program v i with hi | ⟨l, _, hi⟩ <;> rw [hi]
    · simp [not_working_nil]
    · simp [not_working_init]
  refine ⟨fun i => ?_, by rw [hnone]; rfl⟩
  rcases start_program v i with hi | ⟨l, hl, hi⟩ <;> rw [hi]
  · exact .finished
  · exact .fresh hl

theorem Counted.pos (hc : Counted r h) (hw : Working (r i)) : 0 < h.refCnt := by
  rw [hc.refs]
  exact_mod_cast having_pos hw

theorem Counted.cases (hc : Counted r h) (hr : r i = a :: rest) :
    (a = .init ∧ Working rest) ∨ (a = .op ∧ Working rest ∧ 0 < h.refCnt) ∨
      (a = .cleanup ∧ rest = [] ∧ 0 < h.refCnt) := by
  have hp := hc.program i
  rw [hr] at hp
  cases hp with
  | fresh hw => exact Or.inl ⟨rfl, hw⟩
  | working hw =>
    have hpos := hc.pos (i := i) (by rw [hr]; exact hw)
    cases hw with
    | cleanup => exact Or.inr (Or.inr ⟨rfl, rfl, hpos⟩)
    | op hw => exact Or.inr (Or.inl ⟨rfl, hw, hpos⟩)

theorem Counted.act (hc : Counted r h) (hr : r i = a :: rest) : Counted (Function.update r i rest) (h.act a) := by
  have hprog : Program rest → ∀ j, Program (Function.update r i rest j) := fun hrest =>
    forall_update (P := fun _ l => Program l) hrest fun j _ => hc.program j
  rcases hc.cases hr with ⟨rfl, hw⟩ | ⟨rfl, hw, _⟩ | ⟨rfl, rfl, _⟩
  · refine ⟨hprog (.working hw), ?_⟩
    have hcard := having_enter (P := Working) (r := r) (i := i) (by rw [hr]; exact not_working_init) hw
    rw [Handle.act, Handle.init_refCnt, hcard, hc.refs]
    rfl
  · refine ⟨hprog (.working hw), ?_⟩
    rw [Handle.act, having_stay (by rw [hr]; exact ⟨fun _ => hw, .op⟩), hc.refs]
  · refine ⟨hprog .finished, ?_⟩
    have hcard := having_leave (P := Working) (r := r) (i := i) (by rw [hr]; exact .cleanup) not_working_nil
    rw [Handle.act, Handle.cleanup_refCnt, hc.refs, ← hcard]
    omega

theorem Counted.finished (hc : Counted r h) (hr : ∀ i, r i = []) : h.refCnt = 0 := by
  have hnone : having Working r = ∅ := by
    ext i
    rw [mem_having, hr i]
    simp [not_working_nil]
  rw [hc.refs, hnone]
  rfl

/-! ## The life of the handle -/

/-- No thread initialises when the count is back at zero. -/
def InitFresh (h : Handle) (_ : Fin T) (a : HandleAct) : Prop := a = .init → ¬ (h.db.isSome ∧ h.refCnt = 0)

def OpOpen (h : Handle) (_ : Fin T) (a : HandleAct) : Prop := a = .op → h.IsOpen ∧ h.deleted = []

inductive Life : Handle → Prop where
  | unopened : Life ⟨none, 0, 0, []⟩
  | inUse (n : ℤ) (hn : 0 < n) : Life ⟨some 0, n, 1, []⟩
  | closed : Life ⟨some 0, 0, 1, [0]⟩

theorem Life.of_pos (hl : Life h) (hpos : 0 < h.refCnt) : h.IsOpen ∧ h.deleted = [] := by
  cases hl with
  | unopened => exact absurd hpos (by decide)
  | inUse n hn => exact ⟨⟨0, rfl, Nat.one_pos, List.not_mem_nil⟩, rfl⟩
  | closed => exact absurd hpos (by decide)

theorem Life.deletions (hl : Life h) : h.deleted.Nodup ∧ (∀ k ∈ h.deleted, k < h.opened) ∧
    (h.refCnt = 0 → ∀ k < h.opened, k ∈ h.deleted) := by
  cases hl with
  | unopened =>
    exact ⟨List.nodup_nil, fun k hk => absurd hk List.not_mem_nil, fun _ k hk => absurd hk (Nat.not_lt_zero k)⟩
  | inUse n hn =>
    exact ⟨List.nodup_nil, fun k hk => absurd hk List.not_mem_nil, fun h0 => absurd h0 (ne_of_gt hn)⟩
  | closed =>
    refine ⟨List.nodup_singleton 0, fun k hk => ?_, fun _ k hk => ?_⟩
    · rw [List.mem_singleton.mp hk]; exact Nat.one_pos
    · rw [Nat.lt_one_iff.mp hk]; exact List.mem_singleton_self 0

theorem Life.act (hl : Life h) (hpos : a = .cleanup → 0 < h.refCnt) (hfresh : InitFresh h i a) : Life (h.act a) := by
  cases a with
  | op => exact hl
  | init =>
    cases hl with
    | unopened => exact .inUse 1 (by decide)
    | inUse n hn => exact .inUse (n + 1) (by omega)
    | closed => exact absurd ⟨rfl, rfl⟩ (hfresh rfl)
  | cleanup =>
    have hpos := hpos rfl
    cases hl with
    | unopened => exact absurd hpos (by decide)
    | closed => exact absurd hpos (by decide)
    | inUse n hn =>
      by_cases h1 : n - 1 = 0
      · obtain rfl : n = 1 := by omega
        exact .closed
      · have hact : Handle.act ⟨some 0, n, 1, []⟩ .cleanup = ⟨some 0, n - 1, 1, []⟩ := if_pos h1
        rw [hact]
        exact .inUse (n - 1) (by omega)

theorem life_step : ∀ (r : Fin T → List HandleAct) (h : Handle) (i : Fin T) (a : HandleAct) (rest : List HandleAct),
    Counted r h ∧ Life h → r i = a :: rest → InitFresh h i a →
      Counted (Function.update r i rest) (h.act a) ∧ Life (h.act a) := by
  intro r h i a rest hI hr hfresh
  obtain ⟨hc, hl⟩ := hI
  refine ⟨hc.act hr, hl.act (fun ha => ?_) hfresh⟩
  rcases hc.cases hr with ⟨rfl, _⟩ | ⟨rfl, _⟩ | ⟨_, _, hpos⟩
  · cases ha
  · cases ha
  · exact hpos

theorem op_open : ∀ (r : Fin T → List HandleAct) (h : Handle) (i : Fin T) (a : HandleAct) (rest : List HandleAct),
    Counted r h ∧ Life h → r i = a :: rest → InitFresh h i a → OpOpen h i a := by
  intro r h i a rest hI hr _ ha
  obtain ⟨hc, hl⟩ := hI
  subst ha
  rcases hc.cases hr with ⟨ha, _⟩ | ⟨_, _, hpos⟩ | ⟨ha, _⟩
  · cases ha
  · exact hl.of_pos hpos
  · cases ha

/-! ## Stale handles -/

/-- A database that was opened and deleted at least `k` times, once more if the count is at zero. -/
structure Stale (k : ℕ) (h : Handle) : Prop where
  db : h.db = some 0
  deleted : ∃ m, h.deleted = List.replicate m 0 ∧ k ≤ m ∧ (h.refCnt = 0 → k + 1 ≤ m)

theorem Stale.act {k : ℕ} (hs : Stale k h) (hpos : 0 ≤ h.refCnt) : Stale k (h.act a) := by
  obtain ⟨db, n, opened, deleted⟩ := h
  obtain ⟨rfl, m, rfl, hk, hz⟩ := hs
  cases a with
  | op => exact ⟨rfl, m, rfl, hk, hz⟩
  | init =>
    refine ⟨rfl, m, rfl, hk, fun h0 => ?_⟩
    have h1 : n + 1 = 0 := h0
    have hpos : 0 ≤ n := hpos
    omega
  | cleanup =>
    by_cases h1 : n - 1 = 0
    · have hact : Handle.act ⟨some 0, n, opened, List.replicate m 0⟩ .cleanup =
          ⟨some 0, n - 1, opened, List.replicate (m + 1) 0⟩ := by
        simp only [Handle.act, Handle.cleanup, h1, ne_eq, not_true_eq_false, if_false, List.replicate_succ']
        rfl
      rw [hact]
      exact ⟨rfl, m + 1, rfl, by omega, fun _ => by omega⟩
    · have hact : Handle.act ⟨some 0, n, opened, List.replicate m 0⟩ .cleanup =
          ⟨some 0, n - 1, opened, List.replicate m 0⟩ := if_pos h1
      rw [hact]
      exact ⟨rfl, m, rfl, hk, fun h0 => absurd h0 h1⟩

theorem Stale.init (hs : Stale 0 h) (h0 : h.refCnt = 0) : Stale 1 (h.act .init) := by
  obtain ⟨db, n, opened, deleted⟩ := h
  obtain ⟨rfl, m, rfl, _, hz⟩ := hs
  obtain rfl : n = 0 := h0
  refine ⟨rfl, m, rfl, hz rfl, fun h1 => ?_⟩
  have h1 : (0 : ℤ) + 1 = 0 := h1
  omega

def Known (h : Handle) : Prop := h = .static ∨ Stale 0 h

theorem known_step : ∀ (r : Fin T → List HandleAct) (h : Handle) (i : Fin T) (a : HandleAct) (rest : List HandleAct),
    Counted r h ∧ Known h → r i = a :: rest → Counted (Function.update r i rest) (h.act a) ∧ Known (h.act a) := by
  intro r h i a rest hI hr
  obtain ⟨hc, hk⟩ := hI
  refine ⟨hc.act hr, ?_⟩
  rcases hk with rfl | hs
  · rcases hc.cases hr with ⟨rfl, _⟩ | ⟨rfl, _⟩ | ⟨_, _, hpos⟩
    · exact Or.inr ⟨rfl, 0, rfl, Nat.le_refl 0, fun h => absurd h (by decide)⟩
    · exact Or.inl rfl
    · exact absurd hpos (by decide)
  · have hnn : 0 ≤ h.refCnt := by rw [hc.refs]; omega
    exact Or.inr (hs.act hnn)

theorem stale_step {k : ℕ} : ∀ (r : Fin T → List HandleAct) (h : Handle) (i : Fin T) (a : HandleAct)
    (rest : List HandleAct), Counted r h ∧ Stale k h → r i = a :: rest →
      Counted (Function.update r i rest) (h.act a) ∧ Stale k (h.act a) := by
  intro r h i a rest hI hr
  obtain ⟨hc, hs⟩ := hI
  have hnn : 0 ≤ h.refCnt := by rw [hc.refs]; omega
  exact ⟨hc.act hr, hs.act hnn⟩

theorem nodup_replicate {m : ℕ} (h : (List.replicate m 0).Nodup) : m ≤ 1 := List.nodup_replicate.mp h

theorem along_of_nodup {u : HandleRun T} (hfin : u.Finished) (hnodup : u.shared.deleted.Nodup) :
    ∀ (es : List (ThreadEvent (Fin T))) (s : HandleRun T), Counted s.remaining s.shared ∧ Known s.shared →
      run step s es = some u → Along step (OnAction InitFresh) s es
  | [], _, _, _ => trivial
  | e :: es, s, hI, hrun => by
    obtain ⟨t, ht, hrun⟩ := (run_cons_some step).mp hrun
    have hI' : Counted t.remaining t.shared ∧ Known t.shared := step_always known_step hI ht
    refine ⟨fun i a hn ha hstale => ?_, fun t' ht' => ?_⟩
    · -- the handle is stale from here on, and was deleted twice at the end
      subst ha
      obtain ⟨hdb, h0⟩ := hstale
      have hs : Stale 0 s.shared := by
        rcases hI.2 with h | h
        · rw [h] at hdb; cases hdb
        · exact h
      rcases step_cases ht with ⟨i', a', rest, hn', hr, hrem, hsh⟩ | ⟨hn', _⟩
      · rw [hn, Option.some.injEq, Prod.mk.injEq] at hn'
        obtain ⟨rfl, rfl⟩ := hn'
        have hst : Counted t.remaining t.shared ∧ Stale 1 t.shared := ⟨hI'.1, hsh ▸ hs.init h0⟩
        obtain ⟨hcu, _, m, hdel, _, hm⟩ := run_always stale_step hst hrun
        have h2 := hm (hcu.finished hfin)
        rw [hdel] at hnodup
        have h1 := nodup_replicate hnodup
        omega
      · rw [hn] at hn'; cases hn'
    · rw [ht, Option.some.injEq] at ht'
      exact along_of_nodup hfin hnodup es t' (ht' ▸ hI') (ht' ▸ hrun)

/-! ## Invocations -/

/-- An operation always finds the handle open with nothing deleted, no database
is deleted twice, and at the end every opened database is deleted. -/
structure Safe (v : Invocation T) (es : List (ThreadEvent (Fin T))) (u : HandleRun T) : Prop where
  open_at_op : Along step (OnAction OpOpen) (start v) es
  once : u.shared.deleted.Nodup
  opened : ∀ k ∈ u.shared.deleted, k < u.shared.opened
  all : u.Finished → ∀ k < u.shared.opened, k ∈ u.shared.deleted

theorem safe_of_fresh {v : Invocation T} {es : List (ThreadEvent (Fin T))} {u : HandleRun T}
    (hrun : run step (start v) es = some u) (hC : Along step (OnAction InitFresh) (start v) es) : Safe v es u := by
  have hI : Counted (start v).remaining (start v).shared ∧ Life (start v).shared := ⟨counted_start v, .unopened⟩
  obtain ⟨hc, hl⟩ := run_remaining life_step hI hC hrun
  obtain ⟨hnodup, hopened, hall⟩ := hl.deletions
  exact ⟨along_remaining life_step op_open es _ hI hC, hnodup, hopened, fun hfin => hall (hc.finished hfin)⟩

/-! ### One thread, or load then run -/

def Fresh (l : List HandleAct) : Prop := ∃ rest, l = .init :: rest

def Begun (r : Fin T → List HandleAct) (h : Handle) : Prop := h.db.isSome → ∃ i, ¬ Fresh (r i)

theorem begun_step : ∀ (r : Fin T → List HandleAct) (h : Handle) (i : Fin T) (a : HandleAct) (rest : List HandleAct),
    Counted r h ∧ Begun r h → r i = a :: rest →
      Counted (Function.update r i rest) (h.act a) ∧ Begun (Function.update r i rest) (h.act a) := by
  intro r h i a rest hI hr
  have hc := hI.1
  refine ⟨hc.act hr, fun _ => ⟨i, ?_⟩⟩
  rw [Function.update_self]
  intro hfresh
  obtain ⟨l, rfl⟩ := hfresh
  rcases hc.cases hr with ⟨_, hw⟩ | ⟨_, hw, _⟩ | ⟨_, hnil, _⟩
  · exact not_working_init hw
  · exact not_working_init hw
  · cases hnil

def NoneFinished (r : Fin T → List HandleAct) : Prop := ∀ i j, Fresh (r i) → r j ≠ []

theorem initFresh_of_noneFinished {s : HandleRun T} {e : ThreadEvent (Fin T)}
    (hI : Counted s.remaining s.shared ∧ Begun s.remaining s.shared) (hn : NoneFinished s.remaining) :
    OnAction InitFresh s e := by
  intro i a hnext ha hstale
  subst ha
  obtain ⟨hdb, h0⟩ := hstale
  obtain ⟨_, rest, htodo⟩ := next_eq hnext
  have hfresh : Fresh (s.remaining i) := ⟨_, by rw [remaining, htodo]; rfl⟩
  obtain ⟨j, hj⟩ := hI.2 hdb
  have hp := hI.1.program j
  generalize hr : s.remaining j = l at hp hj
  cases hp with
  | finished => exact hn i j hfresh hr
  | fresh hw => exact hj ⟨_, rfl⟩
  | working hw =>
    have hpos := hI.1.pos (i := j) (hr ▸ hw)
    omega

theorem noneFinished_of_lastPhase {s : HandleRun T} {n : Fin T → ℕ}
    (h : LastPhase (fun _ => True) (fun i => clientThread handleCode (n i) false true) s) :
    NoneFinished s.remaining := by
  intro i j hfi hnil
  obtain ⟨rest, hfresh⟩ := hfi
  cases h with
  | before ps hp =>
    simp only [remaining, hp, List.map_append, List.flatten_append, List.append_eq_nil_iff] at hnil
    simp [clientThread, handleCode] at hnil
  | last hp ht =>
    have hmem : HandleAct.init ∈ s.todo i := by
      simp only [remaining, hp, List.map_nil, List.flatten_nil, List.append_nil] at hfresh
      rw [hfresh]
      exact List.mem_cons_self
    exact (working_ops (n i)).no_init ((ht i).subset hmem)

theorem lastPhase_start {v : Invocation T} (hv : v.InitFirst false) :
    LastPhase (fun _ => True) (fun i => clientThread handleCode (v.runOps i) false true) (start v) := by
  rcases Invocation.phases_initFirst handleCode hv with hp | hp
  · exact .last hp fun _ => List.nil_suffix
  · exact .before [_] hp (fun _ _ _ _ _ => trivial) fun _ _ _ => trivial

theorem fresh_along {v : Invocation T} (hv : T ≤ 1 ∨ v.InitFirst false) (es : List (ThreadEvent (Fin T))) :
    Along step (OnAction InitFresh) (start v) es := by
  have hstart : Counted (start v).remaining (start v).shared ∧ Begun (start v).remaining (start v).shared :=
    ⟨counted_start v, fun h => by cases h⟩
  let Late (s : HandleRun T) : Prop :=
    LastPhase (fun _ => True) (fun i => clientThread handleCode (v.runOps i) false true) s
  have hnone : ∀ s : HandleRun T, T ≤ 1 ∨ Late s → NoneFinished s.remaining := by
    intro s hs
    rcases hs with hT | hlast
    · intro i j hfi
      obtain ⟨rest, hi⟩ := hfi
      obtain rfl : i = j := Fin.ext (by omega)
      rw [hi]
      exact List.cons_ne_nil _ _
    · exact noneFinished_of_lastPhase hlast
  refine Along.of_inv step (I := fun s => (Counted s.remaining s.shared ∧ Begun s.remaining s.shared) ∧
    (T ≤ 1 ∨ Late s)) (fun s e h => initFresh_of_noneFinished h.1 (hnone s h.2)) ?_ es _
    ⟨hstart, hv.imp_right lastPhase_start⟩
  intro s e t hs ht
  obtain ⟨hI, ho⟩ := hs
  exact ⟨step_always begun_step hI ht, ho.imp_right fun ho => ho.step ht⟩

/-! ### Two threads in a single phase -/

theorem foldl_thread (n : ℕ) (h : Handle) :
    (clientThread handleCode n true true).foldl (fun h a => h.act a) h = h.init.cleanup := by
  have hops : ∀ n h, (List.replicate n HandleAct.op).foldl (fun h a => Handle.act h a) h = h := by
    intro n
    induction n with
    | zero => exact fun _ => rfl
    | succ n ih => exact fun h => ih h
  simp only [clientThread, handleCode, if_true, List.foldl_append, List.foldl_cons, List.foldl_nil, hops]
  rfl

theorem one_after_other {v : Invocation T} (hT : 1 < T) (hv : ¬ v.InitFirst false) :
    ∃ es u, run step (start v) es = some u ∧ u.shared.deleted = [0, 0] := by
  obtain ⟨n, ps, hphases⟩ := Invocation.phases_not_initFirst handleCode hv
  let i₀ : Fin T := ⟨0, by omega⟩
  let i₁ : Fin T := ⟨1, hT⟩
  have hne : i₁ ≠ i₀ := by simp [i₀, i₁]
  let p : Fin T → List HandleAct := fun i => clientThread handleCode (n i) true true
  have hphase : step (start v) .phase = some ⟨p, ps, .static⟩ := by
    simp [HandleRun.step, Threads.step, start, init, hphases, p]
  have h₀ := run_alone (fun _ a h => Handle.act h a) i₀ (p i₀).length ⟨p, ps, .static⟩ (Nat.le_refl _)
  have h₁ := run_alone (fun _ a h => Handle.act h a) i₁ (p i₁).length
    ⟨Function.update p i₀ [], ps, Handle.static.init.cleanup⟩ (by simp [hne])
  simp only [List.drop_length, List.take_length] at h₀
  simp only [Function.update_of_ne hne, List.drop_length, List.take_length] at h₁
  rw [foldl_thread] at h₀ h₁
  exact ⟨_, _, (run_cons_some step).mpr ⟨_, hphase, run_append_some step h₀ h₁⟩, rfl⟩

/-- An invocation of one thread, or of load then run, is safe in every
interleaving, and no other is. Of each interleaving: it is safe if no thread
initialises when the count is back at zero, and once all threads have returned
only then. -/
theorem handle_open (v : Invocation T) :
    (∀ es u, run step (start v) es = some u →
      (Along step (OnAction InitFresh) (start v) es → Safe v es u) ∧
        (u.Finished → Safe v es u → Along step (OnAction InitFresh) (start v) es)) ∧
      ((∀ es u, run step (start v) es = some u → Safe v es u) ↔ T ≤ 1 ∨ v.InitFirst false) := by
  refine ⟨fun es u hrun => ⟨safe_of_fresh hrun, fun hfin hsafe => ?_⟩, ?_, ?_⟩
  · exact along_of_nodup hfin hsafe.once es _ ⟨counted_start v, Or.inl rfl⟩ hrun
  · intro hsafe
    by_cases hT : T ≤ 1
    · exact Or.inl hT
    · right
      by_contra hv
      obtain ⟨es, u, hrun, hdel⟩ := one_after_other (by omega) hv
      have hnodup := (hsafe es u hrun).once
      rw [hdel] at hnodup
      exact absurd hnodup (by decide)
  · exact fun hv es u hrun => safe_of_fresh hrun (fresh_along hv es)

/-- Two threads that load: the second initialises when the first has cleaned up. -/
theorem stale_handle :
    ∃ es u, run step (start (⟨true, false, fun _ => 1, fun _ => 1⟩ : Invocation 2)) es = some u ∧ u.Finished ∧
      ¬ Along step (OnAction OpOpen) (start ⟨true, false, fun _ => 1, fun _ => 1⟩) es ∧
      u.shared.deleted = [0, 0] := by
  refine ⟨[.phase, .act 0, .act 0, .act 0, .act 1, .act 1, .act 1], _, rfl, fun i => ?_, fun h => ?_, rfl⟩
  · match i with
    | 0 => rfl
    | 1 => rfl
  · have hop := (((((h.2 _ rfl).2 _ rfl).2 _ rfl).2 _ rfl).2 _ rfl).1 1 .op rfl rfl
    exact absurd hop.2 (List.cons_ne_nil 0 [])

end HandleRun

end Ycsb
