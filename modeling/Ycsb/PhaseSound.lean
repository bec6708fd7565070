import Mathlib.Algebra.BigOperators.Fin
import Ycsb.Lib.Threads
import Ycsb.MeasurementsSound
import Ycsb.Phase
import Ycsb.StatusSound

/-!
# What a phase prints

No number is read before every client has initialised. The status thread returns
after a message that it began when all clients had returned, so that this message
and the summary of `main` tell everything that was reported.
-/

namespace Ycsb

open Lib

/-! ## The actions of a client -/

theorem head_last {α : Type} {a z : α} {body rest : List α} (h : a :: rest <:+ body ++ [z]) (hz : z ∉ body) :
    a = z ↔ rest = [] := by
  obtain ⟨pre, h⟩ := h
  rcases List.eq_nil_or_concat rest with rfl | ⟨r, y, rfl⟩
  · have hlast := (List.append_inj' h rfl).2
    simpa using hlast
  · have hsplit : (pre ++ a :: r) ++ [y] = body ++ [z] := by
      rw [← h]
      simp
    have hbody : pre ++ a :: r = body := (List.append_inj' hsplit rfl).1
    have ha : a ∈ body := hbody ▸ List.mem_append_right pre List.mem_cons_self
    constructor
    · rintro rfl
      exact absurd ha hz
    · intro hr
      simp at hr

namespace PhaseCode

variable {T : ℕ} (p : PhaseCode T)

def acts (i : Fin T) : List ClientAct := clientActs (p.ops i) (p.initDb i) (p.cleanupDb i)

theorem mem_ops {o : ClientOp} {a : ClientAct} (h : a ∈ o.acts) :
    a ≠ .countInit ∧ a ≠ .countDown := by
  simp only [ClientOp.acts, List.mem_cons, List.mem_map] at h
  rcases h with rfl | ⟨r, _, rfl⟩
  · exact ⟨by simp, by simp⟩
  · exact ⟨by simp, by simp⟩

theorem acts_eq (i : Fin T) : ∃ pre post, p.acts i = (pre ++ .countInit :: post) ++ [.countDown] ∧
    .countInit ∉ pre ++ post ∧ .countDown ∉ pre ++ .countInit :: post := by
  refine ⟨if p.initDb i then [.init] else [], (p.ops i).flatMap ClientOp.acts ++
    (if p.cleanupDb i then [.cleanup] else []), ?_, ?_, ?_⟩
  · simp [acts, clientActs]
  all_goals
    simp only [List.mem_append, List.mem_cons, List.mem_flatMap, not_or, not_exists, not_and]
    cases p.initDb i <;> cases p.cleanupDb i <;>
      simpa using fun o _ ha => by have := mem_ops ha; simp at this

variable {p}

theorem countInit_once {i : Fin T} {rest : List ClientAct} (h : .countInit :: rest <:+ p.acts i) :
    .countInit ∉ rest := by
  obtain ⟨pre, post, heq, hnot, _⟩ := p.acts_eq i
  have hcount := h.sublist.count_le ClientAct.countInit
  simp only [List.mem_append, not_or] at hnot
  rw [heq] at hcount
  simp only [List.count_cons_self, List.count_append, List.count_eq_zero_of_not_mem hnot.1,
    List.count_eq_zero_of_not_mem hnot.2, List.count_singleton] at hcount
  apply List.count_eq_zero.mp
  simpa using hcount

theorem countDown_iff {i : Fin T} {a : ClientAct} {rest : List ClientAct} (h : a :: rest <:+ p.acts i) :
    a = .countDown ↔ rest = [] := by
  obtain ⟨pre, post, heq, _, hnot⟩ := p.acts_eq i
  exact head_last (heq ▸ h) hnot

end PhaseCode

/-! ## The steps -/

namespace PhaseRun

variable {T : ℕ} {p : PhaseCode T} {s : PhaseRun T}

/-- What a step can do. -/
inductive Moves (p : PhaseCode T) (s : PhaseRun T) : PhaseEvent T → PhaseRun T → Prop where
  | report (i : Fin T) (elapse : ℤ) (spurious : Bool) (r : Reporting (Fin T))
      (hp : s.reporting.pending i ≠ none) (hr : s.reporting.step (.step i spurious) = some r) :
      Moves p s (.client i elapse spurious) { s with reporting := r }
  | act (i : Fin T) (elapse : ℤ) (spurious : Bool) (a : ClientAct) (rest : List ClientAct)
      (hi : s.todo i = a :: rest) (hp : s.reporting.pending i = none) :
      Moves p s (.client i elapse spurious) (act p { s with todo := Function.update s.todo i rest } i elapse a)
  | status (st : StatusThread) (hshow : p.showStatus = true)
      (hst : s.status.step p.interval p.intervalUs s.initLatch s.latch s.reporting.measurements = some st) :
      Moves p s .status { s with status := st }
  | main (t : PhaseRun T) (hmain : s.mainStep p = some t) : Moves p s .main t

variable {t : PhaseRun T}

theorem step_moves {e : PhaseEvent T} (h : s.step p e = some t) : Moves p s e t := by
  cases e with
  | client i elapse spurious =>
    simp only [step, clientStep] at h
    split at h
    · cases h
    · split at h
      · rename_i hp
        obtain ⟨r, hr, rfl⟩ := Option.map_eq_some_iff.mp h
        exact .report i elapse spurious r (Option.isSome_iff_ne_none.mp hp) hr
      · rename_i hp
        split at h
        · cases h
        · rename_i a rest hi
          cases h
          exact .act i elapse spurious a rest hi (by simpa using hp)
  | status =>
    simp only [step] at h
    split at h
    · rename_i hshow
      obtain ⟨st, hst, rfl⟩ := Option.map_eq_some_iff.mp h
      exact .status st hshow hst
    · cases h
  | main => exact .main t h

inductive MainMoves (p : PhaseCode T) (s : PhaseRun T) : MainPoint → Prop where
  | launch (n : ℕ) (hm : s.main = .launch n) (m : MainPoint) (hnext : m = .launch (n + 1) ∨ m = .await) :
      MainMoves p s m
  | start (hm : s.main = .await) (hopen : s.initLatch.isOpen = true) : MainMoves p s (.join 0 0)
  | join (n : ℕ) (sum : ℤ) (hm : s.main = .join n sum) (hn : n < T) (hnil : s.todo ⟨n, hn⟩ = []) :
      MainMoves p s (.join (n + 1) (sum + s.result ⟨n, hn⟩))
  | joined (n : ℕ) (sum : ℤ) (hm : s.main = .join n sum) (hn : T ≤ n) : MainMoves p s (.waitStatus sum)
  | summary (sum : ℤ) (hm : s.main = .waitStatus sum)
      (hret : p.showStatus = true → s.status.point = .returned) :
      MainMoves p s (.summary sum s.reporting.measurements.emit)

theorem main_moves (h : s.mainStep p = some t) : ∃ m, MainMoves p s m ∧ t = { s with main := m } := by
  unfold mainStep at h
  split at h
  · rename_i n hm
    refine ⟨_, .launch n hm _ ?_, (Option.some.inj h).symm⟩
    split
    · exact Or.inl rfl
    · exact Or.inr rfl
  · rename_i hm
    split at h
    · rename_i hopen
      exact ⟨_, .start hm hopen, (Option.some.inj h).symm⟩
    · cases h
  · rename_i n sum hm
    split at h
    · rename_i hn
      split at h
      · rename_i hnil
        exact ⟨_, .join n sum hm hn (List.isEmpty_iff.mp hnil), (Option.some.inj h).symm⟩
      · cases h
    · rename_i hn
      exact ⟨_, .joined n sum hm (Nat.not_lt.mp hn), (Option.some.inj h).symm⟩
  · rename_i sum hm
    split at h
    · rename_i hshow
      exact ⟨_, .summary sum hm fun hs => (by rw [hshow] at hs; cases hs), (Option.some.inj h).symm⟩
    · rename_i hret
      exact ⟨_, .summary sum hm fun _ => hret, (Option.some.inj h).symm⟩
    · cases h
  · cases h

section
variable (s : PhaseRun T) (i : Fin T) (elapse : ℤ) (a : ClientAct)

@[simp] theorem act_todo : (act p s i elapse a).todo = s.todo := by cases a <;> rfl

@[simp] theorem act_status : (act p s i elapse a).status = s.status := by cases a <;> rfl

@[simp] theorem act_main : (act p s i elapse a).main = s.main := by cases a <;> rfl

variable {i a} in
theorem act_pending_ne {j : Fin T} (hj : j ≠ i) :
    (act p s i elapse a).reporting.pending j = s.reporting.pending j := by
  cases a with
  | report op latency =>
    simp only [act, Reporting.call]
    split
    · exact Function.update_of_ne hj _ _
    · rfl
  | _ => rfl

variable {s i a} in
theorem act_pending (hp : s.reporting.pending i = none) (h : (act p s i elapse a).reporting.pending i ≠ none) :
    ∃ op latency, a = .report op latency := by
  cases a with
  | report op latency => exact ⟨op, latency, rfl⟩
  | _ => exact absurd hp h

theorem act_initLatch : (act p s i elapse a).initLatch.count =
    s.initLatch.count - if a = .countInit then 1 else 0 := by
  cases a <;> simp [act, CountDownLatch.countDown]

theorem act_latch : (act p s i elapse a).latch.count = s.latch.count - if a = .countDown then 1 else 0 := by
  cases a <;> simp [act, CountDownLatch.countDown]

end

/-! ## The latches -/

/-- Each latch counts the clients that have still to count it down. -/
structure Counted (p : PhaseCode T) (s : PhaseRun T) : Prop where
  suffix : ∀ i, s.todo i <:+ p.acts i
  busy : ∀ i, s.reporting.pending i ≠ none → s.todo i ≠ []
  initLatch : s.initLatch.count = (having (ClientAct.countInit ∈ ·) s.todo).card
  latch : s.latch.count = (having (· ≠ []) s.todo).card

theorem Counted.start : Counted p (start p) where
  suffix i := List.suffix_rfl
  busy i h := absurd rfl h
  initLatch := by
    have hall : having (ClientAct.countInit ∈ ·) (PhaseRun.start p).todo = Finset.univ := by
      ext i
      simp [mem_having, PhaseRun.start, clientActs]
    rw [hall]
    simp [PhaseRun.start]
  latch := by
    have hall : having (· ≠ []) (PhaseRun.start p).todo = Finset.univ := by
      ext i
      simp [mem_having, PhaseRun.start, clientActs]
    rw [hall]
    simp [PhaseRun.start]

theorem Counted.initialised (h : Counted p s) (hopen : s.initLatch.isOpen = true) :
    ∀ i, ClientAct.countInit ∉ s.todo i := by
  intro i hi
  have hpos := having_pos (P := (ClientAct.countInit ∈ ·)) hi
  have hle := of_decide_eq_true hopen
  rw [h.initLatch] at hle
  omega

theorem Counted.returned (h : Counted p s) (hopen : s.latch.isOpen = true) : ∀ i, s.todo i = [] := by
  intro i
  by_contra hi
  have hpos := having_pos (P := (· ≠ [])) hi
  have hle := of_decide_eq_true hopen
  rw [h.latch] at hle
  omega

theorem Counted.step {e : PhaseEvent T} (h : Counted p s) (hstep : s.step p e = some t) : Counted p t := by
  cases step_moves hstep with
  | report i elapse spurious r hp hr =>
    obtain ⟨c, hc, rfl⟩ := Option.map_eq_some_iff.mp hr
    refine ⟨h.suffix, ?_, h.initLatch, h.latch⟩
    refine forall_update (P := fun j q => q ≠ none → s.todo j ≠ []) ?_ fun j _ => h.busy j
    exact fun _ => h.busy i hp
  | act i elapse spurious a rest hi hp =>
    have hsuffix := h.suffix i
    rw [hi] at hsuffix
    have hlast := PhaseCode.countDown_iff hsuffix
    refine ⟨?_, ?_, ?_, ?_⟩
    · rw [act_todo]
      exact forall_update (P := fun j l => l <:+ p.acts j) ((List.suffix_cons a rest).trans hsuffix)
        fun j _ => h.suffix j
    · rw [act_todo]
      intro j hj
      by_cases hji : j = i
      · subst hji
        obtain ⟨op, latency, rfl⟩ :=
          act_pending (s := { s with todo := Function.update s.todo j rest }) elapse hp hj
        simp only [Function.update_self]
        exact fun hrest => by simpa using hlast.mpr hrest
      · rw [act_pending_ne _ _ hji] at hj
        simpa [hji] using h.busy j hj
    · rw [act_initLatch, act_todo, h.initLatch]
      -- a client counts the first latch down once
      by_cases ha : a = .countInit
      · subst ha
        have hleave := having_leave (P := (ClientAct.countInit ∈ ·)) (r := s.todo) (i := i)
          (by simp [hi]) (PhaseCode.countInit_once hsuffix)
        simp only [if_true]
        omega
      · rw [having_stay (by simp [hi, Ne.symm ha])]
        simp [ha]
    · rw [act_latch, act_todo, h.latch]
      -- the second latch is the last thing a client counts down
      by_cases ha : a = .countDown
      · have hleave := having_leave (P := (· ≠ [])) (r := s.todo) (i := i) (x := rest)
          (by simp [hi]) (by simpa using hlast.mp ha)
        simp only [ha, if_true]
        omega
      · rw [having_stay (by simpa [hi] using mt hlast.mpr ha)]
        simp [ha]
  | status st hshow hst => exact ⟨h.suffix, h.busy, h.initLatch, h.latch⟩
  | main _ hmain =>
    obtain ⟨m, _, rfl⟩ := main_moves hmain
    exact ⟨h.suffix, h.busy, h.initLatch, h.latch⟩

end PhaseRun

/-! ## The order of the threads -/

namespace StatusPoint

def started : StatusPoint → Bool
  | .await => false
  | _ => true

/-- The latch was open before this message was begun. -/
def done : StatusPoint → Bool
  | .print done _ _ _ => done
  | .returned => true
  | _ => false

end StatusPoint

namespace StatusThread

variable {interval intervalUs : ℤ} {initLatch latch : CountDownLatch} {m : BasicMeasurements} {t t' : StatusThread}

inductive Moves (initLatch latch : CountDownLatch) (m : BasicMeasurements) (t : StatusThread) : StatusThread → Prop where
  | start (hp : t.point = .await) (hopen : initLatch.isOpen = true) :
      Moves initLatch latch m t { t with point := beginMsg false }
  | load (done : Bool) (op : OpType) (ops : List OpType) (point : LinePoint) (msg : StatusMsg)
      (hp : t.point = .print done (op :: ops) point msg) : Moves initLatch latch m t (t.load m done op ops msg point)
  | message (done : Bool) (point : LinePoint) (msg : StatusMsg) (hp : t.point = .print done [] point msg) :
      Moves initLatch latch m t
        { t with point := if done then .returned else .wait, msgs := t.msgs ++ [msg] }
  | wake (done : Bool) (hp : t.point = .wait) (hdone : done = true → latch.isOpen = true) :
      Moves initLatch latch m t { t with point := beginMsg done }

theorem step_moves (h : t.step interval intervalUs initLatch latch m = some t') : Moves initLatch latch m t t' := by
  unfold step at h
  split at h
  · rename_i hp
    split at h
    · rename_i hopen
      cases h
      exact .start hp hopen
    · cases h
  · rename_i done op ops point msg hp
    cases h
    exact .load done op ops point msg hp
  · rename_i done point msg hp
    cases h
    exact .message done point msg hp
  · rename_i hp
    cases h
    exact .wake _ hp fun hdone => (Bool.and_eq_true _ _ ▸ hdone).2
  · cases h

theorem load_done (m : BasicMeasurements) (done : Bool) (op : OpType) (ops : List OpType) (msg : StatusMsg)
    (point : LinePoint) : (t.load m done op ops msg point).point.done = done := by
  cases point with
  | sum cnt =>
    simp only [load]
    split <;> rfl
  | _ => rfl

end StatusThread

namespace MainPoint

variable (T : ℕ)

/-- `main` has passed `init_latch.Await()`. -/
def timed : MainPoint → Bool
  | .launch _ | .await => false
  | _ => true

def joined : MainPoint → ℕ
  | .launch _ | .await => 0
  | .join n _ => n
  | _ => T

def isSummary : MainPoint → Bool
  | .summary _ _ => true
  | _ => false

end MainPoint

namespace PhaseRun

variable {T : ℕ} {p : PhaseCode T} {s t : PhaseRun T}

structure InOrder (p : PhaseCode T) (s : PhaseRun T) : Prop where
  started : s.status.point.started = true ∨ s.main.timed = true → ∀ i, ClientAct.countInit ∉ s.todo i
  done : s.status.point.done = true → ∀ i, s.todo i = []
  joined : ∀ i : Fin T, i < s.main.joined T → s.todo i = []
  waited : s.main.isSummary = true → p.showStatus = true → s.status.point = .returned

theorem InOrder.start : InOrder p (start p) where
  started h := by simp [PhaseRun.start, StatusThread.init, StatusPoint.started, MainPoint.timed] at h
  done h := by cases h
  joined i h := absurd h (Nat.not_lt_zero i)
  waited h := by cases h

theorem InOrder.shrink (h : InOrder p s) {i : Fin T} {a : ClientAct} {rest : List ClientAct} (hi : s.todo i = a :: rest)
    (elapse : ℤ) : InOrder p (act p { s with todo := Function.update s.todo i rest } i elapse a) where
  started hs := by
    rw [act_status, act_main] at hs
    rw [act_todo]
    refine forall_update (P := fun _ l => ClientAct.countInit ∉ l) ?_ fun j _ => h.started hs j
    intro hmem
    exact h.started hs i (hi ▸ List.mem_cons_of_mem a hmem)
  done hd := by
    rw [act_status] at hd
    have hnil := h.done hd i
    rw [hi] at hnil
    cases hnil
  joined j hj := by
    rw [act_main] at hj
    have hnil := h.joined j hj
    rw [act_todo]
    have hji : j ≠ i := by
      rintro rfl
      rw [hi] at hnil
      cases hnil
    exact (Function.update_of_ne hji _ _).trans hnil
  waited hm hs := by
    rw [act_main] at hm
    rw [act_status]
    exact h.waited hm hs

theorem InOrder.status (h : InOrder p s) (hc : Counted p s) {st : StatusThread}
    (hst : StatusThread.Moves s.initLatch s.latch s.reporting.measurements s.status st) :
    InOrder p { s with status := st } := by
  have hkeep : ∀ {st : StatusThread}, (st.point.started = true → ∀ i, ClientAct.countInit ∉ s.todo i) →
      (st.point.done = true → ∀ i, s.todo i = []) → s.status.point ≠ .returned →
      InOrder p { s with status := st } := fun hstarted hdone hne =>
    ⟨fun hor => hor.elim hstarted fun hm => h.started (Or.inr hm), hdone, h.joined,
      fun hm hs => absurd (h.waited hm hs) hne⟩
  cases hst with
  | start hp hopen => exact hkeep (fun _ => hc.initialised hopen) (fun hd => by cases hd) (by simp [hp])
  | load done op ops point msg hp =>
    have hdone := s.status.load_done s.reporting.measurements done op ops msg point
    have hwas : s.status.point.started = true ∧ s.status.point.done = done := by rw [hp]; exact ⟨rfl, rfl⟩
    refine hkeep (fun _ => h.started (Or.inl hwas.1)) (fun hd => h.done ?_) (by simp [hp])
    rw [hwas.2, ← hdone]
    exact hd
  | message done point msg hp =>
    have hwas : s.status.point.started = true ∧ s.status.point.done = done := by rw [hp]; exact ⟨rfl, rfl⟩
    refine hkeep (fun _ => h.started (Or.inl hwas.1)) (fun hd => h.done ?_) (by simp [hp])
    cases done with
    | true => exact hwas.2
    | false => cases hd
  | wake done hp hdone =>
    have hwas : s.status.point.started = true := by rw [hp]; rfl
    exact hkeep (fun _ => h.started (Or.inl hwas)) (fun hd => hc.returned (hdone hd)) (by simp [hp])

theorem InOrder.main (h : InOrder p s) (hc : Counted p s) {m : MainPoint} (hmain : MainMoves p s m) :
    InOrder p { s with main := m } := by
  have hkeep : (m.timed = true → ∀ i, ClientAct.countInit ∉ s.todo i) →
      (∀ i : Fin T, i < m.joined T → s.todo i = []) →
      (m.isSummary = true → p.showStatus = true → s.status.point = .returned) → InOrder p { s with main := m } :=
    fun htimed hjoined hwaited =>
      ⟨fun hor => hor.elim (fun hs => h.started (Or.inl hs)) htimed, h.done, hjoined, hwaited⟩
  cases hmain with
  | launch n hm _ hnext =>
    rcases hnext with rfl | rfl <;>
      exact hkeep (fun ht => by cases ht) (fun i hi => absurd hi (Nat.not_lt_zero i)) (fun hs => by cases hs)
  | start hm hopen =>
    exact hkeep (fun _ => hc.initialised hopen) (fun i hi => absurd hi (Nat.not_lt_zero i)) (fun hs => by cases hs)
  | join n sum hm hn hnil =>
    refine hkeep (fun _ => h.started (Or.inr (by rw [hm]; rfl))) (fun i hi => ?_) (fun hs => by cases hs)
    rcases Nat.lt_succ_iff_lt_or_eq.mp hi with hi | hi
    · exact h.joined i (by rw [hm]; exact hi)
    · obtain rfl : i = ⟨n, hn⟩ := Fin.ext hi
      exact hnil
  | joined n sum hm hn =>
    refine hkeep (fun _ => h.started (Or.inr (by rw [hm]; rfl))) (fun i _ => ?_) (fun hs => by cases hs)
    exact h.joined i (by rw [hm]; exact i.isLt.trans_le hn)
  | summary sum hm hret =>
    refine hkeep (fun _ => h.started (Or.inr (by rw [hm]; rfl))) (fun i _ => ?_) (fun _ => hret)
    exact h.joined i (by rw [hm]; exact i.isLt)

theorem InOrder.step {e : PhaseEvent T} (h : InOrder p s) (hc : Counted p s) (hstep : s.step p e = some t) :
    InOrder p t := by
  cases step_moves hstep with
  | report i elapse spurious r hp hr => exact ⟨h.started, h.done, h.joined, h.waited⟩
  | act i elapse spurious a rest hi hp => exact h.shrink hi elapse
  | status st hshow hst => exact h.status hc (StatusThread.step_moves hst)
  | main _ hmain =>
    obtain ⟨m, hmoves, rfl⟩ := main_moves hmain
    exact h.main hc hmoves

end PhaseRun

/-! ## What is reported -/

def ClientAct.latencies (op : OpType) : ClientAct → List ℕ
  | .report op' latency => if op' = op then [latency] else []
  | _ => []

def ClientAct.oks : ClientAct → ℕ
  | .turn ok => ok.toNat
  | _ => 0

def latenciesOf (op : OpType) (acts : List ClientAct) : List ℕ := acts.flatMap (ClientAct.latencies op)

def oksOf (acts : List ClientAct) : ℕ := (acts.map ClientAct.oks).sum

namespace PhaseCode

variable {T : ℕ} (p : PhaseCode T)

def reports : List (OpType × ℕ) := (List.finRange T).flatMap fun i => (p.ops i).flatMap ClientOp.reports

def reported (op : OpType) : List ℕ := p.reports.filterMap fun r => if r.1 = op then some r.2 else none

def oks (i : Fin T) : ℕ := (p.ops i).countP ClientOp.ok

theorem latenciesOf_acts (op : OpType) (i : Fin T) : latenciesOf op (p.acts i) =
    ((p.ops i).flatMap ClientOp.reports).filterMap fun r => if r.1 = op then some r.2 else none := by
  have hreports : ∀ rs : List (OpType × ℕ), (rs.flatMap fun r => ClientAct.latencies op (.report r.1 r.2)) =
      rs.filterMap fun r => if r.1 = op then some r.2 else none := by
    intro rs
    induction rs with
    | nil => rfl
    | cons r rs ih =>
      rw [List.flatMap_cons, ih]
      by_cases h : r.1 = op <;> simp [h, ClientAct.latencies]
  have hops : latenciesOf op (p.acts i) = latenciesOf op ((p.ops i).flatMap ClientOp.acts) := by
    cases h₁ : p.initDb i <;> cases h₂ : p.cleanupDb i <;>
      simp [acts, clientActs, latenciesOf, ClientAct.latencies, h₁, h₂]
  rw [hops]
  simp [latenciesOf, ClientOp.acts, List.flatMap_assoc, ← hreports, List.flatMap_map, ClientAct.latencies]

theorem oksOf_acts (i : Fin T) : oksOf (p.acts i) = p.oks i := by
  have hops : ∀ os : List ClientOp, oksOf (os.flatMap ClientOp.acts) = os.countP ClientOp.ok := by
    intro os
    induction os with
    | nil => rfl
    | cons o os ih =>
      have hzero : ((o.reports.map fun r => ClientAct.report r.1 r.2).map ClientAct.oks).sum = 0 := by
        simp [Function.comp_def, ClientAct.oks]
      simp only [oksOf] at ih
      simp only [oksOf, List.flatMap_cons, List.map_append, List.sum_append, ih, ClientOp.acts, List.map_cons,
        List.sum_cons, hzero, List.countP_cons]
      cases o.ok <;> simp [ClientAct.oks, Nat.add_comm]
  have hrest : oksOf (p.acts i) = oksOf ((p.ops i).flatMap ClientOp.acts) := by
    cases h₁ : p.initDb i <;> cases h₂ : p.cleanupDb i <;> simp [acts, clientActs, oksOf, ClientAct.oks, h₁, h₂]
  rw [hrest, hops, oks]

theorem sum_latencies (op : OpType) : ∑ i, (latenciesOf op (p.acts i) : Multiset ℕ) = p.reported op := by
  simp only [latenciesOf_acts]
  rw [Fin.sum_univ_def, reported, reports]
  induction List.finRange T with
  | nil => rfl
  | cons i is ih => simp [List.flatMap_cons, List.filterMap_append, ih]

end PhaseCode

namespace PhaseRun

variable {T : ℕ} {p : PhaseCode T} {s t : PhaseRun T}

/-- What has been reported and what the clients have still to report are all reports. -/
structure Reported (p : PhaseCode T) (s : PhaseRun T) : Prop where
  exact : s.reporting.Exact
  latencies : ∀ op, (s.reporting.latencies op : Multiset ℕ) + ∑ i, (latenciesOf op (s.todo i) : Multiset ℕ) =
    p.reported op
  counters : ∀ i, (s.counters i).countOn = true ∧ (s.counters i).skippedOk = 0 ∧
    (s.counters i).oks + oksOf (s.todo i) = p.oks i

theorem Reported.start (hskip : p.secSkip = 0) : Reported p (start p) where
  exact := by
    rw [PhaseRun.start, hskip]
    exact Reporting.Exact.init
  latencies op := by
    have hnil : (PhaseRun.start p).reporting.latencies op = [] := rfl
    rw [hnil, ← p.sum_latencies op]
    exact zero_add _
  counters i := by
    refine ⟨by simp [PhaseRun.start, ClientThread.init, hskip], rfl, ?_⟩
    rw [← p.oksOf_acts]
    exact zero_add _

theorem Reported.step {e : PhaseEvent T} (h : Reported p s) (hstep : s.step p e = some t) : Reported p t := by
  cases step_moves hstep with
  | report i elapse spurious r hp hr =>
    obtain ⟨c, _, rfl⟩ := Option.map_eq_some_iff.mp hr
    exact ⟨h.exact.step hr, h.latencies, h.counters⟩
  | act i elapse spurious a rest hi hp =>
    have hexact : (act p { s with todo := Function.update s.todo i rest } i elapse a).reporting.Exact := by
      cases a with
      | report op latency => exact h.exact.call hp op latency elapse
      | _ => exact h.exact
    refine ⟨hexact, fun op => ?_, ?_⟩
    · have hlat : (act p { s with todo := Function.update s.todo i rest } i elapse a).reporting.latencies op =
          s.reporting.latencies op ++ a.latencies op := by
        cases a with
        | report op' latency => exact s.reporting.latencies_call i op' op latency elapse
        | _ => exact (List.append_nil _).symm
      -- the latency moves from the actions to come into the reports
      have hmove := sum_update_move (fun l => (latenciesOf op l : Multiset ℕ)) s.todo (i := i) (x := rest)
        (m := a.latencies op) (by rw [hi]; rfl)
      rw [hlat, act_todo, ← Multiset.coe_add, add_assoc, hmove]
      exact h.latencies op
    · intro j
      have hj := h.counters j
      rw [act_todo]
      by_cases hji : j = i
      · subst hji
        rw [hi] at hj
        cases a with
        | turn ok =>
          obtain ⟨hon, hskipped, hoks⟩ := hj
          simp only [oksOf, List.map_cons, List.sum_cons, ClientAct.oks] at hoks
          simp only [act, Function.update_self, ClientThread.turn, hon, if_true]
          exact ⟨trivial, hskipped, by rw [← hoks, oksOf]; omega⟩
        | _ => simpa [act, oksOf, ClientAct.oks] using hj
      · have hcounters : (act p { s with todo := Function.update s.todo i rest } i elapse a).counters j =
            s.counters j := by
          cases a with
          | turn ok => exact Function.update_of_ne hji _ _
          | _ => rfl
        rw [hcounters]
        simpa [hji] using hj
  | status st hshow hst => exact ⟨h.exact, h.latencies, h.counters⟩
  | main _ hmain =>
    obtain ⟨m, _, rfl⟩ := main_moves hmain
    exact ⟨h.exact, h.latencies, h.counters⟩

/-! ### The cells -/

theorem Reported.length_le (h : Reported p s) (op : OpType) :
    (s.reporting.latencies op).length ≤ (p.reported op).length := by
  have hcard := congrArg Multiset.card (h.latencies op)
  rw [Multiset.card_add, Multiset.coe_card, Multiset.coe_card] at hcard
  omega

theorem Reported.sum_le (h : Reported p s) (op : OpType) : (s.reporting.latencies op).sum ≤ (p.reported op).sum := by
  have hsum := congrArg Multiset.sum (h.latencies op)
  rw [Multiset.sum_add, Multiset.sum_coe, Multiset.sum_coe] at hsum
  omega

structure Bounded (p : PhaseCode T) : Prop where
  count : ∀ op, (p.reported op).length < 2 ^ 32
  latencySum : ∀ op, (p.reported op).sum < 2 ^ 64

theorem Reported.grows {e : PhaseEvent T} (h : Reported p s) (hb : Bounded p) (hstep : s.step p e = some t)
    (op : OpType) : s.reporting.measurements.count op ≤ t.reporting.measurements.count op ∧
      s.reporting.measurements.latencySum op ≤ t.reporting.measurements.latencySum op := by
  cases step_moves hstep with
  | report i elapse spurious r hp hr =>
    obtain ⟨c, hc, rfl⟩ := Option.map_eq_some_iff.mp hr
    have hsteps := c.next_steps s.reporting.measurements spurious
    have hcount := h.exact.count op
    have hsum := h.exact.sum op
    rw [← Finset.sum_erase_add _ _ (Finset.mem_univ i), hc] at hcount hsum
    exact ⟨hcount.grows ((h.length_le op).trans_lt (hb.count op)) (hsteps.count op),
      hsum.grows ((h.sum_le op).trans_lt (hb.latencySum op)) (hsteps.sum op)⟩
  | act i elapse spurious a rest hi hp =>
    have hcells : (act p { s with todo := Function.update s.todo i rest } i elapse a).reporting.measurements =
        s.reporting.measurements := by
      cases a with
      | report op latency => simp [act, Reporting.call, h.exact.on]
      | _ => rfl
    rw [hcells]
    exact ⟨le_rfl, le_rfl⟩
  | status st hshow hst => exact ⟨le_rfl, le_rfl⟩
  | main _ hmain =>
    obtain ⟨m, _, rfl⟩ := main_moves hmain
    exact ⟨le_rfl, le_rfl⟩

theorem Reported.cell_lt (h : Reported p s) (op : OpType) : s.reporting.measurements.count op < 2 ^ 64 ∧
    s.reporting.measurements.latencySum op < 2 ^ 64 := by
  obtain ⟨c, hc, _⟩ := h.exact.count op
  obtain ⟨d, hd, _⟩ := h.exact.sum op
  constructor
  · rw [hc]
    exact (Nat.mod_lt c (by decide)).trans (by decide)
  · rw [hd]
    exact Nat.mod_lt d (by decide)

/-- The cells when all clients have returned. -/
theorem Reported.settled (h : Reported p s) (hc : Counted p s) (hb : Bounded p) (hnil : ∀ i, s.todo i = [])
    (op : OpType) :
    s.reporting.measurements.count op = (p.reported op).length ∧
    s.reporting.measurements.latencySum op = (p.reported op).sum ∧
    s.reporting.measurements.latencyMin op = (p.reported op).foldr min (2 ^ 64 - 1) ∧
    s.reporting.measurements.latencyMax op = (p.reported op).foldr max 0 := by
  have hidle : ∀ i, s.reporting.pending i = none := fun i => by
    by_contra hi
    exact hc.busy i hi (hnil i)
  have hperm : (s.reporting.latencies op).Perm (p.reported op) := by
    have hlat := h.latencies op
    simp only [hnil] at hlat
    apply Multiset.coe_eq_coe.mp
    rw [← hlat]
    simp [latenciesOf]
  have hcount := h.exact.count op
  have hsum := h.exact.sum op
  simp only [hidle, dueCount, dueSum, Finset.sum_const_zero] at hcount hsum
  rw [hperm.length_eq] at hcount
  rw [hperm.sum_eq] at hsum
  refine ⟨hcount.settled (hb.count op), hsum.settled (hb.latencySum op), ?_, ?_⟩
  · rw [← hperm.foldr_eq]
    refine (h.exact.min op).settled ?_ fun x hx => ?_
    · rintro x ⟨i, hi⟩
      rwa [hidle] at hi
    · have hle := List.le_sum_of_mem (hperm.subset hx)
      have := hb.latencySum op
      omega
  · rw [← hperm.foldr_eq]
    refine (h.exact.max op).settled ?_ fun x _ => Nat.zero_le x
    rintro x ⟨i, hi⟩
    rwa [hidle] at hi

end PhaseRun

/-! ## The messages -/

def StatusPoint.msgs : StatusPoint → List StatusMsg
  | .print _ _ _ msg => [msg]
  | _ => []

/-- The sum of a number that the lines of an operation carry. -/
def periodSum (f : StatusLine → ℕ) (op : OpType) (msgs : List StatusMsg) : ℕ :=
  (((msgs.flatMap StatusMsg.lines).filter fun line => line.op = op).map f).sum

section
variable {f : StatusLine → ℕ} {op : OpType}

theorem periodSum_append (msgs msgs' : List StatusMsg) :
    periodSum f op (msgs ++ msgs') = periodSum f op msgs + periodSum f op msgs' := by
  simp [periodSum]

theorem periodSum_nil (total : ℕ) : periodSum f op [⟨total, []⟩] = 0 := rfl

theorem periodSum_snoc (total total' : ℕ) (lines : List StatusLine) (line : StatusLine) :
    periodSum f op [⟨total, lines ++ [line]⟩] =
      periodSum f op [⟨total', lines⟩] + if line.op = op then f line else 0 := by
  by_cases h : line.op = op <;> simp [periodSum, h]

end

namespace StatusThread

/-- What has been loaded of an operation lies between what was printed last and what the cells hold. -/
def Loaded (m : BasicMeasurements) (t : StatusThread) : Prop :=
  match t.point with
  | .print _ (op :: _) (.sum cnt) _ => t.lastCount op ≤ cnt ∧ cnt ≤ m.count op
  | .print _ (op :: _) (.max cnt sum) _ | .print _ (op :: _) (.min cnt sum _) _ =>
    (t.lastCount op ≤ cnt ∧ cnt ≤ m.count op) ∧ t.lastLatencySum op ≤ sum ∧ sum ≤ m.latencySum op
  | _ => True

/-- The periods that were printed add up to what was printed last. -/
structure Telescoping (m : BasicMeasurements) (t : StatusThread) : Prop where
  seen : ∀ op, t.lastCount op ≤ m.count op ∧ t.lastLatencySum op ≤ m.latencySum op
  loaded : t.Loaded m
  counts : ∀ op, periodSum StatusLine.periodCount op (t.msgs ++ t.point.msgs) = t.lastCount op
  sums : ∀ op, periodSum StatusLine.periodLatencySum op (t.msgs ++ t.point.msgs) = t.lastLatencySum op

variable {m m' : BasicMeasurements} {t t' : StatusThread} {initLatch latch : CountDownLatch}

theorem Loaded.grow (h : t.Loaded m)
    (hm : ∀ op, m.count op ≤ m'.count op ∧ m.latencySum op ≤ m'.latencySum op) : t.Loaded m' := by
  unfold Loaded at *
  split at h
  · exact ⟨h.1, h.2.trans (hm _).1⟩
  · exact ⟨⟨h.1.1, h.1.2.trans (hm _).1⟩, h.2.1, h.2.2.trans (hm _).2⟩
  · exact ⟨⟨h.1.1, h.1.2.trans (hm _).1⟩, h.2.1, h.2.2.trans (hm _).2⟩
  · trivial

theorem Telescoping.grow (h : Telescoping m t)
    (hm : ∀ op, m.count op ≤ m'.count op ∧ m.latencySum op ≤ m'.latencySum op) : Telescoping m' t where
  seen op := ⟨(h.seen op).1.trans (hm op).1, (h.seen op).2.trans (hm op).2⟩
  loaded := h.loaded.grow hm
  counts := h.counts
  sums := h.sums

theorem Telescoping.beginMsg (h : Telescoping m t) (hp : t.point.msgs = []) (done : Bool) :
    Telescoping m { t with point := beginMsg done } := by
  have hkeep : ∀ (f : StatusLine → ℕ) (op : OpType), periodSum f op (t.msgs ++ [⟨0, []⟩]) =
      periodSum f op (t.msgs ++ t.point.msgs) := by
    intro f op
    rw [periodSum_append, periodSum_nil, hp]
    simp
  refine ⟨h.seen, ?_, fun op => ?_, fun op => ?_⟩
  · unfold StatusThread.beginMsg Loaded OpType.all Operation.all
    trivial
  · exact (hkeep _ op).trans (h.counts op)
  · exact (hkeep _ op).trans (h.sums op)

theorem add_u64Sub {a b : ℕ} (hab : a ≤ b) (hb : b < 2 ^ 64) : a + u64Sub b a = b := by
  rw [u64Sub_of_le hab hb, Nat.add_sub_cancel' hab]

theorem Telescoping.load (h : Telescoping m t) (hlt : ∀ op, m.count op < 2 ^ 64 ∧ m.latencySum op < 2 ^ 64)
    {done : Bool} {op : OpType} {ops : List OpType} {point : LinePoint} {msg : StatusMsg}
    (hp : t.point = .print done (op :: ops) point msg) : Telescoping m (t.load m done op ops msg point) := by
  have hloaded := h.loaded
  have hcounts := h.counts
  have hsums := h.sums
  unfold Loaded at hloaded
  rw [hp] at hloaded hcounts hsums
  cases point with
  | count => exact ⟨h.seen, ⟨(h.seen op).1, le_rfl⟩, hcounts, hsums⟩
  | sum cnt =>
    simp only [StatusThread.load]
    split
    · refine ⟨h.seen, ?_, hcounts, hsums⟩
      unfold Loaded
      cases ops <;> trivial
    · exact ⟨h.seen, ⟨hloaded, (h.seen op).2, le_rfl⟩, hcounts, hsums⟩
  | max cnt sum => exact ⟨h.seen, hloaded, hcounts, hsums⟩
  | min cnt sum max =>
    obtain ⟨⟨hlast, hcnt⟩, hlastSum, hsum⟩ := hloaded
    -- what was printed before and the line of this period make up the count
    have hperiod := add_u64Sub hlast (hcnt.trans_lt (hlt op).1)
    have hperiodSum := add_u64Sub hlastSum (hsum.trans_lt (hlt op).2)
    have hsnoc : ∀ (f : StatusLine → ℕ) (op' : OpType),
        periodSum f op'
            (t.msgs ++ [⟨u64 (msg.totalCount + cnt), msg.lines ++ [t.line op cnt sum max (m.latencyMin op)]⟩]) =
          periodSum f op' (t.msgs ++ [msg]) + if op = op' then f (t.line op cnt sum max (m.latencyMin op)) else 0 := by
      intro f op'
      rw [periodSum_append, periodSum_append, periodSum_snoc _ msg.totalCount, ← Nat.add_assoc]
      rfl
    refine ⟨fun op' => ?_, ?_, fun op' => ?_, fun op' => ?_⟩
    · by_cases hop : op' = op
      · subst hop
        simpa [StatusThread.load] using And.intro hcnt hsum
      · simpa [StatusThread.load, hop] using h.seen op'
    · unfold Loaded StatusThread.load
      cases ops <;> trivial
    · refine (hsnoc StatusLine.periodCount op').trans ?_
      rw [show periodSum StatusLine.periodCount op' (t.msgs ++ [msg]) = t.lastCount op' from hcounts op']
      by_cases hop : op = op'
      · subst hop
        simpa [StatusThread.load, line] using hperiod
      · simp [StatusThread.load, hop, Ne.symm hop]
    · refine (hsnoc StatusLine.periodLatencySum op').trans ?_
      rw [show periodSum StatusLine.periodLatencySum op' (t.msgs ++ [msg]) = t.lastLatencySum op' from hsums op']
      by_cases hop : op = op'
      · subst hop
        simpa [StatusThread.load, line] using hperiodSum
      · simp [StatusThread.load, hop, Ne.symm hop]

theorem Telescoping.step (h : Telescoping m t) (hlt : ∀ op, m.count op < 2 ^ 64 ∧ m.latencySum op < 2 ^ 64)
    (hmoves : Moves initLatch latch m t t') : Telescoping m t' := by
  cases hmoves with
  | start hp _ => exact h.beginMsg (by rw [hp]; rfl) false
  | load done op ops point msg hp => exact h.load hlt hp
  | message done point msg hp =>
    have hnone : (if done then StatusPoint.returned else .wait).msgs = [] := by cases done <;> rfl
    have hmsgs : ∀ f op, periodSum f op (t.msgs ++ [msg] ++ (if done then StatusPoint.returned else .wait).msgs) =
        periodSum f op (t.msgs ++ t.point.msgs) := by
      intro f op
      rw [hnone, hp, List.append_nil]
      rfl
    refine ⟨h.seen, ?_, fun op => (hmsgs _ op).trans (h.counts op), fun op => (hmsgs _ op).trans (h.sums op)⟩
    unfold Loaded
    cases done <;> trivial
  | wake done hp _ => exact h.beginMsg (by rw [hp]; rfl) done

/-! ### The last message -/

end StatusThread

def LinePoint.Loaded (m : BasicMeasurements) (op : OpType) : LinePoint → Prop
  | .count => True
  | .sum cnt => cnt = m.count op
  | .max cnt total => cnt = m.count op ∧ cnt ≠ 0 ∧ total = m.latencySum op
  | .min cnt total largest => (cnt = m.count op ∧ cnt ≠ 0 ∧ total = m.latencySum op) ∧ largest = m.latencyMax op

def StatusLine.emitted (line : StatusLine) : EmitLine := ⟨line.op, line.count, line.max, line.min, line.latencySum⟩

namespace StatusThread

variable {m : BasicMeasurements} {t t' : StatusThread} {initLatch latch : CountDownLatch}

/-- A message tells of the operations `past` what the cells hold. -/
structure Telling (m : BasicMeasurements) (t : StatusThread) (past : List OpType) (msg : StatusMsg) : Prop where
  total : msg.totalCount = u64 (past.map m.count).sum
  lines : msg.lines.map StatusLine.emitted = past.foldl m.emitStep []
  last : ∀ op ∈ past, t.lastCount op = m.count op ∧ t.lastLatencySum op = m.latencySum op

def Final (m : BasicMeasurements) (t : StatusThread) : Prop :=
  match t.point with
  | .print true ops point msg => ∃ past, past ++ ops = OpType.all ∧ Telling m t past msg ∧
      ∀ op ∈ ops.head?, point.Loaded m op
  | .returned => ∃ msgs msg, t.msgs = msgs ++ [msg] ∧ Telling m t OpType.all msg
  | _ => True

theorem Telling.snoc_zero {past : List OpType} {msg : StatusMsg} (h : Telling m t past msg) {op : OpType}
    (hseen : t.lastCount op ≤ m.count op ∧ t.lastLatencySum op ≤ m.latencySum op)
    (hcnt : m.count op = 0) (hsum : m.latencySum op = 0) : Telling m t (past ++ [op]) msg where
  total := by simpa [hcnt] using h.total
  lines := by simpa [BasicMeasurements.emitStep, hcnt] using h.lines
  last op' hop' := by
    rcases List.mem_append.mp hop' with hop' | hop'
    · exact h.last op' hop'
    · obtain rfl := List.mem_singleton.mp hop'
      omega

theorem Telling.snoc_line {past : List OpType} {msg : StatusMsg} (h : Telling m t past msg) {op : OpType}
    (hcnt : m.count op ≠ 0) (point : StatusPoint) : Telling m
      { msgs := t.msgs
        point := point
        lastLatencySum := Function.update t.lastLatencySum op (m.latencySum op)
        lastCount := Function.update t.lastCount op (m.count op) } (past ++ [op])
      ⟨u64 (msg.totalCount + m.count op),
        msg.lines ++ [t.line op (m.count op) (m.latencySum op) (m.latencyMax op) (m.latencyMin op)]⟩ where
  total := by simp [h.total, u64]
  lines := by simp [h.lines, BasicMeasurements.emitStep, hcnt, line, StatusLine.emitted]
  last op' hop' := by
    by_cases hop : op' = op
    · subst hop
      simp
    · simpa [hop] using h.last op' ((List.mem_append.mp hop').resolve_right (by simpa using hop))

theorem Final.step (h : Final m t) (ht : Telescoping m t)
    (hzero : t.point.done = true → ∀ op, m.count op = 0 → m.latencySum op = 0)
    (hmoves : Moves initLatch latch m t t') : Final m t' := by
  unfold Final at h
  cases hmoves with
  | start hp _ => trivial
  | load done op ops point msg hp =>
    rw [hp] at h
    cases done with
    | false =>
      cases point with
      | sum cnt =>
        unfold StatusThread.load
        dsimp only
        split <;> trivial
      | _ => trivial
    | true =>
      obtain ⟨past, hall, htelling, hloaded⟩ := h
      have hp' := hloaded op rfl
      cases point with
      | count => exact ⟨past, hall, ⟨htelling.total, htelling.lines, htelling.last⟩, fun op' hop' => by cases hop'; rfl⟩
      | sum cnt =>
        -- every client has returned, so the count that was loaded is final
        obtain rfl : cnt = m.count op := hp'
        unfold StatusThread.load
        dsimp only
        split
        · rename_i hcnt
          have hsnoc := htelling.snoc_zero (ht.seen op) hcnt (hzero (by rw [hp]; rfl) op hcnt)
          exact ⟨past ++ [op], by simpa using hall, ⟨hsnoc.total, hsnoc.lines, hsnoc.last⟩, fun _ _ => trivial⟩
        · rename_i hcnt
          exact ⟨past, hall, ⟨htelling.total, htelling.lines, htelling.last⟩,
            fun op' hop' => by cases hop'; exact ⟨rfl, hcnt, rfl⟩⟩
      | max cnt sum =>
        exact ⟨past, hall, ⟨htelling.total, htelling.lines, htelling.last⟩,
          fun op' hop' => by cases hop'; exact ⟨hp', rfl⟩⟩
      | min cnt sum max =>
        obtain ⟨⟨rfl, hcnt, rfl⟩, rfl⟩ := hp'
        exact ⟨past ++ [op], by simpa using hall, htelling.snoc_line hcnt _, fun _ _ => trivial⟩
  | message done point msg hp =>
    rw [hp] at h
    cases done with
    | false => trivial
    | true =>
      obtain ⟨past, hall, htelling, _⟩ := h
      -- the message is complete when it has met every operation
      obtain rfl : past = OpType.all := by simpa using hall
      exact ⟨t.msgs, msg, rfl, ⟨htelling.total, htelling.lines, htelling.last⟩⟩
  | wake done hp _ =>
    cases done with
    | false => trivial
    | true => exact ⟨[], rfl, ⟨rfl, rfl, fun op hop => by cases hop⟩, fun _ _ => trivial⟩

end StatusThread

/-! ## The whole phase -/

namespace PhaseCode

variable {T : ℕ} (p : PhaseCode T)

def emitLine (op : OpType) : EmitLine where
  op := op
  count := (p.reported op).length
  max := (p.reported op).foldr max 0
  min := (p.reported op).foldr min (2 ^ 64 - 1)
  latencySum := (p.reported op).sum

/-- The operations that were reported, with the aggregates of their reports. -/
def summary : List EmitLine := (OpType.all.filter fun op => p.reported op ≠ []).map p.emitLine

end PhaseCode

namespace PhaseRun

variable {T : ℕ} {p : PhaseCode T} {s t : PhaseRun T}

def Summed (p : PhaseCode T) (s : PhaseRun T) : Prop :=
  match s.main with
  | .join n sum => sum = ∑ i : Fin T, if i < n then (p.oks i : ℤ) else 0
  | .waitStatus sum => sum = ∑ i, (p.oks i : ℤ)
  | .summary sum node => sum = ∑ i, (p.oks i : ℤ) ∧ node = s.reporting.measurements.emit
  | _ => True

structure Inv (p : PhaseCode T) (s : PhaseRun T) : Prop where
  counted : Counted p s
  inOrder : InOrder p s
  reported : Reported p s
  telescoping : StatusThread.Telescoping s.reporting.measurements s.status
  final : StatusThread.Final s.reporting.measurements s.status
  summed : Summed p s

theorem Inv.start (hskip : p.secSkip = 0) : Inv p (start p) where
  counted := .start
  inOrder := .start
  reported := .start hskip
  telescoping := ⟨fun _ => ⟨le_rfl, le_rfl⟩, trivial, fun _ => rfl, fun _ => rfl⟩
  final := trivial
  summed := trivial

theorem Reported.result (h : Reported p s) {i : Fin T} (hi : s.todo i = []) : s.result i = p.oks i := by
  obtain ⟨_, hskipped, hoks⟩ := h.counters i
  rw [hi] at hoks
  rw [PhaseRun.result, hskipped, ← hoks]
  simp [oksOf]

/-- A client that can move has not returned, so nothing is final yet. -/
theorem Inv.client (h : Inv p s) (hb : Bounded p) {i : Fin T} {elapse : ℤ} {spurious : Bool} {t : PhaseRun T}
    (hstep : s.step p (.client i elapse spurious) = some t) (hi : s.todo i ≠ []) (hstatus : t.status = s.status)
    (hmain : t.main = s.main) : Inv p t := by
  have hnotDone : s.status.point.done ≠ true := fun hd => hi (h.inOrder.done hd i)
  have hnotSummary : s.main.isSummary ≠ true := by
    intro hsum
    apply hi
    apply h.inOrder.joined i
    cases hm : s.main with
    | summary sum node => exact i.isLt
    | _ => rw [hm] at hsum; cases hsum
  refine ⟨h.counted.step hstep, h.inOrder.step h.counted hstep, h.reported.step hstep, ?_, ?_, ?_⟩
  · rw [hstatus]
    exact h.telescoping.grow (h.reported.grows hb hstep)
  · rw [hstatus]
    unfold StatusThread.Final
    split
    · rename_i hp
      exact absurd (by rw [hp]; rfl) hnotDone
    · rename_i hp
      exact absurd (by rw [hp]; rfl) hnotDone
    · trivial
  · have hsummed := h.summed
    unfold Summed at hsummed ⊢
    rw [hmain]
    cases hm : s.main with
    | summary sum node => exact absurd (by rw [hm]; rfl) hnotSummary
    | _ => rwa [hm] at hsummed

theorem sum_below_succ (f : Fin T → ℤ) {n : ℕ} (hn : n < T) :
    (∑ i : Fin T, if i < n + 1 then f i else 0) = (∑ i : Fin T, if i < n then f i else 0) + f ⟨n, hn⟩ := by
  have hsplit : ∀ i : Fin T, (if (i : ℕ) < n + 1 then f i else 0) =
      (if (i : ℕ) < n then f i else 0) + if i = ⟨n, hn⟩ then f i else 0 := by
    intro i
    rcases Nat.lt_trichotomy i n with hlt | heq | hgt
    · have hne : i ≠ ⟨n, hn⟩ := fun heq => by rw [heq] at hlt; exact absurd hlt (Nat.lt_irrefl n)
      simp [hlt, hne, Nat.lt_succ_of_lt hlt]
    · obtain rfl : i = ⟨n, hn⟩ := Fin.ext heq
      simp
    · have hne : i ≠ ⟨n, hn⟩ := fun heq => by rw [heq] at hgt; exact absurd hgt (Nat.lt_irrefl n)
      simp [hne, Nat.not_lt.mpr hgt.le, Nat.not_lt.mpr (Nat.succ_le_of_lt hgt)]
  rw [Finset.sum_congr rfl fun i _ => hsplit i, Finset.sum_add_distrib]
  simp

theorem Inv.main (h : Inv p s) {m : MainPoint} (hmain : MainMoves p s m) : Summed p { s with main := m } := by
  have hsummed := h.summed
  unfold Summed at hsummed
  cases hmain with
  | launch n hm _ hnext => rcases hnext with rfl | rfl <;> trivial
  | start hm hopen => simp [Summed]
  | join n sum hm hn hnil =>
    rw [hm] at hsummed
    dsimp only [Summed]
    rw [sum_below_succ _ hn, ← hsummed, h.reported.result hnil]
  | joined n sum hm hn =>
    rw [hm] at hsummed
    dsimp only [Summed]
    rw [show sum = _ from hsummed]
    exact Finset.sum_congr rfl fun i _ => if_pos (i.isLt.trans_le hn)
  | summary sum hm hret =>
    rw [hm] at hsummed
    exact ⟨hsummed, rfl⟩

theorem Inv.step {e : PhaseEvent T} (h : Inv p s) (hb : Bounded p) (hstep : s.step p e = some t) : Inv p t := by
  cases step_moves hstep with
  | report i elapse spurious r hp hr => exact h.client hb hstep (h.counted.busy i hp) rfl rfl
  | act i elapse spurious a rest hi hp =>
    exact h.client hb hstep (by rw [hi]; exact List.cons_ne_nil a rest) (act_status _ _ _ _) (act_main _ _ _ _)
  | status st hshow hst =>
    have hmoves := StatusThread.step_moves hst
    refine ⟨h.counted.step hstep, h.inOrder.step h.counted hstep, h.reported.step hstep,
      h.telescoping.step h.reported.cell_lt hmoves, h.final.step h.telescoping (fun hd op hcnt => ?_) hmoves, h.summed⟩
    obtain ⟨hcount, hsum, _⟩ := h.reported.settled h.counted hb (h.inOrder.done hd) op
    rw [hcount] at hcnt
    rw [hsum, List.eq_nil_of_length_eq_zero hcnt]
    rfl
  | main _ hmain =>
    obtain ⟨m, hmoves, rfl⟩ := main_moves hmain
    exact ⟨h.counted.step hstep, h.inOrder.step h.counted hstep, h.reported.step hstep, h.telescoping, h.final,
      h.main hmoves⟩

theorem run_inv_phase {es : List (PhaseEvent T)} {u : PhaseRun T} (hskip : p.secSkip = 0) (hb : Bounded p)
    (hrun : run (step p) (start p) es = some u) : Inv p u :=
  run_inv (step p) (fun _ _ _ h hstep => Inv.step h hb hstep) (Inv.start hskip) hrun

/-! ### What the cells tell -/

theorem foldl_emitStep (m : BasicMeasurements) : ∀ (ops : List OpType) (node : List EmitLine),
    ops.foldl m.emitStep node = node ++ (ops.filter fun op => m.count op ≠ 0).map fun op =>
      { op, count := m.count op, max := m.latencyMax op, min := m.latencyMin op, latencySum := m.latencySum op }
  | [], node => by simp
  | op :: ops, node => by
    rw [List.foldl_cons, foldl_emitStep m ops]
    by_cases hcnt : m.count op = 0 <;> simp [BasicMeasurements.emitStep, hcnt]

theorem Inv.emit (h : Inv p s) (hb : Bounded p) (hnil : ∀ i, s.todo i = []) :
    s.reporting.measurements.emit = p.summary := by
  have hcells := h.reported.settled h.counted hb hnil
  rw [BasicMeasurements.emit, foldl_emitStep, List.nil_append, PhaseCode.summary]
  have hfilter : ∀ op, decide (s.reporting.measurements.count op ≠ 0) = decide (p.reported op ≠ []) := by
    intro op
    rw [(hcells op).1]
    exact decide_eq_decide.mpr (not_congr List.length_eq_zero_iff)
  simp only [hfilter]
  apply List.map_congr_left
  intro op _
  obtain ⟨hcount, hsum, hmin, hmax⟩ := hcells op
  rw [hcount, hsum, hmin, hmax, PhaseCode.emitLine]

theorem sum_reported (p : PhaseCode T) : (OpType.all.map fun op => (p.reported op).length).sum = p.reports.length := by
  unfold PhaseCode.reported
  induction p.reports with
  | nil => rfl
  | cons r rs ih =>
    obtain ⟨op, latency⟩ := r
    have hone : (OpType.all.map fun op' => if op = op' then 1 else 0).sum = 1 := by
      cases op with
      | done op => cases op <;> rfl
      | failed op => cases op <;> rfl
    have hlen : ∀ op', (((op, latency) :: rs).filterMap fun r => if r.1 = op' then some r.2 else none).length =
        (rs.filterMap fun r => if r.1 = op' then some r.2 else none).length + if op = op' then 1 else 0 := by
      intro op'
      by_cases hop : op = op' <;> simp [hop]
    simp only [hlen, List.sum_map_add, ih, hone, List.length_cons]

theorem Inv.total (h : Inv p s) (hb : Bounded p) (hnil : ∀ i, s.todo i = []) :
    u64 (OpType.all.map s.reporting.measurements.count).sum = p.reports.length := by
  have hcells : OpType.all.map s.reporting.measurements.count = OpType.all.map fun op => (p.reported op).length :=
    List.map_congr_left fun op _ => (h.reported.settled h.counted hb hnil op).1
  have hle : (OpType.all.map fun op => (p.reported op).length).sum ≤ OpType.all.length * 2 ^ 32 := by
    have hcard := List.sum_le_card_nsmul (OpType.all.map fun op => (p.reported op).length) (2 ^ 32) fun n hn => by
      obtain ⟨op, _, rfl⟩ := List.mem_map.mp hn
      exact (hb.count op).le
    simpa using hcard
  have hall : OpType.all.length = 14 := rfl
  rw [hcells, ← sum_reported, u64, Nat.mod_eq_of_lt]
  omega

/-- The status thread prints nothing before every client has initialised. Its last message tells
what all clients have reported, and the periods of all messages add up to it. -/
theorem status_tells_all (hskip : p.secSkip = 0) (hb : Bounded p) {es : List (PhaseEvent T)} {u : PhaseRun T}
    (hrun : run (step p) (start p) es = some u) :
    (u.status.point.started = true → ∀ i, ClientAct.countInit ∉ u.todo i) ∧
    (u.status.point = .returned → (∀ i, u.todo i = []) ∧
      (∃ msgs msg, u.status.msgs = msgs ++ [msg] ∧ msg.lines.map StatusLine.emitted = p.summary ∧
        msg.totalCount = p.reports.length) ∧
      ∀ op, periodSum StatusLine.periodCount op u.status.msgs = (p.reported op).length ∧
        periodSum StatusLine.periodLatencySum op u.status.msgs = (p.reported op).sum) := by
  have h := run_inv_phase hskip hb hrun
  refine ⟨fun hs => h.inOrder.started (Or.inl hs), fun hret => ?_⟩
  have hnil : ∀ i, u.todo i = [] := h.inOrder.done (by rw [hret]; rfl)
  have hfinal := h.final
  unfold StatusThread.Final at hfinal
  rw [hret] at hfinal
  obtain ⟨msgs, msg, hmsgs, htelling⟩ := hfinal
  refine ⟨hnil, ⟨msgs, msg, hmsgs, ?_, ?_⟩, fun op => ?_⟩
  · rw [htelling.lines, ← h.emit hb hnil]
    rfl
  · rw [htelling.total, h.total hb hnil]
  · obtain ⟨hcount, hsum, _⟩ := h.reported.settled h.counted hb hnil op
    obtain ⟨hlast, hlastSum⟩ := htelling.last op (StatusMeasurements.mem_all op)
    have hcounts := h.telescoping.counts op
    have hsums := h.telescoping.sums op
    have hnone : u.status.point.msgs = [] := by rw [hret]; rfl
    rw [hnone, List.append_nil] at hcounts hsums
    exact ⟨by rw [hcounts, hlast, hcount], by rw [hsums, hlastSum, hsum]⟩

/-- One client that inserts once, under a status thread that is first woken when the client has returned. -/
def oneInsert : PhaseCode 1 where
  secSkip := 0
  showStatus := true
  interval := 1
  intervalUs := 0
  initDb _ := true
  cleanupDb _ := true
  ops _ := [⟨true, [(.done .insert, 5)]⟩]

def oneInsertEvents : List (PhaseEvent 1) :=
  List.replicate 2 .main ++ List.replicate 12 (.client ⟨0, Nat.one_pos⟩ 0 false) ++ List.replicate 64 .status ++ List.replicate 4 .main

theorem bounded_oneInsert : Bounded oneInsert where
  count op := (List.length_filterMap_le _ _).trans_lt (by decide)
  latencySum op := by
    by_cases hop : (OpType.done .insert) = op <;>
      simp [PhaseCode.reported, PhaseCode.reports, oneInsert, List.finRange, hop]

theorem status_tells_all_one : ∃ u, run (step oneInsert) (start oneInsert) oneInsertEvents = some u ∧
    ∃ msgs msg, u.status.msgs = msgs ++ [msg] ∧ msg.lines.map StatusLine.emitted = oneInsert.summary ∧
      msg.totalCount = oneInsert.reports.length := by
  have hrun : ∃ u, run (step oneInsert) (start oneInsert) oneInsertEvents = some u ∧ u.status.point = .returned :=
    ⟨_, rfl, rfl⟩
  obtain ⟨u, hrun, hret⟩ := hrun
  exact ⟨u, hrun, ((status_tells_all rfl bounded_oneInsert hrun).2 hret).2.1⟩

/-- `main` starts its timer when every client has initialised. What it adds up and emits at the end
are the operations that succeeded and the aggregates of all reports. -/
theorem summary_tells_all (hskip : p.secSkip = 0) (hb : Bounded p) {es : List (PhaseEvent T)} {u : PhaseRun T}
    (hrun : run (step p) (start p) es = some u) :
    (u.main.timed = true → ∀ i, ClientAct.countInit ∉ u.todo i) ∧
    ∀ sum node, u.main = .summary sum node →
      (∀ i, u.todo i = []) ∧ (p.showStatus = true → u.status.point = .returned) ∧
      sum = ∑ i, (p.oks i : ℤ) ∧ node = p.summary := by
  have h := run_inv_phase hskip hb hrun
  refine ⟨fun hs => h.inOrder.started (Or.inr hs), fun sum node hm => ?_⟩
  have hnil : ∀ i, u.todo i = [] := fun i => h.inOrder.joined i (by rw [hm]; exact i.isLt)
  have hsummed := h.summed
  unfold Summed at hsummed
  rw [hm] at hsummed
  exact ⟨hnil, h.inOrder.waited (by rw [hm]; rfl), hsummed.1, hsummed.2.trans (h.emit hb hnil)⟩

theorem summary_tells_all_one : ∃ u, run (step oneInsert) (start oneInsert) oneInsertEvents = some u ∧
    ∃ node, u.main = .summary 1 node ∧ node = oneInsert.summary := by
  have hrun : ∃ u node, run (step oneInsert) (start oneInsert) oneInsertEvents = some u ∧ u.main = .summary 1 node :=
    ⟨_, _, rfl, rfl⟩
  obtain ⟨u, node, hrun, hm⟩ := hrun
  exact ⟨u, hrun, node, hm, ((summary_tells_all rfl bounded_oneInsert hrun).2 1 node hm).2.2.2⟩

end PhaseRun

end Ycsb
