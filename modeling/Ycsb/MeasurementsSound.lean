import Mathlib.Algebra.Order.BigOperators.Group.List
import Ycsb.Lib.Aggregate
import Ycsb.Lib.Threads
import Ycsb.Measurements

/-!
# `BasicMeasurements` aggregates exactly

What a thread has still to book is due. The exact aggregates are what the cells
hold and what is due together, so they are in the cells when no call is pending.
-/

namespace Ycsb

open Lib

/-! ## What is due -/

def dueCount (op : OpType) : Option ReportCall → ℕ
  | some ⟨op', _, .addCount⟩ => if op' = op then 1 else 0
  | _ => 0

def dueSum (op : OpType) : Option ReportCall → ℕ
  | some ⟨op', latency, .addCount⟩ | some ⟨op', latency, .addSum⟩ => if op' = op then latency else 0
  | _ => 0

/-- A call that may yet lower the minimum of `op` to `latency`. -/
def dueMin (op : OpType) (latency : ℕ) : Option ReportCall → Prop
  | some ⟨_, _, .loadMax⟩ | some ⟨_, _, .casMax _⟩ | none => False
  | some ⟨op', latency', _⟩ => op' = op ∧ latency' = latency

def dueMax (op : OpType) (latency : ℕ) : Option ReportCall → Prop
  | none => False
  | some ⟨op', latency', _⟩ => op' = op ∧ latency' = latency

/-- What a loop expects bounds what its cell holds. -/
def Expects (m : BasicMeasurements) : Option ReportCall → Prop
  | some ⟨op, _, .casMin prevMin⟩ => m.latencyMin op ≤ prevMin
  | some ⟨op, _, .casMax prevMax⟩ => prevMax ≤ m.latencyMax op
  | _ => True

def Seen (latencies : OpType → List ℕ) (p : Option ReportCall) : Prop :=
  ∀ r, p = some r → r.latency ∈ latencies r.op

/-! ## One step of a call -/

/-- What a step of a call can do to the measurements, and to the call. -/
inductive Steps (op : OpType) (latency : ℕ) (m : BasicMeasurements) :
    ReportPoint → BasicMeasurements × Option ReportCall → Prop where
  | addCount : Steps op latency m .addCount
      ({ m with count := Function.update m.count op ((m.count op + 1) % 2 ^ 32) }, some ⟨op, latency, .addSum⟩)
  | addSum : Steps op latency m .addSum
      ({ m with latencySum := Function.update m.latencySum op ((m.latencySum op + latency) % 2 ^ 64) },
        some ⟨op, latency, .loadMin⟩)
  | loadMin : Steps op latency m .loadMin (m, some ⟨op, latency, .casMin (m.latencyMin op)⟩)
  | lower (h : latency < m.latencyMin op) : Steps op latency m (.casMin (m.latencyMin op))
      ({ m with latencyMin := Function.update m.latencyMin op latency }, some ⟨op, latency, .loadMax⟩)
  | retryMin (prevMin : ℕ) :
      Steps op latency m (.casMin prevMin) (m, some ⟨op, latency, .casMin (m.latencyMin op)⟩)
  | keepMin (prevMin : ℕ) (h : prevMin ≤ latency) :
      Steps op latency m (.casMin prevMin) (m, some ⟨op, latency, .loadMax⟩)
  | loadMax : Steps op latency m .loadMax (m, some ⟨op, latency, .casMax (m.latencyMax op)⟩)
  | raise (h : m.latencyMax op < latency) : Steps op latency m (.casMax (m.latencyMax op))
      ({ m with latencyMax := Function.update m.latencyMax op latency }, none)
  | retryMax (prevMax : ℕ) :
      Steps op latency m (.casMax prevMax) (m, some ⟨op, latency, .casMax (m.latencyMax op)⟩)
  | keepMax (prevMax : ℕ) (h : latency ≤ prevMax) : Steps op latency m (.casMax prevMax) (m, none)

theorem ReportCall.next_steps (r : ReportCall) (m : BasicMeasurements) (spurious : Bool) :
    Steps r.op r.latency m r.point (r.next m spurious) := by
  obtain ⟨op, latency, point⟩ := r
  cases point with
  | addCount => exact .addCount
  | addSum => exact .addSum
  | loadMin => exact .loadMin
  | loadMax => exact .loadMax
  | casMin prevMin =>
    simp only [next]
    split
    · rename_i hlt
      split
      · rename_i heq
        obtain ⟨rfl, _⟩ := heq
        exact .lower hlt
      · exact .retryMin prevMin
    · exact .keepMin prevMin (by omega)
  | casMax prevMax =>
    simp only [next]
    split
    · rename_i hlt
      split
      · rename_i heq
        obtain ⟨rfl, _⟩ := heq
        exact .raise hlt
      · exact .retryMax prevMax
    · exact .keepMax prevMax (by omega)

namespace Steps

variable {op : OpType} {latency : ℕ} {m : BasicMeasurements} {point : ReportPoint}
  {t : BasicMeasurements × Option ReportCall}

theorem reportOn (h : Steps op latency m point t) : t.1.reportOn = m.reportOn := by
  cases h <;> rfl

theorem same (h : Steps op latency m point t) : ∀ r, t.2 = some r → r.op = op ∧ r.latency = latency := by
  intro r hr
  cases h <;> cases hr <;> exact ⟨rfl, rfl⟩

theorem count (h : Steps op latency m point t) (op' : OpType) :
    Pays (2 ^ 32) (m.count op') (t.1.count op') (dueCount op' (some ⟨op, latency, point⟩)) (dueCount op' t.2) := by
  cases h with
  | addCount =>
    by_cases hop : op = op'
    · subst hop
      exact Or.inr ⟨1, by simp [dueCount], by simp⟩
    · exact Or.inl ⟨by simp [dueCount, hop], by simp [Ne.symm hop]⟩
  | _ => exact Or.inl ⟨rfl, rfl⟩

theorem sum (h : Steps op latency m point t) (op' : OpType) :
    Pays (2 ^ 64) (m.latencySum op') (t.1.latencySum op') (dueSum op' (some ⟨op, latency, point⟩)) (dueSum op' t.2) := by
  cases h with
  | addSum =>
    by_cases hop : op = op'
    · subst hop
      exact Or.inr ⟨latency, by simp [dueSum], by simp⟩
    · exact Or.inl ⟨by simp [dueSum, hop], by simp [Ne.symm hop]⟩
  | _ => exact Or.inl ⟨rfl, rfl⟩

theorem min_le (h : Steps op latency m point t) (op' : OpType) : t.1.latencyMin op' = m.latencyMin op' ∨
    t.1.latencyMin op' ≤ m.latencyMin op' ∧ op = op' ∧ t.1.latencyMin op' = latency := by
  cases h with
  | lower h =>
    by_cases hop : op = op'
    · subst hop
      exact Or.inr ⟨by simp [h.le], rfl, by simp⟩
    · exact Or.inl (by simp [Ne.symm hop])
  | _ => exact Or.inl rfl

theorem le_max (h : Steps op latency m point t) (op' : OpType) : t.1.latencyMax op' = m.latencyMax op' ∨
    m.latencyMax op' ≤ t.1.latencyMax op' ∧ op = op' ∧ t.1.latencyMax op' = latency := by
  cases h with
  | raise h =>
    by_cases hop : op = op'
    · subst hop
      exact Or.inr ⟨by simp [h.le], rfl, by simp⟩
    · exact Or.inl (by simp [Ne.symm hop])
  | _ => exact Or.inl rfl

theorem min_due (h : Steps op latency m point t) (he : Expects m (some ⟨op, latency, point⟩)) {op' : OpType} {x : ℕ}
    (hdue : dueMin op' x (some ⟨op, latency, point⟩)) : t.1.latencyMin op' ≤ x ∨ dueMin op' x t.2 := by
  cases h with
  | lower h =>
    obtain ⟨rfl, rfl⟩ := hdue
    exact Or.inl (by simp)
  | keepMin prevMin h =>
    obtain ⟨rfl, rfl⟩ := hdue
    exact Or.inl (he.trans h)
  | addCount | addSum | loadMin | retryMin => exact Or.inr hdue
  | _ => cases hdue

theorem max_due (h : Steps op latency m point t) (he : Expects m (some ⟨op, latency, point⟩)) {op' : OpType} {x : ℕ}
    (hdue : dueMax op' x (some ⟨op, latency, point⟩)) : x ≤ t.1.latencyMax op' ∨ dueMax op' x t.2 := by
  obtain ⟨rfl, rfl⟩ := hdue
  cases h with
  | raise h => exact Or.inl (by simp)
  | keepMax prevMax h => exact Or.inl (h.trans he)
  | _ => exact Or.inr ⟨rfl, rfl⟩

theorem expects (h : Steps op latency m point t) : Expects t.1 t.2 := by
  cases h with
  | loadMin | retryMin | loadMax | retryMax => exact le_rfl
  | _ => trivial

end Steps

theorem Expects.mono {m m' : BasicMeasurements} {p : Option ReportCall} (h : Expects m p)
    (hmin : ∀ op, m'.latencyMin op ≤ m.latencyMin op) (hmax : ∀ op, m.latencyMax op ≤ m'.latencyMax op) :
    Expects m' p := by
  unfold Expects at *
  split at h
  · exact (hmin _).trans h
  · exact h.trans (hmax _)
  · trivial

/-! ## All threads -/

namespace Reporting

section
variable {ι : Type} [DecidableEq ι]

def latencies (s : Reporting ι) (op : OpType) : List ℕ :=
  s.reports.filterMap fun r => if r.1 = op then some r.2 else none

theorem latencies_call (s : Reporting ι) (i : ι) (op op' : OpType) (latency : ℕ) (elapse : ℤ) :
    (s.call i op latency elapse).latencies op' = s.latencies op' ++ (if op = op' then [latency] else []) := by
  have hreports : (s.call i op latency elapse).reports = s.reports ++ [(op, latency)] := by
    unfold call
    dsimp only
    split <;> rfl
  rw [latencies, hreports, List.filterMap_append]
  by_cases hop : op = op' <;> simp [latencies, hop]

theorem run_latencies (op : OpType) : ∀ {events : List (ReportEvent ι)} {s t : Reporting ι},
    run step s events = some t → t.latencies op = s.latencies op ++ reported op events
  | [], s, t, h => by
    cases h
    simp [reported]
  | e :: events, s, t, h => by
    obtain ⟨u, hu, hrun⟩ := (run_cons_some step).mp h
    rw [run_latencies op hrun]
    cases e with
    | call i op' latency elapse =>
      simp only [step, Option.ite_none_right_eq_some, Option.some.injEq] at hu
      rw [← hu.2, latencies_call]
      by_cases hop : op' = op <;> simp [reported, hop]
    | step i spurious =>
      obtain ⟨r, _, rfl⟩ := Option.map_eq_some_iff.mp hu
      rfl

end

section
variable {ι : Type} [Fintype ι] [DecidableEq ι]

structure Exact (s : Reporting ι) : Prop where
  on : s.measurements.reportOn = true
  count : ∀ op, Booked (2 ^ 32) (s.measurements.count op) (∑ i, dueCount op (s.pending i)) (s.latencies op).length
  sum : ∀ op, Booked (2 ^ 64) (s.measurements.latencySum op) (∑ i, dueSum op (s.pending i)) (s.latencies op).sum
  min : ∀ op, Converging (2 ^ 64 - 1) (s.measurements.latencyMin op) (s.latencies op)
    fun x => ∃ i, dueMin op x (s.pending i)
  max : ∀ op, Converging (α := ℕᵒᵈ) 0 (s.measurements.latencyMax op) (s.latencies op)
    fun x => ∃ i, dueMax op x (s.pending i)
  seen : ∀ i, Seen s.latencies (s.pending i)
  expects : ∀ i, Expects s.measurements (s.pending i)

omit [DecidableEq ι] in
theorem Exact.init : Exact (init ι 0) where
  on := rfl
  count op := by simpa [Reporting.init, BasicMeasurements.init, dueCount, latencies] using Booked.zero
  sum op := by simpa [Reporting.init, BasicMeasurements.init, dueSum, latencies] using Booked.zero
  min op := ⟨Or.inl rfl, fun x hx => by cases hx⟩
  max op := ⟨Or.inl rfl, fun x hx => by cases hx⟩
  seen i r hr := by cases hr
  expects i := trivial

theorem Exact.call {s : Reporting ι} (h : Exact s) {i : ι} (hi : s.pending i = none) (op : OpType) (latency : ℕ)
    (elapse : ℤ) : Exact (s.call i op latency elapse) := by
  have hcall : s.call i op latency elapse = { s with
      reports := s.reports ++ [(op, latency)]
      pending := Function.update s.pending i (some ⟨op, latency, .addCount⟩) } := by
    unfold Reporting.call
    rw [if_pos h.on]
  have hlat := fun op' => latencies_call s i op op' latency elapse
  rw [hcall] at hlat ⊢
  -- the thread owed nothing before the call
  have hnone : ∀ op', dueCount op' (s.pending i) = 0 ∧ dueSum op' (s.pending i) = 0 ∧
      (∀ x, ¬ dueMin op' x (s.pending i)) ∧ ∀ x, ¬ dueMax op' x (s.pending i) := by
    intro op'
    rw [hi]
    exact ⟨rfl, rfl, fun _ => id, fun _ => id⟩
  refine ⟨h.on, fun op' => ?_, fun op' => ?_, fun op' => ?_, fun op' => ?_, ?_, ?_⟩
  · rw [hlat, sum_enter (hnone op').1]
    by_cases hop : op = op'
    · simpa [dueCount, hop] using (h.count op').call 1
    · simpa [dueCount, hop] using h.count op'
  · rw [hlat, sum_enter (hnone op').2.1]
    by_cases hop : op = op'
    · simpa [dueSum, hop] using (h.sum op').call latency
    · simpa [dueSum, hop] using h.sum op'
  · rw [hlat]
    refine (h.min op').call (fun hop => ⟨i, ?_⟩) fun y => exists_enter ((hnone op').2.2.1 y) _
    simp [dueMin, hop]
  · rw [hlat]
    refine (h.max op').call (fun hop => ⟨i, ?_⟩) fun y => exists_enter ((hnone op').2.2.2 y) _
    simp [dueMax, hop]
  · refine forall_update (P := fun _ p => Seen (Reporting.latencies _) p) ?_ ?_
    · intro r hr
      cases hr
      rw [hlat, if_pos rfl]
      exact List.mem_append_right _ List.mem_cons_self
    · intro j _ r hr
      rw [hlat]
      exact List.mem_append_left _ (h.seen j r hr)
  · exact forall_update (P := fun _ p => Expects s.measurements p) trivial fun j _ => h.expects j

theorem Exact.next {s : Reporting ι} (h : Exact s) {i : ι} {r : ReportCall} (hi : s.pending i = some r)
    {t : BasicMeasurements × Option ReportCall} (hsteps : Steps r.op r.latency s.measurements r.point t) :
    Exact { s with measurements := t.1, pending := Function.update s.pending i t.2 } := by
  have he := h.expects i
  have hseen : r.latency ∈ s.latencies r.op := h.seen i r hi
  rw [hi] at he
  refine ⟨hsteps.reportOn.trans h.on, fun op => ?_, fun op => ?_, fun op => ?_, fun op => ?_, ?_, ?_⟩
  · -- what the step books is no longer due
    have hcount := h.count op
    rw [← Finset.sum_erase_add _ _ (Finset.mem_univ i), hi] at hcount
    rw [sum_update]
    exact hcount.pay (hsteps.count op)
  · have hsum := h.sum op
    rw [← Finset.sum_erase_add _ _ (Finset.mem_univ i), hi] at hsum
    rw [sum_update]
    exact hsum.pay (hsteps.sum op)
  · refine (h.min op).lower ((hsteps.min_le op).imp_right ?_) ?_
    · rintro ⟨hle, rfl, heq⟩
      exact ⟨hle, heq ▸ hseen⟩
    · exact fun y => exists_leave (P := dueMin op y) fun hdue => hsteps.min_due he (hi ▸ hdue)
  · refine (h.max op).lower ((hsteps.le_max op).imp_right ?_) ?_
    · rintro ⟨hle, rfl, heq⟩
      exact ⟨hle, heq ▸ hseen⟩
    · exact fun y => exists_leave (P := dueMax op y) fun hdue => hsteps.max_due he (hi ▸ hdue)
  · refine forall_update (P := fun _ p => Seen s.latencies p) ?_ fun j _ => h.seen j
    intro r' hr
    obtain ⟨hop, hlat⟩ := hsteps.same r' hr
    rwa [hop, hlat]
  · refine forall_update (P := fun _ p => Expects t.1 p) hsteps.expects fun j _ => (h.expects j).mono ?_ ?_
    · exact fun op => (hsteps.min_le op).elim (fun h => h.le) fun h => h.1
    · exact fun op => (hsteps.le_max op).elim (fun h => h.ge) fun h => h.1

theorem Exact.step {s t : Reporting ι} {e : ReportEvent ι} (h : Exact s) (hstep : s.step e = some t) : Exact t := by
  cases e with
  | call i op latency elapse =>
    simp only [Reporting.step, Option.ite_none_right_eq_some, Option.some.injEq] at hstep
    rw [← hstep.2]
    exact h.call (Option.isNone_iff_eq_none.mp hstep.1) op latency elapse
  | step i spurious =>
    obtain ⟨r, hi, rfl⟩ := Option.map_eq_some_iff.mp hstep
    exact h.next hi (r.next_steps s.measurements spurious)

/-- When no `Report` is in progress, the measurements of `op` are those of its reports. -/
theorem report_exact {events : List (ReportEvent ι)} {s : Reporting ι} (hrun : run step (init ι 0) events = some s)
    (hidle : ∀ i, s.pending i = none) (op : OpType) (hcount : (reported op events).length < 2 ^ 32)
    (hsum : (reported op events).sum < 2 ^ 64) :
    s.measurements.count op = (reported op events).length ∧
    s.measurements.latencySum op = (reported op events).sum ∧
    s.measurements.latencyMin op = (reported op events).foldr min (2 ^ 64 - 1) ∧
    s.measurements.latencyMax op = (reported op events).foldr max 0 := by
  have hexact : Exact s := run_inv (step (ι := ι)) (fun _ _ _ h hstep => Exact.step h hstep) Exact.init hrun
  have hlat := run_latencies op hrun
  change s.latencies op = reported op events at hlat
  rw [← hlat] at hcount hsum ⊢
  refine ⟨?_, ?_, ?_, ?_⟩
  · refine Booked.settled ?_ hcount
    simpa [hidle, dueCount] using hexact.count op
  · refine Booked.settled ?_ hsum
    simpa [hidle, dueSum] using hexact.sum op
  · refine (hexact.min op).settled ?_ ?_
    · rintro x ⟨i, hi⟩
      rwa [hidle] at hi
    · intro x hx
      have := List.le_sum_of_mem hx
      omega
  · refine (hexact.max op).settled ?_ ?_
    · rintro x ⟨i, hi⟩
      rwa [hidle] at hi
    · exact fun x _ => Nat.zero_le x

end

/-- Two threads. The exchange of the second fails once, as the first has lowered the minimum. -/
def twoReports : List (ReportEvent Bool) :=
  [.call false (.done .read) 5 0, .call true (.done .read) 7 0, .step false false, .step true false, .step false false,
    .step true false, .step false false, .step true false, .step false false, .step true false, .step true false,
    .step true false, .step false false, .step true true, .step true false, .step false false, .step false false]

theorem report_exact_two : ∃ s, run step (init Bool 0) twoReports = some s ∧
    s.measurements.count (.done .read) = 2 ∧ s.measurements.latencySum (.done .read) = 12 ∧
    s.measurements.latencyMin (.done .read) = 5 ∧ s.measurements.latencyMax (.done .read) = 7 := by
  have hrun : ∃ s, run step (init Bool 0) twoReports = some s ∧ ∀ i, s.pending i = none :=
    ⟨_, rfl, fun i => by cases i <;> rfl⟩
  obtain ⟨s, hrun, hidle⟩ := hrun
  exact ⟨s, hrun, report_exact hrun hidle (.done .read) (by decide) (by decide)⟩

end Reporting

end Ycsb
