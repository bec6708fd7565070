import Mathlib.Data.List.TakeWhile
import Ycsb.Warmup

/-!
# What counts after the warm-up

`ClientThread` samples what to skip before the operation of the turn, so an
operation in the warm-up counts if no turn follows it. A report is booked from
the one on that finds the clock in a window of ten seconds, which may never
happen.
-/

namespace Ycsb

open Lib

namespace ClientThread

theorem foldl_turn_on (secSkip : ℤ) : ∀ (turns : List Turn) (c : Counters), c.countOn = true →
    turns.foldl (turn secSkip) c = { c with oks := c.oks + turns.countP Turn.ok }
  | [], _, _ => rfl
  | t :: turns, c, hon => by
    have hturn : turn secSkip c t = { c with oks := c.oks + t.ok.toNat } := by rw [turn, if_pos hon]
    rw [List.foldl_cons, hturn, foldl_turn_on secSkip turns { c with oks := c.oks + t.ok.toNat } hon, List.countP_cons]
    cases t.ok <;> simp [Nat.add_assoc, Nat.add_comm]

/-- In the warm-up the last turn is not skipped yet. -/
theorem foldl_turn_off (secSkip : ℤ) (turns : List Turn) (hwarm : ∀ t ∈ turns, ¬ secSkip < t.elapse) (c : Counters)
    (hoff : c.countOn = false) (hskipped : c.skippedOk = c.oks) : turns.foldl (turn secSkip) c =
      ⟨false, c.oks + turns.dropLast.countP Turn.ok, c.oks + turns.countP Turn.ok⟩ := by
  induction turns using List.reverseRecOn with
  | nil =>
    obtain ⟨countOn, skippedOk, oks⟩ := c
    cases hoff
    cases hskipped
    rfl
  | append_singleton turns t ih =>
    have hturns := ih fun t' ht' => hwarm t' (List.mem_append_left _ ht')
    have ht : ¬ secSkip < t.elapse := hwarm t (List.mem_append_right _ (List.mem_singleton_self t))
    rw [List.foldl_concat, hturns, turn, List.dropLast_concat, List.countP_append, List.countP_singleton]
    simp only [Bool.false_eq_true, if_false, ht, decide_false, ← Nat.add_assoc]
    cases t.ok <;> rfl

theorem result_split {secSkip : ℤ} (hskip : secSkip ≠ 0) {warm rest : List Turn} {t : Turn}
    (hwarm : ∀ t ∈ warm, ¬ secSkip < t.elapse) (ht : secSkip < t.elapse) :
    result secSkip (warm ++ t :: rest) = (t :: rest).countP Turn.ok := by
  have hoff := foldl_turn_off secSkip warm hwarm (init secSkip) (decide_eq_false hskip) rfl
  have hturn : turn secSkip ⟨false, 0 + warm.dropLast.countP Turn.ok, 0 + warm.countP Turn.ok⟩ t =
      ⟨true, warm.countP Turn.ok, warm.countP Turn.ok + t.ok.toNat⟩ := by simp [turn, ht]
  have hon := foldl_turn_on secSkip rest ⟨true, warm.countP Turn.ok, warm.countP Turn.ok + t.ok.toNat⟩ rfl
  unfold result
  rw [List.foldl_append, hoff, List.foldl_cons, show (init secSkip).oks = 0 from rfl, hturn, hon, List.countP_cons]
  cases t.ok
  · simp
  · simp only [Bool.toNat_true, if_true]
    omega

theorem result_warm {secSkip : ℤ} (hskip : secSkip ≠ 0) {turns : List Turn}
    (hwarm : ∀ t ∈ turns, ¬ secSkip < t.elapse) :
    result secSkip turns = turns.countP Turn.ok - turns.dropLast.countP Turn.ok := by
  unfold result
  rw [foldl_turn_off secSkip turns hwarm (init secSkip) (decide_eq_false hskip) rfl]
  simp [init]

theorem afterWarmup_warm {secSkip : ℤ} (hskip : secSkip ≠ 0) {turns : List Turn}
    (hwarm : ∀ t ∈ turns, ¬ secSkip < t.elapse) : afterWarmup secSkip turns = [] := by
  rw [afterWarmup, if_neg hskip]
  apply List.dropWhile_eq_nil_iff.mpr
  intro t ht
  simp [hwarm t ht]

/-- Turns with a late one among them, cut before the first late one. -/
theorem afterWarmup_late {secSkip : ℤ} (hskip : secSkip ≠ 0) {turns : List Turn}
    (hlate : ∃ t ∈ turns, secSkip < t.elapse) :
    ∃ warm t rest, turns = warm ++ t :: rest ∧ (∀ t ∈ warm, ¬ secSkip < t.elapse) ∧ secSkip < t.elapse ∧
      afterWarmup secSkip turns = t :: rest := by
  rw [afterWarmup, if_neg hskip]
  induction turns with
  | nil => simp at hlate
  | cons t turns ih =>
    by_cases ht : secSkip < t.elapse
    · exact ⟨[], t, turns, rfl, by simp, ht, by simp [ht]⟩
    · have hturns : ∃ t ∈ turns, secSkip < t.elapse := by
        obtain ⟨t', ht', hlt⟩ := hlate
        cases ht' with
        | head => exact absurd hlt ht
        | tail _ h => exact ⟨t', h, hlt⟩
      obtain ⟨warm, t', rest, heq, hwarm, hlt, hdrop⟩ := ih hturns
      refine ⟨t :: warm, t', rest, by rw [heq]; rfl, ?_, hlt, ?_⟩
      · rintro s (_ | ⟨_, hs⟩)
        · exact ht
        · exact hwarm s hs
      · rw [List.dropWhile_cons, if_pos (by simp [ht]), hdrop]

theorem countsExactly_iff (secSkip : ℤ) (turns : List Turn) : CountsExactly secSkip turns ↔
    secSkip = 0 ∨ (∃ t ∈ turns, secSkip < t.elapse) ∨ ∀ t, turns.getLast? = some t → t.ok = false := by
  unfold CountsExactly
  by_cases hskip : secSkip = 0
  · have hon := foldl_turn_on secSkip turns (init secSkip) (decide_eq_true hskip)
    rw [afterWarmup, if_pos hskip, result, hon]
    simp [hskip, init]
  by_cases hlate : ∃ t ∈ turns, secSkip < t.elapse
  · obtain ⟨warm, t, rest, rfl, hwarm, ht, hafter⟩ := afterWarmup_late hskip hlate
    rw [hafter, result_split hskip hwarm ht]
    exact iff_of_true rfl (Or.inr (Or.inl hlate))
  · have hwarm : ∀ t ∈ turns, ¬ secSkip < t.elapse := fun t ht hlt => hlate ⟨t, ht, hlt⟩
    rw [afterWarmup_warm hskip hwarm, result_warm hskip hwarm, or_iff_right hskip, or_iff_right hlate]
    obtain rfl | ⟨warm, t, rfl⟩ := List.eq_nil_or_concat turns
    · simp
    · rw [List.concat_eq_append, List.dropLast_concat, List.countP_append, List.countP_singleton, List.getLast?_concat]
      cases hok : t.ok <;> simp [hok]

theorem warm_turn_counted : ¬ CountsExactly 1 [⟨0, true⟩] := by
  unfold CountsExactly
  decide

end ClientThread

/-! ## When the measurements are switched on -/

open StatusMeasurements

theorem during_snoc (secSkip : ℤ) (events : List RunEvent) (e : RunEvent) :
    during secSkip (events ++ [e]) = (during secSkip events).call e.call := by
  unfold during after
  rw [List.map_append, List.map_singleton, List.foldl_concat]

theorem startOf_start (events : List RunEvent) (now : ℤ) : startOf (events ++ [.start now]) = now :=
  List.foldl_concat _ _ _ _

theorem startOf_report (events : List RunEvent) (now : ℤ) (op : OpType) (latency : ℕ) :
    startOf (events ++ [.report now op latency]) = startOf events := List.foldl_concat _ _ _ _

theorem opened_snoc {secSkip : ℤ} {events : List RunEvent} {e : RunEvent} : Opened secSkip (events ++ [e]) ↔
    Opened secSkip events ∨ ∃ now op latency, e = .report now op latency ∧
      opens (secSkip.bmod (2 ^ 32)) (startOf events) now = true := by
  have hsnoc := fun (now : ℤ) (op : OpType) (latency : ℕ) =>
    @exists_before_snoc _ (.report now op latency) e events
      fun before => opens (secSkip.bmod (2 ^ 32)) (startOf before) now = true
  constructor
  · rintro ⟨before, now, op, latency, h⟩
    obtain ⟨before, h⟩ | h := (hsnoc now op latency).mp ⟨before, h⟩
    · exact Or.inl ⟨before, now, op, latency, h⟩
    · exact Or.inr ⟨now, op, latency, h⟩
  · rintro (⟨before, now, op, latency, h⟩ | ⟨now, op, latency, h⟩)
    · obtain ⟨before, h⟩ := (hsnoc now op latency).mpr (Or.inl ⟨before, h⟩)
      exact ⟨before, now, op, latency, h⟩
    · obtain ⟨before, h⟩ := (hsnoc now op latency).mpr (Or.inr h)
      exact ⟨before, now, op, latency, h⟩

theorem opened_mono {secSkip : ℤ} {events events' : List RunEvent} (h : events <+: events')
    (hopened : Opened secSkip events) : Opened secSkip events' := by
  obtain ⟨before, now, op, latency, hbefore, hopens⟩ := hopened
  exact ⟨before, now, op, latency, hbefore.trans h, hopens⟩

/-- What `Report` reads, from the events alone. -/
structure Clock (secSkip : ℤ) (events : List RunEvent) (m : StatusMeasurements) : Prop where
  secSkip_eq : m.secSkip = secSkip.bmod (2 ^ 32)
  start_eq : m.start = startOf events
  reportOn : m.reportOn = true ↔ Opened secSkip events

theorem clock_during {secSkip : ℤ} (hskip : secSkip ≠ 0) (events : List RunEvent) :
    Clock secSkip events (during secSkip events) := by
  induction events using List.reverseRecOn with
  | nil =>
    refine ⟨rfl, rfl, ?_⟩
    simp [during, after, init, BasicMeasurements.init, hskip, Opened]
  | append_singleton events e ih =>
    rw [during_snoc]
    cases e with
    | start now =>
      refine ⟨ih.secSkip_eq, (startOf_start _ _).symm, ih.reportOn.trans ?_⟩
      simp [opened_snoc]
    | report now op latency =>
      show Clock _ _ ((during secSkip events).report now op latency)
      rw [report]
      by_cases hon : (during secSkip events).reportOn = true
      · rw [if_pos hon]
        exact ⟨ih.secSkip_eq, ih.start_eq.trans (startOf_report _ _ _ _).symm,
          iff_of_true hon (opened_snoc.mpr (Or.inl (ih.reportOn.mp hon)))⟩
      · rw [if_neg hon]
        refine ⟨ih.secSkip_eq, ih.start_eq.trans (startOf_report _ _ _ _).symm, ?_⟩
        rw [opened_snoc, ← ih.reportOn, or_iff_right hon, ih.secSkip_eq, ih.start_eq]
        simp

theorem book_ne (m : BasicMeasurements) (op : OpType) (latency : ℕ) (reportOn : Bool) :
    m.book op latency ≠ { m with reportOn } := by
  intro h
  have hcount := congrFun (congrArg BasicMeasurements.count h) op
  simp only [BasicMeasurements.book, Function.update_self] at hcount
  omega

/-- A report is booked if an earlier one passed the test, else it is not. -/
theorem report_booked {secSkip : ℤ} (hskip : secSkip ≠ 0) (before : List RunEvent) (now : ℤ) (op : OpType)
    (latency : ℕ) :
    (((during secSkip before).report now op latency).toBasicMeasurements = (during secSkip before).book op latency ↔
      Opened secSkip before) ∧
    ((∃ reportOn, ((during secSkip before).report now op latency).toBasicMeasurements =
      { (during secSkip before).toBasicMeasurements with reportOn }) ↔ ¬ Opened secSkip before) := by
  rw [← (clock_during hskip before).reportOn, report]
  by_cases hon : (during secSkip before).reportOn = true
  · rw [if_pos hon]
    exact ⟨iff_of_true rfl hon, iff_of_false (fun ⟨_, h⟩ => book_ne _ _ _ _ h) (fun h => h hon)⟩
  · rw [if_neg hon]
    exact ⟨iff_of_false (fun h => book_ne _ _ _ _ h.symm) hon, iff_of_true ⟨_, rfl⟩ hon⟩

/-- No report passes the test before another one in the warm-up, and if any follows the first late one, some
report up to that one passes it. -/
def WindowMet (secSkip runStart : ℤ) (events : List RunEvent) : Prop :=
  (∀ before now op latency, before ++ [.report now op latency] <+: events →
    (∀ e ∈ before ++ [.report now op latency], e.late secSkip runStart = false) → ¬ Opened secSkip before) ∧
  ∀ before e between now op latency, before ++ e :: (between ++ [.report now op latency]) <+: events →
    (∀ e ∈ before, e.late secSkip runStart = false) → e.late secSkip runStart = true → Opened secSkip (before ++ [e])

theorem first_late {secSkip runStart : ℤ} : ∀ {events : List RunEvent}, (∃ e ∈ events, e.late secSkip runStart = true) →
    ∃ before e between, events = before ++ e :: between ∧ (∀ e ∈ before, e.late secSkip runStart = false) ∧
      e.late secSkip runStart = true
  | [], h => by simp at h
  | e :: events, h => by
    by_cases he : e.late secSkip runStart = true
    · exact ⟨[], e, events, rfl, by simp, he⟩
    · have hevents : ∃ e ∈ events, e.late secSkip runStart = true := by
        obtain ⟨e', he', hlate⟩ := h
        cases he' with
        | head => exact absurd hlate he
        | tail _ hmem => exact ⟨e', hmem, hlate⟩
      obtain ⟨before, e', between, heq, hbefore, hlate⟩ := first_late hevents
      refine ⟨e :: before, e', between, by rw [heq]; rfl, ?_, hlate⟩
      rintro x (_ | ⟨_, hx⟩)
      · exact Bool.eq_false_of_not_eq_true he
      · exact hbefore x hx

/-- The first report of what ends in a report. -/
theorem first_report (now : ℤ) (op : OpType) (latency : ℕ) : ∀ events : List RunEvent,
    ∃ starts now' op' latency', starts ++ [.report now' op' latency'] <+: events ++ [.report now op latency] ∧
      ∀ e ∈ starts, ∃ t, e = .start t
  | [] => ⟨[], now, op, latency, List.prefix_rfl, by simp⟩
  | .report now' op' latency' :: events => ⟨[], now', op', latency', ⟨_, rfl⟩, by simp⟩
  | .start t :: events => by
    obtain ⟨starts, now', op', latency', hstarts, hstart⟩ := first_report now op latency events
    refine ⟨.start t :: starts, now', op', latency', List.cons_prefix_cons.mpr ⟨rfl, hstarts⟩, ?_⟩
    rintro x (_ | ⟨_, hx⟩)
    · exact ⟨t, rfl⟩
    · exact hstart x hx

theorem opened_starts {secSkip : ℤ} {events starts : List RunEvent} (hstarts : ∀ e ∈ starts, ∃ t, e = .start t)
    (h : Opened secSkip (events ++ starts)) : Opened secSkip events := by
  induction starts using List.reverseRecOn with
  | nil => rwa [List.append_nil] at h
  | append_singleton starts e ih =>
    obtain ⟨t, rfl⟩ := hstarts e (List.mem_append_right _ (List.mem_singleton_self e))
    rw [← List.append_assoc, opened_snoc] at h
    obtain h | ⟨_, _, _, he, _⟩ := h
    · exact ih (fun e he => hstarts e (List.mem_append_left _ he)) h
    · cases he

theorem measuresAfterWarmup_iff {secSkip : ℤ} (hskip : 0 < secSkip) (runStart : ℤ) (events : List RunEvent) :
    MeasuresAfterWarmup secSkip runStart events ↔ WindowMet secSkip runStart events := by
  have hne : secSkip ≠ 0 := ne_of_gt hskip
  constructor
  · intro h
    constructor
    · intro before now op latency hbefore hwarm
      exact (report_booked hne before now op latency).2.mp ((h before now op latency hbefore).2 hwarm)
    · intro before e between now op latency hbefore _ hlate
      obtain ⟨starts, now', op', latency', hstarts, hstart⟩ := first_report now op latency between
      have hpre : (before ++ e :: starts) ++ [.report now' op' latency'] <+: events := by
        refine List.IsPrefix.trans ?_ hbefore
        rw [List.append_assoc, List.prefix_append_right_inj]
        exact List.cons_prefix_cons.mpr ⟨rfl, hstarts⟩
      have hbooked := (h _ now' op' latency' hpre).1 ⟨e, by simp, hlate⟩
      have hopened := (report_booked hne _ now' op' latency').1.mp hbooked
      exact opened_starts hstart (by simpa using hopened)
  · rintro ⟨hearly, hfirst⟩ before now op latency hbefore
    constructor
    · intro hlate
      obtain ⟨pre, e, between, rfl, hpre, he⟩ := first_late hlate
      refine (report_booked hne _ now op latency).1.mpr ?_
      have hopened := hfirst pre e between now op latency (by simpa using hbefore) hpre he
      exact opened_mono ⟨between, by simp⟩ hopened
    · intro hwarm
      exact (report_booked hne before now op latency).2.mpr (hearly before now op latency hbefore hwarm)

/-! ## With a status thread -/

theorem opens_iff {secSkip start now : ℤ} (hskip : 0 < secSkip) (hint : secSkip + 10 < 2 ^ 31) :
    opens (secSkip.bmod (2 ^ 32)) start now = true ↔
      (secSkip + 1) * 10 ^ 9 ≤ now - start ∧ now - start < (secSkip + 10) * 10 ^ 9 := by
  have hbmod : secSkip.bmod (2 ^ 32) = secSkip := Int.bmod_eq_of_le (by omega) (by omega)
  have hsum : (secSkip + 10).bmod (2 ^ 32) = secSkip + 10 := Int.bmod_eq_of_le (by omega) (by omega)
  simp only [opens, decide_eq_true_eq, hbmod, hsum, elapsedSeconds]
  rcases Int.le_total 0 (now - start) with h | h
  · rw [Int.tdiv_eq_ediv_of_nonneg h]
    omega
  -- a clock that is ahead gives no positive number of seconds
  · have hneg : (now - start).tdiv (10 ^ 9) = -((start - now).tdiv (10 ^ 9)) := by
      rw [← Int.neg_tdiv, Int.neg_sub]
    have hdiv : 0 ≤ (start - now).tdiv (10 ^ 9) := Int.tdiv_nonneg (by omega) (by decide)
    omega

theorem startOf_started (runStart : ℤ) {reports : List RunEvent}
    (hreports : ∀ e ∈ reports, ∃ now op latency, e = .report now op latency) :
    startOf (.start runStart :: reports) = runStart := by
  induction reports using List.reverseRecOn with
  | nil => rfl
  | append_singleton reports e ih =>
    obtain ⟨now, op, latency, rfl⟩ := hreports e (List.mem_append_right _ (List.mem_singleton_self e))
    rw [← List.cons_append, startOf_report]
    exact ih fun e he => hreports e (List.mem_append_left _ he)

theorem opened_started {secSkip : ℤ} (runStart : ℤ) {reports : List RunEvent}
    (hreports : ∀ e ∈ reports, ∃ now op latency, e = .report now op latency) :
    Opened secSkip (.start runStart :: reports) ↔
      ∃ now op latency, .report now op latency ∈ reports ∧ opens (secSkip.bmod (2 ^ 32)) runStart now = true := by
  induction reports using List.reverseRecOn with
  | nil =>
    have hnone : ¬ Opened secSkip [] := fun ⟨before, now, op, latency, h, _⟩ => by simp at h
    have hsnoc : Opened secSkip ([] ++ [.start runStart]) ↔ _ := opened_snoc
    rw [List.nil_append] at hsnoc
    simp [hsnoc, hnone]
  | append_singleton reports e ih =>
    have hbefore : ∀ e ∈ reports, ∃ now op latency, e = .report now op latency :=
      fun e he => hreports e (List.mem_append_left _ he)
    rw [← List.cons_append, opened_snoc, ih hbefore, startOf_started runStart hbefore]
    simp only [List.mem_append, List.mem_singleton, or_and_right, exists_or, eq_comm (b := e)]

/-- When the clock starts with the run: a report follows the first one after the warm-up only if that one
finds the clock in the window. -/
theorem windowMet_started {secSkip runStart : ℤ} (hskip : 0 < secSkip) (hint : secSkip + 10 < 2 ^ 31)
    {reports : List RunEvent} (hreports : ∀ e ∈ reports, ∃ now op latency, e = .report now op latency) :
    WindowMet secSkip runStart (.start runStart :: reports) ↔
      ∀ before now op latency e after, reports = before ++ .report now op latency :: e :: after →
        (∀ e ∈ before, e.late secSkip runStart = false) → secSkip * 10 ^ 9 < now - runStart →
        (secSkip + 1) * 10 ^ 9 ≤ now - runStart ∧ now - runStart < (secSkip + 10) * 10 ^ 9 := by
  have hlate : ∀ {now : ℤ}, opens (secSkip.bmod (2 ^ 32)) runStart now = true → secSkip * 10 ^ 9 < now - runStart :=
    fun h => by
      have hwindow := (opens_iff hskip hint).mp h
      omega
  -- no report of the warm-up finds the clock in the window
  have hnot : ∀ {rs : List RunEvent}, (∀ e ∈ rs, ∃ now op latency, e = .report now op latency) →
      (∀ e ∈ rs, e.late secSkip runStart = false) → ¬ Opened secSkip (.start runStart :: rs) := by
    intro rs hrs hwarm hopened
    obtain ⟨now, op, latency, hm, hopens⟩ := (opened_started runStart hrs).mp hopened
    exact of_decide_eq_false (hwarm _ hm) (hlate hopens)
  constructor
  · intro h before now op latency e after heq hwarm hlt
    subst heq
    obtain ⟨now', op', latency', rfl⟩ := hreports e (by simp)
    have hbefore : ∀ e ∈ before, ∃ now op latency, e = .report now op latency := fun e he => hreports e (by simp [he])
    have hopened := h.2 (.start runStart :: before) (.report now op latency) [] now' op' latency' ⟨after, by simp⟩
      (List.forall_mem_cons.mpr ⟨rfl, hwarm⟩) (decide_eq_true hlt)
    rw [opened_snoc, startOf_started runStart hbefore, or_iff_right (hnot hbefore hwarm)] at hopened
    obtain ⟨_, _, _, he, hopens⟩ := hopened
    cases he
    exact (opens_iff hskip hint).mp hopens
  · intro h
    constructor
    · intro before now op latency hbefore hwarm
      cases before with
      | nil =>
        obtain ⟨after, heq⟩ := hbefore
        cases heq
      | cons e before =>
        obtain ⟨after, heq⟩ := hbefore
        obtain ⟨rfl, rfl⟩ := List.cons.inj heq
        exact hnot (fun e he => hreports e (by simp [he])) fun e he => hwarm e (by simp [he])
    · intro before e between now op latency hbefore hwarm hl
      obtain ⟨after, heq⟩ := hbefore
      cases before with
      | nil =>
        obtain ⟨rfl, _⟩ := List.cons.inj heq
        cases hl
      | cons e₀ before =>
        obtain ⟨rfl, rfl⟩ := List.cons.inj heq
        obtain ⟨now₁, op₁, latency₁, rfl⟩ := hreports e (by simp)
        have hbefore : ∀ e ∈ before, ∃ now op latency, e = .report now op latency :=
          fun e he => hreports e (by simp [he])
        rw [opened_snoc, startOf_started runStart hbefore]
        refine Or.inr ⟨now₁, op₁, latency₁, rfl, (opens_iff hskip hint).mpr ?_⟩
        obtain ⟨e', after', htail⟩ : ∃ e' after', between ++ [.report now op latency] ++ after = e' :: after' := by
          cases between with
          | nil => exact ⟨_, _, rfl⟩
          | cons e' between => exact ⟨_, _, rfl⟩
        refine h before now₁ op₁ latency₁ e' after' ?_ (fun e he => hwarm e (by simp [he])) (of_decide_eq_true hl)
        rw [← htail]
        simp

/-- Reads half a second, two seconds and three seconds after `runStart`. -/
def threeReads (runStart : ℤ) : List RunEvent :=
  [.report (runStart + 5 * 10 ^ 8) (.done .read) 1, .report (runStart + 2 * 10 ^ 9) (.done .read) 1,
    .report (runStart + 3 * 10 ^ 9) (.done .read) 1]

theorem measuresAfterWarmup_threeReads : MeasuresAfterWarmup 1 (10 ^ 18) (.start (10 ^ 18) :: threeReads (10 ^ 18)) := by
  refine (measuresAfterWarmup_iff (by decide) _ _).mpr ((windowMet_started (by decide) (by decide) ?_).mpr ?_)
  · simp [threeReads]
  · intro before now op latency e after heq _ hlt
    match before, heq with
    | [], heq =>
      cases heq
      exact absurd hlt (by decide)
    | [_], heq =>
      cases heq
      decide
    | [_, _], heq => simp [threeReads] at heq
    | _ :: _ :: _ :: before, heq => simp [threeReads] at heq

/-- A read every second, from half a second after `runStart` on. -/
def readsEverySecond (runStart : ℤ) (n : ℕ) : List RunEvent :=
  (List.range n).map fun i => .report (runStart + 5 * 10 ^ 8 + i * 10 ^ 9) (.done .read) 1

/-- Without a status thread; and with one, when no report comes for ten seconds after the warm-up. -/
theorem window_missed : ¬ MeasuresAfterWarmup 1 (10 ^ 18) (readsEverySecond (10 ^ 18) 3) ∧
    ¬ MeasuresAfterWarmup 1 (10 ^ 18) (.start (10 ^ 18) :: readsEverySecond (10 ^ 18 + 11 * 10 ^ 9) 2) := by
  constructor
  · intro h
    have hbooked := (h ((readsEverySecond (10 ^ 18) 3).take 2) _ _ _ ⟨[], rfl⟩).1 (by decide +kernel)
    have hcount := congrFun (congrArg BasicMeasurements.count hbooked) (.done .read)
    exact absurd hcount (by decide +kernel)
  · intro h
    have hbooked := (h (.start (10 ^ 18) :: (readsEverySecond (10 ^ 18 + 11 * 10 ^ 9) 2).take 1) _ _ _ ⟨[], rfl⟩).1
      (by decide +kernel)
    have hcount := congrFun (congrArg BasicMeasurements.count hbooked) (.done .read)
    exact absurd hcount (by decide +kernel)

end Ycsb
