import Mathlib.Algebra.Order.BigOperators.Group.List
import Mathlib.Data.List.DropRight
import Ycsb.Lib.Trans
import Ycsb.Status

/-!
# Period statistics

`GetStatusMsg` prints the difference between what is booked and what it saw the
last time it printed the operation. `Reset` clears what is booked and not what
was seen, so the periods of an operation telescope unless it was printed before
the last `Reset`.
-/

namespace Ycsb

open Lib

/-! ## A report that nothing interleaves with -/

section
variable {ι : Type} [DecidableEq ι]

theorem ReportCall.next_loadMin_casMin (m : BasicMeasurements) (op : OpType) (latency : ℕ) :
    ReportCall.next ⟨op, latency, .casMin (m.latencyMin op)⟩ m false =
      ({ m with latencyMin := Function.update m.latencyMin op (min (m.latencyMin op) latency) },
        some ⟨op, latency, .loadMax⟩) := by
  simp only [next, and_self, if_true]
  split
  · rename_i hlt
    rw [min_eq_right (le_of_lt hlt)]
  · rename_i hlt
    rw [min_eq_left (not_lt.mp hlt), Function.update_eq_self]

theorem ReportCall.next_loadMax_casMax (m : BasicMeasurements) (op : OpType) (latency : ℕ) :
    ReportCall.next ⟨op, latency, .casMax (m.latencyMax op)⟩ m false =
      ({ m with latencyMax := Function.update m.latencyMax op (max (m.latencyMax op) latency) }, none) := by
  simp only [next, and_self, if_true]
  split
  · rename_i hlt
    rw [max_eq_right (le_of_lt hlt)]
  · rename_i hlt
    rw [max_eq_left (not_lt.mp hlt), Function.update_eq_self]

theorem Reporting.run_next {m m' : BasicMeasurements} {pending : ι → Option ReportCall} {reports : List (OpType × ℕ)}
    {i : ι} {r : ReportCall} {p : Option ReportCall} {as : List (ReportEvent ι)} {t : Reporting ι}
    (hnext : r.next m false = (m', p)) (h : run step ⟨m', Function.update pending i p, reports⟩ as = some t) :
    run step ⟨m, Function.update pending i (some r), reports⟩ (.step i false :: as) = some t := by
  refine (run_cons_some _).mpr ⟨_, ?_, h⟩
  simp only [step, Function.update_self, Option.map_some, hnext, Function.update_idem]

theorem Reporting.run_alone (m : BasicMeasurements) (pending : ι → Option ReportCall) (reports : List (OpType × ℕ))
    (i : ι) (op : OpType) (latency : ℕ) :
    run step ⟨m, Function.update pending i (some ⟨op, latency, .addCount⟩), reports⟩
      (List.replicate 6 (.step i false)) = some ⟨m.book op latency, Function.update pending i none, reports⟩ := by
  refine run_next rfl (run_next rfl (run_next rfl ?_))
  refine run_next (ReportCall.next_loadMin_casMin _ _ _) (run_next rfl ?_)
  exact run_next (ReportCall.next_loadMax_casMax _ _ _) rfl

/-- A call whose steps follow one another does to the cells what `report` does. -/
theorem StatusMeasurements.report_alone (m : StatusMeasurements) (now : ℤ) (op : OpType) (latency : ℕ)
    {s : Reporting ι} (hs : s.measurements = m.toBasicMeasurements) {i : ι} (hi : s.pending i = none) :
    ∃ n t, run Reporting.step s
        (.call i op latency (elapsedSeconds m.start now) :: List.replicate n (.step i false)) = some t ∧
      t.measurements = (m.report now op latency).toBasicMeasurements ∧ t.pending i = none := by
  have hcall : s.step (.call i op latency (elapsedSeconds m.start now)) =
      some (s.call i op latency (elapsedSeconds m.start now)) := by
    simp only [Reporting.step, hi, Option.isNone_none, if_true]
  by_cases hon : m.reportOn = true
  · refine ⟨6, ?_⟩
    rw [Reporting.call, hs, if_pos hon] at hcall
    refine ⟨_, (run_cons_some _).mpr ⟨_, hcall, Reporting.run_alone _ _ _ i op latency⟩, ?_, Function.update_self i _ _⟩
    rw [report, if_pos hon]
  · refine ⟨0, s.call i op latency (elapsedSeconds m.start now), (run_cons_some _).mpr ⟨_, hcall, rfl⟩, ?_, ?_⟩
    · rw [report, if_neg hon, Reporting.call, hs, if_neg hon]
      rfl
    · rw [Reporting.call, hs, if_neg hon]
      exact hi

end

/-! ## A message -/

namespace StatusMeasurements

variable (m : StatusMeasurements)

/-- What `GetStatusMsg` has seen after the operations `ops`. -/
def seen (ops : List OpType) : StatusMeasurements :=
  { m with
    lastCount := fun op => if op ∈ ops ∧ m.count op ≠ 0 then m.count op else m.lastCount op
    lastLatencySum := fun op => if op ∈ ops ∧ m.count op ≠ 0 then m.latencySum op else m.lastLatencySum op }

def printed (ops : List OpType) : List StatusLine := (ops.filter fun op => m.count op ≠ 0).map m.statusLine

theorem foldl_statusStep : ∀ (ops : List OpType) (m : StatusMeasurements) (msg : StatusMsg), ops.Nodup →
    u64 msg.totalCount = msg.totalCount →
    ops.foldl statusStep (msg, m) =
      (⟨u64 (msg.totalCount + ((m.printed ops).map StatusLine.count).sum), msg.lines ++ m.printed ops⟩, m.seen ops)
  | [], m, msg, _, htotal => by
    simp [printed, seen, htotal]
  | op :: ops, m, msg, hnodup, htotal => by
    obtain ⟨hop, hnodup⟩ := List.nodup_cons.mp hnodup
    rw [List.foldl_cons]
    -- an operation that was never reported prints no line
    by_cases hcnt : m.count op = 0
    · have hstep : statusStep (msg, m) op = (msg, m) := by simp [statusStep, hcnt]
      have hprinted : m.printed (op :: ops) = m.printed ops := by simp [printed, hcnt]
      have hseen : m.seen (op :: ops) = m.seen ops := by
        unfold seen
        congr 1 <;> funext op' <;> by_cases h : op' = op <;> simp [h, hcnt]
      rw [hstep, hprinted, hseen]
      exact foldl_statusStep ops m msg hnodup htotal
    · have hstep : statusStep (msg, m) op =
          (⟨u64 (msg.totalCount + m.count op), msg.lines ++ [m.statusLine op]⟩, m.seen [op]) := by
        simp only [statusStep, hcnt, if_false, seen, List.mem_singleton]
        congr 2 <;> funext op' <;> by_cases h : op' = op <;> simp [h, hcnt]
      have hprinted : m.printed (op :: ops) = m.statusLine op :: (m.seen [op]).printed ops := by
        have htail : (m.seen [op]).printed ops = m.printed ops := by
          apply List.map_congr_left
          intro op' hop'
          have hne : op' ≠ op := fun e => hop (e ▸ (List.mem_filter.mp hop').1)
          simp [statusLine, seen, hne]
        rw [htail]
        simp [printed, hcnt]
      have hseen : m.seen (op :: ops) = (m.seen [op]).seen ops := by
        unfold seen
        congr 1 <;> funext op' <;> by_cases h : op' = op <;> simp [h, hop]
      rw [hstep, foldl_statusStep ops _ _ hnodup (Nat.mod_mod _ _), hprinted, hseen]
      simp [statusLine, u64, Nat.add_assoc]

theorem nodup_all : OpType.all.Nodup := by decide

theorem mem_all (op : OpType) : op ∈ OpType.all := by
  cases op with
  | done op => cases op <;> decide
  | failed op => cases op <;> decide

theorem getStatusMsg_eq : m.getStatusMsg =
    (⟨u64 ((m.printed OpType.all).map StatusLine.count).sum, m.printed OpType.all⟩, m.seen OpType.all) := by
  unfold getStatusMsg
  rw [foldl_statusStep _ _ _ nodup_all rfl]
  simp

/-- A message has at most one line for an operation. -/
theorem filter_printed (op : OpType) : ∀ {ops : List OpType}, ops.Nodup → op ∈ ops →
    (m.printed ops).filter (fun line => line.op = op) = if m.count op ≠ 0 then [m.statusLine op] else []
  | o :: ops, hnodup, hop => by
    obtain ⟨ho, hnodup⟩ := List.nodup_cons.mp hnodup
    have hprinted : m.printed (o :: ops) = (if m.count o ≠ 0 then [m.statusLine o] else []) ++ m.printed ops := by
      by_cases hcnt : m.count o = 0 <;> simp [printed, hcnt]
    rw [hprinted, List.filter_append]
    by_cases hoop : o = op
    · subst hoop
      have hrest : (m.printed ops).filter (fun line => line.op = o) = [] := by
        apply List.filter_eq_nil_iff.mpr
        intro line hline
        obtain ⟨op', hop', rfl⟩ := List.mem_map.mp hline
        have hne : op' ≠ o := fun e => ho (e ▸ (List.mem_filter.mp hop').1)
        simp [statusLine, hne]
      rw [hrest, List.append_nil]
      split <;> simp [statusLine]
    · have hhead : (if m.count o ≠ 0 then [m.statusLine o] else []).filter (fun line => line.op = op) = [] := by
        split <;> simp [statusLine, hoop]
      rw [hhead, List.nil_append]
      exact filter_printed op hnodup ((List.mem_cons.mp hop).resolve_left (Ne.symm hoop))

theorem mem_lines {line : StatusLine} :
    line ∈ m.getStatusMsg.1.lines ↔ ∃ op, m.count op ≠ 0 ∧ m.statusLine op = line := by
  rw [getStatusMsg_eq]
  simp [printed, mem_all]

end StatusMeasurements

/-! ## The calls of a phase -/

def reportsOf (op : OpType) (calls : List StatusCall) : List ℕ := calls.filterMap fun
  | .report _ op' latency => if op' = op then some latency else none
  | _ => none

def StatusCall.isReset : StatusCall → Bool
  | .reset => true
  | _ => false

def StatusCall.isGetStatusMsg : StatusCall → Bool
  | .getStatusMsg => true
  | _ => false

def sinceReset (calls : List StatusCall) : List StatusCall := calls.rtakeWhile fun c => !c.isReset

def sinceStatus (calls : List StatusCall) : List StatusCall :=
  calls.rtakeWhile fun c => !(c.isReset || c.isGetStatusMsg)

/-- The measurements, and the messages since the last `Reset`. -/
structure StatusLog where
  measurements : StatusMeasurements
  msgs : List StatusMsg

def StatusLog.call (s : StatusLog) : StatusCall → StatusLog
  | .getStatusMsg => ⟨s.measurements.getStatusMsg.2, s.msgs ++ [s.measurements.getStatusMsg.1]⟩
  | .reset => ⟨s.measurements.reset, []⟩
  | c => ⟨s.measurements.call c, s.msgs⟩

def StatusLog.after (m : StatusMeasurements) (calls : List StatusCall) : StatusLog := calls.foldl call ⟨m, []⟩

def periodCounts (op : OpType) (msgs : List StatusMsg) : List ℕ :=
  ((msgs.flatMap StatusMsg.lines).filter fun line => line.op = op).map StatusLine.periodCount

def StatusMeasurements.reporting (secSkip : ℤ) : StatusMeasurements := { init secSkip with reportOn := true }

def Printed (op : OpType) (calls : List StatusCall) : Prop :=
  ∃ before, before ++ [.getStatusMsg] <+: calls ∧ reportsOf op (sinceReset before) ≠ []

/-- Some message printed the operation before the last `Reset`. -/
def PrintedBeforeReset (op : OpType) (calls : List StatusCall) : Prop :=
  ∃ before, before ++ [.reset] <+: calls ∧ Printed op before

/-- Each line of each message gives the period it ends, and the periods since the last `Reset` add up. -/
def PeriodsTelescope (m : StatusMeasurements) (calls : List StatusCall) : Prop :=
  ∀ before, before ++ [.getStatusMsg] <+: calls → ∀ line ∈ (m.after before).getStatusMsg.1.lines,
    line.periodCount = (reportsOf line.op (sinceStatus before)).length ∧
    line.periodLatencySum = (reportsOf line.op (sinceStatus before)).sum ∧
    (periodCounts line.op (StatusLog.after m (before ++ [.getStatusMsg])).msgs).sum = line.count

/-- No message prints an operation that was printed before the last `Reset`, and no latency of a period wraps. -/
def PeriodsClear (calls : List StatusCall) : Prop :=
  ∀ before, before ++ [.getStatusMsg] <+: calls → ∀ op, reportsOf op (sinceReset before) ≠ [] →
    ¬ PrintedBeforeReset op before ∧ (reportsOf op (sinceStatus before)).sum < 2 ^ 64

/-! ## One more call -/

theorem reportsOf_snoc (op : OpType) (calls : List StatusCall) (c : StatusCall) :
    reportsOf op (calls ++ [c]) = reportsOf op calls ++ reportsOf op [c] := List.filterMap_append

theorem sinceReset_snoc {c : StatusCall} (h : c.isReset = false) (calls : List StatusCall) :
    sinceReset (calls ++ [c]) = sinceReset calls ++ [c] := List.rtakeWhile_concat_pos _ _ _ (by simp [h])

theorem sinceReset_reset (calls : List StatusCall) : sinceReset (calls ++ [.reset]) = [] :=
  List.rtakeWhile_concat_neg _ _ _ (by simp [StatusCall.isReset])

theorem sinceStatus_snoc {c : StatusCall} (h : c.isReset = false) (h' : c.isGetStatusMsg = false)
    (calls : List StatusCall) : sinceStatus (calls ++ [c]) = sinceStatus calls ++ [c] :=
  List.rtakeWhile_concat_pos _ _ _ (by simp [h, h'])

theorem sinceStatus_boundary {c : StatusCall} (h : c.isReset = true ∨ c.isGetStatusMsg = true)
    (calls : List StatusCall) : sinceStatus (calls ++ [c]) = [] :=
  List.rtakeWhile_concat_neg _ _ _ (by obtain h | h := h <;> simp [h])

theorem printed_snoc {op : OpType} {calls : List StatusCall} {c : StatusCall} : Printed op (calls ++ [c]) ↔
    Printed op calls ∨ c = .getStatusMsg ∧ reportsOf op (sinceReset calls) ≠ [] := exists_before_snoc

theorem printedBeforeReset_snoc {op : OpType} {calls : List StatusCall} {c : StatusCall} :
    PrintedBeforeReset op (calls ++ [c]) ↔ PrintedBeforeReset op calls ∨ c = .reset ∧ Printed op calls :=
  exists_before_snoc

theorem StatusLog.after_snoc (m : StatusMeasurements) (calls : List StatusCall) (c : StatusCall) :
    StatusLog.after m (calls ++ [c]) = (StatusLog.after m calls).call c := List.foldl_concat _ _ _ _

theorem StatusLog.call_getStatusMsg (s : StatusLog) : s.call .getStatusMsg =
    ⟨s.measurements.seen OpType.all, s.msgs ++ [s.measurements.getStatusMsg.1]⟩ := by
  simp only [call, StatusMeasurements.getStatusMsg_eq]

theorem StatusLog.call_measurements (s : StatusLog) (c : StatusCall) :
    (s.call c).measurements = s.measurements.call c := by
  cases c <;> simp only [call, StatusMeasurements.call]

theorem StatusLog.after_measurements (m : StatusMeasurements) (calls : List StatusCall) :
    (StatusLog.after m calls).measurements = m.after calls := by
  induction calls using List.reverseRecOn with
  | nil => rfl
  | append_singleton calls c ih =>
    rw [after_snoc, call_measurements, ih]
    exact (List.foldl_concat _ _ _ _).symm

/-! ## The tally of an operation -/

/-- What a message compares with: `seen` in this phase if it was printed in it, else `old`, which
`Reset` left behind. -/
def latest (old seen : List ℕ) : List ℕ := if seen = [] then old else seen

structure Tally (op : OpType) (calls : List StatusCall) (s : StatusLog) (old seen : List ℕ) : Prop where
  reportOn : s.measurements.reportOn = true
  reports : reportsOf op (sinceReset calls) = seen ++ reportsOf op (sinceStatus calls)
  carried : PrintedBeforeReset op calls ↔ old ≠ []
  printed : Printed op calls ↔ old ≠ [] ∨ seen ≠ []
  old_length : old.length < 2 ^ 32
  count : s.measurements.count op = (reportsOf op (sinceReset calls)).length
  latencySum : s.measurements.latencySum op = (reportsOf op (sinceReset calls)).sum % 2 ^ 64
  lastCount : s.measurements.lastCount op = (latest old seen).length
  lastLatencySum : s.measurements.lastLatencySum op = (latest old seen).sum % 2 ^ 64
  periods_nil : seen = [] → (periodCounts op s.msgs).sum = 0
  periods_mod : seen ≠ [] → ((periodCounts op s.msgs).sum + old.length) % 2 ^ 64 = seen.length
  periods_eq : old = [] → (periodCounts op s.msgs).sum = seen.length

namespace Tally

variable {op : OpType} {calls : List StatusCall} {s : StatusLog} {old seen : List ℕ}

theorem init (op : OpType) (secSkip : ℤ) : Tally op [] (StatusLog.after (.reporting secSkip) []) [] [] where
  reportOn := rfl
  reports := rfl
  carried := by simp [PrintedBeforeReset]
  printed := by simp [Printed]
  old_length := by simp
  count := rfl
  latencySum := rfl
  lastCount := rfl
  lastLatencySum := rfl
  periods_nil := fun _ => rfl
  periods_mod := fun h => absurd rfl h
  periods_eq := fun _ => rfl

theorem length_le (op : OpType) (calls : List StatusCall) :
    (reportsOf op (sinceReset calls)).length ≤ (reportsOf op calls).length :=
  ((List.rtakeWhile_suffix _ _).sublist.filterMap _).length_le

theorem latest_length_le (h : Tally op calls s old seen) (hbound : (reportsOf op calls).length < 2 ^ 32) :
    (latest old seen).length < 2 ^ 32 := by
  unfold latest
  split
  · exact h.old_length
  · have hle := length_le op calls
    rw [h.reports, List.length_append] at hle
    omega

/-- A call that is no message and no reset books what it reports. -/
theorem extend (h : Tally op calls s old seen) {c : StatusCall} {s' : StatusLog} (hreset : c.isReset = false)
    (hstatus : c.isGetStatusMsg = false) (hon : s'.measurements.reportOn = true)
    (hcount : s'.measurements.count op = (reportsOf op (sinceReset calls) ++ reportsOf op [c]).length)
    (hsum : s'.measurements.latencySum op = (reportsOf op (sinceReset calls) ++ reportsOf op [c]).sum % 2 ^ 64)
    (hlast : s'.measurements.lastCount = s.measurements.lastCount)
    (hlastSum : s'.measurements.lastLatencySum = s.measurements.lastLatencySum) (hmsgs : s'.msgs = s.msgs) :
    Tally op (calls ++ [c]) s' old seen := by
  have hR : reportsOf op (sinceReset (calls ++ [c])) = reportsOf op (sinceReset calls) ++ reportsOf op [c] := by
    rw [sinceReset_snoc hreset, reportsOf_snoc]
  have hP : reportsOf op (sinceStatus (calls ++ [c])) = reportsOf op (sinceStatus calls) ++ reportsOf op [c] := by
    rw [sinceStatus_snoc hreset hstatus, reportsOf_snoc]
  have hnoReset : c ≠ .reset := by
    rintro rfl
    cases hreset
  have hnoStatus : c ≠ .getStatusMsg := by
    rintro rfl
    cases hstatus
  constructor
  · exact hon
  · rw [hR, hP, h.reports, List.append_assoc]
  · rw [printedBeforeReset_snoc, ← h.carried]; simp [hnoReset]
  · rw [printed_snoc, ← h.printed]; simp [hnoStatus]
  · exact h.old_length
  · rw [hcount, hR]
  · rw [hsum, hR]
  · rw [hlast, h.lastCount]
  · rw [hlastSum, h.lastLatencySum]
  · rw [hmsgs]; exact h.periods_nil
  · rw [hmsgs]; exact h.periods_mod
  · rw [hmsgs]; exact h.periods_eq

theorem start (h : Tally op calls s old seen) (now : ℤ) :
    Tally op (calls ++ [.start now]) (s.call (.start now)) old seen := by
  have hnone : reportsOf op [.start now] = [] := rfl
  refine h.extend rfl rfl h.reportOn ?_ ?_ rfl rfl rfl
  · rw [hnone, List.append_nil]
    exact h.count
  · rw [hnone, List.append_nil]
    exact h.latencySum

theorem report_eq (h : Tally op calls s old seen) (now : ℤ) (op' : OpType) (latency : ℕ) :
    s.call (.report now op' latency) =
      ⟨{ s.measurements with toBasicMeasurements := s.measurements.book op' latency }, s.msgs⟩ := by
  show StatusLog.mk (s.measurements.report now op' latency) s.msgs = _
  rw [StatusMeasurements.report, if_pos h.reportOn]

theorem report (h : Tally op calls s old seen) (now : ℤ) (op' : OpType) (latency : ℕ)
    (hbound : (reportsOf op (calls ++ [.report now op' latency])).length < 2 ^ 32) :
    Tally op (calls ++ [.report now op' latency]) (s.call (.report now op' latency)) old seen := by
  have hlen := (length_le op (calls ++ [.report now op' latency])).trans_lt hbound
  rw [sinceReset_snoc rfl, reportsOf_snoc] at hlen
  rw [h.report_eq]
  by_cases hop : op' = op
  · subst hop
    have hone : reportsOf op' [.report now op' latency] = [latency] := by simp [reportsOf]
    refine h.extend rfl rfl h.reportOn ?_ ?_ rfl rfl rfl
    · rw [hone, List.length_append, List.length_singleton] at hlen ⊢
      simp only [BasicMeasurements.book, Function.update_self, h.count]
      exact Nat.mod_eq_of_lt hlen
    · rw [hone, List.sum_append, List.sum_singleton]
      simp only [BasicMeasurements.book, Function.update_self, h.latencySum]
      exact Nat.mod_add_mod _ _ _
  · have hnone : reportsOf op [.report now op' latency] = [] := by simp [reportsOf, hop]
    refine h.extend rfl rfl h.reportOn ?_ ?_ rfl rfl rfl
    · rw [hnone, List.append_nil, ← h.count]
      exact Function.update_of_ne (Ne.symm hop) _ _
    · rw [hnone, List.append_nil, ← h.latencySum]
      exact Function.update_of_ne (Ne.symm hop) _ _

theorem reset (h : Tally op calls s old seen) (hbound : (reportsOf op calls).length < 2 ^ 32) :
    Tally op (calls ++ [.reset]) (s.call .reset) (latest old seen) [] := by
  have hR : reportsOf op (sinceReset (calls ++ [.reset])) = [] := by rw [sinceReset_reset]; rfl
  have hP : reportsOf op (sinceStatus (calls ++ [.reset])) = [] := by rw [sinceStatus_boundary (Or.inl rfl)]; rfl
  have hne : latest old seen ≠ [] ↔ old ≠ [] ∨ seen ≠ [] := by
    unfold latest
    by_cases hseen : seen = [] <;> simp [hseen]
  constructor
  · exact h.reportOn
  · rw [hR, hP]; rfl
  · rw [printedBeforeReset_snoc, h.carried, h.printed, hne]
    simp
  · rw [printed_snoc, h.printed, hne]
    simp
  · exact h.latest_length_le hbound
  · rw [hR]; rfl
  · rw [hR]; rfl
  · exact h.lastCount
  · exact h.lastLatencySum
  · exact fun _ => rfl
  · exact fun hseen => absurd rfl hseen
  · exact fun _ => rfl

theorem periodCounts_snoc (op : OpType) (msgs : List StatusMsg) (m : StatusMeasurements) :
    periodCounts op (msgs ++ [m.getStatusMsg.1]) =
      periodCounts op msgs ++ if m.count op ≠ 0 then [(m.statusLine op).periodCount] else [] := by
  unfold periodCounts
  rw [List.flatMap_append, List.filter_append, List.map_append, List.flatMap_singleton,
    StatusMeasurements.getStatusMsg_eq,
    m.filter_printed op StatusMeasurements.nodup_all (StatusMeasurements.mem_all op)]
  split <;> rfl

theorem count_ne_zero (h : Tally op calls s old seen) :
    s.measurements.count op ≠ 0 ↔ reportsOf op (sinceReset calls) ≠ [] := by
  rw [h.count, Ne, List.length_eq_zero_iff]

theorem periodCount_eq (h : Tally op calls s old seen) : (s.measurements.statusLine op).periodCount =
    u64Sub (reportsOf op (sinceReset calls)).length (latest old seen).length := by
  show u64Sub (s.measurements.count op) (s.measurements.lastCount op) = _
  rw [h.count, h.lastCount]

theorem seen_length_le (h : Tally op calls s old seen) : seen.length ≤ (reportsOf op (sinceReset calls)).length := by
  rw [h.reports, List.length_append]
  exact Nat.le_add_right _ _

/-- The counts of the periods once the operation has been printed again. -/
theorem periods_printed (h : Tally op calls s old seen) (hbound : (reportsOf op calls).length < 2 ^ 32) :
    ((periodCounts op s.msgs).sum + (s.measurements.statusLine op).periodCount + old.length) % 2 ^ 64 =
      (reportsOf op (sinceReset calls)).length := by
  have hlen := (length_le op calls).trans_lt hbound
  have hle := h.seen_length_le
  rw [h.periodCount_eq]
  unfold latest
  split
  · rename_i hseen
    rw [h.periods_nil hseen, Nat.zero_add, u64Sub_add_mod (by have := h.old_length; omega)]
    exact Nat.mod_eq_of_lt (by omega)
  · rename_i hseen
    have hmod := h.periods_mod hseen
    rw [u64Sub_of_le hle (by omega)]
    omega

theorem periods_clear (h : Tally op calls s old seen) (hbound : (reportsOf op calls).length < 2 ^ 32)
    (hold : old = []) : (periodCounts op s.msgs).sum + (s.measurements.statusLine op).periodCount =
      (reportsOf op (sinceReset calls)).length := by
  have hlen := (length_le op calls).trans_lt hbound
  have hle := h.seen_length_le
  have hlatest : latest old seen = seen := by unfold latest; split <;> simp_all
  rw [h.periodCount_eq, hlatest, h.periods_eq hold, u64Sub_of_le hle (by omega)]
  omega

theorem status (h : Tally op calls s old seen) (hbound : (reportsOf op calls).length < 2 ^ 32) :
    Tally op (calls ++ [.getStatusMsg]) (s.call .getStatusMsg) old (reportsOf op (sinceReset calls)) := by
  have hm : (s.call .getStatusMsg).measurements = s.measurements.seen OpType.all := by
    rw [StatusLog.call_getStatusMsg]
  have hmsgs : periodCounts op (s.call .getStatusMsg).msgs = periodCounts op s.msgs ++
      if s.measurements.count op ≠ 0 then [(s.measurements.statusLine op).periodCount] else [] := by
    rw [StatusLog.call_getStatusMsg]
    exact periodCounts_snoc op s.msgs s.measurements
  have hR : reportsOf op (sinceReset (calls ++ [.getStatusMsg])) = reportsOf op (sinceReset calls) := by
    rw [sinceReset_snoc rfl, reportsOf_snoc]
    exact List.append_nil _
  have hP : reportsOf op (sinceStatus (calls ++ [.getStatusMsg])) = [] := by
    rw [sinceStatus_boundary (Or.inr rfl)]
    rfl
  have hseen : seen ≠ [] → reportsOf op (sinceReset calls) ≠ [] := by
    intro hne hnil
    rw [h.reports] at hnil
    exact hne (List.append_eq_nil_iff.mp hnil).1
  -- the reports seen become all those since the reset
  constructor
  · rw [hm]; exact h.reportOn
  · rw [hR, hP, List.append_nil]
  · rw [printedBeforeReset_snoc, ← h.carried]; simp
  · rw [printed_snoc, h.printed]
    simp only [true_and]
    constructor
    · exact fun hp => hp.elim (Or.imp_right hseen) Or.inr
    · exact fun hp => hp.elim (fun hold => Or.inl (Or.inl hold)) Or.inr
  · exact h.old_length
  · rw [hm, hR]; exact h.count
  · rw [hm, hR]; exact h.latencySum
  · rw [hm]
    simp only [StatusMeasurements.seen, StatusMeasurements.mem_all, true_and, h.count_ne_zero, latest]
    by_cases hne : reportsOf op (sinceReset calls) = []
    · have hnil : seen = [] := by_contra fun hs => hseen hs hne
      simp [hne, h.lastCount, latest, hnil]
    · simp [hne, h.count]
  · rw [hm]
    simp only [StatusMeasurements.seen, StatusMeasurements.mem_all, true_and, h.count_ne_zero, latest]
    by_cases hne : reportsOf op (sinceReset calls) = []
    · have hnil : seen = [] := by_contra fun hs => hseen hs hne
      simp [hne, h.lastLatencySum, latest, hnil]
    · simp [hne, h.latencySum]
  · intro hnil
    have hs : seen = [] := by_contra fun hs => hseen hs hnil
    rw [hmsgs, if_neg (fun hc => (h.count_ne_zero.mp hc) hnil), List.append_nil]
    exact h.periods_nil hs
  · intro hne
    rw [hmsgs, if_pos (h.count_ne_zero.mpr hne), List.sum_append, List.sum_singleton]
    exact h.periods_printed hbound
  · intro hold
    rw [hmsgs, List.sum_append]
    by_cases hne : reportsOf op (sinceReset calls) = []
    · have hs : seen = [] := by_contra fun hs => hseen hs hne
      rw [if_neg (fun hc => (h.count_ne_zero.mp hc) hne), h.periods_nil hs, hne]
      rfl
    · rw [if_pos (h.count_ne_zero.mpr hne), List.sum_singleton]
      exact h.periods_clear hbound hold

theorem step (h : Tally op calls s old seen) (c : StatusCall) (hbound : (reportsOf op (calls ++ [c])).length < 2 ^ 32) :
    ∃ old seen, Tally op (calls ++ [c]) (s.call c) old seen := by
  have hcalls : (reportsOf op calls).length < 2 ^ 32 := by
    rw [reportsOf_snoc, List.length_append] at hbound
    omega
  cases c with
  | start now => exact ⟨_, _, h.start now⟩
  | report now op' latency => exact ⟨_, _, h.report now op' latency hbound⟩
  | getStatusMsg => exact ⟨_, _, h.status hcalls⟩
  | reset => exact ⟨_, _, h.reset hcalls⟩

end Tally

theorem tally_after (op : OpType) (secSkip : ℤ) (calls : List StatusCall)
    (hbound : (reportsOf op calls).length < 2 ^ 32) :
    ∃ old seen, Tally op calls (StatusLog.after (.reporting secSkip) calls) old seen := by
  induction calls using List.reverseRecOn with
  | nil => exact ⟨[], [], .init op secSkip⟩
  | append_singleton calls c ih =>
    have hcalls : (reportsOf op calls).length < 2 ^ 32 := by
      rw [reportsOf_snoc, List.length_append] at hbound
      omega
    obtain ⟨old, seen, h⟩ := ih hcalls
    rw [StatusLog.after_snoc]
    exact h.step c hbound

/-! ## Every message of a run -/

theorem Tally.line {op : OpType} {before : List StatusCall} {m : StatusMeasurements} {old seen : List ℕ}
    (h : Tally op before (StatusLog.after m before) old seen) (hbound : (reportsOf op before).length < 2 ^ 32)
    (hne : reportsOf op (sinceReset before) ≠ []) :
    ((m.after before).statusLine op).periodCount = (reportsOf op (sinceStatus before)).length ∧
      ((m.after before).statusLine op).periodLatencySum = (reportsOf op (sinceStatus before)).sum ∧
      (periodCounts op (StatusLog.after m (before ++ [.getStatusMsg])).msgs).sum =
        ((m.after before).statusLine op).count ↔
      ¬ PrintedBeforeReset op before ∧ (reportsOf op (sinceStatus before)).sum < 2 ^ 64 := by
  have hnext := h.status hbound
  have hlen := (Tally.length_le op before).trans_lt hbound
  have hperiod := h.periodCount_eq
  have hcount := h.count
  have hsum := h.latencySum
  have hlastSum := h.lastLatencySum
  rw [← StatusLog.after_snoc] at hnext
  rw [StatusLog.after_measurements] at hperiod hcount hsum hlastSum
  have hline : ((m.after before).statusLine op).periodLatencySum =
      u64Sub ((m.after before).latencySum op) ((m.after before).lastLatencySum op) := rfl
  have hlineCount : ((m.after before).statusLine op).count = (m.after before).count op := rfl
  rw [h.carried, not_not, hline, hlineCount, hcount]
  constructor
  · rintro ⟨-, hlatency, hperiods⟩
    refine ⟨by_contra fun hold => ?_, hlatency ▸ u64Sub_lt _ _⟩
    -- the counts printed since the reset are off by what was left in `last_count_`
    have hmod := hnext.periods_mod hne
    have hold' := h.old_length
    have hpos := List.length_pos_of_ne_nil hold
    rw [hperiods] at hmod
    omega
  · rintro ⟨hold, hlt⟩
    have hlatest : latest old seen = seen := by unfold latest; split <;> simp_all
    rw [hlatest] at hperiod hlastSum
    refine ⟨?_, ?_, hnext.periods_eq hold⟩
    · rw [hperiod, u64Sub_of_le h.seen_length_le (by omega), h.reports, List.length_append]
      omega
    · rw [hsum, hlastSum, h.reports, List.sum_append, u64Sub_mod_add, Nat.mod_eq_of_lt hlt]

theorem tally_before (secSkip : ℤ) {calls before : List StatusCall}
    (hbound : ∀ op, (reportsOf op calls).length < 2 ^ 32) (hbefore : before ++ [.getStatusMsg] <+: calls)
    (op : OpType) :
    (reportsOf op before).length < 2 ^ 32 ∧
      ∃ old seen, Tally op before (StatusLog.after (.reporting secSkip) before) old seen := by
  have hle : (reportsOf op before).length ≤ (reportsOf op calls).length :=
    (((List.prefix_append _ _).trans hbefore).sublist.filterMap _).length_le
  exact ⟨hle.trans_lt (hbound op), tally_after op secSkip before (hle.trans_lt (hbound op))⟩

theorem periodsTelescope_iff (secSkip : ℤ) (calls : List StatusCall)
    (hbound : ∀ op, (reportsOf op calls).length < 2 ^ 32) :
    PeriodsTelescope (.reporting secSkip) calls ↔ PeriodsClear calls := by
  constructor
  · intro h before hbefore op hne
    obtain ⟨hle, old, seen, htally⟩ := tally_before secSkip hbound hbefore op
    have hcount := htally.count_ne_zero.mpr hne
    rw [StatusLog.after_measurements] at hcount
    exact (htally.line hle hne).mp (h before hbefore _ ((StatusMeasurements.mem_lines _).mpr ⟨op, hcount, rfl⟩))
  · intro h before hbefore line hline
    obtain ⟨op, hcount, rfl⟩ := (StatusMeasurements.mem_lines _).mp hline
    obtain ⟨hle, old, seen, htally⟩ := tally_before secSkip hbound hbefore op
    rw [← StatusLog.after_measurements] at hcount
    have hne := htally.count_ne_zero.mp hcount
    exact (htally.line hle hne).mpr (h before hbefore op hne)

/-- Two periods of one insert each. -/
def twoPeriods : List StatusCall :=
  [.report 0 (.done .insert) 5, .getStatusMsg, .report 1 (.done .insert) 7, .getStatusMsg]

theorem reportsOf_length_lt (op : OpType) {calls : List StatusCall} (h : calls.length < 2 ^ 32) :
    (reportsOf op calls).length < 2 ^ 32 := (List.length_filterMap_le _ _).trans_lt h

theorem not_printedBeforeReset {calls : List StatusCall} (h : StatusCall.reset ∉ calls) (op : OpType) :
    ¬ PrintedBeforeReset op calls := by
  rintro ⟨before, hbefore, -⟩
  exact h (hbefore.subset (List.mem_append_right _ (List.mem_singleton_self _)))

theorem periodsTelescope_twoPeriods : PeriodsTelescope (.reporting 0) twoPeriods := by
  refine (periodsTelescope_iff 0 twoPeriods fun op => reportsOf_length_lt op (by decide)).mpr ?_
  intro before hbefore op _
  have hcalls : before <+: twoPeriods := (List.prefix_append _ _).trans hbefore
  refine ⟨not_printedBeforeReset (fun h => by simpa [twoPeriods] using hcalls.subset h) op, ?_⟩
  -- the reports of a period are among those of the run
  have hsub : (reportsOf op (sinceStatus before)).Sublist (reportsOf op twoPeriods) :=
    ((List.rtakeWhile_suffix _ _).sublist.trans hcalls.sublist).filterMap _
  refine (hsub.sum_le_sum fun _ _ => Nat.zero_le _).trans_lt ?_
  by_cases h : OpType.done .insert = op
  · subst h
    decide
  · simp [twoPeriods, reportsOf, h]

/-- Two inserts in the load phase, one in the transaction phase. -/
def loadThenRun : List StatusCall :=
  [.report 0 (.done .insert) 5, .report 1 (.done .insert) 7, .getStatusMsg, .reset, .report 2 (.done .insert) 5,
    .getStatusMsg]

/-- The second message has the period count `2 ^ 64 - 1`. -/
theorem loadThenRun_not_telescope :
    (∀ op, (reportsOf op loadThenRun).length < 2 ^ 32) ∧ ¬ PeriodsTelescope (.reporting 0) loadThenRun := by
  refine ⟨fun op => reportsOf_length_lt op (by decide), fun h => ?_⟩
  have hcount : ((StatusMeasurements.reporting 0).after (loadThenRun.take 5)).count (.done .insert) ≠ 0 := by
    decide +kernel
  have hline := h (loadThenRun.take 5) ⟨[], rfl⟩ _
    ((StatusMeasurements.mem_lines _).mpr ⟨.done .insert, hcount, rfl⟩)
  have hperiod : (((StatusMeasurements.reporting 0).after (loadThenRun.take 5)).statusLine
      (.done .insert)).periodCount = 2 ^ 64 - 1 := by decide +kernel
  rw [hperiod] at hline
  exact absurd hline.1 (by decide +kernel)

end Ycsb
