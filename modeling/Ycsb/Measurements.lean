import Ycsb.Lib.Trans
import Ycsb.Wrapper

/-!
# `BasicMeasurements`

`Report` books a latency with two `fetch_add`s and two retry loops. The threads'
calls interleave between any two atomic steps.
-/

namespace Ycsb

structure BasicMeasurements where
  secSkip : ℤ
  reportOn : Bool
  count : OpType → ℕ
  latencySum : OpType → ℕ
  latencyMin : OpType → ℕ
  latencyMax : OpType → ℕ

/-- `sec_skip_` is an `int`. -/
def BasicMeasurements.init (secSkip : ℤ) : BasicMeasurements where
  secSkip := secSkip.bmod (2 ^ 32)
  reportOn := secSkip = 0
  count := fun _ => 0
  latencySum := fun _ => 0
  latencyMin := fun _ => 2 ^ 64 - 1
  latencyMax := fun _ => 0

/-- The next step of a `Report`, with the value its loop expects. -/
inductive ReportPoint where
  | addCount
  | addSum
  | loadMin
  | casMin (prevMin : ℕ)
  | loadMax
  | casMax (prevMax : ℕ)

structure ReportCall where
  op : OpType
  latency : ℕ
  point : ReportPoint

namespace ReportCall

/-- One step of a `Report`, `none` when it returns. `spurious`: a weak exchange fails for no reason. -/
def next (r : ReportCall) (m : BasicMeasurements) (spurious : Bool) : BasicMeasurements × Option ReportCall :=
  match r.point with
  | .addCount =>
    ({ m with count := Function.update m.count r.op ((m.count r.op + 1) % 2 ^ 32) }, some { r with point := .addSum })
  | .addSum =>
    ({ m with latencySum := Function.update m.latencySum r.op ((m.latencySum r.op + r.latency) % 2 ^ 64) },
      some { r with point := .loadMin })
  | .loadMin => (m, some { r with point := .casMin (m.latencyMin r.op) })
  | .casMin prevMin =>
    if r.latency < prevMin then
      if m.latencyMin r.op = prevMin ∧ spurious = false then
        ({ m with latencyMin := Function.update m.latencyMin r.op r.latency }, some { r with point := .loadMax })
      else (m, some { r with point := .casMin (m.latencyMin r.op) })
    else (m, some { r with point := .loadMax })
  | .loadMax => (m, some { r with point := .casMax (m.latencyMax r.op) })
  | .casMax prevMax =>
    if prevMax < r.latency then
      if m.latencyMax r.op = prevMax ∧ spurious = false then
        ({ m with latencyMax := Function.update m.latencyMax r.op r.latency }, none)
      else (m, some { r with point := .casMax (m.latencyMax r.op) })
    else (m, none)

end ReportCall

/-- The measurements, and the `Report` that each thread is in. `reports` are the calls made. -/
structure Reporting (ι : Type) where
  measurements : BasicMeasurements
  pending : ι → Option ReportCall
  reports : List (OpType × ℕ)

/-- `elapse` is what the clock says of the seconds since the start. -/
inductive ReportEvent (ι : Type) where
  | call (i : ι) (op : OpType) (latency : ℕ) (elapse : ℤ)
  | step (i : ι) (spurious : Bool)

namespace Reporting

variable {ι : Type} [DecidableEq ι] (s : Reporting ι)

def init (ι : Type) (secSkip : ℤ) : Reporting ι := ⟨.init secSkip, fun _ => none, []⟩

/-- Until reporting is on, a call only looks at the clock. -/
def call (i : ι) (op : OpType) (latency : ℕ) (elapse : ℤ) : Reporting ι :=
  let s := { s with reports := s.reports ++ [(op, latency)] }
  if s.measurements.reportOn then { s with pending := Function.update s.pending i (some ⟨op, latency, .addCount⟩) }
  else
    let secSkip := s.measurements.secSkip
    { s with measurements.reportOn := decide (secSkip < elapse ∧ elapse < (secSkip + 10).bmod (2 ^ 32)) }

def step : ReportEvent ι → Option (Reporting ι)
  | .call i op latency elapse => if (s.pending i).isNone then some (s.call i op latency elapse) else none
  | .step i spurious => (s.pending i).map fun r =>
    let (measurements, p) := r.next s.measurements spurious
    { s with measurements, pending := Function.update s.pending i p }

end Reporting

def reported {ι : Type} (op : OpType) (events : List (ReportEvent ι)) : List ℕ := events.filterMap fun
  | .call _ op' latency _ => if op' = op then some latency else none
  | .step _ _ => none

end Ycsb
