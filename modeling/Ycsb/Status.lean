import Ycsb.Measurements

/-!
# `BasicMeasurements`, one call after the other

The calls of a thread that is not disturbed: `Start`, `Report`, `GetStatusMsg`
and `Reset`. Time points are nanoseconds since the epoch. A status message is
given by the numbers that it prints.
-/

namespace Ycsb

def Operation.all : List Operation := [.insert, .read, .update, .scan, .readModifyWrite, .delete, .rdidx]

/-- The indices below `MAXOPTYPE`. -/
def OpType.all : List OpType := Operation.all.map .done ++ Operation.all.map .failed

structure StatusMeasurements extends BasicMeasurements where
  start : ℤ
  lastCount : OpType → ℕ
  lastLatencySum : OpType → ℕ

/-- `Period Avg` is `periodLatencySum` by `periodCount`. -/
structure StatusLine where
  op : OpType
  count : ℕ
  max : ℕ
  min : ℕ
  latencySum : ℕ
  periodCount : ℕ
  periodLatencySum : ℕ

structure StatusMsg where
  totalCount : ℕ
  lines : List StatusLine

/-- `duration_cast<seconds>`, which truncates. -/
def elapsedSeconds (start now : ℤ) : ℤ := (now - start).tdiv (10 ^ 9)

/-- The test by which `Report` switches itself on; `sec_skip_ + 10` is a sum of two `int`s. -/
def opens (secSkip start now : ℤ) : Bool :=
  decide (secSkip < elapsedSeconds start now ∧ elapsedSeconds start now < (secSkip + 10).bmod (2 ^ 32))

/-- What `Report` adds to the cells of an operation. -/
def BasicMeasurements.book (m : BasicMeasurements) (op : OpType) (latency : ℕ) : BasicMeasurements :=
  { m with
    count := Function.update m.count op ((m.count op + 1) % 2 ^ 32)
    latencySum := Function.update m.latencySum op ((m.latencySum op + latency) % 2 ^ 64)
    latencyMin := Function.update m.latencyMin op (min (m.latencyMin op) latency)
    latencyMax := Function.update m.latencyMax op (max (m.latencyMax op) latency) }

inductive StatusCall where
  | start (now : ℤ)
  | report (now : ℤ) (op : OpType) (latency : ℕ)
  | getStatusMsg
  | reset

namespace StatusMeasurements

/-- A clock that was never set is at the epoch. -/
def init (secSkip : ℤ) : StatusMeasurements where
  toBasicMeasurements := .init secSkip
  start := 0
  lastCount := fun _ => 0
  lastLatencySum := fun _ => 0

variable (m : StatusMeasurements)

def report (now : ℤ) (op : OpType) (latency : ℕ) : StatusMeasurements :=
  if m.reportOn then { m with toBasicMeasurements := m.book op latency }
  else { m with reportOn := opens m.secSkip m.start now }

def statusLine (op : OpType) : StatusLine where
  op := op
  count := m.count op
  max := m.latencyMax op
  min := m.latencyMin op
  latencySum := m.latencySum op
  periodCount := u64Sub (m.count op) (m.lastCount op)
  periodLatencySum := u64Sub (m.latencySum op) (m.lastLatencySum op)

/-- One turn of the loop of `GetStatusMsg`. -/
def statusStep (s : StatusMsg × StatusMeasurements) (op : OpType) : StatusMsg × StatusMeasurements :=
  let (msg, m) := s
  let cnt := m.count op
  if cnt = 0 then s
  else
    (⟨u64 (msg.totalCount + cnt), msg.lines ++ [m.statusLine op]⟩,
      { m with
        lastLatencySum := Function.update m.lastLatencySum op (m.latencySum op)
        lastCount := Function.update m.lastCount op cnt })

def getStatusMsg : StatusMsg × StatusMeasurements := OpType.all.foldl statusStep (⟨0, []⟩, m)

/-- `last_count_` and `last_latency_sum_` stay. -/
def reset : StatusMeasurements :=
  { m with
    count := fun _ => 0
    latencySum := fun _ => 0
    latencyMin := fun _ => 2 ^ 64 - 1
    latencyMax := fun _ => 0 }

def call : StatusCall → StatusMeasurements
  | .start now => { m with start := now }
  | .report now op latency => m.report now op latency
  | .getStatusMsg => m.getStatusMsg.2
  | .reset => m.reset

def after (calls : List StatusCall) : StatusMeasurements := calls.foldl call m

end StatusMeasurements

end Ycsb
