import Ycsb.Status

/-!
# The warm-up

During the first `sec_skip` seconds of a run nothing counts: neither in what
`ClientThread` returns, nor in the measurements. Each tells by a clock of its own
when the warm-up is over.
-/

namespace Ycsb

/-! ## The operations that `ClientThread` counts -/

namespace ClientThread

/-- One turn of the loop: the seconds since its start, and what `DoInsert` or `DoTransaction` returns. -/
structure Turn where
  elapse : ℤ
  ok : Bool

structure Counters where
  countOn : Bool
  skippedOk : ℕ
  oks : ℕ

def init (secSkip : ℤ) : Counters := ⟨decide (secSkip = 0), 0, 0⟩

def turn (secSkip : ℤ) (c : Counters) (t : Turn) : Counters :=
  let c := if c.countOn then c else { c with countOn := decide (secSkip < t.elapse), skippedOk := c.oks }
  { c with oks := c.oks + t.ok.toNat }

def result (secSkip : ℤ) (turns : List Turn) : ℤ :=
  let c := turns.foldl (turn secSkip) (init secSkip)
  c.oks - c.skippedOk

/-- The turns from the first one after the warm-up on. -/
def afterWarmup (secSkip : ℤ) (turns : List Turn) : List Turn :=
  if secSkip = 0 then turns else turns.dropWhile fun t => !decide (secSkip < t.elapse)

def CountsExactly (secSkip : ℤ) (turns : List Turn) : Prop :=
  result secSkip turns = (afterWarmup secSkip turns).countP Turn.ok

end ClientThread

/-! ## The reports that are booked -/

/-- What happens in a run: the status thread, if there is one, starts the clock, and the clients report. -/
inductive RunEvent where
  | start (now : ℤ)
  | report (now : ℤ) (op : OpType) (latency : ℕ)

namespace RunEvent

def call : RunEvent → StatusCall
  | start now => .start now
  | report now op latency => .report now op latency

/-- A report more than `secSkip` seconds after the start of the run. -/
def late (secSkip runStart : ℤ) : RunEvent → Bool
  | start _ => false
  | report now _ _ => decide (secSkip * 10 ^ 9 < now - runStart)

end RunEvent

def StatusMeasurements.during (secSkip : ℤ) (events : List RunEvent) : StatusMeasurements :=
  (init secSkip).after (events.map RunEvent.call)

/-- Reports after the first late one are booked, reports before it are not. -/
def MeasuresAfterWarmup (secSkip runStart : ℤ) (events : List RunEvent) : Prop :=
  ∀ before now op latency, before ++ [.report now op latency] <+: events →
    let m := StatusMeasurements.during secSkip before
    let m' := m.report now op latency
    ((∃ e ∈ before, e.late secSkip runStart = true) → m'.toBasicMeasurements = m.book op latency) ∧
    ((∀ e ∈ before ++ [.report now op latency], e.late secSkip runStart = false) →
      ∃ reportOn, m'.toBasicMeasurements = { m.toBasicMeasurements with reportOn })

/-- The start of the clock in the last event, or the epoch. -/
def startOf (events : List RunEvent) : ℤ :=
  events.foldl (fun start e => match e with | .start now => now | .report _ _ _ => start) 0

/-- Some report passes the test by which `Report` switches itself on. -/
def Opened (secSkip : ℤ) (events : List RunEvent) : Prop :=
  ∃ before now op latency, before ++ [.report now op latency] <+: events ∧
    opens (secSkip.bmod (2 ^ 32)) (startOf before) now = true

end Ycsb
