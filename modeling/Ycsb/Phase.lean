import Ycsb.Measurements
import Ycsb.Warmup

/-!
# A phase of `main`

`main` starts the status thread and the client threads, waits until every client
has initialised, and joins first the clients and then the status thread. The
threads interleave between any two atomic steps of `Report` and `GetStatusMsg`.
-/

namespace Ycsb

structure CountDownLatch where
  count : ℤ

namespace CountDownLatch

def countDown (l : CountDownLatch) : CountDownLatch := ⟨l.count - 1⟩

/-- What `Await` waits for, and what `AwaitFor` and `AwaitForUs` return when they are woken or time out. -/
def isOpen (l : CountDownLatch) : Bool := decide (l.count ≤ 0)

end CountDownLatch

/-! ## `ClientThread` -/

/-- What one `DoInsert` or `DoTransaction` returns, and what its calls of the database report. -/
structure ClientOp where
  ok : Bool
  reports : List (OpType × ℕ)

inductive ClientAct where
  | init
  | countInit
  | turn (ok : Bool)
  | report (op : OpType) (latency : ℕ)
  | cleanup
  | countDown
  deriving DecidableEq

def ClientOp.acts (o : ClientOp) : List ClientAct := .turn o.ok :: o.reports.map fun r => .report r.1 r.2

def clientActs (ops : List ClientOp) (initDb cleanupDb : Bool) : List ClientAct :=
  (if initDb then [.init] else []) ++ .countInit :: ops.flatMap ClientOp.acts ++
    (if cleanupDb then [.cleanup] else []) ++ [.countDown]

/-! ## `StatusThread` -/

/-- What one turn of the loop of `GetStatusMsg` has loaded. -/
inductive LinePoint where
  | count
  | sum (cnt : ℕ)
  | max (cnt sum : ℕ)
  | min (cnt sum max : ℕ)

inductive StatusPoint where
  | await
  | print (done : Bool) (ops : List OpType) (point : LinePoint) (msg : StatusMsg)
  | wait
  | returned

/-- The latches and the cells are `main`'s; `lastCount` and `lastLatencySum` only the status thread uses. -/
structure StatusThread where
  point : StatusPoint
  lastCount : OpType → ℕ
  lastLatencySum : OpType → ℕ
  msgs : List StatusMsg

namespace StatusThread

def init : StatusThread := ⟨.await, fun _ => 0, fun _ => 0, []⟩

def beginMsg (done : Bool) : StatusPoint := .print done OpType.all .count ⟨0, []⟩

variable (t : StatusThread)

def line (op : OpType) (cnt sum max min : ℕ) : StatusLine where
  op := op
  count := cnt
  max := max
  min := min
  latencySum := sum
  periodCount := u64Sub cnt (t.lastCount op)
  periodLatencySum := u64Sub sum (t.lastLatencySum op)

/-- One load of `GetStatusMsg`. -/
def load (m : BasicMeasurements) (done : Bool) (op : OpType) (ops : List OpType) (msg : StatusMsg) :
    LinePoint → StatusThread
  | .count => { t with point := .print done (op :: ops) (.sum (m.count op)) msg }
  | .sum cnt =>
    if cnt = 0 then { t with point := .print done ops .count msg }
    else { t with point := .print done (op :: ops) (.max cnt (m.latencySum op)) msg }
  | .max cnt sum => { t with point := .print done (op :: ops) (.min cnt sum (m.latencyMax op)) msg }
  | .min cnt sum max => {
      msgs := t.msgs
      point := .print done ops .count
        ⟨u64 (msg.totalCount + cnt), msg.lines ++ [t.line op cnt sum max (m.latencyMin op)]⟩
      lastLatencySum := Function.update t.lastLatencySum op sum
      lastCount := Function.update t.lastCount op cnt }

/-- `none` while `init_latch->Await()` blocks, and at the end. If neither interval is positive the
loop prints again at once, and `done` stays false. -/
def step (interval intervalUs : ℤ) (initLatch latch : CountDownLatch) (m : BasicMeasurements) : Option StatusThread :=
  match t.point with
  | .await => if initLatch.isOpen then some { t with point := beginMsg false } else none
  | .print done (op :: ops) point msg => some (t.load m done op ops msg point)
  | .print done [] _ msg => some { t with point := if done then .returned else .wait, msgs := t.msgs ++ [msg] }
  | .wait => some { t with point := beginMsg (decide (0 < interval ∨ 0 < intervalUs) && latch.isOpen) }
  | .returned => none

end StatusThread

/-! ## `Emit` -/

/-- `avg` is `latencySum` by `count`. -/
structure EmitLine where
  op : OpType
  count : ℕ
  max : ℕ
  min : ℕ
  latencySum : ℕ

def BasicMeasurements.emitStep (m : BasicMeasurements) (node : List EmitLine) (op : OpType) : List EmitLine :=
  let cnt := m.count op
  if cnt = 0 then node
  else node ++ [{
    op
    count := cnt
    max := m.latencyMax op
    min := m.latencyMin op
    latencySum := m.latencySum op }]

def BasicMeasurements.emit (m : BasicMeasurements) : List EmitLine := OpType.all.foldl m.emitStep []

/-! ## `main` -/

/-- What the phase is run with. `ops` are the operations that each client performs. -/
structure PhaseCode (T : ℕ) where
  secSkip : ℤ
  showStatus : Bool
  interval : ℤ
  intervalUs : ℤ
  initDb : Fin T → Bool
  cleanupDb : Fin T → Bool
  ops : Fin T → List ClientOp

inductive MainPoint where
  | launch (n : ℕ)
  | await
  | join (n : ℕ) (sum : ℤ)
  | waitStatus (sum : ℤ)
  | summary (sum : ℤ) (node : List EmitLine)

structure PhaseRun (T : ℕ) where
  initLatch : CountDownLatch
  latch : CountDownLatch
  todo : Fin T → List ClientAct
  counters : Fin T → ClientThread.Counters
  reporting : Reporting (Fin T)
  status : StatusThread
  main : MainPoint

/-- `elapse` is what the clocks say to the client, and `spurious` whether its weak exchange fails for no reason. -/
inductive PhaseEvent (T : ℕ) where
  | client (i : Fin T) (elapse : ℤ) (spurious : Bool)
  | status
  | main

namespace PhaseRun

variable {T : ℕ} (p : PhaseCode T) (s : PhaseRun T)

def start : PhaseRun T where
  initLatch := ⟨T⟩
  latch := ⟨T⟩
  todo i := clientActs (p.ops i) (p.initDb i) (p.cleanupDb i)
  counters _ := ClientThread.init p.secSkip
  reporting := .init (Fin T) p.secSkip
  status := .init
  main := .launch 0

/-- The status thread is started before the first client. -/
def launched : ℕ :=
  match s.main with
  | .launch n => n
  | _ => T

def act (i : Fin T) (elapse : ℤ) : ClientAct → PhaseRun T
  | .init | .cleanup => s
  | .countInit => { s with initLatch := s.initLatch.countDown }
  | .turn ok =>
    { s with counters := Function.update s.counters i (ClientThread.turn p.secSkip (s.counters i) ⟨elapse, ok⟩) }
  | .report op latency => { s with reporting := s.reporting.call i op latency elapse }
  | .countDown => { s with latch := s.latch.countDown }

/-- A client finishes the `Report` that it is in before it goes on. -/
def clientStep (i : Fin T) (elapse : ℤ) (spurious : Bool) : Option (PhaseRun T) :=
  if s.launched ≤ i then none
  else if (s.reporting.pending i).isSome then
    (s.reporting.step (.step i spurious)).map fun reporting => { s with reporting }
  else
    match s.todo i with
    | [] => none
    | a :: rest => some (act p { s with todo := Function.update s.todo i rest } i elapse a)

/-- What the future of a client yields. -/
def result (i : Fin T) : ℤ := (s.counters i).oks - (s.counters i).skippedOk

def mainStep : Option (PhaseRun T) :=
  match s.main with
  | .launch n => some { s with main := if n < T then .launch (n + 1) else .await }
  | .await => if s.initLatch.isOpen then some { s with main := .join 0 0 } else none
  | .join n sum =>
    if h : n < T then
      if (s.todo ⟨n, h⟩).isEmpty then some { s with main := .join (n + 1) (sum + s.result ⟨n, h⟩) } else none
    else some { s with main := .waitStatus sum }
  | .waitStatus sum =>
    match p.showStatus, s.status.point with
    | false, _ | true, .returned => some { s with main := .summary sum s.reporting.measurements.emit }
    | true, _ => none
  | .summary _ _ => none

def step : PhaseEvent T → Option (PhaseRun T)
  | .client i elapse spurious => s.clientStep p i elapse spurious
  | .status =>
    if p.showStatus then
      (s.status.step p.interval p.intervalUs s.initLatch s.latch s.reporting.measurements).map
        fun status => { s with status }
    else none
  | .main => s.mainStep p

end PhaseRun

end Ycsb
