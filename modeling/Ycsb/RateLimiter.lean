import Mathlib.Algebra.BigOperators.Fin
import Ycsb.Lib.TokenBucket
import Ycsb.Lib.Trans

/-!
# Rate limiters

`main` gives each client thread a limiter with its share of `limit.ops`, and
starts the thread. A thread calls `Consume(1)` before each operation. Times are
in nanoseconds; integers do not overflow here.
-/

namespace Ycsb

open Lib

def tokenPrecision : ℤ := 10000

def nanos : ℤ := 1000000000

structure RateLimiter where
  r : ℤ
  b : ℤ
  tokens : ℤ
  last : ℤ

namespace RateLimiter

def new (r b now : ℤ) : RateLimiter := ⟨r * tokenPrecision, b * tokenPrecision, 0, now⟩

def refill (l : RateLimiter) (now : ℤ) : RateLimiter :=
  { l with tokens := min l.b (l.tokens + ((now - l.last) * l.r).tdiv nanos), last := now }

/-- `Consume(n)` at time `now`: the limiter, and how long to sleep if at all. -/
def consume (l : RateLimiter) (n now : ℤ) : RateLimiter × Option ℤ :=
  if l.r ≤ 0 then (l, none)
  else
    let l := l.refill now
    let l := { l with tokens := l.tokens - n * tokenPrecision }
    if l.tokens < 0 then (l, some ((-l.tokens * nanos).tdiv l.r)) else (l, none)

/-- `SetRate(r)` at time `now`. Its refill is not that of `Consume`: `r_` is scaled already. -/
def setRate (l : RateLimiter) (r now : ℤ) : RateLimiter :=
  { l with
    r := r * tokenPrecision
    tokens := min l.b (l.tokens + ((now - l.last) * l.r * tokenPrecision).tdiv nanos)
    last := now }

def toBucket (l : RateLimiter) : Bucket := ⟨l.r, l.b, l.tokens, l.last⟩

def InInt64 (x : ℤ) : Prop := -2 ^ 63 ≤ x ∧ x < 2 ^ 63

/-- What a signed 64-bit register holds of an integer. -/
def int64 (x : ℤ) : ℤ := x.bmod (2 ^ 64)

/-- `Consume(n)` in the arithmetic of the machine. -/
def consume64 (l : RateLimiter) (n now : ℤ) : RateLimiter × Option ℤ :=
  if l.r ≤ 0 then (l, none)
  else
    let diff := int64 (now - l.last)
    let l := { l with tokens := min l.b (int64 (l.tokens + (int64 (diff * l.r)).tdiv nanos)), last := now }
    let l := { l with tokens := int64 (l.tokens - n * tokenPrecision) }
    if l.tokens < 0 then (l, some ((int64 (-l.tokens * nanos)).tdiv l.r)) else (l, none)

/-! ## Calls from several places -/

/-- A call and the time on the clock. -/
inductive Request where
  | consume (now : ℤ)
  | setRate (r now : ℤ)

def step (l : RateLimiter) : Request → Option RateLimiter
  | .consume now => if l.last ≤ now then some (l.consume 1 now).1 else none
  | .setRate r now => if l.last ≤ now then some (l.setRate r now) else none

end RateLimiter

/-! ## One client -/

/-- A client that calls `Consume(1)` again and again: how long its last call asked to sleep, and
when it returned. -/
structure SingleClient where
  limiter : RateLimiter
  sleep : ℤ
  returned : ℤ

/-- The clock that a call reads, and the time when it returns. -/
structure ConsumeCall where
  read : ℤ
  returns : ℤ

namespace SingleClient

def init (r b now : ℤ) : SingleClient := ⟨.new r b now, 0, now⟩

def step (s : SingleClient) (c : ConsumeCall) : Option SingleClient :=
  let (l, wait) := s.limiter.consume 1 c.read
  let sleep := wait.getD 0
  if s.returned ≤ c.read ∧ c.read + sleep ≤ c.returns then some ⟨l, sleep, c.returns⟩ else none

end SingleClient

/-! ## The threads of a phase -/

/-- The limiter of a thread in either phase, null if there is no limit; the load
phase has no rate file. -/
def makeLimiter (opsLimit : ℤ) (rateFile : Bool) (numThreads : ℕ) (now : ℤ) : Option RateLimiter :=
  if opsLimit > 0 ∨ rateFile = true then
    let perThreadOps := opsLimit.tdiv numThreads
    some (.new perThreadOps perThreadOps now)
  else none

/-- The clock counts from the start of the first thread. `wake i` is the time from
which thread `i` may return from the `Consume` it is in, `returned i` are the
times at which it has returned. -/
structure Limits (T : ℕ) where
  clock : ℕ
  started : ℕ
  rlim : Fin T → Option RateLimiter
  wake : Fin T → Option ℤ
  ops : Fin T → ℕ
  returned : Fin T → List ℕ

inductive LimitEvent (T : ℕ) where
  | tick (d : ℕ)
  | start
  | consume (i : Fin T)
  | ret (i : Fin T)

namespace Limits

variable {T : ℕ}

def init (numOps : Fin T → ℕ) : Limits T := ⟨0, 0, fun _ => none, fun _ => none, numOps, fun _ => []⟩

/-- A sleep may last longer than requested, so a thread that may return need not. -/
def step (opsLimit : ℤ) (s : Limits T) : LimitEvent T → Option (Limits T)
  | .tick d => if s.started = 0 then none else some { s with clock := s.clock + d }
  | .start =>
    if h : s.started < T then
      some { s with
        rlim := Function.update s.rlim ⟨s.started, h⟩ (makeLimiter opsLimit false T s.clock)
        started := s.started + 1 }
    else none
  | .consume i =>
    match s.rlim i, s.wake i, s.ops i with
    | some l, none, n + 1 =>
      let (l, wait) := l.consume 1 s.clock
      some { s with
        rlim := Function.update s.rlim i (some l)
        wake := Function.update s.wake i (some (s.clock + wait.getD 0))
        ops := Function.update s.ops i n }
    | _, _, _ => none
  | .ret i =>
    match s.wake i with
    | some w =>
      if w ≤ s.clock then
        some { s with
          wake := Function.update s.wake i none
          returned := Function.update s.returned i (s.returned i ++ [s.clock]) }
      else none
    | none => none

def returnedBy (s : Limits T) (e : ℕ) : ℕ := ∑ i, (s.returned i).countP fun t => t ≤ e

end Limits

end Ycsb
