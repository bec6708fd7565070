import Mathlib.Data.Fintype.Basic
import Ycsb.Lib.Stream
import Ycsb.RateLimiter

/-!
# The rate file

`RateLimitThread` reads a time and a rate, waits until then, and gives each
limiter its share of the rate, until it is at the end of the file or the run is
over.
-/

namespace Ycsb

open Lib

/-- A wait on the latch, or a call of `SetRate` on a limiter. -/
inductive RateAction (T : ℕ) where
  | awaitFor (seconds : ℤ)
  | setRate (i : Fin T) (r : ℤ)
  deriving DecidableEq

/-- What the locals of each turn hold before they are assigned, and what the latch answers. -/
structure Turns where
  nextTime : ℕ → ℤ
  nextRate : ℕ → ℤ
  done : ℕ → Bool

def setRates (T : ℕ) (nextRate : ℤ) : List (RateAction T) :=
  (List.finRange T).map fun i => .setRate i (nextRate.tdiv T)

/-- `while (!ifs.eof())`. The exception for times that do not increase is made and not thrown. -/
def rateLimitLoop (T : ℕ) (turns : Turns) : ℕ → ℕ → IStream → ℤ → Option (List (RateAction T))
  | 0, _, _, _ => none
  | fuel + 1, turn, ifs, lastTime =>
    if ifs.eof then some []
    else
      let (nextTime, ifs) := ifs.extractInt64 (turns.nextTime turn)
      let (nextRate, ifs) := ifs.extractInt64 (turns.nextRate turn)
      let wait := .awaitFor (RateLimiter.int64 (nextTime - lastTime))
      if turns.done turn then some [wait]
      else (rateLimitLoop T turns fuel (turn + 1) ifs nextTime).map fun actions =>
        wait :: (setRates T nextRate ++ actions)

/-- `RateLimitThread` on a file that opens; `none` if it does not stop within `fuel` turns. -/
def rateLimitThread (T : ℕ) (turns : Turns) (fuel : ℕ) (file : Bytes) : Option (List (RateAction T)) :=
  rateLimitLoop T turns fuel 0 (.ofInput file) 0

end Ycsb
