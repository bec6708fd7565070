import Mathlib.Algebra.Field.Defs
import Mathlib.Algebra.Order.Floor.Defs
import Ycsb.Counter

/-!
# Zipfian generators

`double` is a division ring, `pow` its power and `floor` the conversion to an integer.
The draw of each `Next` is an argument. A failed assertion is `none`.
-/

namespace Ycsb

def kMaxNumItems : ℕ := (2 ^ 64 - 1) >>> 24

structure ZipfianGenerator (K : Type) where
  items : ℕ
  base : ℕ
  theta : K
  zetaN : K
  eta : K
  alpha : K
  zeta2 : K
  countForZeta : ℕ
  lastValue : ℕ

section
variable {K : Type} [DivisionRing K] [LinearOrder K] [FloorSemiring K] (pow : K → K → K)

namespace ZipfianGenerator

def zetaFrom (lastNum curNum : ℕ) (theta lastZeta : K) : K :=
  (List.range' (lastNum + 1) (curNum - lastNum)).foldl (fun zeta (i : ℕ) => zeta + 1 / pow i theta) lastZeta

def zeta (num : ℕ) (theta : K) : K := zetaFrom pow 0 num theta 0

/-- The two parameters that vary are `items_` and `zeta_n_`. -/
def etaOf (g : ZipfianGenerator K) : K :=
  (1 - pow (2 / g.items) (1 - g.theta)) / (1 - g.zeta2 / g.zetaN)

/-- A smaller number changes nothing: `allow_count_decrease_` is false. -/
def recompute (g : ZipfianGenerator K) (num : ℕ) : ZipfianGenerator K :=
  if g.countForZeta < num then
    let g := { g with zetaN := zetaFrom pow g.countForZeta num g.theta g.zetaN, countForZeta := num }
    { g with eta := etaOf pow g }
  else g

def sample (g : ZipfianGenerator K) (num : ℕ) (u : K) : ℕ :=
  let uz := u * g.zetaN
  if uz < 1 then g.base
  else if uz < 1 + pow (1 / 2) g.theta then u64 (g.base + 1)
  else u64 ⌊g.base + num * pow (g.eta * u - g.eta + 1) g.alpha⌋₊

def next (g : ZipfianGenerator K) (num : ℕ) (u : K) : Option (ZipfianGenerator K) :=
  if 2 ≤ num ∧ num < kMaxNumItems then
    let g := recompute pow g num
    some { g with lastValue := sample pow g num u }
  else none

/-- The members after the body of the constructor; `last_value_` is set by the `Next` at its end. -/
def construct (items min : ℕ) (zipfianConst : K) : ZipfianGenerator K :=
  let g : ZipfianGenerator K :=
    { items
      base := min
      theta := zipfianConst
      zetaN := zeta pow items zipfianConst
      eta := 0
      alpha := 1 / (1 - zipfianConst)
      zeta2 := zeta pow 2 zipfianConst
      countForZeta := items
      lastValue := 0 }
  { g with eta := etaOf pow g }

def init (min max : ℕ) (zipfianConst u : K) : Option (ZipfianGenerator K) :=
  let items := u64 (u64Sub max min + 1)
  if 2 ≤ items ∧ items < kMaxNumItems then (construct pow items min zipfianConst).next pow items u else none

def ofItems (items : ℕ) (zipfianConst u : K) : Option (ZipfianGenerator K) :=
  init pow 0 (u64Pred items) zipfianConst u

/-- `Next` for each number, with its draw. -/
def nexts (g : ZipfianGenerator K) : List (ℕ × K) → Option (ZipfianGenerator K)
  | [] => some g
  | c :: calls => (g.next pow c.1 c.2).bind fun g => nexts g calls

end ZipfianGenerator

/-- Draws from the numbers handed out so far, the latest most often. -/
structure SkewedLatestGenerator (K : Type) where
  zipfian : ZipfianGenerator K
  last : ℕ

namespace SkewedLatestGenerator

/-- `max` is what `basis_.Last()` returns. -/
def next (g : SkewedLatestGenerator K) (max : ℕ) (u : K) : Option (SkewedLatestGenerator K) :=
  (g.zipfian.next pow max u).map fun zipfian => ⟨zipfian, u64Sub max zipfian.lastValue⟩

def nexts (g : SkewedLatestGenerator K) : List (ℕ × K) → Option (SkewedLatestGenerator K)
  | [] => some g
  | c :: calls => (g.next pow c.1 c.2).bind fun g => nexts g calls

end SkewedLatestGenerator

end

end Ycsb
