import Ycsb.Wrapper

/-!
# Discrete generators

`DiscreteGenerator` draws one of its values by its weight. The random number of
`Next` is an argument, and `double` is `ℚ`.
-/

namespace Ycsb

structure DiscreteGenerator (α : Type) where
  values : List (α × ℚ)
  sum : ℚ
  last : Option α

namespace DiscreteGenerator

variable {α : Type}

def empty : DiscreteGenerator α := ⟨[], 0, none⟩

def addValue (g : DiscreteGenerator α) (value : α) (weight : ℚ) : DiscreteGenerator α where
  values := g.values ++ [(value, weight)]
  sum := g.sum + weight
  last := if g.values.isEmpty then some value else g.last

/-- The loop of `Next`. `none` if it falls off the end, which is asserted not to happen. -/
def choose (sum : ℚ) : List (α × ℚ) → ℚ → Option α
  | [], _ => none
  | p :: values, chooser => if chooser < p.2 / sum then some p.1 else choose sum values (chooser - p.2 / sum)

def next (g : DiscreteGenerator α) (chooser : ℚ) : Option (α × DiscreteGenerator α) :=
  (choose g.sum g.values chooser).map fun value => (value, { g with last := some value })

def ofValues (values : List (α × ℚ)) : DiscreteGenerator α :=
  values.foldl (fun g v => g.addValue v.1 v.2) empty

end DiscreteGenerator

/-- The operations in the order of `Init`, with their proportions. -/
def Proportions.weights (p : Proportions) : List (Operation × ℚ) :=
  [(.read, p.read), (.update, p.update), (.insert, p.insert), (.scan, p.scan),
    (.readModifyWrite, p.readModifyWrite), (.rdidx, p.rdidx)]

/-- `op_chooser_` after `Init`. -/
def CoreWorkload.opChooser (p : Proportions) : DiscreteGenerator Operation :=
  p.weights.foldl (fun g v => if 0 < v.2 then g.addValue v.1 v.2 else g) .empty

end Ycsb
