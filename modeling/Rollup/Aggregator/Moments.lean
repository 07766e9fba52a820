import Rollup.Binary64.Arithmetic
import Rollup.Encoding.Persistent

/-!
# Moments

The number of values, their sum and the sum of their squares, from which the variance is found in
one pass. The state is generic in its numbers.
-/

namespace Rollup

/-- The first moments of the values of a bucket. -/
structure Moments (α : Type) where
  sum : α
  sumOfSquares : α
  count : Nat
deriving DecidableEq

namespace Moments

variable {α : Type} [Add α] [Sub α] [Mul α] [Div α] [IntCast α] [Max α]

def fresh : Moments α := ⟨((0 : Int) : α), ((0 : Int) : α), 0⟩

def append (s : Moments α) (value : α) : Moments α :=
  ⟨s.sum + value, s.sumOfSquares + value * value, s.count + 1⟩

/-- The mean squared distance from the mean; `none` of no values. Rounding can take a result that
should be zero just below it, so it is raised to zero. -/
def population? (s : Moments α) : Option α :=
  if s.count = 0 then none
  else
    let n := ((s.count : Int) : α)
    let mean := s.sum / n
    let spread := s.sumOfSquares - ((2 : Int) : α) * s.sum * mean + mean * mean * n
    some (max (spread / n) ((0 : Int) : α))

/-- The variance that a sample suggests for its population; zero of a single value, `none` of no
values. -/
def sample? (s : Moments α) : Option α :=
  if s.count = 1 then some ((0 : Int) : α)
  else
    let n := ((s.count : Int) : α)
    s.population?.map fun variance => variance * n / (n - ((1 : Int) : α))

instance : Persistent (Moments Binary64) where
  fields s := [.double s.sum, .double s.sumOfSquares, .unsigned (UInt64.ofNat s.count)]
  load _ := do
    let sum ← Reader.double
    let sumOfSquares ← Reader.double
    let count ← Reader.unsigned
    return ⟨sum, sumOfSquares, count.toNat⟩

end Moments
end Rollup
