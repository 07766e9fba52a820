import Rollup.Binary64.Arithmetic
import Rollup.Encoding.Persistent

/-!
# Mean

The values are summed as long as their sum stays finite. When the next addition would leave the
finite numbers, the sum is turned into the mean of the values so far, and from then on the mean
itself is carried along:

  `mean n = mean (n - 1) + (x / n - mean (n - 1) / n)`

The state is generic in its numbers. Over binary64 the switch is taken by `overflows`; the step
itself takes it as an argument, since the mean is the same wherever it is taken.
-/

namespace Rollup

/-- The values of a bucket, to take the mean of. -/
structure Mean (α : Type) where
  /-- The sum of the values, or their mean if `isMean`. -/
  total : α
  count : Nat
  isMean : Bool
deriving DecidableEq

namespace Mean

variable {α : Type} [Add α] [Sub α] [Mul α] [Div α] [IntCast α]

def fresh : Mean α := ⟨((0 : Int) : α), 0, false⟩

/-- The mean of `n` values from the mean of all but the last one. Both terms are divided before they
are subtracted, so neither of them leaves the finite numbers. -/
def carry (mean value : α) (n : Nat) : α :=
  mean + (value / ((n : Int) : α) - mean / ((n : Int) : α))

/-- The state after one more value; `full` tells that the sum cannot take it. -/
def step (full : Bool) (s : Mean α) (value : α) : Mean α :=
  let count := s.count + 1
  if s.isMean then ⟨carry s.total value count, count, true⟩
  -- The sum becomes the mean of the values so far before the new value joins it.
  else if full then ⟨carry (s.total / ((s.count : Int) : α)) value count, count, true⟩
  else ⟨s.total + value, count, false⟩

/-- The mean; `none` of no values. -/
def result? (s : Mean α) : Option α :=
  if s.count = 0 then none
  else if s.isMean then some s.total
  else some (s.total / ((s.count : Int) : α))

/-- The sum of two finite numbers would leave the finite numbers. Only numbers of one sign can do
that. -/
def overflows (sum value : Binary64) : Bool :=
  sum.isFinite && value.isFinite && sum.isNegative == value.isNegative
    && decide (Binary64.maxFinite - value.abs < sum.abs)

def append (s : Mean Binary64) (value : Binary64) : Mean Binary64 :=
  s.step (overflows s.total value) value

/-- The count in a stored state: a double that is a natural number, at most the greatest 64-bit
word. -/
def countOfStored (stored : Binary64) : Except LoadFault Nat :=
  let units := stored.toUnits
  if stored.isFinite && decide (0 ≤ units) && decide (units.natAbs % Binary64.unitsPerOne = 0) then
    .ok (Nat.min (units.natAbs / Binary64.unitsPerOne) 0xffffffffffffffff)
  else .error (.averageCount stored)

/-- The count is stored as a double. Layouts before `averageFlag` hold sums only. -/
instance : Persistent (Mean Binary64) where
  fields s := [.double s.total, .double ((s.count : Int) : Binary64), .flag s.isMean]
  load version := do
    let total ← Reader.double
    let stored ← Reader.double
    match countOfStored stored with
    | .error cause => throw (.unloadable cause)
    | .ok count =>
      if Version.averageFlag ≤ version then return ⟨total, count, ← Reader.flag⟩
      else return ⟨total, count, false⟩

end Mean
end Rollup
