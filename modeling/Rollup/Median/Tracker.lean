import Rollup.Binary64.Arithmetic
import Rollup.Median.Heap

/-!
# Median of a changing multiset

The lower half of the values is kept in a heap with the greatest on top, the upper half in one with
the least on top, and their sizes never differ by more than one. The median is then the top of the
larger half, or the middle between the two tops, and it is kept next to the halves.

The heaps rank their values by the total order; where a value goes when it is inserted, and which
half is searched first when it is deleted, is decided by numeric comparison with the tops and the
median.
-/

namespace Rollup

/-- The values in two halves, with their median. -/
structure MedianTracker where
  lower : Heap Binary64.totalGt
  upper : Heap Binary64.totalLt
  median : Binary64

namespace MedianTracker

/-- The tracker of no values. Its median is a NaN. -/
def empty : MedianTracker := ⟨.empty, .empty, .nan⟩

def size (t : MedianTracker) : Nat := t.lower.size + t.upper.size

/-- The values, those of the lower half first, each half in the order it is stored. -/
def toList (t : MedianTracker) : List Binary64 := t.lower.toList ++ t.upper.toList

/-- The number half way between two numbers, as rounding gives it. -/
def middle (a b : Binary64) : Binary64 := (a + b) / ((2 : Int) : Binary64)

/-- The median that the tops of the halves determine. -/
def ofTops (lower : Heap Binary64.totalGt) (upper : Heap Binary64.totalLt) : Binary64 :=
  match lower.top?, upper.top? with
  | none, none => .nan
  | some a, none => a
  | none, some b => b
  | some a, some b =>
    if lower.size = upper.size then middle a b else if upper.size < lower.size then a else b

def ofHalves (lower : Heap Binary64.totalGt) (upper : Heap Binary64.totalLt) : MedianTracker :=
  ⟨lower, upper, ofTops lower upper⟩

/-- The tracker with one more value. The smaller half grows by one value: the new one, or the top of
the larger half if that top belongs on the other side of the new value. Halves of equal size are
told apart by the median. -/
def insert (t : MedianTracker) (value : Binary64) : MedianTracker :=
  if t.size = 0 then ⟨t.lower.push value, t.upper, value⟩
  else if t.upper.size < t.lower.size then
    -- A value under the top belongs to the lower half, which is full: its top makes room.
    match t.lower.top?.filter (fun top => decide (value < top)) with
    | some top => ofHalves (t.lower.pop.push value) (t.upper.push top)
    | none => ofHalves t.lower (t.upper.push value)
  else if t.lower.size < t.upper.size then
    -- The same on the other side.
    match t.upper.top?.filter (fun top => decide (top < value)) with
    | some top => ofHalves (t.lower.push top) (t.upper.pop.push value)
    | none => ofHalves (t.lower.push value) t.upper
  else if value < t.median then ofHalves (t.lower.push value) t.upper
  else ofHalves t.lower (t.upper.push value)

/-- Moves the top of a half that is too large by two over to the other half. -/
def rebalance (lower : Heap Binary64.totalGt) (upper : Heap Binary64.totalLt) : MedianTracker :=
  if upper.size + 1 < lower.size then
    match lower.top? with
    | some top => ofHalves lower.pop (upper.push top)
    | none => ofHalves lower upper
  else if lower.size + 1 < upper.size then
    match upper.top? with
    | some top => ofHalves (lower.push top) upper.pop
    | none => ofHalves lower upper
  else ofHalves lower upper

/-- The tracker without one value that is the same number as `value`, or that is a NaN like it;
`none` if it holds no such value. The half on the side of `value` is searched first. -/
def erase? (t : MedianTracker) (value : Binary64) : Option MedianTracker :=
  let fromLower := (t.lower.erase? (Binary64.same · value)).map (rebalance · t.upper)
  let fromUpper := (t.upper.erase? (Binary64.same · value)).map (rebalance t.lower ·)
  -- A NaN is not on the side of any median, and is searched for in the upper half first.
  if value ≤ t.median then fromLower.or fromUpper else fromUpper.or fromLower

/-- The tracker without one value like `value`, or unchanged if it holds none. -/
def erase (t : MedianTracker) (value : Binary64) : MedianTracker := (t.erase? value).getD t

end MedianTracker
end Rollup
