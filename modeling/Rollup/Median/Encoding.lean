import Rollup.Encoding.Persistent
import Rollup.Median.Tracker

/-!
# Stored medians

Each half is stored as its size and its values in heap order, the lower half first, and the median
comes last. The values of a half may be stored in any order: reading builds the heaps anew. What has
to hold is that the halves balance, do not overlap, and have the stored median.
-/

namespace Rollup
namespace MedianTracker

def halfFields (values : List Binary64) : List Field :=
  .unsigned (UInt64.ofNat values.length) :: values.map .double

def loadHalf : Reader (List Binary64) := do
  let count ← Reader.unsigned
  Reader.doubles count.toNat

/-- The cause for which two halves make up no median. -/
def check (lower : Heap Binary64.totalGt) (upper : Heap Binary64.totalLt) : Except LoadFault Unit :=
  if upper.size + 1 < lower.size ∨ lower.size + 1 < upper.size then
    .error (.unbalancedHalves lower.size upper.size)
  else if !(lower.isHeap && upper.isHeap) then .error .heapOrder
  else
    match lower.top?, upper.top? with
    -- The halves are heaps, so their tops decide for all their values.
    | some a, some b => if Binary64.totalLt b a then .error (.overlappingHalves a b) else .ok ()
    | _, _ => .ok ()

/-- The tracker of the stored values and the stored median, if they agree. -/
def ofStored (lower upper : List Binary64) (median : Binary64) : Except LoadFault MedianTracker :=
  let lowerHeap := Heap.ofArray lower.toArray
  let upperHeap := Heap.ofArray upper.toArray
  match check lowerHeap upperHeap with
  | .error cause => .error cause
  | .ok () =>
    let t := ofHalves lowerHeap upperHeap
    if Binary64.same median t.median then .ok t else .error (.staleMedian median t.median)

instance : Persistent MedianTracker where
  fields t := halfFields t.lower.toList ++ halfFields t.upper.toList ++ [.double t.median]
  load _ := do
    let lower ← loadHalf
    let upper ← loadHalf
    let median ← Reader.double
    match ofStored lower upper median with
    | .ok t => return t
    | .error cause => throw (.unloadable cause)

end MedianTracker
end Rollup
