import Rollup.Binary64.Order

/-!
# Running maximum

Folding a run of values into a running maximum, in three shapes: one value at a time (`linear`), in
eight independent lanes (`lanes`), and in registers of four after an unaligned start (`wide`). In
each of them a value takes the place of the maximum only if it is greater as a number, so a NaN
never does.
-/

namespace Rollup.MaxScan

/-- The running maximum after one more value. -/
def keepGreater (acc value : Binary64) : Binary64 := if acc < value then value else acc

/-- One comparison per value. -/
def linear (acc : Binary64) (values : List Binary64) : Binary64 := values.foldl keepGreater acc

/-- Folds as many whole chunks as there are, value `i` of a chunk into lane `i`, where a chunk has
as many values as there are lanes. Returns the lanes and the values that fill no chunk. -/
def foldChunks (lanes values : List Binary64) : List Binary64 × List Binary64 :=
  if 0 < lanes.length ∧ lanes.length ≤ values.length then
    foldChunks (lanes.zipWith keepGreater (values.take lanes.length)) (values.drop lanes.length)
  else (lanes, values)
termination_by values.length
decreasing_by simp only [List.length_drop]; omega

/-- The number of lanes that are folded independently without vector registers. -/
def laneCount : Nat := 8

/-- Folds eight lanes, then the lanes and the rest of the values one at a time. -/
def lanes (acc : Binary64) (values : List Binary64) : Binary64 :=
  let (folded, rest) := foldChunks (List.replicate laneCount acc) values
  linear acc (folded ++ rest)

def registerWidth : Nat := 4

/-- Folds the `lead` values before the first aligned one, then whole registers, then the rest. Runs
of fewer than two registers are left to `lanes`. -/
def wide (lead : Nat) (acc : Binary64) (values : List Binary64) : Binary64 :=
  if values.length < 2 * registerWidth then lanes acc values
  else
    let start := linear acc (values.take lead)
    let (register, rest) := foldChunks (List.replicate registerWidth start) (values.drop lead)
    linear (linear start register) rest

end Rollup.MaxScan
