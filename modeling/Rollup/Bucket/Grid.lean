import Rollup.Fault

/-!
# Bucket grids

Time is cut into half-open buckets of one duration, one of which starts at the alignment.
`bucketStart` finds the bucket of a timestamp in 64-bit arithmetic: the distance from the alignment
wraps, and a bucket that starts before the least timestamp is clamped to it. `Grid.gaps` lists the
buckets that lie between two others.
-/

namespace Rollup

/-- The start of the bucket that holds `t`. The duration may have either sign, only its size counts.
-/
def bucketStart (t duration alignment : Timestamp) : Timestamp :=
  Timestamp.saturate (t.toInt - (t - alignment).toInt % duration.toInt)

/-- Buckets of one positive duration. -/
structure Grid where
  duration : Timestamp
  alignment : Timestamp
  duration_pos : 0 < duration.toInt
deriving DecidableEq

namespace Grid

/-- The grid of the given duration, unless that is not positive. -/
def make (duration alignment : Timestamp) : Except Fault Grid :=
  if h : 0 < duration.toInt then .ok ⟨duration, alignment, h⟩
  else .error (.invalidRule (.durationNotPositive duration))

def start (g : Grid) (t : Timestamp) : Timestamp := bucketStart t g.duration g.alignment

/-- The end of the bucket that starts at `start`; saturates at the greatest timestamp. -/
def finish (g : Grid) (start : Timestamp) : Timestamp := Timestamp.saturatingAdd start g.duration

/-- The starts that are reached from `last` in steps of one duration and lie strictly before `next`,
going up, or strictly after it, going down. -/
def gaps (g : Grid) (reverse : Bool) (last next : Timestamp) : List Timestamp :=
  -- The distance is cut by one, so that a step that lands on `next` does not count.
  let ahead := if reverse then last.toInt - next.toInt else next.toInt - last.toInt
  (List.range ((ahead - 1) / g.duration.toInt).toNat).map fun i : Nat =>
    let offset := ((i : Int) + 1) * g.duration.toInt
    Int64.ofInt (if reverse then last.toInt - offset else last.toInt + offset)

end Grid
end Rollup
