import Rollup.Binary64.Arithmetic
import Rollup.Encoding.Persistent
import Rollup.MaxScan.Basic

/-!
# Bounds

The least and the greatest value of a bucket, from which min, max and range are reported. A bucket
without values is told by its bounds being crossed: it starts with the greatest finite number as its
least value, and the least finite number as its greatest.
-/

namespace Rollup

structure Bounds where
  least : Binary64
  greatest : Binary64
deriving DecidableEq

namespace Bounds

def fresh : Bounds := ⟨.maxFinite, .minFinite⟩

/-- No value has moved the bounds. -/
def isEmpty (s : Bounds) : Bool := decide (s.greatest < s.least)

def keepLess (acc value : Binary64) : Binary64 := if value < acc then value else acc

def append (s : Bounds) (value : Binary64) : Bounds :=
  ⟨keepLess s.least value, MaxScan.keepGreater s.greatest value⟩

/-- The bounds after a run of values. The upper bound is scanned in lanes. -/
def appendAll (s : Bounds) (values : List Binary64) : Bounds :=
  ⟨values.foldl keepLess s.least, MaxScan.lanes s.greatest values⟩

/-- The least value; a NaN if there is none. -/
def min (s : Bounds) : Binary64 := if s.isEmpty then .nan else s.least

/-- The greatest value; a NaN if there is none. -/
def max (s : Bounds) : Binary64 := if s.isEmpty then .nan else s.greatest

/-- The distance between the two; a NaN if there is no value. -/
def range (s : Bounds) : Binary64 := if s.isEmpty then .nan else s.greatest - s.least

/-- Layouts before `buffersDropped` carry a buffer behind the bounds that means nothing. -/
instance : Persistent Bounds where
  fields s := [.double s.greatest, .double s.least]
  load version := do
    let greatest ← Reader.double
    let least ← Reader.double
    if version < Version.buffersDropped then
      let _ ← Reader.buffer
    return ⟨least, greatest⟩

end Bounds
end Rollup
