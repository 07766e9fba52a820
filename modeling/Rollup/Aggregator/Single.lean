import Rollup.Binary64.Arithmetic
import Rollup.Encoding.Persistent

/-!
# States of one or two numbers

The states of sum, count and last hold one number (`Single`); that of first holds one number and
whether it has been set (`First`).
-/

namespace Rollup

/-- One running number. -/
structure Single where
  value : Binary64
deriving DecidableEq

/-- Layouts from `resetFlags` up to `resetFlagDropped` carry a flag behind the value that means
nothing. -/
instance : Persistent Single where
  fields s := [.double s.value]
  load version := do
    let value ← Reader.double
    if Version.resetFlags ≤ version ∧ version < Version.resetFlagDropped then
      let _ ← Reader.unsigned
    return ⟨value⟩

structure First where
  value : Binary64
  /-- No value has come yet; what `value` holds is no value of the bucket then. -/
  isUnset : Bool
deriving DecidableEq

namespace First

def fresh : First := ⟨.nan, true⟩

def append (s : First) (value : Binary64) : First := if s.isUnset then ⟨value, false⟩ else s

/-- The first value, or a NaN if none has come. -/
def result (s : First) : Binary64 := if s.isUnset then .nan else s.value

/-- Layouts before `resetFlags` hold the value only, which is a NaN as long as it is unset. -/
instance : Persistent First where
  fields s := [.double s.value, .flag s.isUnset]
  load version := do
    let value ← Reader.double
    if Version.resetFlags ≤ version then return ⟨value, ← Reader.flag⟩
    else return ⟨value, value.isNaN⟩

end First
end Rollup
