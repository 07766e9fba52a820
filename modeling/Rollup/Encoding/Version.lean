import Rollup.Fault

/-!
# Layout versions

A stored state carries no version of its own; whoever keeps it keeps the number of the layout next
to it. States are always written in the latest layout, and every layout up to it can be read. The
named milestones are the versions at which a layout changed.
-/

namespace Rollup

structure Version where
  number : Nat
deriving DecidableEq, Repr

namespace Version

/-- Single values and first values carry a reset flag from here on. -/
def resetFlags : Version := ⟨3⟩

/-- Bounds no longer carry a buffer of bytes from here on. -/
def buffersDropped : Version := ⟨4⟩

/-- Averages carry the flag of the running mean from here on. -/
def averageFlag : Version := ⟨5⟩

/-- Single values no longer carry a reset flag from here on. -/
def resetFlagDropped : Version := ⟨6⟩

/-- The layout that states are written in. -/
def latest : Version := resetFlagDropped

instance : LE Version := ⟨fun a b => a.number ≤ b.number⟩
instance : LT Version := ⟨fun a b => a.number < b.number⟩
instance (a b : Version) : Decidable (a ≤ b) := inferInstanceAs (Decidable (a.number ≤ b.number))
instance (a b : Version) : Decidable (a < b) := inferInstanceAs (Decidable (a.number < b.number))

def isSupported (v : Version) : Bool := decide (v ≤ latest)

def text (v : Version) : String := "v" ++ Nat.repr v.number

/-- Refuses the layouts that are newer than the latest known one. -/
def check (v : Version) : Except Fault Unit :=
  if v.isSupported then .ok () else .error (.unsupportedVersion v.number)

end Version
end Rollup
