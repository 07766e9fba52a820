/-!
# Timestamps

Timestamps and durations are signed 64-bit words. Sums and differences that leave the range are
handled in two ways: they saturate at the nearer end (`Timestamp.saturate`), or they wrap, which is
the subtraction of the words themselves. The laws read both back in the integers.
-/

namespace Rollup

/-- A point in time, or a span of it, in the unit of the series. -/
abbrev Timestamp := Int64

namespace Timestamp

def least : Int := -0x8000000000000000

def greatest : Int := 0x7fffffffffffffff

/-- The timestamp nearest to an integer. -/
def saturate (n : Int) : Timestamp :=
  if n < least then Int64.ofInt least
  else if greatest < n then Int64.ofInt greatest
  else Int64.ofInt n

/-- The sum, saturating at the ends of the range. -/
def saturatingAdd (a b : Timestamp) : Timestamp := saturate (a.toInt + b.toInt)

/-- The difference, saturating at the ends of the range. -/
def saturatingSub (a b : Timestamp) : Timestamp := saturate (a.toInt - b.toInt)

def distance (a b : Timestamp) : Nat := (a.toInt - b.toInt).natAbs

/-! ### Laws -/

theorem toInt_ofInt {n : Int} (h₁ : least ≤ n) (h₂ : n ≤ greatest) : (Int64.ofInt n).toInt = n := by
  simp only [least, greatest] at h₁ h₂
  exact Int64.toInt_ofInt_of_le (by omega) (by omega)

theorem toInt_saturate (n : Int) : (saturate n).toInt = max least (min n greatest) := by
  unfold saturate
  split
  · rw [toInt_ofInt (Int.le_refl _) (by decide)]; omega
  · split
    · rw [toInt_ofInt (by decide) (Int.le_refl _)]; simp only [least, greatest] at *; omega
    · rw [toInt_ofInt (by omega) (by omega)]; omega

/-- A difference whose exact value fits is not changed by wrapping. -/
theorem toInt_sub_of_fits {a b : Timestamp} (h₁ : least ≤ a.toInt - b.toInt)
    (h₂ : a.toInt - b.toInt ≤ greatest) : (a - b).toInt = a.toInt - b.toInt := by
  simp only [least, greatest] at h₁ h₂
  rw [Int64.toInt_sub]
  exact Int.bmod_eq_of_le (by omega) (by omega)

end Timestamp

structure Sample (α : Type) where
  timestamp : Timestamp
  value : α
deriving DecidableEq

end Rollup
