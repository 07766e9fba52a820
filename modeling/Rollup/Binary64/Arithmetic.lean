import Rollup.Binary64.Order
import Rollup.Binary64.Rounding

/-!
# Binary64 arithmetic

Each operation computes the exact result in units of `2⁻¹⁰⁷⁴` and rounds it once (`ofQuotient`).
What is left to each operation is the standard's table for its special operands: which of them give
a NaN, which an infinity, and the sign of a zero.
-/

namespace Rollup
namespace Binary64

/-- The sum of two finite numbers. Opposite numbers add up to `+0`, and only `-0 + -0` is `-0`. -/
def addFinite (a b : Binary64) : Binary64 :=
  let sum := a.toUnits + b.toUnits
  if sum = 0 then zero (a.isNegative && b.isNegative)
  else ofQuotient (decide (sum < 0)) sum.natAbs 1

/-- Addition: infinities of opposite sign give a NaN. -/
def add (a b : Binary64) : Binary64 :=
  if a.isNaN || b.isNaN then nan
  else if a.isInfinite then
    if b.isInfinite && a.isNegative != b.isNegative then nan else a
  else if b.isInfinite then b
  else addFinite a b

/-- Subtraction is addition of the opposite number. -/
def sub (a b : Binary64) : Binary64 := add a b.neg

/-- Multiplication: an infinity times a zero is a NaN. -/
def mul (a b : Binary64) : Binary64 :=
  let negative := a.isNegative != b.isNegative
  if a.isNaN || b.isNaN then nan
  else if a.isInfinite || b.isInfinite then
    if a.isZero || b.isZero then nan else infinity negative
  else ofQuotient negative (units a.magnitude * units b.magnitude) unitsPerOne

/-- Division: zero by zero and infinity by infinity are NaNs, any other number by zero is an
infinity. -/
def div (a b : Binary64) : Binary64 :=
  let negative := a.isNegative != b.isNegative
  if a.isNaN || b.isNaN then nan
  else if a.isInfinite then
    if b.isInfinite then nan else infinity negative
  else if b.isInfinite then zero negative
  else if b.isZero then
    if a.isZero then nan else infinity negative
  else ofQuotient negative (units a.magnitude * unitsPerOne) (units b.magnitude)

/-- The double nearest to an integer; zero is `+0`. -/
def ofInt (n : Int) : Binary64 := ofQuotient (decide (n < 0)) (n.natAbs * unitsPerOne) 1

instance : Neg Binary64 := ⟨neg⟩
instance : Add Binary64 := ⟨add⟩
instance : Sub Binary64 := ⟨sub⟩
instance : Mul Binary64 := ⟨mul⟩
instance : Div Binary64 := ⟨div⟩
instance : IntCast Binary64 := ⟨ofInt⟩

/-! ### Square root -/

/-- The whole part of the square root of `n`, one binary digit per step. -/
def rootFloor (n : Nat) : Nat :=
  if h : n = 0 then 0
  else
    let r := 2 * rootFloor (n / 4)
    if (r + 1) * (r + 1) ≤ n then r + 1 else r
termination_by n
decreasing_by omega

/-- The square root. A negative number other than `-0` has none, and `-0` is its own root. The root
of `u` units has `√(u · 2¹⁰⁷⁴)` units; it has more than five hundred binary digits before the point,
so when it is no whole number any value between its whole part and the next rounds as it does. -/
def sqrt (x : Binary64) : Binary64 :=
  if x.isNaN then nan
  else if x.isZero then x
  else if x.isNegative then nan
  else if x.isInfinite then x
  else
    let square := units x.magnitude * unitsPerOne
    let root := rootFloor square
    -- The half between two whole numbers stands for any root there: it rounds to the same side.
    if root * root = square then ofQuotient false root 1 else ofQuotient false (2 * root + 1) 2

/-! ### Laws -/

theorem rootFloor_spec (n : Nat) :
    rootFloor n * rootFloor n ≤ n ∧ n < (rootFloor n + 1) * (rootFloor n + 1) := by
  fun_induction rootFloor n with
  | case1 => simp
  | case2 n hn r hle ih =>
    -- The digit fits; that no greater root does follows from the bound on the root of `n / 4`.
    refine ⟨hle, ?_⟩
    obtain ⟨_, hlt⟩ := ih
    have hq : n < 4 * (n / 4 + 1) := by omega
    have h4 : 4 * (n / 4 + 1) ≤ 4 * ((rootFloor (n / 4) + 1) * (rootFloor (n / 4) + 1)) :=
      Nat.mul_le_mul_left 4 hlt
    calc n < 4 * ((rootFloor (n / 4) + 1) * (rootFloor (n / 4) + 1)) := by omega
      _ = (r + 1 + 1) * (r + 1 + 1) := by grind
  | case3 n hn r hgt ih =>
    -- The digit does not fit, and the doubled root of `n / 4` is small enough without it.
    refine ⟨?_, by omega⟩
    obtain ⟨hle, _⟩ := ih
    have h4 : 4 * (rootFloor (n / 4) * rootFloor (n / 4)) ≤ 4 * (n / 4) := Nat.mul_le_mul_left 4 hle
    calc r * r = 4 * (rootFloor (n / 4) * rootFloor (n / 4)) := by grind
      _ ≤ n := by omega

end Binary64
end Rollup
