import Rollup.Binary64.Basic

/-!
# Rounding to the binary64 grid

Every finite number is a whole multiple of `2⁻¹⁰⁷⁴`, the least positive one, so the grid of finite
magnitudes is a strictly increasing sequence of natural numbers: `units k` is the value of magnitude
`k` in that unit. `units` continues past the finite magnitudes to `2¹⁰²⁴` at the magnitude of
infinity, which makes overflow a case of ordinary rounding.

`nearest n d` is the magnitude whose value is nearest to the quotient `n / d`, measured in the same
unit; a quotient half way between two grid points goes to the even magnitude. It is the only place
where the library rounds: each arithmetic operation forms its exact result as a quotient and calls
it once.
-/

namespace Rollup
namespace Binary64

/-- One is `2¹⁰⁷⁴` units. Irreducible, so that no proof step writes it out by accident. -/
@[irreducible] def unitsPerOne : Nat := Nat.pow 2 1074

/-- The number of fractions, `2⁵²`: so many magnitudes share an exponent. -/
def fractions : Nat := 0x10000000000000

/-- The value of magnitude `k` in units of `2⁻¹⁰⁷⁴`. Below `fractions` the grid is that of the unit
itself; from there each exponent doubles the spacing. -/
def units (k : Nat) : Nat :=
  if k < fractions then k else (fractions + k % fractions) * Nat.pow 2 (k / fractions - 1)

/-- The value of a finite word in units of `2⁻¹⁰⁷⁴`. -/
def toUnits (x : Binary64) : Int :=
  if x.isNegative then -(units x.magnitude : Int) else units x.magnitude

/-- The natural number nearest to `n / d`, a half going to the even neighbour. -/
def halfEven (n d : Nat) : Nat :=
  let q := n / d
  let r := n % d
  if d < 2 * r ∨ (2 * r = d ∧ q % 2 = 1) then q + 1 else q

/-- The binary exponent of the grid spacing at `n / d` units: the spacing is `2 ^ spacing n d`
units, and `n / d` holds at least `2⁵²` and fewer than `2⁵³` of them unless the spacing is one unit.
-/
def spacing (n d : Nat) : Nat :=
  let q := n / d
  if q < 2 * fractions then 0 else Nat.log2 q - 52

/-- The magnitude nearest to `n / d` units, ties to the even magnitude; from half a spacing beyond
the greatest finite number on it is the magnitude of infinity. Counting the significand up past
`2⁵³` carries into the exponent, so no case is needed for it. -/
def nearest (n d : Nat) : Nat :=
  let e := spacing n d
  min (e * fractions + halfEven n (d * Nat.pow 2 e)) infiniteMagnitude

/-- The word of the given sign nearest to `n / d` units. A result that rounds to zero keeps the
sign. -/
def ofQuotient (negative : Bool) (n d : Nat) : Binary64 := ofMagnitude negative (nearest n d)

/-! ### Laws -/

theorem halfEven_one (n : Nat) : halfEven n 1 = n := by
  unfold halfEven
  rw [Nat.div_one, Nat.mod_one, if_neg (by omega)]

/-- A whole number of units is on the grid up to `2⁵³`. -/
theorem nearest_one_of_lt {n : Nat} (h : n < 2 * fractions) : nearest n 1 = n := by
  have hspacing : spacing n 1 = 0 := by
    unfold spacing
    rw [Nat.div_one, if_pos h]
  have hle : n ≤ infiniteMagnitude := by unfold infiniteMagnitude; unfold fractions at h; omega
  show min (spacing n 1 * fractions + halfEven n (1 * Nat.pow 2 (spacing n 1)))
    infiniteMagnitude = n
  rw [hspacing, Nat.zero_mul, Nat.zero_add, show 1 * Nat.pow 2 0 = 1 from rfl, halfEven_one]
  exact Nat.min_eq_left hle

end Binary64
end Rollup
