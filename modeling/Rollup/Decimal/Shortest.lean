import Rollup.Binary64.Rounding

/-!
# Shortest decimal text

The text of a finite number holds the fewest significant digits that read back as the same number.
For one digit, two digits, and so on, the two neighbours of the value on that decimal grid are
tried; the first grid with a neighbour inside the value's rounding interval wins (`shortest`).
Digits are written positionally, whatever the size of the number (`positional`).
-/

namespace Rollup

/-- The decimal number `digits · 10 ^ exponent`. -/
structure Decimal where
  digits : Nat
  exponent : Int
deriving DecidableEq, Repr

namespace Decimal

/-- `10 ^ e` as a quotient of two natural numbers. -/
def powTen (e : Int) : Nat × Nat :=
  if 0 ≤ e then (Nat.pow 10 e.toNat, 1) else (1, Nat.pow 10 (-e).toNat)

/-- Moves trailing zeros of the digits into the exponent; the fuel bounds their number. -/
def trim : Nat → Decimal → Decimal
  | 0, x => x
  | fuel + 1, x =>
    if x.digits ≠ 0 ∧ x.digits % 10 = 0 then trim fuel ⟨x.digits / 10, x.exponent + 1⟩ else x

/-- The digits with the point in its place and no exponent: zeros fill up to the point on either
side. -/
def positional (x : Decimal) : String :=
  let text := Nat.repr x.digits
  if 0 ≤ x.exponent then text ++ "".pushn '0' x.exponent.toNat
  else
    let places := (-x.exponent).toNat
    let padded := "".pushn '0' (places + 1 - text.length) ++ text
    let whole := padded.toList.take (padded.length - places)
    let fraction := padded.toList.drop (padded.length - places)
    String.ofList (whole ++ '.' :: fraction)

end Decimal

namespace Binary64

/-- True if `c · 10 ^ e` rounds to magnitude `k`: it lies between the points half way to the
neighbouring magnitudes, which themselves round to `k` exactly when `k` is even. Both sides are
compared in half units. -/
def readsBack (k : Nat) (e : Int) (c : Nat) : Bool :=
  let (up, down) := Decimal.powTen e
  let point := 2 * c * up * unitsPerOne
  let low := (units (k - 1) + units k) * down
  let high := (units k + units (k + 1)) * down
  if k % 2 = 0 then decide (low ≤ point ∧ point ≤ high) else decide (low < point ∧ point < high)

/-- Of the multiples of `10 ^ e` next to the value of magnitude `k`, the one that rounds to `k`. If
both do, the nearer one, and the greater one when they are equally near. -/
def onGrid (k : Nat) (e : Int) : Option Decimal :=
  let (up, down) := Decimal.powTen e
  -- The value is `n / d` times `10 ^ e`.
  let n := units k * down
  let d := up * unitsPerOne
  let below := n / d
  let above := if n % d = 0 then below else below + 1
  match readsBack k e below, readsBack k e above with
  | true, true => some ⟨if 2 * (n % d) < d then below else above, e⟩
  | true, false => some ⟨below, e⟩
  | false, true => some ⟨above, e⟩
  | false, false => none

/-- The number of digits before the point of the value of magnitude `k`, or minus the number of
zeros right after it. The value times `10³²⁴` is at least one unless `k` is zero. -/
def decimalPoint (k : Nat) : Int :=
  ((Nat.repr (units k * Nat.pow 10 324 / unitsPerOne)).length : Int) - 324

/-- The shortest decimal that rounds to the finite magnitude `k`. Seventeen digits suffice, so the
fallback is never taken. -/
def shortest (k : Nat) : Decimal :=
  if k = 0 then ⟨0, 0⟩
  else
    let point := decimalPoint k
    match (List.range' 1 17).findSome? (fun count : Nat => onGrid k (point - count)) with
    | some x => x.trim 20
    | none => ⟨units k, -1074⟩

/-- The text of a number: `NaN`, `inf`, or the shortest digits that read back, written positionally.
-/
def text (x : Binary64) : String :=
  if x.isNaN then "NaN"
  else
    let sign := if x.isNegative then "-" else ""
    if x.isInfinite then sign ++ "inf" else sign ++ (shortest x.magnitude).positional

end Binary64
end Rollup
