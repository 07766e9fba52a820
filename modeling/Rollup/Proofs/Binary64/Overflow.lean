import Rollup.Proofs.Binary64.Arithmetic

/-!
# Where numbers become infinite

A result is finite as long as the exact value stays below the midpoint between the greatest finite
number and the next power of two (`Rounds.isFinite_iff`). The midpoint itself is a tie, and goes to
infinity: the significand of the greatest finite number is odd.

Values near that edge are counted in half steps, half the spacing of the greatest finite numbers:
the greatest of them is `2⁵⁴ - 2` half steps, and any number of half steps up to `2⁵³` is a finite
number (`exists_halfSteps`).
-/

namespace Rollup
namespace Binary64

variable {x : Binary64} {n : Int} {d : Nat}

/-- Half the spacing of the greatest finite numbers, in units. Irreducible, as `unitsPerOne` is. -/
@[irreducible] def halfStep : Nat := Nat.pow 2 2044

/-- The greatest finite value, in units. -/
def maxUnits : Nat := 18014398509481982 * halfStep

theorem halfStep_eq : halfStep = 2 ^ 2044 := by
  unfold halfStep
  -- as a literal the exponent would have the power written out
  generalize 2044 = e
  rfl

theorem halfStep_pos : 0 < halfStep := by
  rw [halfStep_eq]
  exact pow_pos two_pos 2044

theorem two_pow_top : 2 ^ (2044 + 1) = 2 * halfStep := by rw [halfStep_eq, pow_succ']

theorem units_maxFinite : units 0x7fefffffffffffff = maxUnits := by
  have hunits := units_of_significand (e := 2044 + 1) (h := 2 * fractions - 1) (.inl (by decide))
    (by decide)
  rw [two_pow_top, ← Nat.mul_assoc] at hunits
  exact hunits

theorem units_infinite : units infiniteMagnitude = maxUnits + 2 * halfStep := by
  have hunits := units_succ 0x7fefffffffffffff
  rw [units_maxFinite, show 0x7fefffffffffffff / fractions - 1 = 2044 + 1 by decide, two_pow_top]
    at hunits
  exact hunits

theorem toUnits_maxFinite : maxFinite.toUnits = maxUnits := by
  rw [maxFinite, toUnits_ofMagnitude (by decide), units_maxFinite]

theorem isFinite_maxFinite : maxFinite.isFinite = true := by decide

/-- No two neighbours up to infinity are further apart than the greatest finite numbers. -/
theorem units_succ_le {k : Nat} (hk : k < infiniteMagnitude) :
    units (k + 1) ≤ units k + 2 * halfStep := by
  have hexp : k / fractions - 1 ≤ 2044 + 1 := by
    unfold infiniteMagnitude at hk
    unfold fractions
    omega
  have hpow : 2 ^ (k / fractions - 1) ≤ 2 * halfStep :=
    (pow_le_pow_right₀ (by decide) hexp).trans_eq two_pow_top
  rw [units_succ]
  omega

/-! ## Finite values -/

theorem isFinite_iff_magnitude : x.isFinite = true ↔ x.magnitude ≤ 0x7fefffffffffffff := by
  unfold isFinite infiniteMagnitude
  rw [decide_eq_true_iff]
  omega

theorem natAbs_toUnits (x : Binary64) : x.toUnits.natAbs = units x.magnitude := by
  unfold toUnits
  split <;> omega

theorem isFinite_abs (x : Binary64) : x.abs.isFinite = x.isFinite := by
  unfold abs isFinite
  rw [magnitude_ofMagnitude _ x.magnitude_lt]

theorem toUnits_abs (x : Binary64) : x.abs.toUnits = units x.magnitude :=
  toUnits_ofMagnitude x.magnitude_lt

theorem numKey_abs (x : Binary64) : x.abs.numKey = x.magnitude := by
  rw [abs, numKey_ofMagnitude _ x.magnitude_lt]
  rfl

theorem isFinite_iff_units : x.isFinite = true ↔ x.toUnits.natAbs ≤ maxUnits := by
  rw [isFinite_iff_magnitude, natAbs_toUnits, ← units_maxFinite]
  exact units_strictMono.le_iff_le.symm

theorem isFinite_of_between {a b : Binary64} (ha : a.isFinite = true) (hb : b.isFinite = true)
    (hax : a ≤ x) (hxb : x ≤ b) : x.isFinite = true := by
  have hlo := toUnits_le_of_le hax
  have hhi := toUnits_le_of_le hxb
  have hmax := isFinite_iff_units.1 ha
  have hmax' := isFinite_iff_units.1 hb
  exact isFinite_iff_units.2 (by omega)

/-- A result is finite if its exact value is below the midpoint of the edge. -/
theorem Rounds.isFinite_iff (h : Rounds x n d) (hd : 0 < d) :
    x.isFinite = true ↔ n.natAbs < (maxUnits + halfStep) * d := by
  have hmid : (units 0x7fefffffffffffff + units (0x7fefffffffffffff + 1)) * d
      = 2 * ((maxUnits + halfStep) * d) := by
    rw [show 0x7fefffffffffffff + 1 = infiniteMagnitude from rfl, units_infinite, units_maxFinite]
    ring
  rw [isFinite_iff_magnitude, h.magnitude, nearest_le_iff hd (by decide), hmid]
  constructor
  · rintro (hlt | ⟨_, heven⟩)
    · omega
    · exact absurd heven (by decide)
  · intro hlt
    exact .inl (by omega)

/-- A result that is not finite is the infinity of its sign. -/
theorem Rounds.eq_infinity (h : Rounds x n d) (hx : x.isFinite = false) :
    x = infinity (decide (n < 0)) := by
  have hinf : x.magnitude = infiniteMagnitude := by
    have hle := isNaN_eq_false_iff.1 h.isNaN
    have hge := of_decide_eq_false hx
    omega
  have hkey : x.numKey = (infinity (decide (n < 0))).numKey := by
    rw [h.key_eq, ← h.magnitude, hinf, infinity, numKey_ofMagnitude _ (by decide)]
    simp only [decide_eq_true_iff]
  rcases eq_or_isZero hkey with heq | ⟨hzero, -⟩
  · exact heq
  · rw [isFinite_of_isZero hzero] at hx
    cases hx

/-- Every number of half steps that a significand can hold is a finite number. -/
theorem exists_halfSteps (count : Nat) (hle : count ≤ 2 * fractions) :
    ∃ c : Binary64, c.isFinite = true ∧ c.toUnits = (count * halfStep : Nat) := by
  obtain ⟨k, hk⟩ := exists_units_eq hle 2044
  rw [← halfStep_eq] at hk
  have hmax : units k ≤ units 0x7fefffffffffffff := by
    rw [hk, units_maxFinite]
    exact Nat.mul_le_mul_right halfStep (by unfold fractions at hle; omega)
  have hle' := units_strictMono.le_iff_le.1 hmax
  have hsign : k < signWeight := by unfold signWeight; omega
  refine ⟨ofMagnitude false k, isFinite_ofMagnitude false (Nat.lt_succ_of_le hle'), ?_⟩
  rw [toUnits_ofMagnitude hsign, hk]

/-- The magnitude of half the greatest number. -/
theorem two_mul_units_half : 2 * units 0x7fdfffffffffffff = maxUnits := by
  have hunits := units_of_significand (e := 2044) (h := 2 * fractions - 1) (.inl (by decide))
    (by decide)
  rw [← halfStep_eq] at hunits
  rw [show units 0x7fdfffffffffffff = _ from hunits, ← Nat.mul_assoc]
  rfl

/-- Half the greatest number is a number. -/
theorem exists_half_max :
    ∃ half : Binary64, half.isFinite = true ∧ 2 * half.toUnits = maxUnits := by
  obtain ⟨half, hhalf, hunits⟩ := exists_halfSteps 9007199254740991 (by decide)
  refine ⟨half, hhalf, ?_⟩
  rw [hunits, maxUnits]
  push_cast
  ring

/-- A finite number above half the greatest one is an even number of half steps below it. -/
theorem exists_below_max (hx : x.isFinite = true) (hbig : (maxUnits : Int) < 2 * x.toUnits) :
    ∃ count, count ≤ fractions ∧ x.toUnits = maxUnits - (2 * count * halfStep : Nat) := by
  have hpos : x.isNegative = false := by
    cases h : x.isNegative with
    | false => rfl
    | true =>
      unfold toUnits at hbig
      rw [h, if_pos rfl] at hbig
      omega
  have hvalue : x.toUnits = units x.magnitude := by
    unfold toUnits
    rw [hpos]
    rfl
  have hmax := isFinite_iff_magnitude.1 hx
  -- the top exponent begins right above half the greatest number
  have hmin : 0x7fe0000000000000 ≤ x.magnitude := by
    by_contra hlt
    have hle : units x.magnitude ≤ units 0x7fdfffffffffffff :=
      units_strictMono.monotone (by omega)
    have hhalf := two_mul_units_half
    omega
  obtain ⟨f, hf⟩ : ∃ f, x.magnitude + f = 0x7fefffffffffffff := ⟨_, Nat.add_sub_cancel' hmax⟩
  have hflt : f < fractions := by unfold fractions; omega
  refine ⟨f, Nat.le_of_lt hflt, ?_⟩
  have hunits : units x.magnitude = (2 * fractions - 1 - f) * (2 * halfStep) := by
    have hmagnitude : x.magnitude = (2044 + 1) * fractions + (2 * fractions - 1 - f) := by
      unfold fractions at *
      omega
    rw [hmagnitude, units_of_significand (.inl (by omega)) (by omega), two_pow_top]
  have hsplit : (2 * fractions - 1 - f) * (2 * halfStep) + 2 * f * halfStep = maxUnits := by
    have hswap : (2 * fractions - 1 - f) * (2 * halfStep)
        = 2 * (2 * fractions - 1 - f) * halfStep := by ring
    rw [hswap, ← Nat.add_mul, maxUnits]
    congr 1
    unfold fractions at *
    omega
  rw [hvalue, hunits]
  omega

/-- Twice a finite number above half the greatest one is beyond the midpoint of the edge. -/
theorem two_mul_of_half_lt (hx : x.isFinite = true) (hbig : (maxUnits : Int) < 2 * x.toUnits) :
    (maxUnits + halfStep : Int) < 2 * x.toUnits := by
  obtain ⟨count, -, hunits⟩ := exists_below_max hx hbig
  have hstep := halfStep_pos
  have hdouble : 4 * count * halfStep = 2 * (2 * count * halfStep) := by ring
  -- what is left of the greatest number is a whole number of its spacings
  have hcount : 4 * count < 18014398509481982 := by
    refine Nat.lt_of_mul_lt_mul_right (a := halfStep) ?_
    rw [hdouble, ← maxUnits]
    omega
  have hmul := Nat.mul_le_mul_right halfStep (show 4 * count + 2 ≤ 18014398509481982 by omega)
  rw [← maxUnits, Nat.add_mul, hdouble] at hmul
  omega

end Binary64
end Rollup
