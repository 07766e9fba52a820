import Rollup.Proofs.Binary64.Overflow

/-!
# Magnitudes

Bounds on the magnitude of results, which keep them finite (`Within`). An operation needs a bound of
its operands only: rounding at most doubles a value, and a rounded sum is at most the first operand
and twice the second, so many small terms can be added up (`Within.add`). Conversely a finite result
has finite operands, and no number that is divided by zero gives a finite one.

Integers are rounded to integers (`unitsPerOne_dvd_intCast`), so the doubles of two of them are the
same or at least one apart.
-/

namespace Rollup
namespace Binary64

variable {x y : Binary64} {n d : Nat}

/-- The rounding of a quotient is closer to it than any number below the rounding is. -/
theorem units_nearest (n : Nat) (hd : 0 < d) (k : Nat) :
    nearest n d ≤ k ∨ (units k + units (nearest n d)) * d ≤ 2 * n := by
  by_contra h
  obtain ⟨hgt, hmid⟩ := not_or.1 h
  obtain ⟨j, hj⟩ : ∃ j, nearest n d = j + 1 := ⟨nearest n d - 1, by omega⟩
  have hbelow : ¬nearest n d ≤ j := by omega
  have hj' : j < infiniteMagnitude := by
    have hle := nearest_le_infinite n d
    omega
  rw [nearest_le_iff hd hj'] at hbelow
  have hunits : units k ≤ units j := units_strictMono.monotone (by omega)
  have hmul := Nat.mul_le_mul_right d (Nat.add_le_add_right hunits (units (j + 1)))
  rw [hj] at hmid
  omega

theorem units_nearest_le (n : Nat) (hd : 0 < d) : units (nearest n d) * d ≤ 2 * n := by
  have hzero : units 0 = 0 := rfl
  rcases units_nearest n hd 0 with h | h
  · rw [Nat.le_zero.1 h, hzero]
    omega
  · rw [hzero, Nat.zero_add] at h
    exact h

theorem natAbs_toUnits_ofQuotient (s : Bool) (n d : Nat) :
    (ofQuotient s n d).toUnits.natAbs = units (nearest n d) := by
  have hle := nearest_le_infinite n d
  unfold infiniteMagnitude at hle
  rw [natAbs_toUnits, ofQuotient, magnitude_ofMagnitude]
  unfold signWeight
  omega

/-! ## Bounds -/

/-- `x` is a number of magnitude at most `b`, which is far from the edge of the finite numbers. -/
structure Within (b : Nat) (x : Binary64) : Prop where
  le : x.toUnits.natAbs ≤ b * unitsPerOne
  small : b ≤ 2 ^ 256

theorem Within.isFinite {b : Nat} (h : Within b x) : x.isFinite = true := by
  have hedge : 2 ^ 256 * unitsPerOne ≤ maxUnits :=
    calc 2 ^ 256 * unitsPerOne = 2 ^ (256 + 1074) := by rw [unitsPerOne_eq, pow_add]
      _ ≤ 2 ^ 2044 := pow_le_pow_right₀ one_le_two (by decide)
      _ = halfStep := halfStep_eq.symm
      _ ≤ maxUnits := Nat.le_mul_of_pos_left _ (by decide)
  have hmul := Nat.mul_le_mul_right unitsPerOne h.small
  have hle := h.le
  exact isFinite_iff_units.2 (by omega)

theorem Within.mono {a b : Nat} (h : Within a x) (hab : a ≤ b) (hb : b ≤ 2 ^ 256) : Within b x :=
  ⟨h.le.trans (Nat.mul_le_mul_right _ hab), hb⟩

theorem Within.neg {b : Nat} (h : Within b x) : Within b x.neg := by
  refine ⟨?_, h.small⟩
  rw [toUnits_neg, Int.natAbs_neg]
  exact h.le

theorem Within.add {a b : Nat} (hx : Within a x) (hy : Within b y) (hb : a + 2 * b ≤ 2 ^ 256) :
    Within (a + 2 * b) (x + y) := by
  refine ⟨?_, hb⟩
  have hround := rounds_add hx.isFinite hy.isFinite
  have hxle := hx.le
  have hyle := hy.le
  rw [natAbs_toUnits, hround.magnitude, Nat.add_mul, Nat.mul_assoc]
  rcases units_nearest (x.toUnits + y.toUnits).natAbs (d := 1) (by decide) x.magnitude with h | h
  · have hle := units_strictMono.monotone h
    rw [natAbs_toUnits] at hxle
    omega
  · rw [← natAbs_toUnits] at h
    omega

theorem Within.sub {a b : Nat} (hx : Within a x) (hy : Within b y) (hb : a + 2 * b ≤ 2 ^ 256) :
    Within (a + 2 * b) (x - y) := hx.add hy.neg hb

theorem mul_eq (hx : x.isFinite = true) (hy : y.isFinite = true) :
    x * y = ofQuotient (x.isNegative != y.isNegative) (units x.magnitude * units y.magnitude)
      unitsPerOne := by
  show mul x y = _
  unfold mul
  rw [isNaN_of_isFinite hx, isNaN_of_isFinite hy, isInfinite_of_isFinite hx,
    isInfinite_of_isFinite hy]
  rfl

theorem div_eq (hx : x.isFinite = true) (hy : y.isFinite = true) (hzero : y.isZero = false) :
    x / y = ofQuotient (x.isNegative != y.isNegative) (units x.magnitude * unitsPerOne)
      (units y.magnitude) := by
  show div x y = _
  unfold div
  rw [isNaN_of_isFinite hx, isNaN_of_isFinite hy, isInfinite_of_isFinite hx,
    isInfinite_of_isFinite hy, hzero]
  rfl

theorem Within.mul {a b : Nat} (hx : Within a x) (hy : Within b y)
    (hb : 2 * (a * b) ≤ 2 ^ 256) : Within (2 * (a * b)) (x * y) := by
  refine ⟨?_, hb⟩
  have hround := units_nearest_le (units x.magnitude * units y.magnitude) unitsPerOne_pos
  have hxle := hx.le
  have hyle := hy.le
  rw [mul_eq hx.isFinite hy.isFinite, natAbs_toUnits_ofQuotient]
  rw [natAbs_toUnits] at hxle hyle
  have hprod := Nat.mul_le_mul hxle hyle
  refine Nat.le_of_mul_le_mul_right ?_ unitsPerOne_pos
  calc units (nearest (units x.magnitude * units y.magnitude) unitsPerOne) * unitsPerOne
      ≤ 2 * (units x.magnitude * units y.magnitude) := hround
    _ ≤ 2 * (a * unitsPerOne * (b * unitsPerOne)) := Nat.mul_le_mul_left 2 hprod
    _ = 2 * (a * b) * unitsPerOne * unitsPerOne := by ring

/-- Division by what is at least one. -/
theorem Within.div {a : Nat} (hx : Within a x) (hy : y.isFinite = true)
    (hone : unitsPerOne ≤ y.toUnits.natAbs) (hb : 2 * a ≤ 2 ^ 256) : Within (2 * a) (x / y) := by
  refine ⟨?_, hb⟩
  have hunit := unitsPerOne_pos
  rw [natAbs_toUnits] at hone
  have hzero : y.isZero = false := by
    refine decide_eq_false fun h => ?_
    rw [h, show units 0 = 0 from rfl] at hone
    omega
  have hround := units_nearest_le (units x.magnitude * unitsPerOne) (hunit.trans_le hone)
  have hxle := hx.le
  rw [natAbs_toUnits] at hxle
  rw [div_eq hx.isFinite hy hzero, natAbs_toUnits_ofQuotient]
  refine Nat.le_of_mul_le_mul_right ?_ hunit
  calc units (nearest (units x.magnitude * unitsPerOne) (units y.magnitude)) * unitsPerOne
      ≤ units (nearest (units x.magnitude * unitsPerOne) (units y.magnitude))
          * units y.magnitude := Nat.mul_le_mul_left _ hone
    _ ≤ 2 * (units x.magnitude * unitsPerOne) := hround
    _ ≤ 2 * (a * unitsPerOne * unitsPerOne) :=
        Nat.mul_le_mul_left 2 (Nat.mul_le_mul_right _ hxle)
    _ = 2 * a * unitsPerOne * unitsPerOne := by ring

/-! ## Integers -/

theorem magnitude_intCast (n : Int) :
    ((n : Int) : Binary64).magnitude = nearest (n.natAbs * unitsPerOne) 1 := by
  have hle := nearest_le_infinite (n.natAbs * unitsPerOne) 1
  unfold infiniteMagnitude at hle
  refine magnitude_ofMagnitude _ ?_
  unfold signWeight
  omega

theorem within_intCast {n : Int} {b : Nat} (hn : n.natAbs ≤ b) (hb : 2 * b ≤ 2 ^ 256) :
    Within (2 * b) ((n : Int) : Binary64) := by
  refine ⟨?_, hb⟩
  have hround := units_nearest_le (n.natAbs * unitsPerOne) (d := 1) (by decide)
  have hmul := Nat.mul_le_mul_right unitsPerOne hn
  rw [natAbs_toUnits, magnitude_intCast, Nat.mul_assoc]
  omega

theorem within_one (h : x.abs ≤ ((1 : Int) : Binary64)) : Within 1 x := by
  obtain ⟨k, hlt, hk, hone⟩ := natCast_eq (show 1 ≤ 2 * fractions by decide)
  have hone' : ((1 : Int) : Binary64) = ofMagnitude false k := hone
  have hsign : k < signWeight := hlt.trans (by decide)
  obtain ⟨hx, hn⟩ := isNaN_of_le h
  have hkey := (le_iff hx hn).1 h
  rw [hone', numKey_abs, numKey_ofMagnitude false hsign, if_neg Bool.false_ne_true] at hkey
  refine ⟨?_, by norm_num⟩
  rw [natAbs_toUnits, ← hk]
  exact units_strictMono.monotone (Int.ofNat_le.1 hkey)

theorem isNegative_intCast (n : Int) : ((n : Int) : Binary64).isNegative = decide (n < 0) := by
  have hle := nearest_le_infinite (n.natAbs * unitsPerOne) 1
  unfold infiniteMagnitude at hle
  refine isNegative_ofMagnitude _ ?_
  unfold signWeight
  omega

/-- Up to `2⁵³` integers are numbers. -/
theorem units_intCast {n : Int} (hn : n.natAbs ≤ 2 * fractions) :
    units ((n : Int) : Binary64).magnitude = n.natAbs * unitsPerOne := by
  obtain ⟨k, hlt, hk, -⟩ := natCast_eq hn
  have hnear := nearest_units (k := k) (d := 1) (by decide) hlt.le
  rw [Nat.mul_one, hk] at hnear
  rw [magnitude_intCast, hnear, hk]

theorem toUnits_intCast {n : Int} (hn : n.natAbs ≤ 2 * fractions) :
    ((n : Int) : Binary64).toUnits = n * unitsPerOne := by
  unfold toUnits
  rw [units_intCast hn, isNegative_intCast, Int.natCast_mul]
  by_cases hneg : n < 0
  · rw [decide_eq_true hneg, if_pos rfl, Int.ofNat_natAbs_of_nonpos hneg.le, Int.neg_mul, Int.neg_neg]
  · rw [decide_eq_false hneg, if_neg Bool.false_ne_true, Int.natAbs_of_nonneg (not_lt.1 hneg)]

theorem isFinite_intCast {n : Int} (hn : n.natAbs ≤ 2 * fractions) :
    ((n : Int) : Binary64).isFinite = true :=
  (within_intCast hn (by decide)).isFinite

/-- The sum of two integers that are numbers is rounded as an integer is. -/
theorem intCast_add {m n : Int} (hm : m.natAbs ≤ 2 * fractions) (hn : n.natAbs ≤ 2 * fractions) :
    ((m : Int) : Binary64) + ((n : Int) : Binary64) = ((m + n : Int) : Binary64) := by
  rw [add_eq (isFinite_intCast hm) (isFinite_intCast hn), addFinite, toUnits_intCast hm,
    toUnits_intCast hn, ← Int.add_mul, isNegative_intCast, isNegative_intCast]
  have hunit : (0 : Int) < unitsPerOne := Int.natCast_pos.2 unitsPerOne_pos
  by_cases hzero : m + n = 0
  · -- opposite integers are not both negative, so their sum is the zero that integers are cast to
    have hsign : (decide (m < 0) && decide (n < 0)) = false := by
      rw [Bool.and_eq_false_iff, decide_eq_false_iff_not, decide_eq_false_iff_not]
      omega
    rw [hzero, Int.zero_mul, if_pos rfl, hsign, intCast_zero]
  · have hsign : (m + n) * unitsPerOne < 0 ↔ m + n < 0 :=
      ⟨fun h => neg_of_mul_neg_left h hunit.le, fun h => mul_neg_of_neg_of_pos h hunit⟩
    rw [if_neg (Int.mul_ne_zero hzero hunit.ne'), decide_eq_decide.2 hsign, Int.natAbs_mul,
      Int.natAbs_natCast]
    rfl

theorem intCast_inj {m n : Int} (hm : m.natAbs ≤ 2 * fractions) (hn : n.natAbs ≤ 2 * fractions)
    (h : ((m : Int) : Binary64) = ((n : Int) : Binary64)) : m = n := by
  have hunits := units_intCast hm
  have hsign := isNegative_intCast m
  rw [h, units_intCast hn] at hunits
  rw [h, isNegative_intCast n, decide_eq_decide] at hsign
  have habs := Nat.eq_of_mul_eq_mul_right unitsPerOne_pos hunits
  omega

theorem unitsPerOne_dvd_units {k : Nat} (hk : 1076 * fractions ≤ k) : unitsPerOne ∣ units k := by
  have hexp : 1074 ≤ k / fractions - 1 := by
    have hdiv : 1076 ≤ k / fractions := (Nat.le_div_iff_mul_le (by decide)).2 hk
    omega
  have hlarge : ¬k < fractions := by
    have hpos : 0 < fractions := by decide
    omega
  rw [unitsPerOne_eq, units, if_neg hlarge]
  exact (pow_dvd_pow 2 hexp).mul_left _

/-- Integers are rounded to integers. -/
theorem unitsPerOne_dvd_intCast (n : Int) :
    (unitsPerOne : Int) ∣ ((n : Int) : Binary64).toUnits := by
  rw [Int.natCast_dvd, natAbs_toUnits]
  by_cases hn : n.natAbs ≤ 2 * fractions
  · rw [units_intCast hn]
    exact Nat.dvd_mul_left _ _
  · rw [magnitude_intCast]
    refine unitsPerOne_dvd_units (le_nearest (by decide) (by decide) ?_)
    rw [units_two_pow_53, Nat.mul_one]
    exact Nat.mul_le_mul_right _ (by omega)

/-- What is at least one stays so. -/
theorem le_units_nearest (hd : 0 < d) (h : unitsPerOne * d ≤ n) :
    unitsPerOne ≤ units (nearest n d) := by
  obtain ⟨k, hlt, hk, -⟩ := natCast_eq (show 1 ≤ 2 * fractions by decide)
  rw [Nat.one_mul] at hk
  rw [← hk] at h ⊢
  exact units_strictMono.monotone (le_nearest hd hlt.le h)

theorem le_toUnits_intCast {n : Int} (hn : n ≠ 0) :
    unitsPerOne ≤ ((n : Int) : Binary64).toUnits.natAbs := by
  rw [natAbs_toUnits, magnitude_intCast]
  refine le_units_nearest (by decide) ?_
  rw [Nat.mul_one]
  exact Nat.le_mul_of_pos_left _ (Int.natAbs_pos.2 hn)

/-- Two integers are the same double, or their doubles are at least one apart. -/
theorem le_toUnits_sub_intCast {m n : Int}
    (hne : ((m : Int) : Binary64) ≠ ((n : Int) : Binary64))
    (hm : ((m : Int) : Binary64).isFinite = true) (hn : ((n : Int) : Binary64).isFinite = true) :
    unitsPerOne ≤ (((m : Int) : Binary64) - ((n : Int) : Binary64)).toUnits.natAbs := by
  have hunits : ((m : Int) : Binary64).toUnits - ((n : Int) : Binary64).toUnits ≠ 0 := by
    intro hzero
    have hkey : ((m : Int) : Binary64).numKey = ((n : Int) : Binary64).numKey :=
      le_antisymm (toUnits_le_toUnits.1 (by omega)) (toUnits_le_toUnits.1 (by omega))
    rcases eq_or_isZero hkey with heq | ⟨hzm, hzn⟩
    · exact hne heq
    · -- only zero is rounded to zero
      have hpos := unitsPerOne_pos
      have hm0 : m = 0 := by
        by_contra hm0
        have hle := le_toUnits_intCast hm0
        rw [toUnits_of_isZero hzm, Int.natAbs_zero] at hle
        omega
      have hn0 : n = 0 := by
        by_contra hn0
        have hle := le_toUnits_intCast hn0
        rw [toUnits_of_isZero hzn, Int.natAbs_zero] at hle
        omega
      exact hne (by rw [hm0, hn0])
  have hdvd := Int.dvd_sub (unitsPerOne_dvd_intCast m) (unitsPerOne_dvd_intCast n)
  rw [natAbs_toUnits, (rounds_sub hm hn).magnitude]
  refine le_units_nearest (by decide) ?_
  rw [Nat.mul_one]
  exact Nat.le_of_dvd (Int.natAbs_pos.2 hunits) (Int.natCast_dvd.1 hdvd)

/-! ## Finite results -/

theorem not_isFinite_nan : ¬nan.isFinite = true := by decide

theorem not_isFinite_infinity (s : Bool) : ¬(infinity s).isFinite = true := by cases s <;> decide

theorem not_isFinite_of_isInfinite (h : x.isInfinite = true) : ¬x.isFinite = true := by
  rw [isInfinite, decide_eq_true_iff] at h
  rw [isFinite, decide_eq_true_iff]
  omega

theorem isFinite_operands_add (h : (x + y).isFinite = true) :
    x.isFinite = true ∧ y.isFinite = true := by
  change (add x y).isFinite = true at h
  unfold add at h
  split at h
  · exact absurd h not_isFinite_nan
  · next hnan =>
    rw [Bool.or_eq_true, not_or, Bool.not_eq_true, Bool.not_eq_true] at hnan
    split at h
    · next hx =>
      split at h
      · exact absurd h not_isFinite_nan
      · exact absurd h (not_isFinite_of_isInfinite hx)
    · next hx =>
      split at h
      · next hy => exact absurd h (not_isFinite_of_isInfinite hy)
      · next hy =>
        rw [Bool.not_eq_true] at hx hy
        exact ⟨isFinite_of_not hnan.1 hx, isFinite_of_not hnan.2 hy⟩

theorem isFinite_operands_mul (h : (x * y).isFinite = true) :
    x.isFinite = true ∧ y.isFinite = true := by
  change (mul x y).isFinite = true at h
  unfold mul at h
  dsimp only at h
  split at h
  · exact absurd h not_isFinite_nan
  · next hnan =>
    rw [Bool.or_eq_true, not_or, Bool.not_eq_true, Bool.not_eq_true] at hnan
    split at h
    · split at h
      · exact absurd h not_isFinite_nan
      · exact absurd h (not_isFinite_infinity _)
    · next hinf =>
      rw [Bool.or_eq_true, not_or, Bool.not_eq_true, Bool.not_eq_true] at hinf
      exact ⟨isFinite_of_not hnan.1 hinf.1, isFinite_of_not hnan.2 hinf.2⟩

/-- A quotient by an infinity is finite as well. -/
theorem isFinite_operands_div (h : (x / y).isFinite = true) :
    x.isFinite = true ∧ y.isZero = false := by
  change (div x y).isFinite = true at h
  unfold div at h
  dsimp only at h
  split at h
  · exact absurd h not_isFinite_nan
  · next hnan =>
    rw [Bool.or_eq_true, not_or, Bool.not_eq_true, Bool.not_eq_true] at hnan
    split at h
    · split at h
      · exact absurd h not_isFinite_nan
      · exact absurd h (not_isFinite_infinity _)
    · next hx =>
      rw [Bool.not_eq_true] at hx
      refine ⟨isFinite_of_not hnan.1 hx, ?_⟩
      split at h
      · next hy =>
        have hmag : y.magnitude = infiniteMagnitude := of_decide_eq_true hy
        exact decide_eq_false (by rw [hmag]; decide)
      · split at h
        · split at h
          · exact absurd h not_isFinite_nan
          · exact absurd h (not_isFinite_infinity _)
        · next hzero => exact Bool.eq_false_of_not_eq_true hzero

theorem isZero_sub_self (hx : x.isFinite = true) : (x - x).isZero = true := by
  have hround := rounds_sub hx hx
  have hnear : nearest 0 1 ≤ 0 := nearest_le (by decide) (Nat.zero_le _)
  have hmag := hround.magnitude
  rw [Int.sub_self, Int.natAbs_zero] at hmag
  exact decide_eq_true (by omega)

end Binary64
end Rollup
