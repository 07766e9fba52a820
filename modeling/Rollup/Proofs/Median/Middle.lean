import Rollup.Median.Tracker
import Rollup.Proofs.Binary64.Overflow

/-!
# The middle of two numbers

Computed as `(a + b) / 2` with two roundings, the middle still lies between finite numbers `a` and
`b`, as long as their sum is finite (`middle_between_of_finite`). Of numbers up to half the greatest
one and the infinities (`middle_between`), it is a NaN for the two infinities in ascending order,
and only for them. Which zero an operand is makes no difference to the number (`same_middle`).
-/

namespace Rollup

namespace Binary64

/-- A number that is infinite or at most half the greatest finite one in magnitude. -/
def IsModerate (x : Binary64) : Prop :=
  x.isNaN = false ∧ (x.isInfinite = true ∨ x.abs ≤ maxFinite / ((2 : Int) : Binary64))

instance (x : Binary64) : Decidable x.IsModerate := inferInstanceAs (Decidable (_ ∧ _))

/-- A half that is on the grid is not rounded. -/
theorem half_eq {x : Binary64} {k : Nat} (hx : x.isFinite = true) (hk : k ≤ infiniteMagnitude)
    (h : units x.magnitude = 2 * units k) :
    x / ((2 : Int) : Binary64) = ofMagnitude x.isNegative k := by
  have hdiv := div_natCast_eq hx two_pos (by decide)
  rw [h, Nat.mul_comm, ofQuotient, nearest_units two_pos hk] at hdiv
  exact hdiv

/-- The magnitude of half the greatest finite number: one exponent less. -/
theorem half_maxFinite :
    maxFinite / ((2 : Int) : Binary64) = ofMagnitude false 0x7fdfffffffffffff :=
  half_eq isFinite_maxFinite (by decide) (units_maxFinite.trans two_mul_units_half.symm)

theorem isModerate_iff {x : Binary64} : x.IsModerate ↔
    x.isNaN = false ∧ (x.isInfinite = true ∨ x.magnitude ≤ 0x7fdfffffffffffff) := by
  refine and_congr_right fun hn => or_congr_right ?_
  have habs : x.abs.isNaN = false := by
    rw [isNaN_eq_false_iff, abs, magnitude_ofMagnitude _ x.magnitude_lt]
    exact isNaN_eq_false_iff.1 hn
  rw [half_maxFinite, le_iff habs (by decide), numKey_abs, numKey_ofMagnitude _ (by decide)]
  exact Int.ofNat_le

theorem IsModerate.magnitude_le {x : Binary64} (h : x.IsModerate) (hi : x.isInfinite = false) :
    x.magnitude ≤ 0x7fdfffffffffffff :=
  (isModerate_iff.1 h).2.resolve_left (Bool.eq_false_iff.1 hi)

/-- Up to half the greatest finite number, the double of a number is a finite number. -/
theorem exists_double {x : Binary64} (h : x.magnitude ≤ 0x7fdfffffffffffff) :
    ∃ y : Binary64, y.toUnits = 2 * x.toUnits ∧ y.magnitude ≤ 0x7fefffffffffffff := by
  have double : ∃ k, k ≤ 0x7fefffffffffffff ∧ units k = 2 * units x.magnitude := by
    by_cases hsmall : x.magnitude < fractions
    · refine ⟨0 * fractions + 2 * x.magnitude, by unfold fractions at *; omega, ?_⟩
      rw [units_of_significand (.inr rfl) (by omega), units, if_pos hsmall]
      ring
    · refine ⟨x.magnitude + fractions, by unfold fractions at *; omega, ?_⟩
      rw [units, units, if_neg (by unfold fractions at *; omega), if_neg hsmall]
      have hmod : (x.magnitude + fractions) % fractions = x.magnitude % fractions := by
        rw [Nat.add_mod_right]
      have hexp : (x.magnitude + fractions) / fractions - 1 = x.magnitude / fractions - 1 + 1 := by
        unfold fractions at *; omega
      rw [hmod, hexp]
      show _ * 2 ^ _ = 2 * (_ * 2 ^ _)
      rw [Nat.pow_succ]
      ring
  obtain ⟨k, hk, hunits⟩ := double
  have hlt : k < signWeight := by unfold signWeight; omega
  refine ⟨ofMagnitude x.isNegative k, ?_, ?_⟩
  · unfold toUnits
    rw [isNegative_ofMagnitude _ hlt, magnitude_ofMagnitude _ hlt, hunits]
    cases x.isNegative <;> simp
  · rw [magnitude_ofMagnitude _ hlt]
    exact hk

variable {x c : Binary64} {n : Int}

/-- Doubles do not pass a finite result that they do not pass exactly: they are numbers as well, or
beyond all finite ones. -/
theorem Rounds.two_mul_le (h : Rounds x n 1) (hx : x.isFinite = true) (hc : c.isFinite = true)
    (hle : 2 * c.toUnits ≤ n) : 2 * c.toUnits ≤ x.toUnits := by
  have hmax := isFinite_iff_units.1 hx
  have hedge := (h.isFinite_iff (by decide)).1 hx
  by_cases hsmall : (2 * c.toUnits).natAbs ≤ maxUnits
  · have hmagnitude : c.magnitude ≤ 0x7fdfffffffffffff := by
      have hhalf := two_mul_units_half
      have habs := natAbs_toUnits c
      exact units_strictMono.le_iff_le.1 (by omega)
    obtain ⟨y, hy, hfin⟩ := exists_double hmagnitude
    have hn := isNaN_of_isFinite (isFinite_iff_magnitude.2 hfin)
    have hdouble := h.le (by decide) hn (by omega)
    omega
  · by_contra hlt
    have hbig := two_mul_of_half_lt hc (by omega)
    omega

theorem Rounds.le_two_mul (h : Rounds x n 1) (hx : x.isFinite = true) (hc : c.isFinite = true)
    (hle : n ≤ 2 * c.toUnits) : x.toUnits ≤ 2 * c.toUnits := by
  have hneg := (h.neg (by decide)).two_mul_le ((isFinite_neg x).trans hx)
    ((isFinite_neg c).trans hc) (by rw [toUnits_neg]; omega)
  rw [toUnits_neg, toUnits_neg] at hneg
  omega

/-- The sum of two numbers up to half the greatest finite one is finite. -/
theorem IsModerate.isFinite_add {a b : Binary64} (ha : a.IsModerate) (hb : b.IsModerate)
    (hia : a.isInfinite = false) (hib : b.isInfinite = false) : (a + b).isFinite = true := by
  have hfa := isFinite_of_not ha.1 hia
  have hfb := isFinite_of_not hb.1 hib
  have hua : units a.magnitude ≤ units 0x7fdfffffffffffff :=
    units_strictMono.monotone (ha.magnitude_le hia)
  have hub : units b.magnitude ≤ units 0x7fdfffffffffffff :=
    units_strictMono.monotone (hb.magnitude_le hib)
  have hhalf := two_mul_units_half
  have hstep := halfStep_pos
  have habs := natAbs_toUnits a
  have habs' := natAbs_toUnits b
  exact ((rounds_add hfa hfb).isFinite_iff (by decide)).2 (by omega)

end Binary64

namespace MedianTracker

open Binary64

theorem same_middle {a a' b b' : Binary64} (ha : same a a' = true) (hb : same b b' = true) :
    same (middle a b) (middle a' b') = true :=
  same_half (same_add ha hb)

/-- The middle of finite numbers lies between them if their sum is finite: the sum lies between the
doubles of both, and the half between the halves of those. -/
theorem middle_between_of_finite {a b : Binary64} (ha : a.isFinite = true) (hb : b.isFinite = true)
    (hsum : (a + b).isFinite = true) (hab : a ≤ b) : a ≤ middle a b ∧ middle a b ≤ b := by
  have hna := isNaN_of_isFinite ha
  have hnb := isNaN_of_isFinite hb
  have hunits := toUnits_le_of_le hab
  have hlo := (rounds_add ha hb).two_mul_le hsum ha (by omega)
  have hhi := (rounds_add ha hb).le_two_mul hsum hb (by omega)
  exact ⟨(le_iff hna (isNaN_half hsum)).2 (le_half_of_units hsum hna hlo),
    (le_iff (isNaN_half hsum) hnb).2 (half_le_of_units hsum hnb hhi)⟩

theorem middle_infinity (s : Bool) : middle (infinity s) (infinity s) = infinity s := by
  have hsum : infinity s + infinity s = infinity s := by cases s <;> decide
  unfold middle
  rw [hsum]
  exact half_infinite (by cases s <;> decide)

/-- The middle lies between the two numbers; for the two infinities it is a NaN. -/
theorem middle_between {a b : Binary64} (ha : a.IsModerate) (hb : b.IsModerate) (hab : a ≤ b) :
    (a = infinity true ∧ b = infinity false ∧ (middle a b).isNaN = true) ∨
      (a ≤ middle a b ∧ middle a b ≤ b) := by
  have hkey := (le_iff ha.1 hb.1).1 hab
  cases hia : a.isInfinite with
  | true =>
    have hmag : a.magnitude = infiniteMagnitude := of_decide_eq_true hia
    cases hib : b.isInfinite with
    | true =>
      have hmag' : b.magnitude = infiniteMagnitude := of_decide_eq_true hib
      -- of the four pairs of infinities only the descending one is excluded
      rw [← ofMagnitude_magnitude a, ← ofMagnitude_magnitude b, hmag, hmag'] at hkey ⊢
      generalize a.isNegative = s at hkey ⊢
      generalize b.isNegative = s' at hkey ⊢
      cases s <;> cases s'
      · rw [← infinity, middle_infinity]
        exact .inr (by decide)
      · exact absurd hkey (by decide)
      · exact .inl (by decide)
      · rw [← infinity, middle_infinity]
        exact .inr (by decide)
    | false =>
      have hfin := isFinite_of_not hb.1 hib
      have hmid : middle a b = a := by
        unfold middle
        rw [Binary64.add_comm, add_infinite hfin hia, half_infinite hia]
      rw [hmid]
      exact .inr ⟨(le_iff ha.1 ha.1).2 (Int.le_refl _), hab⟩
  | false =>
    have hfin := isFinite_of_not ha.1 hia
    cases hib : b.isInfinite with
    | true =>
      have hmid : middle a b = b := by
        unfold middle
        rw [add_infinite hfin hib, half_infinite hib]
      rw [hmid]
      exact .inr ⟨hab, (le_iff hb.1 hb.1).2 (Int.le_refl _)⟩
    | false =>
      have hfin' := isFinite_of_not hb.1 hib
      exact .inr (middle_between_of_finite hfin hfin' (ha.isFinite_add hb hia hib) hab)

end MedianTracker
end Rollup
