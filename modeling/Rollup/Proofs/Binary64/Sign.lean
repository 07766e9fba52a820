import Rollup.Proofs.Binary64.Magnitude

/-!
# Numbers without a sign

The numbers from `+0` to the positive infinity (`IsNonneg`). Products with positive finite numbers,
quotients by them and square roots do not lead out of them: without a NaN, two infinities or two
zeros to be divided by each other there is nothing that makes a NaN. Raising any word to zero leads
into them, since a NaN gives way to the zero (`isNonneg_max_zero`).

Positive integers are such numbers, and so is one less than the double of an integer from two on.
-/

namespace Rollup
namespace Binary64

variable {x y : Binary64}

/-- A number with a clear sign bit. -/
structure IsNonneg (x : Binary64) : Prop where
  isNaN : x.isNaN = false
  isNegative : x.isNegative = false

/-- Finite and above zero. -/
structure IsPositive (x : Binary64) : Prop extends IsNonneg x where
  isFinite : x.isFinite = true
  isZero : x.isZero = false

theorem isNonneg_ofMagnitude {k : Nat} (hk : k ≤ infiniteMagnitude) :
    (ofMagnitude false k).IsNonneg := by
  have hsign : k < signWeight := Nat.lt_of_le_of_lt hk (by decide)
  refine ⟨isNaN_eq_false_iff.2 ?_, isNegative_ofMagnitude false hsign⟩
  rwa [magnitude_ofMagnitude false hsign]

theorem isNonneg_ofQuotient (n d : Nat) : (ofQuotient false n d).IsNonneg :=
  isNonneg_ofMagnitude (nearest_le_infinite n d)

theorem isNonneg_infinity : (infinity false).IsNonneg := isNonneg_ofMagnitude le_rfl

theorem IsNonneg.numKey_nonneg (hx : x.IsNonneg) : 0 ≤ x.numKey := by
  simp [numKey, hx.isNegative]

theorem IsNonneg.zero_le (hx : x.IsNonneg) : zero false ≤ x := by
  rw [le_iff (isNaN_zero false) hx.isNaN, numKey_zero]
  exact hx.numKey_nonneg

theorem isPositive_of_toUnits (hfin : x.isFinite = true) (hpos : 0 < x.toUnits) :
    x.IsPositive := by
  refine ⟨⟨isNaN_of_isFinite hfin, ?_⟩, hfin, ?_⟩
  · by_contra hneg
    rw [toUnits, if_pos (by simpa using hneg)] at hpos
    omega
  · by_contra hzero
    rw [toUnits_of_isZero (by simpa using hzero)] at hpos
    exact absurd hpos (lt_irrefl 0)

/-! ## Operations -/

theorem isNonneg_zero : (zero false).IsNonneg := isNonneg_ofMagnitude (Nat.zero_le _)

/-- Raising to zero: what is not above zero, a NaN included, becomes `+0`. -/
theorem isNonneg_max_zero (x : Binary64) : (max x ((0 : Int) : Binary64)).IsNonneg := by
  show (if _ < x ∨ _ then x else _).IsNonneg
  rw [intCast_zero]
  split
  · next h =>
    have hlt : zero false < x := h.resolve_right (by rw [isNaN_zero]; exact Bool.false_ne_true)
    have hnan := (isNaN_of_lt hlt).2
    rw [lt_iff (isNaN_zero false) hnan, numKey_zero] at hlt
    refine ⟨hnan, ?_⟩
    by_contra hneg
    rw [numKey, if_pos (by simpa using hneg)] at hlt
    omega
  · exact isNonneg_zero

theorem IsNonneg.mul (hx : x.IsNonneg) (hy : y.IsPositive) : (x * y).IsNonneg := by
  show (Binary64.mul x y).IsNonneg
  cases hinf : x.isInfinite with
  | true =>
    have hzero : x.isZero = false := by
      have hmag : x.magnitude = infiniteMagnitude := of_decide_eq_true hinf
      exact decide_eq_false (by rw [hmag]; decide)
    simpa [Binary64.mul, hx.isNaN, hy.isNaN, hx.isNegative, hy.isNegative, hinf, hzero, hy.isZero]
      using isNonneg_infinity
  | false =>
    simpa [Binary64.mul, hx.isNaN, hy.isNaN, hx.isNegative, hy.isNegative, hinf,
      isInfinite_of_isFinite hy.isFinite] using isNonneg_ofQuotient _ _

theorem IsNonneg.div (hx : x.IsNonneg) (hy : y.IsPositive) : (x / y).IsNonneg := by
  show (Binary64.div x y).IsNonneg
  cases hinf : x.isInfinite with
  | true =>
    simpa [Binary64.div, hx.isNaN, hy.isNaN, hx.isNegative, hy.isNegative, hinf,
      isInfinite_of_isFinite hy.isFinite] using isNonneg_infinity
  | false =>
    simpa [Binary64.div, hx.isNaN, hy.isNaN, hx.isNegative, hy.isNegative, hinf,
      isInfinite_of_isFinite hy.isFinite, hy.isZero] using isNonneg_ofQuotient _ _

theorem IsNonneg.sqrt (hx : x.IsNonneg) : x.sqrt.IsNonneg := by
  unfold Binary64.sqrt
  rw [hx.isNaN, hx.isNegative, if_neg Bool.false_ne_true]
  split
  · exact hx
  · rw [if_neg Bool.false_ne_true]
    split
    · exact hx
    · dsimp only
      split
      · exact isNonneg_ofQuotient _ _
      · exact isNonneg_ofQuotient _ _

/-! ## Counts -/

/-- An integer is rounded once, from `n` ones. -/
theorem rounds_intCast (n : Int) : Rounds ((n : Int) : Binary64) (n * unitsPerOne) 1 := by
  have hsigned : signed (decide (n < 0)) (n.natAbs * unitsPerOne) = n * unitsPerOne := by
    unfold signed
    push_cast
    split
    · next h => rw [abs_of_neg (by simpa using h), Int.neg_mul, Int.neg_neg]
    · next h => rw [abs_of_nonneg (by simpa using h)]
  rw [← hsigned]
  exact rounds_ofQuotient _ _ (by decide)

theorem toUnits_intCast_mono {m n : Int} (h : m ≤ n) :
    ((m : Int) : Binary64).toUnits ≤ ((n : Int) : Binary64).toUnits :=
  (rounds_intCast m).mono (rounds_intCast n) (by decide)
    (Int.mul_le_mul_of_nonneg_right h (Int.natCast_nonneg _))

theorem isFinite_natCast {n : Nat} (hn : n ≤ 2 ^ 64) : ((n : Int) : Binary64).isFinite = true :=
  (within_intCast (n := (n : Int)) (b := 2 ^ 64) (by omega) (by norm_num)).isFinite

theorem isPositive_natCast {n : Nat} (hpos : 0 < n) (hn : n ≤ 2 ^ 64) :
    ((n : Int) : Binary64).IsPositive := by
  refine isPositive_of_toUnits (isFinite_natCast hn) ?_
  have hone := toUnits_intCast_mono (m := 1) (n := n) (by omega)
  have hunit := unitsPerOne_pos
  rw [toUnits_intCast (by decide)] at hone
  omega

/-- However large the count is and however it is rounded, something is left. -/
theorem isPositive_natCast_sub_one {n : Nat} (htwo : 2 ≤ n) (hn : n ≤ 2 ^ 64) :
    (((n : Int) : Binary64) - ((1 : Int) : Binary64)).IsPositive := by
  have hone : ((1 : Int) : Binary64).isFinite = true := isFinite_intCast (by decide)
  have hround := rounds_sub (isFinite_natCast hn) hone
  have hge := toUnits_intCast_mono (m := 2) (n := n) (by omega)
  have hunit := unitsPerOne_pos
  refine isPositive_of_toUnits ?_ ?_
  · exact ((within_intCast (n := (n : Int)) (b := 2 ^ 64) (by omega) (by norm_num)).sub
      (within_intCast (n := 1) (b := 1) (by decide) (by norm_num)) (by norm_num)).isFinite
  · have hle := hround.le (by decide) (isNaN_of_isFinite hone)
    rw [toUnits_intCast (by decide)] at hge hle
    have := hle (by omega)
    omega

end Binary64
end Rollup
