import Rollup.Binary64.Arithmetic
import Rollup.Proofs.Binary64.Order

/-!
# Sums, differences and quotients

Rounding never crosses a representable number, so a bound by a number holds of a rounded result if
it holds of the exact one. `Rounds` says of a result that it was rounded once, with these bounds
(`Rounds.le`, `Rounds.ge`) and the order it keeps (`Rounds.mono`); sums, differences, and quotients
by a count are such results (`rounds_add`, `rounds_sub`, `rounds_div_natCast`).

Neither a sum nor a half tells the two zeros of an operand apart, except in the sign of a zero
result (`same_add`, `same_half`).
-/

namespace Rollup
namespace Binary64

/-! ## Rounded quotients -/

theorem isNaN_ofQuotient (s : Bool) (n d : Nat) : (ofQuotient s n d).isNaN = false := by
  have hle := nearest_le_infinite n d
  have hlt : nearest n d < signWeight := by
    unfold infiniteMagnitude at hle
    unfold signWeight
    omega
  rw [isNaN_eq_false_iff, ofQuotient, magnitude_ofMagnitude s hlt]
  exact hle

theorem numKey_ofQuotient (s : Bool) (n d : Nat) :
    (ofQuotient s n d).numKey = if s then -(nearest n d : Int) else nearest n d := by
  apply numKey_ofMagnitude
  have hle := nearest_le_infinite n d
  unfold infiniteMagnitude at hle
  unfold signWeight
  omega

/-- The quotient that `ofQuotient` rounds has the numerator `signed s n`. -/
def signed (s : Bool) (n : Nat) : Int := if s then -(n : Int) else n

theorem numKey_le_ofQuotient {c : Binary64} {s : Bool} {n d : Nat} (hd : 0 < d)
    (hc : c.isNaN = false) (h : c.toUnits * d ≤ signed s n) :
    c.numKey ≤ (ofQuotient s n d).numKey := by
  have hmag := isNaN_eq_false_iff.1 hc
  have hprod : (0 : Int) ≤ (units c.magnitude * d : Nat) := Int.natCast_nonneg _
  rw [numKey_ofQuotient]
  unfold toUnits at h
  unfold numKey
  unfold signed at h
  cases hs : s <;> cases hn : c.isNegative <;>
    simp only [hs, hn, if_true, if_false, Bool.false_eq_true, Int.neg_mul] at h ⊢
  · have hle : units c.magnitude * d ≤ n := by exact_mod_cast h
    exact_mod_cast le_nearest hd hmag hle
  · omega
  · -- both sides are zero
    have hzero : units c.magnitude * d = 0 := by push_cast at hprod; omega
    have hn0 : n = 0 := by push_cast at hprod; omega
    have hu : units c.magnitude ≤ units 0 := by
      rcases Nat.mul_eq_zero.1 hzero with h0 | h0
      · rw [h0]; exact Nat.zero_le _
      · omega
    have hc0 : c.magnitude ≤ 0 := units_strictMono.le_iff_le.1 hu
    have hr0 : nearest n d ≤ 0 := nearest_le hd (by rw [hn0]; exact Nat.zero_le _)
    omega
  · have hle : n ≤ units c.magnitude * d := by
      have : (n : Int) ≤ units c.magnitude * d := by omega
      exact_mod_cast this
    have hnear := nearest_le hd hle
    omega

theorem toUnits_neg (c : Binary64) : c.neg.toUnits = -c.toUnits := by
  unfold neg toUnits
  rw [isNegative_ofMagnitude _ c.magnitude_lt, magnitude_ofMagnitude _ c.magnitude_lt]
  cases c.isNegative <;> simp

theorem numKey_neg (c : Binary64) : c.neg.numKey = -c.numKey := by
  unfold neg
  rw [numKey_ofMagnitude _ c.magnitude_lt, numKey]
  cases c.isNegative <;> simp

theorem isNaN_neg (c : Binary64) : c.neg.isNaN = c.isNaN := by
  unfold neg isNaN
  rw [magnitude_ofMagnitude _ c.magnitude_lt]

theorem ofQuotient_le_numKey {c : Binary64} {s : Bool} {n d : Nat} (hd : 0 < d)
    (hc : c.isNaN = false) (h : signed s n ≤ c.toUnits * d) :
    (ofQuotient s n d).numKey ≤ c.numKey := by
  -- the opposite number bounds the opposite quotient from below
  have hopp : c.neg.toUnits * d ≤ signed (!s) n := by
    rw [toUnits_neg, Int.neg_mul]
    unfold signed at *
    cases s <;> simp only [Bool.not_true, Bool.not_false, if_true, if_false,
      Bool.false_eq_true] at h ⊢ <;> omega
  have hle := numKey_le_ofQuotient hd (by rw [isNaN_neg]; exact hc) hopp
  rw [numKey_neg, numKey_ofQuotient] at hle
  rw [numKey_ofQuotient]
  cases s <;> simp only [Bool.not_true, Bool.not_false, if_true, if_false,
    Bool.false_eq_true] at hle ⊢ <;> omega

theorem numKey_zero (s : Bool) : (zero s).numKey = 0 := by cases s <;> decide

theorem isNaN_zero (s : Bool) : (zero s).isNaN = false := by cases s <;> decide

/-! ## Rounded results -/

/-- `x` is the number nearest to `n / d` units, a tie going to the even magnitude. -/
structure Rounds (x : Binary64) (n : Int) (d : Nat) : Prop where
  isNaN : x.isNaN = false
  numKey : x.numKey = (ofQuotient (decide (n < 0)) n.natAbs d).numKey

variable {x y c : Binary64} {m n : Int} {d : Nat}

theorem signed_natAbs (n : Int) : signed (decide (n < 0)) n.natAbs = n := by
  unfold signed
  split
  · next h => rw [decide_eq_true_iff] at h; omega
  · next h => rw [decide_eq_true_iff] at h; omega

theorem Rounds.key_eq (h : Rounds x n d) :
    x.numKey = if n < 0 then -(nearest n.natAbs d : Int) else nearest n.natAbs d := by
  rw [h.numKey, numKey_ofQuotient]
  simp only [decide_eq_true_iff]

theorem Rounds.magnitude (h : Rounds x n d) : x.magnitude = nearest n.natAbs d := by
  have habs := natAbs_numKey x
  rw [h.key_eq] at habs
  split at habs <;> omega

/-- Of a zero either sign will do. -/
theorem rounds_ofQuotient (s : Bool) (n : Nat) (hd : 0 < d) :
    Rounds (ofQuotient s n d) (signed s n) d := by
  refine ⟨isNaN_ofQuotient s n d, ?_⟩
  have hzero : nearest 0 d ≤ 0 := nearest_le hd (Nat.zero_le _)
  rw [numKey_ofQuotient, numKey_ofQuotient]
  simp only [decide_eq_true_iff]
  unfold signed
  cases s with
  | false => simp
  | true =>
    simp only [if_true, Int.natAbs_neg, Int.natAbs_natCast]
    split
    · rfl
    · have hn : n = 0 := by omega
      subst hn
      omega

/-- A number at most the quotient is at most its rounding. -/
theorem Rounds.le (h : Rounds x n d) (hd : 0 < d) (hc : c.isNaN = false)
    (hle : c.toUnits * d ≤ n) : c.toUnits ≤ x.toUnits := by
  rw [toUnits_le_toUnits, h.numKey]
  exact numKey_le_ofQuotient hd hc (by rw [signed_natAbs]; exact hle)

/-- A number at least the quotient is at least its rounding. -/
theorem Rounds.ge (h : Rounds x n d) (hd : 0 < d) (hc : c.isNaN = false)
    (hle : n ≤ c.toUnits * d) : x.toUnits ≤ c.toUnits := by
  rw [toUnits_le_toUnits, h.numKey]
  exact ofQuotient_le_numKey hd hc (by rw [signed_natAbs]; exact hle)

theorem Rounds.mono (hx : Rounds x m d) (hy : Rounds y n d) (hd : 0 < d) (hle : m ≤ n) :
    x.toUnits ≤ y.toUnits := by
  rw [toUnits_le_toUnits, hx.key_eq, hy.key_eq]
  by_cases hm : m < 0
  · by_cases hn : n < 0
    · rw [if_pos hm, if_pos hn]
      have hnear : nearest n.natAbs d ≤ nearest m.natAbs d := nearest_mono hd (by omega)
      omega
    · rw [if_pos hm, if_neg hn]
      omega
  · have hnear : nearest m.natAbs d ≤ nearest n.natAbs d := nearest_mono hd (by omega)
    rw [if_neg hm, if_neg (by omega)]
    omega

theorem Rounds.neg (h : Rounds x n d) (hd : 0 < d) : Rounds x.neg (-n) d := by
  refine ⟨(isNaN_neg x).trans h.isNaN, ?_⟩
  have hzero : nearest 0 d ≤ 0 := nearest_le hd (Nat.zero_le _)
  rw [numKey_neg, h.key_eq, numKey_ofQuotient, Int.natAbs_neg]
  simp only [decide_eq_true_iff]
  by_cases hn : n = 0
  · subst hn
    rw [if_neg (by omega), if_neg (by omega)]
    simp only [Int.natAbs_zero]
    omega
  · by_cases hneg : n < 0
    · rw [if_pos hneg, if_neg (by omega), Int.neg_neg]
    · rw [if_neg hneg, if_pos (by omega)]

theorem Rounds.neg_toUnits (h : Rounds x y.toUnits d) (hd : 0 < d) :
    Rounds x.neg y.neg.toUnits d := by
  rw [toUnits_neg]
  exact h.neg hd

theorem isFinite_neg (x : Binary64) : x.neg.isFinite = x.isFinite := by
  unfold neg isFinite
  rw [magnitude_ofMagnitude _ x.magnitude_lt]

/-! ## Sums -/

theorem add_eq {a b : Binary64} (ha : a.isFinite = true) (hb : b.isFinite = true) :
    a + b = addFinite a b := by
  show add a b = _
  simp [add, isNaN_of_isFinite ha, isNaN_of_isFinite hb, isInfinite_of_isFinite ha,
    isInfinite_of_isFinite hb]

/-- A zero sum has the sign of both operands. -/
theorem rounds_add {a b : Binary64} (ha : a.isFinite = true) (hb : b.isFinite = true) :
    Rounds (a + b) (a.toUnits + b.toUnits) 1 := by
  rw [add_eq ha hb, addFinite]
  split
  · next hzero =>
    rw [hzero]
    exact ⟨isNaN_zero _, numKey_zero _⟩
  · exact ⟨isNaN_ofQuotient _ _ _, rfl⟩

theorem rounds_sub {a b : Binary64} (ha : a.isFinite = true) (hb : b.isFinite = true) :
    Rounds (a - b) (a.toUnits - b.toUnits) 1 := by
  have hsum := rounds_add ha ((isFinite_neg b).trans hb)
  rw [toUnits_neg] at hsum
  exact hsum

theorem isNaN_add {a b : Binary64} (ha : a.isFinite = true) (hb : b.isFinite = true) :
    (a + b).isNaN = false := (rounds_add ha hb).isNaN

/-! ## Quotients by a count -/

theorem unitsPerOne_eq : unitsPerOne = 2 ^ 1074 := by
  unfold unitsPerOne
  -- as a literal the exponent would have the power written out
  generalize 1074 = e
  rfl

theorem unitsPerOne_pos : 0 < unitsPerOne := by
  rw [unitsPerOne_eq]
  exact pow_pos two_pos 1074

/-- The magnitude of `2⁵³`, from which on all numbers are integers. -/
theorem units_two_pow_53 : units (1076 * fractions) = 2 * fractions * unitsPerOne := by
  rw [unitsPerOne_eq]
  exact units_of_significand (e := 1074) (h := 2 * fractions) (.inl (by decide)) le_rfl

/-- The counts up to `2⁵³` are numbers. -/
theorem natCast_eq {count : Nat} (hle : count ≤ 2 * fractions) :
    ∃ k, k < infiniteMagnitude ∧ units k = count * unitsPerOne ∧
      ((count : Int) : Binary64) = ofMagnitude false k := by
  obtain ⟨k, hk⟩ := exists_units_eq hle 1074
  rw [← unitsPerOne_eq] at hk
  have hle' : k ≤ 1076 * fractions := by
    rw [← units_strictMono.le_iff_le, hk, units_two_pow_53]
    exact Nat.mul_le_mul_right _ hle
  have hlt : k < infiniteMagnitude := hle'.trans_lt (by decide)
  refine ⟨k, hlt, hk, ?_⟩
  show ofQuotient (decide ((count : Int) < 0)) ((count : Int).natAbs * unitsPerOne) 1 = _
  have hnear := nearest_units (k := k) (d := 1) (by decide) (Nat.le_of_lt hlt)
  rw [Nat.mul_one, hk] at hnear
  rw [decide_eq_false (by omega), Int.natAbs_natCast, ofQuotient, hnear]

/-- Zero is cast to the zero with a clear sign bit. -/
theorem intCast_zero : ((0 : Int) : Binary64) = zero false := by
  obtain ⟨k, -, hk, hzero⟩ := natCast_eq (Nat.zero_le (2 * fractions))
  rw [Nat.zero_mul] at hk
  obtain rfl : k = 0 := units_strictMono.injective hk
  exact hzero

theorem isFinite_ofMagnitude (s : Bool) {k : Nat} (hk : k < infiniteMagnitude) :
    (ofMagnitude s k).isFinite = true := by
  unfold isFinite
  rw [magnitude_ofMagnitude s (hk.trans (by decide))]
  exact decide_eq_true hk

theorem toUnits_ofMagnitude {k : Nat} (hk : k < signWeight) :
    (ofMagnitude false k).toUnits = units k := by
  unfold toUnits
  rw [isNegative_ofMagnitude false hk, magnitude_ofMagnitude false hk]
  rfl

/-- A count stands for as many units as it has ones, and these cancel. -/
theorem div_natCast_eq {x : Binary64} (hx : x.isFinite = true) {count : Nat} (hpos : 0 < count)
    (hle : count ≤ 2 * fractions) :
    x / ((count : Int) : Binary64) = ofQuotient x.isNegative (units x.magnitude) count := by
  obtain ⟨k, hlt, hk, heq⟩ := natCast_eq hle
  have hsign : k < signWeight := hlt.trans (by decide)
  have hunit := unitsPerOne_pos
  have hkpos : k ≠ 0 := by
    rintro rfl
    have hmul := Nat.mul_pos hpos hunit
    rw [← hk] at hmul
    exact absurd hmul (by decide)
  have hmag := magnitude_ofMagnitude false hsign
  have hfin := isFinite_ofMagnitude false hlt
  have hz : (ofMagnitude false k).isZero = false := decide_eq_false (by rw [hmag]; exact hkpos)
  show div x ((count : Int) : Binary64) = _
  rw [heq, div, isNaN_of_isFinite hx, isInfinite_of_isFinite hx, isNaN_of_isFinite hfin,
    isInfinite_of_isFinite hfin, hz, isNegative_ofMagnitude _ hsign, hmag, hk]
  simp only [Bool.or_self, Bool.false_eq_true, if_false, Bool.bne_false]
  rw [ofQuotient, nearest_mul_right hpos hunit]
  rfl

/-- A finite number divided by a count is rounded once. -/
theorem rounds_div_natCast (hx : x.isFinite = true) {count : Nat} (hpos : 0 < count)
    (hle : count ≤ 2 * fractions) :
    Rounds (x / ((count : Int) : Binary64)) x.toUnits count := by
  rw [div_natCast_eq hx hpos hle]
  exact rounds_ofQuotient x.isNegative _ hpos

/-! ## Halves -/

/-- Half an infinity is the infinity. -/
theorem half_infinite {x : Binary64} (hx : x.isInfinite = true) :
    x / ((2 : Int) : Binary64) = x := by
  have hmag : x.magnitude = infiniteMagnitude := of_decide_eq_true hx
  have hn : x.isNaN = false := isNaN_eq_false_iff.2 (Nat.le_of_eq hmag)
  obtain ⟨k, hlt, -, htwo⟩ := natCast_eq (show 2 ≤ 2 * fractions by decide)
  have hfin := isFinite_ofMagnitude false hlt
  show div x (((2 : Nat) : Int) : Binary64) = _
  rw [htwo, div, hn, hx, isNaN_of_isFinite hfin, isInfinite_of_isFinite hfin,
    isNegative_ofMagnitude _ (hlt.trans (by decide))]
  simp only [Bool.or_self, Bool.false_eq_true, if_false, if_true, Bool.bne_false]
  rw [infinity, ← hmag, ofMagnitude_magnitude]

theorem rounds_half (hx : x.isFinite = true) : Rounds (x / ((2 : Int) : Binary64)) x.toUnits 2 :=
  rounds_div_natCast hx (by decide) (by decide)

theorem isNaN_half (hx : x.isFinite = true) : (x / ((2 : Int) : Binary64)).isNaN = false :=
  (rounds_half hx).isNaN

/-- A number is at most the half of `x` if its double is at most `x`. -/
theorem le_half_of_units (hx : x.isFinite = true) (hc : c.isNaN = false)
    (h : 2 * c.toUnits ≤ x.toUnits) : c.numKey ≤ (x / ((2 : Int) : Binary64)).numKey :=
  toUnits_le_toUnits.1 ((rounds_half hx).le (by decide) hc (by omega))

/-- A number is at least the half of `x` if its double is at least `x`. -/
theorem half_le_of_units (hx : x.isFinite = true) (hc : c.isNaN = false)
    (h : x.toUnits ≤ 2 * c.toUnits) : (x / ((2 : Int) : Binary64)).numKey ≤ c.numKey :=
  toUnits_le_toUnits.1 ((rounds_half hx).ge (by decide) hc (by omega))

/-! ## The sign of a zero operand -/

theorem isFinite_of_isZero {x : Binary64} (h : x.isZero = true) : x.isFinite = true := by
  have h0 : x.magnitude = 0 := of_decide_eq_true h
  exact decide_eq_true (by rw [h0]; decide)

theorem toUnits_of_isZero {x : Binary64} (h : x.isZero = true) : x.toUnits = 0 := by
  have h0 : x.magnitude = 0 := of_decide_eq_true h
  unfold toUnits
  rw [h0]
  cases x.isNegative <;> rfl

theorem add_eq_nan {a b : Binary64} (h : a.isNaN = true ∨ b.isNaN = true) : a + b = nan := by
  show add a b = nan
  unfold add
  rw [if_pos (by rcases h with h | h <;> simp [h])]

/-- An infinity absorbs what is finite. -/
theorem add_infinite {a b : Binary64} (ha : a.isFinite = true) (hb : b.isInfinite = true) :
    a + b = b := by
  have hmag : b.magnitude = infiniteMagnitude := of_decide_eq_true hb
  have hn : b.isNaN = false := isNaN_eq_false_iff.2 (Nat.le_of_eq hmag)
  show add a b = b
  simp [add, isNaN_of_isFinite ha, isInfinite_of_isFinite ha, hn, hb]

/-- The number that a sum of finite numbers is depends on the exact sum alone. -/
theorem numKey_add_congr {a a' b b' : Binary64} (ha : a.isFinite = true) (ha' : a'.isFinite = true)
    (hb : b.isFinite = true) (hb' : b'.isFinite = true)
    (h : a.toUnits + b.toUnits = a'.toUnits + b'.toUnits) :
    (a + b).numKey = (a' + b').numKey := by
  rw [(rounds_add ha hb).numKey, (rounds_add ha' hb').numKey, h]

protected theorem add_comm (a b : Binary64) : a + b = b + a := by
  show add a b = add b a
  unfold add
  rw [Bool.or_comm b.isNaN]
  split
  · rfl
  · cases ha : a.isInfinite <;> cases hb : b.isInfinite <;>
      simp only [Bool.false_and, Bool.true_and, Bool.false_eq_true, if_true, if_false]
    · unfold addFinite
      rw [Int.add_comm, Bool.and_comm]
    · -- infinities of one sign are one word
      have hma : a.magnitude = infiniteMagnitude := of_decide_eq_true ha
      have hmb : b.magnitude = infiniteMagnitude := of_decide_eq_true hb
      by_cases hs : a.isNegative = b.isNegative
      · have heq : a = b := by
          rw [← ofMagnitude_magnitude a, ← ofMagnitude_magnitude b, hma, hmb, hs]
        rw [heq]
      · have hs' : b.isNegative ≠ a.isNegative := fun h => hs h.symm
        rw [if_pos (by simpa using hs), if_pos (by simpa using hs')]

theorem same_add_left {a a' : Binary64} (b : Binary64) (h : same a a' = true) :
    same (a + b) (a' + b) = true := by
  rcases eq_or_of_same h with rfl | ⟨hz, hz'⟩ | ⟨hn, hn'⟩
  · exact same_self _
  · have hfin := isFinite_of_isZero hz
    have hfin' := isFinite_of_isZero hz'
    cases hbn : b.isNaN with
    | true => rw [add_eq_nan (.inr hbn), add_eq_nan (.inr hbn)]; exact same_self _
    | false =>
      cases hbi : b.isInfinite with
      | true => rw [add_infinite hfin hbi, add_infinite hfin' hbi]; exact same_self _
      | false =>
        have hbf := isFinite_of_not hbn hbi
        refine same_iff.2 ⟨by rw [isNaN_add hfin hbf, isNaN_add hfin' hbf], fun _ => ?_⟩
        apply numKey_add_congr hfin hfin' hbf hbf
        rw [toUnits_of_isZero hz, toUnits_of_isZero hz']
  · rw [add_eq_nan (.inl hn), add_eq_nan (.inl hn')]; exact same_self _

theorem same_add {a a' b b' : Binary64} (ha : same a a' = true) (hb : same b b' = true) :
    same (a + b) (a' + b') = true := by
  have hleft := same_add_left b ha
  have hright := same_add_left a' hb
  rw [Binary64.add_comm b, Binary64.add_comm b'] at hright
  exact same_trans hleft hright

theorem same_half {x x' : Binary64} (h : same x x' = true) :
    same (x / ((2 : Int) : Binary64)) (x' / ((2 : Int) : Binary64)) = true := by
  have zeroHalf {x : Binary64} (hz : x.isZero = true) :
      (x / ((2 : Int) : Binary64)).numKey = 0 := by
    have hfin := isFinite_of_isZero hz
    have hu := toUnits_of_isZero hz
    have hlo := le_half_of_units (c := zero false) hfin (isNaN_zero _) (by rw [hu]; decide)
    have hhi := half_le_of_units (c := zero false) hfin (isNaN_zero _) (by rw [hu]; decide)
    rw [numKey_zero] at hlo hhi
    omega
  rcases eq_or_of_same h with rfl | ⟨hz, hz'⟩ | ⟨hn, hn'⟩
  · exact same_self _
  · have hnan := isNaN_half (isFinite_of_isZero hz)
    have hnan' := isNaN_half (isFinite_of_isZero hz')
    exact same_iff.2 ⟨by rw [hnan, hnan'], fun _ => by rw [zeroHalf hz, zeroHalf hz']⟩
  · have hx : x / ((2 : Int) : Binary64) = nan := by
      show div x _ = nan
      simp [div, hn]
    have hx' : x' / ((2 : Int) : Binary64) = nan := by
      show div x' _ = nan
      simp [div, hn']
    rw [hx, hx']
    exact same_self _

end Binary64
end Rollup
