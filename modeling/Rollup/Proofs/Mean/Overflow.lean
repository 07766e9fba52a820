import Mathlib.Data.List.Induction
import Rollup.Proofs.Aggregator.Counts
import Rollup.Proofs.Binary64.Overflow

/-!
# Means of large values

The total of a mean is a sum until the next value would take it out of the finite numbers, and the
mean itself from there on. The second half never leaves the finite numbers (`isFinite_carry`). The
first half is guarded by `overflows`, which compares with a rounded difference: it lets the sum come
as far as the midpoint of the edge, but no further (`add_le_of_not_overflows`). So a total becomes
infinite in one case only, when the exact sum is that midpoint and the guard does not tell
(`Slips`); `isFinite_total_iff` says so of every run.
-/

namespace Rollup
namespace Mean

open Binary64

variable {mean value sum : Binary64}

/-! ## The guard -/

/-- The exact sum is the midpoint between the greatest finite number and the next power of two, or
the opposite of it. Rounding takes it to infinity. -/
def IsMidway (sum value : Binary64) : Prop :=
  (sum.toUnits + value.toUnits).natAbs = maxUnits + halfStep

/-- Up to what the guard lets through, the exact sum is at most the midpoint. -/
theorem add_le_of_not_overflows (hs : sum.isFinite = true) (hv : value.isFinite = true)
    (h : overflows sum value = false) :
    (sum.toUnits + value.toUnits).natAbs ≤ maxUnits + halfStep := by
  have hsmax := isFinite_iff_units.1 hs
  have hvmax := isFinite_iff_units.1 hv
  by_cases hsign : sum.isNegative = value.isNegative
  · -- what is left for the sum beside the value, rounded, is not less than the sum
    have hroom : Rounds (maxFinite - value.abs) (maxUnits - (units value.magnitude : Int)) 1 := by
      have hsub := rounds_sub isFinite_maxFinite ((isFinite_abs value).trans hv)
      rw [toUnits_abs, toUnits_maxFinite] at hsub
      exact hsub
    have hnot : ¬maxFinite - value.abs < sum.abs := by
      unfold overflows at h
      simpa [hs, hv, hsign] using h
    have hle := le_of_not_lt hroom.isNaN (isNaN_of_isFinite ((isFinite_abs sum).trans hs)) hnot
    have hkey := (le_iff (isNaN_of_isFinite ((isFinite_abs sum).trans hs)) hroom.isNaN).1 hle
    rw [natAbs_toUnits] at hsmax hvmax
    have hexact : (sum.toUnits + value.toUnits).natAbs
        = units sum.magnitude + units value.magnitude := by
      unfold Binary64.toUnits
      rw [hsign]
      split <;> omega
    rw [hroom.key_eq, if_neg (by omega), numKey_abs] at hkey
    have hnat : (maxUnits - (units value.magnitude : Int)).natAbs
        = maxUnits - units value.magnitude := by omega
    rw [hnat] at hkey
    rw [hexact]
    cases hmag : sum.magnitude with
    | zero =>
      rw [show units 0 = 0 from rfl]
      omega
    | succ k =>
      rw [hmag] at hkey
      have hk : k < infiniteMagnitude := by
        have := of_decide_eq_true hs
        omega
      have hstep := units_succ_le hk
      have hmid := mt (nearest_le_iff (n := maxUnits - units value.magnitude) (d := 1)
        (by decide) hk).2 (by omega)
      omega
  · -- opposite signs cancel
    unfold Binary64.toUnits at *
    cases hsum : sum.isNegative <;> cases hval : value.isNegative <;>
      simp only [hsum, hval, if_true, if_false, Bool.false_eq_true, not_true] at * <;> omega

theorem isFinite_add_iff (hs : sum.isFinite = true) (hv : value.isFinite = true)
    (h : overflows sum value = false) :
    (sum + value).isFinite = true ↔ ¬IsMidway sum value := by
  have hle := add_le_of_not_overflows hs hv h
  rw [(rounds_add hs hv).isFinite_iff (by decide), IsMidway]
  omega

/-! ## The carried mean -/

/-- Moving the dividend up by an even number of half steps moves the quotient by no more, even if it
was rounded down before and is rounded up after. -/
theorem ceil_le_floor_add (top : Nat) {count n : Nat} (hn : 0 < n) (hcount : 0 < count)
    (hle : 2 * count ≤ top) : (top + n - 1) / n ≤ (top - 2 * count) / n + 2 * count := by
  rw [← Nat.add_mul_div_right _ _ hn]
  apply Nat.div_le_div_right
  have hmul : n + 2 * count ≤ 2 * count * n + 1 := by
    obtain ⟨n, rfl⟩ : ∃ m, n = m + 1 := ⟨n - 1, by omega⟩
    have hge : n ≤ 2 * count * n := Nat.le_mul_of_pos_left n (by omega)
    rw [Nat.mul_add]
    omega
  omega

/-- A quotient by two or more is at most half the greatest number. -/
theorem two_mul_quotient_le {quotient : Binary64} {n : Nat} (hm : mean.isFinite = true)
    (hn : 2 ≤ n) (h : Rounds quotient mean.toUnits n) : 2 * quotient.toUnits ≤ maxUnits := by
  have hmax := isFinite_iff_units.1 hm
  obtain ⟨half, hhalf, hdouble⟩ := exists_half_max
  have hscale : 2 * half.toUnits ≤ half.toUnits * n := by
    rw [Int.mul_comm]
    exact Int.mul_le_mul_of_nonneg_left (by omega) (by omega)
  have hle := h.ge (by omega) (isNaN_of_isFinite hhalf) (by omega)
  omega

theorem two_mul_natAbs_quotient_le {quotient : Binary64} {n : Nat} (hm : mean.isFinite = true)
    (hn : 2 ≤ n) (h : Rounds quotient mean.toUnits n) : 2 * quotient.toUnits.natAbs ≤ maxUnits := by
  have hle := two_mul_quotient_le hm hn h
  have hge := two_mul_quotient_le ((isFinite_neg mean).trans hm) hn (h.neg_toUnits (by omega))
  rw [toUnits_neg] at hge
  omega

/-- One step of the mean stays below the greatest number, whatever the roundings of the quotients
and of their difference. -/
theorem carry_le {quotient share gain : Binary64} {n : Nat} (hm : mean.isFinite = true)
    (hv : value.isFinite = true) (hn : 2 ≤ n) (hquotient : Rounds quotient mean.toUnits n)
    (hshare : Rounds share value.toUnits n)
    (hgain : Rounds gain (share.toUnits - quotient.toUnits) 1) :
    mean.toUnits + gain.toUnits ≤ maxUnits := by
  have hmmax := isFinite_iff_units.1 hm
  have hvmax := isFinite_iff_units.1 hv
  have hpos : 0 < n := by omega
  have hzero : (zero false).toUnits = 0 := by decide
  have hshare_le := two_mul_quotient_le hv hn hshare
  by_cases hle : value.toUnits ≤ mean.toUnits
  · -- the mean does not grow
    have hmono := hshare.mono hquotient hpos hle
    have hgain_le := hgain.ge (by decide) (isNaN_zero false) (by omega)
    omega
  by_cases hneg : mean.toUnits < 0
  · -- it grows from below zero
    have hquotient_ge := two_mul_natAbs_quotient_le hm hn hquotient
    have hgain_le := hgain.ge (by decide) (isNaN_of_isFinite isFinite_maxFinite)
      (by rw [toUnits_maxFinite]; omega)
    rw [toUnits_maxFinite] at hgain_le
    omega
  have hquotient_ge : (zero false).toUnits ≤ quotient.toUnits :=
    hquotient.le hpos (isNaN_zero false) (by rw [hzero]; omega)
  by_cases hsmall : 2 * mean.toUnits ≤ maxUnits
  · -- there is room for half the greatest number
    obtain ⟨half, hhalf, hdouble⟩ := exists_half_max
    have hgain_le := hgain.ge (by decide) (isNaN_of_isFinite hhalf) (by omega)
    omega
  · -- `count` double steps below the greatest number, that many are enough for the gain
    obtain ⟨count, hcount, hmean⟩ := exists_below_max hm (by omega)
    have hcount_pos : 0 < count := by
      rcases Nat.eq_zero_or_pos count with rfl | h
      · omega
      · exact h
    have hceil := ceil_le_floor_add 18014398509481982 hpos hcount_pos
      (by unfold fractions at hcount; omega)
    have hup : 18014398509481982 ≤ (18014398509481982 + n - 1) / n * n := by
      have := Nat.lt_div_mul_add hpos (a := 18014398509481982 + n - 1)
      omega
    have hdown : (18014398509481982 - 2 * count) / n * n ≤ 18014398509481982 - 2 * count :=
      Nat.div_mul_le_self _ _
    have hfit : (18014398509481982 + n - 1) / n ≤ 2 * fractions := by
      rw [← Nat.lt_succ_iff, Nat.div_lt_iff_lt_mul hpos]
      unfold fractions
      omega
    revert hceil hup hdown hfit
    generalize (18014398509481982 + n - 1) / n = ceil
    generalize (18014398509481982 - 2 * count) / n = floor
    intro hceil hup hdown hfit
    obtain ⟨high, hhigh, hhighu⟩ := exists_halfSteps ceil hfit
    have hfit' : floor ≤ 2 * fractions := by
      have := Nat.mul_le_mul_left floor hn
      unfold fractions
      omega
    obtain ⟨low, hlow, hlowu⟩ := exists_halfSteps floor hfit'
    obtain ⟨room, hroom, hroomu⟩ := exists_halfSteps (2 * count) (by omega)
    have hshare_le' : share.toUnits ≤ high.toUnits := by
      have hmul := Nat.mul_le_mul_right halfStep hup
      refine hshare.ge hpos (isNaN_of_isFinite hhigh) ?_
      rw [hhighu, ← Nat.cast_mul, Nat.mul_right_comm]
      unfold maxUnits at hvmax
      omega
    have hquotient_ge' : low.toUnits ≤ quotient.toUnits := by
      have hmul := Nat.mul_le_mul_right halfStep hdown
      rw [Nat.sub_mul] at hmul
      refine hquotient.le hpos (isNaN_of_isFinite hlow) ?_
      rw [hlowu, ← Nat.cast_mul, Nat.mul_right_comm, hmean]
      have hbelow : 2 * count * halfStep ≤ 18014398509481982 * halfStep :=
        Nat.mul_le_mul_right halfStep (by unfold fractions at hcount; omega)
      unfold maxUnits
      omega
    have hsteps := Nat.mul_le_mul_right halfStep hceil
    rw [Nat.add_mul] at hsteps
    have hgain_le := hgain.ge (by decide) (isNaN_of_isFinite hroom) (by omega)
    omega

/-- Carrying the mean never leaves the finite numbers. -/
theorem isFinite_carry {n : Nat} (hm : mean.isFinite = true) (hv : value.isFinite = true)
    (hn : 2 ≤ n) (hle : n ≤ 2 * fractions) : (carry mean value n).isFinite = true := by
  have hpos : 0 < n := by omega
  have hhalf := halfStep_pos
  have hquotient := rounds_div_natCast hm hpos hle
  have hshare := rounds_div_natCast hv hpos hle
  have hquotient_le := two_mul_natAbs_quotient_le hm hn hquotient
  have hshare_le := two_mul_natAbs_quotient_le hv hn hshare
  have hgain := rounds_sub (isFinite_iff_units.2 (by omega)) (isFinite_iff_units.2 (by omega))
    (a := value / ((n : Int) : Binary64)) (b := mean / ((n : Int) : Binary64))
  have hfinite := (hgain.isFinite_iff (by decide)).2 (by omega)
  have hup := carry_le hm hv hn hquotient hshare hgain
  -- the same for the opposite numbers is the bound from below
  have hdown := carry_le ((isFinite_neg mean).trans hm) ((isFinite_neg value).trans hv) hn
    (hquotient.neg_toUnits hpos) (hshare.neg_toUnits hpos)
    (by rw [toUnits_neg, toUnits_neg]; convert hgain.neg (by decide) using 1; omega)
  rw [toUnits_neg, toUnits_neg] at hdown
  exact ((rounds_add hm hfinite).isFinite_iff (by decide)).2 (by omega)

/-! ## Runs -/

/-- The state after the given values. -/
def ofValues (values : List Binary64) : Mean Binary64 := values.foldl append fresh

theorem ofValues_concat (values : List Binary64) (value : Binary64) :
    ofValues (values ++ [value]) = (ofValues values).append value := by
  unfold ofValues
  rw [List.foldl_append]
  rfl

theorem count_ofValues (values : List Binary64) : (ofValues values).count = values.length := by
  induction values using List.reverseRecOn with
  | nil => rfl
  | append_singleton values value ih =>
    rw [ofValues_concat, count_append, ih, List.length_append]
    rfl

/-- The next value takes the sum to the midpoint of the edge, and the guard does not tell. -/
def Slips (s : Mean Binary64) (value : Binary64) : Prop :=
  s.isMean = false ∧ overflows s.total value = false ∧ IsMidway s.total value

instance (sum value : Binary64) : Decidable (IsMidway sum value) :=
  inferInstanceAs (Decidable (_ = _))

instance (s : Mean Binary64) (value : Binary64) : Decidable (Slips s value) :=
  inferInstanceAs (Decidable (_ ∧ _))

theorem total_fresh : (fresh : Mean Binary64).total = zero false := intCast_zero

theorem isFinite_fresh : (fresh : Mean Binary64).total.isFinite = true := by
  rw [total_fresh]
  decide

/-- A sum of no values never overflows. -/
theorem not_overflows_fresh (hv : value.isFinite = true) :
    overflows (fresh : Mean Binary64).total value = false := by
  have hmax := isFinite_iff_units.1 hv
  rw [natAbs_toUnits] at hmax
  have hroom := rounds_sub isFinite_maxFinite ((isFinite_abs value).trans hv)
  have hge := hroom.le (by decide) (isNaN_zero false) (by
    rw [toUnits_abs, toUnits_maxFinite, show (zero false).toUnits = 0 by decide]
    omega)
  have hnot : ¬maxFinite - value.abs < (zero false).abs := by
    have hkey := toUnits_le_toUnits.1 hge
    rw [lt_iff hroom.isNaN (by decide), show (zero false).abs.numKey = 0 by decide]
    rw [numKey_zero] at hkey
    omega
  rw [total_fresh, overflows, decide_eq_false hnot, Bool.and_false]

/-- The mean of finite numbers whose sum is finite is finite. -/
theorem isFinite_div {n : Nat} (hm : mean.isFinite = true) (hpos : 0 < n)
    (hle : n ≤ 2 * fractions) : (mean / ((n : Int) : Binary64)).isFinite = true := by
  have hmax := isFinite_iff_units.1 hm
  have hstep := halfStep_pos
  have hmul := Nat.le_mul_of_pos_right (maxUnits + halfStep) hpos
  exact ((rounds_div_natCast hm hpos hle).isFinite_iff hpos).2 (by omega)

/-- One more value keeps the total finite unless it slips by the guard. -/
theorem isFinite_concat_iff {values : List Binary64}
    (h : (ofValues values).total.isFinite = true) (hlength : values.length < 2 * fractions)
    (hv : value.isFinite = true) :
    (ofValues (values ++ [value])).total.isFinite = true ↔ ¬Slips (ofValues values) value := by
  have nonempty : (ofValues values).isMean = true ∨ overflows (ofValues values).total value = true →
      0 < values.length := by
    intro hfull
    apply List.length_pos_iff.2
    rintro rfl
    rcases hfull with hmean | hfull
    · exact absurd hmean Bool.false_ne_true
    · rw [show ofValues [] = fresh from rfl, not_overflows_fresh hv] at hfull
      exact absurd hfull Bool.false_ne_true
  rw [ofValues_concat, append, step, count_ofValues]
  by_cases hmean : (ofValues values).isMean = true
  · have hpos := nonempty (.inl hmean)
    have hfinite := isFinite_carry h hv (n := values.length + 1) (by omega) (by omega)
    rw [if_pos hmean]
    exact ⟨fun _ hslips => absurd (hmean.symm.trans hslips.1) (by decide), fun _ => hfinite⟩
  rw [if_neg hmean]
  by_cases hfull : overflows (ofValues values).total value = true
  · -- the sum becomes the mean of at least one value
    have hpos := nonempty (.inr hfull)
    have hfinite := isFinite_carry (isFinite_div h hpos (by omega)) hv (n := values.length + 1)
      (by omega) (by omega)
    rw [if_pos hfull]
    exact ⟨fun _ hslips => absurd (hfull.symm.trans hslips.2.1) (by decide), fun _ => hfinite⟩
  · rw [if_neg hfull]
    rw [Bool.not_eq_true] at hmean hfull
    refine (isFinite_add_iff h hv hfull).trans (not_congr ?_)
    exact ⟨fun hmid => ⟨hmean, hfull, hmid⟩, fun hslips => hslips.2.2⟩

theorem take_succ_eq {values : List Binary64} {k : Nat} (hk : values[k]? = some value) :
    values.take (k + 1) = values.take k ++ [value] := by
  rw [List.take_add_one, hk]
  rfl

/-- A run stays finite as long as no value slips by the guard. -/
theorem isFinite_take {values : List Binary64} (hfinite : ∀ v ∈ values, v.isFinite = true)
    (hlength : values.length < 2 * fractions) (k : Nat)
    (hslips : ∀ i value, values[i]? = some value → ¬Slips (ofValues (values.take i)) value) :
    (ofValues (values.take k)).total.isFinite = true := by
  induction k with
  | zero => exact isFinite_fresh
  | succ k ih =>
    cases hget : values[k]? with
    | none =>
      rw [List.take_add_one, hget, Option.toList_none, List.append_nil]
      exact ih
    | some value =>
      rw [take_succ_eq hget]
      have hlen : (values.take k).length < 2 * fractions := by
        rw [List.length_take]
        omega
      exact (isFinite_concat_iff ih hlen (hfinite value (List.mem_of_getElem? hget))).2
        (hslips k value hget)

/-- **A mean is finite unless a sum slips by the guard.** Let finite numbers be averaged, fewer than
`2⁵³` of them. A sum that the guard lets pass is finite exactly if it is not the midpoint of the
edge; so the total is finite after every value exactly if no value of the run slips by, and then so
is the result. -/
theorem isFinite_total_iff (values : List Binary64) (hfinite : ∀ v ∈ values, v.isFinite = true)
    (hlength : values.length < 2 ^ 53) :
    (∀ sum value : Binary64, sum.isFinite = true → value.isFinite = true →
      overflows sum value = false → ((sum + value).isFinite = true ↔ ¬IsMidway sum value)) ∧
    ((∀ k, (ofValues (values.take k)).total.isFinite = true) ↔
      ∀ k value, values[k]? = some value → ¬Slips (ofValues (values.take k)) value) ∧
    ((∀ k value, values[k]? = some value → ¬Slips (ofValues (values.take k)) value) →
      values ≠ [] → ∃ mean, (ofValues values).result? = some mean ∧ mean.isFinite = true) := by
  have hlength' : values.length < 2 * fractions := hlength
  refine ⟨fun sum value hs hv h => isFinite_add_iff hs hv h, ⟨?_, ?_⟩, ?_⟩
  · intro hall k value hget
    have hlen : (values.take k).length < 2 * fractions := by
      rw [List.length_take]
      omega
    have hnext := hall (k + 1)
    rw [take_succ_eq hget] at hnext
    exact (isFinite_concat_iff (hall k) hlen (hfinite value (List.mem_of_getElem? hget))).1 hnext
  · intro hslips k
    exact isFinite_take hfinite hlength' k hslips
  · intro hslips hne
    have htotal := isFinite_take hfinite hlength' values.length hslips
    rw [List.take_length] at htotal
    have hpos := List.length_pos_iff.2 hne
    unfold result?
    rw [count_ofValues, if_neg (by omega)]
    split
    · exact ⟨_, rfl, htotal⟩
    · exact ⟨_, rfl, isFinite_div htotal hpos (by omega)⟩

/-- The greatest numbers of either sign: the sum turns into the mean at the second value, and the
mean is carried through both ends of the range. -/
def extremes : List Binary64 := [maxFinite, maxFinite, minFinite, minFinite, maxFinite]

theorem isFinite_total_extremes :
    (∀ v ∈ extremes, v.isFinite = true) ∧ extremes.length < 2 ^ 53 ∧
      ∃ mean, (ofValues extremes).result? = some mean ∧ mean.isFinite = true := by
  have hfinite : ∀ v ∈ extremes, v.isFinite = true := by decide
  have hslips : ∀ i : Fin extremes.length,
      ¬Slips (ofValues (extremes.take i)) (extremes.get i) := by
    decide +kernel
  refine ⟨hfinite, by decide, (isFinite_total_iff extremes hfinite (by decide)).2.2 ?_ (by decide)⟩
  intro k value hget
  obtain ⟨hlt, rfl⟩ := List.getElem?_eq_some_iff.1 hget
  exact hslips ⟨k, hlt⟩

/-- The greatest number but one, and three half steps: what is left beside the second is rounded up
to the first, so the guard lets them pass, and their sum is the midpoint of the edge. -/
def slipping : List Binary64 :=
  [ofMagnitude false 0x7feffffffffffffe, ofMagnitude false 0x7ca8000000000000]

theorem total_slipping :
    (∀ v ∈ slipping, v.isFinite = true) ∧
      (∀ sum ∈ slipping.head?, ∀ value ∈ slipping.getLast?,
        overflows sum value = false ∧ sum + value = infinity false) ∧
      (ofValues slipping).total = infinity false ∧
      (ofValues slipping).result? = some (infinity false) := by
  decide +kernel

end Mean
end Rollup
