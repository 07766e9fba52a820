import Rollup.Proofs.Aggregator.Slices
import Rollup.Proofs.Moments.Nonneg

/-!
# Samples that are no numbers

A NaN that goes into a sum stays there, whatever comes before or after it, and a mean that is
carried along keeps it too (`Poisoned`). So a sum and an average of samples with a NaN among them
are NaNs. Not so variances and deviations: their formula gives a NaN as well, but raising it to zero
makes a zero of it, which the factors of the correction and the root do not change
(`results_of_nan`). A variance of zero does not tell samples that are all equal from samples that
are no numbers; the sums in its state do.
-/

namespace Rollup

namespace Binary64

variable {x y : Binary64}

/-! ## Operations -/

theorem isNaN_nan : nan.isNaN = true := by decide

theorem isNaN_add_of (h : x.isNaN = true ∨ y.isNaN = true) : (x + y).isNaN = true := by
  rw [add_eq_nan h]
  exact isNaN_nan

theorem isNaN_sub_of (h : x.isNaN = true ∨ y.isNaN = true) : (x - y).isNaN = true :=
  isNaN_add_of (h.imp_right (isNaN_neg y).trans)

theorem isNaN_mul_of (h : x.isNaN = true ∨ y.isNaN = true) : (x * y).isNaN = true := by
  show (mul x y).isNaN = true
  unfold mul
  rw [if_pos (by simpa using h)]
  exact isNaN_nan

theorem isNaN_div_of (h : x.isNaN = true ∨ y.isNaN = true) : (x / y).isNaN = true := by
  show (div x y).isNaN = true
  unfold div
  rw [if_pos (by simpa using h)]
  exact isNaN_nan

/-- A NaN gives way to a number. -/
theorem max_of_isNaN (hx : x.isNaN = true) (hy : y.isNaN = false) : max x y = y := by
  refine if_neg ?_
  rintro (hlt | hnan)
  · exact Bool.false_ne_true ((isNaN_of_lt hlt).2.symm.trans hx)
  · exact Bool.false_ne_true (hy.symm.trans hnan)

theorem ofQuotient_zero (d : Nat) : ofQuotient false 0 d = zero false := by
  have hnearest : nearest 0 d = 0 := by simp [nearest, spacing, halfEven]
  rw [ofQuotient, hnearest]
  rfl

/-- The factors of a positive zero leave it as it is. -/
theorem zero_mul_of_isPositive (hy : y.IsPositive) : zero false * y = zero false := by
  have hunits : units (zero false).magnitude = 0 := by decide
  rw [mul_eq (by decide) hy.isFinite, hunits, Nat.zero_mul, hy.isNegative]
  exact ofQuotient_zero unitsPerOne

theorem zero_div_of_isPositive (hy : y.IsPositive) : zero false / y = zero false := by
  have hunits : units (zero false).magnitude = 0 := by decide
  rw [div_eq (by decide) hy.isFinite hy.isZero, hunits, Nat.zero_mul, hy.isNegative]
  exact ofQuotient_zero _

end Binary64

open Binary64

/-! ## Means and moments -/

theorem Mean.isNaN_carry {mean value : Binary64} (n : Nat)
    (h : mean.isNaN = true ∨ value.isNaN = true) : (carry mean value n).isNaN = true := by
  have hchange : (value / ((n : Int) : Binary64) - mean / ((n : Int) : Binary64)).isNaN = true := by
    rcases h with hmean | hvalue
    · exact isNaN_sub_of (.inr (isNaN_div_of (.inl hmean)))
    · exact isNaN_sub_of (.inl (isNaN_div_of (.inl hvalue)))
  exact isNaN_add_of (.inr hchange)

/-- Whichever way the step goes, it uses what there is so far and the value. -/
theorem Mean.isNaN_step {s : Mean Binary64} {value : Binary64} (full : Bool)
    (h : s.total.isNaN = true ∨ value.isNaN = true) : (s.step full value).total.isNaN = true := by
  unfold step
  dsimp only
  split
  · exact isNaN_carry _ h
  · split
    · exact isNaN_carry _ (h.imp_left fun hsum => isNaN_div_of (.inl hsum))
    · exact isNaN_add_of h

namespace Moments

variable {s : Moments Binary64}

/-- The formula makes a NaN, and raising that to zero makes the zero. -/
theorem population_of_isNaN (hnan : s.sumOfSquares.isNaN = true) (hcount : s.count ≠ 0) :
    s.population? = some (zero false) := by
  unfold population?
  rw [if_neg hcount, intCast_zero]
  refine congrArg some (max_of_isNaN (isNaN_div_of (.inl ?_)) (isNaN_zero false))
  exact isNaN_add_of (.inl (isNaN_sub_of (.inl hnan)))

theorem sample_of_isNaN (hnan : s.sumOfSquares.isNaN = true) (hcount : s.count ≠ 0)
    (hword : s.count ≤ 2 ^ 64) : s.sample? = some (zero false) := by
  unfold sample?
  split
  · rw [intCast_zero]
  · next hone =>
    dsimp only
    rw [population_of_isNaN hnan hcount, Option.map_some,
      zero_mul_of_isPositive (isPositive_natCast (by omega) hword),
      zero_div_of_isPositive (isPositive_natCast_sub_one (by omega) hword)]

end Moments

namespace Aggregator

/-! ## Runs -/

/-- The aggregations that add their values up. -/
def summing : List Aggregation := [.sum, .avg, .varP, .varS, .stdP, .stdS]

/-- A NaN has gone into the sums. -/
def Poisoned : Aggregator → Prop
  | tally .sum state => state.value.isNaN = true
  | mean state => state.total.isNaN = true ∧ state.count ≠ 0
  | spread _ state =>
    state.sum.isNaN = true ∧ state.sumOfSquares.isNaN = true ∧ state.count ≠ 0
  | _ => False

/-- Poisoned sums stay so, and a NaN poisons any. -/
theorem poisoned_append {s : Aggregator} {sample : Sample Binary64}
    (h : s.Poisoned ∨ s.kind ∈ summing ∧ sample.value.isNaN = true) :
    (s.append sample).Poisoned := by
  -- only states that hold a sum can be poisoned, so nothing is to be shown of the others
  cases s with
  | tally fold state =>
    cases fold with
    | sum => exact isNaN_add_of (h.imp_right And.right)
    | count | last => simp [Poisoned, kind, summing] at h
  | extreme report state => cases report <;> simp [Poisoned, kind, summing] at h
  | first state => simp [Poisoned, kind, summing] at h
  | mean state =>
    have hcount : (state.append sample.value).count ≠ 0 := by simp
    exact ⟨state.isNaN_step _ (h.imp And.left And.right), hcount⟩
  | spread report state =>
    refine ⟨isNaN_add_of (h.imp And.left And.right), isNaN_add_of ?_, Nat.succ_ne_zero _⟩
    exact h.imp (·.2.1) fun h => isNaN_mul_of (.inl h.2)
  | timeWeighted state => simp [Poisoned, kind, summing] at h

/-- Wherever in a run the NaN is, the sums are poisoned behind it. -/
theorem poisoned_foldl_append {s : Aggregator} (samples : List (Sample Binary64))
    (h : s.Poisoned ∨ s.kind ∈ summing ∧ ∃ sample ∈ samples, sample.value.isNaN = true) :
    (samples.foldl append s).Poisoned := by
  induction samples generalizing s with
  | nil => exact h.elim id fun ⟨_, _, hmem, _⟩ => absurd hmem List.not_mem_nil
  | cons sample rest ih =>
    rw [List.foldl_cons]
    -- the NaN came before, or it comes next, or it is still to come
    rcases h with hpoisoned | ⟨hkind, bad, hmem, hnan⟩
    · exact ih (.inl (poisoned_append (.inl hpoisoned)))
    · rcases List.mem_cons.1 hmem with rfl | hmem
      · exact ih (.inl (poisoned_append (.inr ⟨hkind, hnan⟩)))
      · exact ih (.inr ⟨by rwa [kind_append], bad, hmem, hnan⟩)

/-! ## Results -/

theorem Poisoned.exists_result {s : Aggregator} (h : s.Poisoned)
    (hkind : s.kind ∈ [Aggregation.sum, .avg]) : ∃ x, s.result = .ok x ∧ x.isNaN = true := by
  cases s with
  | tally fold state =>
    cases fold with
    | sum => exact ⟨state.value, rfl, h⟩
    | count | last => exact h.elim
  | mean state =>
    obtain ⟨hnan, hcount⟩ := h
    cases hmean : state.isMean with
    | true => exact ⟨state.total, by simp [result, Mean.result?, hcount, hmean], hnan⟩
    | false =>
      exact ⟨_, by simp [result, Mean.result?, hcount, hmean]; rfl, isNaN_div_of (.inl hnan)⟩
  | spread report state => cases report <;> simp [kind] at hkind
  | extreme report state => exact h.elim
  | first state => exact h.elim
  | timeWeighted state => exact h.elim

theorem result_spread_of_isNaN (report : Spread) {s : Moments Binary64}
    (hnan : s.sumOfSquares.isNaN = true) (hcount : s.count ≠ 0) (hword : s.count ≤ 2 ^ 64) :
    (spread report s).result = .ok (zero false) := by
  have hroot : (zero false).sqrt = zero false := by decide
  have hpopulation := Moments.population_of_isNaN hnan hcount
  have hsample := Moments.sample_of_isNaN hnan hcount hword
  cases report with
  | varP => simp [result, hpopulation]
  | varS => simp [result, hsample]
  | stdP => simp [result, hpopulation, hroot]
  | stdS => simp [result, hsample, hroot]

/-- **Samples with a NaN among them.** Wherever in the run it is, and whatever the other samples
are, a sum and an average report a NaN. The state of a variance or a deviation holds two sums that
are NaNs, and it reports zero of them, as long as a 64-bit word counts the samples. -/
theorem results_of_nan (reverse : Bool) {samples : List (Sample Binary64)}
    (hnan : ∃ sample ∈ samples, sample.value.isNaN = true) :
    (∀ kind ∈ [Aggregation.sum, .avg],
      ∃ x, (samples.foldl append (fresh kind reverse)).result = .ok x ∧ x.isNaN = true) ∧
    ∀ kind ∈ [Aggregation.varP, .varS, .stdP, .stdS],
      ∃ report s, samples.foldl append (fresh kind reverse) = spread report s ∧
        s.sum.isNaN = true ∧ s.sumOfSquares.isNaN = true ∧
        (samples.length < 2 ^ 64 →
          (samples.foldl append (fresh kind reverse)).result = .ok (zero false)) := by
  have hpoisoned (kind : Aggregation) (hkind : kind ∈ summing) :
      (samples.foldl append (fresh kind reverse)).Poisoned :=
    poisoned_foldl_append samples (.inr ⟨by rwa [kind_fresh], hnan⟩)
  constructor
  · intro kind hkind
    refine (hpoisoned kind ?_).exists_result (by rwa [kind_foldl_append, kind_fresh])
    exact List.mem_append_left [.varP, .varS, .stdP, .stdS] hkind
  · intro kind hkind
    have hsums := hpoisoned kind (List.mem_append_right [Aggregation.sum, Aggregation.avg] hkind)
    obtain ⟨report, hfresh⟩ : ∃ report, fresh kind reverse = spread report .fresh := by
      simp only [List.mem_cons, List.not_mem_nil, or_false] at hkind
      rcases hkind with rfl | rfl | rfl | rfl <;> exact ⟨_, rfl⟩
    obtain ⟨s, hfold, hcount⟩ := foldl_append_spread report .fresh samples
    rw [hfresh, hfold] at hsums ⊢
    obtain ⟨hsum, hsquares, hsome⟩ := hsums
    have hlength : s.count = samples.length := hcount.trans (Nat.zero_add _)
    exact ⟨report, s, rfl, hsum, hsquares, fun hword =>
      result_spread_of_isNaN report hsquares hsome (by omega)⟩

/-- A NaN between two numbers. -/
def poisonedSamples : List (Sample Binary64) :=
  [⟨0, maxFinite⟩, ⟨1, nan⟩, ⟨2, zero true⟩]

theorem results_of_nan_between :
    (∃ sample ∈ poisonedSamples, sample.value.isNaN = true) ∧ poisonedSamples.length < 2 ^ 64 ∧
      (∃ x, (poisonedSamples.foldl append (fresh .avg false)).result = .ok x ∧ x.isNaN = true) ∧
      (poisonedSamples.foldl append (fresh .stdS false)).result = .ok (zero false) := by
  have hnan : ∃ sample ∈ poisonedSamples, sample.value.isNaN = true := by decide
  have hword : poisonedSamples.length < 2 ^ 64 := by decide
  obtain ⟨hsums, hspreads⟩ := results_of_nan false hnan
  obtain ⟨report, s, -, -, -, hresult⟩ := hspreads .stdS (by decide)
  exact ⟨hnan, hword, hsums .avg (by decide), hresult hword⟩

/-- Of a NaN alone, or between numbers, a variance and a deviation report the number zero. -/
theorem zero_of_nan :
    ([⟨0, nan⟩].foldl append (fresh .varP false)).result = .ok (zero false) ∧
    ([⟨0, nan⟩].foldl append (fresh .stdP false)).result = .ok (zero false) ∧
    (poisonedSamples.foldl append (fresh .varS false)).result = .ok (zero false) ∧
    (poisonedSamples.foldl append (fresh .stdS false)).result = .ok (zero false) ∧
    (zero false).isNaN = false := by
  decide +kernel

end Aggregator
end Rollup
