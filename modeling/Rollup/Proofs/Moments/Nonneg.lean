import Rollup.Proofs.Aggregator.Counts
import Rollup.Proofs.Binary64.Sign

/-!
# Variances and deviations are never negative

The one-pass variance subtracts large numbers that nearly agree: rounding can take it below zero,
and sums that overflow make a NaN of it. Either way it is raised to zero, and what is done with it
from there on keeps it a number that is not negative (`spread_nonneg`). Nothing is asked of the
sums, so this holds of all values.
-/

namespace Rollup

open Binary64

namespace Moments

variable {s : Moments Binary64}

theorem exists_population (hcount : s.count ≠ 0) : ∃ x, s.population? = some x ∧ x.IsNonneg :=
  ⟨_, if_neg hcount, isNonneg_max_zero _⟩

/-- The factors of the correction are the count and one less, both of them positive. -/
theorem exists_sample (hcount : s.count ≠ 0) (hword : s.count ≤ 2 ^ 64) :
    ∃ x, s.sample? = some x ∧ x.IsNonneg := by
  unfold sample?
  split
  · rw [intCast_zero]
    exact ⟨_, rfl, isNonneg_zero⟩
  · next hone =>
    obtain ⟨variance, hpopulation, hnonneg⟩ := exists_population hcount
    rw [hpopulation]
    exact ⟨_, rfl, (hnonneg.mul (isPositive_natCast (by omega) hword)).div
      (isPositive_natCast_sub_one (by omega) hword)⟩

end Moments

namespace Aggregator

/-- Any moments of at least one value have a variance and a deviation. -/
theorem exists_result_spread (report : Spread) {s : Moments Binary64} (hcount : s.count ≠ 0)
    (hword : s.count ≤ 2 ^ 64) : ∃ x, (spread report s).result = .ok x ∧ x.IsNonneg := by
  obtain ⟨variance, hvariance, hnonneg⟩ := Moments.exists_population hcount
  obtain ⟨estimate, hestimate, hnonneg'⟩ := Moments.exists_sample hcount hword
  cases report with
  | varP => exact ⟨variance, by simp [result, hvariance], hnonneg⟩
  | varS => exact ⟨estimate, by simp [result, hestimate], hnonneg'⟩
  | stdP => exact ⟨variance.sqrt, by simp [result, hvariance], hnonneg.sqrt⟩
  | stdS => exact ⟨estimate.sqrt, by simp [result, hestimate], hnonneg'.sqrt⟩

theorem foldl_append_spread (report : Spread) (s : Moments Binary64)
    (samples : List (Sample Binary64)) :
    ∃ t, samples.foldl append (spread report s) = spread report t ∧
      t.count = s.count + samples.length := by
  induction samples generalizing s with
  | nil => exact ⟨s, rfl, rfl⟩
  | cons sample rest ih =>
    obtain ⟨t, hfold, hcount⟩ := ih (s.append sample.value)
    refine ⟨t, hfold, ?_⟩
    rw [hcount, Moments.count_append, List.length_cons]
    omega

/-- **Variances and deviations are numbers that are not negative.** Of at least one sample, and of
no more than a 64-bit word counts, a variance or a deviation has a result, which is no NaN and not
below zero: whatever the values are, and whether or not their sum and the sum of their squares are
finite. -/
theorem spread_nonneg (kind : Aggregation) (hkind : kind ∈ [.varP, .varS, .stdP, .stdS])
    (reverse : Bool) (samples : List (Sample Binary64)) (hne : samples ≠ [])
    (hword : samples.length < 2 ^ 64) :
    ∃ x, (samples.foldl append (fresh kind reverse)).result = .ok x ∧ x.isNaN = false ∧
      zero false ≤ x := by
  obtain ⟨report, hfresh⟩ : ∃ report, fresh kind reverse = spread report .fresh := by
    simp only [List.mem_cons, List.not_mem_nil, or_false] at hkind
    rcases hkind with rfl | rfl | rfl | rfl <;> exact ⟨_, rfl⟩
  obtain ⟨s, hfold, hcount⟩ := foldl_append_spread report .fresh samples
  have hlength : s.count = samples.length := hcount.trans (Nat.zero_add _)
  have hpos := List.length_pos_iff.2 hne
  obtain ⟨x, hresult, hnonneg⟩ := exists_result_spread report (s := s) (by omega) (by omega)
  exact ⟨x, by rw [hfresh, hfold, hresult], hnonneg.isNaN, hnonneg.zero_le⟩

/-- The greatest numbers of either sign, whose squares overflow. -/
def overflowingSamples : List (Sample Binary64) :=
  [⟨0, maxFinite⟩, ⟨1, minFinite⟩, ⟨2, maxFinite⟩]

theorem spread_nonneg_overflowing :
    (.stdS : Aggregation) ∈ [Aggregation.varP, .varS, .stdP, .stdS] ∧ overflowingSamples ≠ [] ∧
      overflowingSamples.length < 2 ^ 64 ∧
      ∃ x, (overflowingSamples.foldl append (fresh .stdS false)).result = .ok x ∧
        x.isNaN = false ∧ zero false ≤ x := by
  have hkind : (.stdS : Aggregation) ∈ [Aggregation.varP, .varS, .stdP, .stdS] := by decide
  have hne : overflowingSamples ≠ [] := by decide
  exact ⟨hkind, hne, by decide, spread_nonneg .stdS hkind false overflowingSamples hne (by decide)⟩

end Aggregator
end Rollup
