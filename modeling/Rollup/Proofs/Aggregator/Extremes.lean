import Mathlib.Data.Int.ConditionallyCompleteOrder
import Rollup.Proofs.Aggregator.Slices
import Rollup.Proofs.Binary64.Arithmetic

/-!
# Least and greatest values

Bounds start with the greatest finite number as their least value and with the least finite number
as their greatest. Which values move them does not depend on how the samples come, one by one or in
slices: the greatest value is that of the samples and of the number it starts with (`Tops`), and the
least value is the same of the opposite numbers (`neg_foldl_keepLess`). So min, max and range are
NaNs exactly if there are no numbers, and are those of the numbers among the samples, except that
the bounds never pass the finite number they start with: the number that stands for no samples is
reported as the minimum of samples that are all the positive infinity, and as the maximum of samples
that are all the negative one (`extremes_of_intakes`, `resultOf_infinities`).
-/

namespace Rollup

/-! ## Opposite numbers -/

namespace Binary64

protected theorem neg_lt_neg_iff {a b : Binary64} : a.neg < b.neg ↔ b < a := by
  show lt a.neg b.neg = true ↔ lt b a = true
  simp only [lt, isNaN_neg, numKey_neg, Int.neg_lt_neg_iff, Bool.and_comm a.isNaN.not]

protected theorem neg_le_neg_iff {a b : Binary64} : a.neg ≤ b.neg ↔ b ≤ a := by
  show le a.neg b.neg = true ↔ le b a = true
  simp only [le, isNaN_neg, numKey_neg, Int.neg_le_neg_iff, Bool.and_comm a.isNaN.not]

theorem numEq_neg_neg (a b : Binary64) : numEq a.neg b.neg = numEq a b := by
  simp only [numEq, isNaN_neg, numKey_neg, neg_inj]

protected theorem neg_neg (x : Binary64) : x.neg.neg = x := by
  unfold neg
  rw [isNegative_ofMagnitude _ x.magnitude_lt, magnitude_ofMagnitude _ x.magnitude_lt,
    Bool.not_not, ofMagnitude_magnitude]

theorem infinity_lt_neg_iff {x : Binary64} : infinity true < x.neg ↔ x < infinity false := by
  rw [show infinity true = (infinity false).neg by decide, Binary64.neg_lt_neg_iff]

end Binary64

open Binary64

namespace Bounds

theorem neg_keepLess (acc value : Binary64) :
    (keepLess acc value).neg = MaxScan.keepGreater acc.neg value.neg := by
  simp only [keepLess, MaxScan.keepGreater, Binary64.neg_lt_neg_iff, apply_ite neg]

/-- The least value is the opposite of the greatest opposite one. -/
theorem neg_foldl_keepLess (acc : Binary64) (values : List Binary64) :
    (values.foldl keepLess acc).neg = MaxScan.linear acc.neg (values.map neg) := by
  induction values generalizing acc with
  | nil => rfl
  | cons value rest ih =>
    rw [List.foldl_cons, ih, neg_keepLess, List.map_cons, MaxScan.linear_cons]

end Bounds

/-! ## Peaks -/

namespace MaxScan

variable {values : List Binary64} {x : Binary64}

theorem peak_le_iff {bound : WithBot Int} : peak values ≤ bound ↔ ∀ v ∈ values, rank v ≤ bound := by
  induction values with
  | nil => simp
  | cons value rest ih => rw [peak_cons, sup_le_iff, ih, List.forall_mem_cons]

theorem rank_le_peak : ∀ v ∈ values, rank v ≤ peak values := peak_le_iff.1 le_rfl

/-- The peak of values is that of one of them, unless they count for nothing. -/
theorem exists_rank_eq_peak (h : peak values ≠ ⊥) : ∃ v ∈ values, rank v = peak values := by
  induction values with
  | nil => exact absurd rfl h
  | cons value rest ih =>
    rw [peak_cons] at h ⊢
    rcases le_total (peak rest) (rank value) with hle | hle
    · exact ⟨value, List.mem_cons_self, (sup_eq_left.2 hle).symm⟩
    · rw [sup_eq_right.2 hle] at h ⊢
      obtain ⟨v, hv, heq⟩ := ih h
      exact ⟨v, List.mem_cons_of_mem value hv, heq⟩

theorem rank_le_rank_iff {a b : Binary64} (ha : a.isNaN = false) (hb : b.isNaN = false) :
    rank a ≤ rank b ↔ a ≤ b := by
  rw [rank_of_not_isNaN ha, rank_of_not_isNaN hb, WithBot.coe_le_coe, le_iff ha hb]

theorem rank_ne_bot (hx : x.isNaN = false) : rank x ≠ ⊥ := by
  simp [rank_of_not_isNaN hx]

theorem numEq_iff_rank (hx : x.isNaN = false) (v : Binary64) :
    numEq v x = true ↔ rank v = rank x := by
  cases hv : v.isNaN <;> simp [numEq, rank, hv, hx]

/-- Above the negative infinity comes the least finite number next. -/
theorem infinity_lt_iff (v : Binary64) : infinity true < v ↔ rank minFinite ≤ rank v := by
  cases hv : v.isNaN with
  | true =>
    rw [rank_of_isNaN hv, le_bot_iff]
    exact iff_of_false (not_lt_of_isNaN hv) (rank_ne_bot (by decide))
  | false =>
    rw [rank_le_rank_iff (by decide) hv, lt_iff (by decide) hv, le_iff (by decide) hv,
      show (infinity true).numKey = -0x7ff0000000000000 by decide,
      show minFinite.numKey = -0x7fefffffffffffff by decide]
    omega

end MaxScan

open MaxScan

/-! ## The greatest and the least number -/

/-- `x` is the same number as one of the values, and none of their numbers is greater. -/
def GreatestNumber (values : List Binary64) (x : Binary64) : Prop :=
  (∃ v ∈ values, numEq v x = true) ∧ ∀ v ∈ values, v.isNaN = false → v ≤ x

/-- `x` is the same number as one of the values, and none of their numbers is less. -/
def LeastNumber (values : List Binary64) (x : Binary64) : Prop :=
  (∃ v ∈ values, numEq v x = true) ∧ ∀ v ∈ values, v.isNaN = false → x ≤ v

theorem greatestNumber_neg_iff {values : List Binary64} {x : Binary64} :
    GreatestNumber (values.map neg) x.neg ↔ LeastNumber values x := by
  simp [LeastNumber, GreatestNumber, numEq_neg_neg, isNaN_neg, Binary64.neg_le_neg_iff]

/-- `x` is the greatest of the values and of the least finite number. -/
structure Tops (x : Binary64) (values : List Binary64) : Prop where
  isNaN : x.isNaN = false
  rank_eq : rank x = rank minFinite ⊔ peak values

namespace Tops

variable {x : Binary64} {values : List Binary64}

theorem nil : Tops minFinite [] := ⟨by decide, (sup_bot_eq _).symm⟩

theorem linear (h : Tops x values) (more : List Binary64) :
    Tops (linear x more) (values ++ more) := by
  refine ⟨(isNaN_linear x more).trans h.isNaN, ?_⟩
  rw [rank_linear h.isNaN, h.rank_eq, peak_append, sup_assoc]

theorem scan (h : Tops x values) (kernel : Kernel) (lead : Nat) (more : List Binary64) :
    Tops (kernel.scan lead x more) (values ++ more) := by
  refine ⟨(kernel.isNaN_scan lead x more).trans h.isNaN, ?_⟩
  rw [kernel.rank_scan lead h.isNaN]
  exact (h.linear more).rank_eq

theorem le (h : Tops x values) : ∀ v ∈ values, v.isNaN = false → v ≤ x := by
  intro v hv hn
  rw [← rank_le_rank_iff hn h.isNaN, h.rank_eq]
  exact (rank_le_peak v hv).trans le_sup_right

/-- The greatest of the values is found if any of them is above the negative infinity. -/
theorem greatestNumber_iff (h : Tops x values) :
    GreatestNumber values x ↔ ∃ v ∈ values, infinity true < v := by
  constructor
  · rintro ⟨⟨v, hv, heq⟩, -⟩
    refine ⟨v, hv, (infinity_lt_iff v).2 ?_⟩
    rw [(numEq_iff_rank h.isNaN v).1 heq, h.rank_eq]
    exact le_sup_left
  · rintro ⟨v, hv, hlt⟩
    -- that value counts for as much as the number the bound starts with
    have hstart := ((infinity_lt_iff v).1 hlt).trans (rank_le_peak v hv)
    have hpeak : rank x = peak values := h.rank_eq.trans (sup_eq_right.2 hstart)
    obtain ⟨w, hw, heq⟩ := exists_rank_eq_peak (hpeak ▸ rank_ne_bot h.isNaN)
    exact ⟨⟨w, hw, (numEq_iff_rank h.isNaN w).2 (heq.trans hpeak.symm)⟩, h.le⟩

/-- Otherwise the bound stays where it started. -/
theorem eq_minFinite (h : Tops x values) (hnone : ¬∃ v ∈ values, infinity true < v) :
    x = minFinite := by
  have hpeak : peak values ≤ rank minFinite := peak_le_iff.2 fun v hv =>
    (not_le.1 (mt (infinity_lt_iff v).2 fun hlt => hnone ⟨v, hv, hlt⟩)).le
  rcases agree_of_rank_eq h.isNaN (by decide) (h.rank_eq.trans (sup_eq_left.2 hpeak)) with
    heq | ⟨-, hzero⟩
  · exact heq
  · exact absurd hzero (by decide)

end Tops

/-! ## Bounds -/

namespace Aggregator

/-- Samples as they come: one at a time, or a slice of values at once. -/
inductive Intake where
  | one (sample : Sample Binary64)
  | many (slice : Slice)

def Intake.values : Intake → List Binary64
  | one sample => [sample.value]
  | many slice => slice.values

/-- The state after an intake. -/
def take (s : Aggregator) : Intake → Except Fault Aggregator
  | .one sample => .ok (s.append sample)
  | .many slice => s.appendAllBy (slice.kernel.scan slice.lead) slice.values

/-- What is reported of samples that come to a fresh state. -/
def resultOf (kind : Aggregation) (reverse : Bool) (intakes : List Intake) :
    Except Fault Binary64 := do
  let s ← intakes.foldlM take (fresh kind reverse)
  s.result

end Aggregator

namespace Bounds

open Aggregator (Intake)

variable {s : Bounds} {values : List Binary64}

def take (s : Bounds) : Intake → Bounds
  | .one sample => s.append sample.value
  | .many slice => ⟨slice.values.foldl keepLess s.least,
      slice.kernel.scan slice.lead s.greatest slice.values⟩

/-- The bounds of the values and of the numbers that bounds start with. -/
structure Spans (s : Bounds) (values : List Binary64) : Prop where
  greatest : Tops s.greatest values
  least : Tops s.least.neg (values.map neg)

theorem spans_fresh : Spans fresh [] := ⟨Tops.nil, Tops.nil⟩

theorem Spans.take (h : s.Spans values) (intake : Intake) :
    (s.take intake).Spans (values ++ intake.values) := by
  cases intake with
  | one sample =>
    refine ⟨h.greatest.linear [sample.value], ?_⟩
    show Tops (keepLess s.least sample.value).neg _
    rw [List.map_append, neg_keepLess]
    exact h.least.linear [sample.value.neg]
  | many slice =>
    refine ⟨h.greatest.scan slice.kernel slice.lead slice.values, ?_⟩
    show Tops (slice.values.foldl keepLess s.least).neg _
    rw [List.map_append, neg_foldl_keepLess]
    exact h.least.linear _

theorem Spans.foldl_take (h : s.Spans values) (intakes : List Intake) :
    (intakes.foldl Bounds.take s).Spans (values ++ intakes.flatMap Intake.values) := by
  induction intakes generalizing s values with
  | nil => simpa using h
  | cons intake rest ih => simpa using ih (h.take intake)

theorem Spans.leastNumber_iff (h : s.Spans values) :
    LeastNumber values s.least ↔ ∃ v ∈ values, v < infinity false := by
  rw [← greatestNumber_neg_iff, h.least.greatestNumber_iff]
  simp [infinity_lt_neg_iff]

theorem Spans.eq_maxFinite (h : s.Spans values) (hnone : ¬∃ v ∈ values, v < infinity false) :
    s.least = maxFinite := by
  have hleast := h.least.eq_minFinite (by simpa [infinity_lt_neg_iff] using hnone)
  rw [← Binary64.neg_neg s.least, hleast]
  decide

/-- Crossed bounds tell that there are no numbers. -/
theorem Spans.isEmpty_iff (h : s.Spans values) :
    s.isEmpty = true ↔ ∀ v ∈ values, v.isNaN = true := by
  unfold isEmpty
  rw [decide_eq_true_iff]
  constructor
  · intro hcrossed v hv
    by_contra hnan
    rw [Bool.not_eq_true] at hnan
    have hle := h.greatest.le v hv hnan
    have hge := h.least.le v.neg (List.mem_map_of_mem hv) ((isNaN_neg v).trans hnan)
    have hbetween := Binary64.le_trans (Binary64.neg_le_neg_iff.1 hge) hle
    obtain ⟨hleast, hgreatest⟩ := isNaN_of_le hbetween
    rw [le_iff hleast hgreatest] at hbetween
    rw [lt_iff hgreatest hleast] at hcrossed
    omega
  · intro hnan
    have hleast : s.least = maxFinite := by
      refine h.eq_maxFinite ?_
      rintro ⟨v, hv, hlt⟩
      exact not_lt_of_isNaN ((isNaN_neg v).trans (hnan v hv)) (infinity_lt_neg_iff.2 hlt)
    have hgreatest : s.greatest = minFinite := by
      refine h.greatest.eq_minFinite ?_
      rintro ⟨v, hv, hlt⟩
      exact not_lt_of_isNaN (hnan v hv) hlt
    rw [hleast, hgreatest]
    decide

end Bounds

/-! ## Results -/

namespace Aggregator

theorem take_extreme (report : Extreme) (s : Bounds) (intake : Intake) :
    take (extreme report s) intake = .ok (extreme report (s.take intake)) := by
  cases intake <;> rfl

theorem foldlM_take_extreme (report : Extreme) (s : Bounds) (intakes : List Intake) :
    intakes.foldlM take (extreme report s) = .ok (extreme report (intakes.foldl Bounds.take s)) := by
  induction intakes generalizing s with
  | nil => rfl
  | cons intake rest ih =>
    rw [List.foldlM_cons, take_extreme]
    exact ih (s.take intake)

/-- **Min, max and range of samples.** However the samples come, one by one or in slices, with or
without vector registers: min, max and range have a result. It is a NaN if there is no number among
the samples. Otherwise range is the difference of the other two; the minimum is the least number,
unless all numbers are the positive infinity, and the maximum is the greatest number, unless all
numbers are the negative infinity. In these two cases the finite number that bounds start with is
reported. -/
theorem extremes_of_intakes (reverse : Bool) (intakes : List Intake) :
    let values := intakes.flatMap Intake.values
    ∃ min max range, resultOf .min reverse intakes = .ok min ∧
      resultOf .max reverse intakes = .ok max ∧ resultOf .range reverse intakes = .ok range ∧
      ((∀ v ∈ values, v.isNaN = true) → min = nan ∧ max = nan ∧ range = nan) ∧
      ((∃ v ∈ values, v.isNaN = false) →
        range = max - min ∧
        (LeastNumber values min ↔ ∃ v ∈ values, v < infinity false) ∧
        (GreatestNumber values max ↔ ∃ v ∈ values, infinity true < v) ∧
        (¬LeastNumber values min → min = maxFinite) ∧
        (¬GreatestNumber values max → max = minFinite)) := by
  intro values
  have hspans : (intakes.foldl Bounds.take .fresh).Spans values :=
    Bounds.spans_fresh.foldl_take intakes
  have hresult (report : Extreme) (kind : Aggregation)
      (hfresh : fresh kind reverse = extreme report .fresh) : resultOf kind reverse intakes
        = (extreme report (intakes.foldl Bounds.take .fresh)).result := by
    rw [resultOf, hfresh, foldlM_take_extreme]
    rfl
  generalize intakes.foldl Bounds.take .fresh = s at hspans hresult
  refine ⟨s.min, s.max, s.range, hresult .min .min rfl, hresult .max .max rfl,
    hresult .range .range rfl, ?_, ?_⟩
  · intro hnan
    simp [Bounds.min, Bounds.max, Bounds.range, hspans.isEmpty_iff.2 hnan]
  · rintro ⟨v, hv, hn⟩
    have hempty : s.isEmpty = false := by
      by_contra hempty
      have hnan := hspans.isEmpty_iff.1 (by simpa using hempty) v hv
      exact absurd (hn.symm.trans hnan) Bool.false_ne_true
    have hmin : s.min = s.least := by simp [Bounds.min, hempty]
    have hmax : s.max = s.greatest := by simp [Bounds.max, hempty]
    have hrange : s.range = s.greatest - s.least := by simp [Bounds.range, hempty]
    rw [hmin, hmax]
    exact ⟨hrange, hspans.leastNumber_iff, hspans.greatest.greatestNumber_iff,
      fun hnot => hspans.eq_maxFinite (mt hspans.leastNumber_iff.2 hnot),
      fun hnot => hspans.greatest.eq_minFinite (mt hspans.greatest.greatestNumber_iff.2 hnot)⟩

/-- A NaN, both infinities in registers with zeros, and the greatest finite number. -/
def mixedIntakes : List Intake :=
  [.one ⟨0, nan⟩, .many ⟨.avx2, 3, ⟨1, infinity true⟩ :: List.replicate 9 ⟨2, zero true⟩⟩,
    .one ⟨3, maxFinite⟩, .many ⟨.scalar, 0, [⟨4, nan⟩]⟩]

theorem extremes_of_intakes_mixed :
    (∃ v ∈ mixedIntakes.flatMap Intake.values, v.isNaN = false) ∧
      ∃ min max, resultOf .min false mixedIntakes = .ok min ∧
        resultOf .max false mixedIntakes = .ok max ∧
        LeastNumber (mixedIntakes.flatMap Intake.values) min ∧
        GreatestNumber (mixedIntakes.flatMap Intake.values) max := by
  have hnumber : ∃ v ∈ mixedIntakes.flatMap Intake.values, v.isNaN = false := by decide
  obtain ⟨min, max, range, hmin, hmax, -, -, hresults⟩ := extremes_of_intakes false mixedIntakes
  obtain ⟨-, hleast, hgreatest, -, -⟩ := hresults hnumber
  exact ⟨hnumber, min, max, hmin, hmax, hleast.2 (by decide), hgreatest.2 (by decide)⟩

/-- Of one sample that is an infinity, the number that stands for no samples is reported as its
minimum or its maximum, and its range is not that of an infinity from itself. -/
theorem resultOf_infinities :
    (resultOf .min false [.one ⟨0, infinity false⟩] = .ok maxFinite ∧
      ¬LeastNumber [infinity false] maxFinite) ∧
    (resultOf .max false [.one ⟨0, infinity true⟩] = .ok minFinite ∧
      ¬GreatestNumber [infinity true] minFinite) ∧
    resultOf .range false [.one ⟨0, infinity false⟩] = .ok (infinity false) ∧
    infinity false - infinity false = nan := by
  refine ⟨⟨by decide, ?_⟩, ⟨by decide, ?_⟩, by decide, by decide⟩
  · rintro ⟨⟨v, hv, heq⟩, -⟩
    rw [List.mem_singleton.1 hv] at heq
    exact absurd heq (by decide)
  · rintro ⟨⟨v, hv, heq⟩, -⟩
    rw [List.mem_singleton.1 hv] at heq
    exact absurd heq (by decide)

end Aggregator
end Rollup
