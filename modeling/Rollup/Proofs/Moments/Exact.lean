import Mathlib.Algebra.BigOperators.Group.List.Lemmas
import Mathlib.Algebra.Order.BigOperators.Group.List
import Mathlib.Algebra.Order.Field.Rat
import Mathlib.Tactic.FieldSimp
import Mathlib.Tactic.Positivity
import Mathlib.Tactic.Ring
import Rollup.Aggregator.Mean
import Rollup.Aggregator.Moments

/-!
# Means and variances without rounding

Over the rationals, where no operation rounds, the one-pass states report what two passes over the
values would find (`mean_and_variance_exact`). A mean has two forms, the sum of its values and the
mean itself; `Mean.Averages` says what either form stands for, and a step keeps it whether it adds
to the sum, turns the sum into the mean, or carries the mean along. The variance from moments is the
mean squared distance from the mean, which is never negative, so raising it to zero changes nothing.
-/

namespace Rollup

/-- The sum of the values over their number. -/
def arithmeticMean (values : List ℚ) : ℚ := values.sum / values.length

/-- The squared distances of the values from their mean, summed. -/
def squaredDistances (values : List ℚ) : ℚ :=
  (values.map fun x => (x - arithmeticMean values) ^ 2).sum

theorem squaredDistances_nonneg (values : List ℚ) : 0 ≤ squaredDistances values := by
  refine List.sum_nonneg fun square hsquare => ?_
  obtain ⟨x, -, rfl⟩ := List.mem_map.1 hsquare
  positivity

/-- The squared distances from any number need the sum of the values and of their squares only. -/
theorem sum_squared_sub (values : List ℚ) (m : ℚ) :
    (values.map fun x => (x - m) ^ 2).sum
      = (values.map fun x => x * x).sum - 2 * values.sum * m + m * m * values.length := by
  induction values with
  | nil => simp
  | cons x rest ih =>
    rw [List.map_cons, List.sum_cons, ih, List.map_cons, List.sum_cons, List.sum_cons,
      List.length_cons]
    push_cast
    ring

/-! ## Means -/

namespace Mean

variable {s : Mean ℚ} {values : List ℚ}

/-- The state of a mean after the values, of which there is at least one. -/
structure Averages (s : Mean ℚ) (values : List ℚ) : Prop where
  nonempty : values ≠ []
  count : s.count = values.length
  total : s.total = if s.isMean then arithmeticMean values else values.sum

theorem averages_first (x : ℚ) : ((fresh : Mean ℚ).step false x).Averages [x] where
  nonempty := List.cons_ne_nil x []
  count := rfl
  total := by simp [step, fresh]

theorem isMean_step (s : Mean ℚ) (full : Bool) (x : ℚ) :
    (s.step full x).isMean = (s.isMean || full) := by
  cases h : s.isMean <;> cases full <;> simp [step, h]

theorem Averages.length_ne_zero (h : s.Averages values) : (values.length : ℚ) ≠ 0 := by
  simpa using h.nonempty

/-- The mean of one more value, from the mean of the others. -/
theorem Averages.carry (h : s.Averages values) (x : ℚ) :
    carry (arithmeticMean values) x (values.length + 1) = arithmeticMean (values ++ [x]) := by
  have hn := h.length_ne_zero
  have hn' : (values.length : ℚ) + 1 ≠ 0 := by positivity
  simp only [Mean.carry, arithmeticMean, List.sum_append, List.sum_singleton, List.length_append,
    List.length_singleton]
  push_cast
  field_simp
  ring

/-- **One step.** In either form, and whether or not the sum takes the value. -/
theorem Averages.step (h : s.Averages values) (full : Bool) (x : ℚ) :
    (s.step full x).Averages (values ++ [x]) := by
  refine ⟨by simp, ?_, ?_⟩
  · rw [List.length_append, ← h.count]
    unfold Mean.step
    dsimp only
    split
    · rfl
    · split <;> rfl
  · have htotal := h.total
    have hcarry := h.carry x
    rw [isMean_step]
    cases hmean : s.isMean with
    | true =>
      -- the mean is carried along
      rw [hmean, if_pos rfl] at htotal
      simp only [Mean.step, hmean, if_true, Bool.true_or, htotal, h.count, hcarry]
    | false =>
      rw [hmean, if_neg Bool.false_ne_true] at htotal
      cases full with
      | true =>
        -- the sum is turned into the mean first
        have hsum : s.total / (((values.length : Nat) : Int) : ℚ) = arithmeticMean values := by
          rw [htotal, arithmeticMean, Int.cast_natCast]
        simp only [Mean.step, hmean, h.count, hsum, hcarry, Bool.false_or, if_true,
          Bool.false_eq_true, if_false]
      | false => simp [Mean.step, hmean, htotal]

/-- The state after a run of steps, each of a value and of whether the sum is full before it. -/
def steps (s : Mean ℚ) (run : List (Bool × ℚ)) : Mean ℚ := run.foldl (fun s p => s.step p.1 p.2) s

/-- What a run keeps, from what one step keeps; once it is a mean it stays one. -/
theorem Averages.steps (h : s.Averages values) (run : List (Bool × ℚ)) :
    (s.steps run).Averages (values ++ run.map Prod.snd) ∧
      (s.steps run).isMean = (s.isMean || run.any Prod.fst) := by
  induction run generalizing s values with
  | nil => simpa [Mean.steps] using h
  | cons p rest ih =>
    have hrest := ih (h.step p.1 p.2)
    rw [isMean_step] at hrest
    simpa [Mean.steps, Bool.or_assoc] using hrest

theorem Averages.result (h : s.Averages values) : s.result? = some (arithmeticMean values) := by
  have hpos : s.count ≠ 0 := by
    rw [h.count]
    simpa using h.nonempty
  have htotal := h.total
  unfold result?
  rw [if_neg hpos]
  cases hmean : s.isMean <;> simp [hmean, htotal, h.count, arithmeticMean]

end Mean

/-! ## Moments -/

namespace Moments

/-- The variance of the values as it is found in one pass, before it is raised to zero. -/
def unclamped {α : Type} [Add α] [Sub α] [Mul α] [Div α] [IntCast α] (s : Moments α) : α :=
  let n := ((s.count : Int) : α)
  let mean := s.sum / n
  (s.sumOfSquares - ((2 : Int) : α) * s.sum * mean + mean * mean * n) / n

theorem population?_eq {α : Type} [Add α] [Sub α] [Mul α] [Div α] [IntCast α] [Max α]
    {s : Moments α} (hcount : s.count ≠ 0) :
    s.population? = some (max s.unclamped ((0 : Int) : α)) :=
  if_neg hcount

theorem foldl_append_eq (s : Moments ℚ) (values : List ℚ) :
    values.foldl append s = ⟨s.sum + values.sum, s.sumOfSquares + (values.map fun x => x * x).sum,
      s.count + values.length⟩ := by
  induction values generalizing s with
  | nil => simp
  | cons x rest ih => simp [ih, append, add_assoc, Nat.add_comm 1]

/-- The moments of the values. -/
def ofValues (values : List ℚ) : Moments ℚ := values.foldl append fresh

theorem ofValues_eq (values : List ℚ) :
    ofValues values = ⟨values.sum, (values.map fun x => x * x).sum, values.length⟩ := by
  simp [ofValues, foldl_append_eq, fresh]

theorem unclamped_ofValues (values : List ℚ) :
    (ofValues values).unclamped = squaredDistances values / values.length := by
  rw [squaredDistances, sum_squared_sub, ofValues_eq]
  simp [unclamped, arithmeticMean]

theorem unclamped_ofValues_nonneg (values : List ℚ) : 0 ≤ (ofValues values).unclamped := by
  rw [unclamped_ofValues]
  exact div_nonneg (squaredDistances_nonneg values) (Nat.cast_nonneg _)

variable {values : List ℚ}

theorem count_ofValues (hne : values ≠ []) : (ofValues values).count ≠ 0 := by
  simpa [ofValues_eq] using hne

theorem population?_ofValues (hne : values ≠ []) :
    (ofValues values).population? = some (squaredDistances values / values.length) := by
  rw [population?_eq (count_ofValues hne), Int.cast_zero,
    max_eq_left (unclamped_ofValues_nonneg values), unclamped_ofValues]

/-- The correction puts one less in the place of the number of values. -/
theorem sample?_ofValues (hne : values ≠ []) :
    (ofValues values).sample? = some (if values.length = 1 then 0
      else squaredDistances values / (values.length - 1)) := by
  have hcount : (ofValues values).count = values.length := by rw [ofValues_eq]
  unfold sample?
  rw [hcount]
  by_cases hone : values.length = 1
  · rw [if_pos hone, if_pos hone, Int.cast_zero]
  · have hlength : (values.length : ℚ) ≠ 0 := by simpa using hne
    have hless : (values.length : ℚ) - 1 ≠ 0 := by
      rw [sub_ne_zero]
      exact_mod_cast hone
    rw [if_neg hone, if_neg hone, population?_ofValues hne, Option.map_some]
    push_cast
    congr 1
    field_simp

end Moments

/-- **The states report what two passes find.** Let rationals be folded without rounding, at least
one of them. Whichever values after the first find the sum full, the mean is the arithmetic mean,
and the state is a mean from the first such value on. The variance of the values as a population is
their mean squared distance from the mean, which is not negative before it is raised to zero; as a
sample it is the sum of the squared distances over one less than their number, and zero of a single
value. -/
theorem mean_and_variance_exact (first : ℚ) (rest : List (Bool × ℚ)) :
    let values := first :: rest.map Prod.snd
    let mean := (Mean.fresh.step false first).steps rest
    let moments := Moments.ofValues values
    mean.result? = some (arithmeticMean values) ∧
    mean.isMean = rest.any Prod.fst ∧
    (moments.unclamped = squaredDistances values / values.length ∧ 0 ≤ moments.unclamped) ∧
    moments.population? = some (squaredDistances values / values.length) ∧
    moments.sample? =
      some (if rest = [] then 0 else squaredDistances values / (values.length - 1)) := by
  intro values mean moments
  obtain ⟨haverages, hmean⟩ := (Mean.averages_first first).steps rest
  have hne : values ≠ [] := List.cons_ne_nil _ _
  refine ⟨haverages.result, ?_, ⟨Moments.unclamped_ofValues values,
    Moments.unclamped_ofValues_nonneg values⟩, Moments.population?_ofValues hne, ?_⟩
  · rw [hmean, Mean.isMean_step]
    rfl
  · have hone : values.length = 1 ↔ rest = [] := by simp [values]
    simp only [← hone]
    exact Moments.sample?_ofValues hne

end Rollup
