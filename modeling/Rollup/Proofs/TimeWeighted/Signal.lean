import Mathlib.Analysis.SpecialFunctions.Integrals.Basic
import Mathlib.Data.List.Chain
import Rollup.Timestamp

/-!
# The signal through a series

Samples with rational values stand for the piecewise linear function through them, on the reals
(`signal`). It is continuous, and between two neighbouring samples it is the line through them
(`isChain_adjacent`). `average` is its mean over an interval, which is found exactly by one
trapezoid between neighbours (`Adjacent.integral`).
-/

open scoped Interval

namespace Rollup

/-- The time of a sample, as a real number. -/
noncomputable def Sample.time {α : Type} (a : Sample α) : ℝ := (a.timestamp.toInt : ℝ)

/-- The line through two samples. -/
noncomputable def line (a b : Sample ℚ) (x : ℝ) : ℝ :=
  a.value + (b.value - a.value) * ((x - a.time) / (b.time - a.time))

/-- The piecewise linear function through the samples, in ascending order of time. -/
noncomputable def signal : List (Sample ℚ) → ℝ → ℝ
  | [] => fun _ => 0
  | [a] => fun _ => a.value
  | a :: b :: rest => fun x => if x ≤ b.time then line a b x else signal (b :: rest) x

/-- The mean of a function between two points, in either order; at a single point, its value. -/
noncomputable def average (f : ℝ → ℝ) (p q : ℝ) : ℝ :=
  if p = q then f p else (∫ x in p..q, f x) / (q - p)

theorem average_comm (f : ℝ → ℝ) (p q : ℝ) : average f p q = average f q p := by
  unfold average
  by_cases h : p = q
  · rw [if_pos h, if_pos h.symm, h]
  · rw [if_neg h, if_neg (fun h' => h h'.symm), intervalIntegral.integral_symm, ← neg_sub p q,
      neg_div_neg_eq]

/-! ## Lines -/

theorem line_left (a b : Sample ℚ) : line a b a.time = a.value := by
  simp [line]

theorem line_right {a b : Sample ℚ} (h : a.time ≠ b.time) : line a b b.time = b.value := by
  have hne : b.time - a.time ≠ 0 := sub_ne_zero.2 h.symm
  rw [line, div_self hne]
  ring

theorem line_comm {a b : Sample ℚ} (h : a.time ≠ b.time) (x : ℝ) : line a b x = line b a x := by
  have hne : b.time - a.time ≠ 0 := sub_ne_zero.2 h.symm
  have hne' : a.time - b.time ≠ 0 := sub_ne_zero.2 h
  unfold line
  field_simp
  ring

theorem continuous_line (a b : Sample ℚ) : Continuous (line a b) := by
  unfold line
  fun_prop

theorem integral_line (a b : Sample ℚ) (p q : ℝ) :
    ∫ x in p..q, line a b x = (line a b p + line a b q) / 2 * (q - p) := by
  have hform : ∀ x, line a b x
      = (a.value - (b.value - a.value) * (a.time / (b.time - a.time)))
        + ((b.value - a.value) / (b.time - a.time)) * x := by
    intro x
    unfold line
    ring
  have hsum : ∫ x in p..q, line a b x
      = (a.value - (b.value - a.value) * (a.time / (b.time - a.time))) * (q - p)
        + ((b.value - a.value) / (b.time - a.time)) * ((q ^ 2 - p ^ 2) / 2) := by
    have hlinear : Continuous fun x : ℝ => (b.value - a.value) / (b.time - a.time) * x :=
      continuous_const.mul continuous_id
    simp only [hform]
    rw [intervalIntegral.integral_add intervalIntegrable_const (hlinear.intervalIntegrable p q),
      intervalIntegral.integral_const, intervalIntegral.integral_const_mul, integral_id,
      smul_eq_mul, mul_comm (q - p)]
  rw [hsum, hform p, hform q]
  ring

/-! ## Neighbours -/

/-- Two samples with the line through them as the graph of `f` between them. -/
structure Adjacent (f : ℝ → ℝ) (a b : Sample ℚ) : Prop where
  ne : a.time ≠ b.time
  on_line : ∀ x ∈ [[a.time, b.time]], f x = line a b x

namespace Adjacent

variable {f : ℝ → ℝ} {a b : Sample ℚ}

theorem symm (h : Adjacent f a b) : Adjacent f b a := by
  refine ⟨h.ne.symm, fun x hx => ?_⟩
  rw [← line_comm h.ne]
  exact h.on_line x (Set.uIcc_comm b.time a.time ▸ hx)

theorem value_left (h : Adjacent f a b) : f a.time = a.value := by
  rw [h.on_line _ Set.left_mem_uIcc, line_left]

theorem value_right (h : Adjacent f a b) : f b.time = b.value := by
  rw [h.on_line _ Set.right_mem_uIcc, line_right h.ne]

theorem integral (h : Adjacent f a b) {p q : ℝ} (hp : p ∈ [[a.time, b.time]])
    (hq : q ∈ [[a.time, b.time]]) : ∫ x in p..q, f x = (f p + f q) / 2 * (q - p) := by
  have hsub : [[p, q]] ⊆ [[a.time, b.time]] := Set.uIcc_subset_uIcc hp hq
  have hcongr : ∫ x in p..q, f x = ∫ x in p..q, line a b x :=
    intervalIntegral.integral_congr fun x hx => h.on_line x (hsub hx)
  rw [hcongr, integral_line, h.on_line p hp, h.on_line q hq]

end Adjacent

/-! ## The signal -/

/-- Every sample is strictly later than the one before it. -/
def Ascending (samples : List (Sample ℚ)) : Prop :=
  samples.Pairwise fun a b => a.timestamp < b.timestamp

theorem time_lt_time {α : Type} {a b : Sample α} : a.time < b.time ↔ a.timestamp < b.timestamp := by
  rw [Sample.time, Sample.time, Int.cast_lt, Int64.lt_iff_toInt_lt]

/-- The signal through a series from one of its samples on starts at that sample. -/
theorem signal_head (b : Sample ℚ) (rest : List (Sample ℚ)) (h : Ascending (b :: rest)) :
    signal (b :: rest) b.time = b.value := by
  cases rest with
  | nil => rfl
  | cons c rest =>
    have hlt := time_lt_time.2 ((List.pairwise_cons.1 h).1 c List.mem_cons_self)
    show (if b.time ≤ c.time then line b c b.time else _) = _
    rw [if_pos hlt.le, line_left]

theorem signal_of_mem (samples : List (Sample ℚ)) (h : Ascending samples) {c : Sample ℚ}
    (hc : c ∈ samples) : signal samples c.time = c.value := by
  induction samples with
  | nil => cases hc
  | cons a rest ih =>
    obtain ⟨hhead, htail⟩ := List.pairwise_cons.1 h
    rcases List.mem_cons.1 hc with rfl | hmem
    · exact signal_head c rest h
    · cases rest with
      | nil => cases hmem
      | cons b rest =>
        rw [← ih htail hmem]
        show (if c.time ≤ b.time then line a b c.time else _) = _
        by_cases hle : c.time ≤ b.time
        · -- no sample lies before the second one, so `c` is where two lines meet
          have hbc : b.time ≤ c.time := by
            rcases List.mem_cons.1 hmem with rfl | hmem'
            · exact le_refl c.time
            · exact (time_lt_time.2 ((List.pairwise_cons.1 htail).1 c hmem')).le
          have hab := time_lt_time.2 (hhead b List.mem_cons_self)
          rw [if_pos hle, le_antisymm hle hbc, line_right hab.ne, signal_head b rest htail]
        · rw [if_neg hle]

theorem continuous_signal (samples : List (Sample ℚ)) (h : Ascending samples) :
    Continuous (signal samples) := by
  induction samples with
  | nil => exact continuous_const
  | cons a rest ih =>
    cases rest with
    | nil => exact continuous_const
    | cons b rest =>
      obtain ⟨hhead, htail⟩ := List.pairwise_cons.1 h
      have hlt := time_lt_time.2 (hhead b List.mem_cons_self)
      refine (continuous_line a b).if_le (ih htail) continuous_id continuous_const ?_
      intro x hx
      have hx' : x = b.time := hx
      rw [hx', line_right hlt.ne, signal_head b rest htail]

theorem signal_eq_line (pre post : List (Sample ℚ)) (a b : Sample ℚ)
    (h : Ascending (pre ++ a :: b :: post)) {x : ℝ} (hx : a.time ≤ x) (hx' : x ≤ b.time) :
    signal (pre ++ a :: b :: post) x = line a b x := by
  induction pre with
  | nil => exact if_pos hx'
  | cons c pre ih =>
    obtain ⟨hhead, htail⟩ := List.pairwise_cons.1 h
    cases pre with
    | nil =>
      have hlt := time_lt_time.2 (hhead a List.mem_cons_self)
      by_cases hle : x ≤ a.time
      · -- two lines meet at `a`
        have hxa : x = a.time := le_antisymm hle hx
        show (if x ≤ a.time then line c a x else _) = _
        rw [if_pos hle, hxa, line_right hlt.ne, line_left]
      · show (if x ≤ a.time then line c a x else _) = _
        rw [if_neg hle]
        exact ih htail
    | cons d pre =>
      have hmem : a ∈ pre ++ a :: b :: post := List.mem_append_right _ List.mem_cons_self
      have hlt := time_lt_time.2 ((List.pairwise_cons.1 htail).1 a hmem)
      show (if x ≤ d.time then line c d x else _) = _
      rw [if_neg (by linarith)]
      exact ih htail

/-- **The signal runs straight between neighbours.** -/
theorem isChain_adjacent (samples : List (Sample ℚ)) (h : Ascending samples) :
    samples.IsChain (Adjacent (signal samples)) := by
  rw [List.isChain_iff_forall_rel_of_append_cons_cons]
  rintro a b pre post rfl
  have hab : Ascending (a :: b :: post) := (List.pairwise_append.1 h).2.1
  have hlt := time_lt_time.2 ((List.pairwise_cons.1 hab).1 b List.mem_cons_self)
  refine ⟨hlt.ne, fun x hx => ?_⟩
  rw [Set.uIcc_of_le hlt.le] at hx
  exact signal_eq_line pre post a b h hx.1 hx.2

end Rollup
