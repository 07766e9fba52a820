import Rollup.Aggregator.TimeWeighted
import Rollup.Bucket.Accumulator
import Rollup.Proofs.TimeWeighted.Signal

/-!
# The average of one bucket

Over exact rationals the state of a bucket holds the integral of the signal over the time it has
covered (`Covers`). A bucket is opened at its starting edge or at the first sample of the series,
its samples carry the cover on one trapezoid at a time, and the sample behind it carries it to the
closing edge. In descending order of time the integral runs the other way, with the opposite sign.
-/

open scoped Interval

namespace Rollup.TimeWeighted

/-- The sign of the direction in which the samples come. -/
noncomputable def heading (reverse : Bool) : ℝ := if reverse then -1 else 1

theorem heading_ne_zero (reverse : Bool) : heading reverse ≠ 0 := by
  cases reverse <;> simp [heading]

/-- `q` is not met before `p`. -/
def Ahead (reverse : Bool) (p q : Timestamp) : Prop :=
  if reverse then q.toInt ≤ p.toInt else p.toInt ≤ q.toInt

variable {f : ℝ → ℝ} {reverse : Bool} {p q : Timestamp} {a b c : Sample ℚ}

theorem Ahead.trans {r : Timestamp} (h : Ahead reverse p q) (h' : Ahead reverse q r) :
    Ahead reverse p r := by
  cases reverse
  · exact le_trans (α := Int) h h'
  · exact le_trans (α := Int) h' h

theorem Ahead.antisymm (h : Ahead reverse p q) (h' : Ahead reverse q p) : p = q := by
  apply Int64.toInt_inj.1
  cases reverse
  · exact le_antisymm (α := Int) h h'
  · exact le_antisymm (α := Int) h' h

theorem Ahead.refl (reverse : Bool) (p : Timestamp) : Ahead reverse p p := by
  cases reverse <;> exact le_refl p.toInt

theorem Ahead.mem_uIcc (h : Ahead reverse a.timestamp p) (h' : Ahead reverse p b.timestamp) :
    (p.toInt : ℝ) ∈ [[a.time, b.time]] := by
  rw [Set.mem_uIcc]
  cases reverse
  · exact .inl ⟨Int.cast_le.2 h, Int.cast_le.2 h'⟩
  · exact .inr ⟨Int.cast_le.2 h', Int.cast_le.2 h⟩

/-! ## The formulas over the reals -/

theorem cast_distance (h : Ahead reverse p q) :
    (((Timestamp.distance p q : ℕ) : ℤ) : ℝ) = heading reverse * (q.toInt - p.toInt) := by
  cases reverse with
  | false =>
    have hle : p.toInt ≤ q.toInt := h
    have habs : ((Timestamp.distance p q : ℕ) : ℤ) = q.toInt - p.toInt := by
      unfold Timestamp.distance
      omega
    rw [habs, heading, if_neg Bool.false_ne_true]
    push_cast
    ring
  | true =>
    have hle : q.toInt ≤ p.toInt := h
    have habs : ((Timestamp.distance p q : ℕ) : ℤ) = p.toInt - q.toInt := by
      unfold Timestamp.distance
      omega
    rw [habs, heading, if_pos rfl]
    push_cast
    ring

theorem cast_interpolate (h : a.time ≠ b.time) (t : Timestamp) :
    ((interpolate a.timestamp a.value b.timestamp b.value t : ℚ) : ℝ) = line a b t.toInt := by
  have hne : a.timestamp ≠ b.timestamp := fun heq => h (by rw [Sample.time, Sample.time, heq])
  unfold interpolate line Sample.time
  rw [if_neg hne]
  push_cast
  rfl

/-- Between neighbours a trapezoid is the integral, up to the direction. -/
theorem cast_trapezoid (h : Adjacent f a b) (hp : (p.toInt : ℝ) ∈ [[a.time, b.time]])
    (hq : (q.toInt : ℝ) ∈ [[a.time, b.time]]) (hpq : Ahead reverse p q) {u v : ℚ}
    (hu : (u : ℝ) = f p.toInt) (hv : (v : ℝ) = f q.toInt) :
    ((trapezoid u p v q : ℚ) : ℝ) = heading reverse * ∫ x in p.toInt..q.toInt, f x := by
  have hcast : ((trapezoid u p v q : ℚ) : ℝ)
      = (u + v) / 2 * (((Timestamp.distance p q : ℕ) : ℤ) : ℝ) := by
    unfold trapezoid
    push_cast
    rfl
  rw [hcast, cast_distance hpq, h.integral hp hq, hu, hv]
  ring

/-! ## What a state has covered -/

/-- The state has covered the function from `p` to `q`. -/
structure Covers (f : ℝ → ℝ) (reverse : Bool) (p q : Timestamp) (s : TimeWeighted ℚ) : Prop where
  coveredFrom : s.coveredFrom = p
  coveredTo : s.coveredTo = q
  nonempty : s.count ≠ 0 ∨ p ≠ q
  ahead : Ahead reverse p q
  area : (s.area : ℝ) = heading reverse * ∫ x in p.toInt..q.toInt, f x
  /-- The average over a single instant is read off the last value. -/
  instant : p = q → (s.lastValue : ℝ) = f p.toInt

theorem Covers.result {s : TimeWeighted ℚ} (h : Covers f reverse p q s) :
    ∃ r : ℚ, s.result? = some r ∧ (r : ℝ) = average f p.toInt q.toInt := by
  have hempty : s.isEmpty = false := by
    unfold isEmpty
    rw [h.coveredFrom, h.coveredTo, decide_eq_false_iff_not]
    rintro ⟨hcount, heq⟩
    rcases h.nonempty with hne | hne
    · exact hne hcount
    · exact hne heq
  unfold result?
  rw [hempty, if_neg Bool.false_ne_true, h.coveredFrom, h.coveredTo]
  by_cases heq : p = q
  · rw [if_pos heq]
    refine ⟨s.lastValue, rfl, ?_⟩
    rw [h.instant heq, average, if_pos (by rw [heq])]
  · rw [if_neg heq]
    refine ⟨_, rfl, ?_⟩
    have hne : (p.toInt : ℝ) ≠ q.toInt := by
      intro hcast
      exact heq (Int64.toInt_inj.1 (Int.cast_injective hcast))
    rw [Rat.cast_div, Rat.cast_intCast, cast_distance h.ahead, h.area, average, if_neg hne,
      mul_div_mul_left _ _ (heading_ne_zero reverse)]

/-- The state of a bucket that has taken in samples up to `c`, and is left by `closing`. -/
structure Progress (f : ℝ → ℝ) (reverse : Bool) (p closing : Timestamp) (c : Sample ℚ)
    (s : TimeWeighted ℚ) : Prop extends Covers f reverse p c.timestamp s where
  count_ne : s.count ≠ 0
  lastTime : s.lastTime = c.timestamp
  lastValue : s.lastValue = c.value
  closingEdge : s.closingEdge = closing

/-- The state of a bucket that has been opened behind the sample `before`. -/
structure Opened (startEdge closingEdge : Timestamp) (before : Option (Sample ℚ))
    (s : TimeWeighted ℚ) : Prop where
  area : s.area = 0
  count : s.count = 0
  startEdge : s.startEdge = startEdge
  closingEdge : s.closingEdge = closingEdge
  isFirstBucket : s.isFirstBucket = before.isNone
  last : ∀ a, before = some a → s.lastTime = a.timestamp ∧ s.lastValue = a.value

/-! ## The first sample -/

/-- No line leads to the first sample of a series. -/
theorem Opened.append_first {startEdge closing : Timestamp} {s : TimeWeighted ℚ}
    (h : Opened startEdge closing none s) (hc : f c.time = c.value) :
    Progress f reverse c.timestamp closing c (s.append c) := by
  have happ : s.append c
      = { s with
          coveredFrom := c.timestamp
          lastTime := c.timestamp
          lastValue := c.value
          coveredTo := c.timestamp
          count := 1 } := by
    unfold append
    dsimp only
    rw [if_pos h.count, if_pos (by rw [h.isFirstBucket]; rfl), h.count]
  rw [happ]
  exact {
    coveredFrom := rfl
    coveredTo := rfl
    nonempty := .inl one_ne_zero
    ahead := .refl reverse c.timestamp
    area := by
      rw [intervalIntegral.integral_same, mul_zero]
      show ((s.area : ℚ) : ℝ) = 0
      rw [h.area, Rat.cast_zero]
    instant := fun _ => hc.symm
    count_ne := one_ne_zero
    lastTime := rfl
    lastValue := rfl
    closingEdge := h.closingEdge }

/-- The line from the sample before the bucket leads in from the starting edge. -/
theorem Opened.append {startEdge closing : Timestamp} {s : TimeWeighted ℚ}
    (h : Opened startEdge closing (some a) s) (hadj : Adjacent f a c)
    (hin : Ahead reverse a.timestamp startEdge) (hout : Ahead reverse startEdge c.timestamp) :
    Progress f reverse startEdge closing c (s.append c) := by
  obtain ⟨htime, hvalue⟩ := h.last a rfl
  have hmem := hin.mem_uIcc hout
  have happ : s.append c
      = { s with
          area := trapezoid (interpolate a.timestamp a.value c.timestamp c.value startEdge)
            startEdge c.value c.timestamp
          coveredFrom := startEdge
          lastTime := c.timestamp
          lastValue := c.value
          coveredTo := c.timestamp
          count := 1 } := by
    unfold TimeWeighted.append
    dsimp only
    rw [if_pos h.count, if_neg (by rw [h.isFirstBucket]; exact Bool.false_ne_true), h.count,
      h.area, zero_add, htime, hvalue, h.startEdge]
  have hstart : ((interpolate a.timestamp a.value c.timestamp c.value startEdge : ℚ) : ℝ)
      = f startEdge.toInt := by
    rw [cast_interpolate hadj.ne, hadj.on_line _ hmem]
  rw [happ]
  exact {
    coveredFrom := rfl
    coveredTo := rfl
    nonempty := .inl one_ne_zero
    ahead := hout
    area := cast_trapezoid hadj hmem Set.right_mem_uIcc hout hstart hadj.value_right.symm
    instant := fun heq => by rw [heq]; exact hadj.value_right.symm
    count_ne := one_ne_zero
    lastTime := rfl
    lastValue := rfl
    closingEdge := h.closingEdge }

/-! ## Further samples -/

theorem Progress.append {startEdge closing : Timestamp} {s : TimeWeighted ℚ}
    (hf : Continuous f) (h : Progress f reverse startEdge closing a s) (hadj : Adjacent f a b)
    (hab : Ahead reverse a.timestamp b.timestamp) :
    Progress f reverse startEdge closing b (s.append b) := by
  have happ : s.append b
      = { s with
          area := s.area + trapezoid a.value a.timestamp b.value b.timestamp
          lastTime := b.timestamp
          lastValue := b.value
          coveredTo := b.timestamp
          count := s.count + 1 } := by
    unfold TimeWeighted.append
    dsimp only
    rw [if_neg h.count_ne, h.lastTime, h.lastValue]
  have hstep := cast_trapezoid hadj Set.left_mem_uIcc Set.right_mem_uIcc hab
    hadj.value_left.symm hadj.value_right.symm
  rw [happ]
  exact {
    coveredFrom := h.coveredFrom
    coveredTo := rfl
    nonempty := .inl (Nat.succ_ne_zero s.count)
    ahead := h.ahead.trans hab
    area := by
      show ((s.area + trapezoid a.value a.timestamp b.value b.timestamp : ℚ) : ℝ) = _
      rw [Rat.cast_add, h.area, hstep, ← mul_add,
        intervalIntegral.integral_add_adjacent_intervals (hf.intervalIntegrable _ _)
          (hf.intervalIntegrable _ _)]
    instant := fun heq => by rw [heq]; exact hadj.value_right.symm
    count_ne := Nat.succ_ne_zero s.count
    lastTime := rfl
    lastValue := rfl
    closingEdge := h.closingEdge }

theorem Progress.foldl {startEdge closing : Timestamp} {s : TimeWeighted ℚ}
    (hf : Continuous f) (h : Progress f reverse startEdge closing a s) (run : List (Sample ℚ))
    (hrun : (a :: run).IsChain fun x y =>
      Adjacent f x y ∧ Ahead reverse x.timestamp y.timestamp) :
    ∃ last, (a :: run).getLast? = some last ∧
      Progress f reverse startEdge closing last (run.foldl TimeWeighted.append s) := by
  induction run generalizing a s with
  | nil => exact ⟨a, rfl, h⟩
  | cons b rest ih =>
    obtain ⟨⟨hadj, hab⟩, hrest⟩ := List.isChain_cons_cons.1 hrun
    obtain ⟨last, hlast, hprogress⟩ := ih (h.append hf hadj hab) hrest
    exact ⟨last, by rw [List.getLast?_cons_cons, hlast], hprogress⟩

/-! ## The sample behind the bucket -/

/-- The line to the sample behind the bucket leads out at the closing edge. -/
theorem Progress.followedBy {startEdge closing : Timestamp} {s : TimeWeighted ℚ}
    (hf : Continuous f) (h : Progress f reverse startEdge closing a s) (hadj : Adjacent f a b)
    (hin : Ahead reverse a.timestamp closing) (hout : Ahead reverse closing b.timestamp) :
    Covers f reverse startEdge closing (s.followedBy b) := by
  have hmem := hin.mem_uIcc hout
  have hfollow : s.followedBy b
      = { s with
          area := s.area + trapezoid a.value a.timestamp
            (interpolate a.timestamp a.value b.timestamp b.value closing) closing
          coveredTo := closing } := by
    unfold TimeWeighted.followedBy
    dsimp only
    rw [if_neg h.count_ne, h.lastTime, h.lastValue, h.closingEdge]
  have hend : ((interpolate a.timestamp a.value b.timestamp b.value closing : ℚ) : ℝ)
      = f closing.toInt := by
    rw [cast_interpolate hadj.ne, hadj.on_line _ hmem]
  have hstep := cast_trapezoid hadj Set.left_mem_uIcc hmem hin hadj.value_left.symm hend
  rw [hfollow]
  exact {
    coveredFrom := h.coveredFrom
    coveredTo := rfl
    nonempty := .inl h.count_ne
    ahead := h.ahead.trans hin
    area := by
      show ((s.area + trapezoid a.value a.timestamp
        (interpolate a.timestamp a.value b.timestamp b.value closing) closing : ℚ) : ℝ) = _
      rw [Rat.cast_add, h.area, hstep, ← mul_add,
        intervalIntegral.integral_add_adjacent_intervals (hf.intervalIntegrable _ _)
          (hf.intervalIntegrable _ _)]
    instant := fun heq => by
      -- a cover that ends where it began has its samples there, too
      subst heq
      exact h.instant (h.ahead.antisymm hin) }

/-- One line passes over a bucket without samples. -/
theorem Opened.followedBy {startEdge closing : Timestamp} {s : TimeWeighted ℚ}
    (h : Opened startEdge closing (some a) s) (hadj : Adjacent f a b)
    (hin : Ahead reverse a.timestamp startEdge) (hacross : Ahead reverse startEdge closing)
    (hout : Ahead reverse closing b.timestamp) (hne : startEdge ≠ closing) :
    Covers f reverse startEdge closing (s.followedBy b) := by
  obtain ⟨htime, hvalue⟩ := h.last a rfl
  have hstart := hin.mem_uIcc (hacross.trans hout)
  have hend := (hin.trans hacross).mem_uIcc hout
  have hfollow : s.followedBy b
      = { s with
          area := trapezoid (interpolate a.timestamp a.value b.timestamp b.value startEdge)
            startEdge (interpolate a.timestamp a.value b.timestamp b.value closing) closing
          coveredFrom := startEdge
          coveredTo := closing } := by
    unfold TimeWeighted.followedBy
    dsimp only
    rw [if_pos h.count, if_neg (by rw [h.isFirstBucket]; exact Bool.false_ne_true), h.startEdge,
      h.closingEdge, if_neg hne, h.area, zero_add, htime, hvalue]
  rw [hfollow]
  exact {
    coveredFrom := rfl
    coveredTo := rfl
    nonempty := .inr hne
    ahead := hacross
    area := by
      refine cast_trapezoid hadj hstart hend hacross ?_ ?_
      · rw [cast_interpolate hadj.ne, hadj.on_line _ hstart]
      · rw [cast_interpolate hadj.ne, hadj.on_line _ hend]
    instant := fun heq => absurd heq hne }

/-! ## Opening -/

/-- The edge that the samples of the bucket at `start` come in from. -/
def entry (g : Grid) (reverse : Bool) (start : Timestamp) : Timestamp :=
  if reverse then g.finish start else start

/-- The edge that the samples of the bucket at `start` leave by. -/
def exit (g : Grid) (reverse : Bool) (start : Timestamp) : Timestamp :=
  if reverse then start else g.finish start

theorem opened_enter (g : Grid) (reverse : Bool) (start : Timestamp)
    (before : Option (Sample ℚ)) :
    Opened (entry g reverse start) (exit g reverse start) before
      (Accumulator.enter g (fresh reverse) start before) := by
  cases reverse <;> cases before <;>
    exact ⟨rfl, rfl, rfl, rfl, rfl, by rintro _ ⟨⟩ <;> exact ⟨rfl, rfl⟩⟩

end Rollup.TimeWeighted
