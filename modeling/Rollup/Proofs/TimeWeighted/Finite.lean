import Rollup.Proofs.Binary64.Magnitude
import Rollup.Proofs.Bucket.Runs
import Rollup.Proofs.TimeWeighted.Downsample

/-!
# Averages that are not finite

Over doubles, the line between two samples has a slope only if their timestamps are different
doubles. The formula guards against equal timestamps but not against equal doubles, so two samples
that differ by less than the spacing of the doubles at their timestamps and lie in different buckets
spoil the reports of both. For values of magnitude at most one that is the only way: every other
report of a rule is finite (`isFinite_reports_iff`).

The area of a bucket stays far from the edge of the finite numbers because the widths of its
trapezoids add up to the time between its samples (`areaBound`).
-/

namespace Rollup

open Binary64

namespace TimeWeighted

variable {g : Grid} {a b : Nat} {t t₁ t₂ start : Timestamp} {v₁ v₂ : Binary64}
  {s : TimeWeighted Binary64} {last sample : Sample Binary64}

/-! ## Lines and trapezoids -/

theorem within_time (t : Timestamp) : Within (2 ^ 64) ((t.toInt : Int) : Binary64) := by
  have hlow := (Grid.toInt_bounds t).1
  have hhigh := (Grid.toInt_bounds t).2
  simp only [Timestamp.least, Timestamp.greatest] at hlow hhigh
  have hle : t.toInt.natAbs ≤ 2 ^ 63 := by omega
  exact within_intCast hle (by norm_num)

/-- A line between values of magnitude at most one, at any time. -/
theorem within_interpolate (hv₁ : Within 1 v₁) (hv₂ : Within 1 v₂)
    (hne : t₁ ≠ t₂ → ((t₁.toInt : Int) : Binary64) ≠ ((t₂.toInt : Int) : Binary64))
    (t : Timestamp) : Within (2 ^ 71) (interpolate t₁ v₁ t₂ v₂ t) := by
  unfold interpolate
  split
  · exact hv₂.mono (by norm_num) (by norm_num)
  · next htimes =>
    have hspan := (within_time t₂).sub (within_time t₁) (by norm_num)
    have hone := le_toUnits_sub_intCast (hne htimes).symm (within_time t₂).isFinite
      (within_time t₁).isFinite
    have hshare := ((within_time t).sub (within_time t₁) (by norm_num)).div hspan.isFinite hone
      (by norm_num)
    have hrise := (hv₂.sub hv₁ (by norm_num)).mul hshare (by norm_num)
    exact (hv₁.add hrise (by norm_num)).mono (by norm_num) (by norm_num)

/-- A line between times that are one double has no value anywhere. -/
theorem not_isFinite_interpolate (hne : t₁ ≠ t₂)
    (heq : ((t₁.toInt : Int) : Binary64) = ((t₂.toInt : Int) : Binary64)) :
    ¬(interpolate t₁ v₁ t₂ v₂ t).isFinite = true := by
  unfold interpolate
  rw [if_neg hne]
  dsimp only
  rw [heq]
  intro h
  have hshare := (isFinite_operands_mul (isFinite_operands_add h).2).2
  have hspan := (isFinite_operands_div hshare).2
  rw [isZero_sub_self (within_time t₂).isFinite] at hspan
  cases hspan

theorem distance_le (t₁ t₂ : Timestamp) : Timestamp.distance t₁ t₂ ≤ 2 ^ 64 := by
  have h₁ := Grid.toInt_bounds t₁
  have h₂ := Grid.toInt_bounds t₂
  simp only [Timestamp.least, Timestamp.greatest] at h₁ h₂
  unfold Timestamp.distance
  omega

theorem within_trapezoid (hv₁ : Within a v₁) (hv₂ : Within b v₂) (hab : a + 2 * b ≤ 2 ^ 128)
    (t₁ t₂ : Timestamp) :
    Within (8 * (a + 2 * b) * Timestamp.distance t₁ t₂) (trapezoid v₁ t₁ v₂ t₂) := by
  have hdist := distance_le t₁ t₂
  have htwo : unitsPerOne ≤ ((2 : Int) : Binary64).toUnits.natAbs := le_toUnits_intCast (by decide)
  have hfinite : ((2 : Int) : Binary64).isFinite = true :=
    (within_intCast (b := 2) (by decide) (by norm_num)).isFinite
  have hbound : 8 * (a + 2 * b) * Timestamp.distance t₁ t₂ ≤ 2 ^ 256 :=
    calc 8 * (a + 2 * b) * Timestamp.distance t₁ t₂ ≤ 8 * 2 ^ 128 * 2 ^ 64 :=
          Nat.mul_le_mul (Nat.mul_le_mul_left 8 hab) hdist
      _ ≤ 2 ^ 256 := by norm_num
  have hmean := (hv₁.add hv₂ (by omega)).div hfinite htwo (by omega)
  have hwidth := within_intCast (n := (Timestamp.distance t₁ t₂ : Int)) le_rfl
    (by rw [Int.natAbs_natCast]; omega)
  rw [Int.natAbs_natCast] at hwidth
  have hscale : 2 * (2 * (a + 2 * b) * (2 * Timestamp.distance t₁ t₂))
      = 8 * (a + 2 * b) * Timestamp.distance t₁ t₂ := by ring
  have harea := hmean.mul hwidth (by rw [hscale]; exact hbound)
  rw [hscale] at harea
  exact harea

theorem isFinite_of_trapezoid (h : (trapezoid v₁ t₁ v₂ t₂).isFinite = true) :
    v₁.isFinite = true ∧ v₂.isFinite = true :=
  isFinite_operands_add (isFinite_operands_div (isFinite_operands_mul h).1).1

/-! ## The open bucket -/

/-- What a state knows of the times when `last` is the latest sample of its bucket. -/
structure Underway (g : Grid) (last : Sample Binary64) (s : TimeWeighted Binary64) : Prop where
  lastTime : s.lastTime = last.timestamp
  lastValue : s.lastValue = last.value
  count : s.count ≠ 0
  closingEdge : s.closingEdge = g.finish (g.start last.timestamp)
  coveredFrom : s.coveredFrom.toInt ≤ last.timestamp.toInt
  coveredTo : s.coveredTo = last.timestamp
  forward : s.reverse = false

/-- Bounds the area of a bucket when its samples have come as far as `t`. The width of each new
trapezoid is paid for by the time it takes. -/
def areaBound (t : Timestamp) : Nat := 2 ^ 140 + 48 * (t.toInt - Timestamp.least).toNat

theorem areaBound_le (t : Timestamp) : areaBound t ≤ 2 ^ 141 := by
  have hlow := (Grid.toInt_bounds t).1
  have hhigh := (Grid.toInt_bounds t).2
  simp only [Timestamp.least, Timestamp.greatest] at hlow hhigh
  unfold areaBound
  simp only [Timestamp.least]
  omega

theorem Underway.append (h : Underway g last s)
    (hle : last.timestamp.toInt ≤ sample.timestamp.toInt)
    (hsame : g.start last.timestamp = g.start sample.timestamp) :
    Underway g sample (s.append sample) := by
  unfold TimeWeighted.append
  dsimp only
  rw [if_neg h.count]
  exact {
    lastTime := rfl
    lastValue := rfl
    count := Nat.succ_ne_zero _
    closingEdge := hsame ▸ h.closingEdge
    coveredFrom := h.coveredFrom.trans hle
    coveredTo := rfl
    forward := h.forward }

theorem Underway.within_append (h : Underway g last s)
    (harea : Within (areaBound last.timestamp) s.area) (hlast : Within 1 last.value)
    (hsample : Within 1 sample.value) (hle : last.timestamp.toInt ≤ sample.timestamp.toInt) :
    Within (areaBound sample.timestamp) (s.append sample).area := by
  have hstep : (s.append sample).area
      = s.area + trapezoid last.value last.timestamp sample.value sample.timestamp := by
    unfold TimeWeighted.append
    dsimp only
    rw [if_neg h.count, h.lastTime, h.lastValue]
  have hwidth : areaBound last.timestamp
      + 2 * (8 * (1 + 2 * 1) * Timestamp.distance last.timestamp sample.timestamp)
        = areaBound sample.timestamp := by
    have hlow := (Grid.toInt_bounds last.timestamp).1
    unfold areaBound Timestamp.distance
    omega
  have hbound := areaBound_le sample.timestamp
  have hsum := harea.add (within_trapezoid hlast hsample (by norm_num) _ _)
    (by rw [hwidth]; exact hbound.trans (by norm_num))
  rw [hwidth] at hsum
  rw [hstep]
  exact hsum

/-! ## Opening -/

theorem underway_open (g : Grid) (before : Option (Sample Binary64)) (sample : Sample Binary64) :
    Underway g sample ((Accumulator.enter g (fresh false) (g.start sample.timestamp)
      before).append sample) := by
  have hstart := g.start_le sample.timestamp
  cases before with
  | none =>
    exact {
      lastTime := rfl
      lastValue := rfl
      count := Nat.succ_ne_zero _
      closingEdge := rfl
      coveredFrom := le_rfl
      coveredTo := rfl
      forward := rfl }
  | some last =>
    exact {
      lastTime := rfl
      lastValue := rfl
      count := Nat.succ_ne_zero _
      closingEdge := rfl
      coveredFrom := hstart
      coveredTo := rfl
      forward := rfl }

/-- The timestamps of two samples in different buckets are different doubles. -/
def ToldApart (g : Grid) (a b : Sample Binary64) : Prop :=
  g.start a.timestamp ≠ g.start b.timestamp →
    ((a.timestamp.toInt : Int) : Binary64) ≠ ((b.timestamp.toInt : Int) : Binary64)

theorem within_zero : Within 0 ((0 : Int) : Binary64) := by
  rw [intCast_zero]
  exact ⟨Nat.zero_le _, by norm_num⟩

theorem within_open (before : Option (Sample Binary64)) (hsample : Within 1 sample.value)
    (hbefore : ∀ last, before = some last → Within 1 last.value ∧
      ToldApart g last sample ∧ g.start last.timestamp ≠ g.start sample.timestamp) :
    Within (areaBound sample.timestamp) ((Accumulator.enter g (fresh false)
      (g.start sample.timestamp) before).append sample).area := by
  have hbound := areaBound_le sample.timestamp
  have hlimit : areaBound sample.timestamp ≤ 2 ^ 256 := hbound.trans (by norm_num)
  cases before with
  | none => exact within_zero.mono (Nat.zero_le _) hlimit
  | some last =>
    obtain ⟨hlast, happart, hne⟩ := hbefore last rfl
    have hline := within_interpolate hlast hsample (fun _ => happart hne)
      (g.start sample.timestamp)
    have hwidth : 0 + 2 * (8 * (2 ^ 71 + 2 * 1)
        * Timestamp.distance (g.start sample.timestamp) sample.timestamp)
          ≤ areaBound sample.timestamp := by
      have hdist := distance_le (g.start sample.timestamp) sample.timestamp
      unfold areaBound
      omega
    have hside := within_trapezoid hline hsample (by norm_num) (g.start sample.timestamp)
      sample.timestamp
    exact (within_zero.add hside (hwidth.trans hlimit)).mono hwidth hlimit

/-! ## Reports -/

/-- A bucket is not over at `t`, if there is a later timestamp. -/
theorem lt_finish {next : Timestamp} (g : Grid) (hlt : t.toInt < next.toInt) :
    t.toInt < (g.finish (g.start t)).toInt := by
  have hstart := g.lt_start_add t
  have hhigh := (Grid.toInt_bounds next).2
  rw [Grid.toInt_finish]
  omega

theorem Underway.isEmpty (h : Underway g last s) : s.isEmpty = false :=
  decide_eq_false fun hempty => h.count hempty.1

/-- The area of a bucket and what it is divided by when a later sample closes it. -/
theorem Underway.result_followedBy (h : Underway g last s)
    (hlt : last.timestamp.toInt < sample.timestamp.toInt) :
    ∃ width : Nat, 0 < width ∧ width ≤ 2 ^ 64 ∧
      (s.followedBy sample).result? = some ((s.area + trapezoid last.value last.timestamp
        (interpolate last.timestamp last.value sample.timestamp sample.value
          (g.finish (g.start last.timestamp))) (g.finish (g.start last.timestamp)))
        / (((width : Nat) : Int) : Binary64)) := by
  have hend := lt_finish g hlt
  have hfrom := h.coveredFrom
  have hne : s.coveredFrom ≠ g.finish (g.start last.timestamp) := by
    intro heq
    rw [heq] at hfrom
    omega
  refine ⟨Timestamp.distance s.coveredFrom (g.finish (g.start last.timestamp)), ?_,
    distance_le _ _, ?_⟩
  · unfold Timestamp.distance
    omega
  · unfold followedBy result? TimeWeighted.isEmpty
    dsimp only
    rw [if_neg h.count]
    dsimp only
    rw [if_neg (by simp [h.count]), h.closingEdge, if_neg hne, h.lastTime, h.lastValue]

/-- A quotient by a time. -/
theorem isFinite_div_width {area : Binary64} {width : Nat} (harea : Within (2 ^ 142) area)
    (hpos : 0 < width) (hle : width ≤ 2 ^ 64) :
    (area / (((width : Nat) : Int) : Binary64)).isFinite = true := by
  have hwidth := within_intCast (n := (width : Int)) (b := 2 ^ 64) (by omega) (by norm_num)
  have hone := le_toUnits_intCast (n := (width : Int)) (by omega)
  exact (harea.div hwidth.isFinite hone (by norm_num)).isFinite

/-- A bucket that is closed reports a finite number if its area was bounded and the next sample can
be told apart from its last one. -/
theorem Underway.isFinite_followedBy (h : Underway g last s)
    (harea : Within (areaBound last.timestamp) s.area) (hlast : Within 1 last.value)
    (hsample : Within 1 sample.value) (hlt : last.timestamp.toInt < sample.timestamp.toInt)
    (happart : ((last.timestamp.toInt : Int) : Binary64)
      ≠ ((sample.timestamp.toInt : Int) : Binary64)) :
    ((s.followedBy sample).result?.getD nan).isFinite = true := by
  obtain ⟨width, hpos, hle, hresult⟩ := h.result_followedBy hlt
  have hline := within_interpolate hlast hsample (fun _ => happart)
    (g.finish (g.start last.timestamp))
  have hside := within_trapezoid hlast hline (by norm_num) last.timestamp
    (g.finish (g.start last.timestamp))
  have hbound : areaBound last.timestamp + 2 * (8 * (1 + 2 * 2 ^ 71)
      * Timestamp.distance last.timestamp (g.finish (g.start last.timestamp))) ≤ 2 ^ 142 := by
    have hdist := distance_le last.timestamp (g.finish (g.start last.timestamp))
    have hsofar := areaBound_le last.timestamp
    omega
  have htotal := (harea.add hside (hbound.trans (by norm_num))).mono hbound (by norm_num)
  rw [hresult]
  exact isFinite_div_width htotal hpos hle

/-- A bucket that is closed by a sample that cannot be told apart reports no finite number. -/
theorem Underway.toldApart_of_isFinite (h : Underway g last s)
    (hlt : last.timestamp.toInt < sample.timestamp.toInt)
    (hfinite : ((s.followedBy sample).result?.getD nan).isFinite = true) :
    ((last.timestamp.toInt : Int) : Binary64) ≠ ((sample.timestamp.toInt : Int) : Binary64) := by
  obtain ⟨width, -, -, hresult⟩ := h.result_followedBy hlt
  rw [hresult] at hfinite
  have harea := (isFinite_operands_div hfinite).1
  have hline := (isFinite_of_trapezoid (isFinite_operands_add harea).2).2
  have hne : last.timestamp ≠ sample.timestamp := by
    intro heq
    rw [heq] at hlt
    omega
  exact fun heq => not_isFinite_interpolate hne heq hline

theorem Underway.isFinite_result (h : Underway g last s)
    (harea : Within (areaBound last.timestamp) s.area) (hlast : Within 1 last.value) :
    (s.result?.getD nan).isFinite = true := by
  unfold result?
  rw [if_neg (by rw [h.isEmpty]; exact Bool.false_ne_true)]
  split
  · rw [h.lastValue]
    exact hlast.isFinite
  · next hne =>
    have hpos : 0 < Timestamp.distance s.coveredFrom s.coveredTo := by
      have hint := mt Int64.toInt_inj.1 hne
      unfold Timestamp.distance
      omega
    have htotal := harea.mono ((areaBound_le _).trans (by norm_num)) (b := 2 ^ 142) (by norm_num)
    exact isFinite_div_width htotal hpos (distance_le _ _)

/-! ## Walks -/

/-- The report of the bucket of `last`, when `sample` closes it, is the first of a walk. -/
theorem Underway.walk_of_ne (h : Underway g last s) (rest : List (Sample Binary64))
    (hne : g.start last.timestamp ≠ g.start sample.timestamp) :
    Downsampling.walk ⟨g, false, false⟩ s (g.start last.timestamp) last (sample :: rest)
      = ⟨g.start last.timestamp, (s.followedBy sample).result?⟩ ::
        Downsampling.walk ⟨g, false, false⟩ ((Accumulator.enter g (fresh false)
          (g.start sample.timestamp) (some last)).append sample)
          (g.start sample.timestamp) sample rest := by
  have hreset : (s.followedBy sample).reset = fresh false := by
    rw [reset, reverse_followedBy, h.forward]
  rw [Downsampling.walk]
  dsimp only
  rw [if_neg hne, if_neg Bool.false_ne_true, ← hreset]
  rfl

/-- Samples of different buckets are a time apart. -/
theorem lt_of_start_ne (hle : last.timestamp.toInt ≤ sample.timestamp.toInt)
    (hne : g.start last.timestamp ≠ g.start sample.timestamp) :
    last.timestamp.toInt < sample.timestamp.toInt := by
  refine lt_of_le_of_ne hle fun heq => hne ?_
  rw [Int64.toInt_inj.1 heq]

/-- If neighbours in different buckets can be told apart, all reports are finite. -/
theorem isFinite_walk (rest : List (Sample Binary64)) (hunder : Underway g last s)
    (harea : Within (areaBound last.timestamp) s.area)
    (hvalues : ∀ x ∈ last :: rest, Within 1 x.value)
    (hasc : (last :: rest).IsChain fun a b => a.timestamp.toInt ≤ b.timestamp.toInt)
    (happart : (last :: rest).IsChain (ToldApart g)) :
    ∀ r ∈ Downsampling.walk ⟨g, false, false⟩ s (g.start last.timestamp) last rest,
      (r.value.getD nan).isFinite = true := by
  have hlast := hvalues last List.mem_cons_self
  induction rest generalizing s last with
  | nil =>
    intro r hr
    rw [List.mem_singleton.1 hr]
    exact hunder.isFinite_result harea hlast
  | cons sample rest ih =>
    obtain ⟨hle, hasc'⟩ := List.isChain_cons_cons.1 hasc
    obtain ⟨hfirst, happart'⟩ := List.isChain_cons_cons.1 happart
    have hvalues' : ∀ x ∈ sample :: rest, Within 1 x.value := fun x hx =>
      hvalues x (List.mem_cons_of_mem _ hx)
    have hsample := hvalues' sample List.mem_cons_self
    by_cases hsame : g.start last.timestamp = g.start sample.timestamp
    · rw [Downsampling.walk]
      dsimp only
      rw [if_pos hsame, hsame]
      exact ih (hunder.append hle hsame) (hunder.within_append harea hlast hsample hle) hvalues'
        hasc' happart' hsample
    · rw [hunder.walk_of_ne rest hsame]
      intro r hr
      rcases List.mem_cons.1 hr with rfl | hr
      · exact hunder.isFinite_followedBy harea hlast hsample (lt_of_start_ne hle hsame)
          (hfirst hsame)
      · refine ih (underway_open g (some last) sample) (within_open (some last) hsample ?_) hvalues'
          hasc' happart' hsample r hr
        rintro _ ⟨⟩
        exact ⟨hlast, hfirst, hsame⟩

/-- If all reports are finite, neighbours in different buckets can be told apart. -/
theorem toldApart_of_walk (rest : List (Sample Binary64)) (hunder : Underway g last s)
    (hasc : (last :: rest).IsChain fun a b => a.timestamp.toInt ≤ b.timestamp.toInt)
    (hfinite : ∀ r ∈ Downsampling.walk ⟨g, false, false⟩ s (g.start last.timestamp) last rest,
      (r.value.getD nan).isFinite = true) :
    (last :: rest).IsChain (ToldApart g) := by
  induction rest generalizing s last with
  | nil => exact .singleton last
  | cons sample rest ih =>
    obtain ⟨hle, hasc'⟩ := List.isChain_cons_cons.1 hasc
    refine List.isChain_cons_cons.2 ?_
    by_cases hsame : g.start last.timestamp = g.start sample.timestamp
    · rw [Downsampling.walk] at hfinite
      dsimp only at hfinite
      rw [if_pos hsame, hsame] at hfinite
      exact ⟨fun hne => absurd hsame hne, ih (hunder.append hle hsame) hasc' hfinite⟩
    · rw [hunder.walk_of_ne rest hsame] at hfinite
      obtain ⟨hclosed, hlater⟩ := List.forall_mem_cons.1 hfinite
      exact ⟨fun _ => hunder.toldApart_of_isFinite (lt_of_start_ne hle hsame) hclosed,
        ih (underway_open g (some last) sample) hasc' hlater⟩

/-- The reports of a series in order. -/
theorem isFinite_reports_iff_toldApart (g : Grid) {samples : List (Sample Binary64)}
    (hasc : samples.IsChain fun a b => a.timestamp.toInt ≤ b.timestamp.toInt)
    (hvalues : ∀ x ∈ samples, Within 1 x.value) :
    (∀ r ∈ Downsampling.reports ⟨g, false, false⟩ (fresh false : TimeWeighted Binary64) samples,
      (r.value.getD nan).isFinite = true) ↔ samples.IsChain (ToldApart g) := by
  cases samples with
  | nil => exact ⟨fun _ => .nil, fun _ r hr => nomatch hr⟩
  | cons sample rest =>
    have hunder := underway_open g none sample
    have harea := within_open (g := g) none (hvalues sample List.mem_cons_self) fun _ h => nomatch h
    exact ⟨toldApart_of_walk rest hunder hasc, isFinite_walk rest hunder harea hvalues hasc⟩

end TimeWeighted

/-- **When the reports of a rule are finite.** A rule for the time-weighted average is fed with
values of magnitude at most one. What it has reported and what it would report when flushed are all
finite exactly if any two samples that it accepted one after the other into different buckets have
timestamps that are different doubles. Up to `2⁵³` all timestamps are different doubles. -/
theorem CompactionRule.isFinite_reports_iff (g : Grid) {pushes : List (Sample Binary64)}
    (hvalues : ∀ x ∈ kept pushes, x.value.abs ≤ ((1 : Int) : Binary64)) :
    ∃ (new rule : CompactionRule) (reports : List (Sample Binary64)),
      CompactionRule.make .twa g.duration g.alignment = .ok new ∧
      new.offerAll pushes = (reports, rule) ∧
      ((∀ r ∈ reports ++ rule.flush.toList, r.value.isFinite = true) ↔
        (kept pushes).IsChain fun a b => g.start a.timestamp ≠ g.start b.timestamp →
          ((a.timestamp.toInt : Int) : Binary64) ≠ ((b.timestamp.toInt : Int) : Binary64)) ∧
      ((∀ x ∈ kept pushes, x.timestamp.toInt.natAbs ≤ 2 ^ 53) →
        ∀ r ∈ reports ++ rule.flush.toList, r.value.isFinite = true) := by
  have hrec := Aggregator.recyclable .twa false
  have hasc := Downsampling.firstDescent_eq_none_iff.1 (kept_ascending pushes)
  obtain ⟨reports, rule, hoffer, -, hreports⟩ := Rule.offerAll_start g hrec pushes
  have hvisits := Downsampling.reports_eq_visits ⟨g, false, false⟩ hrec
    (fun h => absurd h Bool.false_ne_true) (kept pushes)
  have hmake : CompactionRule.make .twa g.duration g.alignment
      = .ok (.start g (.fresh .twa false)) := by
    rw [CompactionRule.make, Grid.make_of_pos g.alignment g.duration_pos]
    rfl
  have hiff : (∀ r ∈ reports ++ rule.flush.toList, r.value.isFinite = true) ↔
      (kept pushes).IsChain (TimeWeighted.ToldApart g) := by
    rw [← TimeWeighted.isFinite_reports_iff_toldApart g hasc fun x hx =>
      Binary64.within_one (hvalues x hx)]
    have hdouble := TimeWeighted.reports_timeWeighted ⟨g, false, false⟩ (kept pushes)
    have hsame := hreports.trans (hvisits.symm.trans hdouble)
    rw [hsame, List.forall_mem_map]
  refine ⟨_, rule, reports, hmake, hoffer, hiff, fun hsmall => hiff.2 ?_⟩
  have hfits : ∀ x ∈ kept pushes, x.timestamp.toInt.natAbs ≤ 2 * fractions := hsmall
  refine (List.pairwise_of_forall_mem_list fun a ha b hb hne heq => hne ?_).isChain
  rw [Int64.toInt_inj.1 (intCast_inj (hfits a ha) (hfits b hb) heq)]

/-- Buckets of a minute, counted in nanoseconds. -/
def minutes : Grid := ⟨60000000000, 0, by decide⟩

/-- Samples of today. The doubles at their timestamps are 256 apart, so the first two, which are in
one bucket, cannot be told apart; the second and the third, which are not, can. -/
def today : List (Sample Binary64) :=
  [⟨1760000039999999000, ((1 : Int) : Binary64)⟩, ⟨1760000039999999001, ((-1 : Int) : Binary64)⟩,
    ⟨1760000040000000000, ((1 : Int) : Binary64)⟩]

theorem CompactionRule.isFinite_reports_today :
    (∀ x ∈ kept today, x.value.abs ≤ ((1 : Int) : Binary64)) ∧
      ∃ (new rule : CompactionRule) (reports : List (Sample Binary64)),
        CompactionRule.make .twa 60000000000 0 = .ok new ∧ new.offerAll today = (reports, rule) ∧
        ∀ r ∈ reports ++ rule.flush.toList, r.value.isFinite = true := by
  have hvalues : ∀ x ∈ kept today, x.value.abs ≤ ((1 : Int) : Binary64) := by decide +kernel
  have happart : (kept today).IsChain fun a b =>
      minutes.start a.timestamp ≠ minutes.start b.timestamp →
        ((a.timestamp.toInt : Int) : Binary64) ≠ ((b.timestamp.toInt : Int) : Binary64) := by
    decide +kernel
  obtain ⟨new, rule, reports, hmake, hoffer, hiff, -⟩ := isFinite_reports_iff minutes hvalues
  exact ⟨hvalues, new, rule, reports, hmake, hoffer, hiff.2 happart⟩

/-- Buckets of a single time. -/
def instants : Grid := ⟨1, 0, by decide⟩

/-- The first timestamp that is no double, and the double that it is rounded to. -/
def indistinct : List (Sample Binary64) :=
  [⟨9007199254740992, ((1 : Int) : Binary64)⟩, ⟨9007199254740993, ((1 : Int) : Binary64)⟩]

/-- The bucket that is closed reports a NaN, though both samples have the value one. -/
theorem CompactionRule.not_isFinite_reports :
    ¬∀ (g : Grid) (pushes : List (Sample Binary64)),
      (∀ x ∈ pushes, x.value.abs ≤ ((1 : Int) : Binary64)) →
        ∀ new rule reports, CompactionRule.make .twa g.duration g.alignment = .ok new →
          new.offerAll pushes = (reports, rule) →
            ∀ r ∈ reports ++ rule.flush.toList, r.value.isFinite = true := by
  intro h
  have hvalues : ∀ x ∈ indistinct, x.value.abs ≤ ((1 : Int) : Binary64) := by decide +kernel
  have hclosed : (⟨9007199254740992, nan⟩ : Sample Binary64) ∈
      ((Rule.start instants (Aggregator.fresh .twa false)).offerAll indistinct).1 := by
    decide +kernel
  exact absurd (h instants indistinct hvalues _ _ _ rfl rfl _ (List.mem_append_left _ hclosed))
    not_isFinite_nan

end Rollup
