import Rollup.Proofs.Aggregator.Extremes
import Rollup.Proofs.Bucket.Mirror
import Rollup.Proofs.Bucket.Recycling
import Rollup.Proofs.Bucket.Starts

/-!
# Both directions

A series that is walked from its newest sample to its oldest reports the buckets that it reports the
other way round, in reversed order. Each bucket has its samples reversed, and what an aggregation
makes of that is a matter of its fold alone, since all but the time-weighted average look at nothing
else (`Visit.close_eq_foldl`): a count does not tell the samples apart, bounds depend on what
samples there are and not on their order, and the first value is the last one the other way round.
-/

namespace Rollup

open Binary64 MaxScan

/-! ## Reversed values -/

namespace Binary64

theorem same_neg_iff {a b : Binary64} : same a.neg b.neg = true ↔ same a b = true := by
  simp only [same_iff, isNaN_neg, numKey_neg, Int.neg_inj]

theorem same_sub {a a' b b' : Binary64} (ha : same a a' = true) (hb : same b b' = true) :
    same (a - b) (a' - b') = true :=
  same_add ha (same_neg_iff.2 hb)

end Binary64

namespace MaxScan

@[simp] theorem peak_reverse (values : List Binary64) : peak values.reverse = peak values := by
  induction values with
  | nil => rfl
  | cons value rest ih => simp [ih, sup_comm]

end MaxScan

namespace Tops

variable {x y : Binary64} {values : List Binary64}

theorem reverse (h : Tops x values) : Tops x values.reverse :=
  ⟨h.isNaN, by rw [h.rank_eq, peak_reverse]⟩

theorem same (hx : Tops x values) (hy : Tops y values) : Binary64.same x y = true := by
  have hrank : rank x = rank y := hx.rank_eq.trans hy.rank_eq.symm
  rw [rank_of_not_isNaN hx.isNaN, rank_of_not_isNaN hy.isNaN] at hrank
  exact same_iff.2 ⟨hx.isNaN.trans hy.isNaN.symm, fun _ => WithBot.coe_injective hrank⟩

end Tops

namespace Bounds

variable {s t : Bounds} {values : List Binary64}

/-- Bounds do not know the order of their values. -/
theorem Spans.reverse (h : s.Spans values) : s.Spans values.reverse where
  greatest := h.greatest.reverse
  least := by
    rw [List.map_reverse]
    exact h.least.reverse

/-- Bounds of the same values are the same numbers, and so is what is reported of them. -/
theorem Spans.same (hs : s.Spans values) (ht : t.Spans values) :
    Binary64.same s.min t.min = true ∧ Binary64.same s.max t.max = true ∧
      Binary64.same s.range t.range = true := by
  have hempty : s.isEmpty = t.isEmpty := by
    rw [Bool.eq_iff_iff, hs.isEmpty_iff, ht.isEmpty_iff]
  have hleast : Binary64.same s.least t.least = true := same_neg_iff.1 (hs.least.same ht.least)
  have hgreatest := hs.greatest.same ht.greatest
  unfold Bounds.min Bounds.max Bounds.range
  rw [← hempty]
  split
  · exact ⟨same_self _, same_self _, same_self _⟩
  · exact ⟨hleast, hgreatest, same_sub hgreatest hleast⟩

theorem spans_linear (values : List Binary64) :
    Spans ⟨values.foldl keepLess fresh.least, linear fresh.greatest values⟩ values where
  greatest := spans_fresh.greatest.linear values
  least := by
    rw [neg_foldl_keepLess]
    exact spans_fresh.least.linear (values.map neg)

end Bounds

namespace Aggregator

/-! ## Reversed runs -/

/-- Only how many samples there are counts. -/
theorem foldl_append_count_congr (state : Single) {xs ys : List (Sample Binary64)}
    (h : xs.length = ys.length) :
    xs.foldl append (tally .count state) = ys.foldl append (tally .count state) := by
  induction xs generalizing ys state with
  | nil => rw [List.eq_nil_of_length_eq_zero h.symm]
  | cons x xs ih =>
    cases ys with
    | nil => cases h
    | cons y ys => exact ih _ (Nat.succ.inj h)

/-- Once it is set, the first value stays. -/
theorem foldl_append_set (value : Binary64) (samples : List (Sample Binary64)) :
    samples.foldl append (first ⟨value, false⟩) = first ⟨value, false⟩ := by
  induction samples with
  | nil => rfl
  | cons sample rest ih => exact ih

/-- The first value of a run the other way round is the last one. -/
theorem report_first_reverse {run : List (Sample Binary64)} (hne : run ≠ []) (state : Single) :
    (run.reverse.foldl append (first .fresh)).report
      = (run.foldl append (tally .last state)).report := by
  -- the last sample is the only one that either fold keeps
  obtain ⟨init, last, rfl⟩ : ∃ init last, run = init ++ [last] :=
    ⟨_, _, (List.dropLast_append_getLast hne).symm⟩
  have hfirst : (last :: init.reverse).foldl append (first .fresh) = first ⟨last.value, false⟩ :=
    foldl_append_set last.value init.reverse
  rw [List.reverse_concat, hfirst, foldl_append_last, List.map_append, List.map_singleton,
    List.getLast?_concat]
  rfl

theorem same_report_extreme (report : Extreme) (run : List (Sample Binary64)) :
    same (run.reverse.foldl append (extreme report .fresh)).report
      (run.foldl append (extreme report .fresh)).report = true := by
  rw [foldl_append_extreme, foldl_append_extreme, List.map_reverse]
  -- both bounds are those of the reversed values
  obtain ⟨hmin, hmax, hrange⟩ := (Bounds.spans_linear (run.map Sample.value).reverse).same
    (Bounds.spans_linear (run.map Sample.value)).reverse
  cases report with
  | min => exact hmin
  | max => exact hmax
  | range => exact hrange

end Aggregator

/-! ## Buckets -/

/-- Unless it is a time-weighted average, the state of a bucket is the fold of its samples. -/
theorem Visit.close_eq_foldl (g : Grid) {fresh : Aggregator} (h : fresh.kind ≠ .twa)
    (v : Visit Binary64) : v.close g fresh = v.run.foldl Aggregator.append fresh := by
  have hfollowed : ∀ s : Aggregator, s.kind ≠ .twa → Accumulator.followed s v.after = s := by
    intro s hs
    cases s with
    | timeWeighted state => exact absurd rfl hs
    | _ => cases v.after <;> rfl
  have hentered : Accumulator.enter g fresh v.start v.before = fresh := by
    cases fresh with
    | timeWeighted state => exact absurd rfl h
    | _ => cases v.before <;> rfl
  unfold Visit.close Accumulator.fill
  rw [hentered]
  exact hfollowed _ ((Aggregator.kind_foldl_append fresh v.run).trans_ne h)

theorem Visit.report_eq_foldl (g : Grid) {fresh : Aggregator} (h : fresh.kind ≠ .twa)
    (v : Visit Binary64) :
    v.report g fresh = ⟨v.start, (v.run.foldl Aggregator.append fresh).report⟩ := by
  rw [← Visit.close_eq_foldl g h]
  rfl

namespace Downsampling

theorem run_ne_nil_of_mem_visits {α : Type} {d : Downsampling} (hempty : d.emptyBuckets = false)
    {before after : Option (Sample α)} {runs : List (List (Sample α))} {v : Visit α}
    (hv : v ∈ d.visits before after runs) : v.run ≠ [] := by
  induction runs generalizing before with
  | nil => cases hv
  | cons run rest ih =>
    cases run with
    | nil => exact ih hv
    | cons first others =>
      rw [visits, gapVisits_of_not d hempty, List.nil_append] at hv
      rcases List.mem_cons.1 hv with rfl | hmem
      · exact List.cons_ne_nil first others
      · exact ih hmem

end Downsampling

namespace Grid

variable (g : Grid) (kind : Aggregation) (samples : List (Sample Binary64))

/-- What a walk without empty buckets reports. -/
def walked (reverse : Bool) : List (Sample Binary64) :=
  Downsampling.reports ⟨g, reverse, false⟩ (Aggregator.fresh kind reverse) samples

/-- The buckets of a series that have samples. -/
def populated : List (Visit Binary64) :=
  Downsampling.visits ⟨g, false, false⟩ none none (g.runs samples)

theorem walked_forward : g.walked kind samples false
    = (g.populated samples).map (Visit.report g (Aggregator.fresh kind false)) :=
  Downsampling.reports_eq_visits ⟨g, false, false⟩ (Aggregator.recyclable kind false)
    (fun h => nomatch h) samples

/-- In reversed order, the other walk reports the same buckets from the other side. -/
theorem walked_backward : (g.walked kind samples true).reverse
    = (g.populated samples).map fun v => v.mirror.report g (Aggregator.fresh kind true) := by
  have hvisits : g.walked kind samples true
      = (Downsampling.visits ⟨g, true, false⟩ none none (g.runs samples.reverse)).map
          (Visit.report g (Aggregator.fresh kind true)) :=
    Downsampling.reports_eq_visits ⟨g, true, false⟩ (Aggregator.recyclable kind true)
      (fun h => nomatch h) samples
  -- without empty buckets there is nothing that the two walks could count differently
  have hmirror : Downsampling.visits ⟨g, true, false⟩ none none (g.runs samples.reverse)
      = ((g.populated samples).map Visit.mirror).reverse :=
    Downsampling.visits_mirror ⟨g, false, false⟩ samples fun _ _ _ _ => rfl
  rw [hvisits, hmirror, List.map_reverse, List.reverse_reverse, List.map_map]
  rfl

theorem timestamp_walked_reverse : (g.walked kind samples true).reverse.map Sample.timestamp
    = (g.walked kind samples false).map Sample.timestamp := by
  rw [walked_backward, walked_forward, List.map_map, List.map_map]
  rfl

variable {kind} {kind' : Aggregation}

/-- Aggregations that make the same of a run and of the reversed one report the same. -/
theorem walked_reverse_eq (hkind : kind ≠ .twa) (hkind' : kind' ≠ .twa)
    (h : ∀ run : List (Sample Binary64), run ≠ [] →
      (run.reverse.foldl Aggregator.append (.fresh kind true)).report
        = (run.foldl Aggregator.append (.fresh kind' false)).report) :
    (g.walked kind samples true).reverse = g.walked kind' samples false := by
  rw [walked_backward, walked_forward]
  refine List.map_congr_left fun v hv => ?_
  rw [Visit.report_eq_foldl g (by simpa), Visit.report_eq_foldl g (by simpa)]
  exact congrArg (Sample.mk v.start) (h v.run (Downsampling.run_ne_nil_of_mem_visits rfl hv))

/-- Extremes of a run and of the reversed one are the same numbers. -/
theorem same_walked_reverse (report : Extreme)
    (hfresh : ∀ reverse, Aggregator.fresh kind reverse = .extreme report .fresh) :
    List.Forall₂ (fun a b => a.timestamp = b.timestamp ∧ same a.value b.value = true)
      (g.walked kind samples true).reverse (g.walked kind samples false) := by
  have hkind : (Aggregator.extreme report .fresh).kind ≠ .twa := by cases report <;> decide
  rw [walked_backward, walked_forward, List.forall₂_map_left_iff, List.forall₂_map_right_iff,
    List.forall₂_same]
  intro v hv
  rw [hfresh, hfresh, Visit.report_eq_foldl g hkind, Visit.report_eq_foldl g hkind]
  exact ⟨rfl, Aggregator.same_report_extreme report v.run⟩

end Grid

/-- **The other way round.** Of samples in order, with any values and any number of them at a time,
both walks without empty buckets succeed. In reversed order, the walk from the newest sample to the
oldest reports at the same times as the other one, whatever is aggregated. It reports the same
counts; its minima, maxima and ranges are the same numbers, or both are NaNs; and its first values
are, word for word, the last values of the other walk, and its last values the first ones. -/
theorem downsample_reverse {duration : Timestamp} (alignment : Timestamp)
    (hpos : 0 < duration.toInt) {samples : List (Sample Binary64)}
    (hasc : samples.Pairwise fun a b => a.timestamp.toInt ≤ b.timestamp.toInt) :
    ∃ up down : Aggregation → List (Sample Binary64),
      (∀ kind, downsample kind duration alignment false false samples = .ok (up kind) ∧
        downsample kind duration alignment true false samples = .ok (down kind)) ∧
      (∀ kind, (down kind).reverse.map Sample.timestamp = (up kind).map Sample.timestamp) ∧
      (down .count).reverse = up .count ∧
      (∀ kind ∈ [Aggregation.min, .max, .range],
        List.Forall₂ (fun a b => a.timestamp = b.timestamp ∧ same a.value b.value = true)
          (down kind).reverse (up kind)) ∧
      (down .first).reverse = up .last ∧ (down .last).reverse = up .first := by
  let g : Grid := ⟨duration, alignment, hpos⟩
  refine ⟨fun kind => g.walked kind samples false, fun kind => g.walked kind samples true,
    fun kind => ⟨?_, ?_⟩, fun kind => g.timestamp_walked_reverse kind samples, ?_, ?_, ?_, ?_⟩
  · exact downsample_of_ascending kind g false false hasc
  · exact downsample_of_ascending kind g true false hasc
  · refine g.walked_reverse_eq samples (by decide) (by decide) fun run _ => ?_
    exact congrArg _ (Aggregator.foldl_append_count_congr _ List.length_reverse)
  · simp only [List.forall_mem_cons, List.not_mem_nil, false_imp_iff, implies_true, and_true]
    exact ⟨g.same_walked_reverse samples .min fun _ => rfl,
      g.same_walked_reverse samples .max fun _ => rfl,
      g.same_walked_reverse samples .range fun _ => rfl⟩
  · refine g.walked_reverse_eq samples (by decide) (by decide) fun run hne => ?_
    exact Aggregator.report_first_reverse hne _
  · refine g.walked_reverse_eq samples (by decide) (by decide) fun run hne => ?_
    have hreverse := Aggregator.report_first_reverse (mt List.reverse_eq_nil_iff.1 hne) ⟨.nan⟩
    rw [List.reverse_reverse] at hreverse
    exact hreverse.symm

/-- Two samples at a time, a NaN, zeros of either sign and a bucket of one infinity. -/
def crowdedSamples : List (Sample Binary64) :=
  [⟨0, zero false⟩, ⟨0, nan⟩, ⟨3, zero true⟩, ⟨11, infinity true⟩]

theorem downsample_reverse_crowded :
    0 < (10 : Timestamp).toInt ∧
    (crowdedSamples.Pairwise fun a b => a.timestamp.toInt ≤ b.timestamp.toInt) ∧
    ∃ up down, downsample .last 10 0 false false crowdedSamples = .ok up ∧
      downsample .first 10 0 true false crowdedSamples = .ok down ∧ down.reverse = up := by
  have hpos : 0 < (10 : Timestamp).toInt := by decide
  have hasc : crowdedSamples.Pairwise fun a b => a.timestamp.toInt ≤ b.timestamp.toInt := by decide
  obtain ⟨up, down, hok, -, -, -, hfirst, -⟩ := downsample_reverse 0 hpos hasc
  exact ⟨hpos, hasc, up .last, down .first, (hok .last).1, (hok .first).2, hfirst⟩

end Rollup
