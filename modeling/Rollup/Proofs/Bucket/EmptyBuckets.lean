import Mathlib.Data.List.Nodup
import Rollup.Proofs.Bucket.Drivers
import Rollup.Proofs.Bucket.GapWalk
import Rollup.Proofs.Bucket.Recycling

/-!
# Reporting empty buckets

A walk that reports empty buckets gives the reports of the walk that does not, with the missing
buckets put in between neighbours (`Padded`). Passing over an empty bucket leaves no trace in the
state (`PassesEmpty`), so the two walks are in the same state at every sample (`padded_walk`). What
the empty buckets of an aggregation report is told by the report of the bucket before them
(`Aggregation.emptyReport`).
-/

namespace Rollup

/-! ## Reports with the missing buckets put in -/

/-- `all` is `populated` with the buckets put in that are missing between neighbours. `fits` says
what such a bucket may report behind the report of the bucket before it. -/
inductive Padded {β : Type} (g : Grid) (reverse : Bool) (fits : β → β → Prop) :
    List (Sample β) → List (Sample β) → Prop where
  | nil : Padded g reverse fits [] []
  | last (r : Sample β) : Padded g reverse fits [r] [r]
  | next {r next : Sample β} {between populated all : List (Sample β)}
      (hahead : ∃ n : Nat,
        next.timestamp.toInt = r.timestamp.toInt + (n + 1) * g.stride reverse)
      (hstarts : between.map Sample.timestamp = g.gaps reverse r.timestamp next.timestamp)
      (hvalues : ∀ x ∈ between, fits r.value x.value)
      (hrest : Padded g reverse fits (next :: populated) (next :: all)) :
      Padded g reverse fits (r :: next :: populated) (r :: between ++ next :: all)

namespace Padded

open Grid (Before)

variable {β : Type} {g : Grid} {reverse : Bool} {fits : β → β → Prop}
  {populated all : List (Sample β)}

theorem sublist (h : Padded g reverse fits populated all) : populated.Sublist all := by
  induction h with
  | nil => exact List.Sublist.refl _
  | last r => exact List.Sublist.refl _
  | next _ _ _ _ ih => exact (List.sublist_append_of_sublist_right ih).cons_cons _

theorem head?_eq (h : Padded g reverse fits populated all) : all.head? = populated.head? := by
  cases h <;> rfl

theorem getLast?_eq (h : Padded g reverse fits populated all) :
    all.getLast? = populated.getLast? := by
  induction h with
  | nil => rfl
  | last r => rfl
  | next _ _ _ _ ih => rw [List.getLast?_append_cons, ih, List.getLast?_cons_cons]

/-- No bucket is missing: the starts go on by one duration. -/
theorem isChain (h : Padded g reverse fits populated all) :
    (all.map Sample.timestamp).IsChain fun a b => b.toInt = a.toInt + g.stride reverse := by
  induction h with
  | nil => exact .nil
  | last r => exact .singleton _
  | @next r next between populated all hahead hstarts _ _ ih =>
    rw [List.map_append, List.map_cons, hstarts, List.map_cons, List.isChain_split]
    exact ⟨(Grid.gapWalk_gaps g reverse r.timestamp next.timestamp).isChain hahead, ih⟩

theorem pairwise (h : Padded g reverse fits populated all) :
    all.Pairwise fun a b => Before reverse a.timestamp b.timestamp := by
  have htrans : IsTrans Timestamp (Before reverse) := ⟨fun _ _ _ => Before.trans⟩
  have hbefore := h.isChain.imp fun a b hab => (Grid.before_of_step hab : Before reverse a b)
  exact List.pairwise_map.1 (List.isChain_iff_pairwise.1 hbefore)

/-- The buckets that were put in are told by their starts. -/
theorem filter_eq (h : Padded g reverse fits populated all) {holds : Timestamp → Prop}
    [DecidablePred holds]
    (hholds : ∀ t, holds t ↔ t ∈ populated.map Sample.timestamp) :
    all.filter (fun r => holds r.timestamp) = populated := by
  have hdistinct : (all.map Sample.timestamp).Nodup :=
    List.pairwise_map.2 (h.pairwise.imp Before.ne)
  have hnodup : all.Nodup := List.Nodup.of_map _ hdistinct
  have hmem : ∀ r, r ∈ all.filter (fun r => holds r.timestamp) ↔ r ∈ populated := by
    intro r
    rw [List.mem_filter, decide_eq_true_iff, hholds]
    constructor
    · rintro ⟨hr, hstart⟩
      obtain ⟨q, hq, heq⟩ := List.mem_map.1 hstart
      exact List.inj_on_of_nodup_map hdistinct (h.sublist.subset hq) hr heq ▸ hq
    · intro hr
      exact ⟨h.sublist.subset hr, List.mem_map_of_mem hr⟩
  -- both are in the order of the walk, so it is enough that they have the same members
  refine List.Perm.eq_of_pairwise (fun a b _ _ hab hba => ?_) (h.pairwise.filter _)
    (h.pairwise.sublist h.sublist)
    ((List.perm_ext_iff_of_nodup (hnodup.filter _) (h.sublist.nodup hnodup)).2 hmem)
  exact absurd (hab.trans hba) (Grid.not_before_self reverse _)

/-- A bucket that was put in reports what fits the last populated bucket before it. -/
theorem fits_of_not_mem (h : Padded g reverse fits populated all) :
    ∀ x ∈ all, x ∉ populated → ∃ q,
      (populated.filter fun q => Before reverse q.timestamp x.timestamp).getLast? = some q ∧
      fits q.value x.value := by
  induction h with
  | nil => exact fun _ hx => by cases hx
  | last r => exact fun _ hx hnot => absurd hx hnot
  | @next r next between populated all hahead hstarts hvalues hrest ih =>
    have hwalk := (Grid.gapWalk_gaps g reverse r.timestamp next.timestamp).between
    have hpair := (Padded.next hahead hstarts hvalues hrest).pairwise
    obtain ⟨hfront, hback, -⟩ := List.pairwise_append.1 hpair
    intro x hx hnot
    rw [List.cons_append, List.mem_cons, List.mem_append] at hx
    rcases hx with rfl | hx | hx
    · exact absurd List.mem_cons_self hnot
    · -- between `r` and `next`: of the populated buckets only `r` comes before
      have hx' : x.timestamp ∈ g.gaps reverse r.timestamp next.timestamp :=
        hstarts ▸ List.mem_map_of_mem hx
      have hnone : (next :: populated).filter
          (fun q => decide (Before reverse q.timestamp x.timestamp)) = [] := by
        refine List.filter_eq_nil_iff.2 fun q hq => ?_
        rw [decide_eq_true_iff]
        intro hbefore
        have hnext : Before reverse x.timestamp q.timestamp := by
          rcases List.mem_cons.1 (hrest.sublist.subset hq) with rfl | hq'
          · exact (hwalk _ hx').2
          · exact (hwalk _ hx').2.trans ((List.pairwise_cons.1 hback).1 q hq')
        exact Grid.not_before_self reverse _ (hnext.trans hbefore)
      refine ⟨r, ?_, hvalues x hx⟩
      rw [List.filter_cons, if_pos (decide_eq_true (hwalk _ hx').1), hnone]
      rfl
    · -- at `next` or behind it
      have hnot' : x ∉ next :: populated := fun hmem => hnot (List.mem_cons_of_mem _ hmem)
      obtain ⟨q, hq, hfits⟩ := ih x hx hnot'
      refine ⟨q, ?_, hfits⟩
      rw [List.filter_cons]
      split
      · rw [List.getLast?_cons, hq]
        rfl
      · exact hq

end Padded

/-! ## Walks -/

/-- What lets a walk pass over empty buckets without a trace: opened and closed without a sample of
its own, a bucket leaves the state that was reset, and reports what `fits` the report of the bucket
before it. -/
structure PassesEmpty {σ α β : Type} [Accumulator σ α β] (own : σ → Prop) (fits : β → β → Prop) :
    Prop where
  append : ∀ s sample, own s → own (Accumulator.append s sample)
  enter : ∀ g s start last, own s → own (Accumulator.enter g s start last)
  followedBy : ∀ s next, own s → own (Accumulator.followedBy s next)
  own_reset : ∀ s, own s → own (Accumulator.reset s)
  reset : ∀ g s start last next, own s →
    Accumulator.reset (Accumulator.followedBy
      (Accumulator.enter g (Accumulator.reset s) start (some last)) next) = Accumulator.reset s
  report : ∀ g s start last next, own s →
    fits (Accumulator.report s)
      (Visit.report g (Accumulator.reset s) ⟨start, some last, [], some next⟩).value

namespace Downsampling

variable {σ α β : Type} [Accumulator σ α β] {own : σ → Prop} {fits : β → β → Prop}

/-- **The two walks side by side.** They are in the same state at every sample, and the one that
reports empty buckets reports nothing but those in addition. -/
theorem padded_walk (hpass : PassesEmpty own fits) (g : Grid) (reverse : Bool)
    (rest : List (Sample α)) (s : σ) (hown : own s) (last : Sample α)
    (hreg : ∀ x ∈ last :: rest, g.Regular x.timestamp)
    (horder : (last :: rest).IsChain fun a b => ¬Grid.Before reverse b.timestamp a.timestamp) :
    ∃ r populated all,
      walk ⟨g, reverse, false⟩ s (g.start last.timestamp) last rest = r :: populated ∧
      walk ⟨g, reverse, true⟩ s (g.start last.timestamp) last rest = r :: all ∧
      r.timestamp = g.start last.timestamp ∧
      Padded g reverse fits (r :: populated) (r :: all) := by
  induction rest generalizing s last with
  | nil => exact ⟨_, [], [], rfl, rfl, rfl, .last _⟩
  | cons sample rest ih =>
    have hreg' : ∀ x ∈ sample :: rest, g.Regular x.timestamp := fun x hx =>
      hreg x (List.mem_cons_of_mem _ hx)
    have horder' := (List.isChain_cons_cons.1 horder).2
    rw [walk, walk]
    dsimp only
    by_cases hsame : g.start last.timestamp = g.start sample.timestamp
    · rw [if_pos hsame, if_pos hsame, hsame]
      exact ih _ (hpass.append s sample hown) sample hreg' horder'
    · rw [if_neg hsame, if_neg hsame]
      set closed := Accumulator.followedBy s sample
      have hown' : own closed := hpass.followedBy s sample hown
      have hempty := reportEmpty_eq ⟨g, reverse, true⟩ last sample
        (fun start => hpass.reset g closed start last sample hown')
        (g.gaps reverse (g.start last.timestamp) (g.start sample.timestamp))
      obtain ⟨r, populated, all, hpopulated, hall, hstart, hpadded⟩ := ih
        (Accumulator.append (Accumulator.enter g (Accumulator.reset closed)
          (g.start sample.timestamp) (some last)) sample)
        (hpass.append _ _ (hpass.enter _ _ _ _ (hpass.own_reset _ hown'))) sample hreg' horder'
      have hleave : Accumulator.leave s (g.start last.timestamp) sample
          = (⟨g.start last.timestamp, Accumulator.report closed⟩, Accumulator.reset closed) := rfl
      refine ⟨⟨g.start last.timestamp, Accumulator.report closed⟩, r :: populated,
        (g.gaps reverse (g.start last.timestamp) (g.start sample.timestamp)).map (fun start =>
          Visit.report g (Accumulator.reset closed) ⟨start, some last, [], some sample⟩) ++ r :: all,
        ?_, ?_, rfl, .next ?_ ?_ ?_ hpadded⟩
      · rw [hleave]
        exact congrArg (_ :: ·) hpopulated
      · rw [hleave]
        dsimp only
        rw [if_pos rfl, hempty, hall]
        rfl
      · rw [hstart]
        exact Grid.exists_steps (hreg last List.mem_cons_self) (hreg' sample List.mem_cons_self)
          (List.isChain_cons_cons.1 horder).1 hsame
      · rw [List.map_map, hstart]
        exact List.map_id _
      · intro x hx
        obtain ⟨start, -, rfl⟩ := List.mem_map.1 hx
        exact hpass.report g closed start last sample hown'

/-- Without empty buckets, those are reported that samples fall into. -/
theorem mem_starts_walk (g : Grid) (reverse : Bool) (t : Timestamp) (rest : List (Sample α)) (s : σ)
    (last : Sample α) :
    t ∈ (walk ⟨g, reverse, false⟩ s (g.start last.timestamp) last rest).map Sample.timestamp ↔
      ∃ x ∈ last :: rest, g.start x.timestamp = t := by
  induction rest generalizing s last with
  | nil => simp [walk, eq_comm]
  | cons sample rest ih =>
    rw [walk, List.exists_mem_cons_iff]
    dsimp only
    by_cases hsame : g.start last.timestamp = g.start sample.timestamp
    · rw [if_pos hsame, hsame, ih]
      exact ⟨.inr, fun h => h.elim (fun heq => ⟨sample, List.mem_cons_self, heq⟩) id⟩
    · rw [if_neg hsame, if_neg Bool.false_ne_true, List.map_append, List.mem_append, ih]
      exact or_congr_left (List.mem_singleton.trans eq_comm)

theorem head?_walk (d : Downsampling) (rest : List (Sample α)) (s : σ) (start : Timestamp)
    (last : Sample α) : (d.walk s start last rest).head?.map Sample.timestamp = some start := by
  induction rest generalizing s last with
  | nil => rfl
  | cons sample rest ih =>
    rw [walk]
    dsimp only
    split
    · exact ih _ sample
    · rfl

theorem getLast?_walk (d : Downsampling) (rest : List (Sample α)) (s : σ) (last : Sample α) :
    (d.walk s (d.grid.start last.timestamp) last rest).getLast?.map Sample.timestamp
      = (last :: rest).getLast?.map fun x => d.grid.start x.timestamp := by
  induction rest generalizing s last with
  | nil => rfl
  | cons sample rest ih =>
    rw [walk, List.getLast?_cons_cons]
    dsimp only
    by_cases hsame : d.grid.start last.timestamp = d.grid.start sample.timestamp
    · rw [if_pos hsame, hsame]
      exact ih _ sample
    · rw [if_neg hsame, List.getLast?_append, Option.map_or, ih, List.getLast?_cons]
      rfl

/-! ## Reports -/

theorem isChain_ordered (d : Downsampling) {samples : List (Sample α)}
    (hasc : samples.Pairwise fun a b => a.timestamp.toInt ≤ b.timestamp.toInt) :
    (d.ordered samples).IsChain fun a b => ¬Grid.Before d.reverse b.timestamp a.timestamp := by
  unfold ordered Grid.Before
  cases d.reverse with
  | false => exact (hasc.imp not_lt.2).isChain
  | true => exact List.isChain_reverse.2 (hasc.imp not_lt.2).isChain

theorem mem_ordered (d : Downsampling) {samples : List (Sample α)} {x : Sample α} :
    x ∈ d.ordered samples ↔ x ∈ samples := by
  unfold ordered
  split
  · exact List.mem_reverse
  · exact Iff.rfl

theorem reports_of_nil (d : Downsampling) (s : σ) {samples : List (Sample α)}
    (h : d.ordered samples = []) : d.reports s samples = [] := by
  unfold reports
  unfold ordered at h
  rw [h]

theorem reports_of_cons (d : Downsampling) (s : σ) {samples : List (Sample α)} {first : Sample α}
    {rest : List (Sample α)} (h : d.ordered samples = first :: rest) :
    d.reports s samples
      = d.walk (Accumulator.append (Accumulator.enter d.grid s (d.grid.start first.timestamp) none)
          first) (d.grid.start first.timestamp) first rest := by
  unfold reports
  unfold ordered at h
  rw [h]

theorem padded_reports (hpass : PassesEmpty own fits) (g : Grid) (reverse : Bool) {s : σ}
    (hown : own s) {samples : List (Sample α)}
    (hasc : samples.Pairwise fun a b => a.timestamp.toInt ≤ b.timestamp.toInt)
    (hreg : ∀ x ∈ samples, g.Regular x.timestamp) :
    Padded g reverse fits (reports ⟨g, reverse, false⟩ s samples)
      (reports ⟨g, reverse, true⟩ s samples) := by
  have horder := isChain_ordered ⟨g, reverse, false⟩ hasc
  have hreg' : ∀ x ∈ ordered ⟨g, reverse, false⟩ samples, g.Regular x.timestamp := fun x hx =>
    hreg x ((mem_ordered _).1 hx)
  cases h : ordered ⟨g, reverse, false⟩ samples with
  | nil =>
    rw [reports_of_nil _ s h, reports_of_nil ⟨g, reverse, true⟩ s h]
    exact .nil
  | cons first rest =>
    rw [h] at horder hreg'
    rw [reports_of_cons _ s h, reports_of_cons ⟨g, reverse, true⟩ s h]
    obtain ⟨r, populated, all, hpopulated, hall, -, hpadded⟩ := padded_walk hpass g reverse rest _
      (hpass.append _ first (hpass.enter g s (g.start first.timestamp) none hown)) first hreg'
      horder
    rw [hpopulated, hall]
    exact hpadded

/-- The first bucket, and the last one, are those of the first sample and the last one. -/
theorem ends_reports (d : Downsampling) (s : σ) (samples : List (Sample α)) :
    (d.reports s samples).head?.map Sample.timestamp
        = (d.ordered samples).head?.map (fun x => d.grid.start x.timestamp) ∧
      (d.reports s samples).getLast?.map Sample.timestamp
        = (d.ordered samples).getLast?.map (fun x => d.grid.start x.timestamp) := by
  cases h : d.ordered samples with
  | nil =>
    rw [reports_of_nil d s h]
    exact ⟨rfl, rfl⟩
  | cons first rest =>
    rw [reports_of_cons d s h]
    exact ⟨d.head?_walk rest _ _ first, d.getLast?_walk rest _ first⟩

theorem mem_starts_reports (g : Grid) (reverse : Bool) (s : σ) (samples : List (Sample α))
    (t : Timestamp) :
    t ∈ (reports ⟨g, reverse, false⟩ s samples).map Sample.timestamp ↔
      ∃ x ∈ samples, g.start x.timestamp = t := by
  have hmem : (∃ x ∈ samples, g.start x.timestamp = t) ↔
      ∃ x ∈ ordered ⟨g, reverse, false⟩ samples, g.start x.timestamp = t :=
    exists_congr fun _ => and_congr_left fun _ => (mem_ordered _).symm
  rw [hmem]
  cases h : ordered ⟨g, reverse, false⟩ samples with
  | nil =>
    rw [reports_of_nil _ s h]
    exact ⟨(nomatch ·), fun ⟨_, hx, _⟩ => nomatch hx⟩
  | cons first rest =>
    rw [reports_of_cons _ s h]
    exact mem_starts_walk g reverse t rest _ first

end Downsampling

/-! ## Aggregators -/

/-- What a bucket without samples reports if the bucket before it has reported `carried`. Nothing is
said of the time-weighted average, whose empty buckets lie under the line between two samples. -/
def Aggregation.emptyReport (kind : Aggregation) (carried : Binary64) : Binary64 :=
  match kind with
  | .sum | .count => .zero false
  | .last => carried
  | _ => .nan

namespace Aggregator

theorem followedBy_enter {s : Aggregator} (h : s.kind ≠ .twa) (g : Grid) (start : Timestamp)
    (last next : Sample Binary64) :
    (Accumulator.enter g s start (some last)).followedBy next = s := by
  cases s with
  | timeWeighted state => exact absurd rfl h
  | _ => rfl

theorem report_reset {s : Aggregator} (h : s.kind ≠ .twa) :
    s.reset.report = s.kind.emptyReport s.report := by
  cases s with
  | tally fold _ => cases fold <;> rfl
  | extreme report _ => cases report <;> rfl
  | first _ => rfl
  | mean _ => rfl
  | spread report _ => cases report <;> rfl
  | timeWeighted _ => exact absurd rfl h

@[simp] theorem reset_reset (s : Aggregator) : s.reset.reset = s.reset := by
  cases s with
  | tally fold _ => cases fold <;> rfl
  | extreme report _ => cases report <;> rfl
  | spread report _ => cases report <;> simp only [reset, kind, fresh]
  | _ => simp only [reset, kind, fresh, TimeWeighted.reset, TimeWeighted.fresh]

theorem reset_followedBy_enter_reset (s : Aggregator) (g : Grid) (start : Timestamp)
    (last next : Sample Binary64) :
    ((Accumulator.enter g s.reset start (some last)).followedBy next).reset = s.reset := by
  by_cases htwa : s.kind = .twa
  · obtain ⟨state, rfl⟩ := exists_timeWeighted htwa
    have hreverse : ((Accumulator.enter g state.reset start (some last)).followedBy next).reverse
        = state.reverse := by
      rw [TimeWeighted.reverse_followedBy, TimeWeighted.reverse_enter, TimeWeighted.reset,
        TimeWeighted.fresh]
    exact congrArg (fun reverse => timeWeighted (.fresh reverse)) hreverse
  · rw [followedBy_enter (by rwa [kind_reset]), reset_reset]

theorem passesEmpty (kind : Aggregation) :
    PassesEmpty (fun s : Aggregator => s.kind = kind)
      fun q x => kind ≠ .twa → x = kind.emptyReport q where
  append s sample h := (kind_append s sample).trans h
  enter g s start last h := (kind_enter g s start last).trans h
  followedBy s next h := (kind_followedBy s next).trans h
  own_reset s h := (kind_reset s).trans h
  reset g s start last next _ := s.reset_followedBy_enter_reset g start last next
  report g s start last next h htwa := by
    subst h
    have hkeep : (Accumulator.enter g s.reset start (some last)).followedBy next = s.reset :=
      followedBy_enter (by rwa [kind_reset]) g start last next
    exact (congrArg report hkeep).trans (report_reset htwa)

end Aggregator

/-- **Reporting empty buckets puts in the missing ones and changes nothing else.** For samples in
order, on a part of the grid that no bound of the 64-bit range interferes with: the stepping over a
gap ends. From the bucket of the first sample met to that of the last one the starts go on by one
duration. Without the buckets that hold no sample the reports are those of the walk that does not
report them. A bucket that holds no sample reports zero for sum and count, the report of the last
populated bucket before it for last, and a NaN for the others, except for the time-weighted average.
-/
theorem downsample_emptyBuckets (kind : Aggregation) (g : Grid) (reverse : Bool)
    {samples : List (Sample Binary64)}
    (hasc : samples.Pairwise fun a b => a.timestamp.toInt ≤ b.timestamp.toInt)
    (hreg : ∀ x ∈ samples, g.Regular x.timestamp) :
    let walked := if reverse then samples.reverse else samples
    ∃ all populated : List (Sample Binary64),
      downsample kind g.duration g.alignment reverse true samples = .ok all ∧
      downsample kind g.duration g.alignment reverse false samples = .ok populated ∧
      (∀ a b, g.GapWalk reverse b a (g.gaps reverse a b)) ∧
      all.head?.map Sample.timestamp = walked.head?.map (fun x => g.start x.timestamp) ∧
      all.getLast?.map Sample.timestamp = walked.getLast?.map (fun x => g.start x.timestamp) ∧
      (all.map Sample.timestamp).IsChain (fun a b => b.toInt = a.toInt + g.stride reverse) ∧
      all.filter (fun r => ∃ x ∈ samples, g.start x.timestamp = r.timestamp) = populated ∧
      ∀ r ∈ all, (∀ x ∈ samples, g.start x.timestamp ≠ r.timestamp) → ∃ q,
        (populated.filter fun q => Grid.Before reverse q.timestamp r.timestamp).getLast? = some q ∧
        (kind ≠ .twa → r.value = kind.emptyReport q.value) := by
  intro walked
  have horder : Downsampling.firstDescent samples = none :=
    Downsampling.firstDescent_eq_none_iff.2 hasc.isChain
  have hpadded := Downsampling.padded_reports (Aggregator.passesEmpty kind) g reverse
    (Aggregator.kind_fresh kind reverse) hasc hreg
  have hstarts := Downsampling.mem_starts_reports g reverse (Aggregator.fresh kind reverse) samples
  obtain ⟨hhead, hlast⟩ := Downsampling.ends_reports ⟨g, reverse, false⟩
    (Aggregator.fresh kind reverse) samples
  refine ⟨_, _, ?_, ?_, Grid.gapWalk_gaps g reverse, ?_, ?_, hpadded.isChain,
    hpadded.filter_eq fun t => (hstarts t).symm, fun r hr hnone => ?_⟩
  · rw [downsample, Grid.make_of_pos g.alignment g.duration_pos, horder]
    rfl
  · rw [downsample, Grid.make_of_pos g.alignment g.duration_pos, horder]
    rfl
  · rw [hpadded.head?_eq]
    exact hhead
  · rw [hpadded.getLast?_eq]
    exact hlast
  · refine hpadded.fits_of_not_mem r hr fun hmem => ?_
    obtain ⟨x, hx, heq⟩ := (hstarts r.timestamp).1 (List.mem_map_of_mem hmem)
    exact hnone x hx heq

/-- Buckets of five, and samples in the first and in the last of five of them. -/
def fives : Grid := ⟨5, 2, by decide⟩

def endsOnly : List (Sample Binary64) :=
  [⟨-9, .maxFinite⟩, ⟨8, .zero true⟩, ⟨9, .minFinite⟩]

theorem downsample_emptyBuckets_endsOnly :
    (endsOnly.Pairwise fun a b => a.timestamp.toInt ≤ b.timestamp.toInt) ∧
      (∀ x ∈ endsOnly, fives.Regular x.timestamp) ∧
      ∃ all populated, downsample .last 5 2 true true endsOnly = .ok all ∧
        downsample .last 5 2 true false endsOnly = .ok populated ∧
        all.map Sample.timestamp = [7, 2, -3, -8, -13] ∧
        populated = [⟨7, .zero true⟩, ⟨-13, .maxFinite⟩] ∧
        all.filter (fun r => ∃ x ∈ endsOnly, fives.start x.timestamp = r.timestamp) = populated := by
  have hasc : endsOnly.Pairwise fun a b => a.timestamp.toInt ≤ b.timestamp.toInt := by decide
  have hreg : ∀ x ∈ endsOnly, fives.Regular x.timestamp := by
    intro x hx
    simp only [endsOnly, List.mem_cons, List.not_mem_nil, or_false] at hx
    rcases hx with rfl | rfl | rfl <;> constructor <;> decide
  obtain ⟨all, populated, hall, hpopulated, -, -, -, -, hfilter, -⟩ :=
    downsample_emptyBuckets .last fives true hasc hreg
  refine ⟨hasc, hreg, all, populated, hall, hpopulated, ?_, ?_, hfilter⟩
  · cases hall
    decide
  · cases hpopulated
    decide

end Rollup
