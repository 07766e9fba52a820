import Rollup.Bucket.Downsample
import Rollup.Bucket.Rule

/-!
# Batch and stream agree

A rule that is fed a whole series and flushed at its end reports what downsampling reports of the
same series, forwards and without empty buckets, and refuses what downsampling refuses
(`downsample_eq_compact`). Both drivers hold the same three things between two samples: the state of
the open bucket, its start, and the last sample. `pushAll_eq_walk` says that from there on they do
the same, whatever is folded.
-/

namespace Rollup

namespace Rule

variable {σ α β : Type} [Accumulator σ α β]

theorem lastSample_accept (r : Rule σ α) (sample : Sample α) :
    (r.accept (β := β) sample).2.lastSample = some sample := by
  unfold accept
  dsimp only
  split
  · rfl
  · split
    · rfl
    · rfl

/-- A rule in the middle of a series: `s` is the state of the bucket open at `start`. -/
def running (g : Grid) (s : σ) (start : Timestamp) (last : Sample α) : Rule σ α :=
  ⟨g, s, some start, some last⟩

/-- Fed with samples in order, a running rule reports what the walk reports from the same place. -/
theorem pushAll_eq_walk (g : Grid) (s : σ) (start : Timestamp) (last : Sample α)
    (rest : List (Sample α)) (hasc : Downsampling.firstDescent (last :: rest) = none) :
    ∃ reports final, (running g s start last).pushAll rest = (reports, final, none) ∧
      reports ++ final.flush.toList = Downsampling.walk ⟨g, false, false⟩ s start last rest := by
  induction rest generalizing s start last with
  | nil => exact ⟨[], running g s start last, rfl, rfl⟩
  | cons sample rest ih =>
    rw [Downsampling.firstDescent] at hasc
    have hle : ¬sample.timestamp < last.timestamp := by
      intro hlt
      rw [if_pos hlt] at hasc
      exact absurd hasc (by simp)
    rw [if_neg hle] at hasc
    rw [pushAll, push, Downsampling.walk]
    dsimp only [running]
    rw [if_neg hle]
    unfold accept
    dsimp only
    by_cases hsame : start = g.start sample.timestamp
    · -- the bucket goes on
      rw [if_pos hsame, if_pos hsame]
      obtain ⟨reports, final, hpush, hwalk⟩ := ih (Accumulator.append s sample) start sample hasc
      refine ⟨reports, final, ?_, hwalk⟩
      dsimp only [running] at hpush ⊢
      rw [hpush]
      rfl
    · -- the sample closes the bucket and opens its own; `last` seeds it in both drivers
      rw [if_neg hsame, if_neg hsame]
      obtain ⟨reports, final, hpush, hwalk⟩ :=
        ih (Accumulator.append (Accumulator.enter g (Accumulator.leave s start sample).2
          (g.start sample.timestamp) (some last)) sample) (g.start sample.timestamp) sample hasc
      refine ⟨(Accumulator.leave s start sample).1 :: reports, final, ?_, ?_⟩
      · dsimp only [running, openWith] at hpush ⊢
        rw [hpush]
        rfl
      · rw [List.cons_append, hwalk]
        rfl

/-- Fed with samples out of order, a rule stops at the first that is earlier than the one before. -/
theorem pushAll_of_descent (r : Rule σ α) {last : Sample α} (hlast : r.lastSample = some last)
    (rest : List (Sample α)) {a b : Sample α}
    (hdesc : Downsampling.firstDescent (last :: rest) = some (a, b)) :
    ∃ reports final, r.pushAll (β := β) rest
      = (reports, final, some (.outOfOrder b.timestamp a.timestamp)) := by
  induction rest generalizing r last with
  | nil => exact absurd hdesc (by simp [Downsampling.firstDescent])
  | cons sample rest ih =>
    rw [Downsampling.firstDescent] at hdesc
    rw [pushAll, push, hlast]
    dsimp only
    by_cases hlt : sample.timestamp < last.timestamp
    · rw [if_pos hlt] at hdesc ⊢
      obtain ⟨rfl, rfl⟩ := Prod.mk.inj (Option.some.inj hdesc)
      exact ⟨[], r, rfl⟩
    · rw [if_neg hlt] at hdesc ⊢
      obtain ⟨reports, final, hpush⟩ := ih (r.accept sample).2 (lastSample_accept r sample) hdesc
      refine ⟨(r.accept sample).1.toList ++ reports, final, ?_⟩
      dsimp only
      rw [hpush]

theorem pushAll_start (g : Grid) (fresh : σ) (samples : List (Sample α))
    (hasc : Downsampling.firstDescent samples = none) :
    ∃ reports final, (start g fresh : Rule σ α).pushAll samples = (reports, final, none) ∧
      reports ++ final.flush.toList = Downsampling.reports ⟨g, false, false⟩ fresh samples := by
  cases samples with
  | nil => exact ⟨[], start g fresh, rfl, rfl⟩
  | cons sample rest =>
    obtain ⟨reports, final, hpush, hwalk⟩ := pushAll_eq_walk g
      (Accumulator.append (Accumulator.enter g fresh (g.start sample.timestamp) none) sample)
      (g.start sample.timestamp) sample rest hasc
    refine ⟨reports, final, ?_, hwalk⟩
    rw [pushAll, push]
    dsimp only [start, accept, openWith, running] at hpush ⊢
    rw [hpush]
    rfl

theorem pushAll_start_of_descent (g : Grid) (fresh : σ) (samples : List (Sample α))
    {a b : Sample α} (hdesc : Downsampling.firstDescent samples = some (a, b)) :
    ∃ reports final, (start g fresh : Rule σ α).pushAll (β := β) samples
      = (reports, final, some (.outOfOrder b.timestamp a.timestamp)) := by
  cases samples with
  | nil => exact absurd hdesc (by simp [Downsampling.firstDescent])
  | cons sample rest =>
    obtain ⟨reports, final, hpush⟩ := pushAll_of_descent
      ((start g fresh).accept sample).2 (lastSample_accept _ sample) rest hdesc
    refine ⟨((start g fresh).accept sample).1.toList ++ reports, final, ?_⟩
    rw [pushAll, push]
    dsimp only [start] at hpush ⊢
    rw [hpush]

end Rule

/-- The reports of a new rule that is fed a whole series and flushed at its end, or the refusal. -/
def CompactionRule.compact (kind : Aggregation) (duration alignment : Timestamp)
    (samples : List (Sample Binary64)) : Except Fault (List (Sample Binary64)) := do
  let rule ← CompactionRule.make kind duration alignment
  match rule.pushAll samples with
  | (reports, final, none) => return reports ++ final.flush.toList
  | (_, _, some fault) => throw fault

theorem Grid.make_of_pos {duration : Timestamp} (alignment : Timestamp)
    (h : 0 < duration.toInt) : Grid.make duration alignment = .ok ⟨duration, alignment, h⟩ :=
  dif_pos h

theorem Grid.make_of_not_pos {duration : Timestamp} (alignment : Timestamp)
    (h : ¬0 < duration.toInt) :
    Grid.make duration alignment = .error (.invalidRule (.durationNotPositive duration)) :=
  dif_neg h

/-- The rules are those of the grids. -/
theorem CompactionRule.make_of_grid (kind : Aggregation) (g : Grid) :
    CompactionRule.make kind g.duration g.alignment = .ok (.start g (.fresh kind false)) := by
  rw [CompactionRule.make, Grid.make_of_pos g.alignment g.duration_pos]
  rfl

/-- The outcome of a series on buckets of a positive duration: the reports, or the refusal of the
first sample that is out of order. -/
def Grid.outcome (g : Grid) (kind : Aggregation) (samples : List (Sample Binary64)) :
    Except Fault (List (Sample Binary64)) :=
  match Downsampling.firstDescent samples with
  | some (last, sample) => .error (.outOfOrder sample.timestamp last.timestamp)
  | none => .ok (Downsampling.reports ⟨g, false, false⟩ (Aggregator.fresh kind false) samples)

theorem downsample_of_pos (kind : Aggregation) {duration : Timestamp} (alignment : Timestamp)
    (h : 0 < duration.toInt) (samples : List (Sample Binary64)) :
    downsample kind duration alignment false false samples
      = Grid.outcome ⟨duration, alignment, h⟩ kind samples := by
  unfold downsample Grid.outcome
  rw [Grid.make_of_pos alignment h]
  dsimp only [bind, Except.bind]
  cases Downsampling.firstDescent samples with
  | none => rfl
  | some pair => rfl

theorem compact_of_pos (kind : Aggregation) {duration : Timestamp} (alignment : Timestamp)
    (h : 0 < duration.toInt) (samples : List (Sample Binary64)) :
    CompactionRule.compact kind duration alignment samples
      = Grid.outcome ⟨duration, alignment, h⟩ kind samples := by
  unfold CompactionRule.compact CompactionRule.make Grid.outcome
  rw [Grid.make_of_pos alignment h]
  dsimp only [bind, Except.bind, Except.map]
  cases hdesc : Downsampling.firstDescent samples with
  | none =>
    obtain ⟨reports, final, hpush, hwalk⟩ := Rule.pushAll_start ⟨duration, alignment, h⟩
      (Aggregator.fresh kind false) samples hdesc
    rw [hpush, ← hwalk]
    rfl
  | some pair =>
    obtain ⟨reports, final, hpush⟩ := Rule.pushAll_start_of_descent ⟨duration, alignment, h⟩
      (Aggregator.fresh kind false) samples hdesc
    rw [hpush]
    rfl

theorem outcome_eq_error_iff (g : Grid) (kind : Aggregation) (samples : List (Sample Binary64))
    (fault : Fault) :
    g.outcome kind samples = .error fault ↔ ∃ last sample,
      Downsampling.firstDescent samples = some (last, sample) ∧
      fault = .outOfOrder sample.timestamp last.timestamp := by
  unfold Grid.outcome
  cases Downsampling.firstDescent samples with
  | none => simp
  | some pair =>
    obtain ⟨last, sample⟩ := pair
    constructor
    · intro h
      exact ⟨last, sample, rfl, (Except.error.inj h).symm⟩
    · rintro ⟨_, _, heq, rfl⟩
      cases heq
      rfl

/-- **The batch driver and the streaming driver agree.** They give the same reports bit for bit or
the same fault, which is that of the duration or else that of the first descent. -/
theorem downsample_eq_compact (kind : Aggregation) (duration alignment : Timestamp)
    (samples : List (Sample Binary64)) :
    downsample kind duration alignment false false samples
        = CompactionRule.compact kind duration alignment samples ∧
      ∀ fault, downsample kind duration alignment false false samples = .error fault ↔
        (duration.toInt ≤ 0 ∧ fault = .invalidRule (.durationNotPositive duration)) ∨
        (0 < duration.toInt ∧ ∃ last sample,
          Downsampling.firstDescent samples = some (last, sample) ∧
          fault = .outOfOrder sample.timestamp last.timestamp) := by
  by_cases hpos : 0 < duration.toInt
  · rw [downsample_of_pos kind alignment hpos, compact_of_pos kind alignment hpos]
    refine ⟨rfl, fun fault => ?_⟩
    have hnot : ¬duration.toInt ≤ 0 := by omega
    rw [outcome_eq_error_iff]
    simp only [hnot, hpos, false_and, true_and, false_or]
  · -- neither driver looks at the samples
    have hbatch : downsample kind duration alignment false false samples
        = .error (.invalidRule (.durationNotPositive duration)) := by
      rw [downsample, Grid.make_of_not_pos alignment hpos]
      rfl
    have hstream : CompactionRule.compact kind duration alignment samples
        = .error (.invalidRule (.durationNotPositive duration)) := by
      rw [CompactionRule.compact, CompactionRule.make, Grid.make_of_not_pos alignment hpos]
      rfl
    rw [hbatch, hstream]
    refine ⟨rfl, fun fault => ?_⟩
    have hle : duration.toInt ≤ 0 := by omega
    simp only [hle, hpos, true_and, false_and, or_false, Except.error.injEq, eq_comm]

end Rollup
