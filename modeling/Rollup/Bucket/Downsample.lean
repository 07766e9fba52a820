import Rollup.Bucket.Accumulator

/-!
# Downsampling

Compacts a whole series at once, from the oldest sample to the newest or the other way round. Each
bucket reports once, in the order the samples are walked. On request the buckets between two
populated ones report as well, each closed by the same sample that closes the one before it.
-/

namespace Rollup

/-- How a series is walked. -/
structure Downsampling where
  grid : Grid
  /-- From the newest sample to the oldest. -/
  reverse : Bool
  /-- Buckets without samples report too. -/
  emptyBuckets : Bool

namespace Downsampling

variable {σ α β : Type} [Accumulator σ α β]

/-- Opens and closes the empty buckets at the given starts, all of them between the samples `last`
and `next`. -/
def reportEmpty (d : Downsampling) (last next : Sample α) (s : σ) :
    List Timestamp → List (Sample β) × σ
  | [] => ([], s)
  | start :: starts =>
    let entered := Accumulator.enter d.grid s start (some last)
    let (closed, after) := Accumulator.leave entered start next
    let (reports, final) := d.reportEmpty last next after starts
    (closed :: reports, final)

/-- Walks the samples behind `last`, whose bucket starts at `start` and is open in the state `s`. -/
def walk (d : Downsampling) (s : σ) (start : Timestamp) (last : Sample α) :
    List (Sample α) → List (Sample β)
  | [] => [⟨start, Accumulator.report s⟩]
  | sample :: rest =>
    let next := d.grid.start sample.timestamp
    if start = next then d.walk (Accumulator.append s sample) start sample rest
    else
      let (closed, after) := Accumulator.leave s start sample
      let between := if d.emptyBuckets then d.grid.gaps d.reverse start next else []
      -- The last sample before the gap seeds every bucket in it, and `sample` closes them all.
      let (reports, final) := d.reportEmpty last sample after between
      let entered := Accumulator.enter d.grid final next (some last)
      closed :: reports ++ d.walk (Accumulator.append entered sample) next sample rest

/-- The reports of all buckets, in the order of the walk. -/
def reports (d : Downsampling) (s : σ) (samples : List (Sample α)) : List (Sample β) :=
  match if d.reverse then samples.reverse else samples with
  | [] => []
  | sample :: rest =>
    let start := d.grid.start sample.timestamp
    d.walk (Accumulator.append (Accumulator.enter d.grid s start none) sample) start sample rest

/-- The first sample that is earlier than the one before it, after that one. -/
def firstDescent {α : Type} : List (Sample α) → Option (Sample α × Sample α)
  | a :: b :: rest => if b.timestamp < a.timestamp then some (a, b) else firstDescent (b :: rest)
  | _ => none

end Downsampling

/-- Compacts a series for an aggregation. The duration has to be positive, and the samples in order.
-/
def downsample (kind : Aggregation) (duration alignment : Timestamp) (reverse emptyBuckets : Bool)
    (samples : List (Sample Binary64)) : Except Fault (List (Sample Binary64)) := do
  let grid ← Grid.make duration alignment
  match Downsampling.firstDescent samples with
  | some (last, sample) => throw (.outOfOrder sample.timestamp last.timestamp)
  | none =>
    let d : Downsampling := ⟨grid, reverse, emptyBuckets⟩
    return d.reports (Aggregator.fresh kind reverse) samples

end Rollup
