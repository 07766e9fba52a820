import Rollup.Aggregator.Basic
import Rollup.Bucket.Grid

/-!
# Accumulators

What a driver needs of the state of a bucket. Both drivers, the one that is fed sample by sample and
the one that is given a whole series, open a bucket by `enter`, append its samples, and close it by
`leave`; they are written for any accumulator, so what holds of them in time holds whatever is
folded.
-/

namespace Rollup

/-- A state that folds the samples of one bucket after another: values of type `α` in, reports of
type `β` out. -/
class Accumulator (σ : Type) (α β : outParam Type) where
  append : σ → Sample α → σ
  /-- What the bucket would report if it were closed as it is. -/
  report : σ → β
  /-- The state for the next bucket. -/
  reset : σ → σ
  /-- Sets the edges of the bucket, the earlier one first. -/
  setEdges : σ → Timestamp → Timestamp → σ
  /-- Takes in the last sample before the bucket. -/
  precededBy : σ → Sample α → σ
  /-- Takes in the first sample behind the bucket. -/
  followedBy : σ → Sample α → σ

namespace Accumulator

variable {σ α β : Type} [Accumulator σ α β]

/-- Opens the bucket at `start` on a state that was reset. -/
def enter (g : Grid) (s : σ) (start : Timestamp) (last : Option (Sample α)) : σ :=
  let seeded := match last with
    | some sample => precededBy s sample
    | none => s
  setEdges seeded start (g.finish start)

/-- Closes the bucket at `start` because of the sample that comes next: its report, and the state
for the bucket after it. -/
def leave (s : σ) (start : Timestamp) (next : Sample α) : Sample β × σ :=
  let closed := followedBy s next
  (⟨start, report closed⟩, reset closed)

end Accumulator

instance : Accumulator Aggregator Binary64 Binary64 where
  append := Aggregator.append
  report := Aggregator.report
  reset := Aggregator.reset
  setEdges := Aggregator.setEdges
  precededBy := Aggregator.precededBy
  followedBy := Aggregator.followedBy

/-- The time-weighted average over any numbers; it reports `none` where nothing is covered. -/
instance {α : Type} [Add α] [Sub α] [Mul α] [Div α] [IntCast α] :
    Accumulator (TimeWeighted α) α (Option α) where
  append := TimeWeighted.append
  report := TimeWeighted.result?
  reset := TimeWeighted.reset
  setEdges := TimeWeighted.setEdges
  precededBy := TimeWeighted.precededBy
  followedBy := TimeWeighted.followedBy

end Rollup
