import Rollup.Aggregator.Basic
import Rollup.Bucket.Accumulator

/-!
# Counts

Averages, moments and time-weighted averages count their samples, and nothing but a sample or a
reset changes the count.
-/

namespace Rollup

@[simp] theorem Mean.count_append (s : Mean Binary64) (value : Binary64) :
    (s.append value).count = s.count + 1 := by
  unfold append step
  dsimp only
  split
  · rfl
  · split <;> rfl

@[simp] theorem Moments.count_append (s : Moments Binary64) (value : Binary64) :
    (s.append value).count = s.count + 1 := rfl

namespace TimeWeighted

variable {α : Type}

@[simp] theorem count_append [Add α] [Sub α] [Mul α] [Div α] [IntCast α] (s : TimeWeighted α)
    (sample : Sample α) : (s.append sample).count = s.count + 1 := rfl

@[simp] theorem count_setEdges (s : TimeWeighted α) (low high : Timestamp) :
    (s.setEdges low high).count = s.count := by
  unfold setEdges
  split <;> rfl

@[simp] theorem count_precededBy (s : TimeWeighted α) (sample : Sample α) :
    (s.precededBy sample).count = s.count := rfl

end TimeWeighted

namespace Aggregator

/-- The number of samples that the state counts; zero if it counts none. -/
def count : Aggregator → Nat
  | mean state => state.count
  | spread _ state => state.count
  | timeWeighted state => state.count
  | _ => 0

theorem count_fresh (kind : Aggregation) (reverse : Bool) : (fresh kind reverse).count = 0 := by
  cases kind <;> rfl

theorem count_reset (s : Aggregator) : s.reset.count = 0 := by
  cases s with
  | tally fold state => cases fold <;> rfl
  | extreme report state => cases report <;> rfl
  | first state => rfl
  | mean state => rfl
  | spread report state => cases report <;> rfl
  | timeWeighted state => rfl

theorem count_append_le (s : Aggregator) (sample : Sample Binary64) :
    (s.append sample).count ≤ s.count + 1 := by
  cases s with
  | tally fold state => cases fold <;> exact Nat.zero_le _
  | extreme report state => exact Nat.zero_le _
  | first state => exact Nat.zero_le _
  | mean state => exact Nat.le_of_eq (state.count_append sample.value)
  | spread report state => exact Nat.le_of_eq (state.count_append sample.value)
  | timeWeighted state => exact Nat.le_of_eq (state.count_append sample)

theorem count_enter (g : Grid) (s : Aggregator) (start : Timestamp)
    (last : Option (Sample Binary64)) : (Accumulator.enter g s start last).count = s.count := by
  cases s with
  | timeWeighted state =>
    cases last with
    | none => exact state.count_setEdges start (g.finish start)
    | some sample =>
      exact ((state.precededBy sample).count_setEdges start (g.finish start)).trans
        (state.count_precededBy sample)
  | _ => cases last <;> rfl

end Aggregator
end Rollup
