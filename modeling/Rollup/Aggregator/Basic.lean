import Rollup.Aggregator.Bounds
import Rollup.Aggregator.Mean
import Rollup.Aggregator.Moments
import Rollup.Aggregator.Single
import Rollup.Aggregator.TimeWeighted

/-!
# Aggregators

The running state of one bucket for each of the thirteen aggregations. Aggregations that differ only
in what they report share a state: min, max and range keep bounds, the variances and deviations keep
moments. The bucket hooks (`setEdges`, `precededBy`, `followedBy`) concern the time-weighted average
alone; all others ignore them.
-/

namespace Rollup

/-- How single numbers are folded. -/
inductive Tally where
  | sum | count | last
deriving DecidableEq, Repr

/-- What is reported of bounds. -/
inductive Extreme where
  | min | max | range
deriving DecidableEq, Repr

/-- What is reported of moments: the variance or its root, over the values as a population or as a
sample. -/
inductive Spread where
  | varP | varS | stdP | stdS
deriving DecidableEq, Repr

/-- The running state of a bucket. -/
inductive Aggregator where
  | tally (fold : Tally) (state : Single)
  | extreme (report : Extreme) (state : Bounds)
  | first (state : First)
  | mean (state : Mean Binary64)
  | spread (report : Spread) (state : Moments Binary64)
  | timeWeighted (state : TimeWeighted Binary64)
deriving DecidableEq

namespace Aggregator

def kind : Aggregator → Aggregation
  | tally .sum _ => .sum
  | tally .count _ => .count
  | tally .last _ => .last
  | extreme .min _ => .min
  | extreme .max _ => .max
  | extreme .range _ => .range
  | first _ => .first
  | mean _ => .avg
  | spread .varP _ => .varP
  | spread .varS _ => .varS
  | spread .stdP _ => .stdP
  | spread .stdS _ => .stdS
  | timeWeighted _ => .twa

/-- The state of a bucket before its first sample. `reverse` tells a time-weighted average that
samples come in descending order of time. -/
def fresh (kind : Aggregation) (reverse : Bool) : Aggregator :=
  match kind with
  | .sum => tally .sum ⟨.zero false⟩
  | .count => tally .count ⟨.zero false⟩
  | .last => tally .last ⟨.nan⟩
  | .min => extreme .min .fresh
  | .max => extreme .max .fresh
  | .range => extreme .range .fresh
  | .first => first .fresh
  | .avg => mean .fresh
  | .varP => spread .varP .fresh
  | .varS => spread .varS .fresh
  | .stdP => spread .stdP .fresh
  | .stdS => spread .stdS .fresh
  | .twa => timeWeighted (.fresh reverse)

/-! ### Samples -/

def append (s : Aggregator) (sample : Sample Binary64) : Aggregator :=
  match s with
  | tally .sum state => tally .sum ⟨state.value + sample.value⟩
  | tally .count state => tally .count ⟨state.value + ((1 : Int) : Binary64)⟩
  | tally .last _ => tally .last ⟨sample.value⟩
  | extreme report state => extreme report (state.append sample.value)
  | first state => first (state.append sample.value)
  | mean state => mean (state.append sample.value)
  | spread report state => spread report (state.append sample.value)
  | timeWeighted state => timeWeighted (state.append sample)

/-- The state after a run of values without timestamps, which a time-weighted average cannot take.
-/
def appendAll (s : Aggregator) (values : List Binary64) : Except Fault Aggregator :=
  match s with
  | timeWeighted _ => .error (.unsupportedOperation .valuesWithoutTimestamps)
  -- The number of values is rounded once, not one by one.
  | tally .count state => .ok (tally .count ⟨state.value + ((values.length : Int) : Binary64)⟩)
  | tally .last state => .ok (tally .last ⟨values.getLast?.getD state.value⟩)
  | extreme report state => .ok (extreme report (state.appendAll values))
  | s => .ok (values.foldl (fun s value => s.append ⟨0, value⟩) s)

/-! ### Results -/

/-- The result of the bucket. Averages, variances and deviations have none without samples. -/
def result (s : Aggregator) : Except Fault Binary64 :=
  let orEmpty : Option Binary64 → Except Fault Binary64
    | some x => .ok x
    | none => .error (.emptyAggregate s.kind)
  match s with
  | tally _ state => .ok state.value
  | extreme .min state => .ok state.min
  | extreme .max state => .ok state.max
  | extreme .range state => .ok state.range
  | first state => .ok state.result
  | mean state => orEmpty state.result?
  | spread .varP state => orEmpty state.population?
  | spread .varS state => orEmpty state.sample?
  | spread .stdP state => orEmpty (state.population?.map Binary64.sqrt)
  | spread .stdS state => orEmpty (state.sample?.map Binary64.sqrt)
  | timeWeighted state => .ok (state.result?.getD .nan)

/-- What is reported of a bucket without samples: zero for sum and count, the value carried over for
last, a NaN for all others. -/
def emptyValue : Aggregator → Binary64
  | tally .sum _ | tally .count _ => .zero false
  | tally .last state => state.value
  | _ => .nan

/-- The result of the bucket, or what is reported of an empty one. -/
def report (s : Aggregator) : Binary64 :=
  match s.result with
  | .ok x => x
  | .error _ => s.emptyValue

/-- The state for the next bucket: a fresh one, but last keeps its value to report it while there is
no other, and the time-weighted average its direction. -/
def reset (s : Aggregator) : Aggregator :=
  match s with
  | tally .last state => tally .last state
  | timeWeighted state => timeWeighted state.reset
  | s => fresh s.kind false

/-! ### Bucket hooks -/

def setEdges (s : Aggregator) (low high : Timestamp) : Aggregator :=
  match s with
  | timeWeighted state => timeWeighted (state.setEdges low high)
  | s => s

def precededBy (s : Aggregator) (sample : Sample Binary64) : Aggregator :=
  match s with
  | timeWeighted state => timeWeighted (state.precededBy sample)
  | s => s

def followedBy (s : Aggregator) (sample : Sample Binary64) : Aggregator :=
  match s with
  | timeWeighted state => timeWeighted (state.followedBy sample)
  | s => s

/-- The last sample that a time-weighted average has seen. -/
def lastSample? : Aggregator → Option (Sample Binary64)
  | timeWeighted state => state.lastSample?
  | _ => none

/-! ### Comparison by number -/

/-- Equal kinds and equal fields, where doubles are equal as numbers: a state that holds a NaN
differs from every state, itself included. -/
def numEq : Aggregator → Aggregator → Bool
  | tally f a, tally g b => f == g && a.value.numEq b.value
  | extreme f a, extreme g b => f == g && a.least.numEq b.least && a.greatest.numEq b.greatest
  | first a, first b => a.value.numEq b.value && a.isUnset == b.isUnset
  | mean a, mean b => a.total.numEq b.total && a.count == b.count && a.isMean == b.isMean
  | spread f a, spread g b =>
    f == g && a.sum.numEq b.sum && a.sumOfSquares.numEq b.sumOfSquares && a.count == b.count
  | timeWeighted a, timeWeighted b =>
    a.area.numEq b.area && a.lastTime == b.lastTime && a.lastValue.numEq b.lastValue
      && a.startEdge == b.startEdge && a.closingEdge == b.closingEdge
      && a.coveredFrom == b.coveredFrom && a.coveredTo == b.coveredTo
      && a.isFirstBucket == b.isFirstBucket && a.count == b.count && a.reverse == b.reverse
  | _, _ => false

/-! ### Laws -/

@[simp] theorem kind_fresh (kind : Aggregation) (reverse : Bool) :
    (fresh kind reverse).kind = kind := by
  cases kind <;> rfl

@[simp] theorem kind_append (s : Aggregator) (sample : Sample Binary64) :
    (s.append sample).kind = s.kind := by
  rcases s with ⟨f, _⟩ | ⟨f, _⟩ | _ | _ | ⟨f, _⟩ | _ <;> try cases f
  all_goals simp [append, kind]

@[simp] theorem kind_reset (s : Aggregator) : s.reset.kind = s.kind := by
  rcases s with ⟨f, _⟩ | ⟨f, _⟩ | _ | _ | ⟨f, _⟩ | _ <;> try cases f
  all_goals simp [reset, kind, fresh]

@[simp] theorem kind_setEdges (s : Aggregator) (low high : Timestamp) :
    (s.setEdges low high).kind = s.kind := by
  cases s <;> rfl

@[simp] theorem kind_precededBy (s : Aggregator) (sample : Sample Binary64) :
    (s.precededBy sample).kind = s.kind := by
  cases s <;> rfl

@[simp] theorem kind_followedBy (s : Aggregator) (sample : Sample Binary64) :
    (s.followedBy sample).kind = s.kind := by
  cases s <;> rfl

end Aggregator
end Rollup
