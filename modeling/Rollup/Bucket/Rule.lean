import Rollup.Bucket.Accumulator

/-!
# Rules

A rule compacts one series as it comes in. It holds the state of the open bucket and the last
accepted sample; a sample of a later bucket closes the open one and opens its own. Buckets that no
sample falls into are never opened.
-/

namespace Rollup

/-- The compaction of a series of `α` in progress, with `σ` as the state of the open bucket. -/
structure Rule (σ α : Type) where
  grid : Grid
  accumulator : σ
  /-- The start of the open bucket. -/
  openBucket : Option Timestamp
  lastSample : Option (Sample α)

namespace Rule

variable {σ α β : Type} [Accumulator σ α β]

def start (grid : Grid) (accumulator : σ) : Rule σ α := ⟨grid, accumulator, none, none⟩

/-- What the open bucket would report if it were closed as it is. -/
def flush (r : Rule σ α) : Option (Sample β) :=
  r.openBucket.map fun start => ⟨start, Accumulator.report r.accumulator⟩

/-- Opens the bucket at `start` with its first sample. -/
def openWith (r : Rule σ α) (accumulator : σ) (start : Timestamp) (sample : Sample α) : Rule σ α :=
  let entered := Accumulator.enter r.grid accumulator start r.lastSample
  { r with
    accumulator := Accumulator.append entered sample
    openBucket := some start
    lastSample := some sample }

/-- Takes a sample that is in order: the report of the bucket it closes, if it closes one. -/
def accept (r : Rule σ α) (sample : Sample α) : Option (Sample β) × Rule σ α :=
  let start := r.grid.start sample.timestamp
  match r.openBucket with
  | none => (none, r.openWith r.accumulator start sample)
  | some bucket =>
    if bucket = start then
      (none, { r with
        accumulator := Accumulator.append r.accumulator sample
        lastSample := some sample })
    else
      let (closed, next) := Accumulator.leave r.accumulator bucket sample
      (some closed, r.openWith next start sample)

/-- Takes a sample, unless it is earlier than the last one. -/
def push (r : Rule σ α) (sample : Sample α) : Except Fault (Option (Sample β) × Rule σ α) :=
  match r.lastSample with
  | some last =>
    if sample.timestamp < last.timestamp then .error (.outOfOrder sample.timestamp last.timestamp)
    else .ok (r.accept sample)
  | none => .ok (r.accept sample)

/-- Takes samples up to the first that is refused: the reports of the buckets they close, the rule
after them, and the refusal if there was one. -/
def pushAll (r : Rule σ α) : List (Sample α) → List (Sample β) × Rule σ α × Option Fault
  | [] => ([], r, none)
  | sample :: rest =>
    match r.push sample with
    | .error fault => ([], r, some fault)
    | .ok (closed, next) =>
      let (reports, last, fault) := next.pushAll rest
      (closed.toList ++ reports, last, fault)

end Rule

/-- The rules that are stored: the state is an aggregator. -/
abbrev CompactionRule := Rule Aggregator Binary64

/-- A rule for an aggregation; the duration of its buckets has to be positive. -/
def CompactionRule.make (kind : Aggregation) (duration alignment : Timestamp) :
    Except Fault CompactionRule :=
  (Grid.make duration alignment).map fun grid => .start grid (.fresh kind false)

end Rollup
