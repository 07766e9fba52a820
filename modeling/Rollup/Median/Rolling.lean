import Rollup.Median.Tracker
import Rollup.Timestamp

/-!
# Median over a time window

The samples of the window are kept in the order they came, and their values in a median tracker.
Each new sample moves the window: samples that are now too old leave the queue from the front, and
their values the tracker.
-/

namespace Rollup

/-- The samples no older than `window` before the newest one, and their median. -/
structure RollingMedian where
  window : Int64
  tracker : MedianTracker
  /-- Oldest first. -/
  samples : List (Sample Binary64)

namespace RollingMedian

def empty (window : Int64) : RollingMedian := ⟨window, .empty, []⟩

def median (r : RollingMedian) : Binary64 := r.tracker.median

def size (r : RollingMedian) : Nat := r.samples.length

/-- The window after one more sample. Only the front of the queue is looked at, so a sample behind a
newer one stays as long as that one does. -/
def push (r : RollingMedian) (sample : Sample Binary64) : RollingMedian :=
  let start := Timestamp.saturatingSub sample.timestamp r.window
  let queue := r.samples ++ [sample]
  -- The new sample is never among the expired ones unless the window is negative.
  let expired := queue.takeWhile (fun s => decide (s.timestamp < start))
  { r with
    tracker := expired.foldl (fun t s => t.erase s.value) (r.tracker.insert sample.value)
    samples := queue.drop expired.length }

/-- The medians after each of the samples, at their timestamps, and the window after the last one.
-/
def pushAll (r : RollingMedian) : List (Sample Binary64) → List (Sample Binary64) × RollingMedian
  | [] => ([], r)
  | sample :: rest =>
    let r := r.push sample
    let (medians, last) := r.pushAll rest
    (⟨sample.timestamp, r.median⟩ :: medians, last)

end RollingMedian
end Rollup
