import Rollup.Binary64.Arithmetic
import Rollup.Encoding.Persistent

/-!
# Time-weighted average

The signal is the piecewise linear line through the samples, and the average of a bucket is the area
under it divided by the time it covers. The area is assembled from trapezoids:

* between consecutive samples of the bucket;
* from the starting edge to the first sample, where the line comes from the last sample before the
  bucket;
* from the last sample to the closing edge, where the line goes to the first sample behind the
  bucket;
* over the whole bucket, if it has no samples of its own.

Samples come in ascending or in descending order of time. In the latter case the edges swap: the
starting edge is the later one. Widths are distances, so the formulas are the same for both. The
state is generic in its numbers.
-/

namespace Rollup

/-- The area of one bucket so far. -/
structure TimeWeighted (α : Type) where
  area : α
  /-- The last sample, of this bucket or of the one before it. -/
  lastTime : Timestamp
  lastValue : α
  /-- The edge that the samples come in from. -/
  startEdge : Timestamp
  /-- The edge that the samples leave by. -/
  closingEdge : Timestamp
  /-- The ends of the time covered. -/
  coveredFrom : Timestamp
  coveredTo : Timestamp
  /-- No sample precedes the bucket. -/
  isFirstBucket : Bool
  count : Nat
  /-- Samples come in descending order of time. -/
  reverse : Bool
deriving DecidableEq

namespace TimeWeighted

variable {α : Type} [Add α] [Sub α] [Mul α] [Div α] [IntCast α]

/-- The value at time `t` of the line through `(t₁, v₁)` and `(t₂, v₂)`; of a vertical line, `v₂`.
-/
def interpolate (t₁ : Timestamp) (v₁ : α) (t₂ : Timestamp) (v₂ : α) (t : Timestamp) : α :=
  if t₁ = t₂ then v₂
  else
    let span := (t₂.toInt : α) - (t₁.toInt : α)
    v₁ + (v₂ - v₁) * (((t.toInt : α) - (t₁.toInt : α)) / span)

/-- The area under the line between two points. -/
def trapezoid (v₁ : α) (t₁ : Timestamp) (v₂ : α) (t₂ : Timestamp) : α :=
  (v₁ + v₂) / ((2 : Int) : α) * ((Timestamp.distance t₁ t₂ : Int) : α)

def fresh (reverse : Bool) : TimeWeighted α :=
  { area := ((0 : Int) : α)
    lastTime := 0
    lastValue := ((0 : Int) : α)
    startEdge := 0
    closingEdge := 0
    coveredFrom := 0
    coveredTo := 0
    isFirstBucket := true
    count := 0
    reverse }

/-- A fresh state for the same direction. -/
def reset (s : TimeWeighted α) : TimeWeighted α := fresh s.reverse

/-- The state for a bucket from `low` to `high`. -/
def setEdges (s : TimeWeighted α) (low high : Timestamp) : TimeWeighted α :=
  if s.reverse then { s with startEdge := high, closingEdge := low }
  else { s with startEdge := low, closingEdge := high }

/-- The state for a bucket that the given sample precedes. -/
def precededBy (s : TimeWeighted α) (sample : Sample α) : TimeWeighted α :=
  { s with lastValue := sample.value, lastTime := sample.timestamp, isFirstBucket := false }

def append (s : TimeWeighted α) (sample : Sample α) : TimeWeighted α :=
  let time := sample.timestamp
  let value := sample.value
  let extended :=
    if s.count = 0 then
      -- No line leads to the first sample of a series.
      if s.isFirstBucket then { s with coveredFrom := time }
      else
        let atStart := interpolate s.lastTime s.lastValue time value s.startEdge
        { s with
          area := s.area + trapezoid atStart s.startEdge value time
          coveredFrom := s.startEdge }
    else { s with area := s.area + trapezoid s.lastValue s.lastTime value time }
  { extended with lastTime := time, lastValue := value, coveredTo := time, count := s.count + 1 }

/-- The state of a bucket that the given sample follows: the line to it covers the rest of the
bucket. -/
def followedBy (s : TimeWeighted α) (sample : Sample α) : TimeWeighted α :=
  let lineAt := interpolate s.lastTime s.lastValue sample.timestamp sample.value
  if s.count = 0 then
    if s.isFirstBucket then s
    else
      -- One line passes over the whole bucket.
      let atStart := lineAt s.startEdge
      { s with
        area := s.area + trapezoid atStart s.startEdge (lineAt s.closingEdge) s.closingEdge
        coveredFrom := s.startEdge
        coveredTo := s.closingEdge
        lastValue := if s.startEdge = s.closingEdge then atStart else s.lastValue }
  else
    { s with
      area := s.area + trapezoid s.lastValue s.lastTime (lineAt s.closingEdge) s.closingEdge
      coveredTo := s.closingEdge }

/-- The last sample, of this bucket or of the one before it. -/
def lastSample? (s : TimeWeighted α) : Option (Sample α) :=
  if s.count = 0 ∧ s.isFirstBucket then none else some ⟨s.lastTime, s.lastValue⟩

/-- Nothing is covered yet. -/
def isEmpty (s : TimeWeighted α) : Bool := decide (s.count = 0 ∧ s.coveredFrom = s.coveredTo)

/-- The average over the time covered; if that is a single instant, the value there; `none` of
nothing. -/
def result? (s : TimeWeighted α) : Option α :=
  if s.isEmpty then none
  else if s.coveredFrom = s.coveredTo then some s.lastValue
  else some (s.area / ((Timestamp.distance s.coveredFrom s.coveredTo : Int) : α))

instance : Persistent (TimeWeighted Binary64) where
  fields s :=
    [.double s.area, .signed s.lastTime, .double s.lastValue, .signed s.startEdge,
      .signed s.closingEdge, .signed s.coveredFrom, .signed s.coveredTo, .flag s.isFirstBucket,
      .unsigned (UInt64.ofNat s.count), .flag s.reverse]
  load _ := do
    let area ← Reader.double
    let lastTime ← Reader.signed
    let lastValue ← Reader.double
    let startEdge ← Reader.signed
    let closingEdge ← Reader.signed
    let coveredFrom ← Reader.signed
    let coveredTo ← Reader.signed
    let isFirstBucket ← Reader.flag
    let count ← Reader.unsigned
    let reverse ← Reader.flag
    return { area, lastTime, lastValue, startEdge, closingEdge, coveredFrom, coveredTo
             isFirstBucket, count := count.toNat, reverse }

end TimeWeighted
end Rollup
