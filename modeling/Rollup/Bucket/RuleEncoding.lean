import Rollup.Aggregator.Encoding
import Rollup.Bucket.Rule

/-!
# Stored rules

A rule is stored with the name of its aggregation in front of the grid, the open bucket, the last
sample and the state. An absent bucket or sample is a clear flag, and zeros stand in its place.
-/

namespace Rollup
namespace CompactionRule

/-- Reads a name and looks the aggregation up. -/
def loadKind : Reader Aggregation := do
  let bytes ← Reader.buffer
  match Utf8.decode bytes with
  | .error cause => throw (.unloadable (.nameNotUtf8 cause))
  | .ok name =>
    match Aggregation.ofName? name with
    | some kind => return kind
    | none => throw (.unknownAggregation name)

def loadGrid : Reader Grid := do
  let duration ← Reader.signed
  if h : 0 < duration.toInt then
    let alignment ← Reader.signed
    return ⟨duration, alignment, h⟩
  else throw (.unloadable (.bucketDuration duration))

/-- Reads a flag and a timestamp, which counts if the flag is set. -/
def loadBucket : Reader (Option Timestamp) := do
  let present ← Reader.flag
  let start ← Reader.signed
  return if present then some start else none

/-- Reads a flag and a sample, which counts if the flag is set. -/
def loadSample : Reader (Option (Sample Binary64)) := do
  let present ← Reader.flag
  let timestamp ← Reader.signed
  let value ← Reader.double
  return if present then some ⟨timestamp, value⟩ else none

instance : Persistent CompactionRule where
  fields r :=
    let last := r.lastSample.getD ⟨0, .zero false⟩
    [.buffer r.accumulator.kind.token.toUTF8.toList, .signed r.grid.duration,
      .signed r.grid.alignment, .flag r.openBucket.isSome, .signed (r.openBucket.getD 0),
      .flag r.lastSample.isSome, .signed last.timestamp, .double last.value]
      ++ r.accumulator.fields
  load version := do
    let kind ← loadKind
    let grid ← loadGrid
    let openBucket ← loadBucket
    let lastSample ← loadSample
    let accumulator ← Aggregator.loadState kind version
    return { grid, accumulator, openBucket, lastSample }

end CompactionRule
end Rollup
