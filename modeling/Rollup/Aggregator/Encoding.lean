import Rollup.Aggregator.Basic

/-!
# Stored aggregators

An aggregator is stored as its state alone. The aggregation is kept by whoever keeps the bytes, and
reading a state takes it as an argument.
-/

namespace Rollup.Aggregator

/-- The fields of the latest layout. -/
def fields : Aggregator → List Field
  | tally _ state => Persistent.fields state
  | extreme _ state => Persistent.fields state
  | first state => Persistent.fields state
  | mean state => Persistent.fields state
  | spread _ state => Persistent.fields state
  | timeWeighted state => Persistent.fields state

/-- Reads the state of an aggregation in the layout of the given version. -/
def loadState (kind : Aggregation) (version : Version) : Reader Aggregator :=
  match kind with
  | .sum => tally .sum <$> Persistent.load version
  | .count => tally .count <$> Persistent.load version
  | .last => tally .last <$> Persistent.load version
  | .min => extreme .min <$> Persistent.load version
  | .max => extreme .max <$> Persistent.load version
  | .range => extreme .range <$> Persistent.load version
  | .first => first <$> Persistent.load version
  | .avg => mean <$> Persistent.load version
  | .varP => spread .varP <$> Persistent.load version
  | .varS => spread .varS <$> Persistent.load version
  | .stdP => spread .stdP <$> Persistent.load version
  | .stdS => spread .stdS <$> Persistent.load version
  | .twa => timeWeighted <$> Persistent.load version

def toBytes (s : Aggregator) : List UInt8 := Field.encode s.fields

/-- The aggregator stored at the front of the bytes. -/
def ofBytes (kind : Aggregation) (bytes : List UInt8) (version : Version) :
    Except Fault Aggregator := do
  version.check
  ((loadState kind version).read bytes).1

end Rollup.Aggregator
