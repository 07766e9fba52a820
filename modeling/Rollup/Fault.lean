import Rollup.Aggregation
import Rollup.Decimal.Shortest
import Rollup.Text.Utf8
import Rollup.Timestamp

/-!
# Faults

Everything that can go wrong, as causes. `Fault.message` is the one place where a cause is put into
words, and the three predicates at the end say who has to act on it: nobody (an empty bucket, whose
value is substituted), the owner of the stored state, or the caller.
-/

namespace Rollup

/-- The items a stored state is made of, as they are named when one of them is cut short. -/
inductive StoredItem where
  | double | unsigned | stringBuffer
deriving DecidableEq, Repr

def StoredItem.name : StoredItem → String
  | double => "double"
  | unsigned => "unsigned"
  | stringBuffer => "string buffer"

inductive LoadFault where
  /-- The bytes end inside an item. -/
  | truncated (item : StoredItem) (needed available : Nat)
  /-- The count of an average is stored as a double, and this one counts nothing. -/
  | averageCount (stored : Binary64)
  /-- The halves of a median differ in size by more than one. -/
  | unbalancedHalves (lower upper : Nat)
  /-- A half of a median is out of heap order. -/
  | heapOrder
  /-- The greatest value of the lower half ranks above the least of the upper half. -/
  | overlappingHalves (lower upper : Binary64)
  /-- The stored median is not the median of the stored values. -/
  | staleMedian (stored actual : Binary64)
  | nameNotUtf8 (cause : Utf8.Fault)
  | bucketDuration (duration : Timestamp)
  /-- A cause in the words of a caller with a state of its own. -/
  | other (reason : String)
deriving DecidableEq

namespace LoadFault

def message : LoadFault → String
  | truncated item needed available =>
    "truncated input reading " ++ item.name ++ ": need " ++ Nat.repr needed ++ " bytes, have "
      ++ Nat.repr available
  | averageCount stored => "invalid average count " ++ stored.text
  | unbalancedHalves lower upper =>
    "median heaps unbalanced: " ++ Nat.repr lower ++ " vs " ++ Nat.repr upper
  | heapOrder => "median heap order violated"
  | overlappingHalves lower upper =>
    "median halves overlap: lower top " ++ lower.text ++ " above upper top " ++ upper.text
  | staleMedian stored actual =>
    "cached median " ++ stored.text ++ " does not match contents (" ++ actual.text ++ ")"
  | nameNotUtf8 cause => "aggregation name is not utf-8: " ++ cause.message
  | bucketDuration duration => "invalid bucket duration " ++ Int.repr duration.toInt
  | other reason => reason

end LoadFault

/-- Why a request is refused by the aggregation it is made to. -/
inductive UnsupportedOperation where
  /-- A time-weighted average is given values without their timestamps. -/
  | valuesWithoutTimestamps
  | other (reason : String)
deriving DecidableEq

def UnsupportedOperation.message : UnsupportedOperation → String
  | valuesWithoutTimestamps => "vector append on twa requires timestamps"
  | other reason => reason

/-- Why no buckets can be laid out. -/
inductive RuleFault where
  | durationNotPositive (duration : Timestamp)
  | other (reason : String)
deriving DecidableEq

def RuleFault.message : RuleFault → String
  | durationNotPositive duration =>
    "bucket duration must be positive, got " ++ Int.repr duration.toInt
  | other reason => reason

inductive SettingsFault where
  | capacityHintNotPositive
  | other (reason : String)
deriving DecidableEq

def SettingsFault.message : SettingsFault → String
  | capacityHintNotPositive => "median capacity hint must be positive"
  | other reason => reason

/-- What can go wrong. -/
inductive Fault where
  /-- A bucket without samples, and an aggregation that has no value for it. -/
  | emptyAggregate (kind : Aggregation)
  | unknownAggregation (name : String)
  | unsupportedOperation (cause : UnsupportedOperation)
  | unloadable (cause : LoadFault)
  /-- A state written in a layout newer than the latest known one. -/
  | unsupportedVersion (number : Nat)
  | invalidRule (cause : RuleFault)
  /-- A sample earlier than the last accepted one. -/
  | outOfOrder (timestamp last : Timestamp)
  | settings (cause : SettingsFault)
  | io (reason : String)
deriving DecidableEq

namespace Fault

def message : Fault → String
  | emptyAggregate kind => "empty aggregate: " ++ kind.token ++ " has no samples in this bucket"
  | unknownAggregation name => "unknown aggregation type: " ++ name
  | unsupportedOperation cause => "unsupported operation: " ++ cause.message
  | unloadable cause => "deserialize failed: " ++ cause.message
  | unsupportedVersion number => "unsupported encoding version: " ++ Nat.repr number
  | invalidRule cause => "invalid compaction rule: " ++ cause.message
  | outOfOrder timestamp last =>
    "sample out of order: timestamp " ++ Int.repr timestamp.toInt ++ " precedes "
      ++ Int.repr last.toInt
  | settings cause => "configuration error: " ++ cause.message
  | io reason => "IO error: " ++ reason

/-- The bucket is empty: the value of an empty bucket is reported in place of a result. -/
def isEmptyAggregate : Fault → Bool
  | emptyAggregate _ => true
  | _ => false

/-- The stored state is unusable as a whole. -/
def isLoadFailure : Fault → Bool
  | unloadable _ | unsupportedVersion _ | unknownAggregation _ | io _ => true
  | _ => false

/-- The request itself is at fault, not the data. -/
def isUserError : Fault → Bool
  | unknownAggregation _ | unsupportedOperation _ | invalidRule _ | outOfOrder _ _
  | settings _ => true
  | _ => false

end Fault
end Rollup
