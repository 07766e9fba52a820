/-!
# Aggregations

The thirteen ways to fold a bucket of samples into one value, and their names. A name is accepted in
any mixture of upper and lower case ASCII letters and has to match a whole token: `ofName?_token`
says that every aggregation answers to its own token.
-/

namespace Rollup

/-- What a bucket of samples is folded into. `var` and `std` are the variance and the standard
deviation, of the population (`P`) or of a sample from one (`S`); `twa` is the time-weighted
average. -/
inductive Aggregation where
  | min | max | sum | avg | count | first | last | range | stdP | stdS | varP | varS | twa
deriving DecidableEq, Repr, Inhabited

namespace Aggregation

/-- Every aggregation, in the order they are listed to users. -/
def all : List Aggregation :=
  [min, max, sum, avg, count, first, last, range, stdP, stdS, varP, varS, twa]

def token : Aggregation → String
  | min => "min"
  | max => "max"
  | sum => "sum"
  | avg => "avg"
  | count => "count"
  | first => "first"
  | last => "last"
  | range => "range"
  | stdP => "std.p"
  | stdS => "std.s"
  | varP => "var.p"
  | varS => "var.s"
  | twa => "twa"

/-- The name shown to users, in upper case. -/
def displayName : Aggregation → String
  | min => "MIN"
  | max => "MAX"
  | sum => "SUM"
  | avg => "AVG"
  | count => "COUNT"
  | first => "FIRST"
  | last => "LAST"
  | range => "RANGE"
  | stdP => "STD.P"
  | stdS => "STD.S"
  | varP => "VAR.P"
  | varS => "VAR.S"
  | twa => "TWA"

/-- ASCII letters in lower case, all other characters as they are. -/
def foldCase (name : String) : List Char := name.toList.map Char.toLower

/-- The aggregation of a name in any case, or `none` if no whole token matches. -/
def ofName? (name : String) : Option Aggregation :=
  all.find? fun kind => kind.token.toList == foldCase name

/-- The aggregation of exactly this token; case matters. -/
def ofToken? (token : String) : Option Aggregation :=
  all.find? fun kind => kind.token == token

/-- An empty bucket has no value: asking for one is a fault instead of a NaN or a zero. -/
def requiresSamples : Aggregation → Bool
  | avg | stdP | stdS | varP | varS => true
  | _ => false

/-- The value depends on the timestamps, so samples have to come in order. -/
def isOrderSensitive : Aggregation → Bool
  | twa => true
  | _ => false

/-! ### Laws -/

theorem mem_all (kind : Aggregation) : kind ∈ all := by
  cases kind <;> decide

theorem ofName?_token (kind : Aggregation) : ofName? kind.token = some kind := by
  cases kind <;> decide

end Aggregation
end Rollup
