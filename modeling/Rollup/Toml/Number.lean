import Rollup.Binary64.Rounding
import Rollup.Timestamp
import Rollup.Toml.Text

/-!
# Numbers and moments

Integers in four bases, decimal numbers, and dates and times. Digits may be grouped by single
underscores. An integer has to fit 64 bits with its sign, and a decimal number must not round to
positive infinity.
-/

namespace Rollup

/-- The number nearest to `digits · 10 ^ exponent`, of the given sign. The size of a number whose
leading digit is far beyond the greatest number or the least one needs no exact arithmetic. -/
def Binary64.ofDecimal (negative : Bool) (digits : Nat) (exponent : Int) : Binary64 :=
  let leading := exponent + (Nat.repr digits).length
  if digits = 0 ∨ leading < -400 then zero negative
  else if 400 < leading then infinity negative
  else if 0 ≤ exponent then ofQuotient negative (digits * Nat.pow 10 exponent.toNat * unitsPerOne) 1
  else ofQuotient negative (digits * unitsPerOne) (Nat.pow 10 (-exponent).toNat)

namespace Toml.Scanner

/-- The number that digits of a base make up. -/
def ofDigits (base : Nat) (digits : List Nat) : Nat := digits.foldl (fun acc d => acc * base + d) 0

def digit? (base : Nat) (c : Char) : Option Nat := (hexDigit? c).filter (· < base)

def digit (base : Nat) : Scanner Nat := do
  let c ← satisfy fun c => (digit? base c).isSome
  return (digit? base c).getD 0

/-- Takes further digits of a base, each of which may have an underscore in front. -/
def moreDigits (base : Nat) : Scanner (List Nat) :=
  many do
    match ← peek? with
    | some c =>
      if c = '_' then do exactly ['_']; return some (← digit base)
      else if (digit? base c).isSome then return some (← digit base)
      else return none
    | none => return none

def digits (base : Nat) : Scanner (List Nat) := do
  let first ← digit base
  let more ← moreDigits base
  return first :: more

/-- Takes a sign, if there is one; true for a minus. -/
def sign : Scanner Bool := do
  match ← peek? with
  | some '-' => do exactly ['-']; return true
  | some '+' => do exactly ['+']; return false
  | _ => return false

/-- Takes the digits of a decimal integer. A leading zero stands alone. -/
def wholeDigits : Scanner (List Nat) := do
  if (← peek?) = some '0' then do exactly ['0']; return [0]
  else digits 10

/-- The integer, if it fits 64 bits with its sign. -/
def fitting (n : Int) : Scanner Int :=
  if Timestamp.least ≤ n ∧ n ≤ Timestamp.greatest then return n else throw .numberOutOfRange

/-- Takes an integer. Only decimal ones have a sign. -/
def integer : Scanner Int := do
  if ← ahead ['0', 'x'] then do exactly ['0', 'x']; fitting (ofDigits 16 (← digits 16))
  else if ← ahead ['0', 'o'] then do exactly ['0', 'o']; fitting (ofDigits 8 (← digits 8))
  else if ← ahead ['0', 'b'] then do exactly ['0', 'b']; fitting (ofDigits 2 (← digits 2))
  else
    let negative ← sign
    let n := ofDigits 10 (← wholeDigits)
    fitting (if negative then -(n : Int) else n)

def exponent : Scanner Int := do
  let _ ← satisfy fun c => c == 'e' || c == 'E'
  let negative ← sign
  let n := ofDigits 10 (← digits 10)
  return if negative then -(n : Int) else n

/-- Takes a decimal number: a whole part with a fraction, an exponent, or both. -/
def decimal : Scanner Binary64 := do
  let negative ← sign
  let whole ← wholeDigits
  let fraction ← optional do exactly ['.']; digits 10
  let scale ← if fraction.isSome then optional exponent else some <$> exponent
  let places := fraction.getD []
  let lowest := scale.getD 0 - places.length
  let x := Binary64.ofDecimal negative (ofDigits 10 (whole ++ places)) lowest
  if x = .infinity false then throw .numberOutOfRange
  return x

def special : Scanner Binary64 := do
  let negative ← sign
  if ← ahead ['i'] then do exactly ['i', 'n', 'f']; return .infinity negative
  else do exactly ['n', 'a', 'n']; return if negative then Binary64.nan.neg else .nan

/-- Takes a number of exactly as many digits, from `low` to `high`. -/
def field (count low high : Nat) : Scanner Nat := do
  let n := ofDigits 10 (← takeDigits count)
  if low ≤ n ∧ n ≤ high then return n else fail
where
  takeDigits : Nat → Scanner (List Nat)
    | 0 => return []
    | count + 1 => return (← digit 10) :: (← takeDigits count)

def daysOfMonth (year month : Nat) : Nat :=
  if month = 2 then if year % 4 = 0 ∧ (year % 100 ≠ 0 ∨ year % 400 = 0) then 29 else 28
  else if month = 4 ∨ month = 6 ∨ month = 9 ∨ month = 11 then 30
  else 31

def date : Scanner Unit := do
  let year ← field 4 0 9999
  exactly ['-']
  let month ← field 2 1 12
  exactly ['-']
  let _ ← field 2 1 (daysOfMonth year month)

/-- Takes a time of day; the second may be a leap second and have a fraction. -/
def timeOfDay : Scanner Unit := do
  let _ ← field 2 0 23
  exactly [':']
  let _ ← field 2 0 59
  exactly [':']
  let _ ← field 2 0 60
  let _ ← optional do exactly ['.']; takeWhile1 Char.isDigit

/-- Takes the offset of a time from universal time. -/
def offset : Scanner Unit := do
  let c ← satisfy fun c => c == 'Z' || c == 'z' || c == '+' || c == '-'
  if c = '+' ∨ c = '-' then
    let _ ← field 2 0 23
    exactly [':']
    let _ ← field 2 0 59

/-- Takes a moment: a date, a time, or both with or without an offset. -/
def moment : Scanner Unit :=
  either
    (do
      date
      let _ ← optional do
        -- A blank behind a date belongs to it only if a time follows.
        let _ ← satisfy fun c => c == 'T' || c == 't' || c == ' '
        timeOfDay
        let _ ← optional offset)
    timeOfDay

end Toml.Scanner
end Rollup
