import Rollup.Toml.Node

/-!
# Scanners

A scanner takes a value off the front of a text or fails. Repetition (`many`) is the only loop: it
goes on as long as the text gets shorter, which ends it.
-/

namespace Rollup.Toml

/-- Takes a value off the front of a text. -/
abbrev Scanner := StateT (List Char) (Except Fault)

namespace Scanner

variable {α : Type}

/-- Fails where the text stands. -/
def fail : Scanner α := do throw (.unexpected (← get).length)

/-- The next character, which stays. -/
def peek? : Scanner (Option Char) := return (← get).head?

/-- True if the text goes on with these characters, which stay. -/
def ahead (text : List Char) : Scanner Bool := return text.isPrefixOf (← get)

def satisfy (p : Char → Bool) : Scanner Char := do
  match ← get with
  | c :: rest => if p c then set rest; return c else fail
  | [] => fail

def exactly (text : List Char) : Scanner Unit := do
  if ← ahead text then modify (·.drop text.length) else fail

def takeWhile (p : Char → Bool) : Scanner (List Char) := do
  let text ← get
  set (text.dropWhile p)
  return text.takeWhile p

def takeWhile1 (p : Char → Bool) : Scanner (List Char) := do
  let c ← satisfy p
  let rest ← takeWhile p
  return c :: rest

/-- Takes what `p` takes, or nothing if `p` fails. -/
def optional (p : Scanner α) : Scanner (Option α) := fun text =>
  match p text with
  | .ok (a, rest) => .ok (some a, rest)
  | .error _ => .ok (none, text)

def either (p q : Scanner α) : Scanner α := fun text =>
  match p text with
  | .ok result => .ok result
  | .error _ => q text

/-- The items that `step` takes off a text, and what is left. A step that takes nothing is the last
one, so the text gets shorter each time. -/
def manyFrom (step : Scanner (Option α)) (text : List Char) : Except Fault (List α × List Char) :=
  match step text with
  | .error fault => .error fault
  | .ok (none, rest) => .ok ([], rest)
  | .ok (some a, rest) =>
    if rest.length < text.length then
      (manyFrom step rest).map fun (items, final) => (a :: items, final)
    else .ok ([a], rest)
termination_by text.length

/-- Takes what `step` takes, again and again, until it says that there is no more. -/
def many (step : Scanner (Option α)) : Scanner (List α) := manyFrom step

/-! ### Blank text -/

def isBlank (c : Char) : Bool := c == ' ' || c == '\t'

/-- Characters that may stand in a comment: all but control characters other than the tab. -/
def isPrintable (c : Char) : Bool := c == '\t' || (0x20 ≤ c.toNat && c.toNat != 0x7f)

def blanks : Scanner Unit := do
  let _ ← takeWhile isBlank

/-- Takes a line feed, or a carriage return and a line feed. -/
def newline : Scanner Unit := either (exactly ['\n']) (exactly ['\r', '\n'])

/-- Takes a comment up to the end of its line. -/
def comment : Scanner Unit := do
  exactly ['#']
  let _ ← takeWhile isPrintable

/-- Takes the end of a line or of the text. -/
def lineEnd : Scanner Unit := do
  if (← peek?).isSome then newline

/-- Takes the rest of a line that may hold blanks and a comment only. -/
def restOfLine : Scanner Unit := do
  blanks
  let _ ← optional comment
  lineEnd

/-- Takes blanks and newlines. -/
def blankText : Scanner Unit := do
  let _ ← many (α := Unit) do
    match ← peek? with
    | some '\n' | some '\r' => optional newline
    | some c => if isBlank c then do blanks; return some () else return none
    | none => return none

/-- Takes blanks, newlines and whole comments. -/
def blankLines : Scanner Unit := do
  let _ ← many (α := Unit) do
    match ← peek? with
    | some '#' => do comment; newline; return some ()
    | some '\n' | some '\r' => do newline; return some ()
    | some c => if isBlank c then do blanks; return some () else return none
    | none => return none

end Scanner
end Rollup.Toml
