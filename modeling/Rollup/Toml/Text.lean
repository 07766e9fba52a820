import Rollup.Toml.Scanner

/-!
# Strings and keys

The four kinds of string, one line or many, with escapes or without, and keys, which are bare words
or one-line strings.
-/

namespace Rollup.Toml
namespace Scanner

def quote : Char := '\x22'

def apostrophe : Char := '\x27'

def backslash : Char := '\x5c'

def hexDigit? (c : Char) : Option Nat :=
  if c.isDigit then some (c.toNat - 0x30)
  else if 0x61 ≤ c.toNat ∧ c.toNat ≤ 0x66 then some (c.toNat - 0x61 + 10)
  else if 0x41 ≤ c.toNat ∧ c.toNat ≤ 0x46 then some (c.toNat - 0x41 + 10)
  else none

def hexDigits (acc : Nat) : (count : Nat) → Scanner Nat
  | 0 => return acc
  | count + 1 => do
    let c ← satisfy fun c => (hexDigit? c).isSome
    hexDigits (acc * 16 + (hexDigit? c).getD 0) count

/-- Takes the code point that the given number of hexadecimal digits name. -/
def codePoint (digits : Nat) : Scanner Char := do
  let code ← hexDigits 0 digits
  if code.isValidChar then return Char.ofNat code else fail

def escape : Scanner Char := do
  exactly [backslash]
  let c ← satisfy fun _ => true
  match c with
  | 'b' => return '\x08'
  | 't' => return '\t'
  | 'n' => return '\n'
  | 'f' => return '\x0c'
  | 'r' => return '\r'
  | 'u' => codePoint 4
  | 'U' => codePoint 8
  | c => if c = quote ∨ c = backslash then return c else fail

/-- Takes a string in double quotes. -/
def basicString : Scanner String := do
  exactly [quote]
  let content ← many (α := Char) do
    match ← peek? with
    | none => fail
    | some c =>
      if c = quote then return none
      else if c = backslash then return some (← escape)
      else return some (← satisfy isPrintable)
  exactly [quote]
  return String.ofList content

/-- Takes a string in single quotes, in which no character is special. -/
def literalString : Scanner String := do
  exactly [apostrophe]
  let content ← takeWhile fun c => isPrintable c && c != apostrophe
  exactly [apostrophe]
  return String.ofList content

/-- Takes a backslash at the end of a line, with all blank text behind it. -/
def lineContinuation : Scanner Unit := do
  exactly [backslash]
  blanks
  newline
  blankText

/-- Takes one piece of a string of many lines. Fewer than three delimiters in a row are content. -/
def multilinePiece (delimiter : Char) (escapes : Bool) : Scanner (Option (List Char)) := do
  match ← peek? with
  | none => fail
  | some c =>
    if c = delimiter then
      if ← ahead [delimiter, delimiter, delimiter] then return none
      else return some (← takeWhile (· == delimiter))
    else if escapes && c == backslash then
      either (do lineContinuation; return some []) (do return some [← escape])
    -- Either form of newline is read as a line feed.
    else if c = '\n' ∨ c = '\r' then do newline; return some ['\n']
    else return some [← satisfy isPrintable]

/-- Takes a string of many lines between three delimiters. A newline right behind the opening ones
is dropped, and up to two delimiters right before the closing ones are content. -/
def multilineString (delimiter : Char) (escapes : Bool) : Scanner String := do
  exactly [delimiter, delimiter, delimiter]
  let _ ← optional newline
  let pieces ← many (multilinePiece delimiter escapes)
  let closing ← takeWhile (· == delimiter)
  if 3 ≤ closing.length ∧ closing.length ≤ 5 then
    return String.ofList (pieces.flatten ++ closing.drop 3)
  else fail

def string : Scanner String := do
  if ← ahead [quote, quote, quote] then multilineString quote true
  else if ← ahead [apostrophe, apostrophe, apostrophe] then multilineString apostrophe false
  else either basicString literalString

/-! ### Keys -/

def isBareKey (c : Char) : Bool := c.isAlphanum || c == '-' || c == '_'

def keyPart : Scanner String := do
  blanks
  let part ← match ← peek? with
    | some c =>
      if c = quote then basicString
      else if c = apostrophe then literalString
      else String.ofList <$> takeWhile1 isBareKey
    | none => fail
  blanks
  return part

/-- Containers may be nested less deep than this, and keys have fewer parts. -/
def depthLimit : Nat := 80

/-- Takes a key: the path of its table, and the last part. -/
def key : Scanner (List String × String) := do
  let first ← keyPart
  let more ← many (α := String) do
    match ← peek? with
    | some '.' => do exactly ['.']; return some (← keyPart)
    | _ => return none
  if depthLimit ≤ more.length + 1 then throw .nestedTooDeep
  let parts := first :: more
  return (parts.dropLast, parts.getLast?.getD first)

end Scanner
end Rollup.Toml
