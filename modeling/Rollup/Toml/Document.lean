import Rollup.Toml.Number

/-!
# Documents

A document is a sequence of lines, each of which is blank, opens a table, or gives a key its value.
`parse` turns the text into expressions and adds them to the tree one after the other.
-/

namespace Rollup.Toml
namespace Scanner

/-- Takes the items of an array, up to the closing bracket. -/
def arrayItems (value : Scanner Node) : Scanner (List Node) :=
  many do
    blankLines
    if ← ahead [']'] then return none
    let item ← value
    blankLines
    -- A comma may stand behind the last item as well.
    if ← ahead [','] then exactly [','] else if !(← ahead [']']) then fail
    return some item

def keyValue (value : Scanner Node) : Scanner (List String × String × Node) := do
  let (path, last) ← key
  exactly ['=']
  blanks
  return (path, last, ← value)

/-- Takes the pairs of a table in braces, up to the closing one. -/
def pairs (value : Scanner Node) : Scanner (List (List String × String × Node)) := do
  blanks
  if ← ahead ['}'] then return []
  let first ← keyValue value
  let more ← many (α := List String × String × Node) do
    blanks
    if ← ahead [','] then do exactly [',']; return some (← keyValue value)
    else return none
  return first :: more

def number : Scanner Node :=
  either (do return .real (← either decimal special)) (do return .integer (← integer))

/-- Takes a value that holds no other values. -/
def scalar : Scanner Node := do
  match ← peek? with
  | some 't' => do exactly ['t', 'r', 'u', 'e']; return .boolean true
  | some 'f' => do exactly ['f', 'a', 'l', 's', 'e']; return .boolean false
  | some c =>
    if c = quote ∨ c = apostrophe then return .text (← string)
    else either (do moment; return .moment) number
  | none => fail

/-- Takes a value in which containers are nested at most `depth` deep. -/
def value : (depth : Nat) → Scanner Node
  | 0 => do
    if (← peek?) = some '[' ∨ (← peek?) = some '\x7b' then throw .nestedTooDeep
    scalar
  | depth + 1 => do
    match ← peek? with
    | some '[' => do
      exactly ['[']
      let items ← arrayItems (value depth)
      exactly [']']
      return .array items
    | some '\x7b' => do
      exactly ['\x7b']
      let entries ← pairs (value depth)
      exactly ['\x7d']
      let table ← entries.foldlM (fun table (path, last, node) =>
        liftM (Entries.add path last node .literal table)) ([] : Entries)
      return .table .literal table
    | _ => scalar

end Scanner

inductive Expression where
  | blank
  | openTable (path : List String) (key : String)
  | openTables (path : List String) (key : String)
  | pair (path : List String) (key : String) (node : Node)

namespace Scanner

/-- Takes the header of a table or of one more table of an array. -/
def header : Scanner Expression := do
  if ← ahead ['[', '['] then do
    exactly ['[', '[']
    let (path, last) ← key
    exactly [']', ']']
    return .openTables path last
  else do
    exactly ['[']
    let (path, last) ← key
    exactly [']']
    return .openTable path last

/-- Takes a line; there is none at the end of the text. -/
def line : Scanner (Option Expression) := do
  blanks
  match ← peek? with
  | none => return none
  | some '#' | some '\n' | some '\r' => do restOfLine; return some .blank
  | some '[' => do
    let expression ← header
    restOfLine
    return some expression
  | some _ => do
    let (path, last, node) ← keyValue (value (depthLimit - 1))
    restOfLine
    return some (.pair path last node)

/-- Takes all lines of a text; a byte order mark in front of them is dropped. -/
def lines : Scanner (List Expression) := do
  let _ ← optional (exactly ['\ufeff'])
  many line

end Scanner

/-- A document in the making: the root table, and the path of the table that pairs go to. -/
structure Draft where
  root : Entries
  current : List String

def Draft.add (d : Draft) : Expression → Except Fault Draft
  | .blank => .ok d
  | .openTable path key => do return ⟨← Entries.openTable path key d.root, path ++ [key]⟩
  | .openTables path key => do return ⟨← Entries.openTables path key d.root, path ++ [key]⟩
  | .pair path key node => do
    return ⟨← Entries.change false (Entries.add path key node) d.current .header d.root, d.current⟩

def parse (text : String) : Except Fault Entries := do
  let (expressions, left) ← Scanner.lines.run text.toList
  if !left.isEmpty then throw (.unexpected left.length)
  let draft ← expressions.foldlM Draft.add ⟨[], []⟩
  return draft.root

end Rollup.Toml
