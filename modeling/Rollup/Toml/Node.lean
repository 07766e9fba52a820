import Rollup.Binary64.Basic

/-!
# TOML trees

A document is a table of keys and nodes, built one expression at a time. What may be added to a
table depends on how the table came about (`Origin`): a header opens a table that is new or was only
passed through before, a dotted key extends tables that dotted keys made, and a table written as a
value is closed.
-/

namespace Rollup.Toml

/-- Why a text is no document. -/
inductive Fault where
  /-- The text breaks off from the grammar with this many characters left. -/
  | unexpected (left : Nat)
  | duplicateKey (key : String)
  /-- A key is used as a table, and holds something else. -/
  | notATable (key : String)
  | numberOutOfRange
  | nestedTooDeep
deriving DecidableEq, Repr

def Fault.message : Fault → String
  | unexpected left => "unexpected text, " ++ Nat.repr left ++ " characters before the end"
  | duplicateKey key => "key " ++ key ++ " is defined twice"
  | notATable key => "key " ++ key ++ " is no table"
  | numberOutOfRange => "number out of range"
  | nestedTooDeep => "nested too deep"

inductive Origin where
  /-- By a header of its own; the root counts as well. -/
  | header
  /-- On the way to the table of a header. -/
  | implied
  /-- On the way to the value of a dotted key. -/
  | dotted
  /-- As a value in braces. -/
  | literal
deriving DecidableEq, Repr

/-- What a key holds. Of moments only the fact is kept. -/
inductive Node where
  | text (s : String)
  | integer (n : Int)
  | real (x : Binary64)
  | boolean (b : Bool)
  | moment
  | array (items : List Node)
  | table (origin : Origin) (entries : List (String × Node))
  /-- An array of tables made by headers, the latest table apart. -/
  | tables (latest : List (String × Node)) (earlier : List (List (String × Node)))

/-- The contents of a table. No key occurs twice. -/
abbrev Entries := List (String × Node)

namespace Entries

def find? (entries : Entries) (key : String) : Option Node := List.lookup key entries

/-- Replaces what the key holds, or adds the key at the end. -/
def put : Entries → String → Node → Entries
  | [], key, node => [(key, node)]
  | (k, old) :: rest, key, node =>
    if k = key then (key, node) :: rest else (k, old) :: put rest key node

/-- Changes the table at the end of a path. Tables that are missing on the way are made; an array of
tables stands for its latest table. A dotted path does not pass through tables that have a header.
-/
def change (dotted : Bool) (f : Origin → Entries → Except Fault Entries) :
    List String → Origin → Entries → Except Fault Entries
  | [], origin, entries => f origin entries
  | key :: path, _, entries =>
    match entries.find? key with
    | none => do
      let origin := if dotted then .dotted else .implied
      let inner ← change dotted f path origin []
      return entries.put key (.table origin inner)
    | some (.table origin inner) =>
      if origin = .literal ∨ (dotted ∧ origin = .header) then .error (.duplicateKey key)
      else do
        let inner ← change dotted f path origin inner
        return entries.put key (.table origin inner)
    | some (.tables latest earlier) => do
      let latest ← change dotted f path .header latest
      return entries.put key (.tables latest earlier)
    | some _ => .error (.notATable key)

/-- Adds a value under a dotted key to a table. Only tables made by dotted keys take a value by way
of one. -/
def add (path : List String) (key : String) (node : Node) :
    Origin → Entries → Except Fault Entries :=
  change true (fun origin entries =>
    if (origin == .dotted) == path.isEmpty || (entries.find? key).isSome then
      .error (.duplicateKey key)
    else .ok (entries.put key node)) path

/-- Opens the table of a header: it is new, or was only passed through before. -/
def openTable (path : List String) (key : String) : Entries → Except Fault Entries :=
  change false (fun _ entries =>
    match entries.find? key with
    | none => .ok (entries.put key (.table .header []))
    | some (.table .implied inner) => .ok (entries.put key (.table .header inner))
    | some _ => .error (.duplicateKey key)) path .header

/-- Opens one more table of an array of tables. -/
def openTables (path : List String) (key : String) : Entries → Except Fault Entries :=
  change false (fun _ entries =>
    match entries.find? key with
    | none => .ok (entries.put key (.tables [] []))
    | some (.tables latest earlier) => .ok (entries.put key (.tables [] (latest :: earlier)))
    | some _ => .error (.duplicateKey key)) path .header

end Entries
end Rollup.Toml
