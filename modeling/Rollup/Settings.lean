import Rollup.MaxScan.Kernel
import Rollup.Toml.Document
import Rollup.Fault

/-!
# Settings

What can be set: which scan kernels may be used, how much room a median reserves, and whether empty
buckets report. Settings are read from a TOML document with one section for each of the three. Every
section and every setting may be left out; sections that are not known are refused, settings that
are not known are not looked at. A section may also be written as an array, which gives its settings
by position.
-/

namespace Rollup

/-- What can be set, each with its default. -/
structure Settings where
  /-- Which scan kernels may be used. -/
  kernelPreference : KernelPreference := .auto
  /-- The number of values a median reserves room for. -/
  capacityHint : Nat := 64
  /-- Buckets without samples report too. -/
  reportEmptyBuckets : Bool := false
deriving DecidableEq, Repr

namespace Settings

/-- The settings for runs that have to be the same on every machine: no vector registers. -/
def portable : Settings := { kernelPreference := .scalar }

/-- Refuses settings that cannot be met. -/
def check (s : Settings) : Except Fault Settings :=
  if s.capacityHint = 0 then .error (.settings .capacityHintNotPositive) else .ok s

/-! ### Reading -/

/-- The one setting that a section holds under the given key, or first in an array. A date counts as
a section that holds nothing. -/
def sole (contents : Toml.Node) (key : String) : Except SettingsFault (Option Toml.Node) :=
  match contents with
  | .table _ entries => .ok (Toml.Entries.find? entries key)
  | .array items => .ok items.head?
  -- Written as an array of tables, the section is read from its first table.
  | .tables latest earlier => .ok ((latest :: earlier).getLast?.map (.table .header))
  | .moment => .ok none
  | _ => .error (.other "a section has to be a table")

def isHollow : Toml.Node → Bool
  | .table _ entries => entries.isEmpty
  | .array items => items.isEmpty
  | _ => false

/-- A preference is named by a string, or by the only key of a table that holds nothing under it. -/
def preference : Toml.Node → Except SettingsFault KernelPreference
  | .text name => named name
  | .table _ [(name, payload)] =>
    if isHollow payload then named name else .error (.other "a kernel preference has no settings")
  | _ => .error (.other "a kernel preference has to be a name")
where
  named (name : String) : Except SettingsFault KernelPreference :=
    if name = "auto" then .ok .auto
    else if name = "scalar" then .ok .scalar
    else .error (.other ("unknown kernel preference " ++ name))

def capacity : Toml.Node → Except SettingsFault Nat
  | .integer (.ofNat n) => .ok n
  | _ => .error (.other "a capacity hint has to be a natural number")

/-- A switch is a truth value; numbers and names do not stand for one. -/
def switch : Toml.Node → Except SettingsFault Bool
  | .boolean b => .ok b
  | _ => .error (.other "a switch has to be true or false")

/-- The settings with those of one section replaced. -/
def withSection (s : Settings) (name : String) (contents : Toml.Node) :
    Except SettingsFault Settings := do
  if name = "kernels" then
    match ← sole contents "preference" with
    | some node => return { s with kernelPreference := ← preference node }
    | none => return s
  else if name = "median" then
    match ← sole contents "capacity_hint" with
    | some node => return { s with capacityHint := ← capacity node }
    | none => return s
  else if name = "rules" then
    match ← sole contents "report_empty_buckets" with
    | some node => return { s with reportEmptyBuckets := ← switch node }
    | none => return s
  else throw (.other ("unknown section " ++ name))

/-- The settings of a document, before they are checked. -/
def ofEntries (entries : Toml.Entries) : Except SettingsFault Settings :=
  entries.foldlM (fun s (name, node) => s.withSection name node) {}

def ofText (text : String) : Except Fault Settings :=
  match Toml.parse text with
  | .error cause => .error (.settings (.other cause.message))
  | .ok entries =>
    match ofEntries entries with
    | .error cause => .error (.settings cause)
    | .ok s => s.check

/-- The settings in a file with the given contents; `none` stands for a file that cannot be opened.
-/
def ofFile (contents : Option (List UInt8)) : Except Fault Settings :=
  match contents with
  | none => .error (.io "no such file")
  | some bytes =>
    match Utf8.decode bytes with
    | .error cause => .error (.io cause.message)
    | .ok text => ofText text

end Settings
end Rollup
