import Rollup.Encoding.Field
import Rollup.Fault

/-!
# Readers

A reader takes a value off the front of the stored bytes. It leaves the bytes that remain also when
it fails, so what can be read after a failure is fixed too: a scalar that is cut short takes
nothing, and a buffer that is shorter than its length word says takes that word only.
-/

namespace Rollup

/-- Takes a value off the front of a byte sequence, or fails; either way some bytes remain. -/
abbrev Reader := ExceptT Fault (StateM (List UInt8))

namespace Reader

/-- The outcome on the given bytes, and the bytes that remain. -/
def read {α : Type} (reader : Reader α) (bytes : List UInt8) : Except Fault α × List UInt8 :=
  StateT.run (ExceptT.run reader) bytes

/-- Takes the next eight bytes as a word. A missing byte is reported of the item the word belongs
to. -/
def word (item : StoredItem) : Reader UInt64 := do
  let bytes ← get
  let front := bytes.take 8
  if front.length = 8 then
    set (bytes.drop 8)
    return UInt64.ofNat (ofLittleEndian front)
  else
    throw (.unloadable (.truncated item 8 bytes.length))

def double : Reader Binary64 := return ⟨← word .double⟩

def unsigned : Reader UInt64 := word .unsigned

def signed : Reader Int64 := return (← word .unsigned).toInt64

/-- Any word but zero is a set flag. -/
def flag : Reader Bool := return (← word .unsigned) != 0

/-- Takes a length word and that many bytes. -/
def buffer : Reader (List UInt8) := do
  let length ← word .unsigned
  let bytes ← get
  if length.toNat ≤ bytes.length then
    set (bytes.drop length.toNat)
    return bytes.take length.toNat
  else
    throw (.unloadable (.truncated .stringBuffer length.toNat bytes.length))

def doubles : (count : Nat) → Reader (List Binary64)
  | 0 => return []
  | count + 1 => do
    let x ← double
    let rest ← doubles count
    return x :: rest

def field : FieldKind → Reader Field
  | .double => return .double (← double)
  | .unsigned => return .unsigned (← unsigned)
  | .signed => return .signed (← signed)
  | .flag => return .flag (← flag)
  | .buffer => return .buffer (← buffer)

end Reader
end Rollup
