import Rollup.Encoding.Reader
import Rollup.Encoding.Version

/-!
# Persistent states

A state that can be stored is written as a list of fields in the latest layout, and read back from
the bytes of any known layout. Bytes after the state are left alone.
-/

namespace Rollup

/-- States with a stored form. -/
class Persistent (σ : Type) where
  /-- The fields of the latest layout. -/
  fields : σ → List Field
  /-- Reads a state in the layout of the given version. -/
  load : Version → Reader σ

/-- The bytes of a state in the latest layout. -/
def encode {σ : Type} [Persistent σ] (state : σ) : List UInt8 :=
  Field.encode (Persistent.fields state)

/-- The state stored at the front of the bytes in the layout of the given version. -/
def decode {σ : Type} [Persistent σ] (version : Version) (bytes : List UInt8) :
    Except Fault σ := do
  version.check
  ((Persistent.load version : Reader σ).read bytes).1

end Rollup
