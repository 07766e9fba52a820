import Rollup.Binary64.Basic
import Rollup.Timestamp

/-!
# Fields

A stored state is a sequence of typed fields, and its bytes are the bytes of the fields one after
the other. Every scalar takes eight bytes, least significant first: a double its word, a signed
number its two's complement word, a flag the word `0` or `1`. A buffer is its length as a word,
followed by its bytes.
-/

namespace Rollup

/-- The last `count` base-256 digits of `n`, least significant first. -/
def littleEndian : (count : Nat) → (n : Nat) → List UInt8
  | 0, _ => []
  | count + 1, n => UInt8.ofNat (n % 256) :: littleEndian count (n / 256)

/-- The number with the given base-256 digits, least significant first. -/
def ofLittleEndian : List UInt8 → Nat
  | [] => 0
  | b :: rest => b.toNat + 256 * ofLittleEndian rest

@[simp] theorem length_littleEndian (count n : Nat) : (littleEndian count n).length = count := by
  induction count generalizing n with
  | zero => rfl
  | succ count ih => simp [littleEndian, ih]

/-- Reading its digits gives a number back if there is room for all of them. -/
theorem ofLittleEndian_littleEndian {count n : Nat} (h : n < Nat.pow 256 count) :
    ofLittleEndian (littleEndian count n) = n := by
  induction count generalizing n with
  | zero => exact (Nat.lt_one_iff.1 h).symm
  | succ count ih =>
    -- The first byte holds the least digit, and the others hold those of the quotient.
    have hdigit : (UInt8.ofNat (n % 256)).toNat = n % 256 := by
      rw [UInt8.toNat_ofNat']
      exact Nat.mod_eq_of_lt (Nat.mod_lt _ (by decide))
    have hrest : n / 256 < Nat.pow 256 count :=
      Nat.div_lt_of_lt_mul (by rw [Nat.mul_comm]; exact h)
    rw [littleEndian, ofLittleEndian, hdigit, ih hrest]
    exact Nat.mod_add_div n 256

inductive FieldKind where
  | double | unsigned | signed | flag | buffer
deriving DecidableEq, Repr

inductive Field where
  | double (x : Binary64)
  | unsigned (n : UInt64)
  | signed (n : Int64)
  | flag (b : Bool)
  | buffer (bytes : List UInt8)
deriving DecidableEq

namespace Field

def kind : Field → FieldKind
  | double _ => .double
  | unsigned _ => .unsigned
  | signed _ => .signed
  | flag _ => .flag
  | buffer _ => .buffer

def wordBytes (w : UInt64) : List UInt8 := littleEndian 8 w.toNat

def bytes : Field → List UInt8
  | double x => wordBytes x.bits
  | unsigned n => wordBytes n
  | signed n => wordBytes n.toUInt64
  | flag b => wordBytes (if b then 1 else 0)
  | buffer content => wordBytes (UInt64.ofNat content.length) ++ content

def encode (fields : List Field) : List UInt8 := fields.flatMap bytes

/-- Every NaN held as a double made the canonical one. -/
def canonical : Field → Field
  | double x => double x.canonical
  | field => field

/-! ### Laws -/

@[simp] theorem encode_nil : encode [] = [] := rfl

@[simp] theorem encode_cons (field : Field) (fields : List Field) :
    encode (field :: fields) = field.bytes ++ encode fields := rfl

@[simp] theorem encode_append (xs ys : List Field) :
    encode (xs ++ ys) = encode xs ++ encode ys := by
  simp [encode]

@[simp] theorem length_wordBytes (w : UInt64) : (wordBytes w).length = 8 := length_littleEndian 8 _

end Field
end Rollup
