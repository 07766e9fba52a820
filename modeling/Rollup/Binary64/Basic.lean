/-!
# Binary64 words

A number is kept as its 64-bit word: one sign bit over a 63-bit *magnitude*. The magnitude counts
the non-negative numbers upwards from zero, so `magnitude` and `isNegative` together are a complete
view of a word (`ofMagnitude_magnitude`), infinity is one fixed magnitude, and every magnitude above
it is a NaN.
-/

namespace Rollup

/-- A binary64 word. Equality is equality of all 64 bits: the two zeros differ, and so do NaNs of
different sign or payload. Numeric comparison is `Binary64.lt`, `Binary64.le` and `Binary64.numEq`.
-/
structure Binary64 where
  bits : UInt64
deriving DecidableEq, Inhabited

namespace Binary64

/-- The weight of the sign bit, `2⁶³`. -/
def signWeight : Nat := 0x8000000000000000

/-- The magnitude of infinity: exponent bits all ones, fraction zero. Larger magnitudes are NaNs. -/
def infiniteMagnitude : Nat := 0x7ff0000000000000

/-- The word without its sign bit. -/
def magnitude (x : Binary64) : Nat := x.bits.toNat % signWeight

/-- True if the sign bit is set, also on a zero or a NaN. -/
def isNegative (x : Binary64) : Bool := decide (signWeight ≤ x.bits.toNat)

def ofMagnitude (negative : Bool) (k : Nat) : Binary64 :=
  ⟨UInt64.ofNat (if negative then signWeight + k else k)⟩

def isNaN (x : Binary64) : Bool := decide (infiniteMagnitude < x.magnitude)

def isInfinite (x : Binary64) : Bool := decide (x.magnitude = infiniteMagnitude)

def isFinite (x : Binary64) : Bool := decide (x.magnitude < infiniteMagnitude)

/-- True for both zeros. -/
def isZero (x : Binary64) : Bool := decide (x.magnitude = 0)

/-! ### Constants -/

def zero (negative : Bool) : Binary64 := ofMagnitude negative 0

def infinity (negative : Bool) : Binary64 := ofMagnitude negative infiniteMagnitude

/-- The quiet NaN with a clear sign bit, which every invalid operation returns. -/
def nan : Binary64 := ofMagnitude false 0x7ff8000000000000

def maxFinite : Binary64 := ofMagnitude false 0x7fefffffffffffff

def minFinite : Binary64 := ofMagnitude true 0x7fefffffffffffff

/-! ### Sign operations -/

def neg (x : Binary64) : Binary64 := ofMagnitude (!x.isNegative) x.magnitude

def abs (x : Binary64) : Binary64 := ofMagnitude false x.magnitude

/-- Every NaN as the one canonical NaN; other words are kept. -/
def canonical (x : Binary64) : Binary64 := if x.isNaN then nan else x

/-! ### Sign and magnitude as a view -/

theorem magnitude_lt (x : Binary64) : x.magnitude < signWeight := Nat.mod_lt _ (by decide)

theorem magnitude_ofMagnitude (s : Bool) {k : Nat} (h : k < signWeight) :
    (ofMagnitude s k).magnitude = k := by
  show (UInt64.ofNat (if s then signWeight + k else k)).toNat % signWeight = k
  rw [UInt64.toNat_ofNat']
  unfold signWeight at *
  split <;> omega

theorem isNegative_ofMagnitude (s : Bool) {k : Nat} (h : k < signWeight) :
    (ofMagnitude s k).isNegative = s := by
  show decide (signWeight ≤ (UInt64.ofNat (if s then signWeight + k else k)).toNat) = s
  rw [UInt64.toNat_ofNat']
  unfold signWeight at *
  cases s
  · exact decide_eq_false (by rw [if_neg Bool.false_ne_true]; omega)
  · exact decide_eq_true (by rw [if_pos rfl]; omega)

/-- A word is determined by its sign and its magnitude. -/
theorem ofMagnitude_magnitude (x : Binary64) : ofMagnitude x.isNegative x.magnitude = x := by
  -- Both words are compared as natural numbers, the sign bit set and clear in turn.
  have hx := x.bits.toNat_lt
  apply congrArg Binary64.mk
  apply UInt64.toNat_inj.1
  rw [UInt64.toNat_ofNat']
  unfold isNegative magnitude signWeight
  by_cases h : 0x8000000000000000 ≤ x.bits.toNat
  · rw [decide_eq_true h, if_pos rfl]; omega
  · rw [decide_eq_false h, if_neg Bool.false_ne_true]; omega

end Binary64

end Rollup
