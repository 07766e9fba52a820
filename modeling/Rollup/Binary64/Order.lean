import Rollup.Binary64.Basic

/-!
# Two orders on binary64 words

The *numeric* comparisons `lt`, `le` and `numEq` are those of the standard: a NaN compares with
nothing and the two zeros are equal. The *total* order `totalLt` ranks every word, the negative NaNs
lowest and the positive NaNs highest, with `-0` just under `+0`. Both are read off one integer key
per word, and `totalKey_inj` says that the total order separates all words.
-/

namespace Rollup
namespace Binary64

/-- Position among the numbers, ascending; both zeros are at `0`. Meaningful unless `x` is a NaN. -/
def numKey (x : Binary64) : Int := if x.isNegative then -(x.magnitude : Int) else x.magnitude

/-- Position among all words, ascending, from the negative NaNs to the positive ones. -/
def totalKey (x : Binary64) : Int := if x.isNegative then -(x.magnitude : Int) - 1 else x.magnitude

/-- `a < b` as numbers; false if either is a NaN. -/
def lt (a b : Binary64) : Bool := !a.isNaN && !b.isNaN && decide (a.numKey < b.numKey)

/-- `a ≤ b` as numbers; false if either is a NaN. -/
def le (a b : Binary64) : Bool := !a.isNaN && !b.isNaN && decide (a.numKey ≤ b.numKey)

/-- Numeric equality: a NaN equals nothing, not even itself, and the zeros equal each other. -/
def numEq (a b : Binary64) : Bool := !a.isNaN && !b.isNaN && decide (a.numKey = b.numKey)

/-- Numeric equality with all NaNs taken as one value. -/
def same (a b : Binary64) : Bool := numEq a b || (a.isNaN && b.isNaN)

/-- `a` ranks strictly below `b` in the total order. -/
def totalLt (a b : Binary64) : Bool := decide (a.totalKey < b.totalKey)

/-- `a` ranks strictly above `b` in the total order. -/
def totalGt (a b : Binary64) : Bool := totalLt b a

instance : LT Binary64 := ⟨fun a b => lt a b = true⟩
instance : LE Binary64 := ⟨fun a b => le a b = true⟩
instance (a b : Binary64) : Decidable (a < b) := inferInstanceAs (Decidable (lt a b = true))
instance (a b : Binary64) : Decidable (a ≤ b) := inferInstanceAs (Decidable (le a b = true))

/-- The greater of two numbers; of equal numbers the second, and a NaN gives way to the other
argument. -/
instance : Max Binary64 := ⟨fun a b => if b < a ∨ b.isNaN then a else b⟩

/-! ### Laws -/

/-- The total order tells all words apart. -/
theorem totalKey_inj {a b : Binary64} (h : a.totalKey = b.totalKey) : a = b := by
  -- The keys of negative words are below zero and all others are not, so the signs agree first.
  have view : a.isNegative = b.isNegative ∧ a.magnitude = b.magnitude := by
    unfold totalKey at h
    cases ha : a.isNegative <;> cases hb : b.isNegative <;>
      simp only [ha, hb, if_true, if_false, Bool.false_eq_true] at h
    · exact ⟨rfl, by omega⟩
    · omega
    · omega
    · exact ⟨rfl, by omega⟩
  have words : ofMagnitude a.isNegative a.magnitude = ofMagnitude b.isNegative b.magnitude := by
    rw [view.1, view.2]
  exact (ofMagnitude_magnitude a).symm.trans (words.trans (ofMagnitude_magnitude b))

theorem same_of_numEq {a b : Binary64} (h : numEq a b = true) : same a b = true := by
  simp [same, h]

theorem numEq_self {a : Binary64} (h : a.isNaN = false) : numEq a a = true := by
  simp [numEq, h]

@[simp] theorem same_self (a : Binary64) : same a a = true := by
  cases h : a.isNaN <;> simp [same, numEq, h]

end Binary64
end Rollup
