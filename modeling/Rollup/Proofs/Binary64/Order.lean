import Rollup.Binary64.Order
import Rollup.Proofs.Binary64.Rounding

/-!
# Numbers behind the words

The numeric comparisons are comparisons of integer keys unless a NaN takes part (`le_iff`,
`lt_iff`), the keys are ordered as the values they stand for (`toUnits_le_toUnits`), and a key tells
all numbers apart but the two zeros (`eq_or_isZero`). `same`, numeric equality with all NaNs taken
as one value, is an equivalence.
-/

namespace Rollup
namespace Binary64

/-! ## Sign and magnitude -/

theorem numKey_ofMagnitude (s : Bool) {k : Nat} (h : k < signWeight) :
    (ofMagnitude s k).numKey = if s then -(k : Int) else k := by
  unfold numKey
  rw [isNegative_ofMagnitude s h, magnitude_ofMagnitude s h]

theorem natAbs_numKey (x : Binary64) : x.numKey.natAbs = x.magnitude := by
  unfold numKey
  split <;> omega

theorem isNaN_eq_false_iff {x : Binary64} : x.isNaN = false ↔ x.magnitude ≤ infiniteMagnitude := by
  unfold isNaN
  rw [decide_eq_false_iff_not]
  omega

/-- What is neither a NaN nor infinite is finite. -/
theorem isFinite_of_not {x : Binary64} (hn : x.isNaN = false) (hi : x.isInfinite = false) :
    x.isFinite = true := by
  have hle := isNaN_eq_false_iff.1 hn
  unfold isInfinite at hi
  rw [decide_eq_false_iff_not] at hi
  exact decide_eq_true (by omega)

theorem isNaN_of_isFinite {x : Binary64} (h : x.isFinite = true) : x.isNaN = false :=
  isNaN_eq_false_iff.2 (Nat.le_of_lt (of_decide_eq_true h))

theorem isInfinite_of_isFinite {x : Binary64} (h : x.isFinite = true) : x.isInfinite = false :=
  decide_eq_false (Nat.ne_of_lt (of_decide_eq_true h))

theorem isInfinite_infinity (s : Bool) : (infinity s).isInfinite = true := by cases s <;> decide

/-- The key of a number lies between those of the infinities. -/
theorem numKey_bounds {x : Binary64} (h : x.isNaN = false) :
    -(infiniteMagnitude : Int) ≤ x.numKey ∧ x.numKey ≤ infiniteMagnitude := by
  have hle := isNaN_eq_false_iff.1 h
  have habs := natAbs_numKey x
  omega

/-! ## Comparison by key -/

theorem le_iff {a b : Binary64} (ha : a.isNaN = false) (hb : b.isNaN = false) :
    a ≤ b ↔ a.numKey ≤ b.numKey := by
  show le a b = true ↔ _
  simp [le, ha, hb]

theorem lt_iff {a b : Binary64} (ha : a.isNaN = false) (hb : b.isNaN = false) :
    a < b ↔ a.numKey < b.numKey := by
  show lt a b = true ↔ _
  simp [lt, ha, hb]

/-- Nothing is below a NaN. -/
theorem not_lt_of_isNaN {a b : Binary64} (hb : b.isNaN = true) : ¬a < b := by
  show ¬lt a b = true
  simp [lt, hb]

/-- What is comparable is no NaN. -/
theorem isNaN_of_le {a b : Binary64} (h : a ≤ b) : a.isNaN = false ∧ b.isNaN = false := by
  have h' : le a b = true := h
  unfold le at h'
  cases ha : a.isNaN <;> cases hb : b.isNaN <;> simp [ha, hb] at h' ⊢

theorem isNaN_of_lt {a b : Binary64} (h : a < b) : a.isNaN = false ∧ b.isNaN = false := by
  have h' : lt a b = true := h
  unfold lt at h'
  cases ha : a.isNaN <;> cases hb : b.isNaN <;> simp [ha, hb] at h' ⊢

protected theorem le_refl {a : Binary64} (ha : a.isNaN = false) : a ≤ a :=
  (le_iff ha ha).2 (Int.le_refl _)

protected theorem le_trans {a b c : Binary64} (hab : a ≤ b) (hbc : b ≤ c) : a ≤ c := by
  obtain ⟨ha, hb⟩ := isNaN_of_le hab
  obtain ⟨_, hc⟩ := isNaN_of_le hbc
  exact (le_iff ha hc).2 (Int.le_trans ((le_iff ha hb).1 hab) ((le_iff hb hc).1 hbc))

theorem le_of_not_lt {a b : Binary64} (ha : a.isNaN = false) (hb : b.isNaN = false) (h : ¬a < b) :
    b ≤ a := by
  rw [lt_iff ha hb] at h
  exact (le_iff hb ha).2 (by omega)

protected theorem le_of_lt {a b : Binary64} (ha : a.isNaN = false) (hb : b.isNaN = false)
    (h : a < b) : a ≤ b :=
  (le_iff ha hb).2 (Int.le_of_lt ((lt_iff ha hb).1 h))

/-- Every finite number lies between the infinities. -/
theorem between_infinities {x : Binary64} (hx : x.isFinite = true) :
    infinity true < x ∧ x < infinity false := by
  have hlt : x.magnitude < infiniteMagnitude := of_decide_eq_true hx
  have habs := natAbs_numKey x
  have hkey : (infinity true).numKey = -infiniteMagnitude := by decide
  have hkey' : (infinity false).numKey = infiniteMagnitude := by decide
  have hn := isNaN_of_isFinite hx
  exact ⟨(lt_iff (by decide) hn).2 (by omega), (lt_iff hn (by decide)).2 (by omega)⟩

theorem not_lt_infinity {x : Binary64} (hx : x.isFinite = true) : ¬x < infinity true := by
  have hn := isNaN_of_isFinite hx
  have hlt := (lt_iff (by decide) hn).1 (between_infinities hx).1
  rw [lt_iff hn (by decide)]
  omega

/-- The total order refines the numeric one. -/
theorem numKey_le_of_totalKey_le {a b : Binary64} (h : a.totalKey ≤ b.totalKey) :
    a.numKey ≤ b.numKey := by
  unfold totalKey at h
  unfold numKey
  cases ha : a.isNegative <;> cases hb : b.isNegative <;>
    simp only [ha, hb, if_true, if_false, Bool.false_eq_true] at h ⊢ <;> omega

/-! ## Values -/

/-- Keys are ordered as the values they stand for. -/
theorem toUnits_le_toUnits {a b : Binary64} : a.toUnits ≤ b.toUnits ↔ a.numKey ≤ b.numKey := by
  have hle := units_strictMono.le_iff_le (a := a.magnitude) (b := b.magnitude)
  have hge := units_strictMono.le_iff_le (a := b.magnitude) (b := a.magnitude)
  have hza := units_strictMono.le_iff_le (a := a.magnitude) (b := 0)
  have hzb := units_strictMono.le_iff_le (a := b.magnitude) (b := 0)
  rw [show units 0 = 0 from rfl] at hza hzb
  unfold toUnits numKey
  cases a.isNegative <;> cases b.isNegative <;>
    simp only [if_true, if_false, Bool.false_eq_true] <;> omega

theorem toUnits_le_of_le {a b : Binary64} (h : a ≤ b) : a.toUnits ≤ b.toUnits :=
  toUnits_le_toUnits.2 ((le_iff (isNaN_of_le h).1 (isNaN_of_le h).2).1 h)

theorem toUnits_lt_of_not_le {a b : Binary64} (ha : a.isFinite = true) (hb : b.isFinite = true)
    (h : ¬a ≤ b) : b.toUnits < a.toUnits := by
  rw [le_iff (isNaN_of_isFinite ha) (isNaN_of_isFinite hb), ← toUnits_le_toUnits] at h
  omega

/-- One key for two words: they are the same word, or both are zeros. -/
theorem eq_or_isZero {a b : Binary64} (h : a.numKey = b.numKey) :
    a = b ∨ (a.isZero = true ∧ b.isZero = true) := by
  unfold numKey at h
  by_cases hz : a.magnitude = 0
  · right
    have hb : b.magnitude = 0 := by
      rw [hz] at h
      split at h <;> split at h <;> omega
    exact ⟨decide_eq_true hz, decide_eq_true hb⟩
  · left
    -- away from zero the sign of the key is that of the word
    have view : a.isNegative = b.isNegative ∧ a.magnitude = b.magnitude := by
      cases ha : a.isNegative <;> cases hb : b.isNegative <;>
        simp only [ha, hb, if_true, if_false, Bool.false_eq_true] at h
      · exact ⟨rfl, by omega⟩
      · omega
      · omega
      · exact ⟨rfl, by omega⟩
    rw [← ofMagnitude_magnitude a, ← ofMagnitude_magnitude b, view.1, view.2]

theorem eq_zero_of_isZero {x : Binary64} (h : x.isZero = true) : x = zero x.isNegative := by
  have hmagnitude : x.magnitude = 0 := of_decide_eq_true h
  rw [zero, ← hmagnitude, ofMagnitude_magnitude]

/-! ## Numeric equality with one NaN -/

theorem same_iff {a b : Binary64} :
    same a b = true ↔ a.isNaN = b.isNaN ∧ (a.isNaN = false → a.numKey = b.numKey) := by
  unfold same numEq
  cases a.isNaN <;> cases b.isNaN <;> simp

/-- The number that a word is, as its position among the numbers; a NaN is none. -/
def number (x : Binary64) : Option Int := if x.isNaN then none else some x.numKey

theorem same_iff_number {a b : Binary64} : same a b = true ↔ a.number = b.number := by
  rw [same_iff]
  unfold number
  cases a.isNaN <;> cases b.isNaN <;> simp

theorem same_symm {a b : Binary64} (h : same a b = true) : same b a = true := by
  obtain ⟨hn, hk⟩ := same_iff.1 h
  exact same_iff.2 ⟨hn.symm, fun hb => (hk (hn.trans hb)).symm⟩

theorem same_trans {a b c : Binary64} (h : same a b = true) (h' : same b c = true) :
    same a c = true := by
  obtain ⟨hn, hk⟩ := same_iff.1 h
  obtain ⟨hn', hk'⟩ := same_iff.1 h'
  exact same_iff.2 ⟨hn.trans hn', fun ha => (hk ha).trans (hk' (hn.symm.trans ha))⟩

/-- Two words are the same number or both NaNs: they are equal, or both zeros, or both NaNs. -/
theorem eq_or_of_same {a b : Binary64} (h : same a b = true) :
    a = b ∨ (a.isZero = true ∧ b.isZero = true) ∨ (a.isNaN = true ∧ b.isNaN = true) := by
  obtain ⟨hn, hk⟩ := same_iff.1 h
  cases ha : a.isNaN with
  | true => exact .inr (.inr ⟨rfl, hn ▸ ha⟩)
  | false =>
    rcases eq_or_isZero (hk ha) with heq | hz
    · exact .inl heq
    · exact .inr (.inl hz)

end Binary64
end Rollup
