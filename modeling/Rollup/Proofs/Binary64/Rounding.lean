import Mathlib.Order.Monotone.Basic
import Mathlib.Tactic.Linarith
import Mathlib.Tactic.Ring
import Rollup.Binary64.Rounding

/-!
# Rounding never crosses the grid

`units` is strictly increasing, so magnitudes compare as the values they stand for. The main
statements are the two halves of "rounding does not step over a representable value":

* `le_nearest`: a grid point at or below the quotient is at or below its rounding;
* `nearest_le`: a grid point at or above the quotient is at or above its rounding.

Together they say that rounding keeps every grid point where it is (`nearest_units`). Which of its
two neighbours a quotient goes to is decided by the midpoint between them (`nearest_le_iff`).
-/

namespace Rollup
namespace Binary64

/-! ## The grid -/

/-- One magnitude further is one spacing further. A significand that carries into the exponent has
doubled spacing from there on, but it is reached with the old one. -/
theorem units_succ (k : Nat) : units (k + 1) = units k + 2 ^ (k / fractions - 1) := by
  by_cases hk : k + 1 < fractions
  · -- below the first exponent the grid is that of the unit
    have he : k / fractions - 1 = 0 := by unfold fractions at *; omega
    rw [units, units, if_pos hk, if_pos (by omega), he]
    rfl
  · by_cases hfirst : k + 1 = fractions
    · obtain rfl : k = fractions - 1 := by omega
      decide
    · have hge : ¬k < fractions := by omega
      rw [units, units, if_neg hk, if_neg hge]
      show (fractions + (k + 1) % fractions) * 2 ^ ((k + 1) / fractions - 1)
        = (fractions + k % fractions) * 2 ^ (k / fractions - 1) + 2 ^ (k / fractions - 1)
      by_cases hcarry : (k + 1) % fractions = 0
      · have hmod : k % fractions = fractions - 1 := by unfold fractions at *; omega
        have hexp : (k + 1) / fractions - 1 = (k / fractions - 1) + 1 := by
          unfold fractions at *; omega
        rw [hcarry, hmod, hexp, Nat.pow_succ]
        generalize 2 ^ (k / fractions - 1) = spacing
        unfold fractions
        omega
      · have hmod : (k + 1) % fractions = k % fractions + 1 := by unfold fractions at *; omega
        have hexp : (k + 1) / fractions = k / fractions := by unfold fractions at *; omega
        rw [hmod, hexp]
        ring

theorem units_strictMono : StrictMono units := by
  apply strictMono_nat_of_lt_succ
  intro k
  have hpos : 0 < 2 ^ (k / fractions - 1) := Nat.two_pow_pos _
  rw [units_succ]
  omega

/-- The grid in exponent `e`: significands from `2⁵²` to `2⁵³`, the last of which is the first of
the next exponent. In the lowest exponent the smaller significands are on the grid as well. -/
theorem units_of_significand {e h : Nat} (hlo : fractions ≤ h ∨ e = 0) (hhi : h ≤ 2 * fractions) :
    units (e * fractions + h) = h * 2 ^ e := by
  by_cases hsmall : e * fractions + h < fractions
  · obtain rfl : e = 0 := by
      rcases hlo with hlo | he
      · omega
      · exact he
    rw [units, if_pos hsmall]
    ring
  rw [units, if_neg hsmall]
  show (fractions + (e * fractions + h) % fractions) * 2 ^ ((e * fractions + h) / fractions - 1)
    = h * 2 ^ e
  have hmod : (e * fractions + h) % fractions = h % fractions := Nat.mul_add_mod_self_right _ _ _
  have hdiv : (e * fractions + h) / fractions = e + h / fractions := by
    rw [Nat.add_comm, Nat.add_mul_div_right _ _ (by decide), Nat.add_comm]
  rw [hmod, hdiv]
  rcases Nat.lt_or_eq_of_le hhi with hlt | rfl
  · have hge : fractions ≤ h := by
      rcases hlo with hlo | rfl
      · exact hlo
      · omega
    have hq : h / fractions = 1 := by unfold fractions at *; omega
    have hr : fractions + h % fractions = h := by unfold fractions at *; omega
    rw [hq, hr]
    rfl
  · -- the significand carries into the exponent
    have hq : 2 * fractions / fractions = 2 := by decide
    have hr : 2 * fractions % fractions = 0 := by decide
    rw [hq, hr, show e + 2 - 1 = e + 1 from rfl, Nat.pow_succ]
    ring

/-- Small significands are on the grid of every exponent. -/
theorem exists_units_eq {h : Nat} (hh : h ≤ 2 * fractions) (e : Nat) :
    ∃ k, units k = h * 2 ^ e := by
  induction e generalizing h with
  | zero => exact ⟨0 * fractions + h, units_of_significand (.inr rfl) hh⟩
  | succ e ih =>
    by_cases hsmall : h < fractions
    · -- one more binary digit makes up for one exponent less
      obtain ⟨k, hk⟩ := ih (h := 2 * h) (by omega)
      exact ⟨k, by rw [hk, Nat.pow_succ]; ring⟩
    · exact ⟨(e + 1) * fractions + h, units_of_significand (.inl (by omega)) hh⟩

/-! ## Rounding -/

/-- A significand at spacing `2 ^ e`, in parts of a unit. -/
theorem significand_mul (q e d : Nat) : q * 2 ^ e * d = q * (d * 2 ^ e) := by
  rw [Nat.mul_assoc, Nat.mul_comm (2 ^ e)]

/-- The nearest integer is the whole part or, if something is left over, the one above it. -/
theorem halfEven_eq_or (n : Nat) {d : Nat} (hd : 0 < d) :
    halfEven n d = n / d ∨ halfEven n d = n / d + 1 ∧ 0 < n % d := by
  unfold halfEven
  dsimp only
  split
  · next h => exact .inr ⟨rfl, by omega⟩
  · exact .inl rfl

/-- The spacing leaves a significand of at most 53 binary digits, and of exactly that many above the
lowest exponent. -/
theorem significand_bounds (n d : Nat) :
    n / (d * 2 ^ spacing n d) < 2 * fractions ∧
      (fractions ≤ n / (d * 2 ^ spacing n d) ∨ spacing n d = 0) := by
  rw [← Nat.div_div_eq_div_mul]
  unfold spacing
  dsimp only
  generalize n / d = q
  split
  · next h => exact ⟨by simpa using h, .inr rfl⟩
  · next h =>
    have hq : q ≠ 0 := by unfold fractions at h; omega
    have hlog : 53 ≤ Nat.log2 q := (Nat.le_log2 hq).2 (by unfold fractions at h; omega)
    have hpow : 2 ^ Nat.log2 q = fractions * 2 ^ (Nat.log2 q - 52) := by
      rw [show fractions = 2 ^ 52 by decide, ← Nat.pow_add]
      congr 1
      omega
    have hpos : 0 < 2 ^ (Nat.log2 q - 52) := Nat.two_pow_pos _
    have hself : 2 ^ Nat.log2 q ≤ q := Nat.log2_self_le hq
    have hnext : q < 2 ^ (Nat.log2 q + 1) := Nat.lt_log2_self
    constructor
    · rw [Nat.div_lt_iff_lt_mul hpos]
      rw [Nat.pow_succ, hpow] at hnext
      linarith
    · left
      rw [Nat.le_div_iff_mul_le hpos, ← hpow]
      exact hself

/-- Every grid point at or below the quotient is at or below its rounding. -/
theorem le_nearest {n d k : Nat} (hd : 0 < d) (hk : k ≤ infiniteMagnitude)
    (h : units k * d ≤ n) : k ≤ nearest n d := by
  obtain ⟨hhi, hlo⟩ := significand_bounds n d
  have hD : 0 < d * 2 ^ spacing n d := Nat.mul_pos hd (Nat.two_pow_pos _)
  refine Nat.le_min.2 ⟨?_, hk⟩
  show k ≤ spacing n d * fractions + halfEven n (d * 2 ^ spacing n d)
  -- a magnitude beyond the whole part has a value beyond the quotient
  have hwhole : k ≤ spacing n d * fractions + n / (d * 2 ^ spacing n d) := by
    by_contra hgt
    have hle : units (spacing n d * fractions + (n / (d * 2 ^ spacing n d) + 1)) ≤ units k :=
      units_strictMono.monotone (by omega)
    rw [units_of_significand (by omega) (by omega)] at hle
    have hlt : n < (n / (d * 2 ^ spacing n d) + 1) * (d * 2 ^ spacing n d) := by
      rw [Nat.mul_comm]; exact Nat.lt_mul_div_succ n hD
    have hmul := Nat.mul_le_mul_right d hle
    rw [significand_mul] at hmul
    omega
  rcases halfEven_eq_or n hD with heq | ⟨heq, _⟩ <;> omega

/-- Every grid point at or above the quotient is at or above its rounding. -/
theorem nearest_le {n d k : Nat} (hd : 0 < d) (h : n ≤ units k * d) : nearest n d ≤ k := by
  obtain ⟨hhi, hlo⟩ := significand_bounds n d
  have hD : 0 < d * 2 ^ spacing n d := Nat.mul_pos hd (Nat.two_pow_pos _)
  refine (Nat.min_le_left _ _).trans ?_
  show spacing n d * fractions + halfEven n (d * 2 ^ spacing n d) ≤ k
  have hwhole : n / (d * 2 ^ spacing n d) * (d * 2 ^ spacing n d) ≤ n := Nat.div_mul_le_self _ _
  have hvalue := units_of_significand hlo (Nat.le_of_lt hhi)
  by_contra hgt
  rcases halfEven_eq_or n hD with heq | ⟨heq, hrest⟩
  · -- the rounding is the whole part, so `k` stands for less than it
    have hlt : units k < units (spacing n d * fractions + n / (d * 2 ^ spacing n d)) :=
      units_strictMono (by omega)
    rw [hvalue] at hlt
    have hmul := Nat.mul_lt_mul_of_pos_right hlt hd
    rw [significand_mul] at hmul
    omega
  · -- the rounding is one above the whole part, but the quotient is more than the whole part
    have hle : units k ≤ units (spacing n d * fractions + n / (d * 2 ^ spacing n d)) :=
      units_strictMono.monotone (by omega)
    rw [hvalue] at hle
    have hmul := Nat.mul_le_mul_right d hle
    rw [significand_mul, Nat.mul_comm (n / _)] at hmul
    have hsplit := Nat.div_add_mod n (d * 2 ^ spacing n d)
    omega

/-- Grid points are not moved. -/
theorem nearest_units {k d : Nat} (hd : 0 < d) (hk : k ≤ infiniteMagnitude) :
    nearest (units k * d) d = k :=
  Nat.le_antisymm (nearest_le hd le_rfl) (le_nearest hd hk le_rfl)

theorem nearest_le_infinite (n d : Nat) : nearest n d ≤ infiniteMagnitude := Nat.min_le_right _ _

/-! ## Midpoints -/

/-- A quotient is rounded to `k` or below exactly if it lies below the midpoint between `k` and the
next magnitude, or on it and `k` is even. -/
theorem nearest_le_iff {n d k : Nat} (hd : 0 < d) (hk : k < infiniteMagnitude) :
    nearest n d ≤ k ↔ 2 * n < (units k + units (k + 1)) * d ∨
      2 * n = (units k + units (k + 1)) * d ∧ k % 2 = 0 := by
  obtain ⟨hhi, hlo⟩ := significand_bounds n d
  have hD : 0 < d * 2 ^ spacing n d := Nat.mul_pos hd (Nat.two_pow_pos _)
  have hwhole : units (spacing n d * fractions + n / (d * 2 ^ spacing n d)) * d
      = n / (d * 2 ^ spacing n d) * (d * 2 ^ spacing n d) := by
    rw [units_of_significand hlo (Nat.le_of_lt hhi), significand_mul]
  have hnext : units (spacing n d * fractions + n / (d * 2 ^ spacing n d) + 1) * d
      = (n / (d * 2 ^ spacing n d) + 1) * (d * 2 ^ spacing n d) := by
    rw [Nat.add_assoc, units_of_significand (by omega) (by omega), significand_mul]
  have hsplit := Nat.div_add_mod n (d * 2 ^ spacing n d)
  have hrest := Nat.mod_lt n hD
  have hparity : (spacing n d * fractions + n / (d * 2 ^ spacing n d)) % 2
      = n / (d * 2 ^ spacing n d) % 2 := by unfold fractions; omega
  have hnear : nearest n d ≤ k ↔
      spacing n d * fractions + halfEven n (d * 2 ^ spacing n d) ≤ k := by
    show min _ _ ≤ k ↔ _
    rw [min_le_iff]
    exact ⟨fun h => h.resolve_right (by omega), .inl⟩
  rw [hnear]
  unfold halfEven
  dsimp only
  revert hwhole hnext hsplit hrest hparity
  generalize n / (d * 2 ^ spacing n d) = q
  generalize n % (d * 2 ^ spacing n d) = r
  generalize d * 2 ^ spacing n d = D
  generalize spacing n d * fractions = base
  intro hwhole hnext hsplit hrest hparity
  rcases Nat.lt_trichotomy k (base + q) with hlt | rfl | hgt
  · -- the whole part is beyond `k`
    have hle : units (k + 1) ≤ units (base + q) := units_strictMono.monotone (by omega)
    have hstep : units k < units (k + 1) := units_strictMono (Nat.lt_succ_self k)
    have hmid : (units k + units (k + 1)) * d < 2 * n := by
      have hlow := Nat.mul_lt_mul_of_pos_right hstep hd
      have hup := Nat.mul_le_mul_right d hle
      rw [hwhole, Nat.mul_comm q] at hup
      rw [Nat.add_mul]
      omega
    constructor
    · intro h
      split at h <;> omega
    · rintro (h | ⟨h, _⟩) <;> omega
  · have hmid : (units (base + q) + units (base + q + 1)) * d = 2 * (D * q) + D := by
      rw [Nat.add_mul, hwhole, hnext]
      ring
    rw [hmid, hparity]
    split
    · next h => constructor <;> omega
    · next h => constructor <;> omega
  · -- `k` is at least the magnitude above the whole part, which the quotient does not reach
    have hle : units (base + q + 1) ≤ units k := units_strictMono.monotone (by omega)
    have hstep : units k < units (k + 1) := units_strictMono (Nat.lt_succ_self k)
    have hmid : 2 * n < (units k + units (k + 1)) * d := by
      have hup := Nat.mul_lt_mul_of_pos_right hstep hd
      have hlow := Nat.mul_le_mul_right d hle
      rw [hnext, Nat.add_mul, Nat.mul_comm q, Nat.one_mul] at hlow
      rw [Nat.add_mul]
      omega
    constructor
    · intro _
      exact .inl hmid
    · intro _
      split <;> omega

theorem nearest_mono {m n d : Nat} (hd : 0 < d) (h : m ≤ n) : nearest m d ≤ nearest n d := by
  by_cases hinf : nearest n d < infiniteMagnitude
  · rw [nearest_le_iff hd hinf]
    rcases (nearest_le_iff hd hinf).1 (Nat.le_refl _) with hlt | ⟨heq, heven⟩
    · exact .inl (by omega)
    · rcases Nat.lt_or_eq_of_le h with hlt | rfl
      · exact .inl (by omega)
      · exact .inr ⟨heq, heven⟩
  · exact (nearest_le_infinite m d).trans (by omega)

/-- Only the quotient counts, not how it is written. -/
theorem nearest_mul_right {n d c : Nat} (hd : 0 < d) (hc : 0 < c) :
    nearest (n * c) (d * c) = nearest n d := by
  have agree : ∀ k, k < infiniteMagnitude → (nearest (n * c) (d * c) ≤ k ↔ nearest n d ≤ k) := by
    intro k hk
    rw [nearest_le_iff (Nat.mul_pos hd hc) hk, nearest_le_iff hd hk, ← Nat.mul_assoc,
      ← Nat.mul_assoc, Nat.mul_lt_mul_right hc, Nat.mul_right_cancel_iff hc]
  have hle := nearest_le_infinite n d
  have hle' := nearest_le_infinite (n * c) (d * c)
  apply Nat.le_antisymm
  · by_cases h : nearest n d < infiniteMagnitude
    · exact (agree _ h).2 (Nat.le_refl _)
    · omega
  · by_cases h : nearest (n * c) (d * c) < infiniteMagnitude
    · exact (agree _ h).1 (Nat.le_refl _)
    · omega

end Binary64
end Rollup
