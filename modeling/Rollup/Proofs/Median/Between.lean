import Mathlib.Data.Set.Finite.Lemmas
import Mathlib.Data.Set.Finite.List
import Rollup.Proofs.Median.Restore

/-!
# The median among the values

The median of finite numbers is a finite number, between the least of them and the greatest and, if
the halves are equally large, between their tops, exactly as long as the sum of the tops does not
overflow (`median_within_run_iff`). If it does, the median is infinite, and routes whatever finite
number is inserted next to the same half.

That takes values to the wrong side, but only among numbers whose middles overflow as well: the
double of the lesser one does, of a lower value and an upper one that are out of order (`Apart`). So
two tops whose sum is finite are in order, whatever was inserted before.
-/

namespace Rollup
namespace MedianTracker

open Binary64

variable {t t' : MedianTracker} {a b value : Binary64}

/-! ## Middles that overflow -/

/-- The middle of two numbers whose sum overflows is infinite. -/
theorem middle_of_overflow (ha : a.isFinite = true) (hb : b.isFinite = true)
    (hsum : (a + b).isFinite = false) :
    ((maxUnits + halfStep : Int) ≤ a.toUnits + b.toUnits ∧ middle a b = infinity false) ∨
      (a.toUnits + b.toUnits ≤ -(maxUnits + halfStep : Int) ∧ middle a b = infinity true) := by
  have hround := rounds_add ha hb
  have hedge := mt (hround.isFinite_iff (by decide)).2 (by simp [hsum])
  have hstep := halfStep_pos
  have hmid : middle a b = infinity (decide (a.toUnits + b.toUnits < 0)) := by
    unfold middle
    rw [hround.eq_infinity hsum, half_infinite (isInfinite_infinity _)]
  rcases Int.lt_or_le (a.toUnits + b.toUnits) 0 with hneg | hpos
  · rw [decide_eq_true hneg] at hmid
    exact .inr ⟨by omega, hmid⟩
  · rw [decide_eq_false (by omega)] at hmid
    exact .inl ⟨by omega, hmid⟩

/-- `a` may be a lower value and `b` an upper one: they are in order, or the double of one of them
overflows and, if they are not in order, their sum does even more. -/
def Apart (a b : Binary64) : Prop :=
  a ≤ b ∨ (maxUnits + halfStep : Int) ≤ 2 * b.toUnits ∨
    2 * a.toUnits ≤ -(maxUnits + halfStep : Int)

theorem separation_apart : Separation Apart where
  of_le := .inl
  of_le_left := by
    rintro a a' b ha (hab | hb | hlow)
    · exact .inl (Binary64.le_trans ha hab)
    · exact .inr (.inl hb)
    · have hunits := toUnits_le_of_le ha
      exact .inr (.inr (by omega))
  of_le_right := by
    rintro a b b' (hab | hhigh | ha) hb
    · exact .inl (Binary64.le_trans hab hb)
    · have hunits := toUnits_le_of_le hb
      exact .inr (.inl (by omega))
    · exact .inr (.inr ha)

theorem Apart.le_or_overflow (h : Apart a b) (ha : a.isFinite = true) (hb : b.isFinite = true) :
    a ≤ b ∨ (a + b).isFinite = false := by
  by_cases hab : a ≤ b
  · exact .inl hab
  · right
    have hlt := toUnits_lt_of_not_le ha hb hab
    have hiff := (rounds_add ha hb).isFinite_iff (by decide)
    rw [← Bool.not_eq_true, hiff]
    rcases h with hle | hhigh | hlow
    · exact absurd hle hab
    · omega
    · omega

/-- The middle of two values tells others from them, be it finite or not. -/
theorem Apart.route (h : Apart a b) (ha : a.isFinite = true) (hb : b.isFinite = true)
    (hv : value.isFinite = true) :
    (value < middle a b → Apart value b) ∧ (¬value < middle a b → Apart a value) := by
  cases hsum : (a + b).isFinite with
  | true =>
    have hab := (h.le_or_overflow ha hb).resolve_right (by simp [hsum])
    obtain ⟨hle, hge⟩ := middle_between_of_finite ha hb hsum hab
    obtain ⟨hlower, hupper⟩ := route_of_between hle hge (isNaN_of_isFinite hv)
    exact ⟨fun hlt => .inl (hlower hlt), fun hnot => .inl (hupper hnot)⟩
  | false =>
    have hunits : a.toUnits ≤ b.toUnits ∨ (maxUnits + halfStep : Int) ≤ 2 * b.toUnits ∨
        2 * a.toUnits ≤ -(maxUnits + halfStep : Int) := h.imp_left toUnits_le_of_le
    rcases middle_of_overflow ha hb hsum with ⟨hhigh, hmid⟩ | ⟨hlow, hmid⟩
    · -- everything goes below `b`, which is so large that it may
      rw [hmid]
      exact ⟨fun _ => .inr (.inl (by omega)), fun hnot => absurd (between_infinities hv).2 hnot⟩
    · rw [hmid]
      exact ⟨fun hlt => absurd hlt (not_lt_infinity hv), fun _ => .inr (.inr (by omega))⟩

/-! ## Trackers of finite numbers -/

/-- The values are finite, and their halves are apart. -/
structure Parted (t : MedianTracker) : Prop extends Sound t where
  finite : ∀ x ∈ t.toList, x.isFinite = true
  apart : ∀ a ∈ t.lower.toList, ∀ b ∈ t.upper.toList, Apart a b

namespace Parted

theorem empty : Parted empty where
  toSound := sound_empty
  finite := fun _ hx => absurd hx List.not_mem_nil
  apart := fun _ ha => absurd ha List.not_mem_nil

theorem finite_lower (hp : Parted t) (ha : a ∈ t.lower.toList) : a.isFinite = true :=
  hp.finite a (mem_toList.2 (.inl ha))

theorem finite_upper (hp : Parted t) (hb : b ∈ t.upper.toList) : b.isFinite = true :=
  hp.finite b (mem_toList.2 (.inr hb))

theorem insert (hp : Parted t) (hv : value.isFinite = true) : Parted (t.insert value) where
  toSound := hp.toSound.insert value
  finite := by
    intro x hx
    rcases mem_insert.1 hx with rfl | hx
    · exact hv
    · exact hp.finite x hx
  apart := separation_apart.insert hp.toSound (fun x hx => isNaN_of_isFinite (hp.finite x hx))
    (isNaN_of_isFinite hv) hp.apart
    fun a ha b hb => (hp.apart a ha b hb).route (hp.finite_lower ha) (hp.finite_upper hb) hv

theorem erase? (hp : Parted t) (h : t.erase? value = some t') : Parted t' where
  toSound := hp.toSound.erase? h
  finite := fun x hx => hp.finite x (mem_of_mem_erase? h hx)
  apart := separation_apart.erase? hp.toSound (fun x hx => isNaN_of_isFinite (hp.finite x hx))
    hp.apart h

theorem apply (hp : Parted t) (update : Update)
    (hfin : ∀ value, update = .insert value → value.isFinite = true) : Parted (update.apply t) :=
  update.keeps hp Parted.empty (fun value heq => hp.insert (hfin value heq))
    fun _ _ h => hp.erase? h

/-- Finite numbers stay apart through every run. -/
theorem run {updates : List Update}
    (hfin : ∀ value, .insert value ∈ updates → value.isFinite = true) : Parted (run updates) :=
  List.foldlRecOn updates Update.apply Parted.empty fun _ hp update hmem =>
    hp.apply update fun value heq => hfin value (heq ▸ hmem)

end Parted

/-! ## The median -/

/-- The halves are equally large, and the sum of their tops overflows. -/
structure Overflows (t : MedianTracker) (a b : Binary64) : Prop where
  size_eq : t.lower.size = t.upper.size
  lower : t.lower.top? = some a
  upper : t.upper.top? = some b
  sum : (a + b).isFinite = false

/-- The median is a finite number, no less than the least value and no greater than the greatest. -/
structure MedianWithin (t : MedianTracker) : Prop where
  isFinite : t.median.isFinite = true
  least : ∃ x ∈ t.toList, (∀ y ∈ t.toList, x ≤ y) ∧ x ≤ t.median
  greatest : ∃ x ∈ t.toList, (∀ y ∈ t.toList, y ≤ x) ∧ t.median ≤ x

/-- The median is one of the values, or halves of equal size have tops to determine it. -/
theorem Sound.median_mem_or (hs : Sound t) (hpos : 0 < t.size) :
    t.median ∈ t.toList ∨ ∃ a b, t.lower.top? = some a ∧ t.upper.top? = some b ∧
      t.lower.size = t.upper.size := by
  rw [hs.median, ofTops, mem_toList]
  cases ha : t.lower.top? with
  | none =>
    cases hb : t.upper.top? with
    | none =>
      have hlower := Heap.top?_eq_none_iff.1 ha
      have hupper := Heap.top?_eq_none_iff.1 hb
      unfold size at hpos
      omega
    | some b => exact .inl (.inr (Heap.top?_mem hb))
  | some a =>
    cases hb : t.upper.top? with
    | none => exact .inl (.inl (Heap.top?_mem ha))
    | some b =>
      by_cases heq : t.lower.size = t.upper.size
      · exact .inr ⟨a, b, rfl, rfl, heq⟩
      · left
        dsimp only
        rw [if_neg heq]
        split
        · exact .inl (Heap.top?_mem ha)
        · exact .inr (Heap.top?_mem hb)

namespace Parted

/-- Between tops whose sum is finite. -/
theorem median_between_tops (hp : Parted t) (ha : t.lower.top? = some a)
    (hb : t.upper.top? = some b) (heq : t.lower.size = t.upper.size)
    (hsum : (a + b).isFinite = true) : a ≤ t.median ∧ t.median ≤ b := by
  have hma := Heap.top?_mem ha
  have hmb := Heap.top?_mem hb
  have hab := ((hp.apart a hma b hmb).le_or_overflow (hp.finite_lower hma)
    (hp.finite_upper hmb)).resolve_right (by simp [hsum])
  rw [hp.median_of_eq ha hb heq]
  exact middle_between_of_finite (hp.finite_lower hma) (hp.finite_upper hmb) hsum hab

theorem exists_between (hp : Parted t) (hpos : 0 < t.size) (hno : ∀ a b, ¬t.Overflows a b) :
    ∃ x ∈ t.toList, ∃ y ∈ t.toList, x ≤ t.median ∧ t.median ≤ y := by
  rcases hp.median_mem_or hpos with hmem | ⟨a, b, ha, hb, heq⟩
  · have hrefl := Binary64.le_refl (isNaN_of_isFinite (hp.finite _ hmem))
    exact ⟨_, hmem, _, hmem, hrefl, hrefl⟩
  · have hsum : (a + b).isFinite = true := by
      by_contra hover
      exact hno a b ⟨heq, ha, hb, Bool.eq_false_iff.2 hover⟩
    obtain ⟨hle, hge⟩ := hp.median_between_tops ha hb heq hsum
    exact ⟨a, mem_toList.2 (.inl (Heap.top?_mem ha)), b, mem_toList.2 (.inr (Heap.top?_mem hb)),
      hle, hge⟩

theorem exists_least (hp : Parted t) (hpos : 0 < t.size) :
    ∃ x ∈ t.toList, ∀ y ∈ t.toList, x ≤ y := by
  obtain ⟨x, hx, hle⟩ := Set.exists_min_image _ numKey t.toList.finite_toSet
    (List.exists_mem_of_length_pos (by rwa [length_toList]))
  exact ⟨x, hx, fun y hy => (le_iff (isNaN_of_isFinite (hp.finite x hx))
    (isNaN_of_isFinite (hp.finite y hy))).2 (hle y hy)⟩

theorem exists_greatest (hp : Parted t) (hpos : 0 < t.size) :
    ∃ x ∈ t.toList, ∀ y ∈ t.toList, y ≤ x := by
  obtain ⟨x, hx, hle⟩ := Set.exists_max_image _ numKey t.toList.finite_toSet
    (List.exists_mem_of_length_pos (by rwa [length_toList]))
  exact ⟨x, hx, fun y hy => (le_iff (isNaN_of_isFinite (hp.finite y hy))
    (isNaN_of_isFinite (hp.finite x hx))).2 (hle y hy)⟩

theorem medianWithin (hp : Parted t) (hpos : 0 < t.size) (hno : ∀ a b, ¬t.Overflows a b) :
    t.MedianWithin := by
  obtain ⟨x, hx, y, hy, hle, hge⟩ := hp.exists_between hpos hno
  obtain ⟨least, hleast, hbelow⟩ := hp.exists_least hpos
  obtain ⟨greatest, hgreatest, habove⟩ := hp.exists_greatest hpos
  exact ⟨isFinite_of_between (hp.finite x hx) (hp.finite y hy) hle hge,
    ⟨least, hleast, hbelow, Binary64.le_trans (hbelow x hx) hle⟩,
    ⟨greatest, hgreatest, habove, Binary64.le_trans hge (habove y hy)⟩⟩

/-- The median that an overflow leaves is infinite, beyond all values on one side. -/
theorem median_beyond (hp : Parted t) (h : t.Overflows a b) :
    (t.median = infinity false ∧ ∀ x ∈ t.toList, x < t.median) ∨
      (t.median = infinity true ∧ ∀ x ∈ t.toList, t.median < x) := by
  have hfa := hp.finite_lower (Heap.top?_mem h.lower)
  have hfb := hp.finite_upper (Heap.top?_mem h.upper)
  rw [hp.median_of_eq h.lower h.upper h.size_eq]
  rcases middle_of_overflow hfa hfb h.sum with ⟨-, hmid⟩ | ⟨-, hmid⟩
  · rw [hmid]
    exact .inl ⟨rfl, fun x hx => (between_infinities (hp.finite x hx)).2⟩
  · rw [hmid]
    exact .inr ⟨rfl, fun x hx => (between_infinities (hp.finite x hx)).1⟩

theorem not_isFinite_median (hp : Parted t) (h : t.Overflows a b) : t.median.isFinite = false := by
  rcases hp.median_beyond h with ⟨hmedian, -⟩ | ⟨hmedian, -⟩
  · rw [hmedian]
    decide
  · rw [hmedian]
    decide

end Parted

/-- **The median lies among the values unless a sum overflows.** After any updates that insert
finite numbers only, the median of a tracker that is not empty is finite and lies between the least
and the greatest value exactly if the sum of two tops that determine it does not overflow; the
median lies between two such tops exactly if their sum is finite. Where the sum overflows, the
median is the infinity beyond all values on its side. A lower value is never greater than an upper
one unless their sum overflows. None of these sums does if every inserted number is at most half the
greatest finite one in magnitude. -/
theorem median_within_run_iff (updates : List Update)
    (hfin : ∀ value, .insert value ∈ updates → value.isFinite = true) :
    let t := run updates
    (0 < t.size → (t.MedianWithin ↔ ∀ a b, ¬t.Overflows a b)) ∧
    (∀ a b, t.lower.top? = some a → t.upper.top? = some b → t.lower.size = t.upper.size →
      (a ≤ t.median ∧ t.median ≤ b ↔ (a + b).isFinite = true)) ∧
    (∀ a b, t.Overflows a b →
      (t.median = infinity false ∧ ∀ x ∈ t.toList, x < t.median) ∨
      (t.median = infinity true ∧ ∀ x ∈ t.toList, t.median < x)) ∧
    (∀ a ∈ t.lower.toList, ∀ b ∈ t.upper.toList, a ≤ b ∨ (a + b).isFinite = false) ∧
    ((∀ value, .insert value ∈ updates → value.IsModerate) →
      ∀ a ∈ t.toList, ∀ b ∈ t.toList, (a + b).isFinite = true) := by
  intro t
  have hp : Parted t := Parted.run hfin
  refine ⟨fun hpos => ⟨?_, hp.medianWithin hpos⟩, ?_, fun a b => hp.median_beyond, ?_, ?_⟩
  · intro hwithin a b h
    have hinf := hp.not_isFinite_median h
    rw [hwithin.isFinite] at hinf
    cases hinf
  · intro a b ha hb heq
    refine ⟨?_, hp.median_between_tops ha hb heq⟩
    rintro ⟨hle, hge⟩
    by_contra hsum
    -- between finite tops the median would be finite
    have hinf := hp.not_isFinite_median ⟨heq, ha, hb, Bool.eq_false_iff.2 hsum⟩
    rw [isFinite_of_between (hp.finite_lower (Heap.top?_mem ha))
      (hp.finite_upper (Heap.top?_mem hb)) hle hge] at hinf
    cases hinf
  · intro a ha b hb
    exact (hp.apart a ha b hb).le_or_overflow (hp.finite_lower ha) (hp.finite_upper hb)
  · intro hm a ha b hb
    have hinfa := isInfinite_of_isFinite (hp.finite a ha)
    have hinfb := isInfinite_of_isFinite (hp.finite b hb)
    exact (hm a (insert_mem_of_mem_run ha)).isFinite_add (hm b (insert_mem_of_mem_run hb)) hinfa
      hinfb

/-- The greatest number next to the least one; deletions of a value and of none; and the greatest
number whose sum with the greatest does not overflow. -/
def wideUpdates : List Update :=
  [.insert maxFinite, .insert maxFinite.neg, .delete nan, .delete maxFinite.neg,
    .insert (ofMagnitude false 0x7c8fffffffffffff)]

theorem median_within_wideUpdates :
    (∀ value, .insert value ∈ wideUpdates → value.isFinite = true) ∧
      ofMagnitude false 0x7c8fffffffffffff ≤ (run wideUpdates).median ∧
      (run wideUpdates).median ≤ maxFinite := by
  have hfin : ∀ value, .insert value ∈ wideUpdates → value.isFinite = true := by
    intro value hmem
    simp only [wideUpdates, List.mem_cons, Update.insert.injEq, List.not_mem_nil, reduceCtorEq,
      false_or, or_false] at hmem
    rcases hmem with rfl | rfl | rfl <;> decide
  exact ⟨hfin, ((median_within_run_iff wideUpdates hfin).2.1 _ _ (by decide +kernel)
    (by decide +kernel) (by decide +kernel)).2 (by decide +kernel)⟩

/-- The sum of the first two values overflows. -/
def greatestTwice : List Update := [.insert maxFinite, .insert maxFinite]

/-- The median of finite numbers need not be finite, nor lie between them. -/
theorem median_greatestTwice :
    (∀ value, .insert value ∈ greatestTwice → value.isFinite = true) ∧
      (run greatestTwice).toList = [maxFinite, maxFinite] ∧
      (run greatestTwice).median = infinity false ∧
      ¬(run greatestTwice).MedianWithin ∧ ¬(run greatestTwice).median ≤ maxFinite := by
  have hmedian : (run greatestTwice).median = infinity false := by decide +kernel
  refine ⟨?_, by decide +kernel, hmedian, fun h => ?_, ?_⟩
  · intro value hmem
    simp only [greatestTwice, List.mem_cons, Update.insert.injEq, List.not_mem_nil,
      or_false, or_self] at hmem
    rw [hmem]
    exact isFinite_maxFinite
  · exact absurd h.isFinite (by rw [hmedian]; decide)
  · rw [hmedian]
    decide

end MedianTracker
end Rollup
