import Rollup.Median.Tracker
import Rollup.Proofs.Binary64.Order
import Rollup.Proofs.Median.HeapOrder

/-!
# The two halves of a tracker

Whatever doubles a tracker is fed, its halves stay heaps of nearly equal size under a median that is
up to date (`Sound`), and its values change as the operation says: an insertion adds its value
(`toList_insert`), a removal takes out one value that is the same number, or there is none
(`erase?_spec`). How the halves change is said once for each operation, by the relations
`Insertion`, `Removal` and `Rebalanced`; what holds of the halves is then shown route by route.
-/

namespace Rollup
namespace MedianTracker

open Heap (ranking_totalLt ranking_totalGt)

variable {t t' : MedianTracker} {lower : Heap Binary64.totalGt} {upper : Heap Binary64.totalLt}
  {value : Binary64}

/-- Both halves are heaps, their sizes differ by one at most, and the median is that of their tops.
-/
structure Sound (t : MedianTracker) : Prop where
  lower : Heap.IsHeap Binary64.totalGt t.lower.items
  upper : Heap.IsHeap Binary64.totalLt t.upper.items
  lower_le : t.lower.size ≤ t.upper.size + 1
  upper_le : t.upper.size ≤ t.lower.size + 1
  median : t.median = ofTops t.lower t.upper

theorem sound_empty : Sound empty where
  lower := fun i x y _ hx =>
    absurd (Array.getElem?_eq_some_iff.1 hx).1 (by simp [empty, Heap.empty])
  upper := fun i x y _ hx =>
    absurd (Array.getElem?_eq_some_iff.1 hx).1 (by simp [empty, Heap.empty])
  lower_le := by decide
  upper_le := by decide
  median := by decide

theorem mem_toList {x : Binary64} : x ∈ t.toList ↔ x ∈ t.lower.toList ∨ x ∈ t.upper.toList :=
  List.mem_append

theorem length_toList (t : MedianTracker) : t.toList.length = t.size := by
  unfold toList size
  rw [List.length_append, Heap.length_toList, Heap.length_toList]

/-- A half that is not empty has a top. -/
theorem exists_top {above : Binary64 → Binary64 → Bool} {h : Heap above} (hpos : 0 < h.size) :
    ∃ top, h.top? = some top := by
  cases htop : h.top? with
  | none => exact absurd (Heap.top?_eq_none_iff.1 htop) (by omega)
  | some top => exact ⟨top, rfl⟩

/-! ## Insertion -/

/-- The routes a new value can take: into a half that has room for it, or into the other one, whose
top makes room. -/
inductive Insertion (t : MedianTracker) (value : Binary64) : MedianTracker → Prop where
  | intoLower (hroom : t.lower.size ≤ t.upper.size)
      (hfits : t.size = 0 ∨ (∃ top, t.upper.top? = some top ∧ ¬top < value) ∨
        0 < t.lower.size ∧ t.lower.size = t.upper.size ∧ value < t.median) :
      Insertion t value (ofHalves (t.lower.push value) t.upper)
  | intoUpper (hroom : t.upper.size ≤ t.lower.size)
      (hfits : (∃ top, t.lower.top? = some top ∧ ¬value < top ∧ t.upper.size < t.lower.size) ∨
        0 < t.lower.size ∧ t.lower.size = t.upper.size ∧ ¬value < t.median) :
      Insertion t value (ofHalves t.lower (t.upper.push value))
  | throughLower (top : Binary64) (hsize : t.upper.size < t.lower.size)
      (htop : t.lower.top? = some top) (hlt : value < top) :
      Insertion t value (ofHalves (t.lower.pop.push value) (t.upper.push top))
  | throughUpper (top : Binary64) (hsize : t.lower.size < t.upper.size)
      (htop : t.upper.top? = some top) (hlt : top < value) :
      Insertion t value (ofHalves (t.lower.push top) (t.upper.pop.push value))

/-- The first value of a tracker is its median, as the only top. -/
theorem insert_of_size_eq_zero (h : t.size = 0) (value : Binary64) :
    t.insert value = ofHalves (t.lower.push value) t.upper := by
  have hlower : t.lower.items = #[] := by
    have hsize : t.lower.items.size = 0 := by unfold size Heap.size at h; omega
    exact Array.size_eq_zero_iff.1 hsize
  have hupper : t.upper.items = #[] := by
    have hsize : t.upper.items.size = 0 := by unfold size Heap.size at h; omega
    exact Array.size_eq_zero_iff.1 hsize
  have htop : (t.lower.push value).top? = some value := by
    unfold Heap.push Heap.top?
    rw [hlower, Heap.siftUp, dif_neg (by simp)]
    rfl
  have hnone : t.upper.top? = none := by
    unfold Heap.top?
    rw [hupper]
    rfl
  unfold insert ofHalves ofTops
  rw [if_pos h, htop, hnone]

theorem insertion (t : MedianTracker) (value : Binary64) : Insertion t value (t.insert value) := by
  by_cases hempty : t.size = 0
  · rw [insert_of_size_eq_zero hempty]
    exact .intoLower (by unfold size at hempty; omega) (.inl hempty)
  unfold insert
  rw [if_neg hempty]
  by_cases hmore : t.upper.size < t.lower.size
  · rw [if_pos hmore]
    obtain ⟨top, htop⟩ := exists_top (h := t.lower) (by omega)
    by_cases hlt : value < top
    · rw [htop, Option.filter_some, if_pos (by simpa using hlt)]
      exact .throughLower top hmore htop hlt
    · rw [htop, Option.filter_some, if_neg (by simpa using hlt)]
      exact .intoUpper (Nat.le_of_lt hmore) (.inl ⟨top, htop, hlt, hmore⟩)
  rw [if_neg hmore]
  by_cases hless : t.lower.size < t.upper.size
  · rw [if_pos hless]
    obtain ⟨top, htop⟩ := exists_top (h := t.upper) (by omega)
    by_cases hlt : top < value
    · rw [htop, Option.filter_some, if_pos (by simpa using hlt)]
      exact .throughUpper top hless htop hlt
    · rw [htop, Option.filter_some, if_neg (by simpa using hlt)]
      exact .intoLower (Nat.le_of_lt hless) (.inr (.inl ⟨top, htop, hlt⟩))
  rw [if_neg hless]
  have heq : t.lower.size = t.upper.size := by omega
  have hpos : 0 < t.lower.size := by unfold size at hempty; omega
  by_cases hlt : value < t.median
  · rw [if_pos hlt]
    exact .intoLower (Nat.le_of_eq heq) (.inr (.inr ⟨hpos, heq, hlt⟩))
  · rw [if_neg hlt]
    exact .intoUpper (Nat.le_of_eq heq.symm) (.inr ⟨hpos, heq, hlt⟩)

/-- An insertion adds its value to the others. -/
theorem toList_insert (t : MedianTracker) (value : Binary64) :
    (t.insert value).toList.Perm (value :: t.toList) := by
  have step := insertion t value
  generalize t.insert value = t' at step
  cases step with
  | intoLower => exact (Heap.toList_push t.lower value).append_right _
  | intoUpper =>
    exact ((Heap.toList_push t.upper value).append_left _).trans List.perm_middle
  | throughLower top hsize htop =>
    have hpop : (top :: t.lower.pop.toList).Perm t.lower.toList := Heap.toList_eraseIdx _ htop
    show ((t.lower.pop.push value).toList ++ (t.upper.push top).toList).Perm _
    refine ((Heap.toList_push _ value).append (Heap.toList_push _ top)).trans ?_
    refine List.Perm.cons value (List.perm_middle.trans ?_)
    exact hpop.append_right t.upper.toList
  | throughUpper top hsize htop =>
    have hpop : (top :: t.upper.pop.toList).Perm t.upper.toList := Heap.toList_eraseIdx _ htop
    show ((t.lower.push top).toList ++ (t.upper.pop.push value).toList).Perm _
    refine ((Heap.toList_push _ top).append (Heap.toList_push _ value)).trans ?_
    refine List.perm_middle.trans (List.Perm.cons value ?_)
    refine List.perm_middle.symm.trans ?_
    exact hpop.append_left t.lower.toList

theorem isHeap_pop {above : Binary64 → Binary64 → Bool} (hr : Heap.Ranking above) {h : Heap above}
    (hh : Heap.IsHeap above h.items) (hpos : 0 < h.size) : Heap.IsHeap above h.pop.items :=
  Heap.isHeap_eraseIdx hr hh hpos

theorem size_pop {above : Binary64 → Binary64 → Bool} (h : Heap above) :
    h.pop.size = h.size - 1 := Heap.size_eraseIdx h 0

theorem Sound.insert (hs : Sound t) (value : Binary64) : Sound (t.insert value) := by
  have hlower := hs.lower_le
  have hupper := hs.upper_le
  have step := insertion t value
  generalize t.insert value = t' at step
  cases step with
  | intoLower hroom =>
    refine ⟨Heap.isHeap_push ranking_totalGt hs.lower value, hs.upper, ?_, ?_, rfl⟩
    · show (t.lower.push value).size ≤ t.upper.size + 1
      rw [Heap.size_push]
      omega
    · show t.upper.size ≤ (t.lower.push value).size + 1
      rw [Heap.size_push]
      omega
  | intoUpper hroom =>
    refine ⟨hs.lower, Heap.isHeap_push ranking_totalLt hs.upper value, ?_, ?_, rfl⟩
    · show t.lower.size ≤ (t.upper.push value).size + 1
      rw [Heap.size_push]
      omega
    · show (t.upper.push value).size ≤ t.lower.size + 1
      rw [Heap.size_push]
      omega
  | throughLower top hsize =>
    refine ⟨Heap.isHeap_push ranking_totalGt (isHeap_pop ranking_totalGt hs.lower (by omega)) value,
      Heap.isHeap_push ranking_totalLt hs.upper top, ?_, ?_, rfl⟩
    · show (t.lower.pop.push value).size ≤ (t.upper.push top).size + 1
      rw [Heap.size_push, Heap.size_push, size_pop]
      omega
    · show (t.upper.push top).size ≤ (t.lower.pop.push value).size + 1
      rw [Heap.size_push, Heap.size_push, size_pop]
      omega
  | throughUpper top hsize =>
    refine ⟨Heap.isHeap_push ranking_totalGt hs.lower top,
      Heap.isHeap_push ranking_totalLt (isHeap_pop ranking_totalLt hs.upper (by omega)) value,
      ?_, ?_, rfl⟩
    · show (t.lower.push top).size ≤ (t.upper.pop.push value).size + 1
      rw [Heap.size_push, Heap.size_push, size_pop]
      omega
    · show (t.upper.pop.push value).size ≤ (t.lower.push top).size + 1
      rw [Heap.size_push, Heap.size_push, size_pop]
      omega

/-! ## Removal -/

/-- What balancing two halves can come to. -/
inductive Rebalanced (lower : Heap Binary64.totalGt) (upper : Heap Binary64.totalLt) :
    MedianTracker → Prop where
  | kept (hlower : lower.size ≤ upper.size + 1) (hupper : upper.size ≤ lower.size + 1) :
      Rebalanced lower upper (ofHalves lower upper)
  | fromLower (top : Binary64) (hsize : upper.size + 1 < lower.size)
      (htop : lower.top? = some top) : Rebalanced lower upper (ofHalves lower.pop (upper.push top))
  | fromUpper (top : Binary64) (hsize : lower.size + 1 < upper.size)
      (htop : upper.top? = some top) : Rebalanced lower upper (ofHalves (lower.push top) upper.pop)

theorem rebalanced (lower : Heap Binary64.totalGt) (upper : Heap Binary64.totalLt) :
    Rebalanced lower upper (rebalance lower upper) := by
  unfold rebalance
  by_cases hlower : upper.size + 1 < lower.size
  · obtain ⟨top, htop⟩ := exists_top (h := lower) (by omega)
    rw [if_pos hlower, htop]
    exact .fromLower top hlower htop
  · rw [if_neg hlower]
    by_cases hupper : lower.size + 1 < upper.size
    · obtain ⟨top, htop⟩ := exists_top (h := upper) (by omega)
      rw [if_pos hupper, htop]
      exact .fromUpper top hupper htop
    · rw [if_neg hupper]
      exact .kept (by omega) (by omega)

theorem toList_rebalance (lower : Heap Binary64.totalGt) (upper : Heap Binary64.totalLt) :
    (rebalance lower upper).toList.Perm (lower.toList ++ upper.toList) := by
  have step := rebalanced lower upper
  generalize rebalance lower upper = t' at step
  cases step with
  | kept => exact .refl _
  | fromLower top hsize htop =>
    have hpop : (top :: lower.pop.toList).Perm lower.toList := Heap.toList_eraseIdx _ htop
    refine ((Heap.toList_push upper top).append_left _).trans ?_
    exact List.perm_middle.trans (hpop.append_right _)
  | fromUpper top hsize htop =>
    have hpop : (top :: upper.pop.toList).Perm upper.toList := Heap.toList_eraseIdx _ htop
    refine ((Heap.toList_push lower top).append_right _).trans ?_
    exact List.perm_middle.symm.trans (hpop.append_left _)

/-- Halves that are out of balance by two at most are balanced by one move. -/
theorem sound_rebalance (hlower : Heap.IsHeap Binary64.totalGt lower.items)
    (hupper : Heap.IsHeap Binary64.totalLt upper.items) (hle : lower.size ≤ upper.size + 2)
    (hge : upper.size ≤ lower.size + 2) : Sound (rebalance lower upper) := by
  have step := rebalanced lower upper
  generalize rebalance lower upper = t' at step
  cases step with
  | kept hle' hge' => exact ⟨hlower, hupper, hle', hge', rfl⟩
  | fromLower top hsize =>
    refine ⟨isHeap_pop ranking_totalGt hlower (by omega),
      Heap.isHeap_push ranking_totalLt hupper top, ?_, ?_, rfl⟩
    · show lower.pop.size ≤ (upper.push top).size + 1
      rw [Heap.size_push, size_pop]
      omega
    · show (upper.push top).size ≤ lower.pop.size + 1
      rw [Heap.size_push, size_pop]
      omega
  | fromUpper top hsize =>
    refine ⟨Heap.isHeap_push ranking_totalGt hlower top,
      isHeap_pop ranking_totalLt hupper (by omega), ?_, ?_, rfl⟩
    · show (lower.push top).size ≤ upper.pop.size + 1
      rw [Heap.size_push, size_pop]
      omega
    · show upper.pop.size ≤ (lower.push top).size + 1
      rw [Heap.size_push, size_pop]
      omega

/-- What removing a value can come to. -/
inductive Removal (t : MedianTracker) (value : Binary64) : Option MedianTracker → Prop where
  | absent (hnone : ∀ x ∈ t.toList, Binary64.same x value = false) : Removal t value none
  | fromLower (i : Nat) (x : Binary64) (hx : t.lower.items[i]? = some x)
      (hsame : Binary64.same x value = true) :
      Removal t value (some (rebalance (t.lower.eraseIdx i) t.upper))
  | fromUpper (i : Nat) (x : Binary64) (hx : t.upper.items[i]? = some x)
      (hsame : Binary64.same x value = true) :
      Removal t value (some (rebalance t.lower (t.upper.eraseIdx i)))

theorem removal (t : MedianTracker) (value : Binary64) : Removal t value (t.erase? value) := by
  unfold erase?
  dsimp only
  rcases Heap.erase?_spec t.lower (Binary64.same · value) with
    ⟨hlower, hnone⟩ | ⟨i, x, hx, hsame, hlower⟩
  · rcases Heap.erase?_spec t.upper (Binary64.same · value) with
      ⟨hupper, hnone'⟩ | ⟨j, y, hy, hsame', hupper⟩
    · rw [hlower, hupper]
      have habsent : ∀ x ∈ t.toList, Binary64.same x value = false := by
        intro x hx
        rcases mem_toList.1 hx with hx | hx
        · exact hnone x hx
        · exact hnone' x hx
      split
      · exact .absent habsent
      · exact .absent habsent
    · rw [hlower, hupper]
      split
      · exact .fromUpper j y hy hsame'
      · exact .fromUpper j y hy hsame'
  · rw [hlower]
    rcases Heap.erase?_spec t.upper (Binary64.same · value) with
      ⟨hupper, _⟩ | ⟨j, y, hy, hsame', hupper⟩
    · rw [hupper]
      split
      · exact .fromLower i x hx hsame
      · exact .fromLower i x hx hsame
    · rw [hupper]
      split
      · exact .fromLower i x hx hsame
      · exact .fromUpper j y hy hsame'

/-- A removal takes out one value that is the same number, unless there is none. -/
theorem erase?_spec (t : MedianTracker) (value : Binary64) :
    (t.erase? value = none ∧ ∀ x ∈ t.toList, Binary64.same x value = false) ∨
      ∃ t' x, t.erase? value = some t' ∧ Binary64.same x value = true ∧
        (x :: t'.toList).Perm t.toList := by
  have step := removal t value
  generalize t.erase? value = result at step
  cases step with
  | absent hnone => exact .inl ⟨rfl, hnone⟩
  | fromLower i x hx hsame =>
    refine .inr ⟨_, x, rfl, hsame, ?_⟩
    refine ((toList_rebalance _ _).cons x).trans ?_
    exact (Heap.toList_eraseIdx t.lower hx).append_right _
  | fromUpper i x hx hsame =>
    refine .inr ⟨_, x, rfl, hsame, ?_⟩
    refine ((toList_rebalance _ _).cons x).trans ?_
    exact List.perm_middle.symm.trans ((Heap.toList_eraseIdx t.upper hx).append_left _)

theorem Sound.erase? (hs : Sound t) (h : t.erase? value = some t') : Sound t' := by
  have hlower := hs.lower_le
  have hupper := hs.upper_le
  have step := removal t value
  rw [h] at step
  cases step with
  | fromLower i x hx =>
    have hi := (Array.getElem?_eq_some_iff.1 hx).1
    have hsize := Heap.size_eraseIdx t.lower i
    exact sound_rebalance (Heap.isHeap_eraseIdx ranking_totalGt hs.lower hi) hs.upper
      (by omega) (by omega)
  | fromUpper i x hx =>
    have hi := (Array.getElem?_eq_some_iff.1 hx).1
    have hsize := Heap.size_eraseIdx t.upper i
    exact sound_rebalance hs.lower (Heap.isHeap_eraseIdx ranking_totalLt hs.upper hi)
      (by omega) (by omega)

end MedianTracker
end Rollup
