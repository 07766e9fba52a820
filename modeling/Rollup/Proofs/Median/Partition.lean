import Rollup.Proofs.Median.Halves
import Rollup.Proofs.Median.Middle

/-!
# Halves that do not overlap

What keeps the halves of a tracker apart is a relation of each lower value to each upper one
(`Separation`). Values are routed by numeric comparison with the tops and with the rounded median,
while the heaps rank by the total order. Since the total order refines the numeric one, the tops are
the greatest lower and the least upper number, and all routes but one keep the relation. What is
left to show is that the middle of two values routes every other value to the right side of them
(`Separation.insert`); a removal moves nothing but tops (`Separation.erase?`).

A tracker fed with numbers whose sums cannot overflow keeps its halves in order: no value of the
lower half is greater than one of the upper half (`Partitioned`), since the rounded middle of the
tops lies between them.
-/

namespace Rollup
namespace MedianTracker

open Binary64

variable {t t' : MedianTracker} {value : Binary64}

theorem mem_push {above : Binary64 → Binary64 → Bool} {h : Heap above} {x y : Binary64} :
    y ∈ (h.push x).toList ↔ y = x ∨ y ∈ h.toList :=
  (Heap.toList_push h x).mem_iff.trans List.mem_cons

theorem mem_of_mem_eraseIdx {above : Binary64 → Binary64 → Bool} {h : Heap above} {i : Nat}
    {x y : Binary64} (hx : h.items[i]? = some x) (hy : y ∈ (h.eraseIdx i).toList) : y ∈ h.toList :=
  (Heap.toList_eraseIdx h hx).mem_iff.1 (List.mem_cons_of_mem x hy)

theorem mem_insert {x : Binary64} : x ∈ (t.insert value).toList ↔ x = value ∨ x ∈ t.toList :=
  (toList_insert t value).mem_iff.trans List.mem_cons

theorem mem_of_mem_erase? (h : t.erase? value = some t') {x : Binary64} (hx : x ∈ t'.toList) :
    x ∈ t.toList := by
  rcases erase?_spec t value with ⟨hnone, -⟩ | ⟨t'', y, hsome, -, hperm⟩
  · exact absurd (hnone.symm.trans h) (by simp)
  · obtain rfl := Option.some.inj (hsome.symm.trans h)
    exact hperm.mem_iff.1 (List.mem_cons_of_mem y hx)

/-- The top of the lower half is its greatest value. -/
theorem le_lower_top {lower : Heap totalGt} (hh : Heap.IsHeap totalGt lower.items)
    (hn : ∀ x ∈ lower.toList, x.isNaN = false) {top : Binary64} (htop : lower.top? = some top) :
    ∀ x ∈ lower.toList, x ≤ top := by
  intro x hx
  have hnot := Heap.not_above_top Heap.ranking_totalGt hh htop x hx
  simp only [totalGt, totalLt, decide_eq_false_iff_not] at hnot
  have hkey := numKey_le_of_totalKey_le (a := x) (b := top) (by omega)
  exact (le_iff (hn x hx) (hn top (Heap.top?_mem htop))).2 hkey

/-- The top of the upper half is its least value. -/
theorem upper_top_le {upper : Heap totalLt} (hh : Heap.IsHeap totalLt upper.items)
    (hn : ∀ x ∈ upper.toList, x.isNaN = false) {top : Binary64} (htop : upper.top? = some top) :
    ∀ x ∈ upper.toList, top ≤ x := by
  intro x hx
  have hnot := Heap.not_above_top Heap.ranking_totalLt hh htop x hx
  simp only [totalLt, decide_eq_false_iff_not] at hnot
  have hkey := numKey_le_of_totalKey_le (a := top) (b := x) (by omega)
  exact (le_iff (hn top (Heap.top?_mem htop)) (hn x hx)).2 hkey

/-- Halves of equal size have the middle of their tops for their median. -/
theorem Sound.median_of_eq (hs : Sound t) {a b : Binary64} (ha : t.lower.top? = some a)
    (hb : t.upper.top? = some b) (heq : t.lower.size = t.upper.size) : t.median = middle a b := by
  rw [hs.median, ofTops, ha, hb]
  exact if_pos heq

/-! ## Halves in a relation -/

/-- The relation holds of numbers in order, and of what is further apart than a pair it holds of. -/
structure Separation (R : Binary64 → Binary64 → Prop) : Prop where
  of_le : ∀ {a b}, a ≤ b → R a b
  of_le_left : ∀ {a a' b}, a' ≤ a → R a b → R a' b
  of_le_right : ∀ {a b b'}, R a b → b ≤ b' → R a b'

theorem separation_le : Separation (· ≤ ·) := ⟨id, Binary64.le_trans, Binary64.le_trans⟩

/-- A middle that lies between two numbers tells every other number from one of them. -/
theorem route_of_between {a b middle : Binary64} (hle : a ≤ middle) (hge : middle ≤ b)
    (hv : value.isNaN = false) : (value < middle → value ≤ b) ∧ (¬value < middle → a ≤ value) := by
  have hn := (isNaN_of_le hle).2
  exact ⟨fun hlt => Binary64.le_trans (Binary64.le_of_lt hv hn hlt) hge,
    fun hnot => Binary64.le_trans hle (le_of_not_lt hv hn hnot)⟩

section

variable {R : Binary64 → Binary64 → Prop}

/-- A value that goes into the lower half is related to all of the upper half. -/
theorem Separation.rel_upper (hR : Separation R) (hs : Sound t)
    (hn : ∀ x ∈ t.toList, x.isNaN = false) (hv : value.isNaN = false)
    (hroute : ∀ a ∈ t.lower.toList, ∀ b ∈ t.upper.toList, value < middle a b → R value b)
    (hfits : t.size = 0 ∨ (∃ top, t.upper.top? = some top ∧ ¬top < value) ∨
      0 < t.lower.size ∧ t.lower.size = t.upper.size ∧ value < t.median) :
    ∀ b ∈ t.upper.toList, R value b := by
  intro b hb
  have hnu : ∀ x ∈ t.upper.toList, x.isNaN = false := fun x hx => hn x (mem_toList.2 (.inr hx))
  rcases hfits with hempty | ⟨top, htop, hnot⟩ | ⟨hpos, heq, hlt⟩
  · have hlen := List.length_pos_of_mem hb
    rw [Heap.length_toList] at hlen
    unfold size at hempty
    omega
  · have hle := le_of_not_lt (hnu top (Heap.top?_mem htop)) hv hnot
    exact hR.of_le (Binary64.le_trans hle (upper_top_le hs.upper hnu htop b hb))
  · obtain ⟨x, hx⟩ := exists_top hpos
    obtain ⟨y, hy⟩ := exists_top (h := t.upper) (by omega)
    rw [hs.median_of_eq hx hy heq] at hlt
    have hrel := hroute x (Heap.top?_mem hx) y (Heap.top?_mem hy) hlt
    exact hR.of_le_right hrel (upper_top_le hs.upper hnu hy b hb)

/-- All of the lower half is related to a value that goes into the upper half. -/
theorem Separation.lower_rel (hR : Separation R) (hs : Sound t)
    (hn : ∀ x ∈ t.toList, x.isNaN = false) (hv : value.isNaN = false)
    (hroute : ∀ a ∈ t.lower.toList, ∀ b ∈ t.upper.toList, ¬value < middle a b → R a value)
    (hfits : (∃ top, t.lower.top? = some top ∧ ¬value < top ∧ t.upper.size < t.lower.size) ∨
      0 < t.lower.size ∧ t.lower.size = t.upper.size ∧ ¬value < t.median) :
    ∀ a ∈ t.lower.toList, R a value := by
  intro a ha
  have hnl : ∀ x ∈ t.lower.toList, x.isNaN = false := fun x hx => hn x (mem_toList.2 (.inl hx))
  rcases hfits with ⟨top, htop, hnot, -⟩ | ⟨hpos, heq, hnot⟩
  · have hle := le_of_not_lt hv (hnl top (Heap.top?_mem htop)) hnot
    exact hR.of_le (Binary64.le_trans (le_lower_top hs.lower hnl htop a ha) hle)
  · obtain ⟨x, hx⟩ := exists_top hpos
    obtain ⟨y, hy⟩ := exists_top (h := t.upper) (by omega)
    rw [hs.median_of_eq hx hy heq] at hnot
    have hrel := hroute x (Heap.top?_mem hx) y (Heap.top?_mem hy) hnot
    exact hR.of_le_left (le_lower_top hs.lower hnl hx a ha) hrel

/-- An insertion keeps the halves apart if the middle of a lower and an upper value tells them from
the new one. -/
theorem Separation.insert (hR : Separation R) (hs : Sound t)
    (hn : ∀ x ∈ t.toList, x.isNaN = false) (hv : value.isNaN = false)
    (hsep : ∀ a ∈ t.lower.toList, ∀ b ∈ t.upper.toList, R a b)
    (hroute : ∀ a ∈ t.lower.toList, ∀ b ∈ t.upper.toList,
      (value < middle a b → R value b) ∧ (¬value < middle a b → R a value)) :
    ∀ a ∈ (t.insert value).lower.toList, ∀ b ∈ (t.insert value).upper.toList, R a b := by
  have hnl : ∀ x ∈ t.lower.toList, x.isNaN = false := fun x hx => hn x (mem_toList.2 (.inl hx))
  have hnu : ∀ x ∈ t.upper.toList, x.isNaN = false := fun x hx => hn x (mem_toList.2 (.inr hx))
  have step := insertion t value
  generalize t.insert value = t' at step
  intro a ha b hb
  cases step with
  | intoLower hroom hfits =>
    rcases mem_push.1 ha with rfl | ha
    · exact hR.rel_upper hs hn hv (fun x hx y hy => (hroute x hx y hy).1) hfits b hb
    · exact hsep a ha b hb
  | intoUpper hroom hfits =>
    rcases mem_push.1 hb with rfl | hb
    · exact hR.lower_rel hs hn hv (fun x hx y hy => (hroute x hx y hy).2) hfits a ha
    · exact hsep a ha b hb
  | throughLower top hsize htop hlt =>
    have hmem := Heap.top?_mem htop
    have hat : a ≤ top := by
      rcases mem_push.1 ha with rfl | ha
      · exact Binary64.le_of_lt hv (hnl top hmem) hlt
      · exact le_lower_top hs.lower hnl htop a (mem_of_mem_eraseIdx htop ha)
    rcases mem_push.1 hb with rfl | hb
    · exact hR.of_le hat
    · exact hR.of_le_left hat (hsep top hmem b hb)
  | throughUpper top hsize htop hlt =>
    have hmem := Heap.top?_mem htop
    have htb : top ≤ b := by
      rcases mem_push.1 hb with rfl | hb
      · exact Binary64.le_of_lt (hnu top hmem) hv hlt
      · exact upper_top_le hs.upper hnu htop b (mem_of_mem_eraseIdx htop hb)
    rcases mem_push.1 ha with rfl | ha
    · exact hR.of_le htb
    · exact hR.of_le_right (hsep a ha top hmem) htb

/-- Moving a top across keeps the halves apart. -/
theorem Separation.rebalance (hR : Separation R) {lower : Heap totalGt} {upper : Heap totalLt}
    (hlower : Heap.IsHeap totalGt lower.items) (hupper : Heap.IsHeap totalLt upper.items)
    (hnl : ∀ x ∈ lower.toList, x.isNaN = false) (hnu : ∀ x ∈ upper.toList, x.isNaN = false)
    (hsep : ∀ a ∈ lower.toList, ∀ b ∈ upper.toList, R a b) :
    ∀ a ∈ (rebalance lower upper).lower.toList, ∀ b ∈ (rebalance lower upper).upper.toList,
      R a b := by
  have step := rebalanced lower upper
  generalize MedianTracker.rebalance lower upper = t' at step
  intro a ha b hb
  cases step with
  | kept => exact hsep a ha b hb
  | fromLower top hsize htop =>
    have ha' := mem_of_mem_eraseIdx htop ha
    rcases mem_push.1 hb with rfl | hb
    · exact hR.of_le (le_lower_top hlower hnl htop a ha')
    · exact hsep a ha' b hb
  | fromUpper top hsize htop =>
    have hb' := mem_of_mem_eraseIdx htop hb
    rcases mem_push.1 ha with rfl | ha
    · exact hR.of_le (upper_top_le hupper hnu htop b hb')
    · exact hsep a ha b hb'

theorem Separation.erase? (hR : Separation R) (hs : Sound t)
    (hn : ∀ x ∈ t.toList, x.isNaN = false)
    (hsep : ∀ a ∈ t.lower.toList, ∀ b ∈ t.upper.toList, R a b) (h : t.erase? value = some t') :
    ∀ a ∈ t'.lower.toList, ∀ b ∈ t'.upper.toList, R a b := by
  have hnl : ∀ x ∈ t.lower.toList, x.isNaN = false := fun x hx => hn x (mem_toList.2 (.inl hx))
  have hnu : ∀ x ∈ t.upper.toList, x.isNaN = false := fun x hx => hn x (mem_toList.2 (.inr hx))
  have step := removal t value
  rw [h] at step
  cases step with
  | fromLower i x hx =>
    have hi := (Array.getElem?_eq_some_iff.1 hx).1
    have hsub : ∀ y ∈ (t.lower.eraseIdx i).toList, y ∈ t.lower.toList :=
      fun y hy => mem_of_mem_eraseIdx hx hy
    exact hR.rebalance (Heap.isHeap_eraseIdx Heap.ranking_totalGt hs.lower hi) hs.upper
      (fun y hy => hnl y (hsub y hy)) hnu (fun a ha => hsep a (hsub a ha))
  | fromUpper i x hx =>
    have hi := (Array.getElem?_eq_some_iff.1 hx).1
    have hsub : ∀ y ∈ (t.upper.eraseIdx i).toList, y ∈ t.upper.toList :=
      fun y hy => mem_of_mem_eraseIdx hx hy
    exact hR.rebalance hs.lower (Heap.isHeap_eraseIdx Heap.ranking_totalLt hs.upper hi) hnl
      (fun y hy => hnu y (hsub y hy)) (fun a ha b hb => hsep a ha b (hsub b hb))

end

/-! ## Halves in order -/

/-- No value of the lower half is greater than one of the upper half, and the middle of any two
values is a number between them. -/
structure Partitioned (t : MedianTracker) : Prop extends Sound t where
  ordered : ∀ a ∈ t.lower.toList, ∀ b ∈ t.upper.toList, a ≤ b
  moderate : ∀ x ∈ t.toList, x.IsModerate

theorem partitioned_empty : Partitioned empty where
  toSound := sound_empty
  ordered := fun _ ha => absurd ha List.not_mem_nil
  moderate := fun _ hx => absurd hx List.not_mem_nil

namespace Partitioned

theorem isNaN_lower (hp : Partitioned t) : ∀ x ∈ t.lower.toList, x.isNaN = false :=
  fun x hx => (hp.moderate x (mem_toList.2 (.inl hx))).1

theorem isNaN_upper (hp : Partitioned t) : ∀ x ∈ t.upper.toList, x.isNaN = false :=
  fun x hx => (hp.moderate x (mem_toList.2 (.inr hx))).1

/-- Where the middle is a NaN, the lower number is the least there is. -/
theorem route {a b : Binary64} (ha : a.IsModerate) (hb : b.IsModerate) (hv : value.isNaN = false)
    (hab : a ≤ b) : (value < middle a b → value ≤ b) ∧ (¬value < middle a b → a ≤ value) := by
  rcases middle_between ha hb hab with ⟨hinf, -, hnan⟩ | ⟨hle, hge⟩
  · refine ⟨fun hlt => absurd hlt (not_lt_of_isNaN hnan), fun _ => ?_⟩
    rw [le_iff ha.1 hv, hinf]
    exact (numKey_bounds hv).1
  · exact route_of_between hle hge hv

theorem insert (hp : Partitioned t) (hv : value.IsModerate) : Partitioned (t.insert value) where
  toSound := hp.toSound.insert value
  ordered := separation_le.insert hp.toSound (fun x hx => (hp.moderate x hx).1) hv.1 hp.ordered
    fun a ha b hb => route (hp.moderate a (mem_toList.2 (.inl ha)))
      (hp.moderate b (mem_toList.2 (.inr hb))) hv.1 (hp.ordered a ha b hb)
  moderate := by
    intro x hx
    rcases mem_insert.1 hx with rfl | hx
    · exact hv
    · exact hp.moderate x hx

theorem erase? (hp : Partitioned t) (h : t.erase? value = some t') : Partitioned t' where
  toSound := hp.toSound.erase? h
  ordered := separation_le.erase? hp.toSound (fun x hx => (hp.moderate x hx).1) hp.ordered h
  moderate := fun x hx => hp.moderate x (mem_of_mem_erase? h hx)

end Partitioned

end MedianTracker
end Rollup
