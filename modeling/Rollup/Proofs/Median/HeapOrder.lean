import Rollup.Binary64.Order
import Rollup.Median.Heap

/-!
# Heap order

The heap operations keep their items and their order. Order is followed through a sift with a *gap*:
one position that may be out of place while every pair that does not touch it is in order, and its
children are in order with its parent (`Gap`). A sift moves the gap until its item fits.

* `isHeap_push`, `isHeap_eraseIdx`, `isHeap_ofArray`: every operation returns a heap;
* `toList_push`, `toList_eraseIdx`, `toList_ofArray`: no item is lost and none appears;
* `ofArray_items`: building a heap anew moves nothing if its items are in order;
* `not_above_top`: nothing belongs above the top of a heap.
-/

namespace Rollup
namespace Heap

variable {α : Type} {above : α → α → Bool}

/-- What heap order needs of "belongs above": it is a strict weak order. -/
structure Ranking (above : α → α → Bool) : Prop where
  asymm : ∀ {x y}, above x y = true → above y x = false
  trans : ∀ {x y z}, above x y = false → above y z = false → above x z = false

theorem Ranking.irrefl (hr : Ranking above) (x : α) : above x x = false := by
  cases h : above x x with
  | false => rfl
  | true => exact (hr.asymm h).symm.trans h |>.symm

theorem ranking_totalLt : Ranking Binary64.totalLt where
  asymm := by
    intro x y h
    simp only [Binary64.totalLt, decide_eq_true_iff, decide_eq_false_iff_not] at *
    omega
  trans := by
    intro x y z h h'
    simp only [Binary64.totalLt, decide_eq_false_iff_not] at *
    omega

theorem ranking_totalGt : Ranking Binary64.totalGt where
  asymm := fun h => ranking_totalLt.asymm h
  trans := fun h h' => ranking_totalLt.trans h' h

/-! ## Swapping two positions -/

theorem getElem?_swap {a : Array α} {i j : Nat} (hi : i < a.size) (hj : j < a.size) (k : Nat) :
    (a.swapIfInBounds i j)[k]? = if j = k then a[i]? else if i = k then a[j]? else a[k]? := by
  rw [Array.swapIfInBounds_def, dif_pos hi, dif_pos hj, Array.getElem?_swap,
    Array.getElem?_eq_getElem hi, Array.getElem?_eq_getElem hj]

theorem toList_swap (a : Array α) (i j : Nat) :
    (a.swapIfInBounds i j).toList.Perm a.toList := by
  rw [Array.swapIfInBounds_def]
  split
  · split
    · exact (Array.swap_perm _ _).toList
    · exact .refl _
  · exact .refl _

theorem toList_siftUp (a : Array α) (i : Nat) : (siftUp above a i).toList.Perm a.toList := by
  fun_induction siftUp above a i with
  | case1 a i _ _ _ ih => exact ih.trans (toList_swap a i (parent i))
  | case2 => exact .refl _
  | case3 => exact .refl _

theorem toList_siftDown (a : Array α) (i : Nat) : (siftDown above a i).toList.Perm a.toList := by
  fun_induction siftDown above a i with
  | case1 => exact .refl _
  | case2 a i best _ ih => exact ih.trans (toList_swap a i best)

/-! ## Order around a gap -/

/-- Every pair whose parent is at `k` or behind it is in order. -/
def IsHeapFrom (above : α → α → Bool) (k : Nat) (a : Array α) : Prop :=
  ∀ i x y, 0 < i → k ≤ parent i → a[i]? = some x → a[parent i]? = some y → above x y = false

/-- Heap order from `k` on, up to what is at `gap`: the pairs that do not touch it are in order, and
so are its children with its parent. -/
structure Gap (above : α → α → Bool) (k : Nat) (a : Array α) (gap : Nat) : Prop where
  apart : ∀ i x y, 0 < i → k ≤ parent i → i ≠ gap → parent i ≠ gap →
    a[i]? = some x → a[parent i]? = some y → above x y = false
  across : ∀ i x y, 0 < i → parent i = gap → 0 < gap → k ≤ parent gap →
    a[i]? = some x → a[parent gap]? = some y → above x y = false

theorem isHeap_iff_isHeapFrom {a : Array α} : IsHeap above a ↔ IsHeapFrom above 0 a :=
  ⟨fun h i x y hi _ => h i x y hi, fun h i x y hi => h i x y hi (Nat.zero_le _)⟩

/-- In a heap any position may be taken for the gap. -/
theorem IsHeapFrom.gap (hr : Ranking above) {k : Nat} {a : Array α} (h : IsHeapFrom above k a)
    (gap : Nat) (hk : k ≤ gap) : Gap above k a gap where
  apart := by
    intro i x y hi hp _ _ hx hy
    exact h i x y hi hp hx hy
  across := by
    intro i x y hi hp hgap hpk hx hy
    -- through the item at the gap, which is there because it has a child
    have hsize : i < a.size := (Array.getElem?_eq_some_iff.1 hx).1
    have hlt : gap < a.size := by unfold parent at hp; omega
    have hz : a[gap]? = some a[gap] := Array.getElem?_eq_getElem hlt
    have hxz := h i x a[gap] hi (by rw [hp]; exact hk) hx (by rw [hp]; exact hz)
    exact hr.trans hxz (h gap a[gap] y hgap hpk hz hy)

/-- With the item at the gap in order both ways, the gap is closed. -/
theorem Gap.close {k : Nat} {a : Array α} {gap : Nat} (g : Gap above k a gap)
    (hup : ∀ x y, 0 < gap → k ≤ parent gap → a[gap]? = some x → a[parent gap]? = some y →
      above x y = false)
    (hdown : ∀ i x y, 0 < i → k ≤ parent i → parent i = gap → a[i]? = some x → a[gap]? = some y →
      above x y = false) : IsHeapFrom above k a := by
  intro i x y hi hp hx hy
  by_cases hig : i = gap
  · subst hig
    exact hup x y hi hp hx hy
  · by_cases hpg : parent i = gap
    · rw [hpg] at hy
      exact hdown i x y hi hp hpg hx hy
    · exact g.apart i x y hi hp hig hpg hx hy

/-! ## Towards the root -/

/-- The gap moves to the parent, whose item takes its place. -/
theorem Gap.moveUp (hr : Ranking above) {a : Array α} {gap : Nat} (g : Gap above 0 a gap)
    (hpos : 0 < gap) (hlt : gap < a.size) {x y : α} (hy : a[parent gap]? = some y)
    (habove : above x y = true) :
    Gap above 0 (a.swapIfInBounds gap (parent gap)) (parent gap) ∧
      ∀ i z, 0 < i → parent i = parent gap → (a.swapIfInBounds gap (parent gap))[i]? = some z →
        above z x = false := by
  have hpg : parent gap < gap := by unfold parent; omega
  have hget := getElem?_swap hlt (Nat.lt_trans hpg hlt)
  refine ⟨⟨?_, ?_⟩, ?_⟩
  · intro i z w hi _ hip hpp hz hw
    rw [hget] at hz hw
    rw [if_neg (by omega)] at hz
    rw [if_neg (by omega)] at hw
    by_cases hig : i = gap
    · exact absurd (congrArg parent hig) hpp
    · rw [if_neg (by omega)] at hz
      by_cases hpi : parent i = gap
      · rw [if_pos (by omega), hy] at hw
        obtain rfl := Option.some.inj hw
        exact g.across i z y hi hpi hpos (Nat.zero_le _) hz hy
      · rw [if_neg (by omega)] at hw
        exact g.apart i z w hi (Nat.zero_le _) hig hpi hz hw
  · intro i z w hi hpi hppos _ hz hw
    have hpp : parent (parent gap) < parent gap := by unfold parent; unfold parent at hppos; omega
    rw [hget, if_neg (by omega), if_neg (by omega)] at hw
    have hyw := g.apart (parent gap) y w hppos (Nat.zero_le _) (by omega) (by omega) hy hw
    rw [hget, if_neg (by unfold parent at *; omega)] at hz
    by_cases hig : i = gap
    · rw [if_pos (by omega), hy] at hz
      obtain rfl := Option.some.inj hz
      exact hyw
    · rw [if_neg (by omega)] at hz
      have hzy := g.apart i z y hi (Nat.zero_le _) hig (by omega) hz (by rw [hpi]; exact hy)
      exact hr.trans hzy hyw
  · intro i z hi hpi hz
    rw [hget, if_neg (by unfold parent at *; omega)] at hz
    by_cases hig : i = gap
    · rw [if_pos (by omega), hy] at hz
      obtain rfl := Option.some.inj hz
      exact hr.asymm habove
    · -- what was in order with the parent is in order with what takes its place
      rw [if_neg (by omega)] at hz
      have hzy := g.apart i z y hi (Nat.zero_le _) hig (by omega) hz (by rw [hpi]; exact hy)
      exact hr.trans hzy (hr.asymm habove)

/-- A sift towards the root ends in a heap if nothing below the gap belongs above its item. -/
theorem isHeap_siftUp (hr : Ranking above) (a : Array α) (gap : Nat) (x : α)
    (hx : a[gap]? = some x) (g : Gap above 0 a gap)
    (hdown : ∀ i z, 0 < i → parent i = gap → a[i]? = some z → above z x = false) :
    IsHeap above (siftUp above a gap) := by
  fun_induction siftUp above a gap with
  | case1 a gap hgap hp habove ih =>
    obtain ⟨hpos, hlt⟩ := hgap
    have hx' : a[gap] = x := by rw [Array.getElem?_eq_getElem hlt] at hx; exact Option.some.inj hx
    rw [hx'] at habove
    obtain ⟨gap', hdown'⟩ := g.moveUp hr hpos hlt (Array.getElem?_eq_getElem hp) habove
    refine ih ?_ gap' hdown'
    rw [getElem?_swap hlt hp, if_pos rfl]
    exact hx
  | case2 a gap hgap hp hnot =>
    obtain ⟨hpos, hlt⟩ := hgap
    have hx' : a[gap] = x := by rw [Array.getElem?_eq_getElem hlt] at hx; exact Option.some.inj hx
    rw [hx', Bool.not_eq_true] at hnot
    refine isHeap_iff_isHeapFrom.2 (g.close ?_ ?_)
    · intro z y _ _ hz hy
      rw [Array.getElem?_eq_getElem hp] at hy
      rw [hx] at hz
      rw [← Option.some.inj hz, ← Option.some.inj hy]
      exact hnot
    · intro i z y hi _ hpi hz hy
      rw [hx] at hy
      rw [← Option.some.inj hy]
      exact hdown i z hi hpi hz
  | case3 a gap hgap =>
    have hlt : gap < a.size := (Array.getElem?_eq_some_iff.1 hx).1
    refine isHeap_iff_isHeapFrom.2 (g.close ?_ ?_)
    · intro z y hpos
      omega
    · intro i z y hi _ hpi hz hy
      rw [hx] at hy
      rw [← Option.some.inj hy]
      exact hdown i z hi hpi hz

/-! ## Towards the leaves -/

theorem upper_spec (above : α → α → Bool) {a : Array α} {i : Nat} {x : α}
    (hx : a[i]? = some x) (j : Nat) :
    (upper above a i j = i ∧ ∀ y, a[j]? = some y → above y x = false) ∨
      (upper above a i j = j ∧ ∃ y, a[j]? = some y ∧ above y x = true) := by
  obtain ⟨hi, hxi⟩ := Array.getElem?_eq_some_iff.1 hx
  unfold upper
  by_cases hj : j < a.size
  · rw [dif_pos ⟨hi, hj⟩, hxi]
    have hget : a[j]? = some a[j] := Array.getElem?_eq_getElem hj
    cases habove : above a[j] x with
    | true => exact .inr ⟨if_pos rfl, a[j], hget, habove⟩
    | false =>
      refine .inl ⟨if_neg Bool.false_ne_true, ?_⟩
      intro y hy
      rw [hget] at hy
      rw [← Option.some.inj hy]
      exact habove
  · rw [dif_neg (fun h => hj h.2)]
    refine .inl ⟨rfl, ?_⟩
    intro y hy
    exact absurd (Array.getElem?_eq_some_iff.1 hy).1 hj

/-- No child belongs above the uppermost of the three items, and that is the parent unless it
belongs above the parent. -/
theorem uppermost_spec (hr : Ranking above) {a : Array α} {i : Nat} {x : α} (hx : a[i]? = some x) :
    ∃ y, a[uppermost above a i]? = some y ∧
      (∀ c z, 0 < c → parent c = i → a[c]? = some z → above z y = false) ∧
      (uppermost above a i = i ∨
        0 < uppermost above a i ∧ parent (uppermost above a i) = i ∧ above y x = true) := by
  have children : ∀ c, 0 < c → parent c = i → c = 2 * i + 1 ∨ c = 2 * i + 2 := by
    intro c hc hp
    unfold parent at hp
    omega
  have hleft : parent (2 * i + 1) = i := by unfold parent; omega
  have hright : parent (2 * i + 2) = i := by unfold parent; omega
  unfold uppermost
  rcases upper_spec above hx (2 * i + 1) with ⟨heq, hl⟩ | ⟨heq, l, hl, hlx⟩
  · rw [heq]
    rcases upper_spec above hx (2 * i + 2) with ⟨heq, hr'⟩ | ⟨heq, r, hr', hrx⟩
    · rw [heq]
      refine ⟨x, hx, ?_, .inl rfl⟩
      intro c z hc hp hz
      rcases children c hc hp with rfl | rfl
      · exact hl z hz
      · exact hr' z hz
    · rw [heq]
      refine ⟨r, hr', ?_, .inr ⟨by omega, hright, hrx⟩⟩
      intro c z hc hp hz
      rcases children c hc hp with rfl | rfl
      · exact hr.trans (hl z hz) (hr.asymm hrx)
      · rw [hr'] at hz
        rw [← Option.some.inj hz]
        exact hr.irrefl r
  · rw [heq]
    rcases upper_spec above hl (2 * i + 2) with ⟨heq, hr'⟩ | ⟨heq, r, hr', hrl⟩
    · rw [heq]
      refine ⟨l, hl, ?_, .inr ⟨by omega, hleft, hlx⟩⟩
      intro c z hc hp hz
      rcases children c hc hp with rfl | rfl
      · rw [hl] at hz
        rw [← Option.some.inj hz]
        exact hr.irrefl l
      · exact hr' z hz
    · rw [heq]
      have hrx : above r x = true := by
        cases h : above r x with
        | true => rfl
        | false => exact (hr.trans h (hr.asymm hlx)).symm.trans hrl
      refine ⟨r, hr', ?_, .inr ⟨by omega, hright, hrx⟩⟩
      intro c z hc hp hz
      rcases children c hc hp with rfl | rfl
      · rw [hl] at hz
        rw [← Option.some.inj hz]
        exact hr.asymm hrl
      · rw [hr'] at hz
        rw [← Option.some.inj hz]
        exact hr.irrefl r

/-- The gap moves to a child that no other child belongs above. -/
theorem Gap.moveDown {k : Nat} {a : Array α} {gap child : Nat} (g : Gap above k a gap)
    (hk : k ≤ gap) (hpos : 0 < child) (hp : parent child = gap) {x y : α} (hx : a[gap]? = some x)
    (hy : a[child]? = some y)
    (hbest : ∀ c z, 0 < c → parent c = gap → a[c]? = some z → above z y = false) :
    Gap above k (a.swapIfInBounds gap child) child := by
  have hlt : gap < child := by unfold parent at hp; omega
  have hget := getElem?_swap (Array.getElem?_eq_some_iff.1 hx).1 (Array.getElem?_eq_some_iff.1 hy).1
  refine ⟨?_, ?_⟩
  · intro i z w hi hpk hic hpc hz hw
    rw [hget, if_neg (by omega)] at hz hw
    by_cases hig : i = gap
    · rw [if_pos (by omega), hy] at hz
      rw [if_neg (by unfold parent at *; omega)] at hw
      rw [← Option.some.inj hz]
      subst hig
      exact g.across child y w hpos hp hi hpk hy hw
    · rw [if_neg (by omega)] at hz
      by_cases hpg : parent i = gap
      · rw [if_pos (by omega), hy] at hw
        rw [← Option.some.inj hw]
        exact hbest i z hi hpg hz
      · rw [if_neg (by omega)] at hw
        exact g.apart i z w hi hpk hig hpg hz hw
  · intro i z w hi hpi _ hpk hz hw
    have hci : child < i := by unfold parent at hpi; omega
    rw [hget, if_neg (by omega), if_neg (by omega)] at hz
    rw [hget, if_neg (by omega), if_pos (by omega), hy] at hw
    rw [← Option.some.inj hw]
    exact g.apart i z y hi (by omega) (by omega) (by omega) hz (by rw [hpi]; exact hy)

/-- A sift towards the leaves ends in order if the item at the gap does not belong above its parent.
-/
theorem isHeapFrom_siftDown (hr : Ranking above) {k : Nat} (a : Array α) (gap : Nat) (x : α)
    (hk : k ≤ gap) (hx : a[gap]? = some x) (g : Gap above k a gap)
    (hup : ∀ y, 0 < gap → k ≤ parent gap → a[parent gap]? = some y → above x y = false) :
    IsHeapFrom above k (siftDown above a gap) := by
  fun_induction siftDown above a gap with
  | case1 a gap best hbest =>
    obtain ⟨y, hy, hmost, _⟩ := uppermost_spec hr hx
    rw [show uppermost above a gap = gap from hbest, hx] at hy
    obtain rfl := Option.some.inj hy
    refine g.close ?_ ?_
    · intro z y hpos hpk hz hy
      rw [hx] at hz
      rw [← Option.some.inj hz]
      exact hup y hpos hpk hy
    · intro i z y hi _ hpi hz hy
      rw [hx] at hy
      rw [← Option.some.inj hy]
      exact hmost i z hi hpi hz
  | case2 a gap best hbest ih =>
    obtain ⟨y, hy, hmost, hwhich⟩ := uppermost_spec hr hx
    obtain ⟨hpos, hp, habove⟩ := hwhich.resolve_left hbest
    have hlt : gap < best := by unfold parent at hp; omega
    have hget := getElem?_swap (Array.getElem?_eq_some_iff.1 hx).1
      (Array.getElem?_eq_some_iff.1 hy).1
    refine ih (by omega) ?_ (g.moveDown hk hpos hp hx hy hmost) ?_
    · rw [hget, if_pos rfl]
      exact hx
    · intro z _ _ hz
      rw [hp, hget, if_neg (by omega), if_pos rfl, hy] at hz
      rw [← Option.some.inj hz]
      exact hr.asymm habove

/-- Sifted both ways, the gap closes wherever its item belongs. -/
theorem Gap.isHeap_sift (hr : Ranking above) {a : Array α} {gap : Nat} (g : Gap above 0 a gap)
    (hlt : gap < a.size) : IsHeap above (siftDown above (siftUp above a gap) gap) := by
  have hx : a[gap]? = some a[gap] := Array.getElem?_eq_getElem hlt
  by_cases hup : 0 < gap ∧ ∃ y, a[parent gap]? = some y ∧ above a[gap] y = true
  · -- the item goes up; what takes its place is in order with the children
    obtain ⟨hpos, y, hy, habove⟩ := hup
    have hheap : IsHeap above (siftUp above a gap) := by
      refine isHeap_siftUp hr a gap a[gap] hx g ?_
      intro c z hc hp hz
      exact hr.trans (g.across c z y hc hp hpos (Nat.zero_le _) hz hy) (hr.asymm habove)
    have hfrom := isHeap_iff_isHeapFrom.1 hheap
    have hlt' : gap < (siftUp above a gap).size := by
      rw [size_siftUp]
      exact hlt
    have hx' : (siftUp above a gap)[gap]? = some (siftUp above a gap)[gap] :=
      Array.getElem?_eq_getElem hlt'
    refine isHeap_iff_isHeapFrom.2 (isHeapFrom_siftDown hr _ gap _ (Nat.zero_le _) hx'
      (hfrom.gap hr gap (Nat.zero_le _)) ?_)
    intro y hpos hk hy
    exact hfrom gap _ y hpos hk hx' hy
  · -- it does not go up, so the sift towards the root leaves it where it is
    have hfits : ∀ y, 0 < gap → a[parent gap]? = some y → above a[gap] y = false := by
      intro y hpos hy
      cases habove : above a[gap] y with
      | false => rfl
      | true => exact absurd ⟨hpos, y, hy, habove⟩ hup
    have hstay : siftUp above a gap = a := by
      unfold siftUp
      split
      · next hcond =>
        have hp : parent gap < a.size := by unfold parent; omega
        dsimp only
        rw [hfits _ hcond.1 (Array.getElem?_eq_getElem hp)]
        rfl
      · rfl
    rw [hstay]
    refine isHeap_iff_isHeapFrom.2 (isHeapFrom_siftDown hr a gap a[gap] (Nat.zero_le _) hx g ?_)
    intro y hpos _ hy
    exact hfits y hpos hy

/-! ## Operations -/

theorem toList_push (h : Heap above) (x : α) : (h.push x).toList.Perm (x :: h.toList) := by
  refine (toList_siftUp _ _).trans ?_
  rw [Array.toList_push]
  exact List.perm_append_singleton x _

theorem isHeap_push (hr : Ranking above) {h : Heap above} (hh : IsHeap above h.items) (x : α) :
    IsHeap above (h.push x).items := by
  -- the new item is at the end, where it has no children
  have below : ∀ i z, 0 < i → parent i = h.items.size → (h.items.push x)[i]? ≠ some z := by
    intro i z hi hp hz
    have hlt := (Array.getElem?_eq_some_iff.1 hz).1
    rw [Array.size_push] at hlt
    unfold parent at hp
    omega
  refine isHeap_siftUp hr _ _ x (by simp) ⟨?_, ?_⟩ ?_
  · intro i z w hi _ hne hpne hz hw
    rw [Array.getElem?_push, if_neg hne] at hz
    rw [Array.getElem?_push, if_neg hpne] at hw
    exact hh i z w hi hz hw
  · intro i z w hi hp _ _ hz
    exact absurd hz (below i z hi hp)
  · intro i z hi hp hz
    exact absurd hz (below i z hi hp)

/-- What `eraseIdx` leaves before it sifts: the last item is at the gap, the others are in place. -/
theorem getElem?_filled (a : Array α) {i k : Nat} (hi : i < a.size) (hk : k < a.size - 1) :
    (a.swapIfInBounds i (a.size - 1)).pop[k]? = if k = i then a[a.size - 1]? else a[k]? := by
  rw [Array.getElem?_pop, if_pos (by rw [Array.size_swapIfInBounds]; exact hk),
    getElem?_swap hi (by omega), if_neg (by omega)]
  by_cases h : i = k
  · rw [if_pos h, if_pos h.symm]
  · rw [if_neg h, if_neg (fun h' => h h'.symm)]

theorem toList_eraseIdx (h : Heap above) {i : Nat} {x : α} (hx : h.items[i]? = some x) :
    (x :: (h.eraseIdx i).toList).Perm h.toList := by
  have hi : i < h.items.size := (Array.getElem?_eq_some_iff.1 hx).1
  -- swapped to the end, `x` is what `pop` drops
  have hlast : (h.items.swapIfInBounds i (h.items.size - 1)).toList
      = (h.items.swapIfInBounds i (h.items.size - 1)).pop.toList ++ [x] := by
    have hget :
        (h.items.swapIfInBounds i (h.items.size - 1)).toList[h.items.size - 1]? = some x := by
      rw [Array.getElem?_toList, getElem?_swap hi (by omega), if_pos rfl, hx]
    have hne : (h.items.swapIfInBounds i (h.items.size - 1)).toList ≠ [] := by
      intro hnil
      rw [hnil] at hget
      exact absurd hget (by simp)
    rw [Array.toList_pop]
    refine (List.dropLast_concat_getLast hne).symm.trans ?_
    congr 2
    rw [List.getLast_eq_getElem]
    have := (List.getElem?_eq_some_iff.1 hget).2
    simpa using this
  have hperm : (x :: (h.items.swapIfInBounds i (h.items.size - 1)).pop.toList).Perm h.toList := by
    refine (List.perm_append_singleton x _).symm.trans ?_
    rw [← hlast]
    exact toList_swap _ _ _
  refine (List.Perm.cons x ?_).trans hperm
  unfold eraseIdx
  dsimp only
  split
  · exact (toList_siftDown _ _).trans (toList_siftUp _ _)
  · exact .refl _

theorem isHeap_eraseIdx (hr : Ranking above) {h : Heap above} (hh : IsHeap above h.items) {i : Nat}
    (hi : i < h.items.size) : IsHeap above (h.eraseIdx i).items := by
  have hsize : (h.items.swapIfInBounds i (h.items.size - 1)).pop.size = h.items.size - 1 := by
    simp
  have hget := fun k => getElem?_filled h.items (k := k) hi
  -- nothing but the item at `i` has changed, so it can be taken for the gap
  have gap : Gap above 0 (h.items.swapIfInBounds i (h.items.size - 1)).pop i := by
    have old := (isHeap_iff_isHeapFrom.1 hh).gap hr i (Nat.zero_le _)
    refine ⟨?_, ?_⟩
    · intro j x y hj hk hne hpne hx hy
      have hlt := (Array.getElem?_eq_some_iff.1 hx).1
      have hplt := (Array.getElem?_eq_some_iff.1 hy).1
      rw [hget j (by omega), if_neg hne] at hx
      rw [hget _ (by omega), if_neg hpne] at hy
      exact old.apart j x y hj hk hne hpne hx hy
    · intro j x y hj hp hpos hk hx hy
      have hlt := (Array.getElem?_eq_some_iff.1 hx).1
      have hplt := (Array.getElem?_eq_some_iff.1 hy).1
      rw [hget j (by omega), if_neg (by unfold parent at hp; omega)] at hx
      rw [hget _ (by omega), if_neg (by unfold parent; omega)] at hy
      exact old.across j x y hj hp hpos hk hx hy
  unfold eraseIdx
  dsimp only
  split
  · next hlt => exact gap.isHeap_sift hr hlt
  · next hge =>
    -- the last item itself was removed, and nothing moved
    refine isHeap_iff_isHeapFrom.2 (gap.close ?_ ?_)
    · intro x y _ _ hx
      exact absurd (Array.getElem?_eq_some_iff.1 hx).1 hge
    · intro j x y _ _ _ _ hy
      exact absurd (Array.getElem?_eq_some_iff.1 hy).1 hge

/-- One more position sifted: order begins one position earlier. -/
theorem isHeapFrom_siftDown_succ (hr : Ranking above) {k : Nat} {a : Array α}
    (h : IsHeapFrom above (k + 1) a) (hlt : k < a.size) :
    IsHeapFrom above k (siftDown above a k) := by
  refine isHeapFrom_siftDown hr a k a[k] (Nat.le_refl k) (Array.getElem?_eq_getElem hlt) ⟨?_, ?_⟩ ?_
  · intro i x y hi hk _ hne hx hy
    exact h i x y hi (by omega) hx hy
  · intro i x y _ _ hpos hk
    unfold parent at hk
    omega
  · intro y hpos hk
    unfold parent at hk
    omega

theorem isHeap_ofArray (hr : Ranking above) (a : Array α) :
    IsHeap above (ofArray a : Heap above).items := by
  have sifted : ∀ (k : Nat) (b : Array α), k ≤ b.size → IsHeapFrom above k b →
      IsHeap above ((List.range k).reverse.foldl (siftDown above) b) := by
    intro k
    induction k with
    | zero =>
      intro b _ hb
      exact isHeap_iff_isHeapFrom.2 hb
    | succ k ih =>
      intro b hsize hb
      rw [List.range_succ, List.reverse_append, List.reverse_singleton, List.singleton_append,
        List.foldl_cons]
      apply ih
      · rw [size_siftDown]
        omega
      · exact isHeapFrom_siftDown_succ hr hb hsize
  apply sifted _ _ (Nat.div_le_self _ _)
  -- no position behind the middle has children
  intro i x y hi hp hx
  have hlt := (Array.getElem?_eq_some_iff.1 hx).1
  unfold parent at hp
  omega

theorem toList_ofArray (a : Array α) : (ofArray a : Heap above).toList.Perm a.toList := by
  have sifted : ∀ (ks : List Nat) (b : Array α),
      (ks.foldl (siftDown above) b).toList.Perm b.toList := by
    intro ks
    induction ks with
    | nil =>
      intro b
      exact .refl _
    | cons k ks ih =>
      intro b
      exact (ih _).trans (toList_siftDown b k)
  exact sifted _ a

/-- Nothing moves in an array that is a heap already. -/
theorem siftDown_of_isHeap (hr : Ranking above) {a : Array α} (h : IsHeap above a) (i : Nat) :
    siftDown above a i = a := by
  have hbest : uppermost above a i = i := by
    rcases uppermost_eq_or above a i with heq | ⟨hlt, hlt'⟩
    · exact heq
    · have hx : a[i]? = some a[i] := Array.getElem?_eq_getElem (Nat.lt_trans hlt hlt')
      obtain ⟨y, hy, -, heq | ⟨hpos, hparent, habove⟩⟩ := uppermost_spec hr hx
      · exact heq
      · have hnot := h _ y a[i] hpos hy (by rw [hparent]; exact hx)
        exact absurd (hnot.symm.trans habove) Bool.false_ne_true
  rw [siftDown, hbest]
  exact if_pos rfl

/-- A heap that is built from the items of a heap is that heap. -/
theorem ofArray_items (hr : Ranking above) {h : Heap above} (hh : IsHeap above h.items) :
    ofArray h.items = h := by
  have kept : ∀ ks : List Nat, ks.foldl (siftDown above) h.items = h.items := by
    intro ks
    induction ks with
    | nil => rfl
    | cons k ks ih => rw [List.foldl_cons, siftDown_of_isHeap hr hh, ih]
  exact congrArg Heap.mk (kept _)

/-- The check finds out whether the items are in heap order. -/
theorem isHeap_iff {h : Heap above} : h.isHeap = true ↔ IsHeap above h.items := by
  unfold isHeap
  rw [List.all_eq_true]
  constructor
  · intro hall i x y hpos hx hy
    have hi := hall i (List.mem_range.2 (Array.getElem?_eq_some_iff.1 hx).1)
    rw [hx, hy] at hi
    simpa [Nat.ne_of_gt hpos] using hi
  · intro hh i _
    cases hx : h.items[i]? with
    | none => rfl
    | some x =>
      cases hy : h.items[parent i]? with
      | none => rfl
      | some y =>
        rcases Nat.eq_zero_or_pos i with rfl | hpos
        · rfl
        · simp [hh i x y hpos hx hy]

/-- Removal by a test finds the first stored item that passes it, or none does. -/
theorem erase?_spec (h : Heap above) (p : α → Bool) :
    (h.erase? p = none ∧ ∀ x ∈ h.toList, p x = false) ∨
      ∃ i x, h.items[i]? = some x ∧ p x = true ∧ h.erase? p = some (h.eraseIdx i) := by
  unfold erase?
  cases hf : h.items.findIdx? p with
  | none =>
    left
    refine ⟨rfl, ?_⟩
    intro x hx
    exact Array.findIdx?_eq_none_iff.1 hf x (Array.mem_toList_iff.1 hx)
  | some i =>
    right
    obtain ⟨hlt, hp, _⟩ := Array.findIdx?_eq_some_iff_getElem.1 hf
    exact ⟨i, h.items[i], Array.getElem?_eq_getElem hlt, hp, rfl⟩

/-- Nothing in a heap belongs above its top. -/
theorem not_above_top (hr : Ranking above) {h : Heap above} (hh : IsHeap above h.items) {top : α}
    (htop : h.top? = some top) : ∀ x ∈ h.toList, above x top = false := by
  have climb : ∀ (i : Nat) x, h.items[i]? = some x → above x top = false := by
    intro i
    induction i using Nat.strongRecOn with
    | ind i ih =>
      intro x hx
      by_cases hi : i = 0
      · subst hi
        have heq : some x = some top := hx.symm.trans htop
        rw [Option.some.inj heq]
        exact hr.irrefl top
      · have hp : parent i < i := by unfold parent; omega
        have hlt := (Array.getElem?_eq_some_iff.1 hx).1
        have hy : h.items[parent i]? = some h.items[parent i] :=
          Array.getElem?_eq_getElem (Nat.lt_trans hp hlt)
        exact hr.trans (hh i x _ (by omega) hx hy) (ih (parent i) hp _ hy)
  intro x hx
  obtain ⟨i, hi⟩ := List.mem_iff_getElem?.1 hx
  rw [toList, Array.getElem?_toList] at hi
  exact climb i x hi

theorem top?_mem {h : Heap above} {top : α} (htop : h.top? = some top) : top ∈ h.toList := by
  obtain ⟨hlt, heq⟩ := Array.getElem?_eq_some_iff.1 htop
  exact Array.mem_toList_iff.2 (heq ▸ Array.getElem_mem hlt)

theorem top?_eq_none_iff {h : Heap above} : h.top? = none ↔ h.size = 0 := by
  unfold top? size
  rw [Array.getElem?_eq_none_iff]
  omega

theorem length_toList (h : Heap above) : h.toList.length = h.size := Array.length_toList

end Heap
end Rollup
