import Rollup.Proofs.Encoding.Outcomes
import Rollup.Proofs.Median.Sorted
import Rollup.Proofs.Median.Stored

/-!
# The stored form of a tracker

A tracker is read off exactly the bytes that begin with the two lists of values and the median of
both, as long as the lists are halves: about as long as each other, and apart in the total order
(`load_iff`). Only the greatest value of the lower list and the least value of the upper one are
compared, but since the total order tells all words apart, sorting both lists at once is sorting one
and then the other (`ascending_append`), so the median of the halves is that of all values.
-/

namespace Rollup

namespace MedianTracker

open Binary64
open Heap (ranking_totalLt ranking_totalGt)

theorem read_loadHalf_eq_ok {bytes rest : List UInt8} {values : List Binary64}
    (h : loadHalf.read bytes = (.ok values, rest)) :
    values.length < 2 ^ 64 ∧ bytes = Field.encode (halfFields values) ++ rest := by
  obtain ⟨count, between, hcount, hdoubles⟩ := Reader.read_bind_eq_ok h
  obtain ⟨hlength, rfl⟩ := Reader.read_doubles_eq_ok hdoubles
  refine ⟨hlength ▸ count.toNat_lt, ?_⟩
  rw [Reader.takes_unsigned _ _ _ hcount, halfFields, hlength, UInt64.ofNat_toNat,
    Field.encode_cons, List.append_assoc]

theorem exists_stored_of_read {version : Version} {bytes rest : List UInt8} {t : MedianTracker}
    (h : (Persistent.load version : Reader MedianTracker).read bytes = (.ok t, rest)) :
    ∃ lower upper median, Stored lower upper median bytes rest ∧
      ofStored lower upper median = .ok t := by
  obtain ⟨lower, between, hlower, hrest⟩ := Reader.read_bind_eq_ok h
  obtain ⟨upper, between', hupper, hrest'⟩ := Reader.read_bind_eq_ok hrest
  obtain ⟨median, between'', hmedian, hlast⟩ := Reader.read_bind_eq_ok hrest'
  obtain ⟨hlower_lt, hfront⟩ := read_loadHalf_eq_ok hlower
  obtain ⟨hupper_lt, hback⟩ := read_loadHalf_eq_ok hupper
  cases hstored : ofStored lower upper median with
  | error cause =>
    rw [hstored] at hlast
    cases hlast
  | ok t' =>
    rw [hstored] at hlast
    cases hlast
    refine ⟨lower, upper, median, ⟨hlower_lt, hupper_lt, ?_⟩, hstored⟩
    rw [hfront, hback, Reader.takes_double _ _ _ hmedian, Field.encode_append, Field.encode_append,
      Field.encode_cons, Field.encode_nil, List.append_nil, List.append_assoc, List.append_assoc]

end MedianTracker

/-! ## Tops -/

namespace Heap

variable {α : Type} {above : α → α → Bool} {h : Heap above}

/-- If the relation tells all items apart, the top is the one that no item belongs above. -/
theorem top?_eq_some_iff (hr : Ranking above)
    (hinj : ∀ {x y}, above x y = false → above y x = false → x = y)
    (hh : IsHeap above h.items) {a : α} :
    h.top? = some a ↔ a ∈ h.toList ∧ ∀ x ∈ h.toList, above x a = false := by
  constructor
  · intro htop
    exact ⟨top?_mem htop, not_above_top hr hh htop⟩
  · rintro ⟨hmem, hmost⟩
    cases htop : h.top? with
    | none =>
      have hlength := List.length_pos_of_mem hmem
      rw [length_toList, top?_eq_none_iff.1 htop] at hlength
      exact absurd hlength (Nat.lt_irrefl 0)
    | some top =>
      exact congrArg some (hinj (hmost top (top?_mem htop)) (not_above_top hr hh htop a hmem))

end Heap

namespace MedianTracker

open Binary64
open Heap (IsHeap ranking_totalLt ranking_totalGt)

variable {t : MedianTracker} {lower : Heap Binary64.totalGt} {upper : Heap Binary64.totalLt}
  {a b : Binary64}

theorem totalLt_eq_false_iff : totalLt b a = false ↔ a.totalKey ≤ b.totalKey := by
  rw [totalLt, decide_eq_false_iff_not, Int.not_lt]

theorem top?_lower_eq_some_iff (h : IsHeap Binary64.totalGt lower.items) :
    lower.top? = some a ↔ a ∈ lower.toList ∧ ∀ x ∈ lower.toList, x.totalKey ≤ a.totalKey := by
  rw [Heap.top?_eq_some_iff ranking_totalGt ?_ h]
  · simp only [totalGt, totalLt_eq_false_iff]
  · intro x y hxy hyx
    exact totalKey_inj (Int.le_antisymm (totalLt_eq_false_iff.1 hxy) (totalLt_eq_false_iff.1 hyx))

theorem top?_upper_eq_some_iff (h : IsHeap Binary64.totalLt upper.items) :
    upper.top? = some b ↔ b ∈ upper.toList ∧ ∀ x ∈ upper.toList, b.totalKey ≤ x.totalKey := by
  rw [Heap.top?_eq_some_iff ranking_totalLt ?_ h]
  · simp only [totalLt_eq_false_iff]
  · intro x y hxy hyx
    exact totalKey_inj (Int.le_antisymm (totalLt_eq_false_iff.1 hyx) (totalLt_eq_false_iff.1 hxy))

/-- Halves are checked for their sizes and their tops: they are heaps already. -/
theorem check_eq_ok_iff (hlower : IsHeap Binary64.totalGt lower.items)
    (hupper : IsHeap Binary64.totalLt upper.items) :
    check lower upper = .ok () ↔
      (lower.size ≤ upper.size + 1 ∧ upper.size ≤ lower.size + 1) ∧
        ∀ a, lower.top? = some a → ∀ b, upper.top? = some b → a.totalKey ≤ b.totalKey := by
  rw [check_of_isHeap hlower hupper]
  by_cases hsizes : upper.size + 1 < lower.size ∨ lower.size + 1 < upper.size
  · rw [if_pos hsizes]
    exact ⟨(nomatch ·), fun h => by omega⟩
  · rw [if_neg hsizes, and_iff_right (show _ ∧ _ by omega)]
    cases lower.top? with
    | none => simp
    | some a =>
      cases upper.top? with
      | none => simp
      | some b =>
        simp only [Option.some.injEq, forall_eq', ← totalLt_eq_false_iff]
        cases totalLt b a
        · exact ⟨fun _ => rfl, fun _ => rfl⟩
        · exact ⟨(nomatch ·), (nomatch ·)⟩

theorem check_ne_heapOrder (hlower : IsHeap Binary64.totalGt lower.items)
    (hupper : IsHeap Binary64.totalLt upper.items) : check lower upper ≠ .error .heapOrder := by
  rw [check_of_isHeap hlower hupper]
  split
  · exact (nomatch ·)
  · split
    · split
      · exact (nomatch ·)
      · exact (nomatch ·)
    · exact (nomatch ·)

/-! ## Sorting by the total order -/

/-- A list in ascending order is told by its values. -/
theorem eq_ascending {sorted values : List Binary64}
    (hsorted : sorted.Pairwise (·.totalKey ≤ ·.totalKey)) (hperm : sorted.Perm values) :
    sorted = ascending values :=
  (hperm.trans (ascending_perm values).symm).eq_of_pairwise
    (fun _ _ _ _ hab hba => totalKey_inj (Int.le_antisymm hab hba)) hsorted
    (pairwise_ascending values)

theorem ascending_congr {xs ys : List Binary64} (h : xs.Perm ys) : ascending xs = ascending ys :=
  eq_ascending (pairwise_ascending xs) ((ascending_perm xs).trans h)

/-- Lists that are apart are sorted one after the other. -/
theorem ascending_append {xs ys : List Binary64}
    (h : ∀ a ∈ xs, ∀ b ∈ ys, a.totalKey ≤ b.totalKey) :
    ascending (xs ++ ys) = ascending xs ++ ascending ys := by
  refine (eq_ascending ?_ ((ascending_perm xs).append (ascending_perm ys))).symm
  rw [List.pairwise_append]
  refine ⟨pairwise_ascending xs, pairwise_ascending ys, fun a ha b hb => ?_⟩
  exact h a ((ascending_perm xs).mem_iff.1 ha) b ((ascending_perm ys).mem_iff.1 hb)

theorem greatest_of_getLast? {values : List Binary64} (h : (ascending values).getLast? = some a) :
    a ∈ values ∧ ∀ x ∈ values, x.totalKey ≤ a.totalKey := by
  have hsorted := pairwise_ascending values
  obtain ⟨init, heq⟩ := List.getLast?_eq_some_iff.1 h
  rw [heq, List.pairwise_append] at hsorted
  refine ⟨(ascending_perm values).mem_iff.1 (List.mem_of_getLast? h), fun x hx => ?_⟩
  rw [← (ascending_perm values).mem_iff, heq, List.mem_append, List.mem_singleton] at hx
  rcases hx with hx | rfl
  · exact hsorted.2.2 x hx a (List.mem_singleton_self a)
  · exact Int.le_refl _

theorem least_of_head? {values : List Binary64} (h : (ascending values).head? = some b) :
    b ∈ values ∧ ∀ x ∈ values, b.totalKey ≤ x.totalKey := by
  have hsorted := pairwise_ascending values
  obtain ⟨rest, heq⟩ := List.head?_eq_some_iff.1 h
  rw [heq, List.pairwise_cons] at hsorted
  refine ⟨(ascending_perm values).mem_iff.1 (List.mem_of_head? h), fun x hx => ?_⟩
  rw [← (ascending_perm values).mem_iff, heq, List.mem_cons] at hx
  rcases hx with rfl | hx
  · exact Int.le_refl _
  · exact hsorted.1 x hx

/-- The lower half sorted ends with its top. -/
theorem getLast?_ascending_lower (h : IsHeap Binary64.totalGt lower.items) :
    (ascending lower.toList).getLast? = lower.top? := by
  cases hlast : (ascending lower.toList).getLast? with
  | some a => exact ((top?_lower_eq_some_iff h).2 (greatest_of_getLast? hlast)).symm
  | none =>
    have hlength := (ascending_perm lower.toList).length_eq
    rw [List.getLast?_eq_none_iff.1 hlast, Heap.length_toList] at hlength
    exact (Heap.top?_eq_none_iff.2 hlength.symm).symm

/-- The upper half sorted begins with its top. -/
theorem head?_ascending_upper (h : IsHeap Binary64.totalLt upper.items) :
    (ascending upper.toList).head? = upper.top? := by
  cases hhead : (ascending upper.toList).head? with
  | some b => exact ((top?_upper_eq_some_iff h).2 (least_of_head? hhead)).symm
  | none =>
    have hlength := (ascending_perm upper.toList).length_eq
    rw [List.head?_eq_none_iff.1 hhead, Heap.length_toList] at hlength
    exact (Heap.top?_eq_none_iff.2 hlength.symm).symm

/-! ## The middle of two lists -/

section

variable {α : Type} (xs ys : List α)

/-- If two lists are about as long as each other, the lower of the places in the middle of both is
the end of the first one or the beginning of the second. -/
theorem getElem?_append_below (hle : xs.length ≤ ys.length + 1) (hge : ys.length ≤ xs.length + 1) :
    (xs ++ ys)[(xs.length + ys.length - 1) / 2]?
      = if xs.length < ys.length then ys.head? else xs.getLast? := by
  split
  · rw [show (xs.length + ys.length - 1) / 2 = xs.length by omega,
      List.getElem?_append_right (Nat.le_refl _), Nat.sub_self, List.head?_eq_getElem?]
  · next hlt =>
    rcases Nat.eq_zero_or_pos xs.length with hzero | hpos
    · -- both lists are empty
      have hzero' : ys.length = 0 := by omega
      rw [List.eq_nil_of_length_eq_zero hzero, List.eq_nil_of_length_eq_zero hzero']
      rfl
    · rw [show (xs.length + ys.length - 1) / 2 = xs.length - 1 by omega,
        List.getElem?_append_left (by omega), List.getLast?_eq_getElem?]

theorem getElem?_append_above (hle : xs.length ≤ ys.length + 1) (hge : ys.length ≤ xs.length + 1) :
    (xs ++ ys)[(xs.length + ys.length) / 2]?
      = if ys.length < xs.length then xs.getLast? else ys.head? := by
  split
  · rw [show (xs.length + ys.length) / 2 = xs.length - 1 by omega,
      List.getElem?_append_left (by omega), List.getLast?_eq_getElem?]
  · rw [show (xs.length + ys.length) / 2 = xs.length by omega,
      List.getElem?_append_right (Nat.le_refl _), Nat.sub_self, List.head?_eq_getElem?]

end

/-- The tops of two halves that are apart determine the median of all values. -/
theorem ofTops_eq_sortedMedian (hlower : IsHeap Binary64.totalGt lower.items)
    (hupper : IsHeap Binary64.totalLt upper.items) (hle : lower.size ≤ upper.size + 1)
    (hge : upper.size ≤ lower.size + 1)
    (happart : ∀ a ∈ lower.toList, ∀ b ∈ upper.toList, a.totalKey ≤ b.totalKey) :
    ofTops lower upper = sortedMedian (lower.toList ++ upper.toList) := by
  have hsize := (ascending_perm lower.toList).length_eq
  have hsize' := (ascending_perm upper.toList).length_eq
  rw [Heap.length_toList] at hsize hsize'
  have hbelow := getElem?_append_below (ascending lower.toList) (ascending upper.toList) (by omega)
    (by omega)
  have habove := getElem?_append_above (ascending lower.toList) (ascending upper.toList) (by omega)
    (by omega)
  rw [hsize, hsize', getLast?_ascending_lower hlower, head?_ascending_upper hupper]
    at hbelow habove
  unfold sortedMedian ofTops
  dsimp only
  rw [ascending_append happart, List.length_append, hsize, hsize', hbelow, habove]
  rcases Nat.lt_trichotomy lower.size upper.size with hlt | heq | hgt
  · -- the value in the middle is the top of the upper half
    obtain ⟨b, hb⟩ := exists_top (show 0 < upper.size by omega)
    rw [if_pos hlt, if_neg (by omega), hb]
    dsimp only
    rw [if_pos (by omega)]
    cases lower.top? with
    | none => rfl
    | some a =>
      dsimp only
      rw [if_neg (by omega), if_neg (by omega)]
  · -- both tops are in the middle
    rw [if_neg (by omega), if_neg (by omega)]
    rcases Nat.eq_zero_or_pos lower.size with hzero | hpos
    · rw [Heap.top?_eq_none_iff.2 hzero, Heap.top?_eq_none_iff.2 (heq.symm.trans hzero)]
    · obtain ⟨a, ha⟩ := exists_top hpos
      obtain ⟨b, hb⟩ := exists_top (heq ▸ hpos)
      rw [ha, hb]
      dsimp only
      rw [if_pos heq, if_neg (by omega)]
  · obtain ⟨a, ha⟩ := exists_top (show 0 < lower.size by omega)
    rw [if_neg (by omega), if_pos hgt, ha]
    dsimp only
    rw [if_pos (by omega)]
    cases upper.top? with
    | none => rfl
    | some b =>
      dsimp only
      rw [if_neg (by omega), if_pos hgt]

/-! ## Halves -/

/-- The two lists are halves of their values: about as long as each other, and the greatest value of
the first does not rank above the least value of the second. -/
structure Halves (lower upper : List Binary64) : Prop where
  lower_le : lower.length ≤ upper.length + 1
  upper_le : upper.length ≤ lower.length + 1
  ordered : ∀ a ∈ lower, (∀ x ∈ lower, x.totalKey ≤ a.totalKey) →
    ∀ b ∈ upper, (∀ x ∈ upper, b.totalKey ≤ x.totalKey) → a.totalKey ≤ b.totalKey

variable {values values' : List Binary64} {median : Binary64}

theorem top?_ofArray_lower_eq_some_iff :
    (Heap.ofArray values.toArray : Heap Binary64.totalGt).top? = some a ↔
      a ∈ values ∧ ∀ x ∈ values, x.totalKey ≤ a.totalKey := by
  rw [top?_lower_eq_some_iff (Heap.isHeap_ofArray ranking_totalGt _)]
  simp only [(Heap.toList_ofArray values.toArray).mem_iff]

theorem top?_ofArray_upper_eq_some_iff :
    (Heap.ofArray values.toArray : Heap Binary64.totalLt).top? = some b ↔
      b ∈ values ∧ ∀ x ∈ values, b.totalKey ≤ x.totalKey := by
  rw [top?_upper_eq_some_iff (Heap.isHeap_ofArray ranking_totalLt _)]
  simp only [(Heap.toList_ofArray values.toArray).mem_iff]

theorem size_ofArray {α : Type} {above : α → α → Bool} (values : List α) :
    (Heap.ofArray values.toArray : Heap above).size = values.length := by
  rw [← Heap.length_toList, (Heap.toList_ofArray values.toArray).length_eq]

theorem check_ofArray_eq_ok_iff :
    check (.ofArray values.toArray) (.ofArray values'.toArray) = .ok () ↔ Halves values values' := by
  rw [check_eq_ok_iff (Heap.isHeap_ofArray ranking_totalGt _)
    (Heap.isHeap_ofArray ranking_totalLt _), size_ofArray, size_ofArray]
  simp only [top?_ofArray_lower_eq_some_iff, top?_ofArray_upper_eq_some_iff, and_imp]
  exact ⟨fun h => ⟨h.1.1, h.1.2, h.2⟩, fun h => ⟨⟨h.lower_le, h.upper_le⟩, h.ordered⟩⟩

/-- That the tops are in order says that all values are. -/
theorem Halves.apart (h : Halves values values') :
    ∀ a ∈ values, ∀ b ∈ values', a.totalKey ≤ b.totalKey := by
  intro a ha b hb
  obtain ⟨top, htop⟩ := exists_top (h := (Heap.ofArray values.toArray : Heap Binary64.totalGt))
    (by rw [size_ofArray]; exact List.length_pos_of_mem ha)
  obtain ⟨top', htop'⟩ := exists_top (h := (Heap.ofArray values'.toArray : Heap Binary64.totalLt))
    (by rw [size_ofArray]; exact List.length_pos_of_mem hb)
  obtain ⟨hmem, hmost⟩ := top?_ofArray_lower_eq_some_iff.1 htop
  obtain ⟨hmem', hleast⟩ := top?_ofArray_upper_eq_some_iff.1 htop'
  exact (hmost a ha).trans ((h.ordered top hmem hmost top' hmem' hleast).trans (hleast b hb))

theorem Halves.median_eq (h : Halves values values') :
    (ofHalves (.ofArray values.toArray) (.ofArray values'.toArray)).median
      = sortedMedian (values ++ values') := by
  have hperm : (.ofArray values.toArray : Heap Binary64.totalGt).toList.Perm values :=
    Heap.toList_ofArray _
  have hperm' : (.ofArray values'.toArray : Heap Binary64.totalLt).toList.Perm values' :=
    Heap.toList_ofArray _
  have hle := h.lower_le
  have hge := h.upper_le
  have hsorted := ofTops_eq_sortedMedian (Heap.isHeap_ofArray ranking_totalGt values.toArray)
    (Heap.isHeap_ofArray ranking_totalLt values'.toArray)
    (by rwa [size_ofArray, size_ofArray]) (by rwa [size_ofArray, size_ofArray])
    (fun a ha b hb => h.apart a (hperm.mem_iff.1 ha) b (hperm'.mem_iff.1 hb))
  refine hsorted.trans ?_
  unfold sortedMedian
  rw [ascending_congr (hperm.append hperm')]

/-- Two lists and a number make up a tracker exactly if the lists are halves and the number is their
median, and then the tracker is that of the heaps built from the lists. -/
theorem ofStored_eq_ok_iff :
    ofStored values values' median = .ok t ↔ Halves values values' ∧
      same median (sortedMedian (values ++ values')) = true ∧
      t = ofHalves (.ofArray values.toArray) (.ofArray values'.toArray) := by
  unfold ofStored
  dsimp only
  cases hcheck : check (.ofArray values.toArray) (.ofArray values'.toArray) with
  | error cause =>
    refine ⟨(nomatch ·), fun h => ?_⟩
    rw [check_ofArray_eq_ok_iff.2 h.1] at hcheck
    cases hcheck
  | ok _ =>
    have hhalves := check_ofArray_eq_ok_iff.1 hcheck
    dsimp only
    rw [hhalves.median_eq, and_iff_right hhalves]
    split
    · next hsame => exact ⟨fun h => ⟨hsame, (Except.ok.inj h).symm⟩, fun h => h.2 ▸ rfl⟩
    · next hstale => exact ⟨(nomatch ·), fun h => absurd h.1 hstale⟩

theorem ofStored_ne_heapOrder : ofStored values values' median ≠ .error .heapOrder := by
  have hcheck := check_ne_heapOrder (Heap.isHeap_ofArray ranking_totalGt values.toArray)
    (Heap.isHeap_ofArray ranking_totalLt values'.toArray)
  unfold ofStored
  dsimp only
  split
  · next cause heq => exact fun h => hcheck (heq.trans (congrArg _ (Except.error.inj h)))
  · split
    · exact (nomatch ·)
    · exact (nomatch ·)

end MedianTracker

/-! ## Reading -/

namespace MedianTracker

open Binary64
open Heap (IsHeap ranking_totalLt ranking_totalGt)

/-- The bytes are refused, for any cause but the heap order. -/
def IsRefusal (fault : Fault) : Prop := ∃ cause, fault = .unloadable cause ∧ cause ≠ .heapOrder

theorem fails_load (version : Version) :
    Reader.Fails IsRefusal (Persistent.load version : Reader MedianTracker) := by
  have htruncated : ∀ item needed available,
      IsRefusal (.unloadable (.truncated item needed available)) :=
    fun _ _ _ => ⟨_, rfl, (nomatch ·)⟩
  have hhalf : Reader.Fails IsRefusal loadHalf :=
    (Reader.fails_word .unsigned (htruncated .unsigned)).bind fun count =>
      Reader.fails_doubles htruncated count.toNat
  have hmedian : Reader.Fails IsRefusal Reader.double :=
    (Reader.fails_word .double (htruncated .double)).bind fun _ => .pure _
  refine hhalf.bind fun lower => hhalf.bind fun upper => hmedian.bind fun median => ?_
  split
  · exact .pure _
  · next cause heq => exact .throw ⟨cause, rfl, fun h => ofStored_ne_heapOrder (h ▸ heq)⟩

/-- **What a tracker is read from.** In any layout, a tracker is read exactly off the bytes that
begin with two lists, each behind its length, and a number, if the lists differ in length by one at
most, the greatest value of the first does not rank above the least of the second, and the number is
the median of all values, where all NaNs count as one number and so do the zeros. Then the rest of
the bytes is left; the halves are heaps that hold the values of the two lists, in whatever order
these were stored; no value of the lower half ranks above one of the upper half; and the median is
that of the sorted values. Other bytes are refused as unloadable, and never for the heap order. -/
theorem load_iff (version : Version) (bytes : List UInt8) :
    ((∃ t rest, (Persistent.load version : Reader MedianTracker).read bytes = (.ok t, rest)) ↔
      ∃ lower upper median rest, Stored lower upper median bytes rest ∧ Halves lower upper ∧
        same median (sortedMedian (lower ++ upper)) = true) ∧
    (∀ lower upper median rest, Stored lower upper median bytes rest → Halves lower upper →
      same median (sortedMedian (lower ++ upper)) = true →
      ∃ t, (Persistent.load version : Reader MedianTracker).read bytes = (.ok t, rest) ∧
        IsHeap Binary64.totalGt t.lower.items ∧ IsHeap Binary64.totalLt t.upper.items ∧
        t.lower.toList.Perm lower ∧ t.upper.toList.Perm upper ∧
        (∀ a ∈ t.lower.toList, ∀ b ∈ t.upper.toList, a.totalKey ≤ b.totalKey) ∧
        t.median = sortedMedian (lower ++ upper)) ∧
    ∀ fault rest,
      (Persistent.load version : Reader MedianTracker).read bytes = (.error fault, rest) →
      ∃ cause, fault = .unloadable cause ∧ cause ≠ .heapOrder := by
  have hread : ∀ lower upper median rest, Stored lower upper median bytes rest →
      Halves lower upper → same median (sortedMedian (lower ++ upper)) = true →
      (Persistent.load version : Reader MedianTracker).read bytes
        = (.ok (ofHalves (.ofArray lower.toArray) (.ofArray upper.toArray)), rest) := by
    intro lower upper median rest hstored hhalves hsame
    rw [hstored.read_load version, ofStored_eq_ok_iff.2 ⟨hhalves, hsame, rfl⟩]
  refine ⟨⟨?_, ?_⟩, ?_, fails_load version bytes⟩
  · rintro ⟨t, rest, h⟩
    obtain ⟨lower, upper, median, hstored, hok⟩ := exists_stored_of_read h
    obtain ⟨hhalves, hsame, -⟩ := ofStored_eq_ok_iff.1 hok
    exact ⟨lower, upper, median, rest, hstored, hhalves, hsame⟩
  · rintro ⟨lower, upper, median, rest, hstored, hhalves, hsame⟩
    exact ⟨_, rest, hread lower upper median rest hstored hhalves hsame⟩
  · intro lower upper median rest hstored hhalves hsame
    have hperm : (.ofArray lower.toArray : Heap Binary64.totalGt).toList.Perm lower :=
      Heap.toList_ofArray _
    have hperm' : (.ofArray upper.toArray : Heap Binary64.totalLt).toList.Perm upper :=
      Heap.toList_ofArray _
    exact ⟨_, hread lower upper median rest hstored hhalves hsame,
      Heap.isHeap_ofArray ranking_totalGt _, Heap.isHeap_ofArray ranking_totalLt _, hperm, hperm',
      fun a ha b hb => hhalves.apart a (hperm.mem_iff.1 ha) b (hperm'.mem_iff.1 hb),
      hhalves.median_eq⟩

/-- A lower half with its greatest value in the middle, and an upper half with a NaN on top. -/
def shuffledLower : List Binary64 :=
  [((1 : Int) : Binary64), ((3 : Int) : Binary64), ((2 : Int) : Binary64)]

def shuffledUpper : List Binary64 := [nan, ((4 : Int) : Binary64)]

/-- The two halves with their median, and a byte that is not theirs. -/
def shuffled : List UInt8 :=
  Field.encode (halfFields shuffledLower ++ halfFields shuffledUpper
    ++ [.double ((3 : Int) : Binary64)]) ++ [7]

theorem load_iff_shuffled :
    Stored shuffledLower shuffledUpper ((3 : Int) : Binary64) shuffled [7] ∧
      Halves shuffledLower shuffledUpper ∧
      ∃ t, (Persistent.load .latest : Reader MedianTracker).read shuffled = (.ok t, [7]) ∧
        t.lower.toList.Perm shuffledLower ∧ t.lower.top? = some ((3 : Int) : Binary64) ∧
        t.median = ((3 : Int) : Binary64) := by
  have hstored : Stored shuffledLower shuffledUpper ((3 : Int) : Binary64) shuffled [7] :=
    ⟨by decide, by decide, rfl⟩
  have hhalves : Halves shuffledLower shuffledUpper := ⟨by decide, by decide, by decide +kernel⟩
  have hsorted : ascending (shuffledLower ++ shuffledUpper)
      = [((1 : Int) : Binary64), ((2 : Int) : Binary64), ((3 : Int) : Binary64),
        ((4 : Int) : Binary64), nan] :=
    (eq_ascending (by decide +kernel) (by decide +kernel)).symm
  have hmedian : sortedMedian (shuffledLower ++ shuffledUpper) = ((3 : Int) : Binary64) := by
    unfold sortedMedian
    rw [hsorted]
    rfl
  obtain ⟨t, hread, hheap, -, hperm, -, -, ht⟩ := (load_iff .latest shuffled).2.1 shuffledLower
    shuffledUpper ((3 : Int) : Binary64) [7] hstored hhalves (by rw [hmedian]; exact same_self _)
  refine ⟨hstored, hhalves, t, hread, hperm, ?_, ht.trans hmedian⟩
  rw [top?_lower_eq_some_iff hheap]
  simp only [hperm.mem_iff]
  decide +kernel

end MedianTracker
end Rollup
