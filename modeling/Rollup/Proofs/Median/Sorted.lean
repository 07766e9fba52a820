import Rollup.Proofs.Median.Partition

/-!
# The median is that of the sorted values

As long as the halves of a tracker do not overlap, its tops are the values in the middle of the
sorted list, so the cached median is the one found there by sorting. `same_sortedMedian_run` says so
of the tracker after every sequence of insertions, deletions and clears.

The list that is sorted is kept apart from the tracker (`Update.live`). Which of two equal numbers a
deletion takes may differ between the two, so they are compared as multisets of numbers.
-/

namespace Rollup
namespace MedianTracker

open Binary64

variable {t : MedianTracker}

/-! ## The median by sorting -/

/-- The values in ascending order. -/
def ascending (values : List Binary64) : List Binary64 :=
  values.mergeSort fun a b => !totalLt b a

/-- The median found by sorting: the value in the middle, or the middle of the two values there; a
NaN if there is none. -/
def sortedMedian (values : List Binary64) : Binary64 :=
  let sorted := ascending values
  match sorted[(sorted.length - 1) / 2]?, sorted[sorted.length / 2]? with
  | some a, some b => if sorted.length % 2 = 1 then b else middle a b
  | _, _ => nan

theorem ascending_perm (values : List Binary64) : (ascending values).Perm values :=
  List.mergeSort_perm _ _

theorem pairwise_ascending (values : List Binary64) :
    (ascending values).Pairwise (·.totalKey ≤ ·.totalKey) := by
  have hsorted : (ascending values).Pairwise fun a b => (!totalLt b a) = true :=
    List.pairwise_mergeSort
      (by simp only [totalLt, Bool.not_eq_true', decide_eq_false_iff_not]; omega)
      (by simp only [totalLt, Bool.or_eq_true, Bool.not_eq_true', decide_eq_false_iff_not]; omega)
      values
  refine hsorted.imp ?_
  intro a b hab
  simp only [totalLt, Bool.not_eq_true', decide_eq_false_iff_not] at hab
  omega

theorem number_eq_some {x : Binary64} (h : x.isNaN = false) : x.number = some x.numKey := by
  unfold number
  rw [h]
  rfl

/-- The halves sorted one after the other list the same numbers as all values sorted at once. -/
theorem Partitioned.ascending_eq (hp : Partitioned t) {values : List Binary64}
    (hperm : (t.toList.map number).Perm (values.map number)) :
    (ascending values).map number
      = (ascending t.lower.toList ++ ascending t.upper.toList).map number := by
  have hkeys : ∀ x ∈ t.toList, x.number = some x.numKey :=
    fun x hx => number_eq_some (hp.moderate x hx).1
  have hvalues : ∀ v ∈ values, v.number = some v.numKey := by
    intro v hv
    obtain ⟨x, hx, heq⟩ := List.mem_map.1 (hperm.mem_iff.2 (List.mem_map_of_mem hv))
    apply number_eq_some
    rw [hkeys x hx] at heq
    unfold number at heq
    cases hn : v.isNaN with
    | false => rfl
    | true => rw [hn] at heq; exact absurd heq (by simp)
  -- two ascending lists of the same numbers
  refine @List.Perm.eq_of_pairwise (Option Int) (fun a b => a.getD 0 ≤ b.getD 0) _ _ ?_ ?_ ?_ ?_
  · intro a b ha hb hab hba
    obtain ⟨x, hx, rfl⟩ := List.mem_map.1 ha
    obtain ⟨y, hy, rfl⟩ := List.mem_map.1 hb
    rw [List.mem_append, (ascending_perm _).mem_iff, (ascending_perm _).mem_iff,
      ← mem_toList] at hy
    rw [hvalues x ((ascending_perm _).mem_iff.1 hx), hkeys y hy] at hab hba ⊢
    exact congrArg some (Int.le_antisymm hab hba)
  · rw [List.pairwise_map]
    refine (pairwise_ascending values).imp_of_mem ?_
    intro a b ha hb hab
    rw [hvalues a ((ascending_perm _).mem_iff.1 ha), hvalues b ((ascending_perm _).mem_iff.1 hb)]
    exact numKey_le_of_totalKey_le hab
  · rw [List.pairwise_map, List.pairwise_append]
    refine ⟨(pairwise_ascending _).imp_of_mem ?_, (pairwise_ascending _).imp_of_mem ?_, ?_⟩
    · intro a b ha hb hab
      rw [hkeys a (mem_toList.2 (.inl ((ascending_perm _).mem_iff.1 ha))),
        hkeys b (mem_toList.2 (.inl ((ascending_perm _).mem_iff.1 hb)))]
      exact numKey_le_of_totalKey_le hab
    · intro a b ha hb hab
      rw [hkeys a (mem_toList.2 (.inr ((ascending_perm _).mem_iff.1 ha))),
        hkeys b (mem_toList.2 (.inr ((ascending_perm _).mem_iff.1 hb)))]
      exact numKey_le_of_totalKey_le hab
    · intro a ha b hb
      have ha' := (ascending_perm _).mem_iff.1 ha
      have hb' := (ascending_perm _).mem_iff.1 hb
      have hle := hp.ordered a ha' b hb'
      rw [hkeys a (mem_toList.2 (.inl ha')), hkeys b (mem_toList.2 (.inr hb'))]
      obtain ⟨hna, hnb⟩ := isNaN_of_le hle
      exact (le_iff hna hnb).1 hle
  · refine ((ascending_perm _).map number).trans (hperm.symm.trans ?_)
    exact (((ascending_perm _).append (ascending_perm _)).map number).symm

/-- The lower half sorted ends with its top, as a number. -/
theorem Partitioned.last_lower (hp : Partitioned t) {top : Binary64}
    (htop : t.lower.top? = some top) :
    ((ascending t.lower.toList)[t.lower.size - 1]?).map number
      = some top.number := by
  generalize hS : (ascending t.lower.toList) = sorted
  have hsorted : sorted.Pairwise (·.totalKey ≤ ·.totalKey) := hS ▸ pairwise_ascending _
  have hmem : ∀ x, x ∈ sorted ↔ x ∈ t.lower.toList := fun x => hS ▸ (ascending_perm _).mem_iff
  have hlen : sorted.length = t.lower.size := by
    rw [← hS, (ascending_perm _).length_eq, Heap.length_toList]
  obtain ⟨j, hj, hjt⟩ := List.getElem_of_mem ((hmem top).2 (Heap.top?_mem htop))
  have hlast : t.lower.size - 1 < sorted.length := by omega
  rw [List.getElem?_eq_getElem hlast, Option.map_some]
  refine congrArg some (same_iff_number.1 (same_iff.2 ⟨?_, fun _ => ?_⟩))
  · rw [hp.isNaN_lower _ ((hmem _).1 (List.getElem_mem hlast)),
      hp.isNaN_lower _ (Heap.top?_mem htop)]
  · have hle := le_lower_top hp.lower hp.isNaN_lower htop _
      ((hmem _).1 (List.getElem_mem hlast))
    obtain ⟨hn, hn'⟩ := isNaN_of_le hle
    have hge : top.totalKey ≤ (sorted[t.lower.size - 1]).totalKey := by
      rcases Nat.lt_or_eq_of_le (show j ≤ t.lower.size - 1 by omega) with hlt | heq
      · rw [← hjt]
        exact List.pairwise_iff_getElem.1 hsorted j _ hj hlast hlt
      · subst heq
        rw [hjt]
    exact Int.le_antisymm ((le_iff hn hn').1 hle) (numKey_le_of_totalKey_le hge)

/-- The upper half sorted begins with its top, as a number. -/
theorem Partitioned.first_upper (hp : Partitioned t) {top : Binary64}
    (htop : t.upper.top? = some top) :
    ((ascending t.upper.toList)[0]?).map number = some top.number := by
  generalize hS : (ascending t.upper.toList) = sorted
  have hsorted : sorted.Pairwise (·.totalKey ≤ ·.totalKey) := hS ▸ pairwise_ascending _
  have hmem : ∀ x, x ∈ sorted ↔ x ∈ t.upper.toList := fun x => hS ▸ (ascending_perm _).mem_iff
  obtain ⟨j, hj, hjt⟩ := List.getElem_of_mem ((hmem top).2 (Heap.top?_mem htop))
  have hfirst : 0 < sorted.length := by omega
  rw [List.getElem?_eq_getElem hfirst, Option.map_some]
  refine congrArg some (same_iff_number.1 (same_iff.2 ⟨?_, fun _ => ?_⟩))
  · rw [hp.isNaN_upper _ ((hmem _).1 (List.getElem_mem hfirst)),
      hp.isNaN_upper _ (Heap.top?_mem htop)]
  · have hle := upper_top_le hp.upper hp.isNaN_upper htop _
      ((hmem _).1 (List.getElem_mem hfirst))
    obtain ⟨hn, hn'⟩ := isNaN_of_le hle
    have hge : (sorted[0]).totalKey ≤ top.totalKey := by
      rcases Nat.eq_zero_or_pos j with heq | hlt
      · subst heq
        rw [hjt]
      · rw [← hjt]
        exact List.pairwise_iff_getElem.1 hsorted 0 j hfirst hj hlt
    exact Int.le_antisymm (numKey_le_of_totalKey_le hge) ((le_iff hn hn').1 hle)

/-- All values sorted read like the lower half and then the upper half, position by position. -/
theorem Partitioned.read_ascending (hp : Partitioned t) {values : List Binary64}
    (hperm : (t.toList.map number).Perm (values.map number)) {k : Nat} {x : Binary64}
    (hk : ((ascending t.lower.toList ++ ascending t.upper.toList)[k]?).map number
      = some x.number) :
    ∃ v, (ascending values)[k]? = some v ∧ same x v = true := by
  rw [← List.getElem?_map, ← hp.ascending_eq hperm, List.getElem?_map,
    Option.map_eq_some_iff] at hk
  obtain ⟨v, hv, heq⟩ := hk
  exact ⟨v, hv, same_iff_number.2 heq.symm⟩

/-- The two tops stand next to each other in the sorted list. -/
theorem Partitioned.tops_ascending (hp : Partitioned t) {values : List Binary64}
    (hperm : (t.toList.map number).Perm (values.map number)) :
    (∀ a, t.lower.top? = some a →
      ∃ v, (ascending values)[t.lower.size - 1]? = some v ∧ same a v = true) ∧
    ∀ b, t.upper.top? = some b →
      ∃ v, (ascending values)[t.lower.size]? = some v ∧ same b v = true := by
  have hlen : (ascending t.lower.toList).length = t.lower.size := by
    rw [(ascending_perm _).length_eq, Heap.length_toList]
  constructor
  · intro a ha
    have hpos : t.lower.size ≠ 0 := by
      intro hzero
      rw [Heap.top?_eq_none_iff.2 hzero] at ha
      exact absurd ha (by simp)
    apply hp.read_ascending hperm
    rw [List.getElem?_append_left (by omega)]
    exact hp.last_lower ha
  · intro b hb
    apply hp.read_ascending hperm
    rw [List.getElem?_append_right (by omega), hlen, Nat.sub_self]
    exact hp.first_upper hb

/-- The cached median is that of the sorted values. -/
theorem Partitioned.same_sortedMedian (hp : Partitioned t) {values : List Binary64}
    (hperm : (t.toList.map number).Perm (values.map number)) :
    same t.median (sortedMedian values) = true := by
  have hlen : (ascending values).length = t.lower.size + t.upper.size := by
    have hsize := hperm.length_eq
    rw [List.length_map, List.length_map, length_toList] at hsize
    rw [(ascending_perm _).length_eq, ← hsize]
    rfl
  have hlower := hp.lower_le
  have hupper := hp.upper_le
  obtain ⟨readLower, readUpper⟩ := hp.tops_ascending hperm
  unfold sortedMedian
  dsimp only
  rw [hlen, hp.median]
  unfold ofTops
  rcases Nat.lt_trichotomy t.lower.size t.upper.size with hlt | heq | hgt
  · -- the upper half is the larger one, and its top is in the middle
    obtain ⟨b, hb⟩ := exists_top (h := t.upper) (by omega)
    obtain ⟨v, hv, hsame⟩ := readUpper b hb
    rw [show (t.lower.size + t.upper.size - 1) / 2 = t.lower.size by omega,
      show (t.lower.size + t.upper.size) / 2 = t.lower.size by omega, hv, hb]
    dsimp only
    rw [if_pos (by omega)]
    cases htop : t.lower.top? with
    | none => exact hsame
    | some a =>
      dsimp only
      rw [if_neg (by omega), if_neg (by omega)]
      exact hsame
  · by_cases hzero : t.lower.size = 0
    · have hnone : t.lower.top? = none := Heap.top?_eq_none_iff.2 hzero
      have hnone' : t.upper.top? = none := Heap.top?_eq_none_iff.2 (by omega)
      have hnil : ascending values = [] :=
        List.length_eq_zero_iff.1 (by omega)
      rw [hnone, hnone', hnil]
      exact same_self _
    · -- both tops are in the middle
      obtain ⟨a, ha⟩ := exists_top (h := t.lower) (by omega)
      obtain ⟨b, hb⟩ := exists_top (h := t.upper) (by omega)
      obtain ⟨v, hv, hsame⟩ := readLower a ha
      obtain ⟨w, hw, hsame'⟩ := readUpper b hb
      rw [show (t.lower.size + t.upper.size - 1) / 2 = t.lower.size - 1 by omega,
        show (t.lower.size + t.upper.size) / 2 = t.lower.size by omega, hv, hw, ha, hb]
      dsimp only
      rw [if_pos heq, if_neg (by omega)]
      exact same_middle hsame hsame'
  · obtain ⟨a, ha⟩ := exists_top (h := t.lower) (by omega)
    obtain ⟨v, hv, hsame⟩ := readLower a ha
    rw [show (t.lower.size + t.upper.size - 1) / 2 = t.lower.size - 1 by omega,
      show (t.lower.size + t.upper.size) / 2 = t.lower.size - 1 by omega, hv, ha]
    dsimp only
    rw [if_pos (by omega)]
    cases htop : t.upper.top? with
    | none => exact hsame
    | some b =>
      dsimp only
      rw [if_neg (by omega), if_pos hgt]
      exact hsame

/-! ## Runs -/

/-- A change to the values of a tracker. -/
inductive Update where
  | insert (value : Binary64)
  | delete (value : Binary64)
  | clear

namespace Update

def apply (t : MedianTracker) : Update → MedianTracker
  | insert value => t.insert value
  | delete value => t.erase value
  | clear => empty

/-- The values that are there after an update, as a plain list. -/
def live (values : List Binary64) : Update → List Binary64
  | insert value => value :: values
  | delete value => values.eraseP (same · value)
  | clear => []

end Update

/-- The tracker after a sequence of updates. -/
def run (updates : List Update) : MedianTracker := updates.foldl Update.apply empty

/-- The values that are there after a sequence of updates. -/
def liveValues (updates : List Update) : List Binary64 := updates.foldl Update.live []

theorem map_number_eraseP (values : List Binary64) (value : Binary64) :
    (values.eraseP (same · value)).map number = (values.map number).erase value.number := by
  rw [List.erase_eq_eraseP', List.eraseP_map]
  congr 2
  funext x
  rw [Bool.eq_iff_iff, same_iff_number, Function.comp_apply, beq_iff_eq]

/-- One update changes the values of a tracker as it changes a plain list. -/
theorem map_number_apply {values : List Binary64}
    (hperm : (t.toList.map number).Perm (values.map number)) (update : Update) :
    ((update.apply t).toList.map number).Perm ((update.live values).map number) := by
  cases update with
  | insert value =>
    exact ((toList_insert t value).map number).trans (hperm.cons value.number)
  | delete value =>
    show ((t.erase value).toList.map number).Perm ((values.eraseP (same · value)).map number)
    rw [map_number_eraseP]
    refine List.Perm.trans ?_ (hperm.erase value.number)
    unfold erase
    rcases erase?_spec t value with ⟨hnone, habsent⟩ | ⟨t', x, hsome, hsame, hrest⟩
    · -- no value is the same number, so nothing is erased from the list either
      have hnot : value.number ∉ t.toList.map number := by
        intro hmem
        obtain ⟨x, hx, heq⟩ := List.mem_map.1 hmem
        exact absurd (same_iff_number.2 heq) (by rw [habsent x hx]; exact Bool.false_ne_true)
      rw [hnone, Option.getD_none, List.erase_of_not_mem hnot]
    · rw [hsome, Option.getD_some]
      have hcons := (hrest.map number).erase value.number
      rw [List.map_cons, same_iff_number.1 hsame, List.erase_cons_head] at hcons
      exact hcons
  | clear => exact .refl _

/-- An update keeps what every removal and the insertion of its value keep. -/
theorem Update.keeps {P : MedianTracker → Prop} (update : Update) (h : P t) (hempty : P empty)
    (hinsert : ∀ value, update = .insert value → P (t.insert value))
    (herase : ∀ value t', t.erase? value = some t' → P t') : P (update.apply t) := by
  cases update with
  | insert value => exact hinsert value rfl
  | delete value =>
    show P (t.erase value)
    unfold erase
    cases hremoved : t.erase? value with
    | none => exact h
    | some t' => exact herase value t' hremoved
  | clear => exact hempty

theorem Partitioned.apply (hp : Partitioned t) (update : Update)
    (hm : ∀ value, update = .insert value → value.IsModerate) : Partitioned (update.apply t) :=
  update.keeps hp partitioned_empty (fun value heq => hp.insert (hm value heq))
    fun _ _ h => hp.erase? h

/-- What a run keeps, from what one update keeps. -/
theorem run_invariant (updates : List Update)
    (hm : ∀ value, .insert value ∈ updates → value.IsModerate) :
    Partitioned (run updates) ∧
      ((run updates).toList.map number).Perm ((liveValues updates).map number) := by
  have fold : ∀ (updates : List Update) (t : MedianTracker) (values : List Binary64),
      (∀ value, .insert value ∈ updates → value.IsModerate) → Partitioned t →
      (t.toList.map number).Perm (values.map number) →
      Partitioned (updates.foldl Update.apply t) ∧
        ((updates.foldl Update.apply t).toList.map number).Perm
          ((updates.foldl Update.live values).map number) := by
    intro updates
    induction updates with
    | nil =>
      intro t values _ hp hperm
      exact ⟨hp, hperm⟩
    | cons update rest ih =>
      intro t values hm hp hperm
      refine ih (update.apply t) (update.live values) ?_ (hp.apply update ?_)
        (map_number_apply hperm update)
      · intro value hmem
        exact hm value (List.mem_cons_of_mem update hmem)
      · intro value heq
        exact hm value (heq ▸ List.mem_cons_self)
  exact fold updates empty [] hm partitioned_empty (.refl _)

/-- **The cached median is the sorted median.** Let every inserted value be a number that is
infinite or at most half the greatest finite one in magnitude; deletions may name any double. Then
after any number of steps no value of the lower half is greater than one of the upper half, the
tracker holds the live numbers, and its median is the number found by sorting them, or both are
NaNs. -/
theorem same_sortedMedian_run (updates : List Update)
    (hm : ∀ value, .insert value ∈ updates → value.IsModerate) (steps : Nat) :
    (∀ a ∈ (run (updates.take steps)).lower.toList,
      ∀ b ∈ (run (updates.take steps)).upper.toList, a ≤ b) ∧
    ((run (updates.take steps)).toList.map number).Perm
      ((liveValues (updates.take steps)).map number) ∧
    same (run (updates.take steps)).median (sortedMedian (liveValues (updates.take steps)))
      = true := by
  have hm' : ∀ value, .insert value ∈ updates.take steps → value.IsModerate :=
    fun value hmem => hm value (List.mem_of_mem_take hmem)
  obtain ⟨hp, hperm⟩ := run_invariant (updates.take steps) hm'
  exact ⟨hp.ordered, hperm, hp.same_sortedMedian hperm⟩

/-- Both infinities, whose middle is a NaN; zeros of either sign; deletions of a number that is
held, of one that is not, and of a NaN; and the greatest number that may be inserted. -/
def mixedUpdates : List Update :=
  [.insert (infinity true), .insert (infinity false), .insert (zero true), .delete (zero false),
    .delete maxFinite, .delete nan, .insert (ofMagnitude false 0x7fdfffffffffffff),
    .insert (ofMagnitude true 0x7fdfffffffffffff), .clear, .insert (zero false)]

theorem same_sortedMedian_mixedUpdates :
    (∀ value, .insert value ∈ mixedUpdates → value.IsModerate) ∧
      same (run (mixedUpdates.take 8)).median (sortedMedian (liveValues (mixedUpdates.take 8)))
        = true := by
  have hm : ∀ value, .insert value ∈ mixedUpdates → value.IsModerate := by
    intro value hmem
    simp only [mixedUpdates, List.mem_cons, Update.insert.injEq, List.not_mem_nil, reduceCtorEq,
      false_or, or_false] at hmem
    rw [isModerate_iff]
    rcases hmem with rfl | rfl | rfl | rfl | rfl | rfl <;> decide
  exact ⟨hm, (same_sortedMedian_run mixedUpdates hm 8).2.2⟩

end MedianTracker
end Rollup
