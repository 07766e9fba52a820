import Rollup.Proofs.Median.Contents

/-!
# Which trackers can be restored

Insertions route their values by numeric comparison, and the tops are checked by the total order
when a tracker is read back. So a tracker cannot be restored if the two orders disagree on its tops
(`restore_run_iff`). Finite numbers can bring that about in two ways (`overlaps_of_inserts`): `+0`
was inserted before `-0`, or the middle of two large numbers was infinite when the third one came.
Where no sum can overflow, the zeros are the only obstacle.
-/

namespace Rollup
namespace MedianTracker

open Binary64

variable {t : MedianTracker} {updates : List Update} {a b x : Binary64}

/-! ## What a run has inserted -/

theorem Update.mem_added {update : Update} : x ∈ update.added ↔ update = .insert x := by
  cases update with
  | insert value => simp [added, eq_comm]
  | delete value => simp [added]
  | clear => simp [added]

theorem insert_mem_of_mem_run (hx : x ∈ (run updates).toList) : .insert x ∈ updates := by
  obtain ⟨removed, hperm⟩ := exists_removed_foldl empty updates
  have hadded := hperm.mem_iff.1 (List.mem_append_right removed hx)
  obtain ⟨update, hmem, hx⟩ := List.mem_flatMap.1 ((List.mem_append.1 hadded).resolve_right
    List.not_mem_nil)
  exact Update.mem_added.1 hx ▸ hmem

theorem length_added_le (updates : List Update) :
    (updates.flatMap Update.added).length ≤ updates.length := by
  induction updates with
  | nil => exact Nat.le_refl 0
  | cons update rest ih =>
    have hone : update.added.length ≤ 1 := by
      cases update with
      | insert value => exact Nat.le_refl 1
      | delete value => exact Nat.zero_le 1
      | clear => exact Nat.zero_le 1
    rw [List.flatMap_cons, List.length_append, List.length_cons]
    omega

theorem size_run_le (updates : List Update) : (run updates).size ≤ updates.length := by
  obtain ⟨removed, hperm⟩ := exists_removed_foldl empty updates
  have hlength := hperm.length_eq
  rw [List.length_append, List.length_append, length_toList, length_toList] at hlength
  have hadded := length_added_le updates
  have hempty : empty.size = 0 := rfl
  unfold run
  omega

/-! ## Where the orders disagree -/

/-- Halves that are apart as numbers overlap in the total order only by their zeros. -/
theorem Partitioned.eq_zero_of_overlaps (hp : Partitioned t) (h : Overlaps t a b) :
    a = zero false ∧ b = zero true := by
  have ha := Heap.top?_mem h.lower
  have hb := Heap.top?_mem h.upper
  have hlt : b.totalKey < a.totalKey := of_decide_eq_true h.totalLt
  have hle : a.numKey ≤ b.numKey :=
    (le_iff (hp.isNaN_lower a ha) (hp.isNaN_upper b hb)).1 (hp.ordered a ha b hb)
  have hge := numKey_le_of_totalKey_le (Int.le_of_lt hlt)
  rcases eq_or_isZero (Int.le_antisymm hle hge) with rfl | ⟨hza, hzb⟩
  · exact absurd hlt (Int.lt_irrefl _)
  · -- of the zeros, only the negative one ranks below another
    rw [eq_zero_of_isZero hza, eq_zero_of_isZero hzb] at hlt ⊢
    revert hlt
    cases a.isNegative <;> cases b.isNegative <;> decide

/-- **A tracker is restored unless its halves overlap.** After any updates the tracker is read back
from its bytes as it was, halves, heap order and median, exactly if the total order does not rank
the top of its lower half above that of the upper half, and is refused for these tops otherwise. If
every inserted value is a number that is infinite or at most half the greatest finite one in
magnitude, the two can only be `+0` and `-0`; so if in addition zeros of one sign only were
inserted, the tracker is restored. -/
theorem restore_run_iff (updates : List Update) (hlength : updates.length < 2 ^ 64) :
    (restore (run updates) = .ok (run updates) ↔ ∀ a b, ¬Overlaps (run updates) a b) ∧
    (∀ a b, Overlaps (run updates) a b →
      restore (run updates) = .error (.unloadable (.overlappingHalves a b))) ∧
    ((∀ value, .insert value ∈ updates → value.IsModerate) →
      (∀ a b, Overlaps (run updates) a b → a = zero false ∧ b = zero true) ∧
      (∀ s, .insert (zero s) ∉ updates → restore (run updates) = .ok (run updates))) := by
  have hs : Sound (run updates) := sound_empty.foldl updates
  have hsize := Nat.lt_of_le_of_lt (size_run_le updates) hlength
  refine ⟨⟨?_, hs.restore_eq_ok hsize⟩, fun a b => hs.restore_eq_error hsize, ?_⟩
  · intro hok a b h
    have herror := hs.restore_eq_error hsize h
    rw [hok] at herror
    cases herror
  · intro hm
    have hp := (run_invariant updates hm).1
    refine ⟨fun a b => hp.eq_zero_of_overlaps, fun s hnot => hs.restore_eq_ok hsize ?_⟩
    intro a b h
    obtain ⟨rfl, rfl⟩ := hp.eq_zero_of_overlaps h
    -- both zeros are values of the tracker, so both were inserted
    have hpos := insert_mem_of_mem_run (mem_toList.2 (.inl (Heap.top?_mem h.lower)))
    have hneg := insert_mem_of_mem_run (mem_toList.2 (.inr (Heap.top?_mem h.upper)))
    cases s
    · exact hnot hpos
    · exact hnot hneg

/-- Zeros of one sign, the greatest number whose double is finite, and a deletion that names the
zero of the other sign. -/
def negativeZeros : List Update :=
  [.insert (zero true), .insert (zero true), .insert (ofMagnitude false 0x7fdfffffffffffff),
    .delete (zero false)]

theorem restore_run_negativeZeros :
    negativeZeros.length < 2 ^ 64 ∧ (∀ value, .insert value ∈ negativeZeros → value.IsModerate) ∧
      .insert (zero false) ∉ negativeZeros ∧
      restore (run negativeZeros) = .ok (run negativeZeros) := by
  have hm : ∀ value, .insert value ∈ negativeZeros → value.IsModerate := by
    intro value hmem
    simp only [negativeZeros, List.mem_cons, Update.insert.injEq, List.not_mem_nil, reduceCtorEq,
      or_false] at hmem
    rw [isModerate_iff]
    rcases hmem with rfl | rfl | rfl <;> decide
  have hnot : .insert (zero false) ∉ negativeZeros := by
    simp only [negativeZeros, List.mem_cons, Update.insert.injEq, List.not_mem_nil, reduceCtorEq,
      or_false]
    decide
  have hlength : negativeZeros.length < 2 ^ 64 := by decide
  exact ⟨hlength, hm, hnot, ((restore_run_iff negativeZeros hlength).2.2 hm).2 false hnot⟩

/-- The zero that ranks above the other goes to the lower half, since it comes first. -/
def unlikeZeros : List Update := [.insert (zero false), .insert (zero true)]

/-- The middle of the first two numbers is infinite, so the third and greatest one goes to the lower
half. -/
def infiniteMiddle : List Update :=
  [.insert (ofMagnitude false 0x7fe1ccf385ebc8a0), .insert (ofMagnitude false 0x7feab36d48e1acf0),
    .insert (ofMagnitude false 0x7fee42d130773b76)]

/-- Finite numbers that are inserted can make a tracker that cannot be restored. -/
theorem overlaps_of_inserts :
    (∀ update ∈ unlikeZeros ++ infiniteMiddle, ∃ value, update = .insert value ∧
      value.isFinite = true) ∧
    restore (run unlikeZeros)
      = .error (.unloadable (.overlappingHalves (zero false) (zero true))) ∧
    restore (run infiniteMiddle)
      = .error (.unloadable (.overlappingHalves (ofMagnitude false 0x7fee42d130773b76)
          (ofMagnitude false 0x7feab36d48e1acf0))) := by
  have hzeros : Overlaps (run unlikeZeros) (zero false) (zero true) :=
    ⟨by decide +kernel, by decide +kernel, by decide⟩
  have hmiddle : Overlaps (run infiniteMiddle) (ofMagnitude false 0x7fee42d130773b76)
      (ofMagnitude false 0x7feab36d48e1acf0) :=
    ⟨by decide +kernel, by decide +kernel, by decide⟩
  refine ⟨?_, (sound_empty.foldl _).restore_eq_error (by decide +kernel) hzeros,
    (sound_empty.foldl _).restore_eq_error (by decide +kernel) hmiddle⟩
  intro update hmem
  simp only [unlikeZeros, infiniteMiddle, List.cons_append, List.nil_append, List.mem_cons,
    List.not_mem_nil, or_false] at hmem
  rcases hmem with rfl | rfl | rfl | rfl | rfl <;> exact ⟨_, rfl, by decide⟩

end MedianTracker
end Rollup
