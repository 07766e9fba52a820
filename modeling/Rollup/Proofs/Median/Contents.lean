import Rollup.Proofs.Median.Sorted
import Rollup.Proofs.Median.Stored

/-!
# What a tracker holds

NaNs, and numbers whose middle overflows, can take the values of a tracker to the wrong side of its
median. What never depends on the sides is kept by every update, from a new tracker or from one that
was read from bytes: the halves balance, both are heaps in the total order, and no value is lost or
appears twice. `balanced_and_exact` says so of the tracker after any updates, and of each further
one.
-/

namespace Rollup
namespace MedianTracker

open Binary64

variable {t t' : MedianTracker} {value : Binary64}

/-- Where updates start: at the new tracker, or at one that was read from bytes in some layout. -/
inductive Origin : MedianTracker → Prop where
  | new : Origin empty
  | stored {t : MedianTracker} (version : Version) (bytes rest : List UInt8)
      (hread : (Persistent.load version : Reader MedianTracker).read bytes = (.ok t, rest)) :
      Origin t

theorem Origin.sound (h : Origin t) : Sound t := by
  cases h with
  | new => exact sound_empty
  | stored version bytes rest hread => exact sound_of_read hread

theorem Origin.of_restore (h : restore t = .ok t') : Origin t' := by
  rw [restore_eq] at h
  rcases hread : (Persistent.load .latest : Reader MedianTracker).read (encode t) with
    ⟨result, rest⟩
  rw [hread] at h
  obtain rfl : result = .ok t' := h
  exact .stored .latest (encode t) rest hread

/-! ## One update -/

theorem Sound.apply (hs : Sound t) (update : Update) : Sound (update.apply t) :=
  update.keeps hs sound_empty (fun value _ => hs.insert value) fun _ _ h => hs.erase? h

/-- A deletion takes out one value that is the same number, if there is one. -/
theorem erase_of_same (h : ∃ x ∈ t.toList, same x value = true) :
    ∃ x t', t.erase? value = some t' ∧ t.erase value = t' ∧ same x value = true ∧
      (x :: t'.toList).Perm t.toList := by
  rcases erase?_spec t value with ⟨-, habsent⟩ | ⟨t', x, hsome, hsame, hperm⟩
  · obtain ⟨x, hx, hsame⟩ := h
    exact absurd ((habsent x hx).symm.trans hsame) Bool.false_ne_true
  · exact ⟨x, t', hsome, by rw [erase, hsome]; rfl, hsame, hperm⟩

/-- A deletion that finds no such value changes nothing. -/
theorem erase_of_not_same (h : ∀ x ∈ t.toList, same x value = false) :
    t.erase? value = none ∧ t.erase value = t := by
  rcases erase?_spec t value with ⟨hnone, -⟩ | ⟨t', x, -, hsame, hperm⟩
  · exact ⟨hnone, by rw [erase, hnone]; rfl⟩
  · have hx := h x (hperm.mem_iff.1 List.mem_cons_self)
    exact absurd (hx.symm.trans hsame) Bool.false_ne_true

/-- The values that an update adds. -/
def Update.added : Update → List Binary64
  | insert value => [value]
  | delete _ => []
  | clear => []

theorem Update.exists_removed (t : MedianTracker) (update : Update) :
    ∃ removed, (removed ++ (update.apply t).toList).Perm (update.added ++ t.toList) := by
  cases update with
  | insert value => exact ⟨[], toList_insert t value⟩
  | delete value =>
    show ∃ removed, (removed ++ (t.erase value).toList).Perm t.toList
    unfold erase
    rcases erase?_spec t value with ⟨hnone, -⟩ | ⟨t', x, hsome, -, hperm⟩
    · rw [hnone]
      exact ⟨[], .refl _⟩
    · rw [hsome]
      exact ⟨[x], hperm⟩
  | clear =>
    refine ⟨t.toList, ?_⟩
    show (t.toList ++ []).Perm t.toList
    rw [List.append_nil]

/-! ## Runs -/

theorem Sound.foldl (hs : Sound t) (updates : List Update) :
    Sound (updates.foldl Update.apply t) := by
  induction updates generalizing t with
  | nil => exact hs
  | cons update rest ih => exact ih (hs.apply update)

/-- What a tracker holds and what was removed from it is what it held and what was added. -/
theorem exists_removed_foldl (t : MedianTracker) (updates : List Update) :
    ∃ removed, (removed ++ (updates.foldl Update.apply t).toList).Perm
      (updates.flatMap Update.added ++ t.toList) := by
  induction updates generalizing t with
  | nil => exact ⟨[], .refl _⟩
  | cons update rest ih =>
    obtain ⟨now, hnow⟩ := update.exists_removed t
    obtain ⟨later, hlater⟩ := ih (update.apply t)
    refine ⟨now ++ later, ?_⟩
    rw [List.append_assoc, List.flatMap_cons, List.foldl_cons]
    -- what is added later is moved out of the way of this update
    refine (hlater.append_left now).trans ((List.perm_append_comm_assoc _ _ _).trans ?_)
    refine (hnow.append_left _).trans ?_
    rw [List.append_assoc]
    exact List.perm_append_comm_assoc _ _ _

/-- **Balanced heaps, and no value lost.** After any updates by any doubles, from a new tracker or
from one that was read, the sizes of the halves differ by one at most, and the halves are heaps in
the total order, with the greatest and with the least on top. All values that were there or were
added are there or were removed. Of the next update: an insertion adds exactly its value; a deletion
takes out exactly one value that is the same number or a NaN like it, if there is one, and otherwise
changes nothing and reports so. -/
theorem balanced_and_exact {t₀ : MedianTracker} (h₀ : Origin t₀) (updates : List Update) :
    let t := updates.foldl Update.apply t₀
    (t.lower.size ≤ t.upper.size + 1 ∧ t.upper.size ≤ t.lower.size + 1) ∧
    (Heap.IsHeap totalGt t.lower.items ∧ Heap.IsHeap totalLt t.upper.items) ∧
    (∃ removed, (removed ++ t.toList).Perm (updates.flatMap Update.added ++ t₀.toList)) ∧
    (∀ value, (t.insert value).toList.Perm (value :: t.toList)) ∧
    (∀ value, (∃ x ∈ t.toList, same x value = true) →
      ∃ x t', t.erase? value = some t' ∧ t.erase value = t' ∧ same x value = true ∧
        (x :: t'.toList).Perm t.toList) ∧
    ∀ value, (∀ x ∈ t.toList, same x value = false) →
      t.erase? value = none ∧ t.erase value = t := by
  have hs := h₀.sound.foldl updates
  exact ⟨⟨hs.lower_le, hs.upper_le⟩, ⟨hs.lower, hs.upper⟩, exists_removed_foldl t₀ updates,
    toList_insert _, fun _ => erase_of_same, fun _ => erase_of_not_same⟩

/-- Infinities of both signs, whose middle is a NaN, and numbers whose sum overflows. -/
def unsidedUpdates : List Update :=
  [.insert (infinity true), .insert (infinity false), .insert maxFinite, .insert maxFinite,
    .delete (zero false), .insert (zero true)]

/-- From a tracker that is stored with a NaN in it and read back: the NaN of the other sign takes it
out. -/
theorem balanced_and_exact_unsided :
    Origin (empty.insert nan) ∧
      ∃ x t', (unsidedUpdates.foldl Update.apply (empty.insert nan)).erase? nan.neg = some t' ∧
        same x nan.neg = true ∧
        (x :: t'.toList).Perm (unsidedUpdates.foldl Update.apply (empty.insert nan)).toList := by
  have hs : Sound (empty.insert nan) := sound_empty.insert nan
  have hupper : (empty.insert nan).upper.top? = none := by decide +kernel
  have hrestore : restore (empty.insert nan) = .ok (empty.insert nan) :=
    hs.restore_eq_ok (by decide +kernel) fun a b h => by
      rw [h.upper] at hupper
      cases hupper
  have horigin := Origin.of_restore hrestore
  have hmem : ∃ x ∈ (unsidedUpdates.foldl Update.apply (empty.insert nan)).toList,
      same x nan.neg = true := by
    decide +kernel
  obtain ⟨x, t', hsome, -, hsame, hperm⟩ :=
    (balanced_and_exact horigin unsidedUpdates).2.2.2.2.1 nan.neg hmem
  exact ⟨horigin, x, t', hsome, hsame, hperm⟩

end MedianTracker
end Rollup
