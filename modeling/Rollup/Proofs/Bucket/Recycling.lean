import Rollup.Proofs.Bucket.Visits

/-!
# Recycled states

The states that come from a fresh one can be put to use again (`Recyclable`): no field that a bucket
has written is read in the next one. What a reset may keep is the direction of a time-weighted
average, which never changes, and the value of last, which the first sample overwrites.
-/

namespace Rollup

namespace TimeWeighted

/-! ## The direction is never written -/

@[simp] theorem reverse_setEdges {α : Type} (s : TimeWeighted α) (low high : Timestamp) :
    (s.setEdges low high).reverse = s.reverse := by
  unfold setEdges
  split <;> rfl

variable {α : Type} [Add α] [Sub α] [Mul α] [Div α] [IntCast α]

@[simp] theorem reverse_append (s : TimeWeighted α) (sample : Sample α) :
    (s.append sample).reverse = s.reverse := by
  simp only [append]
  split
  · split <;> rfl
  · rfl

@[simp] theorem reverse_followedBy (s : TimeWeighted α) (sample : Sample α) :
    (s.followedBy sample).reverse = s.reverse := by
  simp only [followedBy]
  split
  · split <;> rfl
  · rfl

@[simp] theorem reverse_enter (g : Grid) (s : TimeWeighted α) (start : Timestamp)
    (last : Option (Sample α)) : (Accumulator.enter g s start last).reverse = s.reverse := by
  cases last <;> exact reverse_setEdges _ _ _

theorem recyclable (reverse : Bool) :
    Recyclable (fresh reverse : TimeWeighted α) fun s => s.reverse = reverse where
  own_fresh := rfl
  append s sample h := (reverse_append s sample).trans h
  enter g s start last h := (reverse_enter g s start last).trans h
  followedBy s next h := (reverse_followedBy s next).trans h
  recycle g s start last sample h := by
    show Accumulator.append (Accumulator.enter g (fresh s.reverse) start last) sample = _
    rw [h]

end TimeWeighted

namespace Aggregator

/-- The states of one kind; a time-weighted average has the given direction. -/
def Serves (kind : Aggregation) (reverse : Bool) (s : Aggregator) : Prop :=
  s.kind = kind ∧ ∀ state, s = timeWeighted state → state.reverse = reverse

theorem exists_timeWeighted {s : Aggregator} (h : s.kind = .twa) :
    ∃ state, s = timeWeighted state := by
  cases s with
  | timeWeighted state => exact ⟨state, rfl⟩
  | tally fold _ => cases fold <;> cases h
  | extreme report _ => cases report <;> cases h
  | first _ => cases h
  | mean _ => cases h
  | spread report _ => cases report <;> cases h

/-- A step that keeps the kind, and acts on a time-weighted average by `f`, which keeps the
direction. -/
theorem Serves.step {kind : Aggregation} {reverse : Bool} {s s' : Aggregator}
    (h : s.Serves kind reverse) (hkind : s'.kind = s.kind)
    (f : TimeWeighted Binary64 → TimeWeighted Binary64)
    (hf : ∀ state, s = timeWeighted state → s' = timeWeighted (f state))
    (hrev : ∀ state, (f state).reverse = state.reverse) : s'.Serves kind reverse := by
  refine ⟨hkind.trans h.1, fun state' heq => ?_⟩
  -- only a time-weighted average has the kind of one
  have htwa : s.kind = .twa := by rw [← hkind, heq]; rfl
  obtain ⟨state, rfl⟩ := exists_timeWeighted htwa
  rw [← timeWeighted.inj ((hf state rfl).symm.trans heq), hrev]
  exact h.2 state rfl

theorem serves_fresh (kind : Aggregation) (reverse : Bool) :
    (fresh kind reverse).Serves kind reverse := by
  refine ⟨kind_fresh kind reverse, fun state heq => ?_⟩
  have htwa : kind = .twa := by rw [← kind_fresh kind reverse, heq]; rfl
  subst htwa
  rw [← timeWeighted.inj heq]
  rfl

theorem kind_enter (g : Grid) (s : Aggregator) (start : Timestamp)
    (last : Option (Sample Binary64)) : (Accumulator.enter g s start last).kind = s.kind := by
  cases last with
  | none => exact kind_setEdges s start (g.finish start)
  | some sample => exact (kind_setEdges _ start (g.finish start)).trans (kind_precededBy s sample)

theorem enter_timeWeighted (g : Grid) (state : TimeWeighted Binary64) (start : Timestamp)
    (last : Option (Sample Binary64)) :
    Accumulator.enter g (timeWeighted state) start last
      = timeWeighted (Accumulator.enter g state start last) := by
  cases last <;> rfl

/-- Up to the first sample of the next bucket a reset forgets everything. -/
theorem append_enter_reset {kind : Aggregation} {reverse : Bool} {s : Aggregator}
    (h : s.Serves kind reverse) (g : Grid) (start : Timestamp) (last : Option (Sample Binary64))
    (sample : Sample Binary64) :
    (Accumulator.enter g s.reset start last).append sample
      = (Accumulator.enter g (fresh kind reverse) start last).append sample := by
  obtain ⟨rfl, hdir⟩ := h
  cases s with
  | tally fold _ => cases fold <;> cases last <;> rfl
  | extreme report _ => cases report <;> rfl
  | first _ => rfl
  | mean _ => rfl
  | spread report _ => cases report <;> rfl
  | timeWeighted state =>
    have hreset : state.reset = .fresh reverse := by rw [← hdir state rfl]; rfl
    show (Accumulator.enter g (timeWeighted state.reset) start last).append sample = _
    rw [hreset]
    rfl

theorem recyclable (kind : Aggregation) (reverse : Bool) :
    Recyclable (fresh kind reverse) (Serves kind reverse) where
  own_fresh := serves_fresh kind reverse
  append s sample h :=
    h.step (kind_append s sample) (·.append sample) (fun _ heq => by rw [heq]; rfl)
      (fun state => state.reverse_append sample)
  enter g s start last h :=
    h.step (kind_enter g s start last) (Accumulator.enter g · start last)
      (fun state heq => by rw [heq]; exact enter_timeWeighted g state start last)
      (fun state => state.reverse_enter g start last)
  followedBy s next h :=
    h.step (kind_followedBy s next) (·.followedBy next) (fun _ heq => by rw [heq]; rfl)
      (fun state => state.reverse_followedBy next)
  recycle g _ start last sample h := append_enter_reset h g start last sample

end Aggregator
end Rollup
