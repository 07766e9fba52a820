import Rollup.Median.Rolling
import Rollup.Proofs.Median.Sorted

/-!
# The window of a rolling median

Samples leave the queue from its front, and their values leave the tracker by value. With timestamps
that never decrease the queue holds exactly the samples of the window that ends at the newest one
(`inWindow`), and the tracker holds their numbers: what leaves the queue is found in the tracker,
whatever zeros or NaNs are among the values. So the median is that of the window alone
(`pushAll_median`).
-/

namespace Rollup
namespace RollingMedian

open Binary64 MedianTracker

variable {window : Int64} {r : RollingMedian} {sample : Sample Binary64}

/-- The samples no older than `window` before the newest one, in the order they came. -/
def inWindow (window : Int64) (seen : List (Sample Binary64)) : List (Sample Binary64) :=
  match seen.getLast? with
  | none => []
  | some newest => seen.filter fun s =>
      decide (newest.timestamp.toInt - window.toInt ≤ s.timestamp.toInt)

/-- No timestamp is earlier than one before it. -/
def InOrder (samples : List (Sample Binary64)) : Prop :=
  samples.Pairwise fun a b => a.timestamp.toInt ≤ b.timestamp.toInt

instance (samples : List (Sample Binary64)) : Decidable (InOrder samples) :=
  inferInstanceAs (Decidable (List.Pairwise _ _))

/-! ## The queue -/

/-- A window that begins before the least timestamp begins at it, which leaves nothing out. -/
theorem lt_windowStart_iff (hwindow : 0 ≤ window.toInt) (newest t : Timestamp) :
    t < Timestamp.saturatingSub newest window ↔ t.toInt < newest.toInt - window.toInt := by
  have hlow := t.le_toInt
  have hhigh := newest.toInt_lt
  rw [Int64.lt_iff_toInt_lt, Timestamp.saturatingSub, Timestamp.toInt_saturate]
  simp only [Timestamp.least, Timestamp.greatest]
  omega

/-- In order, the samples behind the expired ones are those that are not expired. -/
theorem dropWhile_eq_filter {samples : List (Sample Binary64)} (h : InOrder samples) (start : Int) :
    samples.dropWhile (fun s => decide (s.timestamp.toInt < start))
      = samples.filter fun s => decide (start ≤ s.timestamp.toInt) := by
  induction samples with
  | nil => rfl
  | cons a rest ih =>
    obtain ⟨hhead, htail⟩ := List.pairwise_cons.1 h
    by_cases hlt : a.timestamp.toInt < start
    · rw [List.dropWhile_cons_of_pos (by simpa using hlt), ih htail,
        List.filter_cons_of_neg (by simpa using hlt)]
    · -- the rest is not earlier than `a`
      rw [List.dropWhile_cons_of_neg (by simpa using hlt), eq_comm, List.filter_eq_self]
      intro s hs
      rcases List.mem_cons.1 hs with rfl | hs
      · exact decide_eq_true (by omega)
      · have hle := hhead s hs
        exact decide_eq_true (by omega)

theorem inWindow_concat (window : Int64) (seen : List (Sample Binary64))
    (sample : Sample Binary64) :
    inWindow window (seen ++ [sample]) = (seen ++ [sample]).filter fun s =>
      decide (sample.timestamp.toInt - window.toInt ≤ s.timestamp.toInt) := by
  unfold inWindow
  rw [List.getLast?_concat]

/-- Of the samples seen before, the new window holds only some that the last one held. -/
theorem filter_inWindow {seen : List (Sample Binary64)} (h : InOrder (seen ++ [sample])) :
    (inWindow window seen ++ [sample]).filter (fun s =>
        decide (sample.timestamp.toInt - window.toInt ≤ s.timestamp.toInt))
      = inWindow window (seen ++ [sample]) := by
  rw [inWindow_concat, List.filter_append, List.filter_append]
  congr 1
  unfold inWindow
  cases hlast : seen.getLast? with
  | none => rw [List.getLast?_eq_none_iff.1 hlast]
  | some newest =>
    have hle : newest.timestamp.toInt ≤ sample.timestamp.toInt :=
      (List.pairwise_append.1 h).2.2 newest (List.mem_of_getLast? hlast) sample
        (List.mem_singleton_self sample)
    dsimp only
    rw [List.filter_filter]
    refine List.filter_congr fun s _ => ?_
    rw [Bool.and_eq_left_iff_imp, decide_eq_true_iff, decide_eq_true_iff]
    omega

theorem inOrder_inWindow {seen : List (Sample Binary64)} (h : InOrder (seen ++ [sample])) :
    InOrder (inWindow window seen ++ [sample]) := by
  refine List.Pairwise.sublist ?_ h
  refine List.Sublist.append_right ?_ [sample]
  unfold inWindow
  split
  · exact List.nil_sublist seen
  · exact List.filter_sublist

/-! ## The tracker -/

/-- Values that head the list leave the tracker and the list together. -/
theorem contents_erase_front (front back : List (Sample Binary64)) {t : MedianTracker}
    (h : (t.toList.map number).Perm (((front ++ back).map Sample.value).map number)) :
    ((front.foldl (fun t s => t.erase s.value) t).toList.map number).Perm
      ((back.map Sample.value).map number) := by
  induction front generalizing t with
  | nil => exact h
  | cons s rest ih =>
    have hstep := map_number_apply h (.delete s.value)
    have hlive : (Update.delete s.value).live (((s :: rest) ++ back).map Sample.value)
        = (rest ++ back).map Sample.value :=
      List.eraseP_cons_of_pos (p := (same · s.value)) (same_self s.value)
    rw [hlive] at hstep
    exact ih hstep

theorem partitioned_erase_front (front : List (Sample Binary64)) {t : MedianTracker}
    (h : Partitioned t) : Partitioned (front.foldl (fun t s => t.erase s.value) t) := by
  induction front generalizing t with
  | nil => exact h
  | cons s rest ih => exact ih (h.apply (.delete s.value) (fun _ heq => by cases heq))

/-! ## Runs -/

/-- The queue holds the window that ends at the newest of the samples seen, and the tracker the
numbers in it. -/
structure Covers (window : Int64) (seen : List (Sample Binary64)) (r : RollingMedian) : Prop where
  window_eq : r.window = window
  samples : r.samples = inWindow window seen
  contents : (r.tracker.toList.map number).Perm ((r.samples.map Sample.value).map number)

theorem covers_empty (window : Int64) : Covers window [] (empty window) :=
  ⟨rfl, rfl, .refl _⟩

/-- A push moves the front of the queue out of the tracker. -/
theorem push_eq (r : RollingMedian) (sample : Sample Binary64) :
    ∃ expired, r.samples ++ [sample] = expired ++ (r.push sample).samples ∧
      (r.push sample).window = r.window ∧
      (r.push sample).samples = (r.samples ++ [sample]).dropWhile (fun s =>
        decide (s.timestamp < Timestamp.saturatingSub sample.timestamp r.window)) ∧
      (r.push sample).tracker
        = expired.foldl (fun t s => t.erase s.value) (r.tracker.insert sample.value) := by
  have hsplit := List.takeWhile_append_dropWhile (l := r.samples ++ [sample])
    (p := fun s => decide (s.timestamp < Timestamp.saturatingSub sample.timestamp r.window))
  have hsamples : (r.push sample).samples = (r.samples ++ [sample]).dropWhile (fun s =>
      decide (s.timestamp < Timestamp.saturatingSub sample.timestamp r.window)) := by
    unfold push
    dsimp only
    conv_lhs => arg 2; rw [← hsplit]
    exact List.drop_left
  exact ⟨_, by rw [hsamples, hsplit], rfl, hsamples, rfl⟩

theorem Covers.push {seen : List (Sample Binary64)} (h : Covers window seen r)
    (hwindow : 0 ≤ window.toInt) (horder : InOrder (seen ++ [sample])) :
    Covers window (seen ++ [sample]) (r.push sample) := by
  obtain ⟨expired, hsplit, hsame, hsamples, htracker⟩ := push_eq r sample
  refine ⟨hsame.trans h.window_eq, ?_, ?_⟩
  · rw [hsamples, h.window_eq, h.samples, ← filter_inWindow horder,
      ← dropWhile_eq_filter (inOrder_inWindow horder)]
    congr 1
    funext s
    rw [decide_eq_decide]
    exact lt_windowStart_iff hwindow sample.timestamp s.timestamp
  · rw [htracker]
    refine contents_erase_front expired _ ?_
    rw [← hsplit, List.map_append, List.map_append]
    refine ((toList_insert r.tracker sample.value).map number).trans ?_
    exact (h.contents.cons sample.value.number).trans (List.perm_append_singleton _ _).symm

theorem partitioned_push (h : Partitioned r.tracker) (hm : sample.value.IsModerate) :
    Partitioned (r.push sample).tracker := by
  obtain ⟨expired, -, -, -, htracker⟩ := push_eq r sample
  rw [htracker]
  exact partitioned_erase_front expired (h.insert hm)

theorem Covers.pushAll {seen : List (Sample Binary64)} (h : Covers window seen r)
    (hwindow : 0 ≤ window.toInt) (samples : List (Sample Binary64))
    (horder : InOrder (seen ++ samples)) :
    Covers window (seen ++ samples) (r.pushAll samples).2 := by
  induction samples generalizing r seen with
  | nil =>
    rw [List.append_nil]
    exact h
  | cons sample rest ih =>
    have hsplit : seen ++ sample :: rest = (seen ++ [sample]) ++ rest := by simp
    rw [hsplit] at horder ⊢
    exact ih (h.push hwindow (List.pairwise_append.1 horder).1) horder

theorem partitioned_pushAll (h : Partitioned r.tracker) (samples : List (Sample Binary64))
    (hm : ∀ x ∈ samples, x.value.IsModerate) : Partitioned (r.pushAll samples).2.tracker := by
  induction samples generalizing r with
  | nil => exact h
  | cons sample rest ih =>
    exact ih (partitioned_push h (hm sample List.mem_cons_self))
      (fun x hx => hm x (List.mem_cons_of_mem _ hx))

/-- The medians of a run are those of the windows after each of its samples. -/
theorem getElem?_pushAll (r : RollingMedian) (samples : List (Sample Binary64)) (n : Nat)
    {newest : Sample Binary64} (hn : samples[n]? = some newest) :
    (r.pushAll samples).1[n]?
      = some ⟨newest.timestamp, (r.pushAll (samples.take (n + 1))).2.median⟩ := by
  induction samples generalizing r n with
  | nil => cases hn
  | cons sample rest ih =>
    cases n with
    | zero =>
      cases hn
      rfl
    | succ n => exact ih (r.push sample) n hn

/-- **The median of a window is that of its samples.** Let the timestamps never decrease. After each
sample the queue holds exactly the samples that are no older than the window before it, in the order
they came, and the tracker holds as many values, which are the same numbers; the zeros count as one
number, and so do the NaNs. If no value seen is a NaN, and none is finite above half the greatest
number, then the median that is returned is the number found by sorting the values in the window,
or both are NaNs. -/
theorem pushAll_median (hwindow : 0 ≤ window.toInt) {samples : List (Sample Binary64)}
    (horder : InOrder samples) (n : Nat) {newest : Sample Binary64}
    (hn : samples[n]? = some newest) :
    let seen := samples.take (n + 1)
    let r := ((empty window).pushAll seen).2
    r.samples = seen.filter (fun s =>
        decide (newest.timestamp.toInt - window.toInt ≤ s.timestamp.toInt)) ∧
    (r.tracker.toList.map number).Perm (r.samples.map fun s => s.value.number) ∧
    r.size = r.tracker.size ∧
    ((empty window).pushAll samples).1[n]? = some ⟨newest.timestamp, r.median⟩ ∧
    ((∀ x ∈ seen, x.value.IsModerate) →
      same r.median (sortedMedian (r.samples.map Sample.value)) = true) := by
  intro seen r
  have hcovers : Covers window seen r :=
    (covers_empty window).pushAll hwindow seen (horder.sublist (List.take_sublist _ _))
  have hlast : seen.getLast? = some newest := by
    show (samples.take (n + 1)).getLast? = _
    rw [List.take_add_one, hn]
    exact List.getLast?_concat
  refine ⟨?_, ?_, ?_, getElem?_pushAll _ samples n hn, fun hm => ?_⟩
  · rw [hcovers.samples, inWindow, hlast]
  · have hcontents := hcovers.contents
    rw [List.map_map] at hcontents
    exact hcontents
  · have hlength := hcovers.contents.length_eq
    rw [List.length_map, List.length_map, List.length_map, length_toList] at hlength
    exact hlength.symm
  · exact (partitioned_pushAll partitioned_empty seen hm).same_sortedMedian hcovers.contents

/-- Timestamps at both ends of the range, equal ones, zeros of either sign and both infinities. -/
def farApart : List (Sample Binary64) :=
  [⟨-0x8000000000000000, infinity true⟩, ⟨-0x7fffffffffffffff, zero false⟩,
    ⟨-0x7fffffffffffffff, zero true⟩, ⟨0, infinity false⟩, ⟨0x7fffffffffffffff, zero true⟩]

theorem pushAll_median_farApart :
    InOrder farApart ∧ (∀ x ∈ farApart.take 4, x.value.IsModerate) ∧
      same ((empty 0x7fffffffffffffff).pushAll (farApart.take 4)).2.median
        (sortedMedian (((empty 0x7fffffffffffffff).pushAll (farApart.take 4)).2.samples.map
          Sample.value)) = true := by
  have horder : InOrder farApart := by decide
  have hm : ∀ x ∈ farApart.take 4, x.value.IsModerate := by
    simp only [isModerate_iff]
    decide
  have hwindow : (0 : Int) ≤ (0x7fffffffffffffff : Timestamp).toInt := by decide
  exact ⟨horder, hm, (pushAll_median hwindow horder 3 rfl).2.2.2.2 hm⟩

end RollingMedian
end Rollup
