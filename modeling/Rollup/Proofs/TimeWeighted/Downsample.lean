import Rollup.Proofs.Bucket.Mirror
import Rollup.Proofs.Bucket.Recycling
import Rollup.Proofs.TimeWeighted.Average

/-!
# Downsampling by time-weighted averages

Over exact rationals every bucket reports the mean of the signal over the part of the bucket that
the series spans, in both directions and with or without empty buckets (`reports_eq_average`). The
walk is taken bucket by bucket: the neighbours of a bucket lie beyond its edges, so the cover of its
state ends at an edge, or where the series does (`covers_of_located`).
-/

namespace Rollup.TimeWeighted

variable {g : Grid} {reverse : Bool} {start p q : Timestamp} {k : Int}

/-! ## Edges -/

/-- The walk meets bucket `i` before bucket `j`. -/
def Precedes (reverse : Bool) (i j : Int) : Prop := if reverse then j < i else i < j

/-- Where the cover of the bucket at `start` ends, on the side of `t`, one of the two ends of the
series: at the edge of the bucket, or at `t` if that lies within. -/
def coverEnd (g : Grid) (reverse : Bool) (start t : Timestamp) : Int :=
  if reverse then min (start.toInt + g.duration.toInt) t.toInt else max start.toInt t.toInt

theorem ahead_not : Ahead (!reverse) p q ↔ Ahead reverse q p := by
  cases reverse <;> simp [Ahead]

theorem precedes_not {i j : Int} : Precedes (!reverse) i j ↔ Precedes reverse j i := by
  cases reverse <;> simp [Precedes]

theorem not_precedes_self (reverse : Bool) (i : Int) : ¬Precedes reverse i i := by
  cases reverse <;> exact lt_irrefl i

theorem exit_eq (g : Grid) (reverse : Bool) (start : Timestamp) :
    exit g reverse start = entry g (!reverse) start := by
  cases reverse <;> rfl

/-- A sample of another bucket is met on its own side. -/
theorem precedes_of_ne {a c : Timestamp} (ha : g.Regular a) (hc : g.Regular c)
    (hne : g.start a ≠ g.start c) (hac : Ahead reverse a c) :
    Precedes reverse (g.index a) (g.index c) := by
  have hindex : g.index a ≠ g.index c := fun h => hne ((Grid.start_eq_iff ha hc).2 h)
  cases reverse with
  | false =>
    have hle : g.index a ≤ g.index c := Grid.index_mono hac
    show g.index a < g.index c
    omega
  | true =>
    have hle : g.index c ≤ g.index a := Grid.index_mono hac
    show g.index c < g.index a
    omega

/-- The entry of a bucket is exact if the walk comes from another one. -/
theorem toInt_entry (hstart : start.toInt = g.point k) {a : Timestamp}
    (ha : Precedes reverse (g.index a) k) :
    (entry g reverse start).toInt
      = if reverse then g.point (k + 1) else g.point k := by
  cases reverse with
  | false => exact hstart
  | true =>
    have hbeyond : g.point (k + 1) ≤ a.toInt :=
      Grid.le_index_iff.1 (show k + 1 ≤ g.index a from ha)
    rw [Grid.point_add_one, ← hstart] at hbeyond ⊢
    exact Grid.toInt_finish_of_le hbeyond

theorem ahead_entry (hstart : start.toInt = g.point k) {a : Timestamp}
    (ha : Precedes reverse (g.index a) k) : Ahead reverse a (entry g reverse start) := by
  have hentry := toInt_entry hstart ha
  cases reverse with
  | false =>
    have hlt := Grid.lt_point_index_add_one (g := g) a
    have hle : g.point (g.index a + 1) ≤ g.point k :=
      Grid.point_le_point.2 (show g.index a + 1 ≤ k from ha)
    show a.toInt ≤ (entry g false start).toInt
    rw [hentry, if_neg Bool.false_ne_true]
    omega
  | true =>
    show (entry g true start).toInt ≤ a.toInt
    rw [hentry, if_pos rfl]
    exact Grid.le_index_iff.1 (show k + 1 ≤ g.index a from ha)

theorem entry_ahead (hstart : start.toInt = g.point k) {a c : Timestamp}
    (ha : Precedes reverse (g.index a) k) (hc : ¬Precedes reverse (g.index c) k) :
    Ahead reverse (entry g reverse start) c := by
  have hentry := toInt_entry hstart ha
  cases reverse with
  | false =>
    have hle : k ≤ g.index c := not_lt.1 hc
    show (entry g false start).toInt ≤ c.toInt
    rw [hentry, if_neg Bool.false_ne_true]
    exact Grid.le_index_iff.1 hle
  | true =>
    have hle : g.index c ≤ k := not_lt.1 hc
    have hlt := Grid.lt_point_index_add_one (g := g) c
    have hpoint : g.point (g.index c + 1) ≤ g.point (k + 1) := Grid.point_le_point.2 (by omega)
    show c.toInt ≤ (entry g true start).toInt
    rw [hentry, if_pos rfl]
    omega

/-- The cover starts at the entry if the series starts in an earlier bucket. -/
theorem entry_eq_coverEnd (hstart : start.toInt = g.point k) {a first : Timestamp}
    (ha : Precedes reverse (g.index a) k) (hfirst : Ahead reverse first a) :
    (entry g reverse start).toInt = coverEnd g reverse start first := by
  have hentry := toInt_entry hstart ha
  have hahead := hfirst.trans (ahead_entry hstart ha)
  cases reverse with
  | false =>
    have hle : first.toInt ≤ start.toInt := hahead
    exact (max_eq_left hle).symm
  | true =>
    have hle : (entry g true start).toInt ≤ first.toInt := hahead
    rw [hentry, if_pos rfl, Grid.point_add_one, ← hstart] at hle ⊢
    exact (min_eq_left hle).symm

theorem toInt_eq_coverEnd (hstart : start.toInt = g.point k) {c : Timestamp}
    (hc : g.index c = k) : c.toInt = coverEnd g reverse start c := by
  have hle := Grid.point_index_le (g := g) c
  have hlt := Grid.lt_point_index_add_one (g := g) c
  rw [hc] at hle hlt
  rw [Grid.point_add_one, ← hstart] at hlt
  rw [← hstart] at hle
  cases reverse with
  | false => exact (max_eq_right hle).symm
  | true => exact (min_eq_right hlt.le).symm

/-- An empty bucket lies strictly between those of its neighbours. -/
theorem precedes_of_mem_gaps {a b : Timestamp} (ha : g.Regular a) (hb : g.Regular b)
    (hab : Ahead reverse a b) (hgap : start ∈ g.gaps reverse (g.start a) (g.start b)) :
    ∃ k, start.toInt = g.point k ∧ Precedes reverse (g.index a) k ∧
      Precedes reverse k (g.index b) := by
  obtain ⟨k, hstart, hmin, hmax⟩ := Grid.mem_gaps (Grid.toInt_start ha) (Grid.toInt_start hb) hgap
  refine ⟨k, hstart, ?_⟩
  cases reverse with
  | false =>
    have hle : g.index a ≤ g.index b := Grid.index_mono hab
    rw [min_eq_left hle] at hmin
    rw [max_eq_right hle] at hmax
    exact ⟨hmin, hmax⟩
  | true =>
    have hle : g.index b ≤ g.index a := Grid.index_mono hab
    rw [min_eq_right hle] at hmin
    rw [max_eq_left hle] at hmax
    exact ⟨hmax, hmin⟩

theorem entry_ahead_exit (hstart : start.toInt = g.point k) {a b : Timestamp}
    (ha : Precedes reverse (g.index a) k) (hb : Precedes reverse k (g.index b)) :
    Ahead reverse (entry g reverse start) (exit g reverse start) ∧
      entry g reverse start ≠ exit g reverse start := by
  have hlt : g.point k < g.point (k + 1) := Grid.point_lt_point.2 (by omega)
  rw [exit_eq, Ne, ← Int64.toInt_inj]
  unfold Ahead
  rw [toInt_entry hstart ha, toInt_entry hstart (precedes_not.2 hb)]
  cases reverse with
  | false => exact ⟨hlt.le, hlt.ne⟩
  | true => exact ⟨hlt.le, hlt.ne'⟩

/-! ## Covers -/

/-- The samples of a walk, on the graph of `f`. -/
structure Walked (f : ℝ → ℝ) (g : Grid) (reverse : Bool) (samples : List (Sample ℚ)) : Prop where
  continuous : Continuous f
  adjacent : samples.IsChain (Adjacent f)
  ahead : samples.Pairwise fun a b => Ahead reverse a.timestamp b.timestamp
  value : ∀ c ∈ samples, f c.time = c.value
  regular : ∀ c ∈ samples, g.Regular c.timestamp

namespace Walked

variable {f : ℝ → ℝ} {samples : List (Sample ℚ)}

theorem step (h : Walked f g reverse samples) {pre post : List (Sample ℚ)} {a b : Sample ℚ}
    (split : samples = pre ++ a :: b :: post) :
    Adjacent f a b ∧ Ahead reverse a.timestamp b.timestamp := by
  refine ⟨List.isChain_iff_forall_rel_of_append_cons_cons.1 h.adjacent split, ?_⟩
  have hpair := h.ahead
  rw [split] at hpair
  exact (List.pairwise_cons.1 (List.pairwise_append.1 hpair).2.1).1 b List.mem_cons_self

theorem first_ahead (h : Walked f g reverse samples) {pre post : List (Sample ℚ)} {a : Sample ℚ}
    (split : samples = pre ++ a :: post) :
    ∃ first, samples.head? = some first ∧ Ahead reverse first.timestamp a.timestamp := by
  cases pre with
  | nil => exact ⟨a, by rw [split]; rfl, .refl reverse a.timestamp⟩
  | cons first pre =>
    refine ⟨first, by rw [split]; rfl, ?_⟩
    have hpair := h.ahead
    rw [split, List.cons_append] at hpair
    exact (List.pairwise_cons.1 hpair).1 a (List.mem_append_right _ List.mem_cons_self)

theorem last_behind (h : Walked f g reverse samples) {pre post : List (Sample ℚ)} {a : Sample ℚ}
    (split : samples = pre ++ a :: post) :
    ∃ last, samples.getLast? = some last ∧ Ahead reverse a.timestamp last.timestamp := by
  have hpair := h.ahead
  rw [split] at hpair ⊢
  have htail := (List.pairwise_cons.1 (List.pairwise_append.1 hpair).2.1).1
  rw [List.getLast?_append]
  cases hlast : (a :: post).getLast? with
  | none => exact absurd (List.getLast?_eq_none_iff.1 hlast) (List.cons_ne_nil a post)
  | some last =>
    refine ⟨last, rfl, ?_⟩
    rcases List.mem_cons.1 (List.mem_of_getLast? hlast) with rfl | hmem
    · exact .refl reverse last.timestamp
    · exact htail last hmem

/-- Opening a bucket with its first sample. -/
theorem opens (h : Walked f g reverse samples) {pre post : List (Sample ℚ)} {c : Sample ℚ}
    (split : samples = pre ++ c :: post) (hstart : start.toInt = g.point k)
    (hc : g.index c.timestamp = k)
    (henters : ∀ a, pre.getLast? = some a → g.start a.timestamp ≠ g.start c.timestamp) :
    ∃ first p, samples.head? = some first ∧ p.toInt = coverEnd g reverse start first.timestamp ∧
      Progress f reverse p (exit g reverse start) c
        ((Accumulator.enter g (fresh reverse) start pre.getLast?).append c) := by
  have hmem : c ∈ samples := split ▸ List.mem_append_cons_self
  have hopened := opened_enter g reverse start pre.getLast?
  cases hlast : pre.getLast? with
  | none =>
    rw [List.getLast?_eq_none_iff] at hlast
    subst hlast
    exact ⟨c, c.timestamp, by rw [split]; rfl, toInt_eq_coverEnd hstart hc,
      hopened.append_first (h.value c hmem)⟩
  | some a =>
    rw [hlast] at hopened
    obtain ⟨init, rfl⟩ := List.getLast?_eq_some_iff.1 hlast
    have split' : samples = init ++ a :: c :: post := by rw [split, List.append_assoc]; rfl
    have hmemA : a ∈ samples := split' ▸ List.mem_append_cons_self
    obtain ⟨hadj, hahead⟩ := h.step split'
    have hprec : Precedes reverse (g.index a.timestamp) k :=
      hc ▸ precedes_of_ne (h.regular a hmemA) (h.regular c hmem) (henters a hlast) hahead
    have hnot : ¬Precedes reverse (g.index c.timestamp) k := hc ▸ not_precedes_self reverse _
    obtain ⟨first, hfirst, hfirstA⟩ := h.first_ahead split'
    exact ⟨first, entry g reverse start, hfirst, entry_eq_coverEnd hstart hprec hfirstA,
      hopened.append hadj (ahead_entry hstart hprec) (entry_ahead hstart hprec hnot)⟩

/-- Closing a bucket behind its last sample. -/
theorem closes (h : Walked f g reverse samples) {pre post : List (Sample ℚ)} {c : Sample ℚ}
    (split : samples = pre ++ c :: post) (hstart : start.toInt = g.point k)
    (hc : g.index c.timestamp = k)
    (hleaves : ∀ b, post.head? = some b → g.start b.timestamp ≠ g.start c.timestamp)
    {s : TimeWeighted ℚ} (hs : Progress f reverse p (exit g reverse start) c s) :
    ∃ last q, samples.getLast? = some last ∧
      q.toInt = coverEnd g (!reverse) start last.timestamp ∧
      Covers f reverse p q (Accumulator.followed s post.head?) := by
  have hmem : c ∈ samples := split ▸ List.mem_append_cons_self
  cases post with
  | nil =>
    exact ⟨c, c.timestamp, by rw [split, List.getLast?_concat], toInt_eq_coverEnd hstart hc,
      hs.toCovers⟩
  | cons b post =>
    have split' : samples = (pre ++ [c]) ++ b :: post := by rw [split, List.append_assoc]; rfl
    have hmemB : b ∈ samples := split' ▸ List.mem_append_cons_self
    obtain ⟨hadj, hahead⟩ := h.step split
    -- seen from the other side, the exit is the entry, and `b` comes before the bucket
    have hprec : Precedes (!reverse) (g.index b.timestamp) k :=
      hc ▸ precedes_of_ne (h.regular b hmemB) (h.regular c hmem) (hleaves b rfl)
        (ahead_not.2 hahead)
    have hnot : ¬Precedes (!reverse) (g.index c.timestamp) k := hc ▸ not_precedes_self _ _
    obtain ⟨last, hlast, hlastB⟩ := h.last_behind split'
    rw [exit_eq] at hs
    exact ⟨last, entry g (!reverse) start, hlast,
      entry_eq_coverEnd hstart hprec (ahead_not.2 hlastB),
      hs.followedBy h.continuous hadj (ahead_not.1 (entry_ahead hstart hprec hnot))
        (ahead_not.1 (ahead_entry hstart hprec))⟩

/-- Passing over an empty bucket. -/
theorem passes (h : Walked f g reverse samples) {pre post : List (Sample ℚ)} {a b : Sample ℚ}
    (split : samples = pre ++ post) (hlast : pre.getLast? = some a) (hnext : post.head? = some b)
    (hgap : start ∈ g.gaps reverse (g.start a.timestamp) (g.start b.timestamp)) :
    ∃ first last p q, samples.head? = some first ∧ samples.getLast? = some last ∧
      p.toInt = coverEnd g reverse start first.timestamp ∧
      q.toInt = coverEnd g (!reverse) start last.timestamp ∧
      Covers f reverse p q
        ((Accumulator.enter g (fresh reverse) start (some a)).followedBy b) := by
  obtain ⟨init, rfl⟩ := List.getLast?_eq_some_iff.1 hlast
  obtain ⟨more, rfl⟩ := List.head?_eq_some_iff.1 hnext
  have split' : samples = init ++ a :: b :: more := by rw [split, List.append_assoc]; rfl
  have ha : g.Regular a.timestamp := h.regular a (by rw [split]; simp)
  have hb : g.Regular b.timestamp := h.regular b (by rw [split]; simp)
  obtain ⟨hadj, hahead⟩ := h.step split'
  obtain ⟨k, hstart, hprec, hbehind⟩ := precedes_of_mem_gaps ha hb hahead hgap
  -- seen from the other side, the exit is the entry
  have hprec' := precedes_not.2 hbehind
  obtain ⟨hacross, hne⟩ := entry_ahead_exit hstart hprec hbehind
  obtain ⟨first, hfirst, hfirstA⟩ := h.first_ahead split'
  obtain ⟨last, hlast, hlastB⟩ :=
    h.last_behind (show samples = (init ++ [a]) ++ b :: more from split)
  have hcovers := (opened_enter g reverse start (some a)).followedBy hadj
    (ahead_entry hstart hprec) hacross
    (by rw [exit_eq]; exact ahead_not.1 (ahead_entry hstart hprec')) hne
  rw [exit_eq] at hcovers
  exact ⟨first, last, entry g reverse start, entry g (!reverse) start, hfirst, hlast,
    entry_eq_coverEnd hstart hprec hfirstA,
    entry_eq_coverEnd hstart hprec' (ahead_not.2 hlastB), hcovers⟩

/-- **What one bucket covers.** From where the series enters the bucket to where it leaves it. -/
theorem covers_of_located (h : Walked f g reverse samples) {emptyBuckets : Bool} {v : Visit ℚ}
    (hv : Downsampling.Located ⟨g, reverse, emptyBuckets⟩ samples v) :
    ∃ first last p q, samples.head? = some first ∧ samples.getLast? = some last ∧
      p.toInt = coverEnd g reverse v.start first.timestamp ∧
      q.toInt = coverEnd g (!reverse) v.start last.timestamp ∧
      Covers f reverse p q (v.close g (fresh reverse)) := by
  cases hv with
  | @populated pre run post start split nonempty shared enters leaves =>
    cases run with
    | nil => exact absurd rfl nonempty
    | cons c others =>
      have hsplit : samples = pre ++ c :: (others ++ post) := by rw [split, List.append_assoc]; rfl
      have hshared : g.start c.timestamp = start := shared c List.mem_cons_self
      have hc : g.Regular c.timestamp := h.regular c (by rw [hsplit]; simp)
      have hstart : start.toInt = g.point (g.index c.timestamp) := by
        rw [← hshared, Grid.toInt_start hc]
      obtain ⟨first, p, hfirst, hp, hopened⟩ := h.opens hsplit hstart rfl
        (fun a ha => hshared ▸ enters a ha)
      have hrun : (c :: others).IsChain fun x y =>
          Adjacent f x y ∧ Ahead reverse x.timestamp y.timestamp := by
        rw [List.isChain_iff_forall_rel_of_append_cons_cons]
        intro x y l₁ l₂ heq
        exact h.step (show samples = (pre ++ l₁) ++ x :: y :: (l₂ ++ post) by
          rw [split, heq]; simp)
      obtain ⟨last, hlast, hfilled⟩ := hopened.foldl h.continuous others hrun
      obtain ⟨init, hinit⟩ := List.getLast?_eq_some_iff.1 hlast
      have hsplit' : samples = (pre ++ init) ++ last :: post := by
        rw [split, hinit]
        simp
      have hlastStart : g.start last.timestamp = start :=
        shared last (List.mem_of_getLast? hlast)
      have hlastReg : g.Regular last.timestamp := h.regular last (by rw [hsplit']; simp)
      have hindex : g.index last.timestamp = g.index c.timestamp :=
        (Grid.start_eq_iff hlastReg hc).1 (hlastStart.trans hshared.symm)
      obtain ⟨final, q, hfinal, hq, hclosed⟩ := h.closes hsplit' hstart hindex
        (fun b hb => hlastStart ▸ leaves b hb) hfilled
      exact ⟨first, final, p, q, hfirst, hfinal, hp, hq, hclosed⟩
  | empty split last next between => exact h.passes split last next between

end Walked

/-! ## Reports -/

theorem walked_signal {samples : List (Sample ℚ)} (hasc : Ascending samples)
    (hreg : ∀ x ∈ samples, g.Regular x.timestamp) (reverse emptyBuckets : Bool) :
    Walked (signal samples) g reverse
      (Downsampling.ordered ⟨g, reverse, emptyBuckets⟩ samples) := by
  have hpair : samples.Pairwise fun a b => a.timestamp.toInt ≤ b.timestamp.toInt :=
    hasc.imp fun h => (Int64.lt_iff_toInt_lt.1 h).le
  cases reverse with
  | false =>
    show Walked (signal samples) g false samples
    exact {
      continuous := continuous_signal samples hasc
      adjacent := isChain_adjacent samples hasc
      ahead := hpair
      value := fun c hc => signal_of_mem samples hasc hc
      regular := hreg }
  | true =>
    show Walked (signal samples) g true samples.reverse
    exact {
      continuous := continuous_signal samples hasc
      adjacent := List.isChain_reverse.2 ((isChain_adjacent samples hasc).imp fun _ _ h => h.symm)
      ahead := List.pairwise_reverse.2 hpair
      value := fun c hc => signal_of_mem samples hasc (List.mem_reverse.1 hc)
      regular := fun c hc => hreg c (List.mem_reverse.1 hc) }

theorem reports_eq_visits (d : Downsampling) (samples : List (Sample ℚ)) :
    d.reports (fresh d.reverse : TimeWeighted ℚ) samples
      = (d.visits none none (d.grid.runs (d.ordered samples))).map
          (Visit.report d.grid (fresh d.reverse : TimeWeighted ℚ)) :=
  Downsampling.reports_eq_visits d (recyclable d.reverse)
    (fun _ _ hs => congrArg (fresh (α := ℚ)) hs) samples

/-- What a visit reports does not depend on the direction. -/
theorem report_visit {samples : List (Sample ℚ)} (hasc : Ascending samples)
    (hreg : ∀ x ∈ samples, g.Regular x.timestamp) {emptyBuckets : Bool} {v : Visit ℚ}
    (hv : Downsampling.Located ⟨g, reverse, emptyBuckets⟩
      (Downsampling.ordered ⟨g, reverse, emptyBuckets⟩ samples) v) :
    ∃ first last r, samples.head? = some first ∧ samples.getLast? = some last ∧
      (v.report g (fresh reverse : TimeWeighted ℚ)) = ⟨v.start, some r⟩ ∧
      let low : ℤ := max v.start.toInt first.timestamp.toInt
      let high : ℤ := min (v.start.toInt + g.duration.toInt) last.timestamp.toInt
      low ≤ high ∧ (r : ℝ) = average (signal samples) low high := by
  obtain ⟨first, last, p, q, hfirst, hlast, hp, hq, hcovers⟩ :=
    (walked_signal hasc hreg reverse emptyBuckets).covers_of_located hv
  obtain ⟨r, hr, haverage⟩ := hcovers.result
  have hreport : v.report g (fresh reverse : TimeWeighted ℚ) = ⟨v.start, some r⟩ :=
    congrArg (Sample.mk v.start) hr
  have hahead := hcovers.ahead
  cases reverse with
  | false =>
    have hle : p.toInt ≤ q.toInt := hahead
    rw [hp, hq] at hle haverage
    exact ⟨first, last, r, hfirst, hlast, hreport, hle, haverage⟩
  | true =>
    have hle : q.toInt ≤ p.toInt := hahead
    rw [hp, hq] at hle haverage
    rw [average_comm] at haverage
    have hfirst' : samples.getLast? = some first := by
      rw [← List.head?_reverse]
      exact hfirst
    have hlast' : samples.head? = some last := by
      rw [← List.getLast?_reverse]
      exact hlast
    exact ⟨last, first, r, hlast', hfirst', hreport, hle, haverage⟩

theorem firstDescent_of_ascending {samples : List (Sample ℚ)} (hasc : Ascending samples) :
    Downsampling.firstDescent samples = none := by
  refine Downsampling.firstDescent_eq_none_iff.2 (List.Pairwise.isChain (hasc.imp fun h => ?_))
  exact (Int64.lt_iff_toInt_lt.1 h).le

theorem exists_report_of_mem {samples : List (Sample ℚ)} (g : Grid) (reverse emptyBuckets : Bool)
    {x : Sample ℚ} (hx : x ∈ samples) :
    ∃ r ∈ Downsampling.reports ⟨g, reverse, emptyBuckets⟩ (fresh reverse : TimeWeighted ℚ) samples,
      r.timestamp = g.start x.timestamp := by
  rw [reports_eq_visits ⟨g, reverse, emptyBuckets⟩ samples]
  have hx' : x ∈ Downsampling.ordered ⟨g, reverse, emptyBuckets⟩ samples := by
    cases reverse with
    | false => exact hx
    | true => exact List.mem_reverse.2 hx
  obtain ⟨v, hv, hstart⟩ := Downsampling.exists_visit_of_mem ⟨g, reverse, emptyBuckets⟩ hx'
  exact ⟨_, List.mem_map_of_mem hv, hstart⟩

theorem report_mirror {samples : List (Sample ℚ)} (hasc : Ascending samples)
    (hreg : ∀ x ∈ samples, g.Regular x.timestamp) {emptyBuckets : Bool} {v : Visit ℚ}
    (hv : Downsampling.Located ⟨g, false, emptyBuckets⟩ samples v)
    (hv' : Downsampling.Located ⟨g, true, emptyBuckets⟩ samples.reverse v.mirror) :
    v.mirror.report g (fresh true : TimeWeighted ℚ)
      = v.report g (fresh false : TimeWeighted ℚ) := by
  obtain ⟨first, last, up, hfirst, hlast, hup, -, haverage⟩ :=
    report_visit hasc hreg hv
  obtain ⟨first', last', down, hfirst', hlast', hdown, -, haverage'⟩ :=
    report_visit hasc hreg hv'
  cases hfirst.symm.trans hfirst'
  cases hlast.symm.trans hlast'
  have hsame : down = up := Rat.cast_injective (haverage'.trans haverage.symm)
  rw [hsame] at hdown
  exact hdown.trans hup.symm

theorem reports_reverse {samples : List (Sample ℚ)} (hasc : Ascending samples)
    (hreg : ∀ x ∈ samples, g.Regular x.timestamp) (emptyBuckets : Bool) :
    Downsampling.reports ⟨g, true, emptyBuckets⟩ (fresh true : TimeWeighted ℚ) samples
      = (Downsampling.reports ⟨g, false, emptyBuckets⟩ (fresh false : TimeWeighted ℚ)
          samples).reverse := by
  have hvisits : Downsampling.visits ⟨g, true, emptyBuckets⟩ none none (g.runs samples.reverse)
      = ((Downsampling.visits ⟨g, false, emptyBuckets⟩ none none (g.runs samples)).map
          Visit.mirror).reverse :=
    Downsampling.visits_mirror ⟨g, false, emptyBuckets⟩ samples
      (Downsampling.gapsMirror_of_regular _ hreg)
  rw [reports_eq_visits ⟨g, true, emptyBuckets⟩ samples,
    reports_eq_visits ⟨g, false, emptyBuckets⟩ samples]
  show (Downsampling.visits ⟨g, true, emptyBuckets⟩ none none (g.runs samples.reverse)).map _
    = ((Downsampling.visits ⟨g, false, emptyBuckets⟩ none none (g.runs samples)).map _).reverse
  rw [hvisits, List.map_reverse, List.map_map]
  congr 1
  refine List.map_congr_left fun v hv => ?_
  have hv' : v.mirror ∈ Downsampling.visits ⟨g, true, emptyBuckets⟩ none none
      (g.runs samples.reverse) := by
    rw [hvisits, List.mem_reverse]
    exact List.mem_map_of_mem hv
  exact report_mirror hasc hreg (Downsampling.located_of_mem_visits ⟨g, false, emptyBuckets⟩ hv)
    (Downsampling.located_of_mem_visits ⟨g, true, emptyBuckets⟩ hv')

/-- **Every bucket reports the mean of the signal.** Let the timestamps of a series ascend strictly,
and let no bucket be found by wrapping or clamping. Then the series is accepted, every sample lies
in a bucket that reports, and what a bucket reports is the integral of the signal over the part of
the bucket between the first and the last sample, divided by its length; or the value of the signal
there if that part is a single instant. From the newest sample to the oldest the reports are the
same in reversed order. -/
theorem reports_eq_average (g : Grid) (samples : List (Sample ℚ)) (hasc : Ascending samples)
    (hreg : ∀ x ∈ samples, g.Regular x.timestamp) (emptyBuckets : Bool) :
    Downsampling.firstDescent samples = none ∧
    (∀ reverse : Bool,
      (∀ x ∈ samples, ∃ r ∈ Downsampling.reports ⟨g, reverse, emptyBuckets⟩
          (fresh reverse : TimeWeighted ℚ) samples, r.timestamp = g.start x.timestamp) ∧
      ∀ r ∈ Downsampling.reports ⟨g, reverse, emptyBuckets⟩
          (fresh reverse : TimeWeighted ℚ) samples,
        ∃ first last value, samples.head? = some first ∧ samples.getLast? = some last ∧
          r.value = some value ∧
          let low : ℤ := max r.timestamp.toInt first.timestamp.toInt
          let high : ℤ := min (r.timestamp.toInt + g.duration.toInt) last.timestamp.toInt
          low ≤ high ∧ (value : ℝ) = average (signal samples) low high) ∧
    Downsampling.reports ⟨g, true, emptyBuckets⟩ (fresh true : TimeWeighted ℚ) samples
      = (Downsampling.reports ⟨g, false, emptyBuckets⟩ (fresh false : TimeWeighted ℚ)
          samples).reverse := by
  refine ⟨firstDescent_of_ascending hasc, fun reverse => ⟨fun x hx => ?_, fun r hr => ?_⟩,
    reports_reverse hasc hreg emptyBuckets⟩
  · exact exists_report_of_mem g reverse emptyBuckets hx
  · rw [reports_eq_visits ⟨g, reverse, emptyBuckets⟩ samples] at hr
    obtain ⟨v, hv, rfl⟩ := List.mem_map.1 hr
    obtain ⟨first, last, value, hfirst, hlast, hreport, hmean⟩ :=
      report_visit hasc hreg (Downsampling.located_of_mem_visits _ hv)
    exact ⟨first, last, value, hfirst, hlast, congrArg Sample.value hreport, hmean⟩

/-- A series with two samples in one bucket, one on an edge, and empty buckets before the last. -/
def sparse : List (Sample ℚ) := [⟨-3, 1⟩, ⟨2, 4⟩, ⟨5, 3⟩, ⟨40, -2⟩]

def tens : Grid := ⟨10, -5, by decide⟩

theorem reports_eq_average_sparse :
    Ascending sparse ∧ (∀ x ∈ sparse, tens.Regular x.timestamp) ∧
      ∀ r ∈ Downsampling.reports ⟨tens, true, true⟩ (fresh true : TimeWeighted ℚ) sparse,
        ∃ first last value, sparse.head? = some first ∧ sparse.getLast? = some last ∧
          r.value = some value ∧
          let low : ℤ := max r.timestamp.toInt first.timestamp.toInt
          let high : ℤ := min (r.timestamp.toInt + tens.duration.toInt) last.timestamp.toInt
          low ≤ high ∧ (value : ℝ) = average (signal sparse) low high := by
  have hasc : Ascending sparse := by
    unfold Ascending sparse
    decide
  have hreg : ∀ x ∈ sparse, tens.Regular x.timestamp := by
    intro x hx
    simp only [sparse, List.mem_cons, List.not_mem_nil, or_false] at hx
    rcases hx with rfl | rfl | rfl | rfl <;> constructor <;> decide
  exact ⟨hasc, hreg, ((reports_eq_average tens sparse hasc hreg true).2.1 true).2⟩

/-! ## Over doubles -/

theorem foldl_append_timeWeighted (run : List (Sample Binary64)) (s : TimeWeighted Binary64) :
    run.foldl Accumulator.append (Aggregator.timeWeighted s)
      = .timeWeighted (run.foldl Accumulator.append s) := by
  induction run generalizing s with
  | nil => rfl
  | cons sample rest ih => exact ih (s.append sample)

theorem close_timeWeighted (g : Grid) (s : TimeWeighted Binary64) (v : Visit Binary64) :
    v.close g (Aggregator.timeWeighted s) = .timeWeighted (v.close g s) := by
  unfold Visit.close Accumulator.fill
  rw [Aggregator.enter_timeWeighted, foldl_append_timeWeighted]
  cases v.after <;> rfl

/-- The driver for aggregators folds time-weighted averages by the same formulas, over doubles. -/
theorem reports_timeWeighted (d : Downsampling) (samples : List (Sample Binary64)) :
    d.reports (Aggregator.fresh .twa d.reverse) samples
      = (d.reports (fresh d.reverse : TimeWeighted Binary64) samples).map fun r =>
          ⟨r.timestamp, r.value.getD .nan⟩ := by
  have hreset : ∀ s : Aggregator, s.Serves .twa d.reverse → s.reset = .fresh .twa d.reverse := by
    intro s hs
    obtain ⟨state, rfl⟩ := Aggregator.exists_timeWeighted hs.1
    exact congrArg (fun r => Aggregator.timeWeighted (fresh r)) (hs.2 state rfl)
  rw [Downsampling.reports_eq_visits d (Aggregator.recyclable .twa d.reverse) (fun _ => hreset),
    Downsampling.reports_eq_visits d (recyclable d.reverse)
      (fun _ _ hs => congrArg (fresh (α := Binary64)) hs), List.map_map]
  refine List.map_congr_left fun v _ => ?_
  show (⟨v.start, (v.close d.grid (Aggregator.timeWeighted (fresh d.reverse))).report⟩ :
    Sample Binary64) = ⟨v.start, (v.close d.grid (fresh d.reverse : TimeWeighted
      Binary64)).result?.getD .nan⟩
  rw [close_timeWeighted]
  rfl

end Rollup.TimeWeighted
