import Rollup.Proofs.Bucket.EmptyBuckets
import Rollup.Proofs.Bucket.Intervals

/-!
# The starts of reported buckets

With empty buckets the starts of the reports are those of the samples' buckets with the listed gaps
put in between neighbours (`Grid.withGaps`), whatever is folded. Where the distances of the samples
from the alignment fit, the walk from the newest sample to the oldest reports the starts of buckets
and misses none, down to the lowest one (`Grid.gaps_down_start`). The walk in the other direction
steps on from the stamp of a bucket. The stamp of the lowest bucket may be the least timestamp
instead of the bucket's grid point, and from there the steps miss all grid points.
`downsample_starts_iff` says that nothing else keeps the two walks from mirroring each other.
-/

namespace Rollup

namespace Grid

variable {g : Grid} {reverse : Bool} {a b t u : Timestamp} {k : Int}

/-! ## Stamps -/

/-- The bucket of some timestamp starts here, one whose distance from the alignment fits. -/
def IsStart (g : Grid) (b : Timestamp) : Prop := ∃ t, g.Fits t ∧ g.start t = b

theorem index_eq_iff : g.index t = k ↔ g.point k ≤ t.toInt ∧ t.toInt < g.point (k + 1) := by
  rw [← le_index_iff, ← not_le, ← le_index_iff]
  omega

theorem index_of_toInt_eq (h : t.toInt = g.point k) : g.index t = k :=
  index_eq_iff.2 ⟨h.ge, h ▸ point_lt_point.2 (lt_add_one k)⟩

theorem Fits.between (ht : g.Fits t) (hu : g.Fits u) (hlow : t.toInt ≤ b.toInt)
    (hhigh : b.toInt ≤ u.toInt) : g.Fits b := by
  have hleast := ht.least_le
  have hgreatest := hu.le_greatest
  exact ⟨by omega, by omega⟩

/-- The start is not above the grid point behind it, also where it is clamped. -/
theorem Fits.start_lt_point (h : g.Fits t) : (g.start t).toInt < g.point (g.index t + 1) := by
  have hlow := (toInt_bounds t).1
  have hbehind := lt_point_index_add_one (g := g) t
  have hpoint := point_index_le (g := g) t
  rw [h.toInt_start]
  omega

theorem Fits.point_le_start (h : g.Fits t) : g.point (g.index t) ≤ (g.start t).toInt := by
  rw [h.toInt_start]
  exact le_max_right _ _

/-- The buckets above that of `t`, up to that of `u`, are stamped with their grid points. -/
theorem exists_start_between (ht : g.Fits t) (hu : g.Fits u) (hlow : g.index t < k)
    (hhigh : k ≤ g.index u) : ∃ b, b.toInt = g.point k ∧ g.Fits b ∧ g.start b = b := by
  have htlow := (toInt_bounds t).1
  have huhigh := (toInt_bounds u).2
  have hbehind := lt_point_index_add_one (g := g) t
  have hup := point_le_point (g := g).2 (show g.index t + 1 ≤ k by omega)
  have hdown := point_le_point (g := g).2 hhigh
  have hle := point_index_le (g := g) u
  have hpoint : (Int64.ofInt (g.point k)).toInt = g.point k :=
    Timestamp.toInt_ofInt (by omega) (by omega)
  have hfits : g.Fits (Int64.ofInt (g.point k)) := ht.between hu (by omega) (by omega)
  refine ⟨_, hpoint, hfits, Int64.toInt_inj.1 ?_⟩
  rw [hfits.toInt_start, index_of_toInt_eq hpoint, hpoint]
  omega

/-- A bucket behind another one is stamped with its grid point. -/
theorem Fits.start_of_lt (ht : g.Fits t) (hu : g.Fits u) (h : g.index t < g.index u) :
    (g.start u).toInt = g.point (g.index u) ∧ g.Fits (g.start u) ∧
      g.start (g.start u) = g.start u := by
  obtain ⟨b, hpoint, hfits, hself⟩ := exists_start_between ht hu h le_rfl
  have hb : g.start u = b := by
    rw [← hself]
    exact (hfits.start_eq_start_iff_index hu).2 (index_of_toInt_eq hpoint).symm
  exact hb ▸ ⟨hpoint, hfits, hself⟩

/-- A start whose distance from the alignment wraps is found in the bucket that lies as far behind it
as the wrapped grid is shifted. -/
theorem Fits.toInt_start_start_of_wraps (h : g.Fits t)
    (hpoint : (g.start t).toInt = g.point (g.index t)) (hwraps : ¬g.Fits (g.start t)) :
    (g.start (g.start t)).toInt
      = max Timestamp.least ((g.start t).toInt - 2 ^ 64 % g.duration.toInt) := by
  have hgreatest := h.le_greatest
  have hle := g.start_le t
  have hlow := (toInt_bounds (g.start t)).1
  have halignment := (toInt_bounds g.alignment).2
  have hbelow : (g.start t).toInt - g.alignment.toInt < Timestamp.least := by
    by_contra hnot
    exact hwraps ⟨not_lt.1 hnot, by omega⟩
  have hwrap : (g.start t - g.alignment).toInt
      = (g.start t).toInt - g.alignment.toInt + 2 ^ 64 := by
    simp only [Timestamp.least, Timestamp.greatest] at hbelow halignment hlow
    rw [Int64.toInt_sub, ← Int.add_bmod_right]
    exact Int.bmod_eq_of_le (by omega) (by omega)
  -- the distance itself is a number of durations
  have hmod : (g.start t - g.alignment).toInt % g.duration.toInt
      = 2 ^ 64 % g.duration.toInt := by
    rw [hwrap, hpoint, point, add_sub_cancel_left, Int.mul_add_emod_self_left]
  have hnonneg := Int.emod_nonneg (2 ^ 64) (ne_of_gt g.duration_pos)
  have hhigh := (toInt_bounds (g.start t)).2
  show (bucketStart (g.start t) g.duration g.alignment).toInt = _
  unfold bucketStart
  rw [hmod, Timestamp.toInt_saturate]
  omega

/-- **When the start of a bucket is found to start its own bucket.** Its distance from the alignment
may wrap though that of a sample in the bucket fits. Then another start is found, unless the start
is the least timestamp, which none precedes, or the wrapped grid is the same one. -/
theorem Fits.start_start_iff (h : g.Fits t) :
    g.start (g.start t) = g.start t ↔
      g.Fits (g.start t) ∨ (g.start t).toInt = Timestamp.least ∨ g.duration.toInt ∣ 2 ^ 64 := by
  have hstart := h.toInt_start
  have hlow := (toInt_bounds (g.start t)).1
  by_cases hleast : (g.start t).toInt = Timestamp.least
  · -- no start is below the least timestamp
    have hself := g.start_le (g.start t)
    have hlow' := (toInt_bounds (g.start (g.start t))).1
    refine iff_of_true (Int64.toInt_inj.1 ?_) (.inr (.inl hleast))
    omega
  have hpoint : (g.start t).toInt = g.point (g.index t) := by omega
  by_cases hfits : g.Fits (g.start t)
  · refine iff_of_true (Int64.toInt_inj.1 ?_) (.inl hfits)
    rw [hfits.toInt_start, index_of_toInt_eq hpoint]
    omega
  · have hfound := h.toInt_start_start_of_wraps hpoint hfits
    have hnonneg := Int.emod_nonneg (2 ^ 64) (ne_of_gt g.duration_pos)
    rw [← Int64.toInt_inj, hfound, Int.dvd_iff_emod_eq_zero]
    constructor
    · intro heq
      exact .inr (.inr (by omega))
    · rintro (hfits' | hleast' | hzero)
      · exact absurd hfits' hfits
      · exact absurd hleast' hleast
      · omega

/-- Strictly between two grid points there is no start. -/
theorem not_isStart_of_between (hlow : g.point k < b.toInt) (hhigh : b.toInt < g.point (k + 1))
    (hleast : Timestamp.least < b.toInt) : ¬g.IsStart b := by
  rintro ⟨v, hv, rfl⟩
  have hstart := hv.toInt_start
  have hpoint : (g.start v).toInt = g.point (g.index v) := by omega
  have habove := point_lt_point.1 (hpoint ▸ hlow)
  have hbelow := point_lt_point.1 (hpoint ▸ hhigh)
  omega

/-! ## Gaps -/

theorem gaps_self (g : Grid) (reverse : Bool) (a : Timestamp) : g.gaps reverse a a = [] := by
  refine gaps_of_not_before fun u hu => ?_
  have hbefore := before_of_step (step?_eq_some_iff.1 hu)
  exact fun h => not_before_self reverse a (hbefore.trans h)

/-- Between two buckets lie as many starts as there are numbers, also if the lower one is clamped,
since its stamp is still less than a duration above its grid point. -/
theorem gaps_count_start (ht : g.Fits t) (hu : g.Fits u) (hlt : g.index t < g.index u) :
    ((g.start u).toInt - (g.start t).toInt - 1) / g.duration.toInt
      = g.index u - g.index t - 1 := by
  have hpos := g.duration_pos
  obtain ⟨hpoint, -, -⟩ := ht.start_of_lt hu hlt
  have hlow := ht.point_le_start
  have hbehind := ht.start_lt_point
  rw [hpoint]
  have hdist : g.point (g.index u)
      = g.point (g.index t) + g.duration.toInt * (g.index u - g.index t) := by
    unfold point
    ring
  rw [point_add_one] at hbehind
  refine Int.le_antisymm ?_ ?_
  · refine Int.le_sub_one_of_lt (Int.ediv_lt_of_lt_mul hpos ?_)
    rw [Int.mul_comm]
    omega
  · refine (Int.le_ediv_iff_mul_le hpos).2 ?_
    rw [Int.sub_mul, Int.one_mul, Int.mul_comm]
    omega

/-- **Down to any bucket the gap is stepped on without a miss.** -/
theorem gaps_down_start (ht : g.Fits t) (hu : g.Fits u) (hlt : g.index t < g.index u) :
    g.gaps true (g.start u) (g.start t)
      = (List.range (g.index u - g.index t - 1).toNat).map fun n : Nat =>
          Int64.ofInt (g.point (g.index u - n - 1)) := by
  obtain ⟨hpoint, -, -⟩ := ht.start_of_lt hu hlt
  rw [gaps_eq, ahead, if_pos rfl, gaps_count_start ht hu hlt, hpoint]
  refine List.map_congr_left fun n _ => ?_
  rw [stride, if_pos rfl]
  congr 1
  unfold point
  ring

/-! ## Gaps in either direction -/

/-- A gap can be stepped over from the bucket of `t` up to that of `u`: the bucket of `t` is stamped
with its grid point, or nothing lies between the two. -/
def StepsFrom (g : Grid) (t u : Timestamp) : Prop :=
  Timestamp.least ≤ g.point (g.index t) ∨ g.index u ≤ g.index t + 1

instance (g : Grid) (t u : Timestamp) : Decidable (g.StepsFrom t u) :=
  inferInstanceAs (Decidable (_ ∨ _))

/-- The starts between two buckets are those of buckets, if they are listed downwards. -/
theorem isStart_of_mem_gaps_down (ht : g.Fits t) (hu : g.Fits u) (hle : g.index t ≤ g.index u)
    (hb : b ∈ g.gaps true (g.start u) (g.start t)) : g.Fits b ∧ g.start b = b := by
  rcases hle.eq_or_lt with heq | hlt
  · rw [(ht.start_eq_start_iff_index hu).2 heq.symm, gaps_self] at hb
    cases hb
  · rw [gaps_down_start ht hu hlt] at hb
    obtain ⟨n, hn, rfl⟩ := List.mem_map.1 hb
    have hn' := List.mem_range.1 hn
    obtain ⟨b, hpoint, hfits, hself⟩ := exists_start_between (k := g.index u - n - 1) ht hu
      (by omega) (by omega)
    rw [← hpoint, Int64.ofInt_toInt]
    exact ⟨hfits, hself⟩

theorem gaps_reverse_of_stepsFrom (ht : g.Fits t) (hu : g.Fits u) (hle : g.index t ≤ g.index u)
    (h : g.StepsFrom t u) :
    g.gaps true (g.start u) (g.start t) = (g.gaps false (g.start t) (g.start u)).reverse := by
  rcases hle.eq_or_lt with heq | hlt
  · rw [(ht.start_eq_start_iff_index hu).2 heq.symm, gaps_self, gaps_self]
    rfl
  · obtain ⟨hpoint, -, -⟩ := ht.start_of_lt hu hlt
    rcases h with hclamp | hnext
    · exact gaps_reverse (ht.toInt_start.trans (max_eq_right hclamp)) hpoint
    · -- the two buckets are neighbours
      have hcount := gaps_count_start ht hu hlt
      have hnone : (g.index u - g.index t - 1).toNat = 0 := by omega
      rw [gaps_eq, gaps_eq, ahead, ahead, if_pos rfl, if_neg Bool.false_ne_true, hcount, hnone]
      rfl

/-- From a clamped stamp the first step misses the grid, and is not found to start a bucket. -/
theorem exists_mem_gaps_of_not_stepsFrom (ht : g.Fits t) (hu : g.Fits u)
    (h : ¬g.StepsFrom t u) :
    ∃ b ∈ g.gaps false (g.start t) (g.start u), ¬g.IsStart b ∧ g.start b ≠ b := by
  obtain ⟨hclamp, hfar⟩ := not_or.1 h
  have hstart := ht.toInt_start
  have hbehind := ht.start_lt_point
  obtain ⟨hpoint, -, -⟩ := ht.start_of_lt hu (by omega)
  -- the step from the clamped stamp lands between two grid points
  have hsecond := point_le_point (g := g).2 (show g.index t + 1 + 1 ≤ g.index u by omega)
  have hlast := (toInt_bounds (g.start u)).2
  have hadd := point_add_one (g := g) (g.index t)
  have hadd' := point_add_one (g := g) (g.index t + 1)
  have hpos := g.duration_pos
  have hstep : (Int64.ofInt ((g.start t).toInt + g.duration.toInt)).toInt
      = (g.start t).toInt + g.duration.toInt :=
    Timestamp.toInt_ofInt (by omega) (by omega)
  generalize Int64.ofInt ((g.start t).toInt + g.duration.toInt) = b at hstep
  have hbefore : Before false b (g.start u) := show b.toInt < (g.start u).toInt by omega
  have hnot : ¬g.IsStart b :=
    not_isStart_of_between (k := g.index t + 1) (by omega) (by omega) (by omega)
  have hle := g.start_le u
  have hlow := lt_point_index_add_one (g := g) t
  have hfits : g.Fits b := ht.between hu (by omega) (by omega)
  refine ⟨b, ?_, hnot, fun hself => hnot ⟨b, hfits, hself⟩⟩
  rw [gaps_of_before (u := b) hstep hbefore]
  exact List.mem_cons_self

/-- Upwards the starts between two buckets are those of buckets only if the gap can be stepped over.
-/
theorem forall_mem_gaps_up_iff {P : Timestamp → Prop}
    (hself : ∀ b, g.Fits b → g.start b = b → P b)
    (hmiss : ∀ b, ¬g.IsStart b → g.start b ≠ b → ¬P b) (ht : g.Fits t) (hu : g.Fits u)
    (hle : g.index t ≤ g.index u) :
    (∀ b ∈ g.gaps false (g.start t) (g.start u), P b) ↔ g.StepsFrom t u := by
  constructor
  · intro hall
    by_contra hnot
    obtain ⟨b, hb, hmissed, hother⟩ := exists_mem_gaps_of_not_stepsFrom ht hu hnot
    exact hmiss b hmissed hother (hall b hb)
  · intro h b hb
    rw [← List.mem_reverse, ← gaps_reverse_of_stepsFrom ht hu hle h] at hb
    obtain ⟨hfits, hstart⟩ := isStart_of_mem_gaps_down ht hu hle hb
    exact hself b hfits hstart

/-! ## Starts with the gaps put in -/

/-- The starts of a series, each listed once in a row, with those of the empty buckets between two
neighbours. -/
def withGaps (g : Grid) (reverse : Bool) : List Timestamp → List Timestamp
  | a :: b :: rest =>
    if a = b then g.withGaps reverse (b :: rest)
    else a :: g.gaps reverse a b ++ g.withGaps reverse (b :: rest)
  | starts => starts

theorem withGaps_concat (g : Grid) (reverse : Bool) (starts : List Timestamp) (a b : Timestamp) :
    g.withGaps reverse (starts ++ [a] ++ [b])
      = g.withGaps reverse (starts ++ [a]) ++ if a = b then [] else g.gaps reverse a b ++ [b] := by
  induction starts with
  | nil =>
    show (if a = b then [b] else a :: g.gaps reverse a b ++ [b]) = [a] ++ _
    by_cases h : a = b
    · rw [if_pos h, if_pos h, h]
      rfl
    · rw [if_neg h, if_neg h]
      rfl
  | cons first starts ih =>
    -- the second start is the next of `starts`, or `a`
    obtain ⟨next, more, hmore⟩ : ∃ next more, starts ++ [a] = next :: more :=
      List.exists_cons_of_ne_nil (by simp)
    rw [List.cons_append, List.cons_append, hmore, List.cons_append, withGaps, withGaps,
      ← List.cons_append, ← hmore, ih]
    split
    · rfl
    · rw [List.append_assoc]

/-- Read backwards the starts are those of the series read backwards, if that is so for every gap.
-/
theorem withGaps_reverse {starts : List Timestamp}
    (h : starts.IsChain fun a b => g.gaps true b a = (g.gaps false a b).reverse) :
    g.withGaps true starts.reverse = (g.withGaps false starts).reverse := by
  induction starts with
  | nil => rfl
  | cons a rest ih =>
    cases rest with
    | nil => rfl
    | cons b rest =>
      obtain ⟨hgap, hrest⟩ := List.isChain_cons_cons.1 h
      have ih := ih hrest
      rw [List.reverse_cons] at ih
      rw [List.reverse_cons, List.reverse_cons, withGaps_concat, ih, withGaps]
      by_cases hsame : a = b
      · rw [if_pos hsame, if_pos hsame.symm, List.append_nil]
      · rw [if_neg hsame, if_neg (Ne.symm hsame), hgap, List.reverse_append, List.reverse_cons]

theorem forall_mem_withGaps {P : Timestamp → Prop} {starts : List Timestamp} :
    (∀ b ∈ g.withGaps reverse starts, P b) ↔
      (∀ b ∈ starts, P b) ∧ starts.IsChain fun a b => ∀ c ∈ g.gaps reverse a b, P c := by
  induction starts with
  | nil => exact ⟨fun h => ⟨h, .nil⟩, fun h => h.1⟩
  | cons a rest ih =>
    cases rest with
    | nil => exact ⟨fun h => ⟨h, .singleton a⟩, fun h => h.1⟩
    | cons b rest =>
      rw [withGaps, List.isChain_cons_cons, List.forall_mem_cons]
      by_cases hsame : a = b
      · rw [if_pos hsame, ih, hsame, gaps_self]
        have hb : (∀ c ∈ b :: rest, P c) → P b := fun h => h b List.mem_cons_self
        simp only [List.not_mem_nil, false_implies, implies_true, true_and]
        exact ⟨fun h => ⟨⟨hb h.1, h.1⟩, h.2⟩, fun h => ⟨h.1.2, h.2⟩⟩
      · rw [if_neg hsame, List.forall_mem_append, List.forall_mem_cons, ih]
        exact and_and_and_comm

end Grid

/-! ## Reports -/

namespace Downsampling

variable {σ α β : Type} [Accumulator σ α β]

theorem starts_reportEmpty (d : Downsampling) (last next : Sample α) (s : σ)
    (starts : List Timestamp) :
    (d.reportEmpty last next s starts).1.map Sample.timestamp = starts := by
  induction starts generalizing s with
  | nil => rfl
  | cons start starts ih => exact congrArg (start :: ·) (ih _)

theorem starts_walk (g : Grid) (reverse : Bool) (rest : List (Sample α)) (s : σ)
    (last : Sample α) :
    (walk ⟨g, reverse, true⟩ s (g.start last.timestamp) last rest).map Sample.timestamp
      = g.withGaps reverse ((last :: rest).map fun x => g.start x.timestamp) := by
  induction rest generalizing s last with
  | nil => rfl
  | cons sample rest ih =>
    rw [List.map_cons, List.map_cons, Grid.withGaps, walk]
    dsimp only
    by_cases hsame : g.start last.timestamp = g.start sample.timestamp
    · rw [if_pos hsame, if_pos hsame, hsame]
      exact ih _ sample
    · rw [if_neg hsame, if_neg hsame, List.map_append, ih, List.map_cons, starts_reportEmpty]
      rfl

/-- The starts of the reports do not depend on what is folded. -/
theorem starts_reports (g : Grid) (reverse : Bool) (s : σ) (samples : List (Sample α)) :
    (reports ⟨g, reverse, true⟩ s samples).map Sample.timestamp
      = g.withGaps reverse
        ((ordered ⟨g, reverse, true⟩ samples).map fun x => g.start x.timestamp) := by
  cases h : ordered ⟨g, reverse, true⟩ samples with
  | nil =>
    rw [reports_of_nil _ s h]
    rfl
  | cons first rest =>
    rw [reports_of_cons _ s h]
    exact starts_walk g reverse rest _ first

end Downsampling

/-! ## The series -/

theorem isChain_imp_of_isChain {α : Type} {R S T : α → α → Prop} {xs : List α} (h : xs.IsChain T)
    (himp : ∀ x y, T x y → R x y → S x y) (hR : xs.IsChain R) : xs.IsChain S := by
  rw [List.isChain_iff_forall_rel_of_append_cons_cons] at h hR ⊢
  exact fun _ _ _ _ heq => himp _ _ (h heq) (hR heq)

namespace Grid

variable {α : Type} {g : Grid}

/-- All gaps of a series can be stepped over upwards. -/
def StepsOnGrid (g : Grid) (samples : List (Sample α)) : Prop :=
  samples.IsChain fun x y => g.StepsFrom x.timestamp y.timestamp

/-- A series in order, at distances from the alignment that fit. -/
structure Series (g : Grid) (samples : List (Sample α)) : Prop where
  ascending : samples.Pairwise fun a b => a.timestamp.toInt ≤ b.timestamp.toInt
  fits : ∀ x ∈ samples, g.Fits x.timestamp

namespace Series

variable {samples : List (Sample α)}

theorem isChain (h : g.Series samples) :
    samples.IsChain fun x y =>
      g.Fits x.timestamp ∧ g.Fits y.timestamp ∧ g.index x.timestamp ≤ g.index y.timestamp :=
  h.ascending.isChain.imp_of_mem_imp fun x y hx hy hle =>
    ⟨h.fits x hx, h.fits y hy, index_mono hle⟩

theorem forall_mem_up_iff {P : Timestamp → Prop} (hself : ∀ b, g.Fits b → g.start b = b → P b)
    (hmiss : ∀ b, ¬g.IsStart b → g.start b ≠ b → ¬P b) (h : g.Series samples) :
    (∀ b ∈ g.withGaps false (samples.map fun x => g.start x.timestamp), P b) ↔
      (∀ x ∈ samples, P (g.start x.timestamp)) ∧ g.StepsOnGrid samples := by
  rw [forall_mem_withGaps, List.forall_mem_map, List.isChain_map]
  have hgap := fun (x y : Sample α) (hxy : g.Fits x.timestamp ∧ g.Fits y.timestamp ∧ _) =>
    forall_mem_gaps_up_iff hself hmiss hxy.1 hxy.2.1 hxy.2.2
  exact and_congr_right fun _ =>
    ⟨isChain_imp_of_isChain h.isChain fun x y hxy => (hgap x y hxy).1,
      isChain_imp_of_isChain h.isChain fun x y hxy => (hgap x y hxy).2⟩

theorem isStart_of_mem_down (h : g.Series samples) :
    ∀ b ∈ g.withGaps true (samples.reverse.map fun x => g.start x.timestamp), g.IsStart b := by
  rw [forall_mem_withGaps, List.forall_mem_map, List.isChain_map, List.isChain_reverse]
  refine ⟨fun x hx => ⟨x.timestamp, h.fits x (List.mem_reverse.1 hx), rfl⟩,
    h.isChain.imp fun x y hxy b hb => ?_⟩
  obtain ⟨hfits, hself⟩ := isStart_of_mem_gaps_down hxy.1 hxy.2.1 hxy.2.2 hb
  exact ⟨b, hfits, hself⟩

theorem isStart_up_iff (h : g.Series samples) :
    (∀ b ∈ g.withGaps false (samples.map fun x => g.start x.timestamp), g.IsStart b) ↔
      g.StepsOnGrid samples := by
  rw [h.forall_mem_up_iff (fun b hfits hself => ⟨b, hfits, hself⟩) fun _ hmissed _ => hmissed]
  exact and_iff_right fun x hx => ⟨x.timestamp, h.fits x hx, rfl⟩

/-- Only an upward walk can leave the grid, so the two mirror each other exactly if it does not. -/
theorem reverse_iff (h : g.Series samples) :
    g.withGaps true (samples.reverse.map fun x => g.start x.timestamp)
        = (g.withGaps false (samples.map fun x => g.start x.timestamp)).reverse ↔
      g.StepsOnGrid samples := by
  constructor
  · intro hmirror
    refine h.isStart_up_iff.1 fun b hb => h.isStart_of_mem_down b ?_
    rw [hmirror]
    exact List.mem_reverse.2 hb
  · intro hsteps
    rw [List.map_reverse]
    refine withGaps_reverse (List.isChain_map _ |>.2 ?_)
    exact isChain_imp_of_isChain h.isChain
      (fun x y hxy => gaps_reverse_of_stepsFrom hxy.1 hxy.2.1 hxy.2.2) hsteps

/-- Of the stamps of a series only the lowest may be found to lie in another bucket. -/
theorem start_start_iff (h : g.Series samples) :
    (∀ x ∈ samples, g.start (g.start x.timestamp) = g.start x.timestamp) ↔
      ∀ x ∈ samples.head?, g.Fits (g.start x.timestamp) ∨
        (g.start x.timestamp).toInt = Timestamp.least ∨ g.duration.toInt ∣ 2 ^ 64 := by
  cases samples with
  | nil => simp
  | cons first rest =>
    have hfirst := h.fits first List.mem_cons_self
    rw [List.head?_cons, List.forall_mem_cons]
    simp only [Option.mem_some_iff, forall_eq']
    rw [← hfirst.start_start_iff, and_iff_left_iff_imp]
    intro hself x hx
    have hx' := h.fits x (List.mem_cons_of_mem first hx)
    rcases (index_mono (List.rel_of_pairwise_cons h.ascending hx)).eq_or_lt with heq | hlt
    · rwa [(hfirst.start_eq_start_iff_index hx').2 heq.symm]
    · exact (hfirst.start_of_lt hx' hlt).2.2

theorem self_and_reverse_iff (h : g.Series samples) :
    (∀ b ∈ g.withGaps false (samples.map fun x => g.start x.timestamp)
          ++ g.withGaps true (samples.reverse.map fun x => g.start x.timestamp), g.start b = b) ∧
        g.withGaps true (samples.reverse.map fun x => g.start x.timestamp)
          = (g.withGaps false (samples.map fun x => g.start x.timestamp)).reverse ↔
      g.StepsOnGrid samples ∧ ∀ x ∈ samples.head?, g.Fits (g.start x.timestamp) ∨
        (g.start x.timestamp).toInt = Timestamp.least ∨ g.duration.toInt ∣ 2 ^ 64 := by
  have hup := h.forall_mem_up_iff (P := fun b => g.start b = b) (fun _ _ hself => hself)
    fun _ _ hother => hother
  rw [h.start_start_iff] at hup
  constructor
  · rintro ⟨hself, -⟩
    exact (hup.1 fun b hb => hself b (List.mem_append_left _ hb)).symm
  · rintro ⟨hsteps, hfirst⟩
    have hself := hup.2 ⟨hfirst, hsteps⟩
    have hmirror := h.reverse_iff.2 hsteps
    refine ⟨List.forall_mem_append.2 ⟨hself, fun b hb => hself b ?_⟩, hmirror⟩
    rwa [hmirror, List.mem_reverse] at hb

end Series
end Grid

theorem downsample_of_ascending (kind : Aggregation) (g : Grid) (reverse emptyBuckets : Bool)
    {samples : List (Sample Binary64)}
    (hasc : samples.Pairwise fun a b => a.timestamp.toInt ≤ b.timestamp.toInt) :
    downsample kind g.duration g.alignment reverse emptyBuckets samples
      = .ok (Downsampling.reports ⟨g, reverse, emptyBuckets⟩ (Aggregator.fresh kind reverse)
          samples) := by
  rw [downsample, Grid.make_of_pos g.alignment g.duration_pos,
    Downsampling.firstDescent_eq_none_iff.2 hasc.isChain]
  rfl

/-- **The starts of the reports in either direction.** Whatever is folded, with empty buckets, for a
series in order whose distances from the alignment fit: from the newest sample to the oldest only
starts of buckets are reported. The starts reported in the other direction are those of buckets, and
the same in reversed order, exactly if no gap of the series has to be stepped over from a bucket
that begins before the least timestamp. And if they are, finding the bucket of a reported start
gives that start again, unless the distance of the first one from the alignment wraps. -/
theorem downsample_starts_iff (kind : Aggregation) (g : Grid) {samples : List (Sample Binary64)}
    (h : g.Series samples) :
    ∃ up down : List (Sample Binary64),
      downsample kind g.duration g.alignment false true samples = .ok up ∧
      downsample kind g.duration g.alignment true true samples = .ok down ∧
      (∀ r ∈ down, g.IsStart r.timestamp) ∧
      ((∀ r ∈ up, g.IsStart r.timestamp) ↔ g.StepsOnGrid samples) ∧
      (down.map Sample.timestamp = (up.map Sample.timestamp).reverse ↔ g.StepsOnGrid samples) ∧
      (((∀ r ∈ up ++ down, g.start r.timestamp = r.timestamp) ∧
          down.map Sample.timestamp = (up.map Sample.timestamp).reverse) ↔
        g.StepsOnGrid samples ∧ ∀ x ∈ samples.head?, g.Fits (g.start x.timestamp) ∨
          (g.start x.timestamp).toInt = Timestamp.least ∨ g.duration.toInt ∣ 2 ^ 64) := by
  set up := Downsampling.reports ⟨g, false, true⟩ (Aggregator.fresh kind false) samples
  set down := Downsampling.reports ⟨g, true, true⟩ (Aggregator.fresh kind true) samples
  have hup : up.map Sample.timestamp
      = g.withGaps false (samples.map fun x => g.start x.timestamp) :=
    Downsampling.starts_reports g false _ samples
  have hdown : down.map Sample.timestamp
      = g.withGaps true (samples.reverse.map fun x => g.start x.timestamp) :=
    Downsampling.starts_reports g true _ samples
  have hall : ∀ (P : Timestamp → Prop) (rs : List (Sample Binary64)),
      (∀ r ∈ rs, P r.timestamp) ↔ ∀ b ∈ rs.map Sample.timestamp, P b :=
    fun _ _ => List.forall_mem_map.symm
  refine ⟨up, down, downsample_of_ascending kind g false true h.ascending,
    downsample_of_ascending kind g true true h.ascending, ?_, ?_, ?_, ?_⟩
  · rw [hall, hdown]
    exact h.isStart_of_mem_down
  · rw [hall, hup]
    exact h.isStart_up_iff
  · rw [hup, hdown]
    exact h.reverse_iff
  · rw [hall fun b => g.start b = b, List.map_append, hup, hdown]
    exact h.self_and_reverse_iff

theorem ten_pos : 0 < (10 : Timestamp).toInt := by decide

/-- Buckets of ten, the lowest of which begins two before the least timestamp. -/
def tensAtZero : Grid := ⟨10, 0, ten_pos⟩

/-- Samples in the two lowest buckets and in the fourth. -/
def acrossLowest : List (Sample Binary64) :=
  [⟨-0x7fffffffffffffff, .zero false⟩, ⟨-0x7ffffffffffffff7, .zero false⟩,
    ⟨-0x7fffffffffffffe3, .zero false⟩]

theorem downsample_starts_iff_acrossLowest :
    tensAtZero.Series acrossLowest ∧ tensAtZero.StepsOnGrid acrossLowest ∧
      ∃ up down, downsample .count 10 0 false true acrossLowest = .ok up ∧
        downsample .count 10 0 true true acrossLowest = .ok down ∧
        up.map (fun r => r.timestamp.toInt - Timestamp.least) = [0, 8, 18, 28] ∧
        down.map Sample.timestamp = (up.map Sample.timestamp).reverse ∧
        ∀ r ∈ up ++ down, tensAtZero.start r.timestamp = r.timestamp := by
  have hseries : tensAtZero.Series acrossLowest := by
    refine ⟨by decide, fun x hx => ?_⟩
    simp only [acrossLowest, List.mem_cons, List.not_mem_nil, or_false] at hx
    rcases hx with rfl | rfl | rfl <;> constructor <;> decide
  have hsteps : tensAtZero.StepsOnGrid acrossLowest := by
    unfold Grid.StepsOnGrid
    decide
  obtain ⟨up, down, hup, hdown, -, -, hmirror, hself⟩ :=
    downsample_starts_iff .count tensAtZero hseries
  have hfirst := hself.2 ⟨hsteps, by
    rintro x hx
    cases hx
    exact .inr (.inl (by decide))⟩
  refine ⟨hseries, hsteps, up, down, hup, hdown, ?_, hmirror.2 hsteps, hfirst.1⟩
  cases hup
  decide

/-- Samples in the lowest bucket and in the fourth. -/
def overLowest : List (Sample Binary64) :=
  [⟨-0x7fffffffffffffff, .zero false⟩, ⟨-0x7fffffffffffffe3, .zero false⟩]

/-- Buckets of ten at five, from which the distance of the lowest start wraps. -/
def tensAtFive : Grid := ⟨10, 5, ten_pos⟩

/-- Upwards from the least timestamp the steps of ten miss the grid, which goes on eight above it,
and pass into the fourth bucket; downwards they do not. And a start whose distance from the
alignment wraps is found to lie in the bucket of the least timestamp. -/
theorem downsample_starts_overstepped :
    (tensAtZero.Series overLowest ∧
      ∃ up down, downsample .count 10 0 false true overLowest = .ok up ∧
        downsample .count 10 0 true true overLowest = .ok down ∧
        up.map (fun r => r.timestamp.toInt - Timestamp.least) = [0, 10, 20, 28] ∧
        down.map (fun r => r.timestamp.toInt - Timestamp.least) = [28, 18, 8, 0] ∧
        (∃ r ∈ up, tensAtZero.start r.timestamp ≠ r.timestamp) ∧
        down.map Sample.timestamp ≠ (up.map Sample.timestamp).reverse) ∧
    (tensAtFive.Fits (-0x7ffffffffffffffb) ∧
      (tensAtFive.start (-0x7ffffffffffffffb)).toInt = Timestamp.least + 3 ∧
      (tensAtFive.start (tensAtFive.start (-0x7ffffffffffffffb))).toInt = Timestamp.least) := by
  have hseries : tensAtZero.Series overLowest := by
    refine ⟨by decide, fun x hx => ?_⟩
    simp only [overLowest, List.mem_cons, List.not_mem_nil, or_false] at hx
    rcases hx with rfl | rfl <;> constructor <;> decide
  exact ⟨⟨hseries, _, _, rfl, rfl, by decide, by decide, by decide, by decide⟩,
    ⟨by decide, by decide⟩, by decide, by decide⟩

end Rollup
