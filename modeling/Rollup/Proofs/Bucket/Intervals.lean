import Rollup.Proofs.Bucket.Points

/-!
# Buckets as intervals

Where the distance from the alignment fits (`Grid.Fits`), the samples of a bucket are those between
one grid point and the next, and later samples are in later buckets (`start_eq_start_iff`). The
lowest bucket is the only one that may begin before the least timestamp. It is stamped with the
least timestamp then, and still ends at its grid point, so it is shorter than a duration.

Behind a distance that wraps, the grid is another one: there a bucket may begin before the one of an
earlier sample (`start_clamped_and_wrapped`).
-/

namespace Rollup.Grid

/-- The distance of `t` from the alignment is found without wrapping. -/
structure Fits (g : Grid) (t : Timestamp) : Prop where
  least_le : Timestamp.least ≤ t.toInt - g.alignment.toInt
  le_greatest : t.toInt - g.alignment.toInt ≤ Timestamp.greatest

variable {g : Grid} {t u : Timestamp}

/-- The start is the point below, or the least timestamp if the point lies before it. -/
theorem Fits.toInt_start (h : g.Fits t) :
    (g.start t).toInt = max Timestamp.least (g.point (g.index t)) := by
  have hle := point_index_le (g := g) t
  have hhigh := (toInt_bounds t).2
  unfold start bucketStart
  rw [Timestamp.toInt_sub_of_fits h.least_le h.le_greatest, Timestamp.toInt_saturate,
    ← point_index]
  omega

theorem index_eq_index_iff :
    g.index u = g.index t ↔
      g.point (g.index t) ≤ u.toInt ∧ u.toInt < g.point (g.index t + 1) := by
  rw [← le_index_iff, ← not_le, ← le_index_iff]
  omega

/-- Two buckets never share a start: the point behind a clamped one is a timestamp again. -/
theorem Fits.start_eq_start_iff_index (ht : g.Fits t) (hu : g.Fits u) :
    g.start u = g.start t ↔ g.index u = g.index t := by
  rw [← Int64.toInt_inj, ht.toInt_start, hu.toInt_start]
  constructor
  · intro h
    rcases lt_trichotomy (g.index u) (g.index t) with hlt | heq | hlt
    · have hnext := lt_point_index_add_one (g := g) u
      have hle : g.point (g.index u + 1) ≤ g.point (g.index t) := point_le_point.2 hlt
      have hlow := (toInt_bounds u).1
      have hpoint := point_lt_point (g := g).2 hlt
      omega
    · exact heq
    · have hnext := lt_point_index_add_one (g := g) t
      have hle : g.point (g.index t + 1) ≤ g.point (g.index u) := point_le_point.2 hlt
      have hlow := (toInt_bounds t).1
      have hpoint := point_lt_point (g := g).2 hlt
      omega
  · intro h
    rw [h]

theorem Fits.start_mono (ht : g.Fits t) (hu : g.Fits u) (h : t.toInt ≤ u.toInt) :
    (g.start t).toInt ≤ (g.start u).toInt := by
  rw [ht.toInt_start, hu.toInt_start]
  exact max_le_max_left _ (point_le_point.2 (index_mono h))

/-- **The samples of a bucket.** Let `base` be the start of the bucket of `t` in the integers. The
bucket is stamped with `base`, or with the least timestamp if `base` lies before it; it holds the
timestamps from `base` up to one duration behind it; and later timestamps are in later buckets. So
a bucket that is stamped with its base is delimited by the edges that are handed to a state, where
an end beyond the greatest timestamp delimits nothing. -/
theorem start_eq_start_iff (ht : g.Fits t) (hu : g.Fits u) :
    let base := t.toInt - (t.toInt - g.alignment.toInt) % g.duration.toInt
    let start := g.start t
    start.toInt = max Timestamp.least base ∧
    (g.start u = start ↔ base ≤ u.toInt ∧ u.toInt < base + g.duration.toInt) ∧
    (Timestamp.least ≤ base →
      (g.start u = start ↔
        start.toInt ≤ u.toInt ∧ u.toInt < start.toInt + g.duration.toInt) ∧
      (g.start u = start ↔ start.toInt ≤ u.toInt ∧
        (u.toInt < (g.finish start).toInt ∨
          Timestamp.greatest < start.toInt + g.duration.toInt))) ∧
    (t.toInt ≤ u.toInt → start.toInt ≤ (g.start u).toInt) := by
  intro base start
  have hbase : g.point (g.index t) = base := point_index t
  have hstart : start.toInt = max Timestamp.least base := hbase ▸ ht.toInt_start
  have hmem : g.start u = start ↔ base ≤ u.toInt ∧ u.toInt < base + g.duration.toInt := by
    rw [ht.start_eq_start_iff_index hu, index_eq_index_iff, point_add_one, hbase]
  refine ⟨hstart, hmem, fun hfits => ?_, ht.start_mono hu⟩
  have hexact : start.toInt = base := hstart.trans (max_eq_right hfits)
  have hhigh := (toInt_bounds u).2
  rw [toInt_finish, hexact]
  refine ⟨hmem, hmem.trans ?_⟩
  omega

/-- Buckets of a hundred that start at multiples of a hundred. -/
def hundreds : Grid := ⟨100, 0, by decide⟩

/-- The greatest timestamps are in a bucket whose end is beyond them. -/
theorem start_eq_start_iff_greatest :
    hundreds.Fits 0x7ffffffffffffff8 ∧ hundreds.Fits 0x7fffffffffffffff ∧
      hundreds.start 0x7fffffffffffffff = hundreds.start 0x7ffffffffffffff8 ∧
      (hundreds.start 0x7ffffffffffffff8).toInt = 0x7fffffffffffffff - 7 := by
  have ht : hundreds.Fits 0x7ffffffffffffff8 := ⟨by decide, by decide⟩
  have hu : hundreds.Fits 0x7fffffffffffffff := ⟨by decide, by decide⟩
  obtain ⟨hstart, hmem, -⟩ := start_eq_start_iff ht hu
  exact ⟨ht, hu, hmem.2 (by decide), hstart.trans (by decide)⟩

/-- Buckets of seven, aligned to the greatest timestamp, from which the distance of a timestamp
below `-1` wraps. -/
def distantSevens : Grid := ⟨7, 0x7fffffffffffffff, by decide⟩

/-- Two ways for a bucket not to be the duration behind its start. The least timestamp stamps a
bucket that began before it, and the next bucket starts eight behind it. And on either side of a
distance that wraps, the buckets of `-2` and `-1` are in descending order, though both timestamps
are within a duration of the first one's start. -/
theorem start_clamped_and_wrapped :
    ((hundreds.start (-0x8000000000000000)).toInt = -0x8000000000000000 ∧
      (hundreds.start (-0x7ffffffffffffff8)).toInt = -0x8000000000000000 + 8 ∧
      ¬∀ u : Timestamp, hundreds.start u = hundreds.start (-0x8000000000000000) ↔
        (hundreds.start (-0x8000000000000000)).toInt ≤ u.toInt ∧
          u.toInt < (hundreds.start (-0x8000000000000000)).toInt + hundreds.duration.toInt) ∧
    ((distantSevens.start (-2)).toInt = -2 ∧ (distantSevens.start (-1)).toInt = -7 ∧
      ¬∀ t u : Timestamp, t.toInt ≤ u.toInt →
        (distantSevens.start t).toInt ≤ (distantSevens.start u).toInt) := by
  refine ⟨⟨by decide, by decide, fun h => ?_⟩, ⟨by decide, by decide, fun h => ?_⟩⟩
  · have hsame := (h (-0x7ffffffffffffff8)).2 (by decide)
    exact absurd hsame (by decide)
  · exact absurd (h (-2) (-1) (by decide)) (by decide)

end Rollup.Grid
