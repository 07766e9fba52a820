import Mathlib.Tactic.Linarith
import Mathlib.Tactic.Ring
import Rollup.Bucket.Grid

/-!
# Grid points

In the integers a grid is the set of points `alignment + duration * k`, and a bucket reaches from
one point to the next. Where no bound of the 64-bit range interferes (`Grid.Regular`), the start of
a bucket is the point below (`toInt_start`), and the empty buckets between two others are the points
between theirs, in either direction (`mem_gaps`, `gaps_reverse`).
-/

namespace Rollup.Grid

variable (g : Grid)

/-- The start of the bucket with number `k`, in the integers. -/
def point (k : Int) : Int := g.alignment.toInt + g.duration.toInt * k

/-- The number of the bucket that holds `t`. -/
def index (t : Timestamp) : Int := (t.toInt - g.alignment.toInt) / g.duration.toInt

/-- The bucket of `t` is found in exact arithmetic: the distance from the alignment fits, and the
start of the bucket is a timestamp. -/
structure Regular (t : Timestamp) : Prop where
  least_le : Timestamp.least ≤ t.toInt - g.alignment.toInt
  le_greatest : t.toInt - g.alignment.toInt ≤ Timestamp.greatest
  start_fits :
    Timestamp.least ≤ t.toInt - (t.toInt - g.alignment.toInt) % g.duration.toInt

variable {g}

theorem toInt_bounds (t : Timestamp) :
    Timestamp.least ≤ t.toInt ∧ t.toInt ≤ Timestamp.greatest := by
  have hlow := t.le_toInt
  have hhigh := t.toInt_lt
  simp only [Timestamp.least, Timestamp.greatest]
  omega

/-! ## Points -/

theorem point_add_one (k : Int) : g.point (k + 1) = g.point k + g.duration.toInt := by
  unfold point
  ring

theorem point_lt_point {j k : Int} : g.point j < g.point k ↔ j < k := by
  have hpos := g.duration_pos
  unfold point
  constructor
  · intro h
    exact Int.lt_of_mul_lt_mul_left (by omega : g.duration.toInt * j < g.duration.toInt * k)
      (by omega)
  · intro h
    have hmul := Int.mul_lt_mul_of_pos_left h hpos
    omega

theorem point_le_point {j k : Int} : g.point j ≤ g.point k ↔ j ≤ k := by
  rw [← not_lt, point_lt_point, not_lt]

theorem point_inj {j k : Int} : g.point j = g.point k ↔ j = k := by
  rw [le_antisymm_iff, point_le_point, point_le_point, ← le_antisymm_iff]

theorem point_index (t : Timestamp) :
    g.point (g.index t)
      = t.toInt - (t.toInt - g.alignment.toInt) % g.duration.toInt := by
  have hdiv := Int.mul_ediv_add_emod (t.toInt - g.alignment.toInt) g.duration.toInt
  unfold point index
  omega

theorem point_index_le (t : Timestamp) : g.point (g.index t) ≤ t.toInt := by
  have hmod := Int.emod_nonneg (t.toInt - g.alignment.toInt) (ne_of_gt g.duration_pos)
  rw [point_index]
  omega

theorem lt_point_index_add_one (t : Timestamp) : t.toInt < g.point (g.index t + 1) := by
  have hmod := Int.emod_lt_of_pos (t.toInt - g.alignment.toInt) g.duration_pos
  rw [point_add_one, point_index]
  omega

theorem le_index_iff {k : Int} {t : Timestamp} : k ≤ g.index t ↔ g.point k ≤ t.toInt := by
  constructor
  · intro h
    exact le_trans (point_le_point.2 h) (point_index_le t)
  · intro h
    have hlt := point_lt_point.1 (lt_of_le_of_lt h (lt_point_index_add_one (g := g) t))
    omega

theorem index_mono {t u : Timestamp} (h : t.toInt ≤ u.toInt) : g.index t ≤ g.index u :=
  le_index_iff.2 (le_trans (point_index_le t) h)

/-! ## Starts -/

/-- A bucket starts at or before what it holds, whether or not the distance wraps. -/
theorem start_le (g : Grid) (t : Timestamp) : (g.start t).toInt ≤ t.toInt := by
  have hlow := (toInt_bounds t).1
  have hmod := Int.emod_nonneg (t - g.alignment).toInt (ne_of_gt g.duration_pos)
  unfold start bucketStart
  rw [Timestamp.toInt_saturate]
  omega

theorem lt_start_add (g : Grid) (t : Timestamp) :
    t.toInt < (g.start t).toInt + g.duration.toInt := by
  have hhigh := (toInt_bounds t).2
  have hmod := Int.emod_nonneg (t - g.alignment).toInt (ne_of_gt g.duration_pos)
  have hmod' := Int.emod_lt_of_pos (t - g.alignment).toInt g.duration_pos
  unfold start bucketStart
  rw [Timestamp.toInt_saturate]
  omega

theorem toInt_start {t : Timestamp} (h : g.Regular t) :
    (g.start t).toInt = g.point (g.index t) := by
  have hle := point_index_le (g := g) t
  have hhigh := (toInt_bounds t).2
  have hfits := h.start_fits
  unfold start bucketStart
  rw [Timestamp.toInt_sub_of_fits h.least_le h.le_greatest, Timestamp.toInt_saturate,
    ← point_index]
  rw [← point_index] at hfits
  omega

theorem start_eq_iff {t u : Timestamp} (ht : g.Regular t) (hu : g.Regular u) :
    g.start t = g.start u ↔ g.index t = g.index u := by
  rw [← Int64.toInt_inj, toInt_start ht, toInt_start hu, point_inj]

theorem toInt_finish (start : Timestamp) :
    (g.finish start).toInt = min (start.toInt + g.duration.toInt) Timestamp.greatest := by
  have hpos := g.duration_pos
  have hlow := (toInt_bounds start).1
  unfold finish Timestamp.saturatingAdd
  rw [Timestamp.toInt_saturate]
  simp only [Timestamp.least, Timestamp.greatest] at *
  omega

/-- The end of a bucket is exact if any timestamp lies behind it. -/
theorem toInt_finish_of_le {start t : Timestamp} (h : start.toInt + g.duration.toInt ≤ t.toInt) :
    (g.finish start).toInt = start.toInt + g.duration.toInt := by
  have hhigh := (toInt_bounds t).2
  rw [toInt_finish]
  omega

/-! ## Gaps -/

theorem gaps_count {i j : Int} :
    (g.point j - g.point i - 1) / g.duration.toInt = j - i - 1 := by
  have hpos := g.duration_pos
  have hsplit : g.point j - g.point i - 1
      = (g.duration.toInt - 1) + g.duration.toInt * (j - i - 1) := by
    unfold point
    ring
  rw [hsplit, Int.add_mul_ediv_left _ _ (by omega), Int.ediv_eq_zero_of_lt (by omega) (by omega),
    Int.zero_add]

theorem gaps_up {a b : Timestamp} {i j : Int} (ha : a.toInt = g.point i)
    (hb : b.toInt = g.point j) :
    g.gaps false a b
      = (List.range (j - i - 1).toNat).map fun n : Nat => Int64.ofInt (g.point (i + n + 1)) := by
  unfold gaps
  dsimp only
  rw [ha, hb, if_neg Bool.false_ne_true, gaps_count]
  refine List.map_congr_left fun n _ => ?_
  rw [if_neg Bool.false_ne_true]
  congr 1
  unfold point
  ring

theorem gaps_down {a b : Timestamp} {i j : Int} (ha : a.toInt = g.point i)
    (hb : b.toInt = g.point j) :
    g.gaps true a b
      = (List.range (i - j - 1).toNat).map fun n : Nat => Int64.ofInt (g.point (i - n - 1)) := by
  unfold gaps
  dsimp only
  rw [ha, hb, if_pos rfl, gaps_count]
  refine List.map_congr_left fun n _ => ?_
  rw [if_pos rfl]
  congr 1
  unfold point
  ring

theorem toInt_point_between {a b : Timestamp} {i j k : Int} (ha : a.toInt = g.point i)
    (hb : b.toInt = g.point j) (hik : i ≤ k) (hkj : k ≤ j) :
    (Int64.ofInt (g.point k)).toInt = g.point k := by
  have hlow := (toInt_bounds a).1
  have hhigh := (toInt_bounds b).2
  have hle := point_le_point (g := g).2 hik
  have hle' := point_le_point (g := g).2 hkj
  exact Timestamp.toInt_ofInt (by omega) (by omega)

/-- The starts listed between two points are points strictly between them. -/
theorem mem_gaps {reverse : Bool} {a b t : Timestamp} {i j : Int} (ha : a.toInt = g.point i)
    (hb : b.toInt = g.point j) (ht : t ∈ g.gaps reverse a b) :
    ∃ k, t.toInt = g.point k ∧ min i j < k ∧ k < max i j := by
  cases reverse with
  | false =>
    rw [gaps_up ha hb] at ht
    obtain ⟨n, hn, rfl⟩ := List.mem_map.1 ht
    have hlt := List.mem_range.1 hn
    exact ⟨i + n + 1, toInt_point_between ha hb (by omega) (by omega), by omega, by omega⟩
  | true =>
    rw [gaps_down ha hb] at ht
    obtain ⟨n, hn, rfl⟩ := List.mem_map.1 ht
    have hlt := List.mem_range.1 hn
    exact ⟨i - n - 1, toInt_point_between hb ha (by omega) (by omega), by omega, by omega⟩

theorem gaps_reverse {a b : Timestamp} {i j : Int} (ha : a.toInt = g.point i)
    (hb : b.toInt = g.point j) : g.gaps true b a = (g.gaps false a b).reverse := by
  rw [gaps_down hb ha, gaps_up ha hb]
  apply List.ext_getElem
  · simp
  · intro n hn _
    rw [List.length_map, List.length_range] at hn
    rw [List.getElem_reverse, List.getElem_map, List.getElem_map, List.getElem_range,
      List.getElem_range, List.length_map, List.length_range]
    congr 2
    omega

end Rollup.Grid
