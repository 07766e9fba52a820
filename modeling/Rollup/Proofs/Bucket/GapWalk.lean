import Mathlib.Data.List.Chain
import Rollup.Proofs.Bucket.Points

/-!
# Stepping over a gap

The empty buckets between two others are found by stepping: one duration further while the step
stays within the range of timestamps and strictly before the bucket that comes next (`GapWalk`).
`Grid.gaps` lists the starts that are stepped on (`gapWalk_gaps`), so the stepping ends, from any
start towards any other. Between two grid points it misses none: the last step is one duration short
of the bucket that comes next (`GapWalk.isChain`).
-/

namespace Rollup.Grid

variable {g : Grid} {reverse : Bool} {a b t u next : Timestamp} {starts : List Timestamp}

/-- `a` is met before `b`. -/
def Before (reverse : Bool) (a b : Timestamp) : Prop :=
  if reverse then b.toInt < a.toInt else a.toInt < b.toInt

instance (reverse : Bool) (a b : Timestamp) : Decidable (Before reverse a b) :=
  inferInstanceAs (Decidable (if reverse then _ else _))

theorem Before.trans (h : Before reverse a b) (h' : Before reverse b t) : Before reverse a t := by
  cases reverse
  · exact lt_trans (α := Int) h h'
  · exact lt_trans (α := Int) h' h

theorem not_before_self (reverse : Bool) (a : Timestamp) : ¬Before reverse a a := by
  cases reverse <;> exact lt_irrefl a.toInt

theorem Before.ne (h : Before reverse a b) : a ≠ b := by
  rintro rfl
  exact not_before_self reverse a h

/-- How far a step goes. -/
def stride (g : Grid) (reverse : Bool) : Int :=
  if reverse then -g.duration.toInt else g.duration.toInt

/-- One step from `t`, unless it leaves the range of timestamps. -/
def step? (g : Grid) (reverse : Bool) (t : Timestamp) : Option Timestamp :=
  let next := t.toInt + g.stride reverse
  if Timestamp.least ≤ next ∧ next ≤ Timestamp.greatest then some (Int64.ofInt next) else none

/-- From the given start the walk to `next` steps on `starts`, one after the other, and ends. -/
inductive GapWalk (g : Grid) (reverse : Bool) (next : Timestamp) :
    Timestamp → List Timestamp → Prop where
  | stop {t : Timestamp} (h : ∀ u, g.step? reverse t = some u → ¬Before reverse u next) :
      GapWalk g reverse next t []
  | go {t u : Timestamp} {starts : List Timestamp} (hstep : g.step? reverse t = some u)
      (hbefore : Before reverse u next) (hrest : GapWalk g reverse next u starts) :
      GapWalk g reverse next t (u :: starts)

/-- How far `b` lies ahead of `a`, in the direction of the walk. -/
def ahead (reverse : Bool) (a b : Timestamp) : Int :=
  if reverse then a.toInt - b.toInt else b.toInt - a.toInt

theorem before_iff : Before reverse a b ↔ 0 < ahead reverse a b := by
  unfold Before ahead
  cases reverse <;> simp

/-! ## Steps -/

theorem step?_eq_some_iff : g.step? reverse t = some u ↔ u.toInt = t.toInt + g.stride reverse := by
  unfold step?
  dsimp only
  constructor
  · intro h
    split at h
    · next hfits =>
      cases h
      exact Timestamp.toInt_ofInt hfits.1 hfits.2
    · cases h
  · intro h
    rw [← h, if_pos (toInt_bounds u), Int64.ofInt_toInt]

theorem before_of_step (h : u.toInt = t.toInt + g.stride reverse) : Before reverse t u := by
  have hpos := g.duration_pos
  unfold Before
  unfold stride at h
  cases reverse <;> simp only [if_true, if_false, Bool.false_eq_true] at h ⊢ <;> omega

/-- A step brings everything one duration nearer. -/
theorem ahead_of_step (next : Timestamp) (h : u.toInt = t.toInt + g.stride reverse) :
    ahead reverse t next = ahead reverse u next + g.duration.toInt := by
  unfold ahead
  unfold stride at h
  cases reverse <;> simp only [if_true, if_false, Bool.false_eq_true] at h ⊢ <;> omega

/-- A step that does not pass a timestamp stays within the range. -/
theorem exists_step (h : g.duration.toInt ≤ ahead reverse t next) :
    ∃ u, g.step? reverse t = some u := by
  have hpos := g.duration_pos
  have ht := toInt_bounds t
  have hnext := toInt_bounds next
  have hfits : Timestamp.least ≤ t.toInt + g.stride reverse ∧
      t.toInt + g.stride reverse ≤ Timestamp.greatest := by
    unfold ahead at h
    unfold stride
    cases reverse <;> simp only [if_true, if_false, Bool.false_eq_true] at h ⊢ <;> omega
  exact ⟨_, if_pos hfits⟩

/-! ## The listed starts are those of the walk -/

theorem gaps_eq (g : Grid) (reverse : Bool) (a b : Timestamp) :
    g.gaps reverse a b = (List.range ((ahead reverse a b - 1) / g.duration.toInt).toNat).map
      fun i : Nat => Int64.ofInt (a.toInt + (i + 1) * g.stride reverse) := by
  unfold gaps stride ahead
  cases reverse with
  | false => rfl
  | true =>
    refine List.map_congr_left fun i _ => ?_
    simp only [if_true, Int.mul_neg, Int.sub_eq_add_neg]

theorem gaps_of_not_before (h : ∀ u, g.step? reverse a = some u → ¬Before reverse u b) :
    g.gaps reverse a b = [] := by
  have hpos := g.duration_pos
  have hnear : ahead reverse a b ≤ g.duration.toInt := by
    by_contra hfar
    obtain ⟨u, hu⟩ := exists_step (not_le.1 hfar).le
    have hstep := ahead_of_step b (step?_eq_some_iff.1 hu)
    have hnot := h u hu
    rw [before_iff] at hnot
    omega
  have hcount : (ahead reverse a b - 1) / g.duration.toInt ≤ 0 := by
    have hlt := Int.ediv_lt_of_lt_mul hpos
      (show ahead reverse a b - 1 < 1 * g.duration.toInt by omega)
    omega
  rw [gaps_eq, Int.toNat_of_nonpos hcount]
  rfl

theorem gaps_of_before (hstep : u.toInt = a.toInt + g.stride reverse)
    (hbefore : Before reverse u b) : g.gaps reverse a b = u :: g.gaps reverse u b := by
  have hpos := g.duration_pos
  rw [before_iff] at hbefore
  have hcount : 0 ≤ (ahead reverse u b - 1) / g.duration.toInt :=
    Int.ediv_nonneg (by omega) hpos.le
  have hcount' : (ahead reverse a b - 1) / g.duration.toInt
      = (ahead reverse u b - 1) / g.duration.toInt + 1 := by
    rw [ahead_of_step b hstep, add_sub_right_comm, Int.add_ediv_of_dvd_right (Int.dvd_refl _),
      Int.ediv_self (by omega)]
  rw [gaps_eq, gaps_eq, hcount', Int.toNat_add hcount Int.one_nonneg, Int.toNat_one,
    List.range_succ_eq_map, List.map_cons, List.map_map]
  congr 1
  · rw [Nat.cast_zero, Int.zero_add, Int.one_mul, ← hstep, Int64.ofInt_toInt]
  · refine List.map_congr_left fun i _ => ?_
    rw [Function.comp_apply, hstep]
    congr 1
    push_cast
    ring

/-- **The stepping ends, and steps on the listed starts.** -/
theorem gapWalk_gaps (g : Grid) (reverse : Bool) (a b : Timestamp) :
    g.GapWalk reverse b a (g.gaps reverse a b) := by
  -- each step brings the walk nearer to `b`
  generalize hn : (ahead reverse a b).toNat = n
  induction n using Nat.strongRecOn generalizing a with
  | ind n ih =>
    by_cases hstop : ∀ u, g.step? reverse a = some u → ¬Before reverse u b
    · rw [gaps_of_not_before hstop]
      exact .stop hstop
    · simp only [not_forall, not_not] at hstop
      obtain ⟨u, hstep, hbefore⟩ := hstop
      have hu := step?_eq_some_iff.1 hstep
      have hnearer := ahead_of_step b hu
      have hpos := g.duration_pos
      rw [gaps_of_before hu hbefore]
      rw [before_iff] at hbefore
      exact .go hstep (before_iff.2 hbefore) (ih _ (by omega) u rfl)

/-! ## Where a walk goes -/

theorem GapWalk.between (h : g.GapWalk reverse next t starts) :
    ∀ u ∈ starts, Before reverse t u ∧ Before reverse u next := by
  induction h with
  | stop => intro u hu; cases hu
  | go hstep hbefore hrest ih =>
    have hfirst := before_of_step (step?_eq_some_iff.1 hstep)
    intro v hv
    rcases List.mem_cons.1 hv with rfl | hv
    · exact ⟨hfirst, hbefore⟩
    · exact ⟨hfirst.trans (ih v hv).1, (ih v hv).2⟩

/-- If `next` is a whole number of durations ahead, every step of the walk is one duration, and so
is the one that would reach `next`. -/
theorem GapWalk.isChain (h : g.GapWalk reverse next t starts)
    (hnext : ∃ n : Nat, next.toInt = t.toInt + (n + 1) * g.stride reverse) :
    (t :: starts ++ [next]).IsChain fun a b => b.toInt = a.toInt + g.stride reverse := by
  have hpos := g.duration_pos
  induction h with
  | @stop t hstop =>
    obtain ⟨n, hn⟩ := hnext
    refine List.isChain_pair.2 ?_
    cases n with
    | zero => simpa using hn
    | succ n =>
      -- a step short of `next` would be taken
      have hfar : ahead reverse t next = (n + 2) * g.duration.toInt := by
        unfold ahead
        rw [hn]
        unfold stride
        push_cast
        cases reverse <;> simp only [if_true, if_false, Bool.false_eq_true] <;> ring
      have hn' : (0 : Int) ≤ n * g.duration.toInt := Int.mul_nonneg (by omega) hpos.le
      rw [Int.add_mul] at hfar
      obtain ⟨u, hu⟩ := exists_step (g := g) (show g.duration.toInt ≤ ahead reverse t next by omega)
      have hnearer := ahead_of_step next (step?_eq_some_iff.1 hu)
      exact absurd (before_iff.2 (by omega)) (hstop u hu)
  | @go t u starts hstep hbefore hrest ih =>
    have hu := step?_eq_some_iff.1 hstep
    refine List.isChain_cons_cons.2 ⟨hu, ih ?_⟩
    obtain ⟨n, hn⟩ := hnext
    cases n with
    | zero =>
      have heq : u = next := Int64.toInt_inj.1 (by rw [hu, hn]; ring)
      exact absurd heq hbefore.ne
    | succ n =>
      refine ⟨n, ?_⟩
      rw [hn, hu]
      push_cast
      ring

/-- Two samples in different buckets are a number of durations apart. -/
theorem exists_steps (ha : g.Regular a) (hb : g.Regular b) (horder : ¬Before reverse b a)
    (hne : g.start a ≠ g.start b) :
    ∃ n : Nat, (g.start b).toInt = (g.start a).toInt + (n + 1) * g.stride reverse := by
  rw [toInt_start ha, toInt_start hb]
  have hindex : g.index a ≠ g.index b := mt (start_eq_iff ha hb).2 hne
  unfold Before at horder
  unfold stride point
  cases reverse with
  | false =>
    rw [if_neg Bool.false_ne_true] at horder
    rw [if_neg Bool.false_ne_true]
    have hle : g.index a ≤ g.index b := index_mono (not_lt.1 horder)
    refine ⟨(g.index b - g.index a - 1).toNat, ?_⟩
    rw [Int.toNat_of_nonneg (by omega)]
    ring
  | true =>
    rw [if_pos rfl] at horder
    rw [if_pos rfl]
    have hle : g.index b ≤ g.index a := index_mono (not_lt.1 horder)
    refine ⟨(g.index a - g.index b - 1).toNat, ?_⟩
    rw [Int.toNat_of_nonneg (by omega)]
    ring

end Rollup.Grid
