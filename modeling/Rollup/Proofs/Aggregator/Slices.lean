import Rollup.Proofs.Bucket.Reported
import Rollup.Proofs.MaxScan.Agreement

/-!
# Values in slices

Each aggregation but the time-weighted average takes runs of values as well, and does so in its own
way: a count adds the number of them at once, the last value skips all others, and bounds scan for
the maximum by the kernel in use. However a run is cut into slices, and wherever each of them begins
in memory, the state is that of the values one by one (`appendAll_slices`). The one difference is
the sign of a zero that is the greatest value so far.
-/

namespace Rollup

open MaxScan

/-- Scans from starts that agree find maxima that agree. -/
theorem Kernel.agree_scan_of_agree {a b : Binary64} (h : AgreeButForZeroSign a b)
    (kernel : Kernel) (lead : Nat) (values : List Binary64) :
    AgreeButForZeroSign (kernel.scan lead a values) (linear b values) := by
  rcases h with rfl | ⟨hza, hzb⟩
  · exact agree_scan_linear kernel lead a values
  · have ha := Binary64.isNaN_of_isFinite (Binary64.isFinite_of_isZero hza)
    have hb := Binary64.isNaN_of_isFinite (Binary64.isFinite_of_isZero hzb)
    have hkey : a.numKey = b.numKey := by
      rw [Binary64.eq_zero_of_isZero hza, Binary64.eq_zero_of_isZero hzb, Binary64.numKey_zero,
        Binary64.numKey_zero]
    refine agree_of_rank_eq ((isNaN_scan kernel lead a values).trans ha)
      ((isNaN_linear b values).trans hb) ?_
    rw [rank_scan kernel lead ha, rank_linear ha, rank_linear hb, rank_of_not_isNaN ha,
      rank_of_not_isNaN hb, hkey]

namespace Aggregator

variable {kind : Aggregation} {reverse : Bool} {s t : Aggregator} {n m : Nat}

/-! ## One by one -/

/-- Nothing but a time-weighted average looks at the time of a sample. -/
theorem append_value (h : s.kind ≠ .twa) (sample : Sample Binary64) :
    s.append ⟨0, sample.value⟩ = s.append sample := by
  cases s with
  | tally fold state => cases fold <;> rfl
  | timeWeighted state => exact absurd rfl h
  | _ => rfl

theorem foldl_append_values (h : s.kind ≠ .twa) (samples : List (Sample Binary64)) :
    (samples.map Sample.value).foldl (fun s value => s.append ⟨0, value⟩) s
      = samples.foldl append s := by
  induction samples generalizing s with
  | nil => rfl
  | cons sample rest ih =>
    rw [List.map_cons, List.foldl_cons, List.foldl_cons, append_value h]
    exact ih (by rwa [kind_append])

theorem kind_foldl_append (s : Aggregator) (samples : List (Sample Binary64)) :
    (samples.foldl append s).kind = s.kind := by
  induction samples generalizing s with
  | nil => rfl
  | cons sample rest ih => rw [List.foldl_cons, ih, kind_append]

theorem foldl_append_last (state : Single) (samples : List (Sample Binary64)) :
    samples.foldl append (tally .last state)
      = tally .last ⟨(samples.map Sample.value).getLast?.getD state.value⟩ := by
  induction samples generalizing state with
  | nil => rfl
  | cons sample rest ih =>
    rw [List.foldl_cons, List.map_cons, List.getLast?_cons, Option.getD_some]
    exact ih ⟨sample.value⟩

theorem foldl_append_extreme (report : Extreme) (state : Bounds)
    (samples : List (Sample Binary64)) :
    samples.foldl append (extreme report state)
      = extreme report ⟨(samples.map Sample.value).foldl Bounds.keepLess state.least,
          linear state.greatest (samples.map Sample.value)⟩ := by
  induction samples generalizing state with
  | nil => rfl
  | cons sample rest ih => exact ih (state.append sample.value)

/-- The state of a count is the number of samples, as long as doubles hold it. -/
theorem foldl_append_count (samples : List (Sample Binary64))
    (hfew : m + samples.length ≤ 2 ^ 53) :
    samples.foldl append (tally .count ⟨countValue m⟩)
      = tally .count ⟨countValue (m + samples.length)⟩ := by
  induction samples generalizing m with
  | nil => rfl
  | cons sample rest ih =>
    rw [List.length_cons] at hfew ⊢
    have hone : countValue m + countValue 1 = countValue (m + 1) := countValue_add (by omega)
    have hrest := ih (m := m + 1) (by omega)
    rw [← hone, Nat.add_right_comm, Nat.add_assoc] at hrest
    exact hrest

/-! ## At once -/

/-- A run of values taken at once, where the greatest value of bounds is found by `scan`. -/
def appendAllBy (scan : Binary64 → List Binary64 → Binary64) (s : Aggregator)
    (values : List Binary64) : Except Fault Aggregator :=
  match s with
  | extreme report state =>
    .ok (extreme report ⟨values.foldl Bounds.keepLess state.least, scan state.greatest values⟩)
  | s => s.appendAll values

/-- Without vector registers it is `appendAll`. -/
theorem appendAllBy_scalar (lead : Nat) (s : Aggregator) (values : List Binary64) :
    s.appendAllBy (Kernel.scalar.scan lead) values = s.appendAll values := by
  cases s <;> rfl

/-- Equal in every field, except that the greatest values may be zeros of either sign. -/
def AgreeButForMaxZero : Aggregator → Aggregator → Prop
  | extreme f a, extreme g b =>
    f = g ∧ a.least = b.least ∧ AgreeButForZeroSign a.greatest b.greatest
  | s, t => s = t

theorem AgreeButForMaxZero.of_eq (h : s = t) : s.AgreeButForMaxZero t := by
  subst h
  cases s with
  | extreme report state => exact ⟨rfl, rfl, .inl rfl⟩
  | _ => exact rfl

theorem AgreeButForMaxZero.eq_or (h : s.AgreeButForMaxZero t) :
    s = t ∨ ∃ report a b, s = extreme report a ∧ t = extreme report b ∧ a.least = b.least ∧
      AgreeButForZeroSign a.greatest b.greatest := by
  cases s with
  | extreme f a =>
    cases t with
    | extreme g b =>
      obtain ⟨rfl, hleast, hgreatest⟩ := h
      exact .inr ⟨f, a, b, rfl, rfl, hleast, hgreatest⟩
    | _ => exact .inl h
  | _ => exact .inl h

/-- A count holds a number of samples that leaves room for so many more. -/
def HasRoom (s : Aggregator) (more : Nat) : Prop :=
  s.kind = .count → ∃ m, s = tally .count ⟨countValue m⟩ ∧ m + more ≤ 2 ^ 53

/-- **One slice.** From states that agree, taking a slice at once and value by value leads to states
that agree. -/
theorem AgreeButForMaxZero.appendAllBy (h : s.AgreeButForMaxZero t) (hkind : t.kind ≠ .twa)
    (kernel : Kernel) (lead : Nat) (samples : List (Sample Binary64))
    (hroom : t.HasRoom samples.length) :
    ∃ s', s.appendAllBy (kernel.scan lead) (samples.map Sample.value) = .ok s' ∧
      s'.AgreeButForMaxZero (samples.foldl append t) := by
  rcases h.eq_or with rfl | ⟨report, a, b, rfl, rfl, hleast, hgreatest⟩
  · cases s with
    | tally fold state =>
      cases fold with
      | sum => exact ⟨_, rfl, .of_eq (foldl_append_values hkind samples)⟩
      | count =>
        obtain ⟨m, heq, hfew⟩ := hroom rfl
        cases heq
        refine ⟨_, rfl, .of_eq ?_⟩
        -- the number of the slice is added at once, and the sum is still exact
        rw [foldl_append_count samples hfew, ← countValue_add hfew, List.length_map]
        rfl
      | last => exact ⟨_, rfl, .of_eq (foldl_append_last state samples).symm⟩
    | extreme report state =>
      refine ⟨_, rfl, ?_⟩
      rw [foldl_append_extreme]
      exact ⟨rfl, rfl, Kernel.agree_scan_linear kernel lead _ _⟩
    | timeWeighted state => exact absurd rfl hkind
    | _ => exact ⟨_, rfl, .of_eq (foldl_append_values hkind samples)⟩
  · refine ⟨_, rfl, ?_⟩
    rw [foldl_append_extreme]
    exact ⟨rfl, by rw [hleast], Kernel.agree_scan_of_agree hgreatest kernel lead _⟩

/-! ## Slice by slice -/

/-- Samples that are taken at once, by a kernel, where `lead` of them lie before the first aligned
one. -/
structure Slice where
  kernel : Kernel
  lead : Nat
  samples : List (Sample Binary64)

def Slice.values (slice : Slice) : List Binary64 := slice.samples.map Sample.value

theorem HasRoom.foldl_append {samples : List (Sample Binary64)} {more : Nat}
    (h : s.HasRoom (samples.length + more)) : (samples.foldl append s).HasRoom more := by
  intro hcount
  rw [kind_foldl_append] at hcount
  obtain ⟨m, rfl, hfew⟩ := h hcount
  refine ⟨m + samples.length, foldl_append_count samples (by omega), by omega⟩

theorem AgreeButForMaxZero.foldlM_appendAllBy (h : s.AgreeButForMaxZero t)
    (scan : Slice → Binary64 → List Binary64 → Binary64)
    (hscan : ∀ slice, ∃ kernel lead, scan slice = Kernel.scan kernel lead) (slices : List Slice)
    (hkind : t.kind ≠ .twa)
    (hroom : t.HasRoom (slices.flatMap Slice.samples).length) :
    ∃ s', slices.foldlM (fun s slice => s.appendAllBy (scan slice) slice.values) s = .ok s' ∧
      s'.AgreeButForMaxZero ((slices.flatMap Slice.samples).foldl append t) := by
  -- the two runs may part at the first slice, so they only agree before the next one
  induction slices generalizing s t with
  | nil => exact ⟨s, rfl, h⟩
  | cons slice rest ih =>
    rw [List.flatMap_cons, List.length_append] at hroom
    obtain ⟨kernel, lead, heq⟩ := hscan slice
    have hroom' : t.HasRoom slice.samples.length := fun hcount => by
      obtain ⟨m, hm, hfew⟩ := hroom hcount
      exact ⟨m, hm, by omega⟩
    obtain ⟨s₁, hslice, hagree⟩ := h.appendAllBy hkind kernel lead slice.samples hroom'
    obtain ⟨s₂, hrest, hagree'⟩ := ih hagree (by rwa [kind_foldl_append]) hroom.foldl_append
    refine ⟨s₂, ?_, ?_⟩
    · rw [List.foldlM_cons, heq, Slice.values, hslice]
      exact hrest
    · rw [List.flatMap_cons, List.foldl_append]
      exact hagree'

/-! ## States that are reached -/

/-- The states that appends, vector appends and resets lead to, with so many values in all. -/
inductive Reached (kind : Aggregation) (reverse : Bool) : Nat → Aggregator → Prop where
  | fresh : Reached kind reverse 0 (fresh kind reverse)
  | append {n : Nat} {s : Aggregator} (h : Reached kind reverse n s) (sample : Sample Binary64) :
      Reached kind reverse (n + 1) (s.append sample)
  | appendAll {n : Nat} {s t : Aggregator} (h : Reached kind reverse n s) (kernel : Kernel)
      (lead : Nat) (values : List Binary64)
      (hok : s.appendAllBy (kernel.scan lead) values = .ok t) :
      Reached kind reverse (n + values.length) t
  | reset {n : Nat} {s : Aggregator} (h : Reached kind reverse n s) :
      Reached kind reverse n s.reset

theorem kind_of_appendAllBy {scan : Binary64 → List Binary64 → Binary64} {values : List Binary64}
    (hok : s.appendAllBy scan values = .ok t) : t.kind = s.kind := by
  have hfold : (values.foldl (fun s value => s.append ⟨0, value⟩) s).kind = s.kind := by
    rw [← List.foldl_map (f := fun value => (⟨0, value⟩ : Sample Binary64)) (g := append)]
    exact kind_foldl_append s _
  cases s with
  | tally fold state =>
    cases fold <;> cases hok
    · exact hfold
    · rfl
    · rfl
  | extreme report state =>
    cases hok
    cases report <;> rfl
  | timeWeighted state => cases hok
  | _ =>
    cases hok
    exact hfold

theorem Reached.kind_eq (h : Reached kind reverse n s) : s.kind = kind := by
  induction h with
  | fresh => exact kind_fresh kind reverse
  | append _ sample ih => rw [kind_append, ih]
  | appendAll _ kernel lead values hok ih => rw [kind_of_appendAllBy hok, ih]
  | reset _ ih => rw [kind_reset, ih]

/-- As long as doubles hold it, a count is the number of values since it was last reset. -/
theorem Reached.exists_count (h : Reached .count reverse n s) (hfew : n ≤ 2 ^ 53) :
    ∃ m, s = tally .count ⟨countValue m⟩ ∧ m ≤ n := by
  induction h with
  | fresh => exact ⟨0, by rw [countValue_zero]; rfl, Nat.le_refl 0⟩
  | append _ sample ih =>
    obtain ⟨m, rfl, hle⟩ := ih (by omega)
    exact ⟨m + 1, congrArg (fun x => tally .count ⟨x⟩) (countValue_add (n := 1) (by omega)),
      by omega⟩
  | appendAll _ kernel lead values hok ih =>
    obtain ⟨m, rfl, hle⟩ := ih (by omega)
    cases hok
    exact ⟨m + values.length, congrArg (fun x => tally .count ⟨x⟩) (countValue_add (by omega)),
      by omega⟩
  | reset _ ih =>
    obtain ⟨m, rfl, hle⟩ := ih hfew
    exact ⟨0, by rw [countValue_zero]; rfl, Nat.zero_le _⟩

theorem Reached.hasRoom (h : Reached kind reverse n s) {more : Nat}
    (hfew : kind = .count → n + more ≤ 2 ^ 53) : s.HasRoom more := by
  intro hcount
  obtain rfl : kind = .count := h.kind_eq.symm.trans hcount
  have hfew := hfew rfl
  obtain ⟨m, heq, hle⟩ := h.exists_count (by omega)
  exact ⟨m, heq, by omega⟩

/-- **Slices make no difference.** From any state that appends, vector appends and resets lead to,
and for any aggregation but the time-weighted average, samples may be cut into slices in any way:
taking the values of each slice at once succeeds, with or without vector registers and wherever the
slice begins in memory, and leads to the state of appending the samples one after the other, but for
the sign of a zero that is the greatest value so far. Counts need doubles that hold the number of
all values. -/
theorem appendAll_slices (hkind : kind ≠ .twa) (h : Reached kind reverse n s) (slices : List Slice)
    (hfew : kind = .count → n + (slices.flatMap Slice.samples).length ≤ 2 ^ 53) :
    let one := (slices.flatMap Slice.samples).foldl append s
    (∃ t, slices.foldlM (fun s slice => s.appendAll slice.values) s = .ok t ∧
      t.AgreeButForMaxZero one) ∧
    ∃ t, slices.foldlM
        (fun s slice => s.appendAllBy (slice.kernel.scan slice.lead) slice.values) s = .ok t ∧
      t.AgreeButForMaxZero one := by
  have hkind' : s.kind ≠ .twa := by rwa [h.kind_eq]
  have hroom := h.hasRoom hfew
  constructor
  · have hscalar := (AgreeButForMaxZero.of_eq rfl).foldlM_appendAllBy
      (fun _ => Kernel.scalar.scan 0) (fun _ => ⟨_, _, rfl⟩) slices hkind' hroom
    simp only [appendAllBy_scalar] at hscalar
    exact hscalar
  · exact (AgreeButForMaxZero.of_eq rfl).foldlM_appendAllBy
      (fun slice => slice.kernel.scan slice.lead) (fun _ => ⟨_, _, rfl⟩) slices hkind' hroom

/-- Zeros of the sign that the state does not hold and a NaN, in registers; nothing; one number. -/
def unlikeSlices : List Slice :=
  [⟨.avx2, 3, ⟨7, .nan⟩ :: List.replicate 9 ⟨8, .zero false⟩⟩, ⟨.scalar, 0, []⟩,
    ⟨.scalar, 0, [⟨9, .minFinite⟩]⟩]

theorem appendAll_slices_unlike :
    Reached .range false 1 (extreme .range ⟨.zero true, .zero true⟩) ∧
      ∃ t, unlikeSlices.foldlM
          (fun s slice => s.appendAllBy (slice.kernel.scan slice.lead) slice.values)
          (extreme .range ⟨.zero true, .zero true⟩) = .ok t ∧
        t.AgreeButForMaxZero (extreme .range ⟨.minFinite, .zero true⟩) := by
  have hreached : Reached .range false 1 (extreme .range ⟨.zero true, .zero true⟩) :=
    Reached.append .fresh ⟨5, .zero true⟩
  have hone : (unlikeSlices.flatMap Slice.samples).foldl append
      (extreme .range ⟨.zero true, .zero true⟩) = extreme .range ⟨.minFinite, .zero true⟩ := by
    decide +kernel
  have hslices := (appendAll_slices (by decide) hreached unlikeSlices (by decide)).2
  rw [hone] at hslices
  exact ⟨hreached, hslices⟩

end Aggregator
end Rollup
