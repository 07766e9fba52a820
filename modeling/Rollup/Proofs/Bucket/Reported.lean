import Rollup.Proofs.Binary64.Magnitude
import Rollup.Proofs.Bucket.Intervals
import Rollup.Proofs.Bucket.Runs

/-!
# What a rule has reported

Two invariants of a rule and the reports it has made so far, each kept by every accepted sample.
`Orderly` is about time: the reports are in strictly ascending order, and the open bucket, which is
that of the last accepted sample, is behind all of them. It rests on later samples being in later
buckets, so it holds where the distances from the alignment fit. `Tallied` is about the samples that
are counted: each of them is in one report or in the open bucket. Both hold of a new rule, so they
hold after any pushes (`reports_ascending_and_complete`).
-/

namespace Rollup

/-! ## Order -/

/-- Samples in order are in buckets in order. -/
theorem Grid.Fits.start_lt_start {g : Grid} {t u : Timestamp} (ht : g.Fits t) (hu : g.Fits u)
    (h : ¬u < t) (hne : g.start t ≠ g.start u) : g.start t < g.start u := by
  rw [Int64.lt_iff_toInt_lt] at h ⊢
  exact lt_of_le_of_ne (ht.start_mono hu (not_lt.1 h)) (mt Int64.toInt_inj.1 hne)

namespace Rule

variable {σ α β : Type}

/-- The reports are in order of time, and the open bucket is behind all of them. -/
structure Orderly (g : Grid) (accepted : List (Sample α)) (reports : List (Sample β))
    (r : Rule σ α) : Prop where
  tracks : r.Tracks g accepted.getLast?
  ascending : reports.Pairwise fun a b => a.timestamp < b.timestamp
  below : ∀ report ∈ reports, ∃ bucket, r.openBucket = some bucket ∧ report.timestamp < bucket

theorem orderly_start (g : Grid) (fresh : σ) :
    Orderly g [] ([] : List (Sample β)) (start g fresh : Rule σ α) where
  tracks := ⟨rfl, rfl, rfl⟩
  ascending := .nil
  below _ h := absurd h List.not_mem_nil

/-- Before a bucket is open, nothing has been reported. -/
theorem Orderly.reports_eq_nil {g : Grid} {accepted : List (Sample α)} {reports : List (Sample β)}
    {r : Rule σ α} (h : Orderly g accepted reports r) (hnone : r.openBucket = none) :
    reports = [] := by
  refine List.eq_nil_iff_forall_not_mem.2 fun report hreport => ?_
  obtain ⟨bucket, hbucket, -⟩ := h.below report hreport
  rw [hnone] at hbucket
  cases hbucket

/-- A sample of another bucket is in a later one. -/
theorem Orderly.lt_start {g : Grid} {accepted : List (Sample α)} {reports : List (Sample β)}
    {r : Rule σ α} (h : Orderly g accepted reports r) {sample : Sample α}
    (hfits : ∀ s ∈ accepted ++ [sample], g.Fits s.timestamp)
    (hlate : ¬IsLate accepted.getLast? sample) {bucket : Timestamp}
    (hsome : r.openBucket = some bucket) (hne : bucket ≠ g.start sample.timestamp) :
    bucket < g.start sample.timestamp := by
  have hopen := h.tracks.openBucket
  rw [hsome, eq_comm, Option.map_eq_some_iff] at hopen
  obtain ⟨last, hlast, rfl⟩ := hopen
  have hmem : last ∈ accepted := List.mem_of_getLast? hlast
  rw [hlast, isLate_some] at hlate
  exact (hfits last (List.mem_append_left _ hmem)).start_lt_start
    (hfits sample (List.mem_concat_self)) hlate hne

variable [Accumulator σ α β]

theorem Orderly.accept {g : Grid} {accepted : List (Sample α)} {reports : List (Sample β)}
    {r : Rule σ α} (h : Orderly g accepted reports r) {sample : Sample α}
    (hfits : ∀ s ∈ accepted ++ [sample], g.Fits s.timestamp)
    (hlate : ¬IsLate accepted.getLast? sample) :
    Orderly g (accepted ++ [sample]) (reports ++ (r.accept sample).1.toList)
      (r.accept (β := β) sample).2 := by
  have htracks := h.tracks.accept (β := β) sample
  rw [← List.getLast?_concat (a := sample) (l := accepted)] at htracks
  have hopen := htracks.openBucket
  rw [List.getLast?_concat, Option.map_some] at hopen
  rcases r.accept_cases (β := β) sample with ⟨hnone, heq⟩ | ⟨-, heq⟩ | ⟨bucket, hsome, hne, heq⟩
  · -- the first bucket is opened, so there are no reports yet
    rw [heq] at htracks ⊢
    rw [h.reports_eq_nil hnone]
    exact ⟨htracks, .nil, by simp⟩
  · -- the open bucket goes on
    rw [heq] at htracks ⊢
    simp only [Option.toList_none, List.append_nil]
    exact ⟨htracks, h.ascending, h.below⟩
  · -- the open bucket is reported: the old reports are behind it, and it is behind the new one
    rw [h.tracks.grid] at hne
    have hlt := h.lt_start hfits hlate hsome hne
    have hbelow : ∀ report ∈ reports, report.timestamp < bucket := by
      intro report hreport
      obtain ⟨bucket', hbucket', hless⟩ := h.below report hreport
      rw [hsome] at hbucket'
      cases hbucket'
      exact hless
    refine ⟨htracks, ?_, ?_⟩
    · rw [heq, Option.toList_some, List.pairwise_append]
      refine ⟨h.ascending, List.pairwise_singleton _ _, fun report hreport closed hclosed => ?_⟩
      rw [List.mem_singleton.1 hclosed]
      exact hbelow report hreport
    · intro report hreport
      refine ⟨_, hopen, ?_⟩
      rw [heq, Option.toList_some, List.mem_append, List.mem_singleton] at hreport
      rcases hreport with hreport | rfl
      · exact Int64.lt_trans (hbelow report hreport) hlt
      · exact hlt

theorem orderly_offerAll (g : Grid) (fresh : σ) (samples : List (Sample α))
    (hfits : ∀ sample ∈ kept samples, g.Fits sample.timestamp) :
    Orderly g (kept samples) ((start g fresh : Rule σ α).offerAll (β := β) samples).1
      ((start g fresh : Rule σ α).offerAll (β := β) samples).2 :=
  offerAll_induct (β := β)
    (P := fun accepted reports (r : Rule σ α) =>
      (∀ s ∈ accepted, g.Fits s.timestamp) → Orderly g accepted reports r)
    (fun _ _ _ _ _ hlate h hfits =>
      (h fun s hs => hfits s (List.mem_append_left _ hs)).accept hfits hlate)
    [] [] rfl (fun _ => orderly_start g fresh) samples hfits

end Rule

/-! ## Counting -/

/-- The double for a number of samples. -/
def countValue (n : Nat) : Binary64 := ((n : Int) : Binary64)

theorem countValue_zero : countValue 0 = .zero false := Binary64.intCast_zero

/-- Numbers of samples are added without rounding. -/
theorem countValue_add {m n : Nat} (hfew : m + n ≤ 2 ^ 53) :
    countValue m + countValue n = countValue (m + n) := by
  refine Binary64.intCast_add ?_ ?_
  · rw [Int.natAbs_natCast]
    exact le_trans (Nat.le_add_right m n) hfew
  · rw [Int.natAbs_natCast]
    exact le_trans (Nat.le_add_left n m) hfew

theorem isFinite_countValue {n : Nat} (hfew : n ≤ 2 ^ 53) : (countValue n).isFinite = true :=
  Binary64.isFinite_intCast (by rwa [Int.natAbs_natCast])

theorem toUnits_countValue {n : Nat} (hfew : n ≤ 2 ^ 53) :
    (countValue n).toUnits = n * Binary64.unitsPerOne :=
  Binary64.toUnits_intCast (by rwa [Int.natAbs_natCast])

theorem isFinite_of_mem_counts {counts : List Nat} (hfew : counts.sum ≤ 2 ^ 53) :
    ∀ x ∈ counts.map countValue, x.isFinite = true := by
  induction counts with
  | nil => simp
  | cons n rest ih =>
    rw [List.sum_cons] at hfew
    rw [List.map_cons, List.forall_mem_cons]
    exact ⟨isFinite_countValue (by omega), ih (by omega)⟩

theorem sum_toUnits_counts {counts : List Nat} (hfew : counts.sum ≤ 2 ^ 53) :
    ((counts.map countValue).map Binary64.toUnits).sum = counts.sum * Binary64.unitsPerOne := by
  induction counts with
  | nil => simp
  | cons n rest ih =>
    rw [List.sum_cons] at hfew ⊢
    rw [List.map_cons, List.map_cons, List.sum_cons, toUnits_countValue (by omega), ih (by omega),
      Int.natCast_add, Int.add_mul]

theorem foldl_add_counts (start : Nat) (counts : List Nat) (hfew : start + counts.sum ≤ 2 ^ 53) :
    (counts.map countValue).foldl (· + ·) (countValue start) = countValue (start + counts.sum) := by
  induction counts generalizing start with
  | nil => rfl
  | cons n rest ih =>
    rw [List.sum_cons] at hfew ⊢
    rw [List.map_cons, List.foldl_cons, countValue_add (by omega), ih _ (by omega), Nat.add_assoc]

namespace CompactionRule

/-- Every accepted sample is counted in one report or in the open bucket. -/
structure Tallied (accepted : List (Sample Binary64)) (reports : List (Sample Binary64))
    (r : CompactionRule) (counts : List Nat) (running : Nat) : Prop where
  accumulator : r.accumulator = .tally .count ⟨countValue running⟩
  values : reports.map Sample.value = counts.map countValue
  total : counts.sum + running = accepted.length
  running_eq : r.openBucket = none → running = 0

theorem tallied_start (g : Grid) : Tallied [] [] (.start g (.fresh .count false)) [] 0 where
  accumulator := by
    rw [countValue_zero]
    rfl
  values := rfl
  total := rfl
  running_eq _ := rfl

theorem accumulator_openWith_count (r : CompactionRule) (x : Binary64) (start : Timestamp)
    (sample : Sample Binary64) :
    (r.openWith (.tally .count ⟨x⟩) start sample).accumulator
      = .tally .count ⟨x + countValue 1⟩ := by
  unfold Rule.openWith Accumulator.enter
  cases r.lastSample <;> rfl

theorem Tallied.accept {accepted reports : List (Sample Binary64)} {r : CompactionRule}
    {counts : List Nat} {running : Nat} (h : Tallied accepted reports r counts running)
    (hfew : accepted.length < 2 ^ 53) (sample : Sample Binary64) :
    ∃ counts' running', Tallied (accepted ++ [sample]) (reports ++ (r.accept sample).1.toList)
      (r.accept (β := Binary64) sample).2 counts' running' := by
  have htotal := h.total
  have hlength : (accepted ++ [sample]).length = accepted.length + 1 := List.length_append
  have hone : countValue running + countValue 1 = countValue (running + 1) :=
    countValue_add (by omega)
  rcases r.accept_cases (β := Binary64) sample with ⟨-, heq⟩ | ⟨hsame, heq⟩ | ⟨bucket, -, -, heq⟩
  · refine ⟨counts, running + 1, ?_, ?_, by omega, ?_⟩
    · rw [heq, h.accumulator, accumulator_openWith_count, hone]
    · rw [heq, Option.toList_none, List.append_nil, h.values]
    · rw [heq]
      exact fun hnone => absurd hnone (Option.some_ne_none _)
  · refine ⟨counts, running + 1, ?_, ?_, by omega, ?_⟩
    · rw [heq, ← hone]
      dsimp only
      rw [h.accumulator]
      rfl
    · rw [heq, Option.toList_none, List.append_nil, h.values]
    · rw [heq]
      exact fun hnone => absurd (hsame.symm.trans hnone) (Option.some_ne_none _)
  · -- the open count is reported, and counting starts again with the new sample
    have hleave : Accumulator.leave r.accumulator bucket sample
        = (⟨bucket, countValue running⟩, .tally .count ⟨countValue 0⟩) := by
      rw [h.accumulator, countValue_zero]
      rfl
    refine ⟨counts ++ [running], 1, ?_, ?_, ?_, ?_⟩
    · rw [heq, hleave, accumulator_openWith_count, countValue_add (by decide)]
    · rw [heq, hleave, Option.toList_some, List.map_append, List.map_append, h.values]
      rfl
    · rw [List.sum_append, List.sum_singleton]
      omega
    · rw [heq]
      exact fun hnone => absurd hnone (Option.some_ne_none _)

theorem tallied_offerAll (g : Grid) (samples : List (Sample Binary64))
    (hfew : (kept samples).length < 2 ^ 53) :
    let new : CompactionRule := .start g (.fresh .count false)
    ∃ counts running, Tallied (kept samples) (new.offerAll samples).1 (new.offerAll samples).2
      counts running :=
  Rule.offerAll_induct (β := Binary64)
    (P := fun accepted reports (r : CompactionRule) =>
      accepted.length < 2 ^ 53 → ∃ counts running, Tallied accepted reports r counts running)
    (fun accepted _ _ sample _ _ h hfew => by
      have hlength : (accepted ++ [sample]).length = accepted.length + 1 := List.length_append
      obtain ⟨counts, running, htallied⟩ := h (by omega)
      exact htallied.accept (by omega) sample)
    [] [] rfl (fun _ => ⟨[], 0, tallied_start g⟩) samples hfew

/-- The flushed report counts what is counted in the open bucket. -/
theorem Tallied.exists_counts {accepted reports : List (Sample Binary64)} {r : CompactionRule}
    {counts : List Nat} {running : Nat} (h : Tallied accepted reports r counts running) :
    ∃ counts' : List Nat,
      (reports ++ r.flush.toList).map Sample.value = counts'.map countValue ∧
        counts'.sum = accepted.length := by
  have htotal := h.total
  cases hopen : r.openBucket with
  | none =>
    have hzero := h.running_eq hopen
    refine ⟨counts, ?_, by omega⟩
    rw [Rule.flush, hopen, Option.map_none, Option.toList_none, List.append_nil, h.values]
  | some bucket =>
    refine ⟨counts ++ [running], ?_, ?_⟩
    · rw [Rule.flush, hopen, Option.map_some, Option.toList_some, List.map_append, List.map_append,
        h.values, h.accumulator]
      rfl
    · rw [List.sum_append, List.sum_singleton]
      exact htotal

end CompactionRule

/-- **Reports are in order and miss nothing.** Whatever is pushed on a rule, as long as the
distances of the accepted samples from the alignment fit: the open bucket is that of the last
accepted sample, and the reports are stamped in strictly ascending order and before the open bucket,
so no bucket is reported twice or late. A rule that counts, and has accepted fewer than `2⁵³`
samples, has reported finite numbers which together with the flushed one add up to the number of
samples, in exact units as well as in double arithmetic. -/
theorem CompactionRule.reports_ascending_and_complete (kind : Aggregation) (g : Grid)
    (pushes : List (Sample Binary64)) (hfits : ∀ sample ∈ kept pushes, g.Fits sample.timestamp) :
    ∃ (new rule : CompactionRule) (reports : List (Sample Binary64)),
      CompactionRule.make kind g.duration g.alignment = .ok new ∧
      new.offerAll pushes = (reports, rule) ∧
      rule.openBucket = (kept pushes).getLast?.map (fun last =>
        bucketStart last.timestamp g.duration g.alignment) ∧
      reports.Pairwise (fun a b => a.timestamp < b.timestamp) ∧
      (∀ report ∈ reports, ∃ bucket, rule.openBucket = some bucket ∧ report.timestamp < bucket) ∧
      (kind = .count → (kept pushes).length < 2 ^ 53 →
        (∀ x ∈ (reports ++ rule.flush.toList).map Sample.value, x.isFinite = true) ∧
        (((reports ++ rule.flush.toList).map Sample.value).map Binary64.toUnits).sum
          = (kept pushes).length * Binary64.unitsPerOne ∧
        ((reports ++ rule.flush.toList).map Sample.value).foldl (· + ·) (.zero false)
          = (((kept pushes).length : Int) : Binary64)) := by
  have horderly :=
    Rule.orderly_offerAll (β := Binary64) g (Aggregator.fresh kind false) pushes hfits
  refine ⟨_, _, _, CompactionRule.make_of_grid kind g, rfl, horderly.tracks.openBucket,
    horderly.ascending, horderly.below, ?_⟩
  rintro rfl hlength
  obtain ⟨_, _, htallied⟩ := CompactionRule.tallied_offerAll g pushes hlength
  obtain ⟨counts, hvalues, hsum⟩ := htallied.exists_counts
  rw [← hsum] at hlength ⊢
  rw [hvalues]
  refine ⟨isFinite_of_mem_counts hlength.le, sum_toUnits_counts hlength.le, ?_⟩
  have hfold := foldl_add_counts 0 counts (by omega)
  rw [countValue_zero, Nat.zero_add] at hfold
  exact hfold

/-- Samples in the lowest bucket of a hundred, which is stamped with the least timestamp, and in two
buckets far above it; the one before the last comes too late. -/
def fromLowest : List (Sample Binary64) :=
  [-0x8000000000000000, -0x7ffffffffffffff9, 30, 10, 250].map (⟨·, .zero false⟩)

/-- Four of the five samples are accepted, and all four are counted. -/
theorem CompactionRule.reports_ascending_and_complete_fromLowest :
    ∃ (new rule : CompactionRule) (reports : List (Sample Binary64)),
      CompactionRule.make .count 100 0 = .ok new ∧ new.offerAll fromLowest = (reports, rule) ∧
      reports.Pairwise (fun a b => a.timestamp < b.timestamp) ∧
      rule.openBucket = some 200 ∧
      ((reports ++ rule.flush.toList).map Sample.value).foldl (· + ·) (.zero false)
        = ((4 : Int) : Binary64) := by
  have hkept : kept fromLowest
      = [⟨-0x8000000000000000, .zero false⟩, ⟨-0x7ffffffffffffff9, .zero false⟩,
          ⟨30, .zero false⟩, ⟨250, .zero false⟩] := by
    decide
  have hfits : ∀ sample ∈ kept fromLowest, Grid.hundreds.Fits sample.timestamp := by
    rw [hkept]
    simp only [List.forall_mem_cons]
    exact ⟨⟨by decide, by decide⟩, ⟨by decide, by decide⟩, ⟨by decide, by decide⟩,
      ⟨by decide, by decide⟩, nofun⟩
  obtain ⟨new, rule, reports, hmake, hrun, hopen, hascending, -, hcount⟩ :=
    reports_ascending_and_complete .count Grid.hundreds fromLowest hfits
  rw [hkept] at hopen hcount
  exact ⟨new, rule, reports, hmake, hrun, hascending, hopen, (hcount rfl (by decide)).2.2⟩

end Rollup
