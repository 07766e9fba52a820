import Rollup.Proofs.Bucket.Drivers
import Rollup.Proofs.Bucket.Recycling

/-!
# The runs of a rule

Samples are offered to a rule in any order. The refused ones are those that are earlier than the
last accepted one, and they leave no trace: the rule goes on as if it had been offered the accepted
samples alone (`offerAll_kept`). Cut into maximal runs of one bucket each, the accepted samples give
one report per run, and each of them is folded from a fresh state out of the run and the two samples
next to it (`offerAll_reports`).
-/

namespace Rollup

/-! ## Accepted samples -/

/-- A sample is late if it is earlier than the last accepted one. -/
def IsLate {α : Type} (last : Option (Sample α)) (sample : Sample α) : Prop :=
  ∃ accepted, last = some accepted ∧ sample.timestamp < accepted.timestamp

instance {α : Type} (last : Option (Sample α)) (sample : Sample α) :
    Decidable (IsLate last sample) :=
  match last with
  | none => isFalse (by rintro ⟨_, h, _⟩; cases h)
  | some accepted =>
    if h : sample.timestamp < accepted.timestamp then isTrue ⟨accepted, rfl, h⟩
    else isFalse (by rintro ⟨_, heq, hlt⟩; cases heq; exact h hlt)

/-- The samples that are not late, where `last` is the last one accepted before them. -/
def keptAfter {α : Type} (last : Option (Sample α)) : List (Sample α) → List (Sample α)
  | [] => []
  | sample :: rest =>
    if IsLate last sample then keptAfter last rest else sample :: keptAfter (some sample) rest

/-- The samples of a series that a new rule accepts. -/
def kept {α : Type} (samples : List (Sample α)) : List (Sample α) := keptAfter none samples

theorem isLate_some {α : Type} {last sample : Sample α} :
    IsLate (some last) sample ↔ sample.timestamp < last.timestamp := by
  constructor
  · rintro ⟨_, heq, hlt⟩
    cases heq
    exact hlt
  · intro hlt
    exact ⟨last, rfl, hlt⟩

theorem keptAfter_ascending {α : Type} (last : Sample α) (samples : List (Sample α)) :
    Downsampling.firstDescent (last :: keptAfter (some last) samples) = none := by
  induction samples generalizing last with
  | nil => rfl
  | cons sample rest ih =>
    rw [keptAfter]
    by_cases hlate : IsLate (some last) sample
    · rw [if_pos hlate]
      exact ih last
    · rw [if_neg hlate, Downsampling.firstDescent, if_neg (fun h => hlate (isLate_some.2 h))]
      exact ih sample

theorem kept_cons {α : Type} (sample : Sample α) (rest : List (Sample α)) :
    kept (sample :: rest) = sample :: keptAfter (some sample) rest := by
  have hnot : ¬IsLate none sample := by
    rintro ⟨_, h, _⟩
    cases h
  rw [kept, keptAfter, if_neg hnot]

theorem kept_ascending {α : Type} (samples : List (Sample α)) :
    Downsampling.firstDescent (kept samples) = none := by
  cases samples with
  | nil => rfl
  | cons sample rest =>
    rw [kept_cons]
    exact keptAfter_ascending sample rest

namespace Rule

variable {σ α β : Type} [Accumulator σ α β]

/-! ## Offers -/

/-- Offers a sample: the report of the bucket it closes, if it closes one, and the rule behind it,
which is the rule as it was if the sample is refused. -/
def offer (r : Rule σ α) (sample : Sample α) : Option (Sample β) × Rule σ α :=
  match r.push sample with
  | .ok result => result
  | .error _ => (none, r)

/-- Offers samples one after another: all that is reported, and the rule at the end. -/
def offerAll (r : Rule σ α) : List (Sample α) → List (Sample β) × Rule σ α
  | [] => ([], r)
  | sample :: rest =>
    let (closed, next) := r.offer sample
    let (reports, final) := next.offerAll rest
    (closed.toList ++ reports, final)

theorem push_of_late (r : Rule σ α) {sample last : Sample α} (hlast : r.lastSample = some last)
    (hlt : sample.timestamp < last.timestamp) :
    r.push (β := β) sample = .error (.outOfOrder sample.timestamp last.timestamp) := by
  rw [push, hlast]
  exact if_pos hlt

theorem push_of_not_late (r : Rule σ α) {sample : Sample α}
    (h : ¬IsLate r.lastSample sample) : r.push (β := β) sample = .ok (r.accept sample) := by
  unfold push
  cases hlast : r.lastSample with
  | none => rfl
  | some last =>
    rw [hlast, isLate_some] at h
    exact if_neg h

/-- Refused samples leave no trace. -/
theorem offerAll_kept (r : Rule σ α) (samples : List (Sample α)) :
    r.offerAll (β := β) samples = r.offerAll (keptAfter r.lastSample samples) := by
  induction samples generalizing r with
  | nil => rfl
  | cons sample rest ih =>
    rw [keptAfter]
    by_cases hlate : IsLate r.lastSample sample
    · obtain ⟨last, hlast, hlt⟩ := hlate
      rw [if_pos ⟨last, hlast, hlt⟩, offerAll, offer, push_of_late r hlast hlt]
      exact ih r
    · rw [if_neg hlate, offerAll, offerAll, offer, push_of_not_late r hlate]
      dsimp only
      rw [ih (r.accept sample).2, lastSample_accept]

theorem offerAll_of_pushAll {r final : Rule σ α} {samples : List (Sample α)}
    {reports : List (Sample β)} (h : r.pushAll samples = (reports, final, none)) :
    r.offerAll samples = (reports, final) := by
  induction samples generalizing r reports with
  | nil =>
    cases h
    rfl
  | cons sample rest ih =>
    rw [pushAll] at h
    rw [offerAll, offer]
    cases hpush : r.push (β := β) sample with
    | error fault =>
      rw [hpush] at h
      cases h
    | ok result =>
      rw [hpush] at h
      obtain ⟨rfl, h'⟩ := Prod.mk.inj h
      obtain ⟨hfinal, hnone⟩ := Prod.mk.inj h'
      have hrest : result.2.pushAll (β := β) rest
          = ((result.2.pushAll (β := β) rest).1, final, none) :=
        Prod.ext rfl (Prod.ext hfinal hnone)
      dsimp only
      rw [ih hrest]

/-- What holds of the accepted samples, the reports and the rule, and goes on to hold with every
sample that is accepted, holds after all offers. -/
theorem offerAll_induct {P : List (Sample α) → List (Sample β) → Rule σ α → Prop}
    (hstep : ∀ accepted reports (r : Rule σ α) sample, r.lastSample = accepted.getLast? →
      ¬IsLate accepted.getLast? sample → P accepted reports r →
      P (accepted ++ [sample]) (reports ++ (r.accept sample).1.toList) (r.accept (β := β) sample).2)
    (accepted : List (Sample α)) (reports : List (Sample β)) {r : Rule σ α}
    (hlast : r.lastSample = accepted.getLast?) (h : P accepted reports r)
    (samples : List (Sample α)) :
    P (accepted ++ keptAfter accepted.getLast? samples)
      (reports ++ (r.offerAll (β := β) samples).1) (r.offerAll (β := β) samples).2 := by
  induction samples generalizing accepted reports r with
  | nil =>
    rw [keptAfter, List.append_nil, offerAll, List.append_nil]
    exact h
  | cons sample rest ih =>
    rw [keptAfter, offerAll, offer]
    by_cases hlate : IsLate accepted.getLast? sample
    · obtain ⟨last, heq, hlt⟩ := hlate
      rw [if_pos ⟨last, heq, hlt⟩, push_of_late r (hlast.trans heq) hlt]
      exact ih _ _ hlast h
    · rw [if_neg hlate, push_of_not_late r (hlast ▸ hlate)]
      have hnext : (r.accept (β := β) sample).2.lastSample = (accepted ++ [sample]).getLast? := by
        rw [lastSample_accept, List.getLast?_concat]
      have hrest := ih _ _ hnext (hstep accepted reports r sample hlast hlate h)
      rw [List.getLast?_concat, List.append_assoc, List.append_assoc] at hrest
      exact hrest

/-- What a rule does with a sample in order: it opens the first bucket, or the bucket that is open
goes on, or that one is closed and the next one is opened. -/
theorem accept_cases (r : Rule σ α) (sample : Sample α) :
    (r.openBucket = none ∧ r.accept (β := β) sample
      = (none, r.openWith r.accumulator (r.grid.start sample.timestamp) sample)) ∨
    (r.openBucket = some (r.grid.start sample.timestamp) ∧ r.accept (β := β) sample
      = (none, { r with
          accumulator := Accumulator.append r.accumulator sample
          lastSample := some sample })) ∨
    ∃ bucket, r.openBucket = some bucket ∧ bucket ≠ r.grid.start sample.timestamp ∧
      r.accept (β := β) sample = (some (Accumulator.leave r.accumulator bucket sample).1,
        r.openWith (Accumulator.leave r.accumulator bucket sample).2
          (r.grid.start sample.timestamp) sample) := by
  unfold accept
  cases hopen : r.openBucket with
  | none => exact .inl ⟨rfl, rfl⟩
  | some bucket =>
    dsimp only
    split
    · next hsame => exact .inr (.inl ⟨congrArg some hsame, rfl⟩)
    · next hother => exact .inr (.inr ⟨bucket, rfl, hother, rfl⟩)

/-! ## What a rule remembers -/

/-- The rule has its bucket open where the last accepted sample lies. -/
structure Tracks (g : Grid) (last : Option (Sample α)) (r : Rule σ α) : Prop where
  grid : r.grid = g
  lastSample : r.lastSample = last
  openBucket : r.openBucket = last.map fun sample => g.start sample.timestamp

theorem Tracks.accept {g : Grid} {last : Option (Sample α)} {r : Rule σ α} (h : r.Tracks g last)
    (sample : Sample α) : (r.accept (β := β) sample).2.Tracks g (some sample) := by
  have hopened : some (r.grid.start sample.timestamp) = some (g.start sample.timestamp) := by
    rw [h.grid]
  rcases r.accept_cases (β := β) sample with ⟨-, heq⟩ | ⟨hsame, heq⟩ | ⟨_, -, -, heq⟩
  · rw [heq]
    exact ⟨h.grid, rfl, hopened⟩
  · rw [heq]
    exact ⟨h.grid, rfl, hsame.trans hopened⟩
  · rw [heq]
    exact ⟨h.grid, rfl, hopened⟩

theorem Tracks.offerAll {g : Grid} {accepted : List (Sample α)} {r : Rule σ α}
    (h : r.Tracks g accepted.getLast?) (samples : List (Sample α)) :
    (r.offerAll (β := β) samples).2.Tracks g
      (accepted ++ keptAfter accepted.getLast? samples).getLast? :=
  offerAll_induct (β := β)
    (P := fun accepted (_ : List (Sample β)) (r : Rule σ α) => r.Tracks g accepted.getLast?)
    (fun accepted _ r sample _ _ h => by
      rw [List.getLast?_concat]
      exact h.accept sample)
    accepted [] h.lastSample h samples

theorem Tracks.push_eq_error_iff {g : Grid} {last : Option (Sample α)} {r : Rule σ α}
    (h : r.Tracks g last) (sample : Sample α) (fault : Fault) :
    r.push (β := β) sample = .error fault ↔ ∃ accepted, last = some accepted ∧
      sample.timestamp < accepted.timestamp ∧
      fault = .outOfOrder sample.timestamp accepted.timestamp := by
  constructor
  · intro herr
    by_cases hlate : IsLate last sample
    · obtain ⟨accepted, rfl, hlt⟩ := hlate
      rw [push_of_late r h.lastSample hlt] at herr
      exact ⟨accepted, rfl, hlt, (Except.error.inj herr).symm⟩
    · rw [push_of_not_late r (h.lastSample ▸ hlate)] at herr
      cases herr
  · rintro ⟨accepted, rfl, hlt, rfl⟩
    exact push_of_late r h.lastSample hlt

/-- An accepted push reports exactly if its sample lies in another bucket than the last one. -/
theorem Tracks.push_isSome_iff {g : Grid} {last : Option (Sample α)} {r : Rule σ α}
    (h : r.Tracks g last) {sample : Sample α} {closed : Option (Sample β)} {next : Rule σ α}
    (hpush : r.push sample = .ok (closed, next)) :
    closed.isSome = true ↔ ∃ accepted, last = some accepted ∧
      g.start accepted.timestamp ≠ g.start sample.timestamp := by
  have hnot : ¬IsLate r.lastSample sample := by
    rintro ⟨accepted, hlast, hlt⟩
    rw [push_of_late r hlast hlt] at hpush
    cases hpush
  rw [push_of_not_late r hnot] at hpush
  obtain ⟨rfl, -⟩ := Prod.mk.inj (Except.ok.inj hpush)
  rw [h.openBucket, h.grid]
  cases last with
  | none => simp
  | some accepted =>
    dsimp only [Option.map_some]
    by_cases hsame : g.start accepted.timestamp = g.start sample.timestamp
    · simp [hsame]
    · simp [hsame]

/-! ## What a rule reports -/

/-- The reports of a new rule, with that of the open bucket, are those of the visits to the runs of
the accepted samples. -/
theorem offerAll_start (g : Grid) {fresh : σ} {own : σ → Prop} (hrec : Recyclable fresh own)
    (samples : List (Sample α)) :
    ∃ reports final, (start g fresh : Rule σ α).offerAll samples = (reports, final) ∧
      final.Tracks g (kept samples).getLast? ∧
      reports ++ final.flush.toList
        = (Downsampling.visits ⟨g, false, false⟩ none none (g.runs (kept samples))).map
            (Visit.report g fresh) := by
  obtain ⟨reports, final, hpush, hwalk⟩ := pushAll_start (β := β) g fresh (kept samples)
    (kept_ascending samples)
  have hoffer : (start g fresh : Rule σ α).offerAll samples = (reports, final) := by
    rw [offerAll_kept]
    exact offerAll_of_pushAll hpush
  have htracks : (start g fresh : Rule σ α).Tracks g ([] : List (Sample α)).getLast? :=
    ⟨rfl, rfl, rfl⟩
  refine ⟨reports, final, hoffer, ?_, ?_⟩
  · have hfinal := htracks.offerAll (β := β) samples
    rw [hoffer] at hfinal
    exact hfinal
  · rw [hwalk]
    exact Downsampling.reports_eq_visits ⟨g, false, false⟩ hrec
      (fun h => absurd h Bool.false_ne_true) (kept samples)

theorem Tracks.flush_isSome_iff {g : Grid} {samples : List (Sample α)} {r : Rule σ α}
    (h : r.Tracks g (kept samples).getLast?) :
    (r.flush (β := β)).isSome = true ↔ samples ≠ [] := by
  rw [flush, Option.isSome_map, h.openBucket, Option.isSome_map]
  cases samples with
  | nil => exact ⟨fun hsome => absurd hsome Bool.false_ne_true, fun hne => absurd rfl hne⟩
  | cons sample rest =>
    rw [kept_cons, List.getLast?_cons]
    exact ⟨fun _ => List.cons_ne_nil _ _, fun _ => rfl⟩

end Rule

/-- **One report per run, folded from nothing else.** A push on a rule is refused exactly if its
sample is earlier than the last accepted one, and refused pushes change nothing. The accepted
samples fall into runs that share a bucket. A push reports exactly if it starts a run that is not
the first, so every run but the last has been reported, and flushing reports the last. The report of
a run is that of a fresh aggregator, fed with the last sample before the run, the edges of its
bucket, its samples and the first sample behind it. -/
theorem CompactionRule.offerAll_reports (kind : Aggregation) (g : Grid)
    (pushes : List (Sample Binary64)) :
    ∃ (new rule : CompactionRule) (reports : List (Sample Binary64)),
      CompactionRule.make kind g.duration g.alignment = .ok new ∧
      new.offerAll pushes = (reports, rule) ∧ new.offerAll (kept pushes) = (reports, rule) ∧
      (∀ sample fault, rule.push sample = .error fault ↔
        ∃ last, (kept pushes).getLast? = some last ∧ sample.timestamp < last.timestamp ∧
          fault = .outOfOrder sample.timestamp last.timestamp) ∧
      (∀ sample fault, rule.push sample = .error fault → rule.offer sample = (none, rule)) ∧
      (∀ sample closed next, rule.push sample = .ok (closed, next) →
        (closed.isSome = true ↔ ∃ last, (kept pushes).getLast? = some last ∧
          g.start last.timestamp ≠ g.start sample.timestamp)) ∧
      (rule.flush.isSome = true ↔ pushes ≠ []) ∧
      (reports ++ rule.flush.toList).length = (g.runs (kept pushes)).length ∧
      ∀ i first others, (g.runs (kept pushes))[i]? = some (first :: others) →
        (reports ++ rule.flush.toList)[i]?
          = some (Visit.report g (Aggregator.fresh kind false)
              ⟨g.start first.timestamp, ((g.runs (kept pushes)).take i).flatten.getLast?,
                first :: others, ((g.runs (kept pushes)).drop (i + 1)).flatten.head?⟩) := by
  obtain ⟨reports, rule, hoffer, htracks, hreports⟩ :=
    Rule.offerAll_start g (Aggregator.recyclable kind false) pushes
  have hmake : CompactionRule.make kind g.duration g.alignment
      = .ok (.start g (.fresh kind false)) := by
    rw [CompactionRule.make, Grid.make_of_pos g.alignment g.duration_pos]
    rfl
  have hne : [] ∉ g.runs (kept pushes) := List.nil_notMem_splitBy _ _
  refine ⟨_, rule, reports, hmake, hoffer, ?_, htracks.push_eq_error_iff, ?_, ?_,
    htracks.flush_isSome_iff, ?_, ?_⟩
  · rw [← hoffer]
    exact (Rule.offerAll_kept (Rule.start g (Aggregator.fresh kind false)) pushes).symm
  · intro sample fault hfault
    rw [Rule.offer, hfault]
  · intro sample closed next hpush
    exact htracks.push_isSome_iff hpush
  · rw [hreports, List.length_map, Downsampling.length_visits _ rfl none none _ hne]
  · intro i first others hi
    rw [hreports, List.getElem?_map, Downsampling.getElem?_visits _ rfl none none _ hne i hi,
      Option.or_none, Option.or_none]
    rfl

end Rollup
