import Rollup.Proofs.Aggregator.Counts
import Rollup.Proofs.Bucket.Runs
import Rollup.Proofs.Encoding.States

/-!
# Saving and reloading between operations

A session is a sequence of operations on a state, between which the state may be stored and read
back at any points. It returns what the operations return without the reloads (`session_eq_play`),
as long as every state that is reloaded is read back from its own bytes. That holds of the
aggregators whose counts the layout has room for, and of the rules that take in fewer than `2⁵³`
samples per bucket (`CompactionRule.storable_play`), so their reloads do not show
(`reloads_invisible`).
-/

namespace Rollup

/-! ## Sessions -/

/-- An operation, or the state stored and read back. -/
inductive Step (ω : Type) where
  | run (operation : ω)
  | reload

/-- The operations of a session. -/
def Step.operations {ω : Type} : List (Step ω) → List ω
  | [] => []
  | run operation :: rest => operation :: operations rest
  | reload :: rest => operations rest

theorem Step.operations_reload {ω : Type} (front back : List (Step ω)) :
    operations (front ++ reload :: back) = operations front ++ operations back := by
  induction front with
  | nil => rfl
  | cons step rest ih =>
    cases step with
    | run operation => exact congrArg (operation :: ·) ih
    | reload => exact ih

section

variable {σ ω ρ : Type} (perform : σ → ω → ρ × σ) (restore : σ → Except Fault σ)

/-- The results of operations one after another, and the state behind the last of them. -/
def play (s : σ) : List ω → List ρ × σ
  | [] => ([], s)
  | operation :: rest =>
    let (result, next) := perform s operation
    let (results, last) := play next rest
    (result :: results, last)

/-- The results of a session and the state behind it, or the fault of the reload that failed. -/
def session (s : σ) : List (Step ω) → Except Fault (List ρ × σ)
  | [] => .ok ([], s)
  | .run operation :: rest => do
    let (result, next) := perform s operation
    let (results, last) ← session next rest
    return (result :: results, last)
  | .reload :: rest => do
    let restored ← restore s
    session restored rest

/-- Reloads that give back the state they are made in do not show. -/
theorem session_eq_play (s : σ) (steps : List (Step ω))
    (hrestore : ∀ front back, steps = front ++ .reload :: back →
      restore (play perform s (Step.operations front)).2
        = .ok (play perform s (Step.operations front)).2) :
    session perform restore s steps = .ok (play perform s (Step.operations steps)) := by
  induction steps generalizing s with
  | nil => rfl
  | cons step rest ih =>
    cases step with
    | run operation =>
      have hrest := ih (perform s operation).2 fun front back heq =>
        hrestore (.run operation :: front) back (congrArg (Step.run operation :: ·) heq)
      rw [session, Step.operations, play]
      dsimp only
      rw [hrest]
      rfl
    | reload =>
      have hhere : restore s = .ok s := hrestore [] rest rfl
      have hrest := ih s fun front back heq =>
        hrestore (.reload :: front) back (congrArg (Step.reload :: ·) heq)
      rw [session, Step.operations, hhere]
      exact hrest

end

/-! ## Aggregators -/

namespace Aggregator

inductive Operation where
  | append (sample : Sample Binary64)
  | appendAll (values : List Binary64)
  | setEdges (low high : Timestamp)
  | precededBy (sample : Sample Binary64)
  | followedBy (sample : Sample Binary64)
  | reset
  | finalize

/-- What an operation returns, and the state behind it. An operation that fails changes nothing. -/
def perform (s : Aggregator) : Operation → Except Fault (Option Binary64) × Aggregator
  | .append sample => (.ok none, s.append sample)
  | .appendAll values =>
    match s.appendAll values with
    | .ok next => (.ok none, next)
    | .error fault => (.error fault, s)
  | .setEdges low high => (.ok none, s.setEdges low high)
  | .precededBy sample => (.ok none, s.precededBy sample)
  | .followedBy sample => (.ok none, s.followedBy sample)
  | .reset => (.ok none, s.reset)
  | .finalize => (s.result.map some, s)

/-- Stores the state and reads it back as one of its own aggregation. -/
def restore (s : Aggregator) : Except Fault Aggregator := ofBytes s.kind s.toBytes .latest

theorem storable_of_count_le {s : Aggregator} (h : s.count ≤ 2 ^ 53) : s.Storable := by
  cases s with
  | tally fold state => trivial
  | extreme report state => trivial
  | first state => trivial
  | mean state => exact h
  | spread report state => exact Nat.lt_of_le_of_lt h (by decide)
  | timeWeighted state => exact Nat.lt_of_le_of_lt h (by decide)

/-- Reloads do not show as long as they are made in states that the layout has room for. -/
theorem session_restore (s : Aggregator) (steps : List (Step Operation))
    (hstorable : ∀ front back, steps = front ++ .reload :: back →
      (play perform s (Step.operations front)).2.Storable) :
    session perform restore s steps = .ok (play perform s (Step.operations steps)) :=
  session_eq_play perform restore s steps fun front back heq =>
    ofBytes_toBytes (hstorable front back heq)

end Aggregator

/-! ## Rules -/

/-- The number of samples that lie in the bucket at `start`. -/
def Grid.population (g : Grid) (samples : List (Sample Binary64)) (start : Timestamp) : Nat :=
  samples.countP fun sample => g.start sample.timestamp = start

theorem keptAfter_append {α : Type} (last : Option (Sample α)) (front back : List (Sample α)) :
    keptAfter last (front ++ back) = keptAfter last front
      ++ keptAfter ((keptAfter last front).getLast?.or last) back := by
  induction front generalizing last with
  | nil => rfl
  | cons sample rest ih =>
    rw [List.cons_append, keptAfter, keptAfter]
    by_cases hlate : IsLate last sample
    · rw [if_pos hlate, if_pos hlate, ih]
    · rw [if_neg hlate, if_neg hlate, ih, List.getLast?_cons, List.cons_append]
      cases (keptAfter (some sample) rest).getLast? <;> rfl

/-- What a rule accepts stays accepted. -/
theorem Grid.population_kept_le (g : Grid) (front back : List (Sample Binary64))
    (start : Timestamp) :
    g.population (kept front) start ≤ g.population (kept (front ++ back)) start := by
  rw [kept, kept, keptAfter_append, population, population, List.countP_append]
  exact Nat.le_add_right _ _

namespace CompactionRule

inductive Operation where
  | push (sample : Sample Binary64)
  | flush

/-- What an operation returns, and the rule behind it. A push that is refused changes nothing. -/
def perform (r : CompactionRule) :
    Operation → Except Fault (Option (Sample Binary64)) × CompactionRule
  | .push sample =>
    match r.push sample with
    | .ok (closed, next) => (.ok closed, next)
    | .error fault => (.error fault, r)
  | .flush => (.ok r.flush, r)

/-- The samples that are pushed among other operations. -/
def pushed : List Operation → List (Sample Binary64)
  | [] => []
  | .push sample :: rest => sample :: pushed rest
  | .flush :: rest => pushed rest

/-- The samples that the rule has accepted, and its open bucket has counted no more of them than lie
in it. -/
structure Counts (g : Grid) (accepted : List (Sample Binary64)) (r : CompactionRule) : Prop where
  tracks : r.Tracks g accepted.getLast?
  count_le : r.accumulator.count
    ≤ accepted.countP fun sample => r.openBucket = some (g.start sample.timestamp)

theorem counts_start (kind : Aggregation) (g : Grid) :
    Counts g [] (.start g (.fresh kind false)) where
  tracks := ⟨rfl, rfl, rfl⟩
  count_le := Nat.le_of_eq (Aggregator.count_fresh kind false)

theorem count_openWith_le (r : CompactionRule) (s : Aggregator) (start : Timestamp)
    (sample : Sample Binary64) : (r.openWith s start sample).accumulator.count ≤ s.count + 1 := by
  refine (Aggregator.count_append_le _ sample).trans ?_
  rw [Aggregator.count_enter]

theorem Counts.accept {g : Grid} {accepted : List (Sample Binary64)} {r : CompactionRule}
    (h : Counts g accepted r) (sample : Sample Binary64) :
    Counts g (accepted ++ [sample]) (r.accept sample).2 := by
  have htracks := h.tracks.accept (β := Binary64) sample
  have hopen := htracks.openBucket
  refine ⟨by rw [List.getLast?_concat]; exact htracks, ?_⟩
  -- the new sample lies in the bucket that is open now
  rw [hopen, Option.map_some, List.countP_append, List.countP_singleton,
    if_pos (decide_eq_true rfl)]
  have hcount := h.count_le
  rcases r.accept_cases (β := Binary64) sample with ⟨hnone, heq⟩ | ⟨hsame, heq⟩ | ⟨bucket, -, -, heq⟩
  · have hzero : r.accumulator.count = 0 := by
      rw [hnone] at hcount
      simpa using hcount
    rw [heq]
    exact (count_openWith_le r r.accumulator _ sample).trans (by omega)
  · rw [hsame, h.tracks.grid] at hcount
    rw [heq]
    exact (Aggregator.count_append_le r.accumulator sample).trans (Nat.succ_le_succ hcount)
  · rw [heq]
    refine (count_openWith_le r _ _ sample).trans ?_
    show (r.accumulator.followedBy sample).reset.count + 1 ≤ _
    rw [Aggregator.count_reset]
    omega

theorem Counts.offerAll {g : Grid} {accepted : List (Sample Binary64)} {r : CompactionRule}
    (h : Counts g accepted r) (samples : List (Sample Binary64)) :
    Counts g (accepted ++ keptAfter accepted.getLast? samples) (r.offerAll samples).2 :=
  Rule.offerAll_induct (β := Binary64)
    (P := fun accepted (_ : List (Sample Binary64)) r => Counts g accepted r)
    (fun _ _ _ sample _ _ h => h.accept sample) accepted [] h.tracks.lastSample h samples

/-- As long as no bucket takes in more samples than a double counts, the rule can be stored. -/
theorem Counts.storable {g : Grid} {accepted : List (Sample Binary64)} {r : CompactionRule}
    (h : Counts g accepted r) (hfew : ∀ start, g.population accepted start < 2 ^ 53) :
    r.accumulator.Storable := by
  apply Aggregator.storable_of_count_le
  refine h.count_le.trans ?_
  cases r.openBucket with
  | none => simp
  | some bucket =>
    have hbucket := hfew bucket
    unfold Grid.population at hbucket
    simp only [Option.some.injEq, eq_comm] at hbucket ⊢
    exact Nat.le_of_lt hbucket

theorem play_perform (r : CompactionRule) (operations : List Operation) :
    (play perform r operations).2 = (r.offerAll (pushed operations)).2 := by
  induction operations generalizing r with
  | nil => rfl
  | cons operation rest ih =>
    cases operation with
    | push sample =>
      rw [play, pushed, Rule.offerAll, Rule.offer, perform]
      cases r.push (β := Binary64) sample with
      | ok result => exact ih result.2
      | error fault => exact ih r
    | flush => exact ih r

theorem pushed_append (front back : List Operation) :
    pushed (front ++ back) = pushed front ++ pushed back := by
  induction front with
  | nil => rfl
  | cons operation rest ih =>
    cases operation with
    | push sample => exact congrArg (sample :: ·) ih
    | flush => exact ih

theorem eq_start_of_make {kind : Aggregation} {duration alignment : Timestamp}
    {new : CompactionRule} (h : CompactionRule.make kind duration alignment = .ok new) :
    new = .start new.grid (.fresh kind false) := by
  unfold CompactionRule.make at h
  cases hgrid : Grid.make duration alignment with
  | error fault =>
    rw [hgrid] at h
    cases h
  | ok grid =>
    rw [hgrid] at h
    cases h
    rfl

/-- A rule can be stored after any of its operations, as long as no bucket takes in too many samples
up to the last of them. -/
theorem storable_play {kind : Aggregation} {duration alignment : Timestamp} {new : CompactionRule}
    (hnew : CompactionRule.make kind duration alignment = .ok new) (front back : List Operation)
    (hfew : ∀ start, new.grid.population (kept (pushed (front ++ back))) start < 2 ^ 53) :
    (play perform new front).2.accumulator.Storable := by
  have hcounts : Counts new.grid (kept (pushed front)) (play perform new front).2 := by
    rw [play_perform, eq_start_of_make hnew]
    exact (counts_start kind new.grid).offerAll (pushed front)
  refine hcounts.storable fun start => Nat.lt_of_le_of_lt ?_ (hfew start)
  rw [pushed_append]
  exact new.grid.population_kept_le (pushed front) (pushed back) start

/-- Reloads do not show as long as no bucket takes in too many samples. -/
theorem session_restore {kind : Aggregation} {duration alignment : Timestamp}
    {new : CompactionRule} (hnew : CompactionRule.make kind duration alignment = .ok new)
    (steps : List (Step Operation))
    (hfew : ∀ start,
      new.grid.population (kept (pushed (Step.operations steps))) start < 2 ^ 53) :
    session perform restore new steps = .ok (play perform new (Step.operations steps)) := by
  refine session_eq_play perform restore new steps fun front back heq => ?_
  rw [heq, Step.operations_reload] at hfew
  exact restore_of_reads (reads_load (storable_play hnew _ _ hfew))

end CompactionRule

/-! ## Reloads do not show -/

/-- **Reloads do not show.** An aggregator is read back from its bytes, to the last of them and with
every field as it was, if its count has room in the layout: an average takes part up to a count of
`2⁵³`, all others as long as their count is a word. So is every rule that comes from a new one by
pushes, of which each bucket accepts less than `2⁵³`. Hence sessions on either return, operation by
operation, the results and the faults they return without their reloads. -/
theorem reloads_invisible :
    (∀ s : Aggregator, s.Storable →
      (Aggregator.loadState s.kind .latest).read s.toBytes = (.ok s, []) ∧
      Aggregator.ofBytes s.kind s.toBytes .latest = .ok s) ∧
    (∀ (s : Aggregator) (steps : List (Step Aggregator.Operation)),
      (∀ front back, steps = front ++ .reload :: back →
        (play Aggregator.perform s (Step.operations front)).2.Storable) →
      session Aggregator.perform Aggregator.restore s steps
        = .ok (play Aggregator.perform s (Step.operations steps))) ∧
    ∀ (kind : Aggregation) (duration alignment : Timestamp) (new : CompactionRule),
      CompactionRule.make kind duration alignment = .ok new →
      ∀ steps : List (Step CompactionRule.Operation),
        (∀ start, new.grid.population
          (kept (CompactionRule.pushed (Step.operations steps))) start < 2 ^ 53) →
        let played := play CompactionRule.perform new (Step.operations steps)
        (Persistent.load .latest).read (encode played.2) = (.ok played.2, []) ∧
          restore played.2 = .ok played.2 ∧
          session CompactionRule.perform restore new steps = .ok played := by
  refine ⟨fun s h => ⟨(Aggregator.reads_loadState h).read, Aggregator.ofBytes_toBytes h⟩,
    Aggregator.session_restore, ?_⟩
  intro kind duration alignment new hnew steps hfew
  have hstorable := CompactionRule.storable_play hnew (Step.operations steps) []
    (by rw [List.append_nil]; exact hfew)
  have hreads := CompactionRule.reads_load hstorable
  exact ⟨hreads.read, restore_of_reads hreads, CompactionRule.session_restore hnew steps hfew⟩

/-- An average at the greatest count that is stored, reloaded before it is reported. -/
def fullAverage : Aggregator := .mean ⟨.nan, 2 ^ 53, true⟩

/-- A late sample is refused between two reloads, and a later one closes the bucket. -/
def refusedPush : List (Step CompactionRule.Operation) :=
  [.run (.push ⟨5, ⟨0x7ff8000000000001⟩⟩), .reload, .run (.push ⟨-5, .zero true⟩), .reload,
    .run (.push ⟨15, .maxFinite⟩), .reload, .run .flush]

theorem reloads_invisible_samples :
    fullAverage.Storable ∧ Aggregator.restore fullAverage = .ok fullAverage ∧
      session Aggregator.perform Aggregator.restore fullAverage [.reload, .run .finalize]
        = .ok (play Aggregator.perform fullAverage [.finalize]) ∧
      ∃ new, CompactionRule.make .twa 10 0 = .ok new ∧
        (∀ start, new.grid.population
          (kept (CompactionRule.pushed (Step.operations refusedPush))) start < 2 ^ 53) ∧
        session CompactionRule.perform restore new refusedPush
          = .ok (play CompactionRule.perform new (Step.operations refusedPush)) := by
  have hstorable : fullAverage.Storable := Nat.le_refl (2 ^ 53)
  have hreload : ∀ front back, [Step.reload, .run .finalize] = front ++ .reload :: back →
      (play Aggregator.perform fullAverage (Step.operations front)).2.Storable := by
    rintro (_ | ⟨_, _ | ⟨_, rest⟩⟩) back heq
    · exact hstorable
    · simp at heq
    · simp at heq
  have hmake : CompactionRule.make .twa 10 0
      = .ok (.start ⟨10, 0, by decide⟩ (.fresh .twa false)) := rfl
  have hlength : (kept (CompactionRule.pushed (Step.operations refusedPush))).length < 2 ^ 53 := by
    decide
  have hfew : ∀ start, (⟨10, 0, by decide⟩ : Grid).population
      (kept (CompactionRule.pushed (Step.operations refusedPush))) start < 2 ^ 53 :=
    fun start => Nat.lt_of_le_of_lt List.countP_le_length hlength
  exact ⟨hstorable, (reloads_invisible.1 _ hstorable).2, reloads_invisible.2.1 _ _ hreload, _,
    hmake, hfew, (reloads_invisible.2.2 _ _ _ _ hmake refusedPush hfew).2.2⟩

end Rollup
