import Mathlib.Data.List.SplitBy
import Rollup.Bucket.Downsample

/-!
# Visits

A walk recycles one state over all buckets. Here each bucket is taken for itself: a `Visit` holds
the samples of the bucket and the two samples next to it, and `Visit.close` folds them from a fresh
state. `Downsampling.visits` lists the buckets of a walk from the maximal runs of samples that share
a bucket, and `reports_eq_visits` says that a walk reports what its visits report one by one, as
long as a state that was reset is as good as a fresh one (`Recyclable`).
-/

namespace Rollup

/-- One bucket of a walk: its samples, and the samples next to them in the order of the walk. -/
structure Visit (α : Type) where
  start : Timestamp
  before : Option (Sample α)
  run : List (Sample α)
  after : Option (Sample α)

namespace Accumulator

variable {σ α β : Type} [Accumulator σ α β]

/-- The state of the bucket at `start` after a run of samples, opened on `fresh`. -/
def fill (g : Grid) (fresh : σ) (start : Timestamp) (before : Option (Sample α))
    (run : List (Sample α)) : σ :=
  run.foldl append (enter g fresh start before)

/-- Takes in the first sample behind a bucket, if there is one. -/
def followed (s : σ) : Option (Sample α) → σ
  | some next => followedBy s next
  | none => s

theorem fill_concat (g : Grid) (fresh : σ) (start : Timestamp) (before : Option (Sample α))
    (run : List (Sample α)) (sample : Sample α) :
    fill g fresh start before (run ++ [sample])
      = append (fill g fresh start before run) sample := by
  unfold fill
  rw [List.foldl_append]
  rfl

end Accumulator

namespace Visit

variable {σ α β : Type} [Accumulator σ α β]

/-- The state of the bucket, folded from `fresh` on its own. -/
def close (g : Grid) (fresh : σ) (v : Visit α) : σ :=
  Accumulator.followed (Accumulator.fill g fresh v.start v.before v.run) v.after

def report (g : Grid) (fresh : σ) (v : Visit α) : Sample β :=
  ⟨v.start, Accumulator.report (v.close g fresh)⟩

end Visit

/-- The maximal runs of consecutive samples that fall into the same bucket. -/
def Grid.runs {α : Type} (g : Grid) (samples : List (Sample α)) : List (List (Sample α)) :=
  samples.splitBy fun a b => g.start a.timestamp == g.start b.timestamp

/-- What is asked of the states of a driver that starts from `fresh`: the appends and hooks keep to
the states that are `own`, and such a state, once reset, opens a bucket like a fresh one. The first
sample is part of that, since some states keep a value over the reset to report it without samples.
-/
structure Recyclable {σ α β : Type} [Accumulator σ α β] (fresh : σ) (own : σ → Prop) : Prop where
  own_fresh : own fresh
  append : ∀ s sample, own s → own (Accumulator.append s sample)
  enter : ∀ g s start last, own s → own (Accumulator.enter g s start last)
  followedBy : ∀ s next, own s → own (Accumulator.followedBy s next)
  recycle : ∀ g s start last sample, own s →
    Accumulator.append (Accumulator.enter g (Accumulator.reset s) start last) sample
      = Accumulator.append (Accumulator.enter g fresh start last) sample

namespace Downsampling

variable {σ α β : Type} [Accumulator σ α β]

/-- The empty buckets between two neighbouring samples of a walk. -/
def gapVisits (d : Downsampling) : Option (Sample α) → Option (Sample α) → List (Visit α)
  | some a, some b =>
    if d.emptyBuckets then
      (d.grid.gaps d.reverse (d.grid.start a.timestamp) (d.grid.start b.timestamp)).map
        fun start => ⟨start, some a, [], some b⟩
    else []
  | _, _ => []

/-- The buckets of a walk over the given runs, which lie between the samples `before` and `after`.
The empty buckets between two runs come with the later one. -/
def visits (d : Downsampling) (before after : Option (Sample α)) :
    List (List (Sample α)) → List (Visit α)
  | [] => []
  | [] :: rest => d.visits before after rest
  | (first :: others) :: rest =>
    d.gapVisits before (some first) ++
      ⟨d.grid.start first.timestamp, before, first :: others, rest.flatten.head?.or after⟩ ::
        d.visits (first :: others).getLast? after rest

/-- The samples in the order of the walk. -/
def ordered {α : Type} (d : Downsampling) (samples : List (Sample α)) : List (Sample α) :=
  if d.reverse then samples.reverse else samples

/-- A series is in order if no sample is earlier than the one before it. -/
theorem firstDescent_eq_none_iff {samples : List (Sample α)} :
    firstDescent samples = none ↔
      samples.IsChain fun a b => a.timestamp.toInt ≤ b.timestamp.toInt := by
  induction samples with
  | nil => exact ⟨fun _ => .nil, fun _ => rfl⟩
  | cons a rest ih =>
    cases rest with
    | nil => exact ⟨fun _ => .singleton a, fun _ => rfl⟩
    | cons b rest =>
      rw [firstDescent, List.isChain_cons_cons, ← ih, ← Int.not_lt, ← Int64.lt_iff_toInt_lt]
      by_cases hlt : b.timestamp < a.timestamp
      · rw [if_pos hlt]
        exact ⟨(nomatch ·), fun h => absurd hlt h.1⟩
      · rw [if_neg hlt]
        exact ⟨fun h => ⟨hlt, h⟩, fun h => h.2⟩

/-! ## Runs -/

theorem runs_of_shared (g : Grid) {start : Timestamp} {run : List (Sample α)} (hne : run ≠ [])
    (hrun : ∀ x ∈ run, g.start x.timestamp = start) : g.runs run = [run] := by
  refine List.splitBy_of_isChain hne (List.Pairwise.isChain ?_)
  rw [List.pairwise_iff_forall_sublist]
  intro a b hsub
  have ha := hrun a (hsub.subset List.mem_cons_self)
  have hb := hrun b (hsub.subset (List.mem_cons_of_mem a List.mem_cons_self))
  rw [beq_iff_eq, ha, hb]

theorem runs_append_cons (g : Grid) {start : Timestamp} {run : List (Sample α)} (hne : run ≠ [])
    (hrun : ∀ x ∈ run, g.start x.timestamp = start) (sample : Sample α) (rest : List (Sample α))
    (hnext : start ≠ g.start sample.timestamp) :
    g.runs (run ++ sample :: rest) = run :: g.runs (sample :: rest) := by
  show List.splitBy _ (run ++ sample :: rest) = _
  rw [List.splitBy_append_cons]
  · show g.runs run ++ g.runs (sample :: rest) = _
    rw [runs_of_shared g hne hrun]
    rfl
  · intro x hx
    rw [beq_eq_false_iff_ne, hrun x (List.mem_of_mem_getLast? hx)]
    exact hnext

theorem flatten_runs (g : Grid) (samples : List (Sample α)) : (g.runs samples).flatten = samples :=
  List.flatten_splitBy _ samples

/-! ## The walk, bucket by bucket -/

/-- Empty buckets that leave the state as it was are folded from it one by one. -/
theorem reportEmpty_eq (d : Downsampling) {s : σ} (last next : Sample α)
    (hkeep : ∀ start, Accumulator.reset (Accumulator.followedBy
      (Accumulator.enter d.grid s start (some last)) next) = s) (starts : List Timestamp) :
    d.reportEmpty last next s starts
      = (starts.map fun start => Visit.report d.grid s ⟨start, some last, [], some next⟩, s) := by
  induction starts with
  | nil => rfl
  | cons start starts ih =>
    have hafter : (Accumulator.leave
        (Accumulator.enter d.grid s start (some last)) start next).2 = s := hkeep start
    rw [reportEmpty]
    dsimp only
    rw [hafter, ih]
    rfl

/-- Behind the empty buckets, if there are any, the next bucket opens as on a fresh state. -/
theorem reportEmpty_recycled (d : Downsampling) {fresh : σ} {own : σ → Prop}
    (hrec : Recyclable fresh own)
    (hreset : d.emptyBuckets = true → ∀ s, own s → Accumulator.reset s = fresh)
    {s : σ} (hown : own s) (last next : Sample α) :
    ∃ final, d.reportEmpty last next (Accumulator.reset s)
        (if d.emptyBuckets then
          d.grid.gaps d.reverse (d.grid.start last.timestamp) (d.grid.start next.timestamp)
        else [])
      = ((d.gapVisits (some last) (some next)).map (Visit.report d.grid fresh), final) ∧
      ∀ start, Accumulator.append (Accumulator.enter d.grid final start (some last)) next
        = Accumulator.append (Accumulator.enter d.grid fresh start (some last)) next := by
  unfold gapVisits
  cases hempty : d.emptyBuckets with
  | false =>
    exact ⟨Accumulator.reset s, rfl, fun start => hrec.recycle _ _ _ _ _ hown⟩
  | true =>
    have hkeep : ∀ start, Accumulator.reset (Accumulator.followedBy
        (Accumulator.enter d.grid fresh start (some last)) next) = fresh := fun start =>
      hreset hempty _ (hrec.followedBy _ next (hrec.enter _ _ _ _ hrec.own_fresh))
    refine ⟨fresh, ?_, fun start => rfl⟩
    dsimp only
    rw [hreset hempty s hown, if_pos rfl, if_pos rfl, reportEmpty_eq d last next hkeep,
      List.map_map]
    rfl

/-- **A walk in the middle of a run.** The state is the fold of the run so far, and what the walk
still reports is what the visits from this run on report. -/
theorem walk_eq_visits (d : Downsampling) {fresh : σ} {own : σ → Prop}
    (hrec : Recyclable fresh own)
    (hreset : d.emptyBuckets = true → ∀ s, own s → Accumulator.reset s = fresh)
    (rest : List (Sample α)) (before : Option (Sample α)) (start : Timestamp)
    (first last : Sample α) (others : List (Sample α))
    (hrun : ∀ x ∈ first :: others, d.grid.start x.timestamp = start)
    (hlast : (first :: others).getLast? = some last)
    (hown : own (Accumulator.fill d.grid fresh start before (first :: others))) :
    (d.gapVisits before (some first)).map (Visit.report d.grid fresh) ++
        d.walk (Accumulator.fill d.grid fresh start before (first :: others)) start last rest
      = (d.visits before none (d.grid.runs ((first :: others) ++ rest))).map
          (Visit.report d.grid fresh) := by
  induction rest generalizing before start first last others with
  | nil =>
    rw [List.append_nil, runs_of_shared d.grid (List.cons_ne_nil _ _) hrun]
    rw [visits, List.map_append, hrun first List.mem_cons_self]
    rfl
  | cons sample rest ih =>
    rw [walk]
    dsimp only
    by_cases hsame : start = d.grid.start sample.timestamp
    · -- the run goes on
      have hrun' : ∀ x ∈ first :: (others ++ [sample]), d.grid.start x.timestamp = start := by
        intro x hx
        rw [← List.cons_append, List.mem_append, List.mem_singleton] at hx
        rcases hx with hx | rfl
        · exact hrun x hx
        · exact hsame.symm
      have hlast' : (first :: (others ++ [sample])).getLast? = some sample := by
        rw [← List.cons_append, List.getLast?_concat]
      have hstep := ih before start first sample (others ++ [sample]) hrun' hlast'
      rw [← List.cons_append, Accumulator.fill_concat, List.append_assoc] at hstep
      rw [if_pos hsame]
      exact hstep (hrec.append _ sample hown)
    · -- the run is over: its bucket closes, and so do the empty ones between it and the next
      rw [if_neg hsame, runs_append_cons d.grid (List.cons_ne_nil _ _) hrun sample rest hsame]
      rw [visits, List.map_append, List.map_cons, hrun first List.mem_cons_self, flatten_runs]
      congr 1
      have hclosed := hrec.followedBy _ sample hown
      obtain ⟨final, hreports, hnext⟩ :=
        reportEmpty_recycled d hrec hreset hclosed last sample
      rw [hrun last (List.mem_of_getLast? hlast)] at hreports
      have hleave : Accumulator.leave
          (Accumulator.fill d.grid fresh start before (first :: others)) start sample
          = (Visit.report d.grid fresh
              ⟨start, before, first :: others, (sample :: rest).head?.or none⟩,
            Accumulator.reset (Accumulator.followedBy
              (Accumulator.fill d.grid fresh start before (first :: others)) sample)) := rfl
      rw [hleave]
      dsimp only
      rw [hreports]
      dsimp only
      rw [hnext, hlast, List.cons_append]
      have hstep := ih (some last) (d.grid.start sample.timestamp) sample sample []
        (by simp) rfl (hrec.append _ sample (hrec.enter _ _ _ _ hrec.own_fresh))
      exact congrArg (_ :: ·) hstep

/-- **Every bucket is folded on its own.** -/
theorem reports_eq_visits (d : Downsampling) {fresh : σ} {own : σ → Prop}
    (hrec : Recyclable fresh own)
    (hreset : d.emptyBuckets = true → ∀ s, own s → Accumulator.reset s = fresh)
    (samples : List (Sample α)) :
    d.reports fresh samples
      = (d.visits none none (d.grid.runs (d.ordered samples))).map (Visit.report d.grid fresh) := by
  unfold reports
  have horder : (if d.reverse then samples.reverse else samples) = d.ordered samples := rfl
  rw [horder]
  cases d.ordered samples with
  | nil => rfl
  | cons sample rest =>
    exact walk_eq_visits d hrec hreset rest none (d.grid.start sample.timestamp) sample sample []
      (by simp) rfl (hrec.append _ sample (hrec.enter _ _ _ _ hrec.own_fresh))

/-! ## Without empty buckets, one visit per run -/

theorem gapVisits_of_not (d : Downsampling) (hempty : d.emptyBuckets = false)
    (before after : Option (Sample α)) : d.gapVisits before after = [] := by
  unfold gapVisits
  split
  · rw [hempty]
    rfl
  · rfl

theorem length_visits (d : Downsampling) (hempty : d.emptyBuckets = false)
    (before after : Option (Sample α)) (runs : List (List (Sample α))) (hne : [] ∉ runs) :
    (d.visits before after runs).length = runs.length := by
  induction runs generalizing before with
  | nil => rfl
  | cons run rest ih =>
    cases run with
    | nil => exact absurd List.mem_cons_self hne
    | cons first others =>
      rw [visits, gapVisits_of_not d hempty, List.nil_append, List.length_cons, List.length_cons,
        ih _ (fun h => hne (List.mem_cons_of_mem _ h))]

/-- The visit of a run stands between the samples before and behind it. -/
theorem getElem?_visits (d : Downsampling) (hempty : d.emptyBuckets = false)
    (before after : Option (Sample α)) (runs : List (List (Sample α))) (hne : [] ∉ runs) (i : Nat)
    {first : Sample α} {others : List (Sample α)} (hi : runs[i]? = some (first :: others)) :
    (d.visits before after runs)[i]?
      = some ⟨d.grid.start first.timestamp, (runs.take i).flatten.getLast?.or before,
          first :: others, (runs.drop (i + 1)).flatten.head?.or after⟩ := by
  induction runs generalizing before i with
  | nil => cases hi
  | cons run rest ih =>
    cases run with
    | nil => exact absurd List.mem_cons_self hne
    | cons a as =>
      rw [visits, gapVisits_of_not d hempty, List.nil_append]
      cases i with
      | zero =>
        cases hi
        rfl
      | succ i =>
        have hrest : rest[i]? = some (first :: others) := hi
        rw [List.getElem?_cons_succ, ih _ (fun h => hne (List.mem_cons_of_mem _ h)) i hrest]
        rw [List.take_succ_cons, List.drop_succ_cons, List.flatten_cons, List.getLast?_append,
          Option.or_assoc, List.getLast?_cons, Option.some_or]

/-! ## Every run is visited -/

theorem exists_mem_visits (d : Downsampling) (before after : Option (Sample α))
    {runs : List (List (Sample α))} {run : List (Sample α)} (hrun : run ∈ runs) (hne : run ≠ []) :
    ∃ v ∈ d.visits before after runs, v.run = run := by
  induction runs generalizing before with
  | nil => cases hrun
  | cons head rest ih =>
    cases head with
    | nil =>
      rcases List.mem_cons.1 hrun with rfl | hmem
      · exact absurd rfl hne
      · exact ih before hmem
    | cons first others =>
      rw [visits]
      rcases List.mem_cons.1 hrun with rfl | hmem
      · exact ⟨_, List.mem_append_right _ List.mem_cons_self, rfl⟩
      · obtain ⟨v, hv, heq⟩ := ih (first :: others).getLast? hmem
        exact ⟨v, List.mem_append_right _ (List.mem_cons_of_mem _ hv), heq⟩

/-! ## Where a visit lies -/

/-- The place of a visit in the walk over `samples`. -/
inductive Located (d : Downsampling) (samples : List (Sample α)) : Visit α → Prop where
  | populated {pre run post : List (Sample α)} {start : Timestamp}
      (split : samples = pre ++ run ++ post) (nonempty : run ≠ [])
      (shared : ∀ x ∈ run, d.grid.start x.timestamp = start)
      (enters : ∀ x, pre.getLast? = some x → d.grid.start x.timestamp ≠ start)
      (leaves : ∀ x, post.head? = some x → d.grid.start x.timestamp ≠ start) :
      Located d samples ⟨start, pre.getLast?, run, post.head?⟩
  | empty {pre post : List (Sample α)} {a b : Sample α} {start : Timestamp}
      (split : samples = pre ++ post) (last : pre.getLast? = some a) (next : post.head? = some b)
      (between : start ∈ d.grid.gaps d.reverse (d.grid.start a.timestamp)
        (d.grid.start b.timestamp)) :
      Located d samples ⟨start, some a, [], some b⟩

/-- Neighbouring runs lie in different buckets. -/
def Separated (g : Grid) (runs : List (List (Sample α))) : Prop :=
  runs.IsChain fun a b => ∀ x, a.getLast? = some x → ∀ y, b.head? = some y →
    g.start x.timestamp ≠ g.start y.timestamp

theorem shared_of_mem_runs (g : Grid) {samples run : List (Sample α)}
    (h : run ∈ g.runs samples) :
    ∀ x ∈ run, ∀ y ∈ run, g.start x.timestamp = g.start y.timestamp := by
  have hchain : run.IsChain fun a b => g.start a.timestamp = g.start b.timestamp :=
    (List.isChain_of_mem_splitBy h).imp fun a b hab => beq_iff_eq.1 hab
  have hpair : run.Pairwise fun a b => g.start a.timestamp = g.start b.timestamp :=
    List.isChain_iff_pairwise.1 hchain
  have hflip : run.Pairwise fun a b => g.start b.timestamp = g.start a.timestamp :=
    hpair.imp fun h => h.symm
  intro x hx y hy
  refine List.Pairwise.forall_of_forall_of_flip ?_ hpair hflip hx hy
  exact fun _ _ => rfl

theorem separated_runs (g : Grid) (samples : List (Sample α)) : Separated g (g.runs samples) := by
  refine (List.isChain_getLast_head_splitBy _ samples).imp fun a b hab => ?_
  obtain ⟨ha, hb, hne⟩ := hab
  intro x hx y hy
  rw [List.getLast?_eq_some_getLast ha, Option.some.injEq] at hx
  rw [List.head?_eq_some_head hb, Option.some.injEq] at hy
  rw [hx, hy, beq_eq_false_iff_ne] at hne
  exact hne

theorem Separated.ne {g : Grid} {run : List (Sample α)} {rest : List (List (Sample α))}
    (h : Separated g (run :: rest)) (hne : [] ∉ rest) {x y : Sample α}
    (hx : run.getLast? = some x) (hy : rest.flatten.head? = some y) :
    g.start x.timestamp ≠ g.start y.timestamp := by
  cases rest with
  | nil => cases hy
  | cons next more =>
    cases next with
    | nil => exact absurd List.mem_cons_self hne
    | cons b bs =>
      have hb : (b :: bs).head? = some y := hy
      exact (List.isChain_cons_cons.1 h).1 x hx y hb

/-- Every visit to the runs behind `pre` has its place in the walk. -/
theorem located_of_mem (d : Downsampling) {samples : List (Sample α)}
    (runs : List (List (Sample α))) (pre : List (Sample α)) (hsplit : samples = pre ++ runs.flatten)
    (hne : [] ∉ runs)
    (hshared : ∀ run ∈ runs, ∀ x ∈ run, ∀ y ∈ run,
      d.grid.start x.timestamp = d.grid.start y.timestamp)
    (hsep : Separated d.grid runs)
    (hpre : ∀ x, pre.getLast? = some x → ∀ y, runs.flatten.head? = some y →
      d.grid.start x.timestamp ≠ d.grid.start y.timestamp)
    {v : Visit α} (hv : v ∈ d.visits pre.getLast? none runs) : Located d samples v := by
  induction runs generalizing pre with
  | nil => cases hv
  | cons run rest ih =>
    cases run with
    | nil => exact absurd List.mem_cons_self hne
    | cons first others =>
      rw [visits, List.mem_append, List.mem_cons] at hv
      have hfirst : ((first :: others) :: rest).flatten.head? = some first := rfl
      have hne' : [] ∉ rest := fun h => hne (List.mem_cons_of_mem _ h)
      rcases hv with hgap | rfl | hv
      · -- an empty bucket before this run
        cases hlast : pre.getLast? with
        | none =>
          rw [hlast] at hgap
          cases hgap
        | some a =>
          rw [hlast] at hgap
          unfold gapVisits at hgap
          dsimp only at hgap
          split at hgap
          · obtain ⟨start, hstart, rfl⟩ := List.mem_map.1 hgap
            exact .empty hsplit hlast hfirst hstart
          · cases hgap
      · -- the bucket of this run
        rw [Option.or_none]
        refine .populated (by rw [hsplit, List.flatten_cons, List.append_assoc])
          (List.cons_ne_nil _ _) ?_ ?_ ?_
        · intro x hx
          exact hshared _ List.mem_cons_self x hx first List.mem_cons_self
        · intro x hx
          exact hpre x hx first hfirst
        · intro y hy hsame
          obtain ⟨last, hlast⟩ : ∃ last, (first :: others).getLast? = some last :=
            ⟨_, List.getLast?_cons⟩
          have hstart := hshared _ List.mem_cons_self last (List.mem_of_getLast? hlast) first
            List.mem_cons_self
          exact hsep.ne hne' hlast hy (hstart.trans hsame.symm)
      · -- a bucket behind it
        have hlast : (first :: others).getLast? = (pre ++ first :: others).getLast? := by
          rw [List.getLast?_append, List.getLast?_cons, Option.some_or]
        rw [hlast] at hv
        refine ih (pre ++ first :: others) ?_ hne'
          (fun run hrun => hshared run (List.mem_cons_of_mem _ hrun)) hsep.tail ?_ hv
        · rw [hsplit, List.flatten_cons, List.append_assoc]
        · rw [← hlast]
          exact fun x hx y hy => hsep.ne hne' hx hy

theorem located_of_mem_visits (d : Downsampling) {samples : List (Sample α)} {v : Visit α}
    (hv : v ∈ d.visits none none (d.grid.runs samples)) : Located d samples v := by
  refine located_of_mem d (d.grid.runs samples) [] ?_ (List.nil_notMem_splitBy _ _)
    (fun run hrun => shared_of_mem_runs d.grid hrun) (separated_runs d.grid samples) ?_ hv
  · rw [flatten_runs]
    rfl
  · intro x hx
    cases hx

theorem exists_visit_of_mem (d : Downsampling) {samples : List (Sample α)} {x : Sample α}
    (hx : x ∈ samples) :
    ∃ v ∈ d.visits none none (d.grid.runs samples), v.start = d.grid.start x.timestamp := by
  rw [← flatten_runs d.grid samples, List.mem_flatten] at hx
  obtain ⟨run, hrun, hmem⟩ := hx
  obtain ⟨v, hv, heq⟩ := exists_mem_visits d none none hrun (List.ne_nil_of_mem hmem)
  rw [← heq] at hmem
  refine ⟨v, hv, ?_⟩
  cases located_of_mem_visits d hv with
  | populated _ _ shared => exact (shared x hmem).symm
  | empty => cases hmem

end Downsampling
end Rollup
