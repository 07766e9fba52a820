import Rollup.Proofs.Bucket.Points
import Rollup.Proofs.Bucket.Visits

/-!
# Walking the other way

The walk from the newest sample to the oldest visits the same buckets in reversed order: each visit
has its run reversed, and its two neighbours swapped (`visits_mirror`). The empty buckets are the
only part that needs an assumption, since they are counted from one end or the other.
-/

namespace Rollup

/-- The same bucket, met from the other side. -/
def Visit.mirror {α : Type} (v : Visit α) : Visit α := ⟨v.start, v.after, v.run.reverse, v.before⟩

namespace Downsampling

variable {α : Type}

/-- The walk in the other direction. -/
def mirror (d : Downsampling) : Downsampling := { d with reverse := !d.reverse }

/-! ## Runs -/

theorem runs_reverse (g : Grid) (samples : List (Sample α)) :
    g.runs samples.reverse = ((g.runs samples).map List.reverse).reverse := by
  refine List.splitBy_eq_iff.2 ⟨?_, ?_, ?_, ?_⟩
  · rw [← List.reverse_flatten, flatten_runs]
  · rw [List.mem_reverse, List.mem_map]
    rintro ⟨run, hrun, hnil⟩
    exact List.ne_nil_of_mem_splitBy hrun (List.reverse_eq_nil_iff.1 hnil)
  · intro m hm
    rw [List.mem_reverse, List.mem_map] at hm
    obtain ⟨run, hrun, rfl⟩ := hm
    rw [List.isChain_reverse]
    refine (List.isChain_of_mem_splitBy hrun).imp fun a b hab => ?_
    rw [beq_iff_eq] at hab ⊢
    exact hab.symm
  · rw [List.isChain_reverse, List.isChain_map]
    refine (List.isChain_getLast_head_splitBy _ samples).imp fun a b hab => ?_
    obtain ⟨ha, hb, hne⟩ := hab
    refine ⟨mt List.reverse_eq_nil_iff.1 hb, mt List.reverse_eq_nil_iff.1 ha, ?_⟩
    rw [List.getLast_reverse, List.head_reverse, beq_eq_false_iff_ne]
    rw [beq_eq_false_iff_ne] at hne
    exact hne.symm

/-! ## Visits -/

/-- The visits to two stretches of runs, each of which ends where the other begins. -/
theorem visits_append (d : Downsampling) (before after : Option (Sample α))
    (xs ys : List (List (Sample α))) :
    d.visits before after (xs ++ ys)
      = d.visits before (ys.flatten.head?.or after) xs
        ++ d.visits (xs.flatten.getLast?.or before) after ys := by
  induction xs generalizing before with
  | nil => rfl
  | cons run rest ih =>
    cases run with
    | nil => exact ih before
    | cons first others =>
      rw [List.cons_append, visits, visits, ih, List.flatten_append, List.head?_append,
        Option.or_assoc, List.flatten_cons, List.getLast?_append, Option.or_assoc,
        List.getLast?_cons, Option.some_or, List.append_assoc]
      rfl

theorem visits_concat (d : Downsampling) (before after : Option (Sample α))
    (runs : List (List (Sample α))) (first : Sample α) (others : List (Sample α)) :
    d.visits before after (runs ++ [first :: others])
      = d.visits before (some first) runs
        ++ d.gapVisits (runs.flatten.getLast?.or before) (some first)
        ++ [⟨d.grid.start first.timestamp, runs.flatten.getLast?.or before, first :: others,
          after⟩] := by
  rw [visits_append, visits, visits, List.append_assoc]
  rfl

/-- The empty buckets between any two samples that satisfy `P` are the same both ways. -/
def GapsMirror (d : Downsampling) (P : Sample α → Prop) : Prop :=
  ∀ a b, P a → P b → d.mirror.gapVisits (some b) (some a)
    = ((d.gapVisits (some a) (some b)).map Visit.mirror).reverse

theorem GapsMirror.gapVisits {d : Downsampling} {P : Sample α → Prop} (h : d.GapsMirror P)
    {before after : Option (Sample α)} (hbefore : ∀ x, before = some x → P x)
    (hafter : ∀ x, after = some x → P x) :
    d.mirror.gapVisits after before = ((d.gapVisits before after).map Visit.mirror).reverse := by
  cases before with
  | none => cases after <;> rfl
  | some a =>
    cases after with
    | none => rfl
    | some b => exact h a b (hbefore a rfl) (hafter b rfl)

/-- Counted in exact arithmetic, the empty buckets are the same from either end. -/
theorem gapsMirror_of_regular (d : Downsampling) {P : Sample α → Prop}
    (hreg : ∀ x, P x → d.grid.Regular x.timestamp) : d.GapsMirror P := by
  intro a b ha hb
  have hstartA := Grid.toInt_start (hreg a ha)
  have hstartB := Grid.toInt_start (hreg b hb)
  obtain ⟨g, reverse, emptyBuckets⟩ := d
  dsimp only at hstartA hstartB
  cases emptyBuckets with
  | false => rfl
  | true =>
    show (g.gaps (!reverse) (g.start b.timestamp) (g.start a.timestamp)).map
        (fun start => (⟨start, some b, [], some a⟩ : Visit α))
      = (((g.gaps reverse (g.start a.timestamp) (g.start b.timestamp)).map
          fun start => (⟨start, some a, [], some b⟩ : Visit α)).map Visit.mirror).reverse
    rw [List.map_map, ← List.map_reverse]
    cases reverse with
    | false =>
      rw [Bool.not_false, Grid.gaps_reverse hstartA hstartB]
      rfl
    | true =>
      rw [Bool.not_true, Grid.gaps_reverse hstartB hstartA, List.reverse_reverse]
      rfl

/-- Between two samples the visits with the empty buckets at both ends are those of the walk in the
other direction, each mirrored, in reversed order. -/
theorem visits_mirror_between (d : Downsampling) {P : Sample α → Prop} (hgap : d.GapsMirror P)
    (runs : List (List (Sample α))) (hne : [] ∉ runs)
    (hshared : ∀ run ∈ runs, ∀ x ∈ run, ∀ y ∈ run,
      d.grid.start x.timestamp = d.grid.start y.timestamp)
    (hP : ∀ x ∈ runs.flatten, P x) (before after : Option (Sample α))
    (hbefore : ∀ x, before = some x → P x) (hafter : ∀ x, after = some x → P x) :
    ((d.visits before after runs
        ++ d.gapVisits (runs.flatten.getLast?.or before) after).map Visit.mirror).reverse
      = d.mirror.visits after before (runs.map List.reverse).reverse
        ++ d.mirror.gapVisits (runs.flatten.head?.or after) before := by
  induction runs generalizing before with
  | nil => exact (hgap.gapVisits hbefore hafter).symm
  | cons run rest ih =>
    cases run with
    | nil => exact absurd List.mem_cons_self hne
    | cons first others =>
      obtain ⟨last, hlast⟩ : ∃ last, (first :: others).getLast? = some last :=
        ⟨_, List.getLast?_cons⟩
      have hlastMem := List.mem_of_getLast? hlast
      have hP' : ∀ x ∈ rest.flatten, P x := by
        intro x hx
        exact hP x (List.mem_append_right _ hx)
      have hPrun : ∀ x ∈ first :: others, P x := by
        intro x hx
        exact hP x (List.mem_append_left _ hx)
      have hstep := ih (fun h => hne (List.mem_cons_of_mem _ h))
        (fun run hrun => hshared run (List.mem_cons_of_mem _ hrun)) hP' (some last)
        (fun x hx => hPrun x (Option.some.inj hx ▸ hlastMem))
      have hfirst := hgap.gapVisits hbefore
        (fun x (hx : some first = some x) => hPrun x (Option.some.inj hx ▸ List.mem_cons_self))
      have hstart := hshared _ List.mem_cons_self last hlastMem first List.mem_cons_self
      -- the reversed run begins with the last sample of the run
      obtain ⟨more, hrev⟩ : ∃ more, (first :: others).reverse = last :: more := by
        obtain ⟨init, hinit⟩ := List.getLast?_eq_some_iff.1 hlast
        exact ⟨init.reverse, by rw [hinit, List.reverse_append]; rfl⟩
      have hflat : ((rest.map List.reverse).reverse.flatten).getLast? = rest.flatten.head? := by
        rw [← List.reverse_flatten, List.getLast?_reverse]
      have hend : (((first :: others) :: rest).flatten.getLast?).or before
          = rest.flatten.getLast?.or (some last) := by
        rw [List.flatten_cons, List.getLast?_append, Option.or_assoc, hlast, Option.some_or]
      have hself : Visit.mirror ⟨d.grid.start first.timestamp, before, first :: others,
          rest.flatten.head?.or after⟩ = ⟨d.mirror.grid.start last.timestamp,
            rest.flatten.head?.or after, last :: more, before⟩ := by
        rw [← hrev, show d.mirror.grid.start last.timestamp = d.grid.start first.timestamp
          from hstart]
        rfl
      calc ((d.visits before after ((first :: others) :: rest)
              ++ d.gapVisits ((((first :: others) :: rest).flatten.getLast?).or before)
                after).map Visit.mirror).reverse
          = ((d.visits (some last) after rest
                ++ d.gapVisits (rest.flatten.getLast?.or (some last)) after).map
                  Visit.mirror).reverse
              ++ [Visit.mirror ⟨d.grid.start first.timestamp, before, first :: others,
                rest.flatten.head?.or after⟩]
              ++ ((d.gapVisits before (some first)).map Visit.mirror).reverse := by
            rw [hend, visits, hlast, List.append_assoc, List.cons_append, List.map_append,
              List.reverse_append, List.map_cons, List.reverse_cons]
        _ = d.mirror.visits after (some last) (rest.map List.reverse).reverse
              ++ d.mirror.gapVisits (rest.flatten.head?.or after) (some last)
              ++ [⟨d.mirror.grid.start last.timestamp, rest.flatten.head?.or after,
                last :: more, before⟩]
              ++ d.mirror.gapVisits (some first) before := by
            rw [hstep, hself, hfirst]
        _ = d.mirror.visits after before (((first :: others) :: rest).map List.reverse).reverse
              ++ d.mirror.gapVisits ((((first :: others) :: rest).flatten.head?).or after)
                before := by
            rw [List.map_cons, List.reverse_cons, hrev, visits_concat, hflat]
            rfl

/-- **The walk in the other direction.** It visits the same buckets, mirrored, in reversed order. -/
theorem visits_mirror (d : Downsampling) (samples : List (Sample α))
    (hgap : d.GapsMirror (· ∈ samples)) :
    d.mirror.visits none none (d.grid.runs samples.reverse)
      = ((d.visits none none (d.grid.runs samples)).map Visit.mirror).reverse := by
  have hflat := flatten_runs d.grid samples
  have hall := visits_mirror_between d hgap (d.grid.runs samples) (List.nil_notMem_splitBy _ _)
    (fun run hrun => shared_of_mem_runs d.grid hrun) (fun x hx => hflat ▸ hx) none none
    (fun x hx => by cases hx) (fun x hx => by cases hx)
  have hnone : ∀ (e : Downsampling) (o : Option (Sample α)), e.gapVisits o none = [] := by
    intro e o
    cases o <;> rfl
  rw [hnone, hnone, List.append_nil, List.append_nil, ← runs_reverse] at hall
  exact hall.symm

end Downsampling
end Rollup
