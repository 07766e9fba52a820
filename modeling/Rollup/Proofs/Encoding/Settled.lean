import Rollup.Proofs.Binary64.Magnitude
import Rollup.Proofs.Encoding.Outcomes
import Rollup.Proofs.Encoding.States
import Rollup.Proofs.Median.Format

/-!
# What was loaded once is read back

More bytes are accepted than are ever written: counts of averages beyond the words, flags that are
any number, halves of a median in any order. All of that is settled when a state is loaded. Whatever
layout and whatever bytes it came from, the layout of the latest version holds the loaded state
exactly, so writing it and reading it back changes nothing (`load_settles`), once or any number of
times.
-/

namespace Rollup

open Binary64
open Reader (Reads Yields)

/-- What is written of the state in the latest layout is read as that state. -/
def ReadsBack {σ : Type} [Persistent σ] (s : σ) : Prop :=
  Reads (Persistent.load .latest) (encode s) s

/-! ## States of the aggregations -/

theorem yields_count {α : Type} {f : UInt64 → Reader α} {P : α → Prop}
    (h : ∀ count : UInt64, count.toNat < 2 ^ 64 → Yields P (f count)) :
    Yields P (Reader.unsigned >>= f) :=
  Yields.bind fun count => h count count.toNat_lt

theorem Moments.yields_load (version : Version) :
    Yields ReadsBack (Persistent.load version : Reader (Moments Binary64)) :=
  Yields.bind fun _ => Yields.bind fun _ => yields_count fun _ hcount =>
    .pure (Moments.reads_load hcount)

theorem TimeWeighted.yields_load (version : Version) :
    Yields ReadsBack (Persistent.load version : Reader (TimeWeighted Binary64)) :=
  Yields.bind fun _ => Yields.bind fun _ => Yields.bind fun _ => Yields.bind fun _ =>
    Yields.bind fun _ => Yields.bind fun _ => Yields.bind fun _ => Yields.bind fun _ =>
      yields_count fun _ hcount => Yields.bind fun _ => .pure (TimeWeighted.reads_load hcount)

namespace Mean

/-- The double of a whole number that a double holds has that value again. -/
theorem toUnits_intCast_of_units {x : Binary64} {n : Nat} (hx : x.isFinite = true)
    (hn : x.toUnits.natAbs = n * unitsPerOne) :
    ((n : Int) : Binary64).isFinite = true ∧
      ((n : Int) : Binary64).toUnits = (n * unitsPerOne : Nat) := by
  have hfinite : x.magnitude < infiniteMagnitude := of_decide_eq_true hx
  rw [natAbs_toUnits] at hn
  have hmagnitude : ((n : Int) : Binary64).magnitude = x.magnitude := by
    have hnear := nearest_units (k := x.magnitude) (d := 1) Nat.one_pos hfinite.le
    rw [Nat.mul_one, hn] at hnear
    rw [magnitude_intCast, Int.natAbs_natCast, hnear]
  refine ⟨decide_eq_true (hmagnitude ▸ hfinite), ?_⟩
  unfold Binary64.toUnits
  rw [isNegative_intCast, decide_eq_false (by omega), hmagnitude, hn]
  rfl

/-- A count that was read off a double is read off its own double again: it is that double's value,
or the greatest word, whose double is greater still. -/
theorem countOfStored_intCast {stored : Binary64} {count : Nat}
    (h : countOfStored stored = .ok count) :
    countOfStored ((count : Int) : Binary64) = .ok count := by
  unfold countOfStored at h
  dsimp only at h
  split at h
  · next hwhole =>
    cases h
    rw [Bool.and_eq_true, Bool.and_eq_true, decide_eq_true_iff, decide_eq_true_iff] at hwhole
    obtain ⟨⟨hfinite, -⟩, hmod⟩ := hwhole
    have hunits : stored.toUnits.natAbs
        = stored.toUnits.natAbs / unitsPerOne * unitsPerOne :=
      (Nat.div_mul_cancel (Nat.dvd_of_mod_eq_zero hmod)).symm
    generalize stored.toUnits.natAbs / unitsPerOne = n at hunits
    by_cases hle : n ≤ 0xffffffffffffffff
    · obtain ⟨hfinite', hunits'⟩ := toUnits_intCast_of_units hfinite hunits
      rw [show Nat.min n 0xffffffffffffffff = n from Nat.min_eq_left hle, countOfStored, hfinite',
        hunits', decide_eq_true (Int.natCast_nonneg _), Int.natAbs_natCast, Nat.mul_mod_left,
        Nat.mul_div_cancel _ unitsPerOne_pos]
      exact congrArg Except.ok (Nat.min_eq_left hle)
    · -- the double of the greatest word is two to the 64, which is beyond the words too
      rw [show Nat.min n 0xffffffffffffffff = 0xffffffffffffffff from
        Nat.min_eq_right (Nat.le_of_not_le hle)]
      decide +kernel
  · cases h

theorem yields_load (version : Version) :
    Yields ReadsBack (Persistent.load version : Reader (Mean Binary64)) := by
  refine Yields.bind fun total => Yields.bind fun stored => ?_
  split
  · exact .throw _
  · next count heq =>
    have hcount := countOfStored_intCast heq
    split
    · exact Yields.bind fun _ => .pure (reads_load_of_count hcount)
    · exact .pure (reads_load_of_count hcount)

end Mean

/-- The state of an aggregation is read back as one of that aggregation. -/
theorem Aggregator.yields_loadState (kind : Aggregation) (version : Version) :
    Yields (fun s => s.kind = kind ∧ Reads (loadState kind .latest) s.toBytes s)
      (loadState kind version) := by
  have hsingle : Yields ReadsBack (Persistent.load version : Reader Single) :=
    fun _ s _ _ => s.reads_load
  have hbounds : Yields ReadsBack (Persistent.load version : Reader Bounds) :=
    fun _ s _ _ => s.reads_load
  have hfirst : Yields ReadsBack (Persistent.load version : Reader First) :=
    fun _ s _ _ => s.reads_load
  cases kind with
  | sum | count | last => exact hsingle.map fun s hs => ⟨rfl, hs.map _⟩
  | min | max | range => exact hbounds.map fun s hs => ⟨rfl, hs.map _⟩
  | first => exact hfirst.map fun s hs => ⟨rfl, hs.map _⟩
  | avg => exact (Mean.yields_load version).map fun s hs => ⟨rfl, hs.map _⟩
  | varP | varS | stdP | stdS =>
    exact (Moments.yields_load version).map fun s hs => ⟨rfl, hs.map _⟩
  | twa => exact (TimeWeighted.yields_load version).map fun s hs => ⟨rfl, hs.map _⟩

/-! ## Rules and medians -/

theorem CompactionRule.yields_load (version : Version) :
    Yields ReadsBack (Persistent.load version : Reader CompactionRule) := by
  refine Yields.bind fun kind => Yields.bind fun grid => Yields.bind fun openBucket =>
    Yields.bind fun lastSample => ?_
  -- the name is read without regard to case and written in one, so the kind decides what is read
  refine (Aggregator.yields_loadState kind version).bind_of fun s hs => .pure ?_
  obtain ⟨rfl, hreads⟩ := hs
  exact reads_load_of_accumulator hreads

namespace MedianTracker

/-- The halves of a tracker that was read are stored as the heaps they are. -/
theorem ofStored_toList_of_ofStored {lower upper : List Binary64} {median : Binary64}
    {t : MedianTracker} (h : ofStored lower upper median = .ok t) :
    ofStored t.lower.toList t.upper.toList t.median = .ok t := by
  obtain ⟨hhalves, -, heq⟩ := ofStored_eq_ok_iff.1 h
  have hcheck : check t.lower t.upper = .ok () := heq ▸ check_ofArray_eq_ok_iff.2 hhalves
  rw [(sound_ofStored h).ofStored_toList, hcheck]
  rfl

theorem yields_load (version : Version) :
    Yields ReadsBack (Persistent.load version : Reader MedianTracker) := by
  intro bytes t rest h following
  obtain ⟨lower, upper, median, hstored, hok⟩ := exists_stored_of_read h
  obtain ⟨-, -, heq⟩ := ofStored_eq_ok_iff.1 hok
  have hlower : t.lower.size = lower.length := heq ▸ size_ofArray lower
  have hupper : t.upper.size = upper.length := heq ▸ size_ofArray upper
  have hwritten := stored_encode (hlower ▸ hstored.lower_lt) (hupper ▸ hstored.upper_lt) following
  rw [hwritten.read_load .latest, ofStored_toList_of_ofStored hok]

end MedianTracker

/-! ## Loading and reloading -/

/-- A state that was loaded, in whatever layout and off whatever bytes, is loaded again from what is
written of it, any number of times over. -/
def Settles (σ : Type) [Persistent σ] : Prop :=
  ∀ version bytes (s : σ), decode version bytes = .ok s →
    decode .latest (encode s) = .ok s ∧ ∀ n, (· >>= restore)^[n] (decode version bytes) = .ok s

/-- The same of the state of an aggregation, which is kept next to the bytes. -/
def Aggregator.Settles (kind : Aggregation) : Prop :=
  ∀ version bytes (s : Aggregator), ofBytes kind bytes version = .ok s →
    s.kind = kind ∧ ofBytes kind s.toBytes .latest = .ok s ∧
      ∀ n, (· >>= fun s => ofBytes kind s.toBytes .latest)^[n] (ofBytes kind bytes version) = .ok s

theorem iterate_bind {α ε : Type} {f : α → Except ε α} {x : α} (h : f x = .ok x) (n : Nat) :
    (· >>= f)^[n] (.ok x) = .ok x :=
  Function.iterate_fixed (show (Except.ok x >>= f) = .ok x from h) n

theorem read_of_checked {α : Type} {m : Reader α} {version : Version} {bytes : List UInt8} {x : α}
    (h : (do version.check; (m.read bytes).1) = .ok x) : ∃ rest, m.read bytes = (.ok x, rest) := by
  cases hcheck : version.check with
  | error fault =>
    rw [hcheck] at h
    cases h
  | ok _ =>
    rw [hcheck] at h
    exact ⟨(m.read bytes).2, Prod.ext h rfl⟩

theorem settles_of_yields {σ : Type} [Persistent σ]
    (h : ∀ version, Yields ReadsBack (Persistent.load version : Reader σ)) : Settles σ := by
  intro version bytes s hdecode
  obtain ⟨rest, hread⟩ := read_of_checked hdecode
  have hfixed : restore s = .ok s := restore_of_reads (h version bytes s rest hread)
  refine ⟨hfixed, fun n => ?_⟩
  rw [hdecode]
  exact iterate_bind hfixed n

theorem Aggregator.settles (kind : Aggregation) : Settles kind := by
  intro version bytes s hload
  obtain ⟨rest, hread⟩ := read_of_checked hload
  obtain ⟨hkind, hreads⟩ := yields_loadState kind version bytes s rest hread
  have hfixed : ofBytes kind s.toBytes .latest = .ok s := by
    show ((loadState kind .latest).read s.toBytes).1 = .ok s
    rw [hreads.read]
  refine ⟨hkind, hfixed, fun n => ?_⟩
  rw [hload]
  exact iterate_bind hfixed n

/-- **What was loaded once is settled.** Whatever version the bytes are taken for, and whatever they
are: if a state is loaded from them, what is written of that state is loaded as the very same state,
field by field and bit by bit, the order of both heaps of a median included; so no number of reloads
changes or refuses it. -/
theorem load_settles :
    Settles Single ∧ Settles First ∧ Settles Bounds ∧ Settles (Mean Binary64) ∧
      Settles (Moments Binary64) ∧ Settles (TimeWeighted Binary64) ∧ Settles MedianTracker ∧
      Settles CompactionRule ∧ ∀ kind, Aggregator.Settles kind :=
  ⟨settles_of_yields fun _ _ s _ _ => s.reads_load, settles_of_yields fun _ _ s _ _ => s.reads_load,
    settles_of_yields fun _ _ s _ _ => s.reads_load, settles_of_yields Mean.yields_load,
    settles_of_yields Moments.yields_load, settles_of_yields TimeWeighted.yields_load,
    settles_of_yields MedianTracker.yields_load, settles_of_yields CompactionRule.yields_load,
    Aggregator.settles⟩

/-- A mean in the layout of sums, whose count is far beyond the words. -/
def countBeyondWords : List UInt8 :=
  Field.encode [.double (.zero true), .double (ofMagnitude false 0x4490000000000000)]

theorem load_settles_countBeyondWords :
    decode ⟨4⟩ countBeyondWords = .ok (⟨.zero true, 2 ^ 64 - 1, false⟩ : Mean Binary64) ∧
      encode (⟨.zero true, 2 ^ 64 - 1, false⟩ : Mean Binary64)
        = Field.encode [.double (.zero true), .double (ofMagnitude false 0x43f0000000000000),
          .flag false] ∧
      decode .latest (encode (⟨.zero true, 2 ^ 64 - 1, false⟩ : Mean Binary64))
        = .ok (⟨.zero true, 2 ^ 64 - 1, false⟩ : Mean Binary64) := by
  have hload : decode ⟨4⟩ countBeyondWords
      = .ok (⟨.zero true, 2 ^ 64 - 1, false⟩ : Mean Binary64) := by decide +kernel
  exact ⟨hload, by decide +kernel, (load_settles.2.2.2.1 _ _ _ hload).1⟩

end Rollup
