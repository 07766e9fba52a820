import Rollup.Bucket.RuleEncoding
import Rollup.Proofs.Binary64.Arithmetic
import Rollup.Proofs.Encoding.Names
import Rollup.Proofs.Encoding.ReadBack

/-!
# Stored states are read back

The states of the aggregations and of the rules are written in the latest layout and read back from
it, field by field and bit by bit. The one condition is that the layout has room for the state
(`Storable`): the count of an average is stored as a double, all other counts as a word.
-/

namespace Rollup

open Reader (Reads)
open Binary64

/-! ## States of the aggregations -/

theorem Single.reads_load (s : Single) : Reads (Persistent.load .latest) (encode s) s :=
  (Reader.reads_double s.value).cons (Reads.pure s)

theorem First.reads_load (s : First) : Reads (Persistent.load .latest) (encode s) s :=
  (Reader.reads_double s.value).cons ((Reader.reads_flag s.isUnset).cons (Reads.pure s))

theorem Bounds.reads_load (s : Bounds) : Reads (Persistent.load .latest) (encode s) s :=
  (Reader.reads_double s.greatest).cons ((Reader.reads_double s.least).cons (Reads.pure s))

theorem Moments.reads_load {s : Moments Binary64} (hcount : s.count < 2 ^ 64) :
    Reads (Persistent.load .latest) (encode s) s := by
  have hword : (UInt64.ofNat s.count).toNat = s.count := UInt64.toNat_ofNat_of_lt' hcount
  refine (Reader.reads_double s.sum).cons ((Reader.reads_double s.sumOfSquares).cons
    ((Reader.reads_unsigned (UInt64.ofNat s.count)).cons ?_))
  rw [hword]
  exact Reads.pure s

theorem TimeWeighted.reads_load {s : TimeWeighted Binary64} (hcount : s.count < 2 ^ 64) :
    Reads (Persistent.load .latest) (encode s) s := by
  have hword : (UInt64.ofNat s.count).toNat = s.count := UInt64.toNat_ofNat_of_lt' hcount
  refine (Reader.reads_double s.area).cons ((Reader.reads_signed s.lastTime).cons
    ((Reader.reads_double s.lastValue).cons ((Reader.reads_signed s.startEdge).cons
      ((Reader.reads_signed s.closingEdge).cons ((Reader.reads_signed s.coveredFrom).cons
        ((Reader.reads_signed s.coveredTo).cons ((Reader.reads_flag s.isFirstBucket).cons
          ((Reader.reads_unsigned (UInt64.ofNat s.count)).cons
            ((Reader.reads_flag s.reverse).cons ?_)))))))))
  rw [hword]
  exact Reads.pure s

/-- A count that a double holds exactly is read off that double. -/
theorem Mean.countOfStored_natCast {count : Nat} (hle : count ≤ 2 ^ 53) :
    countOfStored ((count : Int) : Binary64) = .ok count := by
  obtain ⟨k, hk, hunits, heq⟩ := natCast_eq hle
  have hsign : k < signWeight := hk.trans (by decide)
  rw [heq, countOfStored, isFinite_ofMagnitude false hk, toUnits_ofMagnitude hsign, hunits]
  -- The units of a whole number are a multiple of those of one, and the words bound no count here.
  rw [decide_eq_true (Int.natCast_nonneg _), Int.natAbs_natCast, Nat.mul_mod_left,
    Nat.mul_div_cancel _ unitsPerOne_pos]
  exact congrArg Except.ok (Nat.min_eq_left (hle.trans (by decide)))

/-- A mean is read back if the double that stands for its count is read as that count. -/
theorem Mean.reads_load_of_count {s : Mean Binary64}
    (hcount : countOfStored ((s.count : Int) : Binary64) = .ok s.count) :
    Reads (Persistent.load .latest) (encode s) s := by
  refine (Reader.reads_double s.total).cons
    ((Reader.reads_double ((s.count : Int) : Binary64)).cons ?_)
  rw [hcount]
  exact (Reader.reads_flag s.isMean).cons (Reads.pure s)

theorem Mean.reads_load {s : Mean Binary64} (hcount : s.count ≤ 2 ^ 53) :
    Reads (Persistent.load .latest) (encode s) s :=
  reads_load_of_count (countOfStored_natCast hcount)

namespace Aggregator

/-- The layout has room for the count of the state. -/
def Storable : Aggregator → Prop
  | mean state => state.count ≤ 2 ^ 53
  | spread _ state => state.count < 2 ^ 64
  | timeWeighted state => state.count < 2 ^ 64
  | _ => True

theorem reads_loadState {s : Aggregator} (h : s.Storable) :
    Reads (loadState s.kind .latest) s.toBytes s := by
  cases s with
  | tally fold state => cases fold <;> exact state.reads_load.map _
  | extreme report state => cases report <;> exact state.reads_load.map _
  | first state => exact state.reads_load.map _
  | mean state => exact (Mean.reads_load h).map _
  | spread report state => cases report <;> exact (Moments.reads_load h).map _
  | timeWeighted state => exact (TimeWeighted.reads_load h).map _

theorem ofBytes_toBytes {s : Aggregator} (h : s.Storable) :
    ofBytes s.kind s.toBytes .latest = .ok s := by
  show ((loadState s.kind .latest).read s.toBytes).1 = .ok s
  rw [(reads_loadState h).read]

end Aggregator

/-! ## Rules -/

namespace CompactionRule

theorem reads_loadKind (kind : Aggregation) :
    Reads loadKind (Field.buffer kind.token.toUTF8.toList).bytes kind := by
  have hlength : kind.token.toUTF8.toList.length < UInt64.size := by
    rw [Utf8.toList_toUTF8]
    cases kind <;> decide
  have htext : Utf8.decode kind.token.toUTF8.toList = .ok kind.token :=
    Utf8.decode_eq_ok_iff.2 rfl
  intro rest
  rw [loadKind, Reader.read_bind, Reader.reads_buffer hlength rest]
  dsimp only
  rw [htext]
  dsimp only
  rw [Aggregation.ofName?_token]
  rfl

theorem reads_loadGrid (g : Grid) :
    Reads loadGrid (Field.encode [.signed g.duration, .signed g.alignment]) g := by
  refine (Reader.reads_signed g.duration).cons ?_
  rw [dif_pos g.duration_pos]
  exact (Reader.reads_signed g.alignment).cons (Reads.pure g)

theorem reads_loadBucket (bucket : Option Timestamp) :
    Reads loadBucket (Field.encode [.flag bucket.isSome, .signed (bucket.getD 0)]) bucket := by
  have hread : (if bucket.isSome then some (bucket.getD 0) else none) = bucket := by
    cases bucket <;> rfl
  refine (Reader.reads_flag bucket.isSome).cons ((Reader.reads_signed (bucket.getD 0)).cons ?_)
  rw [hread]
  exact Reads.pure bucket

theorem reads_loadSample (sample : Option (Sample Binary64)) :
    Reads loadSample (Field.encode [.flag sample.isSome,
      .signed (sample.getD ⟨0, .zero false⟩).timestamp,
      .double (sample.getD ⟨0, .zero false⟩).value]) sample := by
  generalize hlast : sample.getD ⟨0, .zero false⟩ = last
  have hread : (if sample.isSome then some ⟨last.timestamp, last.value⟩ else none) = sample := by
    cases sample with
    | none => rfl
    | some sample => rw [← hlast]; rfl
  refine (Reader.reads_flag sample.isSome).cons ((Reader.reads_signed last.timestamp).cons
    ((Reader.reads_double last.value).cons ?_))
  rw [hread]
  exact Reads.pure sample

/-- A rule is read back if its state is. -/
theorem reads_load_of_accumulator {r : CompactionRule}
    (h : Reads (Aggregator.loadState r.accumulator.kind .latest) r.accumulator.toBytes
      r.accumulator) :
    Reads (Persistent.load .latest) (encode r) r := by
  have hbytes : encode r = (Field.buffer r.accumulator.kind.token.toUTF8.toList).bytes
      ++ (Field.encode [.signed r.grid.duration, .signed r.grid.alignment]
      ++ (Field.encode [.flag r.openBucket.isSome, .signed (r.openBucket.getD 0)]
      ++ (Field.encode [.flag r.lastSample.isSome,
          .signed (r.lastSample.getD ⟨0, .zero false⟩).timestamp,
          .double (r.lastSample.getD ⟨0, .zero false⟩).value]
      ++ (r.accumulator.toBytes ++ [])))) := by
    simp only [Field.encode_cons, Field.encode_nil, List.append_nil, List.append_assoc]
    rfl
  rw [hbytes]
  refine (reads_loadKind r.accumulator.kind).bind ?_
  refine (reads_loadGrid r.grid).bind ((reads_loadBucket r.openBucket).bind ?_)
  refine (reads_loadSample r.lastSample).bind (h.bind ?_)
  exact Reads.pure r

theorem reads_load {r : CompactionRule} (h : r.accumulator.Storable) :
    Reads (Persistent.load .latest) (encode r) r :=
  reads_load_of_accumulator (Aggregator.reads_loadState h)

end CompactionRule

end Rollup
