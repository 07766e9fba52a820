import Rollup.Median.Encoding
import Rollup.Proofs.Encoding.ReadBack
import Rollup.Proofs.Median.Halves

/-!
# Stored trackers

Whatever bytes a tracker is read from, it is sound (`sound_of_read`): the halves are built anew, and
what building does not guarantee is checked. The bytes of a tracker hold its halves and its median
(`Stored`), and those of a sound tracker hold the halves in heap order, so building moves nothing;
what is left to refuse them for is that the halves overlap in the total order (`Overlaps`).
`restore_eq_ok` and `restore_eq_error` say that this is the one obstacle.
-/

namespace Rollup
namespace MedianTracker

open Heap (ranking_totalLt ranking_totalGt)
open Reader (Reads)

variable {t : MedianTracker} {lower : Heap Binary64.totalGt} {upper : Heap Binary64.totalLt}
  {a b : Binary64}

/-! ## What is read is sound -/

theorem sizes_of_check (h : check lower upper = .ok ()) :
    lower.size ≤ upper.size + 1 ∧ upper.size ≤ lower.size + 1 := by
  unfold check at h
  by_cases hsizes : upper.size + 1 < lower.size ∨ lower.size + 1 < upper.size
  · rw [if_pos hsizes] at h
    cases h
  · omega

theorem sound_ofStored {values values' : List Binary64} {median : Binary64}
    (h : ofStored values values' median = .ok t) : Sound t := by
  unfold ofStored at h
  dsimp only at h
  cases hcheck : check (.ofArray values.toArray) (.ofArray values'.toArray) with
  | error cause =>
    rw [hcheck] at h
    cases h
  | ok _ =>
    rw [hcheck] at h
    dsimp only at h
    split at h
    · cases h
      obtain ⟨hlower, hupper⟩ := sizes_of_check hcheck
      exact ⟨Heap.isHeap_ofArray ranking_totalGt _, Heap.isHeap_ofArray ranking_totalLt _, hlower,
        hupper, rfl⟩
    · cases h

/-- Every tracker that is read is sound, from any bytes and in any layout. -/
theorem sound_of_read {version : Version} {bytes rest : List UInt8}
    (h : (Persistent.load version : Reader MedianTracker).read bytes = (.ok t, rest)) :
    Sound t := by
  obtain ⟨values, _, -, h⟩ := Reader.read_bind_eq_ok h
  obtain ⟨values', _, -, h⟩ := Reader.read_bind_eq_ok h
  obtain ⟨median, _, -, h⟩ := Reader.read_bind_eq_ok h
  cases hstored : ofStored values values' median with
  | error cause =>
    rw [hstored] at h
    cases h
  | ok t' =>
    rw [hstored] at h
    cases h
    exact sound_ofStored hstored

/-! ## What is written is read -/

/-- The total order ranks the top `a` of the lower half above the top `b` of the upper half. -/
structure Overlaps (t : MedianTracker) (a b : Binary64) : Prop where
  lower : t.lower.top? = some a
  upper : t.upper.top? = some b
  totalLt : Binary64.totalLt b a = true

/-- Heaps are only checked for their sizes and their tops. -/
theorem check_of_isHeap (hlower : Heap.IsHeap Binary64.totalGt lower.items)
    (hupper : Heap.IsHeap Binary64.totalLt upper.items) :
    check lower upper =
      if upper.size + 1 < lower.size ∨ lower.size + 1 < upper.size then
        .error (.unbalancedHalves lower.size upper.size)
      else
        match lower.top?, upper.top? with
        | some a, some b =>
          if Binary64.totalLt b a then .error (.overlappingHalves a b) else .ok ()
        | _, _ => .ok () := by
  unfold check
  rw [Heap.isHeap_iff.2 hlower, Heap.isHeap_iff.2 hupper]
  rfl

/-- Sound halves pass the check unless they overlap. -/
theorem Sound.check_eq (hs : Sound t) :
    check t.lower t.upper = match t.lower.top?, t.upper.top? with
      | some a, some b =>
        if Binary64.totalLt b a then .error (.overlappingHalves a b) else .ok ()
      | _, _ => .ok () := by
  have hlower := hs.lower_le
  have hupper := hs.upper_le
  rw [check_of_isHeap hs.lower hs.upper, if_neg (by omega)]

theorem Sound.check_of_overlaps (hs : Sound t) (h : Overlaps t a b) :
    check t.lower t.upper = .error (.overlappingHalves a b) := by
  rw [hs.check_eq, h.lower, h.upper]
  exact if_pos h.totalLt

theorem Sound.check_of_not_overlaps (hs : Sound t) (h : ∀ a b, ¬Overlaps t a b) :
    check t.lower t.upper = .ok () := by
  rw [hs.check_eq]
  cases hlower : t.lower.top? with
  | none => rfl
  | some a =>
    cases hupper : t.upper.top? with
    | none => rfl
    | some b => exact if_neg fun hlt => h a b ⟨hlower, hupper, hlt⟩

/-- The stored halves and the stored median are those of the tracker, so only the check decides. -/
theorem Sound.ofStored_toList (hs : Sound t) :
    ofStored t.lower.toList t.upper.toList t.median = (check t.lower t.upper).map fun _ => t := by
  have ht : ofHalves t.lower t.upper = t := by
    rw [ofHalves, ← hs.median]
  unfold ofStored Heap.toList
  dsimp only
  rw [Array.toArray_toList, Array.toArray_toList, Heap.ofArray_items ranking_totalGt hs.lower,
    Heap.ofArray_items ranking_totalLt hs.upper, ht, Binary64.same_self]
  cases check t.lower t.upper <;> rfl

theorem reads_loadHalf {values : List Binary64} (hlength : values.length < 2 ^ 64) :
    Reads loadHalf (Field.encode (halfFields values)) values := by
  have hword : (UInt64.ofNat values.length).toNat = values.length :=
    UInt64.toNat_ofNat_of_lt' hlength
  refine (Reader.reads_unsigned (UInt64.ofNat values.length)).cons ?_
  rw [hword]
  exact Reader.reads_doubles values

/-- The bytes begin with the two lists, each behind its length, and the number; `rest` follows. -/
structure Stored (lower upper : List Binary64) (median : Binary64) (bytes rest : List UInt8) :
    Prop where
  lower_lt : lower.length < 2 ^ 64
  upper_lt : upper.length < 2 ^ 64
  bytes_eq : bytes
    = Field.encode (halfFields lower ++ halfFields upper ++ [.double median]) ++ rest

/-- What two lists and a number come to once they are read. -/
theorem Stored.read_load {lower upper : List Binary64} {median : Binary64}
    {bytes rest : List UInt8} (h : Stored lower upper median bytes rest) (version : Version) :
    (Persistent.load version : Reader MedianTracker).read bytes
      = (match ofStored lower upper median with
        | .ok t => .ok t
        | .error cause => .error (.unloadable cause), rest) := by
  have hbytes : bytes = Field.encode (halfFields lower)
      ++ (Field.encode (halfFields upper) ++ ((Field.double median).bytes ++ rest)) := by
    rw [h.bytes_eq, Field.encode_append, Field.encode_append, List.append_assoc, List.append_assoc,
      Field.encode_cons, Field.encode_nil, List.append_nil]
  show Reader.read (loadHalf >>= fun lower => loadHalf >>= fun upper =>
    Reader.double >>= fun median => match ofStored lower upper median with
      | .ok t => pure t
      | .error cause => throw (.unloadable cause)) bytes = _
  rw [hbytes, Reader.read_bind, reads_loadHalf h.lower_lt]
  dsimp only
  rw [Reader.read_bind, reads_loadHalf h.upper_lt]
  dsimp only
  rw [Reader.read_bind, Reader.reads_double]
  dsimp only
  cases ofStored lower upper median <;> rfl

theorem stored_encode (hlower : t.lower.size < 2 ^ 64) (hupper : t.upper.size < 2 ^ 64)
    (rest : List UInt8) :
    Stored t.lower.toList t.upper.toList t.median (encode t ++ rest) rest :=
  ⟨by rwa [Heap.length_toList], by rwa [Heap.length_toList], rfl⟩

/-- The bytes of a tracker are read to their end, and the halves and the median in them are put
together. -/
theorem restore_eq_ofStored (hsize : t.size < 2 ^ 64) :
    restore t = match ofStored t.lower.toList t.upper.toList t.median with
      | .ok t => .ok t
      | .error cause => .error (.unloadable cause) := by
  have hstored := stored_encode (t := t) (Nat.lt_of_le_of_lt (Nat.le_add_right _ _) hsize)
    (Nat.lt_of_le_of_lt (Nat.le_add_left _ _) hsize) []
  rw [List.append_nil] at hstored
  rw [restore_eq, hstored.read_load]

theorem Sound.restore_eq_ok (hs : Sound t) (hsize : t.size < 2 ^ 64)
    (h : ∀ a b, ¬Overlaps t a b) : restore t = .ok t := by
  rw [restore_eq_ofStored hsize, hs.ofStored_toList, hs.check_of_not_overlaps h]
  rfl

theorem Sound.restore_eq_error (hs : Sound t) (hsize : t.size < 2 ^ 64) (h : Overlaps t a b) :
    restore t = .error (.unloadable (.overlappingHalves a b)) := by
  rw [restore_eq_ofStored hsize, hs.ofStored_toList, hs.check_of_overlaps h]
  rfl

end MedianTracker
end Rollup
