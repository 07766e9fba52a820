import Rollup.Bucket.RuleEncoding
import Rollup.Median.Encoding
import Rollup.Proofs.Encoding.ReadBack

/-!
# Stored forms delimit themselves

What a reader takes is the written form of its value if nothing around it matters: it is read the
same whatever follows it, and none of its strict prefixes is read at all (`Spans`). A reader is
*delimited* if all that it takes, off any bytes, is such a form. Chunks are delimited because they
say how many bytes they need; pure results take nothing; and readers that are run one after the
other are delimited if each of them is (`Delimited.bind`), since a cut hits either the first form,
which runs short, or the second behind the whole of the first. Every layout of every state is put
together in this way (`load_delimited`).
-/

namespace Rollup
namespace Reader

variable {α β : Type} {m : Reader α} {f : α → Reader β} {x : α} {y : β}

/-- The reader fails because the bytes end inside an item. -/
def RunsShort (m : Reader α) (bytes : List UInt8) : Prop :=
  ∃ item needed available, available < needed ∧
    (m.read bytes).1 = .error (.unloadable (.truncated item needed available))

/-- The bytes are a written form of the value: they are read to their end whatever follows them,
and the reader runs short on each of their strict prefixes. -/
structure Spans (m : Reader α) (bytes : List UInt8) (x : α) : Prop where
  reads : Reads m bytes x
  short : ∀ cut, cut <+: bytes → cut ≠ bytes → RunsShort m cut

/-- All that the reader takes off the front of bytes is a written form of what it returns. -/
def Delimited (m : Reader α) : Prop :=
  ∀ bytes x rest, m.read bytes = (.ok x, rest) → ∃ taken, bytes = taken ++ rest ∧ Spans m taken x

/-! ## Running short -/

theorem RunsShort.bind {bytes : List UInt8} (h : RunsShort m bytes) (f : α → Reader β) :
    RunsShort (m >>= f) bytes := by
  obtain ⟨item, needed, available, hlt, herror⟩ := h
  refine ⟨item, needed, available, hlt, ?_⟩
  rw [read_bind]
  rcases hm : m.read bytes with ⟨fault | x, rest⟩
  · rw [hm] at herror
    exact congrArg Except.error (Except.error.inj herror)
  · rw [hm] at herror
    cases herror

theorem RunsShort.bind_of_reads {front back : List UInt8} (hm : Reads m front x)
    (h : RunsShort (f x) back) : RunsShort (m >>= f) (front ++ back) := by
  obtain ⟨item, needed, available, hlt, herror⟩ := h
  refine ⟨item, needed, available, hlt, ?_⟩
  rw [read_bind, hm]
  exact herror

/-! ## Forms -/

theorem Spans.pure (x : α) : Spans (Pure.pure x) [] x where
  reads := Reads.pure x
  short _ hcut hne := absurd (List.prefix_nil.1 hcut) hne

/-- A cut through two forms hits the first one, or the second behind the whole of the first. -/
theorem cut_append {cut front back : List UInt8} (hcut : cut <+: front ++ back)
    (hne : cut ≠ front ++ back) :
    (cut <+: front ∧ cut ≠ front) ∨ ∃ tail, cut = front ++ tail ∧ tail <+: back ∧ tail ≠ back := by
  have hbehind : front <+: cut →
      ∃ tail, cut = front ++ tail ∧ tail <+: back ∧ tail ≠ back := by
    rintro ⟨tail, rfl⟩
    exact ⟨tail, rfl, (List.prefix_append_right_inj front).1 hcut,
      fun h => hne (congrArg (front ++ ·) h)⟩
  -- both are prefixes of the same bytes, so one of them is a prefix of the other
  rcases List.prefix_or_prefix_of_prefix hcut (List.prefix_append front back) with h | h
  · by_cases heq : cut = front
    · exact .inr (hbehind (heq ▸ List.prefix_refl cut))
    · exact .inl ⟨h, heq⟩
  · exact .inr (hbehind h)

theorem Spans.bind {front back : List UInt8} (hm : Spans m front x) (hf : Spans (f x) back y) :
    Spans (m >>= f) (front ++ back) y where
  reads := hm.reads.bind hf.reads
  short cut hcut hne := by
    rcases cut_append hcut hne with ⟨h, hfront⟩ | ⟨tail, rfl, h, htail⟩
    · exact (hm.short cut h hfront).bind f
    · exact .bind_of_reads hm.reads (hf.short tail h htail)

/-! ## Delimited readers -/

theorem Delimited.pure (x : α) : Delimited (Pure.pure x : Reader α) := by
  intro bytes y rest h
  cases h
  exact ⟨[], rfl, Spans.pure x⟩

theorem Delimited.throw (fault : Fault) : Delimited (throw fault : Reader α) := by
  intro bytes x rest h
  cases h

theorem Delimited.bind (hm : Delimited m) (hf : ∀ x, Delimited (f x)) : Delimited (m >>= f) := by
  intro bytes y rest h
  obtain ⟨x, between, hfront, hback⟩ := read_bind_eq_ok h
  obtain ⟨front, rfl, hspans⟩ := hm bytes x between hfront
  obtain ⟨back, rfl, hspans'⟩ := hf x between y rest hback
  exact ⟨front ++ back, (List.append_assoc front back rest).symm, hspans.bind hspans'⟩

theorem Delimited.map (hm : Delimited m) (g : α → β) : Delimited (g <$> m) :=
  hm.bind fun x => .pure (g x)

/-! ## Fields -/

theorem delimited_chunk (item : StoredItem) (count : Nat) : Delimited (chunk item count) := by
  intro bytes x rest h
  rw [read_chunk] at h
  split at h
  · next hle =>
    cases h
    have hlength : (bytes.take count).length = count := List.length_take_of_le hle
    refine ⟨bytes.take count, (List.take_append_drop count bytes).symm, ?_, ?_⟩
    · have hreads := reads_chunk item (bytes.take count)
      rwa [hlength] at hreads
    · intro cut hcut hne
      have hlt : cut.length < count :=
        hlength ▸ Nat.lt_of_le_of_ne hcut.length_le (mt hcut.eq_of_length hne)
      refine ⟨item, count, cut.length, hlt, ?_⟩
      rw [read_chunk, if_neg (Nat.not_le.2 hlt)]
  · cases h

theorem delimited_word (item : StoredItem) : Delimited (word item) := by
  rw [word_eq]
  exact (delimited_chunk item 8).map wordOf

theorem delimited_double : Delimited double := (delimited_word .double).map Binary64.mk

theorem delimited_unsigned : Delimited unsigned := delimited_word .unsigned

theorem delimited_signed : Delimited signed := (delimited_word .unsigned).map UInt64.toInt64

theorem delimited_flag : Delimited flag := (delimited_word .unsigned).map (· != 0)

theorem delimited_buffer : Delimited buffer := by
  rw [buffer_eq]
  exact (delimited_word .unsigned).bind fun length => delimited_chunk .stringBuffer length.toNat

theorem delimited_doubles (count : Nat) : Delimited (doubles count) := by
  induction count with
  | zero => exact .pure []
  | succ count ih => exact delimited_double.bind fun x => ih.bind fun rest => .pure (x :: rest)

end Reader

open Reader

/-! ## States of the aggregations -/

variable (version : Version)

theorem Single.delimited_load : Delimited (Persistent.load version : Reader Single) := by
  refine delimited_double.bind fun value => ?_
  dsimp only
  split
  · exact delimited_unsigned.bind fun _ => .pure _
  · exact .pure _

theorem First.delimited_load : Delimited (Persistent.load version : Reader First) := by
  refine delimited_double.bind fun value => ?_
  split
  · exact delimited_flag.bind fun isUnset => .pure _
  · exact .pure _

theorem Bounds.delimited_load : Delimited (Persistent.load version : Reader Bounds) := by
  refine delimited_double.bind fun greatest => delimited_double.bind fun least => ?_
  dsimp only
  split
  · exact delimited_buffer.bind fun _ => .pure _
  · exact .pure _

theorem Mean.delimited_load : Delimited (Persistent.load version : Reader (Mean Binary64)) := by
  refine delimited_double.bind fun total => delimited_double.bind fun stored => ?_
  split
  · exact .throw _
  · split
    · exact delimited_flag.bind fun isMean => .pure _
    · exact .pure _

theorem Moments.delimited_load :
    Delimited (Persistent.load version : Reader (Moments Binary64)) :=
  delimited_double.bind fun _ => delimited_double.bind fun _ => delimited_unsigned.bind fun _ =>
    .pure _

theorem TimeWeighted.delimited_load :
    Delimited (Persistent.load version : Reader (TimeWeighted Binary64)) :=
  delimited_double.bind fun _ => delimited_signed.bind fun _ => delimited_double.bind fun _ =>
    delimited_signed.bind fun _ => delimited_signed.bind fun _ => delimited_signed.bind fun _ =>
      delimited_signed.bind fun _ => delimited_flag.bind fun _ => delimited_unsigned.bind fun _ =>
        delimited_flag.bind fun _ => .pure _

theorem Aggregator.delimited_loadState (kind : Aggregation) :
    Delimited (Aggregator.loadState kind version) := by
  cases kind with
  | sum | count | last => exact (Single.delimited_load version).map _
  | min | max | range => exact (Bounds.delimited_load version).map _
  | first => exact (First.delimited_load version).map _
  | avg => exact (Mean.delimited_load version).map _
  | varP | varS | stdP | stdS => exact (Moments.delimited_load version).map _
  | twa => exact (TimeWeighted.delimited_load version).map _

/-! ## Medians and rules -/

theorem MedianTracker.delimited_loadHalf : Delimited loadHalf :=
  delimited_unsigned.bind fun count => delimited_doubles count.toNat

theorem MedianTracker.delimited_load :
    Delimited (Persistent.load version : Reader MedianTracker) := by
  refine delimited_loadHalf.bind fun lower => delimited_loadHalf.bind fun upper =>
    delimited_double.bind fun median => ?_
  -- the halves and the median are all there: what is left to find out takes no more bytes
  split
  · exact .pure _
  · exact .throw _

namespace CompactionRule

theorem delimited_loadKind : Delimited loadKind := by
  refine delimited_buffer.bind fun bytes => ?_
  split
  · exact .throw _
  · split
    · exact .pure _
    · exact .throw _

theorem delimited_loadGrid : Delimited loadGrid := by
  refine delimited_signed.bind fun duration => ?_
  split
  · exact delimited_signed.bind fun alignment => .pure _
  · exact .throw _

theorem delimited_loadBucket : Delimited loadBucket :=
  delimited_flag.bind fun _ => delimited_signed.bind fun _ => .pure _

theorem delimited_loadSample : Delimited loadSample :=
  delimited_flag.bind fun _ => delimited_signed.bind fun _ => delimited_double.bind fun _ =>
    .pure _

theorem delimited_load : Delimited (Persistent.load version : Reader CompactionRule) :=
  delimited_loadKind.bind fun kind => delimited_loadGrid.bind fun _ =>
    delimited_loadBucket.bind fun _ => delimited_loadSample.bind fun _ =>
      (Aggregator.delimited_loadState version kind).bind fun _ => .pure _

end CompactionRule

/-- **Stored forms delimit themselves.** Whatever state is read, in whatever layout and off whatever
bytes: the bytes it took are read as the same state whatever follows them, which is then left as it
is, and each of their strict prefixes is refused as one that ends inside an item. -/
theorem load_delimited :
    Delimited (Persistent.load version : Reader Single) ∧
    Delimited (Persistent.load version : Reader First) ∧
    Delimited (Persistent.load version : Reader Bounds) ∧
    Delimited (Persistent.load version : Reader (Mean Binary64)) ∧
    Delimited (Persistent.load version : Reader (Moments Binary64)) ∧
    Delimited (Persistent.load version : Reader (TimeWeighted Binary64)) ∧
    Delimited (Persistent.load version : Reader MedianTracker) ∧
    Delimited (Persistent.load version : Reader CompactionRule) ∧
    ∀ kind, Delimited (Aggregator.loadState kind version) :=
  ⟨Single.delimited_load version, First.delimited_load version, Bounds.delimited_load version,
    Mean.delimited_load version, Moments.delimited_load version,
    TimeWeighted.delimited_load version, MedianTracker.delimited_load version,
    CompactionRule.delimited_load version, Aggregator.delimited_loadState version⟩

/-- Bounds in an old layout, where a buffer of three bytes belongs to them and a fourth does not. -/
def boundsWithBuffer : List UInt8 :=
  Field.encode [.double .maxFinite, .double .minFinite, .buffer [7, 0, 7]] ++ [7]

theorem load_delimited_boundsWithBuffer :
    (Persistent.load ⟨3⟩ : Reader Bounds).read boundsWithBuffer
        = (.ok ⟨.minFinite, .maxFinite⟩, [7]) ∧
      ∃ taken, boundsWithBuffer = taken ++ [7] ∧
        Spans (Persistent.load ⟨3⟩) taken (⟨.minFinite, .maxFinite⟩ : Bounds) := by
  have hread : (Persistent.load ⟨3⟩ : Reader Bounds).read boundsWithBuffer
      = (.ok ⟨.minFinite, .maxFinite⟩, [7]) := by rfl
  exact ⟨hread, (load_delimited ⟨3⟩).2.2.1 _ _ _ hread⟩

end Rollup
