import Rollup.Proofs.Encoding.Delimited
import Rollup.Proofs.Encoding.Layouts
import Rollup.Proofs.Encoding.Names
import Rollup.Proofs.Encoding.Outcomes

/-!
# What bytes are a stored rule

A stored rule is the name of an aggregation, a positive duration, an alignment, the open bucket and
the last sample behind their flags, and a state of that aggregation (`Stored`). Bytes that begin so
are read as that rule; bytes whose name is a text that names nothing are refused with that text,
whatever follows it; and all other bytes are refused as unloadable (`decode_outcomes`).

The format is compared with the reader from the inside: since a reader that is delimited takes
exactly its form, what two readers take one after the other is the form of the first and then that
of the second (`Reads.bind_iff`).
-/

namespace Rollup
namespace Reader

variable {α β : Type} {m : Reader α} {f : α → Reader β} {x x' : α} {y : β} {bytes : List UInt8}

/-! ## Forms of readers -/

/-- What is read by two readers falls into the form of the first and that of the second. -/
theorem Reads.bind_iff (hm : Delimited m) : Reads (m >>= f) bytes y ↔
    ∃ front back x, bytes = front ++ back ∧ Reads m front x ∧ Reads (f x) back y := by
  constructor
  · intro h
    obtain ⟨x, back, hx, -⟩ := read_bind_eq_ok (h [])
    rw [List.append_nil] at hx
    obtain ⟨front, rfl, hspans⟩ := hm _ _ _ hx
    refine ⟨front, back, x, rfl, hspans.reads, fun rest => ?_⟩
    have hrest := h rest
    rwa [read_bind, List.append_assoc, hspans.reads] at hrest
  · rintro ⟨front, back, x, rfl, hx, hy⟩
    exact hx.bind hy

theorem Reads.pure_iff : Reads (Pure.pure x : Reader α) bytes x' ↔ bytes = [] ∧ x' = x := by
  constructor
  · intro h
    obtain ⟨hout, hbytes⟩ := Prod.mk.inj (h [])
    exact ⟨(List.append_eq_nil_iff.1 hbytes).1, (Except.ok.inj hout).symm⟩
  · rintro ⟨rfl, rfl⟩
    exact Reads.pure x'

theorem Reads.not_throw {fault : Fault} : ¬Reads (throw fault : Reader α) bytes x :=
  fun h => nomatch h []

theorem Reads.map_iff (hm : Delimited m) {g : α → β} :
    Reads (g <$> m) bytes y ↔ ∃ x, Reads m bytes x ∧ y = g x := by
  rw [map_eq_pure_bind, bind_iff hm]
  simp only [pure_iff]
  constructor
  · rintro ⟨front, back, x, rfl, hx, rfl, rfl⟩
    exact ⟨x, (List.append_nil front).symm ▸ hx, rfl⟩
  · rintro ⟨x, hx, rfl⟩
    exact ⟨bytes, [], x, (List.append_nil bytes).symm, hx, rfl, rfl⟩

/-- What a failing run of two readers consists of. -/
theorem read_bind_eq_error {rest : List UInt8} {fault : Fault}
    (h : (m >>= f).read bytes = (.error fault, rest)) : m.read bytes = (.error fault, rest) ∨
      ∃ x between, m.read bytes = (.ok x, between) ∧ (f x).read between = (.error fault, rest) := by
  rw [read_bind] at h
  rcases hm : m.read bytes with ⟨fault' | x, between⟩
  · rw [hm] at h
    cases h
    exact .inl rfl
  · rw [hm] at h
    exact .inr ⟨x, between, rfl, h⟩

theorem reads_word_iff {item : StoredItem} {w : UInt64} :
    Reads (word item) bytes w ↔ bytes = Field.wordBytes w := by
  constructor
  · intro h
    exact List.append_cancel_right (takes_word item _ _ _ (h []))
  · rintro rfl
    exact reads_word item w

theorem reads_signed_iff {n : Int64} : Reads signed bytes n ↔ bytes = (Field.signed n).bytes := by
  rw [show signed = UInt64.toInt64 <$> word .unsigned from rfl,
    Reads.map_iff (delimited_word .unsigned)]
  simp only [reads_word_iff]
  constructor
  · rintro ⟨w, rfl, rfl⟩
    rfl
  · rintro rfl
    exact ⟨n.toUInt64, rfl, rfl⟩

theorem reads_double_iff {v : Binary64} :
    Reads double bytes v ↔ bytes = (Field.double v).bytes := by
  rw [show double = Binary64.mk <$> word .double from rfl, Reads.map_iff (delimited_word .double)]
  simp only [reads_word_iff]
  constructor
  · rintro ⟨w, rfl, rfl⟩
    rfl
  · rintro rfl
    exact ⟨v.bits, rfl, rfl⟩

/-- Any word is a flag. -/
theorem reads_flag_iff {b : Bool} :
    Reads flag bytes b ↔ ∃ w, bytes = (Field.unsigned w).bytes ∧ b = (w != 0) := by
  rw [show flag = (· != 0) <$> word .unsigned from rfl, Reads.map_iff (delimited_word .unsigned)]
  simp only [reads_word_iff]
  rfl

theorem reads_buffer_iff {content : List UInt8} : Reads buffer bytes content ↔
    content.length < UInt64.size ∧ bytes = (Field.buffer content).bytes := by
  constructor
  · intro h
    rw [buffer_eq, Reads.bind_iff (delimited_word .unsigned)] at h
    obtain ⟨front, back, length, rfl, hfront, hback⟩ := h
    rw [reads_word_iff] at hfront
    have hread := hback []
    rw [read_chunk, List.append_nil] at hread
    split at hread
    · next hle =>
      obtain ⟨hcontent, hrest⟩ := Prod.mk.inj hread
      -- nothing remains, so the content is as long as its length word says
      have hlength : back.length = length.toNat :=
        Nat.le_antisymm (List.drop_eq_nil_iff.1 hrest) hle
      rw [← hlength, List.take_length] at hcontent
      cases hcontent
      refine ⟨hlength ▸ length.toNat_lt, ?_⟩
      rw [hfront, Field.bytes, hlength, UInt64.ofNat_toNat]
    · cases hread
  · rintro ⟨hlength, rfl⟩
    exact reads_buffer hlength

/-! ## Readers that fail as unloadable -/

/-- The fault of bytes that a state cannot be read from. -/
def IsUnloadable (fault : Fault) : Prop := ∃ cause, fault = .unloadable cause

theorem unloadable_word (item : StoredItem) : Fails IsUnloadable (word item) :=
  fails_word item fun _ _ => ⟨_, rfl⟩

theorem unloadable_double : Fails IsUnloadable double :=
  (unloadable_word .double).bind fun _ => .pure _

theorem unloadable_signed : Fails IsUnloadable signed :=
  (unloadable_word .unsigned).bind fun _ => .pure _

theorem unloadable_flag : Fails IsUnloadable flag :=
  (unloadable_word .unsigned).bind fun _ => .pure _

theorem unloadable_buffer : Fails IsUnloadable buffer := by
  rw [buffer_eq]
  refine (unloadable_word .unsigned).bind fun length bytes fault rest h => ?_
  rw [read_chunk] at h
  split at h
  · cases h
  · cases h
    exact ⟨_, rfl⟩

end Reader

open Reader

/-! ## States -/

section States

variable (version : Version)

theorem Single.unloadable_load :
    Fails IsUnloadable (Persistent.load version : Reader Single) := by
  refine unloadable_double.bind fun value => ?_
  dsimp only
  split
  · exact (unloadable_word .unsigned).bind fun _ => .pure _
  · exact .pure _

theorem First.unloadable_load : Fails IsUnloadable (Persistent.load version : Reader First) := by
  refine unloadable_double.bind fun value => ?_
  split
  · exact unloadable_flag.bind fun _ => .pure _
  · exact .pure _

theorem Bounds.unloadable_load :
    Fails IsUnloadable (Persistent.load version : Reader Bounds) := by
  refine unloadable_double.bind fun greatest => unloadable_double.bind fun least => ?_
  dsimp only
  split
  · exact unloadable_buffer.bind fun _ => .pure _
  · exact .pure _

theorem Mean.unloadable_load :
    Fails IsUnloadable (Persistent.load version : Reader (Mean Binary64)) := by
  refine unloadable_double.bind fun total => unloadable_double.bind fun stored => ?_
  split
  · exact .throw ⟨_, rfl⟩
  · split
    · exact unloadable_flag.bind fun _ => .pure _
    · exact .pure _

theorem Moments.unloadable_load :
    Fails IsUnloadable (Persistent.load version : Reader (Moments Binary64)) :=
  unloadable_double.bind fun _ => unloadable_double.bind fun _ =>
    (unloadable_word .unsigned).bind fun _ => .pure _

theorem TimeWeighted.unloadable_load :
    Fails IsUnloadable (Persistent.load version : Reader (TimeWeighted Binary64)) :=
  unloadable_double.bind fun _ => unloadable_signed.bind fun _ => unloadable_double.bind fun _ =>
    unloadable_signed.bind fun _ => unloadable_signed.bind fun _ => unloadable_signed.bind fun _ =>
      unloadable_signed.bind fun _ => unloadable_flag.bind fun _ =>
        (unloadable_word .unsigned).bind fun _ => unloadable_flag.bind fun _ => .pure _

theorem Aggregator.unloadable_loadState (kind : Aggregation) :
    Fails IsUnloadable (Aggregator.loadState kind version) := by
  cases kind with
  | sum | count | last => exact (Single.unloadable_load version).bind fun _ => .pure _
  | min | max | range => exact (Bounds.unloadable_load version).bind fun _ => .pure _
  | first => exact (First.unloadable_load version).bind fun _ => .pure _
  | avg => exact (Mean.unloadable_load version).bind fun _ => .pure _
  | varP | varS | stdP | stdS => exact (Moments.unloadable_load version).bind fun _ => .pure _
  | twa => exact (TimeWeighted.unloadable_load version).bind fun _ => .pure _

end States

namespace CompactionRule

/-! ## Names -/

/-- Looks up the bytes of a name. -/
def lookUp (name : List UInt8) : Reader Aggregation :=
  match Utf8.decode name with
  | .error cause => throw (.unloadable (.nameNotUtf8 cause))
  | .ok text =>
    match Aggregation.ofName? text with
    | some kind => return kind
    | none => throw (.unknownAggregation text)

theorem loadKind_eq : loadKind = buffer >>= lookUp := rfl

theorem lookUp_of_spells {kind : Aggregation} {name : List UInt8} (h : kind.Spells name) :
    lookUp name = pure kind := by
  obtain ⟨text, rfl⟩ := h.exists_text
  rw [lookUp, Utf8.decode_eq_ok_iff.2 rfl]
  dsimp only
  rw [Aggregation.ofName?_eq_some_iff.2 h]

theorem lookUp_of_unknown {text : String}
    (h : ∀ kind, ¬Aggregation.Spells kind text.toUTF8.toList) :
    lookUp text.toUTF8.toList = throw (.unknownAggregation text) := by
  rw [lookUp, Utf8.decode_eq_ok_iff.2 rfl]
  dsimp only
  rw [Option.eq_none_iff_forall_ne_some.2 fun kind heq =>
    h kind (Aggregation.ofName?_eq_some_iff.1 heq)]

/-- A name names an aggregation, or it is another text, or it is no text. -/
theorem lookUp_cases (name : List UInt8) :
    (∃ kind, Aggregation.Spells kind name) ∨
    (∃ text : String, name = text.toUTF8.toList ∧ ∀ kind, ¬Aggregation.Spells kind name) ∨
    ∃ cause, lookUp name = throw (.unloadable cause) := by
  rcases hdecode : Utf8.decode name with cause | text
  · refine .inr (.inr ⟨.nameNotUtf8 cause, ?_⟩)
    rw [lookUp, hdecode]
  · by_cases hkind : ∃ kind, Aggregation.Spells kind name
    · exact .inl hkind
    · exact .inr (.inl ⟨text, Utf8.decode_eq_ok_iff.1 hdecode, not_exists.1 hkind⟩)

theorem reads_lookUp_iff {name bytes : List UInt8} {kind : Aggregation} :
    Reads (lookUp name) bytes kind ↔ bytes = [] ∧ kind.Spells name := by
  constructor
  · intro h
    rcases lookUp_cases name with ⟨kind', hkind⟩ | ⟨text, rfl, hnone⟩ | ⟨cause, hcause⟩
    · rw [lookUp_of_spells hkind, Reads.pure_iff] at h
      exact ⟨h.1, h.2 ▸ hkind⟩
    · exact absurd (lookUp_of_unknown hnone ▸ h) Reads.not_throw
    · exact absurd (hcause ▸ h) Reads.not_throw
  · rintro ⟨rfl, hkind⟩
    rw [lookUp_of_spells hkind]
    exact Reads.pure kind

/-! ## Headers -/

theorem reads_loadKind_iff {bytes : List UInt8} {kind : Aggregation} :
    Reads loadKind bytes kind ↔ ∃ name, name.length < UInt64.size ∧ kind.Spells name ∧
      bytes = (Field.buffer name).bytes := by
  rw [loadKind_eq, Reads.bind_iff delimited_buffer]
  simp only [reads_buffer_iff, reads_lookUp_iff]
  constructor
  · rintro ⟨front, back, name, rfl, ⟨hroom, rfl⟩, rfl, hkind⟩
    exact ⟨name, hroom, hkind, List.append_nil _⟩
  · rintro ⟨name, hroom, hkind, rfl⟩
    exact ⟨_, [], name, (List.append_nil _).symm, ⟨hroom, rfl⟩, rfl, hkind⟩

theorem reads_loadGrid_iff {bytes : List UInt8} {grid : Grid} :
    Reads loadGrid bytes grid ↔
      bytes = Field.encode [.signed grid.duration, .signed grid.alignment] := by
  refine ⟨fun h => ?_, fun h => h ▸ reads_loadGrid grid⟩
  obtain ⟨front, back, duration, rfl, hduration, hgrid⟩ := (Reads.bind_iff delimited_signed).1 h
  split at hgrid
  · next hpos =>
    rw [← map_eq_pure_bind, Reads.map_iff delimited_signed] at hgrid
    obtain ⟨alignment, halignment, rfl⟩ := hgrid
    rw [reads_signed_iff.1 hduration, reads_signed_iff.1 halignment]
    exact congrArg (_ ++ ·) (List.append_nil _).symm
  · exact absurd hgrid Reads.not_throw

/-- What counts if the flag is set does not count if its word is zero. -/
theorem ite_flag {α : Type} (flag : UInt64) (x : α) :
    (if flag != 0 then some x else none) = if flag = 0 then none else some x := by
  by_cases h : flag = 0
  · simp [h]
  · simp [h]

theorem reads_loadBucket_iff {bytes : List UInt8} {bucket : Option Timestamp} :
    Reads loadBucket bytes bucket ↔ ∃ (flag : UInt64) (start : Int64),
      bytes = Field.encode [.unsigned flag, .signed start] ∧
        bucket = if flag = 0 then none else some start := by
  unfold loadBucket
  rw [Reads.bind_iff delimited_flag]
  simp only [← map_eq_pure_bind, Reads.map_iff delimited_signed, reads_flag_iff, reads_signed_iff]
  constructor
  · rintro ⟨front, back, present, rfl, ⟨flag, rfl, rfl⟩, start, rfl, rfl⟩
    exact ⟨flag, start, congrArg (_ ++ ·) (List.append_nil _).symm, ite_flag flag start⟩
  · rintro ⟨flag, start, rfl, rfl⟩
    exact ⟨_, _, flag != 0, rfl, ⟨flag, rfl, rfl⟩, start, List.append_nil _,
      (ite_flag flag start).symm⟩

theorem reads_loadSample_iff {bytes : List UInt8} {sample : Option (Sample Binary64)} :
    Reads loadSample bytes sample ↔ ∃ (flag : UInt64) (time : Int64) (value : Binary64),
      bytes = Field.encode [.unsigned flag, .signed time, .double value] ∧
        sample = if flag = 0 then none else some ⟨time, value⟩ := by
  unfold loadSample
  rw [Reads.bind_iff delimited_flag]
  simp only [← map_eq_pure_bind, Reads.bind_iff delimited_signed, Reads.map_iff delimited_double,
    reads_flag_iff, reads_signed_iff, reads_double_iff]
  constructor
  · rintro ⟨_, _, present, rfl, ⟨flag, rfl, rfl⟩, _, _, time, rfl, rfl, value, rfl, rfl⟩
    exact ⟨flag, time, value, by simp, ite_flag flag _⟩
  · rintro ⟨flag, time, value, rfl, rfl⟩
    exact ⟨_, _, flag != 0, rfl, ⟨flag, rfl, rfl⟩, _, _, time, rfl, rfl, value,
      List.append_nil _, (ite_flag flag _).symm⟩

/-! ## Rules -/

/-- The bytes are a rule: a name, the scalars and a state. A word is a flag, clear if it is zero;
what stands behind a clear flag does not count. -/
inductive Stored (version : Version) : List UInt8 → CompactionRule → Prop
  | mk {name state : List UInt8} {kind : Aggregation} {accumulator : Aggregator}
      {duration alignment start time : Int64} {bucketFlag sampleFlag : UInt64} {value : Binary64}
      (hroom : name.length < UInt64.size) (hname : kind.Spells name)
      (hpos : 0 < duration.toInt)
      (hstate : Reads (Aggregator.loadState kind version) state accumulator) :
      Stored version
        (Field.encode [.buffer name, .signed duration, .signed alignment, .unsigned bucketFlag,
          .signed start, .unsigned sampleFlag, .signed time, .double value] ++ state)
        { grid := ⟨duration, alignment, hpos⟩, accumulator
          openBucket := if bucketFlag = 0 then none else some start
          lastSample := if sampleFlag = 0 then none else some ⟨time, value⟩ }

/-- The bytes begin with a text that does not name an aggregation. -/
def NamesUnknown (bytes : List UInt8) (text : String) : Prop :=
  ∃ rest, bytes = (Field.buffer text.toUTF8.toList).bytes ++ rest ∧
    text.toUTF8.toList.length < UInt64.size ∧ ∀ kind, ¬Aggregation.Spells kind text.toUTF8.toList

variable {version : Version} {bytes form : List UInt8} {r : CompactionRule} {text : String}

/-- The parts that the readers of a rule take are its layout. -/
theorem encode_parts (name state : List UInt8) (duration alignment start time : Int64)
    (bucketFlag sampleFlag : UInt64) (value : Binary64) :
    (Field.buffer name).bytes ++ (Field.encode [.signed duration, .signed alignment]
        ++ (Field.encode [.unsigned bucketFlag, .signed start]
          ++ (Field.encode [.unsigned sampleFlag, .signed time, .double value] ++ state)))
      = Field.encode [.buffer name, .signed duration, .signed alignment, .unsigned bucketFlag,
          .signed start, .unsigned sampleFlag, .signed time, .double value] ++ state := by
  simp only [Field.encode_cons, Field.encode_nil, List.append_nil, List.append_assoc]

/-- A rule is read from the forms it is stored in. -/
theorem reads_load_iff_stored : Reads (Persistent.load version) form r ↔ Stored version form r := by
  constructor
  · intro h
    -- each reader takes its part, and `h` is left with what the readers behind it take
    obtain ⟨_, _, kind, rfl, hkind, h⟩ := (Reads.bind_iff delimited_loadKind).1 h
    obtain ⟨_, _, grid, rfl, hgrid, h⟩ := (Reads.bind_iff delimited_loadGrid).1 h
    obtain ⟨_, _, bucket, rfl, hbucket, h⟩ := (Reads.bind_iff delimited_loadBucket).1 h
    obtain ⟨_, _, sample, rfl, hsample, h⟩ := (Reads.bind_iff delimited_loadSample).1 h
    rw [← map_eq_pure_bind, Reads.map_iff (Aggregator.delimited_loadState version kind)] at h
    obtain ⟨accumulator, hstate, rfl⟩ := h
    obtain ⟨name, hroom, hname, rfl⟩ := reads_loadKind_iff.1 hkind
    obtain ⟨bucketFlag, start, rfl, rfl⟩ := reads_loadBucket_iff.1 hbucket
    obtain ⟨sampleFlag, time, value, rfl, rfl⟩ := reads_loadSample_iff.1 hsample
    rw [reads_loadGrid_iff.1 hgrid, encode_parts]
    exact .mk hroom hname grid.duration_pos hstate
  · rintro ⟨hroom, hname, hpos, hstate⟩
    rw [← encode_parts]
    refine (reads_loadKind_iff.2 ⟨_, hroom, hname, rfl⟩).bind ?_
    refine (reads_loadGrid ⟨_, _, hpos⟩).bind ?_
    refine (reads_loadBucket_iff.2 ⟨_, _, rfl, rfl⟩).bind ?_
    refine (reads_loadSample_iff.2 ⟨_, _, _, rfl, rfl⟩).bind ?_
    exact hstate.map _

theorem Stored.read (h : Stored version form r) (rest : List UInt8) :
    (Persistent.load version : Reader CompactionRule).read (form ++ rest) = (.ok r, rest) :=
  reads_load_iff_stored.2 h rest

/-- An unknown name ends the reading, so what follows it does not matter. -/
theorem NamesUnknown.read (h : NamesUnknown bytes text) :
    ((Persistent.load version : Reader CompactionRule).read bytes).1
      = .error (.unknownAggregation text) := by
  obtain ⟨rest, rfl, hroom, hnone⟩ := h
  have hkind : loadKind.read ((Field.buffer text.toUTF8.toList).bytes ++ rest)
      = (.error (.unknownAggregation text), rest) := by
    rw [loadKind_eq, read_bind, reads_buffer hroom]
    dsimp only
    rw [lookUp_of_unknown hnone]
    rfl
  show ((loadKind >>= _ : Reader CompactionRule).read _).1 = _
  rw [read_bind, hkind]

theorem unloadable_loadGrid : Fails IsUnloadable loadGrid := by
  refine unloadable_signed.bind fun duration => ?_
  split
  · exact unloadable_signed.bind fun _ => .pure _
  · exact .throw ⟨_, rfl⟩

theorem unloadable_loadBucket : Fails IsUnloadable loadBucket :=
  unloadable_flag.bind fun _ => unloadable_signed.bind fun _ => .pure _

theorem unloadable_loadSample : Fails IsUnloadable loadSample :=
  unloadable_flag.bind fun _ => unloadable_signed.bind fun _ => unloadable_double.bind fun _ =>
    .pure _

theorem loadKind_error_cases {fault : Fault} {rest : List UInt8}
    (h : loadKind.read bytes = (.error fault, rest)) :
    (∃ text, fault = .unknownAggregation text ∧ NamesUnknown bytes text) ∨ IsUnloadable fault := by
  rcases read_bind_eq_error h with hbuffer | ⟨name, between, hbuffer, hname⟩
  · exact .inr (unloadable_buffer _ _ _ hbuffer)
  · obtain ⟨taken, rfl, hspans⟩ := delimited_buffer _ _ _ hbuffer
    obtain ⟨hroom, rfl⟩ := reads_buffer_iff.1 hspans.reads
    change (lookUp name).read between = _ at hname
    rcases lookUp_cases name with ⟨kind, hkind⟩ | ⟨text, rfl, hnone⟩ | ⟨cause, hcause⟩
    · rw [lookUp_of_spells hkind] at hname
      cases hname
    · rw [lookUp_of_unknown hnone] at hname
      cases hname
      exact .inl ⟨text, rfl, _, rfl, hroom, hnone⟩
    · rw [hcause] at hname
      cases hname
      exact .inr ⟨cause, rfl⟩

/-- Only an unknown name is not reported as unloadable: behind a known one nothing else is. -/
theorem load_error_cases {fault : Fault} {rest : List UInt8}
    (h : (Persistent.load version : Reader CompactionRule).read bytes = (.error fault, rest)) :
    (∃ text, fault = .unknownAggregation text ∧ NamesUnknown bytes text) ∨ IsUnloadable fault := by
  rcases read_bind_eq_error h with hkind | ⟨kind, between, -, hrest⟩
  · exact loadKind_error_cases hkind
  -- an aggregation was found, and no reader behind the name looks up another
  · refine .inr (Fails.bind unloadable_loadGrid (fun grid => ?_) _ _ _ hrest)
    refine unloadable_loadBucket.bind fun bucket => unloadable_loadSample.bind fun sample => ?_
    exact (Aggregator.unloadable_loadState version kind).bind fun _ => .pure _

/-! ## Outcomes -/

section Outcomes

variable (version : Version) (bytes : List UInt8)

theorem load_eq_ok_iff : ((Persistent.load version : Reader CompactionRule).read bytes).1 = .ok r ↔
    ∃ form, form <+: bytes ∧ Stored version form r := by
  constructor
  · intro h
    obtain ⟨form, hbytes, hspans⟩ := delimited_load version bytes r _ (Prod.ext h rfl)
    exact ⟨form, ⟨_, hbytes.symm⟩, reads_load_iff_stored.1 hspans.reads⟩
  · rintro ⟨form, ⟨rest, rfl⟩, hstored⟩
    rw [hstored.read]

theorem load_eq_unknown_iff :
    ((Persistent.load version : Reader CompactionRule).read bytes).1
      = .error (.unknownAggregation text) ↔ NamesUnknown bytes text := by
  refine ⟨fun h => ?_, NamesUnknown.read⟩
  rcases load_error_cases (Prod.ext h rfl) with ⟨text', heq, hnames⟩ | ⟨cause, heq⟩
  · cases heq
    exact hnames
  · cases heq

theorem load_eq_unloadable_iff :
    (∃ cause, ((Persistent.load version : Reader CompactionRule).read bytes).1
      = .error (.unloadable cause)) ↔
    (¬∃ form r, form <+: bytes ∧ Stored version form r) ∧ ¬∃ text, NamesUnknown bytes text := by
  constructor
  · rintro ⟨cause, hcause⟩
    constructor
    · rintro ⟨form, r, hform⟩
      cases hcause.symm.trans ((load_eq_ok_iff version bytes).2 ⟨form, hform⟩)
    · rintro ⟨text, hnames⟩
      cases hcause.symm.trans hnames.read
  · rintro ⟨hform, hnames⟩
    rcases h : ((Persistent.load version : Reader CompactionRule).read bytes).1 with fault | r
    · rcases load_error_cases (Prod.ext h rfl) with ⟨text, -, hunknown⟩ | ⟨cause, rfl⟩
      · exact absurd ⟨text, hunknown⟩ hnames
      · exact ⟨cause, rfl⟩
    · obtain ⟨form, hstored⟩ := (load_eq_ok_iff version bytes).1 h
      exact absurd ⟨form, r, hstored⟩ hform

theorem decode_of_not_le (h : ¬version ≤ .latest) :
    (decode version bytes : Except Fault CompactionRule)
      = .error (.unsupportedVersion version.number) := by
  have hcheck : version.check = .error (.unsupportedVersion version.number) :=
    if_neg (mt of_decide_eq_true h)
  rw [decode, hcheck]
  rfl

/-- **What is made of stored rules.** Bytes are decoded as a rule if and only if the version is
known and they begin with a form that the rule is stored in. A version beyond the latest is refused
as such, whatever the bytes. In a known version, bytes that begin with a text that names nothing
are refused with that text, whatever follows it, and all bytes that are neither are unloadable.
Every refusal blames the stored bytes. -/
theorem decode_outcomes :
    (∀ r : CompactionRule, decode version bytes = .ok r ↔
      version.number ≤ 6 ∧ ∃ form, form <+: bytes ∧ Stored version form r) ∧
    (∀ number, (decode version bytes : Except Fault CompactionRule)
        = .error (.unsupportedVersion number) ↔ 6 < version.number ∧ number = version.number) ∧
    (∀ text, (decode version bytes : Except Fault CompactionRule)
        = .error (.unknownAggregation text) ↔ version.number ≤ 6 ∧ NamesUnknown bytes text) ∧
    ((∃ cause, (decode version bytes : Except Fault CompactionRule)
        = .error (.unloadable cause)) ↔
      version.number ≤ 6 ∧ (¬∃ form r, form <+: bytes ∧ Stored version form r) ∧
        ¬∃ text, NamesUnknown bytes text) ∧
    ∀ fault, (decode version bytes : Except Fault CompactionRule) = .error fault →
      fault.isLoadFailure = true := by
  by_cases hversion : version.number ≤ 6
  · rw [decode_of_le hversion]
    refine ⟨fun r => ?_, fun number => ?_, fun text => ?_, ?_, fun fault h => ?_⟩
    · rw [load_eq_ok_iff, and_iff_right hversion]
    · refine ⟨fun h => ?_, fun h => absurd h.1 (Nat.not_lt.2 hversion)⟩
      rcases load_error_cases (Prod.ext h rfl) with ⟨text, heq, -⟩ | ⟨cause, heq⟩
      · cases heq
      · cases heq
    · rw [load_eq_unknown_iff, and_iff_right hversion]
    · rw [load_eq_unloadable_iff, and_iff_right hversion]
    · rcases load_error_cases (Prod.ext h rfl) with ⟨text, rfl, -⟩ | ⟨cause, rfl⟩
      · rfl
      · rfl
  · rw [decode_of_not_le version bytes hversion]
    refine ⟨fun r => ?_, fun number => ?_, fun text => ?_, ?_, fun fault h => ?_⟩
    · exact ⟨(nomatch ·), fun h => absurd h.1 hversion⟩
    · rw [Except.error.injEq, Fault.unsupportedVersion.injEq, and_iff_right (Nat.not_le.1 hversion)]
      exact eq_comm
    · exact ⟨(nomatch ·), fun h => absurd h.1 hversion⟩
    · exact ⟨fun ⟨_, h⟩ => (nomatch h), fun h => absurd h.1 hversion⟩
    · cases h
      rfl

/-- The name is looked at before the rest, which is not there. -/
example : (decode ⟨2⟩ (Field.buffer "twap".toUTF8.toList).bytes : Except Fault CompactionRule)
    = .error (.unknownAggregation "twap") := by
  cbv

end Outcomes

end CompactionRule
end Rollup
