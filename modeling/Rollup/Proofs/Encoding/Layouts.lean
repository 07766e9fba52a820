import Rollup.Bucket.RuleEncoding
import Rollup.Proofs.Encoding.States

/-!
# Older layouts

A layout is a list of field kinds, and bytes are complete in it if they fall into one piece per
field (`Fills`). Between the layouts of two versions a state gains or loses fields at its end only,
so complete bytes are brought to the latest layout by cutting off what is obsolete and appending
what was implied (`Aggregation.upgrade`). Reading them in their own layout gives what reading the
upgraded ones in the latest layout gives, for a state by itself and behind the header of a rule
(`load_eq_load_upgraded`); so what stood in an obsolete field never matters.
-/

namespace Rollup

/-! ## Complete bytes -/

/-- The bytes have the size of a field: a buffer is as long as its length word says, and a scalar is
any eight bytes. -/
def FieldKind.Holds : FieldKind → List UInt8 → Prop
  | .buffer, piece =>
    ∃ content : List UInt8, content.length < UInt64.size ∧ piece = (Field.buffer content).bytes
  | _, piece => piece.length = 8

/-- The bytes are complete in a layout: they are one piece for each of its fields. -/
inductive Fills : List FieldKind → List UInt8 → Prop
  | nil : Fills [] []
  | cons {kind : FieldKind} {kinds : List FieldKind} {piece rest : List UInt8}
      (hpiece : kind.Holds piece) (hrest : Fills kinds rest) : Fills (kind :: kinds) (piece ++ rest)

/-- Bytes that are complete in two layouts, one after the other, fall in two. -/
theorem Fills.exists_append {front back : List FieldKind} {bytes : List UInt8}
    (h : Fills (front ++ back) bytes) : ∃ a b, bytes = a ++ b ∧ Fills front a ∧ Fills back b := by
  -- the induction is on the fields in front; each takes the piece that it fills along
  induction front generalizing bytes with
  | nil => exact ⟨[], bytes, rfl, .nil, h⟩
  | cons kind kinds ih =>
    cases h with
    | cons hpiece hrest =>
      obtain ⟨a, b, rfl, ha, hb⟩ := ih hrest
      exact ⟨_, b, (List.append_assoc _ a b).symm, .cons hpiece ha, hb⟩

namespace Reader

variable {α β : Type} {m m' : Reader α} {f f' : α → Reader β} {x : α} {y : β}

/-- What the reader makes of the bytes, whatever follows them: it fails, or it succeeds and takes
exactly these bytes. -/
inductive Gives (m : Reader α) (bytes : List UInt8) : Except Fault α → Prop
  | ok {x : α} (h : Reads m bytes x) : Gives m bytes (.ok x)
  | error {fault : Fault} (h : ∀ rest, (m.read (bytes ++ rest)).1 = .error fault) :
      Gives m bytes (.error fault)

/-- The readers make the same of their bytes. -/
def Agree (m m' : Reader α) (bytes bytes' : List UInt8) : Prop :=
  ∃ outcome, Gives m bytes outcome ∧ Gives m' bytes' outcome

theorem Gives.outcome {bytes : List UInt8} {outcome : Except Fault α} (h : Gives m bytes outcome)
    (rest : List UInt8) : (m.read (bytes ++ rest)).1 = outcome := by
  cases h with
  | ok h => rw [h]
  | error h => exact h rest

theorem Gives.throw (fault : Fault) (bytes : List UInt8) :
    Gives (throw fault : Reader α) bytes (.error fault) := .error fun _ => rfl

theorem Gives.bind {front back : List UInt8} {outcome : Except Fault β}
    (hf : Gives (f x) back outcome) (hm : Reads m front x) :
    Gives (m >>= f) (front ++ back) outcome := by
  cases hf with
  | ok h => exact .ok (hm.bind h)
  | error h =>
    refine .error fun rest => ?_
    rw [read_bind, List.append_assoc, hm]
    exact h rest

theorem Gives.bind_nil {bytes : List UInt8} {outcome : Except Fault β}
    (hf : Gives (f x) [] outcome) (hm : Reads m bytes x) : Gives (m >>= f) bytes outcome := by
  have hbind := hf.bind hm
  rw [List.append_nil] at hbind
  exact hbind

theorem Gives.bind_error {front : List UInt8} {fault : Fault} (h : Gives m front (.error fault))
    (f : α → Reader β) (back : List UInt8) : Gives (m >>= f) (front ++ back) (.error fault) := by
  refine .error fun rest => ?_
  have hfront := h.outcome (back ++ rest)
  rw [read_bind, List.append_assoc]
  rcases hm : m.read (front ++ (back ++ rest)) with ⟨fault' | x, between⟩
  · rw [hm] at hfront
    exact congrArg Except.error (Except.error.inj hfront)
  · rw [hm] at hfront
    cases hfront

theorem Gives.map {bytes : List UInt8} {outcome : Except Fault α} (h : Gives m bytes outcome)
    (g : α → β) : Gives (g <$> m) bytes (outcome.map g) := by
  cases h with
  | ok h => exact .ok (h.map g)
  | error h =>
    have hbind := Gives.bind_error (.error h) (fun x => Pure.pure (g x)) []
    rw [List.append_nil] at hbind
    exact hbind

theorem Agree.outcome {bytes bytes' : List UInt8} (h : Agree m m' bytes bytes')
    (rest rest' : List UInt8) :
    (m.read (bytes ++ rest)).1 = (m'.read (bytes' ++ rest')).1 := by
  obtain ⟨outcome, hm, hm'⟩ := h
  rw [hm.outcome, hm'.outcome]

theorem Agree.of_reads {bytes bytes' : List UInt8} (h : Reads m bytes x)
    (h' : Reads m' bytes' x) : Agree m m' bytes bytes' := ⟨.ok x, .ok h, .ok h'⟩

theorem Agree.map {bytes bytes' : List UInt8} (h : Agree m m' bytes bytes') (g : α → β) :
    Agree (g <$> m) (g <$> m') bytes bytes' := by
  obtain ⟨outcome, hm, hm'⟩ := h
  exact ⟨outcome.map g, hm.map g, hm'.map g⟩

/-- Readers that agree on what follows agree behind the same bytes. -/
theorem Agree.behind {front back back' : List UInt8} {outcome : Except Fault α}
    (hm : Gives m front outcome)
    (hf : ∀ x, Reads m front x → Agree (f x) (f' x) back back') :
    Agree (m >>= f) (m >>= f') (front ++ back) (front ++ back') := by
  cases hm with
  | ok h =>
    obtain ⟨outcome, hback, hback'⟩ := hf _ h
    exact ⟨outcome, hback.bind h, hback'.bind h⟩
  | error h => exact ⟨_, (Gives.error h).bind_error f back, (Gives.error h).bind_error f' back'⟩

/-! ## Readers of complete bytes -/

/-- The reader takes all bytes that are complete in the layout. -/
def Accepts (kinds : List FieldKind) (m : Reader α) : Prop :=
  ∀ bytes, Fills kinds bytes → ∃ x, Reads m bytes x

theorem Accepts.pure (x : α) : Accepts [] (Pure.pure x : Reader α) := by
  rintro _ ⟨⟩
  exact ⟨x, Reads.pure x⟩

theorem Accepts.bind {front back : List FieldKind} (hm : Accepts front m)
    (hf : ∀ x, Accepts back (f x)) : Accepts (front ++ back) (m >>= f) := by
  intro bytes h
  obtain ⟨a, b, rfl, ha, hb⟩ := h.exists_append
  obtain ⟨x, hx⟩ := hm a ha
  obtain ⟨y, hy⟩ := hf x b hb
  exact ⟨y, hx.bind hy⟩

theorem Accepts.map {kinds : List FieldKind} (hm : Accepts kinds m) (g : α → β) :
    Accepts kinds (g <$> m) := by
  intro bytes h
  obtain ⟨x, hx⟩ := hm bytes h
  exact ⟨g x, hx.map g⟩

theorem accepts_word (item : StoredItem) {kind : FieldKind} (hkind : kind ≠ .buffer) :
    Accepts [kind] (word item) := by
  rintro _ (_ | ⟨hpiece, ⟨⟩⟩)
  rw [List.append_nil]
  cases kind with
  | buffer => exact absurd rfl hkind
  | _ => exact ⟨_, reads_wordOf item hpiece⟩

theorem accepts_double : Accepts [.double] double :=
  (accepts_word .double (by decide)).map Binary64.mk

theorem accepts_unsigned : Accepts [.unsigned] unsigned := accepts_word .unsigned (by decide)

theorem accepts_signed : Accepts [.signed] signed :=
  (accepts_word .unsigned (by decide)).map UInt64.toInt64

theorem accepts_flag : Accepts [.flag] flag := (accepts_word .unsigned (by decide)).map (· != 0)

theorem reads_doubleOf {bytes : List UInt8} (h : bytes.length = 8) :
    Reads double bytes ⟨wordOf bytes⟩ := (reads_wordOf .double h).map Binary64.mk

theorem reads_signedOf {bytes : List UInt8} (h : bytes.length = 8) :
    Reads signed bytes (wordOf bytes).toInt64 := (reads_wordOf .unsigned h).map UInt64.toInt64

theorem reads_flagOf {bytes : List UInt8} (h : bytes.length = 8) :
    Reads flag bytes (wordOf bytes != 0) := (reads_wordOf .unsigned h).map (· != 0)

end Reader

open Reader

/-! ## States that changed -/

namespace Single

/-- The layouts 3 to 5 have a reset flag behind the value. -/
def layout (version : Version) : List FieldKind :=
  if 3 ≤ version.number ∧ version.number < 6 then [.double, .unsigned]
  else [.double]

/-- The reset flag is cut off. -/
def upgrade (version : Version) (bytes : List UInt8) : List UInt8 :=
  if 3 ≤ version.number ∧ version.number < 6 then bytes.take 8
  else bytes

theorem reads_load_of_flag {version : Version}
    (hversion : Version.resetFlags ≤ version ∧ version < Version.resetFlagDropped)
    {value flag : List UInt8} (hvalue : value.length = 8) (hflag : flag.length = 8) :
    Reads (Persistent.load version) (value ++ flag) (⟨⟨wordOf value⟩⟩ : Single) := by
  refine (reads_doubleOf hvalue).bind ?_
  dsimp only
  rw [if_pos hversion]
  exact (reads_wordOf .unsigned hflag).bind_nil (Reads.pure _)

theorem reads_load_of_no_flag {version : Version}
    (hversion : ¬(Version.resetFlags ≤ version ∧ version < Version.resetFlagDropped))
    {value : List UInt8} (hvalue : value.length = 8) :
    Reads (Persistent.load version) value (⟨⟨wordOf value⟩⟩ : Single) := by
  refine (reads_doubleOf hvalue).bind_nil ?_
  dsimp only
  rw [if_neg hversion]
  exact Reads.pure _

/-- A state is read from its upgraded bytes as from its own. -/
theorem exists_reads_upgrade {version : Version} {bytes : List UInt8}
    (h : Fills (layout version) bytes) : ∃ s : Single,
      Reads (Persistent.load version) bytes s ∧
      Reads (Persistent.load .latest) (upgrade version bytes) s := by
  have hlatest : ¬(Version.resetFlags ≤ .latest ∧ .latest < Version.resetFlagDropped) := by decide
  unfold layout at h
  unfold upgrade
  split at h
  · next hversion =>
    rcases h with _ | ⟨hvalue, _ | ⟨hflag, ⟨⟩⟩⟩
    rw [if_pos hversion, List.append_nil, List.take_left' hvalue]
    exact ⟨_, reads_load_of_flag hversion hvalue hflag, reads_load_of_no_flag hlatest hvalue⟩
  · next hversion =>
    rcases h with _ | ⟨hvalue, ⟨⟩⟩
    rw [if_neg hversion, List.append_nil]
    exact ⟨_, reads_load_of_no_flag hversion hvalue, reads_load_of_no_flag hlatest hvalue⟩

end Single

namespace Bounds

/-- The layouts before 4 have a buffer behind the bounds. -/
def layout (version : Version) : List FieldKind :=
  if version.number < 4 then [.double, .double, .buffer] else [.double, .double]

/-- The buffer is cut off. -/
def upgrade (version : Version) (bytes : List UInt8) : List UInt8 :=
  if version.number < 4 then bytes.take 16 else bytes

theorem reads_load_of_buffer {version : Version} (hversion : version < Version.buffersDropped)
    {greatest least content : List UInt8} (hgreatest : greatest.length = 8)
    (hleast : least.length = 8) (hcontent : content.length < UInt64.size) :
    Reads (Persistent.load version) (greatest ++ (least ++ (Field.buffer content).bytes))
      (⟨⟨wordOf least⟩, ⟨wordOf greatest⟩⟩ : Bounds) := by
  refine (reads_doubleOf hgreatest).bind ((reads_doubleOf hleast).bind ?_)
  dsimp only
  rw [if_pos hversion]
  exact (reads_buffer hcontent).bind_nil (Reads.pure _)

theorem reads_load_of_no_buffer {version : Version} (hversion : ¬version < Version.buffersDropped)
    {greatest least : List UInt8} (hgreatest : greatest.length = 8) (hleast : least.length = 8) :
    Reads (Persistent.load version) (greatest ++ least)
      (⟨⟨wordOf least⟩, ⟨wordOf greatest⟩⟩ : Bounds) := by
  refine (reads_doubleOf hgreatest).bind ((reads_doubleOf hleast).bind_nil ?_)
  dsimp only
  rw [if_neg hversion]
  exact Reads.pure _

theorem exists_reads_upgrade {version : Version} {bytes : List UInt8}
    (h : Fills (layout version) bytes) : ∃ s : Bounds,
      Reads (Persistent.load version) bytes s ∧
      Reads (Persistent.load .latest) (upgrade version bytes) s := by
  have hlatest : ¬Version.latest < Version.buffersDropped := by decide
  unfold layout at h
  unfold upgrade
  split at h
  · next hversion =>
    -- what is cut off is all that stands behind the two bounds, whatever its length
    rcases h with _ | @⟨_, _, greatest, _, hgreatest, _ | @⟨_, _, least, _, hleast,
      _ | ⟨⟨content, hcontent, rfl⟩, ⟨⟩⟩⟩⟩
    have hlength : (greatest ++ least).length = 16 := by
      rw [List.length_append, hgreatest, hleast]
    rw [if_pos hversion, List.append_nil, ← List.append_assoc, List.take_left' hlength,
      List.append_assoc]
    exact ⟨_, reads_load_of_buffer hversion hgreatest hleast hcontent,
      reads_load_of_no_buffer hlatest hgreatest hleast⟩
  · next hversion =>
    rcases h with _ | ⟨hgreatest, _ | ⟨hleast, ⟨⟩⟩⟩
    rw [if_neg hversion, List.append_nil]
    exact ⟨_, reads_load_of_no_buffer hversion hgreatest hleast,
      reads_load_of_no_buffer hlatest hgreatest hleast⟩

end Bounds

namespace First

/-- The layouts before 3 do not say whether the value is unset. -/
def layout (version : Version) : List FieldKind :=
  if 3 ≤ version.number then [.double, .flag] else [.double]

/-- A value that is a NaN is unset. -/
def upgrade (version : Version) (bytes : List UInt8) : List UInt8 :=
  if 3 ≤ version.number then bytes
  else bytes ++ (Field.flag (Binary64.mk (wordOf bytes)).isNaN).bytes

theorem reads_load_of_flag {version : Version} (hversion : Version.resetFlags ≤ version)
    {value flag : List UInt8} {isUnset : Bool} (hvalue : value.length = 8)
    (hflag : Reads Reader.flag flag isUnset) :
    Reads (Persistent.load version) (value ++ flag) (⟨⟨wordOf value⟩, isUnset⟩ : First) := by
  refine (reads_doubleOf hvalue).bind ?_
  rw [if_pos hversion]
  exact hflag.bind_nil (Reads.pure _)

theorem reads_load_of_no_flag {version : Version} (hversion : ¬Version.resetFlags ≤ version)
    {value : List UInt8} (hvalue : value.length = 8) :
    Reads (Persistent.load version) value
      (⟨⟨wordOf value⟩, (Binary64.mk (wordOf value)).isNaN⟩ : First) := by
  refine (reads_doubleOf hvalue).bind_nil ?_
  rw [if_neg hversion]
  exact Reads.pure _

theorem exists_reads_upgrade {version : Version} {bytes : List UInt8}
    (h : Fills (layout version) bytes) : ∃ s : First,
      Reads (Persistent.load version) bytes s ∧
      Reads (Persistent.load .latest) (upgrade version bytes) s := by
  have hlatest : Version.resetFlags ≤ .latest := by decide
  unfold layout at h
  unfold upgrade
  split at h
  · next hversion =>
    rcases h with _ | ⟨hvalue, _ | ⟨hflag, ⟨⟩⟩⟩
    rw [if_pos hversion, List.append_nil]
    exact ⟨_, reads_load_of_flag hversion hvalue (reads_flagOf hflag),
      reads_load_of_flag hlatest hvalue (reads_flagOf hflag)⟩
  · next hversion =>
    rcases h with _ | ⟨hvalue, ⟨⟩⟩
    rw [if_neg hversion, List.append_nil]
    exact ⟨_, reads_load_of_no_flag hversion hvalue,
      reads_load_of_flag hlatest hvalue (reads_flag _)⟩

end First

namespace Mean

/-- The layouts before 5 hold sums only. -/
def layout (version : Version) : List FieldKind :=
  if 5 ≤ version.number then [.double, .double, .flag] else [.double, .double]

/-- What the total stands for is said: it is a sum. -/
def upgrade (version : Version) (bytes : List UInt8) : List UInt8 :=
  if 5 ≤ version.number then bytes else bytes ++ (Field.flag false).bytes

/-- The state of a stored count, which may be none. -/
def ofStored (total stored : Binary64) (isMean : Bool) : Except Fault (Mean Binary64) :=
  match countOfStored stored with
  | .ok count => .ok ⟨total, count, isMean⟩
  | .error cause => .error (.unloadable cause)

theorem gives_load_of_flag {version : Version} (hversion : Version.averageFlag ≤ version)
    {total stored flag : List UInt8} {isMean : Bool} (htotal : total.length = 8)
    (hstored : stored.length = 8) (hflag : Reads Reader.flag flag isMean) :
    Gives (Persistent.load version) (total ++ (stored ++ flag))
      (ofStored ⟨wordOf total⟩ ⟨wordOf stored⟩ isMean) := by
  refine .bind (.bind ?_ (reads_doubleOf hstored)) (reads_doubleOf htotal)
  -- the count is refused before the flag is looked at
  unfold ofStored
  cases countOfStored ⟨wordOf stored⟩ with
  | error cause => exact .throw _ _
  | ok count =>
    dsimp only
    rw [if_pos hversion]
    exact .ok (hflag.bind_nil (Reads.pure _))

theorem gives_load_of_no_flag {version : Version} (hversion : ¬Version.averageFlag ≤ version)
    {total stored : List UInt8} (htotal : total.length = 8) (hstored : stored.length = 8) :
    Gives (Persistent.load version) (total ++ stored)
      (ofStored ⟨wordOf total⟩ ⟨wordOf stored⟩ false) := by
  refine .bind (.bind_nil ?_ (reads_doubleOf hstored)) (reads_doubleOf htotal)
  unfold ofStored
  cases countOfStored ⟨wordOf stored⟩ with
  | error cause => exact .throw _ _
  | ok count =>
    dsimp only
    rw [if_neg hversion]
    exact .ok (Reads.pure _)

theorem agree_upgrade {version : Version} {bytes : List UInt8}
    (h : Fills (layout version) bytes) :
    Agree (Persistent.load version : Reader (Mean Binary64)) (Persistent.load .latest) bytes
      (upgrade version bytes) := by
  have hlatest : Version.averageFlag ≤ .latest := by decide
  unfold layout at h
  unfold upgrade
  split at h
  · next hversion =>
    rcases h with _ | ⟨htotal, _ | ⟨hstored, _ | ⟨hflag, ⟨⟩⟩⟩⟩
    rw [if_pos hversion, List.append_nil]
    exact ⟨_, gives_load_of_flag hversion htotal hstored (reads_flagOf hflag),
      gives_load_of_flag hlatest htotal hstored (reads_flagOf hflag)⟩
  · next hversion =>
    rcases h with _ | ⟨htotal, _ | ⟨hstored, ⟨⟩⟩⟩
    rw [if_neg hversion, List.append_nil, List.append_assoc]
    exact ⟨_, gives_load_of_no_flag hversion htotal hstored,
      gives_load_of_flag hlatest htotal hstored (reads_flag false)⟩

end Mean

/-! ## States that never changed -/

def Moments.layout : List FieldKind := [.double, .double, .unsigned]

theorem Moments.accepts_load (version : Version) :
    Accepts layout (Persistent.load version : Reader (Moments Binary64)) :=
  accepts_double.bind fun _ => accepts_double.bind fun _ => accepts_unsigned.bind fun _ => .pure _

def TimeWeighted.layout : List FieldKind :=
  [.double, .signed, .double, .signed, .signed, .signed, .signed, .flag, .unsigned, .flag]

theorem TimeWeighted.accepts_load (version : Version) :
    Accepts layout (Persistent.load version : Reader (TimeWeighted Binary64)) :=
  accepts_double.bind fun _ => accepts_signed.bind fun _ => accepts_double.bind fun _ =>
    accepts_signed.bind fun _ => accepts_signed.bind fun _ => accepts_signed.bind fun _ =>
      accepts_signed.bind fun _ => accepts_flag.bind fun _ => accepts_unsigned.bind fun _ =>
        accepts_flag.bind fun _ => .pure _

/-! ## Aggregations -/

namespace Aggregation

/-- The fields of a state in the layout of a version. -/
def layout (version : Version) : Aggregation → List FieldKind
  | .sum | .count | .last => Single.layout version
  | .min | .max | .range => Bounds.layout version
  | .first => First.layout version
  | .avg => Mean.layout version
  | .varP | .varS | .stdP | .stdS => Moments.layout
  | .twa => TimeWeighted.layout

/-- The bytes in the latest layout for those of a state in the layout of a version. -/
def upgrade (version : Version) (bytes : List UInt8) : Aggregation → List UInt8
  | .sum | .count | .last => Single.upgrade version bytes
  | .min | .max | .range => Bounds.upgrade version bytes
  | .first => First.upgrade version bytes
  | .avg => Mean.upgrade version bytes
  | .varP | .varS | .stdP | .stdS | .twa => bytes

end Aggregation

namespace Aggregator

/-- Complete bytes are read, and so are the upgraded ones; for an average this hangs on its
count. -/
theorem exists_reads_upgrade {kind : Aggregation} (hkind : kind ≠ .avg) {version : Version}
    {bytes : List UInt8} (h : Fills (kind.layout version) bytes) : ∃ s,
      Reads (loadState kind version) bytes s ∧
      Reads (loadState kind .latest) (kind.upgrade version bytes) s := by
  cases kind with
  | avg => exact absurd rfl hkind
  | sum | count | last =>
    obtain ⟨s, hs, hs'⟩ := Single.exists_reads_upgrade h
    exact ⟨_, hs.map _, hs'.map _⟩
  | min | max | range =>
    obtain ⟨s, hs, hs'⟩ := Bounds.exists_reads_upgrade h
    exact ⟨_, hs.map _, hs'.map _⟩
  | first =>
    obtain ⟨s, hs, hs'⟩ := First.exists_reads_upgrade h
    exact ⟨_, hs.map _, hs'.map _⟩
  | varP | varS | stdP | stdS =>
    obtain ⟨s, hs⟩ := Moments.accepts_load version bytes h
    exact ⟨_, hs.map _, hs.map _⟩
  | twa =>
    obtain ⟨s, hs⟩ := TimeWeighted.accepts_load version bytes h
    exact ⟨_, hs.map _, hs.map _⟩

theorem agree_upgrade {kind : Aggregation} {version : Version} {bytes : List UInt8}
    (h : Fills (kind.layout version) bytes) :
    Agree (loadState kind version) (loadState kind .latest) bytes (kind.upgrade version bytes) := by
  by_cases hkind : kind = .avg
  · subst hkind
    exact (Mean.agree_upgrade h).map mean
  · obtain ⟨s, hs, hs'⟩ := exists_reads_upgrade hkind h
    exact .of_reads hs hs'

end Aggregator

/-! ## Rules -/

namespace CompactionRule

theorem exists_gives_loadGrid {bytes : List UInt8} (h : Fills [.signed, .signed] bytes) :
    ∃ outcome, Gives loadGrid bytes outcome := by
  rcases h with _ | @⟨_, _, duration, _, hduration, _ | @⟨_, _, alignment, _, halignment, ⟨⟩⟩⟩
  rw [List.append_nil]
  have hread := reads_signedOf hduration
  generalize (wordOf duration).toInt64 = length at hread
  by_cases hpos : 0 < length.toInt
  · refine ⟨.ok ⟨length, (wordOf alignment).toInt64, hpos⟩, .bind (.ok ?_) hread⟩
    rw [dif_pos hpos]
    exact (reads_signedOf halignment).bind_nil (Reads.pure _)
  · refine ⟨.error (.unloadable (.bucketDuration length)), .bind ?_ hread⟩
    rw [dif_neg hpos]
    exact .throw _ _

theorem accepts_loadBucket : Accepts [.flag, .signed] loadBucket :=
  accepts_flag.bind fun _ => accepts_signed.bind fun _ => .pure _

theorem accepts_loadSample : Accepts [.flag, .signed, .double] loadSample :=
  accepts_flag.bind fun _ => accepts_signed.bind fun _ => accepts_double.bind fun _ => .pure _

/-- The fields between the name and the state: the grid, the open bucket and the last sample. -/
def headerLayout : List FieldKind :=
  [.signed, .signed] ++ ([.flag, .signed] ++ [.flag, .signed, .double])

/-- The bytes are complete up to the state, and the name in front is that of the aggregation. -/
def Heads (kind : Aggregation) (header : List UInt8) : Prop :=
  ∃ name fields, header = name ++ fields ∧ Reads loadKind name kind ∧ Fills headerLayout fields

theorem agree_upgrade {kind : Aggregation} {version : Version} {header bytes : List UInt8}
    (hheader : Heads kind header) (h : Fills (kind.layout version) bytes) :
    Agree (Persistent.load version : Reader CompactionRule) (Persistent.load .latest)
      (header ++ bytes) (header ++ kind.upgrade version bytes) := by
  obtain ⟨name, _, rfl, hname, hfields⟩ := hheader
  obtain ⟨grid, _, rfl, hgrid, hfields⟩ := hfields.exists_append
  obtain ⟨bucket, sample, rfl, hbucket, hsample⟩ := hfields.exists_append
  obtain ⟨outcome, hgrid⟩ := exists_gives_loadGrid hgrid
  obtain ⟨openBucket, hbucket⟩ := accepts_loadBucket bucket hbucket
  obtain ⟨lastSample, hsample⟩ := accepts_loadSample sample hsample
  simp only [List.append_assoc]
  -- field by field the header is the same to both; a refused duration ends both
  refine .behind (.ok hname) fun kind' hkind' => ?_
  obtain rfl : kind = kind' := hname.unique hkind'
  exact .behind hgrid fun _ _ => .behind (.ok hbucket) fun _ _ => .behind (.ok hsample) fun _ _ =>
    (Aggregator.agree_upgrade h).map _

end CompactionRule

/-! ## Reading older layouts -/

theorem Version.check_of_le {version : Version} (h : version ≤ .latest) : version.check = .ok () :=
  if_pos (decide_eq_true h)

theorem decode_of_le {σ : Type} [Persistent σ] {version : Version} (h : version ≤ .latest)
    (bytes : List UInt8) :
    decode version bytes = ((Persistent.load version : Reader σ).read bytes).1 := by
  rw [decode, Version.check_of_le h]
  rfl

theorem Aggregator.ofBytes_of_le (kind : Aggregation) {version : Version}
    (h : version ≤ .latest) (bytes : List UInt8) :
    ofBytes kind bytes version = ((loadState kind version).read bytes).1 := by
  rw [ofBytes, Version.check_of_le h]
  rfl

/-- **Older layouts are read as upgraded ones.** Let bytes be complete in the layout that a version
has for an aggregation. The state is read from them as it is read in the latest layout from the
upgraded bytes, and unless it is an average, whose count may be refused, it is read. Both readers
take all of their bytes, and what follows is the same to both. Bytes with the same upgrade are one
to the reader, so an obsolete field has no influence. And a rule whose header names the aggregation
is read from the header and these bytes as it is read from the header and the upgraded ones. -/
theorem load_eq_load_upgraded {version : Version} (hversion : version ≤ .latest)
    {kind : Aggregation} {bytes : List UInt8} (h : Fills (kind.layout version) bytes) :
    Agree (Aggregator.loadState kind version) (Aggregator.loadState kind .latest) bytes
      (kind.upgrade version bytes) ∧
    (∀ rest, Aggregator.ofBytes kind (bytes ++ rest) version
      = Aggregator.ofBytes kind (kind.upgrade version bytes ++ rest) .latest) ∧
    (kind ≠ .avg → ∃ s, Reads (Aggregator.loadState kind version) bytes s) ∧
    (∀ other, Fills (kind.layout version) other →
      kind.upgrade version other = kind.upgrade version bytes →
      ∀ rest, Aggregator.ofBytes kind (other ++ rest) version
        = Aggregator.ofBytes kind (bytes ++ rest) version) ∧
    ∀ header, CompactionRule.Heads kind header →
      Agree (Persistent.load version : Reader CompactionRule) (Persistent.load .latest)
        (header ++ bytes) (header ++ kind.upgrade version bytes) ∧
      ∀ rest, (decode version (header ++ bytes ++ rest) : Except Fault CompactionRule)
        = decode .latest (header ++ kind.upgrade version bytes ++ rest) := by
  have hlatest : Version.latest ≤ Version.latest := Nat.le_refl _
  have hagree := Aggregator.agree_upgrade h
  refine ⟨hagree, fun rest => ?_, fun hkind => ?_, fun other hother heq rest => ?_,
    fun header hheader => ?_⟩
  · rw [Aggregator.ofBytes_of_le kind hversion, Aggregator.ofBytes_of_le kind hlatest]
    exact hagree.outcome rest rest
  · obtain ⟨s, hs, -⟩ := Aggregator.exists_reads_upgrade hkind h
    exact ⟨s, hs⟩
  · have hagree' := Aggregator.agree_upgrade hother
    rw [heq] at hagree'
    rw [Aggregator.ofBytes_of_le kind hversion, Aggregator.ofBytes_of_le kind hversion,
      hagree'.outcome rest rest, hagree.outcome rest rest]
  · have hrule := CompactionRule.agree_upgrade hheader h
    refine ⟨hrule, fun rest => ?_⟩
    rw [decode_of_le hversion, decode_of_le hlatest]
    exact hrule.outcome rest rest

/-- The header of a rule that keeps the least values of buckets of ten. -/
def leastOfTens : List UInt8 :=
  (Field.buffer Aggregation.min.token.toUTF8.toList).bytes
    ++ Field.encode [.signed 10, .signed 0, .flag true, .signed 20, .flag true, .signed 25,
      .double .maxFinite]

/-- Bounds with a buffer, which the second layout has behind them. -/
def bufferedBounds : List UInt8 :=
  Field.encode [.double .maxFinite, .double .minFinite, .buffer [7, 0, 7]]

theorem load_eq_load_upgraded_bounds :
    Fills (Aggregation.min.layout ⟨2⟩) bufferedBounds ∧
      CompactionRule.Heads .min leastOfTens ∧
      (decode ⟨2⟩ (leastOfTens ++ bufferedBounds ++ [9]) : Except Fault CompactionRule)
        = decode .latest (leastOfTens
            ++ Field.encode [.double .maxFinite, .double .minFinite] ++ [9]) := by
  have hfills : Fills (Aggregation.min.layout ⟨2⟩) bufferedBounds :=
    .cons (Field.length_wordBytes _) (.cons (Field.length_wordBytes _)
      (.cons ⟨[7, 0, 7], by decide, rfl⟩ .nil))
  have hheads : CompactionRule.Heads .min leastOfTens :=
    ⟨_, _, rfl, CompactionRule.reads_loadKind .min, .cons (Field.length_wordBytes _)
      (.cons (Field.length_wordBytes _) (.cons (Field.length_wordBytes _)
        (.cons (Field.length_wordBytes _) (.cons (Field.length_wordBytes _)
          (.cons (Field.length_wordBytes _) (.cons (Field.length_wordBytes _) .nil))))))⟩
  have hrule := (load_eq_load_upgraded (by decide) hfills).2.2.2.2 leastOfTens hheads
  exact ⟨hfills, hheads, hrule.2 [9]⟩

end Rollup
