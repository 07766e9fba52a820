import Rollup.Encoding.Persistent

/-!
# Reading written bytes

A reader *reads* a value off some bytes if it takes exactly these bytes off whatever follows them
(`Reads`). Readers that are run one after the other read bytes that are written one after the other
(`Reads.bind`), so a layout is read back field by field (`Reads.cons`). The fields are read back
without a condition, but for a buffer, whose length has to fit its word.
-/

namespace Rollup
namespace Reader

variable {α β : Type} {m : Reader α} {f : α → Reader β} {x : α} {y : β}

/-! ## Running readers -/

theorem read_get (bytes : List UInt8) :
    (get : Reader (List UInt8)).read bytes = (.ok bytes, bytes) := rfl

theorem read_set (rest bytes : List UInt8) :
    (set rest : Reader PUnit).read bytes = (.ok ⟨⟩, rest) := rfl

/-- The second reader goes on where the first one stopped, unless that failed. -/
theorem read_bind (m : Reader α) (f : α → Reader β) (bytes : List UInt8) :
    (m >>= f).read bytes = match m.read bytes with
      | (.ok x, rest) => (f x).read rest
      | (.error fault, rest) => (.error fault, rest) := by
  show (ExceptT.bindCont f (m.read bytes).1 : StateM (List UInt8) (Except Fault β)).run
    (m.read bytes).2 = _
  rcases m.read bytes with ⟨fault | x, rest⟩
  · rfl
  · rfl

/-- What a successful run of two readers consists of. -/
theorem read_bind_eq_ok {bytes rest : List UInt8} (h : (m >>= f).read bytes = (.ok y, rest)) :
    ∃ x between, m.read bytes = (.ok x, between) ∧ (f x).read between = (.ok y, rest) := by
  rw [read_bind] at h
  rcases hm : m.read bytes with ⟨fault | x, between⟩
  · rw [hm] at h
    cases h
  · rw [hm] at h
    exact ⟨x, between, rfl, h⟩

/-- Readers that have the same outcome and leave the same bytes are the same. -/
theorem ext_read {m m' : Reader α} (h : ∀ bytes, m.read bytes = m'.read bytes) : m = m' := funext h

/-! ## Chunks -/

/-- Takes so many bytes as they are. Every field is taken off in chunks. -/
def chunk (item : StoredItem) (count : Nat) : Reader (List UInt8) := do
  let bytes ← get
  if count ≤ bytes.length then
    set (bytes.drop count)
    return bytes.take count
  else
    throw (.unloadable (.truncated item count bytes.length))

/-- The word that eight bytes stand for. -/
def wordOf (bytes : List UInt8) : UInt64 := UInt64.ofNat (ofLittleEndian bytes)

theorem read_chunk (item : StoredItem) (count : Nat) (bytes : List UInt8) :
    (chunk item count).read bytes =
      if count ≤ bytes.length then (.ok (bytes.take count), bytes.drop count)
      else (.error (.unloadable (.truncated item count bytes.length)), bytes) := by
  unfold chunk
  rw [read_bind, read_get]
  dsimp only
  split
  · rw [read_bind, read_set]
    rfl
  · rfl

/-- A word is a chunk of eight bytes. -/
theorem word_eq (item : StoredItem) : word item = wordOf <$> chunk item 8 := by
  refine ext_read fun bytes => ?_
  rw [map_eq_pure_bind, read_bind, read_chunk]
  unfold word
  rw [read_bind, read_get]
  dsimp only
  rw [List.length_take]
  by_cases h : 8 ≤ bytes.length
  · rw [if_pos (Nat.min_eq_left h), if_pos h, read_bind, read_set]
    rfl
  · rw [if_neg (by omega), if_neg h]
    rfl

/-- A buffer is a word and a chunk of that length. -/
theorem buffer_eq :
    buffer = word .unsigned >>= fun length => chunk .stringBuffer length.toNat := rfl

/-! ## Reading exactly -/

/-- The reader takes exactly these bytes, and they are this value. -/
def Reads (m : Reader α) (bytes : List UInt8) (x : α) : Prop :=
  ∀ rest, m.read (bytes ++ rest) = (.ok x, rest)

theorem Reads.pure (x : α) : Reads (Pure.pure x) [] x := fun _ => rfl

/-- Bytes are read as one value. -/
theorem Reads.unique {bytes : List UInt8} {x' : α} (h : Reads m bytes x) (h' : Reads m bytes x') :
    x = x' := by
  have heq := (h []).symm.trans (h' [])
  exact Except.ok.inj (Prod.mk.inj heq).1

theorem Reads.bind {front back : List UInt8} (hm : Reads m front x) (hf : Reads (f x) back y) :
    Reads (m >>= f) (front ++ back) y := by
  intro rest
  rw [read_bind, List.append_assoc, hm]
  exact hf rest

/-- The first field of a layout is read first, and the others from what follows it. -/
theorem Reads.cons {field : Field} {fields : List Field} (hm : Reads m field.bytes x)
    (hf : Reads (f x) (Field.encode fields) y) :
    Reads (m >>= f) (Field.encode (field :: fields)) y := hm.bind hf

/-- What goes on without taking anything does not show in the bytes. -/
theorem Reads.bind_nil {bytes : List UInt8} (hm : Reads m bytes x) (hf : Reads (f x) [] y) :
    Reads (m >>= f) bytes y := by
  have hbind := hm.bind hf
  rw [List.append_nil] at hbind
  exact hbind

/-- What is read is only put in its place. -/
theorem Reads.map {bytes : List UInt8} (hm : Reads m bytes x) (g : α → β) :
    Reads (g <$> m) bytes (g x) :=
  hm.bind_nil (f := fun x => Pure.pure (g x)) (Reads.pure (g x))

/-- The bytes are read to their end. -/
theorem Reads.read {bytes : List UInt8} (h : Reads m bytes x) : m.read bytes = (.ok x, []) := by
  have hrest := h []
  rw [List.append_nil] at hrest
  exact hrest

/-! ## Fields -/

theorem reads_chunk (item : StoredItem) (bytes : List UInt8) :
    Reads (chunk item bytes.length) bytes bytes := by
  intro rest
  rw [read_chunk, if_pos (by simp), List.take_left' rfl, List.drop_left' rfl]

theorem reads_wordOf (item : StoredItem) {bytes : List UInt8} (h : bytes.length = 8) :
    Reads (word item) bytes (wordOf bytes) := by
  rw [word_eq, ← h]
  exact (reads_chunk item bytes).map wordOf

theorem wordOf_wordBytes (w : UInt64) : wordOf (Field.wordBytes w) = w := by
  rw [wordOf, Field.wordBytes, ofLittleEndian_littleEndian w.toNat_lt, UInt64.ofNat_toNat]

theorem reads_word (item : StoredItem) (w : UInt64) : Reads (word item) (Field.wordBytes w) w := by
  have hword := reads_wordOf item (Field.length_wordBytes w)
  rw [wordOf_wordBytes] at hword
  exact hword

theorem reads_double (x : Binary64) : Reads double (Field.double x).bytes x :=
  (reads_word .double x.bits).map Binary64.mk

theorem reads_unsigned (n : UInt64) : Reads unsigned (Field.unsigned n).bytes n :=
  reads_word .unsigned n

theorem reads_signed (n : Int64) : Reads signed (Field.signed n).bytes n :=
  (reads_word .unsigned n.toUInt64).map UInt64.toInt64

theorem reads_flag (b : Bool) : Reads flag (Field.flag b).bytes b := by
  have hflag : Reads flag (Field.flag b).bytes ((if b then 1 else 0 : UInt64) != 0) :=
    (reads_word .unsigned (if b then 1 else 0)).map (· != 0)
  cases b
  · exact hflag
  · exact hflag

theorem reads_buffer {content : List UInt8} (hlength : content.length < UInt64.size) :
    Reads buffer (Field.buffer content).bytes content := by
  have hword : (UInt64.ofNat content.length).toNat = content.length :=
    UInt64.toNat_ofNat_of_lt' hlength
  refine (reads_word .unsigned (UInt64.ofNat content.length)).bind ?_
  rw [hword]
  exact reads_chunk .stringBuffer content

theorem reads_doubles (values : List Binary64) :
    Reads (doubles values.length) (Field.encode (values.map .double)) values := by
  induction values with
  | nil => exact Reads.pure []
  | cons value rest ih =>
    have hrest : Reads ((value :: ·) <$> doubles rest.length)
        (Field.encode (rest.map .double)) (value :: rest) := ih.map (value :: ·)
    exact (reads_double value).cons hrest

end Reader

/-! ## States -/

variable {σ : Type} [Persistent σ]

/-- Stores a state and reads it back. -/
def restore (state : σ) : Except Fault σ := decode .latest (encode state)

theorem restore_eq (state : σ) :
    restore state = ((Persistent.load .latest : Reader σ).read (encode state)).1 := by
  have hcheck : Version.latest.check = .ok () := rfl
  unfold restore decode
  rw [hcheck]
  rfl

theorem restore_of_reads {state : σ}
    (h : Reader.Reads (Persistent.load .latest) (encode state) state) :
    restore state = .ok state := by
  rw [restore_eq, h.read]

end Rollup
