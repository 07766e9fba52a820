import Mathlib.Algebra.GroupWithZero.Nat
import Rollup.Proofs.Encoding.Outcomes

/-!
# Fields one after the other

The bytes of fields are as long as the sizes of the fields add up to, and they are read back one
field at a time, whatever follows them. On other bytes a read may fail, and it fails in two ways
only (`Refuses`): eight bytes are not there, and then nothing is taken; or a buffer is shorter than
its length word says, and then that word is taken. So a series of reads always knows where it is,
also behind reads that failed (`readEach_fields`).
-/

namespace Rollup

namespace Field

/-- The number of bytes that a field takes. -/
def size : Field → Nat
  | buffer content => 8 + content.length
  | _ => 8

theorem length_bytes (field : Field) : field.bytes.length = field.size := by
  cases field <;> simp [bytes, size]

theorem length_encode (fields : List Field) : (encode fields).length = (fields.map size).sum := by
  induction fields with
  | nil => rfl
  | cons field rest ih =>
    rw [encode_cons, List.length_append, length_bytes, ih, List.map_cons, List.sum_cons]

end Field

/-- What is named as cut short if a field of this kind lacks its first eight bytes. -/
def FieldKind.item : FieldKind → StoredItem
  | .double => .double
  | _ => .unsigned

namespace Reader

variable {α β : Type}

/-! ## Reading written fields -/

theorem reads_field {field : Field} (hroom : ∀ content, field = .buffer content →
    content.length < UInt64.size) : Reads (Reader.field field.kind) field.bytes field := by
  cases field with
  | double x => exact (reads_double x).map Field.double
  | unsigned n => exact (reads_unsigned n).map Field.unsigned
  | signed n => exact (reads_signed n).map Field.signed
  | flag b => exact (reads_flag b).map Field.flag
  | buffer content => exact (reads_buffer (hroom content rfl)).map Field.buffer

/-- The outcomes of reading fields of the given kinds, and the bytes that remain. A read that fails
does not end the series: the next one goes on with the bytes that it left. -/
def readEach : List FieldKind → List UInt8 → List (Except Fault Field) × List UInt8
  | [], bytes => ([], bytes)
  | kind :: kinds, bytes =>
    let (outcome, rest) := (field kind).read bytes
    let (outcomes, final) := readEach kinds rest
    (outcome :: outcomes, final)

theorem readEach_encode {fields : List Field} (hroom : ∀ content, .buffer content ∈ fields →
    content.length < UInt64.size) (suffix : List UInt8) :
    readEach (fields.map Field.kind) (Field.encode fields ++ suffix)
      = (fields.map .ok, suffix) := by
  induction fields with
  | nil => rfl
  | cons field rest ih =>
    have hfield : Reads (Reader.field field.kind) field.bytes field :=
      reads_field fun content heq => hroom content (heq ▸ List.mem_cons_self)
    have hrest := ih fun content hmem => hroom content (List.mem_cons_of_mem field hmem)
    rw [List.map_cons, Field.encode_cons, List.append_assoc, readEach, hfield]
    dsimp only
    rw [hrest]
    rfl

/-! ## Reading arbitrary bytes -/

theorem read_map (g : α → β) (m : Reader α) (bytes : List UInt8) :
    (g <$> m).read bytes = ((m.read bytes).1.map g, (m.read bytes).2) := by
  rw [map_eq_pure_bind, read_bind]
  rcases m.read bytes with ⟨fault | x, rest⟩
  · rfl
  · rfl

theorem read_word (item : StoredItem) (bytes : List UInt8) :
    (word item).read bytes =
      if 8 ≤ bytes.length then (.ok (wordOf (bytes.take 8)), bytes.drop 8)
      else (.error (.unloadable (.truncated item 8 bytes.length)), bytes) := by
  rw [word_eq, read_map, read_chunk]
  split
  · rfl
  · rfl

/-- The field that a word stands for; a buffer is not one. -/
def fieldOfWord : FieldKind → UInt64 → Field
  | .double => fun w => .double ⟨w⟩
  | .signed => fun w => .signed w.toInt64
  | .flag => fun w => .flag (w != 0)
  | _ => .unsigned

/-- A scalar is a word, taken as what it stands for. -/
theorem field_of_ne_buffer {kind : FieldKind} (h : kind ≠ .buffer) :
    field kind = fieldOfWord kind <$> word kind.item := by
  cases kind with
  | buffer => exact absurd rfl h
  | unsigned => rfl
  | double => simp [field, double, FieldKind.item, fieldOfWord]
  | signed => simp [field, signed, FieldKind.item, fieldOfWord]
  | flag => simp [field, flag, FieldKind.item, fieldOfWord]

theorem kind_fieldOfWord {kind : FieldKind} (h : kind ≠ .buffer) (w : UInt64) :
    (fieldOfWord kind w).kind = kind ∧ (fieldOfWord kind w).size = 8 := by
  cases kind with
  | buffer => exact absurd rfl h
  | _ => exact ⟨rfl, rfl⟩

/-- Behind its length word a buffer is there or cut short. -/
theorem read_field_buffer (length : UInt64) (rest : List UInt8) :
    (field .buffer).read (Field.wordBytes length ++ rest) =
      if length.toNat ≤ rest.length then
        (.ok (.buffer (rest.take length.toNat)), rest.drop length.toNat)
      else (.error (.unloadable (.truncated .stringBuffer length.toNat rest.length)), rest) := by
  show (Field.buffer <$> buffer).read _ = _
  rw [read_map, buffer_eq, read_bind, reads_word]
  dsimp only
  rw [read_chunk]
  split
  · rfl
  · rfl

theorem exists_wordBytes_append {bytes : List UInt8} (h : 8 ≤ bytes.length) :
    ∃ w rest, bytes = Field.wordBytes w ++ rest := by
  refine ⟨wordOf (bytes.take 8), bytes.drop 8, ?_⟩
  rw [wordBytes_wordOf (List.length_take_of_le h), List.take_append_drop]

/-- A read of a field that fails: the fault, and the bytes that remain. -/
inductive Refuses : FieldKind → List UInt8 → Fault → List UInt8 → Prop
  /-- Nothing is taken of fewer than eight bytes. -/
  | short {kind : FieldKind} {bytes : List UInt8} (h : bytes.length < 8) :
      Refuses kind bytes (.unloadable (.truncated kind.item 8 bytes.length)) bytes
  /-- Of a buffer that is shorter than its length word says, that word is taken. -/
  | overlong {length : UInt64} {rest : List UInt8} (h : rest.length < length.toNat) :
      Refuses .buffer (Field.wordBytes length ++ rest)
        (.unloadable (.truncated .stringBuffer length.toNat rest.length)) rest

variable {kind : FieldKind} {bytes rest : List UInt8} {fault : Fault}

theorem Refuses.read (h : Refuses kind bytes fault rest) :
    (field kind).read bytes = (.error fault, rest) := by
  cases h with
  | overlong h => rw [read_field_buffer, if_neg (Nat.not_le.2 h)]
  | short h =>
    by_cases hbuffer : kind = .buffer
    · subst hbuffer
      show (Field.buffer <$> buffer).read _ = _
      rw [read_map, buffer_eq, read_bind, read_word, if_neg (Nat.not_le.2 h)]
      rfl
    · rw [field_of_ne_buffer hbuffer, read_map, read_word, if_neg (Nat.not_le.2 h)]
      rfl

/-- What a read makes of arbitrary bytes: a field of its kind, off a piece of its size, or a
refusal. -/
theorem read_field_cases (kind : FieldKind) (bytes : List UInt8) :
    (∃ f piece rest, bytes = piece ++ rest ∧ piece.length = f.size ∧ f.kind = kind ∧
        (field kind).read bytes = (.ok f, rest)) ∨
      ∃ fault rest, Refuses kind bytes fault rest := by
  by_cases hshort : bytes.length < 8
  · exact .inr ⟨_, bytes, .short hshort⟩
  · obtain ⟨w, rest, rfl⟩ := exists_wordBytes_append (Nat.not_lt.1 hshort)
    have hword := Field.length_wordBytes w
    by_cases hbuffer : kind = .buffer
    · subst hbuffer
      by_cases hlength : w.toNat ≤ rest.length
      · refine .inl ⟨.buffer (rest.take w.toNat), Field.wordBytes w ++ rest.take w.toNat,
          rest.drop w.toNat, ?_, ?_, rfl, ?_⟩
        · rw [List.append_assoc, List.take_append_drop]
        · rw [List.length_append, hword]
          rfl
        · rw [read_field_buffer, if_pos hlength]
      · exact .inr ⟨_, rest, .overlong (Nat.not_le.1 hlength)⟩
    · obtain ⟨hkind, hsize⟩ := kind_fieldOfWord hbuffer w
      refine .inl ⟨_, Field.wordBytes w, rest, rfl, hword.trans hsize.symm, hkind, ?_⟩
      rw [field_of_ne_buffer hbuffer, read_map, reads_word]
      rfl

theorem read_field_eq_error_iff :
    (field kind).read bytes = (.error fault, rest) ↔ Refuses kind bytes fault rest := by
  refine ⟨fun h => ?_, Refuses.read⟩
  rcases read_field_cases kind bytes with ⟨f, -, rest', -, -, -, hread⟩ | ⟨fault', rest', hrefuses⟩
  · cases h.symm.trans hread
  · cases h.symm.trans hrefuses.read
    exact hrefuses

theorem exists_piece_of_read_field {f : Field} (h : (field kind).read bytes = (.ok f, rest)) :
    f.kind = kind ∧ ∃ piece, bytes = piece ++ rest ∧ piece.length = f.size := by
  rcases read_field_cases kind bytes with ⟨f', piece, rest', hbytes, hsize, hkind, hread⟩ |
    ⟨fault, rest', hrefuses⟩
  · cases h.symm.trans hread
    exact ⟨hkind, piece, hbytes, hsize⟩
  · cases h.symm.trans hrefuses.read

/-! ## Where a series of reads is -/

/-- The number of bytes that a read took, told from its outcome. -/
def taken : Except Fault Field → Nat
  | .ok f => f.size
  | .error (.unloadable (.truncated .stringBuffer _ _)) => 8
  | .error _ => 0

theorem Refuses.drop_taken (h : Refuses kind bytes fault rest) :
    bytes.drop (taken (.error fault)) = rest := by
  cases h with
  | short h => cases kind <;> rfl
  | overlong h => exact List.drop_left' (Field.length_wordBytes _)

/-- A read leaves the bytes behind those that it took. -/
theorem read_field_rest (kind : FieldKind) (bytes : List UInt8) :
    ((field kind).read bytes).2 = bytes.drop (taken ((field kind).read bytes).1) := by
  rcases h : (field kind).read bytes with ⟨fault | f, rest⟩
  · exact (read_field_eq_error_iff.1 h).drop_taken.symm
  · obtain ⟨-, piece, rfl, hsize⟩ := exists_piece_of_read_field h
    exact (List.drop_left' hsize).symm

theorem readEach_rest (kinds : List FieldKind) (bytes : List UInt8) :
    (readEach kinds bytes).2 = bytes.drop ((readEach kinds bytes).1.map taken).sum := by
  induction kinds generalizing bytes with
  | nil => rfl
  | cons kind kinds ih =>
    rw [readEach]
    dsimp only
    rw [ih, read_field_rest, List.map_cons, List.sum_cons, List.drop_drop]

/-- **Reading fields.** Written fields are as long as their sizes say, and a series of reads of
their kinds gives them back, whatever follows them, and leaves what follows. Off any bytes, a read
that succeeds returns a field of its kind and takes a piece of its size; a read fails exactly as
`Refuses` says, so it takes nothing, or the length word of a buffer that is cut short. A series of
reads, whichever of them fail, ends behind the bytes that they took. -/
theorem readEach_fields :
    (∀ (fields : List Field) (suffix : List UInt8),
      (∀ content, .buffer content ∈ fields → content.length < UInt64.size) →
      (Field.encode fields).length = (fields.map Field.size).sum ∧
        readEach (fields.map Field.kind) (Field.encode fields ++ suffix)
          = (fields.map .ok, suffix)) ∧
    (∀ kind bytes f rest, (field kind).read bytes = (.ok f, rest) →
      f.kind = kind ∧ ∃ piece, bytes = piece ++ rest ∧ piece.length = f.size) ∧
    (∀ kind bytes fault rest,
      (field kind).read bytes = (.error fault, rest) ↔ Refuses kind bytes fault rest) ∧
    ∀ kinds bytes,
      (readEach kinds bytes).2 = bytes.drop ((readEach kinds bytes).1.map taken).sum := by
  refine ⟨fun fields suffix hroom => ?_, fun _ _ _ _ => exists_piece_of_read_field,
    fun _ _ _ _ => read_field_eq_error_iff, readEach_rest⟩
  exact ⟨Field.length_encode fields, readEach_encode hroom suffix⟩

/-- A NaN, the least signed number and a buffer with a byte that looks like a length. -/
def mixedFields : List Field :=
  [.double .nan, .signed Int64.minValue, .flag true, .buffer [3, 0, 255], .unsigned 7]

theorem readEach_fields_mixed :
    (∀ content, .buffer content ∈ mixedFields → content.length < UInt64.size) ∧
      (Field.encode mixedFields).length = 43 ∧
      readEach [.double, .signed, .flag, .buffer, .unsigned] (Field.encode mixedFields ++ [1, 2])
        = (mixedFields.map .ok, [1, 2]) := by
  have hroom : ∀ content, .buffer content ∈ mixedFields → content.length < UInt64.size := by
    intro content h
    simp only [mixedFields, List.mem_cons, reduceCtorEq, false_or, or_false, List.not_mem_nil,
      Field.buffer.injEq] at h
    rw [h]
    decide
  exact ⟨hroom, readEach_fields.1 mixedFields [1, 2] hroom⟩

/-- Behind the length of a buffer that is not there, the next word is read. -/
example : readEach [.buffer, .unsigned, .double] (Field.wordBytes 100 ++ Field.wordBytes 7 ++ [1])
    = ([.error (.unloadable (.truncated .stringBuffer 100 9)), .ok (.unsigned 7),
        .error (.unloadable (.truncated .double 8 1))], [1]) := by
  rfl

end Reader
end Rollup
