import Rollup.Aggregation
import Rollup.Text.Utf8

/-!
# Names of aggregations as bytes

A name is looked up as a text, but it is stored as bytes. The bytes that name an aggregation are
those of its token with capital ASCII letters allowed for small ones, and nothing else: they are
valid UTF-8 without further ado, and no other character folds to a letter of a token
(`ofName?_eq_some_iff`).
-/

namespace Rollup

/-! ## Texts and their bytes -/

namespace Utf8

theorem toList_loop (bytes : ByteArray) (i : Nat) (acc : List UInt8) :
    ByteArray.toList.loop bytes i acc = acc.reverse ++ bytes.data.toList.drop i := by
  fun_induction ByteArray.toList.loop bytes i acc with
  | case1 i acc h ih =>
    have hget : bytes.data.toList.drop i = bytes.get! i :: bytes.data.toList.drop (i + 1) := by
      rw [List.drop_eq_getElem_cons (by simpa using h)]
      simp [ByteArray.get!, h]
    rw [ih, hget, List.reverse_cons, List.append_assoc]
    rfl
  | case2 i acc h =>
    rw [List.drop_of_length_le (Nat.not_lt.1 h), List.append_nil]

theorem toList_eq (bytes : ByteArray) : bytes.toList = bytes.data.toList := toList_loop bytes 0 []

/-- The bytes of a text are those of its characters, one after the other. -/
theorem toList_toUTF8 (text : String) :
    text.toUTF8.toList = text.toList.flatMap String.utf8EncodeChar := by
  rw [toList_eq, String.toUTF8_eq_toByteArray, ← String.utf8Encode_toList, List.utf8Encode,
    List.data_toByteArray]

theorem toList_toUTF8_inj {text text' : String} :
    text.toUTF8.toList = text'.toUTF8.toList ↔ text = text' := by
  rw [toList_eq, toList_eq, Array.toList_inj, ← ByteArray.ext_iff]
  exact String.toByteArray_inj

/-- Bytes are decoded as the text that has these bytes. -/
theorem decode_eq_ok_iff {bytes : List UInt8} {text : String} :
    decode bytes = .ok text ↔ bytes = text.toUTF8.toList := by
  have hbytes : bytes = text.toUTF8.toList ↔ (⟨bytes.toArray⟩ : ByteArray) = text.toByteArray := by
    rw [toList_eq, ByteArray.ext_iff, ← Array.toList_inj]
    rfl
  rw [hbytes]
  unfold decode String.fromUTF8?
  by_cases h : (⟨bytes.toArray⟩ : ByteArray).IsValidUTF8
  · rw [dif_pos h]
    exact ⟨fun heq => Except.ok.inj heq ▸ rfl, fun heq => congrArg _ (String.toByteArray_inj.1 heq)⟩
  · rw [dif_neg h]
    exact ⟨(nomatch ·), fun heq => absurd (heq ▸ text.isValidUTF8) h⟩

/-- ASCII bytes are the bytes of a text. -/
theorem exists_text {bytes : List UInt8} (h : ∀ b ∈ bytes, b.toNat < 0x80) :
    ∃ text : String, bytes = text.toUTF8.toList := by
  refine ⟨String.ofList (bytes.map fun b => Char.ofNat b.toNat), ?_⟩
  rw [toList_toUTF8, String.toList_ofList, List.flatMap_map]
  induction bytes with
  | nil => rfl
  | cons b rest ih =>
    obtain ⟨hb, hrest⟩ := List.forall_mem_cons.1 h
    have hchar : (Char.ofNat b.toNat).toNat = b.toNat := by
      have hvalid : b.toNat.isValidChar := .inl (by omega)
      rw [Char.ofNat, dif_pos hvalid]
      rfl
    have hencode : String.utf8EncodeChar (Char.ofNat b.toNat) = [b] := by
      unfold String.utf8EncodeChar
      rw [show (Char.ofNat b.toNat).val.toNat = b.toNat from hchar, if_pos (by omega),
        UInt8.ofNat_toNat]
    rw [List.flatMap_cons, hencode, ← ih hrest]
    rfl

end Utf8

namespace Aggregation

/-- A capital ASCII letter as the small one, any other byte as it is. -/
def foldByte (b : UInt8) : UInt8 := if 0x41 ≤ b ∧ b ≤ 0x5a then b + 0x20 else b

/-- The bytes are the token of the aggregation, with capital letters allowed for small ones. -/
def Spells (kind : Aggregation) (name : List UInt8) : Prop :=
  name.map foldByte = kind.token.toUTF8.toList

instance (kind : Aggregation) (name : List UInt8) : Decidable (kind.Spells name) :=
  inferInstanceAs (Decidable (_ = _))

theorem foldByte_ofNat {n : Nat} (hn : n < 256) :
    foldByte (UInt8.ofNat n) = UInt8.ofNat (if 0x41 ≤ n ∧ n ≤ 0x5a then n + 0x20 else n) := by
  have hrange : (0x41 ≤ UInt8.ofNat n ∧ UInt8.ofNat n ≤ 0x5a) ↔ 0x41 ≤ n ∧ n ≤ 0x5a := by
    rw [UInt8.le_iff_toNat_le, UInt8.le_iff_toNat_le, UInt8.toNat_ofNat_of_lt' hn]
    rfl
  unfold foldByte
  by_cases h : 0x41 ≤ n ∧ n ≤ 0x5a
  · rw [if_pos (hrange.2 h), if_pos h, UInt8.ofNat_add]
    rfl
  · rw [if_neg (mt hrange.1 h), if_neg h]

theorem foldByte_of_above {b : UInt8} (h : 0x80 ≤ b.toNat) : foldByte b = b := by
  refine if_neg fun hrange => ?_
  have hle : b.toNat ≤ 0x5a := UInt8.le_iff_toNat_le.1 hrange.2
  omega

/-- All bytes of a character beyond ASCII are beyond ASCII. -/
theorem above_of_mem_utf8EncodeChar {c : Char} (hc : ¬c.val.toNat ≤ 127) :
    ∀ b ∈ String.utf8EncodeChar c, 0x80 ≤ b.toNat := by
  unfold String.utf8EncodeChar
  dsimp only
  rw [if_neg hc]
  -- two bytes, three bytes or four
  repeat' split
  all_goals
    simp only [List.forall_mem_cons, List.not_mem_nil, false_imp_iff, implies_true, and_true,
      UInt8.toNat_ofNat']
    omega

theorem toNat_toLower (c : Char) : c.toLower.val.toNat
    = if 0x41 ≤ c.val.toNat ∧ c.val.toNat ≤ 0x5a then c.val.toNat + 0x20 else c.val.toNat := by
  have hrange : (c.val ≥ 'A'.val ∧ c.val ≤ 'Z'.val) ↔ 0x41 ≤ c.val.toNat ∧ c.val.toNat ≤ 0x5a := by
    rw [ge_iff_le, UInt32.le_iff_toNat_le, UInt32.le_iff_toNat_le]
    rfl
  unfold Char.toLower
  split
  · next h =>
    have hle : c.val.toNat ≤ 0x5a := (hrange.1 h).2
    rw [if_pos (hrange.1 h)]
    show (c.val + 0x20).toNat = c.val.toNat + 0x20
    rw [UInt32.toNat_add]
    exact Nat.mod_eq_of_lt (Nat.lt_of_le_of_lt (Nat.add_le_add_right hle _) (by decide))
  · next h => rw [if_neg (mt hrange.2 h)]

/-- Cases are folded byte by byte. -/
theorem utf8EncodeChar_toLower (c : Char) :
    String.utf8EncodeChar c.toLower = (String.utf8EncodeChar c).map foldByte := by
  have hlower := toNat_toLower c
  by_cases hascii : c.val.toNat ≤ 127
  · have hencode : ∀ {d : Char}, d.val.toNat ≤ 127 →
        String.utf8EncodeChar d = [UInt8.ofNat d.val.toNat] := fun h => if_pos h
    rw [hencode hascii, hencode (by split at hlower <;> omega), hlower, List.map_cons,
      foldByte_ofNat (by omega)]
    rfl
  · have hsame : c.toLower = c := Char.ext (UInt32.toNat_inj.1 (by rw [hlower, if_neg (by omega)]))
    rw [hsame, List.map_congr_left fun b hb => foldByte_of_above
      (above_of_mem_utf8EncodeChar hascii b hb), List.map_id']

theorem foldCase_token (kind : Aggregation) : foldCase kind.token = kind.token.toList := by
  cases kind <;> decide

/-- The bytes of a text spell the token of an aggregation if the text folds to that token. -/
theorem spells_toUTF8_iff {kind : Aggregation} {text : String} :
    kind.Spells text.toUTF8.toList ↔ foldCase text = kind.token.toList := by
  have hfold : text.toUTF8.toList.map foldByte = (String.ofList (foldCase text)).toUTF8.toList := by
    rw [Utf8.toList_toUTF8, Utf8.toList_toUTF8, String.toList_ofList, foldCase, List.map_flatMap,
      List.flatMap_map]
    exact congrArg (List.flatMap · _) (funext fun c => (utf8EncodeChar_toLower c).symm)
  unfold Spells
  rw [hfold, Utf8.toList_toUTF8_inj, ← String.toList_inj, String.toList_ofList]

/-- A text is looked up by the bytes of the tokens. -/
theorem ofName?_eq_some_iff {kind : Aggregation} {text : String} :
    ofName? text = some kind ↔ kind.Spells text.toUTF8.toList := by
  rw [spells_toUTF8_iff]
  constructor
  · intro h
    unfold ofName? at h
    have hmatch := List.find?_some h
    exact (beq_iff_eq.1 hmatch).symm
  · intro h
    have htoken := ofName?_token kind
    unfold ofName? at htoken ⊢
    rw [h]
    rwa [foldCase_token] at htoken

/-- What spells a token is ASCII, and so it is the bytes of a text. -/
theorem Spells.exists_text {kind : Aggregation} {name : List UInt8} (h : kind.Spells name) :
    ∃ text : String, name = text.toUTF8.toList := by
  have hascii : kind.token.toUTF8.toList.all (fun b => b.toNat < 0x80) = true := by
    rw [Utf8.toList_toUTF8]
    cases kind <;> rfl
  have htoken : ∀ b ∈ kind.token.toUTF8.toList, b.toNat < 0x80 := fun b hb =>
    of_decide_eq_true (List.all_eq_true.1 hascii b hb)
  refine Utf8.exists_text fun b hb => Nat.lt_of_not_le fun habove => ?_
  have hfold := htoken (foldByte b) (h ▸ List.mem_map_of_mem hb)
  rw [foldByte_of_above habove] at hfold
  omega

end Aggregation
end Rollup
