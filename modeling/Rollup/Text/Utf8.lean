/-!
# UTF-8

Decoding a byte sequence strictly. Which sequences are texts is `ByteArray.IsValidUTF8`: overlong
forms, surrogates and code points past `U+10FFFF` are refused. A refusal tells where the offending
sequence starts and how many bytes of it are intact.
-/

namespace Rollup.Utf8

/-- Why bytes are not UTF-8: the sequence that starts at byte `index` breaks after `length` bytes,
or the input ends inside it. -/
inductive Fault where
  | invalid (length index : Nat)
  | incomplete (index : Nat)
deriving DecidableEq, Repr

def Fault.message : Fault → String
  | invalid length index =>
    "invalid utf-8 sequence of " ++ Nat.repr length ++ " bytes from index " ++ Nat.repr index
  | incomplete index => "incomplete utf-8 byte sequence from index " ++ Nat.repr index

/-- What a first byte announces. -/
structure Lead where
  /-- The number of bytes that follow. -/
  following : Nat
  /-- The least second byte. -/
  low : Nat
  /-- The greatest second byte. -/
  high : Nat

/-- The first bytes of all sequences. The range of the second byte is narrower where the full range
would hold overlong forms, surrogates or code points past `U+10FFFF`. -/
def lead? (b : Nat) : Option Lead :=
  if b < 0x80 then some ⟨0, 0x80, 0xbf⟩
  else if 0xc2 ≤ b ∧ b ≤ 0xdf then some ⟨1, 0x80, 0xbf⟩
  else if b = 0xe0 then some ⟨2, 0xa0, 0xbf⟩
  else if b = 0xed then some ⟨2, 0x80, 0x9f⟩
  else if 0xe1 ≤ b ∧ b ≤ 0xef then some ⟨2, 0x80, 0xbf⟩
  else if b = 0xf0 then some ⟨3, 0x90, 0xbf⟩
  else if b = 0xf4 then some ⟨3, 0x80, 0x8f⟩
  else if 0xf1 ≤ b ∧ b ≤ 0xf3 then some ⟨3, 0x80, 0xbf⟩
  else none

/-- Skips `count` more bytes of a sequence of which `seen` are read, the next one from `low` to
`high` and all others from `80` to `BF`. Fails with the number of intact bytes, or with `none` where
the input ends. -/
def follow (seen low high : Nat) :
    (count : Nat) → List UInt8 → Except (Option Nat) (List UInt8)
  | 0, rest => .ok rest
  | _ + 1, [] => .error none
  | count + 1, b :: rest =>
    if low ≤ b.toNat ∧ b.toNat ≤ high then follow (seen + 1) 0x80 0xbf count rest
    else .error (some seen)

theorem length_of_follow {seen low high count : Nat} {bytes rest : List UInt8}
    (h : follow seen low high count bytes = .ok rest) : rest.length ≤ bytes.length := by
  fun_induction follow seen low high count bytes with
  | case1 => cases h; exact Nat.le_refl _
  | case2 => cases h
  | case3 _ _ _ _ _ _ _ ih => exact Nat.le_succ_of_le (ih h)
  | case4 => cases h

/-- The first fault among the bytes that stand at `index` of the whole input. -/
def locate (index : Nat) (bytes : List UInt8) : Fault :=
  match bytes with
  | [] => .incomplete index
  | b :: rest =>
    match lead? b.toNat with
    | none => .invalid 1 index
    | some lead =>
      match h : follow 1 lead.low lead.high lead.following rest with
      | .error none => .incomplete index
      -- The byte that breaks the sequence is not part of it and may start the next one.
      | .error (some intact) => .invalid intact index
      | .ok rest' => locate (index + 1 + lead.following) rest'
termination_by bytes.length
decreasing_by
  have := length_of_follow h
  simp only [List.length_cons]
  omega

def decode (bytes : List UInt8) : Except Fault String :=
  match String.fromUTF8? ⟨bytes.toArray⟩ with
  | some text => .ok text
  | none => .error (locate 0 bytes)

/-- Exactly the bytes of valid UTF-8 are decoded. -/
theorem isOk_decode_iff (bytes : List UInt8) :
    (decode bytes).isOk = true ↔ (⟨bytes.toArray⟩ : ByteArray).IsValidUTF8 := by
  unfold decode String.fromUTF8?
  by_cases h : (⟨bytes.toArray⟩ : ByteArray).IsValidUTF8
  · rw [dif_pos h]
    exact ⟨fun _ => h, fun _ => rfl⟩
  · rw [dif_neg h]
    exact ⟨fun h' => absurd h' Bool.false_ne_true, fun h' => absurd h' h⟩

end Rollup.Utf8
