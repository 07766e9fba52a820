import Mathlib.Algebra.Group.Nat.Defs
import Rollup.Proofs.Encoding.ReadBack

/-!
# What readers return

Three things that can be said of a reader whatever the bytes: what its results have in common
(`Yields`), that the bytes it took are the written form of its result (`Takes`), and for what causes
it fails (`Fails`). The first and the last are put together along the reader, one field after the
other.
-/

namespace Rollup

/-- The digits of a number are those it was made of. -/
theorem littleEndian_ofLittleEndian (bytes : List UInt8) :
    littleEndian bytes.length (ofLittleEndian bytes) = bytes := by
  induction bytes with
  | nil => rfl
  | cons b rest ih =>
    have hlt := b.toNat_lt
    have hdigit : (b.toNat + 256 * ofLittleEndian rest) % 256 = b.toNat := by omega
    have hrest : (b.toNat + 256 * ofLittleEndian rest) / 256 = ofLittleEndian rest := by omega
    rw [List.length_cons, littleEndian, ofLittleEndian, hdigit, hrest, ih, UInt8.ofNat_toNat]

theorem ofLittleEndian_lt (bytes : List UInt8) : ofLittleEndian bytes < 256 ^ bytes.length := by
  induction bytes with
  | nil => exact Nat.zero_lt_one
  | cons b rest ih =>
    have hlt := b.toNat_lt
    rw [List.length_cons, ofLittleEndian, Nat.pow_succ]
    omega

namespace Reader

variable {α β : Type} {m : Reader α} {f : α → Reader β}

/-! ## Results -/

/-- Whatever the bytes, the results of the reader have the property. -/
def Yields (P : α → Prop) (m : Reader α) : Prop :=
  ∀ bytes x rest, m.read bytes = (.ok x, rest) → P x

theorem Yields.pure {P : α → Prop} {x : α} (h : P x) : Yields P (Pure.pure x : Reader α) := by
  intro bytes y rest hread
  cases hread
  exact h

theorem Yields.throw {P : α → Prop} (fault : Fault) : Yields P (throw fault : Reader α) := by
  intro bytes x rest hread
  cases hread

/-- The second reader can rely on what the first one yields. -/
theorem Yields.bind_of {P : α → Prop} {Q : β → Prop} (hm : Yields P m)
    (hf : ∀ x, P x → Yields Q (f x)) : Yields Q (m >>= f) := by
  intro bytes y rest hread
  obtain ⟨x, between, hx, hy⟩ := read_bind_eq_ok hread
  exact hf x (hm bytes x between hx) between y rest hy

theorem Yields.bind {Q : β → Prop} (hf : ∀ x, Yields Q (f x)) : Yields Q (m >>= f) :=
  bind_of (P := fun _ => True) (fun _ _ _ _ => trivial) fun x _ => hf x

theorem Yields.map {P : α → Prop} {Q : β → Prop} {g : α → β} (hm : Yields P m)
    (h : ∀ x, P x → Q (g x)) : Yields Q (g <$> m) :=
  hm.bind_of fun x hx => .pure (h x hx)

/-! ## Bytes taken -/

/-- All that the reader takes off is the written form of what it returns. -/
def Takes (m : Reader α) (form : α → List UInt8) : Prop :=
  ∀ bytes x rest, m.read bytes = (.ok x, rest) → bytes = form x ++ rest

theorem wordBytes_wordOf {bytes : List UInt8} (h : bytes.length = 8) :
    Field.wordBytes (wordOf bytes) = bytes := by
  have hlt : ofLittleEndian bytes < UInt64.size := by
    have hlt := ofLittleEndian_lt bytes
    rwa [h] at hlt
  rw [Field.wordBytes, wordOf, UInt64.toNat_ofNat_of_lt' hlt, ← h, littleEndian_ofLittleEndian]

theorem takes_word (item : StoredItem) : Takes (word item) Field.wordBytes := by
  intro bytes w rest h
  rw [word_eq] at h
  obtain ⟨front, between, hchunk, hword⟩ := read_bind_eq_ok h
  cases hword
  rw [read_chunk] at hchunk
  split at hchunk
  · next hle =>
    cases hchunk
    rw [wordBytes_wordOf (List.length_take_of_le hle), List.take_append_drop]
  · cases hchunk

theorem takes_unsigned : Takes unsigned fun n => (Field.unsigned n).bytes := takes_word .unsigned

theorem takes_double : Takes double fun x => (Field.double x).bytes := by
  intro bytes x rest h
  obtain ⟨w, between, hword, hdouble⟩ := read_bind_eq_ok h
  cases hdouble
  exact takes_word .double _ _ _ hword

theorem read_doubles_eq_ok {count : Nat} {bytes rest : List UInt8} {values : List Binary64}
    (h : (doubles count).read bytes = (.ok values, rest)) :
    values.length = count ∧ bytes = Field.encode (values.map .double) ++ rest := by
  induction count generalizing bytes values with
  | zero =>
    cases h
    exact ⟨rfl, rfl⟩
  | succ count ih =>
    obtain ⟨x, between, hdouble, hmore⟩ := read_bind_eq_ok h
    obtain ⟨xs, between', hdoubles, hvalues⟩ := read_bind_eq_ok hmore
    cases hvalues
    obtain ⟨hlength, rfl⟩ := ih hdoubles
    refine ⟨congrArg (· + 1) hlength, ?_⟩
    rw [takes_double _ _ _ hdouble, List.map_cons, Field.encode_cons, List.append_assoc]

/-! ## Failures -/

/-- Whatever the bytes, the reader fails for such causes only. -/
def Fails (P : Fault → Prop) (m : Reader α) : Prop :=
  ∀ bytes fault rest, m.read bytes = (.error fault, rest) → P fault

variable {P : Fault → Prop}

theorem Fails.pure (x : α) : Fails P (Pure.pure x : Reader α) := by
  intro bytes fault rest h
  cases h

theorem Fails.throw {fault : Fault} (h : P fault) : Fails P (throw fault : Reader α) := by
  intro bytes fault' rest h'
  cases h'
  exact h

theorem Fails.bind (hm : Fails P m) (hf : ∀ x, Fails P (f x)) :
    Fails P (m >>= f) := by
  intro bytes fault rest h
  rw [read_bind] at h
  rcases hread : m.read bytes with ⟨fault' | x, between⟩
  · rw [hread] at h
    cases h
    exact hm _ _ _ hread
  · rw [hread] at h
    exact hf x _ _ _ h

theorem fails_word (item : StoredItem)
    (h : ∀ needed available, P (.unloadable (.truncated item needed available))) :
    Fails P (word item) := by
  rw [word_eq]
  refine Fails.bind (fun bytes fault rest hread => ?_) fun x => .pure _
  rw [read_chunk] at hread
  split at hread
  · cases hread
  · cases hread
    exact h _ _

theorem fails_doubles
    (h : ∀ item needed available, P (.unloadable (.truncated item needed available)))
    (count : Nat) : Fails P (doubles count) := by
  induction count with
  | zero => exact .pure _
  | succ count ih =>
    exact ((fails_word .double (h _)).bind fun _ => .pure _).bind fun _ => ih.bind fun _ => .pure _

end Reader
end Rollup
