import Mathlib.Order.WithBot
import Rollup.MaxScan.Kernel
import Rollup.Proofs.Binary64.Order

/-!
# The scan kernels agree

All shapes of the running maximum find the same number (`scan_agrees`). From a start that is a
number each of them takes the supremum of what the values count for (`peak`), where a NaN counts for
nothing, and a supremum does not depend on how the values are dealt to lanes. A number tells its
word but for the sign of a zero, so that sign is all the shapes can differ in. A start that is a NaN
stays as it is, since no value is greater.
-/

namespace Rollup
namespace MaxScan

open Binary64

/-! ## Agreement -/

/-- One word, or two zeros of either sign. -/
def AgreeButForZeroSign (a b : Binary64) : Prop :=
  a = b ∨ (a.isZero = true ∧ b.isZero = true)

theorem AgreeButForZeroSign.symm {a b : Binary64} (h : AgreeButForZeroSign a b) :
    AgreeButForZeroSign b a := h.imp Eq.symm And.symm

theorem AgreeButForZeroSign.trans {a b c : Binary64} (h : AgreeButForZeroSign a b)
    (h' : AgreeButForZeroSign b c) : AgreeButForZeroSign a c := by
  rcases h with rfl | ⟨ha, hb⟩
  · exact h'
  · rcases h' with rfl | ⟨-, hc⟩
    · exact .inr ⟨ha, hb⟩
    · exact .inr ⟨ha, hc⟩

/-! ## What values count for -/

/-- What a word counts for in a maximum: its number, and a NaN for less than any number. -/
def rank (x : Binary64) : WithBot Int := if x.isNaN then ⊥ else (x.numKey : WithBot Int)

/-- What values count for together. -/
def peak : List Binary64 → WithBot Int
  | [] => ⊥
  | value :: rest => rank value ⊔ peak rest

@[simp] theorem peak_nil : peak [] = ⊥ := rfl

@[simp] theorem peak_cons (value : Binary64) (rest : List Binary64) :
    peak (value :: rest) = rank value ⊔ peak rest := rfl

@[simp] theorem peak_append (front back : List Binary64) :
    peak (front ++ back) = peak front ⊔ peak back := by
  induction front with
  | nil => simp
  | cons value rest ih => simp [ih, sup_assoc]

/-- The same value again adds nothing. -/
theorem rank_sup_peak_replicate (count : Nat) (value : Binary64) :
    rank value ⊔ peak (List.replicate count value) = rank value := by
  induction count with
  | zero => exact sup_bot_eq _
  | succ count ih => rw [List.replicate_succ, peak_cons, ← sup_assoc, sup_idem, ih]

theorem rank_of_isNaN {x : Binary64} (h : x.isNaN = true) : rank x = ⊥ := by
  simp [rank, h]

theorem rank_of_not_isNaN {x : Binary64} (h : x.isNaN = false) :
    rank x = (x.numKey : WithBot Int) := by
  simp [rank, h]

/-- Numbers that count for the same agree. -/
theorem agree_of_rank_eq {a b : Binary64} (ha : a.isNaN = false) (hb : b.isNaN = false)
    (h : rank a = rank b) : AgreeButForZeroSign a b := by
  rw [rank_of_not_isNaN ha, rank_of_not_isNaN hb] at h
  exact eq_or_isZero (WithBot.coe_injective h)

/-! ## One comparison -/

/-- A NaN is not replaced. -/
theorem keepGreater_of_isNaN {acc : Binary64} (h : acc.isNaN = true) (value : Binary64) :
    keepGreater acc value = acc :=
  if_neg (show ¬lt acc value = true by simp [lt, h])

/-- A NaN replaces nothing. -/
theorem keepGreater_nan (acc : Binary64) {value : Binary64} (h : value.isNaN = true) :
    keepGreater acc value = acc := if_neg (not_lt_of_isNaN h)

theorem isNaN_keepGreater (acc value : Binary64) :
    (keepGreater acc value).isNaN = acc.isNaN := by
  cases hacc : acc.isNaN with
  | true => rw [keepGreater_of_isNaN hacc, hacc]
  | false =>
    cases hvalue : value.isNaN with
    | true => rw [keepGreater_nan acc hvalue, hacc]
    | false =>
      unfold keepGreater
      split <;> assumption

theorem rank_keepGreater {acc : Binary64} (hacc : acc.isNaN = false) (value : Binary64) :
    rank (keepGreater acc value) = rank acc ⊔ rank value := by
  cases hvalue : value.isNaN with
  | true => rw [keepGreater_nan acc hvalue, rank_of_isNaN hvalue, sup_bot_eq]
  | false =>
    have hlt := lt_iff hacc hvalue
    unfold keepGreater
    split
    · next h =>
      rw [eq_comm, sup_eq_right, rank_of_not_isNaN hacc, rank_of_not_isNaN hvalue,
        WithBot.coe_le_coe]
      exact (hlt.1 h).le
    · next h =>
      rw [eq_comm, sup_eq_left, rank_of_not_isNaN hacc, rank_of_not_isNaN hvalue,
        WithBot.coe_le_coe]
      exact not_lt.1 (mt hlt.2 h)

/-! ## One value at a time -/

theorem linear_cons (acc value : Binary64) (rest : List Binary64) :
    linear acc (value :: rest) = linear (keepGreater acc value) rest := rfl

theorem linear_of_isNaN {acc : Binary64} (h : acc.isNaN = true) (values : List Binary64) :
    linear acc values = acc := by
  induction values with
  | nil => rfl
  | cons value rest ih => rw [linear_cons, keepGreater_of_isNaN h, ih]

theorem isNaN_linear (acc : Binary64) (values : List Binary64) :
    (linear acc values).isNaN = acc.isNaN := by
  induction values generalizing acc with
  | nil => rfl
  | cons value rest ih => rw [linear_cons, ih, isNaN_keepGreater]

theorem rank_linear {acc : Binary64} (hacc : acc.isNaN = false) (values : List Binary64) :
    rank (linear acc values) = rank acc ⊔ peak values := by
  induction values generalizing acc with
  | nil => exact (sup_bot_eq _).symm
  | cons value rest ih =>
    have hkeep := (isNaN_keepGreater acc value).trans hacc
    rw [linear_cons, ih hkeep, rank_keepGreater hacc, peak_cons, sup_assoc]

/-- The NaNs among the values can be left out. -/
theorem linear_filter_numbers (acc : Binary64) (values : List Binary64) :
    linear acc (values.filter fun value => !value.isNaN) = linear acc values := by
  induction values generalizing acc with
  | nil => rfl
  | cons value rest ih =>
    cases hvalue : value.isNaN with
    | true =>
      rw [List.filter_cons_of_neg (by simp [hvalue]), linear_cons, keepGreater_nan acc hvalue, ih]
    | false =>
      rw [List.filter_cons_of_pos (by simp [hvalue]), linear_cons, linear_cons, ih]

/-! ## Lanes -/

/-- Dealing one value to each lane takes them all in. -/
theorem peak_zipWith {lanes chunk : List Binary64} (hlength : lanes.length = chunk.length)
    (hlanes : ∀ lane ∈ lanes, lane.isNaN = false) :
    peak (lanes.zipWith keepGreater chunk) = peak lanes ⊔ peak chunk := by
  induction lanes generalizing chunk with
  | nil =>
    cases chunk with
    | nil => simp
    | cons value rest => simp at hlength
  | cons lane lanes ih =>
    cases chunk with
    | nil => simp at hlength
    | cons value rest =>
      rw [List.forall_mem_cons] at hlanes
      rw [List.zipWith_cons_cons, peak_cons, peak_cons, peak_cons, rank_keepGreater hlanes.1,
        ih (Nat.succ.inj hlength) hlanes.2, sup_sup_sup_comm]

theorem not_isNaN_of_mem_zipWith {lanes chunk : List Binary64}
    (hlanes : ∀ lane ∈ lanes, lane.isNaN = false) :
    ∀ lane ∈ lanes.zipWith keepGreater chunk, lane.isNaN = false := by
  induction lanes generalizing chunk with
  | nil => simp
  | cons lane lanes ih =>
    cases chunk with
    | nil => simp
    | cons value rest =>
      rw [List.forall_mem_cons] at hlanes
      rw [List.zipWith_cons_cons, List.forall_mem_cons, isNaN_keepGreater]
      exact ⟨hlanes.1, ih hlanes.2⟩

/-- What is in the lanes and what is left over count for what the lanes and the values did. -/
theorem peak_foldChunks {lanes : List Binary64} (values : List Binary64)
    (hlanes : ∀ lane ∈ lanes, lane.isNaN = false) :
    peak (foldChunks lanes values).1 ⊔ peak (foldChunks lanes values).2
      = peak lanes ⊔ peak values := by
  fun_induction foldChunks lanes values with
  | case1 lanes values h ih =>
    have hlength : lanes.length = (values.take lanes.length).length := by
      rw [List.length_take, Nat.min_eq_left h.2]
    -- the lanes of the next round count for the old ones and the chunk that was dealt to them
    rw [ih (not_isNaN_of_mem_zipWith hlanes), peak_zipWith hlength hlanes, sup_assoc,
      ← peak_append, List.take_append_drop]
  | case2 => rfl

/-- Values that are folded in lanes, each of which starts with the start of the fold, and reduced
from there, count for what they do one at a time. -/
theorem rank_sup_peak_foldChunks {acc : Binary64} (hacc : acc.isNaN = false) (count : Nat)
    (values : List Binary64) :
    rank acc ⊔ (peak (foldChunks (List.replicate count acc) values).1
      ⊔ peak (foldChunks (List.replicate count acc) values).2) = rank acc ⊔ peak values := by
  have hlanes : ∀ lane ∈ List.replicate count acc, lane.isNaN = false := by
    intro lane hlane
    rw [List.eq_of_mem_replicate hlane, hacc]
  -- the lanes count for no more than the start they were filled with
  rw [peak_foldChunks values hlanes, ← sup_assoc, rank_sup_peak_replicate]

theorem isNaN_lanes (acc : Binary64) (values : List Binary64) :
    (lanes acc values).isNaN = acc.isNaN := isNaN_linear acc _

theorem rank_lanes {acc : Binary64} (hacc : acc.isNaN = false) (values : List Binary64) :
    rank (lanes acc values) = rank acc ⊔ peak values := by
  unfold lanes
  rw [rank_linear hacc, peak_append, rank_sup_peak_foldChunks hacc]

theorem isNaN_wide (lead : Nat) (acc : Binary64) (values : List Binary64) :
    (wide lead acc values).isNaN = acc.isNaN := by
  unfold wide
  split
  · exact isNaN_lanes acc values
  · simp only [isNaN_linear]

theorem rank_wide (lead : Nat) {acc : Binary64} (hacc : acc.isNaN = false)
    (values : List Binary64) : rank (wide lead acc values) = rank acc ⊔ peak values := by
  unfold wide
  split
  · exact rank_lanes hacc values
  · have hstart : (linear acc (values.take lead)).isNaN = false :=
      (isNaN_linear acc _).trans hacc
    have hrank := rank_linear hacc (values.take lead)
    generalize linear acc (values.take lead) = start at hstart hrank ⊢
    -- the register starts with what was found before it, and so does its reduction
    have hreduced := (isNaN_linear start
      (foldChunks (List.replicate registerWidth start) (values.drop lead)).1).trans hstart
    dsimp only
    rw [rank_linear hreduced, rank_linear hstart, sup_assoc, rank_sup_peak_foldChunks hstart,
      hrank, sup_assoc, ← peak_append, List.take_append_drop]

end MaxScan

/-! ## Kernels -/

namespace Kernel

open MaxScan

theorem isNaN_scan (kernel : Kernel) (lead : Nat) (acc : Binary64) (values : List Binary64) :
    (kernel.scan lead acc values).isNaN = acc.isNaN := by
  cases kernel with
  | avx2 => exact isNaN_wide lead acc values
  | scalar => exact isNaN_lanes acc values
  | avx512 => exact isNaN_lanes acc values

theorem rank_scan (kernel : Kernel) (lead : Nat) {acc : Binary64} (hacc : acc.isNaN = false)
    (values : List Binary64) :
    rank (kernel.scan lead acc values) = rank (linear acc values) := by
  rw [rank_linear hacc]
  cases kernel with
  | avx2 => exact rank_wide lead hacc values
  | scalar => exact rank_lanes hacc values
  | avx512 => exact rank_lanes hacc values

theorem scan_of_isNaN (kernel : Kernel) (lead : Nat) {acc : Binary64} (hacc : acc.isNaN = true)
    (values : List Binary64) : kernel.scan lead acc values = acc := by
  have hlanes : lanes acc values = acc := linear_of_isNaN hacc _
  cases kernel with
  | avx2 =>
    show wide lead acc values = acc
    unfold wide
    split
    · exact hlanes
    · simp only [linear_of_isNaN hacc]
  | scalar => exact hlanes
  | avx512 => exact hlanes

theorem agree_scan_linear (kernel : Kernel) (lead : Nat) (acc : Binary64) (values : List Binary64) :
    AgreeButForZeroSign (kernel.scan lead acc values) (linear acc values) := by
  cases hacc : acc.isNaN with
  | true =>
    left
    rw [scan_of_isNaN kernel lead hacc, linear_of_isNaN hacc]
  | false =>
    have hscan := (isNaN_scan kernel lead acc values).trans hacc
    have hlinear := (isNaN_linear acc values).trans hacc
    exact agree_of_rank_eq hscan hlinear (rank_scan kernel lead hacc values)

/-- **All kernels find the same maximum.** However many values lie before the first aligned one,
every kernel gives the word that is found by keeping the greater of two numbers one value at a time,
or else both are zeros and differ in their sign. So the alignment does not matter; the result is a
NaN only if the start is one, which is returned as it is then; and the NaNs among the values could
as well not be there. -/
theorem scan_agrees (kernel : Kernel) (lead : Nat) (acc : Binary64) (values : List Binary64) :
    AgreeButForZeroSign (kernel.scan lead acc values) (linear acc values) ∧
    (∀ lead', AgreeButForZeroSign (kernel.scan lead acc values)
      (kernel.scan lead' acc values)) ∧
    (kernel.scan lead acc values).isNaN = acc.isNaN ∧
    (acc.isNaN = true → kernel.scan lead acc values = acc) ∧
    AgreeButForZeroSign (kernel.scan lead acc values)
      (linear acc (values.filter fun value => !value.isNaN)) := by
  have hagree := agree_scan_linear kernel lead acc values
  refine ⟨hagree, fun lead' => hagree.trans (agree_scan_linear kernel lead' acc values).symm,
    isNaN_scan kernel lead acc values, fun hacc => scan_of_isNaN kernel lead hacc values, ?_⟩
  rw [linear_filter_numbers]
  exact hagree

/-- A NaN with a payload stays, whatever is scanned in vector registers behind it. -/
theorem scan_agrees_nan :
    (⟨0x7ff8000000000001⟩ : Binary64).isNaN = true ∧
      avx2.scan 3 ⟨0x7ff8000000000001⟩ (List.replicate 9 (.infinity false))
        = ⟨0x7ff8000000000001⟩ := by
  have hnan : (⟨0x7ff8000000000001⟩ : Binary64).isNaN = true := by decide
  exact ⟨hnan, (scan_agrees avx2 3 _ (List.replicate 9 (.infinity false))).2.2.2.1 hnan⟩

end Kernel
end Rollup
