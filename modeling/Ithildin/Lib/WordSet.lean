import Mathlib.Data.List.Basic
import Mathlib.Tactic.Common

/-!
# Words as sets of bits

* `WordSet.Has w i`: the bit `i` of a word is set;
* `has_or`, `has_and`, `has_compl`, `has_bit`: the bits of what is made of words;
* `WordSet.ext`: words with the same bits are equal;
* `has_foldl_or`, `has_foldl_and_compl`: loops that set and unset bits.
-/

namespace WordSet

/-- The bit `i` is set. -/
def Has (w : UInt64) (i : ℕ) : Prop := w.toBitVec.getLsbD i = true

instance (w : UInt64) (i : ℕ) : Decidable (Has w i) := inferInstanceAs (Decidable (_ = true))

/-- The word with one bit. -/
def bit (i : ℕ) : UInt64 := UInt64.ofBitVec (BitVec.twoPow 64 i)

variable {v w : UInt64} {i j : ℕ}

theorem has_lt (h : Has w i) : i < 64 := BitVec.lt_of_getLsbD h

@[simp] theorem not_has_zero (i : ℕ) : ¬ Has 0 i := by simp [Has]

@[simp] theorem has_or : Has (v ||| w) i ↔ Has v i ∨ Has w i := by simp [Has]

@[simp] theorem has_and : Has (v &&& w) i ↔ Has v i ∧ Has w i := by simp [Has]

theorem has_compl (hi : i < 64) : Has (~~~w) i ↔ ¬ Has w i := by simp [Has, hi]

theorem has_bit (hi : i < 64) : Has (bit i) j ↔ i = j := by
  simp [Has, bit, BitVec.getLsbD_twoPow, hi]

theorem bit_shiftLeft (i : ℕ) : bit i <<< 1 = bit (i + 1) := by
  rw [← UInt64.toBitVec_inj, UInt64.toBitVec_shiftLeft]
  change BitVec.twoPow 64 i <<< 1 = BitVec.twoPow 64 (i + 1)
  rw [BitVec.twoPow_eq, BitVec.twoPow_eq, BitVec.shiftLeft_add]

theorem ext (h : ∀ i < 64, Has v i ↔ Has w i) : v = w := by
  rw [← UInt64.toBitVec_inj]
  refine BitVec.eq_of_getLsbD_eq fun i hi => ?_
  exact Bool.eq_iff_iff.2 (h i hi)

/-- A word has a bit exactly if it meets the word with that bit. -/
theorem and_bit_ne_zero (hi : i < 64) : (w &&& bit i != 0) = true ↔ Has w i := by
  rw [bne_iff_ne]
  constructor
  · intro h
    by_contra hnot
    refine h (ext fun j _ => ?_)
    rw [has_and, has_bit hi]
    simp only [not_has_zero, iff_false]
    rintro ⟨hj, rfl⟩
    exact hnot hj
  · intro h hzero
    have hboth : Has (w &&& bit i) i := has_and.2 ⟨h, (has_bit hi).2 rfl⟩
    rw [hzero] at hboth
    exact not_has_zero i hboth

section Loops

variable {α : Type*} {f : α → UInt64} {l : List α}

theorem has_foldl_or :
    Has (l.foldl (fun w x => w ||| f x) w) i ↔ Has w i ∨ ∃ x ∈ l, Has (f x) i := by
  induction l generalizing w with
  | nil => simp
  | cons x l ih =>
    rw [List.foldl_cons, ih, has_or, or_assoc]
    simp

theorem has_foldl_and_compl (hi : i < 64) :
    Has (l.foldl (fun w x => w &&& ~~~f x) w) i ↔ Has w i ∧ ∀ x ∈ l, ¬ Has (f x) i := by
  induction l generalizing w with
  | nil => simp
  | cons x l ih =>
    rw [List.foldl_cons, ih, has_and, has_compl hi, List.forall_mem_cons, and_assoc]

end Loops

end WordSet
