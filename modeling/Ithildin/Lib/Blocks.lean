import Mathlib.Data.List.Basic
import Mathlib.Tactic.Ring

/-!
# Data taken in block by block

A function takes a state and a block of `n` elements to the next state. Data are taken in as far as
they fill blocks; what does not fill one waits for more.

* `Blocks.absorb`: the state after the whole blocks of the data;
* `Blocks.rest`: what is behind the last whole block;
* `absorb_append`, `absorb_rest`: what more data make of the state and of what waits.
-/

namespace Blocks

variable {σ α : Type*} (f : σ → List α → σ) (n : ℕ)

/-- The state after the first `k` blocks. -/
def absorbN : ℕ → σ → List α → σ
  | 0, s, _ => s
  | k + 1, s, data => absorbN k (f s (data.take n)) (data.drop n)

/-- The state after the whole blocks of the data. -/
def absorb (s : σ) (data : List α) : σ := absorbN f n (data.length / n) s data

/-- What is behind the last whole block. -/
def rest (data : List α) : List α := data.drop (data.length / n * n)

@[simp] theorem absorbN_zero (s : σ) (data : List α) : absorbN f n 0 s data = s := rfl

theorem absorbN_succ (k : ℕ) (s : σ) (data : List α) :
    absorbN f n (k + 1) s data = absorbN f n k (f s (data.take n)) (data.drop n) := rfl

theorem absorb_of_lt {s : σ} {data : List α} (h : data.length < n) : absorb f n s data = s := by
  rw [absorb, Nat.div_eq_of_lt h, absorbN_zero]

theorem rest_of_lt {data : List α} (h : data.length < n) : rest n data = data := by
  rw [rest, Nat.div_eq_of_lt h, Nat.zero_mul, List.drop_zero]

variable {n}

theorem length_rest (data : List α) : (rest n data).length = data.length % n := by
  rw [rest, List.length_drop, Nat.mod_eq_sub_div_mul]

/-- The first block, and the others. -/
theorem absorb_block_append (hn : 0 < n) {s : σ} {block data : List α} (h : block.length = n) :
    absorb f n s (block ++ data) = absorb f n (f s block) data := by
  have hcount : (block ++ data).length / n = data.length / n + 1 := by
    rw [List.length_append, h, Nat.add_div_left _ hn]
  rw [absorb, hcount, absorbN_succ, List.take_left' h, List.drop_left' h, absorb]

theorem rest_block_append (hn : 0 < n) {block data : List α} (h : block.length = n) :
    rest n (block ++ data) = rest n data := by
  have hcount : (block ++ data).length / n = data.length / n + 1 := by
    rw [List.length_append, h, Nat.add_div_left _ hn]
  have hplace : (data.length / n + 1) * n = block.length + data.length / n * n := by
    rw [h]
    ring
  rw [rest, hcount, hplace, List.drop_append, List.drop_eq_nil_of_le (by omega), List.nil_append,
    rest]
  congr 1
  omega

/-- Data that fill their blocks, and more data. -/
theorem absorb_append (hn : 0 < n) {a b : List α} (h : n ∣ a.length) (s : σ) :
    absorb f n s (a ++ b) = absorb f n (absorb f n s a) b ∧ rest n (a ++ b) = rest n b := by
  obtain ⟨k, hk⟩ := h
  induction k generalizing s a with
  | zero =>
    obtain rfl : a = [] := List.eq_nil_of_length_eq_zero (by omega)
    rw [List.nil_append, @absorb_of_lt _ _ f n _ [] hn]
    exact ⟨rfl, rfl⟩
  | succ k ih =>
    have hlong : n ≤ a.length := by
      rw [hk, Nat.mul_succ]
      exact Nat.le_add_left _ _
    have hblock : (a.take n).length = n := by rw [List.length_take, Nat.min_eq_left hlong]
    have hrest : (a.drop n).length = n * k := by
      rw [List.length_drop, hk, Nat.mul_succ, Nat.add_sub_cancel]
    obtain ⟨hstate, hwait⟩ := ih (f s (a.take n)) hrest
    have hsplit : a ++ b = a.take n ++ (a.drop n ++ b) := by
      rw [← List.append_assoc, List.take_append_drop]
    have hfirst : absorb f n s a = absorb f n (f s (a.take n)) (a.drop n) := by
      conv_lhs => rw [← List.take_append_drop n a]
      exact absorb_block_append f hn hblock
    constructor
    · rw [hsplit, absorb_block_append f hn hblock, hstate, hfirst]
    · rw [hsplit, rest_block_append hn hblock, hwait]

theorem dvd_length_take (data : List α) : n ∣ (data.take (data.length / n * n)).length := by
  rw [List.length_take, Nat.min_eq_left (Nat.div_mul_le_self _ _)]
  exact Nat.dvd_mul_left _ _

theorem take_append_rest (data : List α) :
    data.take (data.length / n * n) ++ rest n data = data := List.take_append_drop _ _

/-- What waits is taken in with what comes behind it. -/
theorem absorb_rest (hn : 0 < n) (s : σ) (a b : List α) :
    absorb f n (absorb f n s a) (rest n a ++ b) = absorb f n s (a ++ b) ∧
      rest n (rest n a ++ b) = rest n (a ++ b) := by
  have hwhole := absorb_append f hn (b := rest n a) (dvd_length_take a) s
  have hshort : (rest n a).length < n := by
    rw [length_rest]
    exact Nat.mod_lt _ hn
  rw [take_append_rest, absorb_of_lt f n hshort] at hwhole
  have hmore := absorb_append f hn (b := rest n a ++ b) (dvd_length_take a) s
  rw [← List.append_assoc, take_append_rest, ← hwhole.1] at hmore
  exact ⟨hmore.1.symm, hmore.2.symm⟩

end Blocks
