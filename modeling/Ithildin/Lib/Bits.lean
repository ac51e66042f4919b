import Mathlib.Data.List.Flatten
import Mathlib.Data.Nat.Bitwise
import Mathlib.Tactic.Ring
import Mathlib.Tactic.Common

/-!
# Numbers as strings of bits

* `Bits.ofNat n v`: the low `n` bits of `v`, the highest one first;
* `Bits.value`: the number that a string of bits denotes;
* `Bits.ofBytes`: the bits of a string of bytes.
-/

namespace Bits

/-- The low `n` bits of a number, from the left. -/
def ofNat : ℕ → ℕ → List Bool
  | 0, _ => []
  | n + 1, v => v.testBit n :: ofNat n v

/-- The number that bits denote, read from the left. -/
def value : List Bool → ℕ
  | [] => 0
  | b :: l => b.toNat * 2 ^ l.length + value l

/-- The bits of bytes. -/
def ofBytes (l : List UInt8) : List Bool := l.flatMap fun x => ofNat 8 x.toNat

variable {n m v w : ℕ} {l r : List Bool}

@[simp] theorem length_ofNat (n v : ℕ) : (ofNat n v).length = n := by
  induction n with
  | zero => rfl
  | succ n ih => rw [ofNat, List.length_cons, ih]

@[simp] theorem value_nil : value [] = 0 := rfl

theorem value_ofNat (n v : ℕ) : value (ofNat n v) = v % 2 ^ n := by
  induction n with
  | zero => simp [ofNat, Nat.mod_one]
  | succ n ih =>
    rw [ofNat, value, length_ofNat, ih, Nat.toNat_testBit, Nat.mul_comm, Nat.mod_pow_succ]
    omega

theorem ofNat_eq_iff : ofNat n v = ofNat n w ↔ ∀ i < n, v.testBit i = w.testBit i := by
  induction n with
  | zero => simp [ofNat]
  | succ n ih =>
    rw [ofNat, ofNat, List.cons.injEq, ih]
    constructor
    · rintro ⟨hn, hrest⟩ i hi
      rcases Nat.lt_succ_iff_lt_or_eq.1 hi with hlt | rfl
      · exact hrest i hlt
      · exact hn
    · intro h
      exact ⟨h n (Nat.lt_succ_self n), fun i hi => h i (Nat.lt_succ_of_lt hi)⟩

theorem length_flatMap_ofNat (n : ℕ) (units : List ℕ) :
    (units.flatMap (ofNat n)).length = n * units.length := by
  induction units with
  | nil => rfl
  | cons v units ih =>
    rw [List.flatMap_cons, List.length_append, length_ofNat, ih, List.length_cons]
    ring

/-- The leftmost bits. -/
theorem take_ofNat (h : m ≤ n) : (ofNat n v).take m = ofNat m (v >>> (n - m)) := by
  induction n generalizing m with
  | zero =>
    obtain rfl : m = 0 := by omega
    rfl
  | succ n ih =>
    cases m with
    | zero => rfl
    | succ m =>
      rw [ofNat, List.take_succ_cons, ofNat, ih (by omega), Nat.testBit_shiftRight,
        Nat.add_sub_add_right]
      congr 2
      omega

/-- Only the bits that are asked for count. -/
theorem ofNat_mod (h : n ≤ m) : ofNat n (v % 2 ^ m) = ofNat n v := by
  rw [ofNat_eq_iff]
  intro i hi
  rw [Nat.testBit_mod_two_pow]
  simp [show i < m by omega]

theorem ofNat_add (n m v : ℕ) : ofNat (n + m) v = ofNat n (v >>> m) ++ ofNat m v := by
  induction n with
  | zero => rw [Nat.zero_add, ofNat, List.nil_append]
  | succ n ih =>
    rw [show n + 1 + m = n + m + 1 by omega, ofNat, ofNat, ih, Nat.testBit_shiftRight,
      Nat.add_comm m n, List.cons_append]

/-- Bits with others behind them. -/
theorem ofNat_append (h : w < 2 ^ m) : ofNat (n + m) (v * 2 ^ m + w) = ofNat n v ++ ofNat m w := by
  have hhigh : (v * 2 ^ m + w) >>> m = v := by
    rw [Nat.shiftRight_eq_div_pow, Nat.mul_comm, Nat.mul_add_div (Nat.two_pow_pos m),
      Nat.div_eq_of_lt h, Nat.add_zero]
  have hlow : ofNat m (v * 2 ^ m + w) = ofNat m w := by
    rw [← ofNat_mod le_rfl, Nat.mul_comm, Nat.mul_add_mod, ofNat_mod le_rfl]
  rw [ofNat_add, hhigh, hlow]

theorem ofNat_zero (n : ℕ) : ofNat n 0 = List.replicate n false := by
  induction n with
  | zero => rfl
  | succ n ih => rw [ofNat, ih, Nat.zero_testBit, List.replicate_succ]

@[simp] theorem ofBytes_nil : ofBytes [] = [] := rfl

@[simp] theorem ofBytes_cons (x : UInt8) (l : List UInt8) :
    ofBytes (x :: l) = ofNat 8 x.toNat ++ ofBytes l := rfl

@[simp] theorem length_ofBytes (l : List UInt8) : (ofBytes l).length = 8 * l.length := by
  induction l with
  | nil => rfl
  | cons x l ih =>
    rw [ofBytes_cons, List.length_append, length_ofNat, ih, List.length_cons]
    omega

theorem ofBytes_append (l r : List UInt8) : ofBytes (l ++ r) = ofBytes l ++ ofBytes r := by
  simp [ofBytes]

theorem ofBytes_injective {l r : List UInt8} (h : ofBytes l = ofBytes r) : l = r := by
  induction l generalizing r with
  | nil =>
    have hlength := congrArg List.length h
    rw [length_ofBytes, length_ofBytes] at hlength
    rw [List.length_nil] at hlength
    exact (List.length_eq_zero_iff.1 (by omega)).symm
  | cons x l ih =>
    cases r with
    | nil => simp [ofNat] at h
    | cons y r =>
      rw [ofBytes_cons, ofBytes_cons] at h
      obtain ⟨hx, hrest⟩ := List.append_inj h (by simp)
      have hvalue := congrArg value hx
      rw [value_ofNat, value_ofNat, Nat.mod_eq_of_lt x.toNat_lt, Nat.mod_eq_of_lt y.toNat_lt,
        UInt8.toNat_inj] at hvalue
      rw [hvalue, ih hrest]

end Bits
