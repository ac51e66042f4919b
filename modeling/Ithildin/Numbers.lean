import Ithildin.CString
import Mathlib.Algebra.Group.Int.Defs
import Mathlib.Algebra.Group.Nat.Defs
import Mathlib.Data.Int.DivMod
import Mathlib.Tactic.SplitIfs

/-!
# Numbers in text

* `strtol`: `strtol(str, NULL, 0)` on a 64-bit `long`;
* `strConvInt`: `str_conv_int`, whose result is an `int`;
* `printLong`: what `"%d"` makes of a `long` in `ith_vsnprintf`;
* `strConvInt_printLong`: a number of 31 bits is read as it was printed.
-/

namespace Ithildin

/-- The value of a digit, letters counting from ten. -/
def digitVal (c : UInt8) : Option ℕ :=
  if 48 ≤ c ∧ c ≤ 57 then some (c.toNat - 48)
  else if 97 ≤ c ∧ c ≤ 122 then some (c.toNat - 87)
  else if 65 ≤ c ∧ c ≤ 90 then some (c.toNat - 55)
  else none

/-- The value of a digit of the base. -/
def digitOf (base : ℕ) (c : UInt8) : Option ℕ := (digitVal c).filter (· < base)

/-- The number that the leading digits of a text form, after the value `acc`. -/
def digitsFrom (base : ℕ) : ℕ → Bytes → ℕ
  | acc, [] => acc
  | acc, c :: s =>
      match digitOf base c with
      | some d => digitsFrom base (acc * base + d) s
      | none => acc

/-- The magnitude of a number in base 16, 8 or 10, as its first bytes tell. -/
def magnitude : Bytes → ℕ
  | 48 :: x :: d :: s =>
      if (x = 120 ∨ x = 88) ∧ (digitOf 16 d).isSome then digitsFrom 16 0 (d :: s)
      else digitsFrom 8 0 (x :: d :: s)
  | 48 :: s => digitsFrom 8 0 s
  | s => digitsFrom 10 0 s

/-- `strtol(str, NULL, 0)`; `none` when the value is out of range. -/
def strtol (str : Bytes) : Option ℤ :=
  let v : ℤ := match str.dropWhile isSpace with
    | 45 :: s => - (magnitude s : ℤ)
    | 43 :: s => magnitude s
    | s => magnitude s
  if -9223372036854775808 ≤ v ∧ v ≤ 9223372036854775807 then some v else none

/-- A `long` stored into an `int`. -/
def toInt32 (v : ℤ) : ℤ := v.bmod 4294967296

/-- `str_conv_int`. -/
def strConvInt (str : Bytes) (default : ℤ) : ℤ := ((strtol str).map toInt32).getD default

/-! ### Numbers printed and read -/

/-- The loop of `ith_vsnprintf` that puts the digits of a number in front of `acc`. -/
def itoaLoop : ℕ → ℕ → Bytes → Bytes
  | 0, _, acc => acc
  | n + 1, i, acc =>
      let acc := (48 + i % 10).toUInt8 :: acc
      if i / 10 = 0 then acc else itoaLoop n (i / 10) acc

/-- The digits of a 64-bit number. -/
def itoa (i : ℕ) : Bytes := itoaLoop 20 i []

/-- `"%d"`: of a negative number nothing but the sign is left. -/
def printLong (v : ℤ) : Bytes := if v < 0 then 45 :: itoa 0 else itoa v.toNat

/-- Behind digits, what is none of the base ends a number. -/
theorem digitsFrom_append {base : ℕ} {rest : Bytes}
    (hrest : ∀ c ∈ rest.head?, digitOf base c = none)
    (acc : ℕ) (s : Bytes) : digitsFrom base acc (s ++ rest) = digitsFrom base acc s := by
  induction s generalizing acc with
  | nil =>
    cases rest with
    | nil => rfl
    | cons c rest => simp [digitsFrom, hrest c rfl]
  | cons c s ih =>
    rw [List.cons_append, digitsFrom, digitsFrom]
    split
    · exact ih _
    · rfl

/-- Letters are worth ten at least. -/
theorem digitOf_of_not_digit {base : ℕ} (hbase : base ≤ 10) {c : UInt8} (h : ¬ (48 ≤ c ∧ c ≤ 57)) :
    digitOf base c = none := by
  unfold digitOf digitVal
  rw [if_neg h]
  split_ifs with hlower hupper
  · have hle : 97 ≤ c.toNat := UInt8.le_iff_toNat_le.1 hlower.1
    simp
    omega
  · have hle : 65 ≤ c.toNat := UInt8.le_iff_toNat_le.1 hupper.1
    simp
    omega
  · rfl

theorem magnitude_of_ne {c : UInt8} (h : c ≠ 48) (s : Bytes) :
    magnitude (c :: s) = digitsFrom 10 0 (c :: s) := by
  unfold magnitude
  split
  · rename_i heq
    exact absurd (List.cons.inj heq).1 h
  · rename_i heq
    exact absurd (List.cons.inj heq).1 h
  · rfl

/-- A number without a sign. -/
theorem strtol_of_ne {c : UInt8} {l : Bytes} (hspace : isSpace c = false) (hminus : c ≠ 45)
    (hplus : c ≠ 43) :
    strtol (c :: l) =
      if -9223372036854775808 ≤ (magnitude (c :: l) : ℤ) ∧
          (magnitude (c :: l) : ℤ) ≤ 9223372036854775807 then some (magnitude (c :: l) : ℤ)
      else none := by
  have hdrop : (c :: l).dropWhile isSpace = c :: l := by simp [hspace]
  unfold strtol
  rw [hdrop]
  split
  · rename_i heq
    exact absurd (List.cons.inj heq).1 hminus
  · rename_i heq
    exact absurd (List.cons.inj heq).1 hplus
  · rfl

theorem digitOf_digit {d : ℕ} (h : d < 10) : digitOf 10 (48 + d).toUInt8 = some d := by
  have hall : ∀ d < 10, digitOf 10 (48 + d).toUInt8 = some d := by decide
  exact hall d h

/-- Reading the digits of a number is reading the number. -/
theorem digitsFrom_itoaLoop {n i : ℕ} (h : i < 10 ^ n) (acc : Bytes) :
    digitsFrom 10 0 (itoaLoop n i acc) = digitsFrom 10 i acc := by
  induction n generalizing i acc with
  | zero =>
    obtain rfl : i = 0 := by simpa using h
    rfl
  | succ n ih =>
    have hdigit : ∀ v, digitsFrom 10 v ((48 + i % 10).toUInt8 :: acc) =
        digitsFrom 10 (v * 10 + i % 10) acc := by
      intro v
      rw [digitsFrom, digitOf_digit (Nat.mod_lt _ (by decide))]
    unfold itoaLoop
    dsimp only
    split
    · rename_i hzero
      rw [hdigit]
      congr 1
      omega
    · rw [ih (by rw [Nat.pow_succ] at h; omega), hdigit]
      congr 1
      omega

/-- The first digit of a number other than zero is not a zero. -/
theorem exists_itoaLoop_eq_cons {n i : ℕ} (h : i < 10 ^ n) (hi : 0 < i) (acc : Bytes) :
    ∃ c r, itoaLoop n i acc = c :: r ∧ 49 ≤ c.toNat ∧ c.toNat ≤ 57 := by
  induction n generalizing i acc with
  | zero =>
    rw [Nat.pow_zero] at h
    omega
  | succ n ih =>
    unfold itoaLoop
    dsimp only
    split
    · refine ⟨_, acc, rfl, ?_⟩
      have hdigit : ∀ d < 10, 0 < d →
          49 ≤ (48 + d).toUInt8.toNat ∧ (48 + d).toUInt8.toNat ≤ 57 := by decide
      exact hdigit (i % 10) (Nat.mod_lt _ (by decide)) (by omega)
    · exact ih (by rw [Nat.pow_succ] at h; omega) (by omega) _

theorem magnitude_itoa {i : ℕ} (h : i < 10 ^ 20) : magnitude (itoa i) = i := by
  rcases Nat.eq_zero_or_pos i with rfl | hi
  · decide
  · obtain ⟨c, r, hcons, hlow, -⟩ := exists_itoaLoop_eq_cons h hi []
    have hdigits := digitsFrom_itoaLoop h []
    have hne : c ≠ 48 := by
      rintro rfl
      exact absurd hlow (by decide)
    rw [itoa, hcons] at *
    rw [magnitude_of_ne hne]
    exact hdigits

theorem exists_itoa_eq_cons {i : ℕ} (h : i < 10 ^ 20) :
    ∃ c r, itoa i = c :: r ∧ 48 ≤ c.toNat ∧ c.toNat ≤ 57 := by
  rcases Nat.eq_zero_or_pos i with rfl | hi
  · exact ⟨48, [], rfl, by decide, by decide⟩
  · obtain ⟨c, r, hcons, hlow, hhigh⟩ := exists_itoaLoop_eq_cons h hi []
    exact ⟨c, r, hcons, by omega, hhigh⟩

theorem digit_of_mem_itoaLoop {n i : ℕ} {acc : Bytes} {c : UInt8} (h : c ∈ itoaLoop n i acc) :
    c ∈ acc ∨ (48 ≤ c.toNat ∧ c.toNat ≤ 57) := by
  induction n generalizing i acc with
  | zero => exact .inl h
  | succ n ih =>
    have hdigit : ∀ d < 10, 48 ≤ (48 + d).toUInt8.toNat ∧ (48 + d).toUInt8.toNat ≤ 57 := by decide
    have hcons : c ∈ (48 + i % 10).toUInt8 :: acc → c ∈ acc ∨ (48 ≤ c.toNat ∧ c.toNat ≤ 57) := by
      intro hmem
      rcases List.mem_cons.mp hmem with rfl | hmem
      · exact .inr (hdigit _ (Nat.mod_lt _ (by decide)))
      · exact .inl hmem
    unfold itoaLoop at h
    dsimp only at h
    split at h
    · exact hcons h
    · exact (ih h).elim hcons .inr

theorem length_itoaLoop_le (n i : ℕ) (acc : Bytes) :
    (itoaLoop n i acc).length ≤ n + acc.length := by
  induction n generalizing i acc with
  | zero => rw [itoaLoop, Nat.zero_add]
  | succ n ih =>
    unfold itoaLoop
    dsimp only
    split
    · rw [List.length_cons]
      omega
    · refine (ih _ _).trans ?_
      rw [List.length_cons]
      omega

theorem length_printLong_le (v : ℤ) : (printLong v).length ≤ 20 := by
  rw [printLong]
  split
  · decide
  · exact length_itoaLoop_le 20 v.toNat []

theorem isSpace_of_digit {c : UInt8} (hlow : 48 ≤ c.toNat) : isSpace c = false := by
  simp only [isSpace, Bool.or_eq_false_iff, Bool.and_eq_false_iff, decide_eq_false_iff_not,
    beq_eq_false_iff_ne, UInt8.le_iff_toNat_le]
  refine ⟨.inr ?_, ?_⟩
  · show ¬ c.toNat ≤ 13
    omega
  · rintro rfl
    exact absurd hlow (by decide)

theorem not_sign_of_digit {c : UInt8} (hlow : 48 ≤ c.toNat) : c ≠ 45 ∧ c ≠ 43 := by
  constructor
  · rintro rfl
    exact absurd hlow (by decide)
  · rintro rfl
    exact absurd hlow (by decide)

/-- `strtol` reads the digits of a number that fits. -/
theorem strtol_itoa {i : ℕ} (h : i ≤ 9223372036854775807) : strtol (itoa i) = some (i : ℤ) := by
  have hlt : i < 10 ^ 20 := by omega
  obtain ⟨c, r, hcons, hlow, hhigh⟩ := exists_itoa_eq_cons hlt
  have hmag := magnitude_itoa hlt
  have hspace := isSpace_of_digit hlow
  have hsign := not_sign_of_digit hlow
  rw [hcons] at hmag ⊢
  rw [strtol_of_ne hspace hsign.1 hsign.2, hmag, if_pos (by omega)]

/-- A number of 31 bits is read as it was printed. -/
theorem strConvInt_printLong {v : ℤ} (h0 : 0 ≤ v) (h : v < 2147483648) (default : ℤ) :
    strConvInt (printLong v) default = v := by
  have hv : (v.toNat : ℤ) = v := Int.toNat_of_nonneg h0
  rw [printLong, if_neg (by omega), strConvInt, strtol_itoa (by omega), Option.map_some,
    Option.getD_some, toInt32, hv]
  exact Int.bmod_eq_of_le (by omega) (by omega)

end Ithildin
