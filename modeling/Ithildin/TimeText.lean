import Ithildin.Hostmatch
import Ithildin.Numbers
import Mathlib.Algebra.Order.Ring.Int
import Mathlib.Tactic.Common
import Mathlib.Tactic.Linarith

/-!
# Times in text

* `strConvTime`, `timeConvStr`: `str_conv_time` and `time_conv_str`;
* `TimeForm`: a text of the form that the comment in front of them gives, with its value;
* `strConvTime_iff`: which of these are read as what they mean.
-/

namespace Ithildin

/-- A product of two `int`s; nothing if it is none. -/
def intMul (x y : ℤ) : Option ℤ :=
  if -2147483648 ≤ x * y ∧ x * y < 2147483648 then some (x * y) else none

/-- `s` and `ret` of `str_conv_time`. -/
structure TimeState where
  s : Bytes
  ret : ℤ
  deriving DecidableEq

/-- One of the blocks of `str_conv_time`: the string is cut at the letter, if it is there. -/
def convUnit (st : TimeState) (unit : UInt8 × ℕ) : Option TimeState :=
  if unit.1 ∈ st.s then do
    let part ← intMul (strConvInt (st.s.takeWhile (· != unit.1)) 0) unit.2
    pure ⟨(st.s.dropWhile (· != unit.1)).tail, st.ret + part⟩
  else some st

/-- The letters `'d'`, `'h'` and `'m'`. -/
def timeUnits : List (UInt8 × ℕ) := [(100, 86400), (104, 3600), (109, 60)]

/-- The letter of the seconds. -/
def secondsLetter : UInt8 := 115

/-- `str_conv_time`. -/
def strConvTime (str : Option Bytes) (default : ℤ) : Option ℤ :=
  match str with
  | none => some default
  | some s => (timeUnits.foldlM convUnit ⟨s, 0⟩).map fun st => st.ret + strConvInt st.s 0

/-- `"%d"` and a letter, for a number that is not 0. -/
def printUnit (n : ℤ) (letter : UInt8) : Bytes :=
  if n = 0 then []
  else if n < 0 then minusSign :: itoa n.natAbs ++ [letter] else itoa n.natAbs ++ [letter]

/-- `time_conv_str`. -/
def timeConvStr (itime : ℤ) : Bytes :=
  let d := toInt32 (itime.tdiv 86400)
  let itime := itime.tmod 86400
  let h := itime.tdiv 3600
  let itime := itime.tmod 3600
  let m := itime.tdiv 60
  let s := itime.tmod 60
  let rbuf := printUnit d 100 ++ printUnit h 104 ++ printUnit m 109 ++ printUnit s secondsLetter
  if rbuf = [] then [48, secondsLetter] else rbuf

/-! ### Texts of the form -/

/-- A decimal number. -/
structure Decimal where
  digits : Bytes
  ne_nil : digits ≠ []
  all : ∀ c ∈ digits, isDigit c
  deriving DecidableEq

def Decimal.value (n : Decimal) : ℕ := digitsFrom 10 0 n.digits

/-- A number with its unit letter, in upper case or not. -/
structure TimePart where
  number : Decimal
  upper : Bool
  deriving DecidableEq

/-- A letter in the case that is wanted. -/
def inCase (upper : Bool) (letter : UInt8) : UInt8 := if upper then letter - 32 else letter

def TimePart.text (letter : UInt8) (part : TimePart) : Bytes :=
  part.number.digits ++ [inCase part.upper letter]

/-- `[Xd][Xh][Xm][X][s]`. -/
structure TimeForm where
  days : Option TimePart
  hours : Option TimePart
  minutes : Option TimePart
  seconds : Option Decimal
  mark : Option Bool
  deriving DecidableEq

/-- What an optional part is worth. -/
def valueOf (part : Option TimePart) : ℕ := part.elim 0 fun part => part.number.value

def secondsOf (seconds : Option Decimal) : ℕ := seconds.elim 0 Decimal.value

def textOf (letter : UInt8) (part : Option TimePart) : Bytes :=
  part.elim [] (TimePart.text letter)

/-- The end of a text. -/
def secondsText (seconds : Option Decimal) (mark : Option Bool) : Bytes :=
  seconds.elim [] Decimal.digits ++ mark.elim [] fun upper => [inCase upper secondsLetter]

def TimeForm.text (form : TimeForm) : Bytes :=
  textOf 100 form.days ++ (textOf 104 form.hours ++ (textOf 109 form.minutes ++
    secondsText form.seconds form.mark))

/-- The sum of the parts. -/
def TimeForm.sum (form : TimeForm) : ℕ :=
  valueOf form.days * 86400 + valueOf form.hours * 3600 + valueOf form.minutes * 60 +
    secondsOf form.seconds

/-- A number that comes through: it is no octal one, and so many seconds are an `int`. -/
def Plain (n : Decimal) (factor : ℕ) : Prop :=
  (n.digits.head? = some 48 → n.value < 8) ∧ n.value * factor < 2147483648

/-- A part is read as it should be; `joined` tells that the letter in front of it is in upper case,
so that this part or the one before it is lost. -/
def PartFits (joined : Bool) (n : Decimal) (factor : ℕ) : Prop :=
  if joined then n.value = 0 else Plain n factor

instance (n : Decimal) (factor : ℕ) : Decidable (Plain n factor) :=
  inferInstanceAs (Decidable ((_ → _) ∧ _))

instance (joined : Bool) (n : Decimal) (factor : ℕ) : Decidable (PartFits joined n factor) :=
  inferInstanceAs (Decidable (if joined = true then n.value = 0 else Plain n factor))

/-- All parts are read as they should be. -/
def PartsFit (seconds : Option Decimal) : Bool → List (ℕ × Option TimePart) → Prop
  | joined, [] => ∀ n ∈ seconds, PartFits joined n 1
  | joined, (_, none) :: parts => PartsFit seconds joined parts
  | joined, (factor, some part) :: parts =>
      PartFits (joined || part.upper) part.number factor ∧ PartsFit seconds part.upper parts

def TimeForm.Fits (form : TimeForm) : Prop :=
  PartsFit form.seconds false [(86400, form.days), (3600, form.hours), (60, form.minutes)]

theorem Decimal.value_eq_zero {n : Decimal} {factor : ℕ} (hfactor : 0 < factor)
    (h : (n.value * factor : ℤ) = 0) : n.value = 0 := by
  have hvalue : n.value * factor = 0 := by exact_mod_cast h
  rcases Nat.mul_eq_zero.1 hvalue with hvalue | hvalue
  · exact hvalue
  · omega

/-! ### Reading a number -/

theorem digitVal_of_isDigit {c : UInt8} (h : isDigit c) :
    ∃ d < 10, digitVal c = some d ∧ c.toNat = 48 + d := by
  have hc : 48 ≤ c ∧ c ≤ 57 := by simpa [isDigit] using h
  have hlow : 48 ≤ c.toNat := UInt8.le_iff_toNat_le.1 hc.1
  have hhigh : c.toNat ≤ 57 := UInt8.le_iff_toNat_le.1 hc.2
  exact ⟨c.toNat - 48, by omega, by rw [digitVal, if_pos hc], by omega⟩

theorem le_digitsFrom_ten (s : Bytes) (v : ℕ) : v ≤ digitsFrom 10 v s := by
  induction s generalizing v with
  | nil => exact le_rfl
  | cons c s ih =>
    rw [digitsFrom]
    split
    · rename_i d _
      exact (by omega : v ≤ v * 10 + d).trans (ih _)
    · exact le_rfl

/-- Octal digits are worth less. -/
theorem digitsFrom_eight_lt {s : Bytes} (hs : ∀ c ∈ s, isDigit c) {v w : ℕ} (h : v < w) :
    digitsFrom 8 v s < digitsFrom 10 w s := by
  induction s generalizing v w with
  | nil => exact h
  | cons c s ih =>
    obtain ⟨d, hd, hval, -⟩ := digitVal_of_isDigit (hs c List.mem_cons_self)
    have hs' := fun c hc => hs c (List.mem_cons_of_mem _ hc)
    have hten : digitOf 10 c = some d := by simp [digitOf, hval, hd]
    rw [digitsFrom, digitsFrom, hten]
    dsimp only
    by_cases hoct : d < 8
    · have height : digitOf 8 c = some d := by simp [digitOf, hval, hoct]
      rw [height]
      exact ih hs' (by omega)
    · have height : digitOf 8 c = none := by simpa [digitOf, hval] using hoct
      rw [height]
      exact (by omega : v < w * 10 + d).trans_le (le_digitsFrom_ten s _)

/-- Behind a digit other than 0, one more digit makes a difference. -/
theorem digitsFrom_eight_pos {c : UInt8} {s : Bytes} (hs : ∀ b ∈ c :: s, isDigit b) {v : ℕ}
    (hv : 0 < v) :
    digitsFrom 8 v (c :: s) < digitsFrom 10 v (c :: s) ∧ 8 ≤ digitsFrom 10 v (c :: s) := by
  obtain ⟨d, hd, hval, -⟩ := digitVal_of_isDigit (hs c List.mem_cons_self)
  have hs' := fun c hc => hs c (List.mem_cons_of_mem _ hc)
  have hten : digitOf 10 c = some d := by simp [digitOf, hval, hd]
  have hle := le_digitsFrom_ten s (v * 10 + d)
  rw [digitsFrom, digitsFrom, hten]
  dsimp only
  by_cases hoct : d < 8
  · have height : digitOf 8 c = some d := by simp [digitOf, hval, hoct]
    rw [height]
    exact ⟨digitsFrom_eight_lt hs' (by omega), by omega⟩
  · have height : digitOf 8 c = none := by simpa [digitOf, hval] using hoct
    rw [height]
    dsimp only
    constructor <;> omega

/-- Read as octal, only the numbers below 8 are what they are. -/
theorem digitsFrom_eight {s : Bytes} (hs : ∀ c ∈ s, isDigit c) :
    digitsFrom 8 0 s ≤ digitsFrom 10 0 s ∧
      (digitsFrom 8 0 s = digitsFrom 10 0 s ↔ digitsFrom 10 0 s < 8) := by
  induction s with
  | nil => simp [digitsFrom]
  | cons c s ih =>
    obtain ⟨d, hd, hval, -⟩ := digitVal_of_isDigit (hs c List.mem_cons_self)
    have hs' := fun c hc => hs c (List.mem_cons_of_mem _ hc)
    have hten : digitOf 10 c = some d := by simp [digitOf, hval, hd]
    rw [digitsFrom, digitsFrom, hten]
    simp only [Nat.zero_mul, Nat.zero_add]
    have hle := le_digitsFrom_ten s d
    by_cases hoct : d < 8
    · have height : digitOf 8 c = some d := by simp [digitOf, hval, hoct]
      rw [height]
      dsimp only
      rcases Nat.eq_zero_or_pos d with rfl | hpos
      · exact ih hs'
      · cases s with
        | nil => simp [digitsFrom, hoct]
        | cons c' s =>
          obtain ⟨hlt, hbig⟩ := digitsFrom_eight_pos hs' hpos
          exact ⟨hlt.le, iff_of_false hlt.ne (by omega)⟩
    · have height : digitOf 8 c = none := by simpa [digitOf, hval] using hoct
      rw [height]
      dsimp only
      omega

/-- What may follow a number without being read: no digit, and no `x` of a hexadecimal one. -/
def EndsNumber (tail : Bytes) : Prop := ∀ c ∈ tail.head?, ¬ isDigit c ∧ c ≠ 120 ∧ c ≠ 88

theorem EndsNumber.digitOf {tail : Bytes} (h : EndsNumber tail) {base : ℕ} (hbase : base ≤ 10) :
    ∀ c ∈ tail.head?, digitOf base c = none := by
  intro c hc
  exact digitOf_of_not_digit hbase (by simpa [isDigit] using (h c hc).1)

theorem magnitude_octal {s : Bytes} (h : ∀ c ∈ s.head?, c ≠ 120 ∧ c ≠ 88) :
    magnitude (48 :: s) = digitsFrom 8 0 s := by
  cases s with
  | nil => rfl
  | cons x s =>
    obtain ⟨hx, hX⟩ := h x rfl
    cases s with
    | nil => rfl
    | cons d s => simp [magnitude, hx, hX]

/-- The number that `strtol` finds: not more than what is written, and the same if it is no octal
number. -/
theorem magnitude_decimal (n : Decimal) {tail : Bytes} (h : EndsNumber tail) :
    magnitude (n.digits ++ tail) ≤ n.value ∧
      (magnitude (n.digits ++ tail) = n.value ↔ (n.digits.head? = some 48 → n.value < 8)) := by
  obtain ⟨digits, hne, hall⟩ := n
  unfold Decimal.value
  dsimp only
  cases digits with
  | nil => exact absurd rfl hne
  | cons c s =>
    rw [List.cons_append]
    by_cases hc : c = 48
    · have hsecond : ∀ b ∈ (s ++ tail).head?, b ≠ 120 ∧ b ≠ 88 := by
        intro b hb
        cases s with
        | nil => exact (h b hb).2
        | cons b' s =>
          obtain rfl : b' = b := by simpa using hb
          have hdigit := hall b' (by simp)
          constructor
          · rintro rfl
            exact absurd hdigit (by decide)
          · rintro rfl
            exact absurd hdigit (by decide)
      have hoct : digitsFrom 8 0 (48 :: s) = digitsFrom 8 0 s := rfl
      have height := digitsFrom_eight hall
      rw [hc] at height ⊢
      rw [magnitude_octal hsecond, digitsFrom_append (h.digitOf (by decide)), ← hoct]
      simpa using height
    · rw [magnitude_of_ne hc, ← List.cons_append, digitsFrom_append (h.digitOf le_rfl)]
      simp [hc]

/-- The value of a conversion. -/
theorem strConvInt_decimal (n : Decimal) {tail : Bytes} (h : EndsNumber tail) :
    strConvInt (n.digits ++ tail) 0 ≤ n.value ∧
      (strConvInt (n.digits ++ tail) 0 = n.value ↔
        (n.digits.head? = some 48 → n.value < 8) ∧ n.value < 2147483648) := by
  obtain ⟨hle, heq⟩ := magnitude_decimal n h
  have hread : strtol (n.digits ++ tail) =
      if (magnitude (n.digits ++ tail) : ℤ) ≤ 9223372036854775807 then
        some (magnitude (n.digits ++ tail) : ℤ) else none := by
    have hne := n.ne_nil
    have hall := n.all
    cases hdigits : n.digits with
    | nil => exact absurd hdigits hne
    | cons c s =>
      rw [hdigits] at hall
      obtain ⟨d, -, -, hc⟩ := digitVal_of_isDigit (hall c List.mem_cons_self)
      have hspace := isSpace_of_digit (show 48 ≤ c.toNat by omega)
      obtain ⟨hminus, hplus⟩ := not_sign_of_digit (show 48 ≤ c.toNat by omega)
      rw [List.cons_append, strtol_of_ne hspace hminus hplus]
      exact if_congr (by omega) rfl rfl
  rw [← heq]
  generalize magnitude (n.digits ++ tail) = g at hle heq hread ⊢
  rw [strConvInt, hread]
  by_cases hfits : (g : ℤ) ≤ 9223372036854775807
  · rw [if_pos hfits, Option.map_some, Option.getD_some, toInt32, Int.bmod_def]
    split <;> omega
  · rw [if_neg hfits, Option.map_none, Option.getD_none]
    omega

/-- The worth of a number that is cut off at its letter: it is never too much. -/
theorem intMul_decimal (n : Decimal) {tail : Bytes} (h : EndsNumber tail) {factor : ℕ}
    (hfactor : 0 < factor) :
    (∀ part, intMul (strConvInt (n.digits ++ tail) 0) factor = some part →
      part ≤ (n.value * factor : ℕ)) ∧
    (intMul (strConvInt (n.digits ++ tail) 0) factor = some ((n.value * factor : ℕ) : ℤ) ↔
      Plain n factor) := by
  obtain ⟨hle, heq⟩ := strConvInt_decimal n h
  generalize strConvInt (n.digits ++ tail) 0 = k at hle heq ⊢
  have hprod : k * factor ≤ (n.value * factor : ℕ) := by
    push_cast
    exact mul_le_mul_of_nonneg_right hle (by omega)
  have hsame : k * factor = (n.value * factor : ℕ) ↔ k = n.value := by
    push_cast
    exact mul_left_inj' (by omega)
  have hvalue : n.value ≤ n.value * factor := Nat.le_mul_of_pos_right _ hfactor
  unfold intMul Plain
  constructor
  · intro part hpart
    split at hpart
    · rw [← Option.some.inj hpart]
      exact hprod
    · cases hpart
  · split
    · rename_i hrange
      rw [Option.some.injEq, hsame, heq]
      constructor
      · rintro ⟨hplain, hsmall⟩
        have hk := hsame.2 (heq.2 ⟨hplain, hsmall⟩)
        exact ⟨hplain, by omega⟩
      · rintro ⟨hplain, hsmall⟩
        exact ⟨hplain, by omega⟩
    · rename_i hrange
      refine iff_of_false (by simp) ?_
      rintro ⟨hplain, hsmall⟩
      have hk := hsame.2 (heq.2 ⟨hplain, by omega⟩)
      omega

/-! ### The units one after another -/

/-- The units with their parts. -/
abbrev TimeParts := List ((UInt8 × ℕ) × Option TimePart)

def partsText (parts : TimeParts) : Bytes := parts.flatMap fun p => textOf p.1.1 p.2

def partsSum (parts : TimeParts) : ℕ := (parts.map fun p => valueOf p.2 * p.1.2).sum

section
variable {unit : UInt8 × ℕ} {part : TimePart} {parts : TimeParts}

theorem partsText_none : partsText ((unit, none) :: parts) = partsText parts := rfl

theorem partsText_some : partsText ((unit, some part) :: parts) =
    part.number.digits ++ inCase part.upper unit.1 :: partsText parts := by
  simp [partsText, textOf, TimePart.text]

theorem partsSum_none : partsSum ((unit, none) :: parts) = partsSum parts := by
  simp [partsSum, valueOf]

theorem partsSum_some : partsSum ((unit, some part) :: parts) =
    part.number.value * unit.2 + partsSum parts := by
  simp [partsSum, valueOf]

end

theorem isLetter_timeUnits : ∀ u ∈ timeUnits, 97 ≤ u.1.toNat ∧ (inCase true u.1).toNat < 97 ∧
    EndsNumber [inCase true u.1] ∧ EndsNumber [u.1] ∧ u.1 ≠ secondsLetter ∧ 1 < u.2 := by
  unfold EndsNumber
  decide +kernel

theorem pairwise_timeUnits : timeUnits.Pairwise fun u v => u.1 ≠ v.1 ∧ v.2 < u.2 := by decide

theorem digits_lt (n : Decimal) : ∀ c ∈ n.digits, c.toNat < 97 := by
  intro c hc
  obtain ⟨d, hd, -, heq⟩ := digitVal_of_isDigit (n.all c hc)
  omega

/-- A small letter in the rest of a text is that of a unit to come, or that of the seconds. -/
theorem not_mem_rest {parts : TimeParts} {c : UInt8} (hparts : ∀ p ∈ parts, p.1 ∈ timeUnits)
    (hlower : 97 ≤ c.toNat) (hc : ∀ p ∈ parts, c ≠ p.1.1) (hs : c ≠ secondsLetter)
    (seconds : Option Decimal) (mark : Option Bool) :
    c ∉ partsText parts ++ secondsText seconds mark := by
  have hcase : ∀ upper letter, c.toNat ≥ 97 → c = inCase upper letter →
      (inCase true letter).toNat < 97 → c = letter := by
    intro upper letter hlow heq hcap
    cases upper with
    | false => exact heq
    | true =>
      rw [← heq] at hcap
      omega
  have hdigits : ∀ n : Decimal, c ∉ n.digits := fun n hmem => by
    have hlt := digits_lt n c hmem
    omega
  rw [List.mem_append, partsText, List.mem_flatMap, secondsText, List.mem_append]
  rintro (⟨p, hp, hmem⟩ | hmem | hmem)
  · obtain ⟨-, hcap, -⟩ := isLetter_timeUnits p.1 (hparts p hp)
    cases hpart : p.2 with
    | none => simp [hpart, textOf] at hmem
    | some part =>
      have hsplit : c ∈ part.number.digits ∨ c = inCase part.upper p.1.1 := by
        simpa [hpart, textOf, TimePart.text] using hmem
      rcases hsplit with hmem | heq
      · exact hdigits _ hmem
      · exact hc p hp (hcase _ _ hlower heq hcap)
  · cases seconds with
    | none => simp at hmem
    | some n => exact hdigits n hmem
  · cases mark with
    | none => simp at hmem
    | some upper =>
      have heq : c = inCase upper secondsLetter := by simpa using hmem
      exact hs (hcase _ _ hlower heq (by decide))

/-- What stands in front of the part that comes next. Either everything so far was cut off; or there
is a number, which is read in place of all that follows it up to the next cut. It is worth less than
that, as the units decrease. -/
inductive Group (bound : ℕ) (want : ℕ) (ok : Prop) : Bool → Bytes → ℤ → Prop
  | fresh {ret : ℤ} (hle : ret ≤ want) (heq : ret = want ↔ ok) : Group bound want ok false [] ret
  | joined {ret : ℤ} (n : Decimal) (tail : Bytes) (hne : tail ≠ []) (hends : EndsNumber tail)
      (hcaps : ∀ c ∈ tail, c.toNat < 97)
      (hlost : ∀ u < bound, ret + n.value * u ≤ want ∧ (ret + n.value * u = want ↔ ok))
      (hzero : ok → n.value = 0) : Group bound want ok true (n.digits ++ tail) ret

theorem Group.caps {bound want : ℕ} {ok : Prop} {joined : Bool} {s : Bytes} {ret : ℤ}
    (h : Group bound want ok joined s ret) : ∀ c ∈ s, c.toNat < 97 := by
  cases h with
  | fresh => simp
  | joined n tail _ _ hcaps =>
    intro c hc
    rcases List.mem_append.1 hc with hc | hc
    · exact digits_lt n c hc
    · exact hcaps c hc

theorem EndsNumber.append {s : Bytes} (h : EndsNumber s) (hne : s ≠ []) (r : Bytes) :
    EndsNumber (s ++ r) := by
  cases s with
  | nil => exact absurd rfl hne
  | cons c s => exact h

/-- The end of the text. -/
theorem Group.finish {bound want : ℕ} {ok : Prop} {joined : Bool} {s : Bytes} {ret : ℤ}
    (h : Group bound want ok joined s ret) (hbound : 1 < bound) (seconds : Option Decimal)
    (mark : Option Bool) :
    ret + strConvInt (s ++ secondsText seconds mark) 0 = ((want + secondsOf seconds : ℕ) : ℤ) ↔
      ok ∧ PartsFit seconds joined [] := by
  have hmark : EndsNumber (mark.elim [] fun upper => [inCase upper secondsLetter]) := by
    unfold EndsNumber
    rcases mark with _ | _ | _ <;> decide +kernel
  cases h with
  | fresh hle heq =>
    cases seconds with
    | none =>
      have hzero : strConvInt ([] ++ secondsText none mark) 0 = 0 := by
        rcases mark with _ | _ | _ <;> decide
      rw [hzero]
      simp [secondsOf, PartsFit, heq]
    | some n =>
      obtain ⟨hk, hkeq⟩ := strConvInt_decimal n hmark
      have hplain : PartsFit (some n) false [] ↔
          (n.digits.head? = some 48 → n.value < 8) ∧ n.value < 2147483648 := by
        simp [PartsFit, PartFits, Plain]
      rw [List.nil_append, hplain, ← hkeq, ← heq]
      simp only [secondsOf, Option.elim_some, secondsText]
      push_cast
      omega
  | joined n tail hne hends _ hlost hzero =>
    obtain ⟨hk, hkeq⟩ := strConvInt_decimal n (hends.append hne (secondsText seconds mark))
    obtain ⟨hle, heq⟩ := hlost 1 hbound
    have hfit : PartsFit seconds true [] ↔ secondsOf seconds = 0 := by
      cases seconds <;> simp [PartsFit, PartFits, secondsOf]
    rw [List.append_assoc, hfit]
    push_cast at hle heq ⊢
    rw [mul_one] at hle heq
    constructor
    · intro h
      have hall : ret + n.value = want := by omega
      exact ⟨heq.1 hall, by omega⟩
    · rintro ⟨hok, hsecs⟩
      have hvalue := hzero hok
      have hread := hkeq.2 ⟨fun _ => by omega, by omega⟩
      have hret := heq.2 hok
      omega

/-- A part with a small letter is cut off. -/
theorem Group.cut {bound want : ℕ} {ok : Prop} {joined : Bool} {s : Bytes} {ret : ℤ}
    (h : Group bound want ok joined s ret) {factor : ℕ} (hfactor : 0 < factor)
    (hbound : factor < bound) (n : Decimal) :
    (intMul (strConvInt (s ++ n.digits) 0) factor = none → ¬ (ok ∧ PartFits joined n factor)) ∧
    ∀ part, intMul (strConvInt (s ++ n.digits) 0) factor = some part →
      Group factor (want + n.value * factor) (ok ∧ PartFits joined n factor) false []
        (ret + part) := by
  have hnone : EndsNumber [] := by simp [EndsNumber]
  cases h with
  | fresh hle heq =>
    obtain ⟨hpart, hplain⟩ := intMul_decimal n hnone hfactor
    rw [List.append_nil] at hpart hplain
    have hfits : PartFits false n factor ↔ Plain n factor := by simp [PartFits]
    rw [List.nil_append, hfits, ← hplain]
    constructor
    · intro h
      simp [h]
    · intro part h
      have hle' := hpart part h
      rw [h, Option.some.injEq]
      push_cast at hle' ⊢
      refine .fresh (by push_cast; omega) ?_
      rw [← heq]
      push_cast
      omega
  | joined m tail hne hends _ hlost hzero =>
    obtain ⟨hpart, hplain⟩ := intMul_decimal m (hends.append hne n.digits) hfactor
    obtain ⟨hle, heq⟩ := hlost factor hbound
    have hfits : PartFits true n factor ↔ n.value = 0 := by simp [PartFits]
    rw [List.append_assoc, hfits]
    -- a number other than 0 is not worth what stands there
    have hread : ok → intMul (strConvInt (m.digits ++ (tail ++ n.digits)) 0) factor = some 0 := by
      intro hok
      have hvalue := hzero hok
      have h := hplain.2 ⟨fun _ => by omega, by rw [hvalue]; omega⟩
      rwa [hvalue, Nat.zero_mul] at h
    constructor
    · rintro h ⟨hok, -⟩
      rw [hread hok] at h
      cases h
    · intro part h
      have hle' := hpart part h
      push_cast at hle'
      have hsum : (0 : ℤ) ≤ n.value * factor := by positivity
      refine .fresh (by push_cast; omega) ?_
      push_cast
      constructor
      · intro hsame
        have hall : ret + m.value * factor = want := by omega
        have hnil : (n.value * factor : ℤ) = 0 := by omega
        exact ⟨heq.1 hall, n.value_eq_zero hfactor hnil⟩
      · rintro ⟨hok, hvalue⟩
        have hpart0 := Option.some.inj ((hread hok).symm.trans h)
        have hret := heq.2 hok
        rw [hzero hok] at hret
        rw [hvalue, ← hpart0]
        push_cast at hret ⊢
        omega

/-- A part with a capital letter stays where it is. -/
theorem Group.pass {bound want : ℕ} {ok : Prop} {joined : Bool} {s : Bytes} {ret : ℤ}
    (h : Group bound want ok joined s ret) {factor : ℕ} (hbound : factor < bound) (n : Decimal)
    {letter : UInt8} (hends : EndsNumber [letter]) (hcap : letter.toNat < 97) :
    Group factor (want + n.value * factor) (ok ∧ n.value = 0) true (s ++ (n.digits ++ [letter]))
      ret := by
  have hsum : (0 : ℤ) ≤ n.value * factor := by positivity
  cases h with
  | fresh hle heq =>
    refine .joined n [letter] (by simp) hends (by simpa using hcap) ?_ fun h => h.2
    intro u hu
    have hless : n.value * u ≤ n.value * factor := Nat.mul_le_mul_left _ hu.le
    have hzero : n.value * u = n.value * factor ↔ n.value = 0 := by
      rw [mul_eq_mul_left_iff]
      omega
    rw [← heq, ← hzero]
    push_cast
    zify at hless ⊢
    omega
  | joined m tail hne hends' hcaps hlost hzero =>
    rw [List.append_assoc]
    refine .joined m _ (by simp [hne]) (hends'.append hne _) ?_ ?_ fun h => hzero h.1
    · intro c hc
      rcases List.mem_append.1 hc with hc | hc
      · exact hcaps c hc
      · rcases List.mem_append.1 hc with hc | hc
        · exact digits_lt n c hc
        · rw [List.mem_singleton.1 hc]
          exact hcap
    · intro u hu
      obtain ⟨hle, heq⟩ := hlost factor hbound
      obtain ⟨hle', heq'⟩ := hlost u (by omega)
      push_cast
      refine ⟨by omega, fun hsame => ?_, ?_⟩
      · have hnil : (n.value * factor : ℤ) = 0 := by omega
        exact ⟨heq'.1 (by omega), n.value_eq_zero (by omega) hnil⟩
      · rintro ⟨hok, hvalue⟩
        have hret := heq'.2 hok
        rw [hvalue]
        push_cast
        omega

/-- Without its letter, a unit changes nothing. -/
theorem convUnit_of_not_mem {st : TimeState} {unit : UInt8 × ℕ} (h : unit.1 ∉ st.s) :
    convUnit st unit = some st := if_neg h

theorem convUnit_cut {front rest : Bytes} {ret : ℤ} {unit : UInt8 × ℕ} (h : unit.1 ∉ front) :
    convUnit ⟨front ++ unit.1 :: rest, ret⟩ unit =
      (intMul (strConvInt front 0) unit.2).map fun part => ⟨rest, ret + part⟩ := by
  have htake := takeWhile_ne_append h rest
  have hdrop : (front ++ unit.1 :: rest).dropWhile (· != unit.1) = unit.1 :: rest := by
    have hwhole : (front ++ unit.1 :: rest).takeWhile (· != unit.1) ++
        (front ++ unit.1 :: rest).dropWhile (· != unit.1) = front ++ unit.1 :: rest :=
      List.takeWhile_append_dropWhile
    rw [htake] at hwhole
    exact List.append_cancel_left hwhole
  unfold convUnit
  rw [if_pos (by simp), htake, hdrop]
  cases intMul (strConvInt front 0) unit.2 <;> rfl

/-- The loop over the units. -/
theorem foldlM_convUnit {parts : TimeParts} (hparts : (parts.map Prod.fst).Sublist timeUnits)
    {bound want : ℕ} {ok : Prop} {joined : Bool} {s : Bytes} {ret : ℤ}
    (h : Group bound want ok joined s ret) (hbound : 1 < bound)
    (hunits : ∀ p ∈ parts, p.1.2 < bound) (seconds : Option Decimal) (mark : Option Bool) :
    ((parts.map Prod.fst).foldlM convUnit
        ⟨s ++ (partsText parts ++ secondsText seconds mark), ret⟩).map
      (fun st => st.ret + strConvInt st.s 0) =
        some ((want + partsSum parts + secondsOf seconds : ℕ) : ℤ) ↔
      ok ∧ PartsFit seconds joined (parts.map fun p => (p.1.2, p.2)) := by
  induction parts generalizing bound want ok joined s ret with
  | nil =>
    have hend := h.finish hbound seconds mark
    simpa [partsText, partsSum] using hend
  | cons p parts ih =>
    obtain ⟨⟨letter, factor⟩, part⟩ := p
    have hmem : ∀ q ∈ ((letter, factor), part) :: parts, q.1 ∈ timeUnits := fun q hq =>
      hparts.subset (List.mem_map_of_mem hq)
    have hmem' := fun q hq => hmem q (List.mem_cons_of_mem _ hq)
    obtain ⟨hlower, hcap, hends, -, hs, hone⟩ :=
      isLetter_timeUnits (letter, factor) (hmem _ List.mem_cons_self)
    have hpair := pairwise_timeUnits.sublist hparts
    rw [List.map_cons, List.pairwise_cons] at hpair
    have hlater : ∀ q ∈ parts, letter ≠ q.1.1 ∧ q.1.2 < factor := fun q hq =>
      hpair.1 q.1 (List.mem_map_of_mem hq)
    have hparts' : (parts.map Prod.fst).Sublist timeUnits :=
      (List.sublist_cons_self _ _).trans hparts
    have hfactor : factor < bound := hunits _ List.mem_cons_self
    have hrest := not_mem_rest hmem' hlower (fun q hq => (hlater q hq).1) hs seconds mark
    have hfront : ∀ {s : Bytes}, (∀ c ∈ s, c.toNat < 97) → letter ∉ s := fun hcaps hmem =>
      absurd (hcaps letter hmem) (not_lt.2 hlower)
    have hletter := hfront h.caps
    rw [List.map_cons, List.foldlM_cons]
    dsimp only
    cases part with
    | none =>
      have hunits' := fun q hq => hunits q (List.mem_cons_of_mem _ hq)
      have hmissing : letter ∉ s ++ (partsText parts ++ secondsText seconds mark) := by
        rw [List.mem_append, not_or]
        exact ⟨hletter, hrest⟩
      rw [partsText_none, partsSum_none, convUnit_of_not_mem hmissing]
      exact ih hparts' h hbound hunits'
    | some part =>
      obtain ⟨n, upper⟩ := part
      rw [partsSum_some, ← Nat.add_assoc]
      cases upper with
      | true =>
        have hpass := h.pass hfactor n hends hcap
        have htext : s ++ (partsText (((letter, factor), some ⟨n, true⟩) :: parts) ++
            secondsText seconds mark) = (s ++ (n.digits ++ [inCase true letter])) ++
              (partsText parts ++ secondsText seconds mark) := by
          simp [partsText_some]
        have hmissing : letter ∉ (s ++ (n.digits ++ [inCase true letter])) ++
            (partsText parts ++ secondsText seconds mark) := by
          rw [List.mem_append, not_or]
          exact ⟨hfront hpass.caps, hrest⟩
        have hstep := ih hparts' hpass hone fun q hq => (hlater q hq).2
        rw [htext, convUnit_of_not_mem hmissing]
        refine hstep.trans ?_
        simp [PartsFit, PartFits, and_assoc]
      | false =>
        obtain ⟨hover, hcut⟩ := h.cut (by omega : 0 < factor) hfactor n
        have htext : s ++ (partsText (((letter, factor), some ⟨n, false⟩) :: parts) ++
            secondsText seconds mark) = (s ++ n.digits) ++
              letter :: (partsText parts ++ secondsText seconds mark) := by
          simp [partsText_some, inCase]
        have hmissing : letter ∉ s ++ n.digits := by
          rw [List.mem_append, not_or]
          exact ⟨hletter, hfront (digits_lt n)⟩
        have hfit : PartsFit seconds joined
            ((((letter, factor), some ⟨n, false⟩) :: parts).map fun p => (p.1.2, p.2)) ↔
              PartFits joined n factor ∧
                PartsFit seconds false (parts.map fun p => (p.1.2, p.2)) := by
          simp [PartsFit]
        have hconv : convUnit ⟨(s ++ n.digits) ++ letter :: (partsText parts ++
            secondsText seconds mark), ret⟩ (letter, factor) =
              (intMul (strConvInt (s ++ n.digits) 0) factor).map fun part =>
                ⟨partsText parts ++ secondsText seconds mark, ret + part⟩ := convUnit_cut hmissing
        rw [htext, hconv, hfit, ← and_assoc]
        cases hmul : intMul (strConvInt (s ++ n.digits) 0) factor with
        | none => exact iff_of_false (by simp) fun h => hover hmul h.1
        | some worth => exact ih hparts' (hcut worth hmul) hone fun q hq => (hlater q hq).2

/-- A text of the form is read as what it means exactly if its parts fit. -/
theorem strConvTime_text (form : TimeForm) (default : ℤ) :
    strConvTime (some form.text) default = some (form.sum : ℤ) ↔ form.Fits := by
  have hstart : Group 86401 0 True false [] 0 := .fresh le_rfl (by simp)
  have hloop := @foldlM_convUnit [((100, 86400), form.days), ((104, 3600), form.hours),
    ((109, 60), form.minutes)] (.refl _) _ _ _ _ _ _ hstart (by decide) (by simp) form.seconds
    form.mark
  simpa [strConvTime, timeUnits, TimeForm.text, TimeForm.sum, TimeForm.Fits, partsText, partsSum,
    Nat.add_assoc] using hloop

/-! ### Times as they are printed -/

theorem itoa_ne_nil (n : ℕ) : itoa n ≠ [] := by
  have hacc : ∀ (k i : ℕ) (acc : Bytes), acc ≠ [] → itoaLoop k i acc ≠ [] := by
    intro k
    induction k with
    | zero => exact fun _ _ h => h
    | succ k ih =>
      intro i acc _
      unfold itoaLoop
      dsimp only
      split
      · simp
      · exact ih _ _ (by simp)
  unfold itoa itoaLoop
  dsimp only
  split
  · simp
  · exact hacc _ _ _ (by simp)

theorem isDigit_of_mem_itoa (n : ℕ) : ∀ c ∈ itoa n, isDigit c := by
  intro c hc
  rcases digit_of_mem_itoaLoop hc with hc | ⟨hlow, hhigh⟩
  · exact absurd hc List.not_mem_nil
  · have hle : 48 ≤ c ∧ c ≤ 57 := ⟨UInt8.le_iff_toNat_le.2 hlow, UInt8.le_iff_toNat_le.2 hhigh⟩
    simpa [isDigit] using hle

/-- A number as it is printed. -/
def Decimal.ofNat (n : ℕ) : Decimal := ⟨itoa n, itoa_ne_nil n, isDigit_of_mem_itoa n⟩

theorem Decimal.value_ofNat {n : ℕ} (h : n < 10 ^ 20) : (Decimal.ofNat n).value = n :=
  digitsFrom_itoaLoop h []

theorem plain_ofNat {n factor : ℕ} (hfactor : 0 < factor) (h : n * factor < 2147483648) :
    Plain (.ofNat n) factor := by
  have hle : n ≤ n * factor := Nat.le_mul_of_pos_right n hfactor
  have hlt : n < 10 ^ 20 := by omega
  rw [Plain, Decimal.value_ofNat hlt]
  refine ⟨fun hhead => ?_, h⟩
  rcases Nat.eq_zero_or_pos n with rfl | hpos
  · decide
  · obtain ⟨c, r, hcons, hlow, -⟩ := exists_itoaLoop_eq_cons hlt hpos []
    have hc : (itoaLoop 20 n []).head? = some 48 := hhead
    rw [hcons] at hc
    obtain rfl : c = 48 := by simpa using hc
    exact absurd hlow (by decide)

/-- A part that is printed if it is not 0. -/
def partOf (n : ℕ) : Option TimePart := if n = 0 then none else some ⟨.ofNat n, false⟩

theorem printUnit_eq (n : ℕ) (letter : UInt8) : printUnit n letter = textOf letter (partOf n) := by
  by_cases hn : n = 0
  · simp [printUnit, partOf, textOf, hn]
  · simp [printUnit, partOf, textOf, TimePart.text, Decimal.ofNat, inCase, hn]

theorem valueOf_partOf {n : ℕ} (h : n < 10 ^ 20) : valueOf (partOf n) = n := by
  by_cases hn : n = 0
  · simp [valueOf, partOf, hn]
  · simp [valueOf, partOf, hn, Decimal.value_ofNat h]

theorem partsFit_partOf {seconds : Option Decimal} {n factor : ℕ}
    {parts : List (ℕ × Option TimePart)}
    (hfactor : 0 < factor) (h : n * factor < 2147483648) (hparts : PartsFit seconds false parts) :
    PartsFit seconds false ((factor, partOf n) :: parts) := by
  unfold partOf
  split
  · exact hparts
  · exact ⟨plain_ofNat hfactor h, hparts⟩

/-- The text of a time as a form. -/
def timeForm (t : ℕ) : TimeForm where
  days := partOf (t / 86400)
  hours := partOf (t % 86400 / 3600)
  minutes := partOf (t % 86400 % 3600 / 60)
  seconds :=
    if t % 86400 % 3600 % 60 = 0 ∧ t ≠ 0 then none else some (.ofNat (t % 86400 % 3600 % 60))
  mark := if t % 86400 % 3600 % 60 = 0 ∧ t ≠ 0 then none else some false

theorem textOf_partOf_eq_nil {n : ℕ} {letter : UInt8} : textOf letter (partOf n) = [] ↔ n = 0 := by
  by_cases hn : n = 0 <;> simp [textOf, partOf, TimePart.text, hn]

theorem timeConvStr_eq {t : ℕ} (h : t < 2147483648) : timeConvStr t = (timeForm t).text := by
  have hdays : toInt32 ((t / 86400 : ℕ) : ℤ) = (t / 86400 : ℕ) := by
    rw [toInt32]
    exact Int.bmod_eq_of_le (by omega) (by omega)
  have hdiv : ∀ a b : ℕ, (a : ℤ).tdiv b = (a / b : ℕ) := fun a b => (Int.ofNat_tdiv a b).symm
  have hmod : ∀ a b : ℕ, (a : ℤ).tmod b = (a % b : ℕ) := fun a b => (Int.ofNat_tmod a b).symm
  have hprint : timeConvStr t =
      let rbuf := textOf 100 (partOf (t / 86400)) ++ textOf 104 (partOf (t % 86400 / 3600)) ++
        textOf 109 (partOf (t % 86400 % 3600 / 60)) ++
          textOf secondsLetter (partOf (t % 86400 % 3600 % 60))
      if rbuf = [] then [48, secondsLetter] else rbuf := by
    have h86400 := hmod t 86400
    have h3600 := hmod (t % 86400) 3600
    have hd := hdiv t 86400
    have hh := hdiv (t % 86400) 3600
    have hm := hdiv (t % 86400 % 3600) 60
    have hs := hmod (t % 86400 % 3600) 60
    push_cast at h86400 h3600 hd hh hm hs hdays
    simp only [← printUnit_eq, timeConvStr]
    push_cast
    rw [h86400, h3600, hd, hh, hm, hs, hdays]
  rw [hprint]
  rcases Nat.eq_zero_or_pos t with rfl | hpos
  · decide
  · have hne : textOf 100 (partOf (t / 86400)) ++ textOf 104 (partOf (t % 86400 / 3600)) ++
        textOf 109 (partOf (t % 86400 % 3600 / 60)) ++
          textOf secondsLetter (partOf (t % 86400 % 3600 % 60)) ≠ [] := by
      simp only [ne_eq, List.append_eq_nil_iff, textOf_partOf_eq_nil]
      omega
    dsimp only
    rw [if_neg hne]
    unfold TimeForm.text timeForm
    dsimp only
    by_cases hs : t % 86400 % 3600 % 60 = 0
    · rw [if_pos ⟨hs, hpos.ne'⟩, if_pos ⟨hs, hpos.ne'⟩, hs]
      simp [secondsText, textOf, partOf]
    · rw [if_neg fun h => hs h.1, if_neg fun h => hs h.1]
      have hpart : partOf (t % 86400 % 3600 % 60) =
          some ⟨.ofNat (t % 86400 % 3600 % 60), false⟩ := if_neg hs
      rw [hpart]
      simp [secondsText, textOf, TimePart.text, inCase]

theorem timeForm_sum {t : ℕ} (h : t < 2147483648) : (timeForm t).sum = t := by
  have hseconds : secondsOf (timeForm t).seconds = t % 86400 % 3600 % 60 := by
    unfold timeForm
    dsimp only
    split
    · rename_i hzero
      exact hzero.1.symm
    · exact Decimal.value_ofNat (by omega)
  have hdays : valueOf (timeForm t).days = t / 86400 := valueOf_partOf (by omega)
  have hhours : valueOf (timeForm t).hours = t % 86400 / 3600 := valueOf_partOf (by omega)
  have hminutes : valueOf (timeForm t).minutes = t % 86400 % 3600 / 60 := valueOf_partOf (by omega)
  rw [TimeForm.sum, hseconds, hdays, hhours, hminutes]
  omega

theorem timeForm_fits {t : ℕ} (h : t < 2147483648) : (timeForm t).Fits := by
  refine partsFit_partOf (by decide) (by omega) ?_
  refine partsFit_partOf (by decide) (by omega) ?_
  refine partsFit_partOf (by decide) (by omega) ?_
  intro n hn
  have hplain : Plain (.ofNat (t % 86400 % 3600 % 60)) 1 := plain_ofNat (by decide) (by omega)
  have hsame : .ofNat (t % 86400 % 3600 % 60) = n := by
    unfold timeForm at hn
    dsimp only at hn
    split at hn
    · cases hn
    · exact Option.some.inj hn
  rw [← hsame]
  exact hplain

/-- Every time of 31 bits is read as it was printed. A text of the form is read as the sum of its
parts exactly if no part that is not 0 has its letter in upper case or stands behind such a letter,
no number is an octal one, and each part is an `int`. -/
theorem strConvTime_iff (default : ℤ) :
    (∀ t : ℕ, t < 2147483648 → strConvTime (some (timeConvStr t)) default = some (t : ℤ)) ∧
    ∀ form : TimeForm,
      strConvTime (some form.text) default = some (form.sum : ℤ) ↔ form.Fits := by
  refine ⟨fun t ht => ?_, fun form => strConvTime_text form default⟩
  have h := (strConvTime_text (timeForm t) default).2 (timeForm_fits ht)
  rwa [timeForm_sum ht, ← timeConvStr_eq ht] at h

/-- An hour, a minute and a second. -/
theorem strConvTime_iff_example : strConvTime (some (timeConvStr (3661 : ℕ))) 0 = some (3661 : ℕ) :=
  (strConvTime_iff 0).1 3661 (by decide)

/-- One day with a capital letter is a second, ten seconds with a leading zero are eight, and 30000
days are too many for an `int`. -/
theorem strConvTime_fails : ∃ day ten many : TimeForm,
    (day.text = bytes "1D" ∧ day.sum = 86400 ∧ strConvTime (some day.text) 0 = some 1) ∧
    (ten.text = bytes "010s" ∧ ten.sum = 10 ∧ strConvTime (some ten.text) 0 = some 8) ∧
    many.text = bytes "30000d" ∧ many.sum = 2592000000 ∧ strConvTime (some many.text) 0 = none := by
  refine ⟨⟨some ⟨⟨[49], by decide +kernel, by decide +kernel⟩, true⟩, none, none, none, none⟩,
    ⟨none, none, none, some ⟨[48, 49, 48], by decide +kernel, by decide +kernel⟩, some false⟩,
    ⟨some ⟨⟨[51, 48, 48, 48, 48], by decide +kernel, by decide +kernel⟩, false⟩,
      none, none, none, none⟩, ?_⟩
  decide +kernel

end Ithildin
