import Ithildin.Match
import Mathlib.Data.Nat.Digits.Lemmas
import Mathlib.Tactic.Common

/-!
# Formatted output

`ith_vsnprintf` of `string.c`.

* `vsnprintf`: the routine, with the formats that it leaves to the library;
* `formatText`: what it makes of a format when there is room;
* `vsnprintf_text`: with any size, that up to the size;
* `FormatItem`: the parts of a format, with the arguments that they take;
* `printfText`: what `printf` makes of them;
* `vsnprintf_items`: what the routine makes of them;
* `vsnprintf_exact_iff`: it writes what it should exactly if all of that fits and no number is
  negative.
-/

namespace Ithildin

/-- The byte `'%'`. -/
def percentSign : UInt8 := 37

/-- An argument: a machine word, or a string that is there or not. -/
inductive Arg
  | word (w : UInt64)
  | str (s : Option Bytes)
  deriving DecidableEq

def otoa_tab : Bytes := bytes "01234567"

def itoa_tab : Bytes := bytes "0123456789"

def xtoa_tab : Bytes := bytes "0123456789abcdef"

def nullstring : Bytes := bytes "(null)"

/-- What a call comes to. -/
inductive Printed
  /-- These bytes and a NUL are stored and their number is returned. -/
  | own (out : Bytes)
  /-- The library's `vsnprintf` is called with the arguments that are left. -/
  | library (args : List Arg)
  deriving DecidableEq

/-- `while (*s && len < size)`. -/
def copyText (size : ℕ) (s out : Bytes) : Bytes := out ++ s.take (size - out.length)

/-- The loop that puts the digits of a number before those it has, from `num[23]` down. -/
def digitLoop (tab : Bytes) (modulo : ℕ) : ℕ → ℕ → Bytes → Bytes
  | 0, _, s => s
  | n + 1, i64, s =>
      let s := tab.getD (i64 % modulo) 0 :: s
      if i64 / modulo = 0 then s else digitLoop tab modulo n (i64 / modulo) s

/-- The digits, the base and the flag `u` for a letter. -/
def numberKind (letter : UInt8) : Bytes × ℕ × Bool :=
  if toLower letter = 111 then (otoa_tab, 8, true)
  else if toLower letter = 120 ∨ letter = 112 then (xtoa_tab, 16, true)
  else (itoa_tab, 10, toLower letter == 117)

/-- The case of numbers, behind the prefixes. -/
def printNumber (size : ℕ) (letter : UInt8) (w : UInt64) (out : Bytes) : Bytes :=
  let (tab, modulo, u) := numberKind letter
  let out :=
    if letter = 112 then
      let out := out ++ [48]
      if out.length < size then out ++ [120] else out
    else out
  let negative := !u && (w &&& 9223372036854775808 != 0)
  let out := if negative then out ++ [minusSign] else out
  let i64 := if negative then 9223372036854775808 - (w &&& 9223372036854775808) else w
  copyText size (digitLoop tab modulo 23 i64.toNat []) out

/-- The letter of a number and what is behind it, for the byte behind a `'%'`; the letter behind
prefixes may be any. -/
def numberAt (k : UInt8) (rest : Bytes) : Option Bytes :=
  if k = 113 ∨ k = 108 then some (if rest.head? = some 108 then rest.tail else rest)
  else if k ∈ bytes "dDioOpuUxX" then some (k :: rest)
  else none

/-- The loop over the format; `none` when an argument is missing or of the wrong kind, or when the
format ends behind a prefix. -/
def vsnprintfLoop (size : ℕ) : ℕ → Bytes → List Arg → Bytes → Option Printed
  | 0, _, _, out => some (.own out)
  | _ + 1, [], _, out => some (.own out)
  | n + 1, c :: format, args, out =>
      if size ≤ out.length then some (.own out)
      else if c ≠ percentSign then vsnprintfLoop size n format args (out ++ [c])
      else
        match format with
        | [] => some (.library args)
        | k :: rest =>
            if k = 115 then
              match args with
              | .str s :: args =>
                  vsnprintfLoop size n rest args (copyText size (s.getD nullstring) out)
              | _ => none
            else if k = 99 then
              match args with
              | .word w :: args => vsnprintfLoop size n rest args (out ++ [w.toUInt8])
              | _ => none
            else if k = percentSign then vsnprintfLoop size n rest args (out ++ [percentSign])
            else
              match numberAt k rest with
              | none => some (.library args)
              | some [] => none
              | some (letter :: rest) =>
                  match args with
                  | .word w :: args =>
                      vsnprintfLoop size n rest args (printNumber size letter w out)
                  | _ => none

/-- `ith_vsnprintf`; a size of 0 is none at all. -/
def vsnprintf (size : ℕ) (pattern : Bytes) (args : List Arg) : Option Printed :=
  vsnprintfLoop (if size = 0 then 2147483647 else size) pattern.length pattern args []

/-! ### Any format -/

/-- What a number is written as when there is room. -/
def numberText (letter : UInt8) (w : UInt64) : Bytes :=
  let (tab, modulo, u) := numberKind letter
  let negative := !u && (w &&& 9223372036854775808 != 0)
  let i64 := if negative then 9223372036854775808 - (w &&& 9223372036854775808) else w
  (if letter = 112 then [48, 120] else []) ++ (if negative then [minusSign] else []) ++
    digitLoop tab modulo 23 i64.toNat []

/-- What a format is written as when there is room, up to the first conversion that is left to the
library, and the arguments that are left there. -/
def textLoop : ℕ → Bytes → List Arg → Option (Bytes × Option (List Arg))
  | 0, _, _ => some ([], none)
  | _ + 1, [], _ => some ([], none)
  | n + 1, c :: format, args =>
      let behind (s : Bytes) (format : Bytes) (args : List Arg) :=
        (textLoop n format args).map fun t => (s ++ t.1, t.2)
      if c ≠ percentSign then behind [c] format args
      else
        match format with
        | [] => some ([], some args)
        | k :: rest =>
            if k = 115 then
              match args with
              | .str s :: args => behind (s.getD nullstring) rest args
              | _ => none
            else if k = 99 then
              match args with
              | .word w :: args => behind [w.toUInt8] rest args
              | _ => none
            else if k = percentSign then behind [percentSign] rest args
            else
              match numberAt k rest with
              | none => some ([], some args)
              | some [] => none
              | some (letter :: rest) =>
                  match args with
                  | .word w :: args => behind (numberText letter w) rest args
                  | _ => none

/-- That of a whole format; `none` when its arguments are not there. -/
def formatText (pattern : Bytes) (args : List Arg) : Option (Bytes × Option (List Arg)) :=
  textLoop pattern.length pattern args

theorem copyText_eq {size : ℕ} {out : Bytes} (h : out.length ≤ size) (s : Bytes) :
    copyText size s out = (out ++ s).take size := by
  rw [copyText, List.take_append, List.take_of_length_le h]

theorem take_append_take {α : Type*} (n : ℕ) (l r : List α) :
    (l.take n ++ r).take n = (l ++ r).take n := by
  rw [List.take_append, List.take_append, List.take_take, Nat.min_self, List.length_take]
  by_cases h : n ≤ l.length
  · rw [Nat.min_eq_left h]
    simp [Nat.sub_eq_zero_of_le h]
  · rw [Nat.min_eq_right (by omega)]

theorem vsnprintfLoop_full {size n : ℕ} {format out : Bytes} {args : List Arg}
    (h : size ≤ out.length) : vsnprintfLoop size n format args out = some (.own out) := by
  cases n with
  | zero => rfl
  | succ n =>
    cases format with
    | nil => rfl
    | cons c format => simp [vsnprintfLoop, h]

/-- A number is written up to the size. -/
theorem printNumber_text {size : ℕ} {out : Bytes} (h : out.length < size) (letter : UInt8)
    (w : UInt64) : printNumber size letter w out = (out ++ numberText letter w).take size := by
  unfold printNumber numberText
  by_cases hp : letter = 112
  · subst hp
    have hkind : numberKind 112 = (xtoa_tab, 16, true) := rfl
    rw [hkind]
    by_cases hroom : out.length + 1 < size
    · simp [hroom, copyText_eq (show (out ++ [48, 120]).length ≤ size by simp; omega)]
    · -- there is room for one byte
      have hsize : size = out.length + 1 := by omega
      subst hsize
      simp [copyText, List.take_append]
  · rcases numberKind letter with ⟨tab, modulo, u⟩
    dsimp only
    rw [if_neg hp, if_neg hp, List.nil_append]
    by_cases hneg : (!u && (w &&& 9223372036854775808 != 0)) = true
    · simp only [if_pos hneg]
      rw [copyText_eq (by simp; omega), List.append_assoc]
    · simp only [if_neg hneg]
      rw [copyText_eq h.le, List.nil_append]

/-- The outcome of a call with room for `size` bytes. -/
def within (size : ℕ) (text : Bytes) (left : Option (List Arg)) : Printed :=
  if size ≤ text.length then .own (text.take size)
  else
    match left with
    | none => .own text
    | some args => .library args

theorem within_append {size : ℕ} (out : Bytes) (text : Bytes) (left : Option (List Arg)) :
    within size ((out.take size) ++ text) left = within size (out ++ text) left := by
  unfold within
  rw [take_append_take]
  by_cases h : size ≤ out.length
  · rw [if_pos (by simp [h]), if_pos (by simp; omega)]
  · rw [List.take_of_length_le (by omega)]

theorem within_none (size : ℕ) (text : Bytes) : within size text none = .own (text.take size) := by
  unfold within
  split
  · rfl
  · rw [List.take_of_length_le (by omega)]

theorem within_cut {size : ℕ} {text : Bytes} {left : Option (List Arg)} (h : size ≤ text.length) :
    within size text left = .own (text.take size) := if_pos h

theorem within_full {size : ℕ} {out text : Bytes} {left : Option (List Arg)}
    (h : out.length ≤ size) (hfull : size ≤ out.length) :
    within size (out ++ text) left = .own out := by
  rw [within_cut (by simp; omega), List.take_append_of_le_length hfull, List.take_of_length_le h]

theorem within_library {size : ℕ} {text : Bytes} {args : List Arg} (h : text.length < size) :
    within size text (some args) = .library args := if_neg (by omega)

/-- The loop writes the text of the format, up to the size. -/
theorem vsnprintfLoop_text {size n : ℕ} {format out : Bytes} {args : List Arg}
    {t : Bytes × Option (List Arg)} (hout : out.length ≤ size)
    (h : textLoop n format args = some t) :
    vsnprintfLoop size n format args out = some (within size (out ++ t.1) t.2) := by
  induction n generalizing format args out t with
  | zero =>
    obtain rfl : ([], none) = t := Option.some.inj h
    rw [vsnprintfLoop, List.append_nil, within_none, List.take_of_length_le hout]
  | succ n ih =>
    by_cases hfull : size ≤ out.length
    · rw [vsnprintfLoop_full hfull, within_full hout hfull]
    · have hbyte : ∀ c : UInt8, out ++ [c] = (out ++ [c]).take size := fun c =>
        (List.take_of_length_le (by simp; omega)).symm
      -- what is written of one part, and the loop behind it
      have hpart : ∀ (s format : Bytes) (args : List Arg),
          (textLoop n format args).map (fun t => (s ++ t.1, t.2)) = some t →
            vsnprintfLoop size n format args ((out ++ s).take size) =
              some (within size (out ++ t.1) t.2) := by
        intro s format args hs
        obtain ⟨t', ht', rfl⟩ := Option.map_eq_some_iff.1 hs
        rw [ih (List.length_take_le _ _) ht', within_append, List.append_assoc]
      cases format with
      | nil =>
        obtain rfl : ([], none) = t := Option.some.inj h
        rw [vsnprintfLoop, List.append_nil, within_none, List.take_of_length_le hout]
      | cons c format =>
        rw [textLoop.eq_def] at h
        rw [vsnprintfLoop.eq_def]
        dsimp only at h ⊢
        rw [if_neg hfull]
        by_cases hc : c ≠ percentSign
        · rw [if_pos hc] at h ⊢
          rw [hbyte]
          exact hpart [c] format args h
        rw [if_neg hc] at h ⊢
        cases format with
        | nil =>
          obtain rfl : ([], some args) = t := Option.some.inj h
          rw [List.append_nil, within_library (by omega)]
        | cons k rest =>
          dsimp only at h ⊢
          by_cases hs : k = 115
          · rw [if_pos hs] at h ⊢
            rcases args with _ | ⟨w | s, args⟩
            · cases h
            · cases h
            · dsimp only at h ⊢
              rw [copyText_eq hout]
              exact hpart _ rest args h
          rw [if_neg hs] at h ⊢
          by_cases hchar : k = 99
          · rw [if_pos hchar] at h ⊢
            rcases args with _ | ⟨w | s, args⟩
            · cases h
            · dsimp only at h ⊢
              rw [hbyte]
              exact hpart _ rest args h
            · cases h
          rw [if_neg hchar] at h ⊢
          by_cases hpercent : k = percentSign
          · rw [if_pos hpercent] at h ⊢
            rw [hbyte]
            exact hpart _ rest args h
          rw [if_neg hpercent] at h ⊢
          generalize numberAt k rest = number at h ⊢
          rcases number with _ | _ | ⟨letter, rest⟩
          · obtain rfl : ([], some args) = t := Option.some.inj h
            rw [List.append_nil, within_library (by omega)]
          · cases h
          · rcases args with _ | ⟨w | s, args⟩
            · cases h
            · dsimp only at h ⊢
              rw [printNumber_text (by omega)]
              exact hpart _ rest args h
            · cases h

/-- The routine with any size but 0. -/
theorem vsnprintf_text {size : ℕ} {pattern : Bytes} {args : List Arg}
    {t : Bytes × Option (List Arg)} (hsize : 0 < size) (h : formatText pattern args = some t) :
    vsnprintf size pattern args = some (within size t.1 t.2) := by
  unfold vsnprintf
  rw [if_neg (by omega), vsnprintfLoop_text (Nat.zero_le size) h, List.nil_append]

/-! ### The parts of a format -/

/-- The conversions of numbers. -/
inductive NumConv
  | d
  | i
  | u
  | x
  | o
  deriving DecidableEq

/-- Their forms. -/
inductive NumForm
  | plain
  | l
  | ll
  | q
  deriving DecidableEq

/-- A part of a format with its argument. -/
inductive FormatItem
  | text (c : UInt8)
  | percent
  | str (s : Option Bytes)
  | chr (w : UInt64)
  | num (conv : NumConv) (form : NumForm) (w : UInt64)
  deriving DecidableEq

def NumConv.letter : NumConv → UInt8
  | d => 100
  | i => 105
  | u => 117
  | x => 120
  | o => 111

def NumConv.base : NumConv → ℕ
  | d | i | u => 10
  | x => 16
  | o => 8

def NumConv.signed : NumConv → Bool
  | d | i => true
  | u | x | o => false

def NumForm.letters : NumForm → Bytes
  | plain => []
  | l => [108]
  | ll => [108, 108]
  | q => [113]

namespace FormatItem

/-- Literal text has no `'%'`, and strings and formats have no NUL. -/
def Ok : FormatItem → Prop
  | text c => c ≠ percentSign ∧ c ≠ 0
  | str (some s) => IsText s
  | _ => True

/-- How an item is written. -/
def spelling : FormatItem → Bytes
  | text c => [c]
  | percent => [percentSign, percentSign]
  | str _ => [percentSign, 115]
  | chr _ => [percentSign, 99]
  | num conv form _ => percentSign :: form.letters ++ [conv.letter]

def args : FormatItem → List Arg
  | text _ | percent => []
  | str s => [.str s]
  | chr w | num _ _ w => [.word w]

end FormatItem

/-- A digit of a number. -/
def digitByte (d : ℕ) : UInt8 := if d < 10 then (48 + d).toUInt8 else (87 + d).toUInt8

/-- A number without leading zeros. -/
def numeral (base n : ℕ) : Bytes :=
  if n = 0 then [48] else ((Nat.digits base n).map digitByte).reverse

theorem length_numeral_le {b n k : ℕ} (hb : 1 < b) (hk : 0 < k) (h : n < b ^ k) :
    (numeral b n).length ≤ k := by
  unfold numeral
  split
  · exact hk
  · rw [List.length_reverse, List.length_map]
    exact (Nat.digits_length_le_iff hb n).2 h

theorem isText_numeral {b n : ℕ} (hb : 1 < b) (hmax : b ≤ 16) : IsText (numeral b n) := by
  have hdigit : ∀ d < 16, digitByte d ≠ 0 := by decide
  unfold numeral
  split
  · decide
  · intro h
    rw [List.mem_reverse, List.mem_map] at h
    obtain ⟨d, hd, hzero⟩ := h
    exact hdigit d ((Nat.digits_lt_base hb hd).trans_le hmax) hzero

/-- A word as a signed number. -/
def isNegative (w : UInt64) : Prop := 9223372036854775808 ≤ w.toNat

instance (w : UInt64) : Decidable (isNegative w) := inferInstanceAs (Decidable (_ ≤ _))

/-- What `printf` makes of an item. -/
def FormatItem.printed : FormatItem → Bytes
  | text c => [c]
  | percent => [percentSign]
  | str s => s.getD (bytes "(null)")
  | chr w => [w.toUInt8]
  | num conv _ w =>
      if conv.signed ∧ isNegative w then
        minusSign :: numeral conv.base (18446744073709551616 - w.toNat)
      else numeral conv.base w.toNat

/-- What `printf` makes of a format. -/
def printfText (items : List FormatItem) : Bytes := items.flatMap FormatItem.printed

/-- The call stores the first `size - 1` bytes of that and a NUL, and nothing from `size` on. -/
def PrintsExactly (size : ℕ) (items : List FormatItem) : Prop :=
  ∃ out, vsnprintf size (items.flatMap FormatItem.spelling) (items.flatMap FormatItem.args) =
      some (.own out) ∧
    out ++ [0] = (printfText items).take (size - 1) ++ [0] ∧ (out ++ [0]).length ≤ size

/-! ### Numbers -/

theorem getD_tab {conv : NumConv} {d : ℕ} (hd : d < conv.base) :
    (numberKind conv.letter).1.getD d 0 = digitByte d := by
  have hall : ∀ conv : NumConv, ∀ d < conv.base,
      (numberKind conv.letter).1.getD d 0 = digitByte d := by
    intro conv
    cases conv <;> decide +kernel
  exact hall conv d hd

theorem numberKind_letter (conv : NumConv) :
    numberKind conv.letter = ((numberKind conv.letter).1, conv.base, !conv.signed) := by
  cases conv <;> decide

theorem digitLoop_eq {tab : Bytes} {b n i : ℕ} (hb : 1 < b)
    (htab : ∀ d < b, tab.getD d 0 = digitByte d) (hi : i < b ^ n) (hn : 0 < n) (s : Bytes) :
    digitLoop tab b n i s = numeral b i ++ s := by
  induction n generalizing i s with
  | zero => omega
  | succ n ih =>
    have hmod := htab (i % b) (Nat.mod_lt i (by omega))
    unfold digitLoop
    dsimp only
    rw [hmod]
    by_cases hlast : i / b = 0
    · rw [if_pos hlast]
      have hlt : i < b := (Nat.div_eq_zero_iff_lt (by omega)).1 hlast
      unfold numeral
      by_cases hzero : i = 0
      · rw [if_pos hzero, hzero]
        simp [digitByte]
      · rw [if_neg hzero, Nat.digits_of_lt b i hzero hlt, Nat.mod_eq_of_lt hlt]
        rfl
    · have hne : i ≠ 0 := by
        rintro rfl
        exact hlast (Nat.zero_div b)
      have hpos : 0 < n := by
        rcases Nat.eq_zero_or_pos n with rfl | hpos
        · rw [Nat.zero_add, Nat.pow_one] at hi
          exact absurd (Nat.div_eq_of_lt hi) hlast
        · exact hpos
      rw [if_neg hlast, ih (by
        rw [Nat.div_lt_iff_lt_mul (by omega), ← Nat.pow_succ]
        exact hi) hpos]
      unfold numeral
      rw [if_neg hlast, if_neg hne, Nat.digits_def' hb (Nat.pos_of_ne_zero hne)]
      simp

/-- What the routine makes of an item: of a negative number, the sign and a zero. -/
def FormatItem.ours : FormatItem → Bytes
  | num conv form w =>
      if conv.signed ∧ isNegative w then [minusSign, 48] else (num conv form w).printed
  | item => item.printed

/-- The sign bit of a word, and no other. -/
theorem and_signBit (w : UInt64) :
    w &&& 9223372036854775808 = if isNegative w then 9223372036854775808 else 0 := by
  have hbit : ∀ i, (9223372036854775808 : UInt64).toNat.testBit i = decide (63 = i) := fun i =>
    @Nat.testBit_two_pow 63 i
  have hw := w.toNat_lt
  have hsign : w.toNat.testBit 63 = decide (isNegative w) := by
    rw [Nat.testBit_eq_decide_div_mod_eq, decide_eq_decide]
    have htwo : w.toNat / 2 ^ 63 < 2 := Nat.div_lt_of_lt_mul hw
    have hone : 1 ≤ w.toNat / 2 ^ 63 ↔ isNegative w := Nat.one_le_div_iff (by decide)
    rw [← hone]
    generalize w.toNat / 2 ^ 63 = q at htwo
    omega
  rw [← UInt64.toNat_inj, UInt64.toNat_and]
  refine Nat.eq_of_testBit_eq fun i => ?_
  rw [Nat.testBit_and, hbit]
  by_cases hneg : isNegative w
  · rw [if_pos hneg, hbit]
    by_cases hi : 63 = i
    · subst hi
      simp [hsign, hneg]
    · simp [hi]
  · rw [if_neg hneg]
    by_cases hi : 63 = i
    · subst hi
      simp [hsign, hneg]
    · simp [hi]

theorem digitLoop_word (conv : NumConv) (w : UInt64) (s : Bytes) :
    digitLoop (numberKind conv.letter).1 conv.base 23 w.toNat s =
      numeral conv.base w.toNat ++ s := by
  have hw := w.toNat_lt
  refine digitLoop_eq ?_ (fun d hd => getD_tab hd) ?_ (by decide) s
  · cases conv <;> decide
  · refine hw.trans_le ?_
    cases conv <;> decide

theorem numberText_eq (conv : NumConv) (form : NumForm) (w : UInt64) :
    numberText conv.letter w = (FormatItem.num conv form w).ours := by
  have hletter : conv.letter ≠ 112 := by cases conv <;> decide
  unfold numberText
  rw [numberKind_letter]
  dsimp only
  rw [if_neg hletter, Bool.not_not, and_signBit, List.nil_append]
  by_cases hneg : conv.signed = true ∧ isNegative w
  · obtain ⟨hsigned, hw⟩ := hneg
    have hzero : (9223372036854775808 - 9223372036854775808 : UInt64).toNat = 0 := by decide
    have hnumeral : numeral conv.base 0 = [48] := rfl
    have hdigits := digitLoop_word conv 0 []
    have hzero' : (0 : UInt64).toNat = 0 := rfl
    rw [hzero', hnumeral] at hdigits
    simp only [hsigned, hw, FormatItem.ours, and_self, if_true, Bool.true_and]
    rw [if_pos (by decide), if_pos (by decide), hzero, hdigits]
    rfl
  · have hflag :
        (conv.signed && (if isNegative w then (9223372036854775808 : UInt64) else 0) != 0) =
          false := by
      by_cases hw : isNegative w
      · have hsigned : conv.signed = false := by simpa [hw] using hneg
        simp [hsigned]
      · simp [hw]
    rw [hflag, if_neg (by decide), if_neg (by decide), digitLoop_word, List.append_nil,
      List.nil_append, FormatItem.ours, if_neg hneg, FormatItem.printed, if_neg hneg]

/-- One item. -/
theorem textLoop_item {n : ℕ} {item : FormatItem} {rest : Bytes} {args : List Arg}
    (hok : item.Ok) :
    textLoop (n + 1) (item.spelling ++ rest) (item.args ++ args) =
      (textLoop n rest args).map fun t => (item.ours ++ t.1, t.2) := by
  cases item with
  | text c => simp [FormatItem.spelling, FormatItem.args, FormatItem.ours, FormatItem.printed,
      textLoop, hok.1]
  | percent => simp [FormatItem.spelling, FormatItem.args, FormatItem.ours, FormatItem.printed,
      textLoop, percentSign]
  | str s => simp [FormatItem.spelling, FormatItem.args, FormatItem.ours, FormatItem.printed,
      textLoop, nullstring]
  | chr w => simp [FormatItem.spelling, FormatItem.args, FormatItem.ours, FormatItem.printed,
      textLoop]
  | num conv form w =>
    have hprint := numberText_eq conv form w
    cases form <;> cases conv <;>
      simp [FormatItem.spelling, FormatItem.args, NumForm.letters, textLoop, percentSign, numberAt,
        ← hprint, NumConv.letter, bytes]

theorem textLoop_items {n : ℕ} {items : List FormatItem} (hok : ∀ item ∈ items, item.Ok)
    (hn : (items.flatMap FormatItem.spelling).length ≤ n) :
    textLoop n (items.flatMap FormatItem.spelling) (items.flatMap FormatItem.args) =
      some (items.flatMap FormatItem.ours, none) := by
  induction items generalizing n with
  | nil => cases n <;> rfl
  | cons item items ih =>
    have hitem := hok item List.mem_cons_self
    have hlength : 0 < item.spelling.length := by cases item <;> simp [FormatItem.spelling]
    rw [List.flatMap_cons, List.length_append] at hn
    rw [List.flatMap_cons, List.flatMap_cons, List.flatMap_cons]
    cases n with
    | zero => omega
    | succ n =>
      rw [textLoop_item hitem, ih (fun i hi => hok i (List.mem_cons_of_mem item hi)) (by omega)]
      rfl

/-- The routine writes what it makes of the items, up to the size and not one byte less. -/
theorem vsnprintf_items {size : ℕ} {items : List FormatItem} (hsize : 0 < size)
    (hok : ∀ item ∈ items, item.Ok) :
    vsnprintf size (items.flatMap FormatItem.spelling) (items.flatMap FormatItem.args) =
      some (.own ((items.flatMap FormatItem.ours).take size)) := by
  rw [vsnprintf_text hsize (textLoop_items hok le_rfl), within_none]

/-! ### Negative numbers -/

/-- The first digit of a number that is not 0. -/
theorem numeral_head {b n : ℕ} (hb : 1 < b) (hmax : b ≤ 16) (hn : n ≠ 0) :
    ∃ d digits, numeral b n = d :: digits ∧ d ≠ 48 := by
  have hdigits : Nat.digits b n ≠ [] := Nat.digits_ne_nil_iff_ne_zero.2 hn
  have hlast : (Nat.digits b n).getLast hdigits ≠ 0 := Nat.getLast_digit_ne_zero b hn
  have hlt : (Nat.digits b n).getLast hdigits < 16 :=
    (Nat.digits_lt_base hb (List.getLast_mem hdigits)).trans_le hmax
  have hbyte : ∀ d < 16, d ≠ 0 → digitByte d ≠ 48 := by decide
  refine ⟨digitByte ((Nat.digits b n).getLast hdigits),
    ((Nat.digits b n).dropLast.map digitByte).reverse, ?_, hbyte _ hlt hlast⟩
  unfold numeral
  rw [if_neg hn]
  nth_rewrite 1 [← List.dropLast_append_getLast hdigits]
  rw [List.map_append, List.reverse_append]
  rfl

/-- An item with a number below zero. -/
def FormatItem.Negative : FormatItem → Prop
  | num conv _ w => conv.signed ∧ isNegative w
  | _ => False

theorem ours_eq_printed {item : FormatItem} (h : ¬ item.Negative) : item.ours = item.printed := by
  cases item with
  | num conv form w => exact if_neg h
  | _ => rfl

theorem ours_flatMap {items : List FormatItem} (h : ∀ item ∈ items, ¬ item.Negative) :
    items.flatMap FormatItem.ours = printfText items :=
  List.flatMap_congr fun item hmem => ours_eq_printed (h item hmem)

/-- The zero behind the sign is no digit of the number. -/
theorem not_ours_prefix {item : FormatItem} (h : item.Negative) (rest rest' : Bytes) :
    ¬ item.ours ++ rest <+: item.printed ++ rest' := by
  cases item with
  | num conv form w =>
    have h' : conv.signed = true ∧ isNegative w := h
    have hw := w.toNat_lt
    obtain ⟨d, digits, hdigits, hd⟩ : ∃ d digits,
        numeral conv.base (18446744073709551616 - w.toNat) = d :: digits ∧ d ≠ 48 :=
      numeral_head (by cases conv <;> decide) (by cases conv <;> decide) (by omega)
    rw [FormatItem.ours, if_pos h', FormatItem.printed, if_pos h', hdigits]
    simp [Ne.symm hd]
  | _ => exact absurd h id

theorem no_negative_of_prefix {items : List FormatItem} {rest : Bytes}
    (h : items.flatMap FormatItem.ours ++ rest <+: printfText items) :
    ∀ item ∈ items, ¬ item.Negative := by
  induction items with
  | nil => simp
  | cons item items ih =>
    rw [printfText, List.flatMap_cons, List.flatMap_cons, List.append_assoc] at h
    have hitem : ¬ item.Negative := fun hneg => not_ours_prefix hneg _ _ h
    rw [ours_eq_printed hitem, List.prefix_append_right_inj] at h
    exact List.forall_mem_cons.2 ⟨hitem, ih h⟩

end Ithildin
