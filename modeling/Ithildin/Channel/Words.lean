import Ithildin.Channel.ModeLine

/-!
# Arguments that are not words

The argument that stands last in a line may have blanks in it, may be empty and may start with a
`':'`.  Passed on at the end of a MODE line, without a `':'` before it, it is tokenised again.

* `firstArg`: what the mode it belongs to gets then;
* `firstArg_of_isWord`, `length_lt_of_firstArg`: a word arrives as it is, everything else arrives
  shorter or not at all;
* `limitOf_firstArg`: a limit arrives all the same.
-/

namespace Ithildin

open Tokens

/-- The first argument that is read at the end of a line from what is put there. -/
def firstArg (arg : Bytes) : Option Bytes :=
  (fieldsRaw isSpace colon 1 (trim isSpace arg)).head?

theorem firstArg_of_isWord {arg : Bytes} (h : IsWord arg) : firstArg arg = some arg := by
  have htrim := h.1.trim []
  have hfields := fieldsRaw_word h.1 (r := []) trivial 0
  rw [List.append_nil] at htrim hfields
  rw [firstArg, htrim, hfields]
  rfl

theorem length_lt_of_firstArg {arg w : Bytes} (hword : ¬ Word isSpace colon arg)
    (h : firstArg arg = some w) : w.length < arg.length := by
  have htrim := (List.dropWhile_suffix (l := arg) isSpace).length_le
  rw [firstArg] at h
  cases harg : trim isSpace arg with
  | nil =>
    rw [harg] at h
    cases h
  | cons c l =>
    have hlen : (c :: l).length ≤ arg.length := by rw [← harg]; exact htrim
    rw [harg, fieldsRaw_succ] at h
    split at h
    · obtain rfl : l = w := by simpa using h
      rw [List.length_cons] at hlen
      omega
    · rename_i hc
      obtain rfl : word isSpace (c :: l) = w := by simpa using h
      have happend := congrArg List.length (word_append_afterWord isSpace (c :: l))
      rw [List.length_append] at happend
      by_contra hnot
      -- then nothing has been trimmed and nothing follows the first word
      have hafter : afterWord isSpace (c :: l) = [] := List.length_eq_zero_iff.mp (by omega)
      have heq : arg = c :: l := by
        rw [← harg]
        exact ((List.dropWhile_suffix (l := arg) isSpace).eq_of_length (by
          have : (arg.dropWhile isSpace) = c :: l := harg
          rw [this]
          omega)).symm
      refine hword ?_
      rw [heq]
      refine ⟨by simp, ?_, by simpa using hc⟩
      have hall := word_append_afterWord isSpace (c :: l)
      rw [hafter, List.append_nil] at hall
      intro d hd
      rw [← hall] at hd
      exact sep_of_mem_word hd

/-! ### Limits -/

theorem digitVal_of_isSpace {c : UInt8} (h : isSpace c = true) : digitVal c = none := by
  have hall : ∀ n < 256, isSpace (UInt8.ofNat n) = true → digitVal (UInt8.ofNat n) = none := by
    decide +kernel
  exact forall_byte (p := fun c => isSpace c = true → digitVal c = none) hall c h

theorem digitsFrom_append_rest (base : ℕ) {r : Bytes} (hr : Rest isSpace r) (acc : ℕ) (s : Bytes) :
    digitsFrom base acc (s ++ r) = digitsFrom base acc s := by
  refine digitsFrom_append (fun c hc => ?_) acc s
  cases r with
  | nil => cases hc
  | cons d r =>
    obtain rfl := Option.some.inj hc
    rw [digitOf, digitVal_of_isSpace (show isSpace d = true from hr)]
    rfl

theorem magnitude_append {r : Bytes} (hr : Rest isSpace r) (s : Bytes) :
    magnitude (s ++ r) = magnitude s := by
  cases r with
  | nil => rw [List.append_nil]
  | cons b r =>
    have hb : isSpace b = true := hr
    match s with
    | [] =>
      have hne : b ≠ 48 := by
        rintro rfl
        cases hb
      rw [List.nil_append, magnitude_of_ne hne]
      exact digitsFrom_append_rest _ hr 0 []
    | [c] =>
      by_cases hc : c = 48
      · subst hc
        have hx : ¬ (b = 120 ∨ b = 88) := by
          rintro (rfl | rfl)
          · cases hb
          · cases hb
        cases r with
        | nil => exact digitsFrom_append_rest _ hr 0 []
        | cons d r =>
          rw [List.singleton_append, magnitude, if_neg fun h => hx h.1]
          exact digitsFrom_append_rest _ hr 0 []
      · rw [magnitude_of_ne hc, List.singleton_append, magnitude_of_ne hc]
        exact digitsFrom_append_rest _ hr 0 [c]
    | [c, x] =>
      by_cases hc : c = 48
      · subst hc
        have hdigit : digitOf 16 b = none := by
          rw [digitOf, digitVal_of_isSpace hb]
          rfl
        rw [List.cons_append, List.singleton_append, magnitude, if_neg (by simp [hdigit])]
        exact digitsFrom_append_rest _ hr 0 [x]
      · rw [magnitude_of_ne hc, List.cons_append, magnitude_of_ne hc]
        exact digitsFrom_append_rest _ hr 0 [c, x]
    | c :: x :: d :: s =>
      by_cases hc : c = 48
      · subst hc
        have hhex := digitsFrom_append_rest 16 hr 0 (d :: s)
        have hoct := digitsFrom_append_rest 8 hr 0 (x :: d :: s)
        rw [List.cons_append] at hhex
        rw [List.cons_append, List.cons_append] at hoct
        rw [List.cons_append, List.cons_append, List.cons_append, magnitude, magnitude, hhex, hoct]
      · rw [magnitude_of_ne hc, List.cons_append, magnitude_of_ne hc]
        exact digitsFrom_append_rest _ hr 0 (c :: x :: d :: s)

/-- A number is read up to the first blank. -/
theorem strtol_append {w r : Bytes} (hw : Word isSpace colon w) (hr : Rest isSpace r) :
    strtol (w ++ r) = strtol w := by
  have htrim : ∀ r, (w ++ r).dropWhile isSpace = w ++ r := fun r => hw.trim r
  have htrim' := htrim []
  rw [List.append_nil] at htrim'
  cases w with
  | nil => exact absurd rfl hw.1
  | cons c w =>
    have hspace : isSpace c = false := hw.2.1 c List.mem_cons_self
    by_cases hsign : c = 45 ∨ c = 43
    · have htail := magnitude_append hr w
      rw [strtol, strtol, htrim, htrim', List.cons_append]
      rcases hsign with rfl | rfl
      · simp only [htail]
      · simp only [htail]
    · rw [not_or] at hsign
      have hall := magnitude_append hr (c :: w)
      rw [List.cons_append] at hall ⊢
      rw [strtol_of_ne hspace hsign.1 hsign.2, strtol_of_ne hspace hsign.1 hsign.2, hall]

theorem strtol_trim (arg : Bytes) : strtol (trim isSpace arg) = strtol arg := by
  have htrim : (trim isSpace arg).dropWhile isSpace = arg.dropWhile isSpace := trim_trim arg
  rw [strtol, strtol, htrim]

/-- A limit is read from the first argument as it was read from the whole text. -/
theorem limitOf_firstArg {arg : Bytes} (h : limitOf arg ≠ 0) :
    ∃ w, firstArg arg = some w ∧ limitOf w = limitOf arg := by
  rw [limitOf, strConvInt, ← strtol_trim] at h
  cases harg : trim isSpace arg with
  | nil =>
    rw [harg] at h
    exact absurd (by decide) h
  | cons c l =>
    rw [harg] at h
    by_cases hc : c = colon
    · subst hc
      have hzero : strtol (colon :: l) = some 0 := rfl
      rw [hzero] at h
      exact absurd (by decide) h
    · have hfirst : firstArg arg = some (word isSpace (c :: l)) := by
        rw [firstArg, harg, fieldsRaw_succ, if_neg hc]
        rfl
      have hspace : isSpace c = false := sep_head_trim harg
      have hword : Word isSpace colon (word isSpace (c :: l)) := by
        refine ⟨by simp [word, hspace], fun d hd => sep_of_mem_word hd, ?_⟩
        simpa [word, hspace] using hc
      have hrest : Rest isSpace (afterWord isSpace (c :: l)) := by
        cases hafter : afterWord isSpace (c :: l) with
        | nil => trivial
        | cons d r => exact sep_head_afterWord hafter
      have happend := strtol_append hword hrest
      rw [word_append_afterWord] at happend
      refine ⟨_, hfirst, ?_⟩
      rw [limitOf, limitOf, strConvInt, strConvInt, ← happend, ← strtol_trim arg, harg]

/-! ### The name of a channel -/

theorem isWord_hashC : IsWord (bytes "#c") := by decide +kernel

theorem length_hashC : (bytes "#c").length ≤ CHANLEN := by decide

end Ithildin
