import Ithildin.Match
import Mathlib.Data.List.Infix

/-!
# Matching of hosts against masks

`hostmatch` of `string.c`: `match` with bracketed classes and alternatives in parentheses.

* `collate`, `alternate`: what a class and a group of alternatives take;
* `hostmatch`: the matcher;
* `hostmatch_suffix`: the literal end of a mask is the end of whatever the mask matches.
-/

namespace Ithildin

/-- `MAX_HOSTMATCH_DEPTH`. -/
def MAX_HOSTMATCH_DEPTH : ℕ := 32

/-- The byte `'['`. -/
def openBracket : UInt8 := 91

/-- The byte `']'`. -/
def closeBracket : UInt8 := 93

/-- The byte `'('`. -/
def openParen : UInt8 := 40

/-- The byte `')'`. -/
def closeParen : UInt8 := 41

/-- The byte `'|'`. -/
def bar : UInt8 := 124

/-- `isalpha` of the C locale. -/
def isAlpha (c : UInt8) : Bool := (65 ≤ c && c ≤ 90) || (97 ≤ c && c ≤ 122)

/-- `isdigit`. -/
def isDigit (c : UInt8) : Bool := 48 ≤ c && c ≤ 57

/-- `!strncasecmp(text, word, strlen(word))`. -/
def startsNoCase (word text : Bytes) : Bool :=
  (text.take word.length).map toLower == word.map toLower

/-- What follows the first `b` of a mask, if there is one. -/
def behindByte (b : UInt8) : Bytes → Option Bytes
  | [] => none
  | c :: s => if c = b then some s else behindByte b s

/-- Whether the class at the start of `wild`, read up to its `']'`, takes the byte `x`.  After
`[:alpha:]` and `[:number:]` the source goes on to look for `x` from the end of the class on, be it
past the terminator of the mask, and stops at the first one there: it is found. -/
def collate (wild : Bytes) (x : UInt8) : Bool :=
  if startsNoCase (bytes ":alpha:") wild then isAlpha x
  else if startsNoCase (bytes ":number:") wild then isDigit x
  else if startsNoCase (bytes ":alnum:") wild then isAlpha x || isDigit x
  else (wild.takeWhile (· != closeBracket)).any fun c => toUpper c == toUpper x

/-- The text behind the first of the alternatives that it starts with. -/
def alternate : List Bytes → Bytes → Option Bytes
  | [], _ => none
  | alt :: alts, string =>
      if startsNoCase alt string then some (string.drop alt.length) else alternate alts string

/-- `while (*string)` before a class or a group: some place from which the mask matches. -/
def scanAll (deeper : Bytes → Bytes → Bool) (wild : Bytes) : Bytes → Bool
  | [] => false
  | x :: string => deeper wild (x :: string) || scanAll deeper wild string

/-- The loop of `_hostmatch`; every round shortens the mask. -/
def hostLoop (deeper : Bytes → Bytes → Bool) : ℕ → Bytes → Bytes → Bool
  | 0, _, _ => false
  | _ + 1, [], string => string.isEmpty
  | n + 1, c :: wild, string =>
      if c = star then
        match swallow (wild.dropWhile (· == star)) string with
        | ([], _) => true
        | (d :: wild, string) =>
            if d = star then hostLoop deeper n (d :: wild) string
            else if d = openParen ∨ d = openBracket then scanAll deeper (d :: wild) string
            else scanFor deeper d wild string
      else
        match string with
        | [] => false
        | x :: string =>
            if c = openBracket then
              match behindByte closeBracket wild with
              | none => false
              | some rest => collate wild x && hostLoop deeper n rest string
            else if c = openParen then
              match behindByte closeParen wild with
              | none => false
              | some rest =>
                  match
                    alternate ((wild.takeWhile (· != closeParen)).splitOn bar) (x :: string) with
                  | none => false
                  | some string => hostLoop deeper n rest string
            else if c ≠ question ∧ toUpper x ≠ toUpper c then false
            else hostLoop deeper n wild string

/-- `_hostmatch`, with this many levels of recursion left. -/
def hostDepth : ℕ → Bytes → Bytes → Bool
  | 0, _, _ => false
  | depth + 1, wild, string => hostLoop (hostDepth depth) (wild.length + 1) wild string

/-- `hostmatch`; it is the string, not the mask, that is compared with `"*"`. -/
def hostmatch (wild string : Bytes) : Bool :=
  string == [star] || hostDepth MAX_HOSTMATCH_DEPTH wild string

theorem behindByte_append {b : UInt8} {w : Bytes} (h : b ∉ w) (rest : Bytes) :
    behindByte b (w ++ b :: rest) = some rest := by
  induction w with
  | nil => rw [List.nil_append, behindByte, if_pos rfl]
  | cons c w ih =>
    rw [List.cons_append, behindByte, if_neg (List.ne_of_not_mem_cons h).symm,
      ih (List.not_mem_of_not_mem_cons h)]

/-! ### The literal end of a mask -/

/-- Text that stands for itself in a mask. -/
def Literal (w : Bytes) : Prop :=
  ∀ c ∈ w, c ≠ star ∧ c ≠ question ∧ c ≠ openBracket ∧ c ≠ closeBracket ∧
    c ≠ openParen ∧ c ≠ closeParen

/-- The string ends in the text, up to the case that `touppertab` ignores. -/
def EndsIn (w string : Bytes) : Prop :=
  ∃ t, t <:+ string ∧ t.map toUpper = w.map toUpper

theorem EndsIn.of_suffix {w s t : Bytes} (h : EndsIn w s) (hs : s <:+ t) : EndsIn w t := by
  obtain ⟨u, hu, heq⟩ := h
  exact ⟨u, hu.trans hs, heq⟩

theorem suffix_behindByte {b : UInt8} {w mask rest : Bytes} (hw : w <:+ mask) (hb : b ∉ w)
    (h : behindByte b mask = some rest) : w <:+ rest := by
  induction mask with
  | nil => cases h
  | cons c mask ih =>
    rcases List.suffix_cons_iff.1 hw with rfl | htail
    · -- the byte would be in the text
      exfalso
      clear hw ih
      generalize c :: mask = l at hb h
      induction l with
      | nil => cases h
      | cons d l ih =>
        rw [behindByte, if_neg (Ne.symm (List.ne_of_not_mem_cons hb))] at h
        exact ih (List.not_mem_of_not_mem_cons hb) h
    · rw [behindByte] at h
      split at h
      · cases h
        exact htail
      · exact ih htail h

theorem suffix_dropWhile {p : UInt8 → Bool} {w mask : Bytes} (hw : w <:+ mask)
    (hp : ∀ c ∈ w, p c = false) : w <:+ mask.dropWhile p := by
  induction mask with
  | nil => exact hw
  | cons c mask ih =>
    rcases List.suffix_cons_iff.1 hw with rfl | htail
    · rw [List.dropWhile_cons_of_neg (by simp [hp c])]
    · rw [List.dropWhile_cons]
      split
      · exact ih htail
      · exact hw

theorem suffix_swallow {w mask : Bytes} (string : Bytes) (hw : w <:+ mask) (hq : question ∉ w) :
    w <:+ (swallow mask string).1 ∧ (swallow mask string).2 <:+ string := by
  induction mask generalizing string with
  | nil => exact ⟨hw, List.suffix_refl _⟩
  | cons c mask ih =>
    cases string with
    | nil => exact ⟨hw, List.suffix_refl _⟩
    | cons x string =>
      rw [swallow]
      split
      · rename_i hc
        rcases List.suffix_cons_iff.1 hw with rfl | htail
        · exact absurd (by simp [hc]) hq
        · obtain ⟨hmask, hstring⟩ := ih string htail
          exact ⟨hmask, hstring.trans (List.suffix_cons x string)⟩
      · exact ⟨hw, List.suffix_refl _⟩

theorem exists_of_scanFor {deeper : Bytes → Bytes → Bool} {c : UInt8} {mask string : Bytes}
    (h : scanFor deeper c mask string = true) :
    ∃ x t, x :: t <:+ string ∧ toUpper x = toUpper c ∧ deeper mask t = true := by
  induction string with
  | nil => cases h
  | cons x string ih =>
    simp only [scanFor, Bool.or_eq_true, Bool.and_eq_true, beq_iff_eq] at h
    rcases h with ⟨hx, hdeep⟩ | h
    · exact ⟨x, string, List.suffix_refl _, hx, hdeep⟩
    · obtain ⟨y, t, ht, hy⟩ := ih h
      exact ⟨y, t, ht.trans (List.suffix_cons x string), hy⟩

theorem exists_of_scanAll {deeper : Bytes → Bytes → Bool} {mask string : Bytes}
    (h : scanAll deeper mask string = true) : ∃ t, t <:+ string ∧ deeper mask t = true := by
  induction string with
  | nil => cases h
  | cons x string ih =>
    simp only [scanAll, Bool.or_eq_true] at h
    rcases h with h | h
    · exact ⟨x :: string, List.suffix_refl _, h⟩
    · obtain ⟨t, ht, hdeep⟩ := ih h
      exact ⟨t, ht.trans (List.suffix_cons x string), hdeep⟩

theorem suffix_alternate {alts : List Bytes} {string rest : Bytes}
    (h : alternate alts string = some rest) : rest <:+ string := by
  induction alts with
  | nil => cases h
  | cons alt alts ih =>
    rw [alternate] at h
    split at h
    · cases h
      exact List.drop_suffix _ _
    · exact ih h

/-- What a matcher owes to the literal end of a mask: the string ends in it, and is it when the mask
is all literal. -/
def RespectsEnds (matcher : Bytes → Bytes → Bool) : Prop :=
  ∀ mask string w, matcher mask string = true → Literal w → w <:+ mask →
    EndsIn w string ∧ (mask = w → string.map toUpper = w.map toUpper)

/-- A round that takes a star reaches the literal end from some later place of the string. -/
theorem endsIn_of_star {deeper : Bytes → Bytes → Bool} {n : ℕ} {mask string w : Bytes}
    (hdeeper : RespectsEnds deeper) (hloop : RespectsEnds (hostLoop deeper n)) (hlit : Literal w)
    (hw : w <:+ mask) (h : hostLoop deeper (n + 1) (star :: mask) string = true) :
    EndsIn w string := by
  have hstars : w <:+ mask.dropWhile (· == star) :=
    suffix_dropWhile hw fun c hc => by simp [(hlit c hc).1]
  have hswallow := suffix_swallow string hstars fun hq => (hlit _ hq).2.1 rfl
  simp only [hostLoop, if_true] at h
  generalize swallow (mask.dropWhile (· == star)) string = out at h hswallow
  obtain ⟨rest, t⟩ := out
  obtain ⟨hrest, ht⟩ := hswallow
  cases rest with
  | nil =>
    obtain rfl : w = [] := List.suffix_nil.1 hrest
    exact ⟨[], List.nil_suffix, rfl⟩
  | cons d rest =>
    dsimp only at h hrest ht
    split at h
    · exact (hloop _ _ w h hlit hrest).1.of_suffix ht
    · split at h
      · obtain ⟨u, hu, hdeep⟩ := exists_of_scanAll h
        exact (hdeeper _ _ w hdeep hlit hrest).1.of_suffix (hu.trans ht)
      · obtain ⟨x, u, hu, hx, hdeep⟩ := exists_of_scanFor h
        rcases List.suffix_cons_iff.1 hrest with rfl | htail
        · have hlit' : Literal rest := fun e he => hlit e (List.mem_cons_of_mem d he)
          have hall := (hdeeper _ _ rest hdeep hlit' (List.suffix_refl _)).2 rfl
          refine ⟨x :: u, hu.trans ht, ?_⟩
          rw [List.map_cons, List.map_cons, hx, hall]
        · have hshort : u <:+ t := (List.suffix_cons x u).trans hu
          exact (hdeeper _ _ w hdeep hlit htail).1.of_suffix (hshort.trans ht)

/-- Any other round moves on to a later place of mask and string. -/
theorem exists_of_round {deeper : Bytes → Bytes → Bool} {n : ℕ} {c x : UInt8}
    {mask string w : Bytes} (hlit : Literal w) (hw : w <:+ mask) (hc : c ≠ star)
    (h : hostLoop deeper (n + 1) (c :: mask) (x :: string) = true) :
    ∃ rest t, w <:+ rest ∧ t <:+ x :: string ∧ hostLoop deeper n rest t = true := by
  rw [hostLoop, if_neg hc] at h
  split at h
  · -- a class
    split at h
    · cases h
    · rename_i rest hrest
      rw [Bool.and_eq_true] at h
      have hclose : closeBracket ∉ w := fun hmem => (hlit _ hmem).2.2.2.1 rfl
      exact ⟨rest, string, suffix_behindByte hw hclose hrest, List.suffix_cons x string, h.2⟩
  · split at h
    · -- a group of alternatives
      split at h
      · cases h
      · rename_i rest hrest
        split at h
        · cases h
        · rename_i t ht
          have hclose : closeParen ∉ w := fun hmem => (hlit _ hmem).2.2.2.2.2 rfl
          exact ⟨rest, t, suffix_behindByte hw hclose hrest, suffix_alternate ht, h⟩
    · split at h
      · cases h
      · exact ⟨mask, string, hw, List.suffix_cons x string, h⟩

theorem respectsEnds_hostLoop {deeper : Bytes → Bytes → Bool} (hdeeper : RespectsEnds deeper)
    (n : ℕ) : RespectsEnds (hostLoop deeper n) := by
  induction n with
  | zero =>
    intro mask string w h
    cases h
  | succ n ih =>
    intro mask string w h hlit hw
    cases mask with
    | nil =>
      obtain rfl : w = [] := List.suffix_nil.1 hw
      obtain rfl : string = [] := by simpa [hostLoop] using h
      exact ⟨⟨[], List.suffix_refl _, rfl⟩, fun _ => rfl⟩
    | cons c mask =>
      rcases List.suffix_cons_iff.1 hw with rfl | htail
      · -- the whole mask is literal
        obtain ⟨hstar, hquestion, hbracket, -, hparen, -⟩ := hlit c List.mem_cons_self
        cases string with
        | nil => simp [hostLoop, hstar] at h
        | cons x string =>
          simp only [hostLoop, hstar, hbracket, hparen, hquestion, if_false, ne_eq,
            not_false_eq_true, true_and, ite_not] at h
          split at h
          · rename_i hx
            have hmask : Literal mask := fun d hd => hlit d (List.mem_cons_of_mem c hd)
            have hrest := (ih mask string mask h hmask (List.suffix_refl _)).2 rfl
            have hall : (x :: string).map toUpper = (c :: mask).map toUpper := by
              rw [List.map_cons, List.map_cons, hx, hrest]
            exact ⟨⟨x :: string, List.suffix_refl _, hall⟩, fun _ => hall⟩
          · cases h
      · -- the round takes something in front of the literal end
        refine ⟨?_, ?_⟩
        · by_cases hc : c = star
          · subst hc
            exact endsIn_of_star hdeeper ih hlit htail h
          · cases string with
            | nil => simp [hostLoop, hc] at h
            | cons x string =>
              obtain ⟨rest, t, hrest, ht, hloop⟩ := exists_of_round hlit htail hc h
              exact (ih rest t w hloop hlit hrest).1.of_suffix ht
        · rintro rfl
          exact absurd htail.length_le (by simp)

theorem respectsEnds_hostDepth (depth : ℕ) : RespectsEnds (hostDepth depth) := by
  induction depth with
  | zero =>
    intro mask string w h
    cases h
  | succ depth ih =>
    intro mask string w h
    exact respectsEnds_hostLoop ih _ mask string w h

/-- A string that a mask matches ends in the literal end of the mask, and is no longer than it when
all of the mask is literal. -/
theorem hostmatch_suffix {mask string w : Bytes} (h : hostmatch mask string = true)
    (hstring : string ≠ [star]) (hlit : Literal w) (hw : w <:+ mask) :
    EndsIn w string ∧ (mask = w → string.map toUpper = w.map toUpper) := by
  have hdepth : hostDepth MAX_HOSTMATCH_DEPTH mask string = true := by
    simpa [hostmatch, hstring] using h
  exact respectsEnds_hostDepth _ mask string w hdepth hlit hw

end Ithildin
