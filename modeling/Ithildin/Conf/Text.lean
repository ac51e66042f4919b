import Ithildin.CString
import Mathlib.Data.List.TakeDrop

/-!
# Text of a configuration file

What is done to the characters before and after the parsing proper: comments go, and the text of a
value loses its quotes, its escapes and its spare whitespace.

* `confPreparse`: `conf_preparse`;
* `confExpandText`: `conf_expand_text`;
* `lexState`: strings, comments and escapes, one character after another;
* `confPreparse_endsAt`: `conf_preparse` goes past the end of just those texts that end in the midst
  of an escape, and rejects just those that end in a string or a comment.
-/

namespace Ithildin

/-- What `conf_preparse` comes to: a new text, NULL, or an access outside the text. -/
inductive Preparsed
  | text (s : Bytes)
  | failed
  | outside
  deriving DecidableEq

/-- A character is copied. -/
def Preparsed.push (c : UInt8) : Preparsed → Preparsed
  | .text s => .text (c :: s)
  | p => p

/-- How much has been copied. -/
def Preparsed.size : Preparsed → ℕ
  | .text s => s.length
  | _ => 0

theorem size_push_le {p : Preparsed} {c : UInt8} {n : ℕ} (h : p.size ≤ n) :
    (p.push c).size ≤ n + 1 := by
  cases p with
  | text s => exact Nat.succ_le_succ h
  | failed | outside => exact Nat.zero_le _

/-- Where the loop of `conf_preparse` is: `instring` and `incomment`, and the loop inside it that
goes to the end of a line. -/
inductive PreMode
  | plain
  | string
  | comment
  | line
  deriving DecidableEq

/-- A quote was read. -/
def PreMode.toggle : PreMode → PreMode
  | .plain => .string
  | .string => .plain
  | m => m

/-- The loop of `conf_preparse`. Behind a backslash the next character is copied unseen, be it the
terminator. -/
def preparseLoop : PreMode → Bytes → Preparsed
  | .plain, [] => .text []
  | .line, [] => .text []
  | .string, [] => .failed
  | .comment, [] => .failed
  | .line, c :: s =>
      if c = 10 then (preparseLoop .plain s).push c else preparseLoop .line s
  | .comment, c :: s =>
      if c = 10 then (preparseLoop .comment s).push c
      else if c = 42 then
        match s with
        | 47 :: s' => preparseLoop .plain s'
        | s => preparseLoop .comment s
      else preparseLoop .comment s
  | .string, c :: s =>
      if c = 34 then (preparseLoop .plain s).push c
      else if c = 92 then
        match s with
        | [] => .outside
        | d :: s' => ((preparseLoop .string s').push d).push c
      else (preparseLoop .string s).push c
  | .plain, c :: s =>
      if c = 34 then (preparseLoop .string s).push c
      else if c = 92 then
        match s with
        | [] => .outside
        | d :: s' => ((preparseLoop .plain s').push d).push c
      else if c = 35 then preparseLoop .line s
      else if c = 47 then
        match s with
        | 47 :: s' => preparseLoop .line s'
        | 42 :: s' => preparseLoop .comment s'
        | s => (preparseLoop .plain s).push c
      else (preparseLoop .plain s).push c

section
variable {c : UInt8} (s : Bytes)

theorem preparseLoop_plain (hquote : c ≠ 34) (hback : c ≠ 92) (hhash : c ≠ 35) (hslash : c ≠ 47) :
    preparseLoop .plain (c :: s) = (preparseLoop .plain s).push c := by
  rw [preparseLoop.eq_def]
  dsimp only
  rw [if_neg hquote, if_neg hback, if_neg hhash, if_neg hslash]

theorem preparseLoop_plain_quote :
    preparseLoop .plain (34 :: s) = (preparseLoop .string s).push 34 := by
  rw [preparseLoop.eq_def]
  exact if_pos rfl

theorem preparseLoop_string (hquote : c ≠ 34) (hback : c ≠ 92) :
    preparseLoop .string (c :: s) = (preparseLoop .string s).push c := by
  rw [preparseLoop.eq_def]
  dsimp only
  rw [if_neg hquote, if_neg hback]

theorem preparseLoop_string_quote :
    preparseLoop .string (34 :: s) = (preparseLoop .plain s).push 34 := by
  rw [preparseLoop.eq_def]
  exact if_pos rfl

theorem preparseLoop_string_escape (c : UInt8) :
    preparseLoop .string (92 :: c :: s) = ((preparseLoop .string s).push c).push 92 := by
  rw [preparseLoop.eq_def]
  exact (if_neg (by decide)).trans (if_pos rfl)

end

/-- `conf_preparse`: the new text has as much room as the old. -/
def confPreparse (oldstr : Bytes) : Preparsed :=
  match preparseLoop .plain oldstr with
  | .text s => if s.length ≤ oldstr.length then .text s else .outside
  | p => p

/-- The escapes of quoted text. -/
def unescape (c : UInt8) : UInt8 :=
  if c = 97 then 7
  else if c = 98 then 8
  else if c = 102 then 12
  else if c = 110 then 10
  else if c = 114 then 13
  else if c = 116 then 9
  else if c = 118 then 11
  else c

/-- The loop of `conf_expand_text`, in quoted text or not. -/
def expandLoop : Bool → Bytes → Bytes
  | _, [] => []
  | true, c :: s =>
      if c = 92 then
        match s with
        | [] => [92]
        | d :: s' => unescape d :: expandLoop true s'
      else if c = 34 then expandLoop false s
      else c :: expandLoop true s
  | false, c :: s =>
      if c = 34 then expandLoop true s
      else if isSpace c then
        -- one blank stands for a run of whitespace, and none for one at the end
        match s with
        | [] => []
        | d :: s' =>
            if isSpace d then expandLoop false (d :: s') else 32 :: expandLoop false (d :: s')
      else c :: expandLoop false s

/-- `conf_expand_text`. -/
def confExpandText (str : Bytes) : Bytes := expandLoop false str

/-! ### Strings, comments and escapes -/

/-- Where a text may end: in code, after a slash that may begin a comment, in a string, in one of
the two sorts of comments, after a star in a comment, or between a backslash and what it escapes. -/
inductive Lex
  | code
  | slash
  | string
  | line
  | comment
  | star
  | escape (inString : Bool)
  deriving DecidableEq

/-- The next character, in code. -/
def Lex.fromCode (c : UInt8) : Lex :=
  if c = 34 then .string
  else if c = 92 then .escape false
  else if c = 35 then .line
  else if c = 47 then .slash
  else .code

/-- The next character. -/
def Lex.next : Lex → UInt8 → Lex
  | .code, c => .fromCode c
  | .slash, c => if c = 47 then .line else if c = 42 then .comment else .fromCode c
  | .string, c => if c = 34 then .code else if c = 92 then .escape true else .string
  | .line, c => if c = 10 then .code else .line
  | .comment, c => if c = 42 then .star else .comment
  | .star, c => if c = 47 then .code else if c = 42 then .star else .comment
  | .escape inString, _ => if inString then .string else .code

/-- Where a text ends. -/
def lexState (text : Bytes) : Lex := text.foldl Lex.next .code

/-- The place in the text that a mode of the loop stands for. -/
def PreMode.lex : PreMode → Lex
  | .plain => .code
  | .string => .string
  | .comment => .comment
  | .line => .line

/-- What comes of a text that ends there. -/
def Preparsed.EndsAt (p : Preparsed) : Lex → Prop
  | .code | .slash | .line => ∃ s, p = .text s
  | .string | .comment | .star => p = .failed
  | .escape _ => p = .outside

section
variable {p : Preparsed} {l : Lex} {c : UInt8} {m : PreMode} {text s : Bytes}

theorem Preparsed.EndsAt.push (h : p.EndsAt l) (c : UInt8) : (p.push c).EndsAt l := by
  cases l with
  | code | slash | line =>
    obtain ⟨s, rfl⟩ := h
    exact ⟨c :: s, rfl⟩
  | string | comment | star | escape =>
    obtain rfl := h
    rfl

/-- A star in a comment counts only before a slash. -/
theorem endsAt_star (h : ∀ s', s ≠ 47 :: s') (hp : p.EndsAt (s.foldl Lex.next .comment)) :
    p.EndsAt (s.foldl Lex.next .star) := by
  cases s with
  | nil => exact hp
  | cons c s =>
    have hc : c ≠ 47 := by
      rintro rfl
      exact h s rfl
    simpa only [List.foldl_cons, Lex.next, if_neg hc] using hp

/-- A slash in code counts only before a slash or a star. -/
theorem endsAt_slash (h : ∀ s', s ≠ 47 :: s') (h' : ∀ s', s ≠ 42 :: s')
    (hp : p.EndsAt (s.foldl Lex.next .code)) : p.EndsAt (s.foldl Lex.next .slash) := by
  cases s with
  | nil => exact hp
  | cons c s =>
    have hc : c ≠ 47 := by
      rintro rfl
      exact h s rfl
    have hc' : c ≠ 42 := by
      rintro rfl
      exact h' s rfl
    simpa only [List.foldl_cons, Lex.next, if_neg hc, if_neg hc'] using hp

/-- The loop agrees with the strings, comments and escapes of the text. -/
theorem preparseLoop_endsAt (m : PreMode) (text : Bytes) :
    (preparseLoop m text).EndsAt (text.foldl Lex.next m.lex) := by
  fun_induction preparseLoop m text with
  | case1 => exact ⟨[], rfl⟩
  | case2 => exact ⟨[], rfl⟩
  | case3 => rfl
  | case4 => rfl
  | case5 s ih => exact ih.push 10
  | case6 c s hc ih => simpa only [List.foldl_cons, PreMode.lex, Lex.next, if_neg hc] using ih
  | case7 s ih => exact ih.push 10
  | case8 s _ ih => exact ih
  | case9 s hs _ ih => exact endsAt_star hs ih
  | case10 c s _ hc ih => simpa only [List.foldl_cons, PreMode.lex, Lex.next, if_neg hc] using ih
  | case11 s ih => exact ih.push 34
  | case12 => rfl
  | case13 d s _ ih => exact (ih.push d).push 92
  | case14 c s hc hc' ih =>
    simpa only [List.foldl_cons, PreMode.lex, Lex.next, if_neg hc, if_neg hc'] using ih.push c
  | case15 s ih => exact ih.push 34
  | case16 => rfl
  | case17 d s _ ih => exact (ih.push d).push 92
  | case18 s _ _ ih => exact ih
  | case19 s _ _ _ ih => exact ih
  | case20 s _ _ _ ih => exact ih
  | case21 s hs hs' _ _ _ ih => exact endsAt_slash hs hs' (ih.push 47)
  | case22 c s hquote hback hhash hslash ih =>
    simpa only [List.foldl_cons, PreMode.lex, Lex.next, Lex.fromCode, if_neg hquote, if_neg hback,
      if_neg hhash, if_neg hslash] using ih.push c

/-- The new text is no longer than the old. -/
theorem size_preparseLoop_le (m : PreMode) (text : Bytes) :
    (preparseLoop m text).size ≤ text.length := by
  fun_induction preparseLoop m text with
  | case1 | case2 | case3 | case4 | case12 | case16 => exact Nat.zero_le _
  | case6 c s _ ih | case9 s _ _ ih | case10 c s _ _ ih | case18 s _ _ ih =>
    exact Nat.le_succ_of_le ih
  | case8 s _ ih | case19 s _ _ _ ih | case20 s _ _ _ ih =>
    exact Nat.le_succ_of_le (Nat.le_succ_of_le ih)
  | case5 s ih | case7 s ih | case11 s ih | case14 c s _ _ ih | case15 s ih
  | case21 s _ _ _ _ _ ih | case22 c s _ _ _ _ ih => exact size_push_le ih
  | case13 d s _ ih | case17 d s _ ih => exact size_push_le (size_push_le ih)

/-- What `conf_preparse` comes to is told by where the text ends. -/
theorem confPreparse_endsAt (text : Bytes) : (confPreparse text).EndsAt (lexState text) := by
  have hends := preparseLoop_endsAt .plain text
  have hsize := size_preparseLoop_le .plain text
  rw [confPreparse]
  split
  · rename_i s hs
    rw [hs] at hends hsize
    rw [if_pos (show s.length ≤ text.length from hsize)]
    exact hends
  · exact hends

/-- The end is gone past exactly in the midst of an escape. -/
theorem confPreparse_eq_outside :
    confPreparse text = .outside ↔ ∃ inString, lexState text = .escape inString := by
  have h := confPreparse_endsAt text
  constructor
  · intro hout
    rw [hout] at h
    cases hl : lexState text with
    | escape inString => exact ⟨inString, rfl⟩
    | code | slash | line =>
      rw [hl] at h
      obtain ⟨s, hs⟩ := h
      cases hs
    | string | comment | star =>
      rw [hl] at h
      cases h
  · rintro ⟨inString, hl⟩
    rw [hl] at h
    exact h

/-- The text of a value is no longer than what it is read from. -/
theorem length_expandLoop_le (quoted : Bool) (text : Bytes) :
    (expandLoop quoted text).length ≤ text.length := by
  fun_induction expandLoop quoted text <;> simp only [List.length_cons, List.length_nil] at * <;>
    omega

end

end Ithildin
