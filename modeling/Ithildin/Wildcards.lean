import Ithildin.Hostmatch
import Ithildin.Lib.Glob

/-!
# What masks match

The reading of a mask as a pattern, and that the matchers of `string.c` find what it matches as long
as their recursion does not run out.

* `maskPieces`, `hostPieces`: the patterns that `match` and `hostmatch` read;
* `GlobMatches`: the strings that such a pattern matches, up to a table of cases;
* `stringMatch_iff`, `hostmatch_iff`: what the matchers return, exactly;
* `stringMatch_glob`: `match` as it is meant.
-/

namespace Ithildin

open Glob Glob.Piece

/-- What stands in a mask besides the wildcards. -/
inductive MaskPart
  | lit (c : UInt8)
  /-- The class at the start of this text. -/
  | collation (wild : Bytes)
  | group (alts : List Bytes)
  | unclosed

/-- What a part leaves of a string that is not empty; letters are compared through `fold`. -/
def MaskPart.takes (fold : UInt8 → UInt8) : MaskPart → Bytes → Option Bytes
  | _, [] => none
  | lit c, x :: string => if fold x = fold c then some string else none
  | collation wild, x :: string => if collate wild x then some string else none
  | group alts, x :: string => alternate alts (x :: string)
  | unclosed, _ :: _ => none

/-- A byte of a mask that opens neither a class nor a group. -/
def plainPiece (c : UInt8) : Piece MaskPart :=
  if c = star then many else if c = question then one else part (.lit c)

/-- A mask of `match`. -/
def maskPieces (wild : Bytes) : List (Piece MaskPart) := wild.map plainPiece

theorem length_lt_of_behindByte {b : UInt8} {wild rest : Bytes}
    (h : behindByte b wild = some rest) : rest.length < wild.length := by
  induction wild with
  | nil => cases h
  | cons c wild ih =>
    unfold behindByte at h
    split at h
    · cases h
      simp
    · have := ih h
      simp only [List.length_cons]
      omega

/-- A mask of `hostmatch`. -/
def hostPieces : Bytes → List (Piece MaskPart)
  | [] => []
  | c :: wild =>
      if c = openBracket then
        match _h : behindByte closeBracket wild with
        | none => [part .unclosed]
        | some rest => part (.collation wild) :: hostPieces rest
      else if c = openParen then
        match _h : behindByte closeParen wild with
        | none => [part .unclosed]
        | some rest =>
            part (.group ((wild.takeWhile (· != closeParen)).splitOn bar)) :: hostPieces rest
      else plainPiece c :: hostPieces wild
termination_by wild => wild.length
decreasing_by
  · have := length_lt_of_behindByte _h
    simp only [List.length_cons]
    omega
  · have := length_lt_of_behindByte _h
    simp only [List.length_cons]
    omega
  · simp

/-- What a pattern matches when letters are compared through `fold`. -/
def GlobMatches (fold : UInt8 → UInt8) (p : List (Piece MaskPart)) (string : Bytes) : Prop :=
  Matches (MaskPart.takes fold) p string

/-- The groups of `'*'` in a mask: every group has one `'*'` with no `'*'` behind it. -/
def starGroups : Bytes → ℕ
  | [] => 0
  | c :: wild => starGroups wild + if c = star ∧ wild.head? ≠ some star then 1 else 0

/-! ### Reading a mask -/

@[simp] theorem takes_nil {fold : UInt8 → UInt8} {b : MaskPart} : b.takes fold [] = none := by
  cases b <;> rfl

theorem takes_suffix {fold : UInt8 → UInt8} {b : MaskPart} {s t : Bytes}
    (h : b.takes fold s = some t) : t <:+ s := by
  cases s with
  | nil => simp at h
  | cons x s =>
    cases b with
    | lit c =>
      obtain ⟨-, rfl⟩ := by simpa [MaskPart.takes] using h
      exact List.suffix_cons x s
    | collation wild =>
      obtain ⟨-, rfl⟩ := by simpa [MaskPart.takes] using h
      exact List.suffix_cons x s
    | group alts => exact suffix_alternate h
    | unclosed => cases h

theorem plainPiece_of_ne {c : UInt8} (hstar : c ≠ star) (hquestion : c ≠ question) :
    plainPiece c = part (.lit c) := by
  simp [plainPiece, hstar, hquestion]

@[simp] theorem maskPieces_nil : maskPieces [] = [] := rfl

@[simp] theorem maskPieces_cons (c : UInt8) (wild : Bytes) :
    maskPieces (c :: wild) = plainPiece c :: maskPieces wild := rfl

@[simp] theorem plainPiece_star : plainPiece star = many := rfl

@[simp] theorem plainPiece_question : plainPiece question = one := rfl

@[simp] theorem hostPieces_nil : hostPieces [] = [] := by simp [hostPieces]

theorem hostPieces_plain {c : UInt8} (hbracket : c ≠ openBracket) (hparen : c ≠ openParen)
    (wild : Bytes) : hostPieces (c :: wild) = plainPiece c :: hostPieces wild := by
  rw [hostPieces]
  simp [hbracket, hparen]

@[simp] theorem hostPieces_star (wild : Bytes) :
    hostPieces (star :: wild) = many :: hostPieces wild :=
  hostPieces_plain (by decide) (by decide) wild

@[simp] theorem hostPieces_question (wild : Bytes) :
    hostPieces (question :: wild) = one :: hostPieces wild :=
  hostPieces_plain (by decide) (by decide) wild

theorem hostPieces_bracket (wild : Bytes) :
    hostPieces (openBracket :: wild) =
      match behindByte closeBracket wild with
      | none => [part .unclosed]
      | some rest => part (.collation wild) :: hostPieces rest := by
  rw [hostPieces, if_pos rfl]
  split <;> rename_i h <;> rw [h]

theorem hostPieces_paren (wild : Bytes) :
    hostPieces (openParen :: wild) =
      match behindByte closeParen wild with
      | none => [part .unclosed]
      | some rest =>
          part (.group ((wild.takeWhile (· != closeParen)).splitOn bar)) :: hostPieces rest := by
  rw [hostPieces, if_neg (by decide), if_pos rfl]
  split <;> rename_i h <;> rw [h]

/-! ### The rounds of the matchers -/

/-- What a matcher with this many levels of recursion left should do. -/
def Exact (pieces : Bytes → List (Piece MaskPart)) (levelsLeft : ℕ)
    (matcher : Bytes → Bytes → Bool) : Prop :=
  ∀ wild string, matcher wild string = true ↔
    GlobMatches toUpper (pieces wild) string ∧ levels false (pieces wild) < levelsLeft

/-- How a mask with wildcards in front is read. -/
structure Reads (pieces : Bytes → List (Piece MaskPart)) : Prop where
  ofStar : ∀ wild, pieces (star :: wild) = many :: pieces wild
  ofQuestion : ∀ wild, pieces (question :: wild) = one :: pieces wild

theorem reads_maskPieces : Reads maskPieces := ⟨fun _ => rfl, fun _ => rfl⟩

theorem reads_hostPieces : Reads hostPieces := ⟨hostPieces_star, hostPieces_question⟩

/-- Further stars add nothing to the one in front of them. -/
theorem Reads.skipStars {pieces : Bytes → List (Piece MaskPart)} (hreads : Reads pieces)
    (fold : UInt8 → UInt8) (wild string : Bytes) :
    (GlobMatches fold (many :: pieces (wild.dropWhile (· == star))) string ↔
      GlobMatches fold (many :: pieces wild) string) ∧
    levels true (pieces (wild.dropWhile (· == star))) = levels true (pieces wild) := by
  induction wild with
  | nil => exact ⟨Iff.rfl, rfl⟩
  | cons c wild ih =>
    by_cases hc : c = star
    · subst hc
      rw [List.dropWhile_cons_of_pos (by simp), hreads.ofStar, levels_many]
      exact ⟨ih.1.trans matches_many_many.symm, ih.2⟩
    · rw [List.dropWhile_cons_of_neg (by simpa using hc)]
      exact ⟨Iff.rfl, rfl⟩

/-- The question marks behind a star may as well take the bytes in front. -/
theorem Reads.skipQuestions {pieces : Bytes → List (Piece MaskPart)} (hreads : Reads pieces)
    (fold : UInt8 → UInt8) (wild string : Bytes) :
    (GlobMatches fold (many :: pieces (swallow wild string).1) (swallow wild string).2 ↔
      GlobMatches fold (many :: pieces wild) string) ∧
    levels true (pieces (swallow wild string).1) = levels true (pieces wild) := by
  induction wild generalizing string with
  | nil => exact ⟨Iff.rfl, rfl⟩
  | cons c wild ih =>
    cases string with
    | nil => exact ⟨Iff.rfl, rfl⟩
    | cons x string =>
      unfold swallow
      split
      · rename_i hc
        subst hc
        obtain ⟨hmatches, hlevels⟩ := ih string
        rw [hreads.ofQuestion, levels_one]
        exact ⟨hmatches.trans matches_many_one_cons.symm, hlevels⟩
      · exact ⟨Iff.rfl, rfl⟩

/-- A question mark is left over only when the string is used up. -/
theorem swallow_question {wild string rest left : Bytes}
    (h : swallow wild string = (question :: rest, left)) : left = [] := by
  induction wild generalizing string with
  | nil => cases h
  | cons c wild ih =>
    cases string with
    | nil =>
      cases h
      rfl
    | cons x string =>
      unfold swallow at h
      split at h
      · exact ih h
      · rename_i hc
        cases h
        exact absurd rfl hc

theorem length_swallow_le (wild string : Bytes) :
    (swallow wild string).1.length ≤ wild.length := by
  induction wild generalizing string with
  | nil => simp [swallow]
  | cons c wild ih =>
    cases string with
    | nil => simp [swallow]
    | cons x string =>
      unfold swallow
      split
      · have := ih string
        simp only [List.length_cons]
        omega
      · simp

theorem scanFor_iff {deeper : Bytes → Bytes → Bool} {c : UInt8} {wild string : Bytes} :
    scanFor deeper c wild string = true ↔
      ∃ x t, x :: t <:+ string ∧ toUpper x = toUpper c ∧ deeper wild t = true := by
  refine ⟨exists_of_scanFor, ?_⟩
  rintro ⟨x, t, hsuffix, hx, hdeeper⟩
  induction string with
  | nil => simp at hsuffix
  | cons y string ih =>
    rw [scanFor, Bool.or_eq_true, Bool.and_eq_true, beq_iff_eq]
    rcases List.suffix_cons_iff.1 hsuffix with heq | htail
    · cases heq
      exact Or.inl ⟨hx, hdeeper⟩
    · exact Or.inr (ih htail)

theorem scanAll_iff {deeper : Bytes → Bytes → Bool} {wild string : Bytes} :
    scanAll deeper wild string = true ↔
      ∃ t, t <:+ string ∧ t ≠ [] ∧ deeper wild t = true := by
  induction string with
  | nil => simp [scanAll]
  | cons y string ih =>
    rw [scanAll, Bool.or_eq_true, ih]
    constructor
    · rintro (h | ⟨t, ht, hne, h⟩)
      · exact ⟨y :: string, List.suffix_refl _, by simp, h⟩
      · exact ⟨t, ht.trans (List.suffix_cons y string), hne, h⟩
    · rintro ⟨t, ht, hne, h⟩
      rcases List.suffix_cons_iff.1 ht with rfl | htail
      · exact Or.inl h
      · exact Or.inr ⟨t, htail, hne, h⟩

/-- Looking for the byte behind a star, one level down. -/
theorem scanFor_exact {pieces : Bytes → List (Piece MaskPart)} {n : ℕ}
    {deeper : Bytes → Bytes → Bool} (hdeeper : Exact pieces n deeper) {c : UInt8}
    {wild string : Bytes} :
    scanFor deeper c wild string = true ↔
      GlobMatches toUpper (many :: part (.lit c) :: pieces wild) string ∧
        levels true (part (.lit c) :: pieces wild) < n + 1 := by
  rw [scanFor_iff]
  constructor
  · rintro ⟨x, t, ht, hx, h⟩
    obtain ⟨hmatches, hlevels⟩ := (hdeeper wild t).1 h
    refine ⟨⟨x :: t, ht, t, by simp [MaskPart.takes, hx], hmatches⟩, ?_⟩
    simpa using hlevels
  · rintro ⟨⟨t, ht, u, htakes, hmatches⟩, hlevels⟩
    cases t with
    | nil => simp at htakes
    | cons x t =>
      obtain ⟨hx, rfl⟩ := by simpa [MaskPart.takes] using htakes
      exact ⟨x, t, ht, hx, (hdeeper wild t).2 ⟨hmatches, by simpa using hlevels⟩⟩

/-- Looking for the place of a class or a group behind a star, one level down. -/
theorem scanAll_exact {pieces : Bytes → List (Piece MaskPart)} {n : ℕ}
    {deeper : Bytes → Bytes → Bool} (hdeeper : Exact pieces n deeper) {b : MaskPart}
    {p : List (Piece MaskPart)} {wild string : Bytes} (hwild : pieces wild = part b :: p) :
    scanAll deeper wild string = true ↔
      GlobMatches toUpper (many :: part b :: p) string ∧ levels true (part b :: p) < n + 1 := by
  rw [scanAll_iff]
  constructor
  · rintro ⟨t, ht, -, h⟩
    obtain ⟨hmatches, hlevels⟩ := (hdeeper wild t).1 h
    rw [hwild] at hmatches hlevels
    exact ⟨⟨t, ht, hmatches⟩, by simpa using hlevels⟩
  · rintro ⟨⟨t, ht, u, htakes, hmatches⟩, hlevels⟩
    have hne : t ≠ [] := by
      rintro rfl
      simp at htakes
    refine ⟨t, ht, hne, (hdeeper wild t).2 ?_⟩
    rw [hwild]
    exact ⟨⟨u, htakes, hmatches⟩, by simpa using hlevels⟩

/-- What is left to match behind a star, its further stars and the question marks it swallows. -/
theorem Reads.starRound {pieces : Bytes → List (Piece MaskPart)} (hreads : Reads pieces)
    {wild string rest left : Bytes}
    (h : swallow (wild.dropWhile (· == star)) string = (rest, left)) :
    (GlobMatches toUpper (pieces (star :: wild)) string ↔
      GlobMatches toUpper (many :: pieces rest) left) ∧
    levels false (pieces (star :: wild)) = levels true (pieces rest) ∧
    rest.length ≤ wild.length := by
  obtain ⟨hstars, hlevels⟩ := hreads.skipStars toUpper wild string
  obtain ⟨hquestions, hlevels'⟩ :=
    hreads.skipQuestions toUpper (wild.dropWhile (· == star)) string
  have hlength := length_swallow_le (wild.dropWhile (· == star)) string
  rw [h] at hquestions hlevels' hlength
  rw [hreads.ofStar, levels_many]
  exact ⟨(hquestions.trans hstars).symm, (hlevels'.trans hlevels).symm,
    hlength.trans (List.dropWhile_suffix _).length_le⟩

/-- Two stars in a row, with what the first one swallowed between them. -/
theorem Reads.starAgain {pieces : Bytes → List (Piece MaskPart)} (hreads : Reads pieces) {n : ℕ}
    (wild string : Bytes) :
    (GlobMatches toUpper (many :: pieces (star :: wild)) string ∧
      levels true (pieces (star :: wild)) < n) ↔
    (GlobMatches toUpper (pieces (star :: wild)) string ∧
      levels false (pieces (star :: wild)) < n) := by
  rw [hreads.ofStar, levels_many, levels_many]
  exact and_congr_left' matches_many_many

/-- One byte of a mask that is no star. -/
theorem plain_round (p : List (Piece MaskPart)) (x : UInt8) (string : Bytes) {c : UInt8}
    (hc : c ≠ star) :
    (GlobMatches toUpper (plainPiece c :: p) (x :: string) ↔
      (c = question ∨ toUpper x = toUpper c) ∧ GlobMatches toUpper p string) ∧
    levels false (plainPiece c :: p) = levels false p := by
  by_cases hquestion : c = question
  · subst hquestion
    rw [plainPiece_question]
    exact ⟨matches_one_cons.trans (by simp [GlobMatches]), rfl⟩
  · rw [plainPiece_of_ne hc hquestion]
    refine ⟨?_, by simp⟩
    simp [GlobMatches, matches_part, MaskPart.takes, hquestion]

theorem not_matches_plain_nil {p : List (Piece MaskPart)} {c : UInt8} (hc : c ≠ star) :
    ¬ GlobMatches toUpper (plainPiece c :: p) [] := by
  unfold plainPiece
  rw [if_neg hc]
  split <;> simp [GlobMatches, matches_part]

theorem matchLoop_exact {deeper : Bytes → Bytes → Bool} {d : ℕ}
    (hdeeper : Exact maskPieces d deeper) (n : ℕ) (wild string : Bytes) (hn : wild.length < n) :
    matchLoop deeper n wild string = true ↔
      GlobMatches toUpper (maskPieces wild) string ∧ levels false (maskPieces wild) < d + 1 := by
  induction n generalizing wild string with
  | zero => omega
  | succ n ih =>
    cases wild with
    | nil =>
      simp [matchLoop, GlobMatches, levels]
    | cons c wild =>
      have hlength : wild.length < n := by simpa using hn
      by_cases hc : c = star
      · subst hc
        simp only [matchLoop, if_true]
        generalize hout : swallow (wild.dropWhile (· == star)) string = out
        obtain ⟨rest, left⟩ := out
        obtain ⟨hmatches, hlevels, hrest⟩ := reads_maskPieces.starRound hout
        rw [hmatches, hlevels]
        cases rest with
        | nil => simp [GlobMatches, levels]
        | cons b rest =>
          simp only [List.length_cons] at hrest
          dsimp only
          split
          · rename_i hb
            subst hb
            rw [reads_maskPieces.starAgain]
            exact ih (star :: rest) left (by simp only [List.length_cons]; omega)
          · rename_i hb
            by_cases hquestion : b = question
            · -- the string has run out
              subst hquestion
              obtain rfl := swallow_question hout
              simp [scanFor, GlobMatches]
            · rw [maskPieces_cons, plainPiece_of_ne hb hquestion]
              exact scanFor_exact hdeeper
      · simp only [matchLoop, hc, if_false]
        cases string with
        | nil => simp [not_matches_plain_nil hc]
        | cons x string =>
          obtain ⟨hmatches, hlevels⟩ :=
            plain_round (maskPieces wild) x string hc
          rw [maskPieces_cons, hmatches, hlevels, and_assoc, ← ih wild string hlength]
          dsimp only
          split
          · rename_i hne
            simp [hne]
          · rename_i hne
            have htakes : c = question ∨ toUpper x = toUpper c := by
              by_contra hnot
              exact hne (not_or.1 hnot)
            simp [htakes]

theorem matchDepth_exact (depth : ℕ) : Exact maskPieces depth (matchDepth depth) := by
  induction depth with
  | zero =>
    intro wild string
    simp [matchDepth]
  | succ depth ih =>
    intro wild string
    exact matchLoop_exact ih _ wild string (Nat.lt_succ_self _)

/-- What `match` returns. -/
theorem stringMatch_iff {wild string : Bytes} :
    stringMatch wild string = true ↔
      GlobMatches toUpper (maskPieces wild) string ∧
        levels false (maskPieces wild) < MAX_MATCH_DEPTH := by
  rw [stringMatch, Bool.or_eq_true, beq_iff_eq, matchDepth_exact]
  constructor
  · rintro (rfl | h)
    · exact ⟨matches_many, by decide⟩
    · exact h
  · exact Or.inr

/-- A class or a group is one part, closed or not. -/
theorem exists_part {c : UInt8} (hc : c = openParen ∨ c = openBracket) (wild : Bytes) :
    ∃ b p, hostPieces (c :: wild) = part b :: p := by
  rcases hc with rfl | rfl
  · rw [hostPieces_paren]
    split
    · exact ⟨_, _, rfl⟩
    · exact ⟨_, _, rfl⟩
  · rw [hostPieces_bracket]
    split
    · exact ⟨_, _, rfl⟩
    · exact ⟨_, _, rfl⟩

theorem not_matches_part_nil {b : MaskPart} {p : List (Piece MaskPart)} :
    ¬ GlobMatches toUpper (part b :: p) [] := by
  simp [GlobMatches, matches_part]

/-- The round of a class. -/
theorem bracket_round {deeper : Bytes → Bytes → Bool} {n d : ℕ} {wild string : Bytes} {x : UInt8}
    (ih : ∀ rest, rest.length < wild.length → (hostLoop deeper n rest string = true ↔
      GlobMatches toUpper (hostPieces rest) string ∧ levels false (hostPieces rest) < d)) :
    hostLoop deeper (n + 1) (openBracket :: wild) (x :: string) = true ↔
      GlobMatches toUpper (hostPieces (openBracket :: wild)) (x :: string) ∧
        levels false (hostPieces (openBracket :: wild)) < d := by
  rw [hostPieces_bracket, hostLoop, if_neg (by decide), if_pos rfl]
  cases hrest : behindByte closeBracket wild with
  | none => simp [GlobMatches, matches_part, MaskPart.takes]
  | some rest =>
    dsimp only
    rw [Bool.and_eq_true, ih rest (length_lt_of_behindByte hrest)]
    simp [GlobMatches, matches_part, MaskPart.takes, and_assoc]

/-- The round of a group: the first alternative that the string starts with is the one taken. -/
theorem paren_round {deeper : Bytes → Bytes → Bool} {n d : ℕ} {wild string : Bytes} {x : UInt8}
    (ih : ∀ rest t, rest.length < wild.length → (hostLoop deeper n rest t = true ↔
      GlobMatches toUpper (hostPieces rest) t ∧ levels false (hostPieces rest) < d)) :
    hostLoop deeper (n + 1) (openParen :: wild) (x :: string) = true ↔
      GlobMatches toUpper (hostPieces (openParen :: wild)) (x :: string) ∧
        levels false (hostPieces (openParen :: wild)) < d := by
  rw [hostPieces_paren, hostLoop, if_neg (by decide), if_neg (by decide), if_pos rfl]
  cases hrest : behindByte closeParen wild with
  | none => simp [GlobMatches, matches_part, MaskPart.takes]
  | some rest =>
    dsimp only
    cases halt : alternate ((wild.takeWhile (· != closeParen)).splitOn bar) (x :: string) with
    | none => simp [GlobMatches, matches_part, MaskPart.takes, halt]
    | some t =>
      dsimp only
      rw [ih rest t (length_lt_of_behindByte hrest)]
      simp [GlobMatches, matches_part, MaskPart.takes, halt]

theorem hostLoop_exact {deeper : Bytes → Bytes → Bool} {d : ℕ}
    (hdeeper : Exact hostPieces d deeper) (n : ℕ) (wild string : Bytes) (hn : wild.length < n) :
    hostLoop deeper n wild string = true ↔
      GlobMatches toUpper (hostPieces wild) string ∧ levels false (hostPieces wild) < d + 1 := by
  induction n generalizing wild string with
  | zero => omega
  | succ n ih =>
    cases wild with
    | nil => simp [hostLoop, GlobMatches, levels]
    | cons c wild =>
      have hlength : wild.length < n := by simpa using hn
      by_cases hc : c = star
      · subst hc
        simp only [hostLoop, if_true]
        generalize hout : swallow (wild.dropWhile (· == star)) string = out
        obtain ⟨rest, left⟩ := out
        obtain ⟨hmatches, hlevels, hrest⟩ := reads_hostPieces.starRound hout
        rw [hmatches, hlevels]
        cases rest with
        | nil => simp [GlobMatches, levels]
        | cons b rest =>
          simp only [List.length_cons] at hrest
          dsimp only
          split
          · rename_i hb
            subst hb
            rw [reads_hostPieces.starAgain]
            exact ih (star :: rest) left (by simp only [List.length_cons]; omega)
          · rename_i hb
            split
            · rename_i hspecial
              obtain ⟨piece, p, hpieces⟩ := exists_part hspecial rest
              rw [hpieces]
              exact scanAll_exact hdeeper hpieces
            · rename_i hspecial
              obtain ⟨hparen, hbracket⟩ := not_or.1 hspecial
              by_cases hquestion : b = question
              · -- the string has run out
                subst hquestion
                obtain rfl := swallow_question hout
                simp [scanFor, GlobMatches]
              · rw [hostPieces_plain hbracket hparen, plainPiece_of_ne hb hquestion]
                exact scanFor_exact hdeeper
      · cases string with
        | nil =>
          have hfalse : ¬ GlobMatches toUpper (hostPieces (c :: wild)) [] := by
            by_cases hspecial : c = openParen ∨ c = openBracket
            · obtain ⟨piece, p, hpieces⟩ := exists_part hspecial wild
              rw [hpieces]
              exact not_matches_part_nil
            · obtain ⟨hparen, hbracket⟩ := not_or.1 hspecial
              rw [hostPieces_plain hbracket hparen]
              exact not_matches_plain_nil hc
          simp [hostLoop, hc, hfalse]
        | cons x string =>
          by_cases hbracket : c = openBracket
          · subst hbracket
            exact bracket_round fun rest hrest => ih rest string (by omega)
          by_cases hparen : c = openParen
          · subst hparen
            exact paren_round fun rest t hrest => ih rest t (by omega)
          obtain ⟨hmatches, hlevels⟩ :=
            plain_round (hostPieces wild) x string hc
          rw [hostPieces_plain hbracket hparen, hmatches, hlevels, and_assoc,
            ← ih wild string hlength]
          simp only [hostLoop, hc, hbracket, hparen, if_false]
          split
          · rename_i hne
            simp [hne]
          · rename_i hne
            have htakes : c = question ∨ toUpper x = toUpper c := by
              by_contra hnot
              exact hne (not_or.1 hnot)
            simp [htakes]

theorem hostDepth_exact (depth : ℕ) : Exact hostPieces depth (hostDepth depth) := by
  induction depth with
  | zero =>
    intro wild string
    simp [hostDepth]
  | succ depth ih =>
    intro wild string
    exact hostLoop_exact ih _ wild string (Nat.lt_succ_self _)

/-- What `hostmatch` returns. -/
theorem hostmatch_iff {wild string : Bytes} :
    hostmatch wild string = true ↔ string = [star] ∨
      GlobMatches toUpper (hostPieces wild) string ∧
        levels false (hostPieces wild) < MAX_HOSTMATCH_DEPTH := by
  rw [hostmatch, Bool.or_eq_true, beq_iff_eq, hostDepth_exact]

/-! ### The reference -/

/-- A run of stars leaves at most one part to be sought. -/
theorem levels_le_starGroups (wild : Bytes) :
    levels false (maskPieces wild) ≤ starGroups wild ∧
    levels true (maskPieces wild) ≤ starGroups wild + 1 ∧
    (wild.head? = some star → levels true (maskPieces wild) ≤ starGroups wild) := by
  induction wild with
  | nil => simp [levels, starGroups]
  | cons c wild ih =>
    obtain ⟨hfalse, htrue, hhead⟩ := ih
    by_cases hc : c = star
    · subst hc
      rw [maskPieces_cons, plainPiece_star, levels_many, levels_many, starGroups]
      by_cases hnext : wild.head? = some star
      · have := hhead hnext
        simp only [hnext, ne_eq, not_true_eq_false, and_false, if_false]
        omega
      · simp only [ne_eq, hnext, not_false_eq_true, and_self, if_true]
        omega
    · have hgroups : starGroups (c :: wild) = starGroups wild := by
        simp [starGroups, hc]
      rw [maskPieces_cons, hgroups]
      refine ⟨?_, ?_, fun h => absurd (Option.some.inj h) hc⟩
      · unfold plainPiece
        rw [if_neg hc]
        split <;> simp [hfalse]
      · unfold plainPiece
        rw [if_neg hc]
        split <;> simp [hfalse, htrue]

/-- `match` finds nothing that the mask does not match, and all that it does match when the mask has
fewer than `MAX_MATCH_DEPTH` groups of `'*'`. -/
theorem stringMatch_glob (wild string : Bytes) :
    (stringMatch wild string = true → GlobMatches toUpper (maskPieces wild) string) ∧
    (starGroups wild < MAX_MATCH_DEPTH → GlobMatches toUpper (maskPieces wild) string →
      stringMatch wild string = true) := by
  refine ⟨fun h => (stringMatch_iff.1 h).1, fun hgroups hmatches => ?_⟩
  have hlevels := (levels_le_starGroups wild).1
  exact stringMatch_iff.2 ⟨hmatches, by omega⟩

theorem stringMatch_glob_nick : stringMatch (bytes "n?c*") (bytes "NICK") = true :=
  (stringMatch_glob (bytes "n?c*") (bytes "NICK")).2 (by decide)
    ⟨bytes "ICK", by decide, 73, bytes "CK", by decide, bytes "K", by decide, [],
      List.nil_suffix, rfl⟩

end Ithildin
