import Ithildin.Wildcards

/-!
# Matching without regard to case

What the matchers of `string.c` make of a change of case in a mask or a string.  `touppertab` keeps
`'H'`, `'T'` and `'j'` as lower case letters: a mask with one of these letters, in either case,
matches only what has it in the same case.

* `toUpper_eq_iff`: what `touppertab` takes for the same letter;
* `IgnoresCaseOnly`: what a matcher owes to a mask and a string;
* `ignoresCaseOnly_of_exact`: when a matcher that does what its patterns say keeps to that;
* `matchers_ignoreCase_iff`: when `match` and `hostmatch` do.
-/

namespace Ithildin

open Glob Glob.Piece

/-- The letters whose entries in `touppertab` are wrong. -/
def Misfiled (c : UInt8) : Prop := toLower c = 104 ∨ toLower c = 116 ∨ toLower c = 106

instance (c : UInt8) : Decidable (Misfiled c) := by unfold Misfiled; infer_instance

/-- `c` in upper case. -/
def capital (c : UInt8) : UInt8 := if 97 ≤ c ∧ c ≤ 122 then c - 32 else c

/-- The matcher finds the same for the mask and the string in any case, and finds only what the
mask matches when nothing but the case of letters is ignored. -/
def IgnoresCaseOnly (matcher : Bytes → Bytes → Bool) (pieces : Bytes → List (Piece MaskPart))
    (wild string : Bytes) : Prop :=
  (∀ wild' string', sameCase wild wild' = true → sameCase string string' = true →
    matcher wild' string' = matcher wild string) ∧
  (matcher wild string = true → GlobMatches toLower (pieces wild) string)

/-- Some letter with a wrong entry stands for itself in the pattern. -/
def HasMisfiled (p : List (Piece MaskPart)) : Prop := ∃ c, part (.lit c) ∈ p ∧ Misfiled c

/-- A mask of `hostmatch` without bracketed classes. -/
def Classless (wild : Bytes) : Prop :=
  ∀ text, part (MaskPart.collation text) ∉ hostPieces wild

/-! ### The tables -/

section
variable {x y c : UInt8}

theorem toNat_toLower (c : UInt8) :
    (toLower c).toNat = if 65 ≤ c.toNat ∧ c.toNat ≤ 90 then c.toNat + 32 else c.toNat := by
  unfold toLower
  simp only [UInt8.le_iff_toNat_le, UInt8.reduceToNat]
  split
  · simp only [UInt8.toNat_add, UInt8.reduceToNat]
    omega
  · rfl

theorem toNat_capital (c : UInt8) :
    (capital c).toNat = if 97 ≤ c.toNat ∧ c.toNat ≤ 122 then c.toNat - 32 else c.toNat := by
  unfold capital
  simp only [UInt8.le_iff_toNat_le, UInt8.reduceToNat]
  split
  · rw [UInt8.toNat_sub_of_le]
    · rfl
    · simp only [UInt8.le_iff_toNat_le, UInt8.reduceToNat]
      omega
  · rfl

theorem toNat_toUpper (c : UInt8) :
    (toUpper c).toNat =
      if c.toNat = 72 ∨ c.toNat = 84 then c.toNat + 32
      else if c.toNat = 106 then c.toNat
      else if 97 ≤ c.toNat ∧ c.toNat ≤ 122 then c.toNat - 32
      else c.toNat := by
  have hcapital := toNat_capital c
  unfold capital at hcapital
  unfold toUpper
  simp only [← UInt8.toNat_inj, UInt8.reduceToNat]
  split
  · simp only [UInt8.toNat_add, UInt8.reduceToNat]
    omega
  · split
    · rfl
    · exact hcapital

theorem misfiled_iff : Misfiled c ↔ c.toNat = 72 ∨ c.toNat = 104 ∨ c.toNat = 84 ∨ c.toNat = 116 ∨
    c.toNat = 74 ∨ c.toNat = 106 := by
  unfold Misfiled
  simp only [← UInt8.toNat_inj, toNat_toLower, UInt8.reduceToNat]
  split <;> omega

/-- Letters with a right entry are compared without their case, the others with it. -/
theorem toUpper_eq_iff :
    toUpper x = toUpper c ↔ if Misfiled c then x = c else toLower x = toLower c := by
  simp only [← UInt8.toNat_inj, toNat_toUpper, toNat_toLower, misfiled_iff]
  have hx := x.toNat_lt
  have hc := c.toNat_lt
  generalize x.toNat = m at hx ⊢
  generalize c.toNat = n at hc ⊢
  split_ifs <;> omega

theorem toLower_of_toUpper (h : toUpper x = toUpper c) : toLower x = toLower c := by
  rw [toUpper_eq_iff] at h
  split at h
  · rw [h]
  · exact h

theorem toLower_capital (c : UInt8) : toLower (capital c) = toLower c := by
  simp only [← UInt8.toNat_inj, toNat_toLower, toNat_capital]
  split_ifs <;> omega

theorem toLower_toLower (c : UInt8) : toLower (toLower c) = toLower c := by
  simp only [← UInt8.toNat_inj, toNat_toLower]
  split_ifs <;> omega

/-- A misfiled letter in upper case is not found among letters in lower case. -/
theorem toUpper_capital_ne (h : Misfiled c) : toUpper (toLower y) ≠ toUpper (capital c) := by
  have hcapital : Misfiled (capital c) := by
    unfold Misfiled
    rwa [toLower_capital]
  rw [ne_eq, toUpper_eq_iff, if_pos hcapital, ← UInt8.toNat_inj, toNat_toLower, toNat_capital]
  rw [misfiled_iff] at h
  split <;> split <;> omega

/-- The case of a byte that is no letter is the byte itself. -/
theorem eq_of_toLower_eq {b : UInt8} (hb : isAlpha b = false) (h : toLower c = toLower b) :
    c = b := by
  simp only [isAlpha, Bool.or_eq_false_iff, Bool.and_eq_false_iff, decide_eq_false_iff_not,
    UInt8.le_iff_toNat_le, UInt8.reduceToNat] at hb
  simp only [← UInt8.toNat_inj, toNat_toLower] at h ⊢
  split_ifs at h <;> omega

end

/-! ### Masks in another case -/

/-- The same byte up to the case of letters. -/
def SameLetter (x y : UInt8) : Prop := toLower x = toLower y

theorem sameCase_iff_forall₂ {s t : Bytes} :
    sameCase s t = true ↔ List.Forall₂ SameLetter s t := by
  rw [sameCase_iff, ← List.forall₂_eq_eq_eq, List.forall₂_map_left_iff,
    List.forall₂_map_right_iff]
  rfl

theorem SameLetter.eq_iff {x y b : UInt8} (h : SameLetter x y) (hb : isAlpha b = false) :
    x = b ↔ y = b := by
  constructor
  · rintro rfl
    exact eq_of_toLower_eq hb h.symm
  · rintro rfl
    exact eq_of_toLower_eq hb h

/-- Parts of two masks that differ in the case of letters, those outside of groups as `r` says. -/
inductive PartAlike (r : UInt8 → UInt8 → Prop) : MaskPart → MaskPart → Prop
  | lit {c d : UInt8} (h : r c d) : PartAlike r (.lit c) (.lit d)
  | group {alts alts' : List Bytes} (h : List.Forall₂ (List.Forall₂ SameLetter) alts alts') :
      PartAlike r (.group alts) (.group alts')
  | unclosed : PartAlike r .unclosed .unclosed

/-- A mask without classes is read alike in every case. -/
def ReadAlike (pieces : Bytes → List (Piece MaskPart)) (wild : Bytes) : Prop :=
  ∀ (r : UInt8 → UInt8 → Prop) (wild' : Bytes), (∀ x y, r x y → SameLetter x y) →
    List.Forall₂ r wild wild' → List.Forall₂ (Alike (PartAlike r)) (pieces wild) (pieces wild')

section
variable {r : UInt8 → UInt8 → Prop} {wild wild' string string' : Bytes}

theorem plainPiece_alike {c d : UInt8} (hr : ∀ x y, r x y → SameLetter x y) (h : r c d) :
    Alike (PartAlike r) (plainPiece c) (plainPiece d) := by
  have hstar := (hr c d h).eq_iff (b := star) rfl
  have hquestion := (hr c d h).eq_iff (b := question) rfl
  unfold plainPiece
  simp only [hstar, hquestion]
  split
  · exact .many
  · split
    · exact .one
    · exact .part (.lit h)

theorem readAlike_maskPieces (wild : Bytes) : ReadAlike maskPieces wild := by
  intro r wild' hr h
  induction h with
  | nil => exact .nil
  | cons hcd h ih => exact .cons (plainPiece_alike hr hcd) ih

theorem behindByte_alike {b : UInt8} (hb : isAlpha b = false) (hr : ∀ x y, r x y → SameLetter x y)
    (h : List.Forall₂ r wild wild') :
    Option.Rel (List.Forall₂ r) (behindByte b wild) (behindByte b wild') := by
  induction h with
  | nil => exact .none
  | cons hcd h ih =>
    unfold behindByte
    simp only [(hr _ _ hcd).eq_iff hb]
    split
    · exact .some h
    · exact ih

theorem takeWhile_alike {b : UInt8} (hb : isAlpha b = false)
    (h : List.Forall₂ SameLetter wild wild') :
    List.Forall₂ SameLetter (wild.takeWhile (· != b)) (wild'.takeWhile (· != b)) := by
  induction h with
  | nil => exact .nil
  | @cons c d s t hcd h ih =>
    by_cases hc : c = b
    · have hd : d = b := (hcd.eq_iff hb).1 hc
      simp [hc, hd]
    · have hd : d ≠ b := fun hd => hc ((hcd.eq_iff hb).2 hd)
      rw [List.takeWhile_cons_of_pos (by simpa using hc),
        List.takeWhile_cons_of_pos (by simpa using hd)]
      exact .cons hcd ih

theorem splitOn_alike {b : UInt8} (hb : isAlpha b = false)
    (h : List.Forall₂ SameLetter wild wild') :
    List.Forall₂ (List.Forall₂ SameLetter) (wild.splitOn b) (wild'.splitOn b) := by
  unfold List.splitOn
  induction h with
  | nil => exact .cons .nil .nil
  | @cons c d s t hcd h ih =>
    simp only [List.splitOnP_cons_eq_if_modifyHead, beq_iff_eq, hcd.eq_iff hb]
    split
    · exact .cons .nil ih
    · -- the byte joins the first piece
      generalize s.splitOnP (· == b) = pieces at ih ⊢
      generalize t.splitOnP (· == b) = pieces' at ih ⊢
      cases ih with
      | nil => exact .nil
      | cons hfirst hrest => exact .cons (.cons hcd hfirst) hrest

theorem readAlike_hostPieces (hclassless : Classless wild) : ReadAlike hostPieces wild := by
  intro r wild' hr h
  induction hn : wild.length using Nat.strong_induction_on generalizing wild wild' with
  | _ n ih =>
    cases h with
    | nil =>
      rw [hostPieces_nil]
      exact .nil
    | @cons c d wild wild' hcd h =>
      rw [List.length_cons] at hn
      by_cases hbracket : c = openBracket
      · obtain rfl := ((hr c d hcd).eq_iff rfl).1 hbracket
        subst hbracket
        unfold Classless at hclassless
        rw [hostPieces_bracket] at hclassless ⊢
        rw [hostPieces_bracket]
        have hrest := behindByte_alike (b := closeBracket) rfl hr h
        cases hleft : behindByte closeBracket wild with
        | none =>
          rw [hleft] at hrest
          generalize behindByte closeBracket wild' = right at hrest
          cases hrest
          exact .cons (.part .unclosed) .nil
        | some rest =>
          -- a class, which the mask does not have
          rw [hleft] at hclassless
          exact absurd List.mem_cons_self (hclassless wild)
      by_cases hparen : c = openParen
      · obtain rfl := ((hr c d hcd).eq_iff rfl).1 hparen
        subst hparen
        unfold Classless at hclassless
        rw [hostPieces_paren] at hclassless ⊢
        rw [hostPieces_paren]
        have hrest := behindByte_alike (b := closeParen) rfl hr h
        cases hleft : behindByte closeParen wild with
        | none =>
          rw [hleft] at hrest
          generalize behindByte closeParen wild' = right at hrest
          cases hrest
          exact .cons (.part .unclosed) .nil
        | some rest =>
          have hlength := length_lt_of_behindByte hleft
          rw [hleft] at hrest hclassless
          generalize behindByte closeParen wild' = right at hrest
          cases hrest with
          | some hrest =>
            have halts := splitOn_alike (b := bar) rfl
              (takeWhile_alike (b := closeParen) rfl (h.imp hr))
            have hclassless' : Classless rest :=
              fun text hmem => hclassless text (List.mem_cons_of_mem _ hmem)
            exact .cons (.part (.group halts)) (ih rest.length (by omega) hclassless' _ hrest rfl)
      · have hbracket' : d ≠ openBracket := fun hd => hbracket (((hr c d hcd).eq_iff rfl).2 hd)
        have hparen' : d ≠ openParen := fun hd => hparen (((hr c d hcd).eq_iff rfl).2 hd)
        unfold Classless at hclassless
        rw [hostPieces_plain hbracket hparen] at hclassless ⊢
        rw [hostPieces_plain hbracket' hparen']
        have hclassless' : Classless wild :=
          fun text hmem => hclassless text (List.mem_cons_of_mem _ hmem)
        exact .cons (plainPiece_alike hr hcd) (ih wild.length (by omega) hclassless' _ h rfl)

/-! ### What the parts take in another case -/

theorem map_toLower_eq (h : List.Forall₂ SameLetter string string') :
    string.map toLower = string'.map toLower :=
  sameCase_iff.1 (sameCase_iff_forall₂.2 h)

theorem alternate_alike {alts alts' : List Bytes} {t : Bytes}
    (hr : ∀ x y, r x y → SameLetter x y)
    (halts : List.Forall₂ (List.Forall₂ SameLetter) alts alts')
    (hs : List.Forall₂ r string string') (h : alternate alts string = some t) :
    ∃ t', alternate alts' string' = some t' ∧ List.Forall₂ r t t' := by
  induction halts with
  | nil => cases h
  | @cons alt alt' alts alts' halt halts ih =>
    have hlength := halt.length_eq
    have hstarts : startsNoCase alt' string' = startsNoCase alt string := by
      unfold startsNoCase
      rw [← hlength, ← map_toLower_eq halt,
        ← map_toLower_eq (List.forall₂_take alt.length (hs.imp hr))]
    unfold alternate at h ⊢
    rw [hstarts]
    split at h
    · rename_i hyes
      cases h
      rw [if_pos hyes, ← hlength]
      exact ⟨_, rfl, List.forall₂_drop _ hs⟩
    · rename_i hno
      rw [if_neg hno]
      exact ih h

/-- Letters that are one for `fold` must stay one for `fold'`. -/
theorem takes_alike {fold fold' : UInt8 → UInt8} {q : UInt8 → UInt8 → Prop}
    (hr : ∀ x y, r x y → SameLetter x y)
    (hfold : ∀ x x' c c', r x x' → q c c' → fold x = fold c → fold' x' = fold' c')
    {b b' : MaskPart} {t : Bytes} (hb : PartAlike q b b') (hs : List.Forall₂ r string string')
    (h : b.takes fold string = some t) :
    ∃ t', b'.takes fold' string' = some t' ∧ List.Forall₂ r t t' := by
  cases hs with
  | nil => simp at h
  | @cons x x' s s' hx hs =>
    cases hb with
    | @lit c c' hc =>
      obtain ⟨heq, rfl⟩ := by simpa [MaskPart.takes] using h
      exact ⟨s', by simp [MaskPart.takes, hfold x x' c c' hx hc heq], hs⟩
    | group halts => exact alternate_alike hr halts (.cons hx hs) h
    | unclosed => cases h

/-- Masks and strings that are alike match alike. -/
theorem GlobMatches.of_alike {fold fold' : UInt8 → UInt8} {q : UInt8 → UInt8 → Prop}
    {p p' : List (Piece MaskPart)} (hr : ∀ x y, r x y → SameLetter x y)
    (hfold : ∀ x x' c c', r x x' → q c c' → fold x = fold c → fold' x' = fold' c')
    (hp : List.Forall₂ (Alike (PartAlike q)) p p') (hs : List.Forall₂ r string string')
    (h : GlobMatches fold p string) : GlobMatches fold' p' string' := by
  refine Matches.of_alike ?_ hp hs h
  intro b b' s s' t hb hs h
  exact takes_alike hr hfold hb hs h

end

/-! ### Matchers that do what their patterns say -/

theorem alike_symm {a b : Piece MaskPart} (h : Alike (PartAlike SameLetter) a b) :
    Alike (PartAlike SameLetter) b a := by
  cases h with
  | many => exact .many
  | one => exact .one
  | part h =>
    cases h with
    | lit h => exact .part (.lit h.symm)
    | group h =>
      refine .part (.group (List.Forall₂.flip (h.imp ?_)))
      intro alt alt' halt
      exact List.Forall₂.flip (halt.imp fun x y hxy => Eq.symm hxy)
    | unclosed => exact .part .unclosed

/-- What `f` makes of a text that differs from it in case only. -/
theorem forall₂_map {f : UInt8 → UInt8} (s : Bytes) :
    List.Forall₂ (fun x y => y = f x) s (s.map f) := by
  rw [List.forall₂_map_right_iff, List.forall₂_same]
  intro x _
  rfl

section
variable {pieces : Bytes → List (Piece MaskPart)} {matcher : Bytes → Bytes → Bool} {depth : ℕ}
variable {wild wild' string string' : Bytes}

/-- Nothing is found but what is there up to case. -/
theorem glob_of_found (hexact : Exact pieces depth matcher) (halike : ReadAlike pieces wild)
    (hwild : sameCase wild wild' = true) (hstring : sameCase string string' = true)
    (h : matcher wild' string' = true) : GlobMatches toLower (pieces wild) string := by
  have hpieces := halike SameLetter wild' (fun _ _ h => h) (sameCase_iff_forall₂.1 hwild)
  have hback : List.Forall₂ (Alike (PartAlike SameLetter)) (pieces wild') (pieces wild) :=
    List.Forall₂.flip (hpieces.imp fun _ _ h => alike_symm h)
  have hstring' : List.Forall₂ SameLetter string' string :=
    List.Forall₂.flip ((sameCase_iff_forall₂.1 hstring).imp fun _ _ h => Eq.symm h)
  refine GlobMatches.of_alike (fun _ _ h => h) ?_ hback hstring' ((hexact _ _).1 h).1
  intro x x' c c' hx hc heq
  have hlower : toLower x = toLower c := toLower_of_toUpper heq
  rw [← show toLower x = toLower x' from hx, ← show toLower c = toLower c' from hc, hlower]

theorem levels_in_case (halike : ReadAlike pieces wild) (hwild : sameCase wild wild' = true) :
    levels false (pieces wild') = levels false (pieces wild) :=
  (levels_of_alike false
    (halike SameLetter wild' (fun _ _ h => h) (sameCase_iff_forall₂.1 hwild))).symm

/-- Without misfiled letters, what is there up to case is found in every case. -/
theorem found_of_glob (hexact : Exact pieces depth matcher) (halike : ReadAlike pieces wild)
    (hwild : sameCase wild wild' = true) (hstring : sameCase string string' = true)
    (hno : ¬ HasMisfiled (pieces wild)) (hlevels : levels false (pieces wild) < depth)
    (h : GlobMatches toLower (pieces wild) string) : matcher wild' string' = true := by
  have hpieces := halike SameLetter wild' (fun _ _ h => h) (sameCase_iff_forall₂.1 hwild)
  -- the letters of the mask, with what is known of them
  have hright : List.Forall₂ (Alike (PartAlike fun c c' => SameLetter c c' ∧ ¬ Misfiled c))
      (pieces wild) (pieces wild') := by
    have hboth := (List.forall₂_and_left (p := fun b => b ∈ pieces wild) _ _).2
      ⟨fun b hb => hb, hpieces⟩
    refine hboth.imp ?_
    rintro b b' ⟨hb, hbb⟩
    cases hbb with
    | many => exact .many
    | one => exact .one
    | part hbb =>
      cases hbb with
      | lit hc => exact .part (.lit ⟨hc, fun hmis => hno ⟨_, hb, hmis⟩⟩)
      | group halts => exact .part (.group halts)
      | unclosed => exact .part .unclosed
  refine (hexact wild' string').2 ⟨?_, by rwa [levels_in_case halike hwild]⟩
  refine GlobMatches.of_alike (fun _ _ h => h) ?_ hright (sameCase_iff_forall₂.1 hstring) h
  rintro x x' c c' hx ⟨hc, hmis⟩ heq
  have hmis' : ¬ Misfiled c' := by
    unfold Misfiled
    rwa [← show toLower c = toLower c' from hc]
  rw [toUpper_eq_iff, if_neg hmis', ← show toLower x = toLower x' from hx,
    ← show toLower c = toLower c' from hc, heq]

/-- All in lower case, what is there up to case is found. -/
theorem found_lower (hexact : Exact pieces depth matcher) (halike : ReadAlike pieces wild)
    (hlevels : levels false (pieces wild) < depth)
    (h : GlobMatches toLower (pieces wild) string) :
    matcher (wild.map toLower) (string.map toLower) = true := by
  have hlower : ∀ x y, y = toLower x → SameLetter x y := by
    rintro x y rfl
    exact (toLower_toLower x).symm
  have hpieces := halike (fun x y => y = toLower x) _ hlower (forall₂_map wild)
  refine (hexact _ _).2 ⟨?_, by rwa [← levels_of_alike false hpieces]⟩
  refine GlobMatches.of_alike hlower ?_ hpieces (forall₂_map string) h
  rintro x x' c c' rfl rfl heq
  rw [heq]

/-- A misfiled letter in upper case is not found in a string that is all in lower case. -/
theorem not_found_capital (hexact : Exact pieces depth matcher) (halike : ReadAlike pieces wild)
    (hmis : HasMisfiled (pieces wild)) :
    matcher (wild.map capital) (string.map toLower) = false := by
  rw [Bool.eq_false_iff]
  intro h
  have hcapital : ∀ x y, y = capital x → SameLetter x y := by
    rintro x y rfl
    exact (toLower_capital x).symm
  have hpieces := halike (fun x y => y = capital x) _ hcapital (forall₂_map wild)
  obtain ⟨c, hc, hmis⟩ := hmis
  have hmem : part (MaskPart.lit (capital c)) ∈ pieces (wild.map capital) := by
    obtain ⟨i, hi, hget⟩ := List.getElem_of_mem hc
    have hlen : i < (pieces (wild.map capital)).length := hpieces.length_eq ▸ hi
    have hrel := hpieces.get hi hlen
    rw [List.get_eq_getElem, hget] at hrel
    generalize heq : (pieces (wild.map capital)).get ⟨i, hlen⟩ = b at hrel
    cases hrel with
    | part hrel =>
      cases hrel with
      | lit hd =>
        subst hd
        exact heq ▸ List.get_mem _ _
  obtain ⟨t, u, ht, htakes⟩ :=
    Matches.part_takes (fun _ _ _ h => takes_suffix h) ((hexact _ _).1 h).1 hmem
  cases t with
  | nil => simp at htakes
  | cons x t =>
    obtain ⟨hx, -⟩ := by simpa [MaskPart.takes] using htakes
    have hxmem : x ∈ string.map toLower := ht.subset List.mem_cons_self
    obtain ⟨y, -, rfl⟩ := List.mem_map.1 hxmem
    exact toUpper_capital_ne hmis hx

/-- A matcher that does what its patterns say ignores case where no misfiled letter stands in the
mask, and where it finds nothing in any case. -/
theorem ignoresCaseOnly_of_exact (hexact : Exact pieces depth matcher)
    (halike : ReadAlike pieces wild) :
    IgnoresCaseOnly matcher pieces wild string ↔
      ¬ HasMisfiled (pieces wild) ∨ ¬ GlobMatches toLower (pieces wild) string ∨
        depth ≤ levels false (pieces wild) := by
  have hrefl : ∀ s : Bytes, sameCase s s = true := fun s => sameCase_iff.2 rfl
  constructor
  · rintro ⟨hsame, -⟩
    by_contra hnot
    simp only [not_or, not_not, not_le] at hnot
    obtain ⟨hmis, hglob, hlevels⟩ := hnot
    have hlower : ∀ s : Bytes, sameCase s (s.map toLower) = true := by
      intro s
      rw [sameCase_iff, List.map_map]
      exact List.map_congr_left fun x _ => (toLower_toLower x).symm
    have hcapital : sameCase wild (wild.map capital) = true := by
      rw [sameCase_iff, List.map_map]
      exact List.map_congr_left fun x _ => (toLower_capital x).symm
    have hfound := found_lower hexact halike hlevels hglob
    have hlost : matcher (wild.map capital) (string.map toLower) = false :=
      not_found_capital hexact halike hmis
    rw [hsame _ _ (hlower wild) (hlower string)] at hfound
    rw [hsame _ _ hcapital (hlower string), hfound] at hlost
    cases hlost
  · intro hcases
    refine ⟨fun wild' string' hwild hstring => ?_,
      glob_of_found hexact halike (hrefl wild) (hrefl string)⟩
    rw [Bool.eq_iff_iff]
    constructor
    · intro h
      have hglob := glob_of_found hexact halike hwild hstring h
      have hlevels := ((hexact wild' string').1 h).2
      rw [levels_in_case halike hwild] at hlevels
      rcases hcases with hno | hno | hmany
      · exact found_of_glob hexact halike (hrefl wild) (hrefl string) hno hlevels hglob
      · exact absurd hglob hno
      · omega
    · intro h
      have hglob := glob_of_found hexact halike (hrefl wild) (hrefl string) h
      have hlevels := ((hexact wild string).1 h).2
      rcases hcases with hno | hno | hmany
      · exact found_of_glob hexact halike hwild hstring hno hlevels hglob
      · exact absurd hglob hno
      · omega

end

/-! ### The matchers of `string.c` -/

theorem exact_stringMatch : Exact maskPieces MAX_MATCH_DEPTH stringMatch :=
  fun _ _ => stringMatch_iff

/-- The string `"*"` is found by every mask. -/
theorem hostmatch_star (wild : Bytes) : hostmatch wild [star] = true := rfl

theorem hostmatch_of_ne {wild string : Bytes} (hstring : string ≠ [star]) :
    hostmatch wild string = hostDepth MAX_HOSTMATCH_DEPTH wild string := by
  simp [hostmatch, hstring]

theorem sameCase_star {string : Bytes} : sameCase [star] string = true ↔ string = [star] := by
  rw [sameCase_iff_forall₂]
  constructor
  · intro h
    obtain ⟨x, t, hx, ht, rfl⟩ := List.forall₂_cons_left_iff.1 h
    obtain rfl := List.forall₂_nil_left_iff.1 ht
    rw [(SameLetter.eq_iff hx rfl).1 rfl]
  · rintro rfl
    exact .cons rfl .nil

theorem ignoresCaseOnly_hostmatch {wild string : Bytes} (hclassless : Classless wild) :
    IgnoresCaseOnly hostmatch hostPieces wild string ↔
      if string = [star] then GlobMatches toLower (hostPieces wild) string
      else ¬ HasMisfiled (hostPieces wild) ∨ ¬ GlobMatches toLower (hostPieces wild) string ∨
        MAX_HOSTMATCH_DEPTH ≤ levels false (hostPieces wild) := by
  split
  · rename_i hstar
    subst hstar
    constructor
    · intro h
      exact h.2 (hostmatch_star wild)
    · refine fun hglob => ⟨fun wild' string' _ hstring => ?_, fun _ => hglob⟩
      obtain rfl := sameCase_star.1 hstring
      rw [hostmatch_star, hostmatch_star]
  · rename_i hstring
    rw [← ignoresCaseOnly_of_exact (hostDepth_exact MAX_HOSTMATCH_DEPTH)
      (readAlike_hostPieces hclassless)]
    unfold IgnoresCaseOnly
    rw [hostmatch_of_ne hstring]
    refine and_congr_left' (forall_congr' fun wild' => forall_congr' fun string' =>
      forall_congr' fun _ => forall_congr' fun hsame => ?_)
    have hne : string' ≠ [star] := by
      rintro rfl
      exact hstring (sameCase_star.1 (by rw [sameCase_iff] at hsame ⊢; exact hsame.symm))
    rw [hostmatch_of_ne hne]

/-- `match` and `hostmatch` ignore the case of letters and nothing else, just where no misfiled
letter stands in a mask that would match otherwise; for `hostmatch` the string `"*"` matches every
mask, and does so rightly only if the mask has nothing but wildcards that take it. -/
theorem matchers_ignoreCase_iff (wild string : Bytes) :
    (IgnoresCaseOnly stringMatch maskPieces wild string ∧
      (Classless wild → IgnoresCaseOnly hostmatch hostPieces wild string)) ↔
    (¬ HasMisfiled (maskPieces wild) ∨ ¬ GlobMatches toLower (maskPieces wild) string ∨
      MAX_MATCH_DEPTH ≤ levels false (maskPieces wild)) ∧
    (Classless wild →
      if string = [star] then GlobMatches toLower (hostPieces wild) string
      else ¬ HasMisfiled (hostPieces wild) ∨ ¬ GlobMatches toLower (hostPieces wild) string ∨
        MAX_HOSTMATCH_DEPTH ≤ levels false (hostPieces wild)) :=
  and_congr (ignoresCaseOnly_of_exact exact_stringMatch (readAlike_maskPieces wild))
    (forall_congr' fun hclassless => ignoresCaseOnly_hostmatch hclassless)

/-- The mask `h` matches the string `h`, and the mask `H` does not. -/
theorem ignoresCase_fails :
    ¬ ∀ wild string, IgnoresCaseOnly stringMatch maskPieces wild string ∧
      (Classless wild → IgnoresCaseOnly hostmatch hostPieces wild string) := by
  intro h
  have hsame := (h (bytes "h") (bytes "h")).1.1 (bytes "H") (bytes "h") (by decide) (by decide)
  exact absurd hsame (by decide)

end Ithildin
