import Ithildin.Wildcards
import Mathlib.Computability.StateTransition
import Mathlib.Tactic.Common

/-!
# Where `hostmatch` reads

`_hostmatch` step by step, on pointers into the mask and the string: what it reads is there or not.

* `collator`, `alternatives`: a class and a group of alternatives, read in place;
* `HostRun.step`: the rounds of `_hostmatch`, with the rounds of its callers that wait for it;
* `Strays`: a round whose class hunts past the terminator of the mask;
* `staysWithin_iff`: `hostmatch` returns and stays within its strings exactly if it comes to no such
  round;
* `reaches_hostmatch`: then it returns what it should.
-/

namespace Ithildin

open StateTransition

/-- A string and its terminator. A pointer into it is what lies from there to the terminator;
reading a byte of an empty rest is reading past the terminator. -/
def block (s : Bytes) : Bytes := s ++ [0]

/-- `while (*end)`: on to the first such byte or to the terminator. -/
def seekByte (b : UInt8) : Bytes → Option Bytes
  | [] => none
  | c :: p => if c = 0 ∨ c = b then some (c :: p) else seekByte b p

/-- `!strncasecmp(p, word, strlen(word))`, which stops at the first difference. -/
def sameStart : Bytes → Bytes → Option Bool
  | [], _ => some true
  | _ :: _, [] => none
  | w :: word, c :: p => if toLower c ≠ toLower w then some false else sameStart word p

/-- `while (wild != end)`, where `n` bytes lie from `end` on: whether a byte like `x` is found. -/
def hunt (x : UInt8) (n : ℕ) : Bytes → Option Bool
  | [] => none
  | c :: wild =>
      if wild.length + 1 = n then some false
      else if toUpper c = toUpper x then some true
      else hunt x n wild

/-- The tests of a class that ends at `stop`, from the one for `:alnum:` on. -/
def collatorRest (x : UInt8) (stop wild : Bytes) : Option (Option Bytes) := do
  if ← sameStart (bytes ":alnum:") wild then
    return if isAlpha x || isDigit x then some stop.tail else none
  else
    return if ← hunt x stop.length wild then some stop.tail else none

/-- The class at a `'['`: what is behind it when it takes `x`. -/
def collator (wild : Bytes) (x : UInt8) : Option (Option Bytes) := do
  let stop ← seekByte closeBracket wild
  let wild := wild.tail
  if stop.head? = some 0 then
    return none
  else if ← sameStart (bytes ":alpha:") wild then
    if isAlpha x then collatorRest x stop stop.tail else return none
  else if ← sameStart (bytes ":number:") wild then
    if isDigit x then collatorRest x stop stop.tail else return none
  else
    collatorRest x stop wild

/-- `while (ends != NULL)`: what the first alternative that the string starts with leaves of it;
`alt` is what lies between `wild` and `ends`. -/
def alternatives (string : Bytes) : Bytes → Bytes → Option (Option Bytes)
  | _, [] => none
  | alt, c :: ends =>
      if c = bar ∨ c = closeParen then
        match sameStart alt string with
        | none => none
        | some true => some (some (string.drop alt.length))
        | some false => if c = closeParen then some none else alternatives string [] ends
      else alternatives string (alt ++ [c]) ends

/-- `while (*wild == '*')`. -/
def skipStars : Bytes → Option Bytes
  | [] => none
  | c :: wild => if c = star then skipStars wild else some (c :: wild)

/-- `while (*wild == '?' && *string)`. -/
def skipQuestions : Bytes → Bytes → Option (Bytes × Bytes)
  | [], _ => none
  | c :: wild, string =>
      if c = question then
        match string with
        | [] => none
        | x :: rest => if x = 0 then some (c :: wild, x :: rest) else skipQuestions wild rest
      else some (c :: wild, string)

/-- Where a run of `hostmatch` is; `callers` are the mask and the string of each caller's loop over
the places behind a `'*'`. -/
inductive HostRun
  /-- `_hostmatch` is called. -/
  | call (wild string : Bytes) (callers : List (Bytes × Bytes))
  /-- `while (1)`. -/
  | round (wild string : Bytes) (callers : List (Bytes × Bytes))
  /-- `while (*string)` behind a `'*'`. -/
  | scan (wild string : Bytes) (callers : List (Bytes × Bytes))
  /-- `_hostmatch` returns 0. -/
  | back (callers : List (Bytes × Bytes))
  /-- `hostmatch` has returned; a 1 of `_hostmatch` is passed on by every caller. -/
  | done (matched : Bool)
  /-- A byte past a terminator has been read. -/
  | stray
  deriving DecidableEq

namespace HostRun

/-- The round of a byte `c` that is no `'*'`, before a byte `x` of the string. -/
def plainRound (c x : UInt8) (wild string : Bytes) (callers : List (Bytes × Bytes)) :
    Option HostRun := do
  if c = openBracket then
    match ← collator wild x with
    | none => return back callers
    | some next => return round next string.tail callers
  else if c = openParen then
    let stop ← seekByte closeParen wild
    if stop.head? = some 0 then return back callers
    else
      match ← alternatives string [] wild.tail with
      | none => return back callers
      | some string => return round stop.tail string callers
  else if c ≠ question ∧ toUpper x ≠ toUpper c then return back callers
  else return round wild.tail string.tail callers

/-- One time around `while (1)`. -/
def oneRound (wild string : Bytes) (callers : List (Bytes × Bytes)) : Option HostRun := do
  let c ← wild.head?
  if c = 0 then
    if (← string.head?) = 0 then return done true else return back callers
  else if c = star then
    let wild ← skipStars wild.tail
    let (wild, string) ← skipQuestions wild string
    let d ← wild.head?
    if d = 0 then return done true
    else if d = star then return round wild string callers
    else return scan wild string callers
  else
    let x ← string.head?
    if x = 0 then return back callers else plainRound c x wild string callers

/-- One place of the loop behind a `'*'`. -/
def onePlace (wild string : Bytes) (callers : List (Bytes × Bytes)) : Option HostRun := do
  let x ← string.head?
  if x = 0 then return back callers
  else
    let d ← wild.head?
    if d = openParen ∨ d = openBracket then return call wild string ((wild, string) :: callers)
    else if toUpper x = toUpper d then
      return call wild.tail string.tail ((wild, string) :: callers)
    else return scan wild string.tail callers

/-- What comes next; nothing behind the end. -/
def step : HostRun → Option HostRun
  | call wild string callers =>
      if callers.length + 1 > MAX_HOSTMATCH_DEPTH then some (back callers)
      else some (round wild string callers)
  | round wild string callers => some ((oneRound wild string callers).getD stray)
  | scan wild string callers => some ((onePlace wild string callers).getD stray)
  | back [] => some (done false)
  | back ((wild, string) :: callers) => some (scan wild string.tail callers)
  | done _ => none
  | stray => none

/-- `hostmatch` is called. -/
def start (wild string : Bytes) : HostRun :=
  if string = [star] then done true else call (block wild) (block string) []

/-- The call returns, and on the way nothing past a terminator is read. -/
def StaysWithin (wild string : Bytes) : Prop :=
  (∃ matched, Reaches step (start wild string) (done matched)) ∧
    ¬ Reaches step (start wild string) stray

/-- The class at the start of `text` takes the byte `x` by the name `alpha` or `number`, and behind
the class are neither `:alnum:` nor a byte like `x`. -/
def HuntsPast (text rest : Bytes) (x : UInt8) : Prop :=
  (startsNoCase (bytes ":alpha:") text = true ∧ isAlpha x = true ∨
    startsNoCase (bytes ":number:") text = true ∧ isDigit x = true) ∧
    startsNoCase (bytes ":alnum:") rest = false ∧ ∀ c ∈ rest, toUpper c ≠ toUpper x

instance (text rest : Bytes) (x : UInt8) : Decidable (HuntsPast text rest x) :=
  inferInstanceAs (Decidable (_ ∧ _))

/-- A round before such a class. -/
def Strays (run : HostRun) : Prop :=
  ∃ text rest x string callers,
    run = round (block (openBracket :: text)) (block (x :: string)) callers ∧
      behindByte closeBracket text = some rest ∧ HuntsPast text rest x

/-! ### Reading in place -/

theorem toUpper_eq_zero : ∀ c, toUpper c = 0 → c = 0 :=
  forall_byte (by decide +kernel)

theorem seekByte_block {b : UInt8} {t : Bytes} (ht : IsText t) :
    seekByte b (block t) =
      some (match behindByte b t with
        | none => block []
        | some rest => b :: block rest) := by
  induction t with
  | nil => rfl
  | cons c t ih =>
    obtain ⟨hc, ht⟩ := isText_cons.1 ht
    show seekByte b (c :: block t) = _
    unfold seekByte behindByte
    by_cases hcb : c = b
    · simp [hcb]
    · simp [hc, hcb, ih ht]

theorem sameStart_block {word t : Bytes} (hword : IsText word) (ht : IsText t) :
    sameStart word (block t) = some (startsNoCase word t) := by
  induction word generalizing t with
  | nil => simp [sameStart, startsNoCase]
  | cons w word ih =>
    obtain ⟨hw, hword⟩ := isText_cons.1 hword
    cases t with
    | nil =>
      have hne : toLower 0 ≠ toLower w := fun h => hw (toLower_eq_zero.1 h.symm)
      simp [block, sameStart, startsNoCase, hne]
    | cons c t =>
      obtain ⟨-, ht⟩ := isText_cons.1 ht
      show sameStart (w :: word) (c :: block t) = _
      unfold sameStart
      rw [ih hword ht]
      by_cases hcw : toLower c = toLower w
      · simp [startsNoCase, hcw]
      · simp [startsNoCase, hcw]

/-- Within a class, the hunt stops at its end. -/
theorem hunt_class {x : UInt8} {t rest : Bytes} (hrest : behindByte closeBracket t = some rest) :
    hunt x ((block rest).length + 1) (block t) =
      some ((t.takeWhile (· != closeBracket)).any fun c => toUpper c == toUpper x) := by
  induction t with
  | nil => cases hrest
  | cons c t ih =>
    show hunt x _ (c :: block t) = _
    unfold hunt
    unfold behindByte at hrest
    by_cases hc : c = closeBracket
    · obtain rfl : t = rest := by simpa [hc] using hrest
      simp [hc]
    · rw [if_neg hc] at hrest
      have hlength : (block t).length ≠ (block rest).length := by
        have := length_lt_of_behindByte hrest
        simp [block]
        omega
      rw [if_neg (by omega), ih hrest]
      by_cases hx : toUpper c = toUpper x
      · simp [hc, hx]
      · simp [hc, hx]

/-- Behind a class, it stops at the first byte like `x`, and at no other. -/
theorem hunt_behind {x : UInt8} {t : Bytes} {n : ℕ} (hx : x ≠ 0) (hn : (block t).length < n) :
    hunt x n (block t) = if t.any fun c => toUpper c == toUpper x then some true else none := by
  induction t with
  | nil =>
    have hzero : toUpper 0 ≠ toUpper x := fun h => hx (toUpper_eq_zero x h.symm)
    have hn' : 1 ≠ n := by
      simp [block] at hn
      omega
    simp [block, hunt, hzero, hn']
  | cons c t ih =>
    show hunt x n (c :: block t) = _
    have hlt : (block t).length + 1 < n := by simpa [block] using hn
    unfold hunt
    rw [if_neg (by omega), ih (by omega)]
    by_cases hc : toUpper c = toUpper x
    · simp [hc]
    · simp [hc]

theorem isText_of_behindByte {b : UInt8} {t rest : Bytes} (ht : IsText t)
    (h : behindByte b t = some rest) : IsText rest := by
  induction t with
  | nil => cases h
  | cons c t ih =>
    unfold behindByte at h
    split at h
    · cases h
      exact (isText_cons.1 ht).2
    · exact ih (isText_cons.1 ht).2 h

/-- The names of the classes exclude each other. -/
theorem not_number_of_alpha {t : Bytes} (h : startsNoCase (bytes ":alpha:") t = true) :
    startsNoCase (bytes ":number:") t = false := by
  by_contra hnumber
  rw [Bool.not_eq_false] at hnumber
  have halpha := congrArg (fun l => l[1]?) (beq_iff_eq.1 h)
  have hnumber := congrArg (fun l => l[1]?) (beq_iff_eq.1 hnumber)
  rw [List.getElem?_map, List.getElem?_take_of_lt (by decide)] at halpha hnumber
  rw [halpha] at hnumber
  exact absurd hnumber (by decide)

theorem collatorRest_behind {x : UInt8} {rest : Bytes} (hx : x ≠ 0) (ht : IsText rest)
    (hclass : isAlpha x = true ∨ isDigit x = true) :
    collatorRest x (closeBracket :: block rest) (block rest) =
      if startsNoCase (bytes ":alnum:") rest || rest.any fun c => toUpper c == toUpper x then
        some (some (block rest))
      else none := by
  have hstart := @sameStart_block (bytes ":alnum:") _ (by decide) ht
  have hhunt := hunt_behind hx
    (show (block rest).length < (closeBracket :: block rest).length by simp)
  have hclass' : (isAlpha x || isDigit x) = true := by simpa using hclass
  simp only [collatorRest, hstart, hhunt, hclass', Option.bind_eq_bind, Option.bind_some]
  cases startsNoCase (bytes ":alnum:") rest with
  | true => simp
  | false => cases rest.any fun c => toUpper c == toUpper x <;> simp

theorem collator_block {x : UInt8} {t : Bytes} (hx : x ≠ 0) (ht : IsText t) :
    collator (block (openBracket :: t)) x =
      match behindByte closeBracket t with
      | none => some none
      | some rest =>
          if HuntsPast t rest x then none
          else some (if collate t x then some (block rest) else none) := by
  have hseek := seekByte_block (b := closeBracket) (t := openBracket :: t)
    (isText_cons.2 ⟨by decide, ht⟩)
  have hbehind : behindByte closeBracket (openBracket :: t) = behindByte closeBracket t := rfl
  have halpha := @sameStart_block (bytes ":alpha:") _ (by decide) ht
  have hnumber := @sameStart_block (bytes ":number:") _ (by decide) ht
  have halnum := @sameStart_block (bytes ":alnum:") _ (by decide) ht
  have htail : (block (openBracket :: t)).tail = block t := rfl
  rw [hbehind] at hseek
  simp only [collator, hseek, Option.bind_eq_bind, Option.bind_some, htail]
  cases hrest : behindByte closeBracket t with
  | none => simp [block]
  | some rest =>
    have hstop : ¬ closeBracket = 0 := by decide
    have hbehind' : isAlpha x = true ∨ isDigit x = true →
        collatorRest x (closeBracket :: block rest) (block rest) =
          if startsNoCase (bytes ":alnum:") rest = false ∧ ∀ c ∈ rest, toUpper c ≠ toUpper x
          then none else some (some (block rest)) := by
      intro hclass
      rw [collatorRest_behind hx (isText_of_behindByte ht hrest) hclass]
      cases startsNoCase (bytes ":alnum:") rest with
      | true => simp
      | false =>
        by_cases hany : ∃ c ∈ rest, toUpper c = toUpper x
        · simp [hany]
        · simp [hany]
    have hhunt := hunt_class (x := x) hrest
    simp only [List.head?_cons, Option.some.injEq, hstop, if_false, List.tail_cons, halpha,
      hnumber, Option.bind_some]
    unfold HuntsPast collate
    by_cases ha : startsNoCase (bytes ":alpha:") t = true
    · have hn := not_number_of_alpha ha
      by_cases hclass : isAlpha x = true
      · simp [ha, hn, hclass, hbehind' (Or.inl hclass)]
      · simp [ha, hn, hclass]
    · by_cases hn : startsNoCase (bytes ":number:") t = true
      · by_cases hclass : isDigit x = true
        · simp [ha, hn, hclass, hbehind' (Or.inr hclass)]
        · simp [ha, hn, hclass]
      · simp only [collatorRest, halnum, List.length_cons, hhunt]
        by_cases hl : startsNoCase (bytes ":alnum:") t = true
        · simp [ha, hn, hl]
        · simp [ha, hn, hl]

theorem drop_block {n : ℕ} {s : Bytes} (h : n ≤ s.length) :
    (block s).drop n = block (s.drop n) := by
  rw [block, block, List.drop_append_of_le_length h]

theorem length_le_of_startsNoCase {word s : Bytes} (h : startsNoCase word s = true) :
    word.length ≤ s.length := by
  have hlength := congrArg List.length (beq_iff_eq.1 h)
  simp only [List.length_map, List.length_take] at hlength
  omega

theorem alternatives_block {s alt t rest : Bytes} (hs : IsText s) (halt : IsText alt)
    (hbar : bar ∉ alt) (ht : IsText t) (hrest : behindByte closeParen t = some rest) :
    alternatives (block s) alt (block t) =
      some ((alternate ((alt ++ t.takeWhile (· != closeParen)).splitOn bar) s).map block) := by
  induction t generalizing alt with
  | nil => cases hrest
  | cons c t ih =>
    obtain ⟨hc, htext⟩ := isText_cons.1 ht
    show alternatives (block s) alt (c :: block t) = _
    unfold alternatives
    have hstart := sameStart_block halt hs
    rw [hstart]
    by_cases hparen : c = closeParen
    · subst hparen
      have hsplit : alt.splitOn bar = [alt] := List.splitOn_eq_singleton hbar
      rw [if_pos (Or.inr rfl), List.takeWhile_cons_of_neg (by simp), List.append_nil, hsplit]
      cases hfits : startsNoCase alt s with
      | true => simp [alternate, hfits, drop_block (length_le_of_startsNoCase hfits)]
      | false => simp [alternate, hfits]
    · have hrest' : behindByte closeParen t = some rest := by
        simpa [behindByte, hparen] using hrest
      rw [List.takeWhile_cons_of_pos (by simpa using hparen)]
      by_cases hc' : c = bar
      · subst hc'
        have hsplit : (alt ++ bar :: t.takeWhile (· != closeParen)).splitOn bar =
            alt :: (t.takeWhile (· != closeParen)).splitOn bar := by
          rw [List.splitOn_append_cons_self, List.splitOn_eq_singleton hbar]
          rfl
        rw [if_pos (Or.inl rfl), hsplit]
        cases hfits : startsNoCase alt s with
        | true => simp [alternate, hfits, drop_block (length_le_of_startsNoCase hfits)]
        | false =>
          have hnext := @ih [] (by decide) (by simp) htext hrest'
          simp [alternate, hfits, hparen, hnext]
      · rw [if_neg (not_or.2 ⟨hc', hparen⟩)]
        have halt' : IsText (alt ++ [c]) := by
          unfold IsText at halt ⊢
          simp [halt, Ne.symm hc]
        have hnext := @ih (alt ++ [c]) halt' (by simp [hbar, Ne.symm hc']) htext hrest'
        rw [hnext, List.append_assoc]
        rfl

theorem skipStars_block {t : Bytes} (ht : IsText t) :
    skipStars (block t) = some (block (t.dropWhile (· == star))) := by
  induction t with
  | nil => rfl
  | cons c t ih =>
    show skipStars (c :: block t) = _
    unfold skipStars
    by_cases hc : c = star
    · simp [hc, ih (isText_cons.1 ht).2]
    · simp [hc, block]

theorem swallow_suffix (w s : Bytes) : (swallow w s).1 <:+ w ∧ (swallow w s).2 <:+ s := by
  induction w generalizing s with
  | nil => exact ⟨List.suffix_rfl, List.suffix_rfl⟩
  | cons c w ih =>
    cases s with
    | nil => exact ⟨List.suffix_rfl, List.suffix_rfl⟩
    | cons x s =>
      unfold swallow
      split
      · obtain ⟨hw, hs⟩ := ih s
        exact ⟨hw.trans (List.suffix_cons c w), hs.trans (List.suffix_cons x s)⟩
      · exact ⟨List.suffix_rfl, List.suffix_rfl⟩

theorem skipQuestions_block {t s : Bytes} (ht : IsText t) (hs : IsText s) :
    skipQuestions (block t) (block s) =
      some (block (swallow t s).1, block (swallow t s).2) := by
  induction t generalizing s with
  | nil => rfl
  | cons c t ih =>
    show skipQuestions (c :: block t) (block s) = _
    unfold skipQuestions
    cases s with
    | nil => by_cases hc : c = question <;> simp [hc, block, swallow]
    | cons x s =>
      obtain ⟨hx, hs⟩ := isText_cons.1 hs
      by_cases hc : c = question
      · simp [hc, block, swallow, hx]
        exact ih (isText_cons.1 ht).2 hs
      · simp [hc, block, swallow]

/-! ### The rounds -/

/-- The run strays or comes to `run'`. -/
def Ends (run run' : HostRun) : Prop := Reaches step run stray ∨ Reaches step run run'

theorem Ends.refl (run : HostRun) : Ends run run := Or.inr .refl

theorem Ends.head {run next run' : HostRun} (h : step run = some next) (hends : Ends next run') :
    Ends run run' := by
  rcases hends with hstray | hreach
  · exact Or.inl (Relation.ReflTransGen.head h hstray)
  · exact Or.inr (Relation.ReflTransGen.head h hreach)

theorem Ends.trans {run next run' : HostRun} (h : Ends run next) (hends : Ends next run') :
    Ends run run' := by
  rcases h with hstray | hreach
  · exact Or.inl hstray
  · rcases hends with hstray | hreach'
    · exact Or.inl (hreach.trans hstray)
    · exact Or.inr (hreach.trans hreach')

/-- What `_hostmatch` leaves its callers with. -/
def answer (matched : Bool) (callers : List (Bytes × Bytes)) : HostRun :=
  if matched then done true else back callers

/-- A round of a mask and a string that lie in memory. -/
def roundAt (wild string : Bytes) (callers : List (Bytes × Bytes)) : HostRun :=
  round (block wild) (block string) callers

theorem oneRound_nil {s : Bytes} {callers : List (Bytes × Bytes)} (hs : IsText s) :
    oneRound (block []) (block s) callers = some (answer s.isEmpty callers) := by
  cases s with
  | nil => rfl
  | cons x s => simp [oneRound, block, answer, (isText_cons.1 hs).1]

theorem oneRound_star {w s : Bytes} {callers : List (Bytes × Bytes)} (hw : IsText w)
    (hs : IsText s) :
    oneRound (block (star :: w)) (block s) callers =
      some (match swallow (w.dropWhile (· == star)) s with
        | ([], _) => done true
        | (d :: wild, string) =>
            if d = star then roundAt (d :: wild) string callers
            else scan (block (d :: wild)) (block string) callers) := by
  have hdrop : IsText (w.dropWhile (· == star)) := fun h => hw ((List.dropWhile_suffix _).subset h)
  have hstars := skipStars_block hw
  have hquestions := skipQuestions_block hdrop hs
  have hne : ¬ star = 0 := by decide
  have hsuffix := (swallow_suffix (w.dropWhile (· == star)) s).1
  simp only [oneRound, block, List.cons_append, List.head?_cons, List.tail_cons,
    Option.bind_eq_bind, Option.bind_some, hne, if_false, if_true]
  simp only [block] at hstars hquestions
  rw [hstars, Option.bind_some, hquestions, Option.bind_some]
  generalize swallow (w.dropWhile (· == star)) s = out at hsuffix ⊢
  obtain ⟨rest, t⟩ := out
  cases rest with
  | nil => simp
  | cons d rest =>
    have hd : d ≠ 0 := by
      rintro rfl
      exact hdrop (hsuffix.subset List.mem_cons_self)
    simp [hd, roundAt, block]
    split <;> rfl

theorem oneRound_plain_nil {c : UInt8} {w : Bytes} {callers : List (Bytes × Bytes)} (hc : c ≠ 0)
    (hstar : c ≠ star) : oneRound (block (c :: w)) (block []) callers = some (back callers) := by
  simp [oneRound, block, hc, hstar]

/-- Before a byte of the string, a round is the round of the byte of the mask. -/
theorem oneRound_plain {c x : UInt8} {w s : Bytes} {callers : List (Bytes × Bytes)} (hc : c ≠ 0)
    (hstar : c ≠ star) (hx : x ≠ 0) :
    oneRound (block (c :: w)) (block (x :: s)) callers =
      plainRound c x (block (c :: w)) (block (x :: s)) callers := by
  simp [oneRound, block, hc, hstar, hx]

theorem plainRound_bracket {x : UInt8} {w s : Bytes} {callers : List (Bytes × Bytes)} (hx : x ≠ 0)
    (hw : IsText w) :
    plainRound openBracket x (block (openBracket :: w)) (block (x :: s)) callers =
      match behindByte closeBracket w with
      | none => some (back callers)
      | some rest =>
          if HuntsPast w rest x then none
          else some (if collate w x then roundAt rest s callers else back callers) := by
  have hcollator := collator_block hx hw
  simp only [plainRound, if_true, hcollator]
  cases hrest : behindByte closeBracket w with
  | none => rfl
  | some rest =>
    by_cases hpast : HuntsPast w rest x
    · simp [hpast]
    · by_cases htakes : collate w x = true
      · simp [hpast, htakes, roundAt, block]
      · simp [hpast, htakes]

theorem plainRound_paren {x : UInt8} {w s : Bytes} {callers : List (Bytes × Bytes)} (hx : x ≠ 0)
    (hw : IsText w) (hs : IsText s) :
    plainRound openParen x (block (openParen :: w)) (block (x :: s)) callers =
      some (match behindByte closeParen w with
        | none => back callers
        | some rest =>
            match alternate ((w.takeWhile (· != closeParen)).splitOn bar) (x :: s) with
            | none => back callers
            | some string => roundAt rest string callers) := by
  have hseek := seekByte_block (b := closeParen) (t := openParen :: w)
    (isText_cons.2 ⟨by decide, hw⟩)
  have hbehind : behindByte closeParen (openParen :: w) = behindByte closeParen w := rfl
  have htail : (block (openParen :: w)).tail = block w := rfl
  have hne : ¬ openParen = openBracket := by decide
  rw [hbehind] at hseek
  simp only [plainRound, hne, if_false, if_true, hseek, htail, Option.bind_eq_bind,
    Option.bind_some]
  cases hrest : behindByte closeParen w with
  | none => simp [block]
  | some rest =>
    have hstop : ¬ closeParen = 0 := by decide
    have halternatives := @alternatives_block (x :: s) [] _ _ (isText_cons.2 ⟨hx, hs⟩)
      (by decide) (by simp) hw hrest
    rw [List.nil_append] at halternatives
    simp only [List.head?_cons, Option.some.injEq, hstop, if_false, halternatives, List.tail_cons,
      Option.bind_some]
    cases alternate ((w.takeWhile (· != closeParen)).splitOn bar) (x :: s) with
    | none => rfl
    | some string => rfl

theorem plainRound_byte {c x : UInt8} {w s : Bytes} {callers : List (Bytes × Bytes)}
    (hbracket : c ≠ openBracket) (hparen : c ≠ openParen) :
    plainRound c x (block (c :: w)) (block (x :: s)) callers =
      some (if c ≠ question ∧ toUpper x ≠ toUpper c then back callers
        else roundAt w s callers) := by
  simp only [plainRound, hbracket, hparen, if_false]
  split <;> rfl

theorem onePlace_nil {w : Bytes} {callers : List (Bytes × Bytes)} :
    onePlace w (block []) callers = some (back callers) := by
  simp [onePlace, block]

theorem onePlace_cons {d x : UInt8} {w s : Bytes} {callers : List (Bytes × Bytes)} (hx : x ≠ 0) :
    onePlace (block (d :: w)) (block (x :: s)) callers =
      some (if d = openParen ∨ d = openBracket then
          call (block (d :: w)) (block (x :: s)) ((block (d :: w), block (x :: s)) :: callers)
        else if toUpper x = toUpper d then
          call (block w) (block s) ((block (d :: w), block (x :: s)) :: callers)
        else scan (block (d :: w)) (block s) callers) := by
  simp [onePlace, block, hx]
  split
  · rfl
  · split <;> rfl

/-! ### Runs -/

/-- What a call does, at any depth of the recursion with `d` levels left. -/
def Answers (d : ℕ) (deeper : Bytes → Bytes → Bool) : Prop :=
  ∀ w s callers, IsText w → IsText s → callers.length + d = MAX_HOSTMATCH_DEPTH →
    Ends (call (block w) (block s) callers) (answer (deeper w s) callers)

/-- A caller goes on behind a place from which the rest does not match. -/
theorem Ends.scan_on {d : ℕ} {deeper : Bytes → Bytes → Bool} {w s w' s' : Bytes}
    {callers : List (Bytes × Bytes)} {x : UInt8} {run' : HostRun} (hdeeper : Answers d deeper)
    (hcallers : callers.length + 1 + d = MAX_HOSTMATCH_DEPTH) (hw : IsText w') (hs : IsText s')
    (hfound : deeper w' s' = true → run' = done true)
    (hrest : deeper w' s' = false → Ends (scan w (block s) callers) run') :
    Ends (call (block w') (block s') ((w, block (x :: s)) :: callers)) run' := by
  have hcall := hdeeper w' s' ((w, block (x :: s)) :: callers) hw hs hcallers
  cases hmatched : deeper w' s' with
  | true =>
    rw [hmatched] at hcall
    rw [hfound hmatched]
    exact hcall
  | false =>
    rw [hmatched] at hcall
    refine hcall.trans (Ends.head ?_ (hrest hmatched))
    rfl

theorem ends_scanAll {d : ℕ} {deeper : Bytes → Bytes → Bool} {b : UInt8} {w s : Bytes}
    {callers : List (Bytes × Bytes)} (hdeeper : Answers d deeper)
    (hcallers : callers.length + 1 + d = MAX_HOSTMATCH_DEPTH)
    (hb : b = openParen ∨ b = openBracket) (hw : IsText (b :: w)) (hs : IsText s) :
    Ends (scan (block (b :: w)) (block s) callers)
      (answer (scanAll deeper (b :: w) s) callers) := by
  induction s with
  | nil =>
    refine @Ends.head _ (back callers) _ ?_ (Ends.refl _)
    simp [step, onePlace_nil]
  | cons x s ih =>
    obtain ⟨hx, htext⟩ := isText_cons.1 hs
    refine @Ends.head _ (call (block (b :: w)) (block (x :: s))
      ((block (b :: w), block (x :: s)) :: callers)) _ ?_ ?_
    · simp [step, onePlace_cons hx, hb]
    · refine Ends.scan_on hdeeper hcallers hw hs (fun h => ?_) fun h => ?_
      · simp [scanAll, h, answer]
      · simpa [scanAll, h] using ih htext

theorem ends_scanFor {d : ℕ} {deeper : Bytes → Bytes → Bool} {b : UInt8} {w s : Bytes}
    {callers : List (Bytes × Bytes)} (hdeeper : Answers d deeper)
    (hcallers : callers.length + 1 + d = MAX_HOSTMATCH_DEPTH)
    (hb : ¬ (b = openParen ∨ b = openBracket)) (hw : IsText w) (hs : IsText s) :
    Ends (scan (block (b :: w)) (block s) callers) (answer (scanFor deeper b w s) callers) := by
  induction s with
  | nil =>
    refine @Ends.head _ (back callers) _ ?_ (Ends.refl _)
    simp [step, onePlace_nil]
  | cons x s ih =>
    obtain ⟨hx, htext⟩ := isText_cons.1 hs
    by_cases hxb : toUpper x = toUpper b
    · refine @Ends.head _ (call (block w) (block s)
        ((block (b :: w), block (x :: s)) :: callers)) _ ?_ ?_
      · simp [step, onePlace_cons hx, hb, hxb]
      · refine Ends.scan_on hdeeper hcallers hw htext (fun h => ?_) fun h => ?_
        · simp [scanFor, h, hxb, answer]
        · simpa [scanFor, h] using ih htext
    · refine @Ends.head _ (scan (block (b :: w)) (block s) callers) _ ?_ ?_
      · simp [step, onePlace_cons hx, hb, hxb]
      · have hne : (toUpper x == toUpper b) = false := by simpa using hxb
        simpa [scanFor, hne] using ih htext

theorem isText_of_suffix {s t : Bytes} (ht : IsText t) (h : s <:+ t) : IsText s :=
  fun hmem => ht (h.subset hmem)

theorem Ends.of_round {w s : Bytes} {callers : List (Bytes × Bytes)} {next run' : HostRun}
    (h : oneRound (block w) (block s) callers = some next) (hends : Ends next run') :
    Ends (roundAt w s callers) run' :=
  hends.head (by simp [roundAt, step, h])

/-- The round of a class strays, or leaves the loop with what is behind the class. -/
theorem ends_bracket {deeper : Bytes → Bytes → Bool} {n : ℕ} {w s : Bytes} {x : UInt8}
    {callers : List (Bytes × Bytes)} (hw : IsText w) (hx : x ≠ 0)
    (hrest : ∀ rest, rest.length < w.length → IsText rest →
      Ends (roundAt rest s callers) (answer (hostLoop deeper n rest s) callers)) :
    Ends (roundAt (openBracket :: w) (x :: s) callers)
      (answer (hostLoop deeper (n + 1) (openBracket :: w) (x :: s)) callers) := by
  have hround := @oneRound_plain openBracket _ w s callers
    (by decide) (by decide) hx
  have hne : ¬ openBracket = star := by decide
  rw [plainRound_bracket hx hw] at hround
  simp only [hostLoop, hne, if_false, if_true]
  cases hclose : behindByte closeBracket w with
  | none =>
    rw [hclose] at hround
    exact Ends.of_round hround (Ends.refl _)
  | some rest =>
    rw [hclose] at hround
    dsimp only at hround ⊢
    by_cases hpast : HuntsPast w rest x
    · rw [if_pos hpast] at hround
      refine Or.inl (Relation.ReflTransGen.single ?_)
      simp [roundAt, step, hround]
    · rw [if_neg hpast] at hround
      refine Ends.of_round hround ?_
      cases collate w x with
      | true => exact hrest rest (length_lt_of_behindByte hclose) (isText_of_behindByte hw hclose)
      | false => exact Ends.refl _

/-- The round of a group leaves the loop with what is behind the group and behind the first
alternative that fits. -/
theorem ends_paren {deeper : Bytes → Bytes → Bool} {n : ℕ} {w s : Bytes} {x : UInt8}
    {callers : List (Bytes × Bytes)} (hw : IsText w) (hs : IsText (x :: s))
    (hrest : ∀ rest t, rest.length < w.length → IsText rest → IsText t →
      Ends (roundAt rest t callers) (answer (hostLoop deeper n rest t) callers)) :
    Ends (roundAt (openParen :: w) (x :: s) callers)
      (answer (hostLoop deeper (n + 1) (openParen :: w) (x :: s)) callers) := by
  obtain ⟨hx, hstext⟩ := isText_cons.1 hs
  have hround := @oneRound_plain openParen _ w s callers
    (by decide) (by decide) hx
  have hne : ¬ openParen = star := by decide
  have hne' : ¬ openParen = openBracket := by decide
  rw [plainRound_paren hx hw hstext] at hround
  simp only [hostLoop, hne, hne', if_false, if_true]
  cases hclose : behindByte closeParen w with
  | none =>
    rw [hclose] at hround
    exact Ends.of_round hround (Ends.refl _)
  | some rest =>
    rw [hclose] at hround
    dsimp only at hround ⊢
    cases halt : alternate ((w.takeWhile (· != closeParen)).splitOn bar) (x :: s) with
    | none =>
      rw [halt] at hround
      exact Ends.of_round hround (Ends.refl _)
    | some t =>
      rw [halt] at hround
      exact Ends.of_round hround (hrest rest t (length_lt_of_behindByte hclose)
        (isText_of_behindByte hw hclose) (isText_of_suffix hs (suffix_alternate halt)))

/-- The round of a `'*'` leaves the loop with another `'*'`, or looks for a place to go on. -/
theorem ends_star {d : ℕ} {deeper : Bytes → Bytes → Bool} {n : ℕ} {w s : Bytes}
    {callers : List (Bytes × Bytes)} (hdeeper : Answers d deeper)
    (hcallers : callers.length + 1 + d = MAX_HOSTMATCH_DEPTH) (hw : IsText w) (hs : IsText s)
    (hrest : ∀ rest t, rest.length ≤ w.length → IsText rest → IsText t →
      Ends (roundAt rest t callers) (answer (hostLoop deeper n rest t) callers)) :
    Ends (roundAt (star :: w) s callers)
      (answer (hostLoop deeper (n + 1) (star :: w) s) callers) := by
  have hround := @oneRound_star _ _ callers hw hs
  obtain ⟨hsuffix, hleft⟩ := swallow_suffix (w.dropWhile (· == star)) s
  generalize hout : swallow (w.dropWhile (· == star)) s = out at hround hsuffix hleft
  obtain ⟨rest, left⟩ := out
  have hsuffix := hsuffix.trans (List.dropWhile_suffix (l := w) (· == star))
  have hresttext := isText_of_suffix hw hsuffix
  have hlefttext := isText_of_suffix hs hleft
  simp only [hostLoop, if_true, hout]
  refine Ends.of_round hround ?_
  cases rest with
  | nil => exact Ends.refl _
  | cons b rest =>
    dsimp only
    by_cases hb : b = star
    · rw [if_pos hb, if_pos hb]
      exact hrest (b :: rest) left hsuffix.length_le hresttext hlefttext
    · rw [if_neg hb, if_neg hb]
      by_cases hspecial : b = openParen ∨ b = openBracket
      · rw [if_pos hspecial]
        exact ends_scanAll hdeeper hcallers hspecial hresttext hlefttext
      · rw [if_neg hspecial]
        exact ends_scanFor hdeeper hcallers hspecial (isText_cons.1 hresttext).2 hlefttext

theorem ends_hostLoop {d : ℕ} {deeper : Bytes → Bytes → Bool} {n : ℕ} {w s : Bytes}
    {callers : List (Bytes × Bytes)} (hdeeper : Answers d deeper)
    (hcallers : callers.length + 1 + d = MAX_HOSTMATCH_DEPTH) (hn : w.length < n)
    (hw : IsText w) (hs : IsText s) :
    Ends (roundAt w s callers) (answer (hostLoop deeper n w s) callers) := by
  induction n generalizing w s with
  | zero => omega
  | succ n ih =>
    cases w with
    | nil => exact Ends.of_round (oneRound_nil hs) (Ends.refl _)
    | cons c w =>
      obtain ⟨hc, hwtext⟩ := isText_cons.1 hw
      have hlength : w.length < n := by simpa using hn
      by_cases hstar : c = star
      · subst hstar
        exact ends_star hdeeper hcallers hwtext hs fun rest t hle => ih (by omega)
      cases s with
      | nil =>
        simp only [hostLoop, hstar, if_false]
        exact Ends.of_round (oneRound_plain_nil hc hstar) (Ends.refl _)
      | cons x s =>
        obtain ⟨hx, hstext⟩ := isText_cons.1 hs
        by_cases hbracket : c = openBracket
        · subst hbracket
          exact ends_bracket hwtext hx fun rest hlt hrest => ih (by omega) hrest hstext
        by_cases hparen : c = openParen
        · subst hparen
          exact ends_paren hwtext hs fun rest t hlt => ih (by omega)
        have hround := @oneRound_plain _ _ w s callers hc hstar hx
        rw [plainRound_byte hbracket hparen] at hround
        simp only [hostLoop, hstar, hbracket, hparen, if_false]
        refine Ends.of_round hround ?_
        by_cases hne : c ≠ question ∧ toUpper x ≠ toUpper c
        · rw [if_pos hne, if_pos hne]
          exact Ends.refl _
        · rw [if_neg hne, if_neg hne]
          exact ih hlength hwtext hstext

theorem answers_hostDepth (d : ℕ) : Answers d (hostDepth d) := by
  induction d with
  | zero =>
    intro w s callers _ _ hcallers
    refine @Ends.head _ (back callers) _ ?_ (Ends.refl _)
    simp only [step]
    rw [if_pos (by omega)]
  | succ d ih =>
    intro w s callers hw hs hcallers
    refine @Ends.head _ (roundAt w s callers) _ ?_
      (ends_hostLoop ih (by omega) (Nat.lt_succ_self _) hw hs)
    simp only [step]
    rw [if_neg (by omega)]
    rfl

/-- A call strays, or it returns what the matcher says. -/
theorem ends_hostmatch {wild string : Bytes} (hw : IsText wild) (hs : IsText string) :
    Ends (start wild string) (done (hostmatch wild string)) := by
  unfold start hostmatch
  by_cases hstring : string = [star]
  · rw [if_pos hstring, hstring]
    exact Ends.refl _
  · have hne : (string == [star]) = false := by simpa using hstring
    rw [if_neg hstring, hne, Bool.false_or]
    refine (answers_hostDepth MAX_HOSTMATCH_DEPTH wild string [] hw hs (by simp)).trans ?_
    cases hostDepth MAX_HOSTMATCH_DEPTH wild string with
    | true => exact Ends.refl _
    | false =>
      refine @Ends.head _ (done false) _ ?_ (Ends.refl _)
      rfl

/-! ### What a run comes to -/

/-- A pointer into a string. -/
def Within (p : Bytes) : Prop := ∃ t, IsText t ∧ p = block t

/-- A pointer to a byte of a string. -/
def AtByte (p : Bytes) : Prop := ∃ c t, IsText (c :: t) ∧ p = block (c :: t)

/-- The places of callers. -/
def CallersOk (callers : List (Bytes × Bytes)) : Prop :=
  ∀ f ∈ callers, AtByte f.1 ∧ AtByte f.2

/-- All pointers of a run lie in their strings. -/
def InPlace : HostRun → Prop
  | call wild string callers => Within wild ∧ Within string ∧ CallersOk callers
  | round wild string callers => Within wild ∧ Within string ∧ CallersOk callers
  | scan wild string callers => AtByte wild ∧ Within string ∧ CallersOk callers
  | back callers => CallersOk callers
  | done _ => True
  | stray => False

theorem AtByte.within {p : Bytes} (h : AtByte p) : Within p := by
  obtain ⟨c, t, ht, rfl⟩ := h
  exact ⟨c :: t, ht, rfl⟩

theorem AtByte.tail {p : Bytes} (h : AtByte p) : Within p.tail := by
  obtain ⟨c, t, ht, rfl⟩ := h
  exact ⟨t, (isText_cons.1 ht).2, rfl⟩

theorem CallersOk.cons {w s : Bytes} {callers : List (Bytes × Bytes)} (h : CallersOk callers)
    (hw : AtByte w) (hs : AtByte s) : CallersOk ((w, s) :: callers) := by
  intro f hf
  rcases List.mem_cons.1 hf with rfl | hf
  · exact ⟨hw, hs⟩
  · exact h f hf

theorem inPlace_roundAt {w s : Bytes} {callers : List (Bytes × Bytes)} (hw : IsText w)
    (hs : IsText s) (hcallers : CallersOk callers) : InPlace (roundAt w s callers) :=
  ⟨⟨w, hw, rfl⟩, ⟨s, hs, rfl⟩, hcallers⟩

theorem inPlace_answer {matched : Bool} {callers : List (Bytes × Bytes)}
    (hcallers : CallersOk callers) : InPlace (answer matched callers) := by
  cases matched with
  | true => trivial
  | false => exact hcallers

/-- A round keeps to the strings, or it is one that hunts past the mask. -/
theorem oneRound_inPlace {w s : Bytes} {callers : List (Bytes × Bytes)} (hw : IsText w)
    (hs : IsText s) (hcallers : CallersOk callers) :
    (∃ next, oneRound (block w) (block s) callers = some next ∧ InPlace next) ∨
      Strays (roundAt w s callers) := by
  cases w with
  | nil => exact Or.inl ⟨_, oneRound_nil hs, inPlace_answer hcallers⟩
  | cons c w =>
    obtain ⟨hc, hwtext⟩ := isText_cons.1 hw
    by_cases hstar : c = star
    · subst hstar
      refine Or.inl ⟨_, oneRound_star hwtext hs, ?_⟩
      obtain ⟨hsuffix, hleft⟩ := swallow_suffix (w.dropWhile (· == star)) s
      have hresttext := isText_of_suffix hwtext (hsuffix.trans (List.dropWhile_suffix _))
      have hlefttext := isText_of_suffix hs hleft
      generalize swallow (w.dropWhile (· == star)) s = out at hresttext hlefttext
      obtain ⟨rest, left⟩ := out
      cases rest with
      | nil => trivial
      | cons b rest =>
        dsimp only
        split
        · exact inPlace_roundAt hresttext hlefttext hcallers
        · exact ⟨⟨b, rest, hresttext, rfl⟩, ⟨left, hlefttext, rfl⟩, hcallers⟩
    cases s with
    | nil => exact Or.inl ⟨_, oneRound_plain_nil hc hstar, hcallers⟩
    | cons x s =>
      obtain ⟨hx, hstext⟩ := isText_cons.1 hs
      rw [oneRound_plain hc hstar hx]
      by_cases hbracket : c = openBracket
      · subst hbracket
        rw [plainRound_bracket hx hwtext]
        cases hclose : behindByte closeBracket w with
        | none => exact Or.inl ⟨_, rfl, hcallers⟩
        | some rest =>
          dsimp only
          by_cases hpast : HuntsPast w rest x
          · exact Or.inr ⟨w, rest, x, s, callers, rfl, hclose, hpast⟩
          · rw [if_neg hpast]
            refine Or.inl ⟨_, rfl, ?_⟩
            split
            · exact inPlace_roundAt (isText_of_behindByte hwtext hclose) hstext hcallers
            · exact hcallers
      refine Or.inl ?_
      by_cases hparen : c = openParen
      · subst hparen
        rw [plainRound_paren hx hwtext hstext]
        refine ⟨_, rfl, ?_⟩
        cases hclose : behindByte closeParen w with
        | none => exact hcallers
        | some rest =>
          dsimp only
          cases halt : alternate ((w.takeWhile (· != closeParen)).splitOn bar) (x :: s) with
          | none => exact hcallers
          | some t =>
            exact inPlace_roundAt (isText_of_behindByte hwtext hclose)
              (isText_of_suffix hs (suffix_alternate halt)) hcallers
      · rw [plainRound_byte hbracket hparen]
        refine ⟨_, rfl, ?_⟩
        split
        · exact hcallers
        · exact inPlace_roundAt hwtext hstext hcallers

theorem onePlace_inPlace {wild string : Bytes} {callers : List (Bytes × Bytes)}
    (hwild : AtByte wild) (hstring : Within string) (hcallers : CallersOk callers) :
    ∃ next, onePlace wild string callers = some next ∧ InPlace next := by
  obtain ⟨s, hs, rfl⟩ := hstring
  cases s with
  | nil => exact ⟨_, onePlace_nil, hcallers⟩
  | cons x s =>
    have hplace : AtByte (block (x :: s)) := ⟨x, s, hs, rfl⟩
    have hdeeper := hcallers.cons hwild hplace
    obtain ⟨d, w, hw, rfl⟩ := hwild
    obtain ⟨hx, hstext⟩ := isText_cons.1 hs
    refine ⟨_, onePlace_cons hx, ?_⟩
    split
    · exact ⟨⟨d :: w, hw, rfl⟩, ⟨x :: s, hs, rfl⟩, hdeeper⟩
    · split
      · exact ⟨⟨w, (isText_cons.1 hw).2, rfl⟩, ⟨s, hstext, rfl⟩, hdeeper⟩
      · exact ⟨⟨d, w, hw, rfl⟩, ⟨s, hstext, rfl⟩, hcallers⟩

/-- A step keeps to the strings, or it is the round of a class that hunts past the mask. -/
theorem step_inPlace {run next : HostRun} (h : InPlace run) (hstep : step run = some next) :
    InPlace next ∨ Strays run := by
  cases run with
  | call wild string callers =>
    obtain ⟨hwild, hstring, hcallers⟩ := h
    simp only [step] at hstep
    split at hstep
    · cases hstep
      exact Or.inl hcallers
    · cases hstep
      exact Or.inl ⟨hwild, hstring, hcallers⟩
  | round wild string callers =>
    obtain ⟨⟨w, hw, rfl⟩, ⟨s, hs, rfl⟩, hcallers⟩ := h
    rcases oneRound_inPlace hw hs hcallers with ⟨next', hround, hnext⟩ | hstrays
    · rw [step, hround] at hstep
      cases hstep
      exact Or.inl hnext
    · exact Or.inr hstrays
  | scan wild string callers =>
    obtain ⟨hwild, hstring, hcallers⟩ := h
    obtain ⟨next', hplace, hnext⟩ := onePlace_inPlace hwild hstring hcallers
    rw [step, hplace] at hstep
    cases hstep
    exact Or.inl hnext
  | back callers =>
    cases callers with
    | nil =>
      cases hstep
      exact Or.inl trivial
    | cons f callers =>
      obtain ⟨wild, string⟩ := f
      obtain ⟨hwild, hstring⟩ := h (wild, string) List.mem_cons_self
      cases hstep
      exact Or.inl ⟨hwild, hstring.tail, fun f hf => h f (List.mem_cons_of_mem _ hf)⟩
  | done matched => cases hstep
  | stray => cases hstep

theorem block_inj {s t : Bytes} : block s = block t ↔ s = t := List.append_left_inj [0]

/-- A round that hunts past the mask does read there. -/
theorem step_of_strays {run : HostRun} (h : InPlace run) (hstrays : Strays run) :
    step run = some stray := by
  obtain ⟨text, rest, x, string, callers, rfl, hclose, hpast⟩ := hstrays
  obtain ⟨⟨w, hw, hwild⟩, ⟨s, hs, hstring⟩, -⟩ := h
  obtain rfl := block_inj.1 hwild
  obtain rfl := block_inj.1 hstring
  have hx := (isText_cons.1 hs).1
  have hround := @oneRound_plain openBracket _ text string callers
    (by decide) (by decide) hx
  rw [plainRound_bracket hx (isText_cons.1 hw).2, hclose] at hround
  simp [step, hround, hpast]

theorem inPlace_start {wild string : Bytes} (hw : IsText wild) (hs : IsText string) :
    InPlace (start wild string) := by
  unfold start
  split
  · trivial
  · exact ⟨⟨wild, hw, rfl⟩, ⟨string, hs, rfl⟩, fun f hf => absurd hf (List.not_mem_nil)⟩

/-- As long as no round hunts past the mask, all pointers lie in their strings. -/
theorem inPlace_of_reaches {run run' : HostRun} (h : InPlace run) (hreach : Reaches step run run')
    (hno : ∀ r, Reaches step run r → ¬ Strays r) : InPlace run' := by
  induction hreach with
  | refl => exact h
  | tail hreach hstep ih =>
    rcases step_inPlace ih hstep with hnext | hstrays
    · exact hnext
    · exact absurd hstrays (hno _ hreach)

/-- A run that never reads past a terminator comes to no round that would. -/
theorem not_strays_of_never {run run' : HostRun} (h : InPlace run)
    (hnever : ¬ Reaches step run stray) (hreach : Reaches step run run') :
    InPlace run' ∧ ¬ Strays run' := by
  have hkept : ∀ r, Reaches step run r → InPlace r → ¬ Strays r := fun r hr hin hstrays =>
    hnever (hr.tail (step_of_strays hin hstrays))
  induction hreach with
  | refl => exact ⟨h, hkept _ .refl h⟩
  | tail hreach hstep ih =>
    have hin := (step_inPlace ih.1 hstep).resolve_right ih.2
    exact ⟨hin, hkept _ (hreach.tail hstep) hin⟩

/-- A call that stays within its strings returns what the matcher says. -/
theorem StaysWithin.returns {wild string : Bytes} (h : StaysWithin wild string) (hw : IsText wild)
    (hs : IsText string) : Reaches step (start wild string) (done (hostmatch wild string)) :=
  (ends_hostmatch hw hs).resolve_left h.2

/-- `hostmatch` returns and stays within its strings exactly if it comes to no class that takes a
letter or a digit by name and has neither `:alnum:` nor a byte like it behind itself. -/
theorem staysWithin_iff (wild string : Bytes) (hw : IsText wild) (hs : IsText string) :
    StaysWithin wild string ↔ ∀ run, Reaches step (start wild string) run → ¬ Strays run := by
  have hstart := inPlace_start hw hs
  constructor
  · rintro ⟨-, hnever⟩ run hreach
    exact (not_strays_of_never hstart hnever hreach).2
  · intro hno
    have hnever : ¬ Reaches step (start wild string) stray := fun hreach =>
      inPlace_of_reaches hstart hreach hno
    exact ⟨⟨_, (ends_hostmatch hw hs).resolve_left hnever⟩, hnever⟩

/-- Behind this class is a letter like the one it takes. -/
theorem staysWithin_alpha : StaysWithin (bytes "[:alpha:]a") (bytes "aa") := by
  refine (staysWithin_iff _ _ (by decide) (by decide)).2 ?_
  have hcall : step (start (bytes "[:alpha:]a") (bytes "aa")) =
    some (roundAt (bytes "[:alpha:]a") (bytes "aa") []) := by decide +kernel
  have hclass : step (roundAt (bytes "[:alpha:]a") (bytes "aa") []) =
    some (roundAt (bytes "a") (bytes "a") []) := by decide +kernel
  have hletter : step (roundAt (bytes "a") (bytes "a") []) = some (roundAt [] [] []) := by
    decide +kernel
  have hend : step (roundAt [] [] []) = some (done true) := by decide +kernel
  intro run hreach
  rcases Relation.ReflTransGen.cases_head hreach with rfl | ⟨r, hr, hreach⟩
  · rintro ⟨text, rest, x, string, callers, h, -⟩
    cases h
  obtain rfl := Option.some.inj (hcall.symm.trans hr)
  rcases Relation.ReflTransGen.cases_head hreach with rfl | ⟨r, hr, hreach⟩
  · rintro ⟨text, rest, x, string, callers, h, hclose, hpast⟩
    injection h with hw hs
    obtain ⟨-, rfl⟩ := List.cons.inj (block_inj.1 hw)
    obtain ⟨rfl, -⟩ := List.cons.inj (block_inj.1 hs)
    obtain rfl := Option.some.inj (hclose.symm.trans (by decide +kernel :
      behindByte closeBracket (bytes ":alpha:]a") = some (bytes "a")))
    exact hpast.2.2 97 (by decide) (by decide)
  obtain rfl := Option.some.inj (hclass.symm.trans hr)
  rcases Relation.ReflTransGen.cases_head hreach with rfl | ⟨r, hr, hreach⟩
  · rintro ⟨text, rest, x, string, callers, h, -⟩
    injection h with hw
    cases hw
  obtain rfl := Option.some.inj (hletter.symm.trans hr)
  rcases Relation.ReflTransGen.cases_head hreach with rfl | ⟨r, hr, hreach⟩
  · rintro ⟨text, rest, x, string, callers, h, -⟩
    injection h with hw
    cases hw
  obtain rfl := Option.some.inj (hend.symm.trans hr)
  rcases Relation.ReflTransGen.cases_head hreach with rfl | ⟨r, hr, hreach⟩
  · rintro ⟨text, rest, x, string, callers, h, -⟩
    cases h
  · cases hr

/-- Behind the class is nothing but the terminator. -/
theorem staysWithin_fails :
    ¬ ∀ wild string, IsText wild → IsText string → StaysWithin wild string := by
  intro h
  have hnever := (h (bytes "[:alpha:]") (bytes "a") (by decide) (by decide)).2
  refine hnever (Relation.ReflTransGen.head (b := ?_) ?_ (Relation.ReflTransGen.single ?_))
  · exact round (block (bytes "[:alpha:]")) (block (bytes "a")) []
  · decide
  · decide

end HostRun

end Ithildin
