import Ithildin.Hostmatch
import Ithildin.Lib.Buffer
import Mathlib.Tactic.Common

/-!
# Stripping of control characters

The hook of `cmode_strip.c` that edits a message in place.

* `skipColor`: the look-ahead behind a colour character;
* `canSendStrip`: `can_send_strip`; a read outside of the memory gives nothing;
* `Stripped`: what is to come of a message;
* `canSendStrip_spec`: that it does.
-/

namespace Ithildin

open Buffer

def COLOR_CHAR : UInt8 := 3

/-- `if (isdigit(*from)) from++`. -/
def optionalDigit (buf : Bytes) (pos : ℕ) : Option ℕ := do
  if isDigit (← buf[pos]?) then pure (pos + 1) else pure pos

/-- The background colour. -/
def skipBackground (buf : Bytes) (pos : ℕ) : Option ℕ := do
  if (← buf[pos]?) = commaSign then
    if isDigit (← buf[pos + 1]?) then optionalDigit buf (pos + 2) else pure pos
  else pure pos

/-- What is passed over behind a colour character. -/
def skipColor (buf : Bytes) (pos : ℕ) : Option ℕ := do
  if isDigit (← buf[pos]?) then
    let pos ← optionalDigit buf (pos + 1)
    skipBackground buf pos
  else pure pos

/-- The message and the places of `from` and `to` in it. -/
structure StripState where
  buf : Bytes
  fromPos : ℕ
  toPos : ℕ
  deriving DecidableEq

/-- The loop of `can_send_strip`. -/
def stripLoop (stripChars : UInt8 → Bool) : ℕ → StripState → Option Bytes
  | 0, _ => none
  | fuel + 1, st => do
      let c ← st.buf[st.fromPos]?
      if c = 0 then pure (storeAt st.toPos [0] st.buf)
      else if stripChars c then
        if c = COLOR_CHAR then
          let pos ← skipColor st.buf (st.fromPos + 1)
          stripLoop stripChars fuel { st with fromPos := pos }
        else stripLoop stripChars fuel { st with fromPos := st.fromPos + 1 }
      else
        stripLoop stripChars fuel
          ⟨storeAt st.toPos [c] st.buf, st.fromPos + 1, st.toPos + 1⟩

/-- `can_send_strip`; every turn of the loop moves `from` on. -/
def canSendStrip (isset : Bool) (stripChars : UInt8 → Bool) (extra : Bytes) : Option Bytes :=
  if isset then stripLoop stripChars (extra.length + 1) ⟨extra, 0, 0⟩ else some extra

/-! ### What is to be stripped -/

/-- One or two digits. -/
structure IsNumber (t : Bytes) : Prop where
  ne_nil : t ≠ []
  short : t.length ≤ 2
  digits : ∀ c ∈ t, isDigit c

/-- `n`, `nn`, `n,n` and so on. -/
def IsColor (t : Bytes) : Prop :=
  IsNumber t ∨ ∃ fg bg, IsNumber fg ∧ IsNumber bg ∧ t = fg ++ commaSign :: bg

/-- The longest text of this form at the start of another, if there is one. -/
structure LongestColor (t s : Bytes) : Prop where
  initial : t <+: s
  color : t = [] ∨ IsColor t
  longest : ∀ t', IsColor t' → t' <+: s → t'.length ≤ t.length

/-- A message and what is left of it. -/
inductive Stripped (stripChars : UInt8 → Bool) : Bytes → Bytes → Prop
  | nil : Stripped stripChars [] []
  | keep {c s out} : stripChars c = false → Stripped stripChars s out →
      Stripped stripChars (c :: s) (c :: out)
  | drop {c s out} : stripChars c = true → c ≠ COLOR_CHAR → Stripped stripChars s out →
      Stripped stripChars (c :: s) out
  | color {t s out} : stripChars COLOR_CHAR = true → LongestColor t (t ++ s) →
      Stripped stripChars s out → Stripped stripChars (COLOR_CHAR :: (t ++ s)) out

variable {stripChars : UInt8 → Bool}

theorem Stripped.sublist {s out : Bytes} (h : Stripped stripChars s out) : out.Sublist s := by
  induction h with
  | nil => exact .refl _
  | keep _ _ ih => exact ih.cons_cons _
  | drop _ _ _ ih => exact ih.cons _
  | color _ _ _ ih => exact (ih.trans (List.sublist_append_right _ _)).cons _

theorem Stripped.not_strip {s out : Bytes} (h : Stripped stripChars s out) :
    ∀ c ∈ out, stripChars c = false := by
  induction h with
  | nil => simp
  | keep hc _ ih =>
    intro d hd
    rcases List.mem_cons.1 hd with rfl | hd
    · exact hc
    · exact ih d hd
  | drop _ _ _ ih => exact ih
  | color _ _ _ ih => exact ih

theorem LongestColor.eq {t t' s : Bytes} (h : LongestColor t s) (h' : LongestColor t' s) :
    t = t' := by
  have hle : ∀ {t t' : Bytes}, LongestColor t s → LongestColor t' s → t.length ≤ t'.length := by
    intro t t' h h'
    rcases h.color with rfl | hcolor
    · simp
    · exact h'.longest t hcolor h.initial
  have hlength := le_antisymm (hle h h') (hle h' h)
  exact (List.prefix_of_prefix_length_le h.initial h'.initial hlength.le).eq_of_length hlength

/-- Only one text is left of a message. -/
theorem Stripped.eq {s out out' : Bytes} (h : Stripped stripChars s out)
    (h' : Stripped stripChars s out') : out = out' := by
  induction h generalizing out' with
  | nil =>
    cases h'
    rfl
  | keep hc _ ih =>
    cases h' with
    | keep _ h' => rw [ih h']
    | drop hc' => simp [hc] at hc'
    | color hc' => simp [hc] at hc'
  | drop hc hne _ ih =>
    cases h' with
    | keep hc' => simp [hc] at hc'
    | drop _ _ h' => exact ih h'
    | color => exact absurd rfl hne
  | @color t s out hc hlongest hs ih =>
    generalize hmsg : COLOR_CHAR :: (t ++ s) = msg at h'
    cases h' with
    | nil => cases hmsg
    | keep hc' =>
      obtain ⟨rfl, -⟩ := List.cons.inj hmsg
      simp [hc] at hc'
    | drop _ hne =>
      obtain ⟨rfl, -⟩ := List.cons.inj hmsg
      exact absurd rfl hne
    | @color t' s' _ _ hlongest' h' =>
      have htail : t ++ s = t' ++ s' := (List.cons.inj hmsg).2
      rw [← htail] at hlongest'
      obtain rfl := hlongest.eq hlongest'
      obtain rfl := List.append_cancel_left htail
      exact ih h'

/-! ### The look-ahead -/

/-- The digits at the start, two at most. -/
def numberOf (s : Bytes) : Bytes := (s.take 2).takeWhile isDigit

/-- A comma and digits at the start. -/
def backgroundOf : Bytes → Bytes
  | [] => []
  | c :: s => if c = commaSign ∧ numberOf s ≠ [] then c :: numberOf s else []

/-- What is skipped of a text. -/
def colorOf (s : Bytes) : Bytes :=
  if numberOf s = [] then []
  else numberOf s ++ backgroundOf (s.drop (numberOf s).length)

theorem numberOf_isPrefix (s : Bytes) : numberOf s <+: s :=
  (List.takeWhile_prefix _).trans (List.take_prefix 2 s)

theorem isNumber_numberOf {s : Bytes} (h : numberOf s ≠ []) : IsNumber (numberOf s) where
  ne_nil := h
  short := (List.takeWhile_prefix isDigit).length_le.trans (List.length_take_le 2 s)
  digits := fun _ hc => List.mem_takeWhile_imp hc

/-- A number that is followed by something else is read whole. -/
theorem numberOf_append {t : Bytes} (h : IsNumber t) {r : Bytes}
    (hr : ∀ c ∈ r.head?, isDigit c = false) : numberOf (t ++ r) = t := by
  obtain ⟨hne, hshort, hdigits⟩ := h
  cases t with
  | nil => exact absurd rfl hne
  | cons a t =>
    cases t with
    | nil => cases r <;> simp_all [numberOf]
    | cons b t =>
      obtain rfl : t = [] := by
        rw [List.length_cons, List.length_cons] at hshort
        exact List.length_eq_zero_iff.1 (by omega)
      simp_all [numberOf]

theorem length_le_numberOf {t s : Bytes} (h : IsNumber t) (hs : t <+: s) :
    t.length ≤ (numberOf s).length := by
  obtain ⟨r, rfl⟩ := hs
  have htake : (t ++ r).take 2 = t ++ r.take (2 - t.length) := by
    rw [List.take_append, List.take_of_length_le h.short]
  rw [numberOf, htake, List.takeWhile_append_of_pos h.digits]
  simp

/-- What is skipped is the longest text of the form. -/
theorem longestColor_colorOf (s : Bytes) : LongestColor (colorOf s) s := by
  obtain ⟨r, hr⟩ := numberOf_isPrefix s
  have hdrop : s.drop (numberOf s).length = r := by
    calc
      s.drop (numberOf s).length = (numberOf s ++ r).drop (numberOf s).length := by rw [hr]
      _ = r := List.drop_left
  by_cases hnumber : numberOf s = []
  · have hnone : ∀ t, IsNumber t → ¬ t <+: s := by
      intro t ht hs
      have hle := length_le_numberOf ht hs
      rw [hnumber] at hle
      exact ht.ne_nil (List.length_eq_zero_iff.1 (Nat.le_zero.1 hle))
    rw [colorOf, if_pos hnumber]
    refine ⟨List.nil_prefix, Or.inl rfl, ?_⟩
    rintro t' (ht | ⟨fg, bg, hfg, -, rfl⟩) hs
    · exact absurd hs (hnone t' ht)
    · exact absurd ((List.prefix_append _ _).trans hs) (hnone fg hfg)
  · have hfg := isNumber_numberOf hnumber
    rw [colorOf, if_neg hnumber, hdrop]
    refine ⟨?_, ?_, ?_⟩
    · -- the background is in what follows the number
      conv_rhs => rw [← hr]
      rw [List.prefix_append_right_inj]
      cases r with
      | nil => exact List.nil_prefix
      | cons c r =>
        rw [backgroundOf]
        split
        · exact (List.prefix_cons_inj c).2 (numberOf_isPrefix r)
        · exact List.nil_prefix
    · refine Or.inr ?_
      cases r with
      | nil => exact Or.inl (by simpa [backgroundOf] using hfg)
      | cons c r =>
        rw [backgroundOf]
        split
        · rename_i hbg
          rw [hbg.1]
          exact Or.inr ⟨_, _, hfg, isNumber_numberOf hbg.2, rfl⟩
        · exact Or.inl (by simpa using hfg)
    · rintro t' (ht | ⟨fg, bg, hfg', hbg, rfl⟩) hs
      · have hle := length_le_numberOf ht hs
        rw [List.length_append]
        omega
      · -- a number with a comma behind it is the one that was read
        obtain ⟨r', hr'⟩ := hs
        have hsame : numberOf s = fg := by
          rw [← hr', List.append_assoc]
          exact numberOf_append hfg' (by simp [commaSign, isDigit])
        have hrest : r = commaSign :: (bg ++ r') := by
          rw [hsame, ← hr', List.append_assoc] at hr
          exact List.append_cancel_left hr
        have hle := length_le_numberOf hbg (List.prefix_append bg r')
        have hne : numberOf (bg ++ r') ≠ [] := by
          intro hnil
          rw [hnil] at hle
          exact hbg.ne_nil (List.length_eq_zero_iff.1 (Nat.le_zero.1 hle))
        rw [hsame, hrest, backgroundOf, if_pos ⟨rfl, hne⟩]
        simpa using hle

/-- A place where a byte is followed by a text. -/
theorem drop_eq_cons {buf r : Bytes} {pos : ℕ} {c : UInt8} (h : buf.drop pos = c :: r) :
    buf[pos]? = some c ∧ buf.drop (pos + 1) = r := by
  constructor
  · have hget : (buf.drop pos)[0]? = buf[pos + 0]? := List.getElem?_drop
    rw [h] at hget
    simpa using hget.symm
  · rw [← List.drop_drop, h]
    rfl

section Places

variable {buf s rest : Bytes} {pos : ℕ}

theorem optionalDigit_spec (h : buf.drop pos = s ++ 0 :: rest) :
    optionalDigit buf pos = some (pos + ((s.take 1).takeWhile isDigit).length) := by
  unfold optionalDigit
  cases s with
  | nil =>
    obtain ⟨hget, -⟩ := drop_eq_cons h
    simp [hget, isDigit]
  | cons c s =>
    obtain ⟨hget, -⟩ := drop_eq_cons h
    by_cases hc : isDigit c <;> simp [hget, hc]

/-- The second of two digits. -/
theorem numberOf_cons {c : UInt8} (hc : isDigit c) (s : Bytes) :
    numberOf (c :: s) = c :: (s.take 1).takeWhile isDigit := by
  simp [numberOf, hc]

theorem numberOf_cons_neg {c : UInt8} (hc : ¬ isDigit c) (s : Bytes) : numberOf (c :: s) = [] := by
  simp [numberOf, hc]

theorem skipBackground_spec (h : buf.drop pos = s ++ 0 :: rest) :
    skipBackground buf pos = some (pos + (backgroundOf s).length) := by
  unfold skipBackground
  cases s with
  | nil =>
    obtain ⟨hget, -⟩ := drop_eq_cons h
    simp [hget, backgroundOf, commaSign]
  | cons c s =>
    obtain ⟨hget, hnext⟩ := drop_eq_cons h
    rw [hget, backgroundOf]
    by_cases hc : c = commaSign
    · cases s with
      | nil =>
        obtain ⟨hget', -⟩ := drop_eq_cons hnext
        simp [hget', hc, isDigit, numberOf]
      | cons d s =>
        obtain ⟨hget', hnext'⟩ := drop_eq_cons hnext
        by_cases hd : isDigit d
        · have hdigit := optionalDigit_spec hnext'
          rw [show pos + 1 + 1 = pos + 2 from rfl] at hdigit
          simp only [Option.bind_eq_bind, Option.bind_some, hc, hget', hd, hdigit, numberOf_cons hd,
            if_true, ne_eq, not_false_eq_true, and_self, reduceCtorEq, List.length_cons]
          congr 1
          omega
        · simp [hc, hget', hd, numberOf_cons_neg hd]
    · simp [hc]

/-- No read goes behind the NUL, as the places from there on do not matter. -/
theorem skipColor_spec (h : buf.drop pos = s ++ 0 :: rest) :
    skipColor buf pos = some (pos + (colorOf s).length) := by
  unfold skipColor
  cases s with
  | nil =>
    obtain ⟨hget, -⟩ := drop_eq_cons h
    simp [hget, colorOf, numberOf, isDigit]
  | cons c s =>
    rw [List.cons_append] at h
    obtain ⟨hget, hnext⟩ := drop_eq_cons h
    rw [hget]
    by_cases hc : isDigit c
    · have hdigit := optionalDigit_spec hnext
      have hnumber := numberOf_cons hc s
      have hbehind : buf.drop (pos + 1 + ((s.take 1).takeWhile isDigit).length) =
          (c :: s).drop (numberOf (c :: s)).length ++ 0 :: rest := by
        rw [← List.drop_drop, hnext, hnumber, List.length_cons, List.drop_succ_cons,
          List.drop_append_of_le_length]
        exact (List.takeWhile_prefix _).length_le.trans (List.length_take_le' 1 s)
      simp only [Option.bind_eq_bind, Option.bind_some, hc, if_true, hdigit,
        skipBackground_spec hbehind, colorOf, hnumber, reduceCtorEq, if_false, List.length_append,
        List.length_cons]
      congr 1
      omega
    · simp [hc, colorOf, numberOf_cons_neg hc]

end Places

/-! ### The loop -/

theorem getElem?_storeAt_append {out mem : Bytes} {pos : ℕ} (h : out.length ≤ pos) :
    (out ++ mem.drop out.length)[pos]? = mem[pos]? := by
  rw [List.getElem?_append_right h, List.getElem?_drop]
  congr 1
  omega

theorem drop_storeAt_append {out mem : Bytes} {pos : ℕ} (h : out.length ≤ pos) :
    (out ++ mem.drop out.length).drop pos = mem.drop pos := by
  rw [List.drop_append, List.drop_of_length_le h, List.nil_append, List.drop_drop]
  congr 1
  omega

/-- `*to++ = c`. -/
theorem storeAt_out (out mem : Bytes) (c : UInt8) :
    storeAt out.length [c] (out ++ mem.drop out.length) =
      (out ++ [c]) ++ mem.drop (out ++ [c]).length := by
  rw [storeAt_append, List.drop_drop, List.length_append]

/-- The pointer goes on behind the colour. -/
theorem skipColor_behind {mem s out rest : Bytes} {pos : ℕ} (hout : out.length ≤ pos)
    (hnext : mem.drop (pos + 1) = s ++ 0 :: rest) :
    ∃ behind, colorOf s ++ behind = s ∧
      skipColor (out ++ mem.drop out.length) (pos + 1) = some (pos + 1 + (colorOf s).length) ∧
      mem.drop (pos + 1 + (colorOf s).length) = behind ++ 0 :: rest := by
  obtain ⟨behind, hbehind⟩ := (longestColor_colorOf s).initial
  refine ⟨behind, hbehind, ?_, ?_⟩
  · refine @skipColor_spec _ _ rest _ ?_
    rw [drop_storeAt_append (by omega)]
    exact hnext
  · calc
      mem.drop (pos + 1 + (colorOf s).length) =
          (s ++ 0 :: rest).drop (colorOf s).length := by rw [← List.drop_drop, hnext]
      _ = (colorOf s ++ (behind ++ 0 :: rest)).drop (colorOf s).length := by
        rw [← List.append_assoc, hbehind]
      _ = behind ++ 0 :: rest := List.drop_left

/-- The bytes in front of `to` are what is left so far, and none behind it has changed. -/
theorem stripLoop_spec (stripChars : UInt8 → Bool) {mem rest : Bytes} (fuel : ℕ) {s out : Bytes}
    {pos : ℕ} (hfuel : s.length < fuel) (htext : IsText s) (hpos : mem.drop pos = s ++ 0 :: rest)
    (hout : out.length ≤ pos) :
    ∃ r, Stripped stripChars s r ∧
      stripLoop stripChars fuel ⟨out ++ mem.drop out.length, pos, out.length⟩ =
        some (storeAt 0 (out ++ r ++ [0]) mem) := by
  induction fuel generalizing s out pos with
  | zero => exact absurd hfuel (Nat.not_lt_zero _)
  | succ fuel ih =>
    rw [stripLoop]
    dsimp only
    rw [getElem?_storeAt_append hout]
    cases s with
    | nil =>
      obtain ⟨hget, -⟩ := drop_eq_cons hpos
      refine ⟨[], .nil, ?_⟩
      simp [hget, storeAt_out, storeAt_zero]
    | cons c s =>
      rw [List.cons_append] at hpos
      obtain ⟨hget, hnext⟩ := drop_eq_cons hpos
      obtain ⟨hc, hs⟩ := isText_cons.1 htext
      rw [List.length_cons] at hfuel
      simp only [hget, Option.bind_eq_bind, Option.bind_some, hc, if_false]
      by_cases hstrip : stripChars c
      · rw [if_pos hstrip]
        by_cases hcolor : c = COLOR_CHAR
        · -- the text behind the colour is passed over with it
          obtain ⟨behind, hbehind, hskip, hplace⟩ := skipColor_behind hout hnext
          have hlength : (colorOf s).length + behind.length = s.length := by
            rw [← List.length_append, hbehind]
          have htext' : IsText behind := by
            rw [← hbehind, isText_append] at hs
            exact hs.2
          obtain ⟨r, hr, hloop⟩ := ih (by omega) htext' hplace
            (show out.length ≤ pos + 1 + (colorOf s).length by omega)
          rw [if_pos hcolor, hskip, Option.bind_some]
          refine ⟨r, ?_, hloop⟩
          have hlongest : LongestColor (colorOf s) (colorOf s ++ behind) := by
            rw [hbehind]
            exact longestColor_colorOf s
          rw [hcolor] at hstrip ⊢
          have hwhole := Stripped.color hstrip hlongest hr
          rwa [hbehind] at hwhole
        · obtain ⟨r, hr, hloop⟩ := ih (by omega) hs hnext (show out.length ≤ pos + 1 by omega)
          rw [if_neg hcolor]
          exact ⟨r, .drop hstrip hcolor hr, hloop⟩
      · have hkeep : (out ++ [c]).length ≤ pos + 1 := by simpa using hout
        obtain ⟨r, hr, hloop⟩ := ih (by omega) hs hnext hkeep
        rw [if_neg hstrip, storeAt_out]
        refine ⟨c :: r, .keep (by simpa using hstrip) hr, ?_⟩
        simpa using hloop

/-- The message is replaced by what is to be left of it, and that alone; with nothing behind its
NUL it is the same, so that no byte from there on is read. -/
theorem canSendStrip_spec (stripChars : UInt8 → Bool) {extra msg : Bytes}
    (h : cString extra = some msg) :
    ∃ out, canSendStrip true stripChars extra = some (storeAt 0 (out ++ [0]) extra) ∧
      canSendStrip true stripChars (msg ++ [0]) = some (storeAt 0 (out ++ [0]) (msg ++ [0])) ∧
      (∀ out', Stripped stripChars msg out' ↔ out' = out) ∧
      (∀ c ∈ out, stripChars c = false) ∧ out.Sublist msg := by
  obtain ⟨htext, rest, rfl⟩ := cString_eq_some.1 h
  have hrun : ∀ rest : Bytes, ∃ r, Stripped stripChars msg r ∧
      canSendStrip true stripChars (msg ++ 0 :: rest) =
        some (storeAt 0 (r ++ [0]) (msg ++ 0 :: rest)) := by
    intro rest
    have hfuel : msg.length < (msg ++ 0 :: rest).length + 1 := by
      rw [List.length_append]
      omega
    exact @stripLoop_spec stripChars _ rest _ msg [] 0 hfuel htext rfl le_rfl
  obtain ⟨out, hout, hall⟩ := hrun rest
  obtain ⟨out', hout', hnone⟩ := hrun []
  obtain rfl := hout.eq hout'
  refine ⟨out, hall, hnone, fun out' => ⟨fun h' => h'.eq hout, ?_⟩, hout.not_strip, hout.sublist⟩
  rintro rfl
  exact hout

/-- A colour with a background behind `a`, with bytes behind the NUL. -/
theorem canSendStrip_spec_example :
    ∃ out, canSendStrip true (fun c => c == COLOR_CHAR) [97, 3, 52, 44, 49, 98, 0, 51] =
        some (storeAt 0 (out ++ [0]) [97, 3, 52, 44, 49, 98, 0, 51]) ∧
      canSendStrip true (fun c => c == COLOR_CHAR) ([97, 3, 52, 44, 49, 98] ++ [0]) =
        some (storeAt 0 (out ++ [0]) ([97, 3, 52, 44, 49, 98] ++ [0])) ∧
      (∀ out', Stripped (fun c => c == COLOR_CHAR) [97, 3, 52, 44, 49, 98] out' ↔ out' = out) ∧
      (∀ c ∈ out, (c == COLOR_CHAR) = false) ∧ out.Sublist [97, 3, 52, 44, 49, 98] :=
  canSendStrip_spec _ rfl

example : canSendStrip true (fun c => c == COLOR_CHAR) [97, 3, 52, 44, 49, 98, 0, 51] =
    some [97, 98, 0, 44, 49, 98, 0, 51] := by decide

end Ithildin
