import Ithildin.Hostmatch
import Mathlib.Data.Int.Order.Basic
import Mathlib.Data.List.GetD
import Mathlib.Logic.Function.Basic
import Mathlib.Tactic.Common

/-!
# Character maps

How `ircstring.c` makes the maps of allowed characters, and how strings are compared under one.

* `istrTranslate`, `istrMap`: `istr_translate` and `istr_map`;
* `expandItems`: what a part of a specification stands for, escapes and characters told apart;
* `istrMap_iff`: when the map is the one that is meant;
* `istrOkay`, `istrcmp`: the functions on strings;
* `istrcmp_iff`: when strings are told apart.
-/

namespace Ithildin

namespace Istr

/-- What a call comes to: bytes outside the buffers are accessed, 0 is returned, or it is done. -/
inductive Outcome (α : Type)
  | outside
  | refused
  | done (a : α)

/-- `'\\'`. -/
def backslash : UInt8 := 92

/-- The three bytes behind a backslash are digits of an escape. -/
def isEscape (a b c : UInt8) : Bool := 48 ≤ a && a ≤ 50 && isDigit b && isDigit c

/-- The character of an escape, as a byte. -/
def escaped (a b c : UInt8) : UInt8 := (a - 48) * 100 + (b - 48) * 10 + (c - 48)

/-- The first loop of `istr_translate`, which never stores behind where it reads. -/
def decodePass : Bytes → Bytes
  | x :: a :: b :: c :: s =>
      if x = backslash ∧ isEscape a b c then escaped a b c :: decodePass s
      else x :: decodePass (a :: b :: c :: s)
  | x :: s => x :: decodePass s
  | [] => []

/-- `to[i++] = c` for some characters; `to` has 256 bytes. -/
def put (s out : Bytes) : Option Bytes :=
  if out.length + s.length ≤ 256 then some (out ++ s) else none

/-- `for (c = a; c < b; c++)`. -/
def below (a b : UInt8) : Bytes := (List.range' a.toNat (b.toNat - a.toNat)).map UInt8.ofNat

/-- The characters from one to another. -/
def span (a b : UInt8) : Bytes := below a b ++ [b]

/-- The second loop. -/
def expandPass : Bytes → Bytes → Outcome Bytes
  | a :: d :: b :: s, out =>
      if d = minusSign then
        if b < a then .refused else (put (span a b) out).elim .outside (expandPass s)
      else (put [a] out).elim .outside (expandPass (d :: b :: s))
  | a :: s, out => (put [a] out).elim .outside (expandPass s)
  | [], out => if (put [0] out).isSome then .done out else .outside

/-- `istr_translate`. -/
def istrTranslate (part : Bytes) : Outcome Bytes := expandPass (strAt (decodePass part)) []

/-- The loops that fill the map. -/
def fillMap (left right : Bytes) : UInt8 → UInt8 :=
  (right.zip left).foldl (fun map p => Function.update map p.1 p.2)
    (left.foldl (fun map c => Function.update map c c) fun _ => 0)

/-- The parts in front of the first blank and behind it. -/
def leftPart (string : Bytes) : Bytes := string.takeWhile (· != blank)

def rightPart (string : Bytes) : Bytes := (string.dropWhile (· != blank)).tail

/-- `istr_map`; without a blank, it goes on with the difference of `NULL` and the string. -/
def istrMap (string : Bytes) : Outcome (UInt8 → UInt8) :=
  if blank ∈ string then
    match istrTranslate (leftPart string) with
    | .outside => .outside
    | .refused => .refused
    | .done left =>
        match istrTranslate (rightPart string) with
        | .outside => .outside
        | .refused => .refused
        | .done right =>
            if left.length < right.length then .refused else .done (fillMap left right)
  else .outside

/-! ### What is meant -/

/-- The characters of a part, with a mark at those that are escapes. -/
def readSigns : Bytes → List (UInt8 × Bool)
  | x :: a :: b :: c :: s =>
      if x = backslash ∧ isEscape a b c then (escaped a b c, true) :: readSigns s
      else (x, false) :: readSigns (a :: b :: c :: s)
  | x :: s => (x, false) :: readSigns s
  | [] => []

/-- The items are expanded; a range has a `'-'` that is no escape. Nothing comes of a range that
runs backwards. -/
def expandItems : List (UInt8 × Bool) → Option Bytes
  | a :: d :: b :: s =>
      if d = (minusSign, false) then
        if b.1 < a.1 then none else (expandItems s).map fun out => span a.1 b.1 ++ out
      else (expandItems (d :: b :: s)).map fun out => a.1 :: out
  | a :: s => (expandItems s).map fun out => a.1 :: out
  | [] => some []

/-- How many characters there are up to the end or to a range that runs backwards. -/
def countItems : List (UInt8 × Bool) → ℕ
  | a :: d :: b :: s =>
      if d = (minusSign, false) then if b.1 < a.1 then 0 else (span a.1 b.1).length + countItems s
      else countItems (d :: b :: s) + 1
  | _ :: s => countItems s + 1
  | [] => 0

/-- What the part stands for. -/
def meant (part : Bytes) : Option Bytes := expandItems (readSigns part)

/-- Characters that all count as they stand. -/
def plain (s : Bytes) : List (UInt8 × Bool) := s.map fun c => (c, false)

/-- The part as it is read when its escapes are decoded first, up to a NUL. -/
def decodedSigns (part : Bytes) : List (UInt8 × Bool) :=
  plain (strAt ((readSigns part).map Prod.fst))

def decoded (part : Bytes) : Option Bytes := expandItems (decodedSigns part)

/-- So read, the part has no more characters than a buffer holds, with a NUL behind them if all of
it is read. -/
def Room (part : Bytes) : Prop :=
  countItems (decodedSigns part) + (if (decoded part).isSome then 1 else 0) ≤ 256

instance (part : Bytes) : Decidable (Room part) := inferInstanceAs (Decidable (_ ≤ _))

/-- The map in which the characters on the left stand for themselves, and those on the right for
those on the left. -/
structure IsCharMap (left right : Bytes) (map : UInt8 → UInt8) : Prop where
  left_same : ∀ c ∈ left, map c = c
  right_to : ∀ p ∈ right.zip left, map p.1 = p.2
  others : ∀ c, c ∉ left → c ∉ right → map c = 0

/-- No character is to have two images. -/
def Consistent (left right : Bytes) : Prop :=
  ∀ p ∈ right.zip left, (p.1 ∈ left → p.1 = p.2) ∧ ∀ q ∈ right.zip left, q.1 = p.1 → q.2 = p.2

/-- What a character comes to: the last pair counts. -/
def image (left right : Bytes) (c : UInt8) : UInt8 :=
  ((right.zip left).reverse.lookup c).getD (if c ∈ left then c else 0)

/-- The call keeps to its buffers and makes the map that is meant, if it makes one. -/
def MapsRight (string : Bytes) : Prop :=
  istrMap string ≠ .outside ∧
    ∀ map, istrMap string = .done map → ∃ left right, meant (leftPart string) = some left ∧
      meant (rightPart string) = some right ∧ right.length ≤ left.length ∧
        IsCharMap left right map

/-- Both ways to read the parts come to one map, if any is made. -/
def ReadsAlike (string : Bytes) : Prop :=
  ∀ left right, decoded (leftPart string) = some left → decoded (rightPart string) = some right →
    right.length ≤ left.length → ∃ left' right', meant (leftPart string) = some left' ∧
      meant (rightPart string) = some right' ∧ right'.length ≤ left'.length ∧
        Consistent left' right' ∧ image left right = image left' right'

/-! ### The passes -/

theorem decodePass_eq (s : Bytes) : decodePass s = (readSigns s).map Prod.fst := by
  fun_induction decodePass s with
  | case1 x a b c s h ih => rw [readSigns, if_pos h, List.map_cons, ih]
  | case2 x a b c s h ih => rw [readSigns, if_neg h, List.map_cons, ih]
  | case3 x s h ih =>
    rw [readSigns, List.map_cons, ih]
    exact h
  | case4 => rfl

theorem isSome_put {s out : Bytes} : (put s out).isSome ↔ out.length + s.length ≤ 256 := by
  unfold put
  split_ifs with hroom <;> simp [hroom]

/-- What the second pass comes to when the buffer has so much left of a part, and so much was
stored. -/
def finished (out : Bytes) (count : ℕ) : Option Bytes → Outcome Bytes
  | some r => if (out ++ r).length ≤ 255 then .done (out ++ r) else .outside
  | none => if out.length + count ≤ 256 then .refused else .outside

theorem countItems_eq {signs : List (UInt8 × Bool)} {r : Bytes} (h : expandItems signs = some r) :
    countItems signs = r.length := by
  fun_induction expandItems signs generalizing r with
  | case1 a b s hlt => cases h
  | case2 a b s hlt ih =>
    obtain ⟨out, hout, rfl⟩ := Option.map_eq_some_iff.1 h
    rw [countItems, if_pos rfl, if_neg hlt, ih hout, List.length_append]
  | case3 a d b s hd ih =>
    obtain ⟨out, hout, rfl⟩ := Option.map_eq_some_iff.1 h
    rw [countItems, if_neg hd, ih hout, List.length_cons]
  | case4 a s hs ih =>
    obtain ⟨out, hout, rfl⟩ := Option.map_eq_some_iff.1 h
    rw [countItems, ih hout, List.length_cons]
    exact hs
  | case5 =>
    obtain rfl := Option.some.inj h
    rfl

/-- Some characters are stored, or there is no room for them. -/
theorem finished_put {s out : Bytes} {count : ℕ} {items : Option Bytes}
    (hcount : ∀ r, items = some r → count = r.length) :
    finished out (s.length + count) (items.map fun r => s ++ r) =
      if out.length + s.length ≤ 256 then finished (out ++ s) count items else .outside := by
  cases items with
  | none =>
    simp only [finished, Option.map_none, List.length_append]
    split_ifs <;> first | rfl | omega
  | some r =>
    have hr := hcount r rfl
    simp only [finished, Option.map_some, List.length_append, List.append_assoc]
    split_ifs <;> first | rfl | omega

/-- What is stored first, and the rest of the pass. -/
theorem put_elim {s out : Bytes} {count : ℕ} {items : Option Bytes} {pass : Bytes → Outcome Bytes}
    (hcount : ∀ r, items = some r → count = r.length)
    (hpass : ∀ out, out.length ≤ 256 → pass out = finished out count items) :
    (put s out).elim .outside pass =
      finished out (s.length + count) (items.map fun r => s ++ r) := by
  rw [finished_put hcount]
  unfold put
  split_ifs with hroom
  · exact hpass _ (by rwa [List.length_append])
  · rfl

/-- The second pass, as far as the buffer goes. -/
theorem expandPass_eq (n : ℕ) {s out : Bytes} (hn : s.length ≤ n) (hout : out.length ≤ 256) :
    expandPass s out = finished out (countItems (plain s)) (expandItems (plain s)) := by
  have hend : ∀ out, expandPass [] out = finished out (countItems (plain [])) (some []) := by
    intro out
    have hnul : out.length + [(0 : UInt8)].length = out.length + 1 := rfl
    by_cases hroom : out.length ≤ 255
    · rw [expandPass, if_pos (isSome_put.2 (by omega)), finished, List.append_nil, if_pos hroom]
    · rw [expandPass, if_neg (mt isSome_put.1 (by omega)), finished, List.append_nil, if_neg hroom]
  induction n generalizing s out with
  | zero =>
    obtain rfl := List.length_eq_zero_iff.1 (Nat.le_zero.1 hn)
    exact hend out
  | succ n ih =>
    -- one character, and what follows it
    have hone : ∀ (a : UInt8) (s : Bytes), s.length ≤ n →
        (put [a] out).elim .outside (expandPass s) =
          finished out (countItems (plain s) + 1)
            ((expandItems (plain s)).map fun r => a :: r) := by
      intro a s hs
      have h := @put_elim [a] out _ _ _ (fun r => countItems_eq) fun out hout => ih hs hout
      rw [h, Nat.add_comm]
      rfl
    cases s with
    | nil => exact hend out
    | cons a s =>
      rw [List.length_cons] at hn
      cases s with
      | nil => exact hone a [] (Nat.zero_le n)
      | cons d s =>
        cases s with
        | nil => exact hone a [d] (by omega)
        | cons b s =>
          rw [List.length_cons, List.length_cons] at hn
          by_cases hd : d = minusSign
          · by_cases hlt : b < a
            · simp [expandPass, plain, expandItems, countItems, hd, hlt, finished, hout]
            · have h := @put_elim (span a b) out _ _ _ (fun r => countItems_eq)
                fun out hout => @ih s out (by omega) hout
              simpa [expandPass, plain, expandItems, countItems, hd, hlt] using h
          · have h := hone a (d :: b :: s) (by simp; omega)
            simpa [expandPass, plain, expandItems, countItems, hd] using h

theorem istrTranslate_eq (part : Bytes) :
    istrTranslate part = finished [] (countItems (decodedSigns part)) (decoded part) := by
  rw [istrTranslate, decodePass_eq]
  exact expandPass_eq _ le_rfl (Nat.zero_le _)

theorem istrTranslate_outside (part : Bytes) : istrTranslate part = .outside ↔ ¬ Room part := by
  rw [istrTranslate_eq, Room]
  cases hdecoded : decoded part with
  | none =>
    have hroom : countItems (decodedSigns part) + (if (none : Option Bytes).isSome then 1 else 0) =
        ([] : Bytes).length + countItems (decodedSigns part) := Nat.add_comm _ _
    rw [hroom, finished]
    split_ifs with hfits
    · exact iff_of_false (by simp) (not_not.2 hfits)
    · exact iff_of_true rfl hfits
  | some out =>
    have hroom : countItems (decodedSigns part) + (if (some out).isSome then 1 else 0) =
        out.length + 1 := by rw [countItems_eq hdecoded]; rfl
    rw [hroom, finished, List.nil_append]
    split_ifs with hfits
    · exact iff_of_false (by simp) (by omega)
    · exact iff_of_true rfl (by omega)

theorem istrTranslate_done {part out : Bytes} :
    istrTranslate part = .done out ↔ decoded part = some out ∧ Room part := by
  rw [istrTranslate_eq, Room]
  cases hdecoded : decoded part with
  | none =>
    rw [finished]
    split_ifs <;> simp
  | some out' =>
    have hroom : countItems (decodedSigns part) + (if (some out').isSome then 1 else 0) =
        out'.length + 1 := by rw [countItems_eq hdecoded]; rfl
    rw [hroom, finished, List.nil_append, Option.some.injEq]
    split_ifs with hfits
    · rw [Outcome.done.injEq]
      exact ⟨fun heq => ⟨heq, by omega⟩, fun h => h.1⟩
    · exact iff_of_false (by simp) fun h => by omega

/-! ### The map -/

/-- Of several stores to one place, the last one counts. -/
theorem foldl_update_apply (pairs : List (UInt8 × UInt8)) (f : UInt8 → UInt8) (c : UInt8) :
    pairs.foldl (fun map p => Function.update map p.1 p.2) f c =
      (pairs.reverse.lookup c).getD (f c) := by
  induction pairs generalizing f with
  | nil => rfl
  | cons p pairs ih =>
    obtain ⟨d, b⟩ := p
    rw [List.foldl_cons, ih, List.reverse_cons, List.lookup_append]
    cases pairs.reverse.lookup c with
    | some b => rfl
    | none => by_cases hc : c = d <;> simp [hc]

theorem fillMap_eq (left right : Bytes) : fillMap left right = image left right := by
  have hleft : ∀ (f : UInt8 → UInt8) (c : UInt8),
      left.foldl (fun map c => Function.update map c c) f c = if c ∈ left then c else f c := by
    intro f c
    induction left generalizing f with
    | nil => rfl
    | cons d left ih =>
      rw [List.foldl_cons, ih]
      by_cases hc : c = d <;> simp [hc]
  funext c
  rw [fillMap, foldl_update_apply, hleft, image]

theorem mem_of_lookup {pairs : List (UInt8 × UInt8)} {c b : UInt8} (h : pairs.lookup c = some b) :
    (c, b) ∈ pairs := by
  obtain ⟨l₁, l₂, rfl, -⟩ := List.lookup_eq_some_iff.1 h
  simp

/-- The right part is no longer than the left one, so that each of its characters has a pair. -/
theorem exists_pair {left right : Bytes} (hle : right.length ≤ left.length) {c : UInt8}
    (hc : c ∈ right) : ∃ b, (c, b) ∈ right.zip left := by
  have hmap : (right.zip left).map Prod.fst = right := List.map_fst_zip hle
  rw [← hmap] at hc
  obtain ⟨p, hp, rfl⟩ := List.mem_map.1 hc
  exact ⟨p.2, hp⟩

/-- The map of a specification that is consistent is the one that is meant. -/
theorem isCharMap_image {left right : Bytes} (h : Consistent left right) :
    IsCharMap left right (image left right) := by
  have hfound : ∀ {c b}, (right.zip left).reverse.lookup c = some b → (c, b) ∈ right.zip left :=
    fun hb => List.mem_reverse.1 (mem_of_lookup hb)
  refine ⟨fun c hc => ?_, fun p hp => ?_, fun c hleft hright => ?_⟩
  · rw [image]
    cases hlookup : (right.zip left).reverse.lookup c with
    | none => simp [hc]
    | some b => exact ((h _ (hfound hlookup)).1 hc).symm
  · rw [image]
    cases hlookup : (right.zip left).reverse.lookup p.1 with
    | none =>
      have hnone := List.lookup_eq_none_iff.1 hlookup p (List.mem_reverse.2 hp)
      simp at hnone
    | some b => exact (h p hp).2 _ (hfound hlookup) rfl
  · rw [image]
    cases hlookup : (right.zip left).reverse.lookup c with
    | none => simp [hleft]
    | some b => exact absurd (List.of_mem_zip (hfound hlookup)).1 hright

/-- There is one such map at most, and none if a character is to have two images. -/
theorem isCharMap_iff {left right : Bytes} (hle : right.length ≤ left.length)
    {map : UInt8 → UInt8} :
    IsCharMap left right map ↔ Consistent left right ∧ map = image left right := by
  constructor
  · intro h
    have hconsistent : Consistent left right := by
      intro p hp
      refine ⟨fun hleft => ?_, fun q hq heq => ?_⟩
      · rw [← h.right_to p hp, h.left_same p.1 hleft]
      · rw [← h.right_to p hp, ← h.right_to q hq, heq]
    have himage := isCharMap_image hconsistent
    refine ⟨hconsistent, ?_⟩
    funext c
    by_cases hleft : c ∈ left
    · rw [h.left_same c hleft, himage.left_same c hleft]
    · by_cases hright : c ∈ right
      · obtain ⟨b, hb⟩ := exists_pair hle hright
        exact (h.right_to _ hb).trans (himage.right_to _ hb).symm
      · rw [h.others c hleft hright, himage.others c hleft hright]
  · rintro ⟨hconsistent, rfl⟩
    exact isCharMap_image hconsistent

theorem istrMap_outside (string : Bytes) :
    istrMap string = .outside ↔ blank ∉ string ∨ ¬ Room (leftPart string) ∨
      ∃ left, istrTranslate (leftPart string) = .done left ∧ ¬ Room (rightPart string) := by
  simp only [← istrTranslate_outside]
  unfold istrMap
  by_cases hblank : blank ∈ string
  · rw [if_pos hblank]
    cases istrTranslate (leftPart string) with
    | outside => simp
    | refused => simp [hblank]
    | done left =>
      cases istrTranslate (rightPart string) with
      | outside => simp
      | refused => simp [hblank]
      | done right =>
        dsimp only
        split_ifs <;> simp [hblank]
  · simp [hblank]

theorem istrMap_done {string : Bytes} {map : UInt8 → UInt8} :
    istrMap string = .done map ↔ blank ∈ string ∧ ∃ left right,
      istrTranslate (leftPart string) = .done left ∧
      istrTranslate (rightPart string) = .done right ∧ right.length ≤ left.length ∧
        fillMap left right = map := by
  unfold istrMap
  by_cases hblank : blank ∈ string
  · rw [if_pos hblank]
    cases istrTranslate (leftPart string) with
    | outside => simp
    | refused => simp
    | done left =>
      cases istrTranslate (rightPart string) with
      | outside => simp
      | refused => simp
      | done right =>
        dsimp only
        split_ifs with hlength
        · simp [not_le.2 hlength]
        · simp [hblank, not_lt.1 hlength]
  · simp [hblank]

/-! ### Escapes -/

theorem mem_of_mem_readSigns {s : Bytes} : ∀ sign ∈ readSigns s, sign.2 = false → sign.1 ∈ s := by
  fun_induction readSigns s with
  | case1 x a b c s h ih =>
    intro sign hsign hplain
    rcases List.mem_cons.1 hsign with rfl | hsign
    · cases hplain
    · have hmem := ih sign hsign hplain
      simp [hmem]
  | case2 x a b c s h ih =>
    intro sign hsign hplain
    rcases List.mem_cons.1 hsign with rfl | hsign
    · exact List.mem_cons_self
    · exact List.mem_cons_of_mem _ (ih sign hsign hplain)
  | case3 x s h ih =>
    intro sign hsign hplain
    rcases List.mem_cons.1 hsign with rfl | hsign
    · exact List.mem_cons_self
    · exact List.mem_cons_of_mem _ (ih sign hsign hplain)
  | case4 => simp

theorem expandItems_plain {signs : List (UInt8 × Bool)}
    (h : ∀ sign ∈ signs, sign.2 = true → sign.1 ≠ minusSign) :
    expandItems (plain (signs.map Prod.fst)) = expandItems signs := by
  have htail : ∀ {sign : UInt8 × Bool} {signs : List (UInt8 × Bool)},
      (∀ s ∈ sign :: signs, s.2 = true → s.1 ≠ minusSign) →
        ∀ s ∈ signs, s.2 = true → s.1 ≠ minusSign :=
    fun h s hs => h s (List.mem_cons_of_mem _ hs)
  unfold plain at *
  fun_induction expandItems signs with
  | case1 a b s hlt => simp [expandItems, hlt]
  | case2 a b s hlt ih => simp [expandItems, hlt, ← ih (htail (htail (htail h)))]
  | case3 a d b s hd ih =>
    have hd' : d.1 ≠ minusSign := by
      intro heq
      have hmark := h d (by simp)
      obtain ⟨c, mark⟩ := d
      cases mark <;> simp_all
    simp [expandItems, hd', ← ih (htail h)]
  | case4 a s hs ih =>
    rw [← ih (htail h)]
    cases s with
    | nil => rfl
    | cons d s =>
      cases s with
      | nil => rfl
      | cons b s => exact absurd rfl (hs d b s)
  | case5 => rfl

/-- If no escape stands for a `'-'` or a NUL, a part is read as it is meant. -/
theorem decoded_eq_meant {part : Bytes} (htext : IsText part)
    (h : ∀ sign ∈ readSigns part, sign.2 = true → sign.1 ≠ minusSign ∧ sign.1 ≠ 0) :
    decoded part = meant part := by
  have hnonzero : IsText ((readSigns part).map Prod.fst) := by
    intro hzero
    obtain ⟨sign, hsign, heq⟩ := List.mem_map.1 hzero
    cases hmark : sign.2 with
    | true => exact (h sign hsign hmark).2 heq
    | false =>
      have hmem := mem_of_mem_readSigns sign hsign hmark
      rw [heq] at hmem
      exact htext hmem
  rw [decoded, decodedSigns, strAt_of_isText hnonzero, meant]
  exact expandItems_plain fun sign hsign hmark => (h sign hsign hmark).1

theorem mem_span {a b c : UInt8} (hab : a ≤ b) : c ∈ span a b ↔ a ≤ c ∧ c ≤ b := by
  have hle := UInt8.le_iff_toNat_le.1 hab
  have hb := b.toNat_lt
  have hnat : ∀ n, n < 256 → (UInt8.ofNat n).toNat = n := fun n hn => by
    rw [UInt8.toNat_ofNat']
    exact Nat.mod_eq_of_lt hn
  simp only [span, below, List.mem_append, List.mem_map, List.mem_range'_1, List.mem_singleton,
    UInt8.le_iff_toNat_le]
  constructor
  · rintro (⟨n, hn, rfl⟩ | rfl)
    · rw [hnat n (by omega)]
      omega
    · exact ⟨hle, le_rfl⟩
  · intro hc
    by_cases hlast : c = b
    · exact Or.inr hlast
    · have hne : c.toNat ≠ b.toNat := fun h => hlast (UInt8.toNat_inj.1 h)
      exact Or.inl ⟨c.toNat, by omega, UInt8.ofNat_toNat⟩

theorem length_span (a b : UInt8) : (span a b).length = b.toNat - a.toNat + 1 := by
  simp [span, below]

theorem isText_expandItems {signs : List (UInt8 × Bool)} {out : Bytes}
    (hsigns : ∀ sign ∈ signs, sign.1 ≠ 0) (h : expandItems signs = some out) : IsText out := by
  fun_induction expandItems signs generalizing out with
  | case1 a b s hlt => cases h
  | case2 a b s hlt ih =>
    obtain ⟨out, hout, rfl⟩ := Option.map_eq_some_iff.1 h
    have hrest := ih (fun sign hsign => hsigns sign (by simp [hsign])) hout
    refine isText_append.2 ⟨fun hzero => ?_, hrest⟩
    have hlow := ((mem_span (UInt8.not_lt.1 hlt)).1 hzero).1
    exact hsigns a (by simp) (UInt8.le_zero_iff.1 hlow)
  | case3 a d b s hd ih =>
    obtain ⟨out, hout, rfl⟩ := Option.map_eq_some_iff.1 h
    exact isText_cons.2 ⟨hsigns a (by simp), ih (fun sign hsign => hsigns sign (by simp_all)) hout⟩
  | case4 a s hs ih =>
    obtain ⟨out, hout, rfl⟩ := Option.map_eq_some_iff.1 h
    exact isText_cons.2 ⟨hsigns a (by simp), ih (fun sign hsign => hsigns sign (by simp_all)) hout⟩
  | case5 =>
    obtain rfl := Option.some.inj h
    simp [IsText]

theorem isText_decoded {part out : Bytes} (h : decoded part = some out) : IsText out := by
  refine isText_expandItems (fun sign hsign => ?_) h
  obtain ⟨c, hc, rfl⟩ := List.mem_map.1 hsign
  rintro rfl
  exact isText_strAt _ hc

/-- The map is the one that is meant exactly if there is a blank, the parts as they are read have
room in their buffers, and what is read, if anything, comes to the map of what is meant: so it does
for parts without an escape for `'-'` or NUL that give no character two images. -/
theorem istrMap_iff (string : Bytes) :
    (MapsRight string ↔ blank ∈ string ∧ Room (leftPart string) ∧
      ((decoded (leftPart string)).isSome → Room (rightPart string)) ∧ ReadsAlike string) ∧
    ∀ part, IsText part →
      (∀ sign ∈ readSigns part, sign.2 = true → sign.1 ≠ minusSign ∧ sign.1 ≠ 0) →
        decoded part = meant part := by
  refine ⟨?_, fun part htext h => decoded_eq_meant htext h⟩
  have hdone : ∀ map, istrMap string = .done map ↔ blank ∈ string ∧ ∃ left right,
      (decoded (leftPart string) = some left ∧ Room (leftPart string)) ∧
      (decoded (rightPart string) = some right ∧ Room (rightPart string)) ∧
        right.length ≤ left.length ∧ image left right = map := by
    intro map
    simp only [istrMap_done, istrTranslate_done, fillMap_eq]
  unfold MapsRight ReadsAlike
  simp only [ne_eq, istrMap_outside, istrTranslate_done, hdone]
  constructor
  · rintro ⟨hinside, hmap⟩
    simp only [not_or, not_not, not_exists, not_and] at hinside
    obtain ⟨hblank, hleft, hright⟩ := hinside
    have hroom : (decoded (leftPart string)).isSome → Room (rightPart string) := by
      intro hsome
      obtain ⟨left, hl⟩ := Option.isSome_iff_exists.1 hsome
      exact hright left ⟨hl, hleft⟩
    refine ⟨hblank, hleft, hroom, fun left right hl hr hle => ?_⟩
    obtain ⟨left', right', hl', hr', hle', hchar⟩ := hmap _ ⟨hblank, left, right, ⟨hl, hleft⟩,
      ⟨hr, hright left ⟨hl, hleft⟩⟩, hle, rfl⟩
    exact ⟨left', right', hl', hr', hle', (isCharMap_iff hle').1 hchar⟩
  · rintro ⟨hblank, hleft, hroom, halike⟩
    constructor
    · rintro (hnone | hfull | ⟨left, ⟨hl, -⟩, hfull⟩)
      · exact hnone hblank
      · exact hfull hleft
      · exact hfull (hroom (by rw [hl]; rfl))
    · rintro map ⟨-, left, right, ⟨hl, -⟩, ⟨hr, -⟩, hle, rfl⟩
      obtain ⟨left', right', hl', hr', hle', hchar⟩ := halike left right hl hr hle
      exact ⟨left', right', hl', hr', hle', (isCharMap_iff hle').2 hchar⟩

/-- The parts of three letters with their capitals. -/
theorem parts_abc : blank ∈ bytes "a-c A-C" ∧
    (decoded (leftPart (bytes "a-c A-C")) = some [97, 98, 99] ∧
      Room (leftPart (bytes "a-c A-C"))) ∧
    (decoded (rightPart (bytes "a-c A-C")) = some [65, 66, 67] ∧
      Room (rightPart (bytes "a-c A-C"))) ∧
    meant (leftPart (bytes "a-c A-C")) = some [97, 98, 99] ∧
    meant (rightPart (bytes "a-c A-C")) = some [65, 66, 67] ∧
    IsText (bytes "a-c") ∧
    ∀ sign ∈ readSigns (bytes "a-c"), sign.2 = true → sign.1 ≠ minusSign ∧ sign.1 ≠ 0 := by
  decide +kernel

/-- Three letters with their capitals. -/
theorem istrMap_iff_abc : MapsRight (bytes "a-c A-C") ∧
    decoded (bytes "a-c") = meant (bytes "a-c") := by
  obtain ⟨hblank, ⟨hl', hleft⟩, ⟨hr', hright⟩, hlmeant, hrmeant, htext, hsigns⟩ := parts_abc
  refine ⟨(istrMap_iff (bytes "a-c A-C")).1.2 ⟨hblank, hleft, fun _ => hright, ?_⟩,
    (istrMap_iff (bytes "a-c A-C")).2 _ htext hsigns⟩
  intro left right hl hr hle
  obtain rfl := Option.some.inj (hl'.symm.trans hl)
  obtain rfl := Option.some.inj (hr'.symm.trans hr)
  refine ⟨[97, 98, 99], [65, 66, 67], hlmeant, hrmeant, le_rfl, ?_, rfl⟩
  simp [Consistent]

/-- Without a blank the string is left; `"a\045b "` has no `'-'` on its map, and 256 characters are
too many. -/
theorem istrMap_fails : ¬ MapsRight (bytes "abc") ∧ ¬ MapsRight (bytes "a\\045b ") ∧
    ¬ MapsRight (bytes "\\001-\\255a ") := by
  refine ⟨fun h => h.1 (if_neg (by decide)), fun h => ?_, fun h => h.1 ?_⟩
  · have hmap : istrMap (bytes "a\\045b ") = .done (fillMap [97, 98] []) := by
      refine istrMap_done.2 ⟨by decide, [97, 98], [], ?_, ?_, by decide, rfl⟩
      · exact istrTranslate_done.2 ⟨by decide, by decide⟩
      · exact istrTranslate_done.2 ⟨by decide, by decide⟩
    obtain ⟨left, right, hleft, -, -, hchar⟩ := h.2 _ hmap
    have hmeant : meant (leftPart (bytes "a\\045b ")) = some [97, 45, 98] := by decide
    obtain rfl := Option.some.inj (hmeant.symm.trans hleft)
    exact absurd (hchar.left_same 45 (by decide)) (by decide)
  · have hsigns : decodedSigns (leftPart (bytes "\\001-\\255a ")) =
        [(1, false), (45, false), (255, false), (97, false)] := by decide
    refine (istrMap_outside _).2 (Or.inr (Or.inl ?_))
    rw [Room, decoded, hsigns]
    simp [countItems, expandItems, length_span, minusSign]

/-! ### Comparison -/

/-- `istr_okay`. -/
def istrOkay (map : UInt8 → UInt8) (string : Bytes) : Bool := string.all fun c => map c != 0

/-- `istrcmp` on two strings in memory; nothing comes of a byte behind what there is. -/
def istrcmp (map : UInt8 → UInt8) : Bytes → Bytes → Option ℤ
  | c :: one, d :: two =>
      if map c = map d then if c = 0 then some 0 else istrcmp map one two
      else some (c.toNat - d.toNat)
  | _, _ => none

/-- Both calls stay inside of the strings; they give 0 for strings that are the same under the map
and for no others, and their signs are opposite. -/
def ComparesRight (map : UInt8 → UInt8) (one two : Bytes) : Prop :=
  ∃ r r', istrcmp map (one ++ [0]) (two ++ [0]) = some r ∧
    istrcmp map (two ++ [0]) (one ++ [0]) = some r' ∧
    (r = 0 ↔ one.map map = two.map map) ∧ r.sign = - r'.sign

/-- The first string is the beginning of the second under the map, and a character without an image
follows there. -/
def Swallowed (map : UInt8 → UInt8) (one two : Bytes) : Prop :=
  ∃ s c t, two = s ++ c :: t ∧ s.map map = one.map map ∧ map c = 0

theorem swallowed_cons {map : UInt8 → UInt8} {c d : UInt8} {one two : Bytes} (h : map c = map d) :
    Swallowed map (c :: one) (d :: two) ↔ Swallowed map one two := by
  constructor
  · rintro ⟨s, b, t, hsplit, hsame, hb⟩
    cases s with
    | nil => cases hsame
    | cons d' s =>
      obtain ⟨rfl, rfl⟩ := List.cons.inj hsplit
      exact ⟨s, b, t, rfl, (List.cons.inj hsame).2, hb⟩
  · rintro ⟨s, b, t, rfl, hsame, hb⟩
    exact ⟨d :: s, b, t, rfl, by simp [hsame, h], hb⟩

theorem Swallowed.ne {map : UInt8 → UInt8} {one two : Bytes} (h : Swallowed map one two) :
    one.map map ≠ two.map map := by
  obtain ⟨s, c, t, rfl, hsame, -⟩ := h
  intro heq
  have hlength := congrArg List.length hsame
  have hlength' := congrArg List.length heq
  simp at hlength hlength'
  omega

variable {map : UInt8 → UInt8}

/-- The end of the first string is taken for a character without an image. -/
theorem istrcmp_of_swallowed (hzero : map 0 = 0) {one two : Bytes} (hone : IsText one)
    (h : Swallowed map one two) (rest : Bytes) :
    istrcmp map (one ++ [0]) (two ++ rest) = some 0 := by
  induction one generalizing two with
  | nil =>
    obtain ⟨s, c, t, rfl, hsame, hc⟩ := h
    obtain rfl : s = [] := by simpa using hsame
    simp [istrcmp, hzero, hc]
  | cons c one ih =>
    obtain ⟨hc, hone⟩ := isText_cons.1 hone
    cases two with
    | nil =>
      obtain ⟨s, b, t, hsplit, -⟩ := h
      simp at hsplit
    | cons d two =>
      have hsame : map c = map d := by
        obtain ⟨s, b, t, hsplit, hsame, -⟩ := h
        cases s with
        | nil => cases hsame
        | cons d' s =>
          rw [(List.cons.inj hsplit).1]
          exact (List.cons.inj hsame).1.symm
      rw [List.cons_append, List.cons_append, istrcmp, if_pos hsame, if_neg hc]
      exact ih hone ((swallowed_cons hsame).1 h)

theorem compares_of_not_swallowed (hzero : map 0 = 0) {one two : Bytes} (hone : IsText one)
    (htwo : IsText two) (h : ¬ Swallowed map one two) (h' : ¬ Swallowed map two one) :
    ComparesRight map one two := by
  have hdiff : ∀ {c d : UInt8}, map c ≠ map d →
      ((c.toNat : ℤ) - d.toNat ≠ 0) ∧
        ((c.toNat : ℤ) - d.toNat).sign = -((d.toNat : ℤ) - c.toNat).sign := by
    intro c d hne
    refine ⟨fun heq => hne ?_, ?_⟩
    · rw [UInt8.toNat_inj.1 (show c.toNat = d.toNat by omega)]
    · rw [← Int.sign_neg, Int.neg_sub]
  induction one generalizing two with
  | nil =>
    cases two with
    | nil => exact ⟨0, 0, by simp [istrcmp], by simp [istrcmp], by simp, by simp⟩
    | cons d two =>
      have hd : map 0 ≠ map d := fun heq => h ⟨[], d, two, rfl, rfl, heq ▸ hzero⟩
      obtain ⟨hne, hsign⟩ := hdiff hd
      exact ⟨_, _, if_neg hd, if_neg hd.symm, iff_of_false hne (by simp), hsign⟩
  | cons c one ih =>
    obtain ⟨hc, hone⟩ := isText_cons.1 hone
    cases two with
    | nil =>
      have hne' : map c ≠ map 0 := fun heq => h' ⟨[], c, one, rfl, rfl, heq.trans hzero⟩
      obtain ⟨hne, hsign⟩ := hdiff hne'
      exact ⟨_, _, if_neg hne', if_neg hne'.symm, iff_of_false hne (by simp), hsign⟩
    | cons d two =>
      obtain ⟨hd, htwo⟩ := isText_cons.1 htwo
      by_cases hsame : map c = map d
      · rw [swallowed_cons hsame] at h
        rw [swallowed_cons hsame.symm] at h'
        obtain ⟨r, r', hr, hr', hiff, hsign⟩ := ih hone htwo h h'
        refine ⟨r, r', ?_, ?_, ?_, hsign⟩
        · rw [List.cons_append, List.cons_append, istrcmp, if_pos hsame, if_neg hc, hr]
        · rw [List.cons_append, List.cons_append, istrcmp, if_pos hsame.symm, if_neg hd, hr']
        · rw [hiff, List.map_cons, List.map_cons, List.cons.injEq, and_iff_right hsame]
      · obtain ⟨hne, hsign⟩ := hdiff hsame
        refine ⟨_, _, ?_, ?_, ?_, hsign⟩
        · exact if_neg hsame
        · exact if_neg (Ne.symm hsame)
        · simp [hne, hsame]

theorem comparesRight_iff (hzero : map 0 = 0) {one two : Bytes} (hone : IsText one)
    (htwo : IsText two) :
    ComparesRight map one two ↔ ¬ Swallowed map one two ∧ ¬ Swallowed map two one := by
  constructor
  · rintro ⟨r, r', hr, hr', hiff, hsign⟩
    constructor
    · intro h
      rw [istrcmp_of_swallowed hzero hone h [0]] at hr
      exact h.ne (hiff.1 (Option.some.inj hr).symm)
    · intro h
      rw [istrcmp_of_swallowed hzero htwo h [0]] at hr'
      have hzero' : r.sign = 0 := by rw [hsign, ← Option.some.inj hr']; rfl
      exact h.ne (hiff.1 (Int.sign_eq_zero_iff_zero.1 hzero')).symm
  · rintro ⟨h, h'⟩
    exact compares_of_not_swallowed hzero hone htwo h h'

/-- Nothing has the terminator as its image but what has no image. -/
theorem map_zero_of_istrMap {string : Bytes} (h : istrMap string = .done map) : map 0 = 0 := by
  obtain ⟨-, left, right, hleft, hright, -, rfl⟩ := istrMap_done.1 h
  have hl : 0 ∉ left := isText_decoded (istrTranslate_done.1 hleft).1
  have hr : 0 ∉ right := isText_decoded (istrTranslate_done.1 hright).1
  have hnone : (right.zip left).reverse.lookup 0 = none := by
    refine List.lookup_eq_none_iff.2 fun p hp => ?_
    have hmem := (List.of_mem_zip (List.mem_reverse.1 hp)).1
    rw [bne_iff_ne]
    rintro heq
    exact hr (heq ▸ hmem)
  rw [fillMap_eq, image, hnone]
  simp [hl]

/-- A string with allowed characters only is never taken for the rest of another. -/
theorem not_swallowed_of_okay {one two : Bytes} (h : istrOkay map two) :
    ¬ Swallowed map one two := by
  rintro ⟨s, c, t, rfl, -, hc⟩
  have hall := List.all_eq_true.1 h c (by simp)
  simp [hc] at hall

/-- Strings are told apart as the map says exactly if none is the beginning of the other with a
character behind it that has no image; and so they are if `istr_okay` has passed both. -/
theorem istrcmp_iff {string : Bytes} (hmap : istrMap string = .done map) {one two : Bytes}
    (hone : IsText one) (htwo : IsText two) :
    (ComparesRight map one two ↔ ¬ Swallowed map one two ∧ ¬ Swallowed map two one) ∧
    (istrOkay map one → istrOkay map two → ComparesRight map one two) := by
  have hiff := comparesRight_iff (map_zero_of_istrMap hmap) hone htwo
  exact ⟨hiff, fun h h' => hiff.2 ⟨not_swallowed_of_okay h', not_swallowed_of_okay h⟩⟩

/-- The map of three letters with their capitals. -/
theorem istrMap_abc :
    istrMap (bytes "a-c A-C") = .done (fillMap [97, 98, 99] [65, 66, 67]) := by
  obtain ⟨hblank, hleft, hright, -⟩ := parts_abc
  exact istrMap_done.2 ⟨hblank, [97, 98, 99], [65, 66, 67], istrTranslate_done.2 hleft,
    istrTranslate_done.2 hright, le_rfl, rfl⟩

/-- `aB` and `Ab`. -/
theorem istrcmp_iff_abc :
    ComparesRight (fillMap [97, 98, 99] [65, 66, 67]) (bytes "aB") (bytes "Ab") :=
  (istrcmp_iff istrMap_abc (by decide) (by decide)).2 rfl rfl

/-- The empty string is taken for one with a character that is not on the map; the other way round,
the byte behind the terminator is read. -/
theorem istrcmp_fails : ∃ string map one two, istrMap string = .done map ∧ IsText one ∧
    IsText two ∧ istrcmp map (one ++ [0]) (two ++ [0]) = some 0 ∧ one.length ≠ two.length ∧
      istrcmp map (two ++ [0]) (one ++ [0]) = none ∧ ¬ ComparesRight map one two := by
  have hzero : istrcmp (fillMap [97, 98, 99] [65, 66, 67]) ([] ++ [0]) ([128] ++ [0]) = some 0 :=
    rfl
  refine ⟨bytes "a-c A-C", _, [], [128], istrMap_abc, by decide, by decide, hzero, by decide, rfl,
    ?_⟩
  rintro ⟨r, r', hr, -, hiff, -⟩
  have hsame := hiff.1 (Option.some.inj (hzero.symm.trans hr)).symm
  simp at hsame

end Istr

end Ithildin
