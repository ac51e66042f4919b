import Ithildin.CaseFolding

/-!
# Masks with sets and alternatives

Masks of `hostmatch` that are made of literal bytes, `'*'`, `'?'`, sets of bytes in brackets and
alternatives in parentheses.

* `HostMask`: these masks, part by part;
* `HostMask.Denotes`: the strings they match, when the alternatives may be chosen at will;
* `HostMask.FirstFits`: the strings they match, when a group is not tried at the end of the string
  and takes the first alternative that fits;
* `hostmatch_denotes_iff`: `hostmatch` finds what the mask denotes exactly if these are the same.
-/

namespace Ithildin

open Glob Glob.Piece

/-- A part of a mask. -/
inductive HostPart
  /-- `'*'` -/
  | run
  /-- `'?'` -/
  | byte
  | lit (c : UInt8)
  /-- `[abc]` -/
  | choice (cs : Bytes)
  /-- `(a|bc|...)` -/
  | group (alts : List Bytes)
  deriving DecidableEq

namespace HostPart

/-- The class is one of those with a name. -/
def Named (cs : Bytes) : Prop :=
  startsNoCase (bytes ":alpha:") cs = true ∨ startsNoCase (bytes ":number:") cs = true ∨
    startsNoCase (bytes ":alnum:") cs = true

/-- The bytes of a part stand for themselves where they are. -/
def Ok : HostPart → Prop
  | run | byte => True
  | lit c => c ≠ 0 ∧ c ≠ star ∧ c ≠ question ∧ c ≠ openBracket ∧ c ≠ openParen
  | choice cs => IsText cs ∧ closeBracket ∉ cs ∧ ¬ Named cs
  | group alts => alts ≠ [] ∧ ∀ alt ∈ alts, IsText alt ∧ bar ∉ alt ∧ closeParen ∉ alt

instance (cs : Bytes) : Decidable (Named cs) := inferInstanceAs (Decidable (_ ∨ _))

instance : DecidablePred Ok
  | run | byte => isTrue trivial
  | lit _ | choice _ | group _ => inferInstanceAs (Decidable (_ ∧ _))

/-- How a part is written. -/
def text : HostPart → Bytes
  | run => [star]
  | byte => [question]
  | lit c => [c]
  | choice cs => openBracket :: cs ++ [closeBracket]
  | group alts => openParen :: [bar].intercalate alts ++ [closeParen]

end HostPart

open HostPart

/-- A mask of such parts. -/
structure HostMask where
  parts : List HostPart
  ok : ∀ p ∈ parts, p.Ok

/-- The strings that parts match; `picks alts s t` says that a group may leave `t` of `s`. -/
def PartsMatch (picks : List Bytes → Bytes → Bytes → Prop) : List HostPart → Bytes → Prop
  | [], s => s = []
  | run :: p, s => ∃ t, t <:+ s ∧ PartsMatch picks p t
  | byte :: p, s => ∃ x t, s = x :: t ∧ PartsMatch picks p t
  | lit c :: p, s => ∃ x t, s = x :: t ∧ toUpper x = toUpper c ∧ PartsMatch picks p t
  | choice cs :: p, s =>
      ∃ x t, s = x :: t ∧ (∃ c ∈ cs, toUpper c = toUpper x) ∧ PartsMatch picks p t
  | .group alts :: p, s => ∃ t, picks alts s t ∧ PartsMatch picks p t

/-- Some alternative is taken. -/
def AnyAlternative (alts : List Bytes) (s t : Bytes) : Prop :=
  ∃ alt ∈ alts, ∃ u, s = u ++ t ∧ u.map toUpper = alt.map toUpper

/-- The first alternative that the string starts with, up to the case of letters, is taken, and not
at the end of the string. -/
def FirstAlternative (alts : List Bytes) (s t : Bytes) : Prop :=
  s ≠ [] ∧ alternate alts s = some t

namespace HostMask

variable (m : HostMask)

/-- The mask as it is written. -/
def text : Bytes := m.parts.flatMap HostPart.text

/-- Some choice of the alternatives and of the runs for `'*'` makes the mask match the string. -/
def Denotes (s : Bytes) : Prop := PartsMatch AnyAlternative m.parts s

/-- Some choice of the runs does, with every group taking the first alternative that fits. -/
def FirstFits (s : Bytes) : Prop := PartsMatch FirstAlternative m.parts s

end HostMask

/-- The groups of `'*'`. -/
def starRuns : List HostPart → ℕ
  | [] => 0
  | run :: p => starRuns p + if p.head? = some run then 0 else 1
  | _ :: p => starRuns p

/-! ### Reading the parts -/

theorem not_mem_intercalate {b c : UInt8} {alts : List Bytes} (hbc : b ≠ c)
    (h : ∀ alt ∈ alts, b ∉ alt) : b ∉ [c].intercalate alts := by
  induction alts with
  | nil => simp [List.intercalate]
  | cons alt alts ih =>
    have halt := h alt List.mem_cons_self
    cases alts with
    | nil => simpa [List.intercalate] using halt
    | cons alt' alts =>
      have hrest := ih fun a ha => h a (List.mem_cons_of_mem alt ha)
      rw [List.intercalate_cons_of_ne_nil (by simp)]
      simp [halt, hbc, hrest]

/-- A name with no `']'` is found within the class or not at all. -/
theorem startsNoCase_class {word cs rest : Bytes} (h : toLower closeBracket ∉ word.map toLower) :
    startsNoCase word (cs ++ closeBracket :: rest) = startsNoCase word cs := by
  induction word generalizing cs with
  | nil => simp [startsNoCase]
  | cons w word ih =>
    rw [List.map_cons, List.mem_cons, not_or] at h
    cases cs with
    | nil => simp [startsNoCase, h.1]
    | cons c cs =>
      have hrest := @ih cs h.2
      simp only [startsNoCase, List.cons_append, List.length_cons, List.take_succ_cons,
        List.map_cons] at hrest ⊢
      rw [Bool.eq_iff_iff] at hrest ⊢
      simp only [beq_iff_eq, List.cons.injEq] at hrest ⊢
      rw [hrest]

theorem collate_set {cs rest : Bytes} {x : UInt8} (hclose : closeBracket ∉ cs)
    (hname : ¬ Named cs) :
    collate (cs ++ closeBracket :: rest) x = true ↔ ∃ c ∈ cs, toUpper c = toUpper x := by
  have halpha : startsNoCase (bytes ":alpha:") cs = false := by
    simpa using fun h => hname (Or.inl h)
  have hnumber : startsNoCase (bytes ":number:") cs = false := by
    simpa using fun h => hname (Or.inr (Or.inl h))
  have halnum : startsNoCase (bytes ":alnum:") cs = false := by
    simpa using fun h => hname (Or.inr (Or.inr h))
  unfold collate
  rw [startsNoCase_class (by decide), startsNoCase_class (by decide),
    startsNoCase_class (by decide), halpha, hnumber, halnum, takeWhile_ne_append hclose]
  simp

variable {fold : UInt8 → UInt8} {rest s : Bytes}

/-- One part of a mask, as `hostmatch` reads it. -/
theorem hostPieces_part {p : HostPart} (hp : p.Ok) (rest : Bytes) :
    hostPieces (p.text ++ rest) =
      (match p with
      | run => many
      | byte => one
      | lit c => part (.lit c)
      | choice cs => part (.collation (cs ++ closeBracket :: rest))
      | .group alts => part (.group alts)) :: hostPieces rest := by
  cases p with
  | run => exact hostPieces_star rest
  | byte => exact hostPieces_question rest
  | lit c =>
    obtain ⟨-, hstar, hquestion, hbracket, hparen⟩ := hp
    show hostPieces (c :: rest) = _
    rw [hostPieces_plain hbracket hparen, plainPiece_of_ne hstar hquestion]
  | choice cs =>
    have htext : (HostPart.choice cs).text ++ rest =
        openBracket :: (cs ++ closeBracket :: rest) := by
      simp [HostPart.text]
    rw [htext, hostPieces_bracket, behindByte_append hp.2.1]
  | group alts =>
    have hclose : closeParen ∉ [bar].intercalate alts :=
      not_mem_intercalate (by decide) fun alt halt => (hp.2 alt halt).2.2
    have htext : (HostPart.group alts).text ++ rest =
        openParen :: ([bar].intercalate alts ++ closeParen :: rest) := by
      simp [HostPart.text]
    rw [htext, hostPieces_paren, behindByte_append hclose, takeWhile_ne_append hclose,
      List.splitOn_intercalate bar (fun alt halt => (hp.2 alt halt).2.1) hp.1]

/-- What `hostmatch` looks for: groups that take the first alternative that fits. -/
theorem globMatches_parts {p : List HostPart} {s : Bytes} (hp : ∀ q ∈ p, q.Ok) :
    GlobMatches toUpper (hostPieces (p.flatMap HostPart.text)) s ↔
      PartsMatch FirstAlternative p s := by
  induction p generalizing s with
  | nil => simp [GlobMatches, PartsMatch]
  | cons q p ih =>
    have ih : ∀ s, _ := fun s => @ih s fun q' hq' => hp q' (List.mem_cons_of_mem q hq')
    have hq := hp q List.mem_cons_self
    rw [List.flatMap_cons, hostPieces_part hq]
    unfold GlobMatches at ih ⊢
    cases q with
    | run =>
      dsimp only
      simp only [PartsMatch, Matches, ih]
    | byte =>
      dsimp only
      simp only [PartsMatch, Matches, ih]
    | lit c =>
      dsimp only
      simp only [PartsMatch, Matches, ih]
      cases s with
      | nil => simp
      | cons x s => simp [MaskPart.takes]
    | choice cs =>
      dsimp only
      simp only [PartsMatch, Matches, ih]
      cases s with
      | nil => simp
      | cons x s => simp [MaskPart.takes, collate_set hq.2.1 hq.2.2]
    | group alts =>
      dsimp only
      simp only [PartsMatch, Matches, ih, FirstAlternative]
      cases s with
      | nil => simp
      | cons x s => simp [MaskPart.takes]

/-- A group of `'*'` leaves at most one part to be sought. -/
theorem levels_le_starRuns {p : List HostPart} (hp : ∀ q ∈ p, q.Ok) :
    levels false (hostPieces (p.flatMap HostPart.text)) ≤ starRuns p ∧
    levels true (hostPieces (p.flatMap HostPart.text)) ≤ starRuns p + 1 ∧
    (p.head? = some run → levels true (hostPieces (p.flatMap HostPart.text)) ≤ starRuns p) := by
  induction p with
  | nil => simp [levels, starRuns]
  | cons q p ih =>
    obtain ⟨hfalse, htrue, hhead⟩ := ih fun q' hq' => hp q' (List.mem_cons_of_mem q hq')
    rw [List.flatMap_cons, hostPieces_part (hp q List.mem_cons_self)]
    cases q with
    | run =>
      simp only [levels_many, starRuns]
      by_cases hnext : p.head? = some run
      · have := hhead hnext
        simp only [hnext, if_true]
        omega
      · simp only [hnext, if_false]
        omega
    | byte =>
      refine ⟨by simpa [starRuns] using hfalse, by simpa [starRuns] using htrue, by simp⟩
    | lit c => refine ⟨by simpa [starRuns] using hfalse, by simpa [starRuns] using hfalse, by simp⟩
    | choice cs =>
      refine ⟨by simpa [starRuns] using hfalse, by simpa [starRuns] using hfalse, by simp⟩
    | group alts =>
      refine ⟨by simpa [starRuns] using hfalse, by simpa [starRuns] using hfalse, by simp⟩

/-- What `hostmatch` finds. -/
theorem hostmatch_firstFits {m : HostMask} {s : Bytes} (hs : s ≠ [star])
    (hruns : starRuns m.parts < MAX_HOSTMATCH_DEPTH) :
    hostmatch m.text s = true ↔ m.FirstFits s := by
  have hlevels := (levels_le_starRuns m.ok).1
  rw [hostmatch_iff, HostMask.text, globMatches_parts m.ok]
  constructor
  · rintro (h | h)
    · exact absurd h hs
    · exact h.1
  · intro h
    exact Or.inr ⟨h, by omega⟩

/-! ### Groups in which nothing overlaps -/

/-- No alternative is empty, has a letter that the table misfiles or starts with another one. -/
def Clear (alts : List Bytes) : Prop :=
  (∀ alt ∈ alts, alt ≠ [] ∧ ∀ c ∈ alt, ¬ Misfiled c) ∧
    alts.Pairwise fun a b => startsNoCase a b = false ∧ startsNoCase b a = false

instance (alts : List Bytes) : Decidable (Clear alts) := inferInstanceAs (Decidable (_ ∧ _))

theorem startsNoCase_of_le {a b s : Bytes} (ha : startsNoCase a s = true)
    (hb : startsNoCase b s = true) (hle : a.length ≤ b.length) : startsNoCase a b = true := by
  unfold startsNoCase at ha hb ⊢
  rw [beq_iff_eq] at ha hb ⊢
  have htake := congrArg (List.take a.length) hb
  rw [← List.map_take, ← List.map_take, List.take_take, Nat.min_eq_left hle] at htake
  exact htake.symm.trans ha

theorem map_toUpper_iff {u alt : Bytes} (h : ∀ c ∈ alt, ¬ Misfiled c) :
    u.map toUpper = alt.map toUpper ↔ u.map toLower = alt.map toLower := by
  induction alt generalizing u with
  | nil => simp
  | cons c alt ih =>
    cases u with
    | nil => simp
    | cons x u =>
      have hc : ¬ Misfiled c := h c List.mem_cons_self
      have hrest := ih (u := u) fun d hd => h d (List.mem_cons_of_mem c hd)
      simp only [List.map_cons, List.cons.injEq, toUpper_eq_iff, if_neg hc, hrest]

/-- In such a group there is no choice. -/
theorem anyAlternative_iff {alts : List Bytes} (h : Clear alts) {s t : Bytes} :
    AnyAlternative alts s t ↔ FirstAlternative alts s t := by
  induction alts with
  | nil => simp [AnyAlternative, FirstAlternative, alternate]
  | cons a alts ih =>
    obtain ⟨hclear, hpair⟩ := h
    rw [List.pairwise_cons] at hpair
    obtain ⟨hne, hletters⟩ := hclear a List.mem_cons_self
    have hrest := ih ⟨fun alt halt => hclear alt (List.mem_cons_of_mem a halt), hpair.2⟩
    have hfits : ∀ b u, b ∈ a :: alts → s = u ++ t → u.map toUpper = b.map toUpper →
        startsNoCase b s = true ∧ s.drop b.length = t ∧ s ≠ [] := by
      rintro b u hb rfl hu
      have hlength : u.length = b.length := by simpa using congrArg List.length hu
      have hb' := hclear b hb
      refine ⟨?_, ?_, ?_⟩
      · unfold startsNoCase
        rw [← hlength, List.take_left, beq_iff_eq]
        exact (map_toUpper_iff hb'.2).1 hu
      · rw [← hlength, List.drop_left]
      · intro hnil
        have := List.length_pos_of_ne_nil hb'.1
        have := congrArg List.length hnil
        simp only [List.length_append, List.length_nil] at this
        omega
    constructor
    · rintro ⟨b, hb, u, hs, hu⟩
      obtain ⟨hstart, hdrop, hsne⟩ := hfits b u hb hs hu
      refine ⟨hsne, ?_⟩
      unfold alternate
      rcases List.mem_cons.1 hb with rfl | hb
      · rw [if_pos hstart, hdrop]
      · -- the two would overlap in the string
        have ha : startsNoCase a s = false := by
          by_contra ha
          rw [Bool.not_eq_false] at ha
          obtain ⟨hab, hba⟩ := hpair.1 b hb
          rcases le_total a.length b.length with hle | hle
          · rw [startsNoCase_of_le ha hstart hle] at hab
            cases hab
          · rw [startsNoCase_of_le hstart ha hle] at hba
            cases hba
        rw [if_neg (by simp [ha])]
        exact (hrest.1 ⟨b, hb, u, hs, hu⟩).2
    · rintro ⟨hsne, halt⟩
      unfold alternate at halt
      split at halt
      · rename_i hstart
        cases halt
        refine ⟨a, List.mem_cons_self, s.take a.length, (List.take_append_drop _ _).symm, ?_⟩
        exact (map_toUpper_iff hletters).2 (beq_iff_eq.1 hstart)
      · obtain ⟨b, hb, hfit⟩ := hrest.2 ⟨hsne, halt⟩
        exact ⟨b, List.mem_cons_of_mem a hb, hfit⟩

theorem partsMatch_congr {picks picks' : List Bytes → Bytes → Bytes → Prop} {p : List HostPart}
    (h : ∀ alts, HostPart.group alts ∈ p → ∀ s t, picks alts s t ↔ picks' alts s t) (s : Bytes) :
    PartsMatch picks p s ↔ PartsMatch picks' p s := by
  induction p generalizing s with
  | nil => exact Iff.rfl
  | cons q p ih =>
    have ih := ih fun alts halts => h alts (List.mem_cons_of_mem q halts)
    cases q with
    | run => simp only [PartsMatch, ih]
    | byte => simp only [PartsMatch, ih]
    | lit c => simp only [PartsMatch, ih]
    | choice cs => simp only [PartsMatch, ih]
    | group alts => simp only [PartsMatch, ih, h alts List.mem_cons_self]

/-- Masks whose groups have nothing that overlaps are matched as they are meant. -/
theorem firstFits_of_clear {m : HostMask} (h : ∀ alts, HostPart.group alts ∈ m.parts → Clear alts)
    (s : Bytes) : m.Denotes s ↔ m.FirstFits s :=
  partsMatch_congr (fun alts halts _ _ => anyAlternative_iff (h alts halts)) s

/-! ### The matcher -/

/-- `hostmatch` finds what a mask denotes exactly if no string is lost or won by taking in every
group the first alternative that fits. -/
theorem hostmatch_denotes_iff (m : HostMask) (s : Bytes) (hs : s ≠ [star])
    (hruns : starRuns m.parts < MAX_HOSTMATCH_DEPTH) :
    (hostmatch m.text s = true ↔ m.Denotes s) ↔ (m.Denotes s ↔ m.FirstFits s) := by
  rw [hostmatch_firstFits hs hruns]
  exact ⟨Iff.symm, Iff.symm⟩

/-- `*.(edu|com)` -/
def eduMask : HostMask where
  parts := [run, lit dot, .group [bytes "edu", bytes "com"]]
  ok := by decide

theorem hostmatch_denotes_edu :
    hostmatch eduMask.text (bytes "irc.EDU") = true ↔ eduMask.Denotes (bytes "irc.EDU") := by
  refine (hostmatch_denotes_iff eduMask _ (by decide) (by decide)).2 (firstFits_of_clear ?_ _)
  intro alts halts
  obtain rfl : alts = [bytes "edu", bytes "com"] := by simpa [eduMask] using halts
  decide +kernel

/-- `(a|ab)c` -/
def overlapMask : HostMask where
  parts := [.group [bytes "a", bytes "ab"], lit 99]
  ok := by decide

/-- The second alternative would have to be taken. -/
theorem hostmatch_denotes_fails :
    ¬ ∀ (m : HostMask) (s : Bytes), s ≠ [star] → starRuns m.parts < MAX_HOSTMATCH_DEPTH →
      (hostmatch m.text s = true ↔ m.Denotes s) := by
  intro h
  have hdenotes : overlapMask.Denotes (bytes "abc") :=
    ⟨bytes "c", ⟨bytes "ab", by decide, bytes "ab", rfl, rfl⟩, 99, [], rfl, rfl, rfl⟩
  have hfound := (h overlapMask (bytes "abc") (by decide) (by decide)).2 hdenotes
  revert hfound
  decide +kernel

end Ithildin
