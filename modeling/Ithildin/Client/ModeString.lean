import Ithildin.Lib.Buffer
import Ithildin.Lib.WordSet
import Ithildin.Match
import Mathlib.Logic.Function.Basic
import Mathlib.Data.List.Nodup
import Mathlib.Data.List.Perm.Subperm

/-!
# User modes as strings and as words

`usermode_request`, `usermode_release`, `usermode_getstr`, `usermode_getmask` and `usermode_diff`
of `client.c`.

* `UmodeEntry`, `UmodeState`: the table of modes and the strings made of it;
* `UmodeState.run`: the table after any requests and releases;
* `signRules`: a mode string applied to a word as `user_mode` does;
* `considered`: the registered modes that a string is about;
* `usermode_strings_faithful`: strings and words say the same, and fit their buffers.
-/

namespace Ithildin

open Buffer WordSet

/-- `USERMODE_FL_GLOBAL` -/
def USERMODE_FL_GLOBAL : UInt32 := 1

/-- `struct usermode`, less the handler and the send flag. -/
structure UmodeEntry where
  mode : UInt8
  avail : Bool
  flags : UInt32
  mask : UInt64

/-- The letters that the loader makes modes of. -/
def umodeLetters : Bytes :=
  bytes "abcdefghijklmnopqrstuvwxyz" ++ bytes "ABCDEFGHIJKLMNOPQRSTUVWXYZ" ++ bytes "0123456789"

/-- `MODELOOP`, with `ui64`. -/
def modeLoop (letters : Bytes) (s : (UInt8 → UmodeEntry) × UInt64) :
    (UInt8 → UmodeEntry) × UInt64 :=
  letters.foldl (fun s c =>
    (Function.update s.1 c { s.1 c with mode := c, mask := s.2, avail := true }, s.2 <<< 1)) s

/-- `for (i = 0;i < 256;i++)` -/
def allModes : List UInt8 := (List.range 256).map UInt8.ofNat

/-- `ircd.umodes`, and the static string of `usermode_getstr`. -/
structure UmodeState where
  modes : UInt8 → UmodeEntry
  avail : Bytes
  string : Bytes

section

variable (t : UInt8 → UmodeEntry)

/-- `(!global || ircd.umodes.modes[i].flags & USERMODE_FL_GLOBAL)` -/
def flagged (global : Bool) (c : UInt8) : Bool :=
  !global || ((t c).flags &&& USERMODE_FL_GLOBAL != 0)

/-- `usermode_getstr`: what it leaves in `string`. -/
def usermodeGetstr (modes : UInt64) (global : Bool) (string : Bytes) : Bytes :=
  let k := Writer.put plusSign ⟨string, 0⟩
  let k := allModes.foldl (fun k c =>
    if (modes &&& (t c).mask != 0) && flagged t global c then k.put (t c).mode else k) k
  (k.put 0).buf

/-- `usermode_getmask` -/
def usermodeGetmask (str : Bytes) (global : Bool) : UInt64 :=
  str.foldl (fun mask c => if flagged t global c then mask ||| (t c).mask else mask) 0

/-- `usermode_diff`: what it leaves in `result`. -/
def usermodeDiff (old new : UInt64) (result : Bytes) (global : Bool) : Bytes :=
  let k := Writer.put plusSign ⟨result, 0⟩
  let k := allModes.foldl (fun k c =>
    if flagged t global c && (old &&& (t c).mask == 0) && (new &&& (t c).mask != 0)
    then k.put (t c).mode else k) k
  let k := k.unput plusSign
  let k := k.put minusSign
  let k := allModes.foldl (fun k c =>
    if flagged t global c && (old &&& (t c).mask != 0) && (new &&& (t c).mask == 0)
    then k.put (t c).mode else k) k
  let k := k.unput minusSign
  (k.put 0).buf

/-- The modes in use. -/
def inUse : UInt64 :=
  allModes.foldl (fun w c => if !(t c).avail && ((t c).mask != 0) then w ||| (t c).mask else w) 0

/-- `usermode_set` on the word of a client, of a mode that nothing refuses. -/
def usermodeSetWord (c : UInt8) (modes : UInt64) : UInt64 :=
  if (t c).avail || (t c).mask == 0 then modes
  else if modes &&& (t c).mask != 0 then modes
  else modes ||| (t c).mask

/-- `usermode_unset` likewise. -/
def usermodeUnsetWord (c : UInt8) (modes : UInt64) : UInt64 :=
  if (t c).avail || (t c).mask == 0 then modes
  else if modes &&& (t c).mask == 0 then modes
  else modes &&& ~~~(t c).mask

/-- The loop of `user_mode`, where no handler refuses: so it goes at the servers whose client it is
not. -/
def signRules : Bytes → Bool → UInt64 → UInt64
  | [], _, w => w
  | c :: modes, plus, w =>
      if c = plusSign then signRules modes true w
      else if c = minusSign then signRules modes false w
      else signRules modes plus (if plus then usermodeSetWord t c w else usermodeUnsetWord t c w)

/-- A mode that was requested. -/
def Registered (c : UInt8) : Prop := (t c).avail = false ∧ (t c).mask ≠ 0

instance (c : UInt8) : Decidable (Registered t c) := inferInstanceAs (Decidable (_ ∧ _))

/-- The registered modes that a string for the network, or for all, is about. -/
def considered (global : Bool) : UInt64 :=
  allModes.foldl (fun w c =>
    if decide (Registered t c) && flagged t global c then w ||| (t c).mask else w) 0

/-- A word over the registered modes. -/
def OverRegistered (w : UInt64) : Prop := w &&& ~~~considered t false = 0

instance (w : UInt64) : Decidable (OverRegistered t w) := inferInstanceAs (Decidable (_ = _))

end

/-- A call of `usermode_request` or `usermode_release`. -/
inductive UmodeCall
  | request (suggested : UInt8) (flags : UInt32)
  | release (mode : UInt8)

namespace UmodeState

/-- As the loader makes it. -/
def initial : UmodeState where
  modes := (modeLoop (bytes "0123456789") (modeLoop (bytes "ABCDEFGHIJKLMNOPQRSTUVWXYZ")
    (modeLoop (bytes "abcdefghijklmnopqrstuvwxyz") (fun _ => ⟨0, false, 0, 0⟩, 1)))).1
  avail := List.replicate 64 0
  string := List.replicate 66 0

/-- The entry that a request gets. -/
def requested (suggested : UInt8) (s : UmodeState) : Option UInt8 :=
  if (s.modes suggested).avail then some suggested
  else
    let c := if 97 ≤ suggested ∧ suggested ≤ 122 then toUpper suggested else toLower suggested
    if (s.modes c).avail then some c
    else allModes.find? fun c => (s.modes c).avail && ((s.modes c).mask != 0)

/-- `strcpy(ircd.umodes.avail, usermode_getstr(allmodes, 0) + 1)` -/
def rebuild (allmodes : UInt64) (s : UmodeState) : UmodeState :=
  let string := usermodeGetstr s.modes allmodes false s.string
  { s with
    string := string
    avail := storeAt 0 (strAt (string.drop 1) ++ [0]) s.avail }

/-- `usermode_request`: the mask, the letter and what it leaves. -/
def usermodeRequest (suggested : UInt8) (flags : UInt32) (s : UmodeState) :
    UInt64 × Option UInt8 × UmodeState :=
  let allmodes := inUse s.modes
  match s.requested suggested with
  | none => (0, none, s)
  | some c =>
      let md := { s.modes c with avail := false, flags := flags }
      ((s.modes c).mask, some (s.modes c).mode,
        { s with modes := Function.update s.modes c md }.rebuild (allmodes ||| md.mask))

/-- `usermode_release` -/
def usermodeRelease (mode : UInt8) (s : UmodeState) : UmodeState :=
  let allmodes := inUse s.modes
  let md := { s.modes mode with avail := true, flags := 0 }
  { s with modes := Function.update s.modes mode md }.rebuild (allmodes &&& ~~~md.mask)

def call (s : UmodeState) : UmodeCall → UmodeState
  | .request suggested flags => (s.usermodeRequest suggested flags).2.2
  | .release mode => s.usermodeRelease mode

/-- The table after some requests and releases. -/
def run (calls : List UmodeCall) : UmodeState := calls.foldl call initial

end UmodeState

/-! ### Letters and bits -/

/-- The letters have their bits, in order. -/
def Lettered (t : UInt8 → UmodeEntry) : Prop :=
  ∀ c, (t c).mask = (if c ∈ umodeLetters then bit (umodeLetters.idxOf c) else 0) ∧
    (c ∈ umodeLetters → (t c).mode = c)

theorem mem_allModes (c : UInt8) : c ∈ allModes :=
  List.mem_map.2 ⟨c.toNat, List.mem_range.2 c.toNat_lt, UInt8.ofNat_toNat⟩

theorem nodup_allModes : allModes.Nodup := by
  refine List.Nodup.map_on (fun a ha b hb heq => ?_) List.nodup_range
  have hnat := congrArg UInt8.toNat heq
  rwa [UInt8.toNat_ofNat_of_lt' (List.mem_range.1 ha),
    UInt8.toNat_ofNat_of_lt' (List.mem_range.1 hb)] at hnat

theorem nodup_umodeLetters : umodeLetters.Nodup := by decide +kernel

theorem sign_not_letter : plusSign ∉ umodeLetters ∧ minusSign ∉ umodeLetters ∧
    (0 : UInt8) ∉ umodeLetters := by decide +kernel

/-- Every letter of the loop gets the bit that is due. -/
theorem modeLoop_modes {letters : Bytes} (h : letters.Nodup) (t : UInt8 → UmodeEntry) (i : ℕ)
    (c : UInt8) :
    (modeLoop letters (t, bit i)).1 c =
      if c ∈ letters then ⟨c, true, (t c).flags, bit (i + letters.idxOf c)⟩ else t c := by
  induction letters generalizing t i with
  | nil => rfl
  | cons d letters ih =>
    obtain ⟨hd, hletters⟩ := List.nodup_cons.1 h
    have hstep : modeLoop (d :: letters) (t, bit i) =
        modeLoop letters (Function.update t d ⟨d, true, (t d).flags, bit i⟩, bit (i + 1)) := by
      rw [← bit_shiftLeft]
      rfl
    rw [hstep, ih hletters]
    by_cases hc : c = d
    · rw [hc, if_neg hd, if_pos List.mem_cons_self, Function.update_self, List.idxOf_cons_self,
        Nat.add_zero]
    · rw [Function.update_of_ne hc, List.idxOf_cons_ne _ (Ne.symm hc)]
      simp only [List.mem_cons, hc, false_or, Nat.succ_eq_add_one, Nat.add_assoc, Nat.add_comm 1]

theorem lettered_initial : Lettered UmodeState.initial.modes := by
  have hinitial : UmodeState.initial.modes =
      (modeLoop umodeLetters (fun _ => ⟨0, false, 0, 0⟩, bit 0)).1 := by
    have hzero : bit 0 = 1 := by decide
    rw [hzero, umodeLetters]
    simp only [modeLoop, List.foldl_append]
    rfl
  intro c
  rw [hinitial, modeLoop_modes nodup_umodeLetters, Nat.zero_add]
  constructor
  · split
    · rfl
    · rfl
  · intro hc
    rw [if_pos hc]

section

variable {t : UInt8 → UmodeEntry} {c : UInt8} {i j : ℕ} {m w : UInt64} {global : Bool}

theorem letter_unique (hi : umodeLetters[i]? = some c) (hj : umodeLetters[j]? = some c) :
    i = j := by
  obtain ⟨hi', -⟩ := List.getElem?_eq_some_iff.1 hi
  exact (List.getElem?_inj hi' nodup_umodeLetters).1 (hi.trans hj.symm)

theorem mem_of_letter (hi : umodeLetters[i]? = some c) : c ∈ umodeLetters :=
  List.mem_of_getElem? hi

theorem has_mask (h : Lettered t) : Has (t c).mask i ↔ umodeLetters[i]? = some c := by
  rw [(h c).1]
  by_cases hc : c ∈ umodeLetters
  · have hlt : umodeLetters.idxOf c < 64 := (List.idxOf_lt_length_iff.2 hc).trans (by decide)
    have hat : umodeLetters[umodeLetters.idxOf c]? = some c := List.getElem?_idxOf hc
    rw [if_pos hc, has_bit hlt]
    constructor
    · rintro rfl
      exact hat
    · exact letter_unique hat
  · rw [if_neg hc]
    simp only [not_has_zero, false_iff]
    exact fun hi => hc (mem_of_letter hi)

/-- A mode is set in a word. -/
theorem meets_iff (h : Lettered t) :
    (w &&& (t c).mask != 0) = true ↔ ∃ i, umodeLetters[i]? = some c ∧ Has w i := by
  rw [(h c).1]
  by_cases hc : c ∈ umodeLetters
  · have hlt : umodeLetters.idxOf c < 64 := (List.idxOf_lt_length_iff.2 hc).trans (by decide)
    have hat : umodeLetters[umodeLetters.idxOf c]? = some c := List.getElem?_idxOf hc
    rw [if_pos hc, and_bit_ne_zero hlt]
    constructor
    · exact fun hw => ⟨_, hat, hw⟩
    · rintro ⟨i, hi, hw⟩
      rwa [letter_unique hat hi]
  · rw [if_neg hc]
    constructor
    · intro hw
      simp at hw
    · rintro ⟨i, hi, -⟩
      exact absurd (mem_of_letter hi) hc

theorem has_considered (h : Lettered t) :
    Has (considered t global) i ↔
      ∃ c, umodeLetters[i]? = some c ∧ Registered t c ∧ flagged t global c = true := by
  unfold considered
  rw [← List.foldl_filter, has_foldl_or]
  constructor
  · rintro (hzero | ⟨c, hc, hi⟩)
    · exact absurd hzero (not_has_zero i)
    · rw [has_mask h] at hi
      have hp := (List.mem_filter.1 hc).2
      rw [Bool.and_eq_true, decide_eq_true_eq] at hp
      exact ⟨c, hi, hp.1, hp.2⟩
  · rintro ⟨c, hi, hreg, hflag⟩
    exact .inr ⟨c, List.mem_filter.2 ⟨mem_allModes c, by simp [hreg, hflag]⟩, (has_mask h).2 hi⟩

/-- What a word over the registered modes has are registered modes. -/
theorem OverRegistered.registered (hw : OverRegistered t w) (h : Lettered t) (hi : Has w i) :
    ∃ c, umodeLetters[i]? = some c ∧ Registered t c := by
  by_contra hnone
  have hnot : ¬ Has (considered t false) i := by
    rw [has_considered h]
    rintro ⟨c, hc, hreg, -⟩
    exact hnone ⟨c, hc, hreg⟩
  have hboth : Has (w &&& ~~~considered t false) i :=
    has_and.2 ⟨hi, (has_compl (has_lt hi)).2 hnot⟩
  rw [hw] at hboth
  exact not_has_zero i hboth

/-- A word has registered modes only, if each of its bits is that of a letter in use. -/
theorem overRegistered_of_letters (h : Lettered t)
    (hw : ∀ i, Has w i → ∃ c, umodeLetters[i]? = some c ∧ (t c).avail = false) :
    OverRegistered t w := by
  refine ext fun i hi => iff_of_false ?_ (not_has_zero i)
  rw [has_and, has_compl hi, has_considered h]
  rintro ⟨hbit, hnot⟩
  obtain ⟨c, hc, havail⟩ := hw i hbit
  refine hnot ⟨c, hc, ⟨havail, fun hzero => ?_⟩, by simp [flagged]⟩
  have hmask := (has_mask h).2 hc
  rw [hzero] at hmask
  exact not_has_zero i hmask

theorem length_filter_allModes {p : UInt8 → Bool} (hp : ∀ c, p c = true → c ∈ umodeLetters) :
    (allModes.filter p).length ≤ 62 := by
  have hsub : allModes.filter p ⊆ umodeLetters := fun c hc => hp c (List.mem_filter.1 hc).2
  exact (List.Nodup.subperm (nodup_allModes.filter p) hsub).length_le

/-! ### What the strings are -/

/-- The letters with a sign before them, if there are any. -/
def signed (sign : UInt8) (l : Bytes) : Bytes := if l = [] then [] else sign :: l

theorem map_mode (h : Lettered t) {p : UInt8 → Bool} (hp : ∀ c, p c = true → c ∈ umodeLetters) :
    (allModes.filter p).map (fun c => (t c).mode) = allModes.filter p := by
  have hall : ∀ c ∈ allModes.filter p, (t c).mode = c := fun c hc =>
    (h c).2 (hp c (List.mem_filter.1 hc).2)
  rw [List.map_congr_left hall, List.map_id'']
  exact fun _ => rfl

/-- The modes with a sign, taken back when it stands alone. -/
theorem holds_signed (h : Lettered t) {size : ℕ} {k : Writer UInt8} {text : Bytes}
    (hk : k.Holds size text) {sign : UInt8} (hsign : sign ∉ umodeLetters) {p : UInt8 → Bool}
    (hp : ∀ c, p c = true → c ∈ umodeLetters) (hroom : text.length + 63 ≤ size) :
    ((allModes.foldl (fun k c => if p c then k.put (t c).mode else k) (k.put sign)).unput
      sign).Holds size (text ++ signed sign (allModes.filter p)) := by
  have hlen := length_filter_allModes hp
  have hput := hk.put sign (by omega)
  have hall := hput.foldl_put p (fun c => (t c).mode) allModes
    (by simp only [List.length_append, List.length_singleton]; omega)
  rw [map_mode h hp] at hall
  rcases List.eq_nil_or_concat' (allModes.filter p) with hnil | ⟨init, c, hinit⟩
  · rw [hnil, List.append_nil] at hall
    have hunput := hall.unput sign
    rwa [if_pos rfl, ← List.append_nil text, ← show signed sign (allModes.filter p) = [] by
      simp [signed, hnil]] at hunput
  · have hc : c ≠ sign := by
      rintro rfl
      have hmem : c ∈ allModes.filter p := by
        rw [hinit]
        exact List.mem_concat_self
      exact hsign (hp c (List.mem_filter.1 hmem).2)
    rw [hinit, ← List.append_assoc] at hall
    have hunput := hall.unput sign
    rw [if_neg hc] at hunput
    simpa [signed, hinit] using hunput

theorem isText_filter {p : UInt8 → Bool} (hp : ∀ c, p c = true → c ∈ umodeLetters) :
    IsText (allModes.filter p) := fun hzero =>
  sign_not_letter.2.2 (hp 0 (List.mem_filter.1 hzero).2)

/-- The terminated string of a buffer. -/
theorem strAt_terminated {size : ℕ} {k : Writer UInt8} {text : Bytes} (hk : k.Holds size text)
    (hroom : text.length < size) (htext : IsText text) :
    strAt (k.put 0).buf = text ∧ (k.put 0).buf.length = size := by
  obtain ⟨-, ⟨rest, hbuf⟩, hinside⟩ := hk.put 0 hroom
  refine ⟨?_, hinside⟩
  rw [hbuf, List.append_assoc]
  exact strAt_append htext rest

/-- The modes that a string of a word lists. -/
def listed (t : UInt8 → UmodeEntry) (m : UInt64) (global : Bool) : Bytes :=
  allModes.filter fun c => (m &&& (t c).mask != 0) && flagged t global c

theorem letter_of_meets (h : Lettered t) (hw : (w &&& (t c).mask != 0) = true) :
    c ∈ umodeLetters := by
  obtain ⟨i, hi, -⟩ := (meets_iff h).1 hw
  exact mem_of_letter hi

theorem usermodeGetstr_text (h : Lettered t) (m : UInt64) (global : Bool) {string : Bytes}
    (hstring : string.length = 66) :
    strAt (usermodeGetstr t m global string) = plusSign :: listed t m global ∧
      (usermodeGetstr t m global string).length = 66 := by
  have hp : ∀ c, ((m &&& (t c).mask != 0) && flagged t global c) = true → c ∈ umodeLetters := by
    intro c hc
    rw [Bool.and_eq_true] at hc
    exact letter_of_meets h hc.1
  have hlen := length_filter_allModes hp
  have hput := (Writer.Holds.start hstring).put plusSign (by decide)
  have hall := hput.foldl_put (fun c => (m &&& (t c).mask != 0) && flagged t global c)
    (fun c => (t c).mode) allModes
    (by simp only [List.length_append, List.length_singleton, List.length_nil]; omega)
  rw [map_mode h hp] at hall
  refine strAt_terminated hall ((Nat.succ_le_succ hlen).trans_lt (by decide)) ?_
  intro hzero
  rcases List.mem_cons.1 hzero with hzero | hzero
  · exact absurd hzero (by decide)
  · exact isText_filter hp hzero

/-- The modes that one word has and the other not. -/
def gained (t : UInt8 → UmodeEntry) (old new : UInt64) (global : Bool) : Bytes :=
  allModes.filter fun c =>
    flagged t global c && (old &&& (t c).mask == 0) && (new &&& (t c).mask != 0)

/-- The modes that the other has. -/
def lost (t : UInt8 → UmodeEntry) (old new : UInt64) (global : Bool) : Bytes :=
  allModes.filter fun c =>
    flagged t global c && (old &&& (t c).mask != 0) && (new &&& (t c).mask == 0)

/-- What `usermode_diff` writes. -/
def diffText (t : UInt8 → UmodeEntry) (old new : UInt64) (global : Bool) : Bytes :=
  signed plusSign (gained t old new global) ++ signed minusSign (lost t old new global)

theorem length_signed_le {sign : UInt8} {l : Bytes} : (signed sign l).length ≤ l.length + 1 := by
  unfold signed
  split <;> simp

theorem isText_signed {sign : UInt8} {l : Bytes} (hsign : sign ≠ 0) (hl : IsText l) :
    IsText (signed sign l) := by
  unfold signed
  split
  · exact List.not_mem_nil
  · exact fun hzero => (List.mem_cons.1 hzero).elim (fun heq => hsign heq.symm) hl

theorem usermodeDiff_text (h : Lettered t) (old new : UInt64) (global : Bool) {result : Bytes}
    (hresult : result.length = 512) :
    strAt (usermodeDiff t old new result global) = diffText t old new global ∧
      (usermodeDiff t old new result global).length = 512 := by
  have hgained : ∀ c, (flagged t global c && (old &&& (t c).mask == 0) &&
      (new &&& (t c).mask != 0)) = true → c ∈ umodeLetters := by
    intro c hc
    rw [Bool.and_eq_true] at hc
    exact letter_of_meets h hc.2
  have hlost : ∀ c, (flagged t global c && (old &&& (t c).mask != 0) &&
      (new &&& (t c).mask == 0)) = true → c ∈ umodeLetters := by
    intro c hc
    rw [Bool.and_eq_true, Bool.and_eq_true] at hc
    exact letter_of_meets h hc.1.2
  have hlen₁ := length_filter_allModes hgained
  have hlen₂ := length_filter_allModes hlost
  have hplus := holds_signed h (Writer.Holds.start hresult) sign_not_letter.1 hgained (by decide)
  rw [List.nil_append] at hplus
  have hfirst : (signed plusSign (gained t old new global)).length ≤ 63 :=
    length_signed_le.trans (Nat.succ_le_succ hlen₁)
  have hsecond : (signed minusSign (lost t old new global)).length ≤ 63 :=
    length_signed_le.trans (Nat.succ_le_succ hlen₂)
  have hminus := holds_signed h hplus sign_not_letter.2.1 hlost
    ((Nat.add_le_add_right hfirst 63).trans (by decide))
  refine strAt_terminated hminus ?_ ?_
  · rw [diffText, List.length_append]
    exact (Nat.add_le_add hfirst hsecond).trans_lt (by decide)
  · intro hzero
    rcases List.mem_append.1 hzero with hzero | hzero
    · exact isText_signed (by decide) (isText_filter hgained) hzero
    · exact isText_signed (by decide) (isText_filter hlost) hzero

/-! ### What they do -/

theorem usermodeSetWord_eq (h : Lettered t) (hc : Registered t c) :
    usermodeSetWord t c w = w ||| (t c).mask := by
  unfold usermodeSetWord
  rw [if_neg (by simp [hc.1, hc.2])]
  split
  · rename_i hmeets
    obtain ⟨j, hj, hw⟩ := (meets_iff h).1 hmeets
    refine ext fun i _ => ?_
    rw [has_or, has_mask h]
    constructor
    · exact .inl
    · rintro (hi | hi)
      · exact hi
      · rwa [letter_unique hi hj]
  · rfl

theorem usermodeUnsetWord_eq (h : Lettered t) (hc : Registered t c) :
    usermodeUnsetWord t c w = w &&& ~~~(t c).mask := by
  unfold usermodeUnsetWord
  rw [if_neg (by simp [hc.1, hc.2])]
  split
  · rename_i hnone
    refine ext fun i hi => ?_
    rw [has_and, has_compl hi, has_mask h]
    constructor
    · intro hw
      refine ⟨hw, fun hletter => ?_⟩
      have hmeets := (meets_iff h).2 ⟨i, hletter, hw⟩
      rw [bne_iff_ne] at hmeets
      exact hmeets (beq_iff_eq.1 hnone)
    · exact And.left
  · rfl

/-- Letters behind a sign, and what follows. -/
theorem signRules_letters (h : Lettered t) {l : Bytes} (hl : ∀ c ∈ l, Registered t c)
    (rest : Bytes) (plus : Bool) (w : UInt64) :
    signRules t (l ++ rest) plus w = signRules t rest plus
      (l.foldl (fun w c => if plus then w ||| (t c).mask else w &&& ~~~(t c).mask) w) := by
  induction l generalizing w with
  | nil => rfl
  | cons c l ih =>
    obtain ⟨hc, hl⟩ := List.forall_mem_cons.1 hl
    have hletter : c ∈ umodeLetters := by
      by_contra hnot
      exact hc.2 (by rw [(h c).1, if_neg hnot])
    have hplus : c ≠ plusSign := fun heq => sign_not_letter.1 (heq ▸ hletter)
    have hminus : c ≠ minusSign := fun heq => sign_not_letter.2.1 (heq ▸ hletter)
    rw [List.cons_append, signRules, if_neg hplus, if_neg hminus, ih hl,
      usermodeSetWord_eq h hc, usermodeUnsetWord_eq h hc, List.foldl_cons]

/-- A difference applied to the old word. -/
theorem signRules_diffText (h : Lettered t) {old new : UInt64} {global : Bool}
    (hgained : ∀ c ∈ gained t old new global, Registered t c)
    (hlost : ∀ c ∈ lost t old new global, Registered t c) :
    signRules t (diffText t old new global) true old =
      (lost t old new global).foldl (fun w c => w &&& ~~~(t c).mask)
        ((gained t old new global).foldl (fun w c => w ||| (t c).mask) old) := by
  have hplus : ∀ rest, signRules t (signed plusSign (gained t old new global) ++ rest) true old =
      signRules t rest true
        ((gained t old new global).foldl (fun w c => w ||| (t c).mask) old) := by
    intro rest
    unfold signed
    split
    · rename_i hnil
      rw [hnil]
      rfl
    · rw [List.cons_append, signRules, if_pos rfl]
      exact signRules_letters h hgained rest true old
  rw [diffText, hplus]
  unfold signed
  split
  · rename_i hnil
    rw [hnil]
    rfl
  · rw [signRules, if_neg (by decide), if_pos rfl]
    have hminus := signRules_letters h hlost [] false
      ((gained t old new global).foldl (fun w c => w ||| (t c).mask) old)
    rwa [List.append_nil] at hminus

theorem mem_gained (h : Lettered t) {old new : UInt64} : c ∈ gained t old new global ↔
    flagged t global c = true ∧
      ∃ i, umodeLetters[i]? = some c ∧ ¬ Has old i ∧ Has new i := by
  unfold gained
  rw [List.mem_filter, Bool.and_eq_true, Bool.and_eq_true, meets_iff h, and_assoc]
  have hold : (old &&& (t c).mask == 0) = true ↔
      ¬ ∃ i, umodeLetters[i]? = some c ∧ Has old i := by
    rw [← meets_iff h, bne_iff_ne, beq_iff_eq, not_not]
  rw [hold]
  constructor
  · rintro ⟨-, hflag, hnot, i, hi, hw⟩
    exact ⟨hflag, i, hi, fun hold => hnot ⟨i, hi, hold⟩, hw⟩
  · rintro ⟨hflag, i, hi, hnot, hw⟩
    refine ⟨mem_allModes c, hflag, ?_, i, hi, hw⟩
    rintro ⟨j, hj, hw'⟩
    exact hnot (letter_unique hi hj ▸ hw')

/-- What is lost one way is gained the other way. -/
theorem lost_eq_gained (old new : UInt64) : lost t old new global = gained t new old global := by
  unfold lost gained
  refine List.filter_congr fun c _ => ?_
  rw [Bool.and_assoc, Bool.and_assoc, Bool.and_comm (old &&& (t c).mask != 0)]

theorem registered_of_letter (h : Lettered t) (hw : OverRegistered t w)
    (hi : umodeLetters[i]? = some c) (hhas : Has w i) : Registered t c := by
  obtain ⟨d, hd, hreg⟩ := hw.registered h hhas
  obtain rfl : c = d := Option.some.inj (hi.symm.trans hd)
  exact hreg

theorem registered_gained (h : Lettered t) {old new : UInt64} (hnew : OverRegistered t new) :
    ∀ c ∈ gained t old new global, Registered t c := by
  intro c hc
  obtain ⟨-, i, hi, -, hw⟩ := (mem_gained h).1 hc
  exact registered_of_letter h hnew hi hw

theorem exists_gained (h : Lettered t) {old new : UInt64} (hnew : OverRegistered t new) :
    (∃ c ∈ gained t old new global, Has (t c).mask i) ↔
      Has (considered t global) i ∧ ¬ Has old i ∧ Has new i := by
  rw [has_considered h]
  constructor
  · rintro ⟨c, hc, hi⟩
    rw [has_mask h] at hi
    obtain ⟨hflag, j, hj, hnot, hw⟩ := (mem_gained h).1 hc
    obtain rfl := letter_unique hi hj
    exact ⟨⟨c, hi, registered_of_letter h hnew hi hw, hflag⟩, hnot, hw⟩
  · rintro ⟨⟨c, hi, -, hflag⟩, hnot, hw⟩
    exact ⟨c, (mem_gained h).2 ⟨hflag, i, hi, hnot, hw⟩, (has_mask h).2 hi⟩

/-- The difference of two words makes the new one of the old one. -/
theorem signRules_diff (h : Lettered t) {old new : UInt64} (hold : OverRegistered t old)
    (hnew : OverRegistered t new) :
    signRules t (diffText t old new global) true old =
      (old &&& ~~~considered t global) ||| (new &&& considered t global) := by
  have hlost : ∀ c ∈ lost t old new global, Registered t c := by
    rw [lost_eq_gained]
    exact registered_gained h hold
  rw [signRules_diffText h (registered_gained h hnew) hlost, lost_eq_gained]
  refine ext fun i hi => ?_
  have hnone : (∀ c ∈ gained t new old global, ¬ Has (t c).mask i) ↔
      ¬ ∃ c ∈ gained t new old global, Has (t c).mask i := by simp
  rw [has_foldl_and_compl hi, has_foldl_or, hnone, exists_gained h hnew, exists_gained h hold,
    has_or, has_and, has_and, has_compl hi]
  by_cases hc : Has (considered t global) i
  · by_cases hw : Has new i
    · by_cases hv : Has old i <;> simp [hc, hw, hv]
    · simp [hc, hw]
  · simp [hc]

/-- The mask of the string of a word. -/
theorem usermodeGetmask_listed (h : Lettered t) (hm : OverRegistered t m) :
    usermodeGetmask t (plusSign :: listed t m global) global = m &&& considered t global := by
  unfold usermodeGetmask
  rw [← List.foldl_filter]
  refine ext fun i _ => ?_
  rw [has_foldl_or, has_and, has_considered h]
  constructor
  · rintro (hzero | ⟨c, hc, hi⟩)
    · exact absurd hzero (not_has_zero i)
    · rw [has_mask h] at hi
      obtain ⟨hmem, hflag⟩ := List.mem_filter.1 hc
      rcases List.mem_cons.1 hmem with rfl | hmem
      · exact absurd (mem_of_letter hi) sign_not_letter.1
      · have hp := (List.mem_filter.1 hmem).2
        rw [Bool.and_eq_true, meets_iff h] at hp
        obtain ⟨⟨j, hj, hw⟩, -⟩ := hp
        obtain rfl := letter_unique hi hj
        exact ⟨hw, c, hi, registered_of_letter h hm hi hw, hflag⟩
  · rintro ⟨hw, c, hi, -, hflag⟩
    have hmeets := (meets_iff h).2 ⟨i, hi, hw⟩
    have hlisted : c ∈ listed t m global :=
      List.mem_filter.2 ⟨mem_allModes c, by rw [hmeets, hflag]; rfl⟩
    exact .inr ⟨c, List.mem_filter.2 ⟨List.mem_cons_of_mem _ hlisted, hflag⟩, (has_mask h).2 hi⟩

end

/-! ### Runs -/

namespace UmodeState

/-- The letters keep their bits, and no string has left its buffer. -/
structure Sound (s : UmodeState) : Prop where
  lettered : Lettered s.modes
  avail : s.avail.length = 64
  string : s.string.length = 66

theorem sound_initial : initial.Sound := ⟨lettered_initial, rfl, rfl⟩

theorem Sound.rebuild {s : UmodeState} (h : s.Sound) (allmodes : UInt64) :
    (s.rebuild allmodes).Sound := by
  obtain ⟨htext, hlength⟩ := usermodeGetstr_text h.lettered allmodes false h.string
  refine ⟨h.lettered, ?_, hlength⟩
  -- the letters behind the sign
  have hletters : strAt ((usermodeGetstr s.modes allmodes false s.string).drop 1) =
      listed s.modes allmodes false := by
    generalize usermodeGetstr s.modes allmodes false s.string = string at htext
    cases string with
    | nil => cases htext
    | cons c string =>
      by_cases hc : c = 0
      · rw [hc, strAt_zero] at htext
        cases htext
      · rw [strAt_cons hc, List.cons.injEq] at htext
        exact htext.2
  have hlisted : (listed s.modes allmodes false).length ≤ 62 := by
    refine length_filter_allModes fun c hc => ?_
    rw [Bool.and_eq_true] at hc
    exact letter_of_meets h.lettered hc.1
  unfold UmodeState.rebuild
  dsimp only
  rw [hletters, length_storeAt ?_, h.avail]
  rw [h.avail, List.length_append, List.length_singleton]
  omega

theorem Sound.update {s : UmodeState} (h : s.Sound) (c : UInt8) (m : UmodeEntry)
    (hmode : m.mode = (s.modes c).mode) (hmask : m.mask = (s.modes c).mask) :
    ({ s with modes := Function.update s.modes c m } : UmodeState).Sound := by
  refine ⟨fun d => ?_, h.avail, h.string⟩
  dsimp only
  by_cases hd : d = c
  · subst hd
    rw [Function.update_self, hmode, hmask]
    exact h.lettered d
  · rw [Function.update_of_ne hd]
    exact h.lettered d

theorem Sound.call {s : UmodeState} (h : s.Sound) (c : UmodeCall) : (s.call c).Sound := by
  cases c with
  | request suggested flags =>
    unfold UmodeState.call usermodeRequest
    dsimp only
    cases s.requested suggested with
    | none => exact h
    | some c =>
      have hupdate := h.update c { s.modes c with avail := false, flags := flags } rfl rfl
      exact hupdate.rebuild _
  | release mode =>
    have hupdate := h.update mode { s.modes mode with avail := true, flags := 0 } rfl rfl
    exact hupdate.rebuild _

theorem sound_run (calls : List UmodeCall) : (run calls).Sound := by
  have hfold : ∀ s : UmodeState, s.Sound → (calls.foldl UmodeState.call s).Sound := by
    induction calls with
    | nil => exact fun s h => h
    | cons c calls ih => exact fun s h => ih _ (h.call c)
  exact hfold _ sound_initial

end UmodeState

/-- After any requests and releases, and for words over the registered modes: the difference of
two words, applied to the old one, makes the new one of it on the modes that it is about and
leaves the others; the mask of the string of a word is the word on those; and the three buffers
have their sizes. -/
theorem usermode_strings_faithful (calls : List UmodeCall) (global : Bool) (old new : UInt64)
    (result : Vector UInt8 512) (hold : OverRegistered (UmodeState.run calls).modes old)
    (hnew : OverRegistered (UmodeState.run calls).modes new) :
    let s := UmodeState.run calls
    signRules s.modes (strAt (usermodeDiff s.modes old new result.toList global)) true old =
        (old &&& ~~~considered s.modes global) ||| (new &&& considered s.modes global) ∧
      usermodeGetmask s.modes (strAt (usermodeGetstr s.modes old global s.string)) global =
        old &&& considered s.modes global ∧
      (usermodeDiff s.modes old new result.toList global).length = 512 ∧
      (usermodeGetstr s.modes old global s.string).length = 66 ∧ s.avail.length = 64 := by
  intro s
  have hs : s.Sound := UmodeState.sound_run calls
  obtain ⟨hdiff, hdiff'⟩ :=
    usermodeDiff_text hs.lettered old new global (show result.toList.length = 512 by simp)
  obtain ⟨hstr, hstr'⟩ := usermodeGetstr_text hs.lettered old global hs.string
  rw [hdiff, hstr]
  exact ⟨signRules_diff hs.lettered hold hnew, usermodeGetmask_listed hs.lettered hold, hdiff',
    hstr', hs.avail⟩

theorem usermode_strings_oper :
    let s := UmodeState.run [.request 105 1, .request 111 1, .request 115 0]
    signRules s.modes (strAt (usermodeDiff s.modes 256 16640 (Vector.replicate 512 0).toList true))
          true 256 =
        (256 &&& ~~~considered s.modes true) ||| (16640 &&& considered s.modes true) ∧
      usermodeGetmask s.modes (strAt (usermodeGetstr s.modes 256 true s.string)) true =
        256 &&& considered s.modes true ∧
      (usermodeDiff s.modes 256 16640 (Vector.replicate 512 0).toList true).length = 512 ∧
      (usermodeGetstr s.modes 256 true s.string).length = 66 ∧ s.avail.length = 64 :=
  have hletters := (UmodeState.sound_run [.request 105 1, .request 111 1, .request 115 0]).lettered
  have hbit : ∀ i < 64, Has 256 i → i = 8 := by decide
  have hbits : ∀ i < 64, Has 16640 i → i = 8 ∨ i = 14 := by decide
  usermode_strings_faithful [.request 105 1, .request 111 1, .request 115 0] true 256 16640
    (Vector.replicate 512 0)
    (overRegistered_of_letters hletters fun i hi => by
      obtain rfl := hbit i (has_lt hi) hi
      exact ⟨105, by decide, by decide⟩)
    (overRegistered_of_letters hletters fun i hi => by
      rcases hbits i (has_lt hi) hi with rfl | rfl
      · exact ⟨105, by decide, by decide⟩
      · exact ⟨111, by decide, by decide⟩)

end Ithildin
