import Ithildin.Channel.Modes
import Ithildin.Lib.Run
import Mathlib.Algebra.Group.Int.Defs
import Mathlib.Algebra.Group.Nat.Defs
import Mathlib.Data.List.Nodup
import Mathlib.Data.List.Perm.Subperm

/-!
# The table of channel modes

`chanmode_request` and `chanmode_release`: letters, mask bits, the bits of user flags, prefixes, and
the lists that `chanmode_build_lists` makes of them. A mode has the mask bit of its letter; a mode
with a prefix gets a bit of the flags of a member as well, of which there are sixteen in a `short`.

No two modes that are held have a letter or a bit in common (`distinct_of_run_iff`), as long as no
prefix mode is requested while sixteen are held: the last bit is taken for free.
-/

namespace Ithildin

def CHANMODE_FL_A : BitVec 32 := 0x01
def CHANMODE_FL_B : BitVec 32 := 0x02
def CHANMODE_FL_C : BitVec 32 := 0x04
def CHANMODE_FL_D : BitVec 32 := 0x08
def CHANMODE_FL_E : BitVec 32 := 0x10
def CHANMODE_FL_PREFIX : BitVec 32 := 0x20

/-- All bytes, in order. -/
def allBytes : List UInt8 := (List.range 256).map UInt8.ofNat

theorem mem_allBytes (c : UInt8) : c ∈ allBytes := by
  refine List.mem_map.2 ⟨c.toNat, List.mem_range.2 c.toNat_lt, ?_⟩
  exact UInt8.ofNat_toNat

/-- The masks that `MODELOOP` gives out, to channel modes and user modes alike. -/
def modeMask (c : UInt8) : BitVec 64 :=
  if 97 ≤ c ∧ c ≤ 122 then BitVec.twoPow 64 (c.toNat - 97)
  else if 65 ≤ c ∧ c ≤ 90 then BitVec.twoPow 64 (c.toNat - 65 + 26)
  else if 48 ≤ c ∧ c ≤ 57 then BitVec.twoPow 64 (c.toNat - 48 + 52)
  else 0

/-- `struct chanmode`. -/
structure Slot (F : Type) where
  mode : UInt8
  avail : Bool
  mask : BitVec 64
  umask : BitVec 16
  pfx : UInt8
  changefunc : Option F
  queryfunc : Option F
  flags : BitVec 32
  /-- The size of the item for the data of the mode. -/
  mdi : Option ℕ

/-- `ircd.cmodes`, with what `chanmode_build_lists` tells clients of it. The last field is not in
the program. -/
structure Slots (F : Type) where
  modes : UInt8 → Slot F
  pfxmap : UInt8 → Option UInt8
  avail : Bytes
  pmodes : Bytes
  pfxes : Bytes
  chanmodes : Bytes
  /-- The modes that were granted and have not been released. -/
  held : List UInt8

/-- What may happen to the table. -/
inductive SlotAction (F : Type)
  | request (suggested : UInt8) (flags : BitVec 32) (changefn queryfn : Option F) (extra : ℕ)
    (extdata : UInt8)
  | release (mode : UInt8)

namespace Slots

variable {F : Type} (s : Slots F)

/-- The table before any mode is requested. -/
def start : Slots F where
  modes c :=
    { mode := if isModeChar c then c else 0
      avail := isModeChar c
      mask := modeMask c
      umask := 0
      pfx := 0
      changefunc := none
      queryfunc := none
      flags := 0
      mdi := none }
  pfxmap _ := none
  avail := []
  pmodes := []
  pfxes := []
  chanmodes := []
  held := []

/-- The record of a mode is changed. -/
def set (c : UInt8) (md : Slot F) : Slots F := { s with modes := Function.update s.modes c md }

@[simp] theorem set_modes (c : UInt8) (md : Slot F) :
    (s.set c md).modes = Function.update s.modes c md := rfl

/-! ### The lists -/

/-- The letters of the records with a property, in order. -/
def letters (p : Slot F → Bool) : Bytes :=
  (allBytes.filter fun c => p (s.modes c)).map fun c => (s.modes c).mode

/-- `CHANMODE_BUILD_TYPE`. -/
def typeLetters (flg : BitVec 32) : Bytes := s.letters fun md => !md.avail && md.flags &&& flg ≠ 0

/-- The modes with prefixes. -/
def pfxLetters : Bytes := s.letters fun md => !md.avail && md.pfx ≠ 0

/-- `chanmode_build_lists`; nothing when it writes behind the end of a list. -/
def chanmodeBuildLists : Option (Slots F) :=
  let pfxes := (allBytes.filter fun c => !(s.modes c).avail && (s.modes c).pfx ≠ 0).map fun c =>
    (s.modes c).pfx
  let a := s.typeLetters CHANMODE_FL_A
  let b := s.typeLetters CHANMODE_FL_B
  let c := s.typeLetters CHANMODE_FL_C
  let d := s.typeLetters CHANMODE_FL_D
  let e := s.typeLetters CHANMODE_FL_E
  if s.pfxLetters.length < 32 ∧ 2 * s.pfxLetters.length + 2 < 64 ∧
      a.length + b.length + c.length + d.length + e.length + 5 ≤ 256 then
    some { s with
      avail := s.letters fun md => !md.avail && md.mask ≠ 0
      pmodes := s.pfxLetters
      pfxes := 40 :: s.pfxLetters ++ 41 :: pfxes
      chanmodes := a ++ commaSign :: b ++ commaSign :: c ++ commaSign :: d ++
        if e = [] then [] else commaSign :: e }
  else none

/-! ### Requests -/

/-- The letter in the other case. -/
def otherCase (c : UInt8) : UInt8 := if 97 ≤ c ∧ c ≤ 122 then toUpper c else toLower c

/-- The mode that is taken for the one suggested: that letter, the letter in the other case, or the
first one that is free. -/
def pick (suggested : UInt8) : Option UInt8 :=
  if (s.modes suggested).avail then some suggested
  else if (s.modes (otherCase suggested)).avail then some (otherCase suggested)
  else allBytes.find? fun i => (s.modes i).avail && modeMask i ≠ 0

/-- The first bit for which no mode has just this number as its user mask. -/
def freeBit : Option ℕ :=
  (List.range 16).find? fun i => allBytes.all fun j => (s.modes j).umask.toInt ≠ 2 ^ i

/-- A mode is granted. -/
def grant (c : UInt8) (extra : ℕ) : Option (Slots F) :=
  let s := { s with held := c :: s.held }
  (s.set c { s.modes c with mdi := if 0 < extra then some extra else none }).chanmodeBuildLists

/-- `chanmode_request`: what is returned and the letter, if a mode is granted, and the table. -/
def chanmodeRequest (suggested : UInt8) (flags : BitVec 32) (changefn queryfn : Option F)
    (extra : ℕ) (extdata : UInt8) : Option (Option (UInt8 × BitVec 64) × Slots F) :=
  match s.pick suggested with
  | none => some (none, s)
  | some c =>
    let md := { s.modes c with
      avail := false
      umask := 0
      pfx := 0
      changefunc := changefn
      queryfunc := queryfn
      flags := flags
      mdi := none }
    let s := s.set c md
    let granted := some (md.mode, md.mask)
    if flags = CHANMODE_FL_PREFIX then
      match s.freeBit with
      | none => some (none, s.set c { md with avail := true })
      | some i =>
        let s := s.set c { md with umask := BitVec.ofNat 16 (2 ^ i), pfx := extdata }
        ({ s with pfxmap := Function.update s.pfxmap extdata (some c) }.grant c extra).map
          fun s => (granted, s)
    else (s.grant c extra).map fun s => (granted, s)

/-- `chanmode_release`, apart from the channels; nothing where there is no function to clear them
with. -/
def chanmodeRelease (mode : UInt8) : Option (Slots F) :=
  let md := s.modes mode
  if md.changefunc.isNone then none
  else
    ({ s with
      pfxmap := if md.pfx ≠ 0 then Function.update s.pfxmap md.pfx none else s.pfxmap
      held := s.held.erase mode }.set mode { md with
        avail := true
        umask := 0
        pfx := 0
        changefunc := none
        queryfunc := none
        flags := 0
        mdi := none }).chanmodeBuildLists

/-- A step. -/
def step (s : Slots F) : SlotAction F → Option (Slots F)
  | .request suggested flags changefn queryfn extra extdata =>
    (s.chanmodeRequest suggested flags changefn queryfn extra extdata).map Prod.snd
  | .release mode => s.chanmodeRelease mode

/-! ### What is to hold -/

/-- The modes that are held have nothing in common. -/
structure Distinct : Prop where
  letters : (s.held.map fun c => (s.modes c).mode).Nodup
  mask_ne : ∀ c ∈ s.held, (s.modes c).mask ≠ 0
  masks : ∀ c ∈ s.held, ∀ d ∈ s.held, c ≠ d → (s.modes c).mask &&& (s.modes d).mask = 0
  umasks : ∀ c ∈ s.held, ∀ d ∈ s.held, c ≠ d → (s.modes c).umask &&& (s.modes d).umask = 0

/-- A bit of the flags of members that no mode has. -/
def FreeBit : Prop := ∃ i < 16, ∀ c ∈ s.held, (s.modes c).umask.getLsbD i = false

/-- There is no letter for a request, or no bit. -/
def Exhausted (flags : BitVec 32) : Prop :=
  (∀ c, isModeChar c = true → c ∈ s.held) ∨ flags = CHANMODE_FL_PREFIX ∧ ¬ s.FreeBit

/-- After the step the modes are distinct, and a request for which there is nothing left is
refused, with the table as it was. -/
def Regular (s : Slots F) : SlotAction F → Prop
  | .request suggested flags changefn queryfn extra extdata =>
    ∀ granted s', s.chanmodeRequest suggested flags changefn queryfn extra extdata =
      some (granted, s') → s'.Distinct ∧ (s.Exhausted flags → granted = none ∧ s' = s)
  | .release mode => ∀ s', s.chanmodeRelease mode = some s' → s'.Distinct

/-- A prefix mode is not requested while all bits are taken, unless all letters are taken too. -/
def Room (s : Slots F) : SlotAction F → Prop
  | .request _ flags _ _ _ _ =>
    flags = CHANMODE_FL_PREFIX → (∃ c ∈ allBytes, isModeChar c = true ∧ c ∉ s.held) → s.FreeBit
  | .release _ => True

instance : Decidable s.FreeBit :=
  have (i : ℕ) : Decidable (∀ c ∈ s.held, (s.modes c).umask.getLsbD i = false) :=
    List.decidableBAll _ s.held
  inferInstanceAs (Decidable (∃ i < 16, ∀ c ∈ s.held, (s.modes c).umask.getLsbD i = false))

instance (a : SlotAction F) : Decidable (s.Room a) :=
  match a with
  | .request _ flags _ _ _ _ => inferInstanceAs
      (Decidable (flags = CHANMODE_FL_PREFIX →
        (∃ c ∈ allBytes, isModeChar c = true ∧ c ∉ s.held) → s.FreeBit))
  | .release _ => isTrue trivial

/-! ### Masks and bits -/

theorem isModeChar_iff {c : UInt8} : isModeChar c = true ↔
    97 ≤ c ∧ c ≤ 122 ∨ 65 ≤ c ∧ c ≤ 90 ∨ 48 ≤ c ∧ c ≤ 57 := by
  simp [isModeChar, or_assoc]

/-- The mask of a letter is a bit of its own. -/
theorem exists_modeMask {c : UInt8} (h : isModeChar c = true) :
    ∃ i < 62, modeMask c = BitVec.twoPow 64 i ∧
      c.toNat = if i < 26 then i + 97 else if i < 52 then i + 39 else i - 4 := by
  obtain h | h | h := isModeChar_iff.mp h
  · have h₁ : 97 ≤ c.toNat := UInt8.le_iff_toNat_le.mp h.1
    have h₂ : c.toNat ≤ 122 := UInt8.le_iff_toNat_le.mp h.2
    refine ⟨c.toNat - 97, by omega, if_pos h, ?_⟩
    rw [if_pos (by omega)]
    omega
  · have h₁ : 65 ≤ c.toNat := UInt8.le_iff_toNat_le.mp h.1
    have h₂ : c.toNat ≤ 90 := UInt8.le_iff_toNat_le.mp h.2
    have hn : ¬ (97 ≤ c ∧ c ≤ 122) := by
      rintro ⟨h97, -⟩
      have : 97 ≤ c.toNat := UInt8.le_iff_toNat_le.mp h97
      omega
    refine ⟨c.toNat - 65 + 26, by omega, by rw [modeMask, if_neg hn, if_pos h], ?_⟩
    rw [if_neg (by omega), if_pos (by omega)]
    omega
  · have h₁ : 48 ≤ c.toNat := UInt8.le_iff_toNat_le.mp h.1
    have h₂ : c.toNat ≤ 57 := UInt8.le_iff_toNat_le.mp h.2
    have hn : ¬ (97 ≤ c ∧ c ≤ 122) := by
      rintro ⟨h97, -⟩
      have : 97 ≤ c.toNat := UInt8.le_iff_toNat_le.mp h97
      omega
    have hn' : ¬ (65 ≤ c ∧ c ≤ 90) := by
      rintro ⟨h65, -⟩
      have : 65 ≤ c.toNat := UInt8.le_iff_toNat_le.mp h65
      omega
    refine ⟨c.toNat - 48 + 52, by omega, by rw [modeMask, if_neg hn, if_neg hn', if_pos h], ?_⟩
    rw [if_neg (by omega), if_neg (by omega)]
    omega

theorem twoPow_ne_zero {w i : ℕ} (h : i < w) : BitVec.twoPow w i ≠ 0 := by
  intro h0
  have := congrArg (fun x => x.getLsbD i) h0
  simp [h] at this

theorem twoPow_and_twoPow {w i j : ℕ} (h : i ≠ j) :
    BitVec.twoPow w i &&& BitVec.twoPow w j = 0 := by
  apply BitVec.eq_of_getLsbD_eq
  intro k _
  simp only [BitVec.getLsbD_and, BitVec.getLsbD_twoPow, BitVec.ofNat_eq_ofNat,
    BitVec.getLsbD_zero]
  by_cases hk : i = k
  · have : j ≠ k := fun hj => h (hk.trans hj.symm)
    simp [this]
  · simp [hk]

theorem modeMask_ne_zero {c : UInt8} (h : isModeChar c = true) : modeMask c ≠ 0 := by
  obtain ⟨i, hi, heq, -⟩ := exists_modeMask h
  rw [heq]
  exact twoPow_ne_zero (by omega)

theorem modeMask_and_modeMask {c d : UInt8} (hc : isModeChar c = true) (hd : isModeChar d = true)
    (hne : c ≠ d) : modeMask c &&& modeMask d = 0 := by
  obtain ⟨i, hi, hci, hcn⟩ := exists_modeMask hc
  obtain ⟨j, hj, hdj, hdn⟩ := exists_modeMask hd
  rw [hci, hdj]
  refine twoPow_and_twoPow fun hij => hne (UInt8.toNat_inj.mp ?_)
  rw [hcn, hdn, hij]

/-- As a number the last bit is negative. -/
theorem toInt_twoPow {i : ℕ} (h : i < 16) :
    (BitVec.twoPow 16 i).toInt = if i < 15 then 2 ^ i else -2 ^ i := by
  revert i
  decide

/-! ### The table of a run -/

/-- The bits that are given to modes. -/
def Bits : Prop := ∀ c, (s.modes c).umask = 0 ∨ ∃ i < 16, (s.modes c).umask = BitVec.twoPow 16 i

/-- What any request and any release keeps. -/
structure Sound : Prop where
  mode : ∀ c, (s.modes c).mode = if isModeChar c then c else 0
  mask : ∀ c, (s.modes c).mask = modeMask c
  avail : ∀ c, (s.modes c).avail = true ↔ isModeChar c = true ∧ c ∉ s.held
  held : ∀ c ∈ s.held, isModeChar c = true
  nodup : s.held.Nodup
  bits : s.Bits
  free : ∀ c ∉ s.held, (s.modes c).umask = 0
  changefunc : ∀ c ∉ s.held, (s.modes c).changefunc = none
  /-- A mode without a user flag has no prefix. -/
  pfx : ∀ c, (s.modes c).umask = 0 → (s.modes c).pfx = 0

/-- No two modes have a bit of the flags of members in common. -/
def Apart : Prop := ∀ c d, c ≠ d → (s.modes c).umask &&& (s.modes d).umask = 0

/-- The types fit the buffer in `chanmode_build_lists`. -/
def Fits : Prop :=
  (s.typeLetters CHANMODE_FL_A).length + (s.typeLetters CHANMODE_FL_B).length +
    (s.typeLetters CHANMODE_FL_C).length + (s.typeLetters CHANMODE_FL_D).length +
    (s.typeLetters CHANMODE_FL_E).length + 5 ≤ 256

variable {s}

theorem sound_start : (start : Slots F).Sound where
  mode _ := rfl
  mask _ := rfl
  avail c := by simp [start]
  held c hc := absurd hc List.not_mem_nil
  nodup := List.nodup_nil
  bits _ := .inl rfl
  free _ _ := rfl
  changefunc _ _ := rfl
  pfx _ _ := rfl

theorem Sound.distinct (h : s.Sound) (hap : s.Apart) : s.Distinct where
  letters := by
    have heq : s.held.map (fun c => (s.modes c).mode) = s.held.map id :=
      List.map_congr_left fun c hc => by rw [h.mode, if_pos (h.held c hc), id]
    rw [heq, List.map_id]
    exact h.nodup
  mask_ne c hc := by
    rw [h.mask]
    exact modeMask_ne_zero (h.held c hc)
  masks c hc d hd hne := by
    rw [h.mask, h.mask]
    exact modeMask_and_modeMask (h.held c hc) (h.held d hd) hne
  umasks c _ d _ hne := hap c d hne

theorem Sound.pick (h : s.Sound) {suggested c : UInt8} (hc : s.pick suggested = some c) :
    isModeChar c = true ∧ c ∉ s.held := by
  rw [← h.avail]
  unfold Slots.pick at hc
  split_ifs at hc with h₁ h₂
  · obtain rfl := Option.some.inj hc
    exact h₁
  · obtain rfl := Option.some.inj hc
    exact h₂
  · have hfound := List.find?_some hc
    rw [Bool.and_eq_true] at hfound
    exact hfound.1

/-- Where no letter is found there is none. -/
theorem Sound.pick_eq_none (h : s.Sound) {suggested : UInt8} (hc : s.pick suggested = none) :
    ∀ c, isModeChar c = true → c ∈ s.held := by
  intro c hchar
  by_contra hheld
  unfold Slots.pick at hc
  split_ifs at hc
  have hno := List.find?_eq_none.mp hc c (mem_allBytes c)
  have hav := (h.avail c).mpr ⟨hchar, hheld⟩
  have hmask := modeMask_ne_zero hchar
  rw [hav, Bool.true_and, decide_eq_true_iff] at hno
  exact hno hmask

theorem twoPow_injective {w i j : ℕ} (hi : i < w)
    (h : BitVec.twoPow w i = BitVec.twoPow w j) : i = j := by
  by_contra hne
  have hself : BitVec.twoPow w i &&& BitVec.twoPow w i = 0 := by
    nth_rewrite 2 [h]
    exact twoPow_and_twoPow hne
  rw [BitVec.and_self] at hself
  exact twoPow_ne_zero hi hself

/-- The comparison with the number of a bit never finds the last one. -/
theorem Bits.toInt_eq_iff (h : s.Bits) (c : UInt8) {k : ℕ} :
    (s.modes c).umask.toInt = 2 ^ k ↔ k < 15 ∧ (s.modes c).umask = BitVec.twoPow 16 k := by
  have hpos : (0 : ℤ) < 2 ^ k := Int.pow_pos (by decide)
  obtain h0 | ⟨i, hi, heq⟩ := h c
  · rw [h0]
    constructor
    · intro hk
      have h00 : (0 : BitVec 16).toInt = 0 := rfl
      omega
    · rintro ⟨hk, hz⟩
      exact absurd hz.symm (twoPow_ne_zero (by omega))
  · rw [heq, toInt_twoPow hi]
    split_ifs with h15
    · constructor
      · intro hk
        have hnat : (2 : ℕ) ^ i = 2 ^ k := by exact_mod_cast hk
        obtain rfl : i = k := Nat.pow_right_injective (le_refl 2) hnat
        exact ⟨h15, rfl⟩
      · rintro ⟨hk, htwo⟩
        rw [twoPow_injective hi htwo]
    · constructor
      · intro hk
        have hi' : (0 : ℤ) < 2 ^ i := Int.pow_pos (by decide)
        omega
      · rintro ⟨hk, htwo⟩
        exact absurd (twoPow_injective hi htwo) (by omega)

/-- A bit is found always, the last one when no other is free. -/
theorem Bits.freeBit_eq_some_iff (h : s.Bits) {i : ℕ} : s.freeBit = some i ↔
    i < 16 ∧ (i < 15 → ∀ c, (s.modes c).umask ≠ BitVec.twoPow 16 i) ∧
      ∀ k < i, ∃ c, (s.modes c).umask = BitVec.twoPow 16 k := by
  have hfree : ∀ k, (allBytes.all fun j => decide ((s.modes j).umask.toInt ≠ 2 ^ k)) = true ↔
      (k < 15 → ∀ c, (s.modes c).umask ≠ BitVec.twoPow 16 k) := by
    intro k
    rw [List.all_eq_true]
    constructor
    · intro hall hk c heq
      exact of_decide_eq_true (hall c (mem_allBytes c)) ((h.toInt_eq_iff c).mpr ⟨hk, heq⟩)
    · intro hall j _
      refine decide_eq_true fun heq => ?_
      obtain ⟨hk, heq⟩ := (h.toInt_eq_iff j).mp heq
      exact hall hk j heq
  have htaken : ∀ k, (!allBytes.all fun j => decide ((s.modes j).umask.toInt ≠ 2 ^ k)) = true ↔
      k < 15 ∧ ∃ c, (s.modes c).umask = BitVec.twoPow 16 k := by
    intro k
    rw [Bool.not_eq_true', ← Bool.not_eq_true, hfree k]
    push Not
    exact Iff.rfl
  rw [freeBit, List.find?_range_eq_some, List.mem_range, hfree]
  constructor
  · rintro ⟨hi, hlt, hall⟩
    exact ⟨hlt, hi, fun k hk => ((htaken k).mp (hall k hk)).2⟩
  · rintro ⟨hlt, hi, hall⟩
    exact ⟨hi, hlt, fun k hk => (htaken k).mpr ⟨by omega, hall k hk⟩⟩

theorem Bits.exists_freeBit (h : s.Bits) : ∃ i, s.freeBit = some i := by
  rw [← Option.ne_none_iff_exists']
  intro hnone
  rw [freeBit, List.find?_range_eq_none] at hnone
  have h15 := hnone 15 (by decide)
  rw [Bool.not_eq_true', ← Bool.not_eq_true, List.all_eq_true] at h15
  refine h15 fun j _ => decide_eq_true fun heq => ?_
  exact absurd ((h.toInt_eq_iff j).mp heq).1 (by decide)

/-- A bit that no mode has as its user flag. -/
theorem Bits.getLsbD (h : s.Bits) (c : UInt8) {i : ℕ} (hi : i < 16) :
    (s.modes c).umask.getLsbD i = true ↔ (s.modes c).umask = BitVec.twoPow 16 i := by
  obtain h0 | ⟨k, hk, heq⟩ := h c
  · rw [h0]
    constructor
    · intro hbit
      simp at hbit
    · intro heq
      exact absurd heq.symm (twoPow_ne_zero hi)
  · rw [heq, BitVec.getLsbD_twoPow, Bool.and_eq_true, decide_eq_true_iff, decide_eq_true_iff]
    constructor
    · rintro ⟨-, rfl⟩
      rfl
    · intro htwo
      exact ⟨hk, twoPow_injective hk htwo⟩

theorem Sound.held_of_umask (h : s.Sound) {c : UInt8} {i : ℕ} (hi : i < 16)
    (hc : (s.modes c).umask = BitVec.twoPow 16 i) : c ∈ s.held := by
  by_contra hheld
  exact twoPow_ne_zero hi (hc.symm.trans (h.free c hheld))

/-- The bit found is free, where one is. -/
theorem Sound.freeBit (h : s.Sound) (hfree : s.FreeBit) {i : ℕ} (hi : s.freeBit = some i) :
    ∀ c, (s.modes c).umask ≠ BitVec.twoPow 16 i := by
  obtain ⟨hlt, hnot, htaken⟩ := h.bits.freeBit_eq_some_iff.mp hi
  by_cases h15 : i < 15
  · exact hnot h15
  obtain rfl : i = 15 := by omega
  obtain ⟨k, hk, hno⟩ := hfree
  have hnone : ∀ c, (s.modes c).umask ≠ BitVec.twoPow 16 k := by
    intro c hc
    have hbit := (h.bits.getLsbD c hk).mpr hc
    rw [hno c (h.held_of_umask hk hc)] at hbit
    exact Bool.false_ne_true hbit
  obtain rfl : k = 15 := by
    by_contra hne
    obtain ⟨c, hc⟩ := htaken k (by omega)
    exact hnone c hc
  exact hnone

/-- Without a free bit some mode has the last one, which is found for another mode. -/
theorem Sound.not_freeBit (h : s.Sound) (hfree : ¬ s.FreeBit) :
    s.freeBit = some 15 ∧ ∃ c ∈ s.held, (s.modes c).umask = BitVec.twoPow 16 15 := by
  have htaken : ∀ k < 16, ∃ c ∈ s.held, (s.modes c).umask = BitVec.twoPow 16 k := by
    intro k hk
    by_contra hno
    push Not at hno
    refine hfree ⟨k, hk, fun c hc => ?_⟩
    rw [← Bool.not_eq_true, h.bits.getLsbD c hk]
    exact hno c hc
  refine ⟨h.bits.freeBit_eq_some_iff.mpr ⟨by decide, fun h15 => absurd h15 (by decide), ?_⟩,
    htaken 15 (by decide)⟩
  intro k hk
  obtain ⟨c, -, hc⟩ := htaken k (by omega)
  exact ⟨c, hc⟩

/-! ### What a request and a release do -/

theorem fits_of_chanmodeBuildLists {s' : Slots F} (h : s.chanmodeBuildLists = some s') :
    s'.modes = s.modes ∧ s'.held = s.held ∧ s'.Fits := by
  unfold chanmodeBuildLists at h
  dsimp only at h
  split at h
  · rename_i hfit
    obtain rfl := Option.some.inj h
    exact ⟨rfl, rfl, hfit.2.2⟩
  · exact absurd h (by simp)

theorem exists_chanmodeBuildLists (hpfx : s.pfxLetters.length ≤ 17) (hfits : s.Fits) :
    ∃ s', s.chanmodeBuildLists = some s' := by
  unfold chanmodeBuildLists
  dsimp only
  rw [if_pos ⟨by omega, by omega, hfits⟩]
  exact ⟨_, rfl⟩

theorem freeBit_set {c : UInt8} {md : Slot F} (h : md.umask = (s.modes c).umask) :
    (s.set c md).freeBit = s.freeBit := by
  have humask : ∀ j, ((s.set c md).modes j).umask = (s.modes j).umask := by
    intro j
    by_cases hj : j = c
    · subst hj
      rw [set_modes, Function.update_self, h]
    · rw [set_modes, Function.update_of_ne hj]
  simp only [freeBit, humask]

theorem ofNat_two_pow {i : ℕ} (h : i < 16) : BitVec.ofNat 16 (2 ^ i) = BitVec.twoPow 16 i := by
  revert i
  decide

variable (s) in
/-- The record of a mode that is granted. -/
structure Granted (c : UInt8) (flags : BitVec 32) (changefn : Option F) (md : Slot F) : Prop where
  mode : md.mode = (s.modes c).mode
  mask : md.mask = (s.modes c).mask
  avail : md.avail = false
  changefunc : md.changefunc = changefn
  flags_eq : md.flags = flags
  umask : flags ≠ CHANMODE_FL_PREFIX ∧ md.umask = 0 ∧ md.pfx = 0 ∨
    flags = CHANMODE_FL_PREFIX ∧ ∃ i, s.freeBit = some i ∧ md.umask = BitVec.twoPow 16 i

theorem grant_eq_some {c : UInt8} {extra : ℕ} {s' : Slots F} (h : s.grant c extra = some s') :
    s'.modes = Function.update s.modes c
      { s.modes c with mdi := if 0 < extra then some extra else none } ∧
      s'.held = c :: s.held ∧ s'.Fits :=
  fits_of_chanmodeBuildLists h

/-- A request finds no letter, or it is granted. -/
theorem request_cases (hs : s.Sound) {suggested : UInt8} {flags : BitVec 32}
    {changefn queryfn : Option F} {extra : ℕ} {extdata : UInt8}
    {granted : Option (UInt8 × BitVec 64)} {s' : Slots F}
    (h : s.chanmodeRequest suggested flags changefn queryfn extra extdata = some (granted, s')) :
    s.pick suggested = none ∧ granted = none ∧ s' = s ∨
      ∃ c md, s.pick suggested = some c ∧ s.Granted c flags changefn md ∧
        granted = some (md.mode, md.mask) ∧ s'.modes = Function.update s.modes c md ∧
        s'.held = c :: s.held ∧ s'.Fits := by
  unfold chanmodeRequest at h
  cases hpick : s.pick suggested with
  | none =>
    rw [hpick] at h
    obtain ⟨rfl, rfl⟩ := Prod.mk.inj (Option.some.inj h)
    exact .inl ⟨rfl, rfl, rfl⟩
  | some c =>
    have hfree : (s.modes c).umask = 0 := hs.free c (hs.pick hpick).2
    rw [hpick] at h
    dsimp only at h
    refine .inr ⟨c, ?_⟩
    split_ifs at h with hflags
    · rw [freeBit_set (by exact hfree.symm)] at h
      obtain ⟨i, hi⟩ := hs.bits.exists_freeBit
      have hlt := (hs.bits.freeBit_eq_some_iff.mp hi).1
      rw [hi] at h
      obtain ⟨t, ht, heq⟩ := Option.map_eq_some_iff.mp h
      obtain ⟨rfl, rfl⟩ := Prod.mk.inj heq
      obtain ⟨hmodes, hrest⟩ := grant_eq_some ht
      simp only [set_modes, Function.update_self, Function.update_idem] at hmodes
      refine ⟨_, rfl, ?_, ?_, hmodes, hrest⟩
      · exact ⟨rfl, rfl, rfl, rfl, rfl, .inr ⟨hflags, i, hi, ofNat_two_pow hlt⟩⟩
      · rfl
    · obtain ⟨t, ht, heq⟩ := Option.map_eq_some_iff.mp h
      obtain ⟨rfl, rfl⟩ := Prod.mk.inj heq
      obtain ⟨hmodes, hrest⟩ := grant_eq_some ht
      simp only [set_modes, Function.update_self, Function.update_idem] at hmodes
      refine ⟨_, rfl, ?_, ?_, hmodes, hrest⟩
      · exact ⟨rfl, rfl, rfl, rfl, rfl, .inl ⟨hflags, rfl, rfl⟩⟩
      · rfl

/-- A release takes the mode from those that are held. -/
theorem release_eq_some {mode : UInt8} {s' : Slots F} (h : s.chanmodeRelease mode = some s') :
    (s.modes mode).changefunc.isSome ∧ s'.held = s.held.erase mode ∧ s'.Fits ∧
      s'.modes = Function.update s.modes mode { s.modes mode with
        avail := true
        umask := 0
        pfx := 0
        changefunc := none
        queryfunc := none
        flags := 0
        mdi := none } := by
  unfold chanmodeRelease at h
  dsimp only at h
  split at h
  · exact absurd h (by simp)
  · rename_i hchange
    obtain ⟨hmodes, hheld, hfits⟩ := fits_of_chanmodeBuildLists h
    refine ⟨?_, hheld, hfits, hmodes⟩
    simpa [Option.isSome_iff_ne_none] using hchange

/-- The record of one mode is replaced. -/
theorem update_cases {p : Slot F → Prop} {c : UInt8} {md : Slot F} {modes : UInt8 → Slot F}
    (heq : modes = Function.update s.modes c md) (j : UInt8) (hc : j = c → p md)
    (hne : j ≠ c → p (s.modes j)) : p (modes j) := by
  rw [heq]
  by_cases hj : j = c
  · subst hj
    rw [Function.update_self]
    exact hc rfl
  · rw [Function.update_of_ne hj]
    exact hne hj

theorem Sound.granted (hs : s.Sound) {c : UInt8} {flags : BitVec 32} {changefn : Option F}
    {md : Slot F} {s' : Slots F} (hc : isModeChar c = true ∧ c ∉ s.held)
    (hmd : s.Granted c flags changefn md) (hmodes : s'.modes = Function.update s.modes c md)
    (hheld : s'.held = c :: s.held) : s'.Sound where
  mode j := by
    refine update_cases (p := fun md => md.mode = if isModeChar j then j else 0) hmodes j ?_ ?_
    · rintro rfl
      rw [hmd.mode, hs.mode]
    · exact fun _ => hs.mode j
  mask j := by
    refine update_cases (p := fun md => md.mask = modeMask j) hmodes j ?_ ?_
    · rintro rfl
      rw [hmd.mask, hs.mask]
    · exact fun _ => hs.mask j
  avail j := by
    rw [hheld]
    refine update_cases (p := fun md => md.avail = true ↔ isModeChar j = true ∧ j ∉ c :: s.held)
      hmodes j ?_ ?_
    · rintro rfl
      simp [hmd.avail]
    · intro hj
      rw [hs.avail, List.mem_cons, not_or]
      exact and_congr_right fun _ => (and_iff_right hj).symm
  held j hj := by
    rw [hheld] at hj
    obtain rfl | hj := List.mem_cons.mp hj
    · exact hc.1
    · exact hs.held j hj
  nodup := by
    rw [hheld]
    exact List.nodup_cons.mpr ⟨hc.2, hs.nodup⟩
  bits j := by
    refine update_cases (p := fun md => md.umask = 0 ∨ ∃ i < 16, md.umask = BitVec.twoPow 16 i)
      hmodes j ?_ ?_
    · intro _
      obtain ⟨-, h0, -⟩ | ⟨-, i, hi, hbit⟩ := hmd.umask
      · exact .inl h0
      · exact .inr ⟨i, (hs.bits.freeBit_eq_some_iff.mp hi).1, hbit⟩
    · exact fun _ => hs.bits j
  free j hj := by
    rw [hheld, List.mem_cons, not_or] at hj
    refine update_cases (p := fun md => md.umask = 0) hmodes j ?_ ?_
    · exact fun heq => absurd heq hj.1
    · exact fun _ => hs.free j hj.2
  changefunc j hj := by
    rw [hheld, List.mem_cons, not_or] at hj
    refine update_cases (p := fun md => md.changefunc = none) hmodes j ?_ ?_
    · exact fun heq => absurd heq hj.1
    · exact fun _ => hs.changefunc j hj.2
  pfx j := by
    refine update_cases (p := fun md => md.umask = 0 → md.pfx = 0) hmodes j ?_ ?_
    · intro _ h0
      obtain ⟨-, -, hpfx⟩ | ⟨-, i, hi, hbit⟩ := hmd.umask
      · exact hpfx
      · have hlt := (hs.bits.freeBit_eq_some_iff.mp hi).1
        exact absurd (hbit.symm.trans h0) (twoPow_ne_zero hlt)
    · exact fun _ => hs.pfx j

/-- Only a mode that is held can be released. -/
theorem Sound.mem_held (hs : s.Sound) {mode : UInt8} {s' : Slots F}
    (h : s.chanmodeRelease mode = some s') : mode ∈ s.held := by
  by_contra hheld
  have hsome := (release_eq_some h).1
  rw [hs.changefunc mode hheld] at hsome
  exact Bool.false_ne_true hsome

theorem Sound.release (hs : s.Sound) {mode : UInt8} {s' : Slots F}
    (h : s.chanmodeRelease mode = some s') : s'.Sound := by
  have hheld := hs.mem_held h
  obtain ⟨-, heq, -, hmodes⟩ := release_eq_some h
  have hmem : ∀ j, j ∈ s'.held ↔ j ≠ mode ∧ j ∈ s.held := by
    intro j
    rw [heq, hs.nodup.mem_erase_iff]
  exact {
    mode := fun j => by
      refine update_cases (p := fun md => md.mode = if isModeChar j then j else 0) hmodes j ?_ ?_
      · rintro rfl
        exact hs.mode j
      · exact fun _ => hs.mode j
    mask := fun j => by
      refine update_cases (p := fun md => md.mask = modeMask j) hmodes j ?_ ?_
      · rintro rfl
        exact hs.mask j
      · exact fun _ => hs.mask j
    avail := fun j => by
      rw [hmem]
      refine update_cases (p := fun md => md.avail = true ↔
        isModeChar j = true ∧ ¬ (j ≠ mode ∧ j ∈ s.held)) hmodes j ?_ ?_
      · rintro rfl
        simp [hs.held j hheld]
      · intro hj
        rw [hs.avail, and_iff_right hj]
    held := fun j hj => hs.held j ((hmem j).mp hj).2
    nodup := by
      rw [heq]
      exact hs.nodup.erase mode
    bits := fun j => by
      refine update_cases (p := fun md => md.umask = 0 ∨ ∃ i < 16,
        md.umask = BitVec.twoPow 16 i) hmodes j ?_ ?_
      · exact fun _ => .inl rfl
      · exact fun _ => hs.bits j
    free := fun j hj => by
      refine update_cases (p := fun md => md.umask = 0) hmodes j ?_ ?_
      · exact fun _ => rfl
      · exact fun hne => hs.free j fun hj' => hj ((hmem j).mpr ⟨hne, hj'⟩)
    changefunc := fun j hj => by
      refine update_cases (p := fun md => md.changefunc = none) hmodes j ?_ ?_
      · exact fun _ => rfl
      · exact fun hne => hs.changefunc j fun hj' => hj ((hmem j).mpr ⟨hne, hj'⟩)
    pfx := fun j => by
      refine update_cases (p := fun md => md.umask = 0 → md.pfx = 0) hmodes j ?_ ?_
      · exact fun _ _ => rfl
      · exact fun _ => hs.pfx j }

theorem Sound.step (hs : s.Sound) {a : SlotAction F} {s' : Slots F}
    (h : Slots.step s a = some s') : s'.Sound := by
  cases a with
  | request suggested flags changefn queryfn extra extdata =>
    obtain ⟨⟨granted, t⟩, hreq, rfl⟩ := Option.map_eq_some_iff.mp h
    obtain ⟨-, -, heq⟩ | ⟨c, md, hpick, hmd, -, hmodes, hheld, -⟩ := request_cases hs hreq
    · exact heq ▸ hs
    · exact hs.granted (hs.pick hpick) hmd hmodes hheld
  | release mode => exact hs.release h

/-- The bits stay apart when the bit found is one that no mode has. -/
theorem Apart.granted (hap : s.Apart) (hs : s.Sound) {c : UInt8} {flags : BitVec 32}
    {changefn : Option F} {md : Slot F} {s' : Slots F} (hmd : s.Granted c flags changefn md)
    (hmodes : s'.modes = Function.update s.modes c md)
    (hfree : flags = CHANMODE_FL_PREFIX → s.FreeBit) : s'.Apart := by
  have hnew : ∀ d, md.umask &&& (s.modes d).umask = 0 := by
    intro d
    obtain ⟨-, h0, -⟩ | ⟨hflags, i, hi, hbit⟩ := hmd.umask
    · rw [h0]
      exact BitVec.zero_and
    · have hno := hs.freeBit (hfree hflags) hi d
      rw [hbit]
      obtain hd | ⟨k, -, hd⟩ := hs.bits d
      · rw [hd]
        exact BitVec.and_zero
      · rw [hd]
        exact twoPow_and_twoPow fun hik => hno (hik ▸ hd)
  intro j k hne
  rw [hmodes]
  by_cases hj : j = c
  · subst hj
    rw [Function.update_self, Function.update_of_ne hne.symm]
    exact hnew k
  · rw [Function.update_of_ne hj]
    by_cases hk : k = c
    · subst hk
      rw [Function.update_self, BitVec.and_comm]
      exact hnew j
    · rw [Function.update_of_ne hk]
      exact hap j k hne

theorem Apart.release (hap : s.Apart) {mode : UInt8} {s' : Slots F}
    (h : s.chanmodeRelease mode = some s') : s'.Apart := by
  obtain ⟨-, -, -, hmodes⟩ := release_eq_some h
  intro j k hne
  rw [hmodes]
  by_cases hj : j = mode
  · subst hj
    rw [Function.update_self]
    exact BitVec.zero_and
  · rw [Function.update_of_ne hj]
    by_cases hk : k = mode
    · subst hk
      rw [Function.update_self]
      exact BitVec.and_zero
    · rw [Function.update_of_ne hk]
      exact hap j k hne

/-! ### The lists fit -/

theorem nodup_allBytes : allBytes.Nodup := by
  refine List.Nodup.map_on ?_ List.nodup_range
  intro n hn m hm heq
  have hmod := congrArg UInt8.toNat heq
  rw [List.mem_range] at hn hm
  rwa [UInt8.toNat_ofNat_of_lt' hn, UInt8.toNat_ofNat_of_lt' hm] at hmod

/-- A record that is changed outside of a list leaves the list alone. -/
theorem letters_update {t : Slots F} {p : Slot F → Bool} {c : UInt8} {md : Slot F}
    (hmodes : t.modes = Function.update s.modes c md) (hnew : p md = false)
    (hold : p (s.modes c) = false) : t.letters p = s.letters p := by
  have hfilter : (allBytes.filter fun j => p (t.modes j)) =
      allBytes.filter fun j => p (s.modes j) := by
    refine List.filter_congr fun j _ => ?_
    refine update_cases (p := fun md => p md = p (s.modes j)) hmodes j ?_ ?_
    · rintro rfl
      rw [hnew, hold]
    · exact fun _ => rfl
  unfold letters
  rw [hfilter]
  refine List.map_congr_left fun j hj => ?_
  refine update_cases (p := fun md => md.mode = (s.modes j).mode) hmodes j ?_ ?_
  · rintro rfl
    have hp := (List.mem_filter.mp hj).2
    rw [hold] at hp
    exact absurd hp Bool.false_ne_true
  · exact fun _ => rfl

/-- A record that is changed makes a list longer by one at most. -/
theorem length_letters_update_le {t : Slots F} {p : Slot F → Bool} {c : UInt8} {md : Slot F}
    (hmodes : t.modes = Function.update s.modes c md) :
    (t.letters p).length ≤ (s.letters p).length + 1 := by
  have hsub : (allBytes.filter fun j => p (t.modes j)) ⊆
      c :: allBytes.filter fun j => p (s.modes j) := by
    intro j hj
    rw [List.mem_cons, List.mem_filter]
    by_cases hjc : j = c
    · exact .inl hjc
    · refine .inr ⟨mem_allBytes j, ?_⟩
      have hp := (List.mem_filter.mp hj).2
      rwa [hmodes, Function.update_of_ne hjc] at hp
  have hle := (List.subperm_of_subset (nodup_allBytes.filter _) hsub).length_le
  simpa [letters] using hle

/-- There are no more modes with user flags than bits. -/
theorem length_le_of_umask_ne (hs : s.Sound) (hap : s.Apart) {l : List UInt8} (hl : l.Nodup)
    (hne : ∀ c ∈ l, (s.modes c).umask ≠ 0) : l.length ≤ 16 := by
  have hnodup : (l.map fun c => (s.modes c).umask).Nodup := by
    refine List.Nodup.map_on ?_ hl
    intro c hc d _ heq
    by_contra hcd
    have hand := hap c d hcd
    rw [← heq, BitVec.and_self] at hand
    exact hne c hc hand
  have hsub : (l.map fun c => (s.modes c).umask) ⊆ (List.range 16).map (BitVec.twoPow 16) := by
    intro u hu
    obtain ⟨c, hc, rfl⟩ := List.mem_map.mp hu
    obtain h0 | ⟨i, hi, heq⟩ := hs.bits c
    · exact absurd h0 (hne c hc)
    · exact List.mem_map.mpr ⟨i, List.mem_range.mpr hi, heq.symm⟩
  have hle := (List.subperm_of_subset hnodup hsub).length_le
  rwa [List.length_map, List.length_map, List.length_range] at hle

theorem length_pfxLetters_le (hs : s.Sound) (hap : s.Apart) : s.pfxLetters.length ≤ 16 := by
  rw [pfxLetters, letters, List.length_map]
  refine length_le_of_umask_ne hs hap (nodup_allBytes.filter _) fun c hc h0 => ?_
  have hp := (List.mem_filter.mp hc).2
  rw [Bool.and_eq_true, decide_eq_true_iff] at hp
  exact hp.2 (hs.pfx c h0)

theorem exists_map_eq_some {α β : Type*} {o : Option α} {f : α → β} (h : ∃ x, o = some x) :
    ∃ y, o.map f = some y := by
  obtain ⟨x, rfl⟩ := h
  exact ⟨f x, rfl⟩

/-- The types of the modes with prefixes are none of those that are listed. -/
theorem Fits.of_typeLetters {t : Slots F} (h : s.Fits)
    (heq : ∀ flg, CHANMODE_FL_PREFIX &&& flg = 0 → t.typeLetters flg = s.typeLetters flg) :
    t.Fits := by
  unfold Fits at h ⊢
  rwa [heq CHANMODE_FL_A rfl, heq CHANMODE_FL_B rfl, heq CHANMODE_FL_C rfl,
    heq CHANMODE_FL_D rfl, heq CHANMODE_FL_E rfl]

/-- A prefix mode with a letter is granted. -/
theorem exists_request (hs : s.Sound) (hap : s.Apart) (hfits : s.Fits) {suggested c : UInt8}
    (hpick : s.pick suggested = some c) (changefn queryfn : Option F) (extra : ℕ)
    (extdata : UInt8) :
    ∃ r, s.chanmodeRequest suggested CHANMODE_FL_PREFIX changefn queryfn extra extdata =
      some r := by
  have hfree : (s.modes c).umask = 0 := hs.free c (hs.pick hpick).2
  have havail : (s.modes c).avail = true := (hs.avail c).mpr (hs.pick hpick)
  have hgrant : ∀ t : Slots F, (∃ md, t.modes = Function.update s.modes c md ∧
      md.avail = false ∧ md.flags = CHANMODE_FL_PREFIX) → ∃ s', t.grant c extra = some s' := by
    rintro t ⟨md, hmodes, hav, hflags⟩
    have hmodes' : (t.set c { t.modes c with
        mdi := if 0 < extra then some extra else none }).modes =
        Function.update s.modes c { md with mdi := if 0 < extra then some extra else none } := by
      rw [set_modes, hmodes, Function.update_self, Function.update_idem]
    refine exists_chanmodeBuildLists ?_ ?_
    · have hle := length_letters_update_le hmodes'
        (p := fun md => !md.avail && decide (md.pfx ≠ 0))
      have hpfx := length_pfxLetters_le hs hap
      exact hle.trans (Nat.succ_le_succ hpfx)
    · refine hfits.of_typeLetters fun flg hflg => letters_update hmodes' ?_ ?_
      · simp [hflags, hflg]
      · simp [havail]
  obtain ⟨i, hi⟩ := hs.bits.exists_freeBit
  unfold chanmodeRequest
  rw [hpick]
  dsimp only
  rw [if_pos rfl, freeBit_set (by exact hfree.symm), hi]
  dsimp only
  refine exists_map_eq_some (hgrant _ ⟨_, Function.update_idem _ _ _, ?_, ?_⟩)
  · rfl
  · rfl

/-! ### Along a run -/

variable (s) in
/-- What the steps with room keep. -/
structure Regulated : Prop where
  sound : s.Sound
  apart : s.Apart
  fits : s.Fits

theorem regulated_start : (start : Slots F).Regulated where
  sound := sound_start
  apart _ _ _ := BitVec.zero_and
  fits := by
    have hnone : ∀ p : Slot F → Bool, (∀ md : Slot F, md.flags = 0 → p md = false) →
        (start : Slots F).letters p = [] := by
      intro p hp
      rw [letters, List.map_eq_nil_iff, List.filter_eq_nil_iff]
      intro c _
      rw [hp _ rfl]
      exact Bool.false_ne_true
    have htype : ∀ flg, (start : Slots F).typeLetters flg = [] := by
      intro flg
      refine hnone _ fun md hflags => ?_
      simp [hflags]
    simp [Fits, htype]

/-- A request for which all letters are taken is refused. -/
theorem Sound.pick_eq_none_iff (h : s.Sound) (suggested : UInt8) :
    s.pick suggested = none ↔ ∀ c, isModeChar c = true → c ∈ s.held := by
  constructor
  · exact h.pick_eq_none
  · intro hall
    cases hpick : s.pick suggested with
    | none => rfl
    | some c => exact absurd (hall c (h.pick hpick).1) (h.pick hpick).2

theorem Regulated.step (hs : s.Regulated) {a : SlotAction F} {s' : Slots F} (hroom : s.Room a)
    (h : Slots.step s a = some s') : s'.Regulated := by
  refine ⟨hs.sound.step h, ?_, ?_⟩
  · cases a with
    | request suggested flags changefn queryfn extra extdata =>
      obtain ⟨⟨granted, t⟩, hreq, rfl⟩ := Option.map_eq_some_iff.mp h
      obtain ⟨-, -, heq⟩ | ⟨c, md, hpick, hmd, -, hmodes, -, -⟩ := request_cases hs.sound hreq
      · exact heq ▸ hs.apart
      · refine hs.apart.granted hs.sound hmd hmodes fun hflags => hroom hflags ?_
        exact ⟨c, mem_allBytes c, hs.sound.pick hpick⟩
    | release mode => exact hs.apart.release h
  · cases a with
    | request suggested flags changefn queryfn extra extdata =>
      obtain ⟨⟨granted, t⟩, hreq, rfl⟩ := Option.map_eq_some_iff.mp h
      obtain ⟨-, -, heq⟩ | ⟨c, md, -, -, -, -, -, hfits⟩ := request_cases hs.sound hreq
      · exact heq ▸ hs.fits
      · exact hfits
    | release mode => exact (release_eq_some h).2.2.1

/-- With room a step is regular. -/
theorem Regulated.regular (hs : s.Regulated) {a : SlotAction F} (hroom : s.Room a) :
    s.Regular a := by
  have hdistinct : ∀ s', Slots.step s a = some s' → s'.Distinct := fun s' h =>
    have hs' := hs.step hroom h
    hs'.sound.distinct hs'.apart
  cases a with
  | request suggested flags changefn queryfn extra extdata =>
    intro granted s' hreq
    refine ⟨hdistinct s' (by rw [Slots.step, hreq]; rfl), fun hex => ?_⟩
    have hnone : s.pick suggested = none := by
      rw [hs.sound.pick_eq_none_iff]
      obtain hall | ⟨hflags, hno⟩ := hex
      · exact hall
      · intro c hc
        by_contra hheld
        exact hno (hroom hflags ⟨c, mem_allBytes c, hc, hheld⟩)
    obtain ⟨-, hgranted, heq⟩ | ⟨c, md, hpick, -⟩ := request_cases hs.sound hreq
    · exact ⟨hgranted, heq⟩
    · rw [hnone] at hpick
      exact absurd hpick (by simp)
  | release mode => exact fun s' h => hdistinct s' h

/-- Without room the last bit is given out twice. -/
theorem Regulated.not_regular (hs : s.Regulated) {a : SlotAction F} (hroom : ¬ s.Room a) :
    ¬ s.Regular a := by
  cases a with
  | release mode => exact absurd trivial hroom
  | request suggested flags changefn queryfn extra extdata =>
    intro hreg
    unfold Room at hroom
    push Not at hroom
    obtain ⟨rfl, ⟨c₀, -, hchar, hheld⟩, hfree⟩ := hroom
    obtain ⟨c, hpick⟩ : ∃ c, s.pick suggested = some c := by
      rw [← Option.ne_none_iff_exists']
      exact fun hnone => hheld ((hs.sound.pick_eq_none_iff suggested).mp hnone c₀ hchar)
    obtain ⟨⟨granted, s'⟩, hreq⟩ :=
      exists_request hs.sound hs.apart hs.fits hpick changefn queryfn extra extdata
    have hrefused := ((hreg granted s' hreq).2 (.inr ⟨rfl, hfree⟩)).1
    obtain ⟨hnone, -⟩ | ⟨c', md, -, -, hgranted, -⟩ := request_cases hs.sound hreq
    · rw [hpick] at hnone
      exact absurd hnone (by simp)
    · rw [hrefused] at hgranted
      exact absurd hgranted (by simp)

theorem Regulated.room_iff (hs : s.Regulated) (a : SlotAction F) :
    s.Room a ↔ s.Regular a := by
  refine ⟨hs.regular, fun hreg => ?_⟩
  by_contra hroom
  exact hs.not_regular hroom hreg

/-- Over a whole run the modes are distinct, and requests for which there is nothing left are
refused, exactly when no prefix mode is requested while all bits are taken. -/
theorem distinct_of_run_iff (as : List (SlotAction F)) :
    Run.Along step Regular (start : Slots F) as ↔ Run.Along step Room (start : Slots F) as :=
  (Run.along_iff (fun _ _ _ hs hroom h => hs.step hroom h) (fun _ a hs => hs.room_iff a)
    regulated_start).symm

theorem exists_letter (h : s.held.length ≤ 16) :
    ∃ c ∈ allBytes, isModeChar c = true ∧ c ∉ s.held := by
  by_contra hno
  push Not at hno
  have hsub : allBytes.filter isModeChar ⊆ s.held := fun c hc =>
    hno c (mem_allBytes c) (List.mem_filter.mp hc).2
  have hle := (List.subperm_of_subset (nodup_allBytes.filter _) hsub).length_le
  have h62 : (allBytes.filter isModeChar).length = 62 := by decide +kernel
  omega

/-- There is room for sixteen prefix modes. -/
theorem Regulated.length_le_of_room (hs : s.Regulated) (hne : ∀ c ∈ s.held, (s.modes c).umask ≠ 0)
    {suggested extdata : UInt8} {changefn queryfn : Option F} {extra n : ℕ}
    (h : Run.Along Slots.step Room s (List.replicate n
      (.request suggested CHANMODE_FL_PREFIX changefn queryfn extra extdata))) :
    s.held.length + n ≤ 16 := by
  have hle := length_le_of_umask_ne hs.sound hs.apart hs.sound.nodup hne
  induction n generalizing s with
  | zero => exact hle
  | succ n ih =>
    obtain ⟨c₀, hc₀, hchar, hheld₀⟩ := exists_letter hle
    obtain ⟨c, hpick⟩ : ∃ c, s.pick suggested = some c := by
      rw [← Option.ne_none_iff_exists']
      exact fun hnone => hheld₀ ((hs.sound.pick_eq_none_iff suggested).mp hnone c₀ hchar)
    obtain ⟨⟨granted, s'⟩, hreq⟩ :=
      exists_request hs.sound hs.apart hs.fits hpick changefn queryfn extra extdata
    have hstep : Slots.step s (.request suggested CHANMODE_FL_PREFIX changefn queryfn extra
        extdata) = some s' := by
      rw [Slots.step, hreq]
      rfl
    have hs' := hs.step h.1 hstep
    obtain ⟨hnone, -⟩ | ⟨c', md, -, hmd, -, hmodes, hheld, -⟩ := request_cases hs.sound hreq
    · rw [hpick] at hnone
      exact absurd hnone (by simp)
    have hne' : ∀ d ∈ s'.held, (s'.modes d).umask ≠ 0 := by
      intro d hd
      rw [hheld] at hd
      refine update_cases (p := fun md => md.umask ≠ 0) hmodes d ?_ ?_
      · intro _
        obtain ⟨hflags, -⟩ | ⟨-, i, hi, hbit⟩ := hmd.umask
        · exact absurd rfl hflags
        · rw [hbit]
          exact twoPow_ne_zero (hs.sound.bits.freeBit_eq_some_iff.mp hi).1
      · exact fun hdc => hne d ((List.mem_cons.mp hd).resolve_left hdc)
    have hrest := ih hs' hne' (h.2 s' hstep)
      (length_le_of_umask_ne hs'.sound hs'.apart hs'.sound.nodup hne')
    rw [hheld, List.length_cons] at hrest
    omega

/-- Seventeen modes with prefixes: the last two have the same bit. -/
theorem distinct_fails : ¬ Run.Along step Regular (start : Slots Unit)
    (List.replicate 17 (.request 111 CHANMODE_FL_PREFIX (some ()) (some ()) 0 atSign)) := by
  intro h
  rw [← Run.along_iff (fun _ _ _ hs hroom h => hs.step hroom h) (fun _ a hs => hs.room_iff a)
    regulated_start] at h
  have hle := regulated_start.length_le_of_room (fun c hc => absurd hc List.not_mem_nil) h
  exact absurd hle (by decide)

end Slots

end Ithildin
