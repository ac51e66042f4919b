import Ithildin.Channel.Modes
import Ithildin.Lib.Replica
import Mathlib.Data.List.Lex

/-!
# Keys of channels

* `Key`: a key as it is stored, in the order of `strcmp`;
* `strcmpLe_iff`: the comparison of `chanmode_key` is this order;
* `Chan.keyOf`: the key of a channel, `⊤` if there is none;
* `keyOf_chanmodeKey_none`: a change from a server is a message to a replica that keeps the lowest
  value.
-/

namespace Ithildin

open Replica

/-- The text of a key. -/
structure Key where
  text : Bytes
  deriving DecidableEq

/-- The bytes that `strcmp` compares, with the NUL behind them. -/
def Key.rank (k : Key) : List ℤ := k.text.map (fun c => c.toInt8.toInt) ++ [0]

theorem toInt_toInt8_inj {c d : UInt8} : c.toInt8.toInt = d.toInt8.toInt ↔ c = d := by
  constructor
  · intro h
    have hback := congrArg Int8.toUInt8 (Int8.toInt_inj.mp h)
    simpa using hback
  · rintro rfl
    rfl

theorem toInt_toInt8_zero : (0 : UInt8).toInt8.toInt = 0 := rfl

theorem Key.rank_injective : Function.Injective Key.rank := by
  rintro ⟨s⟩ ⟨t⟩ h
  have hmap : s.map (fun c => c.toInt8.toInt) = t.map (fun c => c.toInt8.toInt) :=
    List.append_cancel_right h
  have hbyte : Function.Injective fun c : UInt8 => c.toInt8.toInt :=
    fun _ _ hcd => toInt_toInt8_inj.mp hcd
  rw [hbyte.list_map hmap]

instance : LinearOrder Key := LinearOrder.lift' Key.rank Key.rank_injective

theorem rank_lt_iff {x y : ℤ} {l m : List ℤ} : (x :: l) < (y :: m) ↔ x < y ∨ x = y ∧ l < m :=
  List.cons_lt_cons_iff

/-- The first byte that is another one decides. -/
theorem Key.cons_le_cons {c d : UInt8} {s t : Bytes} :
    Key.mk (c :: s) ≤ Key.mk (d :: t) ↔
      c.toInt8 < d.toInt8 ∨ c = d ∧ Key.mk s ≤ Key.mk t := by
  have hlt : ∀ k l : Key, k < l ↔ k.rank < l.rank := fun _ _ => Iff.rfl
  have hrank : ∀ e r, (Key.mk (e :: r)).rank = e.toInt8.toInt :: (Key.mk r).rank :=
    fun _ _ => rfl
  rw [← not_lt, ← not_lt, hlt, hlt, hrank, hrank, rank_lt_iff, Int8.lt_iff_toInt_lt,
    toInt_toInt8_inj]
  have hcd := @toInt_toInt8_inj c d
  constructor
  · intro h
    rw [not_or, not_lt] at h
    rcases h.1.lt_or_eq with hlt | heq
    · exact .inl hlt
    · exact .inr ⟨hcd.mp heq, fun hr => h.2 ⟨(hcd.mp heq).symm, hr⟩⟩
  · rintro (hlt | ⟨rfl, hr⟩)
    · rw [not_or]
      exact ⟨hlt.asymm, fun h => hlt.ne (hcd.mpr h.1.symm)⟩
    · rw [not_or]
      exact ⟨lt_irrefl _, fun h => hr h.2⟩

theorem Key.nil_le_cons {d : UInt8} (hd : d ≠ 0) (t : Bytes) :
    Key.mk [] ≤ Key.mk (d :: t) ↔ 0 < d.toInt8 := by
  have hne : d.toInt8.toInt ≠ 0 := fun h =>
    hd (toInt_toInt8_inj.mp (h.trans toInt_toInt8_zero.symm))
  rw [← not_lt, Int8.lt_iff_toInt_lt]
  show ¬ (d.toInt8.toInt :: (Key.mk t).rank) < [0] ↔ 0 < d.toInt8.toInt
  rw [rank_lt_iff]
  simp only [List.not_lt_nil, and_false, or_false, not_lt]
  omega

theorem Key.cons_le_nil {c : UInt8} (hc : c ≠ 0) (s : Bytes) :
    Key.mk (c :: s) ≤ Key.mk [] ↔ c.toInt8 < 0 := by
  have hne : c.toInt8.toInt ≠ 0 := fun h =>
    hc (toInt_toInt8_inj.mp (h.trans toInt_toInt8_zero.symm))
  rw [← not_lt, Int8.lt_iff_toInt_lt]
  show ¬ [0] < (c.toInt8.toInt :: (Key.mk s).rank) ↔ c.toInt8.toInt < 0
  rw [rank_lt_iff]
  have hnil : ([] : List ℤ) < (Key.mk s).rank := by
    rw [Key.rank]
    cases s.map fun c => c.toInt8.toInt <;> exact List.nil_lt_cons _ _
  simp only [hnil, and_true]
  omega

/-- `strcmp` puts the first text before the second one, or finds no difference. -/
theorem strcmpLe_iff {s t : Bytes} (hs : IsText s) (ht : IsText t) :
    strcmpLe s t = true ↔ Key.mk s ≤ Key.mk t := by
  induction s generalizing t with
  | nil =>
    cases t with
    | nil => simp [strcmpLe]
    | cons d t =>
      rw [strcmpLe, Key.nil_le_cons (isText_cons.mp ht).1]
      simp
  | cons c s ih =>
    cases t with
    | nil =>
      rw [strcmpLe, Key.cons_le_nil (isText_cons.mp hs).1]
      simp
    | cons d t =>
      rw [strcmpLe, Key.cons_le_cons]
      by_cases hcd : c = d
      · subst hcd
        simp [ih (isText_cons.mp hs).2 (isText_cons.mp ht).2]
      · simp [hcd]

/-- What is cut off a text makes no difference next to one that is not longer than the rest. -/
theorem strcmpLe_take {n : ℕ} {s t : Bytes} (h : t.length ≤ n) :
    strcmpLe (s.take n) t = strcmpLe s t ∨ s.take n = t := by
  induction n generalizing s t with
  | zero =>
    obtain rfl := List.length_eq_zero_iff.mp (Nat.le_zero.mp h)
    exact .inr rfl
  | succ n ih =>
    cases s with
    | nil => exact .inl rfl
    | cons c s =>
      rw [List.take_succ_cons]
      cases t with
      | nil => exact .inl rfl
      | cons d t =>
        rw [List.length_cons] at h
        rw [strcmpLe, strcmpLe]
        by_cases hcd : c = d
        · subst hcd
          rcases ih (s := s) (t := t) (by omega) with heq | heq
          · exact .inl (by rw [heq])
          · exact .inr (by rw [heq])
        · exact .inl (by rw [if_neg hcd, if_neg hcd])

/-! ### The key of a channel -/

/-- The key of a channel, `⊤` if there is none. -/
def Chan.keyOf (chan : Chan) (k : UInt8) : WithTop Key :=
  if chan.modes k then ((⟨chan.key k⟩ : Key) : WithTop Key) else ⊤

/-- What is stored for a key is a string in an array of `PASSWDLEN + 1` bytes. -/
def Chan.KeyFits (chan : Chan) (k : UInt8) : Prop :=
  IsText (chan.key k) ∧ (chan.key k).length ≤ PASSWDLEN

/-- A change of the key as it arrives from a server: `-k` and `+k` do nothing without an argument.
-/
def keyOp (set : Bool) : Option Bytes → Op Key
  | none => .idle
  | some w => if set then .lower ⟨w.take PASSWDLEN⟩ else .clear

section

variable {t : ModeTable} {cl : Clients} {chan : Chan} {k : UInt8} {set : Bool}

/-- What `chanmode_key` stores fits. -/
theorem keyFits_chanmodeKey (cli : Option Actor) {arg : Option Bytes} (h : chan.KeyFits k)
    (harg : ∀ w, arg = some w → IsText w) :
    (chanmodeKey t cli chan k set arg).chan.KeyFits k := by
  have hset : ∀ w, IsText w → (chan.setKey k w).KeyFits k := by
    intro w hw
    have hkey : (chan.setKey k w).key k = w.take PASSWDLEN := Function.update_self ..
    rw [Chan.KeyFits, hkey]
    exact ⟨isText_take hw _, List.length_take_le _ _⟩
  have hflag : ∀ w b, IsText w → ((chan.setKey k w).setFlag k b).KeyFits k :=
    fun w _ hw => hset w hw
  have hnil : IsText [] := by simp [IsText]
  unfold chanmodeKey
  grind

/-- A change that is made for a client of our own. -/
theorem keyOf_chanmodeKey_some {a : Actor} {w : Bytes}
    (hok : (chanmodeKey t (some a) chan k set (some w)).res = .ok) :
    (chanmodeKey t (some a) chan k set (some w)).chan.keyOf k =
      if set then ((⟨w.take PASSWDLEN⟩ : Key) : WithTop Key) else ⊤ := by
  unfold chanmodeKey at hok ⊢
  cases set with
  | true =>
    have hkey : ((chan.setKey k w).setFlag k true).keyOf k =
        ((⟨w.take PASSWDLEN⟩ : Key) : WithTop Key) := by
      simp [Chan.keyOf, Chan.setKey, Chan.setFlag]
    grind
  | false =>
    have hkey : ((chan.setKey k []).setFlag k false).keyOf k = ⊤ := by
      simp [Chan.keyOf, Chan.setKey, Chan.setFlag]
    grind

/-- A change from a server is a message to a replica that keeps the lowest value. -/
theorem keyOf_chanmodeKey_none {arg : Option Bytes} (h : chan.KeyFits k)
    (harg : ∀ w, arg = some w → IsText w)
    (hset : set = true → ∀ w, arg = some w → blank ∉ w ∧ commaSign ∉ w) :
    (chanmodeKey t none chan k set arg).chan.keyOf k = apply (chan.keyOf k) (keyOp set arg) := by
  cases arg with
  | none => rfl
  | some w =>
    cases set with
    | false => simp [chanmodeKey, denied, Chan.keyOf, Chan.setFlag, Chan.setKey, keyOp, apply]
    | true =>
      obtain ⟨hblank, hcomma⟩ := hset rfl w rfl
      have hstored : (if strcmpLe w (chan.key k) then w.take PASSWDLEN else chan.key k) =
          (min (⟨chan.key k⟩ : Key) ⟨w.take PASSWDLEN⟩).text := by
        have htext := isText_take (harg w rfl) PASSWDLEN
        rcases strcmpLe_take (s := w) h.2 with hle | heq
        · rw [← hle]
          by_cases hkey : strcmpLe (w.take PASSWDLEN) (chan.key k)
          · rw [if_pos hkey, min_eq_right ((strcmpLe_iff htext h.1).mp hkey)]
          · rw [if_neg hkey, min_eq_left]
            rw [strcmpLe_iff htext h.1, not_le] at hkey
            exact hkey.le
        · rw [heq, ite_self, min_self]
      by_cases hmode : chan.modes k
      · have hagain : (chanmodeKey t none chan k true (some w)).chan =
            if strcmpLe w (chan.key k) then chan.setKey k w else chan := by
          simp [chanmodeKey, denied, hblank, hcomma, hmode]
        have hkeyOf : (if strcmpLe w (chan.key k) then chan.setKey k w else chan).keyOf k =
            ((⟨if strcmpLe w (chan.key k) then w.take PASSWDLEN else chan.key k⟩ : Key) :
              WithTop Key) := by
          split <;> simp [Chan.keyOf, Chan.setKey, hmode]
        rw [hagain, hkeyOf, hstored, keyOp, if_pos rfl, apply, Chan.keyOf, if_pos hmode]
        exact WithTop.coe_min _ _
      · simp [chanmodeKey, denied, hblank, hcomma, hmode, Chan.keyOf, Chan.setKey, Chan.setFlag,
          keyOp, apply]

end

end Ithildin
