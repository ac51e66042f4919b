import Ithildin.CString
import Mathlib.Logic.Function.Basic

/-!
# User modes

`usermode_set`, `usermode_unset` and `user_mode`, with the handler `mode_set_counter` of the modes
`i` and `o`. What the handlers of other modes answer is given from outside.

* `Held`: what a mode change touches;
* `Held.Shown`: the clients counted as visible and the mode `i` of one client go together;
* `unsetAll_shown`, `unsetAll_i`: what `destroy_client` leaves.
-/

namespace Ithildin

/-- `'i'` -/
def umodeI : UInt8 := 105

/-- `'o'` -/
def umodeO : UInt8 := 111

/-- `ircd.umodes`: the modes in use, as `avail` lists them, and those with `USERMODE_FL_OPER` and
`USERMODE_FL_PRESERVE`. The loader takes `i` and `o` first, for operators and others alike. -/
structure Umodes where
  avail : List UInt8
  oper : UInt8 → Bool
  preserve : UInt8 → Bool
  avail_i : umodeI ∈ avail
  oper_i : oper umodeI = false
  oper_o : oper umodeO = false

/-- What a mode change touches: the modes of the client, `stats.net.visclients` and `stats.opers`.
-/
structure Held where
  modes : UInt8 → Bool
  visclients : ℤ
  opers : ℤ

namespace Held

variable (u : Umodes) (mine : Bool)

/-- Set or unset the bit of a mode. -/
def put (h : Held) (m : UInt8) (b : Bool) : Held := { h with modes := Function.update h.modes m b }

/-- `mode_set_counter` called to set `i` or `o`, and the handler of another mode, which answers
`ans`. The client may be the one that asks, and may have the operator privilege. -/
def setChanger (self priv ans : Bool) (m : UInt8) (h : Held) : Bool × Held :=
  if m = umodeI then (true, { h with visclients := h.visclients - 1 })
  else if m = umodeO then
    if mine && self && !h.modes umodeO && !priv then (false, h)
    else (true, { h with opers := h.opers + 1 })
  else (ans, h)

/-- `usermode_set` -/
def usermodeSet (self priv ans : Bool) (m : UInt8) (h : Held) : Held :=
  if m ∉ u.avail ∨ h.modes m then h
  else
    let r := h.setChanger mine self priv ans m
    if !r.1 && mine then r.2
    else if mine && !r.2.modes umodeO && u.oper m then r.2
    else r.2.put m true

/-- `usermode_unset` of a mode other than `o`. -/
def usermodeUnset' (ans : Bool) (m : UInt8) (h : Held) : Held :=
  if m ∉ u.avail ∨ ¬ h.modes m then h
  else if m = umodeI then { h with visclients := h.visclients + 1 }.put m false
  else if !ans && mine then h
  else h.put m false

/-- `usermode_unset`. With `o` a client of ours loses the modes that only operators have. -/
def usermodeUnset (ans : UInt8 → Bool) (m : UInt8) (h : Held) : Held :=
  if m = umodeO then
    if m ∉ u.avail ∨ ¬ h.modes m then h
    else
      let h := if mine then
          (u.avail.filter fun c => u.oper c && !u.preserve c).foldl
            (fun h c => h.usermodeUnset' u mine (ans c) c) h
        else h
      { h with opers := h.opers - 1 }.put m false
  else h.usermodeUnset' u mine (ans m) m

/-- The loop of `user_mode`. -/
def userMode (self priv : Bool) (ans : ℕ → UInt8 → Bool) : Bytes → Bool → Held → Held
  | [], _, h => h
  | c :: modes, plus, h =>
    if c = 43 then userMode self priv ans modes true h
    else if c = 45 then userMode self priv ans modes false h
    else userMode self priv ans modes plus
      (if plus then h.usermodeSet u mine self priv (ans modes.length c) c
        else h.usermodeUnset u mine (ans modes.length) c)

/-- The loop of `destroy_client` over `avail`. -/
def unsetAll (ans : UInt8 → UInt8 → Bool) (h : Held) : Held :=
  u.avail.foldl (fun h m => h.usermodeUnset u mine (ans m) m) h

/-! ### The mode `i` and the visible clients -/

/-- From one to the other, the client is counted as visible as the mode `i` says. -/
def Shown (h h' : Held) : Prop :=
  h'.visclients + (h'.modes umodeI).toInt = h.visclients + (h.modes umodeI).toInt

variable {u mine} {h h' h'' : Held} {m : UInt8}

theorem Shown.rfl : Shown h h := by rw [Shown]

theorem Shown.trans (h₁ : Shown h h') (h₂ : Shown h' h'') : Shown h h'' := Eq.trans h₂ h₁

/-- What is counted and the mode `i` are as before. -/
theorem shown_of_eq (hvis : h'.visclients = h.visclients)
    (hi : h'.modes umodeI = h.modes umodeI) : Shown h h' := by
  rw [Shown, hvis, hi]

theorem put_shown {b : Bool} (hm : m ≠ umodeI) : Shown h (h.put m b) :=
  shown_of_eq rfl (Function.update_of_ne hm.symm _ _)

/-- The handler of `i` counts what the bit says. -/
theorem put_i_shown {b : Bool} {vis : ℤ} (hb : h.modes umodeI = !b)
    (hvis : vis + b.toInt = h.visclients + (!b).toInt) :
    Shown h ({ h with visclients := vis }.put umodeI b) := by
  show vis + (Function.update h.modes umodeI b umodeI).toInt = _
  rw [Function.update_self, hb]
  exact hvis

theorem usermodeSet_shown (self priv ans : Bool) :
    Shown h (h.usermodeSet u mine self priv ans m) := by
  rw [usermodeSet]
  split
  · exact .rfl
  · rename_i hset
    rw [not_or] at hset
    by_cases hi : m = umodeI
    · -- the handler of `i` never refuses, and the mode is not for operators only
      subst hi
      have hchanger : h.setChanger mine self priv ans umodeI =
          (true, { h with visclients := h.visclients - 1 }) := if_pos rfl
      simp only [hchanger, u.oper_i, Bool.not_true, Bool.false_and, Bool.and_false,
        Bool.false_eq_true, if_false]
      refine put_i_shown (by simpa using hset.2) ?_
      show h.visclients - 1 + 1 = h.visclients + 0
      omega
    · have hkept : Shown h (h.setChanger mine self priv ans m).2 := by
        rw [setChanger, if_neg hi]
        split
        · split <;> exact shown_of_eq rfl rfl
        · exact .rfl
      dsimp only
      split
      · exact hkept
      · split
        · exact hkept
        · exact hkept.trans (put_shown hi)

theorem usermodeUnset'_shown (ans : Bool) : Shown h (h.usermodeUnset' u mine ans m) := by
  rw [usermodeUnset']
  split
  · exact .rfl
  · rename_i hset
    rw [not_or, not_not] at hset
    split
    · rename_i hi
      subst hi
      refine put_i_shown (by simpa using hset.2) ?_
      show h.visclients + 1 + 0 = h.visclients + 1
      omega
    · rename_i hi
      split
      · exact .rfl
      · exact put_shown hi

/-- Several modes, one after the other. -/
theorem foldl_shown {f : Held → UInt8 → Held} (hf : ∀ h m, Shown h (f h m)) (l : List UInt8) :
    Shown h (l.foldl f h) := by
  induction l generalizing h with
  | nil => exact .rfl
  | cons m l ih => exact (hf h m).trans ih

theorem usermodeUnset_shown (ans : UInt8 → Bool) : Shown h (h.usermodeUnset u mine ans m) := by
  rw [usermodeUnset]
  split
  · rename_i ho
    split
    · exact .rfl
    · have hi : m ≠ umodeI := by
        rw [ho]
        decide
      have hstripped : Shown h (if mine then
          (u.avail.filter fun c => u.oper c && !u.preserve c).foldl
            (fun h c => h.usermodeUnset' u mine (ans c) c) h else h) := by
        split
        · exact foldl_shown (fun _ _ => usermodeUnset'_shown _) _
        · exact .rfl
      exact hstripped.trans ((shown_of_eq rfl rfl).trans (put_shown hi))
  · exact usermodeUnset'_shown _

theorem userMode_shown (self priv : Bool) (ans : ℕ → UInt8 → Bool) (modes : Bytes) (plus : Bool) :
    Shown h (h.userMode u mine self priv ans modes plus) := by
  induction modes generalizing h plus with
  | nil => exact .rfl
  | cons c modes ih =>
    rw [userMode]
    split
    · exact ih _
    · split
      · exact ih _
      · refine Shown.trans ?_ (ih _)
        split
        · exact usermodeSet_shown _ _ _
        · exact usermodeUnset_shown _

theorem unsetAll_shown (ans : UInt8 → UInt8 → Bool) : Shown h (h.unsetAll u mine ans) :=
  foldl_shown (fun _ _ => usermodeUnset_shown _) _

/-! ### No mode `i` is left -/

theorem put_false_i (hi : h.modes umodeI = false) : (h.put m false).modes umodeI = false := by
  show Function.update h.modes m false umodeI = false
  rw [Function.update_apply]
  split
  · rfl
  · exact hi

theorem usermodeUnset'_i (ans : Bool) (hi : h.modes umodeI = false) :
    (h.usermodeUnset' u mine ans m).modes umodeI = false := by
  rw [usermodeUnset']
  split
  · exact hi
  · split
    · exact put_false_i hi
    · split
      · exact hi
      · exact put_false_i hi

theorem foldl_i {f : Held → UInt8 → Held}
    (hf : ∀ h m, h.modes umodeI = false → (f h m).modes umodeI = false) (l : List UInt8)
    (hi : h.modes umodeI = false) : (l.foldl f h).modes umodeI = false := by
  induction l generalizing h with
  | nil => exact hi
  | cons m l ih => exact ih (hf h m hi)

theorem usermodeUnset_i (ans : UInt8 → Bool) (hi : h.modes umodeI = false) :
    (h.usermodeUnset u mine ans m).modes umodeI = false := by
  rw [usermodeUnset]
  split
  · split
    · exact hi
    · refine put_false_i ?_
      dsimp only
      split
      · exact foldl_i (fun _ _ => usermodeUnset'_i _) _ hi
      · exact hi
  · exact usermodeUnset'_i _ hi

/-- `i` is not refused when it is unset. -/
theorem usermodeUnset_umodeI (ans : UInt8 → Bool) :
    (h.usermodeUnset u mine ans umodeI).modes umodeI = false := by
  rw [usermodeUnset, if_neg (by decide), usermodeUnset']
  split
  · rename_i hset
    rcases hset with hset | hset
    · exact absurd u.avail_i hset
    · simpa using hset
  · rw [if_pos rfl]
    show Function.update h.modes umodeI false umodeI = false
    exact Function.update_self ..

/-- `destroy_client` unsets `i`, which is in use. -/
theorem unsetAll_i (ans : UInt8 → UInt8 → Bool) :
    (h.unsetAll u mine ans).modes umodeI = false := by
  obtain ⟨l₁, l₂, hl⟩ := List.append_of_mem u.avail_i
  rw [unsetAll, hl, List.foldl_append, List.foldl_cons]
  exact foldl_i (fun _ _ => usermodeUnset_i _) _ (usermodeUnset_umodeI _)

end Held

end Ithildin
