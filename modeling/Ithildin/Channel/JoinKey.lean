import Ithildin.Channel.Modes
import Ithildin.Event.Cond
import Mathlib.Tactic.Common

/-!
# The key that a client joins with

`can_join_mode_k` compares the key of a channel with each element of a list in turn.

* `keyListed`: its loop; `canJoinModeK`: the hook;
* `KeyGiven`: an element of the list is the key;
* `Misread`: an element is taken for the key that is not;
* `canJoinModeK_iff`: the hook admits just who gives the key, unless an element is misread.

An element with a comma behind it is compared as far as it goes, and the last one as far as a key
can go; neither says that the key ends there.
-/

namespace Ithildin

/-- `strncasecmp` finds no difference. -/
def sameCaseUpTo (n : ℕ) (s t : Bytes) : Bool := sameCase (s.take n) (t.take n)

/-- `ERR_BADCHANNELKEY`. -/
def errBadChannelKey : ℕ+ := 475

/-- The loop of `can_join_mode_k` from `cur` on; the list becomes shorter in each turn. -/
def keyListed (key : Bytes) : ℕ → Bytes → Bool
  | 0, _ => false
  | n + 1, cur =>
      let len := (cur.takeWhile (· ≠ commaSign)).length
      match cur.drop len with
      | [] => sameCaseUpTo PASSWDLEN key cur
      | _ :: rest => sameCaseUpTo len key cur || (!rest.isEmpty && keyListed key n rest)

/-- `can_join_mode_k`, with the key of the channel and the list given, or `NULL`. -/
def canJoinModeK (key : Bytes) (extra : Option Bytes) : HookCond :=
  if key ≠ [] then
    match extra with
    | none => .error errBadChannelKey
    | some cur =>
        if cur = [] then .error errBadChannelKey
        else if keyListed key (cur.length + 1) cur then .ok
        else .error errBadChannelKey
  else .ok

/-- The elements of a list. -/
def keyElements (extra : Option Bytes) : List Bytes :=
  (extra.getD []).splitOnP (· == commaSign)

/-- Some element of the list is the key, but for case. -/
def KeyGiven (key : Bytes) (extra : Option Bytes) : Prop :=
  ∃ e ∈ keyElements extra, sameCase e key = true

/-- An element that is not the last one begins the key (as the empty one does), or the key has all
bytes that a key can have and the last element goes on behind it. -/
def Misread (key : Bytes) (extra : Option Bytes) : Prop :=
  (∃ e ∈ (keyElements extra).dropLast, e.length < key.length ∧
      sameCase e (key.take e.length) = true) ∨
    ∃ e, (keyElements extra).getLast? = some e ∧ key.length = PASSWDLEN ∧
      PASSWDLEN < e.length ∧ sameCase (e.take PASSWDLEN) key = true

section
variable {key cur e : Bytes}

theorem sameCase_length (h : sameCase e key = true) : e.length = key.length := by
  simpa using congrArg List.length (sameCase_iff.mp h)

theorem sameCase_comm : sameCase e key = true ↔ sameCase key e = true := by
  rw [sameCase_iff, sameCase_iff, eq_comm]

theorem not_sameCase_nil (hkey : key ≠ []) : ¬ sameCase [] key = true := by
  intro h
  have hlen := sameCase_length h
  exact hkey (List.eq_nil_of_length_eq_zero hlen.symm)

theorem take_passwdlen_ne_nil (hkey : key ≠ []) : key.take PASSWDLEN ≠ [] := by
  unfold PASSWDLEN
  cases key with
  | nil => exact absurd rfl hkey
  | cons c key => simp

/-- A list is its first element, or that and the rest behind a comma. -/
theorem splitOn_cases (cur : Bytes) :
    let first := cur.takeWhile (· ≠ commaSign)
    (cur.drop first.length = [] ∧ cur.splitOnP (· == commaSign) = [cur]) ∨
      ∃ rest, cur.drop first.length = commaSign :: rest ∧ rest.length < cur.length ∧
        cur.splitOnP (· == commaSign) = first :: rest.splitOnP (· == commaSign) := by
  intro first
  have hfirst : ∀ c ∈ first, (c == commaSign) = false := by
    intro c hc
    simpa using List.mem_takeWhile_imp hc
  have hdrop : cur.drop first.length = cur.dropWhile (· ≠ commaSign) :=
    Tokens.drop_length_takeWhile _ cur
  have hcur : first ++ cur.drop first.length = cur := by
    rw [hdrop]
    exact List.takeWhile_append_dropWhile
  cases hrest : cur.drop first.length with
  | nil =>
    rw [hrest, List.append_nil] at hcur
    refine .inl ⟨rfl, ?_⟩
    rw [← hcur]
    exact List.splitOnP_eq_singleton hfirst
  | cons c rest =>
    have hc : c = commaSign := by
      have hhead := List.head?_dropWhile_not (fun c : UInt8 => decide (c ≠ commaSign)) cur
      rw [← hdrop, hrest] at hhead
      simpa using hhead
    subst hc
    rw [hrest] at hcur
    refine .inr ⟨rest, rfl, ?_, ?_⟩
    · have hlen := congrArg List.length hcur
      rw [List.length_append, List.length_cons] at hlen
      omega
    · rw [← hcur, List.splitOnP_append_cons_of_forall_mem hfirst commaSign (by simp)]

/-- The loop compares each element that has a comma behind it up to the comma, and the last one up
to the length of a key. -/
theorem keyListed_iff (hkey : key ≠ []) {n : ℕ} (hn : cur.length < n) :
    keyListed key n cur = true ↔
      (∃ e ∈ (cur.splitOnP (· == commaSign)).dropLast, sameCase e (key.take e.length) = true) ∨
        ∃ e, (cur.splitOnP (· == commaSign)).getLast? = some e ∧
          sameCase (e.take PASSWDLEN) (key.take PASSWDLEN) = true := by
  induction n generalizing cur with
  | zero => omega
  | succ n ih =>
    rw [keyListed]
    rcases splitOn_cases cur with ⟨hdrop, hsplit⟩ | ⟨rest, hdrop, hlen, hsplit⟩
    · rw [hdrop, hsplit]
      simp [sameCaseUpTo, sameCase_comm (e := cur.take PASSWDLEN)]
    · set first := cur.takeWhile (· ≠ commaSign) with hfirst
      have htake : cur.take first.length = first := by
        rw [hfirst]
        exact List.prefix_iff_eq_take.mp (List.takeWhile_prefix _) |>.symm
      have hne := List.splitOnP_ne_nil (· == commaSign) rest
      rw [hdrop, hsplit, List.dropLast_cons_of_ne_nil hne, List.getLast?_cons_of_ne_nil hne,
        List.exists_mem_cons_iff, or_assoc, Bool.or_eq_true, sameCaseUpTo, htake,
        sameCase_comm (e := first)]
      refine or_congr Iff.rfl ?_
      cases rest with
      | nil =>
        -- behind a comma at the end there is an empty element, which is no key
        simp [not_sameCase_nil (take_passwdlen_ne_nil hkey)]
      | cons c rest =>
        rw [List.isEmpty_cons, Bool.not_false, Bool.true_and]
        exact ih (by omega)

/-- An element is compared with as much of the key as it is long. -/
theorem sameCase_take_iff :
    sameCase e (key.take e.length) = true ↔
      sameCase e key = true ∨ e.length < key.length ∧ sameCase e (key.take e.length) = true := by
  rcases lt_or_ge e.length key.length with hlt | hge
  · have hne : ¬ sameCase e key = true := fun h => by
      have hlen := sameCase_length h
      omega
    simp [hlt, hne]
  · rw [List.take_of_length_le hge]
    simp [Nat.not_lt.mpr hge]

/-- The last element is compared up to the length that a key can have. -/
theorem sameCase_take_passwdlen (hlen : key.length ≤ PASSWDLEN) :
    sameCase (e.take PASSWDLEN) (key.take PASSWDLEN) = true ↔
      sameCase e key = true ∨ key.length = PASSWDLEN ∧ PASSWDLEN < e.length ∧
        sameCase (e.take PASSWDLEN) key = true := by
  rw [List.take_of_length_le hlen]
  rcases le_or_gt e.length PASSWDLEN with hle | hgt
  · rw [List.take_of_length_le hle]
    simp [Nat.not_lt.mpr hle]
  · have hne : ¬ sameCase e key = true := fun h => by
      have heq := sameCase_length h
      omega
    have hfull : sameCase (e.take PASSWDLEN) key = true → key.length = PASSWDLEN := by
      intro h
      rw [← sameCase_length h, List.length_take]
      omega
    rw [or_iff_right hne]
    exact ⟨fun h => ⟨hfull h, hgt, h⟩, fun h => h.2.2⟩

theorem exists_mem_dropLast_or {l : List Bytes} {p : Bytes → Prop} :
    (∃ e ∈ l, p e) ↔ (∃ e ∈ l.dropLast, p e) ∨ ∃ e, l.getLast? = some e ∧ p e := by
  rcases List.eq_nil_or_concat l with rfl | ⟨l, a, rfl⟩
  · simp
  · simp only [List.concat_eq_append, List.dropLast_concat, List.getLast?_append,
      List.getLast?_singleton,
      Option.some_or, Option.some.injEq, exists_eq_left', List.mem_append, List.mem_singleton]
    constructor
    · rintro ⟨e, he | rfl, hp⟩
      · exact .inl ⟨e, he, hp⟩
      · exact .inr hp
    · rintro (⟨e, he, hp⟩ | hp)
      · exact ⟨e, .inl he, hp⟩
      · exact ⟨a, .inr rfl, hp⟩

/-- No list and an empty one have the same outcome as the loop would have. -/
theorem canJoinModeK_eq_ok (hkey : key ≠ []) (extra : Option Bytes) :
    canJoinModeK key extra = .ok ↔
      keyListed key ((extra.getD []).length + 1) (extra.getD []) = true := by
  have hnil : keyListed key 1 [] = false := by
    rw [← Bool.not_eq_true, keyListed_iff hkey (by simp)]
    simpa using not_sameCase_nil (take_passwdlen_ne_nil hkey)
  unfold canJoinModeK
  rw [if_pos hkey]
  cases extra with
  | none => simp [hnil]
  | some cur =>
    by_cases hcur : cur = []
    · subst hcur
      simp [hnil]
    · simp [hcur]

/-- Who is admitted. -/
theorem canJoinModeK_eq_ok_iff (hkey : key ≠ []) (hlen : key.length ≤ PASSWDLEN)
    (extra : Option Bytes) :
    canJoinModeK key extra = .ok ↔ KeyGiven key extra ∨ Misread key extra := by
  rw [canJoinModeK_eq_ok hkey, keyListed_iff hkey (Nat.lt_succ_self _), KeyGiven, Misread,
    exists_mem_dropLast_or (p := fun e => sameCase e key = true)]
  have hbefore : (∃ e ∈ (keyElements extra).dropLast, sameCase e (key.take e.length) = true) ↔
      (∃ e ∈ (keyElements extra).dropLast, sameCase e key = true) ∨
        ∃ e ∈ (keyElements extra).dropLast, e.length < key.length ∧
          sameCase e (key.take e.length) = true := by
    rw [← exists_or]
    refine exists_congr fun e => ?_
    rw [← and_or_left, ← sameCase_take_iff]
  have hlast : (∃ e, (keyElements extra).getLast? = some e ∧
        sameCase (e.take PASSWDLEN) (key.take PASSWDLEN) = true) ↔
      (∃ e, (keyElements extra).getLast? = some e ∧ sameCase e key = true) ∨
        ∃ e, (keyElements extra).getLast? = some e ∧ key.length = PASSWDLEN ∧
          PASSWDLEN < e.length ∧ sameCase (e.take PASSWDLEN) key = true := by
    rw [← exists_or]
    refine exists_congr fun e => ?_
    rw [← and_or_left, ← sameCase_take_passwdlen hlen]
  rw [← keyElements, hbefore, hlast, or_or_or_comm]

end

/-- The hook admits a client if and only if some element of its list is the key, exactly when one is
or none is misread. -/
theorem canJoinModeK_iff (key : Bytes) (extra : Option Bytes) (hkey : key ≠ [])
    (hlen : key.length ≤ PASSWDLEN) :
    (canJoinModeK key extra = .ok ↔ KeyGiven key extra) ↔
      (KeyGiven key extra ∨ ¬ Misread key extra) := by
  rw [canJoinModeK_eq_ok_iff hkey hlen]
  tauto

theorem canJoinModeK_iff_secret :
    canJoinModeK (bytes "secret") (some (bytes "other,Secret")) = .ok ↔
      KeyGiven (bytes "secret") (some (bytes "other,Secret")) := by
  refine (canJoinModeK_iff _ _ (by decide) (by decide)).mpr (.inl ⟨bytes "Secret", ?_, by decide⟩)
  decide +kernel

/-- The empty element in front of a comma opens every channel. -/
theorem canJoinModeK_fails : ¬ ∀ key extra, key ≠ [] → key.length ≤ PASSWDLEN →
    (canJoinModeK key extra = .ok ↔ KeyGiven key extra) := by
  intro hall
  obtain ⟨e, he, hsame⟩ :=
    (hall (bytes "secret") (some (bytes ",x")) (by decide) (by decide)).mp (by decide +kernel)
  have helements : keyElements (some (bytes ",x")) = [[], bytes "x"] := by decide +kernel
  rw [helements] at he
  have hlen := sameCase_length hsame
  rcases List.mem_pair.mp he with rfl | rfl
  · exact absurd hlen (by decide)
  · exact absurd hlen (by decide)

end Ithildin
