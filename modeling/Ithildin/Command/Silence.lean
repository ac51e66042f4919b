import Ithildin.Channel.Modes
import Ithildin.Hostmatch
import Ithildin.Lib.KeyedList
import Ithildin.Lib.Run
import Mathlib.Logic.Function.Basic

/-!
# SILENCE

`silence.c`, by which a client shuts out the messages of others, and `make_client_mask` of
`client.c`, which completes the masks that it is given.

* `makeClientMask`: the function; `makeClientMask_eq_self_iff`: what it makes is a full mask, and
  full masks are those that it leaves as they are;
* `silence`, `silenceSendHook`: the command and the hook; there is no next state when a mask is
  written behind its buffer;
* `silences_refine`: the list of each client stands for a set of masks, up to case, that is as large
  as it may be; a message is shut out just if one of these masks matches its sender.
-/

namespace Ithildin

/-! ### Masks of clients -/

/-- The nick, the user and the host of a mask, as far as they are there. -/
def maskParts (mask : Bytes) : Bytes × Bytes × Bytes :=
  match behindByte bangSign mask with
  | some user =>
      let nick := mask.takeWhile (· != bangSign)
      match behindByte atSign user with
      | some host => (nick, user.takeWhile (· != atSign), host)
      | none => (nick, user, [])
  | none =>
      match behindByte atSign mask with
      | some host => ([], mask.takeWhile (· != atSign), host)
      | none => if dot ∈ mask ∨ colon ∈ mask then ([], [], mask) else (mask, [], [])

/-- A part that is not there matches everything. -/
def orStar (part : Bytes) : Bytes := if part = [] then [star] else part

/-- A mask of three parts. -/
def fullMask (nick user host : Bytes) : Bytes := nick ++ bangSign :: (user ++ atSign :: host)

/-- `make_client_mask`. -/
def makeClientMask (mask : Bytes) : Bytes :=
  let (nick, user, host) := maskParts mask
  fullMask (orStar nick) (orStar user) (orStar host)

/-- A mask with all its parts. -/
def IsFullMask (mask : Bytes) : Prop :=
  ∃ nick user host, mask = fullMask nick user host ∧ bangSign ∉ nick ∧ atSign ∉ user ∧
    nick ≠ [] ∧ user ≠ [] ∧ host ≠ []

theorem orStar_ne_nil (part : Bytes) : orStar part ≠ [] := by
  unfold orStar
  split_ifs with h
  · exact List.cons_ne_nil _ _
  · exact h

theorem orStar_of_ne_nil {part : Bytes} (h : part ≠ []) : orStar part = part := if_neg h

theorem not_mem_orStar {b : UInt8} {part : Bytes} (hb : b ≠ star) (h : b ∉ part) :
    b ∉ orStar part := by
  unfold orStar
  split_ifs
  · exact fun hmem => hb (List.mem_singleton.1 hmem)
  · exact h

theorem not_mem_takeWhile (b : UInt8) (s : Bytes) : b ∉ s.takeWhile (· != b) := fun hmem => by
  have hne := List.mem_takeWhile_imp hmem
  rw [bne_self_eq_false] at hne
  cases hne

theorem not_mem_of_behindByte {b : UInt8} {s : Bytes} (h : behindByte b s = none) : b ∉ s := by
  induction s with
  | nil => exact List.not_mem_nil
  | cons c s ih =>
    rw [behindByte] at h
    split_ifs at h with hc
    exact List.not_mem_cons_of_ne_of_not_mem (Ne.symm hc) (ih h)

/-- No `'!'` in the nick and no `'@'` in the user. -/
theorem not_mem_maskParts (mask : Bytes) :
    bangSign ∉ (maskParts mask).1 ∧ atSign ∉ (maskParts mask).2.1 := by
  unfold maskParts
  cases hbang : behindByte bangSign mask with
  | some user =>
    dsimp only
    cases hat : behindByte atSign user with
    | some host => exact ⟨not_mem_takeWhile _ _, not_mem_takeWhile _ _⟩
    | none => exact ⟨not_mem_takeWhile _ _, not_mem_of_behindByte hat⟩
  | none =>
    dsimp only
    cases hat : behindByte atSign mask with
    | some host => exact ⟨List.not_mem_nil, not_mem_takeWhile _ _⟩
    | none =>
      dsimp only
      split_ifs
      · exact ⟨List.not_mem_nil, List.not_mem_nil⟩
      · exact ⟨not_mem_of_behindByte hbang, List.not_mem_nil⟩

theorem isFullMask_makeClientMask (mask : Bytes) : IsFullMask (makeClientMask mask) := by
  obtain ⟨hnick, huser⟩ := not_mem_maskParts mask
  exact ⟨_, _, _, rfl, not_mem_orStar (by decide) hnick, not_mem_orStar (by decide) huser,
    orStar_ne_nil _, orStar_ne_nil _, orStar_ne_nil _⟩

theorem maskParts_fullMask {nick user host : Bytes} (hnick : bangSign ∉ nick)
    (huser : atSign ∉ user) : maskParts (fullMask nick user host) = (nick, user, host) := by
  unfold maskParts fullMask
  rw [behindByte_append hnick]
  dsimp only
  rw [behindByte_append huser, takeWhile_ne_append hnick, takeWhile_ne_append huser]

namespace Silence

/-! ### The lists -/

/-- `struct client_silences`. -/
structure Silences where
  list : List Bytes
  count : ℕ
  deriving DecidableEq

/-- What is sent to the client. -/
inductive SilenceLine
  /-- `RPL_SILELIST`. -/
  | entry (mask : Bytes)
  /-- `RPL_ENDOFSILELIST`. -/
  | endOfList
  /-- `ERR_SILELISTFULL`. -/
  | full (mask : Bytes) (limit : ℤ)
  | added (mask : Bytes)
  | removed (mask : Bytes)
  deriving DecidableEq

/-- The size of the buffers for a mask. -/
def MASKLEN : ℕ := NICKLEN + USERLEN + HOSTLEN + 3

/-- The command, with `maxsilence` and whether the argument is the client's own nick. A mask that
would be cut is behind its buffer by then. -/
def silence (limit : ℤ) (self : Bool) (s : Silences) :
    Bytes → Option (Silences × List SilenceLine)
  | [] => some (s, s.list.map .entry ++ [.endOfList])
  | c :: mask =>
      if self then some (s, s.list.map .entry ++ [.endOfList])
      else if c = plusSign then
        if limit ≤ s.count then some (s, [.full mask limit])
        else if MASKLEN ≤ (makeClientMask mask).length then none
        else if s.list.any (sameCase (makeClientMask mask)) then some (s, [])
        else some (⟨makeClientMask mask :: s.list, s.count + 1⟩, [.added (makeClientMask mask)])
      else if c = minusSign then
        if MASKLEN ≤ (makeClientMask mask).length then none
        else
          match s.list.find? (sameCase (makeClientMask mask)) with
          | none => some (s, [])
          | some sp =>
              some (⟨s.list.eraseP (sameCase (makeClientMask mask)), s.count - 1⟩, [.removed sp])
      else some (s, [])

/-- `silence_send_hook`: whether the message is shut out. -/
def silenceSendHook (s : Silences) (nick user host : Bytes) : Bool :=
  if s.count = 0 then false
  else s.list.any fun mask => stringMatch mask (fullMask nick user host)

/-- What happens to the lists of all clients. -/
inductive Act
  | command (cli : ℕ) (limit : ℤ) (self : Bool) (arg : Bytes)
  /-- `silence_mdext_hook`. -/
  | destroy (cli : ℕ)
  deriving DecidableEq

def step (s : ℕ → Silences) : Act → Option (ℕ → Silences)
  | .command cli limit self arg =>
      (silence limit self (s cli) arg).map fun r => Function.update s cli r.1
  | .destroy cli => some (Function.update s cli ⟨[], 0⟩)

/-- No masks. -/
def start : ℕ → Silences := fun _ => ⟨[], 0⟩

/-! ### What the lists stand for -/

/-- Masks that differ in case are the same. -/
def key (mask : Bytes) : Bytes := mask.map toLower

/-- The masks that a client shuts out, up to case: one more when there is room, or one less. -/
def keyStep (S : ℕ → Finset Bytes) : Act → ℕ → Finset Bytes
  | .command _ _ true _ => S
  | .command _ _ false [] => S
  | .command cli limit false (c :: mask) =>
      if c = plusSign then
        Function.update S cli
          (if limit ≤ (S cli).card then S cli else insert (key (makeClientMask mask)) (S cli))
      else if c = minusSign then
        Function.update S cli ((S cli).erase (key (makeClientMask mask)))
      else S
  | .destroy cli => Function.update S cli ∅

/-- A list, its count, and the set that it stands for. -/
def StandsFor (s : Silences) (S : Finset Bytes) : Prop :=
  ∃ K : KeyedList key, s.list = K.items ∧ s.count = K.items.length ∧ K.keys = S ∧
    ∀ mask ∈ s.list, IsFullMask mask ∧ mask.length < MASKLEN

theorem standsFor_nil : StandsFor ⟨[], 0⟩ ∅ :=
  ⟨KeyedList.empty, rfl, rfl, rfl, fun _ h => absurd h List.not_mem_nil⟩

theorem sameCase_eq_key (s t : Bytes) : sameCase s t = decide (key t = key s) := by
  rw [Bool.eq_iff_iff, sameCase_iff, decide_eq_true_iff]
  exact eq_comm

section
variable {s : Silences} {S : Finset Bytes}

theorem StandsFor.count_eq (h : StandsFor s S) : s.count = S.card := by
  obtain ⟨K, -, hcount, rfl, -⟩ := h
  rw [hcount, K.card_keys]

theorem StandsFor.any_sameCase (h : StandsFor s S) (mask : Bytes) :
    s.list.any (sameCase mask) = true ↔ key mask ∈ S := by
  obtain ⟨K, hlist, -, rfl, -⟩ := h
  rw [hlist, List.any_eq_true, KeyedList.mem_keys]
  simp only [sameCase_eq_key, decide_eq_true_iff]

/-- A new mask in front, when there is room. -/
theorem StandsFor.cons {limit : ℤ} {mask : Bytes} (h : StandsFor s S)
    (hroom : ¬ limit ≤ s.count) (hnew : ¬ s.list.any (sameCase mask) = true)
    (hfull : IsFullMask mask) (hlen : mask.length < MASKLEN) :
    StandsFor ⟨mask :: s.list, s.count + 1⟩ (insert (key mask) S) := by
  have hcard := h.count_eq
  rw [h.any_sameCase] at hnew
  obtain ⟨K, hlist, hcount, rfl, hmasks⟩ := h
  have hadd : (K.add limit mask).items = mask :: K.items := by
    rw [KeyedList.add, dif_neg]
    rintro (hle | hold)
    · exact hroom (hcount ▸ hle)
    · exact hnew (KeyedList.mem_keys.2 hold)
  refine ⟨K.add limit mask, ?_, ?_, ?_, ?_⟩
  · rw [hadd, hlist]
  · rw [hadd, List.length_cons, hcount]
  · rw [KeyedList.keys_add, if_neg (hcard ▸ hroom)]
  · rintro other (_ | ⟨_, hother⟩)
    · exact ⟨hfull, hlen⟩
    · exact hmasks other hother

/-- The mask that was found taken out. -/
theorem StandsFor.eraseP {mask found : Bytes} (h : StandsFor s S)
    (hfound : s.list.find? (sameCase mask) = some found) :
    StandsFor ⟨s.list.eraseP (sameCase mask), s.count - 1⟩ (S.erase (key mask)) := by
  obtain ⟨K, hlist, hcount, rfl, hmasks⟩ := h
  have hsame : sameCase mask = fun other => decide (key other = key mask) :=
    funext fun other => sameCase_eq_key mask other
  refine ⟨K.remove (key mask), ?_, ?_, K.keys_remove _, fun other hother =>
    hmasks other (List.mem_of_mem_eraseP hother)⟩
  · rw [KeyedList.items_remove, hlist, hsame]
  · rw [KeyedList.items_remove, ← hsame, hcount, ← hlist,
      List.length_eraseP_of_mem (List.mem_of_find?_eq_some hfound) (List.find?_some hfound)]

/-- The hook looks at the count first. -/
theorem StandsFor.silenceSendHook_iff (h : StandsFor s S) (nick user host : Bytes) :
    silenceSendHook s nick user host = true ↔
      ∃ mask ∈ s.list, stringMatch mask (fullMask nick user host) = true := by
  rw [silenceSendHook]
  split_ifs with hzero
  · obtain ⟨K, hlist, hcount, -⟩ := h
    have hnil : s.list = [] := by
      rw [hlist, List.eq_nil_iff_length_eq_zero, ← hcount, hzero]
    simp [hnil]
  · rw [List.any_eq_true]

end

/-- One command, in terms of the set. -/
theorem StandsFor.silence {s t : Silences} {S : ℕ → Finset Bytes} {cli : ℕ} {limit : ℤ}
    {self : Bool} {arg : Bytes} {lines : List SilenceLine} (h : StandsFor s (S cli))
    (hrun : silence limit self s arg = some (t, lines)) :
    StandsFor t (keyStep S (.command cli limit self arg) cli) := by
  cases arg with
  | nil =>
    obtain ⟨rfl, -⟩ := Prod.mk.inj (Option.some.inj hrun)
    cases self <;> exact h
  | cons c mask =>
    rw [Silence.silence] at hrun
    cases self with
    | true =>
      obtain ⟨rfl, -⟩ := Prod.mk.inj (Option.some.inj hrun)
      exact h
    | false =>
      rw [if_neg Bool.false_ne_true] at hrun
      rw [keyStep]
      by_cases hplus : c = plusSign
      · rw [if_pos hplus] at hrun ⊢
        rw [Function.update_self, ← h.count_eq]
        -- the count is the size of the set: the limit says the same for both
        by_cases hroom : limit ≤ s.count
        · rw [if_pos hroom] at hrun ⊢
          obtain ⟨rfl, -⟩ := Prod.mk.inj (Option.some.inj hrun)
          exact h
        rw [if_neg hroom] at hrun ⊢
        split_ifs at hrun with hlen hold
        · -- the mask is there already
          obtain ⟨rfl, -⟩ := Prod.mk.inj (Option.some.inj hrun)
          rwa [Finset.insert_eq_of_mem ((h.any_sameCase _).1 hold)]
        · obtain ⟨rfl, -⟩ := Prod.mk.inj (Option.some.inj hrun)
          exact h.cons hroom hold (isFullMask_makeClientMask mask) (Nat.lt_of_not_le hlen)
      rw [if_neg hplus] at hrun ⊢
      by_cases hminus : c = minusSign
      · rw [if_pos hminus] at hrun ⊢
        rw [Function.update_self]
        split_ifs at hrun with hlen
        -- what is found has the key, so just this key goes
        cases hfind : s.list.find? (sameCase (makeClientMask mask)) with
        | none =>
          rw [hfind] at hrun
          obtain ⟨rfl, -⟩ := Prod.mk.inj (Option.some.inj hrun)
          rwa [Finset.erase_eq_of_notMem]
          rw [← h.any_sameCase, List.any_eq_true, ← List.find?_isSome, hfind]
          exact Bool.false_ne_true
        | some found =>
          rw [hfind] at hrun
          obtain ⟨rfl, -⟩ := Prod.mk.inj (Option.some.inj hrun)
          exact h.eraseP hfind
      · rw [if_neg hminus] at hrun ⊢
        obtain ⟨rfl, -⟩ := Prod.mk.inj (Option.some.inj hrun)
        exact h

/-- The other clients' sets are as they were. -/
theorem keyStep_other {S : ℕ → Finset Bytes} {cli other : ℕ} {limit : ℤ} {self : Bool}
    {arg : Bytes} (h : other ≠ cli) :
    keyStep S (.command cli limit self arg) other = S other := by
  cases self with
  | true => rfl
  | false =>
    cases arg with
    | nil => rfl
    | cons c mask =>
      rw [keyStep]
      by_cases hplus : c = plusSign
      · rw [if_pos hplus, Function.update_of_ne h]
      rw [if_neg hplus]
      by_cases hminus : c = minusSign
      · rw [if_pos hminus, Function.update_of_ne h]
      · rw [if_neg hminus]

/-- One step keeps every list in step with its set. -/
theorem step_standsFor {s t : ℕ → Silences} {S : ℕ → Finset Bytes} {a : Act}
    (h : ∀ cli, StandsFor (s cli) (S cli)) (hstep : step s a = some t) (cli : ℕ) :
    StandsFor (t cli) (keyStep S a cli) := by
  cases a with
  | command who limit self arg =>
    obtain ⟨⟨next, lines⟩, hrun, rfl⟩ := Option.map_eq_some_iff.1 hstep
    by_cases heq : cli = who
    · subst heq
      rw [Function.update_self]
      exact (h cli).silence hrun
    · rw [Function.update_of_ne heq, keyStep_other heq]
      exact h cli
  | destroy who =>
    obtain rfl := Option.some.inj hstep
    rw [keyStep]
    by_cases heq : cli = who
    · subst heq
      rw [Function.update_self, Function.update_self]
      exact standsFor_nil
    · rw [Function.update_of_ne heq, Function.update_of_ne heq]
      exact h cli

/-- Whatever was sent before, the list of a client stands for the set of the masks that it added and
did not remove, as long as there was room, and a message to it is shut out just if one of these
masks matches its sender. -/
theorem silences_refine {acts : List Act} {t : ℕ → Silences}
    (hrun : Run.run step start acts = some t) (cli : ℕ) :
    StandsFor (t cli) (acts.foldl keyStep (fun _ => ∅) cli) ∧
      ∀ nick user host, silenceSendHook (t cli) nick user host = true ↔
        ∃ mask ∈ (t cli).list, stringMatch mask (fullMask nick user host) = true := by
  have hall : ∀ cli, StandsFor (t cli) (acts.foldl keyStep (fun _ => ∅) cli) := by
    refine Run.run_induction
      (I := fun past s => ∀ cli, StandsFor (s cli) (past.foldl keyStep (fun _ => ∅) cli))
      (fun _ => standsFor_nil) (fun past s a s' h hstep cli => ?_) hrun
    rw [List.foldl_append]
    exact step_standsFor h hstep cli
  exact ⟨hall cli, (hall cli).silenceSendHook_iff⟩

/-- Two clients and a few commands. -/
def spamActs : List Act :=
  [.command 0 2 false (bytes "+spam"), .command 0 2 false (bytes "+@evil.org"),
    .command 1 2 false (bytes "+Spam"), .command 0 2 false (bytes "-SPAM"), .destroy 1]

theorem silences_refine_spam : ∃ t, Run.run step start spamActs = some t ∧
    StandsFor (t 0) {bytes "*!*@evil.org"} ∧ StandsFor (t 1) ∅ ∧
    (silenceSendHook (t 0) (bytes "joe") (bytes "x") (bytes "evil.org") = true ↔
      ∃ mask ∈ (t 0).list, stringMatch mask (bytes "joe!x@evil.org") = true) := by
  -- client 0 has one mask left, and client 1 is gone
  obtain ⟨t, hrun⟩ : ∃ t, Run.run step start spamActs = some t := ⟨_, rfl⟩
  have hzero : spamActs.foldl keyStep (fun _ => ∅) 0 = {bytes "*!*@evil.org"} := by decide
  have hone : spamActs.foldl keyStep (fun _ => ∅) 1 = ∅ := by decide
  obtain ⟨hset, hhook⟩ := silences_refine hrun 0
  exact ⟨t, hrun, hzero ▸ hset, hone ▸ (silences_refine hrun 1).1, hhook _ _ _⟩

end Silence

end Ithildin
