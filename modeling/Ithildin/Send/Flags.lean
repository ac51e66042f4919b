import Ithildin.Lib.Backlist
import Ithildin.Lib.Run
import Ithildin.Match
import Mathlib.Data.List.Perm.Subperm

/-!
# Message flags

A flag is a group of local clients that a kind of message goes to. The flags are in an array that
grows, each with the head of the list of its members in it, and a flag that is destroyed leaves a
slot for the next one.

* `FlagNet`: the array, where it is, the members' links and the clients;
* `createSendFlag`, `findSendFlag`, `destroySendFlag`, `addToSendFlag`, `removeFromSendFlag`: the
  functions of `send.c`; `destroyClient`: what becomes of a client's links;
* `Roster`: who is in which flag, without lists;
* `Reads`: the lists of the array hold the roster.

An access to memory that is not allocated, or is no longer, yields nothing.
-/

namespace Ithildin

/-- `struct send_flag`, but for its list. -/
structure SendFlag where
  name : Option Bytes
  num : ℤ
  priv : ℤ
  flags : BitVec 32
  deriving DecidableEq

/-- `SEND_LEVEL_OPERATOR`. -/
def SEND_LEVEL_OPERATOR : BitVec 32 := 0x1

/-- `SEND_LEVEL_CANTCHANGE`. -/
def SEND_LEVEL_CANTCHANGE : BitVec 32 := 0x4

/-- `ERR_NOPRIVILEGES`. -/
def ERR_NOPRIVILEGES : ℤ := 481

/-- A client that is registered: whether it is ours, is an operator, and has a privilege. -/
structure FlagClient where
  mine : Bool
  oper : Bool
  bpriv : ℤ → Bool

/-- `ircd.sflag`, with the address of its array; the links of members, each with its client, and the
next address for one; the clients; and whether a call has gone wrong. -/
structure FlagNet where
  base : ℕ
  slots : List SendFlag
  lists : Backlist (ℕ × ℕ) ℕ
  link : ℕ → Option ℕ
  fresh : ℕ
  client : ℕ → Option FlagClient
  fault : Bool

namespace FlagNet

variable (net : FlagNet)

/-- A slot that is not used. -/
def unusedSlot : SendFlag := ⟨none, -1, 0, 0⟩

/-- A slot is written, and its list is empty. -/
def setSlot (i : ℕ) (f : SendFlag) : FlagNet :=
  { net with slots := net.slots.set i f, lists := net.lists.put (.head (net.base, i)) none }

/-- `realloc`, for one more slot: what was in the array is now at the new address. -/
def grow (base : ℕ) : FlagNet :=
  { net with
    base := base
    slots := net.slots ++ [unusedSlot]
    lists := { net.lists with
      first := fun a =>
        if a.1 = base then net.lists.first (net.base, a.2) else net.lists.first a } }

/-- The first slot that is not used, or the one behind the last. -/
def freeSlot : ℕ := net.slots.findIdx fun f => f.num = -1

/-- The array has room for one more flag; `base` is what `realloc` returns. -/
def makeRoom (base : ℕ) : FlagNet :=
  if net.freeSlot = net.slots.length then net.grow base else net

/-- `create_send_flag`. -/
def createSendFlag (base : ℕ) (name : Bytes) (flags : BitVec 32) (priv : ℤ) : FlagNet × ℤ :=
  if name = [] then (net, -1)
  else
    ((net.makeRoom base).setSlot net.freeSlot ⟨some name, net.freeSlot, priv, flags⟩, net.freeSlot)

/-- The slots from one on, until a name is found. -/
def findFrom (name : Bytes) : ℕ → List SendFlag → Option ℤ
  | _, [] => some (-1)
  | i, f :: l => f.name.bind fun s => if sameCase s name then some i else findFrom name (i + 1) l

/-- `find_send_flag`. -/
def findSendFlag (name : Bytes) : Option ℤ := findFrom name 0 net.slots

/-- The place is in the array, or in a link that is allocated. -/
def placed : Place (ℕ × ℕ) ℕ → Bool
  | .head a => decide (a.1 = net.base ∧ a.2 < net.slots.length)
  | .link x => (net.link x).isSome

/-- `LIST_REMOVE` and `free`: it writes to the link behind, and where the link's pointer points. -/
def removeLink (x : ℕ) : Option FlagNet :=
  if (net.link x).isSome && net.placed (net.lists.prev x) &&
      (net.lists.next x).all (fun y => (net.link y).isSome) then
    some { net with lists := net.lists.remove x, link := Function.update net.link x none }
  else none

/-- A list is followed to the link of a client. One that comes back to itself has no end. -/
def walk (c : ℕ) : ℕ → Option ℕ → Option (Option ℕ)
  | _, none => some none
  | 0, some _ => none
  | n + 1, some x =>
      (net.link x).bind fun d => if d = c then some (some x) else walk c n (net.lists.next x)

/-- `find_in_send_flag`. -/
def findInSendFlag (flg c : ℕ) : Option (Option ℕ) :=
  net.walk c net.fresh (net.lists.first (net.base, flg))

/-- The first link is removed, as long as there is one. -/
def emptyList (flg : ℕ) : ℕ → FlagNet → Option FlagNet
  | 0, net => if (net.lists.first (net.base, flg)).isSome then none else some net
  | n + 1, net =>
      match net.lists.first (net.base, flg) with
      | none => some net
      | some x => (net.removeLink x).bind (emptyList flg n)

/-- `destroy_send_flag`. -/
def destroySendFlag (flg : ℕ) : Option FlagNet :=
  (emptyList flg net.fresh net).map fun net => net.setSlot flg unusedSlot

/-- A new link for a client comes first. -/
def insertLink (flg c : ℕ) : FlagNet :=
  { net with
    lists := net.lists.insertHead (net.base, flg) net.fresh
    link := Function.update net.link net.fresh (some c)
    fresh := net.fresh + 1 }

/-- The client may not be in the flag. -/
def refuses (f : SendFlag) (r : FlagClient) : Bool :=
  (decide (-1 < f.priv) && !r.bpriv f.priv) || (f.flags &&& SEND_LEVEL_OPERATOR != 0 && !r.oper)

/-- `add_to_send_flag`. -/
def addToSendFlag (flg c : ℕ) (force : Bool) : Option (FlagNet × ℤ) :=
  (net.client c).bind fun r =>
    if !r.mine then some (net, -1)
    else
      (net.findInSendFlag flg c).bind fun o =>
        if o.isSome then some (net, -1)
        else
          net.slots[flg]?.map fun f =>
            if !force && refuses f r then (net, ERR_NOPRIVILEGES) else (net.insertLink flg c, 0)

/-- `remove_from_send_flag`. -/
def removeFromSendFlag (flg c : ℕ) (force : Bool) : Option FlagNet :=
  (net.findInSendFlag flg c).bind fun o =>
    net.slots[flg]?.bind fun f =>
      if !force && f.flags &&& SEND_LEVEL_CANTCHANGE != 0 then some net
      else
        match o with
        | none => some net
        | some x => net.removeLink x

/-- A client is removed from the first flags. -/
def leaveFlags (c : ℕ) : ℕ → FlagNet → Option FlagNet
  | 0, net => some net
  | n + 1, net => (leaveFlags c n net).bind fun net => net.removeFromSendFlag n c true

/-- `destroy_client`, for a client that is registered. -/
def destroyClient (c : ℕ) : Option FlagNet :=
  (net.client c).bind fun r =>
    (if r.mine then leaveFlags c net.slots.length net else some net).map fun net =>
      { net with client := Function.update net.client c none }

/-! ### Steps -/

/-- The calls, and what becomes of clients otherwise. -/
inductive Action
  | connect (c : ℕ) (r : FlagClient)
  | change (c : ℕ) (oper : Bool) (bpriv : ℤ → Bool)
  | destroyClient (c : ℕ)
  | create (base : ℕ) (name : Bytes) (flags : BitVec 32) (priv : ℤ)
  | destroy (flg : ℕ)
  | find (name : Bytes)
  | add (flg c : ℕ) (force : Bool)
  | remove (flg c : ℕ) (force : Bool)

/-- A call is made with a number in the array and a client that is there. -/
def Called : Action → Prop
  | .connect c _ => net.client c = none
  | .change c _ _ => (net.client c).isSome
  | .destroyClient c => (net.client c).isSome
  | .create .. => True
  | .destroy flg => flg < net.slots.length
  | .find _ => True
  | .add flg c _ => flg < net.slots.length ∧ (net.client c).isSome
  | .remove flg c _ => flg < net.slots.length ∧ (net.client c).isSome

instance (a : Action) : Decidable (net.Called a) := by
  cases a <;> unfold Called <;> infer_instance

/-- What is at the address of a client. -/
def setClient (c : ℕ) (o : Option FlagClient) : FlagNet :=
  { net with client := Function.update net.client c o }

/-- What a call does. -/
def exec : Action → Option FlagNet
  | .connect c r => some (net.setClient c (some r))
  | .change c oper bpriv =>
      (net.client c).map fun r => net.setClient c (some { r with oper := oper, bpriv := bpriv })
  | .destroyClient c => net.destroyClient c
  | .create base name flags priv => some (net.createSendFlag base name flags priv).1
  | .destroy flg => net.destroySendFlag flg
  | .find name => (net.findSendFlag name).map fun _ => net
  | .add flg c force => (net.addToSendFlag flg c force).map Prod.fst
  | .remove flg c force => net.removeFromSendFlag flg c force

end FlagNet

/-! ### Who is in which flag -/

/-- The members of the flags, the last to come first. -/
abbrev Roster : Type := ℕ → List ℕ

/-- A flag's number and name are there, or it is destroyed. -/
def SendFlag.Numbered (f : SendFlag) (i : ℕ) : Prop :=
  (f.num = -1 ∧ f.name = none) ∨ (f.num = i ∧ ∃ s, f.name = some s)

namespace FlagNet

variable (net : FlagNet)

/-- The client may be put in the flag. -/
def admits (flg c : ℕ) (force : Bool) : Bool :=
  (net.client c).any (FlagClient.mine) &&
    (force || !(net.slots[flg]?.any fun f => (net.client c).any fun r => refuses f r))

/-- The client may be taken out of the flag. -/
def releases (flg : ℕ) (force : Bool) : Bool :=
  force || !(net.slots[flg]?.any fun f => f.flags &&& SEND_LEVEL_CANTCHANGE != 0)

/-- What a call makes of a roster. -/
def rosterAfter (roster : Roster) : Action → Roster
  | .connect .. => roster
  | .change .. => roster
  | .destroyClient c => fun i => (roster i).erase c
  | .create _ name _ _ => if name = [] then roster else Function.update roster net.freeSlot []
  | .destroy flg => Function.update roster flg []
  | .find _ => roster
  | .add flg c force =>
      if net.admits flg c force && !(roster flg).contains c then
        Function.update roster flg (c :: roster flg)
      else roster
  | .remove flg c force =>
      if net.releases flg force then Function.update roster flg ((roster flg).erase c) else roster

/-- The list of a flag has the members `cs`. -/
def Lists (i : ℕ) (cs : List ℕ) : Prop :=
  ∃ links, net.lists.Holds (net.base, i) links ∧ links.map net.link = cs.map some

/-- Each list holds the members of its flag, each once, and they are clients of ours. -/
def Reads (roster : Roster) : Prop :=
  ∀ i < net.slots.length, net.Lists i (roster i) ∧ (roster i).Nodup ∧
    ∀ c ∈ roster i, ∃ r, net.client c = some r ∧ r.mine = true

/-- What calls that have gone well leave. -/
structure Sound (roster : Roster) : Prop where
  safe : net.fault = false
  reads : net.Reads roster
  below : ∀ x, (net.link x).isSome → x < net.fresh
  slots : ∀ (i : ℕ) (f : SendFlag), net.slots[i]? = some f → f.Numbered i

/-- The array and the clients are the same, and nothing is allocated. -/
structure SameArray (net net' : FlagNet) : Prop where
  base : net'.base = net.base
  slots : net'.slots = net.slots
  client : net'.client = net.client
  fresh : net'.fresh = net.fresh

theorem SameArray.refl : SameArray net net := ⟨rfl, rfl, rfl, rfl⟩

variable {net}

theorem SameArray.trans {net₁ net₂ : FlagNet} (h : SameArray net net₁) (h' : SameArray net₁ net₂) :
    SameArray net net₂ :=
  ⟨h'.base.trans h.base, h'.slots.trans h.slots, h'.client.trans h.client, h'.fresh.trans h.fresh⟩

variable {roster : Roster} {flg c i x : ℕ} {links cs : List ℕ}

/-! ### Following a list -/

theorem link_of_mem (hmap : links.map net.link = cs.map some) (hx : x ∈ links) :
    ∃ d ∈ cs, net.link x = some d := by
  have hmem : net.link x ∈ cs.map some := hmap ▸ List.mem_map_of_mem hx
  obtain ⟨d, hd, heq⟩ := List.mem_map.mp hmem
  exact ⟨d, hd, heq.symm⟩

/-- A list of allocated links is no longer than what has been allocated. -/
theorem Sound.length_le (h : net.Sound roster) (hholds : net.lists.Holds (net.base, i) links)
    (hmap : links.map net.link = cs.map some) : links.length ≤ net.fresh := by
  have hsub : links ⊆ List.range net.fresh := by
    intro x hx
    obtain ⟨d, -, hd⟩ := link_of_mem hmap hx
    exact List.mem_range.mpr (h.below x (by simp [hd]))
  simpa using (List.subperm_of_subset hholds.nodup hsub).length_le

/-- The link that is found is the client's. -/
theorem walk_eq {n : ℕ} {p : Place (ℕ × ℕ) ℕ} (hchain : net.lists.Chain p links)
    (hmap : links.map net.link = cs.map some) (hn : links.length ≤ n) :
    ∃ o, net.walk c n (net.lists.get p) = some o ∧ (o = none → c ∉ cs) ∧
      ∀ x, o = some x → x ∈ links ∧ net.link x = some c := by
  induction links generalizing p cs n with
  | nil =>
    obtain rfl : cs = [] := by simpa using hmap.symm
    have hnone : net.lists.get p = none := hchain
    rw [hnone]
    exact ⟨none, by cases n <;> rfl, by simp, by simp⟩
  | cons y links ih =>
    obtain ⟨hget, -, hrest⟩ := hchain
    cases cs with
    | nil => simp at hmap
    | cons d cs =>
      obtain ⟨hy, hmap⟩ := List.cons.inj hmap
      cases n with
      | zero => simp at hn
      | succ n =>
        rw [hget, walk, hy, Option.bind_some]
        by_cases hd : d = c
        · rw [if_pos hd]
          refine ⟨some y, rfl, by simp, ?_⟩
          rintro x ⟨⟩
          exact ⟨List.mem_cons_self, hd ▸ hy⟩
        · rw [if_neg hd]
          obtain ⟨o, ho, hnone, hsome⟩ := ih hrest hmap (by simpa using hn)
          refine ⟨o, ho, fun heq => ?_, fun x hx => ?_⟩
          · simpa [Ne.symm hd] using hnone heq
          · exact ⟨List.mem_cons_of_mem y (hsome x hx).1, (hsome x hx).2⟩

theorem Sound.findInSendFlag (h : net.Sound roster) (hflg : flg < net.slots.length) :
    ∃ o, net.findInSendFlag flg c = some o ∧ (o = none → c ∉ roster flg) ∧
      ∀ x, o = some x → net.link x = some c ∧
        ∃ links, net.lists.Holds (net.base, flg) links ∧
          links.map net.link = (roster flg).map some ∧ x ∈ links := by
  obtain ⟨⟨links, hholds, hmap⟩, -, -⟩ := h.reads flg hflg
  obtain ⟨o, ho, hnone, hsome⟩ := walk_eq hholds hmap (h.length_le hholds hmap)
  exact ⟨o, ho, hnone, fun x hx => ⟨(hsome x hx).2, links, hholds, hmap, (hsome x hx).1⟩⟩

/-! ### Removing a link -/

/-- Where each client has one link, its link goes with it. -/
theorem map_erase {f : ℕ → Option ℕ} (hmap : links.map f = cs.map some) (hcs : cs.Nodup)
    (hx : x ∈ links) (hc : f x = some c) : (links.erase x).map f = (cs.erase c).map some := by
  induction links generalizing cs with
  | nil => cases hx
  | cons y links ih =>
    cases cs with
    | nil => simp at hmap
    | cons d cs =>
      obtain ⟨hy, hmap⟩ := List.cons.inj hmap
      obtain ⟨hd, hcs⟩ := List.nodup_cons.mp hcs
      by_cases hyx : y = x
      · subst hyx
        obtain rfl : d = c := Option.some.inj (hy.symm.trans hc)
        rwa [List.erase_cons_head, List.erase_cons_head]
      · have hx : x ∈ links := by
          rcases List.mem_cons.mp hx with heq | hx
          · exact absurd heq.symm hyx
          · exact hx
        have hdc : d ≠ c := by
          rintro rfl
          have hmem : some d ∈ cs.map some := hmap ▸ hc ▸ List.mem_map_of_mem hx
          exact hd (by simpa using hmem)
        rw [List.erase_cons_tail (by simpa using hyx), List.erase_cons_tail (by simpa using hdc),
          List.map_cons, List.map_cons, hy, ih hmap hcs hx]

/-- The links of a list lie where the array and the other links are. -/
theorem placed_of_holds (hflg : flg < net.slots.length)
    (hholds : net.lists.Holds (net.base, flg) links) (hmap : links.map net.link = cs.map some)
    (hx : x ∈ links) :
    net.placed (net.lists.prev x) = true ∧ ∀ y, net.lists.next x = some y → y ∈ links := by
  refine ⟨?_, fun y hy => Backlist.Chain.next_mem hholds hx hy⟩
  rcases Backlist.Chain.prev_cases hholds hx with hprev | ⟨y, hy, hprev⟩
  · simp [hprev, FlagNet.placed, hflg]
  · obtain ⟨d, -, hd⟩ := link_of_mem hmap hy
    simp [hprev, FlagNet.placed, hd]

theorem Sound.removeLink (h : net.Sound roster) (hflg : flg < net.slots.length)
    (hholds : net.lists.Holds (net.base, flg) links)
    (hmap : links.map net.link = (roster flg).map some) (hx : x ∈ links)
    (hc : net.link x = some c) :
    ∃ net', net.removeLink x = some net' ∧ SameArray net net' ∧
      net'.Sound (Function.update roster flg ((roster flg).erase c)) := by
  obtain ⟨hplaced, hnext⟩ := placed_of_holds hflg hholds hmap hx
  have hall : (net.lists.next x).all (fun y => (net.link y).isSome) = true := by
    refine Option.all_eq_true _ _ |>.mpr fun y hy => ?_
    obtain ⟨d, -, hd⟩ := link_of_mem hmap (hnext y hy)
    simp [hd]
  have hlink : ∀ l : List ℕ, x ∉ l →
      l.map (Function.update net.link x none) = l.map net.link := by
    intro l hl
    refine List.map_congr_left fun y hy => Function.update_of_ne ?_ ..
    rintro rfl
    exact hl hy
  rw [FlagNet.removeLink, hc, hplaced, hall]
  refine ⟨_, rfl, ⟨rfl, rfl, rfl, rfl⟩, h.safe, fun i hi => ?_, fun y hy => ?_, h.slots⟩
  · obtain ⟨⟨links', hholds', hmap'⟩, hnodup', hclient'⟩ := h.reads i hi
    by_cases hif : i = flg
    · subst hif
      rw [Function.update_self]
      refine ⟨⟨links.erase x, hholds.remove hx, ?_⟩, hnodup'.erase c, fun d hd => ?_⟩
      · dsimp only
        rw [hlink _ hholds.nodup.not_mem_erase]
        exact map_erase hmap hnodup' hx hc
      · exact hclient' d (List.mem_of_mem_erase hd)
    · rw [Function.update_of_ne hif]
      have hne : (net.base, i) ≠ (net.base, flg) := by simpa using hif
      refine ⟨⟨links', hholds'.remove_of_ne hholds hne hx, ?_⟩, hnodup', hclient'⟩
      dsimp only
      rw [hlink _ fun hx' => hne (hholds'.eq_of_mem hholds hx' hx), hmap']
  · refine h.below y ?_
    by_cases hyx : y = x
    · subst hyx
      simp at hy
    · simpa [Function.update_of_ne hyx] using hy

theorem Sound.removeFromSendFlag (h : net.Sound roster) (hflg : flg < net.slots.length)
    (force : Bool) :
    ∃ net', net.removeFromSendFlag flg c force = some net' ∧ SameArray net net' ∧
      net'.Sound (if net.releases flg force then
        Function.update roster flg ((roster flg).erase c) else roster) := by
  obtain ⟨o, ho, hnone, hsome⟩ := h.findInSendFlag (c := c) hflg
  have hf : net.slots[flg]? = some net.slots[flg] := List.getElem?_eq_getElem hflg
  rw [FlagNet.removeFromSendFlag, ho, Option.bind_some, hf, Option.bind_some, releases, hf,
    Option.any_some]
  by_cases hkeep : (!force && net.slots[flg].flags &&& SEND_LEVEL_CANTCHANGE != 0) = true
  · rw [if_pos hkeep, if_neg (by cases force <;> simp_all)]
    exact ⟨net, rfl, .refl net, h⟩
  · rw [if_neg hkeep, if_pos (by cases force <;> simp_all)]
    cases o with
    | none =>
      rw [List.erase_of_not_mem (hnone rfl), Function.update_eq_self]
      exact ⟨net, rfl, .refl net, h⟩
    | some x =>
      obtain ⟨hc, links, hholds, hmap, hx⟩ := hsome x rfl
      exact h.removeLink hflg hholds hmap hx hc

/-! ### Emptying a list -/

theorem Lists.first_eq_none (h : net.Lists i []) : net.lists.first (net.base, i) = none := by
  obtain ⟨links, hholds, hmap⟩ := h
  obtain rfl : links = [] := by simpa using hmap
  exact hholds

theorem Sound.emptyList (h : net.Sound roster) (hflg : flg < net.slots.length) {n : ℕ}
    (hn : (roster flg).length ≤ n) :
    ∃ net', FlagNet.emptyList flg n net = some net' ∧ SameArray net net' ∧
      net'.Sound (Function.update roster flg []) := by
  induction n generalizing net roster with
  | zero =>
    have hnil : roster flg = [] := by simpa using hn
    have hfirst := (hnil ▸ (h.reads flg hflg).1).first_eq_none
    rw [FlagNet.emptyList, hfirst, ← hnil, Function.update_eq_self]
    exact ⟨net, rfl, .refl net, h⟩
  | succ n ih =>
    obtain ⟨⟨links, hholds, hmap⟩, hnodup, -⟩ := h.reads flg hflg
    cases links with
    | nil =>
      have hnil : roster flg = [] := by simpa using hmap.symm
      have hfirst : net.lists.first (net.base, flg) = none := hholds
      rw [FlagNet.emptyList, hfirst, ← hnil, Function.update_eq_self]
      exact ⟨net, rfl, .refl net, h⟩
    | cons x links =>
      have hfirst : net.lists.first (net.base, flg) = some x := hholds.1
      obtain ⟨d, hd, hlink⟩ := link_of_mem hmap (List.mem_cons_self (a := x))
      obtain ⟨net₁, hremove, hsame, hsound⟩ :=
        h.removeLink hflg hholds hmap List.mem_cons_self hlink
      have hlen : (Function.update roster flg ((roster flg).erase d) flg).length ≤ n := by
        rw [Function.update_self, List.length_erase_of_mem hd]
        omega
      obtain ⟨net₂, hempty, hsame', hsound'⟩ := ih hsound (by rw [hsame.slots]; exact hflg) hlen
      rw [FlagNet.emptyList, hfirst]
      dsimp only
      rw [hremove, Option.bind_some]
      rw [Function.update_idem] at hsound'
      exact ⟨net₂, hempty, hsame.trans hsame', hsound'⟩

/-- A slot is written: who was in it is not any more. -/
theorem Sound.setSlot {f : SendFlag} (h : net.Sound roster) (hf : f.Numbered flg) :
    (net.setSlot flg f).Sound (Function.update roster flg []) where
  safe := h.safe
  below := h.below
  slots i g hg := by
    have hg' : (net.slots.set flg f)[i]? = some g := hg
    by_cases hi : flg = i
    · subst hi
      rw [List.getElem?_set_self'] at hg'
      obtain ⟨-, -, rfl⟩ := Option.map_eq_some_iff.mp hg'
      exact hf
    · rw [List.getElem?_set_ne hi] at hg'
      exact h.slots i g hg'
  reads i hi := by
    by_cases hif : i = flg
    · subst hif
      rw [Function.update_self]
      exact ⟨⟨[],
        Backlist.get_put_self (L := net.lists) (p := .head (net.base, i)) (o := none), rfl⟩,
        List.nodup_nil, by simp⟩
    · have hne : Place.head (net.base, i) ≠ Place.head (ι := ℕ) (net.base, flg) := by
        simpa using hif
      rw [Function.update_of_ne hif]
      obtain ⟨⟨links, hholds, hmap⟩, hrest⟩ := h.reads i (by simpa [FlagNet.setSlot] using hi)
      exact ⟨⟨links, hholds.congr (Backlist.get_put_of_ne hne) fun _ _ => ⟨rfl, rfl⟩, hmap⟩, hrest⟩

theorem numbered_unusedSlot : unusedSlot.Numbered i := .inl ⟨rfl, rfl⟩

theorem Sound.destroySendFlag (h : net.Sound roster) (hflg : flg < net.slots.length) :
    ∃ net', net.destroySendFlag flg = some net' ∧
      net'.Sound (Function.update roster flg []) := by
  obtain ⟨⟨links, hholds, hmap⟩, -, -⟩ := h.reads flg hflg
  have hlen : (roster flg).length ≤ net.fresh := by
    rw [← List.length_map (f := some), ← hmap, List.length_map]
    exact h.length_le hholds hmap
  obtain ⟨net₁, hempty, hsame, hsound⟩ := h.emptyList hflg hlen
  rw [FlagNet.destroySendFlag, hempty, ← Function.update_idem (a := flg) [] [] roster]
  exact ⟨_, rfl, hsound.setSlot numbered_unusedSlot⟩

/-! ### Adding a client -/

theorem Sound.insertLink {r : FlagClient} (h : net.Sound roster) (hflg : flg < net.slots.length)
    (hc : c ∉ roster flg) (hr : net.client c = some r) (hmine : r.mine = true) :
    (net.insertLink flg c).Sound (Function.update roster flg (c :: roster flg)) where
  safe := h.safe
  slots := h.slots
  below x hx := by
    have hx' : (Function.update net.link net.fresh (some c) x).isSome = true := hx
    show x < net.fresh + 1
    by_cases hxf : x = net.fresh
    · omega
    · rw [Function.update_of_ne hxf] at hx'
      have hlt := h.below x hx'
      omega
  reads i hi := by
    -- the new link is in no list yet
    have hnew : ∀ {links cs : List ℕ}, links.map net.link = cs.map some → net.fresh ∉ links := by
      intro links cs hmap hmem
      obtain ⟨d, -, hd⟩ := link_of_mem hmap hmem
      exact absurd (h.below _ (by simp [hd])) (lt_irrefl _)
    have hlink : ∀ {links cs : List ℕ}, links.map net.link = cs.map some →
        links.map (Function.update net.link net.fresh (some c)) = cs.map some := by
      intro links cs hmap
      rw [← hmap]
      refine List.map_congr_left fun y hy => Function.update_of_ne ?_ ..
      rintro rfl
      exact hnew hmap hy
    obtain ⟨⟨links, hholds, hmap⟩, hnodup, hclient⟩ := h.reads flg hflg
    by_cases hif : i = flg
    · subst hif
      rw [Function.update_self]
      refine ⟨⟨net.fresh :: links, hholds.insertHead (hnew hmap), ?_⟩,
        List.nodup_cons.mpr ⟨hc, hnodup⟩, fun d hd => ?_⟩
      · show Function.update net.link net.fresh (some c) net.fresh ::
          links.map (Function.update net.link net.fresh (some c)) = _
        rw [hlink hmap, Function.update_self, List.map_cons]
      · rcases List.mem_cons.mp hd with rfl | hd
        · exact ⟨r, hr, hmine⟩
        · exact hclient d hd
    · rw [Function.update_of_ne hif]
      obtain ⟨⟨links', hholds', hmap'⟩, hrest⟩ := h.reads i hi
      have hne : (net.base, i) ≠ (net.base, flg) := by simpa using hif
      exact ⟨⟨links', hholds'.insertHead_of_ne hholds hne (hnew hmap'), hlink hmap'⟩, hrest⟩

theorem Sound.addToSendFlag (h : net.Sound roster) (hflg : flg < net.slots.length)
    (hthere : (net.client c).isSome) (force : Bool) :
    ∃ net' err, net.addToSendFlag flg c force = some (net', err) ∧
      net'.Sound (net.rosterAfter roster (.add flg c force)) := by
  obtain ⟨r, hr⟩ := Option.isSome_iff_exists.mp hthere
  obtain ⟨o, ho, hnone, hsome⟩ := h.findInSendFlag (c := c) hflg
  have hf : net.slots[flg]? = some net.slots[flg] := List.getElem?_eq_getElem hflg
  have hadmits : net.admits flg c force = (r.mine && (force || !refuses net.slots[flg] r)) := by
    rw [admits, hr, hf]
    rfl
  rw [FlagNet.addToSendFlag, rosterAfter, hr, Option.bind_some, hadmits]
  cases hmine : r.mine with
  | false => exact ⟨net, -1, rfl, h⟩
  | true =>
    rw [Bool.not_true, if_neg Bool.false_ne_true, ho, Option.bind_some]
    cases o with
    | some x =>
      obtain ⟨hc, links, -, hmap, hx⟩ := hsome x rfl
      have hmem : c ∈ roster flg := by
        obtain ⟨d, hd, hlink⟩ := link_of_mem hmap hx
        obtain rfl := Option.some.inj (hlink.symm.trans hc)
        exact hd
      rw [Option.isSome_some, if_pos rfl, List.contains_iff_mem.mpr hmem, Bool.not_true,
        Bool.and_false, if_neg Bool.false_ne_true]
      exact ⟨net, -1, rfl, h⟩
    | none =>
      have hc : c ∉ roster flg := hnone rfl
      rw [Option.isSome_none, if_neg Bool.false_ne_true, hf, Option.map_some]
      by_cases hrefused : (!force && refuses net.slots[flg] r) = true
      · rw [if_pos hrefused, if_neg (by cases force <;> simp_all)]
        exact ⟨net, ERR_NOPRIVILEGES, rfl, h⟩
      · rw [if_neg hrefused, if_pos (by cases force <;> simp_all)]
        exact ⟨_, 0, rfl, h.insertLink hflg hc hr hmine⟩

end FlagNet

end Ithildin
