import Ithildin.CString
import Ithildin.Event.Hooks
import Ithildin.Lib.Run
import Mathlib.Data.List.Induction
import Mathlib.Logic.Function.Basic

/-!
# Hooks of commands

* `CommandSide`: what `struct command` has for clients, or for servers;
* `commandAddHook`, `commandRemoveHook`: `command_add_hook` and `command_remove_hook`;
* `execHooks`: the hooks that run when a command executes;
* `hooksOf`: the hooks that were added and not removed;
* `hooks_exact_iff`: which calls leave just these to be run.

An event has a number in place of its address, so that an event that was destroyed and one that is
created later differ. The functions return nothing if they use one that was destroyed, or `NULL`.
-/

namespace Ithildin

def COMMAND_FL_HOOKED : UInt32 := 0x0100
def COMMAND_FL_EXCL_HOOK : UInt32 := 0x0200

/-- The `client` or the `server` of a command. -/
structure CommandSide where
  /-- Is there a function? -/
  cmd : Bool
  min : ℕ
  max : ℕ
  flags : UInt32
  /-- In place of the address. -/
  ev : Option ℕ
  deriving DecidableEq

/-- An entry of `ircd.hashes.command`; for an alias, `dll` points to the command. -/
inductive CommandEntry
  | command (id : ℕ)
  | alias (dll : ℕ)
  deriving DecidableEq

/-- The commands, each with a side for clients (`true`) and one for servers, and the events. -/
structure CommandState (F : Type) where
  hash : Bytes → Option CommandEntry
  side : ℕ × Bool → CommandSide
  events : ℕ → Option (Event F)
  /-- The address of the next event. -/
  nextEvent : ℕ
  /-- The address of the next hook. -/
  nextHook : ℕ

namespace CommandState

variable {F : Type}

/-- `find_command`, and the command itself for an alias. -/
def findCommand (s : CommandState F) (name : Bytes) : Option ℕ :=
  (s.hash name).map fun
    | .command id => id
    | .alias dll => dll

/-- `create_event(EVENT_FL_NORETURN)` for one side. -/
def createEvent (s : CommandState F) (slot : ℕ × Bool) : CommandState F :=
  { s with
    side := Function.update s.side slot { s.side slot with ev := some s.nextEvent }
    events := Function.update s.events s.nextEvent (some (Event.create ⟨false, true, false, false⟩))
    nextEvent := s.nextEvent + 1 }

def setFlags (s : CommandState F) (slot : ℕ × Bool) (f : UInt32 → UInt32) : CommandState F :=
  { s with side := Function.update s.side slot { s.side slot with flags := f (s.side slot).flags } }

/-- The event at an address, if there is one. -/
def event (s : CommandState F) (ev : Option ℕ) : Option (ℕ × Event F) :=
  ev.bind fun id => (s.events id).map fun e => (id, e)

section

variable [DecidableEq F]

/-- `add_hook` on the event of a side, whose function is not `NULL`. -/
def addHook (s : CommandState F) (slot : ℕ × Bool) (hook : F) : Option (CommandState F) :=
  (s.event (s.side slot).ev).map fun (id, e) =>
    match e.addHookAfter s.nextHook (some hook) none with
    | none => s
    | some e =>
        { s with
          events := Function.update s.events id (some e)
          nextHook := s.nextHook + 1 }

/-- The branch of `command_add_hook` for a side that has a function. -/
def addTo (s : CommandState F) (slot : ℕ × Bool) (hook : F) (flags : UInt32) :
    Option (CommandState F) :=
  let s := if (s.side slot).ev = none then s.createEvent slot else s
  (s.setFlags slot (· ||| flags)).addHook slot hook

/-- `command_add_hook` and what it returns. -/
def commandAddHook (s : CommandState F) (name : Bytes) (client : Bool) (hook : F)
    (flags : UInt32) : Option (CommandState F × ℤ) :=
  match s.findCommand name with
  | none => some (s, 0)
  | some c =>
      if (s.side (c, client)).cmd then
        (s.addTo (c, client) hook (flags ||| COMMAND_FL_HOOKED)).map fun s => (s, 1)
      else some (s, 0)

/-- The branch of `command_remove_hook`: the event is destroyed with its last hook, and its address
stays. -/
def removeFrom (s : CommandState F) (slot : ℕ × Bool) (hook : F) : Option (CommandState F) :=
  (s.event (s.side slot).ev).map fun (id, e) =>
    let e := (e.removeHook hook).getD e
    if e.numhooks = 0 then
      { s with events := Function.update s.events id none }.setFlags slot
        (· &&& ~~~(COMMAND_FL_HOOKED ||| COMMAND_FL_EXCL_HOOK))
    else { s with events := Function.update s.events id (some e) }

/-- `command_remove_hook`. -/
def commandRemoveHook (s : CommandState F) (name : Bytes) (client : Bool) (hook : F) :
    Option (CommandState F) :=
  match s.findCommand name with
  | none => some s
  | some c => if (s.side (c, client)).cmd then s.removeFrom (c, client) hook else some s

end

/-- The functions that `hook_event` calls; nothing marks a hook meanwhile. -/
def hookEvent : List (Hook F) → List F
  | [] => []
  | hp :: hooks =>
      if hp.deferred || hp.new then hookEvent hooks else hp.function :: hookEvent hooks

/-- The hooks that run when a command is executed. -/
def execHooks (s : CommandState F) (name : Bytes) (client : Bool) : Option (List F) :=
  match s.findCommand name with
  | none => some []
  | some c =>
      if (s.side (c, client)).cmd ∧ (s.side (c, client)).flags &&& COMMAND_FL_HOOKED ≠ 0 then
        (s.event (s.side (c, client)).ev).map fun (_, e) => hookEvent e.hooks
      else some []

/-! ### Calls -/

/-- A call of one of the two functions. -/
inductive HookCall (F : Type)
  | add (name : Bytes) (client : Bool) (hook : F) (flags : UInt32)
  | remove (name : Bytes) (client : Bool) (hook : F)
  deriving DecidableEq

def HookCall.name : HookCall F → Bytes
  | .add name _ _ _ => name
  | .remove name _ _ => name

def HookCall.client : HookCall F → Bool
  | .add _ client _ _ => client
  | .remove _ client _ => client

/-- The side that a call is about, if the command is found and has a function for it. -/
def aim (s : CommandState F) (call : HookCall F) : Option (ℕ × Bool) :=
  ((s.findCommand call.name).map fun c => (c, call.client)).filter fun slot => (s.side slot).cmd

variable [DecidableEq F]

def step (s : CommandState F) : HookCall F → Option (CommandState F)
  | .add name client hook flags => (s.commandAddHook name client hook flags).map Prod.fst
  | .remove name client hook => s.commandRemoveHook name client hook

/-- What a call does to the hooks of the side it is about. -/
def HookCall.change : HookCall F → List F → List F
  | .add _ _ hook _, l => l ++ [hook]
  | .remove _ _ hook, l => l.erase hook

/-- The hooks of a side that were added and not removed, in order. -/
def hooksOf (s : CommandState F) (slot : ℕ × Bool) (calls : List (HookCall F)) : List F :=
  calls.foldl (fun l call => if s.aim call = some slot then call.change l else l) []

/-- A hook was added to a side before. -/
def Hooked (s : CommandState F) (slot : ℕ × Bool) (calls : List (HookCall F)) : Prop :=
  ∃ call ∈ calls, s.aim call = some slot ∧ ∃ name client hook flags,
    call = .add name client hook flags

/-- Where a hook is removed there is one, and where one is added there is one or never was. -/
def Safe (s : CommandState F) (past : List (HookCall F)) (call : HookCall F) : Prop :=
  ∀ slot, s.aim call = some slot → s.hooksOf slot past ≠ [] ∨
    ¬ s.Hooked slot past ∧ ∃ name client hook flags, call = .add name client hook flags

/-- As `add_command` leaves the sides. -/
def Fresh (s : CommandState F) : Prop :=
  ∀ slot, (s.side slot).ev = none ∧ (s.side slot).flags &&& COMMAND_FL_HOOKED = 0

/-- Just the hooks that were added and not removed run, and the flags say if there are any. -/
structure Exact (s₀ : CommandState F) (past : List (HookCall F)) (s : CommandState F) : Prop where
  run : ∀ name client c, s₀.findCommand name = some c →
    s.execHooks name client = some (s₀.hooksOf (c, client) past)
  flag : ∀ slot, (s.side slot).flags &&& COMMAND_FL_HOOKED ≠ 0 ↔ s₀.hooksOf slot past ≠ []

/-! ### Flags and events -/

theorem or_hooked (f g : UInt32) :
    (f ||| (g ||| COMMAND_FL_HOOKED)) &&& COMMAND_FL_HOOKED ≠ 0 := by
  intro h
  have hbit := congrArg (fun w : UInt32 => w.toBitVec.getLsbD 8) h
  simp [COMMAND_FL_HOOKED] at hbit

theorem and_unhooked (f : UInt32) :
    f &&& ~~~(COMMAND_FL_HOOKED ||| COMMAND_FL_EXCL_HOOK) &&& COMMAND_FL_HOOKED = 0 := by
  have hmask : ~~~(COMMAND_FL_HOOKED ||| COMMAND_FL_EXCL_HOOK) &&& COMMAND_FL_HOOKED = 0 := by
    decide
  rw [UInt32.and_assoc, hmask, UInt32.and_zero]

/-- An event that is not being called, with hooks for the functions of a list. -/
structure Settled (next : ℕ) (l : List F) (e : Event F) : Prop where
  onehook : e.flags.onehook = false
  calling : e.calling = false
  numhooks : e.numhooks = l.length
  functions : e.hooks.map (·.function) = l
  unmarked : ∀ h ∈ e.hooks, h.deferred = false ∧ h.new = false
  nodup : (Event.ids e.hooks).Nodup
  lt : ∀ id ∈ Event.ids e.hooks, id < next

variable {next : ℕ} {l : List F} {e : Event F} {hook : F}

omit [DecidableEq F] in
theorem hookEvent_eq {hooks : List (Hook F)}
    (h : ∀ hp ∈ hooks, hp.deferred = false ∧ hp.new = false) :
    hookEvent hooks = hooks.map (·.function) := by
  induction hooks with
  | nil => rfl
  | cons hp hooks ih =>
    obtain ⟨hdeferred, hnew⟩ := h hp List.mem_cons_self
    rw [hookEvent, hdeferred, hnew, ih fun hp' h' => h hp' (List.mem_cons_of_mem _ h')]
    rfl

omit [DecidableEq F] in
theorem settled_create (next : ℕ) :
    Settled next [] (Event.create ⟨false, true, false, false⟩ : Event F) := by
  constructor <;> simp [Event.create, Event.ids]

omit [DecidableEq F] in
theorem Settled.mono {next' : ℕ} (h : Settled next l e) (hle : next ≤ next') :
    Settled next' l e :=
  { h with lt := fun id hid => (h.lt id hid).trans_le hle }

theorem Settled.add (h : Settled next l e) (hook : F) :
    ∃ e', e.addHookAfter next (some hook) none = some e' ∧
      Settled (next + 1) (l ++ [hook]) e' := by
  refine ⟨e.addHookReally next hook e.hooks.length, ?_, ?_⟩
  · simp [Event.addHookAfter, Event.full, Event.afterPos, h.onehook]
  · have hids : ∀ id ∈ Event.ids e.hooks, id ≠ next := fun id hid => (h.lt id hid).ne
    have hlt : ∀ id ∈ Event.ids e.hooks, id < next + 1 :=
      fun id hid => (h.lt id hid).trans (Nat.lt_succ_self next)
    simp only [Event.addHookReally, List.insertIdx_length_self]
    refine ⟨h.onehook, h.calling, ?_, ?_, ?_, ?_, ?_⟩
    · simp [h.numhooks]
    · simp [h.functions]
    · intro hp hmem
      rcases List.mem_append.1 hmem with hmem | hmem
      · exact h.unmarked hp hmem
      · rw [List.mem_singleton.1 hmem]
        exact ⟨rfl, h.calling⟩
    · simp only [Event.ids, List.map_append, List.map_cons, List.map_nil]
      refine List.nodup_append.2 ⟨h.nodup, List.nodup_singleton next, ?_⟩
      intro id hid id' hid'
      rw [List.mem_singleton.1 hid']
      exact hids id hid
    · simp only [Event.ids, List.map_append, List.map_cons, List.map_nil, List.mem_append,
        List.mem_singleton]
      rintro id (hid | rfl)
      · exact hlt id hid
      · exact Nat.lt_succ_self id

/-- The first hook with a function is freed. -/
theorem map_function_filter {hooks : List (Hook F)} {hp : Hook F}
    (hnodup : (Event.ids hooks).Nodup) (hfind : hooks.find? (·.function = hook) = some hp) :
    (hooks.filter (·.id ≠ hp.id)).map (·.function) = (hooks.map (·.function)).erase hook := by
  induction hooks with
  | nil => cases hfind
  | cons h hooks ih =>
    rw [Event.ids, List.map_cons, List.nodup_cons] at hnodup
    obtain ⟨hhead, htail⟩ := hnodup
    by_cases hfunction : h.function = hook
    · obtain rfl : h = hp := by simpa [hfunction] using hfind
      have hrest : hooks.filter (·.id ≠ h.id) = hooks := by
        refine List.filter_eq_self.2 fun h' hmem => ?_
        have hne : h'.id ≠ h.id := fun heq => hhead (heq ▸ List.mem_map_of_mem hmem)
        simpa using hne
      rw [List.filter_cons_of_neg (by simp), hrest, List.map_cons, hfunction, List.erase_cons_head]
    · have hfind' : hooks.find? (·.function = hook) = some hp := by
        simpa [hfunction] using hfind
      have hne : h.id ≠ hp.id := fun heq =>
        hhead (heq ▸ List.mem_map_of_mem (List.mem_of_find?_eq_some hfind'))
      rw [List.filter_cons_of_pos (by simpa using hne), List.map_cons, List.map_cons,
        List.erase_cons_tail (by simpa using hfunction), ih htail hfind']

theorem Settled.remove (h : Settled next l e) (hook : F) :
    Settled next (l.erase hook) ((e.removeHook hook).getD e) := by
  unfold Event.removeHook Event.findHook
  cases hfind : e.hooks.find? (·.function = hook) with
  | none =>
    have hnot : hook ∉ l := by
      rw [← h.functions]
      intro hmem
      obtain ⟨hp, hp', heq⟩ := List.mem_map.1 hmem
      exact absurd heq (by simpa using List.find?_eq_none.1 hfind hp hp')
    rw [List.erase_of_not_mem hnot]
    exact h
  | some hp =>
    have hsublist : (e.hooks.filter (·.id ≠ hp.id)).Sublist e.hooks := List.filter_sublist
    have hmem : hook ∈ l := by
      rw [← h.functions]
      exact List.mem_map.2
        ⟨hp, List.mem_of_find?_eq_some hfind, by simpa using List.find?_some hfind⟩
    simp only [Option.getD_some, h.calling, Bool.false_eq_true, if_false]
    refine ⟨h.onehook, rfl, ?_, ?_, ?_, ?_, ?_⟩
    · have hpos := List.length_pos_of_mem hmem
      change e.numhooks - 1 = _
      rw [h.numhooks, List.length_erase_of_mem hmem]
      omega
    · rw [← h.functions]
      exact map_function_filter h.nodup hfind
    · exact fun hp' h' => h.unmarked hp' (hsublist.mem h')
    · exact h.nodup.sublist (hsublist.map _)
    · exact fun id hid => h.lt id ((hsublist.map _).mem hid)

/-! ### What a call does to one side -/

section

variable {s s' : CommandState F} {slot : ℕ × Bool} {past : List (HookCall F)} {call : HookCall F}

/-- A side that never had a hook, one that has some, and one that has none any more. -/
inductive SideInv (s : CommandState F) (slot : ℕ × Bool) (l : List F) (hooked : Prop) : Prop
  | unused (ev : (s.side slot).ev = none)
      (flag : (s.side slot).flags &&& COMMAND_FL_HOOKED = 0) (hooks : l = []) (never : ¬ hooked)
  | live (id : ℕ) (e : Event F) (ev : (s.side slot).ev = some id) (there : s.events id = some e)
      (settled : Settled s.nextHook l e) (flag : (s.side slot).flags &&& COMMAND_FL_HOOKED ≠ 0)
      (hooks : l ≠ []) (once : hooked)
  | retired (id : ℕ) (ev : (s.side slot).ev = some id) (gone : s.events id = none)
      (flag : (s.side slot).flags &&& COMMAND_FL_HOOKED = 0) (hooks : l = []) (once : hooked)

omit [DecidableEq F] in
theorem SideInv.frame {hooked : Prop} (h : SideInv s slot l hooked)
    (hside : s'.side slot = s.side slot)
    (hevents : ∀ id, (s.side slot).ev = some id → s'.events id = s.events id)
    (hnext : s.nextHook ≤ s'.nextHook) : SideInv s' slot l hooked := by
  cases h with
  | unused ev flag hooks never => exact .unused (hside ▸ ev) (hside ▸ flag) hooks never
  | live id e ev there settled flag hooks once =>
    exact .live id e (hside ▸ ev) ((hevents id ev).trans there) (settled.mono hnext)
      (hside ▸ flag) hooks once
  | retired id ev gone flag hooks once =>
    exact .retired id (hside ▸ ev) ((hevents id ev).trans gone) (hside ▸ flag) hooks once

omit [DecidableEq F] in
theorem event_eq_some {id : ℕ} (hev : (s.side slot).ev = some id) (hthere : s.events id = some e) :
    s.event (s.side slot).ev = some (id, e) := by
  rw [event, hev, Option.bind_some, hthere]
  rfl

omit [DecidableEq F] in
theorem event_eq_none {id : ℕ} (hev : (s.side slot).ev = some id) (hgone : s.events id = none) :
    s.event (s.side slot).ev = none := by
  rw [event, hev, Option.bind_some, hgone]
  rfl

/-- A call changes one side and the event at one address, which is that of the side. -/
structure Changes (slot : ℕ × Bool) (x : CommandSide) (id : ℕ) (v : Option (Event F))
    (s s' : CommandState F) : Prop where
  hash : s'.hash = s.hash
  side : s'.side = Function.update s.side slot x
  events : s'.events = Function.update s.events id v
  cmd : x.cmd = (s.side slot).cmd
  ev : x.ev = some id
  old : (s.side slot).ev = some id ∨ id = s.nextEvent ∧ s.nextEvent < s'.nextEvent
  nextEvent : s.nextEvent ≤ s'.nextEvent
  nextHook : s.nextHook ≤ s'.nextHook

theorem addHook_eq {id : ℕ} (hev : (s.side slot).ev = some id) (hthere : s.events id = some e)
    (hsettled : Settled s.nextHook l e) (hook : F) :
    ∃ e', Settled (s.nextHook + 1) (l ++ [hook]) e' ∧ s.addHook slot hook =
      some { s with
        events := Function.update s.events id (some e')
        nextHook := s.nextHook + 1 } := by
  obtain ⟨e', hadd, hsettled'⟩ := hsettled.add hook
  refine ⟨e', hsettled', ?_⟩
  rw [addHook, event_eq_some hev hthere, Option.map_some]
  dsimp only
  rw [hadd]

/-- The first hook of a side. -/
theorem addTo_unused (hev : (s.side slot).ev = none) (hook : F) (flags : UInt32) :
    ∃ s' e', s.addTo slot hook flags = some s' ∧ Settled s'.nextHook [hook] e' ∧
      Changes slot { s.side slot with
        flags := (s.side slot).flags ||| flags
        ev := some s.nextEvent } s.nextEvent (some e') s s' := by
  obtain ⟨e', hsettled, hadd⟩ :=
    @addHook_eq F _ [] (Event.create ⟨false, true, false, false⟩)
      ((s.createEvent slot).setFlags slot (· ||| flags)) slot s.nextEvent
      (by simp [setFlags, createEvent]) (by simp [setFlags, createEvent])
      (settled_create s.nextHook) hook
  have haddTo : s.addTo slot hook flags =
      ((s.createEvent slot).setFlags slot (· ||| flags)).addHook slot hook := by
    rw [addTo, if_pos hev]
  refine ⟨_, e', haddTo.trans hadd, hsettled, rfl, ?_, ?_, rfl, rfl,
    Or.inr ⟨rfl, Nat.lt_succ_self _⟩, Nat.le_succ _, Nat.le_succ _⟩
  · simp [setFlags, createEvent, Function.update_idem]
  · simp [setFlags, createEvent, Function.update_idem]

/-- A further hook. -/
theorem addTo_live {id : ℕ} (hev : (s.side slot).ev = some id) (hthere : s.events id = some e)
    (hsettled : Settled s.nextHook l e) (hook : F) (flags : UInt32) :
    ∃ s' e', s.addTo slot hook flags = some s' ∧ Settled s'.nextHook (l ++ [hook]) e' ∧
      Changes slot { s.side slot with flags := (s.side slot).flags ||| flags } id (some e')
        s s' := by
  obtain ⟨e', hsettled', hadd⟩ := @addHook_eq F _ l e (s.setFlags slot (· ||| flags)) slot id
    (by simpa [setFlags] using hev) hthere hsettled hook
  have haddTo : s.addTo slot hook flags = (s.setFlags slot (· ||| flags)).addHook slot hook := by
    rw [addTo, if_neg (by simp [hev])]
  exact ⟨_, e', haddTo.trans hadd, hsettled', rfl, rfl, rfl, rfl, hev, Or.inl hev, le_rfl,
    Nat.le_succ _⟩

theorem addTo_retired {id : ℕ} (hev : (s.side slot).ev = some id) (hgone : s.events id = none)
    (hook : F) (flags : UInt32) : s.addTo slot hook flags = none := by
  have hnone := @event_eq_none F (s.setFlags slot (· ||| flags)) slot id
    (by simpa [setFlags] using hev) hgone
  rw [addTo, if_neg (by simp [hev]), addHook, hnone]
  rfl

/-- A hook is removed, and the event with it if it is the last one. -/
theorem removeFrom_live {id : ℕ} (hev : (s.side slot).ev = some id)
    (hthere : s.events id = some e) (hsettled : Settled s.nextHook l e) (hook : F) :
    ∃ s', s.removeFrom slot hook = some s' ∧
      (l.erase hook ≠ [] ∧ (∃ e', Settled s'.nextHook (l.erase hook) e' ∧
          Changes slot (s.side slot) id (some e') s s') ∨
        l.erase hook = [] ∧ Changes slot { s.side slot with flags := (s.side slot).flags &&&
          ~~~(COMMAND_FL_HOOKED ||| COMMAND_FL_EXCL_HOOK) } id none s s') := by
  have hremove := hsettled.remove hook
  have hzero : ((e.removeHook hook).getD e).numhooks = 0 ↔ l.erase hook = [] := by
    rw [hremove.numhooks, Int.natCast_eq_zero, List.length_eq_zero_iff]
  refine ⟨_, by rw [removeFrom, event_eq_some hev hthere, Option.map_some], ?_⟩
  dsimp only
  by_cases hlast : l.erase hook = []
  · rw [if_pos (hzero.2 hlast)]
    exact Or.inr ⟨hlast, rfl, rfl, rfl, rfl, hev, Or.inl hev, le_rfl, le_rfl⟩
  · rw [if_neg (mt hzero.1 hlast)]
    refine Or.inl ⟨hlast, _, hremove, rfl, ?_, rfl, rfl, hev, Or.inl hev, le_rfl, le_rfl⟩
    exact (Function.update_eq_self slot s.side).symm

theorem removeFrom_none (h : s.event (s.side slot).ev = none) (hook : F) :
    s.removeFrom slot hook = none := by
  rw [removeFrom, h]
  rfl

/-! ### Calls in order -/

theorem hooksOf_append (s : CommandState F) (slot : ℕ × Bool) (past : List (HookCall F))
    (call : HookCall F) : s.hooksOf slot (past ++ [call]) =
      if s.aim call = some slot then call.change (s.hooksOf slot past)
      else s.hooksOf slot past := by
  simp [hooksOf, List.foldl_append]

omit [DecidableEq F] in
theorem hooked_append {s : CommandState F} {slot : ℕ × Bool} {past : List (HookCall F)}
    {call : HookCall F} : s.Hooked slot (past ++ [call]) ↔ s.Hooked slot past ∨
      s.aim call = some slot ∧ ∃ name client hook flags, call = .add name client hook flags := by
  simp only [Hooked, List.mem_append, List.mem_singleton]
  constructor
  · rintro ⟨call', hmem | rfl, h⟩
    · exact Or.inl ⟨call', hmem, h⟩
    · exact Or.inr h
  · rintro (⟨call', hmem, h⟩ | h)
    · exact ⟨call', Or.inl hmem, h⟩
    · exact ⟨call, Or.inr rfl, h⟩

/-- What holds after some calls. -/
structure Inv (s₀ : CommandState F) (past : List (HookCall F)) (s : CommandState F) : Prop where
  hash : s.hash = s₀.hash
  cmd : ∀ slot, (s.side slot).cmd = (s₀.side slot).cmd
  ev_inj : ∀ p q id, (s.side p).ev = some id → (s.side q).ev = some id → p = q
  ev_lt : ∀ p id, (s.side p).ev = some id → id < s.nextEvent
  side : ∀ slot, SideInv s slot (s₀.hooksOf slot past) (s₀.Hooked slot past)

variable {s₀ : CommandState F}

theorem Inv.start (h : s₀.Fresh) : Inv s₀ [] s₀ := by
  refine ⟨rfl, fun _ => rfl, ?_, ?_, ?_⟩
  · intro p q id hp
    rw [(h p).1] at hp
    cases hp
  · intro p id hp
    rw [(h p).1] at hp
    cases hp
  · intro slot
    exact .unused (h slot).1 (h slot).2 rfl (by simp [Hooked])

theorem Inv.aim_eq (h : Inv s₀ past s) (call : HookCall F) : s.aim call = s₀.aim call := by
  have hcmd : (fun slot => (s.side slot).cmd) = fun slot => (s₀.side slot).cmd := funext h.cmd
  rw [aim, aim, findCommand, findCommand, h.hash, hcmd]

/-- A call that finds no function changes nothing. -/
theorem Inv.idle (h : Inv s₀ past s) (haim : s₀.aim call = none) :
    s.step call = some s ∧ Inv s₀ (past ++ [call]) s := by
  constructor
  · rw [← h.aim_eq call, aim, Option.filter_eq_none_iff] at haim
    cases call with
    | add name client hook flags =>
      rw [step, commandAddHook]
      change ∀ slot, (s.findCommand name).map (fun c => (c, client)) = some slot → _ at haim
      cases hfind : s.findCommand name with
      | none => rfl
      | some c =>
        have hcmd := haim (c, client) (by rw [hfind]; rfl)
        simp [hcmd]
    | remove name client hook =>
      rw [step, commandRemoveHook]
      change ∀ slot, (s.findCommand name).map (fun c => (c, client)) = some slot → _ at haim
      cases hfind : s.findCommand name with
      | none => rfl
      | some c =>
        have hcmd := haim (c, client) (by rw [hfind]; rfl)
        simp [hcmd]
  · refine { h with side := fun slot => ?_ }
    rw [hooksOf_append, hooked_append, haim]
    simpa using h.side slot

/-- A call that finds one works on its side. -/
theorem Inv.step_eq (h : Inv s₀ past s) {slot : ℕ × Bool} (haim : s₀.aim call = some slot) :
    s.step call = (match call with
      | .add _ _ hook flags => s.addTo slot hook (flags ||| COMMAND_FL_HOOKED)
      | .remove _ _ hook => s.removeFrom slot hook) := by
  rw [← h.aim_eq call, aim, Option.filter_eq_some_iff] at haim
  obtain ⟨hmap, hcmd⟩ := haim
  obtain ⟨c, hfind, rfl⟩ := Option.map_eq_some_iff.1 hmap
  cases call with
  | add name client hook flags =>
    change s.findCommand name = some c at hfind
    rw [step, commandAddHook, hfind]
    dsimp only [HookCall.client] at hcmd ⊢
    rw [if_pos hcmd, Option.map_map]
    exact congrFun Option.map_id _
  | remove name client hook =>
    change s.findCommand name = some c at hfind
    rw [step, commandRemoveHook, hfind]
    exact if_pos hcmd

/-- The other sides keep what they have. -/
theorem Inv.changes (h : Inv s₀ past s) (haim : s₀.aim call = some slot) {x : CommandSide} {id : ℕ}
    {v : Option (Event F)} (hchanges : Changes slot x id v s s')
    (hside : SideInv s' slot (call.change (s₀.hooksOf slot past))
      (s₀.Hooked slot (past ++ [call]))) : Inv s₀ (past ++ [call]) s' := by
  have hothers : ∀ p ≠ slot, s'.side p = s.side p := by
    intro p hp
    rw [hchanges.side, Function.update_of_ne hp]
  have hself : s'.side slot = x := by rw [hchanges.side, Function.update_self]
  -- the address is that of no other side
  have haddress : ∀ p ≠ slot, (s.side p).ev ≠ some id := by
    intro p hp hev
    rcases hchanges.old with hold | ⟨rfl, -⟩
    · exact hp (h.ev_inj p slot id hev hold)
    · exact absurd (h.ev_lt p _ hev) (lt_irrefl _)
  refine ⟨hchanges.hash.trans h.hash, ?_, ?_, ?_, ?_⟩
  · intro p
    rw [← h.cmd p]
    by_cases hp : p = slot
    · rw [hp, hself, hchanges.cmd]
    · rw [hothers p hp]
  · intro p q id' hp hq
    by_cases hps : p = slot <;> by_cases hqs : q = slot
    · rw [hps, hqs]
    · subst hps
      rw [hself, hchanges.ev] at hp
      rw [hothers q hqs, ← hp] at hq
      exact absurd hq (haddress q hqs)
    · subst hqs
      rw [hself, hchanges.ev] at hq
      rw [hothers p hps, ← hq] at hp
      exact absurd hp (haddress p hps)
    · rw [hothers p hps] at hp
      rw [hothers q hqs] at hq
      exact h.ev_inj p q id' hp hq
  · intro p id' hp
    by_cases hps : p = slot
    · subst hps
      rw [hself, hchanges.ev, Option.some.injEq] at hp
      subst hp
      rcases hchanges.old with hold | ⟨rfl, hlt⟩
      · exact (h.ev_lt p id hold).trans_le hchanges.nextEvent
      · exact hlt
    · rw [hothers p hps] at hp
      exact (h.ev_lt p id' hp).trans_le hchanges.nextEvent
  · intro p
    by_cases hps : p = slot
    · subst hps
      rw [hooksOf_append, if_pos haim]
      exact hside
    · have hne : s₀.aim call ≠ some p := by
        rw [haim]
        exact fun heq => hps (Option.some.inj heq).symm
      rw [hooksOf_append, hooked_append, if_neg hne]
      simp only [hne, false_and, or_false]
      refine (h.side p).frame (hothers p hps) ?_ hchanges.nextHook
      intro id' hid'
      rw [hchanges.events, Function.update_of_ne]
      rintro rfl
      exact haddress p hps hid'

/-- A hook is added where there is one, or where there never was one. -/
theorem Inv.add (h : Inv s₀ past s) {name : Bytes} {client : Bool} {flags : UInt32}
    (haim : s₀.aim (.add name client hook flags) = some slot) :
    (s₀.hooksOf slot past ≠ [] ∨ ¬ s₀.Hooked slot past →
      ∃ s', s.step (.add name client hook flags) = some s' ∧
        Inv s₀ (past ++ [.add name client hook flags]) s') ∧
    (¬ (s₀.hooksOf slot past ≠ [] ∨ ¬ s₀.Hooked slot past) →
      s.step (.add name client hook flags) = none) := by
  have hhooked : s₀.Hooked slot (past ++ [.add name client hook flags]) :=
    hooked_append.2 (Or.inr ⟨haim, _, _, _, _, rfl⟩)
  rw [h.step_eq haim]
  cases h.side slot with
  | unused ev flag hooks never =>
    refine ⟨fun _ => ?_, fun hnot => absurd (Or.inr never) hnot⟩
    obtain ⟨s', e', hadd, hsettled, hchanges⟩ :=
      addTo_unused ev hook (flags ||| COMMAND_FL_HOOKED)
    refine ⟨s', hadd, h.changes haim hchanges (.live s.nextEvent e' ?_ ?_ ?_ ?_ ?_ hhooked)⟩
    · rw [hchanges.side, Function.update_self]
    · rw [hchanges.events, Function.update_self]
    · rw [hooks]
      exact hsettled
    · rw [hchanges.side, Function.update_self]
      exact or_hooked _ _
    · simp [HookCall.change]
  | live id e ev there settled flag hooks once =>
    refine ⟨fun _ => ?_, fun hnot => absurd (Or.inl hooks) hnot⟩
    obtain ⟨s', e', hadd, hsettled, hchanges⟩ :=
      addTo_live ev there settled hook (flags ||| COMMAND_FL_HOOKED)
    refine ⟨s', hadd, h.changes haim hchanges (.live id e' ?_ ?_ hsettled ?_ ?_ hhooked)⟩
    · rw [hchanges.side, Function.update_self]
      exact ev
    · rw [hchanges.events, Function.update_self]
    · rw [hchanges.side, Function.update_self]
      exact or_hooked _ _
    · simp [HookCall.change]
  | retired id ev gone flag hooks once =>
    exact ⟨fun hsafe => absurd hsafe (by simp [hooks, once]), fun _ => addTo_retired ev gone _ _⟩

/-- A hook is removed where there is one. -/
theorem Inv.remove (h : Inv s₀ past s) {name : Bytes} {client : Bool}
    (haim : s₀.aim (.remove name client hook) = some slot) :
    (s₀.hooksOf slot past ≠ [] →
      ∃ s', s.step (.remove name client hook) = some s' ∧
        Inv s₀ (past ++ [.remove name client hook]) s') ∧
    (s₀.hooksOf slot past = [] → s.step (.remove name client hook) = none) := by
  rw [h.step_eq haim]
  cases h.side slot with
  | unused ev flag hooks never =>
    exact ⟨fun hsafe => absurd hooks hsafe, fun _ => removeFrom_none (by rw [event, ev]; rfl) hook⟩
  | live id e ev there settled flag hooks once =>
    refine ⟨fun _ => ?_, fun hnot => absurd hnot hooks⟩
    have hhooked : s₀.Hooked slot (past ++ [.remove name client hook]) :=
      hooked_append.2 (Or.inl once)
    obtain ⟨s', hremove, ⟨hleft, e', hsettled, hchanges⟩ | ⟨hlast, hchanges⟩⟩ :=
      removeFrom_live ev there settled hook
    · refine ⟨s', hremove, h.changes haim hchanges (.live id e' ?_ ?_ hsettled ?_ hleft hhooked)⟩
      · rw [hchanges.side, Function.update_self]
        exact ev
      · rw [hchanges.events, Function.update_self]
      · rw [hchanges.side, Function.update_self]
        exact flag
    · refine ⟨s', hremove, h.changes haim hchanges (.retired id ?_ ?_ ?_ hlast hhooked)⟩
      · rw [hchanges.side, Function.update_self]
        exact ev
      · rw [hchanges.events, Function.update_self]
      · rw [hchanges.side, Function.update_self]
        exact and_unhooked _
  | retired id ev gone flag hooks once =>
    exact ⟨fun hsafe => absurd hooks hsafe, fun _ => removeFrom_none (event_eq_none ev gone) hook⟩

/-- A call goes through exactly if it is safe. -/
theorem Inv.step (h : Inv s₀ past s) (call : HookCall F) :
    (s₀.Safe past call → ∃ s', s.step call = some s' ∧ Inv s₀ (past ++ [call]) s') ∧
      (¬ s₀.Safe past call → s.step call = none) := by
  cases haim : s₀.aim call with
  | none =>
    refine ⟨fun _ => ⟨s, h.idle haim⟩, fun hnot => absurd ?_ hnot⟩
    intro slot hslot
    rw [haim] at hslot
    cases hslot
  | some slot =>
    have hsafe : s₀.Safe past call ↔ s₀.hooksOf slot past ≠ [] ∨
        ¬ s₀.Hooked slot past ∧ ∃ name client hook flags, call = .add name client hook flags := by
      rw [Safe, haim]
      simp
    cases call with
    | add name client hook flags =>
      simp only [HookCall.add.injEq, exists_and_left, exists_eq', and_true] at hsafe
      rw [hsafe]
      exact h.add haim
    | remove name client hook =>
      simp only [reduceCtorEq, exists_false, and_false, or_false] at hsafe
      rw [hsafe, not_not]
      exact h.remove haim

/-- A side without a function has no hooks. -/
theorem hooksOf_eq_nil (hcmd : (s₀.side slot).cmd = false) (past : List (HookCall F)) :
    s₀.hooksOf slot past = [] := by
  induction past using List.reverseRecOn with
  | nil => rfl
  | append_singleton past call ih =>
    have haim : s₀.aim call ≠ some slot := by
      intro haim
      have hsome := (Option.filter_eq_some_iff.1 haim).2
      rw [hcmd] at hsome
      cases hsome
    rw [hooksOf_append, if_neg haim, ih]

theorem Inv.exact (h : Inv s₀ past s) : Exact s₀ past s := by
  have hflag : ∀ slot, (s.side slot).flags &&& COMMAND_FL_HOOKED ≠ 0 ↔
      s₀.hooksOf slot past ≠ [] := by
    intro slot
    cases h.side slot with
    | unused ev flag hooks never => simp [flag, hooks]
    | live id e ev there settled flag hooks once => simp [flag, hooks]
    | retired id ev gone flag hooks once => simp [flag, hooks]
  refine ⟨fun name client c hfind => ?_, hflag⟩
  have hfind' : s.findCommand name = some c := by
    rw [← hfind, findCommand, findCommand, h.hash]
  rw [execHooks, hfind']
  dsimp only
  by_cases hruns : (s.side (c, client)).cmd ∧ (s.side (c, client)).flags &&& COMMAND_FL_HOOKED ≠ 0
  · rw [if_pos hruns]
    cases h.side (c, client) with
    | unused ev flag hooks never => exact absurd flag hruns.2
    | live id e ev there settled flag hooks once =>
      rw [event_eq_some ev there, Option.map_some, hookEvent_eq settled.unmarked,
        settled.functions]
    | retired id ev gone flag hooks once => exact absurd flag hruns.2
  · rw [if_neg hruns]
    by_cases hcmd : (s.side (c, client)).cmd
    · have hnone : ¬ s₀.hooksOf (c, client) past ≠ [] :=
        fun hsome => hruns ⟨hcmd, (hflag (c, client)).2 hsome⟩
      rw [not_not.1 hnone]
    · rw [hooksOf_eq_nil]
      rw [← h.cmd]
      simpa using hcmd

/-- Safe calls go through. -/
theorem inv_of_safe (h₀ : s₀.Fresh) {calls : List (HookCall F)}
    (h : ∀ before call behind, calls = before ++ call :: behind → s₀.Safe before call) :
    ∃ s, Run.run step s₀ calls = some s ∧ Inv s₀ calls s := by
  induction calls using List.reverseRecOn with
  | nil => exact ⟨s₀, rfl, Inv.start h₀⟩
  | append_singleton calls call ih =>
    obtain ⟨s, hrun, hs⟩ := ih fun before call' behind heq =>
      h before call' (behind ++ [call]) (by rw [heq]; simp)
    obtain ⟨s', hstep, hs'⟩ := (hs.step call).1 (h calls call [] rfl)
    refine ⟨s', ?_, hs'⟩
    rw [Run.run_append, hrun, Option.bind_some, Run.run, hstep]
    rfl

/-- Calls that go through are safe. -/
theorem safe_call_of_run (h₀ : s₀.Fresh) {calls : List (HookCall F)} {s : CommandState F}
    (hrun : Run.run step s₀ calls = some s) :
    ∀ before call behind, calls = before ++ call :: behind → s₀.Safe before call := by
  induction calls using List.reverseRecOn generalizing s with
  | nil =>
    intro before call behind heq
    simp at heq
  | append_singleton calls last ih =>
    rw [Run.run_append, Option.bind_eq_some_iff] at hrun
    obtain ⟨s₁, hrun₁, hlast⟩ := hrun
    have hsafe := ih hrun₁
    obtain ⟨s₁', hrun₁', hinv⟩ := inv_of_safe h₀ hsafe
    obtain rfl : s₁ = s₁' := Option.some.inj (hrun₁.symm.trans hrun₁')
    intro before call behind heq
    rcases List.eq_nil_or_concat behind with rfl | ⟨behind, last', rfl⟩
    · obtain ⟨rfl, rfl⟩ : calls = before ∧ last = call := by simpa using heq
      by_contra hnot
      rw [Run.run, (hinv.step last).2 hnot] at hlast
      cases hlast
    · have hsplit : calls ++ [last] = (before ++ call :: behind) ++ [last'] := by
        rw [heq]
        simp
      exact hsafe before call behind (List.append_inj' hsplit rfl).1

/-- The hooks that run are those that were added and not removed, and no destroyed event is used,
exactly as long as no hook is removed where none is, and none is added where the last one was
removed. -/
theorem hooks_exact_iff (h₀ : s₀.Fresh) (calls : List (HookCall F)) :
    (∀ before behind, calls = before ++ behind →
      ∃ s, Run.run step s₀ before = some s ∧ Exact s₀ before s) ↔
    ∀ before call behind, calls = before ++ call :: behind → s₀.Safe before call := by
  constructor
  · intro h
    obtain ⟨s, hrun, -⟩ := h calls [] (by simp)
    exact safe_call_of_run h₀ hrun
  · intro h before behind heq
    have hsafe : ∀ before' call behind', before = before' ++ call :: behind' →
        s₀.Safe before' call := by
      rintro before' call behind' rfl
      exact h before' call (behind' ++ behind) (by rw [heq]; simp)
    obtain ⟨s, hrun, hs⟩ := inv_of_safe h₀ hsafe
    exact ⟨s, hrun, hs.exact⟩

end

/-- `PRIVMSG` with the alias `MSG`. -/
def privmsg : CommandState ℕ where
  hash name :=
    if name = bytes "PRIVMSG" then some (.command 0)
    else if name = bytes "MSG" then some (.alias 0) else none
  side _ := ⟨true, 2, 2, 0, none⟩
  events _ := none
  nextEvent := 0
  nextHook := 0

theorem hooks_exact_iff_privmsg :
    (∀ before behind, [HookCall.add (bytes "MSG") true 7 0] = before ++ behind →
      ∃ s, Run.run step privmsg before = some s ∧ Exact privmsg before s) ↔
    ∀ before call behind, [HookCall.add (bytes "MSG") true 7 0] = before ++ call :: behind →
      privmsg.Safe before call :=
  hooks_exact_iff (fun _ => ⟨rfl, UInt32.zero_and⟩) _

/-- A hook that is removed and added again, as by a module that is loaded again. -/
theorem hooks_exact_fails :
    ¬ ∀ before behind, [HookCall.add (bytes "PRIVMSG") true 7 0,
        .remove (bytes "PRIVMSG") true 7, .add (bytes "PRIVMSG") true 7 0] = before ++ behind →
      ∃ s, Run.run step privmsg before = some s ∧ Exact privmsg before s := by
  intro h
  obtain ⟨s, hrun, -⟩ := h _ [] (List.append_nil _).symm
  have hnone : (Run.run step privmsg [HookCall.add (bytes "PRIVMSG") true 7 0,
      .remove (bytes "PRIVMSG") true 7, .add (bytes "PRIVMSG") true 7 0]).isNone := by
    decide +kernel
  rw [hrun] at hnone
  cases hnone

end CommandState

end Ithildin
