import Ithildin.Event.Hooks
import Ithildin.Lib.Run
import Mathlib.Data.List.Count

/-!
# Running the hooks of an event

`hook_event` and what its hooks do meanwhile, as a step system over one event. A call of
`hook_event` is a frame; while a hook runs it may add and remove hooks and call `hook_event` on the
event again, which puts another frame on top. The environment decides what every hook does and
returns.

* `Action.call` is the start of a call and its loop up to the first hook that is called;
* `Action.ret` is the return of the hook that runs and the loop up to the next one;
* `Action.finish` is what follows the loop.

A state ends the run if the program touches a hook that it has freed or writes behind the end of
`hookreturns`. Three fields are not in the program: `reg` has the registrations in force, `log` the
calls made, and a frame remembers in `start` which hooks were there when its pass began.
-/

namespace Ithildin

namespace Pass

/-- A call of `hook_event`. -/
structure Frame where
  /-- The hook whose function runs; nothing once the loop is over. -/
  current : Option ℕ
  i : ℕ
  needclean : Bool
  cond : CondState
  /-- The hooks with a lower address were there when the pass began. -/
  start : ℕ
  deriving DecidableEq

/-- What the program does wrong to memory. -/
inductive Fault
  /-- The loop goes on from a hook that has been freed. -/
  | freed
  /-- A result is written behind the end of `hookreturns`. -/
  | overrun
  deriving DecidableEq

/-- A hook's function is called. -/
structure Call where
  hook : ℕ
  /-- Is it registered at that time? -/
  registered : Bool
  /-- Was it on the list when the pass began? -/
  old : Bool
  deriving DecidableEq

structure State (F : Type) where
  ev : Event F
  maxhooks : ℕ
  /-- The calls of `hook_event` that are active, the innermost one first. -/
  frames : List Frame
  /-- The address of the next hook. -/
  next : ℕ
  /-- What the last call on a conditional event has returned. -/
  returned : Option ℤ
  hookNumReturns : ℕ
  fault : Option Fault
  reg : List (ℕ × F)
  log : List Call

/-- What may happen: the running hook, or the program if none runs, calls one of the functions, the
hook returns, or `hook_event` goes on. `grow` is for another event that gets a hook. -/
inductive Action (F : Type)
  | add (func after : Option F)
  | addBefore (func before : Option F)
  | remove (func : F)
  | call
  | ret (v : ℤ)
  | finish
  | grow
  deriving DecidableEq

variable {F : Type}

/-- After `init_hooksystem` and `create_event`. -/
def start (flags : EventFlags) : State F where
  ev := Event.create flags
  maxhooks := 16
  frames := []
  next := 0
  returned := none
  hookNumReturns := 0
  fault := none
  reg := []
  log := []

namespace State

/-- Does code run that may call the functions, a hook or, without any frame, the rest? -/
def running (s : State F) : Bool :=
  match s.frames with
  | [] => true
  | fr :: _ => fr.current.isSome

/-- The call of a hook's function, if the loop has come to one. -/
def logged [DecidableEq F] (s : State F) (start : ℕ) : Option (Hook F) → List Call
  | none => s.log
  | some hp => ⟨hp.id, decide (Event.entry hp ∈ s.reg), decide (hp.id < start)⟩ :: s.log

/-- A hook has been added. -/
def added (s : State F) (func : Option F) : Option (Event F) → State F
  | none => s
  | some ev =>
    { s with
      ev := ev
      next := s.next + 1
      maxhooks := Event.grown s.maxhooks ev.numhooks
      reg := (func.map fun f => (s.next, f)).toList ++ s.reg }

/-- Take a registration of a function out: that of its first hook that has one. -/
def unregister [DecidableEq F] (s : State F) (func : F) : List (ℕ × F) :=
  match s.ev.hooks.find? fun h => h.function = func ∧ Event.entry h ∈ s.reg with
  | some h => s.reg.erase (Event.entry h)
  | none => s.reg.eraseP fun r => r.2 = func

/-- What follows the loop of `hook_event`. -/
def finished (s : State F) (fr : Frame) (rest : List Frame) : State F :=
  { s with
    ev := { s.ev with
      calling := false
      hooks := if fr.needclean then Event.sweep s.ev.hooks else s.ev.hooks }
    frames := rest
    returned := if s.ev.flags.conditional then some (condResult fr.cond) else s.returned
    hookNumReturns := if s.ev.flags.conditional then s.hookNumReturns else fr.i }

/-- The start of `hook_event`. -/
def called [DecidableEq F] (s : State F) : State F :=
  let w := Event.walk false s.ev.hooks
  { s with
    ev := { s.ev with calling := true }
    frames :=
      { current := w.1.map (·.id), i := 0, needclean := w.2,
        cond := condStart s.ev.flags.noreturn, start := s.next } :: s.frames
    log := s.logged s.next w.1 }

/-- A frame's variables for the conditions after a hook has returned `v`, and whether that ends the
loop. -/
def condNext (s : State F) (fr : Frame) (v : ℤ) : CondState × Bool :=
  if s.ev.flags.conditional then condStep fr.cond v else (fr.cond, false)

/-- The loop goes on behind the hook `cur`, which has returned. -/
def passedOn [DecidableEq F] (s : State F) (fr : Frame) (rest : List Frame) (cur : ℕ) (v : ℤ) :
    State F :=
  let once := s.ev.flags.hookonce
  let hooks := if once then Event.defer cur s.ev.hooks else s.ev.hooks
  let w := Event.walk (fr.needclean || once) (Cursor.behind (·.id) cur hooks)
  { s with
    ev := { s.ev with hooks := hooks }
    frames :=
      { fr with
        current := w.1.map (·.id), i := fr.i + 1, needclean := w.2, cond := (s.condNext fr v).1 } ::
        rest
    -- a one-shot hook that has been called is not registered any more
    reg := if once then s.reg.filter (·.1 ≠ cur) else s.reg
    log := State.logged { s with reg := if once then s.reg.filter (·.1 ≠ cur) else s.reg }
      fr.start w.1 }

/-- The return of the hook that runs. -/
def returnedFrom [DecidableEq F] (s : State F) (fr : Frame) (rest : List Frame) (cur : ℕ) (v : ℤ) :
    State F :=
  if s.maxhooks ≤ fr.i then { s with fault := some .overrun }
  else if (s.condNext fr v).2 then
    -- the loop is left without a look at the hook
    { s with frames :=
        { fr with current := none, i := fr.i + 1, cond := (s.condNext fr v).1 } :: rest }
  else if cur ∈ Event.ids s.ev.hooks then s.passedOn fr rest cur v
  else { s with fault := some .freed }

end State

/-- A step. There is none from a state with a fault. -/
def step [DecidableEq F] (s : State F) (a : Action F) : Option (State F) :=
  if s.fault.isSome then none
  else
    match a, s.frames with
    | .grow, _ => some { s with maxhooks := s.maxhooks * 2 }
    | .add func after, _ =>
      if s.running then some (s.added func (s.ev.addHookAfter s.next func after)) else none
    | .addBefore func before, _ =>
      if s.running then some (s.added func (s.ev.addHookBefore s.next func before)) else none
    | .remove func, _ =>
      if s.running then
        some { s with ev := (s.ev.removeHook func).getD s.ev, reg := s.unregister func }
      else none
    | .call, _ => if s.running then some s.called else none
    | .ret v, fr :: rest => fr.current.map fun cur => s.returnedFrom fr rest cur v
    | .finish, fr :: rest => if fr.current.isNone then some (s.finished fr rest) else none
    | _, [] => none

/-! ### What a step does -/

open Event

variable [DecidableEq F]

/-- Does the action add a hook with the function `f`? -/
def Action.Adds (f : F) (a : Action F) : Prop :=
  ∃ at', a = .add (some f) at' ∨ a = .addBefore (some f) at'

/-- The steps by what happens in them. -/
inductive Steps (s : State F) : Action F → State F → Prop
  | grow : Steps s .grow { s with maxhooks := s.maxhooks * 2 }
  | refused (a : Action F) (hadd : ∃ func at', a = .add func at' ∨ a = .addBefore func at') :
      Steps s a s
  | added (a : Action F) (f : F) (n : ℕ) (ha : a.Adds f) (hn : n ≤ s.ev.hooks.length)
      (hfull : s.ev.full = false) :
      Steps s a (s.added (some f) (some (s.ev.addHookReally s.next f n)))
  | notFound (f : F) (hfind : s.ev.findHook f = none) :
      Steps s (.remove f) { s with reg := s.unregister f }
  | removed (f : F) (hp : Hook F) (hfind : s.ev.findHook f = some hp) :
      Steps s (.remove f) { s with
        ev := { s.ev with
          numhooks := s.ev.numhooks - 1
          hooks := if s.ev.calling then defer hp.id s.ev.hooks
            else s.ev.hooks.filter (·.id ≠ hp.id) }
        reg := s.unregister f }
  | called : Steps s .call s.called
  | overrun (v : ℤ) (fr : Frame) (rest : List Frame) (cur : ℕ) (hfr : s.frames = fr :: rest)
      (hcur : fr.current = some cur) (hi : s.maxhooks ≤ fr.i) :
      Steps s (.ret v) { s with fault := some .overrun }
  | stopped (v : ℤ) (fr : Frame) (rest : List Frame) (hfr : s.frames = fr :: rest)
      (hi : fr.i < s.maxhooks) (hstop : (s.condNext fr v).2 = true) :
      Steps s (.ret v) { s with frames :=
        { fr with current := none, i := fr.i + 1, cond := (s.condNext fr v).1 } :: rest }
  | freed (v : ℤ) (fr : Frame) (rest : List Frame) (cur : ℕ) (hfr : s.frames = fr :: rest)
      (hcur : fr.current = some cur) (hstop : (s.condNext fr v).2 = false)
      (hmem : cur ∉ ids s.ev.hooks) : Steps s (.ret v) { s with fault := some .freed }
  | passedOn (v : ℤ) (fr : Frame) (rest : List Frame) (cur : ℕ) (hfr : s.frames = fr :: rest)
      (hcur : fr.current = some cur) (hi : fr.i < s.maxhooks)
      (hstop : (s.condNext fr v).2 = false) (hmem : cur ∈ ids s.ev.hooks) :
      Steps s (.ret v) (s.passedOn fr rest cur v)
  | finished (fr : Frame) (rest : List Frame) (hfr : s.frames = fr :: rest)
      (hcur : fr.current = none) : Steps s .finish (s.finished fr rest)

theorem afterPos_le (hooks : List (Hook F)) (after : Option F) :
    afterPos hooks after ≤ hooks.length := by
  cases after with
  | none => exact le_rfl
  | some after => exact min_le_right _ _

theorem beforePos_le (hooks : List (Hook F)) (before : Option F) :
    beforePos hooks before ≤ hooks.length := by
  cases before with
  | none => exact Nat.zero_le _
  | some before => exact List.findIdx_le_length

theorem steps_of_step {s s' : State F} {a : Action F} (h : step s a = some s') :
    s.fault = none ∧ Steps s a s' := by
  unfold step at h
  split at h
  case isTrue => cases h
  case isFalse hfault =>
  refine ⟨by simpa using hfault, ?_⟩
  split at h
  case h_1 =>
    obtain rfl := Option.some.inj h
    exact .grow
  case h_2 func after =>
    split at h <;> try contradiction
    obtain rfl := Option.some.inj h
    rcases func with _ | f
    · exact .refused _ ⟨_, _, .inl rfl⟩
    · rw [addHookAfter]
      split
      case isTrue => exact .refused _ ⟨_, _, .inl rfl⟩
      case isFalse hfull =>
        exact .added _ f _ ⟨_, .inl rfl⟩ (afterPos_le _ _) (by simpa using hfull)
  case h_3 func before =>
    split at h <;> try contradiction
    obtain rfl := Option.some.inj h
    rcases func with _ | f
    · exact .refused _ ⟨_, _, .inr rfl⟩
    · rw [addHookBefore]
      split
      case isTrue => exact .refused _ ⟨_, _, .inr rfl⟩
      case isFalse hfull =>
        exact .added _ f _ ⟨_, .inr rfl⟩ (beforePos_le _ _) (by simpa using hfull)
  case h_4 f =>
    split at h <;> try contradiction
    obtain rfl := Option.some.inj h
    rw [removeHook]
    rcases hfind : s.ev.findHook f with _ | hp
    · exact .notFound f hfind
    · exact .removed f hp hfind
  case h_5 =>
    split at h <;> try contradiction
    obtain rfl := Option.some.inj h
    exact .called
  case h_6 v fr rest hfr =>
    obtain ⟨cur, hcur, rfl⟩ := Option.map_eq_some_iff.mp h
    rw [State.returnedFrom]
    split
    case isTrue hi => exact .overrun v fr rest cur hfr hcur hi
    case isFalse hi =>
    rw [not_le] at hi
    split
    case isTrue hstop => exact .stopped v fr rest hfr hi hstop
    case isFalse hstop =>
    rw [Bool.not_eq_true] at hstop
    split
    case isTrue hmem => exact .passedOn v fr rest cur hfr hcur hi hstop hmem
    case isFalse hmem => exact .freed v fr rest cur hfr hcur hstop hmem
  case h_7 fr rest hfr =>
    split at h <;> try contradiction
    case isTrue hcur =>
    obtain rfl := Option.some.inj h
    exact .finished fr rest hfr (Option.isNone_iff_eq_none.mp hcur)
  case h_8 => cases h

end Pass

end Ithildin
