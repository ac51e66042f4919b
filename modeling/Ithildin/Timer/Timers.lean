import Ithildin.Lib.Agenda
import Ithildin.Lib.Run
import Mathlib.Data.List.Count
import Mathlib.Algebra.Order.Ring.Int

/-!
# Timers

The list of timers, and `exec_timers` as a step system: while a timer's callback runs it may create,
destroy and adjust timers, any number of them and in any order. The environment decides what every
callback does and what the clock says.

* `Action.exec` is the start of `exec_timers` and its loop up to the first callback;
* `Action.ret` is the return of the callback that runs and the loop up to the next one.

A timer is told from the others by the number of its allocation, `key`: its address, which no other
timer ever has. A state ends the run if the program touches a timer that it has freed. In a `Pass`
only `tep` and `tep2` are the program's, the other fields say what has happened since the call.
-/

namespace Ithildin

namespace Timers

/-- `TIMER_INVALID` -/
def timerInvalid : ℕ := 2 ^ 64 - 1

/-- `TIMER_DEAD` -/
def timerDead : ℤ := -1

/-- `TIMER_REPEAT` -/
def timerRepeat : ℤ := -2

/-- `struct timer_event` -/
structure Timer where
  key : ℕ
  ref : ℕ
  reps : ℤ
  interval : ℤ
  next : ℤ
  callback : ℕ
  udata : ℕ
  deriving DecidableEq

/-- What the functions share: `me.timers`, `me.now`, `timer_refcnt` and `timer_rollover`. -/
structure Queue where
  timers : List Timer
  refcnt : ℕ
  rollover : Bool
  now : ℤ
  /-- The number of allocations so far. -/
  keys : ℕ
  deriving DecidableEq

/-- Before the first timer. -/
def Queue.empty (now : ℤ) : Queue :=
  { timers := [], refcnt := 0, rollover := false, now := now, keys := 0 }

/-! ### The functions -/

/-- `insert_timer` -/
def insertTimer (t : Timer) (timers : List Timer) : List Timer := Agenda.insert (·.next) t timers

/-- `find_timer` -/
def findTimer (ref : ℕ) (timers : List Timer) : Option Timer := timers.find? (·.ref = ref)

/-- `LIST_REMOVE` -/
def removeTimer (key : ℕ) (timers : List Timer) : List Timer := timers.filter (·.key ≠ key)

/-- The search for a reference that no timer has, from `ref` on. -/
def unusedRef (timers : List Timer) : ℕ → ℕ → Option ℕ
  | 0, _ => none
  | n + 1, ref =>
    if (findTimer ref timers).isSome then unusedRef timers n ((ref + 1) % 2 ^ 64) else some ref

/-- The reference for a new timer, `timer_refcnt` and `timer_rollover` after it. One more try than
there are timers finds a reference. -/
def Queue.newRef (q : Queue) : Option (ℕ × ℕ × Bool) :=
  let search := fun refcnt =>
    (unusedRef q.timers (q.timers.length + 1) refcnt).map fun ref => (ref, (ref + 1) % 2 ^ 64, true)
  if q.rollover then search q.refcnt
  else
    let refcnt := (q.refcnt + 1) % 2 ^ 64
    -- the timer is freed and made again, with the references rolled over
    if q.refcnt = timerInvalid then search refcnt else some (q.refcnt, refcnt, refcnt = 0)

/-- The repetitions that a timer is set to. -/
def setReps (reps : ℤ) : ℤ := if reps < 0 then timerRepeat else reps

/-- `create_timer` -/
def Queue.createTimer (q : Queue) (rep interval : ℤ) (callback udata : ℕ) : Option (Queue × ℕ) :=
  q.newRef.map fun (ref, refcnt, rollover) =>
    ({ q with
        timers := insertTimer
          { key := q.keys, ref := ref, reps := setReps rep, interval := interval,
            next := q.now + interval, callback := callback, udata := udata } q.timers
        refcnt := refcnt
        rollover := rollover
        keys := q.keys + 1 }, ref)

/-- `destroy_timer` -/
def Queue.destroyTimer (q : Queue) (ref : ℕ) : Queue :=
  match findTimer ref q.timers with
  | none => q
  | some t => { q with timers := removeTimer t.key q.timers }

/-- A timer set to go off `interval` seconds from now. -/
def Timer.adjusted (t : Timer) (now reps interval : ℤ) : Timer :=
  { t with reps := setReps reps, interval := interval, next := now + interval }

/-- `adjust_timer` -/
def Queue.adjustTimer (q : Queue) (ref : ℕ) (reps interval : ℤ) : Queue :=
  match findTimer ref q.timers with
  | none => q
  | some t => { q with
      timers := insertTimer (t.adjusted q.now reps interval) (removeTimer t.key q.timers) }

/-- The timer as it is put back after its callback has returned. -/
def Timer.again (t : Timer) (now : ℤ) : Timer :=
  { t with
    reps := if t.reps = timerRepeat then timerRepeat else t.reps - 1
    next := if t.next + t.interval < now then now + t.interval else t.next + t.interval }

/-- Has a timer's callback been called for the last time? -/
def Timer.last (t : Timer) : Bool := t.reps ≠ timerRepeat ∧ t.reps - 1 = timerDead

/-- What is done with the timer whose callback has returned. -/
def Queue.afterwards (q : Queue) (t : Timer) : Queue :=
  if t.last then q.destroyTimer t.ref
  else { q with timers := insertTimer (t.again q.now) (removeTimer t.key q.timers) }

/-! ### Running the callbacks -/

/-- A call of `exec_timers` whose callback runs. -/
structure Pass where
  tep : ℕ
  tep2 : Option ℕ
  /-- The timers that were due at the call, and are neither run nor destroyed. -/
  due : List ℕ
  /-- The number of timers at the call. -/
  had : ℕ
  /-- The number of callbacks called. -/
  calls : ℕ
  /-- The times of the timers that have been put on the list since the call. -/
  put : List ℤ
  deriving DecidableEq

structure State where
  q : Queue
  pass : Option Pass
  /-- What the last `exec_timers` has returned. -/
  returned : ℤ
  /-- Has a timer been touched that was freed? -/
  fault : Bool
  /-- The callbacks called: when their timers were due, and the time they were called at. -/
  log : List (ℤ × ℤ)
  /-- The timers that were due at a call and neither run nor destroyed when it returned. -/
  missed : List ℕ
  deriving DecidableEq

/-- Anything that is not in `exec_timers` runs outside it or in a callback. -/
inductive Action
  | create (rep interval : ℤ) (callback udata : ℕ)
  | destroy (ref : ℕ)
  | adjust (ref : ℕ) (reps interval : ℤ)
  /-- The clock is read outside `exec_timers`. -/
  | clock (now : ℤ)
  | exec (now : ℤ)
  | ret (now : ℤ)
  deriving DecidableEq

/-- At the start. -/
def start (now : ℤ) : State :=
  { q := Queue.empty now, pass := none, returned := 0, fault := false, log := [], missed := [] }

namespace State

/-- The loop has ended. -/
def ended (s : State) (p : Pass) : State :=
  { s with
    pass := none
    returned := match s.q.timers with
      | [] => 0
      | t :: _ => t.next - s.q.now
    missed := p.due ++ s.missed }

/-- The head of the loop, with `tep`. -/
def head (s : State) (p : Pass) : Option ℕ → State
  | none => s.ended p
  | some tep =>
    match s.q.timers.find? (·.key = tep) with
    | none => { s with fault := true }
    | some t =>
      if t.next ≤ s.q.now then
        { s with
          pass := some { p with
            tep := tep
            tep2 := (Cursor.behind (·.key) tep s.q.timers).head?.map (·.key)
            due := p.due.filter (· ≠ tep)
            calls := p.calls + 1 }
          log := (t.next, s.q.now) :: s.log }
      else s.ended p

/-- `exec_timers` up to the first callback. -/
def exec (s : State) (now : ℤ) : State :=
  let p : Pass :=
    { tep := 0, tep2 := none, had := s.q.timers.length, calls := 0, put := [],
      due := (s.q.timers.filter (·.next ≤ now)).map (·.key) }
  head { s with q := { s.q with now := now } } p (s.q.timers.head?.map (·.key))

/-- A pass is told of a timer that was put on the list. -/
def noted (s : State) (next : ℤ) : Option Pass :=
  s.pass.map fun p => { p with put := next :: p.put }

/-- A pass is told of a timer that was destroyed. -/
def forgotten (s : State) (key : ℕ) : Option Pass :=
  s.pass.map fun p => { p with due := p.due.filter (· ≠ key) }

/-- The callback has returned and the loop goes on. -/
def ret (s : State) (p : Pass) (now : ℤ) : State :=
  match s.q.timers.find? (·.key = p.tep) with
  | none => { s with fault := true }
  | some t =>
    let q := s.q.afterwards t
    let put := if t.last then p.put else (t.again s.q.now).next :: p.put
    head { s with q := { q with now := now } } { p with put := put } p.tep2

end State

/-- A step. There is none from a state with a fault. -/
def step (s : State) (a : Action) : Option State :=
  if s.fault then none
  else
    match a, s.pass with
    | .create rep interval callback udata, _ =>
      (s.q.createTimer rep interval callback udata).map fun (q, _) =>
        { s with q := q, pass := s.noted (s.q.now + interval) }
    | .destroy ref, _ => some
      { s with
        q := s.q.destroyTimer ref
        pass := match findTimer ref s.q.timers with
          | none => s.pass
          | some t => s.forgotten t.key }
    | .adjust ref reps interval, _ => some
      { s with
        q := s.q.adjustTimer ref reps interval
        pass := if (findTimer ref s.q.timers).isSome then s.noted (s.q.now + interval) else s.pass }
    | .clock now, none => some { s with q := { s.q with now := now } }
    | .exec now, none => some (s.exec now)
    | .ret now, some p => some (s.ret p now)
    | _, _ => none

end Timers

end Ithildin
