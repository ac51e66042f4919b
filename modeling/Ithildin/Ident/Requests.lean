import Ithildin.Ident.Reply
import Ithildin.Lib.Run
import Ithildin.Numbers
import Mathlib.Logic.Function.Basic

/-!
# Ident requests

`ident.c`: a request is made for a connection, asks the server on port 113 of the other side, and is
answered by a call of the hook that it was made with.

* `Idents`, `Act`, `step`: the requests, with their sockets and timers; the hooks that are called
  may start or cancel requests before they return;
* `Sound`: what holds between them;
* `fault_iff`: nothing that is gone is used just if no function is cancelled while it is called;
* `requests_accounted`: then each request waits, was cancelled or was answered once, and there is a
  socket and a timer for each one that waits, and no other.

The addresses of a request, but for the ports that it sends, and the log are left out.
-/

namespace Ithildin

namespace Ident

/-! ### The requests -/

/-- `struct ident_request`, with the ports of its addresses. -/
structure Request where
  lport : ℕ
  rport : ℕ
  func : Option ℕ
  /-- `sock != NULL`. -/
  sock : Bool
  /-- `timer != TIMER_INVALID`. -/
  timer : Bool
  answer : Bytes
  deriving DecidableEq

/-- The socket of a request: what it is monitored for, whether the hook is attached, and what was
written. -/
structure Sock where
  wantRead : Bool
  wantWrite : Bool
  hooked : Bool
  sent : Bytes
  deriving DecidableEq

/-- What runs: a hook that a request is answered with, or the loop of the unloader. -/
inductive Frame
  | answer (r : ℕ)
  | unload
  deriving DecidableEq

/-- A call of the hook of a request. -/
structure Call where
  request : ℕ
  func : ℕ
  answer : Bytes
  deriving DecidableEq

/-- The requests, `ident_requests`, the sockets and timers that exist, each by the number of its
request, and what was done: the functions of all requests that were made, each request having its
place there for a number, the calls, and the functions that were cancelled. -/
structure Idents where
  mem : ℕ → Option Request
  requests : List ℕ
  socks : ℕ → Option Sock
  timers : List ℕ
  frames : List Frame
  made : List ℕ
  calls : List Call
  cancels : List ℕ
  fault : Bool

/-- What `check_ident` comes to. -/
inductive Outcome
  /-- There is no socket. -/
  | noSocket
  /-- The address, `open_socket` or `socket_connect` fails. -/
  | failed
  | connected
  deriving DecidableEq

/-- What the hook of a socket finds. -/
inductive Event
  /-- The socket may be written to, and whether the write succeeds. -/
  | write (ok : Bool)
  /-- `socket_read` gives nothing, a failure, or data. -/
  | nothing
  | failure
  | data (buf : Bytes)
  | error
  deriving DecidableEq

inductive Act
  | check (lport rport func : ℕ) (outcome : Outcome)
  | event (r : ℕ) (ev : Event)
  | expire (r : ℕ)
  | cancel (func : ℕ)
  /-- The hook that runs returns. -/
  | ret
  | unload
  /-- A round of the loop of the unloader. -/
  | round
  deriving DecidableEq

namespace Idents

variable (s : Idents) (r : ℕ)

/-- Memory that is gone is used. -/
def wrong : Idents := { s with fault := true }

/-- `destroy_ident_request`, behind the call of the hook. -/
def release : Idents :=
  match s.mem r with
  | none => s.wrong
  | some irp =>
      { s with
        mem := Function.update s.mem r none
        requests := s.requests.erase r
        timers := if irp.timer then s.timers.erase r else s.timers
        socks := if irp.sock then Function.update s.socks r none else s.socks
        fault := s.fault || irp.sock && (s.socks r).isNone }

/-- `destroy_ident_request`, up to the call of the hook. -/
def destroy : Idents :=
  match s.mem r with
  | none => s.wrong
  | some irp =>
      match irp.func with
      | none => s.release r
      | some func =>
          { s with
            frames := .answer r :: s.frames
            calls := s.calls ++ [⟨r, func, irp.answer⟩] }

/-- A request is written. -/
def put (irp : Request) : Idents := { s with mem := Function.update s.mem r (some irp) }

/-- What is sent to the server. -/
def query (irp : Request) : Bytes :=
  itoa irp.rport ++ bytes " , " ++ itoa irp.lport ++ crlf

/-- `check_ident`; the request is a new one. -/
def checkIdent (lport rport func : ℕ) (outcome : Outcome) : Idents :=
  let r := s.made.length
  let irp : Request := ⟨lport, rport, some func, false, false, []⟩
  let s := { s with made := s.made ++ [func], requests := r :: s.requests }
  match outcome with
  | .noSocket => (s.put r irp).destroy r
  | .failed =>
      let s := { s with socks := Function.update s.socks r (some ⟨false, false, false, []⟩) }
      (s.put r { irp with sock := true }).destroy r
  | .connected =>
      let s := { s with
        socks := Function.update s.socks r (some ⟨true, true, true, []⟩)
        timers := r :: s.timers }
      s.put r { irp with sock := true, timer := true }

/-- `ident_cancel`. -/
def identCancel (func : ℕ) : Idents :=
  s.requests.foldl (fun s r =>
    match s.mem r with
    | none => s.wrong
    | some irp =>
        if irp.func = some func then (s.put r { irp with func := none }).destroy r else s)
    { s with cancels := func :: s.cancels }

/-- `ident_socket_hook`. -/
def socketHook (k : Sock) (ev : Event) : Idents :=
  match s.mem r with
  | none => s.wrong
  | some irp =>
      match ev with
      | .write true =>
          let k := { k with sent := k.sent ++ query irp, wantWrite := false }
          { s with socks := Function.update s.socks r (some k) }
      | .nothing => s
      | .data buf => (s.put r { irp with answer := identAnswer buf }).destroy r
      | .write false | .failure | .error => s.destroy r

/-- `ident_timer_hook`, for a timer that goes. -/
def timerHook : Idents :=
  let s := { s with timers := s.timers.erase r }
  match s.mem r with
  | none => s.wrong
  | some irp => (s.put r { irp with timer := false }).destroy r

end Idents

/-- What a socket is monitored for. -/
def Event.may (k : Sock) : Event → Bool
  | .write _ => k.wantWrite
  | .nothing | .failure => k.wantRead
  | .data buf => k.wantRead && decide (0 < buf.length ∧ buf.length < IDENT_BUFLEN)
  | .error => true

namespace Idents

variable (s : Idents)

/-- Code outside of the module may run. -/
def outside : Prop := s.frames.head? ≠ some .unload

instance : Decidable s.outside := inferInstanceAs (Decidable (_ ≠ _))

/-- A step; sockets and timers have their turns when no hook runs. -/
def step (s : Idents) : Act → Option Idents
  | .check lport rport func outcome =>
      if s.outside then some (s.checkIdent lport rport func outcome) else none
  | .event r ev =>
      match s.socks r with
      | none => none
      | some k =>
          if s.frames = [] ∧ k.hooked = true ∧ ev.may k = true then some (s.socketHook r k ev)
          else none
  | .expire r => if s.frames = [] ∧ r ∈ s.timers then some (s.timerHook r) else none
  | .cancel func => if s.outside then some (s.identCancel func) else none
  | .ret =>
      match s.frames with
      | .answer r :: frames => some ({ s with frames := frames }.release r)
      | _ => none
  | .unload => if s.frames = [] then some { s with frames := [.unload] } else none
  | .round =>
      match s.frames with
      | .unload :: frames =>
          match s.requests with
          | [] => some { s with frames := frames }
          | r :: _ => some (s.destroy r)
      | _ => none

/-- No requests. -/
def start : Idents := ⟨fun _ => none, [], fun _ => none, [], [], [], [], [], false⟩

/-! ### What holds of the requests -/

/-- The calls that a request has had. -/
def callsOf (calls : List Call) (r : ℕ) : List Call := calls.filter fun c => c.request == r

/-- The requests that are answered now. -/
def closingOf : List Frame → List ℕ
  | [] => []
  | .answer r :: frames => r :: closingOf frames
  | .unload :: frames => closingOf frames

def closing : List ℕ := closingOf s.frames

/-- A function is not cancelled while a request is answered with it. -/
def Proper : Act → Prop
  | .cancel func => ∀ r ∈ s.closing, ∀ irp ∈ s.mem r, irp.func ≠ some func
  | _ => True

instance : ∀ a : Act, Decidable (s.Proper a)
  | .cancel func =>
    inferInstanceAs (Decidable (∀ r ∈ s.closing, ∀ irp ∈ s.mem r, irp.func ≠ some func))
  | .check .. | .event .. | .expire _ | .ret | .unload | .round => isTrue trivial

/-- The unloader is called when nothing else runs. -/
def bottomed : List Frame → Prop
  | [] => True
  | .answer _ :: frames => bottomed frames
  | .unload :: frames => frames = []

/-- The requests that wait for an answer. -/
def Pending (r : ℕ) : Prop := r ∈ s.requests ∧ r ∉ s.closing

/-- Nothing that is gone is referred to, each request that waits has a socket and a timer, and there
are no others but of requests that are answered now. -/
structure Sound (s : Idents) : Prop where
  safe : s.fault = false
  nodup : s.requests.Nodup
  mem_iff : ∀ r, (s.mem r).isSome ↔ r ∈ s.requests
  func : ∀ r irp, s.mem r = some irp → irp.func.isSome ∧ irp.func = s.made[r]?
  sock : ∀ r, (s.socks r).isSome ↔ ∃ irp, s.mem r = some irp ∧ irp.sock = true
  timers_nodup : s.timers.Nodup
  timer : ∀ r, r ∈ s.timers ↔ ∃ irp, s.mem r = some irp ∧ irp.timer = true
  closing : ∀ r ∈ s.closing, r ∈ s.requests
  closing_nodup : s.closing.Nodup
  bottom : bottomed s.frames
  pending : ∀ r irp, s.mem r = some irp → r ∉ s.closing → irp.sock = true ∧ irp.timer = true
  /-- A request that waits has had no call. -/
  uncalled : ∀ r, r ∉ s.closing → r ∈ s.requests → callsOf s.calls r = []
  /-- One that is answered now, or is gone, has had one, but if it was cancelled. -/
  called : ∀ r func, s.made[r]? = some func → (r ∈ s.requests → r ∈ s.closing) →
    (∃ answer, callsOf s.calls r = [⟨r, func, answer⟩]) ∨
      r ∉ s.requests ∧ callsOf s.calls r = [] ∧ func ∈ s.cancels
  made : ∀ c ∈ s.calls, c.request < s.made.length

theorem Sound.lt_made {s : Idents} (h : s.Sound) {r : ℕ} (hr : r ∈ s.requests) :
    r < s.made.length := by
  obtain ⟨irp, hirp⟩ := Option.isSome_iff_exists.1 ((h.mem_iff r).2 hr)
  obtain ⟨hsome, hmade⟩ := h.func r irp hirp
  rw [hmade] at hsome
  exact List.getElem?_eq_some_iff.1 (Option.isSome_iff_exists.1 hsome).choose_spec |>.1

theorem sound_start : start.Sound where
  safe := rfl
  nodup := List.nodup_nil
  mem_iff r := iff_of_false Bool.false_ne_true List.not_mem_nil
  func r irp h := by cases h
  sock r := iff_of_false Bool.false_ne_true fun ⟨irp, h, _⟩ => by cases h
  timers_nodup := List.nodup_nil
  timer r := iff_of_false List.not_mem_nil fun ⟨irp, h, _⟩ => by cases h
  closing r h := by cases h
  closing_nodup := List.nodup_nil
  bottom := trivial
  pending r irp h := by cases h
  uncalled r _ h := by cases h
  called r func h := by cases h
  made c h := by cases h

variable {s}

theorem mem_closingOf {frames : List Frame} {r : ℕ} :
    r ∈ closingOf frames ↔ .answer r ∈ frames := by
  induction frames with
  | nil => exact iff_of_false List.not_mem_nil List.not_mem_nil
  | cons fr frames ih =>
    cases fr with
    | answer k => rw [closingOf, List.mem_cons, List.mem_cons, ih, Frame.answer.injEq]
    | unload =>
      rw [closingOf, List.mem_cons, ih]
      exact (or_iff_right Frame.noConfusion).symm

theorem Sound.exists_mem (h : s.Sound) {r : ℕ} (hr : r ∈ s.requests) : ∃ irp func,
    s.mem r = some irp ∧ irp.func = some func ∧ s.made[r]? = some func := by
  obtain ⟨irp, hirp⟩ := Option.isSome_iff_exists.1 ((h.mem_iff r).2 hr)
  obtain ⟨hsome, hmade⟩ := h.func r irp hirp
  obtain ⟨func, hfunc⟩ := Option.isSome_iff_exists.1 hsome
  exact ⟨irp, func, hirp, hfunc, hmade ▸ hfunc⟩

theorem Sound.requests_of_mem (h : s.Sound) {r : ℕ} {irp : Request} (hr : s.mem r = some irp) :
    r ∈ s.requests := (h.mem_iff r).1 (Option.isSome_iff_exists.2 ⟨irp, hr⟩)

theorem callsOf_append (calls : List Call) (c : Call) (k : ℕ) :
    callsOf (calls ++ [c]) k = callsOf calls k ++ if c.request = k then [c] else [] := by
  unfold callsOf
  rw [List.filter_append, List.filter_cons, List.filter_nil]
  simp only [beq_iff_eq]

theorem put_self {r : ℕ} {irp : Request} (h : s.mem r = some irp) : s.put r irp = s := by
  unfold put
  rw [← h, Function.update_eq_self]

/-- A request that waits is answered; its timer may be gone. -/
theorem Sound.answer (h : s.Sound) {r func : ℕ} {irp irp' : Request} {timers : List ℕ}
    (hr : s.mem r = some irp) (hclosing : r ∉ s.closing) (hfunc : irp.func = some func)
    (hfunc' : irp'.func = irp.func) (hsock : irp'.sock = irp.sock) (hnodup : timers.Nodup)
    (htimer : ∀ k, k ∈ timers ↔
      ∃ irp, Function.update s.mem r (some irp') k = some irp ∧ irp.timer = true) :
    (({ s with timers := timers } : Idents).put r irp' |>.destroy r).Sound := by
  have hdestroy : (({ s with timers := timers } : Idents).put r irp').destroy r =
      { s with
        timers := timers
        mem := Function.update s.mem r (some irp')
        frames := .answer r :: s.frames
        calls := s.calls ++ [⟨r, func, irp'.answer⟩] } := by
    unfold destroy put
    dsimp only
    rw [Function.update_self]
    dsimp only
    rw [hfunc', hfunc]
  have hrequest := h.requests_of_mem hr
  -- the other requests are as they were
  have hmem : ∀ k irp'', Function.update s.mem r (some irp') k = some irp'' →
      ∃ irp₀, s.mem k = some irp₀ ∧ irp''.func = irp₀.func ∧ irp''.sock = irp₀.sock ∧
        (k ≠ r → irp'' = irp₀) := by
    intro k irp'' hk
    by_cases hkr : k = r
    · subst hkr
      rw [Function.update_self] at hk
      obtain rfl := Option.some.inj hk
      exact ⟨irp, hr, hfunc', hsock, fun hne => absurd rfl hne⟩
    · rw [Function.update_of_ne hkr] at hk
      exact ⟨irp'', hk, rfl, rfl, fun _ => rfl⟩
  rw [hdestroy]
  exact {
    safe := h.safe
    nodup := h.nodup
    mem_iff := by
      intro k
      dsimp only
      by_cases hkr : k = r
      · subst hkr
        rw [Function.update_self]
        exact iff_of_true rfl hrequest
      · rw [Function.update_of_ne hkr]
        exact h.mem_iff k
    func := by
      intro k irp'' hk
      obtain ⟨irp₀, hk₀, hfunc₀, -, -⟩ := hmem k irp'' hk
      rw [hfunc₀]
      exact h.func k irp₀ hk₀
    sock := by
      intro k
      rw [h.sock k]
      dsimp only
      by_cases hkr : k = r
      · subst hkr
        rw [Function.update_self]
        constructor
        · rintro ⟨irp₀, hk₀, hsock₀⟩
          obtain rfl := Option.some.inj (hr.symm.trans hk₀)
          exact ⟨irp', rfl, hsock.trans hsock₀⟩
        · rintro ⟨irp₀, hk₀, hsock₀⟩
          obtain rfl := Option.some.inj hk₀
          exact ⟨irp, hr, hsock.symm.trans hsock₀⟩
      · rw [Function.update_of_ne hkr]
    timers_nodup := hnodup
    timer := htimer
    closing := by
      intro k hk
      rcases List.mem_cons.1 hk with rfl | hk
      · exact hrequest
      · exact h.closing k hk
    closing_nodup := List.nodup_cons.2 ⟨hclosing, h.closing_nodup⟩
    bottom := h.bottom
    pending := by
      intro k irp'' hk hopen
      obtain ⟨hkr, hk'⟩ := not_or.1 (fun hor => hopen (List.mem_cons.2 hor))
      obtain ⟨irp₀, hk₀, -, -, heq⟩ := hmem k irp'' hk
      rw [heq hkr]
      exact h.pending k irp₀ hk₀ hk'
    uncalled := by
      intro k hopen hk
      obtain ⟨hkr, hk'⟩ := not_or.1 (fun hor => hopen (List.mem_cons.2 hor))
      rw [callsOf_append, if_neg (Ne.symm hkr), List.append_nil]
      exact h.uncalled k hk' hk
    called := by
      intro k func' hmade hk
      rw [callsOf_append]
      by_cases hkr : k = r
      · subst hkr
        have hcalls : callsOf s.calls k = [] := h.uncalled k hclosing hrequest
        obtain ⟨-, hmade'⟩ := h.func k irp hr
        obtain rfl : func' = func := Option.some.inj (hmade.symm.trans (hmade'.symm.trans hfunc))
        refine .inl ⟨irp'.answer, ?_⟩
        rw [if_pos rfl]
        exact congrArg (· ++ _) hcalls
      · rw [if_neg (Ne.symm hkr), List.append_nil]
        refine h.called k func' hmade fun hmem => ?_
        exact (List.mem_cons.1 (hk hmem)).resolve_left hkr
    made := by
      intro c hc
      rcases List.mem_append.1 hc with hc | hc
      · exact h.made c hc
      · obtain rfl := List.mem_singleton.1 hc
        exact h.lt_made hrequest }

/-- A request is freed; it was answered, or its function was cancelled. -/
theorem Sound.drop (h : s.Sound) {r : ℕ} {irp : Request} {frames : List Frame}
    (hr : s.mem r = some irp)
    (hclosing : ∀ k, k ∈ closingOf frames ↔ k ∈ s.closing ∧ k ≠ r)
    (hnodup : (closingOf frames).Nodup) (hbottom : bottomed frames)
    (hcalled : ∀ func, s.made[r]? = some func →
      (∃ answer, callsOf s.calls r = [⟨r, func, answer⟩]) ∨
        callsOf s.calls r = [] ∧ func ∈ s.cancels) :
    Sound { s with
      mem := Function.update s.mem r none
      requests := s.requests.erase r
      timers := if irp.timer then s.timers.erase r else s.timers
      socks := if irp.sock then Function.update s.socks r none else s.socks
      frames := frames } := by
  have hmem : ∀ k irp', Function.update s.mem r none k = some irp' ↔
      s.mem k = some irp' ∧ k ≠ r := by
    intro k irp'
    by_cases hkr : k = r
    · subst hkr
      rw [Function.update_self]
      exact iff_of_false (fun hnone => by cases hnone) fun hne => hne.2 rfl
    · rw [Function.update_of_ne hkr]
      exact (and_iff_left hkr).symm
  have herase : ∀ k, k ∈ s.requests.erase r ↔ k ∈ s.requests ∧ k ≠ r := fun k =>
    h.nodup.mem_erase_iff.trans and_comm
  exact {
    safe := h.safe
    nodup := h.nodup.erase r
    mem_iff := by
      intro k
      rw [herase, ← h.mem_iff, Option.isSome_iff_exists, Option.isSome_iff_exists]
      constructor
      · rintro ⟨irp', hk⟩
        obtain ⟨hk', hkr⟩ := (hmem k irp').1 hk
        exact ⟨⟨irp', hk'⟩, hkr⟩
      · rintro ⟨⟨irp', hk⟩, hkr⟩
        exact ⟨irp', (hmem k irp').2 ⟨hk, hkr⟩⟩
    func := fun k irp' hk => h.func k irp' ((hmem k irp').1 hk).1
    sock := by
      intro k
      dsimp only
      have hothers : (∃ irp', Function.update s.mem r none k = some irp' ∧ irp'.sock = true) ↔
          (s.socks k).isSome ∧ k ≠ r := by
        rw [h.sock k]
        constructor
        · rintro ⟨irp', hk, hsock⟩
          obtain ⟨hk', hkr⟩ := (hmem k irp').1 hk
          exact ⟨⟨irp', hk', hsock⟩, hkr⟩
        · rintro ⟨⟨irp', hk, hsock⟩, hkr⟩
          exact ⟨irp', (hmem k irp').2 ⟨hk, hkr⟩, hsock⟩
      rw [hothers]
      by_cases hkr : k = r
      · subst hkr
        refine iff_of_false ?_ fun hne => hne.2 rfl
        split_ifs with hsock
        · rw [Function.update_self]
          exact Bool.false_ne_true
        · intro hsome
          obtain ⟨irp', hk, hsock'⟩ := (h.sock k).1 hsome
          obtain rfl := Option.some.inj (hr.symm.trans hk)
          exact hsock hsock'
      · rw [and_iff_left hkr]
        split_ifs
        · rw [Function.update_of_ne hkr]
        · rfl
    timers_nodup := by
      dsimp only
      split_ifs
      · exact h.timers_nodup.erase r
      · exact h.timers_nodup
    timer := by
      intro k
      dsimp only
      have hothers : (∃ irp', Function.update s.mem r none k = some irp' ∧ irp'.timer = true) ↔
          k ∈ s.timers ∧ k ≠ r := by
        rw [h.timer k]
        constructor
        · rintro ⟨irp', hk, htimer⟩
          obtain ⟨hk', hkr⟩ := (hmem k irp').1 hk
          exact ⟨⟨irp', hk', htimer⟩, hkr⟩
        · rintro ⟨⟨irp', hk, htimer⟩, hkr⟩
          exact ⟨irp', (hmem k irp').2 ⟨hk, hkr⟩, htimer⟩
      rw [hothers]
      split_ifs with htimer
      · exact h.timers_nodup.mem_erase_iff.trans and_comm
      · refine (and_iff_left_of_imp fun hk => ?_).symm
        rintro rfl
        obtain ⟨irp', hk', htimer'⟩ := (h.timer k).1 hk
        obtain rfl := Option.some.inj (hr.symm.trans hk')
        exact htimer htimer'
    closing := by
      intro k hk
      obtain ⟨hk', hkr⟩ := (hclosing k).1 hk
      exact (herase k).2 ⟨h.closing k hk', hkr⟩
    closing_nodup := hnodup
    bottom := hbottom
    pending := by
      intro k irp' hk hopen
      obtain ⟨hk', hkr⟩ := (hmem k irp').1 hk
      exact h.pending k irp' hk' fun hk'' => hopen ((hclosing k).2 ⟨hk'', hkr⟩)
    uncalled := by
      intro k hopen hk
      obtain ⟨hk', hkr⟩ := (herase k).1 hk
      exact h.uncalled k (fun hk'' => hopen ((hclosing k).2 ⟨hk'', hkr⟩)) hk'
    called := by
      intro k func hmade hk
      dsimp only at hk ⊢
      by_cases hkr : k = r
      · subst hkr
        refine (hcalled func hmade).imp id fun hnone => ⟨fun hk' => ?_, hnone⟩
        exact ((herase k).1 hk').2 rfl
      · refine (h.called k func hmade fun hk' => ?_).imp id fun hnone => ⟨fun hk' => ?_, hnone.2⟩
        · exact ((hclosing k).1 (hk ((herase k).2 ⟨hk', hkr⟩))).1
        · exact hnone.1 ((herase k).1 hk').1
    made := h.made }

/-- What `destroy_ident_request` does when nothing is called, or behind the call. -/
theorem Sound.release_eq (h : s.Sound) {r : ℕ} {irp : Request} (hr : s.mem r = some irp) :
    s.release r = { s with
      mem := Function.update s.mem r none
      requests := s.requests.erase r
      timers := if irp.timer then s.timers.erase r else s.timers
      socks := if irp.sock then Function.update s.socks r none else s.socks } := by
  unfold release
  rw [hr]
  dsimp only
  have hsock : (irp.sock && (s.socks r).isNone) = false := by
    cases hirp : irp.sock with
    | false => rfl
    | true =>
      obtain ⟨k, hk⟩ := Option.isSome_iff_exists.1 ((h.sock r).2 ⟨irp, hr, hirp⟩)
      rw [hk]
      rfl
  rw [hsock, h.safe, Bool.or_false, ← h.safe]

theorem release_frames (s : Idents) (r : ℕ) (frames : List Frame) :
    ({ s with frames := frames } : Idents).release r = { s.release r with frames := frames } := by
  unfold release
  dsimp only
  cases s.mem r <;> rfl

/-- The hook that runs returns. -/
theorem Sound.ret (h : s.Sound) {r : ℕ} {frames : List Frame}
    (hframes : s.frames = .answer r :: frames) :
    (({ s with frames := frames } : Idents).release r).Sound := by
  have hclosing : s.closing = r :: closingOf frames := congrArg closingOf hframes
  have hmem : r ∈ s.closing := hclosing ▸ List.mem_cons_self
  obtain ⟨hfresh, hnodup⟩ := List.nodup_cons.1 (hclosing ▸ h.closing_nodup)
  obtain ⟨irp, func, hr, -, -⟩ := h.exists_mem (h.closing r hmem)
  rw [release_frames, h.release_eq hr]
  have hbottom : bottomed frames := by
    have hall := h.bottom
    rwa [hframes] at hall
  refine h.drop hr (fun k => ?_) hnodup hbottom fun func' hmade => ?_
  · rw [hclosing, List.mem_cons]
    constructor
    · intro hk
      exact ⟨.inr hk, fun hkr => hfresh (hkr ▸ hk)⟩
    · rintro ⟨rfl | hk, hkr⟩
      · exact absurd rfl hkr
      · exact hk
  · exact (h.called r func' hmade fun _ => hmem).imp id fun hgone =>
      absurd (h.closing r hmem) hgone.1

/-- One round of the loop of `ident_cancel`. -/
theorem Sound.cancelOne (h : s.Sound) {r func : ℕ} {irp : Request} (hr : s.mem r = some irp)
    (hopen : r ∉ s.closing) (hfunc : irp.func = some func) (hcancel : func ∈ s.cancels) :
    ((s.put r { irp with func := none }).destroy r).Sound ∧
      ((s.put r { irp with func := none }).destroy r).frames = s.frames ∧
      ((s.put r { irp with func := none }).destroy r).cancels = s.cancels ∧
      ∀ k, k ≠ r → ((s.put r { irp with func := none }).destroy r).mem k = s.mem k := by
  have heq : (s.put r { irp with func := none }).destroy r = { s with
      mem := Function.update s.mem r none
      requests := s.requests.erase r
      timers := if irp.timer then s.timers.erase r else s.timers
      socks := if irp.sock then Function.update s.socks r none else s.socks } := by
    have hrelease := h.release_eq hr
    unfold release at hrelease
    rw [hr] at hrelease
    unfold destroy put
    dsimp only
    rw [Function.update_self]
    dsimp only
    unfold release
    dsimp only
    rw [Function.update_self, Function.update_idem]
    exact hrelease
  have hrequest := h.requests_of_mem hr
  rw [heq]
  refine ⟨h.drop hr (fun k => ?_) h.closing_nodup h.bottom fun func' hmade => .inr ⟨?_, ?_⟩,
    rfl, rfl, fun k hk => Function.update_of_ne hk ..⟩
  · exact ⟨fun hk => ⟨hk, fun hkr => hopen (hkr ▸ hk)⟩, fun hk => hk.1⟩
  · exact h.uncalled r hopen hrequest
  · obtain ⟨-, hmade'⟩ := h.func r irp hr
    obtain rfl : func' = func := Option.some.inj (hmade.symm.trans (hmade'.symm.trans hfunc))
    exact hcancel

theorem Sound.cancels (h : s.Sound) (func : ℕ) :
    Sound { s with cancels := func :: s.cancels } :=
  { h with
    called := fun r func' hmade hr => (h.called r func' hmade hr).imp id fun hgone =>
      ⟨hgone.1, hgone.2.1, List.mem_cons_of_mem func hgone.2.2⟩ }

/-- `ident_cancel`, when no request is answered with the function. -/
theorem Sound.identCancel (h : s.Sound) {func : ℕ} (hproper : s.Proper (.cancel func)) :
    (s.identCancel func).Sound := by
  unfold Idents.identCancel
  have hloop : ∀ (l : List ℕ) (s : Idents), s.Sound → l.Nodup → (∀ k ∈ l, k ∈ s.requests) →
      func ∈ s.cancels →
      (∀ k irp, .answer k ∈ s.frames → s.mem k = some irp → irp.func ≠ some func) →
      (l.foldl (fun s r =>
        match s.mem r with
        | none => s.wrong
        | some irp =>
            if irp.func = some func then (s.put r { irp with func := none }).destroy r else s)
        s).Sound := by
    intro l
    induction l with
    | nil => exact fun s h _ _ _ _ => h
    | cons r l ih =>
      intro s h hnodup hmem hcancel hproper
      obtain ⟨hfresh, hnodup⟩ := List.nodup_cons.1 hnodup
      obtain ⟨irp, hr⟩ := Option.isSome_iff_exists.1 ((h.mem_iff r).2 (hmem r List.mem_cons_self))
      rw [List.foldl_cons, hr]
      dsimp only
      by_cases hfunc : irp.func = some func
      · have hopen : r ∉ s.closing := fun hclosing =>
          hproper r irp (mem_closingOf.1 hclosing) hr hfunc
        obtain ⟨hsound, hframes, hcancels, hothers⟩ := h.cancelOne hr hopen hfunc hcancel
        rw [if_pos hfunc]
        refine ih _ hsound hnodup (fun k hk => ?_) (hcancels ▸ hcancel) fun k irp' hk hk' => ?_
        · have hkr : k ≠ r := fun hkr => hfresh (hkr ▸ hk)
          rw [← hsound.mem_iff, hothers k hkr, h.mem_iff]
          exact hmem k (List.mem_cons_of_mem r hk)
        · have hkr : k ≠ r := by
            rintro rfl
            rw [hframes] at hk
            exact hopen (mem_closingOf.2 hk)
          rw [hframes] at hk
          rw [hothers k hkr] at hk'
          exact hproper k irp' hk hk'
      · rw [if_neg hfunc]
        exact ih s h hnodup (fun k hk => hmem k (List.mem_cons_of_mem r hk)) hcancel hproper
  exact hloop s.requests _ (h.cancels func) h.nodup (fun k hk => hk) List.mem_cons_self
    fun k irp hk hk' => hproper k (mem_closingOf.2 hk) irp hk'

/-- A new request, with its socket and timer, or with a hook that is called already. -/
theorem Sound.add (h : s.Sound) {irp : Request} {func : ℕ} {socks : ℕ → Option Sock}
    {timers : List ℕ} {frames : List Frame} {calls : List Call} (hfunc : irp.func = some func)
    (hsocks : ∀ k, (socks k).isSome = if k = s.made.length then irp.sock else (s.socks k).isSome)
    (htimers : timers = if irp.timer then s.made.length :: s.timers else s.timers)
    (hstate : frames = s.frames ∧ calls = s.calls ∧ irp.sock = true ∧ irp.timer = true ∨
      frames = .answer s.made.length :: s.frames ∧
        calls = s.calls ++ [⟨s.made.length, func, irp.answer⟩]) :
    Sound { s with
      mem := Function.update s.mem s.made.length (some irp)
      requests := s.made.length :: s.requests
      socks := socks
      timers := timers
      frames := frames
      made := s.made ++ [func]
      calls := calls } := by
  have hfresh : s.made.length ∉ s.requests := fun hr => (h.lt_made hr).false
  have hnone : s.mem s.made.length = none := by
    cases hmem : s.mem s.made.length with
    | none => rfl
    | some irp' => exact absurd (h.requests_of_mem hmem) hfresh
  have hopen : s.made.length ∉ s.closing := fun hr => hfresh (h.closing _ hr)
  have hcalls : callsOf s.calls s.made.length = [] := by
    refine List.filter_eq_nil_iff.2 fun c hc heq => ?_
    have hlt := h.made c hc
    rw [eq_of_beq heq] at hlt
    exact hlt.false
  have htimer : s.made.length ∉ s.timers := by
    intro hr
    obtain ⟨irp', hmem, -⟩ := (h.timer _).1 hr
    exact hfresh (h.requests_of_mem hmem)
  have hmade : ∀ k func', (s.made ++ [func])[k]? = some func' →
      s.made[k]? = some func' ∨ k = s.made.length ∧ func' = func := by
    intro k func' hk
    rcases Nat.lt_or_ge k s.made.length with hlt | hge
    · rw [List.getElem?_append_left hlt] at hk
      exact .inl hk
    · rw [List.getElem?_append_right hge] at hk
      have hk' := List.mem_singleton.1 (List.mem_of_getElem? hk)
      have hlt := (List.getElem?_eq_some_iff.1 hk).1
      rw [List.length_singleton] at hlt
      exact .inr ⟨by omega, hk'⟩
  have hclosing : ∀ k, k ∈ closingOf frames → k ∈ s.closing ∨ k = s.made.length := by
    intro k hk
    rcases hstate with ⟨rfl, -⟩ | ⟨rfl, -⟩
    · exact .inl hk
    · exact (List.mem_cons.1 hk).symm
  have hclosing' : ∀ k, k ∈ s.closing → k ∈ closingOf frames := by
    intro k hk
    rcases hstate with ⟨rfl, -⟩ | ⟨rfl, -⟩
    · exact hk
    · exact List.mem_cons_of_mem _ hk
  have hothers : ∀ k, k ≠ s.made.length → callsOf calls k = callsOf s.calls k := by
    intro k hk
    rcases hstate with ⟨-, rfl, -⟩ | ⟨-, rfl⟩
    · rfl
    · rw [callsOf_append, if_neg (Ne.symm hk), List.append_nil]
  exact {
    safe := h.safe
    nodup := List.nodup_cons.2 ⟨hfresh, h.nodup⟩
    mem_iff := by
      intro k
      dsimp only
      rw [List.mem_cons]
      by_cases hk : k = s.made.length
      · subst hk
        rw [Function.update_self]
        exact iff_of_true rfl (.inl rfl)
      · rw [Function.update_of_ne hk, or_iff_right hk]
        exact h.mem_iff k
    func := by
      intro k irp' hk
      dsimp only at hk ⊢
      by_cases hkr : k = s.made.length
      · subst hkr
        rw [Function.update_self] at hk
        obtain rfl := Option.some.inj hk
        rw [List.getElem?_append_right (Nat.le_refl _), Nat.sub_self, hfunc]
        exact ⟨rfl, rfl⟩
      · rw [Function.update_of_ne hkr] at hk
        rw [List.getElem?_append_left (h.lt_made (h.requests_of_mem hk))]
        exact h.func k irp' hk
    sock := by
      intro k
      dsimp only
      rw [hsocks]
      by_cases hk : k = s.made.length
      · subst hk
        rw [if_pos rfl, Function.update_self]
        exact ⟨fun hsock => ⟨irp, rfl, hsock⟩, fun ⟨irp', hirp', hsock⟩ => by
          obtain rfl := Option.some.inj hirp'
          exact hsock⟩
      · rw [if_neg hk, Function.update_of_ne hk]
        exact h.sock k
    timers_nodup := by
      dsimp only
      rw [htimers]
      split_ifs
      · exact List.nodup_cons.2 ⟨htimer, h.timers_nodup⟩
      · exact h.timers_nodup
    timer := by
      intro k
      dsimp only
      rw [htimers]
      by_cases hk : k = s.made.length
      · subst hk
        rw [Function.update_self]
        split_ifs with htrue
        · exact iff_of_true List.mem_cons_self ⟨irp, rfl, htrue⟩
        · refine iff_of_false htimer fun ⟨irp', hirp', htrue'⟩ => htrue ?_
          obtain rfl := Option.some.inj hirp'
          exact htrue'
      · rw [Function.update_of_ne hk, ← h.timer k]
        split_ifs
        · exact List.mem_cons.trans (or_iff_right hk)
        · rfl
    closing := by
      intro k hk
      rcases hclosing k hk with hk' | rfl
      · exact List.mem_cons_of_mem _ (h.closing k hk')
      · exact List.mem_cons_self
    closing_nodup := by
      rcases hstate with ⟨rfl, -⟩ | ⟨rfl, -⟩
      · exact h.closing_nodup
      · exact List.nodup_cons.2 ⟨hopen, h.closing_nodup⟩
    bottom := by
      rcases hstate with ⟨rfl, -⟩ | ⟨rfl, -⟩ <;> exact h.bottom
    pending := by
      intro k irp' hk hk'
      dsimp only at hk
      by_cases hkr : k = s.made.length
      · subst hkr
        rw [Function.update_self] at hk
        obtain rfl := Option.some.inj hk
        rcases hstate with ⟨-, -, hready⟩ | ⟨rfl, -⟩
        · exact hready
        · exact absurd List.mem_cons_self hk'
      · rw [Function.update_of_ne hkr] at hk
        exact h.pending k irp' hk fun hk'' => hk' (hclosing' k hk'')
    uncalled := by
      intro k hk hk'
      dsimp only at hk' ⊢
      by_cases hkr : k = s.made.length
      · subst hkr
        rcases hstate with ⟨-, rfl, -⟩ | ⟨rfl, -⟩
        · exact hcalls
        · exact absurd List.mem_cons_self hk
      · rw [hothers k hkr]
        exact h.uncalled k (fun hk'' => hk (hclosing' k hk''))
          ((List.mem_cons.1 hk').resolve_left hkr)
    called := by
      intro k func' hk hk'
      dsimp only at hk hk' ⊢
      rcases hmade k func' hk with hold | ⟨rfl, rfl⟩
      · have hkr : k ≠ s.made.length := ((List.getElem?_eq_some_iff.1 hold).1).ne
        rw [hothers k hkr, List.mem_cons, or_iff_right hkr]
        refine h.called k func' hold fun hr => ?_
        exact (hclosing k (hk' (List.mem_cons_of_mem _ hr))).resolve_right hkr
      · rcases hstate with ⟨rfl, -⟩ | ⟨-, rfl⟩
        · exact absurd (hk' List.mem_cons_self) hopen
        · rw [callsOf_append, if_pos rfl, hcalls]
          exact .inl ⟨irp.answer, rfl⟩
    made := by
      intro c hc
      dsimp only at hc ⊢
      rw [List.length_append, List.length_singleton]
      rcases hstate with ⟨-, rfl, -⟩ | ⟨-, rfl⟩
      · exact (h.made c hc).trans (Nat.lt_succ_self _)
      · rcases List.mem_append.1 hc with hc | hc
        · exact (h.made c hc).trans (Nat.lt_succ_self _)
        · obtain rfl := List.mem_singleton.1 hc
          exact Nat.lt_succ_self _ }

theorem Sound.checkIdent (h : s.Sound) (lport rport func : ℕ) (outcome : Outcome) :
    (s.checkIdent lport rport func outcome).Sound := by
  have hsocks : ∀ (k : ℕ) (sock : Sock),
      (Function.update s.socks s.made.length (some sock) k).isSome =
        if k = s.made.length then true else (s.socks k).isSome := by
    intro k sock
    by_cases hk : k = s.made.length
    · subst hk
      rw [Function.update_self, if_pos rfl]
      rfl
    · rw [Function.update_of_ne hk, if_neg hk]
  have hnone : ∀ k, (s.socks k).isSome =
      if k = s.made.length then false else (s.socks k).isSome := by
    intro k
    split_ifs with hk
    · subst hk
      rw [Bool.eq_false_iff]
      intro hsome
      obtain ⟨irp, hirp, -⟩ := (h.sock _).1 hsome
      exact (h.lt_made (h.requests_of_mem hirp)).false
    · rfl
  have hdestroy : ∀ (s : Idents) (r : ℕ) (irp : Request), irp.func = some func →
      (s.put r irp).destroy r = { s.put r irp with
        frames := .answer r :: s.frames
        calls := s.calls ++ [⟨r, func, irp.answer⟩] } := by
    intro s r irp hirp
    unfold destroy put
    dsimp only
    rw [Function.update_self]
    dsimp only
    rw [hirp]
  cases outcome with
  | noSocket =>
    unfold Idents.checkIdent
    dsimp only
    rw [hdestroy _ _ _ rfl]
    exact h.add rfl hnone rfl (.inr ⟨rfl, rfl⟩)
  | failed =>
    unfold Idents.checkIdent
    dsimp only
    rw [hdestroy _ _ _ rfl]
    exact @Sound.add s h ⟨lport, rport, some func, true, false, []⟩ func _ _ _ _ rfl
      (fun k => hsocks k _) rfl (.inr ⟨rfl, rfl⟩)
  | connected =>
    exact @Sound.add s h ⟨lport, rport, some func, true, true, []⟩ func _ _ _ _ rfl
      (fun k => hsocks k _) rfl (.inl ⟨rfl, rfl, rfl, rfl⟩)

/-- A request that waits is answered as it is. -/
theorem Sound.destroy (h : s.Sound) {r : ℕ} (hr : r ∈ s.requests) (hopen : r ∉ s.closing) :
    (s.destroy r).Sound := by
  obtain ⟨irp, func, hmem, hfunc, -⟩ := h.exists_mem hr
  have hanswer := @Sound.answer s h r func irp irp s.timers hmem hopen hfunc rfl rfl
    h.timers_nodup (by rw [← hmem, Function.update_eq_self]; exact h.timer)
  rwa [put_self hmem] at hanswer

theorem closing_nil (hframes : s.frames = []) (r : ℕ) : r ∉ s.closing := by
  rw [closing, hframes]
  exact List.not_mem_nil

theorem Sound.socketHook (h : s.Sound) (hframes : s.frames = []) {r : ℕ} {k : Sock}
    (hk : s.socks r = some k) (ev : Event) : (s.socketHook r k ev).Sound := by
  obtain ⟨irp, hmem, -⟩ := (h.sock r).1 (by rw [hk]; rfl)
  obtain ⟨hsome, -⟩ := h.func r irp hmem
  obtain ⟨func, hfunc⟩ := Option.isSome_iff_exists.1 hsome
  have hrequest := h.requests_of_mem hmem
  have hdestroy := h.destroy hrequest (closing_nil hframes r)
  unfold Idents.socketHook
  rw [hmem]
  dsimp only
  cases ev with
  | write ok =>
    cases ok with
    | true =>
      have hsocks : ∀ j, (Function.update s.socks r
          (some { k with sent := k.sent ++ query irp, wantWrite := false }) j).isSome =
            (s.socks j).isSome := by
        intro j
        by_cases hj : j = r
        · subst hj
          rw [Function.update_self, hk]
          rfl
        · rw [Function.update_of_ne hj]
      exact { h with sock := fun j => by rw [hsocks, h.sock] }
    | false => exact hdestroy
  | nothing => exact h
  | failure => exact hdestroy
  | error => exact hdestroy
  | data buf =>
    refine @Sound.answer s h r func irp { irp with answer := identAnswer buf } s.timers hmem
      (closing_nil hframes r) hfunc rfl rfl h.timers_nodup fun j => ?_
    rw [h.timer j]
    by_cases hj : j = r
    · subst hj
      rw [Function.update_self, hmem]
      constructor
      · rintro ⟨irp', hirp', htimer⟩
        obtain rfl := Option.some.inj hirp'
        exact ⟨_, rfl, htimer⟩
      · rintro ⟨irp', hirp', htimer⟩
        obtain rfl := Option.some.inj hirp'
        exact ⟨irp, rfl, htimer⟩
    · rw [Function.update_of_ne hj]

theorem Sound.timerHook (h : s.Sound) (hframes : s.frames = []) {r : ℕ} (hr : r ∈ s.timers) :
    (s.timerHook r).Sound := by
  obtain ⟨irp, hmem, -⟩ := (h.timer r).1 hr
  obtain ⟨hsome, -⟩ := h.func r irp hmem
  obtain ⟨func, hfunc⟩ := Option.isSome_iff_exists.1 hsome
  unfold Idents.timerHook
  dsimp only
  rw [hmem]
  dsimp only
  refine @Sound.answer s h r func irp { irp with timer := false } (s.timers.erase r) hmem
    (closing_nil hframes r) hfunc rfl rfl (h.timers_nodup.erase r) fun j => ?_
  rw [h.timers_nodup.mem_erase_iff, h.timer j]
  by_cases hj : j = r
  · subst hj
    rw [Function.update_self]
    refine iff_of_false (fun hne => hne.1 rfl) ?_
    rintro ⟨irp', hirp', htimer⟩
    obtain rfl := Option.some.inj hirp'
    cases htimer
  · rw [Function.update_of_ne hj, and_iff_right hj]

theorem Sound.step {s' : Idents} (h : s.Sound) {a : Act} (hproper : s.Proper a)
    (hstep : s.step a = some s') : s'.Sound := by
  cases a with
  | check lport rport func outcome =>
    rw [Idents.step] at hstep
    split_ifs at hstep
    obtain rfl := Option.some.inj hstep
    exact h.checkIdent lport rport func outcome
  | event r ev =>
    rw [Idents.step] at hstep
    cases hk : s.socks r with
    | none =>
      rw [hk] at hstep
      cases hstep
    | some k =>
      rw [hk] at hstep
      dsimp only at hstep
      split_ifs at hstep with hready
      obtain rfl := Option.some.inj hstep
      exact h.socketHook hready.1 hk ev
  | expire r =>
    rw [Idents.step] at hstep
    split_ifs at hstep with hready
    obtain rfl := Option.some.inj hstep
    exact h.timerHook hready.1 hready.2
  | cancel func =>
    rw [Idents.step] at hstep
    split_ifs at hstep
    obtain rfl := Option.some.inj hstep
    exact h.identCancel hproper
  | ret =>
    rw [Idents.step] at hstep
    split at hstep
    · rename_i r frames hframes
      obtain rfl := Option.some.inj hstep
      exact h.ret hframes
    · cases hstep
  | unload =>
    rw [Idents.step] at hstep
    split_ifs at hstep with hframes
    obtain rfl := Option.some.inj hstep
    exact { h with
      closing := fun r hr => by cases hr
      closing_nodup := List.nodup_nil
      bottom := rfl
      pending := fun r irp hr _ => h.pending r irp hr (closing_nil hframes r)
      uncalled := fun r _ => h.uncalled r (closing_nil hframes r)
      called := fun r func hmade hr => h.called r func hmade fun hr' => by cases hr hr' }
  | round =>
    rw [Idents.step] at hstep
    split at hstep
    · rename_i frames hframes
      obtain rfl : frames = [] := by
        have hbottom := h.bottom
        rwa [hframes] at hbottom
      have hclosing : s.closing = [] := by rw [Idents.closing, hframes]; rfl
      split at hstep
      · obtain rfl := Option.some.inj hstep
        rename_i hrequests
        exact { h with
          closing := fun r hr => by cases hr
          closing_nodup := List.nodup_nil
          bottom := trivial
          pending := fun r irp hr _ => h.pending r irp hr (by rw [hclosing]; exact List.not_mem_nil)
          uncalled := fun r _ => h.uncalled r (by rw [hclosing]; exact List.not_mem_nil)
          called := fun r func hmade hr => h.called r func hmade fun hr' => by cases hr hr' }
      · rename_i r rest hrequests
        obtain rfl := Option.some.inj hstep
        refine h.destroy ?_ (by rw [hclosing]; exact List.not_mem_nil)
        rw [hrequests]
        exact List.mem_cons_self
    · cases hstep

/-! ### Requests that are freed too early -/

/-- What is gone stays so, a wrong access too, and the hooks that run still do. -/
structure Keeps (s s' : Idents) : Prop where
  fault : s.fault = true → s'.fault = true
  gone : ∀ k, k < s.made.length → s.mem k = none → s'.mem k = none
  frames : ∀ fr ∈ s.frames, fr ∈ s'.frames
  made : s.made.length ≤ s'.made.length

theorem Keeps.refl (s : Idents) : Keeps s s :=
  ⟨fun h => h, fun _ _ h => h, fun _ h => h, Nat.le_refl _⟩

theorem Keeps.trans {s s' s'' : Idents} (h : Keeps s s') (h' : Keeps s' s'') : Keeps s s'' where
  fault hf := h'.fault (h.fault hf)
  gone k hk hnone := h'.gone k (hk.trans_le h.made) (h.gone k hk hnone)
  frames fr hfr := h'.frames fr (h.frames fr hfr)
  made := h.made.trans h'.made

theorem keeps_release (s : Idents) (r : ℕ) : Keeps s (s.release r) := by
  unfold release
  cases s.mem r with
  | none => exact ⟨fun _ => rfl, fun _ _ h => h, fun _ h => h, Nat.le_refl _⟩
  | some irp =>
    refine ⟨fun h => ?_, fun k _ hk => ?_, fun _ h => h, Nat.le_refl _⟩
    · dsimp only
      rw [h, Bool.true_or]
    · dsimp only
      by_cases hkr : k = r
      · rw [hkr, Function.update_self]
      · rw [Function.update_of_ne hkr, hk]

theorem keeps_destroy (s : Idents) (r : ℕ) : Keeps s (s.destroy r) := by
  unfold destroy
  cases s.mem r with
  | none => exact ⟨fun _ => rfl, fun _ _ h => h, fun _ h => h, Nat.le_refl _⟩
  | some irp =>
    dsimp only
    cases irp.func with
    | none => exact keeps_release s r
    | some func =>
      exact ⟨fun h => h, fun _ _ h => h, fun _ h => List.mem_cons_of_mem _ h, Nat.le_refl _⟩

theorem keeps_put {s : Idents} {r : ℕ} {irp : Request} (hr : s.mem r = some irp)
    (irp' : Request) : Keeps s (s.put r irp') := by
  refine ⟨fun h => h, fun k _ hk => ?_, fun _ h => h, Nat.le_refl _⟩
  have hkr : k ≠ r := by
    rintro rfl
    rw [hr] at hk
    cases hk
  exact (Function.update_of_ne hkr ..).trans hk

theorem keeps_checkIdent (s : Idents) (lport rport func : ℕ) (outcome : Outcome) :
    Keeps s (s.checkIdent lport rport func outcome) := by
  have hnew : ∀ (requests timers : List ℕ) (socks : ℕ → Option Sock) (irp : Request),
      Keeps s ({ s with
        made := s.made ++ [func]
        requests := requests
        socks := socks
        timers := timers } |>.put s.made.length irp) := by
    intro requests timers socks irp
    refine ⟨fun h => h, fun k hk hnone => ?_, fun _ h => h, ?_⟩
    · exact (Function.update_of_ne hk.ne ..).trans hnone
    · exact Nat.le_of_lt (by
        show s.made.length < (s.made ++ [func]).length
        rw [List.length_append]
        exact Nat.lt_succ_self _)
  cases outcome with
  | noSocket => exact (hnew _ s.timers s.socks _).trans (keeps_destroy _ _)
  | failed => exact (hnew _ s.timers _ _).trans (keeps_destroy _ _)
  | connected => exact hnew _ _ _ _

theorem keeps_socketHook (s : Idents) (r : ℕ) (k : Sock) (ev : Event) :
    Keeps s (s.socketHook r k ev) := by
  unfold socketHook
  cases hr : s.mem r with
  | none => exact ⟨fun _ => rfl, fun _ _ h => h, fun _ h => h, Nat.le_refl _⟩
  | some irp =>
    cases ev with
    | write ok =>
      cases ok with
      | true => exact ⟨fun h => h, fun _ _ h => h, fun _ h => h, Nat.le_refl _⟩
      | false => exact keeps_destroy s r
    | nothing => exact Keeps.refl s
    | failure => exact keeps_destroy s r
    | error => exact keeps_destroy s r
    | data buf => exact (keeps_put hr _).trans (keeps_destroy _ r)

theorem keeps_timerHook (s : Idents) (r : ℕ) : Keeps s (s.timerHook r) := by
  have htimer : Keeps s { s with timers := s.timers.erase r } :=
    ⟨fun h => h, fun _ _ h => h, fun _ h => h, Nat.le_refl _⟩
  unfold timerHook
  dsimp only
  cases hr : s.mem r with
  | none => exact ⟨fun _ => rfl, fun _ _ h => h, fun _ h => h, Nat.le_refl _⟩
  | some irp =>
    have hput := keeps_put (s := { s with timers := s.timers.erase r }) hr
    exact (htimer.trans (hput _)).trans (keeps_destroy _ r)

/-- A round of the loop of `ident_cancel`. -/
theorem keeps_cancelRound (s : Idents) (func r : ℕ) :
    Keeps s (match s.mem r with
      | none => s.wrong
      | some irp =>
          if irp.func = some func then (s.put r { irp with func := none }).destroy r else s) := by
  cases hr : s.mem r with
  | none => exact ⟨fun _ => rfl, fun _ _ h => h, fun _ h => h, Nat.le_refl _⟩
  | some irp =>
    dsimp only
    split_ifs
    · exact (keeps_put hr _).trans (keeps_destroy _ _)
    · exact Keeps.refl s

theorem keeps_identCancel (s : Idents) (func : ℕ) : Keeps s (s.identCancel func) := by
  unfold identCancel
  have hloop : ∀ (l : List ℕ) (s : Idents), Keeps s (l.foldl (fun s r =>
      match s.mem r with
      | none => s.wrong
      | some irp =>
          if irp.func = some func then (s.put r { irp with func := none }).destroy r else s)
        s) := by
    intro l
    induction l with
    | nil => exact Keeps.refl
    | cons r l ih => exact fun s => (keeps_cancelRound s func r).trans (ih _)
  have hcancels : Keeps s { s with cancels := func :: s.cancels } :=
    ⟨fun h => h, fun _ _ h => h, fun _ h => h, Nat.le_refl _⟩
  exact hcancels.trans (hloop s.requests _)

/-- Memory that is gone was used, or will be when a hook returns. -/
def Doomed (s : Idents) : Prop :=
  s.fault = true ∨ ∃ r, .answer r ∈ s.frames ∧ r < s.made.length ∧ s.mem r = none

theorem Doomed.keeps {s' : Idents} (h : s.Doomed) (hkeeps : Keeps s s') : s'.Doomed := by
  rcases h with hfault | ⟨r, hr, hlt, hnone⟩
  · exact .inl (hkeeps.fault hfault)
  · exact .inr ⟨r, hkeeps.frames _ hr, hlt.trans_le hkeeps.made, hkeeps.gone r hlt hnone⟩

theorem mem_release (s : Idents) (r : ℕ) :
    (s.release r).mem = Function.update s.mem r none := by
  unfold release
  cases hr : s.mem r with
  | none =>
    show s.mem = Function.update s.mem r none
    conv_rhs => rw [← hr]
    rw [Function.update_eq_self]
  | some irp => rfl

/-- A request whose function is cancelled is gone behind its round, be it answered now or not. -/
theorem mem_cancelRound (s : Idents) (r : ℕ) (irp : Request) :
    ((s.put r { irp with func := none }).destroy r).mem = Function.update s.mem r none := by
  unfold destroy put
  dsimp only
  rw [Function.update_self]
  dsimp only
  rw [mem_release, Function.update_idem]

theorem Sound.doomed_identCancel (h : s.Sound) {r func : ℕ} {irp : Request}
    (hframe : .answer r ∈ s.frames) (hr : s.mem r = some irp) (hfunc : irp.func = some func) :
    (s.identCancel func).Doomed := by
  have hloop : ∀ (l : List ℕ) (s : Idents), r ∈ l → r < s.made.length → s.mem r = some irp →
      (l.foldl (fun s r =>
        match s.mem r with
        | none => s.wrong
        | some irp =>
            if irp.func = some func then (s.put r { irp with func := none }).destroy r else s)
        s).mem r = none := by
    intro l
    induction l with
    | nil =>
      intro s hmem
      cases hmem
    | cons k l ih =>
      intro s hmem hlt hr
      rw [List.foldl_cons]
      by_cases hkr : k = r
      · subst hkr
        rw [hr]
        dsimp only
        rw [if_pos hfunc]
        have hkeeps := (keeps_put hr { irp with func := none }).trans (keeps_destroy _ k)
        have hnone : ((s.put k { irp with func := none }).destroy k).mem k = none := by
          rw [mem_cancelRound, Function.update_self]
        -- what is gone stays so
        have hrest : ∀ (l : List ℕ) (s : Idents), k < s.made.length → s.mem k = none →
            (l.foldl (fun s r =>
              match s.mem r with
              | none => s.wrong
              | some irp =>
                  if irp.func = some func then (s.put r { irp with func := none }).destroy r else s)
              s).mem k = none := by
          intro l
          induction l with
          | nil => exact fun s _ hnone => hnone
          | cons j l ih =>
            intro s hlt hnone
            have hround := keeps_cancelRound s func j
            exact ih _ (hlt.trans_le hround.made) (hround.gone k hlt hnone)
        exact hrest l _ (hlt.trans_le hkeeps.made) hnone
      · have hround := keeps_cancelRound s func k
        refine ih _ ((List.mem_cons.1 hmem).resolve_left (Ne.symm hkr))
          (hlt.trans_le hround.made) ?_
        cases hk : s.mem k with
        | none => exact hr
        | some irp' =>
          dsimp only
          split_ifs with hfunc'
          · rw [mem_cancelRound, Function.update_of_ne (Ne.symm hkr), hr]
          · exact hr
  have hrequest := h.requests_of_mem hr
  have hkeeps := keeps_identCancel s func
  refine .inr ⟨r, hkeeps.frames _ hframe, (h.lt_made hrequest).trans_le hkeeps.made, ?_⟩
  exact hloop s.requests { s with cancels := func :: s.cancels } hrequest (h.lt_made hrequest) hr

theorem Doomed.step {s' : Idents} (h : s.Doomed) {a : Act} (hstep : s.step a = some s') :
    s'.Doomed := by
  cases a with
  | check lport rport func outcome =>
    rw [Idents.step] at hstep
    split_ifs at hstep
    obtain rfl := Option.some.inj hstep
    exact h.keeps (keeps_checkIdent s lport rport func outcome)
  | event r ev =>
    rw [Idents.step] at hstep
    split at hstep
    · cases hstep
    · rename_i k _
      split_ifs at hstep
      obtain rfl := Option.some.inj hstep
      exact h.keeps (keeps_socketHook s r k ev)
  | expire r =>
    rw [Idents.step] at hstep
    split_ifs at hstep
    obtain rfl := Option.some.inj hstep
    exact h.keeps (keeps_timerHook s r)
  | cancel func =>
    rw [Idents.step] at hstep
    split_ifs at hstep
    obtain rfl := Option.some.inj hstep
    exact h.keeps (keeps_identCancel s func)
  | ret =>
    rw [Idents.step] at hstep
    split at hstep
    · rename_i q frames hframes
      obtain rfl := Option.some.inj hstep
      have hkeeps := keeps_release { s with frames := frames } q
      rcases h with hfault | ⟨r, hr, hlt, hnone⟩
      · exact .inl (hkeeps.fault hfault)
      rw [hframes] at hr
      rcases List.mem_cons.1 hr with hrq | hr
      · -- the hook of the request that is gone returns
        obtain rfl := Frame.answer.inj hrq
        left
        unfold release
        dsimp only
        rw [hnone]
        rfl
      · exact Doomed.keeps (s := { s with frames := frames }) (.inr ⟨r, hr, hlt, hnone⟩) hkeeps
    · cases hstep
  | unload =>
    rw [Idents.step] at hstep
    split_ifs at hstep with hframes
    obtain rfl := Option.some.inj hstep
    rcases h with hfault | ⟨r, hr, -⟩
    · exact .inl hfault
    · rw [hframes] at hr
      cases hr
  | round =>
    rw [Idents.step] at hstep
    split at hstep
    · rename_i frames hframes
      split at hstep
      · obtain rfl := Option.some.inj hstep
        rcases h with hfault | ⟨r, hr, hlt, hnone⟩
        · exact .inl hfault
        · rw [hframes] at hr
          exact .inr ⟨r, (List.mem_cons.1 hr).resolve_left Frame.noConfusion, hlt, hnone⟩
      · obtain rfl := Option.some.inj hstep
        exact h.keeps (keeps_destroy s _)
    · cases hstep

/-- Where all hooks have returned, nothing that is gone was used just if no function was cancelled
while a request was answered with it. -/
theorem fault_iff {t : Idents} {acts : List Act} (hrun : Run.run step start acts = some t)
    (hframes : t.frames = []) : t.fault = false ↔ Run.Along step Proper start acts := by
  have hsound : ∀ s a s', Sound s → Proper s a → step s a = some s' → Sound s' :=
    fun _ _ _ h hproper hstep => h.step hproper hstep
  constructor
  · intro hsafe
    have hend : ¬ t.Doomed := by
      rintro (hfault | ⟨r, hr, -⟩)
      · rw [hsafe] at hfault
        cases hfault
      · rw [hframes] at hr
        cases hr
    refine Run.along_of_reached (P := fun _ => True) (D := Doomed) hsound ?_
      (fun s a s' hs hstep _ => hs.step hstep) sound_start hrun hend fun _ _ _ _ _ => trivial
    intro s a s' hs hbad hstep _
    cases a with
    | cancel func =>
      rw [Proper] at hbad
      push Not at hbad
      obtain ⟨r, hclosing, irp, hr, hfunc⟩ := hbad
      rw [step] at hstep
      split_ifs at hstep
      obtain rfl := Option.some.inj hstep
      exact hs.doomed_identCancel (mem_closingOf.1 hclosing) hr hfunc
    | check | event | expire | ret | unload | round => exact absurd trivial hbad
  · intro halong
    exact (Run.run_invariant hsound sound_start halong hrun).safe

/-- Then each request that was ever made waits for its answer, or has had one call of its hook, or
was cancelled and has had none; and when no hook runs, there is a socket and a timer for each
request that waits, and no other. -/
theorem requests_accounted {t : Idents} {acts : List Act}
    (hrun : Run.run step start acts = some t) (halong : Run.Along step Proper start acts) :
    (∀ r func, t.made[r]? = some func →
      t.Pending r ∧ callsOf t.calls r = [] ∨
        ¬ t.Pending r ∧ (∃ answer, callsOf t.calls r = [⟨r, func, answer⟩]) ∨
        ¬ t.Pending r ∧ callsOf t.calls r = [] ∧ func ∈ t.cancels) ∧
      (t.frames = [] → t.timers.Perm t.requests ∧ t.requests.Nodup ∧
        ∀ r, (t.socks r).isSome ↔ r ∈ t.requests) := by
  have h : t.Sound := Run.run_invariant (fun _ _ _ h hproper hstep => h.step hproper hstep)
    sound_start halong hrun
  constructor
  · intro r func hmade
    by_cases hpending : t.Pending r
    · exact .inl ⟨hpending, h.uncalled r hpending.2 hpending.1⟩
    · rcases h.called r func hmade fun hr => not_not.1 fun hopen => hpending ⟨hr, hopen⟩ with
        hcall | hgone
      · exact .inr (.inl ⟨hpending, hcall⟩)
      · exact .inr (.inr ⟨hpending, hgone.2⟩)
  · intro hframes
    have hready : ∀ r irp, t.mem r = some irp → irp.sock = true ∧ irp.timer = true :=
      fun r irp hr => h.pending r irp hr (closing_nil hframes r)
    refine ⟨(List.perm_ext_iff_of_nodup h.timers_nodup h.nodup).2 fun r => ?_, h.nodup,
      fun r => ?_⟩
    · rw [h.timer, ← h.mem_iff, Option.isSome_iff_exists]
      exact ⟨fun ⟨irp, hr, _⟩ => ⟨irp, hr⟩, fun ⟨irp, hr⟩ => ⟨irp, hr, (hready r irp hr).2⟩⟩
    · rw [h.sock, ← h.mem_iff, Option.isSome_iff_exists]
      exact ⟨fun ⟨irp, hr, _⟩ => ⟨irp, hr⟩, fun ⟨irp, hr⟩ => ⟨irp, hr, (hready r irp hr).1⟩⟩

/-- Two requests, of which one is answered when its timer goes and the other is cancelled by the
hook that is called for it. -/
def twoRequests : List Act :=
  [.check 6667 1024 1 .connected, .check 6667 1025 2 .connected, .event 0 (.write true), .expire 0,
    .cancel 2, .ret]

theorem twoRequests_ends : ((Run.run step start twoRequests).map frames) = some [] ∧
    Run.Along step Proper start twoRequests := by
  decide +kernel

theorem fault_iff_two : ∃ t, Run.run step start twoRequests = some t ∧ t.fault = false := by
  obtain ⟨t, hrun, hframes⟩ := Option.map_eq_some_iff.1 twoRequests_ends.1
  exact ⟨t, hrun, (fault_iff hrun hframes).2 twoRequests_ends.2⟩

theorem requests_accounted_two : ∃ t, Run.run step start twoRequests = some t ∧
    t.timers.Perm t.requests := by
  obtain ⟨t, hrun, hframes⟩ := Option.map_eq_some_iff.1 twoRequests_ends.1
  exact ⟨t, hrun, ((requests_accounted hrun twoRequests_ends.2).2 hframes).1⟩

end Idents

end Ident

end Ithildin
