import Ithildin.Dns.Lookup
import Ithildin.Lib.Places
import Ithildin.Lib.Run

/-!
# The lookups of the nameserver module

`dns_lookup`, `dns_lookup_cancel`, `dns_lookup_send`, `dns_packet_parse`, `dns_lookup_finish`,
`dns_timer_hook` and the configuration, as a step system. The callbacks run in it: while one runs it
may make and cancel lookups. What is under way is on the stack `frames`, the innermost one first.

The environment decides what the callbacks do, which packets come, what is in the configuration and
whether a query can be written. A step is one call from outside or from a callback up to the next
callback, query or end of a `dns_lookup_finish`, or it is one of these.

A state ends the run if the program touches a lookup or a hook that it has freed. A step is missing
where the program crashes or reads a packet behind its end.
-/

namespace Ithildin

namespace Dns

open Places

/-- What is under way. -/
inductive Frame
  /-- The `dns_lookup_send` of a `dns_lookup`. -/
  | once
  /-- The loop `while (dns_lookup_send())`. -/
  | sending
  /-- `dns_lookup_finish` on the lookup at `key`, with the function of the hook `cur` running. -/
  | running (key cur : ℕ) (needclean : Bool)
  /-- `dns_lookup_finish` on the lookup at `key`, with `hook_event` returned. -/
  | ended (key : ℕ)
  /-- A callback that is given a cached lookup. -/
  | served
  deriving DecidableEq

/-- The configuration. -/
structure Conf where
  timeout : ℤ
  retries : ℕ
  max : ℤ
  expire : ℕ
  failure : Bool
  cacheMax : ℤ
  deriving DecidableEq

/-- A reply that has settled a lookup: what the lookup was for, and what the reply was for. -/
structure Answer where
  id : ℕ
  asked : Option Bytes
  type : ℕ
  replyId : ℕ
  question : Option (Bytes × ℕ)
  deriving DecidableEq

/-- `dns` and the memory. The last five fields are not in the program. -/
structure State (F : Type) where
  timeout : ℤ
  retries : ℕ
  idn : ℕ
  max : ℤ
  failure : Bool
  expire : ℕ
  cacheMax : ℤ
  /-- `wlist`, `alist` and the list of the cache. -/
  lists : Place → List ℕ
  /-- `acount` and the count of the cache; lookups that wait are not counted. -/
  counts : Place → ℤ
  mem : ℕ → Option (Lookup F)
  /-- The address of the next lookup. -/
  keys : ℕ
  q : Timers.Queue
  frames : List Frame
  /-- Has something been touched that was freed? -/
  fault : Bool
  /-- The number of calls of `dns_lookup` that were taken. A hook has the number of its call. -/
  calls : ℕ
  /-- The calls whose callbacks have been called, and whether the lookup given to them was there. -/
  done : List (ℕ × Bool)
  /-- The calls whose hooks were removed before they were called. -/
  cancelled : List ℕ
  /-- Has a count grown to more than its limit? -/
  grown : Bool
  answers : List Answer

/-- What may happen. -/
inductive Action (F : Type)
  | lookup (rrClass type : ℕ) (data : Bytes) (callback : F)
  | cancel (callback : F)
  /-- A query: can it be written, and what is behind the table of the timeouts? -/
  | send (wrote : Bool) (junk : ℤ)
  /-- A callback returns. -/
  | ret
  /-- The end of a `dns_lookup_finish`. -/
  | settle
  /-- The socket is ready. -/
  | poll
  | reply (pkt : Bytes)
  /-- The timer with this reference goes off. -/
  | tick (ref : ℕ)
  /-- The configuration is read. Can the socket be set up? -/
  | reload (conf : Conf) (sock : Bool)
  /-- The clock is read. -/
  | clock (now : ℤ)

variable {F : Type}

/-- Before the configuration is read. -/
def start (now : ℤ) : State F where
  timeout := 0
  retries := 0
  idn := 0
  max := 0
  failure := false
  expire := 0
  cacheMax := 0
  lists := fun _ => []
  counts := fun _ => 0
  mem := fun _ => none
  keys := 0
  q := Timers.Queue.empty now
  frames := []
  fault := false
  calls := 0
  done := []
  cancelled := []
  grown := false
  answers := []

namespace State

variable (s : State F)

/-- The limit of a list. -/
def limit : Place → ℤ
  | .waiting => 0
  | .pending => s.max
  | .cache => s.cacheMax

/-- Something more is under way. -/
def push (frame : Frame) : State F := { s with frames := frame :: s.frames }

/-- Change the lookup at an address. -/
def modify (key : ℕ) (f : Lookup F → Lookup F) : State F :=
  { s with mem := Function.update s.mem key ((s.mem key).map f) }

/-- The counts when `n` lookups come to a list. -/
def counted (counts : Place → ℤ) (p : Option Place) (n : ℤ) : Place → ℤ :=
  match p with
  | none | some .waiting => counts
  | some p => Function.update counts p (counts p + n)

/-- The part of `dns_lookup_move` that takes a lookup off its list. -/
def unlink (key : ℕ) (dlp : Lookup F) : State F :=
  { s with
    lists := take key dlp.place s.lists
    counts := counted s.counts dlp.place (-1) }

/-- The part of `dns_lookup_move` that puts a lookup on a list. -/
def link (key : ℕ) (p : Place) (head : Bool) : State F :=
  let counts := counted s.counts (some p) 1
  { s.modify key fun dlp => { dlp with place := some p } with
    lists := put (head || (s.lists p).isEmpty) key p s.lists
    counts := counts
    grown := s.grown || (p ≠ .waiting && decide (s.limit p < counts p)) }

/-- `dns_lookup_move` -/
def move (key : ℕ) (p : Place) (head : Bool) : State F :=
  match s.mem key with
  | none => { s with fault := true }
  | some dlp => (s.unlink key dlp).link key p head

/-- Destroy the timer of a lookup, if it has one. -/
def freeTimer (dlp : Lookup F) : State F :=
  if dlp.timer = Timers.timerInvalid then s else { s with q := s.q.destroyTimer dlp.timer }

/-- `destroy_dns_lookup` -/
def destroy (key : ℕ) : State F :=
  match s.mem key with
  | none => { s with fault := true }
  | some dlp =>
    let s := (s.unlink key dlp).freeTimer dlp
    { s with mem := Function.update s.mem key none }

/-- `create_timer` for a lookup; its callback is `dns_timer_hook`, for which 0 stands. -/
def startTimer (key : ℕ) (interval : ℤ) : Option (State F) :=
  (s.q.createTimer 0 interval 0 key).map fun r =>
    { s with q := r.1 }.modify key fun dlp => { dlp with timer := r.2 }

/-! ### Finishing a lookup -/

/-- Make room in a full cache. -/
def evict : State F :=
  if s.counts .cache = s.cacheMax ∧ 0 < s.counts .cache then
    match (s.lists .cache).getLast? with
    | none => { s with fault := true }
    | some last => s.destroy last
  else s

/-- The lookup goes to the cache, if it is to. -/
def toCache (key : ℕ) (dlp : Lookup F) : State F :=
  if dlp.ttl ≠ 0 ∧ (s.failure ∨ dlp.failed = false) then
    if 0 < s.cacheMax then s.evict.move key .cache true else s.evict
  else s

/-- The end of `dns_lookup_finish`: the lookup is freed, or its timer set. -/
def keep (key : ℕ) : Option (State F) :=
  match s.mem key with
  | none => some { s with fault := true }
  | some dlp =>
    if dlp.place ≠ some .cache then some (s.destroy key)
    else if dlp.timer = Timers.timerInvalid then s.startTimer key dlp.ttl
    else some { s with q := s.q.adjustTimer dlp.timer 0 dlp.ttl }

/-- What follows `hook_event` in `dns_lookup_finish`: the lookup is cached or freed. -/
def settle (key : ℕ) : Option (State F) :=
  match s.mem key with
  | none => some { s with fault := true }
  | some dlp => (s.toCache key dlp).keep key

/-- The end of `hook_event` on the event of a lookup. -/
def closeEvent (key : ℕ) (needclean : Bool) : State F :=
  s.modify key fun dlp => { dlp with finished :=
    { dlp.finished with
      calling := false
      hooks := if needclean then Event.sweep dlp.finished.hooks else dlp.finished.hooks } }

/-- `hook_event` goes on, with these hooks still to come. -/
def goOn (key : ℕ) (needclean : Bool) (hooks : List (Hook F)) : State F :=
  match Event.walk needclean hooks with
  | (none, needclean) => (s.closeEvent key needclean).push (.ended key)
  | (some hp, needclean) =>
    { s.push (.running key hp.id needclean) with
      done := (hp.id, (s.mem key).isSome) :: s.done }

/-- `dns_lookup_finish` -/
def finish (key : ℕ) : Option (State F) :=
  match s.mem key with
  | none => some { s with fault := true }
  | some dlp => (dlp.minTtl s.expire).map fun ttl =>
    (s.modify key fun dlp =>
      { dlp with
        last := s.q.now
        ttl := ttl
        finished := { dlp.finished with calling := true } }).goOn key false dlp.finished.hooks

/-! ### Queries -/

/-- `dns.pending.retry_times` at an index. -/
def retryTime (retry : ℕ) (junk : ℤ) : ℤ :=
  if retry ≤ s.retries then s.timeout * 2 ^ (s.retries - retry) else junk

/-- The end of `dns_lookup_send` for a query that was written. -/
def sent (key : ℕ) (dlp : Lookup F) (name : Bytes) (junk : ℤ) : Option (State F) :=
  ((s.freeTimer dlp).modify key fun dlp => { dlp with asked := some name }).startTimer key
    (s.retryTime dlp.retry junk)

/-- A query that cannot be made: the lookup has failed. -/
def fail (key : ℕ) : Option (State F × Bool) :=
  ((s.modify key fun dlp => { dlp with failed := true }).finish key).map fun s => (s, true)

/-- `dns_lookup_send` for a lookup that is on the active list. -/
def request (env : Env) (key : ℕ) (dlp : Lookup F) (wrote : Bool) (junk : ℤ) :
    Option (State F × Bool) :=
  match dlp.queryName env with
  | none => s.fail key
  | some name =>
    let s := s.modify key Lookup.named
    if (maxPacketSize : ℤ) < 12 + env.dnComp name + 4 then s.fail key
    else if wrote then (s.sent key dlp name junk).map fun s => (s, true)
    else some (s.move key .waiting true, false)

/-- `dns_lookup_send`: the state, and whether it returns 1. -/
def send (env : Env) (wrote : Bool) (junk : ℤ) : Option (State F × Bool) :=
  if s.counts .pending = s.max then some (s, false)
  else
    match s.lists .waiting with
    | [] => some (s, false)
    | key :: _ =>
      match s.mem key with
      | none => some ({ s with fault := true }, false)
      | some dlp => (s.move key .pending false).request env key dlp wrote junk

/-! ### Lookups -/

/-- `find_dns_lookup` on one list. -/
def findOn (p : Place) (rrClass type : ℕ) (data : Bytes) : Option ℕ :=
  (s.lists p).find? fun key => (s.mem key).any fun dlp => dlp.hasKey rrClass type data

/-- `find_dns_lookup` -/
def findLookup (rrClass type : ℕ) (data : Bytes) : Option ℕ :=
  (s.findOn .cache rrClass type data).or
    ((s.findOn .pending rrClass type data).or (s.findOn .waiting rrClass type data))

/-- `add_hook` on the event of a lookup, for the next call. -/
def hookLookup [DecidableEq F] (key : ℕ) (callback : F) : State F :=
  { s.modify key fun dlp =>
      { dlp with finished :=
          (dlp.finished.addHookAfter s.calls (some callback) none).getD dlp.finished } with
    calls := s.calls + 1 }

/-- A cached lookup goes to the head of the cache, and the callback is given it. -/
def serve (key : ℕ) : State F :=
  { s with
    lists := put true key .cache (take key (some .cache) s.lists)
    frames := .served :: s.frames
    calls := s.calls + 1
    done := (s.calls, (s.mem key).isSome) :: s.done }

/-- The lookup that `dns_lookup` makes. -/
def newLookup (rrClass type : ℕ) (data : Bytes) : Lookup F where
  finished := lookupEvent
  rrClass := rrClass
  type := type
  data := data
  an := []
  ns := []
  ad := []
  place := none
  again := false
  failed := false
  timeout := false
  nxdomain := false
  id := s.idn
  last := s.q.now
  ttl := 0
  retry := s.retries
  timer := Timers.timerInvalid
  asked := none

/-- `dns_lookup` up to its `dns_lookup_send`, for a key that is not found. -/
def make [DecidableEq F] (rrClass type : ℕ) (data : Bytes) (callback : F) : State F :=
  let key := s.keys
  let s := { s with
    mem := Function.update s.mem key (some (s.newLookup rrClass type data))
    keys := s.keys + 1
    idn := (s.idn + 1) % 2 ^ 16
    frames := .once :: s.frames }
  (s.hookLookup key callback).link key .waiting false

/-- `dns_lookup` -/
def lookup [DecidableEq F] (rrClass type : ℕ) (data : Bytes) (callback : F) : State F :=
  if maxNamelen < data.length then s
  else
    match s.findLookup rrClass type data with
    | none => s.make rrClass type data callback
    | some key =>
      if (s.mem key).any (·.place = some .cache) then s.serve key else s.hookLookup key callback

/-- `remove_hook` on the event of a lookup. -/
def unhook [DecidableEq F] (key : ℕ) (callback : F) : State F :=
  match (s.mem key).bind fun dlp => dlp.finished.findHook callback with
  | none => s
  | some hp =>
    { s.modify key fun dlp =>
        { dlp with finished := (dlp.finished.removeHook callback).getD dlp.finished } with
      cancelled :=
        if hp.id ∈ s.done.map (·.1) ∨ hp.id ∈ s.cancelled then s.cancelled
        else hp.id :: s.cancelled }

/-- The second loop of `dns_lookup_cancel` on one lookup. -/
def cancelWaiting [DecidableEq F] (callback : F) (s : State F) (key : ℕ) : State F :=
  let s := s.unhook key callback
  match s.mem key with
  | none => { s with fault := true }
  | some dlp => if dlp.finished.numhooks = 0 then s.destroy key else s

/-- `dns_lookup_cancel` -/
def cancel [DecidableEq F] (callback : F) : State F :=
  let s := (s.lists .pending).foldl (fun s key => s.unhook key callback) s
  (s.lists .waiting).foldl (cancelWaiting callback) s

/-! ### Replies, timers and the configuration -/

/-- The lookup that a reply with this identifier is matched with. -/
def matched (id : ℕ) : Option ℕ :=
  ((s.lists .pending).find? fun key => (s.mem key).any (·.id = id)).or
    ((s.lists .waiting).find? fun key => (s.mem key).any fun dlp =>
      dlp.id = id ∧ dlp.retry < s.retries)

/-- The question of a packet: its name and its type. -/
def question (env : Env) (pkt : Bytes) : Option (Bytes × ℕ) :=
  (env.expand pkt 12).map fun r => (r.1, be (Layout.slice (12 + r.2) 2 pkt))

/-- A reply has settled the lookup. -/
def answered (env : Env) (pkt : Bytes) (id : ℕ) (dlp : Lookup F) : State F :=
  { s with answers :=
      { id := dlp.id, asked := dlp.asked, type := dlp.type, replyId := id,
        question := question env pkt } :: s.answers }

/-- What a reply does to the lookup it is matched with. -/
def replied (env : Env) (pkt : Bytes) (id key : ℕ) (dlp : Lookup F) : Reply → Option (State F)
  | .ignored => some s
  | .failed =>
    ((s.answered env pkt id dlp).modify key fun dlp => { dlp with failed := true }).finish key
  | .again => some
    ((s.modify key fun dlp => { dlp with failed := true, again := true }).move key .waiting true)
  | .answered nxdomain an ns ad =>
    ((s.answered env pkt id dlp).modify key fun dlp =>
      { dlp with
        an := an ++ dlp.an
        ns := ns ++ dlp.ns
        ad := ad ++ dlp.ad
        nxdomain := dlp.nxdomain || nxdomain
        failed := dlp.failed || nxdomain }).finish key

/-- `dns_packet_parse` -/
def reply (env : Env) (pkt : Bytes) : Option (State F) := do
  match ← packetParse env.expand env.below (fun id => (s.matched id).isSome) pkt with
  | none => some s
  | some (id, r) =>
    match s.matched id with
    | none => some s
    | some key =>
      match s.mem key with
      | none => some { s with fault := true }
      | some dlp => s.replied env pkt id key dlp r

/-- The part of `dns_timer_hook` on a lookup that waits for an answer. -/
def timedOut (key : ℕ) (dlp : Lookup F) : Option (State F) :=
  if dlp.retry = 0 then
    (s.modify key fun dlp => { dlp with timeout := true, failed := true }).finish key
  else some ((s.modify key fun dlp => { dlp with retry := dlp.retry - 1 }).move key .waiting true)

/-- `dns_timer_hook` -/
def timerHook (key : ℕ) : Option (State F) :=
  match s.mem key with
  | none => some { s with fault := true }
  | some dlp =>
    let s := s.modify key fun dlp => { dlp with timer := Timers.timerInvalid }
    if dlp.place = some .cache then some (s.destroy key)
    else (s.push .sending).timedOut key dlp

/-- A timer goes off. It is taken off the list after its callback, which does not see it. -/
def tick (ref : ℕ) : Option (State F) :=
  match Timers.findTimer ref s.q.timers with
  | none => none
  | some t =>
    if t.next ≤ s.q.now then { s with q := s.q.destroyTimer ref }.timerHook t.udata else none

/-- The part of `dns_parse_conf` before the socket. -/
def configure (conf : Conf) : State F :=
  { s with
    timeout := conf.timeout
    retries := conf.retries
    max := if conf.max < 1 ∨ 32767 < conf.max then 32767 else conf.max
    expire := conf.expire
    failure := conf.failure
    cacheMax := if conf.cacheMax < 0 then 256 else conf.cacheMax }

/-- `dns_parse_conf`. Once there is a socket the cache is emptied. -/
def reload (conf : Conf) (sock : Bool) : State F :=
  let s := s.configure conf
  if sock then (s.lists .cache).foldl destroy s else s

/-! ### Steps -/

/-- A callback returns to `hook_event`. -/
def ret (key cur : ℕ) (needclean : Bool) (rest : List Frame) : State F :=
  match s.mem key with
  | none => { s with fault := true }
  | some dlp =>
    if cur ∈ Event.ids dlp.finished.hooks then
      { s with frames := rest }.goOn key needclean (Cursor.behind (·.id) cur dlp.finished.hooks)
    else { s with fault := true }

/-- Is there nothing under way but callbacks? -/
def callable : Bool :=
  match s.frames with
  | [] | .running .. :: _ | .served :: _ => true
  | .once :: _ | .sending :: _ | .ended _ :: _ => false

end State

/-- A step. There is none from a state with a fault. -/
def step [DecidableEq F] (env : Env) (s : State F) (a : Action F) : Option (State F) :=
  if s.fault then none
  else
    match a, s.frames with
    | .lookup rrClass type data callback, _ =>
      if s.callable then some (s.lookup rrClass type data callback) else none
    | .cancel callback, _ => if s.callable then some (s.cancel callback) else none
    | .send wrote junk, .once :: rest =>
      (State.send { s with frames := rest } env wrote junk).map Prod.fst
    | .send wrote junk, .sending :: rest =>
      (State.send s env wrote junk).map fun r => if r.2 then r.1 else { r.1 with frames := rest }
    | .ret, .running key cur needclean :: rest => some (s.ret key cur needclean rest)
    | .ret, .served :: rest => some { s with frames := rest }
    | .settle, .ended key :: rest => State.settle { s with frames := rest } key
    | .poll, [] => some (s.push .sending)
    | .reply pkt, [] => s.reply env pkt
    | .tick ref, [] => s.tick ref
    | .reload conf sock, [] => some (s.reload conf sock)
    | .clock now, [] => some { s with q := { s.q with now := now } }
    | _, _ => none

/-- The steps one by one. -/
inductive Stepped [DecidableEq F] (env : Env) (s : State F) : Action F → State F → Prop
  | lookup (rrClass type : ℕ) (data : Bytes) (callback : F) (hframes : s.callable) :
      Stepped env s (.lookup rrClass type data callback) (s.lookup rrClass type data callback)
  | cancel (callback : F) (hframes : s.callable) :
      Stepped env s (.cancel callback) (s.cancel callback)
  | once {rest : List Frame} (hframes : s.frames = .once :: rest) (wrote : Bool) (junk : ℤ)
      (s' : State F) (more : Bool)
      (h : State.send { s with frames := rest } env wrote junk = some (s', more)) :
      Stepped env s (.send wrote junk) s'
  | more {rest : List Frame} (hframes : s.frames = .sending :: rest) (wrote : Bool) (junk : ℤ)
      (s' : State F) (h : s.send env wrote junk = some (s', true)) :
      Stepped env s (.send wrote junk) s'
  | last {rest : List Frame} (hframes : s.frames = .sending :: rest) (wrote : Bool) (junk : ℤ)
      (s' : State F) (h : s.send env wrote junk = some (s', false)) :
      Stepped env s (.send wrote junk) { s' with frames := rest }
  | ret {key cur : ℕ} {needclean : Bool} {rest : List Frame}
      (hframes : s.frames = .running key cur needclean :: rest) :
      Stepped env s .ret (s.ret key cur needclean rest)
  | served {rest : List Frame} (hframes : s.frames = .served :: rest) :
      Stepped env s .ret { s with frames := rest }
  | settle {key : ℕ} {rest : List Frame} (hframes : s.frames = .ended key :: rest) (s' : State F)
      (h : State.settle { s with frames := rest } key = some s') : Stepped env s .settle s'
  | poll (hframes : s.frames = []) : Stepped env s .poll (s.push .sending)
  | reply (hframes : s.frames = []) (pkt : Bytes) (s' : State F) (h : s.reply env pkt = some s') :
      Stepped env s (.reply pkt) s'
  | tick (hframes : s.frames = []) (ref : ℕ) (s' : State F) (h : s.tick ref = some s') :
      Stepped env s (.tick ref) s'
  | reload (hframes : s.frames = []) (conf : Conf) (sock : Bool) :
      Stepped env s (.reload conf sock) (s.reload conf sock)
  | clock (hframes : s.frames = []) (now : ℤ) :
      Stepped env s (.clock now) { s with q := { s.q with now := now } }

theorem stepped [DecidableEq F] {env : Env} {s s' : State F} {a : Action F}
    (h : step env s a = some s') : s.fault = false ∧ Stepped env s a s' := by
  unfold step at h
  split at h
  case isTrue => cases h
  case isFalse hfault =>
  refine ⟨eq_false_of_ne_true hfault, ?_⟩
  split at h
  case h_1 rrClass type data callback =>
    split at h <;> cases h
    exact .lookup rrClass type data callback ‹_›
  case h_2 callback =>
    split at h <;> cases h
    exact .cancel callback ‹_›
  case h_3 wrote junk rest hframes =>
    obtain ⟨⟨t, more⟩, ht, rfl⟩ := Option.map_eq_some_iff.1 h
    exact .once hframes wrote junk t more ht
  case h_4 wrote junk rest hframes =>
    obtain ⟨⟨t, more⟩, ht, rfl⟩ := Option.map_eq_some_iff.1 h
    cases more with
    | true => exact .more hframes wrote junk t ht
    | false => exact .last hframes wrote junk t ht
  case h_5 key cur needclean rest hframes =>
    cases h
    exact .ret hframes
  case h_6 rest hframes =>
    cases h
    exact .served hframes
  case h_7 key rest hframes => exact .settle hframes s' h
  case h_8 hframes =>
    cases h
    exact .poll hframes
  case h_9 pkt hframes => exact .reply hframes pkt s' h
  case h_10 ref hframes => exact .tick hframes ref s' h
  case h_11 conf sock hframes =>
    cases h
    exact .reload hframes conf sock
  case h_12 now hframes =>
    cases h
    exact .clock hframes now
  case h_13 => cases h

end Dns

end Ithildin
