import Ithildin.Lib.Run
import Mathlib.Algebra.Group.Int.Defs
import Mathlib.Algebra.Group.Nat.Defs
import Mathlib.Logic.Function.Basic

/-!
# The socket system

`socket.c` with the `poll()` poller, as a step system over the sockets, the table `pollfds`, the
count `cursockets` and the descriptors that are open in the kernel.

* `Call` is a call of one of the functions, with what the kernel answers; a call may come from a
  timer, a command or the hook of a socket;
* `Act.poll` is the return of `poll()`, `Act.visit` the body of the loop behind it for one socket,
  `Act.done` the return of that socket's hook; in between there are the calls that the hook makes;
* `Act.reap` is `reap_dead_sockets`, `Act.adjust` a re-read of the configuration;
* `Act.otherOpen` and `Act.otherClose` are the descriptors of the rest of the server.

There is no next state if the program touches memory that is not its own: the table outside its
bounds, a socket that is gone, an address that was freed. A socket keeps its number when it is gone.
The kernel gives out the lowest descriptor that is free; a `close()` that fails, which only
`close_socket` looks at, leaves the descriptor open. There is no SSL.
-/

namespace Ithildin

namespace Sockets

/-! ### The state -/

/-- What `poll()` reports: `POLLIN`, `POLLOUT`, and one of `POLLERR`, `POLLHUP` and `POLLNVAL`. -/
structure Revents where
  pollin : Bool
  pollout : Bool
  pollerr : Bool
  deriving DecidableEq

def Revents.any (r : Revents) : Bool := r.pollin || r.pollout || r.pollerr

/-- An item of `pollfds`; the descriptor is none for `-1`. -/
structure PollFd where
  fd : Option ℕ
  pollin : Bool
  pollout : Bool
  revents : Revents
  deriving DecidableEq

/-- An item that is not in use. -/
def PollFd.unused : PollFd := ⟨none, false, false, ⟨false, false, false⟩⟩

/-- The pointer of a `struct isock_address`. -/
inductive Addr
  | null
  | held
  | freed
  deriving DecidableEq

/-- `struct isocket`, with the bits of `state` one by one. -/
structure ISocket where
  fd : Option ℕ
  sockaddr : Addr
  peeraddr : Addr
  err : ℤ
  isOpen : Bool
  listening : Bool
  connected : Bool
  readPending : Bool
  writePending : Bool
  errorPending : Bool
  wantRead : Bool
  wantWrite : Bool
  eof : Bool
  dead : Bool
  deriving DecidableEq

/-- A socket as `create_socket` makes it. -/
def ISocket.empty : ISocket :=
  ⟨none, .null, .null, 0, false, false, false, false, false, false, false, false, false, false⟩

/-- `SOCKET_FL_PENDING`. -/
def ISocket.pending (c : ISocket) : Bool := c.readPending || c.writePending || c.errorPending

/-- Where `main` is. -/
inductive Phase
  /-- Outside of `poll_sockets`. -/
  | rest
  /-- The loop of `poll_sockets` has come to the socket. -/
  | turn (sp : ℕ)
  /-- The hook of the socket runs. -/
  | hook (sp : ℕ)
  /-- `poll_sockets` has returned zero. -/
  | down
  deriving DecidableEq

@[ext] structure Sys where
  mem : ℕ → Option ISocket
  allsockets : List ℕ
  /-- The number of the next socket. -/
  next : ℕ
  cursockets : ℕ
  maxsockets : ℕ
  pollfds : List PollFd
  /-- The descriptors that are open. -/
  kernel : List ℕ
  /-- Those of the rest of the server. -/
  others : List ℕ
  phase : Phase

/-- The lowest descriptor that is free. -/
def lowest (kernel : List ℕ) : ℕ :=
  ((List.range (kernel.length + 1)).find? fun n => n ∉ kernel).getD 0

namespace Sys

variable (s : Sys) (p : ℕ)

/-- A socket is written. -/
def put (c : ISocket) : Sys := { s with mem := Function.update s.mem p (some c) }

/-! ### The functions of `socket.c` -/

/-- `socket_monitor`, for callers outside of the SSL code. -/
def socketMonitor (read write : Bool) : Option Sys := do
  let c ← s.mem p
  let n ← c.fd
  let e ← s.pollfds[n]?
  let s := s.put p
    { c with wantRead := c.wantRead || read, wantWrite := c.wantWrite || write }
  let e := { e with pollin := e.pollin || read, pollout := e.pollout || write, fd := some n }
  some { s with pollfds := s.pollfds.set n e }

/-- `socket_unmonitor`. -/
def socketUnmonitor (read write : Bool) : Option Sys := do
  let c ← s.mem p
  let n ← c.fd
  let e ← s.pollfds[n]?
  let s := s.put p
    { c with wantRead := c.wantRead && !read, wantWrite := c.wantWrite && !write }
  let e := { e with pollin := e.pollin && !read, pollout := e.pollout && !write }
  let e := { e with fd := if e.pollin || e.pollout then e.fd else none }
  some { s with pollfds := s.pollfds.set n e }

/-- `create_socket`: the pointer, and the state with the socket at the head of the list. -/
def createSocket : ℕ × Sys :=
  (s.next, { s.put s.next .empty with
    allsockets := s.next :: s.allsockets, next := s.next + 1 })

def EBADF : ℤ := 9

/-- The answer of a system call on the descriptor of a socket. -/
def onFd (c : ISocket) (answer : Option ℤ) : Option ℤ :=
  if c.fd = none then some EBADF else answer

/-- `close_socket`; `closed` is the error of `close()`, if there is one. -/
def closeSocket (closed : Option ℤ) : Option (Bool × Sys) := do
  let c ← s.mem p
  if !c.isOpen then
    some (false, s)
  else
    match onFd c closed with
    | some errno => some (false, s.put p { c with err := errno })
    | none =>
      let n ← c.fd
      let s := { s.put p { c with isOpen := false } with
        cursockets := (s.cursockets + (2 ^ 32 - 1)) % 2 ^ 32, kernel := s.kernel.erase n }
      let s ← s.socketUnmonitor p true true
      let c ← s.mem p
      some (true, s.put p { c with fd := none })

/-- `destroy_socket`. -/
def destroySocket (closed : Option ℤ) : Option Sys := do
  let (_, s) ← s.closeSocket p closed
  let c ← s.mem p
  some (s.put p { c with dead := true })

/-- `set_socket_address`: does it succeed, and what is the pointer then? `resolved` is the error of
`getaddrinfo()`. -/
def setSocketAddress : Addr → Option ℤ → Option (Bool × Addr)
  | .null, none => some (true, .held)
  | .null, some _ => some (false, .null)
  -- the old address is freed here, and once more when there is a new one
  | .held, none => none
  | .held, some _ => some (false, .freed)
  | .freed, _ => none

/-- `set_socket_address(isock_laddr(sock), ...)`. -/
def setLocalAddress (resolved : Option ℤ) : Option (Bool × Sys) := do
  let c ← s.mem p
  let (done, addr) ← setSocketAddress c.sockaddr resolved
  some (done, s.put p { c with sockaddr := addr })

/-- `open_socket`, with the errors of `socket()`, `fcntl()` and `bind()`. -/
def openSocket (made flagged bound : Option ℤ) : Option (Bool × Sys) := do
  let c ← s.mem p
  if c.sockaddr = .null ∨ c.isOpen then
    some (false, s)
  else if s.maxsockets ≤ s.cursockets then
    some (false, s)
  else
    match made with
    | some errno => some (false, s.put p { c with fd := none, err := errno })
    | none =>
      let n := lowest s.kernel
      let c := { c with fd := some n }
      match flagged with
      | some _ => some (false, s.put p c)
      | none =>
        let s := { s with kernel := n :: s.kernel }
        if c.sockaddr = .freed then
          none
        else
          match bound with
          | some errno => some (false, s.put p { c with err := errno })
          | none =>
            some (true, { s.put p { c with isOpen := true } with
              cursockets := (s.cursockets + 1) % 2 ^ 32 })

/-- `socket_listen`. -/
def socketListen (listened : Option ℤ) : Option (Bool × Sys) := do
  let c ← s.mem p
  if !c.isOpen then
    some (false, s)
  else
    match listened with
    | some errno => some (false, s.put p { c with err := errno })
    | none => some (true, s.put p { c with listening := true })

def EWOULDBLOCK : ℤ := 11

/-- `socket_accept`, with the errors of `accept()`, `fcntl()`, `close()` and `getsockname()`. With
too many sockets the connections that wait are accepted and closed. -/
def socketAccept (accepted flagged closed named : Option ℤ) : Option (Option ℕ × Sys) := do
  let c ← s.mem p
  if !c.listening then
    some (none, s)
  else if s.maxsockets ≤ s.cursockets then
    some (none, s)
  else
    match onFd c accepted with
    | some errno =>
      some (none, if errno = EWOULDBLOCK then s else s.put p { c with err := errno })
    | none =>
      let n := lowest s.kernel
      let (q, s) := s.createSocket
      let s := { s with kernel := n :: s.kernel }
      let new := { ISocket.empty with fd := some n, isOpen := true }
      match flagged with
      | some _ =>
        let s ← (s.put q new).destroySocket q closed
        some (none, s)
      | none =>
        some (some q, { s.put q { new with
            connected := true, peeraddr := .held, sockaddr := .held, err := named.getD 0 } with
          cursockets := (s.cursockets + 1) % 2 ^ 32 })

def EINPROGRESS : ℤ := 115

/-- `socket_connect`, with the errors of `getaddrinfo()` and `connect()`. -/
def socketConnect (resolved connected : Option ℤ) : Option (Bool × Sys) := do
  let c ← s.mem p
  if c.connected then
    some (false, s)
  else
    let (done, addr) ← setSocketAddress c.peeraddr resolved
    let c := { c with peeraddr := addr }
    if !done then
      some (false, s.put p c)
    else
      match onFd c connected with
      | none => some (true, s.put p { c with connected := true })
      | some errno =>
        if errno = EINPROGRESS then
          some (true, s.put p { c with connected := true })
        else
          some (false, s.put p { c with err := errno })

def EAGAIN : ℤ := 11

def EINTR : ℤ := 4

def INT_MAX : ℤ := 2 ^ 31 - 1

/-- `socket_read`, with what `recv()` returns and the error it leaves. -/
def socketRead (nbytes ret errno : ℤ) : Option (ℤ × Sys) := do
  let c ← s.mem p
  if !c.isOpen then
    some (-1, s)
  else if ¬ (0 < nbytes ∧ nbytes < INT_MAX) then
    none
  else if ret < 0 then
    if errno = EAGAIN ∨ errno = EINTR then
      some (0, s)
    else
      some (-1, s.put p { c with errorPending := true, err := errno })
  else if ret = 0 then
    if errno ≠ 0 then
      some (-1, s.put p { c with errorPending := true, err := errno })
    else
      some (-1, s.put p { c with errorPending := true, eof := true })
  else
    some (ret, s)

/-- `socket_write`, with what `send()` returns and the error it leaves. -/
def socketWrite (nbytes ret errno : ℤ) : Option (ℤ × Sys) := do
  let c ← s.mem p
  if !c.isOpen then
    some (-1, s)
  else if ¬ (0 < nbytes ∧ nbytes < INT_MAX) then
    none
  else
    let later := s.put p { c with writePending := false }
    if ret = -1 then
      if errno = EAGAIN ∨ errno = EINTR then
        let s ← if c.wantWrite then later.socketMonitor p false true else some later
        some (0, s)
      else
        some (-1, s.put p { c with errorPending := true, err := errno })
    else if ret ≠ nbytes ∧ c.wantWrite then
      let s ← later.socketMonitor p false true
      some (ret, s)
    else
      some (ret, s)

/-- The loop of `reap_dead_sockets`. -/
def reapFrom : List ℕ → Sys → Option Sys
  | [], s => some s
  | p :: l, s => do
      let c ← s.mem p
      if !c.dead then
        reapFrom l s
      else if c.sockaddr = .freed ∨ c.peeraddr = .freed then
        none
      else
        reapFrom l
          { s with mem := Function.update s.mem p none, allsockets := s.allsockets.erase p }

/-- `reap_dead_sockets`. -/
def reapDeadSockets : Option Sys := reapFrom s.allsockets s

/-- `adjust_maxsockets` when the configuration is read again; `l` is the entry, if there is one. -/
def adjustMaxsockets (l : Option ℤ) : Sys :=
  let l := l.map fun l => (l % 2 ^ 64).toNat
  if l = some 0 ∨ l = some s.maxsockets then
    s
  else
    let maxsockets := (l.map (· % 2 ^ 32)).getD s.maxsockets
    if maxsockets < s.maxsockets then
      { s with maxsockets := maxsockets }
    else
      { s with
        maxsockets := maxsockets
        pollfds := (s.pollfds.take s.maxsockets) ++
          List.replicate (maxsockets - s.maxsockets) .unused }

/-! ### The poller -/

/-- What `poll()` writes: of what it is asked about, and errors. -/
def report (answer : Revents) (e : PollFd) : Revents :=
  if e.fd = none then ⟨false, false, false⟩
  else ⟨answer.pollin && e.pollin, answer.pollout && e.pollout, answer.pollerr⟩

/-- `pollfds` after `poll(pollfds, maxsockets, ...)`. -/
def polled (answer : ℕ → Revents) : List PollFd :=
  s.pollfds.mapIdx fun i e =>
    if i < s.maxsockets then { e with revents := report (answer i) e } else e

/-- The loop of `poll_sockets` goes on to a socket, or is over. -/
def goto : Option ℕ → Sys
  | some sp => { s with phase := .turn sp }
  | none => { s with phase := .rest }

/-- The element behind one of a list. -/
def listNext : List ℕ → ℕ → Option ℕ
  | [], _ => none
  | q :: l, p => if q = p then l.head? else listNext l p

/-- `poll()` returns more than zero. -/
def reports (answer : ℕ → Revents) : Bool :=
  ((s.polled answer).take s.maxsockets).any fun e => e.revents.any

/-- `poll_sockets` up to the loop; no socket is visited if nothing is reported. -/
def pollSockets (answer : ℕ → Revents) : Sys :=
  let s' := { s with pollfds := s.polled answer }
  if s.reports answer then s'.goto s.allsockets.head? else s'

/-- A socket that can be written is no longer watched for it. -/
def takeOut (pollout : Bool) : Option Sys :=
  if pollout then s.socketUnmonitor p false true else some s

/-- The errors of the socket, and `socket_event` up to `hook_event`. `errno` is the error of the
write that is to fail, if it does. -/
def takeErr (pollerr : Bool) (errno : Option ℤ) : Option Sys := do
  let c ← s.mem p
  if pollerr then
    match errno with
    | none => some { s.put p { c with errorPending := true } with phase := .down }
    | some errno =>
      some { s.put p { c with errorPending := true, err := errno } with phase := .hook p }
  else if c.pending then
    some { s with phase := .hook p }
  else
    some (s.goto (listNext s.allsockets p))

/-- The body of the loop up to `hook_event`. -/
def visit (errno : Option ℤ) : Option Sys := do
  let c ← s.mem p
  if c.dead then
    some (s.goto (listNext s.allsockets p))
  else
    match c.fd with
    | none => some (s.goto (listNext s.allsockets p))
    | some n =>
      let e ← s.pollfds[n]?
      let c := { c with
        readPending := c.readPending || e.revents.pollin
        writePending := c.writePending || e.revents.pollout }
      let s ← (s.put p c).takeOut p e.revents.pollout
      s.takeErr p e.revents.pollerr errno

/-- The body of the loop behind `hook_event`. -/
def finish : Option Sys := do
  let c ← s.mem p
  let s := s.put p { c with readPending := false, writePending := false, errorPending := false }
  some (s.goto (listNext s.allsockets p))

end Sys

/-! ### The steps -/

/-- The calls of the functions that the rest of the server makes. -/
inductive Call
  | createSocket
  | destroySocket (p : ℕ) (closed : Option ℤ)
  | setLocalAddress (p : ℕ) (resolved : Option ℤ)
  | openSocket (p : ℕ) (made flagged bound : Option ℤ)
  | closeSocket (p : ℕ) (closed : Option ℤ)
  | socketListen (p : ℕ) (listened : Option ℤ)
  | socketAccept (p : ℕ) (accepted flagged closed named : Option ℤ)
  | socketConnect (p : ℕ) (resolved connected : Option ℤ)
  | socketRead (p : ℕ) (nbytes ret errno : ℤ)
  | socketWrite (p : ℕ) (nbytes ret errno : ℤ)
  | socketMonitor (p : ℕ) (read write : Bool)
  | socketUnmonitor (p : ℕ) (read write : Bool)
  deriving DecidableEq

/-- The state after a call. -/
def call (s : Sys) : Call → Option Sys
  | .createSocket => some s.createSocket.2
  | .destroySocket p closed => s.destroySocket p closed
  | .setLocalAddress p resolved => (s.setLocalAddress p resolved).map Prod.snd
  | .openSocket p made flagged bound => (s.openSocket p made flagged bound).map Prod.snd
  | .closeSocket p closed => (s.closeSocket p closed).map Prod.snd
  | .socketListen p listened => (s.socketListen p listened).map Prod.snd
  | .socketAccept p accepted flagged closed named =>
      (s.socketAccept p accepted flagged closed named).map Prod.snd
  | .socketConnect p resolved connected => (s.socketConnect p resolved connected).map Prod.snd
  | .socketRead p nbytes ret errno => (s.socketRead p nbytes ret errno).map Prod.snd
  | .socketWrite p nbytes ret errno => (s.socketWrite p nbytes ret errno).map Prod.snd
  | .socketMonitor p read write => s.socketMonitor p read write
  | .socketUnmonitor p read write => s.socketUnmonitor p read write

inductive Act
  | call (c : Call)
  | adjust (l : Option ℤ)
  | otherOpen
  | otherClose (n : ℕ)
  | poll (answer : ℕ → Revents)
  | visit (errno : Option ℤ)
  | done
  | reap

/-- What is not due changes nothing. -/
def step (s : Sys) : Act → Option Sys
  | .call c => call s c
  | .adjust l => some (s.adjustMaxsockets l)
  | .otherOpen =>
      some { s with
        kernel := lowest s.kernel :: s.kernel, others := lowest s.kernel :: s.others }
  | .otherClose n =>
      some (if n ∈ s.others then
        { s with kernel := s.kernel.erase n, others := s.others.erase n } else s)
  | .poll answer => some (if s.phase = .rest then s.pollSockets answer else s)
  | .visit errno =>
      match s.phase with
      | .turn sp => s.visit sp errno
      | _ => some s
  | .done =>
      match s.phase with
      | .hook sp => s.finish sp
      | _ => some s
  | .reap => if s.phase = .rest then s.reapDeadSockets else some s

/-- The start, with the descriptors that are open already. -/
def start (others : List ℕ) (maxsockets : ℕ) : Sys where
  mem _ := none
  allsockets := []
  next := 0
  cursockets := 0
  maxsockets := maxsockets
  pollfds := List.replicate maxsockets .unused
  kernel := others
  others := others
  phase := .rest

end Sockets

end Ithildin
