import Ithildin.Acl.Hash
import Ithildin.Lib.Cursor
import Ithildin.Lib.Run
import Mathlib.Logic.Function.Basic

/-!
# The lookups of new connections

`connection_init_lookups`, `connection_lookup_hook`, `connection_ident_hook` and
`connection_stage2_done`, as a step system. `dns_lookup` and `check_ident` may call the hooks before
they return; what waits for them is on the stack `frames`, the innermost call first.

The environment decides which answers come when, and what the hooks of the two stages say. A step is
one turn of the loop of `connection_lookup_hook`, or a call from outside up to the next call of
`dns_lookup` or `check_ident`, or what follows such a call. Each ends with the same test, which may
run `connection_stage2_done`.

A state ends the run if the program touches a connection that is not there. A step is missing where
the program crashes.
-/

namespace Ithildin

namespace Connections

/-! ### Connections and answers -/

/-- `DNS_T_A`, `DNS_T_PTR` and `DNS_T_AAAA`. -/
def DNS_T_A : ℕ := 1
def DNS_T_PTR : ℕ := 12
def DNS_T_AAAA : ℕ := 28

/-- The socket of a connection: the address of the peer in numbers, as `get_socket_address` writes
it, whether it is one of IPv6, and what `connection_ident_hook` compares. -/
structure Peer where
  text : Bytes
  short : text.length ≤ HOSTLEN
  inet6 : Bool
  sock : ℕ

/-- `connection_t`, with its flags `IRCD_CONNFL_DNS_PTR`, `_DNS_ADDR`, `_IDENT`, `_STAGE2` and
`_SSLINIT`. -/
structure Connection where
  peer : Peer
  host : Bytes
  user : Bytes
  dnsPtr : Bool
  dnsAddr : Bool
  ident : Bool
  stage2 : Bool
  sslInit : Bool

/-- `struct dns_rr`, as the hook reads it. -/
structure Record where
  type : ℕ
  rdlen : ℕ
  txt : Option Bytes

/-- `dns_lookup_t`, as the hook reads it. -/
structure DnsLookup where
  type : ℕ
  data : Bytes
  failed : Bool
  an : List Record

namespace Connection

variable (c : Connection)

/-- `c->flags & IRCD_CONNFL_DNS`: one of the two bits is enough. -/
def dns : Bool := c.dnsPtr || c.dnsAddr

/-- `IRCD_CONN_DONE`. -/
def isDone : Bool := c.dnsPtr && c.dnsAddr && c.ident

/-- `IRCD_CONN_NEED_STAGE2`. -/
def needStage2 : Bool := !c.stage2

/-- The type of the records that confirm a name. -/
def addrType : ℕ := if c.peer.inet6 then DNS_T_AAAA else DNS_T_A

/-- A connection that was made just now. -/
def new (peer : Peer) : Connection := ⟨peer, peer.text, [], false, false, false, false, false⟩

end Connection

/-- A record that lists the address of the peer. -/
def Record.lists (rr : Record) (c : Connection) : Bool :=
  rr.type == c.addrType && decide (0 < rr.rdlen) && rr.txt.any fun txt => sameCase txt c.peer.text

/-- What the body of the loop does with a connection, up to the test at its end: it goes on to the
next one, or the lookup is over, or the address of the name is looked up. -/
inductive Outcome
  | skipped
  | settled (c : Connection)
  | asks (c : Connection)

namespace DnsLookup

variable (dlp : DnsLookup) (c : Connection)

/-- The branch for reverse lookups; a record without data is a null pointer to `strlcpy`. -/
def reverse : Option Outcome :=
  if c.dns ∨ ¬ sameCase c.host dlp.data then some .skipped
  else
    match dlp.an.find? fun rr => rr.type == DNS_T_PTR with
    | none => some (.settled { c with dnsPtr := true, dnsAddr := true })
    | some rr =>
        if dlp.failed then some (.settled { c with dnsPtr := true, dnsAddr := true })
        else rr.txt.map fun txt => .asks { c with host := txt.take HOSTLEN, dnsPtr := true }

/-- The branch for forward lookups. -/
def forward (okay : HostMap) : Outcome :=
  if ¬ c.dns ∨ ¬ sameCase c.host dlp.data then .skipped
  else if dlp.failed ∨ ¬ dlp.an.any fun rr => rr.lists c then
    .settled { c with host := c.peer.text, dnsPtr := true, dnsAddr := true }
  else
    .settled { c with
      host := if c.host.all okay then c.host else c.peer.text
      dnsAddr := true }

/-- The body of the loop of `connection_lookup_hook`. -/
def outcome (okay : HostMap) : Option Outcome :=
  if dlp.type = DNS_T_PTR then dlp.reverse c else some (dlp.forward c okay)

end DnsLookup

/-! ### The server -/

/-- What is under way. -/
inductive Frame
  /-- The loop of `connection_lookup_hook`, at its head. -/
  | walk (dlp : DnsLookup) (c : Option ℕ)
  /-- The `dns_lookup` of `connection_lookup_hook` for `c`; the loop has saved the next one. -/
  | resolving (dlp : DnsLookup) (c : ℕ) (c2 : Option ℕ)
  /-- The `dns_lookup` of `connection_init_lookups`. -/
  | lookingUp (c : ℕ)
  /-- The `check_ident` of `connection_init_lookups`. -/
  | identifying (c : ℕ)

/-- The connections in memory, and the lists of the first two stages; `next` numbers connections.
The last three fields are not in the program. -/
structure State where
  mem : ℕ → Option Connection
  next : ℕ
  stage1 : List ℕ
  stage2 : List ℕ
  frames : List Frame
  /-- Has a connection been touched that is not there? -/
  fault : Bool
  /-- The runs of `connection_stage2_done`, with what they were given. -/
  passed : List (ℕ × Connection)
  /-- The lookups that `connection_lookup_hook` was called with. -/
  answers : List DnsLookup

/-- What may happen. `refuse` is what the hooks of stage 2 say. -/
inductive Action
  /-- A connection is accepted: the lookups that stage 1 marks as done, unless it refuses; does an
  SSL handshake go on? -/
  | accept (peer : Peer) (stage1 : Option (Bool × Bool)) (ssl : Bool) (refuse : Bool)
  /-- The first data of an SSL connection. -/
  | handshake (c : ℕ) (refuse : Bool)
  /-- A lookup is finished. -/
  | answer (dlp : DnsLookup)
  /-- The loop of `connection_lookup_hook` goes on. -/
  | next (refuse : Bool)
  /-- A `dns_lookup` or a `check_ident` returns. -/
  | ret (refuse : Bool)
  /-- An ident request is answered. -/
  | ident (sock : ℕ) (answer : Bytes) (refuse : Bool)
  /-- A connection is destroyed. -/
  | close (c : ℕ)
  /-- A connection becomes a client or a server. -/
  | register (c : ℕ)
  /-- `server_connect` makes a connection. -/
  | link (peer : Peer)

/-- What the hooks of stage 2 say. -/
def Action.refuses : Action → Bool
  | .accept _ _ _ refuse | .handshake _ refuse | .next refuse | .ret refuse | .ident _ _ refuse =>
      refuse
  | _ => false

namespace State

/-- No connections. -/
def start : State := ⟨fun _ => none, 0, [], [], [], false, [], []⟩

variable (s : State) (c : ℕ)

/-- A connection is written to. -/
def write (conn : Connection) : State := { s with mem := Function.update s.mem c (some conn) }

/-- Something is touched that is not there. -/
def broken : State := { s with fault := true }

/-- `LIST_REMOVE`. -/
def remove : State := { s with stage1 := s.stage1.erase c, stage2 := s.stage2.erase c }

/-- `destroy_connection`. -/
def destroy : State := { s.remove c with mem := Function.update s.mem c none }

/-- `LIST_NEXT`, on the list that the connection is on. -/
def nextOf : Option ℕ :=
  if c ∈ s.stage1 then (Cursor.behind id c s.stage1).head?
  else (Cursor.behind id c s.stage2).head?

/-- `connection_stage2_done`. -/
def stage2Done (conn : Connection) (refuse : Bool) : State :=
  let t := { s with passed := (c, conn) :: s.passed }
  if refuse then t.destroy c else { t.remove c with stage2 := c :: (t.remove c).stage2 }

/-- `if (IRCD_CONN_DONE(c) && IRCD_CONN_NEED_STAGE2(c)) connection_stage2_done(c);`, the last line
of the functions. -/
def test (refuse : Bool) : State :=
  match s.mem c with
  | none => s.broken
  | some conn => if conn.isDone ∧ conn.needStage2 then s.stage2Done c conn refuse else s

/-- A function up to its last line; without a connection it does not come to that. -/
abbrev Part := State × Option ℕ

/-- `connection_init_lookups` when `dns_lookup` is behind it. -/
def checkIdent : Part :=
  match s.mem c with
  | none => (s.broken, none)
  | some conn =>
      if conn.ident then (s, some c) else ({ s with frames := .identifying c :: s.frames }, none)

/-- `connection_init_lookups`. -/
def initLookups : Part :=
  match s.mem c with
  | none => (s.broken, none)
  | some conn =>
      if conn.dns then s.checkIdent c else ({ s with frames := .lookingUp c :: s.frames }, none)

/-- `ircd_listen_hook` for one socket. -/
def listen (peer : Peer) (stage1 : Option (Bool × Bool)) (ssl : Bool) : Part :=
  match stage1 with
  | none => ({ s with next := s.next + 1 }, none)
  | some (skipDns, skipIdent) =>
      let conn : Connection :=
        { Connection.new peer with
          dnsPtr := skipDns
          dnsAddr := skipDns
          ident := skipIdent
          sslInit := ssl }
      let t := { s.write s.next conn with next := s.next + 1, stage1 := s.next :: s.stage1 }
      if ssl then (t, none) else t.initLookups s.next

/-- `ircd_connection_datahook` for a connection whose handshake was going on. -/
def handshake : Option Part :=
  (s.mem c).bind fun conn =>
    if conn.sslInit then some ((s.write c { conn with sslInit := false }).initLookups c) else none

/-- One turn of the loop of `connection_lookup_hook`; `fs` is below it on the stack. -/
def lookupTurn (okay : HostMap) (dlp : DnsLookup) (fs : List Frame) : Option Part :=
  match s.mem c with
  | none => some (s.broken, none)
  | some conn =>
      let loop := { s with frames := .walk dlp (s.nextOf c) :: fs }
      (dlp.outcome conn okay).map fun
        | .skipped => (loop, none)
        | .settled conn => (loop.write c conn, some c)
        | .asks conn =>
            ({ loop with frames := .resolving dlp c (s.nextOf c) :: fs }.write c conn, none)

/-- The connection that an ident request was for. -/
def identFound (sock : ℕ) : Option ℕ :=
  s.stage1.find? fun c => (s.mem c).any fun conn => conn.peer.sock == sock

/-- `connection_ident_hook`. -/
def identHook (sock : ℕ) (answer : Bytes) : Part :=
  match s.identFound sock with
  | none => (s, none)
  | some c =>
      match s.mem c with
      | none => (s.broken, none)
      | some conn =>
          let user := if answer = [] then bytes "~" else answer.take USERLEN
          (s.write c { conn with ident := true, user := user }, some c)

/-- A lookup is finished by the poll loop, or by `dns_lookup`. -/
def takesAnswer : Bool :=
  match s.frames with
  | [] | .resolving _ _ _ :: _ | .lookingUp _ :: _ => true
  | _ => false

/-- An ident request is answered by the poll loop, or by the `check_ident` that made it. -/
def takesIdent (sock : ℕ) : Bool :=
  match s.frames with
  | [] => true
  | .identifying c :: _ => (s.mem c).any fun conn => conn.peer.sock == sock
  | _ => false

/-- What follows when a `dns_lookup` or a `check_ident` returns. -/
def returned : Option Part :=
  match s.frames with
  | .resolving dlp c c2 :: fs => some ({ s with frames := .walk dlp c2 :: fs }, some c)
  | .lookingUp c :: fs => some ({ s with frames := fs }.checkIdent c)
  | .identifying c :: fs => some ({ s with frames := fs }, some c)
  | _ => none

/-- An action up to the test at its end. -/
def part (okay : HostMap) : Action → Option Part
  | .accept peer stage1 ssl _ => if s.frames.isEmpty then some (s.listen peer stage1 ssl) else none
  | .handshake c _ => if s.frames.isEmpty then s.handshake c else none
  | .answer dlp =>
      if s.takesAnswer then
        some ({ s with
          frames := .walk dlp s.stage1.head? :: s.frames
          answers := dlp :: s.answers }, none)
      else none
  | .next _ =>
      match s.frames with
      | .walk _ none :: fs => some ({ s with frames := fs }, none)
      | .walk dlp (some c) :: fs => s.lookupTurn c okay dlp fs
      | _ => none
  | .ret _ => s.returned
  | .ident sock answer _ => if s.takesIdent sock then some (s.identHook sock answer) else none
  | .close c =>
      if s.frames.isEmpty ∧ (c ∈ s.stage1 ∨ c ∈ s.stage2) then some (s.destroy c, none) else none
  | .register c =>
      if s.frames.isEmpty ∧ c ∈ s.stage2 ∧ (s.mem c).any fun conn => !conn.sslInit then
        some (s.remove c, none)
      else none
  | .link peer =>
      if s.frames.isEmpty then
        some ({ s.write s.next { Connection.new peer with user := bytes "<unknown>" } with
          next := s.next + 1
          stage2 := s.next :: s.stage2 }, none)
      else none

/-- The test at the end. -/
def finish (refuse : Bool) (p : Part) : State := p.2.elim p.1 fun c => p.1.test c refuse

/-- One action. -/
def step (okay : HostMap) (s : State) (a : Action) : Option State :=
  if s.fault then none else (s.part okay a).map (finish a.refuses)

end State

/-- A connection from 10.1.2.3. -/
def visitor : Peer := ⟨bytes "10.1.2.3", by decide, false, 7⟩

/-- The name of an address, and the address of a name. -/
def found (type : ℕ) (data answer : Bytes) : DnsLookup :=
  ⟨type, data, false, [⟨type, answer.length + 1, some answer⟩]⟩

/-- A connection whose lookups are answered one after the other. -/
def visit : List Action :=
  [.accept visitor (some (false, false)) false false, .ret false, .ret false,
    .answer (found DNS_T_PTR (bytes "10.1.2.3") (bytes "host.net")), .next false, .ret false,
    .next false, .answer (found DNS_T_A (bytes "host.net") (bytes "10.1.2.3")), .next false,
    .next false, .ident 7 (bytes "user") false]

end Connections

end Ithildin
