import Ithildin.Match
import Mathlib.Logic.Function.Basic

/-!
# The tree of servers

Servers, clients and connections are referred to by number, as the source refers to them by
pointer.

* `Net`: the server list, the client list and the connections of one server process;
* `findServer`, `srvServerUplink`, `cliServerUplink`: the look-ups of `server.c` and `send.c`;
* `destroyClient`, `destroyServer`: what is unlinked when a client or a server goes.

Messages to others are left out: they are queued and take effect later.
-/

namespace Ithildin

/-- A `server` block of the configuration. -/
structure ServerConf where
  address : Option Bytes
  theirpass : Option Bytes
  protocol : Option Bytes
  hub : List Bytes
  master : Bool
  hidden : Bool
  deriving DecidableEq

/-- `struct server`. -/
structure Server where
  name : Bytes
  parent : Option ℕ
  conn : Option ℕ
  conf : Option ServerConf
  hops : ℤ
  registered : Bool
  introduced : Bool
  hub : Bool
  master : Bool
  hidden : Bool
  deriving DecidableEq

/-- What `create_server` makes: all zero but for the connection. -/
def Server.blank (conn : Option ℕ) : Server :=
  ⟨[], none, conn, none, 0, false, false, false, false, false⟩

/-- `struct client`, as far as the tree is concerned; `squitRemote` is the privilege to cut off
servers that are not direct links. -/
structure Client where
  nick : Bytes
  server : ℕ
  conn : Option ℕ
  squitRemote : Bool
  deriving DecidableEq

/-- A connection: the server it is, if it is one, the address and password it came with, and the
name on its certificate, if it has one, when it uses SSL. -/
structure Connection where
  srv : Option ℕ
  ip : Bytes
  pass : Option Bytes
  ssl : Option (Option Bytes)
  deriving DecidableEq

/-- The state of `ircd` that concerns servers: `ircd.me`, the objects, the lists
`ircd.lists.servers` and `ircd.lists.clients`, the connections that exist and the list
`ircd.connections.servers` of those that became servers, the counters, the configuration, and
`fault`, set when a list walk has stepped to an element that is no longer on its list. -/
structure Net where
  me : ℕ
  srv : ℕ → Server
  cli : ℕ → Client
  connection : ℕ → Connection
  servers : List ℕ
  clients : List ℕ
  conns : List ℕ
  serverConns : List ℕ
  statServers : ℤ
  statServServers : ℤ
  conf : Bytes → Option ServerConf
  protocol : Bytes → Bool
  sameNick : Bytes → Bytes → Bool
  fresh : ℕ
  fault : Bool

namespace Net

variable (net : Net)

/-- A server's record is changed. -/
def modifyServer (s : ℕ) (f : Server → Server) : Net :=
  { net with srv := Function.update net.srv s (f (net.srv s)) }

/-- `MYSERVER`. -/
def myServer (s : ℕ) : Bool := (net.srv s).conn.isSome

/-- `MYCLIENT`. -/
def myClient (c : ℕ) : Bool := (net.cli c).server == net.me

/-- `find_server`: ourselves first, then the list, by mask. -/
def findServer (name : Bytes) : Option ℕ :=
  if stringMatch name (net.srv net.me).name then some net.me
  else net.servers.find? fun s => stringMatch name (net.srv s).name

/-- `find_client`. -/
def findClient (nick : Bytes) : Option ℕ :=
  net.clients.find? fun c => net.sameNick nick (net.cli c).nick

/-- The loop of `srv_server_uplink`, up to the child of `ircd.me` or of nobody. -/
def uplinkFrom : ℕ → ℕ → ℕ
  | 0, s => s
  | n + 1, s =>
      match (net.srv s).parent with
      | some p => if p = net.me then s else uplinkFrom n p
      | none => s

/-- `srv_server_uplink`: the link that leads to a server. -/
def srvServerUplink (s : ℕ) : Option ℕ :=
  if s = net.me then none else some (net.uplinkFrom net.servers.length s)

/-- `cli_server_uplink`: the link that leads to a client, or ourselves. -/
def cliServerUplink (c : ℕ) : Option ℕ :=
  if net.myClient c then some net.me else net.srvServerUplink (net.cli c).server

/-- The end of `destroy_connection`. -/
def closeConnection (c : ℕ) : Net :=
  { net with
    conns := net.conns.filter (· ≠ c)
    serverConns := net.serverConns.filter (· ≠ c) }

/-- The connection of an object that goes is closed with it. -/
def closeOwn : Option ℕ → Net
  | none => net
  | some c => net.closeConnection c

/-- `destroy_client`: the client's connection, if any, and the client. -/
def destroyClient (c : ℕ) : Net :=
  { net.closeOwn (net.cli c).conn with clients := net.clients.filter (· ≠ c) }

/-- `LIST_NEXT`. -/
def nextOf (l : List ℕ) (x : ℕ) : Option ℕ := (l.dropWhile (· ≠ x)).tail.head?

/-- A list walk reads the element `sp`, which should still be on the list. -/
def readServer (sp : ℕ) : Net := { net with fault := net.fault || !net.servers.contains sp }

/-- The walk of `destroy_server` over the servers, from `sp` on: the children of `s` go.  The next
element is read before the current one is destroyed. -/
def dropChildren (destroy : Net → ℕ → Net) (s : ℕ) : ℕ → Option ℕ → Net → Net
  | 0, _, net => net
  | _ + 1, none, net => net
  | n + 1, some sp, net =>
      let sp2 := nextOf net.servers sp
      let net := net.readServer sp
      let net := if (net.srv sp).parent = some s then destroy net sp else net
      dropChildren destroy s n sp2 net

/-- The walk over the clients: those of `s` go. -/
def dropClients (s : ℕ) : Net :=
  net.clients.foldl (fun net c => if (net.cli c).server = s then net.destroyClient c else net) net

/-- A registered server leaves the list and the counters. -/
def unlinkServer (s : ℕ) : Net :=
  { net with
    servers := net.servers.filter (· ≠ s)
    statServers := net.statServers - 1
    statServServers := if net.myServer s then net.statServServers - 1 else net.statServServers }

/-- `destroy_server`, nested at most `n` deep. -/
def destroyServer : ℕ → Net → ℕ → Net
  | 0, net, _ => net
  | n + 1, net, s =>
      let rest :=
        if (net.srv s).registered then
          ((dropChildren (destroyServer n) s net.servers.length net.servers.head? net).dropClients
            s).unlinkServer s
        else net
      rest.closeOwn (net.srv s).conn

/-- `destroy_server`: no chain of servers is longer than the list. -/
def destroy (s : ℕ) : Net := destroyServer (net.servers.length + 1) net s

end Net

end Ithildin
