import Ithildin.Server.Tree
import Ithildin.Numbers

/-!
# The SQUIT and SERVER commands

* `serverSquit`, `clientSquit`: `squit.c`, for a server's and a client's line;
* `serverServer`, `clientServer`: `commands/server.c`;
* `commandExecServer`, `commandExecClient`: the checks of `command.c` before a command runs;
* `execLine`: a line read from a server connection.

A command yields its return value and the state after it.
-/

namespace Ithildin

/-- `IRCD_CONNECTION_CLOSED`. -/
def IRCD_CONNECTION_CLOSED : ℤ := -1

/-- `IRCD_PROTOCOL_CHANGED`. -/
def IRCD_PROTOCOL_CHANGED : ℤ := -2

/-- `COMMAND_WEIGHT_NONE`. -/
def COMMAND_WEIGHT_NONE : ℤ := 0

/-- `ERR_NOTREGISTERED`. -/
def ERR_NOTREGISTERED : ℤ := 451

/-- `ERR_NEEDMOREPARAMS`. -/
def ERR_NEEDMOREPARAMS : ℤ := 461

namespace Net

variable (net : Net)

/-- `SERVER_COMMAND(squit)`; `args` are `argv[1]` and on. -/
def serverSquit (srv : ℕ) (args : List Bytes) : ℤ × Net :=
  match args with
  | [] => (IRCD_CONNECTION_CLOSED, net.destroy srv)
  | target :: _ =>
      match net.findServer target with
      | none => (0, net)
      | some sp =>
          if sp = net.me then (0, net)
          else (if sp = srv then IRCD_CONNECTION_CLOSED else 0, net.destroy sp)

/-- `CLIENT_COMMAND(squit)`. -/
def clientSquit (cli : ℕ) (args : List Bytes) : ℤ × Net :=
  let target := args.headD []
  match net.findServer target with
  | none => (COMMAND_WEIGHT_NONE, net)
  | some sp =>
      if net.myClient cli ∧ ¬ net.myServer sp ∧ ¬ (net.cli cli).squitRemote then
        (COMMAND_WEIGHT_NONE, net)
      else if net.myClient cli ∧ (net.findClient target = some cli ∨ sp = net.me) then
        (IRCD_CONNECTION_CLOSED, net.destroyClient cli)
      else (COMMAND_WEIGHT_NONE, net.destroy sp)

/-- `server_set_flags`. -/
def setFlags (s : ℕ) : Net :=
  match (net.srv s).conf with
  | none => net
  | some conf =>
      let up := (net.srv s).parent.map net.srv
      net.modifyServer s fun v =>
        { v with
          hub := ! conf.hub.isEmpty
          master := conf.master || (up.map Server.master).getD false
          hidden := conf.hidden || (up.map Server.hidden).getD false }

/-- The connection of a server that registers moves among those of servers, and its password is
cleaned out. -/
def registerConn : Option ℕ → Net
  | none => net
  | some c =>
      { net with
        statServServers := net.statServServers + 1
        serverConns := c :: net.serverConns.filter (· ≠ c)
        connection := Function.update net.connection c { net.connection c with pass := none } }

/-- `server_register`: the server goes to the head of the list. -/
def registerServer (s : ℕ) : Net :=
  ({ net with servers := s :: net.servers, statServers := net.statServers + 1 }.registerConn
    (net.srv s).conn).modifyServer s fun v => { v with registered := true }

/-- The checks of a link's credentials: the certificate's name under SSL, otherwise the address and
the password. -/
def authentic (conf : ServerConf) (name : Bytes) (c : Connection) : Bool :=
  match c.ssl with
  | some cert => (cert.map fun cn => cn.map toLower) == some (name.map toLower)
  | none => conf.address == some c.ip && conf.theirpass.isSome && conf.theirpass == c.pass

/-- The number of registered servers among the server connections. -/
def linkCount : ℕ :=
  net.serverConns.countP fun c => ((net.connection c).srv.map net.srv).any Server.registered

/-- The link is let in, or destroyed when its credentials fail: its data are filled in first. -/
def admitLink (srv : ℕ) (name : Bytes) (conf : ServerConf) : ℤ × Net :=
  let filled := (net.modifyServer srv fun v =>
    { v with name := name, hops := 1, parent := some net.me }).setFlags srv
  if ((filled.srv srv).conn.map filled.connection).all (authentic conf name) then
    (0, (filled.modifyServer srv fun v => { v with introduced := true }).registerServer srv)
  else (IRCD_CONNECTION_CLOSED, filled.destroy srv)

/-- `SERVER_COMMAND(server)` from a link that is not registered: the link introduces itself. -/
def introduceSelf (srv : ℕ) (name : Bytes) : ℤ × Net :=
  let known := net.modifyServer srv fun v => { v with conf := net.conf name }
  match net.conf name with
  | none => (IRCD_CONNECTION_CLOSED, known.destroy srv)
  | some conf =>
      if (known.findServer name).any (· ≠ srv) then (IRCD_CONNECTION_CLOSED, known.destroy srv)
      else if 1 < known.linkCount ∧ ¬ (known.srv known.me).hub then
        (IRCD_CONNECTION_CLOSED, known.destroy srv)
      else known.admitLink srv (name.take SERVLEN) conf

/-- A new server behind `srv`. -/
def createServer (srv : ℕ) (name hops : Bytes) : Net :=
  let sp := net.fresh
  (({ net with fresh := sp + 1 }.modifyServer sp fun _ =>
    { Server.blank none with
      name := name.take SERVLEN
      hops := strConvInt hops 1
      parent := some srv
      conf := net.conf name }).setFlags sp).registerServer sp

/-- `SERVER_COMMAND(server)` from a server that is registered: it introduces another one. -/
def introduceOther (srv : ℕ) (name hops : Bytes) : ℤ × Net :=
  let hubs := ((net.srv srv).conf.map ServerConf.hub).getD []
  if net.myServer srv ∧ ¬ hubs.any fun mask => stringMatch mask name then
    (IRCD_CONNECTION_CLOSED, net.destroy srv)
  else if (net.findServer name).isSome then
    (IRCD_CONNECTION_CLOSED, ((net.srvServerUplink srv).map net.destroy).getD net)
  else (0, net.createServer srv name hops)

/-- `SERVER_COMMAND(server)`. -/
def serverServer (srv : ℕ) (args : List Bytes) : ℤ × Net :=
  let name := args.headD []
  if net.myServer srv ∧ ¬ (net.srv srv).registered then net.introduceSelf srv name
  else net.introduceOther srv name (args.getD 1 [])

/-- `set_connection_protocol` for a server protocol: the client that had the connection is destroyed
without it, and a blank server takes it over. -/
def becomeServer (cli c : ℕ) : Net :=
  let sp := net.fresh
  let bare := { net with cli := Function.update net.cli cli { net.cli cli with conn := none } }
  let gone := bare.destroyClient cli
  { gone with
    connection := Function.update gone.connection c { gone.connection c with srv := some sp }
    fresh := sp + 1 }.modifyServer sp fun _ => Server.blank (some c)

/-- `CLIENT_COMMAND(server)`: a client's connection becomes a server's.  Without a connection the
assertion on it aborts the process. -/
def clientServer (cli : ℕ) (args : List Bytes) : Option (ℤ × Net) :=
  match (net.conf (args.headD [])).bind ServerConf.protocol with
  | none => some (IRCD_CONNECTION_CLOSED, net.destroyClient cli)
  | some proto =>
      if ¬ net.protocol proto then some (IRCD_CONNECTION_CLOSED, net.destroyClient cli)
      else
        (net.cli cli).conn.map fun c =>
          let r := (net.becomeServer cli c).serverServer net.fresh args
          (if r.1 = 0 then IRCD_PROTOCOL_CHANGED else r.1, r.2)

/-! ### From a line to a command -/

/-- The two commands. -/
inductive Command
  | squit
  | server
  deriving DecidableEq

/-- The fewest arguments a server's line may have. -/
def Command.serverMin : Command → ℕ
  | .squit => 0
  | .server => 3

/-- The fewest arguments a client's line may have. -/
def Command.clientMin : Command → ℕ
  | .squit => 1
  | .server => 3

/-- `command_exec_server`, for a line that arrived from the server `sptr`. -/
def commandExecServer (sptr srv : ℕ) (cmd : Command) (args : List Bytes) : ℤ × Net :=
  if net.srvServerUplink srv ≠ some sptr then (0, net)
  else if args.length < cmd.serverMin then (ERR_NEEDMOREPARAMS, net)
  else if net.myServer srv ∧ ¬ (net.srv srv).registered ∧ cmd ≠ .server then
    (ERR_NOTREGISTERED, net)
  else
    match cmd with
    | .squit => net.serverSquit srv args
    | .server => net.serverServer srv args

/-- `command_exec_client`, for a line that arrived from the server `sptr`: the client is not ours,
so the checks made of our clients do not apply. -/
def commandExecClient (sptr cli : ℕ) (cmd : Command) (args : List Bytes) : Option (ℤ × Net) :=
  if net.cliServerUplink cli ≠ some sptr then some (0, net)
  else if args.length < cmd.clientMin then some (ERR_NEEDMOREPARAMS, net)
  else
    match cmd with
    | .squit => some (net.clientSquit cli args)
    | .server => net.clientServer cli args

/-- Who a line names as its sender; without a prefix it is the link itself. -/
inductive Sender
  | server (s : ℕ)
  | client (c : ℕ)
  deriving DecidableEq

/-- A line read from the connection of the server `sptr`; nothing when the process aborts. -/
def execLine (sptr : ℕ) (sender : Sender) (cmd : Command) (args : List Bytes) :
    Option (ℤ × Net) :=
  match sender with
  | .server srv => some (net.commandExecServer sptr srv cmd args)
  | .client cli => net.commandExecClient sptr cli cmd args

end Net

end Ithildin
