import Ithildin.Address
import Ithildin.Lib.Run
import Mathlib.Logic.Function.Basic

/-!
# The nickname service

* `Regnick`, `NickClient`, `NickServ`: the registered nicks, where they lie in memory, and the
  clients with the nicks they are taken to own;
* `hasAccessToNick`: whether a client may use a nick;
* `registerHook`, `unregisterHook`: `nick_register_hook`, for clients that come and go;
* `nsRegister`, `nsIdentify`, `nsDrop`, `nsAuth`, `nsAccess`: the commands;
* `dbSync`: `db_write_file`, which also lets nicks expire.

Replies, mail contacts but for their counts, and the fields of a nick that only replies show are
left out, and so is `SET`, which changes `flags` alone. A step that is none ends the run: the
program touches freed memory there, follows a null pointer, writes behind a buffer or does not
return.
-/

namespace Ithildin

/-- The bits of `intflags`. -/
def NICK_IFL_HELD : BitVec 64 := 0x04
def NICK_IFL_SYNCED : BitVec 64 := 0x08
def NICK_IFL_MAILED : BitVec 64 := 0x10
def NICK_IFL_ACTIVATED : BitVec 64 := 0x20
def NICK_IFL_MASKACCESS : BitVec 64 := 0x40
def NICK_IFL_IDACCESS : BitVec 64 := 0x80
def NICK_IFL_ACCESS : BitVec 64 := NICK_IFL_MASKACCESS ||| NICK_IFL_IDACCESS

/-- The room for a password, `PASSWDLEN`. -/
def NICK_PASSWDLEN : ℕ := 33

/-- `struct regnick`, with its access list as pairs of a user and a host. -/
structure Regnick where
  name : Bytes
  pass : Bytes
  last : ℤ
  flags : BitVec 64
  intflags : BitVec 64
  alist : List (Bytes × Bytes)
  parent : Option ℕ

/-- A client, whether it is ours, and the `nick` of its `struct services_client_data`. -/
structure NickClient where
  nick : Bytes
  user : Bytes
  host : Bytes
  ip : Bytes
  mine : Bool
  owns : Option ℕ

/-- The nicks that are there, by address, and `services.db.list.nicks`, the newest first; the
clients that are registered; and which of them have given the password of which nick, since they
signed on and since the nick is there. -/
structure NickServ where
  nick : ℕ → Option Regnick
  nicks : List ℕ
  client : ℕ → Option NickClient
  identified : List (ℕ × ℕ)

/-- The text that nicks are compared by, and the settings of services. -/
structure NickServConf where
  fold : Bytes → Bytes
  expires : ℤ
  mailNicks : ℤ
  linkedNicks : ℤ
  nickAcclist : ℤ

namespace Regnick

variable (np : Regnick)

/-- `regnick_access` and `regnick_idaccess`. -/
def access : Bool := decide (np.intflags &&& NICK_IFL_ACCESS ≠ 0)
def idaccess : Bool := decide (np.intflags &&& NICK_IFL_IDACCESS ≠ 0)

/-- `regnick_activated`. -/
def activated : Bool := decide (np.intflags &&& NICK_IFL_ACTIVATED ≠ 0)

end Regnick

/-- `has_access_to_nick`, for the nick at an address. -/
def hasAccessToNick (cli : NickClient) (addr : ℕ) (np : Regnick) (level : BitVec 64) : Bool :=
  if level &&& NICK_IFL_IDACCESS ≠ 0 ∧ cli.owns = some addr ∧ np.idaccess = true then true
  else if level &&& NICK_IFL_IDACCESS ≠ 0 ∧ ¬ level &&& NICK_IFL_MASKACCESS ≠ 0 then false
  else if level &&& NICK_IFL_MASKACCESS ≠ 0 then
    (decide (cli.owns = some addr) && np.access) || np.alist.any fun rap =>
      stringMatch rap.1 cli.user && (stringMatch rap.2 cli.host || ipmatch rap.2 cli.ip)
  else false

namespace NickServ

/-! ### Records and clients -/

section
variable (s : NickServ)

/-- The store with these nicks, as services start, with no client. -/
def start (nick : ℕ → Option Regnick) (nicks : List ℕ) : NickServ :=
  ⟨nick, nicks, fun _ => none, []⟩

/-- A nick is written to. -/
def modifyNick (addr : ℕ) (f : Regnick → Regnick) : NickServ :=
  { s with nick := Function.update s.nick addr ((s.nick addr).map f) }

/-- A client is written to. -/
def modifyClient (cli : ℕ) (f : NickClient → NickClient) : NickServ :=
  { s with client := Function.update s.client cli ((s.client cli).map f) }

/-- `db_find_nick`. -/
def dbFindNick (conf : NickServConf) (name : Bytes) : Option ℕ :=
  s.nicks.find? fun addr => (s.nick addr).any fun np => conf.fold np.name == conf.fold name

/-- The records that go with one, when these are on the list: it, and what is linked to it or to one
of them. A linked nick is newer than its parent and stands before it. -/
def linked (addr : ℕ) : List ℕ → List ℕ
  | [] => []
  | a :: l =>
      if a = addr ∨ ((s.nick a).bind Regnick.parent).any (· ∈ linked addr l) then a :: linked addr l
      else linked addr l

/-- `regnick_destroy`. -/
def regnickDestroy (addr : ℕ) : NickServ :=
  let gone := s.linked addr s.nicks
  { s with
    nick := fun a => if a ∈ gone then none else s.nick a
    nicks := s.nicks.filter (· ∉ gone)
    identified := s.identified.filter fun p => p.2 ∉ gone }

/-- `regnick_create`, and what is filled in. -/
def regnickCreate (addr : ℕ) (np : Regnick) : NickServ :=
  { s with nick := Function.update s.nick addr (some np), nicks := addr :: s.nicks }

end

/-! ### Clients that come and go -/

/-- The nick that a client is given as it signs on: the registered one that it uses, if a mask of it
matches. -/
def givenNick (conf : NickServConf) (s : NickServ) (c : NickClient) : Option ℕ :=
  if c.mine then none
  else (s.dbFindNick conf c.nick).filter fun addr =>
    (s.nick addr).any fun np => hasAccessToNick { c with owns := none } addr np NICK_IFL_ACCESS

/-- `nick_register_hook` for `register_client`. The data of a client starts out zeroed. -/
def registerHook (conf : NickServConf) (s : NickServ) (cli : ℕ) (c : NickClient) : NickServ :=
  let given := s.givenNick conf c
  let t := given.elim s fun addr =>
    s.modifyNick addr fun np => { np with flags := np.flags ||| NICK_IFL_MASKACCESS }
  { t with client := Function.update s.client cli (some { c with owns := given }) }

/-- The client is gone. -/
def forget (s : NickServ) (cli : ℕ) : NickServ :=
  { s with
    client := Function.update s.client cli none
    identified := s.identified.filter fun p => p.1 ≠ cli }

/-- `nick_register_hook` for `unregister_client`. -/
def unregisterHook (s : NickServ) (cli : ℕ) (now : ℤ) : Option NickServ :=
  match s.client cli with
  | none => none
  | some c =>
      match c.owns with
      | none => some (s.forget cli)
      | some addr =>
          if c.mine then some (s.forget cli)
          else if (s.nick addr).isSome then
            some ((s.modifyNick addr fun np =>
              { np with last := now, flags := np.flags &&& ~~~NICK_IFL_ACCESS }).forget cli)
          else none

/-! ### The commands -/

/-- Whether an argument of REGISTER is an address to send mail to. -/
def isMail (arg : Bytes) : Bool := dot ∈ ((behindByte atSign arg).getD [])

/-- `ns_register`, with a password and an address or a nick; the count of the address's mail contact
if it has one, the key that is made up, and where the new record will lie. -/
def nsRegister (conf : NickServConf) (s : NickServ) (cli : ℕ) (pass arg : Bytes)
    (contact : Option ℤ) (key : BitVec 64) (addr : ℕ) (now : ℤ) : Option NickServ := do
  let c ← s.client cli
  if (s.dbFindNick conf c.nick).isSome then return s
  else if isMail arg then
    if contact.any (conf.mailNicks ≤ ·) then return s
    -- a contact that is not there is written to
    else if contact.isNone ∨ NICK_PASSWDLEN < pass.length ∨ (s.nick addr).isSome then none
    else return s.regnickCreate addr ⟨c.nick, pass, now, key, 0, [], none⟩
  else
    match s.dbFindNick conf arg with
    | none => return s
    | some parent =>
        if ¬ (s.nick parent).any fun np => hasAccessToNick c parent np NICK_IFL_IDACCESS then
          return s
        else if conf.linkedNicks ≤
            (s.nicks.filter fun a => (s.nick a).any fun np => np.parent = some parent).length then
          return s
        else if NICK_PASSWDLEN < pass.length ∨ (s.nick addr).isSome then none
        else
          return s.regnickCreate addr ⟨c.nick, pass, now, 0, NICK_IFL_ACTIVATED, [], some parent⟩

/-- The nick that a client identifies for: the one it names, or its own, if it gives the password.
-/
def passwordFor (conf : NickServConf) (s : NickServ) (cli : ℕ) (nick : Option Bytes)
    (pass : Bytes) : Option ℕ :=
  (s.client cli).bind fun c =>
    (s.dbFindNick conf (nick.getD c.nick)).filter fun addr =>
      (s.nick addr).any fun np => np.pass == pass

/-- What `ns_identify` leaves once the password was right. -/
def identifyFor (s : NickServ) (cli addr : ℕ) : NickServ :=
  { (s.modifyNick addr fun np =>
      { np with intflags := np.intflags ||| NICK_IFL_IDACCESS }).modifyClient
      cli fun c => { c with owns := some addr } with
    identified := (cli, addr) :: s.identified }

/-- The nick a client had before loses its access bits. -/
def disown (s : NickServ) (owned : Option ℕ) : NickServ :=
  owned.elim s fun old =>
    s.modifyNick old fun np => { np with intflags := np.intflags &&& ~~~NICK_IFL_ACCESS }

/-- `ns_identify`. -/
def nsIdentify (conf : NickServConf) (s : NickServ) (cli : ℕ) (nick : Option Bytes)
    (pass : Bytes) : Option NickServ := do
  let c ← s.client cli
  match s.passwordFor conf cli nick pass with
  | none => return s
  | some addr =>
      if c.owns.any fun old => (s.nick old).isNone then none
      else return (s.disown c.owns).identifyFor cli addr

/-- `ns_drop`. -/
def nsDrop (conf : NickServConf) (s : NickServ) (cli : ℕ) (nick : Bytes) : Option NickServ := do
  let c ← s.client cli
  match s.dbFindNick conf nick with
  | none => return s
  | some addr =>
      if (s.nick addr).any fun np => hasAccessToNick c addr np NICK_IFL_IDACCESS then
        return (s.modifyClient cli fun c => { c with owns := none }).regnickDestroy addr
      else return s

/-- `ns_auth`, with the number that the key reads as. -/
def nsAuth (conf : NickServConf) (s : NickServ) (nick : Bytes) (key : BitVec 64) : NickServ :=
  match s.dbFindNick conf nick with
  | none => s
  | some addr => s.modifyNick addr fun np =>
      if np.activated = true ∨ key ≠ np.flags then np
      else
        { np with
          flags := 0
          intflags := (np.intflags ||| NICK_IFL_ACTIVATED) &&& ~~~NICK_IFL_MAILED }

/-- What ACCESS does to the access list. -/
inductive AccessOp
  | add (mask : Bytes)
  | del (mask : Bytes)
  | wipe

/-- `regnick_access_find`, as the test of an entry. -/
def accessIs (mask : Bytes) (rap : Bytes × Bytes) : Bool :=
  sameCase mask ((rap.1 ++ atSign :: rap.2).take (USERLEN + HOSTLEN + 1))

/-- The entry that `regnick_access_add` makes of a mask. -/
def accessEntry (mask : Bytes) : Bytes × Bytes :=
  match behindByte atSign mask with
  | none => (bytes "*", mask)
  | some host => ((mask.takeWhile (· != atSign)).take USERLEN, host)

/-- Whether a mask is refused: it has a `'!'`, or less than half of its host is alphanumeric. -/
def badMask (mask : Bytes) : Bool :=
  let host := match behindByte atSign mask with
    | none => mask
    | some host => atSign :: host
  decide (33 ∈ mask) ||
    decide ((host.filter fun c => isAlpha c || isDigit c).length < host.length / 2)

/-- The access list after ACCESS. -/
def AccessOp.apply (conf : NickServConf) (alist : List (Bytes × Bytes)) :
    AccessOp → List (Bytes × Bytes)
  | .add mask =>
      if badMask mask = true ∨ (alist ≠ [] ∧ conf.nickAcclist ≤ alist.length) ∨
          alist.any (accessIs mask) = true then alist
      else accessEntry mask :: alist
  | .del mask => alist.eraseP (accessIs mask)
  | .wipe => []

/-- `ns_access`, but for CHECK and LIST. -/
def nsAccess (conf : NickServConf) (s : NickServ) (cli : ℕ) (op : AccessOp) : Option NickServ := do
  let c ← s.client cli
  match s.dbFindNick conf c.nick with
  | none => return s
  | some addr => return s.modifyNick addr fun np =>
      if hasAccessToNick c addr np NICK_IFL_IDACCESS then
        { np with alist := op.apply conf np.alist }
      else np

/-! ### The database -/

/-- `db_write_file`: the first nick that has expired is destroyed, and the walk goes on in its
memory; if other nicks are linked to it they are counted for ever. -/
def dbSync (conf : NickServConf) (s : NickServ) (now : ℤ) : Option NickServ :=
  if s.nicks.any fun a => (s.nick a).any fun np =>
      decide (conf.expires ≤ now - np.last) && decide (np.intflags &&& NICK_IFL_HELD = 0) then none
  else some { s with
    nick := fun a => if a ∈ s.nicks then
        (s.nick a).map fun np => { np with intflags := np.intflags &&& ~~~NICK_IFL_SYNCED }
      else s.nick a }

/-- `mail_send`. -/
def mailSend (s : NickServ) : NickServ :=
  { s with
    nick := fun a => if a ∈ s.nicks then
        (s.nick a).map fun np => { np with intflags := np.intflags ||| NICK_IFL_MAILED }
      else s.nick a }

end NickServ

/-- What may happen to the service. -/
inductive NickAction
  | signOn (cli : ℕ) (c : NickClient)
  | signOff (cli : ℕ) (now : ℤ)
  | changeNick (cli : ℕ) (nick : Bytes)
  | register (cli : ℕ) (pass arg : Bytes) (contact : Option ℤ) (key : BitVec 64) (addr : ℕ)
    (now : ℤ)
  | identify (cli : ℕ) (nick : Option Bytes) (pass : Bytes)
  | drop (cli : ℕ) (nick : Bytes)
  | auth (nick : Bytes) (key : BitVec 64)
  | access (cli : ℕ) (op : NickServ.AccessOp)
  | sync (now : ℤ)
  | mail

namespace NickServ

/-- One action. -/
def step (conf : NickServConf) (s : NickServ) : NickAction → Option NickServ
  | .signOn cli c => if (s.client cli).isSome then none else some (s.registerHook conf cli c)
  | .signOff cli now => s.unregisterHook cli now
  | .changeNick cli nick =>
      if (s.client cli).isSome then some (s.modifyClient cli fun c => { c with nick := nick })
      else none
  | .register cli pass arg contact key addr now =>
      s.nsRegister conf cli pass arg contact key addr now
  | .identify cli nick pass => s.nsIdentify conf cli nick pass
  | .drop cli nick => s.nsDrop conf cli nick
  | .auth nick key => some (s.nsAuth conf nick key)
  | .access cli op => s.nsAccess conf cli op
  | .sync now => s.dbSync conf now
  | .mail => some s.mailSend

end NickServ

end Ithildin
