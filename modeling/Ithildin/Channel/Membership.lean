import Ithildin.CString
import Ithildin.Lib.Run
import Mathlib.Logic.Function.Basic

/-!
# Who is on which channel

Channels, clients and the links between them are referred to by number, as the source refers to them
by pointer.

* `Channels`: the channel table, the links and the two lists each link is on;
* `addToChannel`, `delFromChannel`, `createChannel`: `channel.c`;
* `join`, `clientSjoin`, `serverSjoin`, `destroyClient`: what the commands do with them;
* `step`: one event in the life of a server.

Modes and messages are left out; where they decide something here, their outcome is a parameter.
-/

namespace Ithildin

/-- `struct chanlink`. -/
structure Chanlink where
  cli : ℕ
  chan : ℕ
  deriving DecidableEq

/-- The channels of a server: the links that exist, and the lists `chan->users` and `cli->chans`
they are on; the counters `chan->onchannel`, the names and the creation times; the channel table,
the registered clients and their nicks, and the numbers that have not been used. -/
structure Channels where
  links : List ℕ
  link : ℕ → Chanlink
  users : ℕ → List ℕ
  chans : ℕ → List ℕ
  onchannel : ℕ → ℤ
  name : ℕ → Bytes
  created : ℕ → ℤ
  table : List ℕ
  clients : List ℕ
  nick : ℕ → Bytes
  freshLink : ℕ
  freshChan : ℕ
  freshClient : ℕ

/-- What stays as it is: `ircd.limits.chanlen`, the comparisons of the two hash tables, the map of
nick characters, `check_channame`, which clients are ours, and how many channels they may join. -/
structure ChannelConf where
  chanlen : ℕ
  sameChan : Bytes → Bytes → Bool
  sameNick : Bytes → Bytes → Bool
  nickMap : UInt8 → Bool
  channame : Bytes → Bool
  myClient : ℕ → Bool
  maxChannels : ℕ → ℤ

namespace Channels

/-! ### channel.c -/

/-- `find_channel`. -/
def findChannel (conf : ChannelConf) (s : Channels) (name : Bytes) : Option ℕ :=
  s.table.find? fun c => conf.sameChan (s.name c) name

/-- `find_client`. -/
def findClient (conf : ChannelConf) (s : Channels) (nick : Bytes) : Option ℕ :=
  s.clients.find? fun k => conf.sameNick (s.nick k) nick

/-- `find_chan_link`. -/
def findChanLink (s : Channels) (k c : ℕ) : Option ℕ :=
  (s.chans k).find? fun l => (s.link l).chan = c

/-- `onchannel`. -/
def isOn (s : Channels) (k c : ℕ) : Bool := (s.findChanLink k c).isSome

/-- `create_channel`; the new channel is `s.freshChan`. -/
def createChannel (conf : ChannelConf) (s : Channels) (name : Bytes) (created : ℤ) : Channels :=
  { s with
    users := Function.update s.users s.freshChan []
    onchannel := Function.update s.onchannel s.freshChan 0
    name := Function.update s.name s.freshChan (name.take conf.chanlen)
    created := Function.update s.created s.freshChan created
    table := s.freshChan :: s.table
    freshChan := s.freshChan + 1 }

/-- `add_to_channel`: nobody looks whether the client is there. -/
def addToChannel (s : Channels) (k c : ℕ) : Channels :=
  { s with
    links := s.freshLink :: s.links
    link := Function.update s.link s.freshLink ⟨k, c⟩
    users := Function.update s.users c (s.freshLink :: s.users c)
    chans := Function.update s.chans k (s.freshLink :: s.chans k)
    onchannel := Function.update s.onchannel c (s.onchannel c + 1)
    freshLink := s.freshLink + 1 }

/-- `destroy_channel`. -/
def destroyChannel (s : Channels) (c : ℕ) : Channels :=
  { s with table := s.table.filter (· ≠ c) }

/-- A link is taken off its two lists and freed. -/
def unlink (s : Channels) (l k c : ℕ) : Channels :=
  { s with
    links := s.links.filter (· ≠ l)
    users := Function.update s.users c ((s.users c).filter (· ≠ l))
    chans := Function.update s.chans k ((s.chans k).filter (· ≠ l))
    onchannel := Function.update s.onchannel c (s.onchannel c - 1) }

/-- `del_from_channel`. -/
def delFromChannel (s : Channels) (k c : ℕ) : Channels :=
  let s := match s.findChanLink k c with
    | some l => s.unlink l k c
    | none => s
  if s.onchannel c = 0 then s.destroyChannel c else s

/-! ### Commands -/

/-- The byte `','`. -/
def comma : UInt8 := 44

/-- The byte `'0'`, alone: the name that is no channel. -/
def zeroName : Bytes := [48]

/-- One channel of a PART. -/
def part (conf : ChannelConf) (k : ℕ) (s : Channels) (name : Bytes) : Channels :=
  if conf.channame name then
    match s.findChannel conf name with
    | some c => if s.isOn k c then s.delFromChannel k c else s
    | none => s
  else s

/-- `"JOIN 0"` of a client that is not ours: the client parts the first of its channels by name
until none is left.  `strsep` cuts the name of the channel itself.  Nothing when that has no end. -/
def joinZero (conf : ChannelConf) (k : ℕ) : ℕ → Channels → Option Channels
  | 0, _ => none
  | n + 1, s =>
      match s.chans k with
      | [] => some s
      | l :: _ =>
          let c := (s.link l).chan
          let name := s.name c
          let cut := { s with name := Function.update s.name c (name.takeWhile (· ≠ comma)) }
          joinZero conf k n (((name.splitOn comma).filter (· ≠ [])).foldl (part conf k) cut)

/-- A client is put on a channel; `stays` tells whether the checks for our clients let it stay. -/
def joinChannel (conf : ChannelConf) (s : Channels) (k c : ℕ) (stays : Bool) : Channels :=
  let s := s.addToChannel k c
  if conf.myClient k ∧ ¬ stays then s.delFromChannel k c else s

/-- One channel of a JOIN. -/
def joinOne (conf : ChannelConf) (now : ℤ) (k : ℕ) (s : Channels) (name : Bytes) (stays : Bool) :
    Option Channels :=
  if name = [] then some s
  else if conf.myClient k ∧ (¬ conf.channame name ∨
      0 < conf.maxChannels k ∧ conf.maxChannels k ≤ (s.chans k).length ∨ name = zeroName) then
    some s
  else if name = zeroName then joinZero conf k ((s.chans k).length + 1) s
  else
    match s.findChannel conf name with
    | none => some ((s.createChannel conf name now).joinChannel conf k s.freshChan stays)
    | some c => if s.isOn k c then some s else some (s.joinChannel conf k c stays)

/-- `CLIENT_COMMAND(join)`, over the names of its list, each with the outcome of the checks. -/
def join (conf : ChannelConf) (now : ℤ) (k : ℕ) : Channels → List (Bytes × Bool) → Option Channels
  | s, [] => some s
  | s, (name, stays) :: l => (joinOne conf now k s name stays).bind fun s => join conf now k s l

/-- `CLIENT_COMMAND(sjoin)`. -/
def clientSjoin (conf : ChannelConf) (k : ℕ) (ts : ℤ) (s : Channels) (name : Bytes) : Channels :=
  if conf.myClient k then s
  else
    match s.findChannel conf name with
    | none => (s.createChannel conf name ts).addToChannel k s.freshChan
    | some c => s.addToChannel k c

/-- The prefixes before a nick and the nick: the longest end of nick characters. -/
def splitPrefixes (conf : ChannelConf) : Bytes → Bytes × Bytes
  | [] => ([], [])
  | c :: s =>
      if (c :: s).all conf.nickMap then ([], c :: s)
      else ((c :: (splitPrefixes conf s).1), (splitPrefixes conf s).2)

/-- The loop of `SERVER_COMMAND(sjoin)` over the members it lists; with `changeok`, it never gets
past a prefix that is neither `'@'` nor `'+'`. -/
def sjoinLoop (conf : ChannelConf) (changeok : Bool) (c : ℕ) :
    Channels → List Bytes → Option Channels
  | s, [] => some s
  | s, member :: l =>
      let (prefixes, client) := splitPrefixes conf member
      match s.findClient conf client with
      | some k =>
          if changeok ∧ ¬ prefixes.all (fun p => p == 64 || p == 43) then none
          else sjoinLoop conf changeok c (s.addToChannel k c) l
      | none => sjoinLoop conf changeok c s l

/-- The members that a line lists. -/
def listed (members : Bytes) : List Bytes := (members.splitOn 32).filter (· ≠ [])

/-- `SERVER_COMMAND(sjoin)`; `created` is what `channel_mode` makes of the creation time. -/
def serverSjoin (conf : ChannelConf) (ts : ℤ) (s : Channels) (name : Bytes) (created : ℤ)
    (members : Bytes) : Option Channels :=
  let (c, s) := match s.findChannel conf name with
    | some c => (c, s)
    | none => (s.freshChan, s.createChannel conf name ts)
  let changeok : Bool := ts ≤ s.created c
  sjoinLoop conf changeok c { s with created := Function.update s.created c created }
    (listed members)

/-- The loop of `destroy_client`: the client leaves its channels. -/
def leaveAll (k : ℕ) : ℕ → Channels → Channels
  | 0, s => s
  | n + 1, s =>
      match s.chans k with
      | [] => s
      | l :: _ => leaveAll k n (s.delFromChannel k (s.link l).chan)

/-- `destroy_client`. -/
def destroyClient (k : ℕ) (s : Channels) : Channels :=
  let s := leaveAll k (s.chans k).length s
  { s with clients := s.clients.filter (· ≠ k) }

/-- A client registers: `s.freshClient`, on no channel. -/
def registerClient (s : Channels) (nick : Bytes) : Channels :=
  { s with
    chans := Function.update s.chans s.freshClient []
    clients := s.freshClient :: s.clients
    nick := Function.update s.nick s.freshClient nick
    freshClient := s.freshClient + 1 }

/-! ### Events -/

/-- What can happen: a client registers, changes its nick, or goes; JOIN and SJOIN of a client,
SJOIN of a server, and a client that leaves a channel by PART or KICK. -/
inductive Event
  | register (nick : Bytes)
  | nick (k : ℕ) (nick : Bytes)
  | destroy (k : ℕ)
  | join (k : ℕ) (now : ℤ) (names : List (Bytes × Bool))
  | clientSjoin (k : ℕ) (ts : ℤ) (name : Bytes)
  | serverSjoin (ts : ℤ) (name : Bytes) (created : ℤ) (members : Bytes)
  | del (k c : ℕ)

/-- One event; only registered clients act, and `del_from_channel` is called for channels that
exist. -/
def step (conf : ChannelConf) (s : Channels) : Event → Option Channels
  | .register nick => some (s.registerClient nick)
  | .nick k nick => some { s with nick := Function.update s.nick k nick }
  | .destroy k => if k ∈ s.clients then some (s.destroyClient k) else none
  | .join k now names => if k ∈ s.clients then s.join conf now k names else none
  | .clientSjoin k ts name => if k ∈ s.clients then some (s.clientSjoin conf k ts name) else none
  | .serverSjoin ts name created members => s.serverSjoin conf ts name created members
  | .del k c => if k ∈ s.clients ∧ c ∈ s.table then some (s.delFromChannel k c) else none

/-- A server that has just started. -/
def start : Channels where
  links := []
  link := fun _ => ⟨0, 0⟩
  users := fun _ => []
  chans := fun _ => []
  onchannel := fun _ => 0
  name := fun _ => []
  created := fun _ => 0
  table := []
  clients := []
  nick := fun _ => []
  freshLink := 0
  freshChan := 0
  freshClient := 0

end Channels

end Ithildin
