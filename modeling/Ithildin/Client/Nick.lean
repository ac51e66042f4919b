import Ithildin.Numbers

/-!
# The NICK command

* `User`, `NickTable`: the clients of a server and their nicks;
* `checkCollision`: `check_collision` of `nick.c`;
* `serverNick`, `clientNick`: the command for a server's line, which introduces a client, and for a
  client's line, which changes its nick.

Kills that go out to other servers are part of the results; other messages are left out.
-/

namespace Ithildin

/-- `struct client`, as far as its nick is concerned: whether it is ours, and registered. -/
structure User where
  nick : Bytes
  ts : ℤ
  mine : Bool
  registered : Bool
  deriving DecidableEq

/-- The clients of a server, by number, as `ircd.hashes.client` holds them. -/
abbrev NickTable := List (ℕ × User)

/-- `ircd.limits.nicklen`, the maps of characters, and the text that nicks are compared by. -/
structure NickConf where
  nicklen : ℕ
  nickFirst : UInt8 → Bool
  nickMap : UInt8 → Bool
  fold : Bytes → Bytes

/-- To whom a KILL goes: to every server, to every server but the one whose line is executed, or to
that one alone. -/
inductive Audience
  | all
  | others
  | back
  deriving DecidableEq

/-- A KILL that is sent for a nick. -/
structure Kill where
  nick : Bytes
  audience : Audience
  deriving DecidableEq

/-- What a command leaves: the clients and the kills it sends. -/
structure NickResult where
  table : NickTable
  kills : List Kill

namespace NickTable

/-- `find_client_any`. -/
def findClientAny (conf : NickConf) (t : NickTable) (nick : Bytes) : Option (ℕ × User) :=
  t.find? fun p => conf.fold p.2.nick = conf.fold nick

/-- `destroy_client`. -/
def destroy (t : NickTable) (id : ℕ) : NickTable := t.filter fun p => p.1 ≠ id

/-- A client's record is changed. -/
def modify (t : NickTable) (id : ℕ) (f : User → User) : NickTable :=
  t.map fun p => if p.1 = id then (id, f p.2) else p

end NickTable

/-! ### Collisions -/

/-- The outcome of a collision: the client that is left, if one is, and the rest. -/
structure Collision where
  winner : Option ℕ
  table : NickTable
  kills : List Kill

/-- The conditions of `check_collision` under which no timestamp decides. -/
def NoTs (x y : ℤ) : Prop := x = 0 ∨ y = 0 ∨ x = y

instance (x y : ℤ) : Decidable (NoTs x y) := inferInstanceAs (Decidable (_ ∨ _))

/-- `check_collision`. -/
def checkCollision (t : NickTable) (known unknown : ℕ × User) (new : Bool) : Collision :=
  if known.2.mine ∧ ¬ known.2.registered then ⟨some unknown.1, t.destroy known.1, []⟩
  else if NoTs known.2.ts unknown.2.ts then
    ⟨none, (t.destroy known.1).destroy unknown.1,
      (if new then [] else [⟨unknown.2.nick, .all⟩]) ++ [⟨known.2.nick, .all⟩]⟩
  else if known.2.ts < unknown.2.ts then
    ⟨some known.1, t.destroy unknown.1, if new then [] else [⟨unknown.2.nick, .others⟩]⟩
  else ⟨some unknown.1, t.destroy known.1, [⟨known.2.nick, .others⟩]⟩

/-! ### Introductions -/

/-- `SERVER_COMMAND(nick)`, from a link that supports timestamps or not; `id` is the client that is
created. -/
def serverNick (conf : NickConf) (supportsTs : Bool) (t : NickTable) (id : ℕ) (nick ts : Bytes) :
    NickResult :=
  if ¬ (nick.take 1).all conf.nickFirst ∨ ¬ nick.all conf.nickMap ∨ conf.nicklen < nick.length then
    ⟨t, [⟨nick, .back⟩]⟩
  else
    let cp : User := ⟨nick, if supportsTs then strConvInt ts 0 else 0, false, true⟩
    match t.findClientAny conf cp.nick with
    | none => ⟨(id, cp) :: t, []⟩
    | some cp2 =>
        let r := checkCollision t cp2 (id, cp) true
        ⟨if r.winner = some id then (id, cp) :: r.table else r.table, r.kills⟩

/-! ### Changes -/

/-- The nick is good: `check_nickname` and the limit on its length. -/
def nickOk (conf : NickConf) (nick : Bytes) : Bool :=
  nick != [] && (nick.take 1).all conf.nickFirst && nick.all conf.nickMap &&
    nick.length ≤ conf.nicklen

/-- The end of `CLIENT_COMMAND(nick)`; `allowed` is what the checks for our clients say. -/
def changeNick (supportsTs allowed : Bool) (t : NickTable) (cli : ℕ × User) (nick : Bytes)
    (ts : ℤ) : NickTable :=
  if ¬ cli.2.registered then
    if allowed then t.modify cli.1 fun u => { u with nick := nick } else t
  else if cli.2.nick = nick then t
  else if cli.2.mine ∧ ¬ allowed then t
  else t.modify cli.1 fun u => { u with nick := nick, ts := if supportsTs then ts else 0 }

/-- `CLIENT_COMMAND(nick)`; the timestamp is in the line of a remote client, and otherwise `now`. -/
def clientNick (conf : NickConf) (supportsTs allowed : Bool) (now : ℤ) (t : NickTable)
    (cli : ℕ × User) (nick : Bytes) (stamp : Option Bytes) : NickResult :=
  let ts := if cli.2.mine then now else (stamp.map fun s => strConvInt s 0).getD now
  if ¬ nickOk conf nick then ⟨t, if cli.2.mine then [] else [⟨nick, .back⟩]⟩
  else
    let inUse :=
      if conf.fold cli.2.nick = conf.fold nick then none else t.findClientAny conf nick
    match inUse with
    | none => ⟨changeNick supportsTs allowed t cli nick ts, []⟩
    | some cp =>
        if cli.2.mine then ⟨t, []⟩
        else
          let r := checkCollision t cp cli false
          ⟨if r.winner = some cli.1 then changeNick supportsTs allowed r.table cli nick ts
            else r.table, r.kills⟩

end Ithildin
