import Ithildin.Channel.Modes
import Ithildin.Numbers
import Ithildin.Protocol.Input
import Ithildin.Services.Records
import Mathlib.Data.List.DropRight

/-!
# The database of services

The file is written with the nicks in the order of their list, but parents before what is linked to
them, and nicks that have expired are destroyed on the way; it is read line by line.

* `dbWriteNick`: the lines of a nick;
* `Walk`, `Walk.step`: `db_write_file`, one pass of a loop at a time;
* `sfgets`, `dbReadLine`, `dbReadFile`: the file is read into a store without nicks.
-/

namespace Ithildin

def GCOSLEN : ℕ := 50

def NICK_IFL_ADMIN : BitVec 64 := 0x01

/-- The bits that are not saved. -/
def NICK_IFL_NOSAVE : BitVec 64 :=
  NICK_IFL_ADMIN ||| NICK_IFL_SYNCED ||| NICK_IFL_MASKACCESS ||| NICK_IFL_IDACCESS

/-! ### Writing -/

/-- `"%lld"`, as `fprintf` writes it. -/
def fprintfLong (i : ℤ) : Bytes := if i < 0 then 45 :: itoa i.natAbs else itoa i.natAbs

/-- `"%d"` of a `time_t`: its lower half. -/
def fprintfInt (i : ℤ) : Bytes := fprintfLong (toInt32 i)

/-- A line with its end. -/
def endLine (line : Bytes) : Bytes := line ++ [newline]

/-- `"mail %s %d"`. -/
def mailLine (mcp : MailContact) : Bytes :=
  bytes "mail " ++ (mcp.address ++ blank :: fprintfInt mcp.last)

/-- `"nick.access %s@%s"`. -/
def accessLine (rap : Bytes × Bytes) : Bytes :=
  bytes "nick.access " ++ (rap.1 ++ atSign :: rap.2)

/-- `"nick.info %s"`. -/
def infoLine (np : NickRecord) : Bytes := bytes "nick.info " ++ np.info

/-- `"nick %s %s %s %s %s %d %d %lld %lld"`, and `" %s"`, with the address of the mail contact and
the name of the parent. -/
def nickLine (np : NickRecord) (address : Bytes) (parent : Option Bytes) : Bytes :=
  bytes "nick " ++ (np.name ++ blank :: (np.user ++ blank :: (np.host ++ blank ::
    (np.pass ++ blank :: (address ++ blank :: (fprintfInt np.last ++ blank ::
      (fprintfInt np.regtime ++ blank :: (fprintfLong np.flags.toInt ++ blank ::
        (fprintfLong (np.intflags &&& ~~~NICK_IFL_NOSAVE).toInt ++
          parent.elim [] fun name => blank :: name)))))))))

/-- `db_write_nick`. -/
def dbWriteNick (np : NickRecord) (address : Bytes) (parent : Option Bytes) : Bytes :=
  (nickLine np address parent :: infoLine np :: np.alist.map accessLine).flatMap endLine

namespace NickStore

/-- What the store has to say for a nick; `none` if freed memory or a null pointer is looked at. -/
def nickText (s : NickStore) (np : NickRecord) : Option Bytes := do
  let m ← np.email
  let mcp ← s.contact m
  match np.parent with
  | none => return dbWriteNick np mcp.address none
  | some p => return dbWriteNick np mcp.address (some (← s.nick p).name)

/-- What follows a nick in the list. -/
def listNext (s : NickStore) (addr : ℕ) : Option ℕ := (s.nicks.dropWhile (· != addr)).tail.head?

/-- All that `db_write_file` has to know besides: `services.expires.nick` and `me.now`. -/
structure Expiry where
  expires : ℤ
  now : ℤ

/-- A nick has expired and is not held. -/
def due (e : Expiry) (np : NickRecord) : Bool :=
  decide (e.expires ≤ e.now - np.last) && decide (np.intflags &&& NICK_IFL_HELD = 0)

/-- The nick has been written. -/
def synced (np : NickRecord) : Bool := decide (np.intflags &&& NICK_IFL_SYNCED ≠ 0)

end NickStore

/-- Where `db_write_file` stands: at a nick of the list, in the loop that counts what is linked to
it, or at the end. -/
inductive WalkPos
  | visit (addr : ℕ)
  | count (addr : ℕ)
  | done
  deriving DecidableEq

/-- The store, the file, the nicks that have been written and how many have expired. -/
structure Walk where
  store : NickStore
  pos : WalkPos
  file : Bytes
  written : List ℕ
  expired : ℕ

namespace Walk

open NickStore

/-- The next nick, or the end. -/
def position : Option ℕ → WalkPos
  | some addr => .visit addr
  | none => .done

/-- `db_write_file`, when the mail contacts have been written. -/
def start (s : NickStore) : Walk where
  store := s
  pos := position s.nicks.head?
  file := ((s.mails.filterMap s.contact).map mailLine).flatMap endLine
  written := []
  expired := 0

/-- A nick is written, if it has not been. -/
def write (w : Walk) (addr : ℕ) : Option Walk := do
  let np ← w.store.nick addr
  if synced np then some w
  else
    let text ← w.store.nickText np
    return { w with
      store := w.store.modifyNick addr fun np =>
        { np with intflags := np.intflags ||| NICK_IFL_SYNCED }
      file := w.file ++ text
      written := w.written ++ [addr] }

/-- One pass of a loop; `none` if it looks at a nick that has been freed. -/
def step (e : Expiry) (w : Walk) : Option Walk :=
  match w.pos with
  | .done => some w
  | .visit addr => do
      let np ← w.store.nick addr
      if due e np then some { w with pos := .count addr }
      else
        let next := w.store.listNext addr
        let w ← np.parent.elim (some w) w.write
        let w ← w.write addr
        return { w with pos := position next }
  | .count addr => do
      let np ← w.store.nick addr
      match np.links with
      | _ :: _ => some { w with expired := w.expired + 1 }
      | [] =>
          -- the nick is destroyed, and the walk goes on with it
          let s ← w.store.regnickDestroy (w.store.nicks.length + 1) addr
          return { w with store := s, pos := .visit addr, expired := w.expired + 1 }

/-- So many passes. -/
def run (e : Expiry) : ℕ → Walk → Option Walk
  | 0, w => some w
  | n + 1, w => (w.step e).bind (run e n)

/-- The end of `db_write_file`. -/
def finish (w : Walk) : NickStore :=
  { w.store with
    nick := fun a => if a ∈ w.store.nicks then
        (w.store.nick a).map fun np => { np with intflags := np.intflags &&& ~~~NICK_IFL_SYNCED }
      else w.store.nick a }

end Walk

/-- `db_write_file`: the store after it, and the file. A walk that ends does so after one pass for
each nick. -/
def dbWriteFile (e : NickStore.Expiry) (s : NickStore) : Option (NickStore × Bytes) :=
  ((Walk.run e s.nicks.length (Walk.start s)).filter fun w => w.pos = .done).map fun w =>
    (w.finish, w.file)

/-! ### Reading -/

/-- `fgets`, with room for `n` bytes and the terminator: the line, and what is left of the file. -/
def fgets : ℕ → Bytes → Bytes × Bytes
  | 0, file => ([], file)
  | _, [] => ([], [])
  | n + 1, c :: file =>
      if c = newline then ([c], file)
      else
        let (line, rest) := fgets n file
        (c :: line, rest)

def isLineEnd (c : UInt8) : Bool := c == 13 || c == newline

/-- `sfgets`: what is at the end of the line is taken off. -/
def sfgets (size : ℕ) (file : Bytes) : Bytes × Bytes :=
  let (line, rest) := fgets (size - 1) file
  (line.rdropWhile isLineEnd, rest)

/-- The lines of a file, no more than so many. -/
def fileLines (size : ℕ) : ℕ → Bytes → List Bytes
  | _, [] => []
  | 0, _ => []
  | n + 1, file => (sfgets size file).1 :: fileLines size n (sfgets size file).2

/-- The digits of a number without a sign, with base ten or with the base that they show, and what
follows them. -/
def readDigits (showsBase : Bool) (s : Bytes) : Option (ℕ × Bytes) :=
  let hex := showsBase ∧ s.head? = some 48 ∧ (s.tail.head? = some 120 ∨ s.tail.head? = some 88) ∧
    (s.tail.tail.head?.any fun d => (digitOf 16 d).isSome)
  let base := if hex then 16 else if showsBase ∧ s.head? = some 48 then 8 else 10
  let s := if hex then s.tail.tail else s
  if s.head?.any fun d => (digitOf base d).isSome then
    some (digitsFrom base 0 s, s.dropWhile fun d => (digitOf base d).isSome)
  else none

/-- `strtol` and `strtoll`: the number, and what follows it. -/
def readLong (showsBase : Bool) (str : Bytes) : ℤ × Bytes :=
  let s := str.dropWhile isSpace
  let neg : Bool := s.head? = some 45
  match readDigits showsBase (if s.head? = some 45 ∨ s.head? = some 43 then s.tail else s) with
  | none => (0, str)
  | some (n, rest) =>
      (max (-9223372036854775808) (min 9223372036854775807 (if neg then -n else n)), rest)

/-- A field that a blank ends, and what is behind the blank. -/
def cutField (s : Bytes) : Option (Bytes × Bytes) :=
  (behindByte blank s).map fun rest => (s.takeWhile (· != blank), rest)

/-- A number, and what is behind the byte that ends it. -/
def cutNumber (s : Bytes) : Option (ℤ × Bytes) :=
  match readLong true s with
  | (_, []) => none
  | (v, _ :: rest) => some (v, rest)

/-- `strcpy` into an array of a size. -/
def strcpyInto (size : ℕ) (s : Bytes) : Option Bytes := if s.length < size then some s else none

/-- The store that is being filled, and the nick that was read last. -/
structure Reader where
  store : NickStore
  np : Option ℕ

namespace Reader

/-- The store without nicks. -/
def start : Reader := ⟨⟨fun _ => none, [], fun _ => none, []⟩, none⟩

/-- The fields of a line that starts with `"nick "`, with the address and with what follows. The
memory of a new nick is zeroed. -/
def cutNick (s : Bytes) : Option (NickRecord × Bytes × Bytes) := do
  let (name, s) ← cutField s
  let (user, s) ← cutField s
  let (host, s) ← cutField s
  let (pass, s) ← cutField s
  let (address, s) ← cutField s
  let (last, s) ← cutNumber s
  let (regtime, s) ← cutNumber s
  let (flags, s) ← cutNumber s
  let (intflags, rest) := readLong true s
  let name ← strcpyInto (NICKLEN + 1) name
  let user ← strcpyInto (USERLEN + 1) user
  let host ← strcpyInto (HOSTLEN + 1) host
  let pass ← strcpyInto (NICK_PASSWDLEN + 1) pass
  let np : NickRecord :=
    { name := name, user := user, host := host, pass := pass, last := last, regtime := regtime
      flags := BitVec.ofInt 64 flags, intflags := BitVec.ofInt 64 intflags
      info := [], alist := [], parent := none, email := none, links := [] }
  return (np, address, rest)

/-- A line that starts with `"nick "`. -/
def readNick (fold : Bytes → Bytes) (r : Reader) (s : Bytes) : Option Reader := do
  let (np, address, rest) ← cutNick s
  let m ← r.store.dbFindMail address
  let addr := r.store.nicks.length
  let store := (r.store.modifyMail m fun mcp => { mcp with nicks := mcp.nicks + 1 }).regnickCreate
    addr { np with email := some m }
  if rest = [] then return ⟨store, some addr⟩
  else
    let p ← store.dbFindNick fold rest.tail
    let store := store.modifyNick addr fun np => { np with parent := some p }
    return ⟨store.modifyNick p fun np => { np with links := addr :: np.links }, some addr⟩

/-- A line that starts with `"nick.info "`. -/
def readInfo (r : Reader) (s : Bytes) : Option Reader := do
  let addr ← r.np
  let info ← strcpyInto (GCOSLEN + 1) s
  return { r with store := r.store.modifyNick addr fun np => { np with info := info } }

/-- A line that starts with `"nick.access "`. -/
def readAccess (r : Reader) (s : Bytes) : Option Reader := do
  let addr ← r.np
  return { r with store := r.store.modifyNick addr fun np =>
    { np with alist := NickServ.accessEntry s :: np.alist } }

/-- A line that starts with `"mail "`. -/
def readMail (r : Reader) (s : Bytes) : Option Reader := do
  let (address, s) ← cutField s
  let address ← strcpyInto (HOSTLEN * 2 + 1) address
  let mcp : MailContact := ⟨address, 0, (readLong false s).1⟩
  return { r with store := r.store.createMailContact r.store.mails.length mcp }

/-- A line of the file. -/
def readLine (fold : Bytes → Bytes) (r : Reader) (line : Bytes) : Option Reader :=
  if bytes "nick " <+: line then r.readNick fold (line.drop 5)
  else if bytes "nick.info " <+: line then r.readInfo (line.drop 10)
  else if bytes "nick.access " <+: line then r.readAccess (line.drop 12)
  else if bytes "mail " <+: line then r.readMail (line.drop 5)
  else some r

end Reader

/-- `db_read_file`; `none` if it writes behind an array, or follows a null pointer. -/
def dbReadFile (fold : Bytes → Bytes) (file : Bytes) : Option NickStore :=
  ((fileLines 16384 file.length file).foldlM (Reader.readLine fold) Reader.start).map Reader.store

end Ithildin
