import Ithildin.CString
import Ithildin.Lib.Tokens

/-!
# `packet_parse`

The line parsers of the four protocols.  A parser walks one pointer through the connection's
buffer, puts NULs over separators and copies each argument into its `ircd.argv` slot.

* `Scan`: the buffer, the pointer and how far the buffer has been read;
* `argLoop`, `parseArgs`: the copying loop, the same in every protocol;
* `packetParse`: `packet_parse` of each protocol;
* `rfcMessage`: the tokenisation that the parsers are meant to produce;
* `MeetsRfc`: the line was tokenised so, and nothing behind its terminator was read.
-/

namespace Ithildin

open Tokens

/-- `COMMAND_MAXARGLEN`; an `argv` slot has one byte more. -/
def COMMAND_MAXARGLEN : ℕ := 511

/-- `RFC1459_MAXARGS`, which is `MAX_COMMAND_ARGS` as well: the command and its arguments. -/
def RFC1459_MAXARGS : ℕ := 15

/-! ### The pointer into the buffer -/

/-- The buffer `cp->buf`, the pointer `s` into it, and the number of its leading bytes among
which every byte read so far lies. -/
structure Scan where
  mem : Bytes
  s : ℕ
  high : ℕ

namespace Scan

/-- `*s`. -/
def cur (sc : Scan) : UInt8 := sc.mem.getD sc.s 0

/-- The memory that starts at `s`. -/
def rest (sc : Scan) : Bytes := sc.mem.drop sc.s

/-- `*s` is read. -/
def touch (sc : Scan) : Scan := { sc with high := max sc.high (sc.s + 1) }

/-- `s++`. -/
def next (sc : Scan) : Scan := { sc with s := sc.s + 1 }

/-- `*s = '\0'`. -/
def put (sc : Scan) : Scan := { sc with mem := sc.mem.set sc.s 0 }

/-- `while (p(*s)) s++`: the last byte read is the one that stops the loop. -/
def skip (p : UInt8 → Bool) (sc : Scan) : Scan :=
  touch { sc with s := sc.s + (sc.rest.takeWhile p).length }

/-- `while (!isspace(*s) && *s) s++`. -/
def skipWord (sc : Scan) : Scan := sc.skip fun c => !isSpace c && c != 0

/-- `while (isspace(*s) && *s) s++`. -/
def skipSpace (sc : Scan) : Scan := sc.skip fun c => isSpace c && c != 0

/-- What `strncpy(slot, from, COMMAND_MAXARGLEN)` leaves in a slot whose last byte is `last`. -/
def slot (sc : Scan) (src : ℕ) (last : UInt8) : Bytes :=
  strncpy COMMAND_MAXARGLEN (strAt (sc.mem.drop src)) ++ [last]

/-- The bytes that this `strncpy` reads. -/
def copied (sc : Scan) (src : ℕ) : Scan :=
  { sc with
    high := max sc.high (src + min ((strAt (sc.mem.drop src)).length + 1) COMMAND_MAXARGLEN) }

end Scan

/-! ### The parsers -/

/-- The copying loop from `ircd.argv[i]` on, with `n` rounds left: the final `i`, the pointer
and the slots filled.  `last i` is the byte of slot `i` that `strncpy` never writes. -/
def argLoop (last : ℕ → UInt8) : ℕ → ℕ → Scan → List Bytes → ℕ × Scan × List Bytes
  | 0, i, sc, argv => (i, sc, argv)
  | n + 1, i, sc, argv =>
      if sc.cur = colon then
        (i, (sc.touch.copied (sc.s + 1)).put, argv ++ [sc.slot (sc.s + 1) (last i)])
      else
        let s2 := sc.s
        let sc := sc.skipWord
        let sc := if sc.cur ≠ 0 then sc.put.next else sc
        let argv := argv ++ [sc.slot s2 (last i)]
        let sc := (sc.copied s2).skipSpace
        if sc.cur = 0 then (i, sc, argv) else argLoop last n (i + 1) sc argv

/-- The loop and the copy of what is left into the final slot: the slots up to `ircd.argc`. -/
def parseArgs (last : ℕ → UInt8) (sc : Scan) : List Bytes × Scan :=
  let (i, sc, argv) := argLoop last (RFC1459_MAXARGS - 1) 0 sc []
  if sc.cur ≠ 0 ∧ i = RFC1459_MAXARGS - 1 then
    (argv ++ [sc.slot sc.s (last i)], sc.touch.copied sc.s)
  else (argv, sc.touch)

/-- Who a command comes from: the connection itself, or the server or client that the prefix
names. -/
inductive Origin
  | self
  | server (name : Bytes)
  | client (nick : Bytes)
  deriving DecidableEq

/-- The names that `find_server` and `find_client` know. -/
structure Origins where
  server : Bytes → Bool
  client : Bytes → Bool

/-- The sender that a prefix stands for: a server when there is a `'.'` in it. -/
def Origins.find (o : Origins) (pfx : Bytes) : Option Origin :=
  if dot ∈ pfx then (if o.server pfx then some (.server pfx) else none)
  else if o.client pfx then some (.client pfx) else none

/-- What a call comes to: nothing is executed, or `ircd.argv` is for a sender. -/
inductive Parsed
  | ignored
  | exec (origin : Origin) (argv : List Bytes)
  deriving DecidableEq

/-- The end of every `packet_parse`, from the test for an empty rest on. -/
def parseCommand (last : ℕ → UInt8) (origin : Origin) (sc : Scan) : Parsed × Scan :=
  if sc.cur = 0 then (.ignored, sc)
  else
    let (argv, sc) := parseArgs last sc
    (.exec origin argv, sc)

/-- `packet_parse` of `ithildin1.c`, `bahamut14.c` and `dreamforge.c`. -/
def serverParse (o : Origins) (last : ℕ → UInt8) (mem : Bytes) : Parsed × Scan :=
  let start : Scan := ⟨mem, 0, 1⟩
  if start.cur = colon then
    let sc := start.next.skipWord.put.next
    match o.find (strAt (sc.mem.drop 1)) with
    | none => (.ignored, sc)
    | some origin => parseCommand last origin sc.skipSpace
  else parseCommand last .self start

/-- `packet_parse` of `rfc1459.c`. -/
def clientParse (last : ℕ → UInt8) (mem : Bytes) : Parsed × Scan :=
  let sc := Scan.skip isSpace ⟨mem, 0, 1⟩
  parseCommand last .self (if sc.cur = colon then sc.skipWord.skipSpace else sc)

/-- The protocols whose input routine is the shared one. -/
inductive Protocol
  | ithildin1
  | bahamut14
  | dreamforge
  | rfc1459
  deriving DecidableEq

/-- The protocol is spoken between servers. -/
def Protocol.IsServer (p : Protocol) : Prop := p ≠ .rfc1459

instance (p : Protocol) : Decidable p.IsServer := inferInstanceAs (Decidable (_ ≠ _))

/-- `packet_parse` of a protocol, called on a buffer whose first line is NUL-terminated. -/
def packetParse : Protocol → Origins → (ℕ → UInt8) → Bytes → Parsed × Scan
  | .ithildin1, o, last, mem => serverParse o last mem
  | .bahamut14, o, last, mem => serverParse o last mem
  | .dreamforge, o, last, mem => serverParse o last mem
  | .rfc1459, _, last, mem => clientParse last mem

/-! ### The tokenisation meant -/

/-- The fields of a line from its command on. -/
def rfcFields (l : Bytes) : List Bytes := fields isSpace colon (RFC1459_MAXARGS - 1) l

/-- A command for a sender, unless there is none. -/
def rfcCommand (origin : Origin) (l : Bytes) : Option (Origin × List Bytes) :=
  if l = [] then none else some (origin, rfcFields l)

/-- The RFC 1459 reading of a line: an optional prefix, a command and its arguments.  A client's
prefix is passed over; a line from an unknown sender is no message. -/
def rfcMessage (p : Protocol) (o : Origins) (line : Bytes) : Option (Origin × List Bytes) :=
  match trim isSpace line with
  | [] => none
  | c :: l =>
      if c = colon then
        match p with
        | .rfc1459 => rfcCommand .self (trim isSpace (afterWord isSpace (c :: l)))
        | _ =>
            (o.find (word isSpace l)).bind fun origin =>
              rfcCommand origin (trim isSpace (afterWord isSpace l))
      else rfcCommand .self (c :: l)

/-- A call executed what the message says, each slot holding its argument as a C string. -/
def Parsed.Is : Parsed → Option (Origin × List Bytes) → Prop
  | .ignored, none => True
  | .exec origin argv, some (origin', args) => origin = origin' ∧ argv.map cString = args.map some
  | _, _ => False

instance : ∀ r msg, Decidable (Parsed.Is r msg)
  | .ignored, none => isTrue trivial
  | .exec _ _, some (_, _) => inferInstanceAs (Decidable (_ ∧ _))
  | .ignored, some _ => isFalse id
  | .exec _ _, none => isFalse id

/-- The parser, called on `line` with `behind` after its terminator, reads no byte behind the
terminator and yields the tokenisation of the line. -/
def MeetsRfc (p : Protocol) (o : Origins) (last : ℕ → UInt8) (line behind : Bytes) : Prop :=
  (packetParse p o last (line ++ 0 :: behind)).2.high ≤ line.length + 1 ∧
    (packetParse p o last (line ++ 0 :: behind)).1.Is (rfcMessage p o line)

instance (p : Protocol) (o : Origins) (last : ℕ → UInt8) (line behind : Bytes) :
    Decidable (MeetsRfc p o last line behind) :=
  inferInstanceAs (Decidable (_ ∧ _))

end Ithildin
