import Ithildin.Protocol.Parse
import Ithildin.Lib.Run
import Ithildin.Lib.Lines

/-!
# The input routine of `rfc1459_io.c`

* `Conn`: the buffered bytes, the dirty flag and the calls of `packet_parse` made so far;
* `nextLine`: where the first buffered line ends;
* `takeLine`: one round of the inner loop;
* `input`: one `socket_read` and the rounds that follow it.
-/

namespace Ithildin

/-- The byte `'\n'`. -/
def newline : UInt8 := 10

/-- The byte `'\r'`. -/
def cr : UInt8 := 13

/-- What the rest of the server is like when a line is handed over, given the lines before it:
the names it knows, and the last byte of each `argv` slot. -/
structure Env where
  origins : List Bytes → Origins
  last : List Bytes → ℕ → UInt8

/-- A call of `packet_parse`: the names known then, the line, the bytes behind the line's
terminator, and whether the buffer was full to its last byte. -/
structure Call where
  origins : Origins
  line : Bytes
  behind : Bytes
  full : Bool

/-- A connection: the `cp->buflen` bytes of `cp->buf`, the flag `IRCD_CONNFL_DIRTYBUFFER`, and the
calls of `packet_parse` so far. -/
structure Conn where
  buf : Bytes
  dirty : Bool
  calls : List Call

/-- The lines handed to `packet_parse` so far. -/
def Conn.lines (cp : Conn) : List Bytes := cp.calls.map Call.line

/-- A fresh connection. -/
def Conn.empty : Conn := ⟨[], false, []⟩

/-- The end of the first line: the buffer as it stands then, the place of the newline, and
`dirtybuffer`.  A full buffer without a newline gets one over its last byte; otherwise the search
is `strchr`, which stops at a NUL. -/
def nextLine (bufsize : ℕ) (buf : Bytes) : Option (Bytes × ℕ × Bool) :=
  if buf.length = bufsize then
    if newline ∈ buf then some (buf, buf.idxOf newline, false)
    else some (buf.set (bufsize - 1) newline, bufsize - 1, true)
  else if newline ∈ strAt buf then some (buf, buf.idxOf newline, false)
  else none

/-- The place of the terminator: over the CR before the newline, or over the newline. -/
def lineEnd (buf : Bytes) (s : ℕ) : ℕ :=
  if 0 < s ∧ buf[s - 1]? = some cr then s - 1 else s

/-- What `packet_parse` finds in memory: the buffer, and the NUL behind it unless it is full. -/
def memory (bufsize : ℕ) (buf : Bytes) : Bytes :=
  if buf.length < bufsize then buf ++ [0] else buf

/-- One round of the inner loop, with the line ended at `s` in the buffer `buf`. -/
def takeLine (p : Protocol) (sv : Env) (bufsize : ℕ) (cp : Conn) (buf : Bytes) (s : ℕ)
    (dirtybuffer : Bool) : Conn :=
  let mem := memory bufsize (buf.set (lineEnd buf s) 0)
  let o := sv.origins cp.lines
  let call : Call := ⟨o, strAt mem, mem.drop ((strAt mem).length + 1), buf.length == bufsize⟩
  let after := if cp.dirty then mem else (packetParse p o (sv.last cp.lines) mem).2.mem
  ⟨(after.take buf.length).drop (s + 1), dirtybuffer,
    if cp.dirty then cp.calls else cp.calls ++ [call]⟩

/-- The inner loop, for at most `fuel` rounds; each round takes at least one byte. -/
def drain (p : Protocol) (sv : Env) (bufsize : ℕ) : ℕ → Conn → Conn
  | 0, cp => cp
  | fuel + 1, cp =>
      if cp.buf = [] then cp
      else
        match nextLine bufsize cp.buf with
        | none => cp
        | some (buf, s, dirtybuffer) =>
            drain p sv bufsize fuel (takeLine p sv bufsize cp buf s dirtybuffer)

/-- One round of the outer loop: `socket_read` gives `chunk`, at most as much as there is room
for, and the inner loop runs.  A forced call is the round with an empty chunk. -/
def input (p : Protocol) (sv : Env) (bufsize : ℕ) (cp : Conn) (chunk : Bytes) : Option Conn :=
  if cp.buf.length + chunk.length ≤ bufsize then
    let buf := cp.buf ++ chunk
    some (drain p sv bufsize buf.length { cp with buf := buf })
  else none

/-! ### What the lines of a stream are -/

/-- The line that a run of bytes is delivered as. -/
def deliver (bufsize : ℕ) (run : Bytes) : Bytes :=
  let line := run.take (bufsize - 1)
  if line.getLast? = some cr then line.dropLast else line

/-- The lines of a stream: its runs between newlines, each cut to less than `bufsize` bytes and
less the CR at its end; a run of `bufsize` bytes counts before its newline is there. -/
def framedLines (bufsize : ℕ) (stream : Bytes) : List Bytes :=
  Lines.framed newline bufsize (deliver bufsize) stream

end Ithildin
