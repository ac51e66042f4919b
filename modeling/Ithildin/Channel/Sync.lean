import Ithildin.Channel.ChannelMode
import Ithildin.Lib.Batches

/-!
# `sync_channel`

A channel is sent to a new server: the routine of `sjoin_sync_channel.c`, which `bahamut14` and
`ithildin1` share, and the one of `dreamforge.c`.

* `SyncCall`, `SyncLine`: the channel and the lines it is sent as;
* `sjoinSync`, `dreamSync`: the two routines, with the buffers they go through;
* `nameRules`, `modeRules`, `dreamRules`: when a line is sent, and what it has room for;
* `SyncCall.SjoinCarries`, `SyncCall.DreamCarries`: the lines name the members and carry the modes,
  once each and in order;
* `SyncCall.carries_iff_fits`: they do exactly if everything has room in its line.
-/

namespace Ithildin

open Batches

/-- The buffers of both routines. -/
def BUF_SIZE : ℕ := 320

/-- A channel, the clients that `cli_uplink` finds behind the link it is sent over, and
`ircd.limits.nicklen`. -/
structure SyncCall where
  t : ModeTable
  cl : Clients
  chan : Chan
  behind : ℕ → Bool
  nicklen : ℕ
  nodup : chan.users.Nodup
  online : ∀ k ∈ chan.users, k ∈ cl.online
  key_le : ∀ m, (chan.key m).length ≤ PASSWDLEN
  limit_lt : ∀ m, chan.limit m < 4294967296
  nicklen_le : nicklen ≤ NICKLEN

/-- A line, without the names of the channel and of the server and without its timestamp. -/
inductive SyncLine
  | join (cli : ℕ)
  | sjoin (buf : Bytes)
  | mode (modes buf : Bytes)
  deriving DecidableEq

/-- A mode that is set, or an entry of a list, with its argument. -/
structure SyncMode where
  mode : UInt8
  arg : Option Bytes
  deriving DecidableEq

namespace SyncCall

variable (c : SyncCall)

/-- `chanmode_getprefixes`. -/
def getPrefixes (k : ℕ) : Bytes :=
  c.t.avail.filterMap fun m =>
    match c.t.kind m with
    | some (.uflag pfx) => if c.chan.uflags k m then some pfx else none
    | _ => none

/-- What the queries for a mode answer, one after the other: `chanmode_ban_query`,
`chanmode_key_query`, `chanmode_limit_query`, `chanmode_flag_query`; there is nothing to be had from
`chanmode_uflag_query`. -/
def query (m : UInt8) : List SyncMode :=
  match c.t.kind m with
  | some .ban => (c.chan.bans m).list.map fun cbp => ⟨m, some cbp.text⟩
  | some .key => if c.chan.modes m then [⟨m, some (c.chan.key m)⟩] else []
  | some .limit => if c.chan.modes m then [⟨m, some (itoa (c.chan.limit m))⟩] else []
  | some .flag | some .reg => if c.chan.modes m then [⟨m, none⟩] else []
  | some (.uflag _) | none => []

end SyncCall

/-! ### The routines -/

/-- `len` of an argument that a query answers with. -/
def SyncMode.len (x : SyncMode) : ℕ := (x.arg.getD []).length

/-- How many bytes a query writes: `strncpy(arg, .., PASSWDLEN)` for a key, `strcpy` otherwise. -/
def SyncMode.size (t : ModeTable) (x : SyncMode) : ℕ :=
  if t.kind x.mode = some .key then PASSWDLEN else if x.arg.isSome then x.len + 1 else 0

/-- What is sent, `modes` behind its sign, which has `cnt` letters, and the first `len` bytes of the
buffer. -/
structure SyncBuf where
  sent : List SyncLine
  modes : Bytes
  buf : Bytes

/-- `CHANMODE_FL_PREFIX`. -/
def ModeTable.isUflag (t : ModeTable) (m : UInt8) : Bool :=
  match t.kind m with
  | some (.uflag _) => true
  | _ => false

namespace SyncBuf

/-- The MODE line is sent, and the buffers are empty. -/
def send (s : SyncBuf) : SyncBuf := ⟨s.sent ++ [.mode (plusSign :: s.modes) s.buf], [], []⟩

/-- A mode and its argument; `none` when the NUL lies behind the buffer. -/
def add (s : SyncBuf) (mode : UInt8) (arg : Bytes) (full : SyncBuf → Bool) : Option SyncBuf :=
  let s : SyncBuf := ⟨s.sent, s.modes ++ [mode], s.buf ++ arg⟩
  if s.buf.length < BUF_SIZE then some (if full s then s.send else s) else none

/-- `cnt == 6`. -/
def six (s : SyncBuf) : Bool := s.modes.length == MAXMODES

/-- A round of the loop over `chanmode_query`; `none` when something is written behind the buffer.
The query takes a negative `optused` for a large one. -/
def answer (t : ModeTable) (s : SyncBuf) (x : SyncMode) : Option SyncBuf :=
  let optused : ℤ := BUF_SIZE - s.buf.length - 2
  -- no space: the line is sent, and the mode is queried again, with room for any argument there is
  let s := if 0 ≤ optused ∧ optused < x.len then s.send else s
  if s.buf.length + x.size t ≤ BUF_SIZE then
    s.add x.mode (if x.len = 0 then [] else x.arg.getD [] ++ [blank]) six
  else none

/-- The spares. -/
def finish (s : SyncBuf) : List SyncLine := (if s.modes = [] then s else s.send).sent

end SyncBuf

/-- A member goes into the SJOIN line. -/
def syncName (c : SyncCall) (s : List SyncLine × Bytes) (k : ℕ) : Option (List SyncLine × Bytes) :=
  if c.behind k then some s
  else
    let (sent, buf) :=
      if BUF_SIZE - s.2.length ≤ c.nicklen + 20 then (s.1 ++ [.sjoin s.2], []) else s
    let buf := buf ++ (c.getPrefixes k ++ c.cl.nick k ++ [blank])
    if buf.length < BUF_SIZE then some (sent, buf) else none

/-- `sync_channel` of `sjoin_sync_channel.c`; modes with a prefix are skipped, as they have no
answers. -/
def sjoinSync (c : SyncCall) : Option (List SyncLine) :=
  (c.chan.users.foldlM (syncName c) ([], [])).bind fun (sent, buf) =>
    let sent := if buf.length ≠ 0 then sent ++ [.sjoin buf] else sent
    (c.t.avail.foldlM (fun s m => (c.query m).foldlM (SyncBuf.answer c.t) s)
      (⟨sent, [], []⟩ : SyncBuf)).map SyncBuf.finish

/-- A member with a flag goes into the MODE line. -/
def syncFlag (c : SyncCall) (m : UInt8) (s : SyncBuf) (k : ℕ) : Option SyncBuf :=
  if c.behind k then some s
  else if c.chan.uflags k m then
    s.add m (c.cl.nick k ++ [blank]) fun s =>
      s.six || decide (BUF_SIZE - s.buf.length ≤ c.nicklen + 1)
  else some s

/-- A mode: the users with its flag if it has a prefix, and then what it answers. -/
def dreamMode (c : SyncCall) (s : SyncBuf) (m : UInt8) : Option SyncBuf :=
  (if c.t.isUflag m then c.chan.users.foldlM (syncFlag c m) s else some s).bind fun s =>
    (c.query m).foldlM (SyncBuf.answer c.t) s

/-- `sync_channel` of `dreamforge.c`. -/
def dreamSync (c : SyncCall) : Option (List SyncLine) :=
  let joins := (c.chan.users.filter fun k => !c.behind k).map SyncLine.join
  (c.t.avail.foldlM (dreamMode c) (⟨joins, [], []⟩ : SyncBuf)).map SyncBuf.finish

/-! ### What the lines are to carry -/

namespace SyncCall

variable (c : SyncCall)

/-- The members that are not reached through the link. -/
def members : List ℕ := c.chan.users.filter fun k => !c.behind k

/-- A member, its prefixes in front. -/
def nameText (k : ℕ) : Bytes := c.getPrefixes k ++ c.cl.nick k ++ [blank]

/-- The modes and the entries of lists, each with its argument. -/
def settings : List SyncMode := c.t.avail.flatMap c.query

/-- A mode with a prefix, for every member that has its flag. -/
def flags (m : UInt8) : List SyncMode :=
  if c.t.isUflag m then
    (c.members.filter fun k => c.chan.uflags k m).map fun k => ⟨m, some (c.cl.nick k)⟩
  else []

/-- The same with the flags of the members. -/
def dreamSettings : List SyncMode := c.t.avail.flatMap fun m => c.flags m ++ c.query m

/-- An SJOIN line that names these members. -/
def sjoinLine (names : List ℕ) : SyncLine := .sjoin (names.flatMap c.nameText)

end SyncCall

/-- An argument, and the blank behind it. -/
def SyncMode.text (x : SyncMode) : Bytes :=
  match x.arg with
  | some arg => arg ++ [blank]
  | none => []

/-- A MODE line with these modes and their arguments. -/
def carriedLine (modes : List SyncMode) : SyncLine :=
  .mode (plusSign :: modes.map SyncMode.mode) (modes.flatMap SyncMode.text)

/-- MODE lines with these modes, once each and in order, and no more on a line than may be. -/
def ModeLines (settings : List SyncMode) (lines : List SyncLine) : Prop :=
  ∃ chunks : List (List SyncMode), lines = chunks.map carriedLine ∧ chunks.flatten = settings ∧
    ∀ l ∈ chunks, l ≠ [] ∧ l.length ≤ MAXMODES

namespace SyncCall

variable (c : SyncCall)

/-- The routine keeps to its buffer, and its lines name every member once with its prefixes and
carry every mode and every entry once with its argument. -/
def SjoinCarries : Prop :=
  ∃ (names : List (List ℕ)) (lines : List SyncLine),
    sjoinSync c = some (names.map c.sjoinLine ++ lines) ∧
    names.flatten = c.members ∧ (∀ l ∈ names, l ≠ []) ∧ ModeLines c.settings lines

/-- The same for `dreamforge`, whose MODE lines give the members their flags. -/
def DreamCarries : Prop :=
  ∃ lines, dreamSync c = some (c.members.map SyncLine.join ++ lines) ∧
    ModeLines c.dreamSettings lines

end SyncCall

/-! ### What there is room for -/

/-- The bytes of an argument in the buffer. -/
def SyncMode.written (x : SyncMode) : Bytes := if x.len = 0 then [] else x.arg.getD [] ++ [blank]

/-- How far these items fill the buffer. -/
def filled {α : Type} (text : α → Bytes) (items : List α) : ℕ := (items.flatMap text).length

/-- An SJOIN line is sent before a member that it might have no room for. -/
def nameRules (c : SyncCall) : Rules ℕ where
  early names _ := decide (BUF_SIZE - filled c.nameText names ≤ c.nicklen + 20)
  fits names k := decide (filled c.nameText names + (c.nameText k).length < BUF_SIZE)
  late _ _ := false

/-- A MODE line is sent before an argument that is longer than the room that is left, unless the
room is less than nothing, and behind the sixth mode. -/
def modeRules (t : ModeTable) : Rules SyncMode where
  early modes x :=
    let optused : ℤ := BUF_SIZE - filled SyncMode.written modes - 2
    decide (0 ≤ optused ∧ optused < x.len)
  fits modes x := decide (filled SyncMode.written modes + x.size t ≤ BUF_SIZE ∧
    filled SyncMode.written modes + x.written.length < BUF_SIZE)
  late modes _ := modes.length + 1 == MAXMODES

/-- In front of the nick of a member nothing is sent, and behind it when the next nick might have no
room. -/
def dreamRules (c : SyncCall) : Rules SyncMode where
  early modes x := !c.t.isUflag x.mode && (modeRules c.t).early modes x
  fits modes x :=
    if c.t.isUflag x.mode then
      decide (filled SyncMode.written modes + x.written.length < BUF_SIZE)
    else (modeRules c.t).fits modes x
  late modes x := modes.length + 1 == MAXMODES || c.t.isUflag x.mode &&
    decide (BUF_SIZE - (filled SyncMode.written modes + x.written.length) ≤ c.nicklen + 1)

namespace SyncCall

variable (c : SyncCall)

/-- A key that is set is not empty. -/
def Keyed : Prop := ∀ m, c.t.kind m = some .key → c.chan.modes m = true → c.chan.key m ≠ []

/-- Every member has room in its SJOIN line and every mode in its MODE line. -/
def SjoinFits : Prop :=
  Batches.Packs (nameRules c) [] c.members ∧ Batches.Packs (modeRules c.t) [] c.settings ∧ c.Keyed

def DreamFits : Prop := Batches.Packs (dreamRules c) [] c.dreamSettings ∧ c.Keyed

end SyncCall

/-! ### The settings -/

namespace SyncCall

variable {c : SyncCall}

theorem written_le_text (x : SyncMode) : x.written.length ≤ x.text.length := by
  unfold SyncMode.written SyncMode.text SyncMode.len
  cases x.arg with
  | none => simp
  | some arg =>
    simp only [Option.getD_some]
    split
    · simp
    · exact le_rfl

/-- Only an empty argument has no blank behind it. -/
theorem written_eq_text {x : SyncMode} : x.written = x.text ↔ x.arg ≠ some [] := by
  unfold SyncMode.written SyncMode.text SyncMode.len
  cases x.arg with
  | none => simp
  | some arg => cases arg <;> simp

/-- What a channel has set: the entries of its lists, its key, its limit and its flags. -/
def IsSet (c : SyncCall) (x : SyncMode) : Prop :=
  (c.t.kind x.mode = some .ban ∧ ∃ cbp ∈ (c.chan.bans x.mode).list, x.arg = some cbp.text) ∨
    c.chan.modes x.mode = true ∧
      (c.t.kind x.mode = some .key ∧ x.arg = some (c.chan.key x.mode) ∨
        c.t.kind x.mode = some .limit ∧ x.arg = some (itoa (c.chan.limit x.mode)) ∨
        (c.t.kind x.mode = some .flag ∨ c.t.kind x.mode = some .reg) ∧ x.arg = none)

theorem mem_query {m : UInt8} {x : SyncMode} : x ∈ c.query m ↔ x.mode = m ∧ c.IsSet x := by
  obtain ⟨mode, arg⟩ := x
  unfold query IsSet
  dsimp only
  constructor
  · intro hx
    cases hkind : c.t.kind m with
    | none => simp [hkind] at hx
    | some k =>
      cases k with
      | ban =>
        obtain ⟨cbp, hcbp, rfl, rfl⟩ : ∃ cbp ∈ (c.chan.bans m).list, m = mode ∧
            some cbp.text = arg := by
          simpa [hkind] using hx
        exact ⟨rfl, .inl ⟨hkind, cbp, hcbp, rfl⟩⟩
      | key =>
        obtain ⟨hset, rfl, rfl⟩ : c.chan.modes m = true ∧ mode = m ∧ arg = some (c.chan.key m) := by
          simpa [hkind] using hx
        exact ⟨rfl, .inr ⟨hset, .inl ⟨hkind, rfl⟩⟩⟩
      | limit =>
        obtain ⟨hset, rfl, rfl⟩ : c.chan.modes m = true ∧ mode = m ∧
            arg = some (itoa (c.chan.limit m)) := by
          simpa [hkind] using hx
        exact ⟨rfl, .inr ⟨hset, .inr (.inl ⟨hkind, rfl⟩)⟩⟩
      | flag =>
        obtain ⟨hset, rfl, rfl⟩ : c.chan.modes m = true ∧ mode = m ∧ arg = none := by
          simpa [hkind] using hx
        exact ⟨rfl, .inr ⟨hset, .inr (.inr ⟨.inl hkind, rfl⟩)⟩⟩
      | reg =>
        obtain ⟨hset, rfl, rfl⟩ : c.chan.modes m = true ∧ mode = m ∧ arg = none := by
          simpa [hkind] using hx
        exact ⟨rfl, .inr ⟨hset, .inr (.inr ⟨.inr hkind, rfl⟩)⟩⟩
      | uflag pfx => simp [hkind] at hx
  · rintro ⟨rfl, hset⟩
    rcases hset with ⟨hkind, cbp, hcbp, rfl⟩ |
      ⟨hset, ⟨hkind, rfl⟩ | ⟨hkind, rfl⟩ | ⟨hkind | hkind, rfl⟩⟩
    · simp only [hkind]
      exact List.mem_map_of_mem hcbp
    all_goals simp [hkind, hset]

/-- A key is the only argument that may be empty. -/
theorem arg_ne (hkeyed : c.Keyed) {x : SyncMode} (hx : c.IsSet x) : x.arg ≠ some [] := by
  rcases hx with ⟨-, cbp, -, harg⟩ | ⟨hset, ⟨hkind, harg⟩ | ⟨-, harg⟩ | ⟨-, harg⟩⟩
  · simp [harg, Ban.text]
  · simpa [harg] using hkeyed x.mode hkind hset
  · obtain ⟨d, ds, hcons, -⟩ := exists_itoa_eq_cons
      (show c.chan.limit x.mode < 10 ^ 20 from (c.limit_lt x.mode).trans (by decide))
    simp [harg, hcons]
  · simp [harg]

theorem IsSet.isUflag {x : SyncMode} (hx : c.IsSet x) : c.t.isUflag x.mode = false := by
  unfold ModeTable.isUflag
  rcases hx with ⟨hkind, -⟩ | ⟨-, ⟨hkind, -⟩ | ⟨hkind, -⟩ | ⟨hkind | hkind, -⟩⟩
  all_goals rw [hkind]

theorem IsSet.mem_avail {x : SyncMode} (hx : c.IsSet x) : x.mode ∈ c.t.avail := by
  have hkind : (c.t.kind x.mode).isSome := by
    rcases hx with ⟨hkind, -⟩ | ⟨-, ⟨hkind, -⟩ | ⟨hkind, -⟩ | ⟨hkind | hkind, -⟩⟩
    all_goals simp [hkind]
  exact ModeTable.mem_avail.2 hkind

theorem arg_flags_ne {m : UInt8} {x : SyncMode} (hx : x ∈ c.flags m) : x.arg ≠ some [] := by
  unfold flags at hx
  split at hx
  · obtain ⟨k, hk, rfl⟩ := List.mem_map.1 hx
    have hmem : k ∈ c.chan.users := List.mem_of_mem_filter (List.mem_of_mem_filter hk)
    show some (c.cl.nick k) ≠ some []
    simpa using (c.cl.nick_isWord k (c.online k hmem)).1.1
  · cases hx

end SyncCall

/-! ### The lines -/

/-- A MODE line as it is written. -/
def writtenLine (modes : List SyncMode) : SyncLine :=
  .mode (plusSign :: modes.map SyncMode.mode) (modes.flatMap SyncMode.written)

/-- The buffers that a packing stands for, with these lines sent before. -/
def bufOf (pre : List SyncLine) (p : Packing SyncMode) : SyncBuf :=
  ⟨pre ++ p.done.map writtenLine, p.cur.map SyncMode.mode, p.cur.flatMap SyncMode.written⟩

section

variable (pre : List SyncLine)

theorem bufOf_nil : (⟨pre, [], []⟩ : SyncBuf) = bufOf pre ⟨[], []⟩ := by
  simp [bufOf]

theorem bufOf_close (p : Packing SyncMode) : bufOf pre p.close = (bufOf pre p).send := by
  simp [Packing.close, bufOf, SyncBuf.send, writtenLine]

theorem finish_bufOf (p : Packing SyncMode) :
    (bufOf pre p).finish = pre ++ p.batches.map writtenLine := by
  unfold SyncBuf.finish Packing.batches
  cases hcur : p.cur with
  | nil => simp [bufOf, hcur]
  | cons x l => simp [bufOf, hcur, SyncBuf.send, writtenLine]

/-- A mode goes into the buffers as it goes into the packing. -/
theorem add_bufOf {R : Rules SyncMode} {p : Packing SyncMode} {x : SyncMode}
    (full : SyncBuf → Bool)
    (hlate : full (bufOf pre ⟨p.done, p.cur ++ [x]⟩) = R.late p.cur x) :
    (bufOf pre p).add x.mode x.written full =
      if filled SyncMode.written p.cur + x.written.length < BUF_SIZE then
        some (bufOf pre (p.put R x))
      else none := by
  have hbuf : (⟨(bufOf pre p).sent, (bufOf pre p).modes ++ [x.mode],
      (bufOf pre p).buf ++ x.written⟩ : SyncBuf) = bufOf pre ⟨p.done, p.cur ++ [x]⟩ := by
    simp [bufOf]
  have hlength : ((bufOf pre p).buf ++ x.written).length =
      filled SyncMode.written p.cur + x.written.length := List.length_append
  unfold SyncBuf.add Packing.put
  simp only [hbuf, hlate, hlength]
  split
  · split
    · rw [bufOf_close]
    · rfl
  · rfl

theorem six_bufOf (p : Packing SyncMode) (x : SyncMode) :
    (bufOf pre ⟨p.done, p.cur ++ [x]⟩).six = (p.cur.length + 1 == MAXMODES) := by
  simp [SyncBuf.six, bufOf]

/-- What a query answers goes into the buffers. -/
theorem answer_bufOf (t : ModeTable) (p : Packing SyncMode) (x : SyncMode) :
    (bufOf pre p).answer t x = (step (modeRules t) p x).map (bufOf pre) := by
  have hearly : (if (0 : ℤ) ≤ BUF_SIZE - (bufOf pre p).buf.length - 2 ∧
      (BUF_SIZE : ℤ) - (bufOf pre p).buf.length - 2 < x.len then (bufOf pre p).send
      else bufOf pre p) = bufOf pre (p.early (modeRules t) x) := by
    have hlength : (bufOf pre p).buf.length = filled SyncMode.written p.cur := rfl
    unfold Packing.early modeRules
    simp only [hlength, decide_eq_true_eq]
    split
    · exact (bufOf_close pre p).symm
    · rfl
  unfold SyncBuf.answer step
  dsimp only
  rw [hearly]
  generalize p.early (modeRules t) x = q
  rw [← SyncMode.written, add_bufOf (R := modeRules t) pre SyncBuf.six (six_bufOf pre q x)]
  have hfits : (modeRules t).fits q.cur x = true ↔ (bufOf pre q).buf.length + x.size t ≤ BUF_SIZE ∧
      filled SyncMode.written q.cur + x.written.length < BUF_SIZE := by
    unfold modeRules
    exact decide_eq_true_iff
  simp only [hfits]
  by_cases hsize : (bufOf pre q).buf.length + x.size t ≤ BUF_SIZE
  · rw [if_pos hsize]
    simp only [hsize, true_and]
    split <;> rfl
  · rw [if_neg hsize, if_neg fun h => hsize h.1]
    rfl

/-- For a mode without a prefix both routines have the same rules. -/
theorem step_dreamRules (c : SyncCall) (p : Packing SyncMode) {x : SyncMode}
    (hx : c.t.isUflag x.mode = false) : step (dreamRules c) p x = step (modeRules c.t) p x := by
  have hearly : p.early (dreamRules c) x = p.early (modeRules c.t) x := by
    simp [Packing.early, dreamRules, hx]
  have hput : ∀ q : Packing SyncMode, q.put (dreamRules c) x = q.put (modeRules c.t) x := by
    intro q
    simp [Packing.put, dreamRules, modeRules, hx]
  unfold step
  rw [hearly, hput]
  simp [dreamRules, hx]

theorem step_dreamRules_uflag (c : SyncCall) (p : Packing SyncMode) {x : SyncMode}
    (hx : c.t.isUflag x.mode = true) :
    step (dreamRules c) p x =
      if filled SyncMode.written p.cur + x.written.length < BUF_SIZE then
        some (p.put (dreamRules c) x)
      else none := by
  have hearly : p.early (dreamRules c) x = p := by
    simp [Packing.early, dreamRules, hx]
  unfold step
  rw [hearly]
  simp [dreamRules, hx]

/-- The flag of a member goes into the buffers. -/
theorem syncFlag_bufOf (c : SyncCall) {m : UInt8} (hm : c.t.isUflag m = true)
    (p : Packing SyncMode) {k : ℕ} (hk : k ∈ c.chan.users) :
    syncFlag c m (bufOf pre p) k = (run (dreamRules c) p
      (if !c.behind k && c.chan.uflags k m then [⟨m, some (c.cl.nick k)⟩] else [])).map
        (bufOf pre) := by
  unfold syncFlag
  by_cases hbehind : c.behind k = true
  · simp [hbehind]
  by_cases hflag : c.chan.uflags k m = true
  · have hwritten : c.cl.nick k ++ [blank] = SyncMode.written ⟨m, some (c.cl.nick k)⟩ := by
      have hne := (c.cl.nick_isWord k (c.online k hk)).1.1
      simp [SyncMode.written, SyncMode.len, hne]
    have hadd := add_bufOf (R := dreamRules c) pre (p := p) (x := ⟨m, some (c.cl.nick k)⟩)
      (fun s => s.six || decide (BUF_SIZE - s.buf.length ≤ c.nicklen + 1)) (by
        rw [six_bufOf]
        simp [dreamRules, hm, bufOf, filled])
    rw [if_neg hbehind, if_pos hflag, hwritten]
    simp only [hbehind, hflag, Bool.not_false, Bool.and_self, if_true]
    rw [run_cons, step_dreamRules_uflag c p hm]
    refine hadd.trans ?_
    split <;> rfl
  · simp [hbehind, hflag]

end

namespace SyncCall

variable (c : SyncCall)

/-- The flags of the members, one after the other. -/
theorem flags_eq {m : UInt8} (hm : c.t.isUflag m = true) :
    c.flags m = c.chan.users.flatMap fun k =>
      if !c.behind k && c.chan.uflags k m then [⟨m, some (c.cl.nick k)⟩] else [] := by
  unfold flags members
  rw [if_pos hm, List.filter_filter]
  induction c.chan.users with
  | nil => rfl
  | cons k l ih =>
    rw [List.flatMap_cons, ← ih, List.filter_cons]
    by_cases hk : c.chan.uflags k m = true
    · by_cases hbehind : c.behind k = true
      · simp [hk, hbehind]
      · simp [hk, hbehind]
    · simp [hk]

theorem dreamMode_bufOf (pre : List SyncLine) (p : Packing SyncMode) (m : UInt8) :
    dreamMode c (bufOf pre p) m =
      (run (dreamRules c) p (c.flags m ++ c.query m)).map (bufOf pre) := by
  have hquery : ∀ q : Packing SyncMode, (c.query m).foldlM (SyncBuf.answer c.t) (bufOf pre q) =
      (run (dreamRules c) q (c.query m)).map (bufOf pre) := by
    refine foldlM_eq_run fun q x hx => ?_
    rw [answer_bufOf, step_dreamRules c q (mem_query.1 hx).2.isUflag]
  unfold dreamMode
  by_cases hm : c.t.isUflag m = true
  · rw [if_pos hm, c.flags_eq hm,
      foldlM_eq_run_flatMap (fun q k hk => syncFlag_bufOf pre c hm q hk) p, run_append]
    cases run (dreamRules c) p _ with
    | none => rfl
    | some q => exact hquery q
  · rw [if_neg hm, flags, if_neg hm]
    exact hquery p

/-- The names of an SJOIN line that a packing stands for. -/
def namesOf (p : Packing ℕ) : List SyncLine × Bytes :=
  (p.done.map c.sjoinLine, p.cur.flatMap c.nameText)

/-- A member goes into the SJOIN line. -/
theorem syncName_namesOf (p : Packing ℕ) (k : ℕ) :
    syncName c (c.namesOf p) k =
      (run (nameRules c) p (if !c.behind k then [k] else [])).map c.namesOf := by
  unfold syncName
  by_cases hbehind : c.behind k = true
  · simp [hbehind]
  have hearly : (if BUF_SIZE - (c.namesOf p).2.length ≤ c.nicklen + 20 then
      ((c.namesOf p).1 ++ [.sjoin (c.namesOf p).2], []) else c.namesOf p) =
        c.namesOf (p.early (nameRules c) k) := by
    have hlength : (c.namesOf p).2.length = filled c.nameText p.cur := rfl
    unfold Packing.early nameRules
    simp only [hlength, decide_eq_true_eq]
    split
    · simp [namesOf, Packing.close, sjoinLine]
    · rfl
  simp only [hbehind, Bool.not_false, if_true, run_cons]
  rw [hearly]
  unfold step
  generalize p.early (nameRules c) k = q
  have hput : c.namesOf (q.put (nameRules c) k) =
      ((c.namesOf q).1, (c.namesOf q).2 ++ c.nameText k) := by
    simp [Packing.put, nameRules, namesOf]
  have hlength : ((c.namesOf q).2 ++ c.nameText k).length =
      filled c.nameText q.cur + (c.nameText k).length := List.length_append
  have hfits : (nameRules c).fits q.cur k = true ↔
      ((c.namesOf q).2 ++ c.nameText k).length < BUF_SIZE := by
    rw [hlength]
    exact decide_eq_true_iff
  simp only [hfits]
  rw [if_neg Bool.false_ne_true]
  change (if ((c.namesOf q).2 ++ c.nameText k).length < BUF_SIZE then
    some ((c.namesOf q).1, (c.namesOf q).2 ++ c.nameText k) else none) = _
  rw [← hput]
  split <;> rfl

theorem members_eq : c.members = c.chan.users.flatMap fun k => if !c.behind k then [k] else [] := by
  unfold members
  induction c.chan.users with
  | nil => rfl
  | cons k l ih =>
    rw [List.flatMap_cons, ← ih, List.filter_cons]
    split <;> rfl

/-- What the routine of `sjoin_sync_channel.c` sends. -/
theorem sjoinSync_eq :
    sjoinSync c = (run (nameRules c) ⟨[], []⟩ c.members).bind fun p =>
      (run (modeRules c.t) ⟨[], []⟩ c.settings).map fun q =>
        p.batches.map c.sjoinLine ++ q.batches.map writtenLine := by
  have hnames : c.chan.users.foldlM (syncName c) ([], []) =
      (run (nameRules c) ⟨[], []⟩ c.members).map c.namesOf := by
    rw [members_eq]
    change c.chan.users.foldlM (syncName c) (c.namesOf ⟨[], []⟩) = _
    exact foldlM_eq_run_flatMap (fun p k _ => c.syncName_namesOf p k) ⟨[], []⟩
  have hmodes : ∀ pre, (c.t.avail.foldlM (fun s m => (c.query m).foldlM (SyncBuf.answer c.t) s)
      (⟨pre, [], []⟩ : SyncBuf)) = (run (modeRules c.t) ⟨[], []⟩ c.settings).map (bufOf pre) := by
    intro pre
    have hquery : ∀ q m, (c.query m).foldlM (SyncBuf.answer c.t) (bufOf pre q) =
        (run (modeRules c.t) q (c.query m)).map (bufOf pre) :=
      fun q m => foldlM_eq_run (fun q x _ => answer_bufOf pre c.t q x) q
    rw [bufOf_nil]
    exact foldlM_eq_run_flatMap (fun q m _ => hquery q m) ⟨[], []⟩
  unfold sjoinSync
  rw [hnames]
  cases run (nameRules c) ⟨[], []⟩ c.members with
  | none => rfl
  | some p =>
    -- the leftovers are sent if there are any
    have hsent : (if (c.namesOf p).2.length ≠ 0 then
        (c.namesOf p).1 ++ [.sjoin (c.namesOf p).2] else (c.namesOf p).1) =
          p.batches.map c.sjoinLine := by
      unfold Packing.batches namesOf
      cases p.cur with
      | nil => simp
      | cons k l => simp [nameText, sjoinLine]
    simp only [Option.map_some, Option.bind_some]
    rw [hsent, hmodes, Option.map_map]
    refine congrArg (Option.map · _) (funext fun q => ?_)
    exact finish_bufOf _ q

/-- What the routine of `dreamforge.c` sends. -/
theorem dreamSync_eq :
    dreamSync c = (run (dreamRules c) ⟨[], []⟩ c.dreamSettings).map fun q =>
      c.members.map SyncLine.join ++ q.batches.map writtenLine := by
  unfold dreamSync
  dsimp only
  rw [bufOf_nil, foldlM_eq_run_flatMap fun q m _ => c.dreamMode_bufOf _ q m, Option.map_map]
  refine congrArg (Option.map · _) (funext fun q => ?_)
  exact finish_bufOf _ q

/-! ### What is carried -/

/-- An SJOIN line that is empty is not sent. -/
theorem nameRules_early (k : ℕ) : (nameRules c).early [] k = false := by
  have hle := c.nicklen_le
  unfold NICKLEN at hle
  simp only [nameRules, filled, BUF_SIZE, List.flatMap_nil, List.length_nil,
    decide_eq_false_iff_not]
  omega

/-- A MODE line that is empty is sent only before an argument that no line has room for. -/
theorem modeRules_early {t : ModeTable} {x : SyncMode} (h : (modeRules t).early [] x = true) :
    (modeRules t).fits [] x = false := by
  simp only [modeRules, filled, BUF_SIZE, List.flatMap_nil, List.length_nil, decide_eq_true_eq] at h
  have hlen : 318 < x.len := by omega
  have hwritten : 319 < x.written.length := by
    unfold SyncMode.written
    rw [if_neg (by omega), List.length_append]
    exact Nat.succ_lt_succ hlen
  simp only [modeRules, filled, BUF_SIZE, List.flatMap_nil, List.length_nil,
    decide_eq_false_iff_not]
  omega

theorem dreamRules_early {x : SyncMode} (h : (dreamRules c).early [] x = true) :
    (dreamRules c).fits [] x = false := by
  simp only [dreamRules, Bool.and_eq_true, Bool.not_eq_true'] at h ⊢
  rw [h.1]
  exact modeRules_early h.2

/-- The lines that are written carry the modes if no argument is empty. -/
theorem modeLines_of_run {R : Rules SyncMode}
    (hearly : ∀ x, R.early [] x = true → R.fits [] x = false)
    (hlate : ∀ cur x, cur.length + 1 = MAXMODES → R.late cur x = true) {l : List SyncMode}
    {q : Packing SyncMode} (hrun : run R ⟨[], []⟩ l = some q) (harg : ∀ x ∈ l, x.arg ≠ some []) :
    ModeLines l (q.batches.map writtenLine) := by
  have hflatten : q.batches.flatten = l := flatten_run hrun
  refine ⟨q.batches, ?_, hflatten, fun b hb => ⟨ne_nil_of_run hearly hrun b hb,
    length_le_of_run (by decide) hlate hrun b hb⟩⟩
  refine List.map_congr_left fun b hb => ?_
  have htext : b.flatMap SyncMode.written = b.flatMap SyncMode.text := by
    refine List.flatMap_congr fun x hx => written_eq_text.2 (harg x ?_)
    rw [← hflatten]
    exact List.mem_flatten_of_mem hb hx
  rw [writtenLine, carriedLine, htext]

/-- The arguments of a line. -/
def argBytes : SyncLine → Bytes
  | .mode _ buf => buf
  | _ => []

theorem argBytes_map {line : List SyncMode → SyncLine} (text : SyncMode → Bytes)
    (hline : ∀ l, argBytes (line l) = l.flatMap text) (chunks : List (List SyncMode)) :
    (chunks.map line).flatMap argBytes = chunks.flatten.flatMap text := by
  induction chunks with
  | nil => rfl
  | cons l chunks ih =>
    rw [List.map_cons, List.flatMap_cons, List.flatten_cons, List.flatMap_append, ih, hline]

theorem length_written_le (l : List SyncMode) :
    (l.flatMap SyncMode.written).length ≤ (l.flatMap SyncMode.text).length := by
  induction l with
  | nil => exact le_rfl
  | cons x l ih =>
    simp only [List.flatMap_cons, List.length_append]
    exact Nat.add_le_add (written_le_text x) ih

/-- Where the bytes are those of the arguments, none of them is empty. -/
theorem arg_ne_of_flatMap_eq {l : List SyncMode}
    (h : l.flatMap SyncMode.written = l.flatMap SyncMode.text) : ∀ x ∈ l, x.arg ≠ some [] := by
  induction l with
  | nil => simp
  | cons x l ih =>
    simp only [List.flatMap_cons] at h
    have hlength := congrArg List.length h
    simp only [List.length_append] at hlength
    have hx := written_le_text x
    have hl := length_written_le l
    obtain ⟨hhead, htail⟩ := List.append_inj h (by omega)
    exact List.forall_mem_cons.2 ⟨written_eq_text.1 hhead, ih htail⟩

theorem mem_settings {x : SyncMode} : x ∈ c.settings ↔ c.IsSet x := by
  unfold settings
  rw [List.mem_flatMap]
  constructor
  · rintro ⟨m, -, hx⟩
    exact (mem_query.1 hx).2
  · exact fun hx => ⟨x.mode, hx.mem_avail, mem_query.2 ⟨rfl, hx⟩⟩

/-- The modes of `dreamforge` are those of the channel and the flags of the members. -/
theorem mem_dreamSettings {x : SyncMode} :
    x ∈ c.dreamSettings ↔ x ∈ c.settings ∨ ∃ m ∈ c.t.avail, x ∈ c.flags m := by
  simp only [dreamSettings, settings, List.mem_flatMap, List.mem_append]
  grind

theorem keyed_of_arg_ne (h : ∀ x ∈ c.settings, x.arg ≠ some []) : c.Keyed := by
  intro m hkind hset hkey
  have hmem : (⟨m, some (c.chan.key m)⟩ : SyncMode) ∈ c.settings :=
    c.mem_settings.2 (.inr ⟨hset, .inl ⟨hkind, rfl⟩⟩)
  exact h _ hmem (congrArg some hkey)

/-- If the modes are carried, none of their arguments is empty. -/
theorem arg_ne_of_modeLines {settings : List SyncMode} {q : Packing SyncMode}
    (hflatten : q.batches.flatten = settings) {heads lines : List SyncLine}
    (h : ModeLines settings lines) (heads' : List SyncLine)
    (hheads : heads.flatMap argBytes = []) (hheads' : heads'.flatMap argBytes = [])
    (heq : heads ++ lines = heads' ++ q.batches.map writtenLine) :
    ∀ x ∈ settings, x.arg ≠ some [] := by
  obtain ⟨chunks, rfl, hchunks, -⟩ := h
  refine arg_ne_of_flatMap_eq ?_
  have hbytes := congrArg (List.flatMap argBytes) heq
  rw [List.flatMap_append, List.flatMap_append, hheads, hheads', List.nil_append, List.nil_append,
    argBytes_map SyncMode.text fun _ => rfl,
    argBytes_map SyncMode.written fun _ => rfl, hchunks, hflatten] at hbytes
  exact hbytes.symm

theorem sjoinCarries_iff : c.SjoinCarries ↔ c.SjoinFits := by
  unfold SjoinCarries SjoinFits
  rw [sjoinSync_eq]
  constructor
  · rintro ⟨names, lines, hsync, -, -, hlines⟩
    obtain ⟨p, hp, hrest⟩ := Option.bind_eq_some_iff.1 hsync
    obtain ⟨q, hq, heq⟩ := Option.map_eq_some_iff.1 hrest
    refine ⟨run_isSome.1 (Option.isSome_of_eq_some hp), run_isSome.1 (Option.isSome_of_eq_some hq),
      c.keyed_of_arg_ne ?_⟩
    have hnames : ∀ names : List (List ℕ), (names.map c.sjoinLine).flatMap argBytes = [] := by
      intro names
      simp [sjoinLine, argBytes]
    exact arg_ne_of_modeLines (flatten_run hq) hlines _ (hnames _) (hnames _) heq.symm
  · rintro ⟨hmembers, hmodes, hkeyed⟩
    obtain ⟨p, hp⟩ := Option.isSome_iff_exists.1 (run_isSome (p := ⟨[], []⟩).2 hmembers)
    obtain ⟨q, hq⟩ := Option.isSome_iff_exists.1 (run_isSome (p := ⟨[], []⟩).2 hmodes)
    refine ⟨p.batches, q.batches.map writtenLine, ?_, flatten_run hp, ?_, ?_⟩
    · rw [hp, Option.bind_some, hq, Option.map_some]
    · refine ne_nil_of_run (fun k hk => ?_) hp
      rw [c.nameRules_early] at hk
      cases hk
    · refine modeLines_of_run (fun x hx => modeRules_early hx) ?_ hq fun x hx =>
        arg_ne hkeyed (c.mem_settings.1 hx)
      intro cur x hcur
      simp [modeRules, hcur]

theorem dreamCarries_iff : c.DreamCarries ↔ c.DreamFits := by
  unfold DreamCarries DreamFits
  rw [dreamSync_eq]
  constructor
  · rintro ⟨lines, hsync, hlines⟩
    obtain ⟨q, hq, heq⟩ := Option.map_eq_some_iff.1 hsync
    refine ⟨run_isSome.1 (Option.isSome_of_eq_some hq), c.keyed_of_arg_ne fun x hx => ?_⟩
    have hjoins : (c.members.map SyncLine.join).flatMap argBytes = [] := by
      simp [argBytes]
    exact arg_ne_of_modeLines (flatten_run hq) hlines _ hjoins hjoins heq.symm x
      (c.mem_dreamSettings.2 (.inl hx))
  · rintro ⟨hmodes, hkeyed⟩
    obtain ⟨q, hq⟩ := Option.isSome_iff_exists.1 (run_isSome (p := ⟨[], []⟩).2 hmodes)
    refine ⟨q.batches.map writtenLine, ?_, ?_⟩
    · rw [hq, Option.map_some]
    · refine modeLines_of_run (fun x hx => c.dreamRules_early hx) ?_ hq fun x hx => ?_
      · intro cur x hcur
        simp [dreamRules, hcur]
      · rcases c.mem_dreamSettings.1 hx with hx | ⟨m, -, hx⟩
        · exact arg_ne hkeyed (c.mem_settings.1 hx)
        · exact arg_flags_ne hx

/-- The prefixes are those of the flags that the member has, once each. -/
theorem mem_getPrefixes {k : ℕ} {pfx : UInt8} :
    pfx ∈ c.getPrefixes k ↔ ∃ m, c.t.kind m = some (.uflag pfx) ∧ c.chan.uflags k m = true := by
  unfold getPrefixes
  rw [List.mem_filterMap]
  constructor
  · rintro ⟨m, -, hm⟩
    split at hm
    · rename_i hkind
      split at hm
      · rename_i hflag
        cases hm
        exact ⟨m, hkind, hflag⟩
      · cases hm
    · cases hm
  · rintro ⟨m, hkind, hflag⟩
    refine ⟨m, ModeTable.mem_avail.2 (by simp [hkind]), ?_⟩
    simp [hkind, hflag]

theorem nodup_getPrefixes (k : ℕ) : (c.getPrefixes k).Nodup := by
  refine List.Nodup.filterMap ?_ c.t.nodup_avail
  intro m m' pfx hm hm'
  have hkind : ∀ m, pfx ∈ (match c.t.kind m with
      | some (.uflag pfx) => if c.chan.uflags k m then some pfx else none
      | _ => none) → c.t.pfxmap pfx = some m := by
    intro m hm
    rw [c.t.pfxmap_eq]
    grind
  exact Option.some.inj ((hkind m hm).symm.trans (hkind m' hm'))

theorem nodup_query (m : UInt8) : (c.query m).Nodup := by
  have hbans : ((c.chan.bans m).list.map fun cbp => (⟨m, some cbp.text⟩ : SyncMode)).Nodup := by
    refine List.Pairwise.map _ (fun b b' hsame heq => ?_) (c.chan.bans m).distinct
    have htext : b.text = b'.text := Option.some.inj (congrArg SyncMode.arg heq)
    have hbb' : b = b' := Option.some.inj (by rw [← banMask_text b, htext, banMask_text])
    rw [hbb', Ban.same_refl] at hsame
    cases hsame
  unfold query
  split
  · exact hbans
  all_goals first | exact .nil | (split <;> simp)

theorem nodup_flags (m : UInt8) : (c.flags m).Nodup := by
  unfold flags
  split
  · refine List.Nodup.map_on (fun k hk k' hk' heq => ?_) ((c.nodup.filter _).filter _)
    have honline := fun k (hk : k ∈ c.members.filter fun k => c.chan.uflags k m) =>
      c.cl.find_nick k (c.online k (List.mem_of_mem_filter (List.mem_of_mem_filter hk)))
    have hnick : c.cl.nick k = c.cl.nick k' := Option.some.inj (congrArg SyncMode.arg heq)
    exact Option.some.inj ((honline k hk).symm.trans (hnick ▸ honline k' hk'))
  · exact .nil

theorem mode_of_mem_flags {m : UInt8} {x : SyncMode} (hx : x ∈ c.flags m) :
    x.mode = m ∧ c.t.isUflag m = true := by
  unfold flags at hx
  split at hx
  · rename_i hm
    obtain ⟨k, -, rfl⟩ := List.mem_map.1 hx
    exact ⟨rfl, hm⟩
  · cases hx

/-- Nothing is carried twice. -/
theorem nodup_dreamSettings : c.dreamSettings.Nodup := by
  refine List.nodup_flatMap.2 ⟨fun m _ => ?_, c.t.nodup_avail.imp ?_⟩
  · refine List.nodup_append'.2 ⟨c.nodup_flags m, c.nodup_query m, fun x hx hx' => ?_⟩
    obtain ⟨rfl, hflag⟩ := c.mode_of_mem_flags hx
    rw [(mem_query.1 hx').2.isUflag] at hflag
    cases hflag
  · intro m m' hne x hx hx'
    have hmode : ∀ m, x ∈ c.flags m ++ c.query m → x.mode = m := by
      intro m hx
      rcases List.mem_append.1 hx with hx | hx
      · exact (c.mode_of_mem_flags hx).1
      · exact (mem_query.1 hx).1
    exact hne ((hmode m hx).symm.trans (hmode m' hx'))

theorem nodup_settings : c.settings.Nodup := by
  refine c.nodup_dreamSettings.sublist ?_
  unfold settings dreamSettings
  induction c.t.avail with
  | nil => exact .slnil
  | cons m l ih =>
    rw [List.flatMap_cons, List.flatMap_cons]
    exact (List.sublist_append_right _ _).append ih

/-- With `nicklen` in force and no more than eighteen prefixes, every member has room. -/
theorem packs_members (hnick : ∀ k ∈ c.members, (c.cl.nick k).length ≤ c.nicklen)
    (hprefixes : ∀ k ∈ c.members, (c.getPrefixes k).length ≤ 18) :
    Batches.Packs (nameRules c) [] c.members := by
  have hle := c.nicklen_le
  unfold NICKLEN at hle
  refine packs_of_fits (fun names k hk => ?_) []
  have hlength : (c.nameText k).length ≤ c.nicklen + 19 := by
    have hn := hnick k hk
    have hp := hprefixes k hk
    simp only [nameText, List.length_append, List.length_singleton]
    omega
  have hbefore :
      filled c.nameText (before (nameRules c) names k) + (c.nicklen + 20) < BUF_SIZE := by
    unfold before
    split
    · simp only [filled, List.flatMap_nil, List.length_nil, BUF_SIZE]
      omega
    · rename_i hearly
      simp only [nameRules, decide_eq_true_eq] at hearly
      omega
  simp only [nameRules, decide_eq_true_eq]
  unfold nameRules at hbefore
  omega

/-- Both routines carry the whole channel exactly if everything has room in its line. -/
theorem carries_iff_fits :
    (c.SjoinCarries ↔ c.SjoinFits) ∧ (c.DreamCarries ↔ c.DreamFits) :=
  ⟨c.sjoinCarries_iff, c.dreamCarries_iff⟩

end SyncCall

/-- A ban whose mask has 95 bytes. -/
def longBan (user : UInt8)
    (h : MaskOk (List.replicate 30 97) [user] (List.replicate 62 97)) : Ban := ⟨_, _, _, h⟩

/-- A channel with three bans like this and the key `a`, and nobody on it. -/
def longChan : Chan :=
  { Chan.new 0 with
    modes := fun m => m == 107
    bans := fun m =>
      if m = 98 then
        { list := [longBan 97 (by decide +kernel), longBan 98 (by decide +kernel),
            longBan 99 (by decide +kernel)]
          distinct := by decide +kernel }
      else ⟨[], distinct_nil⟩
    key := fun _ => [97] }

theorem longChan_users : longChan.users = [] := rfl

theorem longChan_key_le (m : UInt8) : (longChan.key m).length ≤ PASSWDLEN := by
  simp [longChan, PASSWDLEN]

theorem longChan_limit_lt (m : UInt8) : longChan.limit m < 4294967296 := by
  simp [longChan, Chan.new]

def longCall : SyncCall where
  t := coreModes
  cl := oneClient
  chan := longChan
  behind := fun _ => false
  nicklen := NICKLEN
  nodup := longChan_users ▸ List.nodup_nil
  online := longChan_users ▸ List.forall_mem_nil _
  key_le := longChan_key_le
  limit_lt := longChan_limit_lt
  nicklen_le := Nat.le_refl NICKLEN

/-- The key is written behind the buffer. -/
theorem carries_fails : ¬ ∀ c : SyncCall, c.SjoinCarries ∧ c.DreamCarries := by
  intro h
  have hfits := (longCall.sjoinCarries_iff.1 (h longCall).1).2.1
  revert hfits
  decide +kernel

end Ithildin
