import Ithildin.Lib.Tokens
import Ithildin.Match
import Ithildin.Numbers
import Mathlib.Logic.Function.Basic

/-!
# Channel modes

* `ModeTable`, `Chan`, `Clients`: the registered modes, the modes of a channel, and the clients that
  the arguments of modes name;
* `chanmodeBan`, `chanmodeKey`, `chanmodeLimit`, `chanmodeFlag`, `chanmodeReg`, `chanmodeUflag`: the
  handlers of `core.c` and `cmode_reg.c`;
* `modeChar`, `changeModes`: the loop of `channel_mode` over a mode string.

Messages to clients are left out, and so is who set a ban and when.
-/

namespace Ithildin

def CHANLEN : ℕ := 32
def NICKLEN : ℕ := 30
def PASSWDLEN : ℕ := 33
def MAX_BANS_PER_CHANNEL : ℕ := 100
def RBUF_SIZE : ℕ := 320
def MAXMODES : ℕ := 6

/-! ### Modes, channels, clients -/

/-- The handlers that modes are registered with; a user flag has a prefix. -/
inductive ModeKind
  | ban
  | key
  | limit
  | flag
  | reg
  | uflag (pfx : UInt8)
  deriving DecidableEq

/-- A letter or a digit: the bytes `ircd.cmodes.modes` has masks for. -/
def isModeChar (c : UInt8) : Bool :=
  (97 ≤ c && c ≤ 122) || (65 ≤ c && c ≤ 90) || (48 ≤ c && c ≤ 57)

theorem ne_sign_of_isModeChar {c : UInt8} (h : isModeChar c = true) :
    c ≠ plusSign ∧ c ≠ minusSign := by
  refine ⟨?_, ?_⟩
  · rintro rfl
    cases h
  · rintro rfl
    cases h

/-- `ircd.cmodes`: the registered modes, and the user flag a prefix stands for. -/
structure ModeTable where
  kind : UInt8 → Option ModeKind
  pfxmap : UInt8 → Option UInt8
  isModeChar_of_kind : ∀ m k, kind m = some k → isModeChar m
  pfxmap_eq : ∀ p m, pfxmap p = some m ↔ kind m = some (.uflag p)

/-- The modes that `core.c` requests. -/
def coreKind (m : UInt8) : Option ModeKind :=
  if m = 98 then some .ban
  else if m = 107 then some .key
  else if m = 108 then some .limit
  else if m = 109 ∨ m = 110 ∨ m = 115 then some .flag
  else if m = 111 then some (.uflag atSign)
  else if m = 118 then some (.uflag plusSign)
  else none

def coreModes : ModeTable where
  kind := coreKind
  pfxmap p := if p = atSign then some 111 else if p = plusSign then some 118 else none
  isModeChar_of_kind := by
    intro m k h
    have hall : ∀ n < 256, (coreKind (UInt8.ofNat n)).isSome → isModeChar (UInt8.ofNat n) := by
      decide +kernel
    exact forall_byte (p := fun m => (coreKind m).isSome → isModeChar m) hall m (by simp [h])
  pfxmap_eq := by
    intro p m
    have hne : atSign ≠ plusSign := by decide
    unfold coreKind
    grind

/-- The three parts of a mask that `chanmode_ban` takes. -/
def MaskOk (nick user host : Bytes) : Prop :=
  (nick ≠ [] ∧ user ≠ [] ∧ host ≠ []) ∧ (bangSign ∉ nick ∧ atSign ∉ nick ∧ atSign ∉ user) ∧
    nick.length ≤ NICKLEN ∧ user.length ≤ USERLEN ∧ host.length ≤ HOSTLEN

instance (nick user host : Bytes) : Decidable (MaskOk nick user host) :=
  inferInstanceAs (Decidable (_ ∧ _))

/-- `struct channel_ban`. -/
structure Ban where
  nick : Bytes
  user : Bytes
  host : Bytes
  ok : MaskOk nick user host
  deriving DecidableEq

/-- Two masks that `chanmode_ban` takes for the same. -/
def Ban.same (b c : Ban) : Bool :=
  sameCase b.nick c.nick && sameCase b.user c.user && sameCase b.host c.host

/-- `struct channel_ban_list`: no two bans are the same. -/
structure BanList where
  list : List Ban
  distinct : list.Pairwise fun b c => c.same b = false

theorem distinct_nil : ([] : List Ban).Pairwise fun b c => c.same b = false := .nil

/-- `struct channel`: the flags that are set, what the modes with data hold, and the users with the
flags of their links. -/
structure Chan where
  created : ℤ
  modes : UInt8 → Bool
  bans : UInt8 → BanList
  key : UInt8 → Bytes
  limit : UInt8 → ℕ
  users : List ℕ
  uflags : ℕ → UInt8 → Bool

/-- `create_channel`, at this time. -/
def Chan.new (created : ℤ) : Chan where
  created := created
  modes := fun _ => false
  bans := fun _ => ⟨[], distinct_nil⟩
  key := fun _ => []
  limit := fun _ => 0
  users := []
  uflags := fun _ _ => false

/-- One word of a line: not empty, with no space in it, and not the start of a last argument. -/
def IsWord (w : Bytes) : Prop := Tokens.Word isSpace colon w ∧ IsText w

instance (w : Bytes) : Decidable (IsWord w) :=
  inferInstanceAs (Decidable ((w ≠ [] ∧ (∀ c ∈ w, isSpace c = false) ∧ w.head? ≠ some colon) ∧ _))

/-- The clients of the network, by number: their nicks, `find_client`, and whom
`client_find_history` finds. -/
structure Clients where
  online : List ℕ
  nick : ℕ → Bytes
  findClient : Bytes → Option ℕ
  history : Bytes → Option ℕ
  find_nick : ∀ c ∈ online, findClient (nick c) = some c
  find_online : ∀ s c, findClient s = some c → c ∈ online
  history_online : ∀ s c, history s = some c → c ∈ online
  nick_isWord : ∀ c ∈ online, IsWord (nick c)
  nick_length : ∀ c ∈ online, (nick c).length ≤ NICKLEN
  nick_dot : ∀ c ∈ online, dot ∉ nick c

/-- `client_get_history(nick, 0)`. -/
def Clients.getHistory (cl : Clients) (nick : Bytes) : Option ℕ :=
  (cl.findClient nick).or (cl.history nick)

/-- A network of one client, with the nick `a`. -/
def oneClient : Clients where
  online := [0]
  nick := fun _ => bytes "a"
  findClient := fun s => if s = bytes "a" then some 0 else none
  history := fun _ => none
  find_nick := by simp
  find_online := by grind
  history_online := by simp
  nick_isWord := by decide +kernel
  nick_length := by decide
  nick_dot := by decide

/-- A client of our own that changes modes, and whether its server is a master. -/
structure Actor where
  id : ℕ
  master : Bool

/-! ### Handlers -/

/-- What the handlers return; `error` stands for the numerics. -/
inductive ModeRes
  | ok
  | fail
  | nop
  | nonex
  | noarg
  | error
  deriving DecidableEq

/-- The return value, the channel, and the argument as it is left if it was used. -/
structure Handled where
  res : ModeRes
  chan : Chan
  argused : Option Bytes

/-- `CHANOP`. -/
def Chan.chanop (t : ModeTable) (chan : Chan) (id : ℕ) : Bool :=
  match t.pfxmap atSign with
  | some m => decide (id ∈ chan.users) && chan.uflags id m
  | none => false

/-- A client of our own that is neither an operator of the channel nor from a master server. -/
def denied (t : ModeTable) (cli : Option Actor) (chan : Chan) : Bool :=
  match cli with
  | some a => !chan.chanop t a.id && !a.master
  | none => false

/-- The ban that an argument stands for: the parts before the first `'!'`, from there to the first
`'@'`, and behind it. -/
def banMask (arg : Bytes) : Option Ban :=
  let nick := arg.takeWhile (· != bangSign)
  let user := (arg.drop (nick.length + 1)).takeWhile (· != atSign)
  let host := arg.drop (nick.length + 1 + user.length + 1)
  if h : (bangSign ∈ arg ∧ atSign ∈ arg) ∧ MaskOk nick user host then some ⟨nick, user, host, h.2⟩
  else none

/-- `"%s!%s@%s"`. -/
def Ban.text (b : Ban) : Bytes := b.nick ++ bangSign :: (b.user ++ atSign :: b.host)

/-- A ban goes to the head of the list. -/
def BanList.insert (l : BanList) (b : Ban) (h : ∀ cbp ∈ l.list, cbp.same b = false) : BanList :=
  ⟨b :: l.list, List.pairwise_cons.mpr ⟨h, l.distinct⟩⟩

/-- The first ban that is the same goes. -/
def BanList.remove (l : BanList) (b : Ban) : BanList :=
  ⟨l.list.eraseP fun cbp => cbp.same b, l.distinct.sublist List.eraseP_sublist⟩

/-- The bans of one mode are changed. -/
def Chan.setBans (chan : Chan) (mode : UInt8) (l : BanList) : Chan :=
  { chan with bans := Function.update chan.bans mode l }

/-- `chanmode_ban`. -/
def chanmodeBan (t : ModeTable) (cli : Option Actor) (chan : Chan) (mode : UInt8) (set : Bool)
    (arg : Option Bytes) : Handled :=
  match arg with
  | none => ⟨.nop, chan, none⟩
  | some arg =>
      if denied t cli chan then ⟨.error, chan, some arg⟩
      else
        match banMask arg with
        | none => ⟨.fail, chan, some arg⟩
        | some b =>
            if set then
              if cli.isSome ∧ MAX_BANS_PER_CHANNEL < (chan.bans mode).list.length then
                ⟨.fail, chan, some arg⟩
              else if h : ∀ cbp ∈ (chan.bans mode).list, cbp.same b = false then
                ⟨.ok, chan.setBans mode ((chan.bans mode).insert b h), some arg⟩
              else ⟨.fail, chan, some arg⟩
            else ⟨.ok, chan.setBans mode ((chan.bans mode).remove b), some arg⟩

/-- `chanmode_setflag` and `chanmode_unsetflag`. -/
def Chan.setFlag (chan : Chan) (mode : UInt8) (set : Bool) : Chan :=
  { chan with modes := Function.update chan.modes mode set }

/-- `chanmode_flag`. -/
def chanmodeFlag (t : ModeTable) (cli : Option Actor) (chan : Chan) (mode : UInt8) (set : Bool) :
    Handled :=
  if denied t cli chan then ⟨.error, chan, none⟩ else ⟨.ok, chan.setFlag mode set, none⟩

/-- `chanmode_reg`. -/
def chanmodeReg (cli : Option Actor) (chan : Chan) (mode : UInt8) (set : Bool) : Handled :=
  if cli.any fun a => !a.master then ⟨.fail, chan, none⟩ else ⟨.ok, chan.setFlag mode set, none⟩

/-- The sign of `strcmp`, whose bytes are signed and end with a NUL: the first text is not the
greater one. -/
def strcmpLe : Bytes → Bytes → Bool
  | [], [] => true
  | [], d :: _ => d.toInt8 > 0
  | c :: _, [] => c.toInt8 < 0
  | c :: s, d :: t => if c = d then strcmpLe s t else c.toInt8 < d.toInt8

/-- A key is stored: `strncpy(data, arg, PASSWDLEN)`. -/
def Chan.setKey (chan : Chan) (mode : UInt8) (arg : Bytes) : Chan :=
  { chan with key := Function.update chan.key mode (arg.take PASSWDLEN) }

/-- `chanmode_key`. -/
def chanmodeKey (t : ModeTable) (cli : Option Actor) (chan : Chan) (mode : UInt8) (set : Bool)
    (arg : Option Bytes) : Handled :=
  match arg with
  | none => ⟨.noarg, chan, none⟩
  | some arg =>
      if denied t cli chan then ⟨.error, chan, none⟩
      else if set then
        if blank ∈ arg ∨ commaSign ∈ arg then ⟨.fail, chan, some arg⟩
        else if cli.isNone ∧ chan.modes mode then
          ⟨.ok, if strcmpLe arg (chan.key mode) then chan.setKey mode arg else chan, some arg⟩
        else ⟨.ok, (chan.setKey mode arg).setFlag mode true, some arg⟩
      else ⟨.ok, (chan.setKey mode []).setFlag mode false, some arg⟩

/-- The limit that an argument stands for, an `uint32_t`. -/
def limitOf (arg : Bytes) : ℕ := (strConvInt arg 0 % 4294967296).toNat

/-- A limit is stored. -/
def Chan.setLimit (chan : Chan) (mode : UInt8) (limit : ℕ) : Chan :=
  { chan with limit := Function.update chan.limit mode limit }

/-- `chanmode_limit`. -/
def chanmodeLimit (t : ModeTable) (cli : Option Actor) (chan : Chan) (mode : UInt8) (set : Bool)
    (arg : Option Bytes) : Handled :=
  if denied t cli chan then ⟨.error, chan, none⟩
  else if set then
    match arg with
    | none => ⟨.noarg, chan, none⟩
    | some arg =>
        if limitOf arg = 0 then ⟨.fail, chan, some arg⟩
        else ⟨.ok, (chan.setLimit mode (limitOf arg)).setFlag mode true, some arg⟩
  else ⟨.ok, (chan.setLimit mode 0).setFlag mode false, none⟩

/-- A flag of a link is set or unset. -/
def Chan.setUflag (chan : Chan) (cp : ℕ) (mode : UInt8) (set : Bool) : Chan :=
  { chan with
    uflags := Function.update chan.uflags cp (Function.update (chan.uflags cp) mode set) }

/-- `chanmode_uflag`: the nick of the client is written over the argument. -/
def chanmodeUflag (t : ModeTable) (cl : Clients) (cli : Option Actor) (chan : Chan) (mode : UInt8)
    (set : Bool) (arg : Option Bytes) : Handled :=
  if denied t cli chan then ⟨.error, chan, none⟩
  else
    match arg with
    | none => ⟨.noarg, chan, none⟩
    | some arg =>
        match cl.getHistory arg with
        | none => ⟨.fail, chan, some arg⟩
        | some cp =>
            if cp ∉ chan.users then ⟨.fail, chan, some (cl.nick cp)⟩
            else ⟨.ok, chan.setUflag cp mode set, some (cl.nick cp)⟩

/-- The handler of a mode is called. -/
def changefunc (t : ModeTable) (cl : Clients) (cli : Option Actor) (chan : Chan) (mode : UInt8)
    (set : Bool) (arg : Option Bytes) : ModeKind → Handled
  | .ban => chanmodeBan t cli chan mode set arg
  | .key => chanmodeKey t cli chan mode set arg
  | .limit => chanmodeLimit t cli chan mode set arg
  | .flag => chanmodeFlag t cli chan mode set
  | .reg => chanmodeReg cli chan mode set
  | .uflag _ => chanmodeUflag t cl cli chan mode set arg

/-- `chanmode_set` and `chanmode_unset`. -/
def changeMode (t : ModeTable) (cl : Clients) (cli : Option Actor) (chan : Chan) (mode : UInt8)
    (set : Bool) (arg : Option Bytes) : Handled :=
  match t.kind mode with
  | none => ⟨.nonex, chan, none⟩
  | some k => changefunc t cl cli chan mode set arg k

/-! ### The loop over the mode string -/

/-- Where the loop of `channel_mode` stands; `args` are the arguments from `argv[oarg]` on, and
`skip` says that the pointer moves past the next byte too. -/
structure ModeLoop where
  chan : Chan
  plus : Bool
  mset : ℕ
  result : Bytes
  rbuf : Bytes
  args : List Bytes
  skip : Bool

/-- A sign goes into the result, in the place of the other sign if that is its last byte. -/
def putSign (result : Bytes) (sign other : UInt8) : Bytes :=
  if result.getLast? = some other then result.dropLast ++ [sign] else result ++ [sign]

/-- The loop begins. -/
def ModeLoop.start (chan : Chan) (args : List Bytes) : ModeLoop :=
  ⟨chan, true, 0, [plusSign], [], args, false⟩

/-- The handler has been called: an accepted change goes into the result, a used argument is
gone. -/
def ModeLoop.after (st : ModeLoop) (c : UInt8) (h : Handled) : ModeLoop :=
  { st with
    chan := h.chan
    mset := if h.res = .ok then st.mset + 1 else st.mset
    result := if h.res = .ok then st.result ++ [c] else st.result
    rbuf := match h.argused with
      | some arg => if h.res = .ok then st.rbuf ++ blank :: arg else st.rbuf
      | none => st.rbuf
    args := if h.argused.isSome then st.args.tail else st.args }

/-- One byte of the mode string.  Next to an argument that `rbuf` has no room for, a mode and the
byte behind it are skipped; behind the last byte `argv[0]` is filled with NULs. -/
def modeChar (t : ModeTable) (cl : Clients) (cli : Option Actor) (st : ModeLoop) (c : UInt8) :
    ModeLoop :=
  if st.skip then { st with skip := false }
  else if cli.isSome ∧ MAXMODES ≤ st.mset then st
  else if c = plusSign then
    if st.plus then st else { st with plus := true, result := putSign st.result plusSign minusSign }
  else if c = minusSign then
    if st.plus then { st with plus := false, result := putSign st.result minusSign plusSign }
    else st
  else if st.args.head?.any fun arg => RBUF_SIZE - st.rbuf.length ≤ arg.length then
    { st with skip := true }
  else st.after c (changeMode t cl cli st.chan c st.plus st.args.head?)

/-- What a mode string comes to: the channel, and the changes to pass on if there are any. -/
structure ModeChange where
  chan : Chan
  sent : Option (Bytes × Bytes)

/-- A sign at the end of the result is taken off. -/
def trimSign (result : Bytes) : Bytes :=
  if result.getLast? = some plusSign ∨ result.getLast? = some minusSign then result.dropLast
  else result

/-- The loop of `channel_mode` and what follows; `none` when it has written behind the end of `rbuf`
or `result`. -/
def changeModes (t : ModeTable) (cl : Clients) (cli : Option Actor) (chan : Chan) (modes : Bytes)
    (args : List Bytes) : Option ModeChange :=
  let st := modes.foldl (modeChar t cl cli) (.start chan args)
  if st.rbuf.length < RBUF_SIZE ∧ st.result.length < 64 then
    some ⟨st.chan, if 2 ≤ st.result.length then some (trimSign st.result, st.rbuf) else none⟩
  else none

/-! ### Masks -/

theorem append_takeWhile_ne {c : UInt8} {s : Bytes} (h : c ∈ s) :
    s.takeWhile (· != c) ++ c :: s.drop ((s.takeWhile (· != c)).length + 1) = s := by
  induction s with
  | nil => cases h
  | cons d s ih =>
    by_cases hd : d = c
    · subst hd
      simp
    · have hs : c ∈ s := by simpa [Ne.symm hd] using h
      simp [hd, ih hs]

/-- The text of a ban is read as this ban. -/
theorem banMask_text (b : Ban) : banMask b.text = some b := by
  obtain ⟨-, ⟨hbang, -, huser⟩, -⟩ := b.ok
  have hnick : b.text.takeWhile (· != bangSign) = b.nick := takeWhile_ne_append hbang _
  have hrest : b.text.drop (b.nick.length + 1) = b.user ++ atSign :: b.host := by
    rw [Ban.text, List.drop_append]
    simp
  have huser : (b.user ++ atSign :: b.host).takeWhile (· != atSign) = b.user :=
    takeWhile_ne_append huser _
  have hhost : b.text.drop (b.nick.length + 1 + b.user.length + 1) = b.host := by
    rw [show b.nick.length + 1 + b.user.length + 1 = (b.nick.length + 1) + (b.user.length + 1) by
      omega, ← List.drop_drop, hrest, List.drop_append]
    simp
  simp only [banMask, hnick, hrest, huser, hhost]
  rw [dif_pos ⟨by simp [Ban.text], b.ok⟩]

/-- A ban has the text of the argument it was read from. -/
theorem text_of_banMask {arg : Bytes} {b : Ban} (h : banMask arg = some b) : b.text = arg := by
  simp only [banMask] at h
  split at h
  · rename_i hok
    have hb := Option.some.inj h
    obtain ⟨⟨hbang, hat⟩, -, ⟨-, hnick, -⟩, -⟩ := id hok
    have hsplit := append_takeWhile_ne hbang
    have hat' : atSign ∈ arg.drop ((arg.takeWhile (· != bangSign)).length + 1) := by
      rw [← hsplit] at hat
      rcases List.mem_append.mp hat with hat | hat
      · exact absurd hat hnick
      · exact (List.mem_cons.mp hat).resolve_left (by decide)
    have hsplit' := append_takeWhile_ne hat'
    rw [List.drop_drop] at hsplit'
    rw [← hb, Ban.text]
    dsimp only
    rw [← Nat.add_assoc] at hsplit'
    rw [hsplit', hsplit]
  · cases h

theorem Ban.same_refl (b : Ban) : b.same b = true := by
  simp [Ban.same, sameCase]

theorem length_eq_of_sameCase {s t : Bytes} (h : sameCase s t = true) : s.length = t.length := by
  have hmap := congrArg List.length (eq_of_beq h)
  simpa using hmap

/-- Masks that are the same are equally long. -/
theorem Ban.length_text_of_same {b c : Ban} (h : b.same c = true) :
    b.text.length = c.text.length := by
  simp only [Ban.same, Bool.and_eq_true] at h
  obtain ⟨⟨hnick, huser⟩, hhost⟩ := h
  simp only [Ban.text, List.length_append, List.length_cons, length_eq_of_sameCase hnick,
    length_eq_of_sameCase huser, length_eq_of_sameCase hhost]

/-! ### What the handlers do when they accept a change -/

section

variable {t : ModeTable} {cl : Clients} {cli : Option Actor} {chan : Chan} {mode : UInt8}
  {set : Bool} {arg : Option Bytes}

theorem chanmodeBan_ok (h : (chanmodeBan t cli chan mode set arg).res = .ok) :
    ∃ w b, arg = some w ∧ banMask w = some b ∧
      ((set = true ∧ ∃ hnew, chanmodeBan t cli chan mode set arg =
          ⟨.ok, chan.setBans mode ((chan.bans mode).insert b hnew), some w⟩) ∨
        set = false ∧ chanmodeBan t cli chan mode set arg =
          ⟨.ok, chan.setBans mode ((chan.bans mode).remove b), some w⟩) := by
  unfold chanmodeBan at h ⊢
  grind

theorem chanmodeKey_ok (h : (chanmodeKey t cli chan mode set arg).res = .ok) :
    ∃ w, arg = some w ∧ (chanmodeKey t cli chan mode set arg).argused = some w ∧
      ((set = true ∧ blank ∉ w ∧ commaSign ∉ w) ∨
        set = false ∧ chanmodeKey t cli chan mode set arg =
          ⟨.ok, (chan.setKey mode []).setFlag mode false, some w⟩) := by
  unfold chanmodeKey at h ⊢
  grind

theorem chanmodeLimit_ok (h : (chanmodeLimit t cli chan mode set arg).res = .ok) :
    (set = true ∧ ∃ w, arg = some w ∧ limitOf w ≠ 0 ∧ chanmodeLimit t cli chan mode set arg =
        ⟨.ok, (chan.setLimit mode (limitOf w)).setFlag mode true, some w⟩) ∨
      set = false ∧ chanmodeLimit t cli chan mode set arg =
        ⟨.ok, (chan.setLimit mode 0).setFlag mode false, none⟩ := by
  unfold chanmodeLimit at h ⊢
  grind

theorem chanmodeFlag_ok (h : (chanmodeFlag t cli chan mode set).res = .ok) :
    chanmodeFlag t cli chan mode set = ⟨.ok, chan.setFlag mode set, none⟩ := by
  unfold chanmodeFlag at h ⊢
  grind

theorem chanmodeReg_ok (h : (chanmodeReg cli chan mode set).res = .ok) :
    chanmodeReg cli chan mode set = ⟨.ok, chan.setFlag mode set, none⟩ := by
  unfold chanmodeReg at h ⊢
  grind

theorem chanmodeUflag_ok (h : (chanmodeUflag t cl cli chan mode set arg).res = .ok) :
    ∃ w cp, arg = some w ∧ cl.getHistory w = some cp ∧ cp ∈ chan.users ∧
      chanmodeUflag t cl cli chan mode set arg =
        ⟨.ok, chan.setUflag cp mode set, some (cl.nick cp)⟩ := by
  unfold chanmodeUflag at h ⊢
  grind

end

/-- The argument that is used is the one that was given, or the nick of a client. -/
theorem argused_of_ok {t : ModeTable} {cl : Clients} {cli : Option Actor} {chan : Chan}
    {mode : UInt8} {set : Bool} {arg : Option Bytes} {w : Bytes}
    (hok : (changeMode t cl cli chan mode set arg).res = .ok)
    (hused : (changeMode t cl cli chan mode set arg).argused = some w) :
    (arg = some w ∧ (t.kind mode = some .ban ∨ t.kind mode = some .key ∨
        t.kind mode = some .limit)) ∨
      (∃ pfx, t.kind mode = some (.uflag pfx)) ∧ arg.isSome ∧ ∃ cp ∈ cl.online, w = cl.nick cp := by
  unfold changeMode at hok hused
  cases hkind : t.kind mode with
  | none => simp [hkind] at hok
  | some k =>
    simp only [hkind] at hok hused
    cases k with
    | ban =>
      obtain ⟨v, b, rfl, -, ⟨-, _, hres⟩ | ⟨-, hres⟩⟩ := chanmodeBan_ok hok
      · rw [changefunc, hres] at hused
        exact .inl ⟨hused, .inl rfl⟩
      · rw [changefunc, hres] at hused
        exact .inl ⟨hused, .inl rfl⟩
    | key =>
      obtain ⟨v, rfl, hused', -⟩ := chanmodeKey_ok hok
      exact .inl ⟨hused'.symm.trans hused, .inr (.inl rfl)⟩
    | limit =>
      obtain ⟨-, v, rfl, -, hres⟩ | ⟨-, hres⟩ := chanmodeLimit_ok hok
      · rw [changefunc, hres] at hused
        exact .inl ⟨hused, .inr (.inr rfl)⟩
      · rw [changefunc, hres] at hused
        cases hused
    | flag =>
      rw [changefunc, chanmodeFlag_ok hok] at hused
      cases hused
    | reg =>
      rw [changefunc, chanmodeReg_ok hok] at hused
      cases hused
    | uflag pfx =>
      obtain ⟨v, cp, rfl, hcp, -, hres⟩ := chanmodeUflag_ok hok
      rw [changefunc, hres] at hused
      have honline : cp ∈ cl.online := by
        rcases Option.or_eq_some_iff.mp hcp with hfind | ⟨-, hhist⟩
        · exact cl.find_online v cp hfind
        · exact cl.history_online v cp hhist
      exact .inr ⟨⟨pfx, rfl⟩, rfl, cp, honline, (Option.some.inj hused).symm⟩

/-! ### Refused changes -/

/-- A change that is not accepted leaves the channel as it is. -/
theorem changefunc_chan {t : ModeTable} {cl : Clients} {cli : Option Actor} {chan : Chan}
    {mode : UInt8} {set : Bool} {arg : Option Bytes} {k : ModeKind}
    (h : (changefunc t cl cli chan mode set arg k).res ≠ .ok) :
    (changefunc t cl cli chan mode set arg k).chan = chan := by
  revert h
  cases k with
  | ban =>
    unfold changefunc chanmodeBan
    grind
  | key =>
    unfold changefunc chanmodeKey
    grind
  | limit =>
    unfold changefunc chanmodeLimit
    grind
  | flag =>
    unfold changefunc chanmodeFlag
    grind
  | reg =>
    unfold changefunc chanmodeReg
    grind
  | uflag =>
    unfold changefunc chanmodeUflag
    grind

theorem changeMode_chan {t : ModeTable} {cl : Clients} {cli : Option Actor} {chan : Chan}
    {mode : UInt8} {set : Bool} {arg : Option Bytes}
    (h : (changeMode t cl cli chan mode set arg).res ≠ .ok) :
    (changeMode t cl cli chan mode set arg).chan = chan := by
  revert h
  rw [changeMode]
  split
  · exact fun _ => rfl
  · exact changefunc_chan

/-! ### The timestamp -/

theorem changefunc_created {t : ModeTable} {cl : Clients} {cli : Option Actor} {chan : Chan}
    {mode : UInt8} {set : Bool} {arg : Option Bytes} {k : ModeKind} :
    (changefunc t cl cli chan mode set arg k).chan.created = chan.created := by
  cases k with
  | ban =>
    unfold changefunc chanmodeBan
    grind [Chan.setBans]
  | key =>
    unfold changefunc chanmodeKey
    grind [Chan.setKey, Chan.setFlag]
  | limit =>
    unfold changefunc chanmodeLimit
    grind [Chan.setLimit, Chan.setFlag]
  | flag =>
    unfold changefunc chanmodeFlag
    grind [Chan.setFlag]
  | reg =>
    unfold changefunc chanmodeReg
    grind [Chan.setFlag]
  | uflag =>
    unfold changefunc chanmodeUflag
    grind [Chan.setUflag]

/-- A change of modes leaves the timestamp of the channel. -/
theorem changeMode_created {t : ModeTable} {cl : Clients} {cli : Option Actor} {chan : Chan}
    {mode : UInt8} {set : Bool} {arg : Option Bytes} :
    (changeMode t cl cli chan mode set arg).chan.created = chan.created := by
  rw [changeMode]
  split
  · rfl
  · exact changefunc_created

end Ithildin
