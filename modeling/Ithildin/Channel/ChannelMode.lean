import Ithildin.Channel.Modes
import Mathlib.Data.List.Nodup

/-!
# `channel_mode`

* `ResetBuf`: the buffer that the modes taken off are put into;
* `resetModes`: every mode of a channel is taken off, through that buffer;
* `channelMode`: the timestamps compared, and then the loop of `changeModes`;
* `channelMode_users`: the members stay as they are.
-/

namespace Ithildin

/-- The modes in `ircd.cmodes.avail`. -/
def ModeTable.avail (t : ModeTable) : List UInt8 :=
  ((List.range 256).map UInt8.ofNat).filter fun m => (t.kind m).isSome

theorem ModeTable.mem_avail {t : ModeTable} {m : UInt8} : m ∈ t.avail ↔ (t.kind m).isSome := by
  have hmem : m ∈ (List.range 256).map UInt8.ofNat :=
    List.mem_map.2 ⟨m.toNat, List.mem_range.2 m.toNat_lt, UInt8.ofNat_toNat⟩
  rw [ModeTable.avail, List.mem_filter, and_iff_right hmem]

theorem ModeTable.nodup_avail (t : ModeTable) : t.avail.Nodup := by
  refine List.Nodup.filter _ (List.Nodup.map_on ?_ List.nodup_range)
  intro i hi j hj heq
  have hmod := congrArg UInt8.toNat heq
  rw [List.mem_range] at hi hj
  simp only [UInt8.toNat_ofNat'] at hmod
  omega

/-! ### The buffer -/

/-- How far `rbuf` is filled, and how many modes the next message to our clients has. -/
structure ResetBuf where
  rblen : ℕ
  cnt : ℕ

namespace ResetBuf

/-- `SEND_MODES_MAYBE`. -/
def sendMaybe (buf : ResetBuf) (spare : Bool) : ResetBuf :=
  if buf.cnt = MAXMODES ∨ (spare ∧ buf.cnt ≠ 0) then ⟨0, 0⟩ else buf

/-- One more mode, with `len` bytes and the blank behind them if there are any; `none` when the
terminator does not fit. -/
def add (buf : ResetBuf) (len : ℕ) : Option ResetBuf :=
  let rblen := if len = 0 then buf.rblen else buf.rblen + len + 1
  if rblen < RBUF_SIZE then some (sendMaybe ⟨rblen, buf.cnt + 1⟩ false) else none

/-- `optused` before a mode is queried. -/
def optused (buf : ResetBuf) : ℤ := (RBUF_SIZE : ℤ) - buf.rblen - 2

/-- A query with an argument of `len` bytes, of which it writes `size` bytes into the buffer.  When
it is told that there is no room, what is there is sent, and the next query takes the negative
`optused` for a large one. -/
def query (buf : ResetBuf) (optused : ℤ) (len size : ℕ) : Option ResetBuf :=
  let buf := if 0 ≤ optused ∧ optused < len then buf.sendMaybe true else buf
  if buf.rblen + size ≤ RBUF_SIZE then buf.add len else none

end ResetBuf

/-! ### The modes taken off -/

/-- The users with a flag lose it. -/
def resetUflag (cl : Clients) (mode : UInt8) :
    List ℕ → ResetBuf × Chan → Option (ResetBuf × Chan)
  | [], s => some s
  | u :: us, (buf, chan) =>
      if chan.uflags u mode then
        (buf.add (cl.nick u).length).bind fun buf =>
          resetUflag cl mode us (buf, chan.setUflag u mode false)
      else resetUflag cl mode us (buf, chan)

/-- The bans go, each through `chanmode_ban`; `optused` is what the query before left in it. -/
def resetBans (t : ModeTable) (mode : UInt8) :
    ℤ → List Ban → ResetBuf × Chan → Option (ResetBuf × Chan)
  | _, [], s => some s
  | optused, b :: bs, (buf, chan) =>
      (buf.query optused b.text.length (b.text.length + 1)).bind fun buf =>
        resetBans t mode b.text.length bs
          (buf, (chanmodeBan t none chan mode false (some b.text)).chan)

/-- One mode goes. -/
def resetMode (t : ModeTable) (cl : Clients) (mode : UInt8) (s : ResetBuf × Chan) :
    Option (ResetBuf × Chan) :=
  let (buf, chan) := s
  match t.kind mode with
  | none => some s
  | some (.uflag _) => resetUflag cl mode chan.users (buf, chan)
  | some .ban => resetBans t mode buf.optused (chan.bans mode).list (buf, chan)
  | some .key =>
      if chan.modes mode then
        (buf.query buf.optused (chan.key mode).length PASSWDLEN).map fun buf =>
          (buf, (chanmodeKey t none chan mode false (some (chan.key mode))).chan)
      else some s
  | some .limit =>
      if chan.modes mode then
        (buf.query buf.optused (itoa (chan.limit mode)).length
          ((itoa (chan.limit mode)).length + 1)).map fun buf =>
            (buf, (chanmodeLimit t none chan mode false none).chan)
      else some s
  | some .flag =>
      if chan.modes mode then
        (buf.add 0).map fun buf => (buf, (chanmodeFlag t none chan mode false).chan)
      else some s
  | some .reg =>
      if chan.modes mode then
        (buf.add 0).map fun buf => (buf, (chanmodeReg none chan mode false).chan)
      else some s

/-- All modes go. -/
def resetModes (t : ModeTable) (cl : Clients) (chan : Chan) : Option Chan :=
  (t.avail.foldlM (fun s m => resetMode t cl m s) (⟨0, 0⟩, chan)).map Prod.snd

/-! ### The command -/

/-- Where a change of modes comes from: a client of our own, or a line from an uplink, which may be
for a server, and that server a master. -/
inductive ModeSource
  | mine (a : Actor)
  | uplink (supportsTs server master : Bool)

/-- The client that the handlers are told of. -/
def ModeSource.cli : ModeSource → Option Actor
  | .mine a => some a
  | .uplink .. => none

/-- The channel before the loop: with the modes reset if the timestamp is the older one; `none` in
the inner place when the changes are rejected. -/
def acceptTs (t : ModeTable) (cl : Clients) (src : ModeSource) (chan : Chan) (ts : ℤ) :
    Option (Option Chan) :=
  match src with
  | .mine _ => some (some chan)
  | .uplink true _ _ =>
      if chan.created < ts then some none
      else if ts < chan.created then
        (resetModes t cl { chan with created := ts }).map some
      else some (some chan)
  | .uplink false server master =>
      if server ∧ ¬ master then some (some { chan with created := 0 }) else some (some chan)

/-- `channel_mode`; `argv` holds the mode string and its arguments. -/
def channelMode (t : ModeTable) (cl : Clients) (src : ModeSource) (chan : Chan) (ts : ℤ)
    (argv : List Bytes) : Option ModeChange :=
  match argv with
  | [] => some ⟨chan, none⟩
  | modes :: args =>
      (acceptTs t cl src chan ts).bind fun
        | some chan => changeModes t cl src.cli chan modes args
        | none => some ⟨chan, none⟩

/-! ### The members stay -/

section
variable {t : ModeTable} {cl : Clients} {cli : Option Actor}

/-- No handler puts anybody on the channel, or takes anybody off. -/
theorem changeMode_users (chan : Chan) (mode : UInt8) (set : Bool) (arg : Option Bytes) :
    (changeMode t cl cli chan mode set arg).chan.users = chan.users := by
  unfold changeMode
  split
  · rfl
  · rename_i k _
    cases k <;> simp only [changefunc]
    · unfold chanmodeBan Chan.setBans
      grind
    · unfold chanmodeKey Chan.setKey Chan.setFlag
      grind
    · unfold chanmodeLimit Chan.setLimit Chan.setFlag
      grind
    · unfold chanmodeFlag Chan.setFlag
      grind
    · unfold chanmodeReg Chan.setFlag
      grind
    · unfold chanmodeUflag Chan.setUflag
      grind

theorem modeChar_users (st : ModeLoop) (c : UInt8) :
    (modeChar t cl cli st c).chan.users = st.chan.users := by
  unfold modeChar
  repeat' split
  all_goals try rfl
  exact changeMode_users _ _ _ _

theorem foldl_modeChar_users (modes : Bytes) (st : ModeLoop) :
    (modes.foldl (modeChar t cl cli) st).chan.users = st.chan.users := by
  induction modes generalizing st with
  | nil => rfl
  | cons c modes ih => rw [List.foldl_cons, ih, modeChar_users]

theorem changeModes_users {chan : Chan} {modes : Bytes} {args : List Bytes} {change : ModeChange}
    (h : changeModes t cl cli chan modes args = some change) :
    change.chan.users = chan.users := by
  unfold changeModes at h
  dsimp only at h
  split at h
  · cases h
    exact foldl_modeChar_users modes _
  · cases h

theorem resetUflag_users {mode : UInt8} {us : List ℕ} {s s' : ResetBuf × Chan}
    (h : resetUflag cl mode us s = some s') : s'.2.users = s.2.users := by
  induction us generalizing s with
  | nil =>
    cases h
    rfl
  | cons u us ih =>
    obtain ⟨buf, chan⟩ := s
    unfold resetUflag at h
    split at h
    · obtain ⟨buf', -, hrest⟩ := Option.bind_eq_some_iff.1 h
      exact (ih hrest).trans rfl
    · exact ih h

theorem resetBans_users {mode : UInt8} {optused : ℤ} {bs : List Ban} {s s' : ResetBuf × Chan}
    (h : resetBans t mode optused bs s = some s') : s'.2.users = s.2.users := by
  induction bs generalizing optused s with
  | nil =>
    cases h
    rfl
  | cons b bs ih =>
    obtain ⟨buf, chan⟩ := s
    unfold resetBans at h
    obtain ⟨buf', -, hrest⟩ := Option.bind_eq_some_iff.1 h
    refine (ih hrest).trans ?_
    unfold chanmodeBan Chan.setBans
    grind

theorem resetMode_users {mode : UInt8} {s s' : ResetBuf × Chan}
    (h : resetMode t cl mode s = some s') : s'.2.users = s.2.users := by
  obtain ⟨buf, chan⟩ := s
  unfold resetMode at h
  dsimp only at h
  split at h
  · cases h
    rfl
  · exact resetUflag_users h
  · exact resetBans_users h
  all_goals
    split at h
    · obtain ⟨buf', -, rfl⟩ := Option.map_eq_some_iff.1 h
      rfl
    · cases h
      rfl

theorem resetModes_users {chan chan' : Chan} (h : resetModes t cl chan = some chan') :
    chan'.users = chan.users := by
  have hfold : ∀ (l : List UInt8) (s s' : ResetBuf × Chan),
      l.foldlM (fun s m => resetMode t cl m s) s = some s' → s'.2.users = s.2.users := by
    intro l
    induction l with
    | nil =>
      intro s s' h
      cases h
      rfl
    | cons m l ih =>
      intro s s' h
      obtain ⟨s'', hmode, hrest⟩ := Option.bind_eq_some_iff.1 h
      exact (ih s'' s' hrest).trans (resetMode_users hmode)
  unfold resetModes at h
  obtain ⟨s, hs, rfl⟩ := Option.map_eq_some_iff.1 h
  exact hfold _ _ _ hs

/-- `channel_mode` leaves the members where they are. -/
theorem channelMode_users {src : ModeSource} {chan : Chan} {ts : ℤ} {argv : List Bytes}
    {change : ModeChange} (h : channelMode t cl src chan ts argv = some change) :
    change.chan.users = chan.users := by
  unfold channelMode at h
  split at h
  · cases h
    rfl
  · obtain ⟨accepted, haccept, hchange⟩ := Option.bind_eq_some_iff.1 h
    have husers : ∀ chan', accepted = some chan' → chan'.users = chan.users := by
      rintro chan' rfl
      unfold acceptTs at haccept
      split at haccept
      · cases haccept
        rfl
      · split at haccept
        · cases haccept
        · split at haccept
          · obtain ⟨chan'', hreset, heq⟩ := Option.map_eq_some_iff.1 haccept
            cases heq
            exact (resetModes_users hreset).trans rfl
          · cases haccept
            rfl
      · split at haccept
        · cases haccept
          rfl
        · cases haccept
          rfl
    cases accepted with
    | none =>
      cases hchange
      rfl
    | some chan' => exact (changeModes_users hchange).trans (husers chan' rfl)

end

end Ithildin
