import Ithildin.Channel.Relay
import Ithildin.Channel.Words

/-!
# The propagation of mode changes

A client of ours changes modes, and the MODE line that goes to the other servers is executed by one
of them that held the same modes for the channel.

* `Relay`: the two servers, the channel, and the mode string with its arguments;
* `Relay.Faithful`: the other server ends with the modes that ours ends with;
* `Relay.StepOk`: the condition on one byte of the mode string;
* `Before`, `Behind`: how far the other server follows, before and behind an argument that is not a
  word;
* `Relay.faithful_iff`: the other server ends with our modes exactly when every byte meets its
  condition.
-/

namespace Ithildin

open Tokens

/-- A mode string of one of our clients, and a second server.  The arguments but the last one are
words, as `packet_parse` leaves them. -/
structure Relay where
  t : ModeTable
  cl : Clients
  second : Clients
  net : SameNetwork cl second
  actor : Actor
  actor_online : actor.id ∈ cl.online
  chan : Chan
  name : Bytes
  name_isWord : IsWord name
  name_length : name.length ≤ CHANLEN
  origins : Origins
  known : origins.client (cl.nick actor.id) = true
  last : ℕ → UInt8
  modes : Bytes
  args : List Bytes
  args_isWord : ∀ w ∈ args.dropLast, IsWord w
  args_isText : ∀ w ∈ args, IsText w

/-- The servers hold the same for a channel: bans as a set, and the keys of the modes `aside` set
aside. -/
def SameModes (t : ModeTable) (aside : UInt8 → Prop) (x y : Chan) : Prop :=
  ∀ m k, t.kind m = some k →
    match k with
    | .ban => ∀ b, b ∈ (x.bans m).list ↔ b ∈ (y.bans m).list
    | .key => ¬ aside m → y.modes m = x.modes m ∧ y.key m = x.key m
    | .limit => y.modes m = x.modes m ∧ y.limit m = x.limit m
    | .flag => y.modes m = x.modes m
    | .reg => y.modes m = x.modes m
    | .uflag _ => ∀ u ∈ x.users, y.uflags u m = x.uflags u m

namespace Relay

/-- `channel_mode` at our server. -/
def ours (s : Relay) : Option ModeChange :=
  channelMode s.t s.cl (.mine s.actor) s.chan s.chan.created (s.modes :: s.args)

/-- What the second server holds once it has executed the line, if one is sent. -/
def theirs (s : Relay) (c : ModeChange) : Option Chan :=
  match c.sent with
  | some sent =>
      (receiveMode s.t s.second s.origins s.last s.name s.chan
        (modeLine (s.cl.nick s.actor.id) s.name c.chan.created sent)).map ModeChange.chan
  | none => some s.chan

/-- The modes whose keys have been set by what is sent. -/
def Aside (s : Relay) (c : ModeChange) (m : UInt8) : Prop :=
  ∃ sent, c.sent = some sent ∧ KeySet s.t sent.1 m

/-- The second server ends with our modes. -/
def Faithful (s : Relay) : Prop :=
  ∃ c y, s.ours = some c ∧ s.theirs c = some y ∧ SameModes s.t (s.Aside c) c.chan y

/-- Our loop behind a part of the mode string. -/
def loop (s : Relay) (modes : Bytes) : ModeLoop :=
  modes.foldl (modeChar s.t s.cl (some s.actor)) (.start s.chan s.args)

/-- An argument that is passed on has its effect at the second server: the mask of a ban is a word,
unless it is taken off and neither it nor what arrives is on the list; something arrives for a key
that is taken off, unless there is none or the mode string sets one. -/
def ArgOk (s : Relay) (st : ModeLoop) (c : UInt8) (w : Bytes) : Prop :=
  match s.t.kind c with
  | some .ban =>
      IsWord w ∨ (st.plus = false ∧ ∀ v b, v = w ∨ firstArg w = some v → banMask v = some b →
        ∀ cbp ∈ (st.chan.bans c).list, cbp.same b = false)
  | some .key =>
      st.plus = true ∨ firstArg w ≠ none ∨ KeySet s.t (trimSign (s.loop s.modes).result) c ∨
        (st.chan.modes c = false ∧ st.chan.key c = [])
  | _ => True

/-- The condition on a byte of the mode string, where our loop stands at `st`: if it is an accepted
change that takes an argument, there is room for the argument in `rbuf`, and it has its effect. -/
def StepOk (s : Relay) (st : ModeLoop) (c : UInt8) : Prop :=
  ∀ hd w, st.accepted s.t s.cl (some s.actor) c = some hd → hd.argused = some w →
    st.rbuf.length + 1 + w.length < RBUF_SIZE ∧ s.ArgOk st c w

/-- Every byte of the mode string meets its condition. -/
def Ok (s : Relay) : Prop :=
  ∀ before c behind, s.modes = before ++ c :: behind → s.StepOk (s.loop before) c

end Relay

/-! ### As long as only words are passed on -/

/-- Our loop has passed on words only, and the second server follows, whatever else comes behind
them in the line. -/
structure Before (s : Relay) (st : ModeLoop) (sent : Bytes) (ws : List Bytes) : Prop where
  shape : Shape st sent
  rbuf : st.rbuf = flatWords ws
  words : ∀ w ∈ ws, IsWord w
  length_le : ws.length ≤ st.mset
  max : st.mset ≤ MAXMODES
  args_isWord : ∀ w ∈ st.args.dropLast, IsWord w
  args_isText : ∀ w ∈ st.args, IsText w
  tracks : ∀ rest, (flatWords (ws ++ rest)).length < RBUF_SIZE →
    Tracks (KeySet s.t sent) st sent (relayLoop s.t s.second s.chan (ws ++ rest) sent) ∧
      (relayLoop s.t s.second s.chan (ws ++ rest) sent).args = rest

theorem Before.start (s : Relay) : Before s (.start s.chan s.args) [] [] where
  shape := Shape.start _ _
  rbuf := rfl
  words := by simp
  length_le := Nat.zero_le _
  max := Nat.zero_le _
  args_isWord := s.args_isWord
  args_isText := s.args_isText
  tracks := by
    intro rest hrest
    refine ⟨⟨⟨rfl, ?_⟩, rfl, ?_⟩, rfl⟩
    · rw [List.nil_append] at hrest
      exact (Nat.zero_add _).symm ▸ hrest
    · exact (Mirrors.refl s.chan).mono fun _ => False.elim

/-- Arguments that are gone leave the others as they were. -/
theorem mem_of_mem_tail_or {args args' : List Bytes} (h : args' = args ∨ args' = args.tail)
    {w : Bytes} (hw : w ∈ args') : w ∈ args := by
  rcases h with rfl | rfl
  · exact hw
  · exact List.mem_of_mem_tail hw

theorem mem_of_mem_dropLast_tail_or {args args' : List Bytes}
    (h : args' = args ∨ args' = args.tail) {w : Bytes} (hw : w ∈ args'.dropLast) :
    w ∈ args.dropLast := by
  rcases h with rfl | rfl
  · exact hw
  · rw [← List.tail_dropLast] at hw
    exact List.mem_of_mem_tail hw

variable {s : Relay} {st : ModeLoop} {sent : Bytes} {ws : List Bytes} {c : UInt8}

/-- A byte that is no accepted change. -/
theorem Before.quiet (h : Before s st sent ws) {args : List Bytes} {skip : Bool}
    (hargs : args = st.args ∨ args = st.args.tail) :
    Before s { st with args := args, skip := skip } sent ws :=
  { h with
    shape := ⟨h.shape.result, h.shape.two_le, h.shape.chars, h.shape.length_le⟩
    args_isWord := fun w hw => h.args_isWord w (mem_of_mem_dropLast_tail_or hargs hw)
    args_isText := fun w hw => h.args_isText w (mem_of_mem_tail_or hargs hw)
    tracks := by
      intro rest hrest
      obtain ⟨htracks, hrargs⟩ := h.tracks rest hrest
      exact ⟨⟨htracks.roomy, htracks.plus, htracks.chan⟩, hrargs⟩ }

/-- The sign changes. -/
theorem Before.sign (h : Before s st sent ws) :
    Before s { st with
      plus := !st.plus
      result := putSign st.result (signByte !st.plus) (signByte st.plus) } sent ws :=
  { h with
    shape := h.shape.sign
    tracks := by
      intro rest hrest
      obtain ⟨htracks, hrargs⟩ := h.tracks rest hrest
      exact ⟨⟨htracks.roomy, htracks.plus, htracks.chan⟩, hrargs⟩ }

theorem not_keySet_of_ban {t : ModeTable} {modes : Bytes} {c : UInt8}
    (h : t.kind c = some .ban) : ¬ KeySet t modes c := by
  rintro ⟨hkey, -⟩
  rw [h] at hkey
  cases hkey

/-- A change is accepted, and its argument, if it takes one, is passed on as a word. -/
theorem Before.accept (h : Before s st sent ws) {hd : Handled}
    (hacc : st.accepted s.t s.cl (some s.actor) c = some hd)
    (hword : ∀ w, hd.argused = some w → IsWord w) :
    Before s (st.after c hd) (st.result ++ [c]) (ws ++ hd.argused.toList) := by
  have hc := isModeChar_of_accepted hacc
  obtain ⟨⟨-, hmax, -⟩, -, hok⟩ := ModeLoop.accepted_eq_some.mp hacc
  have hmset : st.mset < MAXMODES := by simpa using hmax
  have hargs : (st.after c hd).args = st.args ∨ (st.after c hd).args = st.args.tail := by
    simp only [ModeLoop.after]
    split
    · exact .inr rfl
    · exact .inl rfl
  exact
    { shape := h.shape.accept hok hc
      rbuf := by
        simp only [ModeLoop.after, if_pos hok]
        cases hd.argused with
        | none => simpa using h.rbuf
        | some w => simp [h.rbuf, flatWords]
      words := by
        intro w hw
        rcases List.mem_append.mp hw with hw | hw
        · exact h.words w hw
        · exact hword w (by simpa using hw)
      length_le := by
        have hlen := h.length_le
        have hone : hd.argused.toList.length ≤ 1 := by cases hd.argused <;> simp
        simp only [ModeLoop.after, if_pos hok, List.length_append]
        omega
      max := by
        simp only [ModeLoop.after, if_pos hok]
        omega
      args_isWord := fun w hw => h.args_isWord w (mem_of_mem_dropLast_tail_or hargs hw)
      args_isText := fun w hw => h.args_isText w (mem_of_mem_tail_or hargs hw)
      tracks := by
        intro rest hrest
        rw [List.append_assoc] at hrest ⊢
        obtain ⟨htracks, hrargs⟩ := h.tracks (hd.argused.toList ++ rest) hrest
        have hhead : ∀ w, hd.argused = some w →
            (relayLoop s.t s.second s.chan (ws ++ (hd.argused.toList ++ rest)) sent).args.head? =
              some w := by
          intro w hw
          rw [hrargs, hw]
          rfl
        obtain ⟨haccept, hargs'⟩ :=
          htracks.accept s.net h.shape hacc not_keySet_of_ban hhead
        refine ⟨⟨haccept.roomy, haccept.plus, haccept.chan.mono fun m hm => ?_⟩, ?_⟩
        · exact (keySet_append h.shape hc m).mpr hm
        · rw [hargs', hrargs]
          cases hd.argused <;> rfl }

/-! ### Behind an argument that is not a word -/

/-- What a channel holds of a mode with a list or a key. -/
def Chan.held (chan : Chan) (m : UInt8) : Bool × BanList × Bytes :=
  (chan.modes m, chan.bans m, chan.key m)

/-- The arguments that the other server has when the last one is no word. -/
def arrived (ws : List Bytes) (d : Bytes) : List Bytes :=
  ws ++ fieldsRaw isSpace colon (10 - ws.length) (trim isSpace d)

/-- Our loop has passed on the argument `d` behind words, and the second server follows.  Of the
mode `loose`, if there is one, the servers hold `x` and `y` from then on. -/
structure Behind (s : Relay) (st : ModeLoop) (sent : Bytes) (ws : List Bytes) (d : Bytes)
    (loose : Option UInt8) (x y : Bool × BanList × Bytes) : Prop where
  shape : Shape st sent
  rbuf : st.rbuf = flatWords (ws ++ [d])
  words : ∀ w ∈ ws, IsWord w
  text : IsText d
  length_lt : ws.length < st.mset
  max : st.mset ≤ MAXMODES
  args : st.args = []
  loose_kind : ∀ m, loose = some m → s.t.kind m = some .ban ∨ s.t.kind m = some .key
  tracks : Tracks (fun m => KeySet s.t sent m ∨ loose = some m) st sent
    (relayLoop s.t s.second s.chan (arrived ws d) sent)
  ours : ∀ m, loose = some m → st.chan.held m = x
  theirs : ∀ m, loose = some m →
    (relayLoop s.t s.second s.chan (arrived ws d) sent).chan.held m = y

variable {d : Bytes} {loose : Option UInt8} {x y : Bool × BanList × Bytes}

theorem Behind.quiet (h : Behind s st sent ws d loose x y) {args : List Bytes} {skip : Bool}
    (hargs : args = st.args ∨ args = st.args.tail) :
    Behind s { st with args := args, skip := skip } sent ws d loose x y :=
  { h with
    shape := ⟨h.shape.result, h.shape.two_le, h.shape.chars, h.shape.length_le⟩
    args := by rcases hargs with rfl | rfl <;> simp [h.args]
    tracks := ⟨h.tracks.roomy, h.tracks.plus, h.tracks.chan⟩ }

theorem Behind.sign (h : Behind s st sent ws d loose x y) :
    Behind s { st with
      plus := !st.plus
      result := putSign st.result (signByte !st.plus) (signByte st.plus) } sent ws d loose x y :=
  { h with
    shape := h.shape.sign
    tracks := ⟨h.tracks.roomy, h.tracks.plus, h.tracks.chan⟩ }

/-- A change without an argument changes no list and no key. -/
theorem held_of_argused_none {t : ModeTable} {cl : Clients} {cli : Option Actor} {chan : Chan}
    {mode m : UInt8} {set : Bool} {arg : Option Bytes}
    (hok : (changeMode t cl cli chan mode set arg).res = .ok)
    (hused : (changeMode t cl cli chan mode set arg).argused = none)
    (hm : t.kind m = some .ban ∨ t.kind m = some .key) :
    (changeMode t cl cli chan mode set arg).chan.held m = chan.held m := by
  unfold changeMode at hok hused ⊢
  cases hkind : t.kind mode with
  | none => simp [hkind] at hok
  | some k =>
    simp only [hkind] at hok hused ⊢
    have hne : k ≠ .ban → k ≠ .key → m ≠ mode := by
      rintro hban hkey rfl
      rw [hkind] at hm
      rcases hm with hm | hm
      · exact hban (Option.some.inj hm)
      · exact hkey (Option.some.inj hm)
    cases k with
    | ban =>
      obtain ⟨v, b, rfl, -, ⟨-, _, hres⟩ | ⟨-, hres⟩⟩ := chanmodeBan_ok hok
      · rw [changefunc, hres] at hused
        cases hused
      · rw [changefunc, hres] at hused
        cases hused
    | key =>
      obtain ⟨v, rfl, hused', -⟩ := chanmodeKey_ok hok
      exact absurd (hused'.symm.trans hused) (by simp)
    | limit =>
      have hmode := hne (by simp) (by simp)
      obtain ⟨-, v, rfl, -, hres⟩ | ⟨-, hres⟩ := chanmodeLimit_ok hok
      · rw [changefunc, hres] at hused
        cases hused
      · rw [changefunc, hres]
        simp [Chan.held, Chan.setFlag, Chan.setLimit, hmode]
    | flag =>
      have hmode := hne (by simp) (by simp)
      rw [changefunc, chanmodeFlag_ok hok]
      simp [Chan.held, Chan.setFlag, hmode]
    | reg =>
      have hmode := hne (by simp) (by simp)
      rw [changefunc, chanmodeReg_ok hok]
      simp [Chan.held, Chan.setFlag, hmode]
    | uflag =>
      obtain ⟨v, cp, rfl, -, -, hres⟩ := chanmodeUflag_ok hok
      rw [changefunc, hres] at hused
      cases hused

theorem Behind.argused_eq_none (h : Behind s st sent ws d loose x y) {hd : Handled}
    (hacc : st.accepted s.t s.cl (some s.actor) c = some hd) : hd.argused = none := by
  obtain ⟨-, hhd, hok⟩ := ModeLoop.accepted_eq_some.mp hacc
  by_contra hne
  obtain ⟨w, hw⟩ := Option.ne_none_iff_exists'.mp hne
  rw [← hhd, h.args] at hok hw
  rcases argused_of_ok hok hw with ⟨harg, -⟩ | ⟨-, harg, -⟩
  · cases harg
  · cases harg

/-- Once the arguments are used up, the changes that are accepted are made again. -/
theorem Behind.accept (h : Behind s st sent ws d loose x y) {hd : Handled}
    (hacc : st.accepted s.t s.cl (some s.actor) c = some hd) :
    Behind s (st.after c hd) (st.result ++ [c]) ws d loose x y := by
  have hc := isModeChar_of_accepted hacc
  obtain ⟨⟨-, hmax, -⟩, hhd, hok⟩ := ModeLoop.accepted_eq_some.mp hacc
  have hmset : st.mset < MAXMODES := by simpa using hmax
  have hlt := h.length_lt
  have hnone := h.argused_eq_none hacc
  have hban : s.t.kind c = some .ban → ¬ (KeySet s.t sent c ∨ loose = some c) := by
    intro hkind
    rw [← hhd] at hok hnone
    simp only [changeMode, hkind] at hok hnone
    obtain ⟨v, b, -, -, ⟨-, _, hres⟩ | ⟨-, hres⟩⟩ := chanmodeBan_ok hok
    · rw [changefunc, hres] at hnone
      cases hnone
    · rw [changefunc, hres] at hnone
      cases hnone
  have hargs : ∀ w, hd.argused = some w →
      (relayLoop s.t s.second s.chan (arrived ws d) sent).args.head? = some w := by
    intro w hw
    rw [hnone] at hw
    cases hw
  obtain ⟨haccept, -⟩ := h.tracks.accept s.net h.shape hacc hban hargs
  obtain ⟨result, hd', hrelay, hhd', hok', hused', -⟩ :=
    h.tracks.accept_handled s.net h.shape hacc hban hargs
  rw [hnone] at hused'
  exact
    { shape := h.shape.accept hok hc
      rbuf := by simpa [ModeLoop.after, hnone] using h.rbuf
      words := h.words
      text := h.text
      length_lt := by
        simp only [ModeLoop.after, if_pos hok]
        omega
      max := by
        simp only [ModeLoop.after, if_pos hok]
        omega
      args := by simp [ModeLoop.after, hnone, h.args]
      loose_kind := h.loose_kind
      tracks := by
        refine ⟨haccept.roomy, haccept.plus, haccept.chan.mono fun m hm => ?_⟩
        rw [keySet_append h.shape hc]
        tauto
      ours := by
        intro m hm
        rw [← hhd] at hok hnone
        have hheld := held_of_argused_none hok hnone (h.loose_kind m hm)
        rw [← h.ours m hm, ← hheld, hhd]
        rfl
      theirs := by
        intro m hm
        rw [← hhd'] at hok' hused'
        have hheld := held_of_argused_none hok' hused' (h.loose_kind m hm)
        rw [← h.theirs m hm, ← hheld, hrelay, hhd']
        rfl }

/-- An argument that is passed on and is no word is the last one, and belongs to a mode with a list,
a key or a limit. -/
theorem Before.of_not_isWord (h : Before s st sent ws) {hd : Handled} {w : Bytes}
    (hacc : st.accepted s.t s.cl (some s.actor) c = some hd) (hused : hd.argused = some w)
    (hw : ¬ IsWord w) :
    st.args = [w] ∧ ¬ Word isSpace colon w ∧ IsText w ∧
      (s.t.kind c = some .ban ∨ s.t.kind c = some .key ∨ s.t.kind c = some .limit) := by
  obtain ⟨-, hhd, hok⟩ := ModeLoop.accepted_eq_some.mp hacc
  rw [← hhd] at hok hused
  rcases argused_of_ok hok hused with ⟨harg, hkind⟩ | ⟨-, -, cp, hcp, rfl⟩
  · obtain ⟨ws', hargs⟩ := List.head?_eq_some_iff.mp harg
    have htext := h.args_isText w (by simp [hargs])
    refine ⟨?_, fun hword => hw ⟨hword, htext⟩, htext, hkind⟩
    cases ws' with
    | nil => exact hargs
    | cons v ws' => exact absurd (h.args_isWord w (by simp [hargs])) hw
  · exact absurd (s.cl.nick_isWord cp hcp) hw

theorem flatWords_append (ws vs : List Bytes) :
    flatWords (ws ++ vs) = flatWords ws ++ flatWords vs := List.flatMap_append

/-- What arrives is no longer than what was sent. -/
theorem length_flatWords_arrived (ws : List Bytes) (d : Bytes) :
    (flatWords (arrived ws d)).length ≤ (flatWords (ws ++ [d])).length := by
  have hfields : (flatWords (fieldsRaw isSpace colon (10 - ws.length) (trim isSpace d))).length ≤
      (trim isSpace d).length + 1 := length_flatMap_fieldsRaw blank _ _
  have htrim := (List.dropWhile_suffix (l := d) isSpace).length_le
  have hone : (flatWords [d]).length = d.length + 1 := by simp [flatWords]
  rw [arrived, flatWords_append, flatWords_append, List.length_append, List.length_append, hone]
  simp only [flatWords, trim] at hfields ⊢
  omega

/-- A change whose argument arrives in part: only its own mode may differ then, and only if it has a
list or a key. -/
theorem Mirrors.firstArg {t : ModeTable} {cl : Clients} (second : Clients) {aside : UInt8 → Prop}
    {x y : Chan} {a : Actor} {set : Bool} {w : Bytes} (hxy : Mirrors aside x y)
    (hok : (changeMode t cl (some a) x c set (some w)).res = .ok)
    (hused : (changeMode t cl (some a) x c set (some w)).argused = some w)
    (hkind : t.kind c = some .ban ∨ t.kind c = some .key ∨ t.kind c = some .limit) :
    Mirrors (fun m => aside m ∨ (if t.kind c = some .limit then none else some c) = some m)
      (changeMode t cl (some a) x c set (some w)).chan
      (changeMode t second none y c set (Ithildin.firstArg w)).chan := by
  unfold changeMode at hok hused ⊢
  rcases hkind with hkind | hkind | hkind
  · simp only [hkind]
    have hframes := hxy.of_frames (chanmodeBan_frame t (some a) x c set (some w))
      (chanmodeBan_frame t none y c set (Ithildin.firstArg w))
    refine hframes.mono fun m hm => hm.imp_right fun hmc => ?_
    simp [hmc]
  · simp only [hkind]
    have hframes := hxy.of_frames (chanmodeKey_frame t (some a) x c set (some w))
      (chanmodeKey_frame t none y c set (Ithildin.firstArg w))
    refine hframes.mono fun m hm => hm.imp_right fun hmc => ?_
    simp [hmc]
  · simp only [hkind] at hok hused ⊢
    obtain ⟨rfl, v, hv, hlimit, hres⟩ | ⟨rfl, hres⟩ := chanmodeLimit_ok hok
    · obtain rfl := Option.some.inj hv
      obtain ⟨v, hfirst, heq⟩ := limitOf_firstArg hlimit
      have hagain : chanmodeLimit t none y c true (some v) =
          ⟨.ok, (y.setLimit c (limitOf w)).setFlag c true, some v⟩ := by
        simp [chanmodeLimit, denied, heq, hlimit]
      rw [changefunc, changefunc, hres, hfirst, hagain]
      exact ((hxy.setLimit c _).setFlag c true).mono fun m hm => .inl hm
    · rw [changefunc, hres] at hused
      cases hused

/-- The change whose argument is not a word, at the second server, which holds `z` then. -/
theorem Before.dirty (h : Before s st sent ws) {hd : Handled} {w : Bytes}
    (hacc : st.accepted s.t s.cl (some s.actor) c = some hd) (hused : hd.argused = some w)
    (hw : ¬ IsWord w) (hroom : (flatWords (ws ++ [w])).length < RBUF_SIZE) :
    ∃ z, Mirrors (KeySet s.t sent) st.chan z ∧
      Behind s (st.after c hd) (st.result ++ [c]) ws w
        (if s.t.kind c = some .limit then none else some c) (hd.chan.held c)
        ((changeMode s.t s.second none z c st.plus (firstArg w)).chan.held c) := by
  have hc := isModeChar_of_accepted hacc
  obtain ⟨hargs, hnotWord, htext, hkind⟩ := h.of_not_isWord hacc hused hw
  obtain ⟨⟨-, hmax, hplus, hminus, -⟩, hhd, hok⟩ := ModeLoop.accepted_eq_some.mp hacc
  have hmset : st.mset < MAXMODES := by simpa using hmax
  have hlen := h.length_le
  obtain ⟨htracks, hrargs⟩ := h.tracks (fieldsRaw isSpace colon (10 - ws.length) (trim isSpace w))
    ((length_flatWords_arrived ws w).trans_lt hroom)
  change Tracks _ _ _ (relayLoop s.t s.second s.chan (arrived ws w) sent) at htracks
  obtain ⟨result, hrelay⟩ := htracks.relayLoop_eq h.shape hplus hminus
  set r := relayLoop s.t s.second s.chan (arrived ws w) sent with hr
  have hhead : r.args.head? = firstArg w := by
    have hn : 10 - ws.length = (9 - ws.length) + 1 := by
      simp only [MAXMODES] at hmset
      omega
    rw [show r.args = _ from hrargs, hn, head?_fieldsRaw]
    rfl
  dsimp only at hrelay
  rw [hhead] at hrelay
  set hd' := changeMode s.t s.second none r.chan c st.plus (firstArg w) with hhd'
  refine ⟨r.chan, htracks.chan, ?_⟩
  exact
    { shape := h.shape.accept hok hc
      rbuf := by simp [ModeLoop.after, if_pos hok, hused, h.rbuf, flatWords]
      words := h.words
      text := htext
      length_lt := by
        simp only [ModeLoop.after, if_pos hok]
        omega
      max := by
        simp only [ModeLoop.after, if_pos hok]
        omega
      args := by simp [ModeLoop.after, hused, hargs]
      loose_kind := by
        intro m hm
        split at hm
        · cases hm
        · rename_i hlimit
          obtain rfl := Option.some.inj hm
          rcases hkind with hkind | hkind | hkind
          · exact .inl hkind
          · exact .inr hkind
          · exact absurd hkind hlimit
      tracks := by
        rw [hargs] at hhd
        rw [← hhd] at hok hused
        refine ⟨?_, ?_, ?_⟩
        · rw [hrelay]
          have hroomy : ModeLoop.Roomy { r with plus := st.plus, result := result } :=
            ⟨htracks.roomy.skip, htracks.roomy.room⟩
          refine hroomy.after c fun hok' v hv => ?_
          rcases argused_of_ok hok' hv with ⟨harg, -⟩ | ⟨⟨pfx, hpfx⟩, -⟩
          · exact hhead.trans harg
          · rw [hpfx] at hkind
            simp at hkind
        · rw [hrelay, scanModes_mode _ hplus hminus, h.shape.scan]
          rfl
        · rw [hrelay]
          have hmirrors := htracks.chan.firstArg s.second hok hused hkind
          refine (hhd ▸ hmirrors).mono fun m hm => ?_
          rw [keySet_append h.shape hc]
          tauto
      ours := by
        intro m hm
        split at hm
        · cases hm
        · obtain rfl := Option.some.inj hm
          rfl
      theirs := by
        intro m hm
        split at hm
        · cases hm
        · obtain rfl := Option.some.inj hm
          rw [hrelay]
          rfl }

end Ithildin
