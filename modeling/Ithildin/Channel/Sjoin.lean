import Ithildin.Channel.ChannelMode
import Ithildin.Channel.Membership
import Mathlib.Algebra.GroupWithZero.Nat
import Mathlib.Data.List.Nodup

/-!
# The SJOIN of a server

`SERVER_COMMAND(sjoin)` with the modes of the channel, the prefixes of those who join and the
buffers they go through, up to the end of the loop over the members.

* `givePrefixes`: the loop over the prefixes of one member, which stays at a prefix that is neither
  `'@'` nor `'+'`;
* `serverSjoin`: the command;
* `AppliesList`: the channel gains whom the list names, with the prefixes it gives;
* `serverSjoin_iff`: when the command comes to an end and does so.
-/

namespace Ithildin

/-- Why the loop over the members does not come to an end. -/
inductive SjoinFault
  | endless
  | overflow
  deriving DecidableEq

/-- The network as the command sees it; a client is found by its nick in any case. -/
structure SjoinNet where
  conf : ChannelConf
  t : ModeTable
  cl : Clients
  length_nick : ∀ s c, cl.findClient s = some c → (cl.nick c).length = s.length

/-- The line: `argv[1]`, `argv[3]`, the arguments of the modes, and the list of members. -/
structure SjoinLine where
  ts : ℤ
  modes : Bytes
  args : List Bytes
  members : Bytes

/-- Where the loop stands: the channel, `realjoiners`, the first `mset` bytes of `modes` and the
first `mlen` of `modebuf`, and the MODE lines that have been sent. -/
structure SjoinLoop where
  chan : Chan
  realjoiners : Bytes
  modes : Bytes
  modebuf : Bytes
  sent : List (Bytes × Bytes)

/-- `add_to_channel`; from here on `find_chan_link` finds the new link. -/
def Chan.addUser (chan : Chan) (cp : ℕ) : Chan :=
  { chan with
    users := cp :: chan.users
    uflags := Function.update chan.uflags cp fun _ => false }

/-- `chanmode_setprefix`. -/
def setPrefix (t : ModeTable) (cl : Clients) (chan : Chan) (pfx : UInt8) (arg : Bytes) : Handled :=
  match t.pfxmap pfx with
  | none => ⟨.nonex, chan, none⟩
  | some m => changefunc t cl none chan m true (some arg) (.uflag pfx)

namespace SjoinLoop

/-- A mode and its argument go into `modes` and `modebuf`, a NUL behind each. -/
def note (st : SjoinLoop) (mode : UInt8) (client : Bytes) : Except SjoinFault SjoinLoop :=
  let st := { st with modes := st.modes ++ [mode], modebuf := st.modebuf ++ blank :: client }
  if st.modes.length < 320 ∧ st.modebuf.length < 320 then .ok st else .error .overflow

/-- Six modes or more are sent. -/
def flush (st : SjoinLoop) : SjoinLoop :=
  if 6 ≤ st.modes.length then
    { st with modes := [], modebuf := [], sent := st.sent ++ [(st.modes, st.modebuf)] }
  else st

end SjoinLoop

/-- `while (prefix != client)`; the nick of the client is written over the name it was found by. -/
def givePrefixes (net : SjoinNet) : ℕ → Bytes → Bytes → SjoinLoop → Except SjoinFault SjoinLoop
  | 0, _, _, _ => .error .endless
  | _ + 1, [], _, st => .ok st
  | n + 1, p :: prefixes, client, st =>
      let h := setPrefix net.t net.cl st.chan p client
      let client := h.argused.getD client
      let st := { st with chan := h.chan }
      if p = atSign then (st.note 111 client).bind (givePrefixes net n prefixes client)
      else if p = plusSign then (st.note 118 client).bind (givePrefixes net n prefixes client)
      else givePrefixes net n (p :: prefixes) client st -- `continue`, in front of `prefix++`

/-- One member of the list. -/
def sjoinMember (net : SjoinNet) (fuel : ℕ) (changeok : Bool) (st : SjoinLoop) (member : Bytes) :
    Except SjoinFault SjoinLoop :=
  let (prefixes, client) := Channels.splitPrefixes net.conf member
  match net.cl.findClient client with
  | none => .ok st
  | some cp =>
      let joiner := if changeok then member else client
      let st := { st with
        chan := st.chan.addUser cp
        realjoiners := st.realjoiners ++ (joiner ++ [blank]) }
      if st.realjoiners.length < 512 then
        if changeok then (givePrefixes net fuel prefixes client st).map SjoinLoop.flush else .ok st
      else .error .overflow

/-- `SERVER_COMMAND(sjoin)`, up to the end of the loop over the members; the rounds of the loop over
the prefixes are counted. -/
def serverSjoin (net : SjoinNet) (fuel : ℕ) (supportsTs master : Bool) (found : Option Chan)
    (line : SjoinLine) : Except SjoinFault SjoinLoop :=
  let chan := found.getD (.new line.ts)
  let changeok : Bool := line.ts ≤ chan.created
  match channelMode net.t net.cl (.uplink supportsTs true master) chan line.ts
      (line.modes :: line.args) with
  | none => .error .overflow
  | some change =>
      (Channels.listed line.members).foldlM (sjoinMember net fuel changeok)
        ⟨change.chan, [], [], [], []⟩

/-! ### What the command is for -/

/-- A member of the list that is a known client. -/
structure SjoinNamed where
  pfx : Bytes
  client : Bytes
  cp : ℕ

/-- A member of the list, if it is known. -/
def sjoinNamed (net : SjoinNet) (member : Bytes) : Option SjoinNamed :=
  let (prefixes, client) := Channels.splitPrefixes net.conf member
  (net.cl.findClient client).map fun cp => ⟨prefixes, client, cp⟩

/-- The known clients that a line names, with their prefixes. -/
def SjoinLine.named (net : SjoinNet) (line : SjoinLine) : List SjoinNamed :=
  (Channels.listed line.members).filterMap (sjoinNamed net)

/-- A client that the channel is to gain: it is named, comes through the server and is not there. -/
def SjoinLine.Joins (net : SjoinNet) (through : ℕ → Prop) (chan : Chan) (line : SjoinLine)
    (k : ℕ) : Prop :=
  (∃ x ∈ line.named net, x.cp = k) ∧ through k ∧ k ∉ chan.users

/-- The channel has gained those who join, once each and nobody else, each with the flags its
prefixes stand for, if the timestamp allows them. -/
structure AppliesList (net : SjoinNet) (through : ℕ → Prop) (chan : Chan) (line : SjoinLine)
    (after : Chan) : Prop where
  gained : ∀ k, line.Joins net through chan k → after.users.count k = chan.users.count k + 1
  others : ∀ k, ¬ line.Joins net through chan k → after.users.count k = chan.users.count k
  flags : ∀ k, line.Joins net through chan k → ∀ m, after.uflags k m = true ↔
    line.ts ≤ chan.created ∧
      ∃ x ∈ line.named net, x.cp = k ∧ ∃ p ∈ x.pfx, net.t.pfxmap p = some m

/-- The modes gathered for the next MODE line stay within `modes` and `modebuf`. -/
def gathers : ℕ → ℕ → List SjoinNamed → Prop
  | _, _, [] => True
  | mset, mlen, x :: l =>
      let mset := mset + x.pfx.length
      let mlen := mlen + x.pfx.length * (x.client.length + 1)
      (mset < 320 ∧ mlen < 320) ∧ if 6 ≤ mset then gathers 0 0 l else gathers mset mlen l

/-- How much of `realjoiners` a member takes. -/
def joinerLength (changeok : Bool) (x : SjoinNamed) : ℕ :=
  (if changeok then x.pfx.length + x.client.length else x.client.length) + 1

/-- What the command asks of a line. -/
structure SjoinOk (net : SjoinNet) (through : ℕ → Prop) (supportsTs master : Bool) (chan : Chan)
    (line : SjoinLine) : Prop where
  modes : (channelMode net.t net.cl (.uplink supportsTs true master) chan line.ts
    (line.modes :: line.args)).isSome
  joiners : ((line.named net).map (joinerLength (line.ts ≤ chan.created))).sum < 512
  gathered : line.ts ≤ chan.created → gathers 0 0 (line.named net)
  prefixes : line.ts ≤ chan.created →
    ∀ x ∈ line.named net, ∀ p ∈ x.pfx, p = atSign ∨ p = plusSign
  joins : ∀ x ∈ line.named net, through x.cp ∧ x.cp ∉ chan.users
  once : ((line.named net).map SjoinNamed.cp).Nodup

/-! ### The prefixes of one member -/

/-- A client on the channel gets the flag that a prefix stands for, and is still found by what the
argument has become. -/
theorem setPrefix_found (net : SjoinNet) (pfx : UInt8) {chan : Chan} {client : Bytes} {cp : ℕ}
    (hfind : net.cl.findClient client = some cp) (hon : cp ∈ chan.users) :
    let h := setPrefix net.t net.cl chan pfx client
    (h.chan.users = chan.users ∧ (∀ k ≠ cp, h.chan.uflags k = chan.uflags k) ∧
      ∀ m, h.chan.uflags cp m = (chan.uflags cp m || decide (net.t.pfxmap pfx = some m))) ∧
    net.cl.findClient (h.argused.getD client) = some cp ∧
    (h.argused.getD client).length = client.length := by
  have hhistory : net.cl.getHistory client = some cp := by
    rw [Clients.getHistory, hfind]
    rfl
  unfold setPrefix
  cases hpfx : net.t.pfxmap pfx with
  | none => simp [hfind]
  | some mode =>
    have hhandled : changefunc net.t net.cl none chan mode true (some client) (.uflag pfx) =
        ⟨.ok, chan.setUflag cp mode true, some (net.cl.nick cp)⟩ := by
      simp [changefunc, chanmodeUflag, denied, hhistory, hon]
    dsimp only
    rw [hhandled]
    refine ⟨⟨rfl, fun k hk => Function.update_of_ne hk _ _, fun m => ?_⟩,
      net.cl.find_nick cp (net.cl.find_online client cp hfind), net.length_nick client cp hfind⟩
    simp only [Chan.setUflag, Function.update_self, Option.some.injEq]
    by_cases hm : m = mode
    · simp [hm]
    · rw [Function.update_of_ne hm]
      simp [Ne.symm hm]

namespace SjoinLoop

/-- The letter that a prefix is sent as. -/
def letter (pfx : UInt8) : UInt8 := if pfx = atSign then 111 else 118

/-- What the prefixes come to if they all are `'@'` or `'+'` and there is room for them. -/
def give (net : SjoinNet) : Bytes → Bytes → SjoinLoop → SjoinLoop
  | [], _, st => st
  | p :: prefixes, client, st =>
      let h := setPrefix net.t net.cl st.chan p client
      let client := h.argused.getD client
      give net prefixes client { st with
        chan := h.chan
        modes := st.modes ++ [letter p]
        modebuf := st.modebuf ++ blank :: client }

/-- What `give` does to the channel and to the buffers. -/
structure Given (net : SjoinNet) (prefixes client : Bytes) (cp : ℕ) (st st' : SjoinLoop) :
    Prop where
  users : st'.chan.users = st.chan.users
  other : ∀ k ≠ cp, st'.chan.uflags k = st.chan.uflags k
  flags : ∀ m, st'.chan.uflags cp m =
    (st.chan.uflags cp m || prefixes.any fun p => decide (net.t.pfxmap p = some m))
  modes : st'.modes.length = st.modes.length + prefixes.length
  modebuf : st'.modebuf.length = st.modebuf.length + prefixes.length * (client.length + 1)
  realjoiners : st'.realjoiners = st.realjoiners

theorem given_give (net : SjoinNet) {prefixes client : Bytes} {cp : ℕ} {st : SjoinLoop}
    (hfind : net.cl.findClient client = some cp) (hon : cp ∈ st.chan.users) :
    Given net prefixes client cp st (give net prefixes client st) := by
  induction prefixes generalizing client st with
  | nil => constructor <;> simp [give]
  | cons p prefixes ih =>
    obtain ⟨⟨husers, hother, hflags⟩, hfind', hlength⟩ :=
      setPrefix_found net p hfind hon
    unfold give
    dsimp only
    generalize setPrefix net.t net.cl st.chan p client = h at husers hother hflags hfind' hlength
    have hrest := @ih (h.argused.getD client)
      { st with
        chan := h.chan
        modes := st.modes ++ [letter p]
        modebuf := st.modebuf ++ blank :: h.argused.getD client } hfind' (by rwa [husers])
    refine ⟨hrest.users.trans husers, fun k hk => (hrest.other k hk).trans (hother k hk),
      fun m => ?_, ?_, ?_, hrest.realjoiners⟩
    · rw [hrest.flags, hflags, List.any_cons, Bool.or_assoc]
    · rw [hrest.modes]
      simp only [List.length_append, List.length_cons, List.length_nil]
      omega
    · rw [hrest.modebuf]
      simp only [List.length_append, List.length_cons, hlength, Nat.add_mul]
      omega

end SjoinLoop

open SjoinLoop

/-- The loop over the prefixes comes to an end just if every prefix is `'@'` or `'+'`, the buffers
have room for all of them, and there are enough rounds. -/
theorem givePrefixes_eq_ok (net : SjoinNet) {n : ℕ} {prefixes client : Bytes} {cp : ℕ}
    {st st' : SjoinLoop} (hfind : net.cl.findClient client = some cp) (hon : cp ∈ st.chan.users)
    (hroom : st.modes.length < 320 ∧ st.modebuf.length < 320) :
    givePrefixes net n prefixes client st = .ok st' ↔
      prefixes.length < n ∧ (∀ p ∈ prefixes, p = atSign ∨ p = plusSign) ∧
        (st.modes.length + prefixes.length < 320 ∧
          st.modebuf.length + prefixes.length * (client.length + 1) < 320) ∧
        st' = give net prefixes client st := by
  induction n generalizing prefixes client st with
  | zero => simp [givePrefixes]
  | succ n ih =>
    cases prefixes with
    | nil => simp [givePrefixes, give, hroom, eq_comm]
    | cons p prefixes =>
      obtain ⟨⟨husers, -, -⟩, hfind', hlength⟩ := setPrefix_found net p hfind hon
      unfold givePrefixes give
      dsimp only
      generalize setPrefix net.t net.cl st.chan p client = h at husers hfind' hlength
      by_cases hp : p = atSign ∨ p = plusSign
      · -- the mode is noted, and the loop goes on behind the prefix
        have hletter : (if p = atSign then
            (note { st with chan := h.chan } 111 (h.argused.getD client)).bind
              (givePrefixes net n prefixes (h.argused.getD client))
          else if p = plusSign then
            (note { st with chan := h.chan } 118 (h.argused.getD client)).bind
              (givePrefixes net n prefixes (h.argused.getD client))
          else givePrefixes net n (p :: prefixes) (h.argused.getD client)
            { st with chan := h.chan }) =
          (note { st with chan := h.chan } (letter p) (h.argused.getD client)).bind
            (givePrefixes net n prefixes (h.argused.getD client)) := by
          unfold letter
          by_cases hat : p = atSign
          · simp [hat]
          · rw [if_neg hat, if_neg hat, if_pos (hp.resolve_left hat)]
        rw [hletter]
        unfold note
        dsimp only
        split
        · rename_i hnoted
          refine (ih hfind' (by simpa [husers] using hon) hnoted).trans ?_
          simp only [List.length_append, List.length_cons, List.length_nil, hlength,
            List.forall_mem_cons, hp, true_and, Nat.succ_lt_succ_iff]
          refine and_congr_right' (and_congr_right' (and_congr_left' ?_))
          rw [Nat.add_mul]
          omega
        · rename_i hfull
          simp only [List.length_append, List.length_cons, List.length_nil, hlength] at hfull
          refine iff_of_false (by simp [Except.bind]) ?_
          rintro ⟨-, -, ⟨hmodes, hmodebuf⟩, -⟩
          rw [List.length_cons, Nat.add_mul] at hmodebuf
          rw [List.length_cons] at hmodes
          omega
      · -- the prefix is not passed: the next round begins where this one did
        obtain ⟨hat, hplus⟩ := not_or.1 hp
        have hrest := @ih (p :: prefixes) _ { st with chan := h.chan } hfind'
          (by rwa [husers]) hroom
        rw [if_neg hat, if_neg hplus, hrest]
        refine iff_of_false ?_ ?_
        · rintro ⟨-, hall, -⟩
          exact hp (hall p List.mem_cons_self)
        · rintro ⟨-, hall, -⟩
          exact hp (hall p List.mem_cons_self)

/-! ### One member -/

theorem splitPrefixes_append (conf : ChannelConf) (member : Bytes) :
    (Channels.splitPrefixes conf member).1 ++ (Channels.splitPrefixes conf member).2 = member := by
  induction member with
  | nil => rfl
  | cons c member ih =>
    unfold Channels.splitPrefixes
    split
    · rfl
    · rw [List.cons_append, ih]

theorem sjoinNamed_eq_some {net : SjoinNet} {member : Bytes} {x : SjoinNamed} :
    sjoinNamed net member = some x ↔
      Channels.splitPrefixes net.conf member = (x.pfx, x.client) ∧
        net.cl.findClient x.client = some x.cp := by
  obtain ⟨pfx, client, cp⟩ := x
  unfold sjoinNamed
  generalize Channels.splitPrefixes net.conf member = split
  obtain ⟨prefixes, name⟩ := split
  dsimp only
  rw [Option.map_eq_some_iff, Prod.mk.injEq]
  constructor
  · rintro ⟨k, hk, heq⟩
    cases heq
    exact ⟨⟨rfl, rfl⟩, hk⟩
  · rintro ⟨⟨rfl, rfl⟩, hk⟩
    exact ⟨cp, hk, rfl⟩

namespace SjoinLoop

/-- A client is put on the channel and on the list that is passed on. -/
def enter (changeok : Bool) (st : SjoinLoop) (x : SjoinNamed) : SjoinLoop :=
  { st with
    chan := st.chan.addUser x.cp
    realjoiners := st.realjoiners ++
      ((if changeok then x.pfx ++ x.client else x.client) ++ [blank]) }

/-- What a member of the list comes to. -/
def place (net : SjoinNet) (changeok : Bool) (st : SjoinLoop) (x : SjoinNamed) : SjoinLoop :=
  if changeok then (give net x.pfx x.client (st.enter changeok x)).flush else st.enter changeok x

theorem length_enter (changeok : Bool) (st : SjoinLoop) (x : SjoinNamed) :
    (st.enter changeok x).realjoiners.length =
      st.realjoiners.length + joinerLength changeok x := by
  unfold enter joinerLength
  cases changeok
  · simp
  · simp [Nat.add_assoc]

theorem flush_chan (st : SjoinLoop) : st.flush.chan = st.chan := by
  unfold flush
  split <;> rfl

theorem flush_realjoiners (st : SjoinLoop) : st.flush.realjoiners = st.realjoiners := by
  unfold flush
  split <;> rfl

theorem given_enter (net : SjoinNet) (st : SjoinLoop) {x : SjoinNamed}
    (hfind : net.cl.findClient x.client = some x.cp) :
    Given net x.pfx x.client x.cp (st.enter true x)
      (give net x.pfx x.client (st.enter true x)) :=
  given_give net hfind (by simp [enter, Chan.addUser])

/-- Where the buffers stand behind a member. -/
theorem length_place (net : SjoinNet) (st : SjoinLoop) {x : SjoinNamed}
    (hfind : net.cl.findClient x.client = some x.cp) :
    let mset := st.modes.length + x.pfx.length
    let mlen := st.modebuf.length + x.pfx.length * (x.client.length + 1)
    if 6 ≤ mset then (st.place net true x).modes = [] ∧ (st.place net true x).modebuf = []
    else (st.place net true x).modes.length = mset ∧
      (st.place net true x).modebuf.length = mlen := by
  intro mset mlen
  have hgiven := given_enter net st hfind
  have hmset : (give net x.pfx x.client (st.enter true x)).modes.length = mset := hgiven.modes
  have hmlen : (give net x.pfx x.client (st.enter true x)).modebuf.length = mlen := hgiven.modebuf
  unfold place
  rw [if_pos rfl]
  unfold flush
  rw [hmset]
  split
  · exact ⟨rfl, rfl⟩
  · exact ⟨hmset, hmlen⟩

theorem realjoiners_place (net : SjoinNet) (changeok : Bool) (st : SjoinLoop) {x : SjoinNamed}
    (hfind : net.cl.findClient x.client = some x.cp) :
    (st.place net changeok x).realjoiners = (st.enter changeok x).realjoiners := by
  unfold place
  cases changeok
  · rfl
  · rw [if_pos rfl, flush_realjoiners]
    exact (given_enter net st hfind).realjoiners

theorem users_place (net : SjoinNet) (changeok : Bool) (st : SjoinLoop) {x : SjoinNamed}
    (hfind : net.cl.findClient x.client = some x.cp) :
    (st.place net changeok x).chan.users = x.cp :: st.chan.users := by
  unfold place
  cases changeok
  · rfl
  · rw [if_pos rfl, flush_chan]
    exact (given_enter net st hfind).users

/-- The new member has the flags of its prefixes, and the others keep theirs. -/
theorem uflags_place (net : SjoinNet) (changeok : Bool) (st : SjoinLoop) {x : SjoinNamed}
    (hfind : net.cl.findClient x.client = some x.cp) (k : ℕ) (m : UInt8) :
    (st.place net changeok x).chan.uflags k m =
      if k = x.cp then changeok && x.pfx.any fun p => decide (net.t.pfxmap p = some m)
      else st.chan.uflags k m := by
  unfold place
  have henter : ∀ ok : Bool, (st.enter ok x).chan.uflags k m =
      if k = x.cp then false else st.chan.uflags k m := by
    intro ok
    by_cases hk : k = x.cp
    · simp [enter, Chan.addUser, hk]
    · simp [enter, Chan.addUser, hk]
  cases changeok
  · simpa using henter false
  · rw [if_pos rfl, flush_chan]
    have hgiven := given_enter net st hfind
    by_cases hk : k = x.cp
    · subst hk
      rw [hgiven.flags, henter]
      simp
    · rw [hgiven.other k hk, henter]
      simp [hk]

end SjoinLoop

/-- One member of the list that is known. -/
theorem sjoinMember_eq_ok {net : SjoinNet} {n : ℕ} {changeok : Bool} {st st' : SjoinLoop}
    {member : Bytes} {x : SjoinNamed} (hx : sjoinNamed net member = some x)
    (hroom : st.modes.length < 320 ∧ st.modebuf.length < 320) :
    sjoinMember net n changeok st member = .ok st' ↔
      st.realjoiners.length + joinerLength changeok x < 512 ∧
        (changeok = true → x.pfx.length < n ∧ (∀ p ∈ x.pfx, p = atSign ∨ p = plusSign) ∧
          st.modes.length + x.pfx.length < 320 ∧
          st.modebuf.length + x.pfx.length * (x.client.length + 1) < 320) ∧
        st' = st.place net changeok x := by
  obtain ⟨hsplit, hfind⟩ := sjoinNamed_eq_some.1 hx
  have hmember : x.pfx ++ x.client = member := by
    have happend := splitPrefixes_append net.conf member
    rwa [hsplit] at happend
  have henter : sjoinMember net n changeok st member =
      if (st.enter changeok x).realjoiners.length < 512 then
        if changeok then
          (givePrefixes net n x.pfx x.client (st.enter changeok x)).map SjoinLoop.flush
        else .ok (st.enter changeok x)
      else .error .overflow := by
    unfold sjoinMember enter
    rw [hsplit]
    dsimp only
    rw [hfind]
    cases changeok
    · rfl
    · rw [hmember]
  rw [henter, length_enter]
  split
  · rename_i hjoiners
    rw [and_iff_right hjoiners]
    unfold place
    cases changeok with
    | false => simp [eq_comm]
    | true =>
      have hgive := fun st' => @givePrefixes_eq_ok net n x.pfx x.client x.cp
        (st.enter true x) st' hfind (by simp [enter, Chan.addUser]) hroom
      simp only [if_true, forall_const]
      constructor
      · intro h
        cases hgiven : givePrefixes net n x.pfx x.client (st.enter true x) with
        | error e =>
          rw [hgiven] at h
          cases h
        | ok st'' =>
          rw [hgiven] at h
          cases h
          obtain ⟨hn, hall, hfits, rfl⟩ := (hgive st'').1 hgiven
          exact ⟨⟨hn, hall, hfits⟩, rfl⟩
      · rintro ⟨⟨hn, hall, hfits⟩, rfl⟩
        rw [(hgive _).2 ⟨hn, hall, hfits, rfl⟩]
        rfl
  · rename_i hjoiners
    exact iff_of_false (by simp) fun h => hjoiners h.1

/-! ### The loop over the members -/

theorem sjoinMember_none {net : SjoinNet} {n : ℕ} {changeok : Bool} {st : SjoinLoop}
    {member : Bytes} (hx : sjoinNamed net member = none) :
    sjoinMember net n changeok st member = .ok st := by
  unfold sjoinNamed at hx
  rw [Option.map_eq_none_iff] at hx
  unfold sjoinMember
  dsimp only
  rw [hx]

/-- The loop comes to an end just if every known member has prefixes it gets past and all buffers
have room; then every known member has been placed. -/
theorem sjoinLoop_eq_ok (net : SjoinNet) {n : ℕ} {changeok : Bool} {members : List Bytes}
    {st st' : SjoinLoop} (hroom : st.modes.length < 320 ∧ st.modebuf.length < 320)
    (hjoiners : st.realjoiners.length < 512) :
    members.foldlM (sjoinMember net n changeok) st = .ok st' ↔
      st.realjoiners.length +
          ((members.filterMap (sjoinNamed net)).map (joinerLength changeok)).sum < 512 ∧
        (changeok = true →
          gathers st.modes.length st.modebuf.length (members.filterMap (sjoinNamed net)) ∧
          ∀ x ∈ members.filterMap (sjoinNamed net),
            x.pfx.length < n ∧ ∀ p ∈ x.pfx, p = atSign ∨ p = plusSign) ∧
        st' = (members.filterMap (sjoinNamed net)).foldl (place net changeok) st := by
  induction members generalizing st with
  | nil => simp [gathers, hjoiners, pure, Except.pure, eq_comm]
  | cons member members ih =>
    rw [List.foldlM_cons, List.filterMap_cons]
    cases hx : sjoinNamed net member with
    | none =>
      rw [sjoinMember_none hx]
      exact ih hroom hjoiners
    | some x =>
      dsimp only
      have hmember := fun s => @sjoinMember_eq_ok net n changeok st s member x hx hroom
      have hfind := (sjoinNamed_eq_some.1 hx).2
      have hlength : (st.place net changeok x).realjoiners.length =
          st.realjoiners.length + joinerLength changeok x := by
        rw [realjoiners_place net changeok st hfind, length_enter]
      rw [List.map_cons, List.sum_cons, List.foldl_cons]
      -- what the member needs, and where the buffers stand behind it
      have hstep : ∀ hfits : changeok = true → st.modes.length + x.pfx.length < 320 ∧
            st.modebuf.length + x.pfx.length * (x.client.length + 1) < 320,
          ((st.place net changeok x).modes.length < 320 ∧
            (st.place net changeok x).modebuf.length < 320) ∧
          (changeok = true → ∀ l,
            (gathers (st.place net changeok x).modes.length
                (st.place net changeok x).modebuf.length l ↔
              if 6 ≤ st.modes.length + x.pfx.length then gathers 0 0 l
              else gathers (st.modes.length + x.pfx.length)
                (st.modebuf.length + x.pfx.length * (x.client.length + 1)) l)) := by
        intro hfits
        cases changeok with
        | false => exact ⟨hroom, fun h => by cases h⟩
        | true =>
          have hplace := length_place net st hfind
          dsimp only at hplace
          split at hplace
          · rename_i hsix
            rw [hplace.1, hplace.2]
            refine ⟨by simp, fun _ l => ?_⟩
            rw [if_pos hsix]
            rfl
          · rename_i hsix
            rw [hplace.1, hplace.2]
            refine ⟨hfits rfl, fun _ l => ?_⟩
            rw [if_neg hsix]
      constructor
      · intro h
        cases hdone : sjoinMember net n changeok st member with
        | error e =>
          rw [hdone] at h
          cases h
        | ok s =>
          rw [hdone] at h
          obtain ⟨hjoin, hprefixes, rfl⟩ := (hmember s).1 hdone
          obtain ⟨hroom', hgathers⟩ := hstep fun hok => (hprefixes hok).2.2
          obtain ⟨hsum, hrest, rfl⟩ := (ih hroom' (by omega)).1 h
          refine ⟨by omega, fun hok => ?_, rfl⟩
          obtain ⟨hn, hall, hfits⟩ := hprefixes hok
          obtain ⟨hgather, hothers⟩ := hrest hok
          refine ⟨⟨hfits, (hgathers hok _).1 hgather⟩, ?_⟩
          exact List.forall_mem_cons.2 ⟨⟨hn, hall⟩, hothers⟩
      · rintro ⟨hsum, hrest, rfl⟩
        have hprefixes : changeok = true → x.pfx.length < n ∧
            (∀ p ∈ x.pfx, p = atSign ∨ p = plusSign) ∧ st.modes.length + x.pfx.length < 320 ∧
            st.modebuf.length + x.pfx.length * (x.client.length + 1) < 320 := by
          intro hok
          obtain ⟨hgather, hall⟩ := hrest hok
          exact ⟨(hall x List.mem_cons_self).1, (hall x List.mem_cons_self).2, hgather.1⟩
        obtain ⟨hroom', hgathers⟩ := hstep fun hok => (hprefixes hok).2.2
        rw [(hmember _).2 ⟨by omega, hprefixes, rfl⟩]
        refine (ih hroom' (by omega)).2 ⟨by omega, fun hok => ?_, rfl⟩
        obtain ⟨hgather, hall⟩ := hrest hok
        exact ⟨(hgathers hok _).2 hgather.2, fun y hy => hall y (List.mem_cons_of_mem x hy)⟩

/-- The membership of clients in channels changes as `Channels.sjoinLoop` has it: everyone who has
been placed is added. -/
theorem sjoinLoop_of_eq_ok (net : SjoinNet) {n : ℕ} {changeok : Bool} {members : List Bytes}
    {st st' : SjoinLoop} (c : ℕ) (s : Channels)
    (hfind : ∀ nick, s.findClient net.conf nick = net.cl.findClient nick)
    (hroom : st.modes.length < 320 ∧ st.modebuf.length < 320)
    (hjoiners : st.realjoiners.length < 512)
    (h : members.foldlM (sjoinMember net n changeok) st = .ok st') :
    Channels.sjoinLoop net.conf changeok c s members =
      some ((members.filterMap (sjoinNamed net)).foldl (fun s x => s.addToChannel x.cp c) s) := by
  obtain ⟨-, hprefixes, -⟩ := (sjoinLoop_eq_ok net hroom hjoiners).1 h
  have hpass : changeok = true → ∀ x ∈ members.filterMap (sjoinNamed net),
      ∀ p ∈ x.pfx, p = atSign ∨ p = plusSign :=
    fun hok x hx => ((hprefixes hok).2 x hx).2
  clear h hprefixes
  induction members generalizing s with
  | nil => rfl
  | cons member members ih =>
    unfold Channels.sjoinLoop
    rw [List.filterMap_cons] at hpass ⊢
    cases hx : sjoinNamed net member with
    | none =>
      rw [hx] at hpass
      have hnone : s.findClient net.conf (Channels.splitPrefixes net.conf member).2 = none := by
        rw [hfind]
        simpa [sjoinNamed] using hx
      dsimp only
      rw [hnone]
      exact ih s hfind hpass
    | some x =>
      rw [hx] at hpass
      obtain ⟨hsplit, hknown⟩ := sjoinNamed_eq_some.1 hx
      rw [hsplit]
      dsimp only
      rw [hfind, hknown]
      dsimp only
      rw [if_neg, List.foldl_cons]
      · exact ih (s.addToChannel x.cp c) hfind fun hok y hy =>
          hpass hok y (List.mem_cons_of_mem x hy)
      · rintro ⟨hok, hall⟩
        refine hall (List.all_eq_true.2 fun p hp => ?_)
        rcases hpass hok x List.mem_cons_self p hp with rfl | rfl <;> rfl

/-! ### The members placed -/

section
variable {net : SjoinNet} {changeok : Bool} {named : List SjoinNamed} {st : SjoinLoop}

theorem users_foldl (hfind : ∀ x ∈ named, net.cl.findClient x.client = some x.cp) :
    (named.foldl (place net changeok) st).chan.users =
      (named.map SjoinNamed.cp).reverse ++ st.chan.users := by
  induction named generalizing st with
  | nil => rfl
  | cons x named ih =>
    obtain ⟨hx, hfind⟩ := List.forall_mem_cons.1 hfind
    rw [List.foldl_cons, ih hfind, users_place net changeok st hx]
    simp

theorem uflags_foldl_of_notMem (hfind : ∀ x ∈ named, net.cl.findClient x.client = some x.cp)
    {k : ℕ} (hk : k ∉ named.map SjoinNamed.cp) (m : UInt8) :
    (named.foldl (place net changeok) st).chan.uflags k m = st.chan.uflags k m := by
  induction named generalizing st with
  | nil => rfl
  | cons x named ih =>
    obtain ⟨hx, hfind⟩ := List.forall_mem_cons.1 hfind
    obtain ⟨hne, hk⟩ := List.ne_and_not_mem_of_not_mem_cons hk
    rw [List.foldl_cons, ih hfind hk, uflags_place net changeok st hx, if_neg hne]

/-- Whoever is named once has the flags of its prefixes. -/
theorem uflags_foldl (hfind : ∀ x ∈ named, net.cl.findClient x.client = some x.cp)
    (honce : (named.map SjoinNamed.cp).Nodup) {x : SjoinNamed} (hx : x ∈ named) (m : UInt8) :
    (named.foldl (place net changeok) st).chan.uflags x.cp m =
      (changeok && x.pfx.any fun p => decide (net.t.pfxmap p = some m)) := by
  induction named generalizing st with
  | nil => cases hx
  | cons y named ih =>
    obtain ⟨hy, hrest⟩ := List.forall_mem_cons.1 hfind
    obtain ⟨hnew, honce'⟩ := List.nodup_cons.1 honce
    rw [List.foldl_cons]
    rcases List.mem_cons.1 hx with rfl | hx
    · rw [uflags_foldl_of_notMem hrest hnew, uflags_place net changeok st hy, if_pos rfl]
    · exact ih hrest honce' hx

end

/-! ### The command -/

theorem named_found (net : SjoinNet) (line : SjoinLine) :
    ∀ x ∈ line.named net, net.cl.findClient x.client = some x.cp := by
  intro x hx
  obtain ⟨member, -, hmember⟩ := List.mem_filterMap.1 hx
  exact (sjoinNamed_eq_some.1 hmember).2

/-- So many rounds are enough for the prefixes of every member. -/
theorem exists_rounds (named : List SjoinNamed) : ∃ n, ∀ x ∈ named, x.pfx.length < n := by
  induction named with
  | nil => exact ⟨0, by simp⟩
  | cons x named ih =>
    obtain ⟨n, hn⟩ := ih
    refine ⟨max n (x.pfx.length + 1), List.forall_mem_cons.2 ⟨by omega, fun y hy => ?_⟩⟩
    have hy := hn y hy
    omega

/-- When the command comes to the end of its list, and what the channel has then. -/
theorem serverSjoin_eq_ok (net : SjoinNet) (supportsTs master : Bool) (found : Option Chan)
    (line : SjoinLine) (n : ℕ) (st : SjoinLoop) :
    serverSjoin net n supportsTs master found line = .ok st ↔
      ∃ change, channelMode net.t net.cl (.uplink supportsTs true master)
          (found.getD (.new line.ts)) line.ts (line.modes :: line.args) = some change ∧
        ((line.named net).map
          (joinerLength (line.ts ≤ (found.getD (.new line.ts)).created))).sum < 512 ∧
        (line.ts ≤ (found.getD (.new line.ts)).created →
          gathers 0 0 (line.named net) ∧ ∀ x ∈ line.named net,
            x.pfx.length < n ∧ ∀ p ∈ x.pfx, p = atSign ∨ p = plusSign) ∧
        st = (line.named net).foldl
          (place net (line.ts ≤ (found.getD (.new line.ts)).created))
          ⟨change.chan, [], [], [], []⟩ := by
  unfold serverSjoin
  dsimp only
  cases hmode : channelMode net.t net.cl (.uplink supportsTs true master)
      (found.getD (.new line.ts)) line.ts (line.modes :: line.args) with
  | none => simp
  | some change =>
    dsimp only
    rw [sjoinLoop_eq_ok net (by simp) (by simp)]
    simp [SjoinLine.named]

/-- The command comes to an end, and the channel gains just those who join, with their prefixes,
exactly if the line meets its conditions. -/
theorem serverSjoin_iff (net : SjoinNet) (through : ℕ → Prop) (supportsTs master : Bool)
    (found : Option Chan) (line : SjoinLine) :
    (∃ n st, serverSjoin net n supportsTs master found line = .ok st ∧
      AppliesList net through (found.getD (.new line.ts)) line st.chan) ↔
    SjoinOk net through supportsTs master (found.getD (.new line.ts)) line := by
  simp only [serverSjoin_eq_ok]
  generalize found.getD (.new line.ts) = chan
  have hfind := named_found net line
  constructor
  · rintro ⟨n, st, ⟨change, hmode, hjoiners, hprefixes, rfl⟩, happlies⟩
    have husers := channelMode_users hmode
    have hcount : ∀ k, ((line.named net).map SjoinNamed.cp).count k + chan.users.count k =
        ((line.named net).foldl (place net (line.ts ≤ chan.created))
          ⟨change.chan, [], [], [], []⟩).chan.users.count k := by
      intro k
      rw [users_foldl hfind, List.count_append, List.count_reverse, ← husers]
    have hmem : ∀ x ∈ line.named net, 0 < ((line.named net).map SjoinNamed.cp).count x.cp :=
      fun x hx => List.count_pos_iff.2 (List.mem_map_of_mem hx)
    refine ⟨by rw [hmode]; rfl, hjoiners, fun hok => (hprefixes hok).1,
      fun hok x hx => ((hprefixes hok).2 x hx).2, fun x hx => ?_, ?_⟩
    · by_contra hnot
      have hother := happlies.others x.cp fun hjoin => hnot hjoin.2
      have hadded := hcount x.cp
      have hpos := hmem x hx
      omega
    · rw [List.nodup_iff_count_le_one]
      intro k
      have hadded := hcount k
      by_cases hjoin : line.Joins net through chan k
      · have hgained := happlies.gained k hjoin
        omega
      · have hother := happlies.others k hjoin
        omega
  · intro hok
    obtain ⟨change, hmode⟩ := Option.isSome_iff_exists.1 hok.modes
    obtain ⟨n, hn⟩ := exists_rounds (line.named net)
    refine ⟨n, _, ⟨change, hmode, hok.joiners, fun hts => ⟨hok.gathered hts, fun x hx =>
      ⟨hn x hx, hok.prefixes hts x hx⟩⟩, rfl⟩, ?_⟩
    have husers := channelMode_users hmode
    have hjoins : ∀ k, line.Joins net through chan k ↔ k ∈ (line.named net).map SjoinNamed.cp := by
      intro k
      constructor
      · rintro ⟨⟨x, hx, rfl⟩, -⟩
        exact List.mem_map_of_mem hx
      · intro hk
        obtain ⟨x, hx, rfl⟩ := List.mem_map.1 hk
        exact ⟨⟨x, hx, rfl⟩, hok.joins x hx⟩
    constructor
    · intro k hk
      rw [users_foldl hfind, List.count_append, List.count_reverse, husers,
        List.nodup_iff_count_eq_one.1 hok.once k ((hjoins k).1 hk), Nat.add_comm]
    · intro k hk
      rw [users_foldl hfind, List.count_append, List.count_reverse, husers,
        List.count_eq_zero.2 fun hmem => hk ((hjoins k).2 hmem), Nat.zero_add]
    · intro k hk m
      obtain ⟨⟨x, hx, rfl⟩, -⟩ := hk
      rw [uflags_foldl hfind hok.once hx]
      simp only [Bool.and_eq_true, decide_eq_true_eq, List.any_eq_true]
      refine and_congr_right' ⟨fun ⟨p, hp, hm⟩ => ⟨x, hx, rfl, p, hp, hm⟩, ?_⟩
      rintro ⟨y, hy, hsame, p, hp, hm⟩
      have hxy : y = x := List.inj_on_of_nodup_map hok.once hy hx hsame
      exact ⟨p, hxy ▸ hp, hm⟩

/-- A network of one client with the nick `a`, and nicks of small letters. -/
def sjoinOne : SjoinNet where
  conf :=
    { chanlen := CHANLEN
      sameChan := sameCase
      sameNick := sameCase
      nickMap := fun c => 97 ≤ c && c ≤ 122
      channame := fun _ => true
      myClient := fun _ => false
      maxChannels := fun _ => 0 }
  t := coreModes
  cl := oneClient
  length_nick := by
    intro s c h
    have hs : s = bytes "a" := by
      by_contra hne
      simp [oneClient, hne] at h
    rw [hs]
    rfl

/-- `"SJOIN 0 #a + :%a"`: the loop stays at the prefix. -/
theorem serverSjoin_fails :
    ¬ ∀ (net : SjoinNet) (through : ℕ → Prop) (supportsTs master : Bool) (found : Option Chan)
      (line : SjoinLine), ∃ n st, serverSjoin net n supportsTs master found line = .ok st ∧
        AppliesList net through (found.getD (.new line.ts)) line st.chan := by
  intro h
  obtain ⟨n, st, hdone, -⟩ :=
    h sjoinOne (fun _ => True) true false none ⟨0, bytes "+", [], bytes "%a"⟩
  obtain ⟨-, -, -, hprefixes, -⟩ := (serverSjoin_eq_ok _ _ _ _ _ _ _).1 hdone
  have hnamed : SjoinNamed.mk (bytes "%") (bytes "a") 0 ∈
      SjoinLine.named sjoinOne ⟨0, bytes "+", [], bytes "%a"⟩ := by
    have heq : SjoinLine.named sjoinOne ⟨0, bytes "+", [], bytes "%a"⟩ =
        [⟨bytes "%", bytes "a", 0⟩] := rfl
    rw [heq]
    exact List.mem_singleton_self _
  have hpfx := ((hprefixes (Int.le_refl 0)).2 _ hnamed).2 37 (by decide)
  exact absurd hpfx (by decide)

end Ithildin
