import Ithildin.Lib.Firsts
import Ithildin.Server.Linkage
import Mathlib.Tactic.Common

/-!
# Messages to many

`sendto_serv_butone`, `sendto_channel_local`, `sendto_channel_remote`, `sendto_channel_butone` and
`sendto_common_channels`, with the temporaries they share: a mark for each descriptor, and for each
protocol the block that is to be sent again.

* `Fan`: the servers, clients, channels and protocols, and the descriptors of the connections in
  use;
* `cliUplink_eq_some_iff`: `cli_uplink` is the connection that leads to a client;
* `queueAll_out`, `queueOnce_out`: what a walk with and without marks queues;
* `once_iff`: every function sends just once, but for `sendto_common_channels` on a client of ours
  that has neither a connection nor a channel.
-/

namespace Ithildin

namespace Net

variable (net : Net)

/-- `srv_uplink`. -/
def srvUplink (s : ℕ) : Option ℕ := (net.srvServerUplink s).bind fun d => (net.srv d).conn

/-- `cli_uplink`. -/
def cliUplink (c : ℕ) : Option ℕ :=
  if net.myClient c then (net.cli c).conn else net.srvUplink (net.cli c).server

/-- A connection in use by a client or a server on the lists. -/
def Open (x : ℕ) : Prop :=
  (∃ c ∈ net.clients, (net.cli c).conn = some x) ∨ ∃ s ∈ net.servers, (net.srv s).conn = some x

/-- The connection is the client's own, or that of the direct link the client's server is behind. -/
def Leads (x c : ℕ) : Prop :=
  if net.myClient c then (net.cli c).conn = some x
  else ∃ d ∈ net.servers, net.parent d = some net.me ∧
    Forest.Below net.parent d (net.cli c).server ∧ (net.srv d).conn = some x

variable {net}

/-- The loop of `srv_server_uplink` climbs to the direct link. -/
theorem uplinkFrom_spec {l : List ℕ} (h : Forest.Ordered net.parent net.me l) {n s : ℕ}
    (hn : l.length ≤ n) (hs : s ∈ l) :
    net.uplinkFrom n s ∈ l ∧ net.parent (net.uplinkFrom n s) = some net.me ∧
      Forest.Below net.parent (net.uplinkFrom n s) s := by
  induction l generalizing n s with
  | nil => cases hs
  | cons t l ih =>
    cases n with
    | zero => cases hn
    | succ n =>
      have hlength : l.length ≤ n := Nat.le_of_succ_le_succ hn
      obtain ⟨-, -, ⟨p, hp, hmem⟩, hrest⟩ := h
      rcases List.mem_cons.mp hs with rfl | hs
      · rw [uplinkFrom, show (net.srv s).parent = some p from hp]
        dsimp only
        split
        · rename_i hme
          exact ⟨List.mem_cons_self, hme ▸ hp, .refl⟩
        · rename_i hme
          obtain ⟨hin, hparent, hbelow⟩ := ih hrest hlength (hmem.resolve_left hme)
          exact ⟨List.mem_cons_of_mem s hin, hparent, .step hp hbelow⟩
      · obtain ⟨hin, hparent, hbelow⟩ := ih hrest (Nat.le_succ_of_le hlength) hs
        exact ⟨List.mem_cons_of_mem t hin, hparent, hbelow⟩

/-- `cli_uplink` finds the connection that leads to a client. -/
theorem cliUplink_eq_some_iff (h : net.Ordered) {c x : ℕ} (hc : c ∈ net.clients) :
    net.cliUplink c = some x ↔ net.Leads x c := by
  rw [cliUplink, Leads]
  by_cases hmine : net.myClient c = true
  · rw [if_pos hmine, if_pos hmine]
  · rw [if_neg hmine, if_neg hmine]
    have hne : (net.cli c).server ≠ net.me := fun heq => hmine (beq_iff_eq.mpr heq)
    have hserver : (net.cli c).server ∈ net.servers := (h.clients c hc).resolve_left hne
    obtain ⟨hin, hparent, hbelow⟩ := uplinkFrom_spec h.order (le_refl _) hserver
    rw [srvUplink, srvServerUplink, if_neg hne, Option.bind_some]
    constructor
    · intro hconn
      exact ⟨_, hin, hparent, hbelow, hconn⟩
    · rintro ⟨d, -, hd, hdb, hconn⟩
      rwa [hbelow.child_unique h.me_parent hparent hd hdb]

theorem open_of_leads {c x : ℕ} (hc : c ∈ net.clients) (h : net.Leads x c) : net.Open x := by
  rw [Leads] at h
  split at h
  · exact .inl ⟨c, hc, h⟩
  · obtain ⟨d, hd, -, -, hconn⟩ := h
    exact .inr ⟨d, hd, hconn⟩

end Net

/-- `CACHE_MSG`: the `!` binds to the flags, and a truth value has no bit 56. -/
def cacheMsg (flags : UInt64) : Bool :=
  (if flags = 0 then (1 : UInt64) else 0) &&& 0x0100000000000000 != 0

/-- What the functions read: the servers and clients, the users of each channel and the channels of
each client, the descriptor and the protocol of each connection, and the protocols with their
flags. -/
structure Fan where
  net : Net
  users : ℕ → List ℕ
  chans : ℕ → List ℕ
  fd : ℕ → ℕ
  maxsockets : ℕ
  proto : ℕ → ℕ
  protocols : List ℕ
  flags : ℕ → UInt64
  linked : net.Linked
  users_mem : ∀ ch, ∀ c ∈ users ch, c ∈ net.clients
  users_nodup : ∀ ch, (users ch).Nodup
  fd_lt : ∀ x, net.Open x → fd x < maxsockets
  fd_inj : ∀ x y, net.Open x → net.Open y → fd x = fd y → x = y

/-- The temporaries: `ircd.sends`, and whether `tmpmsg` of a protocol is set. -/
structure SendTemps where
  sends : ℕ → Bool
  tmpmsg : ℕ → Bool

def SendTemps.clear : SendTemps := { sends := fun _ => false, tmpmsg := fun _ => false }

/-- A function at work: the temporaries, the message last written by a protocol, and the messages
pushed so far with their connections. -/
structure FanState where
  temps : SendTemps
  sm : Option Bytes
  out : List (ℕ × Option Bytes)

/-- The functions, with what they are given. -/
inductive FanCall
  /-- `sendto_serv_butone`, to all but the server -/
  | servButone (one : Option ℕ)
  | channelLocal (ch : ℕ)
  | channelRemote (ch : ℕ)
  /-- `sendto_channel_butone`, to all but the client -/
  | channelButone (ch : ℕ) (one : Option ℕ)
  | commonChannels (cli : ℕ)

namespace Fan

variable (w : Fan) (output : ℕ → Bytes)

/-- `CLEAR_SEND_TEMPS`. -/
def clearSendTemps (t : SendTemps) : SendTemps :=
  { sends := fun n => if n < w.maxsockets then false else t.sends n
    tmpmsg := fun p => if p ∈ w.protocols then false else t.tmpmsg p }

/-- The message is written by the protocol of the connection unless it has a block, and pushed. -/
def queue (st : FanState) (x : ℕ) : FanState :=
  let p := w.proto x
  let sm := if st.temps.tmpmsg p then st.sm else some (output p)
  { temps := if cacheMsg (w.flags p) then
      { st.temps with tmpmsg := Function.update st.temps.tmpmsg p true } else st.temps
    sm := sm
    out := st.out ++ [(x, sm)] }

/-- The descriptor of a connection is marked. -/
def mark (st : FanState) (x : ℕ) : FanState :=
  { st with temps.sends := Function.update st.temps.sends (w.fd x) true }

/-- The same for a connection whose descriptor is not marked. -/
def queueOnce (st : FanState) (x : ℕ) : FanState :=
  if st.temps.sends (w.fd x) then st else w.queue output (w.mark st x) x

/-- The users of a channel that are reached in the given way. -/
def reached (route : ℕ → Option ℕ) (ch : ℕ) : List ℕ := (w.users ch).filterMap route

def localConn (c : ℕ) : Option ℕ := if w.net.myClient c then w.net.cliUplink c else none

def remoteConn (c : ℕ) : Option ℕ := if w.net.myClient c then none else w.net.cliUplink c

/-- The connection of a client unless it is the one to be left out. -/
def connButone (onec : Option ℕ) (c : ℕ) : Option ℕ :=
  (w.net.cliUplink c).filter fun x => some x != onec

def sendtoServButone (one : Option ℕ) (st : FanState) : FanState :=
  let ones := one.bind w.net.srvUplink
  (w.net.serverConns.filter fun x => some x != ones).foldl (w.queue output) st

def sendtoChannelLocal (ch : ℕ) (st : FanState) : FanState :=
  (w.reached w.localConn ch).foldl (w.queue output) st

def sendtoChannelRemote (ch : ℕ) (st : FanState) : FanState :=
  (w.reached w.remoteConn ch).foldl (w.queueOnce output) st

def sendtoChannelButone (ch : ℕ) (one : Option ℕ) (st : FanState) : FanState :=
  (w.reached (w.connButone (one.bind w.net.cliUplink)) ch).foldl (w.queueOnce output) st

/-- A client of ours in no channel is sent the message itself, and its connection is looked at. -/
def sendtoCommonChannels (cli : ℕ) (st : FanState) : Option FanState :=
  if w.chans cli = [] then
    if w.net.myClient cli then
      match (w.net.cli cli).conn with
      | none => none
      | some x =>
        some (if st.temps.sends (w.fd x) then st
          else { st with out := st.out ++ [(x, some (output (w.proto x)))] })
    else some st
  else
    some ((w.chans cli).foldl
      (fun st ch => (w.reached w.localConn ch).foldl (w.queueOnce output) st) st)

/-- A call, up to the clearing of the temporaries. -/
def walk : FanCall → FanState → Option FanState
  | .servButone one, st => some (w.sendtoServButone output one st)
  | .channelLocal ch, st => some (w.sendtoChannelLocal output ch st)
  | .channelRemote ch, st => some (w.sendtoChannelRemote output ch st)
  | .channelButone ch one, st => some (w.sendtoChannelButone output ch one st)
  | .commonChannels cli, st => w.sendtoCommonChannels output cli st

/-- A whole call; nothing comes of it where a null pointer is followed. -/
def send (call : FanCall) (t : SendTemps) : Option (SendTemps × List (ℕ × Option Bytes)) :=
  (w.walk output call { temps := t, sm := none, out := [] }).map fun st =>
    (w.clearSendTemps st.temps, st.out)

/-- The connections that lead to the recipients of a call. -/
def Named : FanCall → ℕ → Prop
  | .servButone one, x => x ∈ w.net.serverConns ∧ one.bind w.net.srvUplink ≠ some x
  | .channelLocal ch, x => ∃ c ∈ w.users ch, w.net.myClient c ∧ w.net.Leads x c
  | .channelRemote ch, x => ∃ c ∈ w.users ch, ¬ w.net.myClient c ∧ w.net.Leads x c
  | .channelButone ch one, x =>
    (∃ c ∈ w.users ch, w.net.Leads x c) ∧ one.bind w.net.cliUplink ≠ some x
  | .commonChannels cli, x =>
    (∃ ch ∈ w.chans cli, ∃ c ∈ w.users ch, w.net.myClient c ∧ w.net.Leads x c) ∨
      (w.chans cli = [] ∧ w.net.myClient cli ∧ w.net.Leads x cli)

/-- One message is queued on each of these connections, written by its own protocol, and none on
any other, and the temporaries are clear. -/
def Once (call : FanCall) : Prop :=
  ∃ out, w.send output call .clear = some (.clear, out) ∧
    ∀ x, (w.Named call x → out.filter (·.1 == x) = [(x, some (output (w.proto x)))]) ∧
      (¬ w.Named call x → out.filter (·.1 == x) = [])

/-- The message a connection is to get. -/
def message (x : ℕ) : ℕ × Option Bytes := (x, some (output (w.proto x)))

section
variable {w output} {st : FanState} {l : List ℕ} {x : ℕ}

/-- No block is ever kept for the other connections of a protocol. -/
theorem cacheMsg_eq_false (flags : UInt64) : cacheMsg flags = false := by
  rw [cacheMsg]
  split <;> rfl

/-! ### The walks -/

theorem queue_eq (ht : ∀ p, st.temps.tmpmsg p = false) :
    w.queue output st x = { st with
      sm := some (output (w.proto x)), out := st.out ++ [w.message output x] } := by
  simp only [queue, cacheMsg_eq_false, ht, Bool.false_eq_true, if_false, message]

theorem queueAll_out (ht : ∀ p, st.temps.tmpmsg p = false) :
    (l.foldl (w.queue output) st).out = st.out ++ l.map (w.message output) ∧
      (l.foldl (w.queue output) st).temps = st.temps := by
  induction l generalizing st with
  | nil => exact ⟨(List.append_nil _).symm, rfl⟩
  | cons x l ih =>
    rw [List.foldl_cons, queue_eq ht]
    obtain ⟨hout, htemps⟩ := @ih { st with
      sm := some (output (w.proto x)), out := st.out ++ [w.message output x] } ht
    refine ⟨hout.trans ?_, htemps⟩
    rw [List.map_cons, List.append_assoc, List.singleton_append]

theorem queueOnce_out (ht : ∀ p, st.temps.tmpmsg p = false) :
    (l.foldl (w.queueOnce output) st).out =
        st.out ++ (Firsts.firsts w.fd st.temps.sends l).map (w.message output) ∧
      (∀ p, (l.foldl (w.queueOnce output) st).temps.tmpmsg p = false) ∧
      (l.foldl (w.queueOnce output) st).temps.sends = Firsts.marks w.fd st.temps.sends l := by
  induction l generalizing st with
  | nil => exact ⟨(List.append_nil _).symm, ht, rfl⟩
  | cons x l ih =>
    rw [List.foldl_cons, queueOnce, Firsts.firsts_cons, Firsts.marks_cons]
    split
    · exact ih ht
    · have hmarked : ∀ p, (w.mark st x).temps.tmpmsg p = false := ht
      rw [queue_eq hmarked]
      obtain ⟨hout, hrest⟩ := @ih { w.mark st x with
        sm := some (output (w.proto x)), out := st.out ++ [w.message output x] } ht
      refine ⟨hout.trans ?_, hrest⟩
      rw [List.map_cons, List.append_assoc, List.singleton_append]
      rfl

/-- What is queued on one connection. -/
theorem filter_message (l : List ℕ) (x : ℕ) :
    (l.map (w.message output)).filter (·.1 == x) =
      (l.filter (· == x)).map (w.message output) := by
  rw [List.filter_map]
  rfl

/-- Nothing is marked that is not cleared. -/
theorem clearSendTemps_eq {t : SendTemps} (ht : ∀ p, t.tmpmsg p = false)
    (hs : ∀ n, t.sends n = true → n < w.maxsockets) : w.clearSendTemps t = .clear := by
  have hsends : ∀ n, (if n < w.maxsockets then false else t.sends n) = false := by
    intro n
    split
    · rfl
    · rename_i hn
      exact Bool.eq_false_iff.mpr fun htrue => hn (hs n htrue)
  have htmpmsg : ∀ p, (if p ∈ w.protocols then false else t.tmpmsg p) = false := by
    intro p
    split
    · rfl
    · exact ht p
  rw [clearSendTemps, SendTemps.clear, funext hsends, funext htmpmsg]

/-- A walk without marks over connections that occur once. -/
theorem once_of_queueAll {call : FanCall} (hl : l.Nodup) (hnamed : ∀ x, x ∈ l ↔ w.Named call x)
    (hwalk : ∀ st, w.walk output call st = some (l.foldl (w.queue output) st)) :
    w.Once output call := by
  have ht : ∀ p, SendTemps.clear.tmpmsg p = false := fun _ => rfl
  obtain ⟨hout, htemps⟩ := @queueAll_out w output { temps := .clear, sm := none, out := [] } l ht
  refine ⟨l.map (w.message output), ?_, fun x => ⟨fun hx => ?_, fun hx => ?_⟩⟩
  · rw [send, hwalk, Option.map_some, hout, htemps, clearSendTemps_eq ht fun n hn => by cases hn]
    rfl
  · rw [filter_message, Firsts.filter_of_nodup hl ((hnamed x).mpr hx)]
    rfl
  · rw [filter_message, Firsts.filter_of_notMem fun hin => hx ((hnamed x).mp hin)]
    rfl

/-- A walk with marks over connections in use. -/
theorem once_of_queueOnce {call : FanCall} (hopen : ∀ x ∈ l, w.net.Open x)
    (hnamed : ∀ x, x ∈ l ↔ w.Named call x)
    (hwalk : ∀ st, w.walk output call st = some (l.foldl (w.queueOnce output) st)) :
    w.Once output call := by
  have ht : ∀ p, SendTemps.clear.tmpmsg p = false := fun _ => rfl
  obtain ⟨hout, htmpmsg, hsends⟩ :=
    @queueOnce_out w output { temps := .clear, sm := none, out := [] } l ht
  have hmarked : ∀ n, Firsts.marks w.fd SendTemps.clear.sends l n = true → n < w.maxsockets := by
    intro n hn
    rcases Firsts.marks_eq_true_iff.mp hn with hn | ⟨x, hx, rfl⟩
    · cases hn
    · exact w.fd_lt x (hopen x hx)
  refine ⟨(Firsts.firsts w.fd SendTemps.clear.sends l).map (w.message output), ?_,
    fun x => ⟨fun hx => ?_, fun hx => ?_⟩⟩
  · rw [send, hwalk, Option.map_some, hout, clearSendTemps_eq htmpmsg (by rwa [hsends])]
    rfl
  · have hmem : x ∈ l := (hnamed x).mpr hx
    have hinj : ∀ y ∈ l, w.fd y = w.fd x → y = x := fun y hy =>
      w.fd_inj y x (hopen y hy) (hopen x hmem)
    rw [filter_message, Firsts.filter_firsts hinj hmem rfl]
    rfl
  · rw [filter_message,
      Firsts.filter_of_notMem fun hin => hx ((hnamed x).mp (Firsts.mem_firsts hin).1)]
    rfl

/-! ### The connections of each call -/

theorem leads_iff {ch c : ℕ} (hc : c ∈ w.users ch) :
    w.net.cliUplink c = some x ↔ w.net.Leads x c :=
  Net.cliUplink_eq_some_iff w.linked.grown.ordered (w.users_mem ch c hc)

theorem mem_reached_local {ch : ℕ} : x ∈ w.reached w.localConn ch ↔
    ∃ c ∈ w.users ch, w.net.myClient c ∧ w.net.Leads x c := by
  refine List.mem_filterMap.trans (exists_congr fun c => and_congr_right fun hc => ?_)
  rw [localConn, Option.ite_none_right_eq_some, leads_iff hc]

theorem mem_reached_remote {ch : ℕ} : x ∈ w.reached w.remoteConn ch ↔
    ∃ c ∈ w.users ch, ¬ w.net.myClient c ∧ w.net.Leads x c := by
  refine List.mem_filterMap.trans (exists_congr fun c => and_congr_right fun hc => ?_)
  rw [remoteConn, Option.ite_none_left_eq_some, leads_iff hc]

theorem mem_reached_butone {ch : ℕ} {onec : Option ℕ} : x ∈ w.reached (w.connButone onec) ch ↔
    (∃ c ∈ w.users ch, w.net.Leads x c) ∧ onec ≠ some x := by
  have hone : ∀ c ∈ w.users ch, w.connButone onec c = some x ↔
      w.net.Leads x c ∧ onec ≠ some x := by
    intro c hc
    rw [connButone, Option.filter_eq_some_iff, leads_iff hc]
    exact and_congr_right fun _ => by rw [bne_iff_ne, ne_comm]
  refine List.mem_filterMap.trans ⟨fun ⟨c, hc, heq⟩ => ?_, fun ⟨⟨c, hc, hleads⟩, hne⟩ => ?_⟩
  · obtain ⟨hleads, hne⟩ := (hone c hc).mp heq
    exact ⟨⟨c, hc, hleads⟩, hne⟩
  · exact ⟨c, hc, (hone c hc).mpr ⟨hleads, hne⟩⟩

theorem open_of_user {ch c : ℕ} (hc : c ∈ w.users ch) (h : w.net.Leads x c) : w.net.Open x :=
  Net.open_of_leads (w.users_mem ch c hc) h

/-- Clients of ours have a connection each. -/
theorem nodup_reached_local (ch : ℕ) : (w.reached w.localConn ch).Nodup := by
  have hconn : ∀ c x, w.localConn c = some x → (w.net.cli c).conn = some x := by
    intro c x hc
    rw [localConn, Option.ite_none_right_eq_some, Net.cliUplink] at hc
    rw [← hc.2, if_pos hc.1]
  have hpair : (w.users ch).Pairwise fun c c' => c ∈ w.net.clients ∧ c' ∈ w.net.clients ∧ c ≠ c' :=
    (w.users_nodup ch).imp_of_mem fun hc hc' hne => ⟨w.users_mem ch _ hc, w.users_mem ch _ hc', hne⟩
  refine hpair.filterMap _ ?_
  rintro c c' ⟨hc, hc', hne⟩ x hx y hy rfl
  exact hne ((w.linked.users c' hc' x (hconn c' x hy)).2.2.1 c hc (hconn c x hx))

theorem nodup_serverConns : w.net.serverConns.Nodup := by
  rw [w.linked.serverConns]
  have hpair : w.net.servers.Pairwise fun s t => s ∈ w.net.servers ∧ t ∈ w.net.servers ∧ s ≠ t :=
    w.linked.grown.ordered.order.nodup.imp_of_mem fun hs ht hne => ⟨hs, ht, hne⟩
  refine hpair.filterMap _ ?_
  rintro s t ⟨hs, ht, hne⟩ x hx y hy rfl
  have hsome := (w.linked.owner s hs x hx).symm.trans (w.linked.owner t ht x hy)
  exact hne (Option.some.inj hsome)

/-- Messages to one client of ours alone. -/
theorem once_alone {cli : ℕ} (hchans : w.chans cli = []) (hmine : w.net.myClient cli)
    (hx : (w.net.cli cli).conn = some x) : w.Once output (.commonChannels cli) := by
  have hleads : ∀ y, w.Named (.commonChannels cli) y ↔ y = x := by
    intro y
    rw [Named, hchans, Net.Leads, if_pos hmine, hx]
    refine ⟨fun h => ?_, fun h => .inr ⟨rfl, hmine, congrArg some h.symm⟩⟩
    rcases h with ⟨ch, hch, -⟩ | ⟨-, -, h⟩
    · cases hch
    · exact (Option.some.inj h).symm
  refine ⟨[w.message output x], ?_, fun y => ?_⟩
  · have hwalk : w.walk output (.commonChannels cli) { temps := .clear, sm := none, out := [] } =
        some { temps := .clear, sm := none, out := [w.message output x] } := by
      rw [walk, sendtoCommonChannels, if_pos hchans, if_pos hmine, hx]
      rfl
    rw [send, hwalk, Option.map_some, clearSendTemps_eq (fun _ => rfl) fun n hn => by cases hn]
  · rw [hleads]
    refine ⟨?_, fun hne => ?_⟩
    · rintro rfl
      rw [List.filter_cons, message, beq_self_eq_true, if_pos rfl, List.filter_nil]
    · rw [List.filter_cons, message, beq_false_of_ne (Ne.symm hne), if_neg Bool.false_ne_true,
        List.filter_nil]

theorem once_commonChannels {cli : ℕ}
    (h : ¬ (w.chans cli = [] ∧ w.net.myClient cli ∧ (w.net.cli cli).conn = none)) :
    w.Once output (.commonChannels cli) := by
  by_cases hchans : w.chans cli = []
  · by_cases hmine : w.net.myClient cli
    · cases hx : (w.net.cli cli).conn with
      | none => exact absurd ⟨hchans, hmine, hx⟩ h
      | some x => exact once_alone hchans hmine hx
    · refine @once_of_queueAll w output [] _ List.nodup_nil (fun x => ?_) fun st => ?_
      · refine iff_of_false List.not_mem_nil ?_
        rintro (⟨ch, hch, -⟩ | ⟨-, hmine', -⟩)
        · rw [hchans] at hch
          cases hch
        · exact hmine hmine'
      · rw [walk, sendtoCommonChannels, if_pos hchans, if_neg hmine]
        rfl
  · refine @once_of_queueOnce w output ((w.chans cli).flatMap (w.reached w.localConn)) _
      (fun x hx => ?_) (fun x => ?_) fun st => ?_
    · obtain ⟨ch, -, hx⟩ := List.mem_flatMap.mp hx
      obtain ⟨c, hc, -, hleads⟩ := mem_reached_local.mp hx
      exact open_of_user hc hleads
    · rw [List.mem_flatMap, Named, or_iff_left fun hand => hchans hand.1]
      exact exists_congr fun ch => and_congr_right fun _ => mem_reached_local
    · rw [walk, sendtoCommonChannels, if_neg hchans, List.foldl_flatMap]

/-- Every call sends once, and clears up, just when it is not `sendto_common_channels` on a client
of ours that is in no channel and has no connection. -/
theorem once_iff (w : Fan) (output : ℕ → Bytes) (call : FanCall) :
    w.Once output call ↔ ∀ cli, call = .commonChannels cli →
      ¬ (w.chans cli = [] ∧ w.net.myClient cli ∧ (w.net.cli cli).conn = none) := by
  constructor
  · rintro ⟨out, hsend, -⟩ cli rfl ⟨hchans, hmine, hconn⟩
    rw [send, walk, sendtoCommonChannels, if_pos hchans, if_pos hmine, hconn] at hsend
    cases hsend
  · intro h
    cases call with
    | servButone one =>
      refine once_of_queueAll (nodup_serverConns.filter _) (fun x => ?_) fun st => rfl
      rw [List.mem_filter, Named, bne_iff_ne, ne_comm]
    | channelLocal ch =>
      exact once_of_queueAll (nodup_reached_local ch) (fun x => mem_reached_local) fun st => rfl
    | channelRemote ch =>
      refine once_of_queueOnce (fun x hx => ?_) (fun x => mem_reached_remote) fun st => rfl
      obtain ⟨c, hc, -, hleads⟩ := mem_reached_remote.mp hx
      exact open_of_user hc hleads
    | channelButone ch one =>
      refine once_of_queueOnce (fun x hx => ?_) (fun x => mem_reached_butone) fun st => rfl
      obtain ⟨⟨c, hc, hleads⟩, -⟩ := mem_reached_butone.mp hx
      exact open_of_user hc hleads
    | commonChannels cli => exact once_commonChannels (h cli rfl)

end

/-- A server with one client, which has no connection, and no channels. -/
def pseudo : Fan where
  net := { Net.alone (Server.blank none) (fun _ => none) (fun _ => false) (fun _ _ => false) with
    clients := [1]
    fresh := 2 }
  users _ := []
  chans _ := []
  fd _ := 0
  maxsockets := 1
  proto _ := 0
  protocols := [0]
  flags _ := 0
  linked := {
    grown := {
      ordered := {
        order := trivial
        registered := fun _ hs => absurd hs List.not_mem_nil
        me_parent := rfl
        clients := fun _ _ => .inl rfl
        clients_nodup := List.nodup_singleton 1 }
      fresh := fun _ hs => absurd hs List.not_mem_nil
      me_lt := Nat.zero_lt_two
      fresh_clients := fun _ hc => List.mem_singleton.mp hc ▸ Nat.one_lt_two
      fault := rfl }
    me_conn := rfl
    serverConns := rfl
    owner := fun _ hs => absurd hs List.not_mem_nil
    live := fun _ hc => absurd hc List.not_mem_nil
    users := fun _ _ _ hc => absurd hc (Option.some_ne_none _).symm
    bound := fun _ hc => absurd hc List.not_mem_nil
    unused := fun _ _ => rfl }
  users_mem _ _ hc := absurd hc List.not_mem_nil
  users_nodup _ := List.nodup_nil
  fd_lt _ _ := Nat.zero_lt_one
  fd_inj := by
    rintro x y (⟨c, -, hc⟩ | ⟨s, hs, -⟩)
    · cases hc
    · cases hs

/-- A client of ours that has no connection and is in no channel cannot be renamed. -/
theorem fan_fails : ¬ ∀ (w : Fan) (output : ℕ → Bytes) (call : FanCall), w.Once output call := by
  intro hall
  obtain ⟨out, hsend, -⟩ := hall pseudo (fun _ => []) (.commonChannels 1)
  have hnone : pseudo.send (fun _ => []) (.commonChannels 1) .clear = none := rfl
  rw [hnone] at hsend
  cases hsend

end Fan

end Ithildin
