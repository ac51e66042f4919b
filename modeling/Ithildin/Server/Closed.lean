import Ithildin.Server.Commands

/-!
# When a command tells that it closed its own connection

`destroy_server` closes the connection of the server it is called for and of no other direct link:
the servers it takes along are further away and have none.

* `Keeps`: destroying servers writes to no server or client;
* `destroyServer_keeps`: the connection of a direct link survives the destruction of others;
* `WellLinked`: connections belong to direct links, one each;
* `execLine_closed_iff`: exactly when the return value can be trusted.
-/

namespace Ithildin

namespace Net

/-! ### What destroying a server leaves alone -/

/-- The objects are the same, and the connection `c` is still there if it was. -/
structure Keeps (c : ℕ) (a b : Net) : Prop where
  me : b.me = a.me
  srv : b.srv = a.srv
  cli : b.cli = a.cli
  conns : c ∈ a.conns → c ∈ b.conns

theorem Keeps.refl (c : ℕ) (a : Net) : Keeps c a a := ⟨rfl, rfl, rfl, id⟩

theorem Keeps.trans {c : ℕ} {a b d : Net} (h : Keeps c a b) (h' : Keeps c b d) : Keeps c a d :=
  ⟨h'.me.trans h.me, h'.srv.trans h.srv, h'.cli.trans h.cli, h'.conns ∘ h.conns⟩

theorem mem_conns_closeOwn {net : Net} {c : ℕ} {o : Option ℕ} :
    c ∈ (net.closeOwn o).conns ↔ c ∈ net.conns ∧ o ≠ some c := by
  cases o with
  | none => simp [closeOwn]
  | some d =>
    simp only [closeOwn, closeConnection, List.mem_filter, decide_not, Bool.not_eq_true',
      decide_eq_false_iff_not, ne_eq, Option.some.injEq]
    exact and_congr_right fun _ => not_congr eq_comm

theorem closeOwn_keeps {net : Net} {c : ℕ} {o : Option ℕ} (h : o ≠ some c) :
    Keeps c net (net.closeOwn o) := by
  have hconns : c ∈ net.conns → c ∈ (net.closeOwn o).conns :=
    fun hc => mem_conns_closeOwn.2 ⟨hc, h⟩
  cases o <;> exact ⟨rfl, rfl, rfl, hconns⟩

/-- The connection `c` is not that of a client. -/
def NoClient (net : Net) (c : ℕ) : Prop := ∀ k, (net.cli k).conn ≠ some c

theorem destroyClient_keeps {net : Net} {c : ℕ} (h : net.NoClient c) (k : ℕ) :
    Keeps c net (net.destroyClient k) := by
  have hclose : Keeps c net (net.closeOwn (net.cli k).conn) := closeOwn_keeps (h k)
  exact ⟨hclose.me, hclose.srv, hclose.cli, hclose.conns⟩

/-- Destroying clients closes no connection but theirs. -/
theorem dropClients_keeps {net : Net} {c : ℕ} (h : net.NoClient c) (s : ℕ) :
    Keeps c net (net.dropClients s) := by
  unfold dropClients
  suffices ∀ l : List ℕ, ∀ cur : Net, Keeps c net cur →
      Keeps c net (l.foldl (fun net k =>
        if (net.cli k).server = s then net.destroyClient k else net) cur) from
    this net.clients net (.refl c net)
  intro l
  induction l with
  | nil => exact fun cur hcur => hcur
  | cons k l ih =>
    intro cur hcur
    have hclient : cur.NoClient c := by
      intro k
      rw [hcur.cli]
      exact h k
    rw [List.foldl_cons]
    split
    · exact ih _ (hcur.trans (destroyClient_keeps hclient k))
    · exact ih cur hcur

theorem unlinkServer_keeps (c : ℕ) (net : Net) (s : ℕ) : Keeps c net (net.unlinkServer s) :=
  ⟨rfl, rfl, rfl, id⟩

/-- A walk that destroys children keeps whatever each of its calls keeps. -/
theorem dropChildren_keeps {net : Net} {c : ℕ} {destroy : Net → ℕ → Net} {s : ℕ}
    (hdestroy : ∀ cur sp, Keeps c net cur → (net.srv sp).parent = some s →
      Keeps c net (destroy cur sp))
    (n : ℕ) (sp : Option ℕ) {cur : Net} (hcur : Keeps c net cur) :
    Keeps c net (dropChildren destroy s n sp cur) := by
  induction n generalizing sp cur with
  | zero => exact hcur
  | succ n ih =>
    cases sp with
    | none => exact hcur
    | some sp =>
      have hread : Keeps c net (cur.readServer sp) := hcur.trans ⟨rfl, rfl, rfl, id⟩
      rw [dropChildren]
      split
      · rename_i hparent
        rw [hread.srv] at hparent
        exact ih _ (hdestroy _ sp hread hparent)
      · exact ih _ hread

/-! ### Direct links -/

/-- Connections belong to direct links, one each: `ircd.me` is not a registered server and has
neither a connection nor a parent; a server with a connection is a child of `ircd.me` or, before
it has introduced itself, of nobody; no two servers, and no server and client, share a connection;
a client with a connection is ours. -/
structure WellLinked (net : Net) : Prop where
  me_unregistered : (net.srv net.me).registered = false
  me_conn : (net.srv net.me).conn = none
  me_parent : (net.srv net.me).parent = none
  direct : ∀ s c, (net.srv s).conn = some c → ∀ p, (net.srv s).parent = some p → p = net.me
  owner : ∀ s t c, (net.srv s).conn = some c → (net.srv t).conn = some c → s = t
  client : ∀ s c, (net.srv s).conn = some c → net.NoClient c
  ours : ∀ k c, (net.cli k).conn = some c → (net.cli k).server = net.me

/-- Destroying a server other than the link `c` belongs to closes `c` neither directly nor along
the way: every server that goes with it has a parent other than `ircd.me`, and so no connection. -/
theorem destroyServer_keeps {net : Net} (h : net.WellLinked) {c link : ℕ}
    (hlink : (net.srv link).conn = some c) (n : ℕ) {s : ℕ} {cur : Net} (hs : s ≠ link)
    (hcur : Keeps c net cur) : Keeps c net (destroyServer n cur s) := by
  induction n generalizing s cur with
  | zero => exact hcur
  | succ n ih =>
    have hclose : ∀ last : Net,
        Keeps c net last → Keeps c net (last.closeOwn (cur.srv s).conn) := by
      intro last hlast
      refine hlast.trans (closeOwn_keeps ?_)
      rw [hcur.srv]
      exact fun hown => hs (h.owner _ _ c hown hlink)
    rw [destroyServer]
    split
    · -- the servers below go first, and the link is not one of them
      rename_i hreg
      have hsme : s ≠ net.me := by
        rintro rfl
        rw [hcur.srv, h.me_unregistered] at hreg
        cases hreg
      have hbelow : Keeps c net
          (dropChildren (destroyServer n) s cur.servers.length cur.servers.head? cur) := by
        refine dropChildren_keeps (fun last sp hlast hparent => ih ?_ hlast) _ _ hcur
        rintro rfl
        exact hsme (h.direct _ _ hlink _ hparent)
      have hclient : NoClient
          (dropChildren (destroyServer n) s cur.servers.length cur.servers.head? cur) c := by
        intro k
        rw [hbelow.cli]
        exact h.client link c hlink k
      have hdrop := hbelow.trans (dropClients_keeps hclient s)
      exact hclose _ (hdrop.trans (unlinkServer_keeps c _ s))
    · exact hclose cur hcur

/-- The connection of a destroyed server is closed. -/
theorem destroyServer_closes (net : Net) (n : ℕ) {s c : ℕ} (h : (net.srv s).conn = some c) :
    c ∉ (destroyServer (n + 1) net s).conns := by
  rw [destroyServer, mem_conns_closeOwn, h]
  simp

/-! ### The commands -/

/-- The outcome tells the truth about the connection `c`: if it is gone, the return value says so.
-/
def Signalled (c : ℕ) (r : ℤ × Net) : Prop := c ∉ r.2.conns → r.1 = IRCD_CONNECTION_CLOSED

section
variable {net : Net} {c link : ℕ}

theorem destroy_keeps (h : net.WellLinked) (hlink : (net.srv link).conn = some c) {s : ℕ}
    (hs : s ≠ link) (hc : c ∈ net.conns) : c ∈ (net.destroy s).conns :=
  (destroyServer_keeps h hlink _ hs (.refl c net)).conns hc

theorem destroy_closes (hlink : (net.srv link).conn = some c) : c ∉ (net.destroy link).conns :=
  destroyServer_closes net _ hlink

theorem signalled_closed (net : Net) : Signalled c (IRCD_CONNECTION_CLOSED, net) := fun _ => rfl

theorem signalled_of_mem {r : ℤ × Net} (h : c ∈ r.2.conns) : Signalled c r :=
  fun hc => absurd h hc

/-- A command that destroys `sp` without telling is right about the link unless `sp` is the link. -/
theorem signalled_destroy_iff (h : net.WellLinked) (hlink : (net.srv link).conn = some c)
    (hc : c ∈ net.conns) {ret : ℤ} (hret : ret ≠ IRCD_CONNECTION_CLOSED) (sp : ℕ) :
    Signalled c (ret, net.destroy sp) ↔ sp ≠ link := by
  constructor
  · rintro hsig rfl
    exact hret (hsig (destroy_closes hlink))
  · exact fun hs => signalled_of_mem (destroy_keeps h hlink hs hc)

theorem link_ne_me (h : net.WellLinked) (hlink : (net.srv link).conn = some c) : net.me ≠ link := by
  rintro rfl
  rw [h.me_conn] at hlink
  cases hlink

theorem serverSquit_signalled_iff (h : net.WellLinked) (hlink : (net.srv link).conn = some c)
    (hc : c ∈ net.conns) (srv : ℕ) (args : List Bytes) :
    Signalled c (net.serverSquit srv args) ↔
      ¬ (args.head?.bind net.findServer = some link ∧ srv ≠ link) := by
  cases args with
  | nil => simpa [serverSquit] using signalled_closed (net.destroy srv)
  | cons target args =>
    have hstay : Signalled c (0, net) := signalled_of_mem hc
    simp only [serverSquit, List.head?_cons, Option.bind_some]
    cases net.findServer target with
    | none => simpa using hstay
    | some sp =>
      dsimp only
      split
      · rename_i hme
        simpa [hme, link_ne_me h hlink] using hstay
      · split
        · rename_i hsp
          simpa [hsp] using signalled_closed (net.destroy srv)
        · rename_i hsp
          rw [signalled_destroy_iff h hlink hc (by decide)]
          simp only [Option.some.injEq]
          constructor
          · exact fun hs hbad => hs hbad.1
          · rintro hs rfl
            exact hs ⟨rfl, Ne.symm hsp⟩

theorem clientSquit_signalled_iff (h : net.WellLinked) (hlink : (net.srv link).conn = some c)
    (hc : c ∈ net.conns) {cli : ℕ} (hcli : net.myClient cli = false) (args : List Bytes) :
    Signalled c (net.clientSquit cli args) ↔ net.findServer (args.headD []) ≠ some link := by
  simp only [clientSquit, hcli, Bool.false_eq_true, false_and, if_false]
  cases net.findServer (args.headD []) with
  | none => simpa using signalled_of_mem (r := (COMMAND_WEIGHT_NONE, net)) hc
  | some sp =>
    dsimp only
    rw [signalled_destroy_iff h hlink hc (by decide)]
    simp

theorem conns_setFlags (net : Net) (s : ℕ) : (net.setFlags s).conns = net.conns := by
  unfold setFlags
  split <;> rfl

theorem conns_registerServer (net : Net) (s : ℕ) : (net.registerServer s).conns = net.conns := by
  unfold registerServer registerConn
  cases (net.srv s).conn <;> rfl

theorem admitLink_signalled (hc : c ∈ net.conns) (srv : ℕ) (name : Bytes) (conf : ServerConf) :
    Signalled c (net.admitLink srv name conf) := by
  unfold admitLink
  dsimp only
  split
  · apply signalled_of_mem
    rw [conns_registerServer]
    show c ∈ (Net.setFlags _ srv).conns
    rw [conns_setFlags]
    exact hc
  · apply signalled_closed

theorem introduceSelf_signalled (hc : c ∈ net.conns) (srv : ℕ) (name : Bytes) :
    Signalled c (net.introduceSelf srv name) := by
  unfold introduceSelf
  cases net.conf name with
  | none => apply signalled_closed
  | some conf =>
    dsimp only
    split
    · apply signalled_closed
    · split
      · apply signalled_closed
      · apply admitLink_signalled
        exact hc

theorem introduceOther_signalled (hc : c ∈ net.conns) (srv : ℕ) (name hops : Bytes) :
    Signalled c (net.introduceOther srv name hops) := by
  unfold introduceOther
  dsimp only
  split
  · apply signalled_closed
  · split
    · apply signalled_closed
    · apply signalled_of_mem
      rw [createServer, conns_registerServer, conns_setFlags]
      exact hc

/-- The SERVER command always tells. -/
theorem serverServer_signalled (hc : c ∈ net.conns) (srv : ℕ) (args : List Bytes) :
    Signalled c (net.serverServer srv args) := by
  unfold serverServer
  dsimp only
  split
  · exact introduceSelf_signalled hc srv _
  · exact introduceOther_signalled hc srv _ _

/-- A server with a connection of its own is reached through itself. -/
theorem uplink_of_conn (h : net.WellLinked) {s : ℕ} (hs : net.myServer s = true) (n : ℕ) :
    net.uplinkFrom n s = s := by
  obtain ⟨d, hd⟩ := Option.isSome_iff_exists.1 hs
  cases n with
  | zero => rfl
  | succ n =>
    rw [uplinkFrom]
    cases hp : (net.srv s).parent with
    | none => rfl
    | some p => simp [h.direct s d hd p hp]

/-- The sender is on the link. -/
def Sender.On (net : Net) (link : ℕ) : Sender → Prop
  | .server s => net.srvServerUplink s = some link
  | .client k => net.cliServerUplink k = some link

/-- The one case in which the link goes without a word: a SQUIT whose target is the link and whose
sender is not. -/
def CutsOwnLink (net : Net) (link : ℕ) (sender : Sender) (cmd : Command) (args : List Bytes) :
    Prop :=
  cmd = .squit ∧ args.head?.bind net.findServer = some link ∧ sender ≠ .server link

theorem commandExecServer_signalled_iff (h : net.WellLinked)
    (hlink : (net.srv link).conn = some c) (hc : c ∈ net.conns) {srv : ℕ}
    (hsrv : net.srvServerUplink srv = some link) (cmd : Command) (args : List Bytes) :
    Signalled c (net.commandExecServer link srv cmd args) ↔
      ¬ net.CutsOwnLink link (.server srv) cmd args := by
  have hfar : srv ≠ link → net.myServer srv = false := by
    intro hne
    by_contra hmine
    rw [Bool.not_eq_false] at hmine
    rw [srvServerUplink, uplink_of_conn h hmine] at hsrv
    split at hsrv
    · cases hsrv
    · exact hne (Option.some.inj hsrv)
  have hstay : ∀ ret, Signalled c (ret, net) := fun ret => signalled_of_mem hc
  unfold commandExecServer
  rw [if_neg (by simp [hsrv])]
  cases cmd with
  | server =>
    have hno : ¬ net.CutsOwnLink link (.server srv) .server args := by simp [CutsOwnLink]
    simp only [hno, not_false_eq_true, iff_true]
    split
    · exact hstay _
    · split
      · exact hstay _
      · exact serverServer_signalled hc srv args
  | squit =>
    have hiff : net.CutsOwnLink link (.server srv) .squit args ↔
        args.head?.bind net.findServer = some link ∧ srv ≠ link := by simp [CutsOwnLink]
    rw [if_neg (by simp [Command.serverMin]), hiff]
    split
    · rename_i hunreg
      have hsame : srv = link := by
        by_contra hne
        rw [hfar hne] at hunreg
        exact absurd hunreg.1 (by decide)
      simpa [hsame] using hstay ERR_NOTREGISTERED
    · exact serverSquit_signalled_iff h hlink hc srv args

theorem commandExecClient_signalled_iff (h : net.WellLinked)
    (hlink : (net.srv link).conn = some c) (hc : c ∈ net.conns) {cli : ℕ}
    (hcli : net.cliServerUplink cli = some link) (cmd : Command) (args : List Bytes) :
    (∀ r ∈ net.commandExecClient link cli cmd args, Signalled c r) ↔
      ¬ net.CutsOwnLink link (.client cli) cmd args := by
  have hfar : net.myClient cli = false := by
    by_contra hmine
    rw [Bool.not_eq_false] at hmine
    rw [cliServerUplink, if_pos hmine] at hcli
    exact link_ne_me h hlink (Option.some.inj hcli)
  have hnoconn : (net.cli cli).conn = none := by
    rw [Option.eq_none_iff_forall_ne_some]
    intro d hd
    simp [myClient, h.ours cli d hd] at hfar
  have hstay : ∀ ret, Signalled c (ret, net) := fun ret => signalled_of_mem hc
  unfold commandExecClient
  rw [if_neg (by simp [hcli])]
  cases cmd with
  | server =>
    have hno : ¬ net.CutsOwnLink link (.client cli) .server args := by simp [CutsOwnLink]
    simp only [hno, not_false_eq_true, iff_true, clientServer, hnoconn, Option.map_none]
    intro r hr
    split at hr
    · obtain rfl := Option.some.inj hr
      exact hstay _
    · split at hr
      · obtain rfl := Option.some.inj hr
        exact signalled_closed _
      · split at hr
        · obtain rfl := Option.some.inj hr
          exact signalled_closed _
        · cases hr
  | squit =>
    cases args with
    | nil => simpa [Command.clientMin, CutsOwnLink] using hstay _
    | cons target args =>
      have hsquit := clientSquit_signalled_iff h hlink hc hfar (target :: args)
      simpa [Command.clientMin, CutsOwnLink] using hsquit

end

/-- Executing a line tells of the end of the connection `c`: if `c` is gone afterwards, the return
value is `IRCD_CONNECTION_CLOSED`. -/
def TellsClosed (net : Net) (c link : ℕ) (sender : Sender) (cmd : Command) (args : List Bytes) :
    Prop :=
  ∀ r ∈ net.execLine link sender cmd args, c ∉ r.2.conns → r.1 = IRCD_CONNECTION_CLOSED

/-- Executing a line read from the connection `c` of `link` tells of the end of that connection,
except for a SQUIT of the link itself that comes from behind it. -/
theorem execLine_closed_iff {net : Net} (h : net.WellLinked) {c link : ℕ}
    (hlink : (net.srv link).conn = some c) (hc : c ∈ net.conns) {sender : Sender}
    (hon : sender.On net link) (cmd : Command) (args : List Bytes) :
    net.TellsClosed c link sender cmd args ↔ ¬ net.CutsOwnLink link sender cmd args := by
  cases sender with
  | server srv =>
    have hiff := commandExecServer_signalled_iff h hlink hc hon cmd args
    simpa [TellsClosed, execLine, Signalled] using hiff
  | client cli => exact commandExecClient_signalled_iff h hlink hc hon cmd args

/-- `ircd.me` is `a`, its link on connection 10 is `b`, and `c` is behind `b`. -/
def chain : Net where
  me := 0
  srv := fun
    | 0 => { Server.blank none with name := bytes "a" }
    | 1 => { Server.blank (some 10) with
        name := bytes "b", parent := some 0, registered := true, introduced := true }
    | 2 => { Server.blank none with
        name := bytes "c", parent := some 1, registered := true, introduced := true }
    | _ => Server.blank none
  cli := fun _ => ⟨[], 1, none, false⟩
  connection := fun _ => ⟨some 1, [], none, none⟩
  servers := [2, 1]
  clients := []
  conns := [10]
  serverConns := [10]
  statServers := 2
  statServServers := 1
  conf := fun _ => none
  protocol := fun _ => false
  sameNick := fun a b => a == b
  fresh := 3
  fault := false

theorem chain_conn {s c : ℕ} (h : (chain.srv s).conn = some c) : s = 1 ∧ c = 10 := by
  match s with
  | 0 => cases h
  | 1 => exact ⟨rfl, (Option.some.inj h).symm⟩
  | 2 => cases h
  | _ + 3 => cases h

theorem chain_wellLinked : chain.WellLinked where
  me_unregistered := rfl
  me_conn := rfl
  me_parent := rfl
  direct := by
    intro s c hc p hp
    obtain ⟨rfl, rfl⟩ := chain_conn hc
    exact (Option.some.inj hp).symm
  owner := by
    intro s t c hs ht
    rw [(chain_conn hs).1, (chain_conn ht).1]
  client := by
    intro s c hc k hk
    cases hk
  ours := by
    intro k c hk
    cases hk

/-- `b` itself may cut off `c`. -/
theorem execLine_closed_iff_squit : chain.TellsClosed 10 1 (.server 1) .squit [bytes "c"] := by
  refine (@execLine_closed_iff chain chain_wellLinked 10 1 rfl (by decide) (.server 1) rfl
    .squit [bytes "c"]).2 ?_
  rintro ⟨-, -, hother⟩
  exact hother rfl

/-- A SQUIT of `b` from `c`, which is behind it, closes the connection it was read from and
returns 0. -/
theorem execLine_closed_fails :
    ¬ ∀ net : Net, net.WellLinked → ∀ c link sender cmd args,
      (net.srv link).conn = some c → c ∈ net.conns → Sender.On net link sender →
        net.TellsClosed c link sender cmd args := by
  intro hall
  have hsilent :=
    hall chain chain_wellLinked 10 1 (.server 2) .squit [bytes "b"] rfl (by decide) rfl
  exact absurd (hsilent _ rfl (by decide)) (by decide)

end Net

end Ithildin
