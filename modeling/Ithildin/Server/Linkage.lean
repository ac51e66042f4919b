import Ithildin.Server.Subtree

/-!
# The tree that SERVER lines make

Connections come, become those of servers, and send SERVER lines with any prefix; servers are
destroyed. The chain of parents of a registered server always ends at `ircd.me`. Two servers get one
name when `find_server`, which takes the name as a mask and in full, does not find the server that
has the name as it is stored; and a leaf gets a second link, since the one that registers is not
counted.

* `TreeOk`: chains, names and links;
* `Linked`: what every line keeps;
* `Unclashing`: the lines that let no clash in;
* `treeOk_of_run_iff`: just these keep `TreeOk`.
-/

namespace Ithildin

namespace Net

/-- What may happen: connections come as those of clients or of servers, clients come on other
servers, lines are read from links and from clients of ours, servers are destroyed. -/
inductive LinkAction
  | connect (v : Connection)
  | link (v : Connection)
  | client (v : Client)
  | line (sptr : ℕ) (sender : Sender) (args : List Bytes)
  | clientLine (cli : ℕ) (args : List Bytes)
  | destroy (s : ℕ)

variable (net : Net)

/-- The connection of a server is open. -/
def Live (s : ℕ) : Prop := ∃ c ∈ net.conns, (net.connection c).srv = some s

instance (s : ℕ) : Decidable (net.Live s) := by
  unfold Live
  infer_instance

/-- Whom the prefix of a line from `sptr` can name. -/
def Known (sptr : ℕ) : Sender → Prop
  | .server s => s = sptr ∨ s = net.me ∨ s ∈ net.servers
  | .client c => c ∈ net.clients

instance (sptr : ℕ) (sender : Sender) : Decidable (net.Known sptr sender) :=
  match sender with
  | .server s => inferInstanceAs (Decidable (s = sptr ∨ s = net.me ∨ s ∈ net.servers))
  | .client c => inferInstanceAs (Decidable (c ∈ net.clients))

/-- A new connection, with a client of ours. -/
def connectClient (v : Connection) : Net :=
  { net with
    connection := Function.update net.connection net.fresh { v with srv := none }
    conns := net.fresh :: net.conns
    cli := Function.update net.cli (net.fresh + 1) ⟨[], net.me, some net.fresh, false⟩
    clients := (net.fresh + 1) :: net.clients
    fresh := net.fresh + 2 }

/-- A new connection, with a blank server. -/
def connectServer (v : Connection) : Net :=
  { net with
    connection := Function.update net.connection net.fresh { v with srv := some (net.fresh + 1) }
    conns := net.fresh :: net.conns
    srv := Function.update net.srv (net.fresh + 1) (Server.blank (some net.fresh))
    fresh := net.fresh + 2 }

/-- A step. -/
def linkStep (net : Net) : LinkAction → Option Net
  | .connect v => some (net.connectClient v)
  | .link v => some (net.connectServer v)
  | .client v =>
    if v.conn = none ∧ v.server ∈ net.servers then
      some { net with
        cli := Function.update net.cli net.fresh v
        clients := net.fresh :: net.clients
        fresh := net.fresh + 1 }
    else none
  | .line sptr sender args =>
    if net.Live sptr ∧ net.Known sptr sender then
      (net.execLine sptr sender .server args).map Prod.snd
    else none
  | .clientLine cli args =>
    if cli ∈ net.clients ∧ (net.cli cli).conn.isSome ∧ Command.server.clientMin ≤ args.length then
      (net.clientServer cli args).map Prod.snd
    else none
  | .destroy s => if s ∈ net.servers ∨ net.Live s then some (net.destroy s) else none

/-! ### What is to hold -/

/-- The chains of parents end at `ircd.me`, no two names differ in case only, and a leaf has one
link at most. -/
structure TreeOk : Prop where
  chain : ∀ s ∈ net.servers, Forest.Below net.parent net.me s
  names : ∀ s ∈ net.me :: net.servers, ∀ t ∈ net.me :: net.servers,
    (net.srv s).name.map toLower = (net.srv t).name.map toLower → s = t
  links : (net.srv net.me).hub = false → net.servers.countP net.myServer ≤ 1

/-- No server has the name, in any case. -/
def Unused (name : Bytes) : Prop :=
  ∀ s ∈ net.me :: net.servers, (net.srv s).name.map toLower ≠ name.map toLower

/-- A link passes the checks that it has to pass before it is registered under a name. -/
def Admits (s : ℕ) (name : Bytes) : Prop :=
  ∃ conf, net.conf name = some conf ∧ (net.findServer name).any (· ≠ s) = false ∧
    (net.linkCount ≤ 1 ∨ (net.srv net.me).hub = true) ∧
    ((net.srv s).conn.map net.connection).all (authentic conf (name.take SERVLEN)) = true

/-- A link that is let in has a name of its own, as it is stored, and is the only one of a leaf. -/
def SelfOk (s : ℕ) (name : Bytes) : Prop :=
  net.Admits s name → net.Unused (name.take SERVLEN) ∧
    ((net.srv net.me).hub = true ∨ net.linkCount = 0)

/-- So has a server that another one introduces. -/
def OtherOk (s : ℕ) (name : Bytes) : Prop :=
  (net.myServer s = true →
    (((net.srv s).conf.map ServerConf.hub).getD []).any fun mask => stringMatch mask name) →
  net.findServer name = none → net.Unused (name.take SERVLEN)

/-- The introductions of a step clash with nothing. -/
def Unclashing (net : Net) : LinkAction → Prop
  | .line sptr (.server s) args =>
    net.srvServerUplink s = some sptr → Command.server.serverMin ≤ args.length →
      if net.myServer s ∧ ¬ (net.srv s).registered then net.SelfOk s (args.headD [])
      else net.OtherOk s (args.headD [])
  | .clientLine cli args =>
    ∀ proto ∈ (net.conf (args.headD [])).bind ServerConf.protocol, net.protocol proto = true →
      ∀ c ∈ (net.cli cli).conn, (net.becomeServer cli c).SelfOk net.fresh (args.headD [])
  | _ => True

/-! ### What every step keeps -/

/-- The connections of servers are the links, in order, and open connections belong to one server or
one client. -/
structure Linked : Prop where
  grown : net.Grown
  me_conn : (net.srv net.me).conn = none
  serverConns : net.serverConns = net.servers.filterMap fun s => (net.srv s).conn
  owner : ∀ s ∈ net.servers, ∀ c, (net.srv s).conn = some c → (net.connection c).srv = some s
  live : ∀ c ∈ net.conns, ∀ s, (net.connection c).srv = some s → (net.srv s).conn = some c ∧
    s ≠ net.me ∧ s < net.fresh ∧ ((net.srv s).registered = true → s ∈ net.servers)
  users : ∀ k ∈ net.clients, ∀ c, (net.cli k).conn = some c → c ∈ net.conns ∧
    (net.connection c).srv = none ∧ (∀ k' ∈ net.clients, (net.cli k').conn = some c → k' = k) ∧
      (net.cli k).server = net.me
  bound : ∀ c ∈ net.conns, c < net.fresh
  unused : ∀ c, net.fresh ≤ c → (net.connection c).srv = none

variable {net}

theorem linked_alone (me : Server) (conf : Bytes → Option ServerConf) (protocol : Bytes → Bool)
    (sameNick : Bytes → Bytes → Bool) : (alone me conf protocol sameNick).Linked where
  grown := grown_alone me conf protocol sameNick
  me_conn := rfl
  serverConns := rfl
  owner _ hs := absurd hs List.not_mem_nil
  live _ hc := absurd hc List.not_mem_nil
  users _ hk := absurd hk List.not_mem_nil
  bound _ hc := absurd hc List.not_mem_nil
  unused _ _ := rfl

/-- The links are counted right. -/
theorem Linked.linkCount_eq (h : net.Linked) : net.linkCount = net.servers.countP net.myServer := by
  unfold linkCount
  rw [h.serverConns, List.countP_filterMap]
  refine List.countP_congr fun s hs => ?_
  unfold myServer
  cases hc : (net.srv s).conn with
  | none => simp
  | some c => simp [h.owner s hs c hc, h.grown.ordered.registered s hs]

theorem filter_filterMap {l : List ℕ} {f : ℕ → Option ℕ} {p q : ℕ → Bool}
    (h : ∀ x ∈ l, ∀ y, f x = some y → p y = q x) :
    (l.filterMap f).filter (fun y => !p y) = (l.filter fun x => !q x).filterMap f := by
  induction l with
  | nil => rfl
  | cons x l ih =>
    have ih := ih fun z hz => h z (List.mem_cons_of_mem x hz)
    rw [List.filterMap_cons, List.filter_cons]
    cases hf : f x with
    | none =>
      rw [ih]
      split
      · rw [List.filterMap_cons, hf]
      · rfl
    | some y =>
      rw [List.filter_cons, h x List.mem_cons_self y hf, ih]
      split
      · rw [List.filterMap_cons, hf]
      · rfl

/-- Whole subtrees go, or clients, with the connections. -/
theorem Linked.removal {a b : Net} (h : a.Linked) {P Q : ℕ → Bool} (hgone : Removal P Q a b)
    (hP : ∀ x p, a.parent x = some p → P p = true → P x = true)
    (hQ : ∀ c, P (a.cli c).server = true → Q c = true) : b.Linked := by
  have howned : ∀ s ∈ a.servers, ∀ c, (a.srv s).conn = some c → a.owned P Q c = P s := by
    intro s hs c hc
    unfold owned
    have hclients : (a.clients.any fun k => Q k && (a.cli k).conn == some c) = false := by
      rw [List.any_eq_false]
      intro k hk hkc
      rw [Bool.and_eq_true, beq_iff_eq] at hkc
      have hnone := (h.users k hk c hkc.2).2.1
      rw [h.owner s hs c hc] at hnone
      exact absurd hnone (by simp)
    rw [hclients, Bool.or_false, Bool.eq_iff_iff, List.any_eq_true]
    constructor
    · rintro ⟨t, ht, htc⟩
      rw [Bool.and_eq_true, beq_iff_eq] at htc
      have hst := (h.owner s hs c hc).symm.trans (h.owner t ht c htc.2)
      obtain rfl := Option.some.inj hst
      exact htc.1
    · exact fun hPs => ⟨s, hs, by rw [hPs, hc]; simp⟩
  refine ⟨h.grown.removal hgone hP hQ, ?_, ?_, ?_, ?_, ?_, ?_, ?_⟩
  · rw [hgone.srv, hgone.me]
    exact h.me_conn
  · rw [hgone.serverConns, h.serverConns, hgone.servers, hgone.srv]
    exact filter_filterMap fun s hs c hc => by rw [howned s hs c hc]
  · intro s hs c hc
    rw [hgone.servers] at hs
    rw [hgone.srv] at hc
    rw [hgone.connection]
    exact h.owner s (List.mem_of_mem_filter hs) c hc
  · intro c hc s hs
    rw [hgone.conns] at hc
    obtain ⟨hc, hkept⟩ := List.mem_filter.mp hc
    rw [hgone.connection] at hs
    obtain ⟨hconn, hme, hlt, hreg⟩ := h.live c hc s hs
    rw [hgone.srv, hgone.me, hgone.fresh, hgone.servers]
    refine ⟨hconn, hme, hlt, fun hr => List.mem_filter.mpr ⟨hreg hr, ?_⟩⟩
    rwa [howned s (hreg hr) c hconn] at hkept
  · intro k hk c hc
    rw [hgone.clients] at hk
    obtain ⟨hk, hkept⟩ := List.mem_filter.mp hk
    rw [hgone.cli] at hc
    obtain ⟨hmem, hnone, hown, hours⟩ := h.users k hk c hc
    rw [hgone.conns, hgone.connection, hgone.clients, hgone.cli, hgone.me]
    refine ⟨List.mem_filter.mpr ⟨hmem, ?_⟩, hnone, fun k' hk' =>
      hown k' (List.mem_of_mem_filter hk'), hours⟩
    rw [Bool.not_eq_true', ← Bool.not_eq_true]
    intro howned'
    unfold owned at howned'
    rw [Bool.or_eq_true, List.any_eq_true, List.any_eq_true] at howned'
    obtain ⟨s, hs, hsc⟩ | ⟨k', hk', hkc⟩ := howned'
    · rw [Bool.and_eq_true, beq_iff_eq] at hsc
      rw [h.owner s hs c hsc.2] at hnone
      exact absurd hnone (by simp)
    · rw [Bool.and_eq_true, beq_iff_eq] at hkc
      obtain rfl := hown k' hk' hkc.2
      rw [hkc.1] at hkept
      exact absurd hkept (by simp)
  · intro c hc
    rw [hgone.conns] at hc
    rw [hgone.fresh]
    exact h.bound c (List.mem_of_mem_filter hc)
  · rw [hgone.fresh, hgone.connection]
    exact h.unused

theorem Linked.destroy (h : net.Linked) {s : ℕ} (hs : s ∈ net.servers) : (net.destroy s).Linked :=
  h.removal (h.grown.ordered.destroy hs) (fun _ _ hp hbelow => below_of_parent hp hbelow)
    fun _ hc => hc

/-- The record of a server that is not registered is written; a link keeps its connection. -/
theorem Linked.modify (h : net.Linked) {s : ℕ} (hs : s ∉ net.servers) (hme : s ≠ net.me)
    {f : Server → Server} (hkeep : net.Live s → (f (net.srv s)).conn = (net.srv s).conn ∧
      (f (net.srv s)).registered = (net.srv s).registered) :
    (net.modifyServer s f).Linked := by
  have hother : ∀ t, t ≠ s → (net.modifyServer s f).srv t = net.srv t := fun t ht =>
    Function.update_of_ne ht _ _
  have hmem : ∀ t ∈ net.servers, t ≠ s := by
    rintro t ht rfl
    exact hs ht
  refine ⟨h.grown.modify hs hme f, ?_, ?_, ?_, ?_, h.users, h.bound, h.unused⟩
  · show ((net.modifyServer s f).srv net.me).conn = none
    rw [hother net.me hme.symm]
    exact h.me_conn
  · refine h.serverConns.trans (List.filterMap_congr fun t ht => ?_)
    rw [hother t (hmem t ht)]
  · intro t ht c hc
    rw [hother t (hmem t ht)] at hc
    exact h.owner t ht c hc
  · intro c hc t ht
    by_cases hts : t = s
    · subst hts
      obtain ⟨hconn, hreg⟩ := hkeep ⟨c, hc, ht⟩
      have hself : (net.modifyServer t f).srv t = f (net.srv t) := Function.update_self ..
      rw [hself, hconn, hreg]
      exact h.live c hc t ht
    · rw [hother t hts]
      exact h.live c hc t ht

theorem Linked.live_conn (h : net.Linked) {s : ℕ} (hlive : net.Live s) :
    ∃ c ∈ net.conns, (net.srv s).conn = some c ∧ (net.connection c).srv = some s := by
  obtain ⟨c, hc, hsrv⟩ := hlive
  exact ⟨c, hc, (h.live c hc s hsrv).1, hsrv⟩

theorem Linked.notin_of_live (h : net.Linked) {s : ℕ} (hreg : (net.srv s).registered = false) :
    s ∉ net.servers := by
  intro hs
  rw [h.grown.ordered.registered s hs] at hreg
  exact absurd hreg (by simp)

/-- Destroying a link that is not registered closes its connection. -/
theorem destroy_of_unregistered {s : ℕ} (hreg : (net.srv s).registered = false) :
    net.destroy s = net.closeOwn (net.srv s).conn := by
  rw [Net.destroy, destroyServer, hreg, if_neg Bool.false_ne_true]

theorem Linked.destroy_unregistered (h : net.Linked) {s : ℕ} (hlive : net.Live s)
    (hreg : (net.srv s).registered = false) : (net.destroy s).Linked := by
  obtain ⟨c, hc, hconn, hsrv⟩ := h.live_conn hlive
  have hother : ∀ d, d ≠ c → d ∈ net.conns → d ∈ net.conns.filter (· ≠ c) := fun d hd hmem =>
    List.mem_filter.mpr ⟨hmem, decide_eq_true hd⟩
  rw [destroy_of_unregistered hreg, hconn]
  refine ⟨h.grown.closeOwn (some c), h.me_conn, ?_, h.owner, ?_, ?_, ?_, h.unused⟩
  · show net.serverConns.filter (· ≠ c) = net.servers.filterMap fun s => (net.srv s).conn
    rw [← h.serverConns, List.filter_eq_self]
    intro d hd
    rw [decide_eq_true_iff]
    rintro rfl
    rw [h.serverConns] at hd
    obtain ⟨t, ht, htd⟩ := List.mem_filterMap.mp hd
    have hst := (h.owner t ht d htd).symm.trans hsrv
    obtain rfl := Option.some.inj hst
    exact h.notin_of_live hreg ht
  · exact fun d hd => h.live d (List.mem_of_mem_filter hd)
  · intro k hk d hd
    obtain ⟨hmem, hnone, hown, hours⟩ := h.users k hk d hd
    refine ⟨hother d ?_ hmem, hnone, hown, hours⟩
    rintro rfl
    rw [hsrv] at hnone
    exact absurd hnone (by simp)
  · exact fun d hd => h.bound d (List.mem_of_mem_filter hd)

/-- A server is registered: a link under `ircd.me`, or one without a connection under another. -/
theorem Linked.register (h : net.Linked) {s p : ℕ} (hs : s ∉ net.servers) (hme : s ≠ net.me)
    (hlt : s < net.fresh) (hp : net.parent s = some p) (hmem : p = net.me ∨ p ∈ net.servers)
    (hconn : ∀ c, (net.srv s).conn = some c → c ∈ net.conns ∧ (net.connection c).srv = some s) :
    (net.registerServer s).Linked := by
  obtain ⟨hservers, hclients, hsrv, hcli, hme', hfresh, -⟩ := registerServer_eq net s
  have hconns : (net.registerServer s).conns = net.conns := by
    unfold registerServer registerConn
    cases (net.srv s).conn <;> rfl
  have hconnection : ∀ c, ((net.registerServer s).connection c).srv = (net.connection c).srv := by
    intro c
    unfold registerServer registerConn
    cases ho : (net.srv s).conn with
    | none => rfl
    | some d =>
      show (Function.update net.connection d { net.connection d with pass := none } c).srv = _
      by_cases hcd : c = d
      · subst hcd
        rw [Function.update_self]
      · rw [Function.update_of_ne hcd]
  have hserverConns : (net.registerServer s).serverConns =
      (net.srv s).conn.elim net.serverConns fun c => c :: net.serverConns.filter (· ≠ c) := by
    unfold registerServer registerConn
    cases (net.srv s).conn <;> rfl
  have hfields : ∀ t, ((net.registerServer s).srv t).conn = (net.srv t).conn := by
    intro t
    rw [hsrv]
    by_cases ht : t = s
    · subst ht
      rw [Function.update_self]
    · rw [Function.update_of_ne ht]
  refine ⟨h.grown.register hs hme hlt hp hmem, ?_, ?_, ?_, ?_, ?_, ?_, ?_⟩
  · rw [hme', hfields]
    exact h.me_conn
  · rw [hserverConns, hservers, List.filterMap_cons]
    simp only [hfields]
    cases ho : (net.srv s).conn with
    | none => exact h.serverConns
    | some c =>
      rw [← h.serverConns]
      refine congrArg (c :: ·) (List.filter_eq_self.mpr fun d hd => ?_)
      rw [decide_eq_true_iff]
      rintro rfl
      rw [h.serverConns] at hd
      obtain ⟨t, ht, htd⟩ := List.mem_filterMap.mp hd
      have hst := (h.owner t ht d htd).symm.trans (hconn d ho).2
      obtain rfl := Option.some.inj hst
      exact hs ht
  · intro t ht c hc
    rw [hservers] at ht
    rw [hfields] at hc
    rw [hconnection]
    obtain rfl | ht := List.mem_cons.mp ht
    · exact (hconn c hc).2
    · exact h.owner t ht c hc
  · intro c hc t ht
    rw [hconns] at hc
    rw [hconnection] at ht
    obtain ⟨htc, htme, htlt, hreg⟩ := h.live c hc t ht
    rw [hfields, hme', hfresh, hservers]
    refine ⟨htc, htme, htlt, fun hr => ?_⟩
    by_cases hts : t = s
    · exact hts ▸ List.mem_cons_self
    · rw [hsrv, Function.update_of_ne hts] at hr
      exact List.mem_cons_of_mem s (hreg hr)
  · intro k hk c hc
    rw [hclients] at hk ⊢
    rw [hcli] at hc ⊢
    rw [hconns, hconnection, hme']
    exact h.users k hk c hc
  · rw [hconns, hfresh]
    exact h.bound
  · intro c hc
    rw [hfresh] at hc
    rw [hconnection]
    exact h.unused c hc

/-! ### What a step does to the tree -/

/-- The server list is not longer than it was, and its members are what they were. -/
structure Shrinks (a b : Net) : Prop where
  me : b.me = a.me
  servers : b.servers.Sublist a.servers
  srv : ∀ s ∈ a.me :: a.servers, b.srv s = a.srv s

/-- A server is new on the list, with a name, as a link or not. -/
structure Adds (a b : Net) (s : ℕ) (name : Bytes) (own : Bool) : Prop where
  me : b.me = a.me
  servers : b.servers = s :: a.servers
  srv : ∀ t ∈ a.me :: a.servers, b.srv t = a.srv t
  notin : s ∉ a.me :: a.servers
  name : (b.srv s).name = name
  own : b.myServer s = own

theorem Shrinks.refl (a : Net) : Shrinks a a := ⟨rfl, List.Sublist.refl _, fun _ _ => rfl⟩

theorem Removal.shrinks {a b : Net} {P Q : ℕ → Bool} (h : Removal P Q a b) : Shrinks a b where
  me := h.me
  servers := by
    rw [h.servers]
    exact List.filter_sublist
  srv s _ := by rw [h.srv]

theorem TreeOk.shrinks {a b : Net} (ha : a.TreeOk) (hb : b.Linked) (h : Shrinks a b) :
    b.TreeOk := by
  have hsub : ∀ s ∈ b.me :: b.servers, s ∈ a.me :: a.servers := by
    intro s hs
    rw [h.me] at hs
    exact List.cons_subset_cons a.me h.servers.subset hs
  refine ⟨?_, ?_, ?_⟩
  · exact fun s hs => hb.grown.ordered.order.below_root hs
  · intro s hs t ht hname
    rw [h.srv s (hsub s hs), h.srv t (hsub t ht)] at hname
    exact ha.names s (hsub s hs) t (hsub t ht) hname
  · intro hhub
    rw [h.me, h.srv a.me List.mem_cons_self] at hhub
    have hcount : b.servers.countP b.myServer = b.servers.countP a.myServer := by
      refine List.countP_congr fun s hs => ?_
      rw [myServer, myServer, h.srv s (hsub s (List.mem_cons_of_mem _ hs))]
    rw [hcount]
    exact h.servers.countP_le.trans (ha.links hhub)

/-- The tree stays as it should be just when the new server clashes with nothing. -/
theorem TreeOk.adds_iff {a b : Net} (ha : a.TreeOk) (hla : a.Linked) (hb : b.Linked) {s : ℕ}
    {name : Bytes} {own : Bool} (h : Adds a b s name own) :
    b.TreeOk ↔ a.Unused name ∧
      (own = true → (a.srv a.me).hub = true ∨ a.linkCount = 0) := by
  have hne : ∀ t ∈ a.me :: a.servers, t ≠ s := by
    rintro t ht rfl
    exact h.notin ht
  have hmem : ∀ t, t ∈ b.me :: b.servers ↔ t = s ∨ t ∈ a.me :: a.servers := by
    intro t
    rw [h.me, h.servers, List.mem_cons, List.mem_cons, List.mem_cons]
    exact or_left_comm
  have hcount : b.servers.countP b.myServer =
      a.servers.countP a.myServer + if own = true then 1 else 0 := by
    have hold : a.servers.countP b.myServer = a.servers.countP a.myServer := by
      refine List.countP_congr fun t ht => ?_
      rw [myServer, myServer, h.srv t (List.mem_cons_of_mem _ ht)]
    rw [h.servers, List.countP_cons, hold, h.own]
  have hhub : (b.srv b.me).hub = (a.srv a.me).hub := by
    rw [h.me, h.srv a.me List.mem_cons_self]
  rw [hla.linkCount_eq]
  constructor
  · intro hok
    constructor
    · intro t ht hname
      refine hne t ht (hok.names t ((hmem t).mpr (.inr ht)) s ((hmem s).mpr (.inl rfl)) ?_)
      rw [h.srv t ht, h.name]
      exact hname
    · intro hown
      by_contra hno
      push Not at hno
      have hlinks := hok.links (by rw [hhub]; exact Bool.not_eq_true _ |>.mp hno.1)
      rw [hcount, if_pos hown] at hlinks
      omega
  · rintro ⟨hunused, hlink⟩
    refine ⟨fun t ht => hb.grown.ordered.order.below_root ht, ?_, ?_⟩
    · intro t ht u hu hname
      obtain rfl | ht := (hmem t).mp ht
      · obtain rfl | hu := (hmem u).mp hu
        · rfl
        · rw [h.name, h.srv u hu] at hname
          exact absurd hname.symm (hunused u hu)
      · obtain rfl | hu := (hmem u).mp hu
        · rw [h.name, h.srv t ht] at hname
          exact absurd hname (hunused t ht)
        · rw [h.srv t ht, h.srv u hu] at hname
          exact ha.names t ht u hu hname
    · intro hleaf
      rw [hhub] at hleaf
      rw [hcount]
      split
      · rename_i hown
        obtain hhub' | h0 := hlink hown
        · rw [hleaf] at hhub'
          exact absurd hhub' Bool.false_ne_true
        · omega
      · have hold := ha.links hleaf
        omega

/-! ### Introductions -/

/-- After a step the invariant holds, and the tree is as it should be just when the condition is
met. -/
def Tells (a b : Net) (G : Prop) : Prop := b.Linked ∧ (a.TreeOk → (b.TreeOk ↔ G))

theorem Shrinks.tells {a b : Net} {G : Prop} (h : Shrinks a b) (hb : b.Linked) (hG : G) :
    Tells a b G :=
  ⟨hb, fun ha => iff_of_true (ha.shrinks hb h) hG⟩

theorem Shrinks.then {a b c : Net} {G : Prop} (h : Shrinks a b) (hb : b.Linked)
    (ht : Tells b c G) : Tells a c G :=
  ⟨ht.1, fun ha => ht.2 (ha.shrinks hb h)⟩

theorem Adds.tells {a b : Net} {s : ℕ} {name : Bytes} {own : Bool} {G : Prop}
    (h : Adds a b s name own) (ha : a.Linked) (hb : b.Linked)
    (hG : G ↔ a.Unused name ∧ (own = true → (a.srv a.me).hub = true ∨ a.linkCount = 0)) :
    Tells a b G :=
  ⟨hb, fun hok => (hok.adds_iff ha hb h).trans hG.symm⟩

theorem modifyServer_modifyServer (net : Net) (s : ℕ) (f g : Server → Server) :
    (net.modifyServer s f).modifyServer s g = net.modifyServer s fun v => g (f v) := by
  unfold modifyServer
  dsimp only
  rw [Function.update_self, Function.update_idem]

/-- `server_set_flags` writes a record only. -/
theorem exists_setFlags (net : Net) (s : ℕ) : ∃ f : Server → Server,
    net.setFlags s = net.modifyServer s f ∧ ∀ v, (f v).conn = v.conn ∧
      (f v).registered = v.registered ∧ (f v).name = v.name ∧ (f v).parent = v.parent := by
  unfold setFlags
  cases (net.srv s).conf with
  | none =>
    refine ⟨id, ?_, fun _ => ⟨rfl, rfl, rfl, rfl⟩⟩
    unfold modifyServer
    rw [id, Function.update_eq_self]
  | some conf => exact ⟨_, rfl, fun _ => ⟨rfl, rfl, rfl, rfl⟩⟩

/-- A link that is not registered is written to and destroyed. -/
theorem tells_destroy (h : net.Linked) {s : ℕ} (hlive : net.Live s)
    (hreg : (net.srv s).registered = false) {f : Server → Server}
    (hf : ∀ v, (f v).conn = v.conn ∧ (f v).registered = v.registered) {G : Prop} (hG : G) :
    Tells net ((net.modifyServer s f).destroy s) G := by
  obtain ⟨c, hc, hsrv⟩ := hlive
  have hme := (h.live c hc s hsrv).2.1
  have hnot := h.notin_of_live hreg
  have hself : (net.modifyServer s f).srv s = f (net.srv s) := Function.update_self ..
  have hm := h.modify hnot hme fun _ => hf (net.srv s)
  have hmreg : ((net.modifyServer s f).srv s).registered = false := by
    rw [hself, (hf _).2, hreg]
  have hd := hm.destroy_unregistered ⟨c, hc, hsrv⟩ hmreg
  refine Shrinks.tells ⟨?_, ?_, ?_⟩ hd hG
  · rw [destroy_of_unregistered hmreg, closeOwn_me]
    rfl
  · rw [destroy_of_unregistered hmreg, closeOwn_servers]
    exact List.Sublist.refl _
  · intro t ht
    rw [destroy_of_unregistered hmreg, closeOwn_srv]
    refine Function.update_of_ne ?_ _ _
    rintro rfl
    exact (List.mem_cons.mp ht).elim hme hnot

/-- A link that is not registered is written to and registered. -/
theorem tells_register (h : net.Linked) {s : ℕ} (hlive : net.Live s)
    (hreg : (net.srv s).registered = false) {f : Server → Server} {name : Bytes}
    (hf : ∀ v, (f v).conn = v.conn ∧ (f v).registered = v.registered ∧ (f v).name = name ∧
      (f v).parent = some net.me) :
    Tells net ((net.modifyServer s f).registerServer s) (net.Unused name ∧
      ((net.srv net.me).hub = true ∨ net.linkCount = 0)) := by
  obtain ⟨c, hc, hconn, hsrv⟩ := h.live_conn hlive
  obtain ⟨-, hme, hlt, -⟩ := h.live c hc s hsrv
  have hnot := h.notin_of_live hreg
  have hself : (net.modifyServer s f).srv s = f (net.srv s) := Function.update_self ..
  have hm := h.modify hnot hme fun _ => ⟨(hf (net.srv s)).1, (hf _).2.1⟩
  have hl := hm.register hnot hme hlt (congrArg Server.parent hself |>.trans (hf _).2.2.2)
    (.inl rfl) fun d hd => by
      rw [hself, (hf _).1, hconn] at hd
      obtain rfl := Option.some.inj hd
      exact ⟨hc, hsrv⟩
  obtain ⟨hservers, -, hsrv', -, hme', -, -⟩ := registerServer_eq (net.modifyServer s f) s
  have hadds : Adds net ((net.modifyServer s f).registerServer s) s name true := by
    refine ⟨hme', hservers, ?_, ?_, ?_, ?_⟩
    · intro t ht
      have hts : t ≠ s := by
        rintro rfl
        exact (List.mem_cons.mp ht).elim hme hnot
      rw [hsrv', Function.update_of_ne hts]
      exact Function.update_of_ne hts _ _
    · exact fun ht => (List.mem_cons.mp ht).elim hme hnot
    · rw [hsrv', Function.update_self, hself]
      exact (hf _).2.2.1
    · rw [myServer, hsrv', Function.update_self, hself]
      show (f (net.srv s)).conn.isSome = true
      rw [(hf _).1, hconn]
      rfl
  exact hadds.tells h hl (by simp)

theorem srv_modify {α : Type} (g : Server → α) (net : Net) (s : ℕ) {f : Server → Server}
    (hf : ∀ v, g (f v) = g v) (t : ℕ) : g ((net.modifyServer s f).srv t) = g (net.srv t) := by
  show g (Function.update net.srv s (f (net.srv s)) t) = _
  by_cases ht : t = s
  · subst ht
    rw [Function.update_self, hf]
  · rw [Function.update_of_ne ht]

/-- `find_server` looks at names only. -/
theorem findServer_modify (net : Net) (s : ℕ) {f : Server → Server}
    (hf : ∀ v, (f v).name = v.name) (name : Bytes) :
    (net.modifyServer s f).findServer name = net.findServer name := by
  unfold findServer
  simp only [srv_modify Server.name net s hf]
  rfl

theorem linkCount_modify (net : Net) (s : ℕ) {f : Server → Server}
    (hf : ∀ v, (f v).registered = v.registered) :
    (net.modifyServer s f).linkCount = net.linkCount := by
  refine List.countP_congr fun c _ => ?_
  show (Option.map (net.modifyServer s f).srv (net.connection c).srv).any Server.registered = true ↔
    (Option.map net.srv (net.connection c).srv).any Server.registered = true
  cases (net.connection c).srv with
  | none => exact Iff.rfl
  | some t =>
    show ((net.modifyServer s f).srv t).registered = true ↔ (net.srv t).registered = true
    rw [srv_modify Server.registered net s hf]

/-- A link is registered if it is authentic, and destroyed if it is not. -/
theorem admitLink_tells (h : net.Linked) {s : ℕ} (hlive : net.Live s)
    (hreg : (net.srv s).registered = false) {f : Server → Server}
    (hf : ∀ v, (f v).conn = v.conn ∧ (f v).registered = v.registered) (name : Bytes)
    (conf : ServerConf) {G : Prop}
    (hno : ¬ ((net.srv s).conn.map net.connection).all (authentic conf name) = true → G)
    (hyes : ((net.srv s).conn.map net.connection).all (authentic conf name) = true →
      ((net.Unused name ∧ ((net.srv net.me).hub = true ∨ net.linkCount = 0)) ↔ G)) :
    Tells net ((net.modifyServer s f).admitLink s name conf).2 G := by
  obtain ⟨g, hg, hgkeep⟩ := exists_setFlags ((net.modifyServer s f).modifyServer s fun v =>
    { v with name := name, hops := 1, parent := some net.me }) s
  rw [modifyServer_modifyServer, modifyServer_modifyServer] at hg
  unfold admitLink
  dsimp only
  rw [modifyServer_modifyServer]
  have hme : (net.modifyServer s f).me = net.me := rfl
  rw [hme, hg, modifyServer_modifyServer]
  generalize hF : (fun v : Server => g { f v with
    name := name, hops := 1, parent := some net.me }) = F
  have hFkeep : ∀ v, (F v).conn = v.conn ∧ (F v).registered = v.registered ∧
      (F v).name = name ∧ (F v).parent = some net.me := by
    intro v
    rw [← hF]
    obtain ⟨h₁, h₂, h₃, h₄⟩ := hgkeep { f v with
      name := name, hops := 1, parent := some net.me }
    exact ⟨h₁.trans (hf v).1, h₂.trans (hf v).2, h₃, h₄⟩
  have hconn : ((net.modifyServer s F).srv s).conn = (net.srv s).conn :=
    srv_modify Server.conn net s (fun v => (hFkeep v).1) s
  rw [hconn]
  split
  · rename_i hauth
    subst hF
    have htells := @tells_register net h s hlive hreg (fun v => { g { f v with
      name := name, hops := 1, parent := some net.me } with
      introduced := true }) name hFkeep
    exact ⟨htells.1, fun hok => (htells.2 hok).trans (hyes hauth)⟩
  · rename_i hauth
    exact tells_destroy h hlive hreg (fun v => ⟨(hFkeep v).1, (hFkeep v).2.1⟩) (hno hauth)

theorem introduceSelf_tells (h : net.Linked) {s : ℕ} (hlive : net.Live s)
    (hreg : (net.srv s).registered = false) (name : Bytes) :
    Tells net (net.introduceSelf s name).2 (net.SelfOk s name) := by
  unfold introduceSelf
  dsimp only
  generalize hf : (fun v : Server => { v with conf := net.conf name }) = f
  have hkeep : ∀ v, (f v).conn = v.conn ∧ (f v).registered = v.registered := by
    rw [← hf]
    exact fun _ => ⟨rfl, rfl⟩
  have hname : ∀ v, (f v).name = v.name := by
    rw [← hf]
    exact fun _ => rfl
  have hhub : ∀ v, (f v).hub = v.hub := by
    rw [← hf]
    exact fun _ => rfl
  rw [findServer_modify net s hname, linkCount_modify net s fun v => (hkeep v).2,
    srv_modify Server.hub net s hhub]
  cases hconf : net.conf name with
  | none =>
    refine tells_destroy h hlive hreg hkeep ?_
    rintro ⟨conf, hsome, -⟩
    rw [hconf] at hsome
    exact absurd hsome (by simp)
  | some conf =>
    dsimp only
    split
    · rename_i hfound
      refine tells_destroy h hlive hreg hkeep ?_
      rintro ⟨_, -, hnone, -⟩
      rw [hnone] at hfound
      exact absurd hfound Bool.false_ne_true
    · rename_i hfound
      split
      · rename_i hleaf
        refine tells_destroy h hlive hreg hkeep ?_
        rintro ⟨_, -, -, hroom | hroom, -⟩
        · exact absurd hleaf.1 (Nat.not_lt.mpr hroom)
        · exact absurd hroom hleaf.2
      · rename_i hroom
        rw [not_and_or, not_not, Nat.not_lt] at hroom
        refine admitLink_tells h hlive hreg hkeep _ conf (fun hauth => ?_) fun hauth => ?_
        · rintro ⟨conf', hconf', -, -, hauth'⟩
          obtain rfl := Option.some.inj (hconf.symm.trans hconf')
          exact absurd hauth' hauth
        · refine ⟨fun hfits _ => hfits, fun hself => ?_⟩
          exact hself ⟨conf, hconf, Bool.not_eq_true _ |>.mp hfound, hroom, hauth⟩

theorem Linked.fresh_add (h : net.Linked) (n : ℕ) :
    ({ net with fresh := net.fresh + n } : Net).Linked where
  grown := h.grown.fresh_add n
  me_conn := h.me_conn
  serverConns := h.serverConns
  owner := h.owner
  live c hc s hs := by
    obtain ⟨hconn, hme, hlt, hreg⟩ := h.live c hc s hs
    exact ⟨hconn, hme, hlt.trans_le (Nat.le_add_right _ _), hreg⟩
  users := h.users
  bound c hc := (h.bound c hc).trans_le (Nat.le_add_right _ _)
  unused c hc := h.unused c ((Nat.le_add_right _ _).trans hc)

theorem Linked.fresh_notin (h : net.Linked) {s : ℕ} (hs : net.fresh ≤ s) :
    s ∉ net.me :: net.servers := by
  intro hmem
  obtain rfl | hmem := List.mem_cons.mp hmem
  · exact absurd h.grown.me_lt (Nat.not_lt.mpr hs)
  · exact absurd (h.grown.fresh s hmem) (Nat.not_lt.mpr hs)

theorem createServer_tells (h : net.Linked) {s : ℕ} (hs : s ∈ net.servers) (name hops : Bytes) :
    Tells net (net.createServer s name hops) (net.Unused (name.take SERVLEN)) := by
  have hnot := h.fresh_notin le_rfl
  have hme : net.fresh ≠ net.me := fun heq => hnot (heq ▸ List.mem_cons_self)
  have hservers : net.fresh ∉ net.servers := fun hmem => hnot (List.mem_cons_of_mem _ hmem)
  unfold createServer
  dsimp only
  obtain ⟨g, hg, hgkeep⟩ := exists_setFlags
    (({ net with fresh := net.fresh + 1 } : Net).modifyServer net.fresh fun _ =>
      { Server.blank none with
        name := name.take SERVLEN
        hops := strConvInt hops 1
        parent := some s
        conf := net.conf name }) net.fresh
  rw [hg, modifyServer_modifyServer]
  generalize hF : (fun _ : Server => g { Server.blank none with
    name := name.take SERVLEN
    hops := strConvInt hops 1
    parent := some s
    conf := net.conf name }) = F
  have hFkeep : ∀ v, (F v).conn = none ∧ (F v).name = name.take SERVLEN ∧
      (F v).parent = some s := by
    intro v
    rw [← hF]
    obtain ⟨h₁, -, h₃, h₄⟩ := hgkeep { Server.blank none with
      name := name.take SERVLEN
      hops := strConvInt hops 1
      parent := some s
      conf := net.conf name }
    exact ⟨h₁, h₃, h₄⟩
  have hself : ((({ net with fresh := net.fresh + 1 } : Net).modifyServer net.fresh F).srv
      net.fresh) = F (net.srv net.fresh) := Function.update_self ..
  have hdead : ¬ ({ net with fresh := net.fresh + 1 } : Net).Live net.fresh := by
    rintro ⟨c, hc, hsrv⟩
    exact absurd (h.live c hc _ hsrv).2.2.1 (lt_irrefl _)
  have hm : (({ net with fresh := net.fresh + 1 } : Net).modifyServer net.fresh F).Linked :=
    (h.fresh_add 1).modify hservers hme fun hlive => absurd hlive hdead
  have hl := hm.register (s := net.fresh) hservers hme (Nat.lt_succ_self _)
    (congrArg Server.parent hself |>.trans (hFkeep _).2.2) (.inr hs) fun d hd => by
      rw [hself, (hFkeep _).1] at hd
      exact absurd hd (by simp)
  obtain ⟨hlist, -, hsrv', -, hme', -, -⟩ := registerServer_eq
    (({ net with fresh := net.fresh + 1 } : Net).modifyServer net.fresh F) net.fresh
  have hadds : Adds net ((({ net with fresh := net.fresh + 1 } : Net).modifyServer net.fresh
      F).registerServer net.fresh) net.fresh (name.take SERVLEN) false := by
    refine ⟨hme', hlist, ?_, hnot, ?_, ?_⟩
    · intro t ht
      have hts : t ≠ net.fresh := by
        rintro rfl
        exact hnot ht
      rw [hsrv', Function.update_of_ne hts]
      exact Function.update_of_ne hts _ _
    · rw [hsrv', Function.update_self, hself]
      exact (hFkeep _).2.1
    · rw [myServer, hsrv', Function.update_self, hself]
      show (F (net.srv net.fresh)).conn.isSome = false
      rw [(hFkeep _).1]
      rfl
  exact hadds.tells h hl (by simp)

/-- The uplink of a registered server is registered. -/
theorem Ordered.uplinkFrom_mem (h : net.Ordered) (n : ℕ) {s : ℕ} (hs : s ∈ net.servers) :
    net.uplinkFrom n s ∈ net.servers := by
  induction n generalizing s with
  | zero => exact hs
  | succ n ih =>
    obtain ⟨p, hp, hmem⟩ := h.order.parent_mem hs
    change (net.srv s).parent = some p at hp
    rw [uplinkFrom, hp]
    dsimp only
    split
    · exact hs
    · rename_i hne
      exact ih (hmem.resolve_left hne)

theorem introduceOther_tells (h : net.Linked) {s sptr : ℕ} (hs : s ∈ net.servers)
    (hup : net.srvServerUplink s = some sptr) (name hops : Bytes) :
    Tells net (net.introduceOther s name hops).2 (net.OtherOk s name) := by
  have hmem : sptr ∈ net.servers := by
    unfold srvServerUplink at hup
    split at hup
    · exact absurd hup (by simp)
    · obtain rfl := Option.some.inj hup
      exact h.grown.ordered.uplinkFrom_mem _ hs
  unfold introduceOther
  dsimp only
  split
  · rename_i hno
    refine (h.grown.ordered.destroy hs).shrinks.tells (h.destroy hs) fun hhub => ?_
    exact absurd (hhub hno.1) hno.2
  · rename_i hhub
    split
    · rename_i hfound
      rw [hup, Option.map_some, Option.getD_some]
      refine (h.grown.ordered.destroy hmem).shrinks.tells (h.destroy hmem) fun _ hnone => ?_
      rw [hnone] at hfound
      exact absurd hfound Bool.false_ne_true
    · rename_i hfound
      have hnone : net.findServer name = none := by simpa using hfound
      have htells := createServer_tells h hs name hops
      refine ⟨htells.1, fun hok => (htells.2 hok).trans ⟨fun hunused _ _ => hunused, fun hother =>
        hother (fun hmine => ?_) hnone⟩⟩
      by_contra hmask
      exact hhub ⟨hmine, hmask⟩

/-! ### Steps -/

/-- A new connection, which is nobody's yet. -/
def addConnection (net : Net) (v : Connection) : Net :=
  { net with
    connection := Function.update net.connection net.fresh { v with srv := none }
    conns := net.fresh :: net.conns
    fresh := net.fresh + 1 }

theorem Linked.addConnection (h : net.Linked) (v : Connection) : (net.addConnection v).Linked := by
  have hnext := h.fresh_add 1
  have hold : ∀ c, c ≠ net.fresh → (net.addConnection v).connection c = net.connection c :=
    fun c hc => Function.update_of_ne hc _ _
  have hnew : ((net.addConnection v).connection net.fresh).srv = none := by
    show (Function.update net.connection net.fresh { v with srv := none } net.fresh).srv = none
    rw [Function.update_self]
  have hg := hnext.grown
  refine ⟨⟨⟨hg.ordered.order, hg.ordered.registered, hg.ordered.me_parent, hg.ordered.clients,
    hg.ordered.clients_nodup⟩, hg.fresh, hg.me_lt, hg.fresh_clients, hg.fault⟩, h.me_conn,
    h.serverConns, ?_, ?_, ?_, ?_, ?_⟩
  · intro s hs c hc
    have howner := h.owner s hs c hc
    have hcf : c ≠ net.fresh := by
      rintro rfl
      rw [h.unused _ le_rfl] at howner
      exact absurd howner (by simp)
    rw [hold c hcf]
    exact howner
  · intro c hc s hs
    obtain rfl | hc := List.mem_cons.mp hc
    · rw [hnew] at hs
      exact absurd hs (by simp)
    · rw [hold c (h.bound c hc).ne] at hs
      exact hnext.live c hc s hs
  · intro k hk c hc
    obtain ⟨hmem, hnone, hown⟩ := h.users k hk c hc
    refine ⟨List.mem_cons_of_mem _ hmem, ?_, hown⟩
    rw [hold c (h.bound c hmem).ne]
    exact hnone
  · intro c hc
    obtain rfl | hc := List.mem_cons.mp hc
    · exact Nat.lt_succ_self _
    · exact hnext.bound c hc
  · intro c hc
    have hcf : net.fresh + 1 ≤ c := hc
    rw [hold c (by omega)]
    exact h.unused c (by omega)

/-- A connection may be given to someone: it is open and nobody has it. -/
structure Free (net : Net) (c : ℕ) : Prop where
  mem : c ∈ net.conns
  srv : (net.connection c).srv = none
  clients : ∀ k ∈ net.clients, (net.cli k).conn ≠ some c

theorem Linked.free_fresh (h : net.Linked) (v : Connection) :
    (net.addConnection v).Free net.fresh where
  mem := List.mem_cons_self
  srv := by
    show (Function.update net.connection net.fresh { v with srv := none } net.fresh).srv = none
    rw [Function.update_self]
  clients k hk hc := absurd (h.bound _ (h.users k hk _ hc).1) (lt_irrefl _)

/-- A blank server on a connection. -/
def blankServer (net : Net) (c : ℕ) : Net :=
  { net with
    connection := Function.update net.connection c
      { net.connection c with srv := some net.fresh }
    srv := Function.update net.srv net.fresh (Server.blank (some c))
    fresh := net.fresh + 1 }

/-- A connection that is free becomes that of a server that is not registered. -/
theorem Linked.blankServer (h : net.Linked) {c : ℕ} (hfree : net.Free c) :
    (net.blankServer c).Linked ∧ Shrinks net (net.blankServer c) ∧
      (net.blankServer c).Live net.fresh ∧
      ((net.blankServer c).srv net.fresh) = Server.blank (some c) := by
  have hnext := h.fresh_add 1
  have hnot := h.fresh_notin le_rfl
  have hme : net.fresh ≠ net.me := fun heq => hnot (heq ▸ List.mem_cons_self)
  have hservers : net.fresh ∉ net.servers := fun hmem => hnot (List.mem_cons_of_mem _ hmem)
  have hmem : ∀ s ∈ net.me :: net.servers, s ≠ net.fresh := by
    rintro s hs rfl
    exact hnot hs
  have hsrv : ∀ s, s ≠ net.fresh → (net.blankServer c).srv s = net.srv s := fun s hs =>
    Function.update_of_ne hs _ _
  have hself : (net.blankServer c).srv net.fresh = Server.blank (some c) := Function.update_self ..
  have hconn : ∀ d, d ≠ c → (net.blankServer c).connection d = net.connection d := fun d hd =>
    Function.update_of_ne hd _ _
  have hown : ((net.blankServer c).connection c).srv = some net.fresh := by
    show (Function.update net.connection c _ c).srv = some net.fresh
    rw [Function.update_self]
  have hg := hnext.grown.modify hservers hme fun _ => Server.blank (some c)
  refine ⟨⟨⟨⟨hg.ordered.order, hg.ordered.registered, hg.ordered.me_parent, hg.ordered.clients,
    hg.ordered.clients_nodup⟩, hg.fresh, hg.me_lt, hg.fresh_clients, hg.fault⟩, ?_, ?_, ?_, ?_, ?_,
    hnext.bound, ?_⟩, ⟨rfl, List.Sublist.refl _, fun s hs => hsrv s (hmem s hs)⟩,
    ⟨c, hfree.mem, hown⟩, hself⟩
  · show ((net.blankServer c).srv net.me).conn = none
    rw [hsrv net.me hme.symm]
    exact h.me_conn
  · refine h.serverConns.trans (List.filterMap_congr fun s hs => ?_)
    rw [hsrv s (hmem s (List.mem_cons_of_mem _ hs))]
  · intro s hs d hd
    rw [hsrv s (hmem s (List.mem_cons_of_mem _ hs))] at hd
    have howner := h.owner s hs d hd
    have hdc : d ≠ c := by
      rintro rfl
      rw [hfree.srv] at howner
      exact absurd howner (by simp)
    rw [hconn d hdc]
    exact howner
  · intro d hd s hs
    by_cases hdc : d = c
    · subst hdc
      obtain rfl := Option.some.inj (hown.symm.trans hs)
      rw [hself]
      exact ⟨rfl, hme, Nat.lt_succ_self _, fun hreg => absurd hreg Bool.false_ne_true⟩
    · rw [hconn d hdc] at hs
      obtain ⟨hsd, hsme, hlt, hreg⟩ := h.live d hd s hs
      rw [hsrv s hlt.ne]
      exact ⟨hsd, hsme, hlt.trans (Nat.lt_succ_self _), hreg⟩
  · intro k hk d hd
    obtain ⟨hdmem, hnone, hrest⟩ := h.users k hk d hd
    have hdc : d ≠ c := by
      rintro rfl
      exact hfree.clients k hk hd
    refine ⟨hdmem, ?_, hrest⟩
    rw [hconn d hdc]
    exact hnone
  · intro d hd
    have hdf : net.fresh + 1 ≤ d := hd
    have hdc : d ≠ c := by
      rintro rfl
      exact absurd (h.bound d hfree.mem) (by omega)
    rw [hconn d hdc]
    exact h.unused d (by omega)

theorem connectServer_eq (net : Net) (v : Connection) :
    net.connectServer v = (net.addConnection v).blankServer net.fresh := by
  unfold connectServer blankServer addConnection
  simp only [Function.update_idem, Function.update_self]

theorem connectServer_linked (h : net.Linked) (v : Connection) :
    (net.connectServer v).Linked ∧ Shrinks net (net.connectServer v) := by
  obtain ⟨hl, hshrinks, -, -⟩ := (h.addConnection v).blankServer (h.free_fresh v)
  rw [connectServer_eq]
  exact ⟨hl, hshrinks.me, hshrinks.servers, hshrinks.srv⟩

/-- A client that comes has no connection, or one that is free; then it is ours. -/
theorem Linked.client (h : net.Linked) {v : Client}
    (hserver : v.server = net.me ∨ v.server ∈ net.servers)
    (hconn : ∀ c, v.conn = some c → net.Free c ∧ v.server = net.me) :
    ({ net with
      cli := Function.update net.cli net.fresh v
      clients := net.fresh :: net.clients
      fresh := net.fresh + 1 } : Net).Linked := by
  have hnext := h.fresh_add 1
  have hold : ∀ k ∈ net.clients, Function.update net.cli net.fresh v k = net.cli k := fun k hk =>
    Function.update_of_ne (h.grown.fresh_clients k hk).ne _ _
  have hself : Function.update net.cli net.fresh v net.fresh = v := Function.update_self ..
  refine ⟨h.grown.client le_rfl (Nat.lt_succ_self _) hserver, h.me_conn, h.serverConns,
    h.owner, hnext.live, fun k hk c hc => ?_, hnext.bound, hnext.unused⟩
  dsimp only at hc ⊢
  obtain rfl | hk := List.mem_cons.mp hk
  · rw [hself] at hc ⊢
    obtain ⟨hfree, hours⟩ := hconn c hc
    refine ⟨hfree.mem, hfree.srv, fun k' hk' hc' => ?_, hours⟩
    obtain rfl | hk' := List.mem_cons.mp hk'
    · rfl
    · rw [hold k' hk'] at hc'
      exact absurd hc' (hfree.clients k' hk')
  · rw [hold k hk] at hc ⊢
    obtain ⟨hmem, hnone, hown, hours⟩ := h.users k hk c hc
    refine ⟨hmem, hnone, fun k' hk' hc' => ?_, hours⟩
    obtain rfl | hk' := List.mem_cons.mp hk'
    · rw [hself] at hc'
      exact absurd hc ((hconn c hc').1.clients k hk)
    · rw [hold k' hk'] at hc'
      exact hown k' hk' hc'

theorem connectClient_linked (h : net.Linked) (v : Connection) :
    (net.connectClient v).Linked ∧ Shrinks net (net.connectClient v) := by
  have hl := (h.addConnection v).client (v := ⟨[], net.me, some net.fresh, false⟩) (.inl rfl) (by
    rintro c ⟨⟩
    exact ⟨h.free_fresh v, rfl⟩)
  exact ⟨hl, rfl, List.Sublist.refl _, fun _ _ => rfl⟩

/-- The client goes without its connection, which is a blank server's from then on. -/
theorem becomeServer_eq (net : Net) (cli c : ℕ) : net.becomeServer cli c =
    ({ net with
      cli := Function.update net.cli cli { net.cli cli with conn := none }
      clients := net.clients.filter (· ≠ cli) } : Net).blankServer c := by
  unfold becomeServer destroyClient
  dsimp only
  rw [Function.update_self]
  rfl

/-- A client goes, and leaves its connection. -/
theorem Linked.dropClient (h : net.Linked) (cli : ℕ) :
    ({ net with
      cli := Function.update net.cli cli { net.cli cli with conn := none }
      clients := net.clients.filter (· ≠ cli) } : Net).Linked := by
  have hkept : ∀ k ∈ net.clients.filter (· ≠ cli), k ∈ net.clients ∧
      Function.update net.cli cli { net.cli cli with conn := none } k = net.cli k := by
    intro k hk
    obtain ⟨hk, hne⟩ := List.mem_filter.mp hk
    exact ⟨hk, Function.update_of_ne (of_decide_eq_true hne) _ _⟩
  have hg := h.grown
  refine ⟨⟨⟨hg.ordered.order, hg.ordered.registered, hg.ordered.me_parent, ?_,
    hg.ordered.clients_nodup.filter _⟩, hg.fresh, hg.me_lt, ?_, hg.fault⟩, h.me_conn, h.serverConns,
    h.owner, h.live, ?_, h.bound, h.unused⟩
  · intro k hk
    obtain ⟨hk, heq⟩ := hkept k hk
    dsimp only
    rw [heq]
    exact hg.ordered.clients k hk
  · exact fun k hk => hg.fresh_clients k (hkept k hk).1
  · intro k hk d hd
    obtain ⟨hkmem, heq⟩ := hkept k hk
    dsimp only at hd ⊢
    rw [heq] at hd ⊢
    obtain ⟨hdmem, hnone, hown, hkours⟩ := h.users k hkmem d hd
    refine ⟨hdmem, hnone, fun k' hk' hd' => ?_, hkours⟩
    obtain ⟨hk', heq'⟩ := hkept k' hk'
    rw [heq'] at hd'
    exact hown k' hk' hd'

/-- A client of ours becomes a server that is not registered. -/
theorem becomeServer_linked (h : net.Linked) {cli c : ℕ} (hcli : cli ∈ net.clients)
    (hc : (net.cli cli).conn = some c) :
    (net.becomeServer cli c).Linked ∧ Shrinks net (net.becomeServer cli c) ∧
      (net.becomeServer cli c).Live net.fresh ∧
      ((net.becomeServer cli c).srv net.fresh) = Server.blank (some c) := by
  obtain ⟨hcmem, hcnone, hcown, -⟩ := h.users cli hcli c hc
  rw [becomeServer_eq]
  obtain ⟨hl, hshrinks, hlive, hblank⟩ := (h.dropClient cli).blankServer (c := c) ⟨hcmem, hcnone, by
    intro k hk hk'
    obtain ⟨hk, hne⟩ := List.mem_filter.mp hk
    have hne := of_decide_eq_true hne
    dsimp only at hk'
    rw [Function.update_of_ne hne] at hk'
    exact hne (hcown k hk hk')⟩
  exact ⟨hl, ⟨hshrinks.me, hshrinks.servers, hshrinks.srv⟩, hlive, hblank⟩

theorem destroyClient_tells (h : net.Linked) {cli : ℕ} (hcli : cli ∈ net.clients) {G : Prop}
    (hG : G) : Tells net (net.destroyClient cli) G := by
  have hgone := destroyClient_removal hcli
  exact hgone.shrinks.tells (h.removal hgone (fun _ _ _ hp => hp) fun _ hp =>
    absurd hp Bool.false_ne_true) hG

theorem clientServer_tells (h : net.Linked) {cli : ℕ} (hcli : cli ∈ net.clients) {args : List Bytes}
    {r : ℤ × Net} (hr : net.clientServer cli args = some r) :
    Tells net r.2 (net.Unclashing (.clientLine cli args)) := by
  unfold clientServer at hr
  cases hproto : (net.conf (args.headD [])).bind ServerConf.protocol with
  | none =>
    rw [hproto] at hr
    obtain rfl := Option.some.inj hr
    refine destroyClient_tells h hcli fun proto hp => ?_
    rw [hproto] at hp
    exact absurd hp (by simp)
  | some proto =>
    rw [hproto] at hr
    dsimp only at hr
    split at hr
    · rename_i hno
      obtain rfl := Option.some.inj hr
      refine destroyClient_tells h hcli fun proto' hp hyes => ?_
      rw [hproto] at hp
      obtain rfl := Option.some.inj hp
      exact absurd hyes hno
    · rename_i hyes
      rw [not_not] at hyes
      obtain ⟨c, hc, rfl⟩ := Option.map_eq_some_iff.mp hr
      obtain ⟨hl, hshrinks, hlive, hblank⟩ := becomeServer_linked h hcli hc
      have hself := introduceSelf_tells hl hlive (by rw [hblank]; rfl) (args.headD [])
      have hserver : (net.becomeServer cli c).serverServer net.fresh args =
          (net.becomeServer cli c).introduceSelf net.fresh (args.headD []) := by
        unfold serverServer
        dsimp only
        rw [if_pos]
        rw [myServer, hblank]
        exact ⟨rfl, by simp [Server.blank]⟩
      rw [hserver]
      have hiff : (net.becomeServer cli c).SelfOk net.fresh (args.headD []) ↔
          net.Unclashing (.clientLine cli args) := by
        constructor
        · intro hok proto' _ _ c' hc'
          obtain rfl := Option.some.inj (hc.symm.trans hc')
          exact hok
        · exact fun hall => hall proto hproto hyes c hc
      have hthen := hshrinks.then hl hself
      exact ⟨hthen.1, fun hok => (hthen.2 hok).trans hiff⟩

theorem serverServer_tells (h : net.Linked) {s sptr : ℕ} (hlive : net.Live sptr)
    (hknown : s = sptr ∨ s = net.me ∨ s ∈ net.servers) (hup : net.srvServerUplink s = some sptr)
    (args : List Bytes) :
    Tells net (net.serverServer s args).2
      (if net.myServer s ∧ ¬ (net.srv s).registered then net.SelfOk s (args.headD [])
      else net.OtherOk s (args.headD [])) := by
  have hme : s ≠ net.me := by
    rintro rfl
    rw [srvServerUplink, if_pos rfl] at hup
    exact absurd hup (by simp)
  unfold serverServer
  dsimp only
  split
  · rename_i hself
    have hreg : (net.srv s).registered = false := Bool.not_eq_true _ |>.mp hself.2
    have hs : s = sptr := (hknown.resolve_right fun hmem =>
      hmem.elim hme (h.notin_of_live hreg))
    exact introduceSelf_tells h (hs ▸ hlive) hreg _
  · rename_i hother
    have hs : s ∈ net.servers := by
      obtain rfl | rfl | hs := hknown
      · obtain ⟨c, hc, hconn, hsrv⟩ := h.live_conn hlive
        refine (h.live c hc s hsrv).2.2.2 ?_
        by_contra hreg
        exact hother ⟨by rw [myServer, hconn]; rfl, hreg⟩
      · exact absurd rfl hme
      · exact hs
    exact introduceOther_tells h hs hup _ _

theorem commandExecServer_tells (h : net.Linked) {s sptr : ℕ} (hlive : net.Live sptr)
    (hknown : s = sptr ∨ s = net.me ∨ s ∈ net.servers) (args : List Bytes) :
    Tells net (net.commandExecServer sptr s .server args).2
      (net.Unclashing (.line sptr (.server s) args)) := by
  unfold commandExecServer
  split
  · rename_i hup
    exact (Shrinks.refl net).tells h fun hyes => absurd hyes hup
  · rename_i hup
    rw [not_not] at hup
    split
    · rename_i hlen
      exact (Shrinks.refl net).tells h fun _ hmin => absurd hmin (Nat.not_le.mpr hlen)
    · rename_i hlen
      rw [if_neg (by simp)]
      have htells := serverServer_tells h hlive hknown hup args
      refine ⟨htells.1, fun hok => (htells.2 hok).trans ⟨fun hfits _ _ => hfits, ?_⟩⟩
      exact fun hall => hall hup (Nat.not_lt.mp hlen)

/-- A client that is named by a prefix has no connection of its own, so that its line does not make
a server. -/
theorem commandExecClient_tells (h : net.Linked) {k sptr : ℕ} (hlive : net.Live sptr)
    (hk : k ∈ net.clients) {args : List Bytes} {r : ℤ × Net}
    (hr : net.commandExecClient sptr k .server args = some r) :
    Tells net r.2 (net.Unclashing (.line sptr (.client k) args)) := by
  unfold commandExecClient at hr
  split at hr
  · obtain rfl := Option.some.inj hr
    exact (Shrinks.refl net).tells h trivial
  · split at hr
    · obtain rfl := Option.some.inj hr
      exact (Shrinks.refl net).tells h trivial
    · rename_i hup _
      rw [not_not] at hup
      have hconn : (net.cli k).conn = none := by
        rw [Option.eq_none_iff_forall_ne_some]
        intro c hc
        obtain ⟨d, hd, hsrv⟩ := hlive
        have hours := (h.users k hk c hc).2.2.2
        rw [cliServerUplink, myClient, hours, if_pos (by simp)] at hup
        exact (h.live d hd sptr hsrv).2.1 (Option.some.inj hup).symm
      have htells := clientServer_tells h hk hr
      refine ⟨htells.1, fun hok => (htells.2 hok).trans (iff_of_true ?_ trivial)⟩
      intro _ _ _ c hc
      rw [hconn] at hc
      exact absurd hc (by simp)

/-- Registered or not, a server that is destroyed adds nothing to the tree. -/
theorem destroy_tells (h : net.Linked) {s : ℕ} (hs : s ∈ net.servers ∨ net.Live s) :
    Tells net (net.destroy s) (net.Unclashing (.destroy s)) := by
  by_cases hmem : s ∈ net.servers
  · exact (h.grown.ordered.destroy hmem).shrinks.tells (h.destroy hmem) trivial
  · have hlive := hs.resolve_left hmem
    obtain ⟨c, hc, hsrv⟩ := hlive
    have hreg : (net.srv s).registered = false := by
      rw [← Bool.not_eq_true]
      exact fun hr => hmem ((h.live c hc s hsrv).2.2.2 hr)
    have htells := tells_destroy h ⟨c, hc, hsrv⟩ hreg (f := id) (fun _ => ⟨rfl, rfl⟩)
      (trivial : net.Unclashing (.destroy s))
    have heq : net.modifyServer s id = net := by
      unfold modifyServer
      rw [id, Function.update_eq_self]
    rwa [heq] at htells

/-- A step keeps the tree as it should be just when it does not clash. -/
theorem linkStep_tells (h : net.Linked) {a : LinkAction} {net' : Net}
    (hstep : linkStep net a = some net') : Tells net net' (net.Unclashing a) := by
  cases a with
  | connect v =>
    obtain rfl := Option.some.inj hstep
    obtain ⟨hl, hs⟩ := connectClient_linked h v
    exact hs.tells hl trivial
  | link v =>
    obtain rfl := Option.some.inj hstep
    obtain ⟨hl, hs⟩ := connectServer_linked h v
    exact hs.tells hl trivial
  | client v =>
    rw [linkStep] at hstep
    split_ifs at hstep with hv
    obtain rfl := Option.some.inj hstep
    have hs : Shrinks net ({ net with
      cli := Function.update net.cli net.fresh v
      clients := net.fresh :: net.clients
      fresh := net.fresh + 1 } : Net) := ⟨rfl, List.Sublist.refl _, fun _ _ => rfl⟩
    refine hs.tells (h.client (.inr hv.2) fun c hc => ?_) trivial
    rw [hv.1] at hc
    exact absurd hc (by simp)
  | line sptr sender args =>
    rw [linkStep] at hstep
    split_ifs at hstep with hguard
    obtain ⟨r, hr, rfl⟩ := Option.map_eq_some_iff.mp hstep
    cases sender with
    | server s =>
      obtain rfl := Option.some.inj hr
      exact commandExecServer_tells h hguard.1 hguard.2 args
    | client k => exact commandExecClient_tells h hguard.1 hguard.2 hr
  | clientLine cli args =>
    rw [linkStep] at hstep
    split_ifs at hstep with hguard
    obtain ⟨r, hr, rfl⟩ := Option.map_eq_some_iff.mp hstep
    exact clientServer_tells h hguard.1 hr
  | destroy s =>
    rw [linkStep] at hstep
    split_ifs at hstep with hs
    obtain rfl := Option.some.inj hstep
    exact destroy_tells h hs

/-- The tree is as it should be in every state that is reached exactly when no introduction
clashes. -/
theorem treeOk_of_run_iff {me : Server} {conf : Bytes → Option ServerConf} {protocol : Bytes → Bool}
    {sameNick : Bytes → Bytes → Bool} {as : List LinkAction}
    (hrun : Run.run linkStep (alone me conf protocol sameNick) as = some net) :
    (∀ before behind net', as = before ++ behind →
      Run.run linkStep (alone me conf protocol sameNick) before = some net' → net'.TreeOk) ↔
      Run.Along linkStep Unclashing (alone me conf protocol sameNick) as := by
  refine Run.forall_reached_iff (I := Linked) (fun _ _ _ h hstep => (linkStep_tells h hstep).1)
    (fun _ _ _ h hok hstep => (linkStep_tells h hstep).2 hok)
    (linked_alone me conf protocol sameNick) ⟨?_, ?_, ?_⟩ hrun
  · exact fun s hs => absurd hs List.not_mem_nil
  · intro s hs t ht _
    rw [List.mem_singleton.mp hs, List.mem_singleton.mp ht]
  · exact fun _ => Nat.zero_le _

/-- A server that knows everybody by one address and password. -/
def trusting (hub : Bool) : Net :=
  alone { Server.blank none with name := bytes "a", hub := hub }
    (fun _ => some ⟨some (bytes "i"), some (bytes "p"), none, [], false, false⟩) (fun _ => false)
    fun _ _ => false

/-- Two links come and introduce themselves. -/
def twoLinks (b c : Bytes) : List LinkAction :=
  let v : Connection := ⟨none, bytes "i", some (bytes "p"), none⟩
  [.link v, .line 2 (.server 2) [b, bytes "1", []], .link v, .line 4 (.server 4) [c, bytes "1", []]]

/-- The state after that. -/
def linked (hub : Bool) (b c : Bytes) : Net :=
  (Run.run linkStep (trusting hub) (twoLinks b c)).getD (trusting hub)

theorem run_twoLinks {hub : Bool} {b c : Bytes}
    (h : (Run.run linkStep (trusting hub) (twoLinks b c)).isSome) :
    Run.run linkStep (trusting hub) (twoLinks b c) = some (linked hub b c) := by
  obtain ⟨net, hnet⟩ := Option.isSome_iff_exists.mp h
  rw [linked, hnet]
  rfl

theorem treeOk_of_run_iff_hub :
    (∀ before behind net', twoLinks (bytes "b") (bytes "c") = before ++ behind →
      Run.run linkStep (trusting true) before = some net' → net'.TreeOk) ↔
      Run.Along linkStep Unclashing (trusting true) (twoLinks (bytes "b") (bytes "c")) :=
  treeOk_of_run_iff (run_twoLinks (by decide +kernel))

/-- A leaf takes a second link; and of a name with 64 bytes there are two. -/
theorem treeOk_fails :
    (∃ net, Run.run linkStep (trusting false) (twoLinks (bytes "b") (bytes "c")) = some net ∧
      ¬ net.TreeOk) ∧
    ∃ net, Run.run linkStep (trusting true)
      (twoLinks (List.replicate 64 120) (List.replicate 64 120)) = some net ∧ ¬ net.TreeOk := by
  refine ⟨⟨_, run_twoLinks (by decide +kernel), fun hok => ?_⟩,
    ⟨_, run_twoLinks (by decide +kernel), fun hok => ?_⟩⟩
  · have hlinks := hok.links (by decide +kernel)
    exact absurd hlinks (by decide +kernel)
  · have hsame := hok.names 4 (by decide +kernel) 2 (by decide +kernel) (by decide +kernel)
    exact absurd hsame (by decide)

end Net

end Ithildin
