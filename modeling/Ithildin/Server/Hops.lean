import Ithildin.Lib.Distance
import Ithildin.Lib.Run

/-!
# Hop counts

A network of servers, and what each has recorded of the others. A server that is linked gets the
burst of `server_sendnicks`, then `server_register` tells the other links of it; a SERVER line from
a link is recorded as it is, and passed on by `server_register` with one hop more. The burst passes
the hops on as they are.

* `HopNet`: what the servers know, and the lines on their way;
* `HopNet.step`: a link is made, or a line arrives;
* `Ok`: what every step keeps;
* `hops_of_run_iff`: the hops recorded are the distances as long as no line of a burst is recorded.

Servers are named by numbers. A link that is refused, or that `SERVER` drops, ends the run.
-/

namespace Ithildin

/-- What a server keeps of another one. -/
structure HopServer where
  name : ℕ
  parent : ℕ
  hops : ℕ
  deriving DecidableEq

/-- A SERVER line: a link introduces itself, or a server with the server it is on and the hops. The
mark says that `server_sendnicks` sent it. -/
inductive HopLine
  | self
  | server (burst : Bool) (source name hops : ℕ)
  deriving DecidableEq

/-- The links made, the networks these make, the links each server has introduced itself to, the
servers each knows, newest first, and the lines between each two. -/
structure HopNet where
  links : List (ℕ × ℕ)
  part : ℕ → ℕ
  introduced : ℕ → List ℕ
  servers : ℕ → List HopServer
  queue : ℕ → ℕ → List HopLine

namespace HopNet

/-- `srv_server_uplink`. The parent of a server is behind it on the list. -/
def uplink (me : ℕ) : List HopServer → ℕ → Option ℕ
  | [], _ => none
  | sp :: servers, name =>
      if sp.name = name then if sp.parent = me then some name else uplink me servers sp.parent
      else uplink me servers name

/-- The servers linked to us. -/
def direct (me : ℕ) (servers : List HopServer) : List ℕ :=
  (servers.filter (·.parent = me)).map HopServer.name

/-- What `server_sendnicks` sends to `dst` of the servers on `src`, and on those, down to a
depth. -/
def sendnicks (servers : List HopServer) (dst : ℕ) : ℕ → ℕ → List HopLine
  | 0, _ => []
  | n + 1, src =>
      (servers.filter fun sp => decide (sp.parent = src ∧ sp.name ≠ dst)).flatMap fun sp =>
        .server true src sp.name sp.hops :: sendnicks servers dst n sp.name

variable (net : HopNet)

/-- A server sends lines to some of its links. -/
def send (src : ℕ) (dsts : List ℕ) (lines : List HopLine) : HopNet :=
  { net with
    queue := fun a b => if a = src ∧ b ∈ dsts then net.queue a b ++ lines else net.queue a b }

/-- A server is introduced to, unless that is done. -/
def introduce (a b : ℕ) : HopNet :=
  if b ∈ net.introduced a then net
  else
    { net.send a [b] [.self] with
      introduced := Function.update net.introduced a (b :: net.introduced a) }

/-- The burst of `server_establish`. -/
def establish (a b : ℕ) : HopNet :=
  net.send a [b] (sendnicks (net.servers a) b ((net.servers a).length + 1) a)

/-- A server goes to the head of the list. -/
def record (a : ℕ) (sp : HopServer) : HopNet :=
  { net with servers := Function.update net.servers a (sp :: net.servers a) }

/-- `server_register`: the links but for the one that leads to the server are told. -/
def register (a : ℕ) (sp : HopServer) : HopNet :=
  let ones := uplink a (sp :: net.servers a) sp.name
  (net.send a ((direct a (net.servers a)).filter fun b => decide (some b ≠ ones))
    [.server false sp.parent sp.name (sp.hops + 1)]).record a sp

/-- A server that we know. -/
def knows (a name : ℕ) : Bool := name == a || (net.servers a).any (·.name == name)

/-- `SERVER_COMMAND(server)` at `b`, for a line from the link `a`. Lines that come from another side
than their source are ignored. -/
def receive (a b : ℕ) : HopLine → Option HopNet
  | .self =>
      if net.knows b a then none
      else some (((net.introduce b a).establish b a).register b ⟨a, b, 1⟩)
  | .server _ source name hops =>
      if uplink b (net.servers b) source ≠ some a then some net
      else if net.knows b name then none
      else some (net.register b ⟨name, source, hops⟩)

/-- A link is made, or the first line on its way from one server to another arrives. -/
inductive Action
  | link (a b : ℕ)
  | deliver (a b : ℕ)
  deriving DecidableEq

/-- A line is taken off its queue. -/
def take (a b : ℕ) : HopNet :=
  { net with
    queue := fun c d => if c = a ∧ d = b then (net.queue c d).tail else net.queue c d }

/-- Two networks become one. -/
def join (a b : ℕ) : HopNet :=
  { net with
    links := (a, b) :: net.links
    part := fun c => if net.part c = net.part a then net.part b else net.part c }

/-- A step. Links are made between servers that are not linked yet, however far apart; the one that
connects introduces itself. -/
def step (net : HopNet) : Action → Option HopNet
  | .link a b =>
      if net.part a = net.part b then none else some ((net.join a b).introduce a b)
  | .deliver a b =>
      match net.queue a b with
      | [] => none
      | line :: _ => (net.take a b).receive a b line

/-- No links. -/
def start : HopNet := ⟨[], id, fun _ => [], fun _ => [], fun _ _ => []⟩

/-- The links, as a graph. -/
def graph : SimpleGraph ℕ := SimpleGraph.fromRel fun a b => (a, b) ∈ net.links

/-- The hops recorded are the numbers of links in between. -/
def Right : Prop := ∀ a, ∀ sp ∈ net.servers a,
  net.graph.Reachable a sp.name ∧ sp.hops = net.graph.dist a sp.name

/-- A line of a burst, from the side of its source. -/
def recordsBurst (a b : ℕ) : HopLine → Bool
  | .server true source _ _ => uplink b (net.servers b) source == some a
  | _ => false

/-- The line that arrives is not one of a burst, unless it is ignored. -/
def NoBurst (net : HopNet) : Action → Prop
  | .link _ _ => True
  | .deliver a b => ((net.queue a b).head?.any (net.recordsBurst a b)) = false

instance (net : HopNet) (act : Action) : Decidable (net.NoBurst act) :=
  match act with
  | .link _ _ => inferInstanceAs (Decidable True)
  | .deliver a b => inferInstanceAs
      (Decidable ((net.queue a b).head?.any (net.recordsBurst a b) = false))

/-! ### What every step keeps -/

/-- From `a`, a server is one link farther than from `b`. -/
def Farther (a b v : ℕ) : Prop :=
  net.graph.Adj a b ∧ net.graph.Reachable a v ∧ net.graph.dist a v = net.graph.dist b v + 1

/-- A line on its way tells of a server that its sender knows, and that is farther from where it
goes. -/
def LineOk (a b : ℕ) : HopLine → Prop
  | .self => net.graph.Adj a b
  | .server burst _ name hops =>
      net.Farther b a name ∧
        ∃ sp ∈ net.servers a, sp.name = name ∧ hops = sp.hops + if burst then 0 else 1

/-- A server that is known is known through a link, and nearer to that. -/
structure Ok : Prop where
  acyclic : net.graph.IsAcyclic
  part : ∀ a b, net.graph.Reachable a b → net.part a = net.part b
  lines : ∀ a b, ∀ line ∈ net.queue a b, net.LineOk a b line
  direct : ∀ a, ∀ b ∈ direct a (net.servers a), net.graph.Adj a b
  known : ∀ a, ∀ sp ∈ net.servers a,
    ∃ b, uplink a (net.servers a) sp.name = some b ∧ net.Farther a b sp.name

section
variable {net} {a b v w me name : ℕ} {sp : HopServer} {servers : List HopServer}

theorem mem_direct : b ∈ direct me servers ↔ ∃ sp ∈ servers, sp.parent = me ∧ sp.name = b := by
  simp [direct, and_assoc]

/-- An uplink is a link of ours, and what has one is on the list. -/
theorem mem_of_uplink (h : uplink me servers name = some b) :
    b ∈ direct me servers ∧ ∃ sp ∈ servers, sp.name = name := by
  induction servers generalizing name with
  | nil => cases h
  | cons sp servers ih =>
    have htail : ∀ {v}, uplink me servers v = some b → b ∈ direct me (sp :: servers) := by
      intro v hv
      obtain ⟨sp', hsp', hand⟩ := mem_direct.mp (ih hv).1
      exact mem_direct.mpr ⟨sp', List.mem_cons_of_mem _ hsp', hand⟩
    rw [uplink] at h
    split at h
    · rename_i hname
      refine ⟨?_, sp, List.mem_cons_self, hname⟩
      split at h
      · rename_i hparent
        obtain rfl := Option.some.inj h
        exact mem_direct.mpr ⟨sp, List.mem_cons_self, hparent, hname⟩
      · exact htail h
    · obtain ⟨-, sp', hsp', hname⟩ := ih h
      exact ⟨htail h, sp', List.mem_cons_of_mem _ hsp', hname⟩

theorem knows_eq_false : net.knows a name = false ↔
    name ≠ a ∧ ∀ sp ∈ net.servers a, sp.name ≠ name := by
  simp [knows]

/-- The lines of a burst are about servers on the list, with the hops they have there. -/
theorem mem_sendnicks {dst n src : ℕ} {line : HopLine}
    (h : line ∈ sendnicks servers dst n src) :
    ∃ sp ∈ servers, ∃ source, line = .server true source sp.name sp.hops := by
  induction n generalizing src with
  | zero => cases h
  | succ n ih =>
    rw [sendnicks] at h
    obtain ⟨sp, hsp, hline⟩ := List.mem_flatMap.mp h
    rcases List.mem_cons.mp hline with rfl | hline
    · exact ⟨sp, List.mem_of_mem_filter hsp, src, rfl⟩
    · exact ih hline

theorem mem_queue_send {c d : ℕ} {dsts : List ℕ} {line : HopLine} {lines : List HopLine}
    (h : line ∈ (net.send a dsts lines).queue c d) :
    line ∈ net.queue c d ∨ (c = a ∧ d ∈ dsts) ∧ line ∈ lines := by
  dsimp only [send] at h
  split at h
  · rename_i hcd
    exact (List.mem_append.mp h).imp_right fun hline => ⟨hcd, hline⟩
  · exact .inl h

@[simp] theorem servers_record_self : (net.record a sp).servers a = sp :: net.servers a :=
  Function.update_self ..

@[simp] theorem servers_record_of_ne {c : ℕ} (hca : c ≠ a) :
    (net.record a sp).servers c = net.servers c :=
  Function.update_of_ne hca ..

theorem mem_servers_record_iff {c : ℕ} {sp' : HopServer} :
    sp' ∈ (net.record a sp).servers c ↔ sp' ∈ net.servers c ∨ c = a ∧ sp' = sp := by
  by_cases hca : c = a
  · subst hca
    rw [servers_record_self, List.mem_cons, or_comm, and_iff_right rfl]
  · rw [servers_record_of_ne hca, or_iff_left fun h => hca h.1]

theorem mem_servers_record {c : ℕ} {sp' : HopServer} (h : sp' ∈ net.servers c) :
    sp' ∈ (net.record a sp).servers c :=
  mem_servers_record_iff.mpr (.inl h)

theorem graph_introduce : (net.introduce a b).graph = net.graph := by
  unfold introduce
  split
  · rfl
  · rfl

theorem servers_introduce : (net.introduce a b).servers = net.servers := by
  unfold introduce
  split
  · rfl
  · rfl

theorem graph_join : (net.join a b).graph = net.graph ⊔ SimpleGraph.edge a b := by
  ext c d
  simp only [graph, join, SimpleGraph.fromRel_adj, SimpleGraph.sup_adj, SimpleGraph.edge_adj,
    List.mem_cons, Prod.mk.injEq]
  tauto

theorem adj_join {c d : ℕ} (h : net.graph.Adj c d) : (net.join a b).graph.Adj c d := by
  rw [graph_join, SimpleGraph.sup_adj]
  exact .inl h

theorem Farther.join {c d : ℕ} (h : net.Farther c d v) (hG : net.graph.IsAcyclic)
    (hab : ¬ net.graph.Reachable a b) : (net.join a b).Farther c d v := by
  obtain ⟨hadj, hreach, hdist⟩ := h
  refine ⟨adj_join hadj, ?_, ?_⟩
  · rw [graph_join]
    exact hreach.mono le_sup_left
  · rw [graph_join, Distance.dist_sup_edge hG hab hreach,
      Distance.dist_sup_edge hG hab (hadj.symm.reachable.trans hreach), hdist]

/-- All links but the one that is nearer are farther. -/
theorem Farther.away (h : net.Farther a w v) (hG : net.graph.IsAcyclic) (hab : net.graph.Adj a b)
    (hwb : w ≠ b) : net.Farther b a v := by
  obtain ⟨hadj, hreach, hdist⟩ := h
  exact ⟨hab.symm, hab.symm.reachable.trans hreach,
    Distance.dist_away hG hadj hab hwb hreach hdist⟩

namespace Ok

theorem send {dsts : List ℕ} {lines : List HopLine} (h : net.Ok)
    (hlines : ∀ b ∈ dsts, ∀ line ∈ lines, net.LineOk a b line) : (net.send a dsts lines).Ok where
  acyclic := h.acyclic
  part := h.part
  direct := h.direct
  known := h.known
  lines c d line hline := by
    rcases mem_queue_send hline with hold | ⟨⟨rfl, hd⟩, hsent⟩
    · exact h.lines c d line hold
    · exact hlines d hd line hsent

theorem introduce (h : net.Ok) (hab : net.graph.Adj a b) : (net.introduce a b).Ok := by
  unfold HopNet.introduce
  split
  · exact h
  · have hsend := @send _ a [b] [.self] h fun c hc line hline => by
      obtain rfl := List.mem_singleton.mp hc
      obtain rfl := List.mem_singleton.mp hline
      exact hab
    exact ⟨hsend.acyclic, hsend.part, hsend.lines, hsend.direct, hsend.known⟩

/-- A server that is not known yet is not on the way to any other. -/
theorem establish (h : net.Ok) (hab : net.graph.Adj a b) (hb : net.knows a b = false) :
    (net.establish a b).Ok := by
  refine h.send fun c hc line hline => ?_
  obtain rfl := List.mem_singleton.mp hc
  obtain ⟨sp, hsp, source, rfl⟩ := mem_sendnicks hline
  obtain ⟨w, hw, hfar⟩ := h.known a sp hsp
  have hwc : w ≠ c := by
    rintro rfl
    obtain ⟨sp', hsp', -, hname⟩ := mem_direct.mp (mem_of_uplink hw).1
    exact (knows_eq_false.mp hb).2 sp' hsp' hname
  exact ⟨hfar.away h.acyclic hab hwc, sp, hsp, rfl, rfl⟩

theorem record (h : net.Ok) (hnew : net.knows a sp.name = false)
    (hup : uplink a (sp :: net.servers a) sp.name = some w) (hfar : net.Farther a w sp.name) :
    (net.record a sp).Ok where
  acyclic := h.acyclic
  part := h.part
  lines c d line hline := by
    have hold := h.lines c d line hline
    cases line with
    | self => exact hold
    | server burst source name hops =>
      obtain ⟨hfar', sp', hsp', hand⟩ := hold
      exact ⟨hfar', sp', mem_servers_record hsp', hand⟩
  direct c b hb := by
    obtain ⟨sp', hsp', hparent, hname⟩ := mem_direct.mp hb
    rcases mem_servers_record_iff.mp hsp' with hold | ⟨rfl, rfl⟩
    · exact h.direct c b (mem_direct.mpr ⟨sp', hold, hparent, hname⟩)
    · rw [uplink, if_pos rfl, if_pos hparent] at hup
      obtain rfl := Option.some.inj hup
      exact hname ▸ hfar.1
  known c sp' hsp' := by
    by_cases hca : c = a
    · subst hca
      rw [servers_record_self] at hsp' ⊢
      rcases List.mem_cons.mp hsp' with rfl | hold
      · exact ⟨w, hup, hfar⟩
      · obtain ⟨b, hb, hfar'⟩ := h.known c sp' hold
        have hne := (knows_eq_false.mp hnew).2 sp' hold
        exact ⟨b, by rw [uplink, if_neg (Ne.symm hne), hb], hfar'⟩
    · rw [servers_record_of_ne hca] at hsp' ⊢
      exact h.known c sp' hsp'

theorem register (h : net.Ok) (hnew : net.knows a sp.name = false)
    (hup : uplink a (sp :: net.servers a) sp.name = some w) (hfar : net.Farther a w sp.name) :
    (net.register a sp).Ok := by
  refine @send (net.record a sp) a _ _ (h.record hnew hup hfar) fun b hb line hline => ?_
  obtain rfl := List.mem_singleton.mp hline
  obtain ⟨hdirect, hne⟩ := List.mem_filter.mp hb
  have hwb : w ≠ b := by
    rintro rfl
    exact of_decide_eq_true hne hup.symm
  exact ⟨hfar.away h.acyclic (h.direct a b hdirect) hwb, sp,
    mem_servers_record_iff.mpr (.inr ⟨rfl, rfl⟩), rfl, rfl⟩

theorem take (h : net.Ok) : (net.take a b).Ok where
  acyclic := h.acyclic
  part := h.part
  direct := h.direct
  known := h.known
  lines c d line hline := by
    refine h.lines c d line ?_
    dsimp only [HopNet.take] at hline
    split at hline
    · exact List.mem_of_mem_tail hline
    · exact hline

theorem not_reachable (h : net.Ok) (hab : net.part a ≠ net.part b) : ¬ net.graph.Reachable a b :=
  fun hreach => hab (h.part a b hreach)

theorem join (h : net.Ok) (hab : net.part a ≠ net.part b) : (net.join a b).Ok where
  acyclic := by
    rw [graph_join]
    exact h.acyclic.sup_edge_of_not_reachable (h.not_reachable hab)
  part c d hreach := by
    rw [SimpleGraph.reachable_iff_reflTransGen] at hreach
    induction hreach with
    | refl => rfl
    | @tail d e _ hadj ih =>
      refine ih.trans ?_
      rw [graph_join, SimpleGraph.sup_adj, SimpleGraph.edge_adj] at hadj
      rcases hadj with hold | ⟨⟨rfl, rfl⟩ | ⟨rfl, rfl⟩, -⟩
      · simp only [HopNet.join, h.part d e hold.reachable]
      · simp [HopNet.join]
      · simp [HopNet.join]
  lines c d line hline := by
    have hold := h.lines c d line hline
    cases line with
    | self => exact adj_join hold
    | server burst source name hops =>
      exact ⟨hold.1.join h.acyclic (h.not_reachable hab), hold.2⟩
  direct c d hd := adj_join (h.direct c d hd)
  known c sp hsp := by
    obtain ⟨d, hd, hfar⟩ := h.known c sp hsp
    exact ⟨d, hd, hfar.join h.acyclic (h.not_reachable hab)⟩

end Ok

theorem Right.join (h : net.Ok) (hab : net.part a ≠ net.part b) (hright : net.Right) :
    (net.join a b).Right := by
  intro c sp hsp
  obtain ⟨hreach, hhops⟩ := hright c sp hsp
  rw [graph_join, Distance.dist_sup_edge h.acyclic (h.not_reachable hab) hreach]
  exact ⟨hreach.mono le_sup_left, hhops⟩

/-- A new entry has to be right. -/
theorem right_register_iff : (net.register a sp).Right ↔
    net.Right ∧ net.graph.Reachable a sp.name ∧ sp.hops = net.graph.dist a sp.name := by
  constructor
  · intro h
    refine ⟨fun c sp' hsp' => h c sp' (mem_servers_record hsp'), ?_⟩
    exact h a sp (mem_servers_record_iff.mpr (.inr ⟨rfl, rfl⟩))
  · rintro ⟨h, hnew⟩ c sp' hsp'
    rcases mem_servers_record_iff.mp hsp' with hold | ⟨rfl, rfl⟩
    · exact h c sp' hold
    · exact hnew

theorem right_introduce_iff : (net.introduce a b).Right ↔ net.Right := by
  rw [Right, Right, graph_introduce, servers_introduce]

/-! ### Steps and runs -/

theorem Farther.self (h : net.graph.Adj a b) : net.Farther a b b :=
  ⟨h, h.reachable, by rw [SimpleGraph.dist_self, SimpleGraph.dist_eq_one_iff_adj.mpr h]⟩

/-- A link that introduces itself. -/
theorem Ok.receive_self {net' : HopNet} (h : net.Ok) (hadj : net.graph.Adj a b)
    (hstep : net.receive a b .self = some net') : net'.Ok ∧ (net'.Right ↔ net.Right) := by
  rw [receive] at hstep
  split at hstep
  · cases hstep
  · rename_i hknows
    obtain rfl := Option.some.inj hstep
    have hadj' : (net.introduce b a).graph.Adj b a := by
      rw [graph_introduce]
      exact hadj.symm
    have hnew : (net.introduce b a).knows b a = false := by
      rw [knows, servers_introduce]
      exact Bool.eq_false_iff.mpr hknows
    have hfar := Farther.self hadj'
    constructor
    · have hok := (h.introduce hadj.symm).establish hadj' hnew
      refine hok.register hnew ?_ hfar
      rw [uplink, if_pos rfl, if_pos rfl]
    · have hone := (SimpleGraph.dist_eq_one_iff_adj.mpr hadj').symm
      rw [right_register_iff, and_iff_left ⟨hfar.2.1, hone⟩]
      exact right_introduce_iff

/-- A server that a link introduces. -/
theorem Ok.receive_server {net' : HopNet} {burst : Bool} {source hops : ℕ} (h : net.Ok)
    (hline : net.LineOk a b (.server burst source name hops))
    (hstep : net.receive a b (.server burst source name hops) = some net') :
    net'.Ok ∧ (net.Right → (net'.Right ↔
      net.recordsBurst a b (.server burst source name hops) = false)) := by
  rw [receive] at hstep
  split at hstep
  · rename_i hup
    obtain rfl := Option.some.inj hstep
    refine ⟨h, fun hright => iff_of_true hright ?_⟩
    cases burst with
    | false => rfl
    | true => exact beq_false_of_ne hup
  rename_i hup
  have hup' := not_not.mp hup
  split at hstep
  · cases hstep
  rename_i hknows
  obtain rfl := Option.some.inj hstep
  obtain ⟨hfar, sp, hsp, rfl, hhops⟩ := hline
  have hsource : source ≠ b := by
    rintro rfl
    obtain ⟨-, sp', hsp', hname⟩ := mem_of_uplink hup'
    obtain ⟨w, -, hself⟩ := h.known source sp' hsp'
    rw [hname] at hself
    have hdist := hself.2.2
    rw [SimpleGraph.dist_self] at hdist
    cases hdist
  constructor
  · refine h.register (Bool.eq_false_iff.mpr hknows) ?_ hfar
    rw [uplink, if_pos rfl, if_neg hsource, hup']
  · intro hright
    have hdist := (hright a sp hsp).2
    rw [right_register_iff, and_iff_right hright, and_iff_right hfar.2.1, hfar.2.2, hhops, hdist]
    cases burst with
    | false => simp [recordsBurst]
    | true => simp [recordsBurst, hup']

theorem Ok.step {net' : HopNet} {act : Action} (h : net.Ok) (hstep : net.step act = some net') :
    net'.Ok ∧ (net.Right → (net'.Right ↔ net.NoBurst act)) := by
  cases act with
  | link a b =>
    rw [HopNet.step] at hstep
    split at hstep
    · cases hstep
    · rename_i hab
      obtain rfl := Option.some.inj hstep
      have hadj : (net.join a b).graph.Adj a b := by
        rw [graph_join, SimpleGraph.sup_adj, SimpleGraph.edge_adj]
        exact .inr ⟨.inl ⟨rfl, rfl⟩, fun heq => hab (congrArg net.part heq)⟩
      refine ⟨(h.join hab).introduce hadj, fun hright => iff_of_true ?_ trivial⟩
      exact right_introduce_iff.mpr (hright.join h hab)
  | deliver a b =>
    rw [HopNet.step] at hstep
    split at hstep
    · cases hstep
    · rename_i line rest hqueue
      have hline : net.LineOk a b line := h.lines a b line (hqueue ▸ List.mem_cons_self)
      rw [NoBurst, hqueue, List.head?_cons, Option.any_some]
      cases line with
      | self =>
        obtain ⟨hok, hright⟩ := (h.take (a := a) (b := b)).receive_self hline hstep
        exact ⟨hok, fun hold => iff_of_true (hright.mpr hold) rfl⟩
      | server burst source name hops =>
        exact (h.take (a := a) (b := b)).receive_server hline hstep

theorem graph_start : start.graph = ⊥ := by
  ext a b
  simp [graph, start]

theorem ok_start : start.Ok where
  acyclic := graph_start ▸ SimpleGraph.isAcyclic_bot
  part a b hreach := by
    rw [graph_start, SimpleGraph.reachable_bot] at hreach
    exact congrArg start.part hreach
  lines a b line hline := by cases hline
  direct a b hb := by cases hb
  known a sp hsp := by cases hsp

/-- The hops recorded are the numbers of links in between, in every state reached, exactly when no
server records another one from a burst. -/
theorem hops_of_run_iff (acts : List Action) (t : HopNet)
    (hrun : Run.run step start acts = some t) :
    (∀ before behind net, acts = before ++ behind → Run.run step start before = some net →
      net.Right) ↔ Run.Along step NoBurst start acts :=
  Run.forall_reached_iff (fun _ _ _ h hstep => (h.step hstep).1)
    (fun _ _ _ h hright hstep => (h.step hstep).2 hright) ok_start (fun _ _ hsp => by cases hsp)
    hrun

/-- Two servers are linked. -/
def twoServers : List Action := [.link 0 1, .deliver 0 1, .deliver 1 0]

theorem hops_of_run_iff_twoServers : ∃ t, Run.run step start twoServers = some t ∧
    ∀ before behind net, twoServers = before ++ behind →
      Run.run step start before = some net → net.Right := by
  have hsome : (Run.run step start twoServers).isSome := by decide
  obtain ⟨t, hrun⟩ := Option.isSome_iff_exists.mp hsome
  exact ⟨t, hrun, (hops_of_run_iff twoServers t hrun).mpr (by decide)⟩

/-- A third one gets the burst of the second. -/
def threeServers : List Action :=
  twoServers ++ [.link 2 1, .deliver 2 1, .deliver 1 2, .deliver 1 2]

/-- What is two links away is recorded with one hop. -/
theorem hops_fails : ¬ ∀ (acts : List Action) (net : HopNet),
    Run.run step start acts = some net → net.Right := by
  intro hall
  have hvals : (Run.run step start threeServers).map (fun net => (net.servers 2, net.links)) =
      some ([⟨0, 1, 1⟩, ⟨1, 2, 1⟩], [(2, 1), (0, 1)]) := by
    decide
  obtain ⟨net, hrun, hnet⟩ := Option.map_eq_some_iff.mp hvals
  obtain ⟨hservers, hlinks⟩ := Prod.mk.inj hnet
  have hsp : (⟨0, 1, 1⟩ : HopServer) ∈ net.servers 2 := hservers ▸ List.mem_cons_self
  have hdist := (hall threeServers net hrun 2 ⟨0, 1, 1⟩ hsp).2
  have hadj := SimpleGraph.dist_eq_one_iff_adj.mp hdist.symm
  rw [graph, SimpleGraph.fromRel_adj, hlinks] at hadj
  exact absurd hadj (by decide)

end

end HopNet

end Ithildin
