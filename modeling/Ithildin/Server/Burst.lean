import Ithildin.Lib.Preorder
import Ithildin.Server.Subtree

/-!
# The burst of servers and nicks

`server_sendnicks`, which `server_establish` calls for `ircd.me`: a server introduces what it knows
to a new link.

* `BurstLine`, `sendnicks`: the lines, in the order they are sent;
* `sendnicks_eq`: the walk of `Forest.preorder`, with a section for each server;
* `Burst`: which lines there are, and in what order;
* `burst_of_ordered`: so it is for every tree of servers and every link.
-/

namespace Ithildin

/-- What is sent: a SERVER line for a server, with the server it comes from, the name and the hops,
or the registration of a client, by `register_user` of the protocol. -/
inductive BurstLine
  | server (s : ℕ) (source : Option ℕ) (name : Bytes) (hops : ℤ)
  | user (c : ℕ)
  deriving DecidableEq

namespace Net

variable (net : Net) (registered : ℕ → Bool) (dst : ℕ)

/-- The SERVER line of a server. -/
def serverLine (s : ℕ) : BurstLine :=
  .server s (net.srv s).parent (net.srv s).name (net.srv s).hops

/-- What is sent of one server: its line, unless it is `ircd.me`, and its clients. -/
def serverSection (s : ℕ) : List BurstLine :=
  (if s ≠ net.me then [net.serverLine s] else []) ++
    (net.clients.filter fun c => registered c && (net.cli c).server == s).map .user

/-- `server_sendnicks`, down to a depth. -/
def sendnicks : ℕ → ℕ → List BurstLine
  | 0, _ => []
  | n + 1, s =>
    if net.myServer dst then
      net.serverSection registered s ++
        (net.servers.filter fun sp => decide ((net.srv sp).parent = some s ∧ sp ≠ dst)).flatMap
          (sendnicks n)
    else []

/-- `server_sendnicks(srv, ircd.me)` of `server_establish`. -/
def burst : List BurstLine := net.sendnicks registered dst (net.servers.length + 1) net.me

/-- The lines of a burst: one for each server that is not behind the link, and for each client on
these and on `ircd.me`, each after the line of the server it is on, or is linked to. -/
structure Burst (lines : List BurstLine) : Prop where
  nodup : lines.Nodup
  known : ∀ x ∈ lines, (∃ s, x = net.serverLine s) ∨ ∃ c, x = .user c
  servers : ∀ s, net.serverLine s ∈ lines ↔
    s ∈ net.servers ∧ ¬ Forest.Below net.parent dst s
  users : ∀ c, .user c ∈ lines ↔
    c ∈ net.clients ∧ registered c = true ∧ ¬ Forest.Below net.parent dst (net.cli c).server
  after_parent : ∀ s p, net.serverLine s ∈ lines → net.parent s = some p → p ≠ net.me →
    List.Sublist [net.serverLine p, net.serverLine s] lines
  after_server : ∀ c, .user c ∈ lines → (net.cli c).server ≠ net.me →
    List.Sublist [net.serverLine (net.cli c).server, .user c] lines

section
variable {net registered dst} {s c n : ℕ} {x : BurstLine}

/-- The recursion is the walk. -/
theorem sendnicks_eq (hdst : net.myServer dst = true) (n s : ℕ) :
    net.sendnicks registered dst n s =
      (Forest.preorder net.servers net.parent dst n s).flatMap (net.serverSection registered) := by
  induction n generalizing s with
  | zero => rfl
  | succ n ih =>
    rw [sendnicks, if_pos hdst, Forest.preorder, List.flatMap_cons, List.flatMap_assoc]
    exact congrArg _ (List.flatMap_congr fun sp _ => ih sp)

theorem serverLine_inj {s t : ℕ} (h : net.serverLine s = net.serverLine t) : s = t := by
  rw [serverLine, serverLine] at h
  injection h

theorem mem_serverSection : x ∈ net.serverSection registered s ↔
    (s ≠ net.me ∧ x = net.serverLine s) ∨
      ∃ c ∈ net.clients, (registered c = true ∧ (net.cli c).server = s) ∧ x = .user c := by
  rw [serverSection, List.mem_append, List.mem_ite_nil_right, List.mem_singleton, List.mem_map]
  refine or_congr_right (exists_congr fun c => ?_)
  rw [List.mem_filter, Bool.and_eq_true, beq_iff_eq, and_assoc, @eq_comm _ x]

theorem serverLine_mem_serverSection {t : ℕ} : net.serverLine t ∈ net.serverSection registered s ↔
    s ≠ net.me ∧ t = s := by
  refine mem_serverSection.trans ⟨?_, fun ⟨hs, hts⟩ => .inl ⟨hs, hts ▸ rfl⟩⟩
  rintro (⟨hs, hline⟩ | ⟨c, -, -, hline⟩)
  · exact ⟨hs, serverLine_inj hline⟩
  · cases hline

theorem user_mem_serverSection : .user c ∈ net.serverSection registered s ↔
    c ∈ net.clients ∧ registered c = true ∧ (net.cli c).server = s := by
  refine mem_serverSection.trans ⟨?_, fun ⟨hc, hand⟩ => .inr ⟨c, hc, hand, rfl⟩⟩
  rintro (⟨-, hline⟩ | ⟨k, hk, hand, hline⟩)
  · cases hline
  · injection hline with hck
    exact hck ▸ ⟨hk, hand⟩

theorem nodup_serverSection (h : net.Ordered) (s : ℕ) : (net.serverSection registered s).Nodup := by
  rw [serverSection]
  have husers : ((net.clients.filter fun c => registered c && (net.cli c).server == s).map
      BurstLine.user).Nodup :=
    (h.clients_nodup.filter _).map fun a b hab => BurstLine.user.inj hab
  split
  · refine List.nodup_append.mpr ⟨List.nodup_singleton _, husers, fun a ha b hb => ?_⟩
    obtain ⟨c, -, rfl⟩ := List.mem_map.mp hb
    obtain rfl := List.mem_singleton.mp ha
    intro hline
    cases hline
  · exact husers

/-- The sections of two servers have nothing in common. -/
theorem disjoint_sections {s t : ℕ} (hst : s ≠ t) :
    List.Disjoint (net.serverSection registered s) (net.serverSection registered t) := by
  intro x hs ht
  rcases mem_serverSection.mp hs with ⟨-, rfl⟩ | ⟨c, -, ⟨-, hc⟩, rfl⟩
  · exact hst (serverLine_mem_serverSection.mp ht).2
  · exact hst (hc.symm.trans (user_mem_serverSection.mp ht).2.2)

variable (net dst) in
/-- The servers on this side of the link, in the order of the walk. -/
def burstOrder : List ℕ :=
  Forest.preorder net.servers net.parent dst (net.servers.length + 1) net.me

theorem burst_eq (hmine : net.myServer dst = true) :
    net.burst registered dst = (net.burstOrder dst).flatMap (net.serverSection registered) :=
  sendnicks_eq hmine _ _

/-- The walk from `ircd.me` is not cut off at once. -/
theorem Ordered.not_below_me (h : net.Ordered) (hdst : dst ≠ net.me) :
    ¬ Forest.Below net.parent dst net.me := by
  intro hbelow
  cases hbelow with
  | refl => exact hdst rfl
  | step hp _ =>
    rw [h.me_parent] at hp
    cases hp

theorem Ordered.idxOf_me (h : net.Ordered) : net.servers.idxOf net.me = net.servers.length :=
  List.idxOf_of_notMem h.order.root_notin

theorem Ordered.idxOf_me_lt (h : net.Ordered) :
    net.servers.idxOf net.me < net.servers.length + 1 := h.idxOf_me ▸ Nat.lt_succ_self _

theorem mem_burstOrder (h : net.Ordered) (hdst : dst ≠ net.me) (hs : s = net.me ∨ s ∈ net.servers) :
    s ∈ net.burstOrder dst ↔ ¬ Forest.Below net.parent dst s := by
  rw [burstOrder, h.order.mem_preorder h.me_parent h.idxOf_me_lt (h.not_below_me hdst) hs]
  refine and_iff_right ?_
  rcases hs with rfl | hs
  · exact .refl
  · exact h.order.below_root hs

theorem burstOrder_mem (hs : s ∈ net.burstOrder dst) : s = net.me ∨ s ∈ net.servers :=
  Forest.preorder_mem (.inl rfl) hs

theorem serverLine_mem_burst (h : net.Ordered) (hdst : dst ≠ net.me) :
    net.serverLine s ∈ (net.burstOrder dst).flatMap (net.serverSection registered) ↔
      s ∈ net.servers ∧ ¬ Forest.Below net.parent dst s := by
  rw [List.mem_flatMap]
  constructor
  · rintro ⟨t, ht, hline⟩
    obtain ⟨htme, rfl⟩ := serverLine_mem_serverSection.mp hline
    have hs := (burstOrder_mem ht).resolve_left htme
    exact ⟨hs, (mem_burstOrder h hdst (.inr hs)).mp ht⟩
  · rintro ⟨hs, hbelow⟩
    exact ⟨s, (mem_burstOrder h hdst (.inr hs)).mpr hbelow, serverLine_mem_serverSection.mpr
      ⟨ne_of_mem_of_not_mem hs h.order.root_notin, rfl⟩⟩

theorem user_mem_burst (h : net.Ordered) (hdst : dst ≠ net.me) :
    .user c ∈ (net.burstOrder dst).flatMap (net.serverSection registered) ↔ c ∈ net.clients ∧
      registered c = true ∧ ¬ Forest.Below net.parent dst (net.cli c).server := by
  rw [List.mem_flatMap]
  constructor
  · rintro ⟨s, hs, hline⟩
    obtain ⟨hc, hreg, rfl⟩ := user_mem_serverSection.mp hline
    exact ⟨hc, hreg, (mem_burstOrder h hdst (burstOrder_mem hs)).mp hs⟩
  · rintro ⟨hc, hreg, hbelow⟩
    exact ⟨_, (mem_burstOrder h hdst (h.clients c hc)).mpr hbelow,
      user_mem_serverSection.mpr ⟨hc, hreg, rfl⟩⟩

/-- `server_sendnicks` sends what the tree on this side of the link has, in order, at any depth that
is enough. The link may be on the list of servers already, or, as in the SERVER command, be
registered after the burst. -/
theorem burst_of_ordered (h : net.Ordered) (hdst : dst ≠ net.me)
    (hmine : net.myServer dst = true) :
    net.Burst registered dst (net.burst registered dst) ∧
      ∀ n, net.servers.length < n →
        net.sendnicks registered dst n net.me = net.burst registered dst := by
  have hcut := h.not_below_me hdst
  refine ⟨?_, fun n hlt => ?_⟩
  · rw [burst_eq hmine]
    constructor
    · refine List.nodup_flatMap.mpr ⟨fun s _ => nodup_serverSection h s, ?_⟩
      exact (h.order.nodup_preorder h.me_parent h.idxOf_me_lt hcut (.inl rfl)).imp fun hst =>
        disjoint_sections hst
    · intro x hx
      obtain ⟨s, -, hxs⟩ := List.mem_flatMap.mp hx
      rcases mem_serverSection.mp hxs with ⟨-, rfl⟩ | ⟨c, -, -, rfl⟩
      · exact .inl ⟨s, rfl⟩
      · exact .inr ⟨c, rfl⟩
    · exact fun s => serverLine_mem_burst h hdst
    · exact fun c => user_mem_burst h hdst
    · intro s p hs hp hpme
      obtain ⟨hs, hbelow⟩ := (serverLine_mem_burst h hdst).mp hs
      have hsme : s ≠ net.me := ne_of_mem_of_not_mem hs h.order.root_notin
      obtain ⟨q, hq, hsub⟩ :=
        Forest.parent_first ((mem_burstOrder h hdst (.inr hs)).mpr hbelow) hsme
      obtain rfl := Option.some.inj (hq.symm.trans hp)
      have hlines := hsub.flatMap (net.serverSection registered)
      refine List.Sublist.trans ?_ hlines
      rw [List.flatMap_cons, List.flatMap_singleton]
      exact (List.singleton_sublist.mpr (serverLine_mem_serverSection.mpr ⟨hpme, rfl⟩)).append
        (List.singleton_sublist.mpr (serverLine_mem_serverSection.mpr ⟨hsme, rfl⟩))
    · intro c hc hcme
      obtain ⟨hc, hreg, hbelow⟩ := (user_mem_burst h hdst).mp hc
      have hso := (mem_burstOrder h hdst (h.clients c hc)).mpr hbelow
      refine List.Sublist.trans ?_ (List.sublist_flatten_of_mem (List.mem_map_of_mem hso))
      rw [serverSection, if_pos hcme]
      refine List.Sublist.cons_cons _ (List.singleton_sublist.mpr (List.mem_map_of_mem ?_))
      rw [List.mem_filter, hreg, beq_self_eq_true]
      exact ⟨hc, rfl⟩
  · rw [sendnicks_eq hmine, burst_eq hmine, burstOrder,
      h.order.preorder_stable (h.idxOf_me ▸ hlt) h.idxOf_me_lt hcut]

/-- Another link, with a tree behind it, is introduced to the link. -/
theorem burst_of_ordered_spreadNet : spreadNet.Burst (fun _ => true) 3
    (spreadNet.burst (fun _ => true) 3) := by
  have hrun : Run.run treeStep (alone (Server.blank none) (fun _ => none) (fun _ => false)
      fun _ _ => false) spread = some spreadNet := rfl
  exact (burst_of_ordered (grown_of_run hrun).ordered (by decide) (by decide)).1

end

end Net

end Ithildin
