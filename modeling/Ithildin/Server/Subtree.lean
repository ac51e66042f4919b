import Ithildin.Lib.Forest
import Ithildin.Lib.Run
import Ithildin.Server.Commands
import Mathlib.Tactic.Ring

/-!
# What `destroy_server` removes

`server_register` puts a server at the head of the list, so a server stands there before its parent
(`Net.Ordered`). The walk of `destroy_server` keeps the successor of the server it is at, and what a
recursive call deletes stands before that.

* `Removal`: servers and clients are gone, and the counters tell how many;
* `destroyServer_removal`: the recursion, by the place of the server on the list;
* `destroy_of_run`: after any registrations and removals.
-/

namespace Ithildin

namespace Net

/-- The server another one is linked to. -/
def parent (net : Net) (s : ℕ) : Option ℕ := (net.srv s).parent

open scoped Classical in
/-- `x` is `s` or a server behind it. -/
noncomputable def below (net : Net) (s x : ℕ) : Bool := decide (Forest.Below net.parent s x)

/-- The connection is that of one of the servers in `P` or of the clients in `Q`. -/
def owned (net : Net) (P Q : ℕ → Bool) (c : ℕ) : Bool :=
  (net.servers.any fun s => P s && (net.srv s).conn == some c) ||
    net.clients.any fun k => Q k && (net.cli k).conn == some c

/-- The servers in `P` and the clients in `Q` are gone, and their connections. -/
structure Removal (P Q : ℕ → Bool) (a b : Net) : Prop where
  me : b.me = a.me
  srv : b.srv = a.srv
  cli : b.cli = a.cli
  connection : b.connection = a.connection
  conf : b.conf = a.conf
  fresh : b.fresh = a.fresh
  conns : b.conns = a.conns.filter fun c => !a.owned P Q c
  serverConns : b.serverConns = a.serverConns.filter fun c => !a.owned P Q c
  servers : b.servers = a.servers.filter fun s => !P s
  clients : b.clients = a.clients.filter fun c => !Q c
  statServers : b.statServers = a.statServers - a.servers.countP P
  statServServers : b.statServServers =
    a.statServServers - a.servers.countP fun s => P s && a.myServer s
  fault : b.fault = a.fault

/-- The servers in `P` are gone, with the clients on them. -/
abbrev Gone (P : ℕ → Bool) (a b : Net) : Prop := Removal P (fun c => P (a.cli c).server) a b

/-- The server list is in order, its members are registered, `ircd.me` has no parent, and clients
are on registered servers. -/
structure Ordered (net : Net) : Prop where
  order : Forest.Ordered net.parent net.me net.servers
  registered : ∀ s ∈ net.servers, (net.srv s).registered = true
  me_parent : net.parent net.me = none
  clients : ∀ c ∈ net.clients, (net.cli c).server = net.me ∨ (net.cli c).server ∈ net.servers
  clients_nodup : net.clients.Nodup

/-! ### Removals one after the other -/

section

variable {P Q P' Q' : ℕ → Bool} {a b c : Net}

theorem owned_false (net : Net) (c : ℕ) :
    net.owned (fun _ => false) (fun _ => false) c = false := by
  have hnone : ∀ l : List ℕ, (l.any fun _ => false) = false := fun l =>
    List.any_eq_false.mpr fun _ _ => Bool.false_ne_true
  simp [owned, hnone]

theorem Removal.refl (a : Net) : Removal (fun _ => false) (fun _ => false) a a where
  me := rfl
  srv := rfl
  cli := rfl
  connection := rfl
  conf := rfl
  fresh := rfl
  conns := (List.filter_eq_self.mpr fun c _ => by rw [owned_false]; rfl).symm
  serverConns := (List.filter_eq_self.mpr fun c _ => by rw [owned_false]; rfl).symm
  servers := by simp
  clients := by simp
  statServers := by simp
  statServServers := by simp
  fault := rfl

theorem countP_or {l : List ℕ} {p q m : ℕ → Bool} :
    l.countP (fun x => (p x || q x) && m x) =
      l.countP (fun x => p x && m x) + (l.filter fun x => !p x).countP fun x => q x && m x := by
  induction l with
  | nil => rfl
  | cons x l ih =>
    rw [List.countP_cons, List.countP_cons, List.filter_cons, ih]
    cases hp : p x with
    | true =>
      simp only [Bool.true_or, Bool.true_and, Bool.not_true, Bool.false_eq_true, if_false]
      omega
    | false =>
      simp only [Bool.false_or, Bool.false_and, Bool.not_false, Bool.false_eq_true, if_false,
        if_true, List.countP_cons]
      omega

theorem any_congr_of_mem {l : List ℕ} {p q : ℕ → Bool} (h : ∀ x ∈ l, p x = q x) :
    l.any p = l.any q := by
  induction l with
  | nil => rfl
  | cons x l ih =>
    rw [List.any_cons, List.any_cons, h x List.mem_cons_self,
      ih fun y hy => h y (List.mem_cons_of_mem x hy)]

theorem any_or {l : List ℕ} {p q m : ℕ → Bool} :
    l.any (fun x => (p x || q x) && m x) =
      (l.any (fun x => p x && m x) || (l.filter fun x => !p x).any fun x => q x && m x) := by
  induction l with
  | nil => rfl
  | cons x l ih =>
    rw [List.any_cons, List.any_cons, List.filter_cons, ih]
    cases hp : p x with
    | true => simp [Bool.or_assoc]
    | false => simp [Bool.or_left_comm]

/-- Whose a connection is, when some are gone already. -/
theorem Removal.owned (h : Removal P Q a b) (c : ℕ) :
    a.owned (fun s => P s || P' s) (fun k => Q k || Q' k) c =
      (a.owned P Q c || b.owned P' Q' c) := by
  unfold Net.owned
  rw [h.servers, h.clients, h.srv, h.cli, any_or, any_or]
  ac_rfl

theorem owned_congr (hP : ∀ s ∈ a.servers, P s = P' s) (hQ : ∀ k ∈ a.clients, Q k = Q' k) (c : ℕ) :
    a.owned P Q c = a.owned P' Q' c := by
  have hservers : (a.servers.any fun s => P s && (a.srv s).conn == some c) =
      a.servers.any fun s => P' s && (a.srv s).conn == some c :=
    any_congr_of_mem fun s hs => by rw [hP s hs]
  have hclients : (a.clients.any fun k => Q k && (a.cli k).conn == some c) =
      a.clients.any fun k => Q' k && (a.cli k).conn == some c :=
    any_congr_of_mem fun k hk => by rw [hQ k hk]
  rw [Net.owned, Net.owned, hservers, hclients]

theorem Removal.trans (h : Removal P Q a b) (h' : Removal P' Q' b c) :
    Removal (fun s => P s || P' s) (fun s => Q s || Q' s) a c where
  me := h'.me.trans h.me
  srv := h'.srv.trans h.srv
  cli := h'.cli.trans h.cli
  connection := h'.connection.trans h.connection
  conf := h'.conf.trans h.conf
  fresh := h'.fresh.trans h.fresh
  conns := by
    rw [h'.conns, h.conns, List.filter_filter]
    exact List.filter_congr fun c _ => by rw [h.owned, Bool.not_or, Bool.and_comm]
  serverConns := by
    rw [h'.serverConns, h.serverConns, List.filter_filter]
    exact List.filter_congr fun c _ => by rw [h.owned, Bool.not_or, Bool.and_comm]
  servers := by
    rw [h'.servers, h.servers, List.filter_filter]
    exact List.filter_congr fun x _ => by rw [Bool.not_or, Bool.and_comm]
  clients := by
    rw [h'.clients, h.clients, List.filter_filter]
    exact List.filter_congr fun x _ => by rw [Bool.not_or, Bool.and_comm]
  statServers := by
    have hcount := @countP_or a.servers P P' fun _ => true
    simp only [Bool.and_true] at hcount
    rw [h'.statServers, h.statServers, h.servers, hcount]
    push_cast
    ring
  statServServers := by
    have hmine : b.myServer = a.myServer := by
      funext s
      rw [myServer, myServer, h.srv]
    rw [h'.statServServers, h.statServServers, h.servers, hmine, countP_or]
    push_cast
    ring
  fault := h'.fault.trans h.fault

/-- It is only of what is on the lists that anything is said. -/
theorem Removal.congr (h : Removal P Q a b) (hP : ∀ s ∈ a.servers, P s = P' s)
    (hQ : ∀ c ∈ a.clients, Q c = Q' c) : Removal P' Q' a b where
  me := h.me
  srv := h.srv
  cli := h.cli
  connection := h.connection
  conf := h.conf
  fresh := h.fresh
  conns := by
    rw [h.conns]
    exact List.filter_congr fun c _ => by rw [owned_congr hP hQ]
  serverConns := by
    rw [h.serverConns]
    exact List.filter_congr fun c _ => by rw [owned_congr hP hQ]
  servers := by
    rw [h.servers]
    exact List.filter_congr fun s hs => by rw [hP s hs]
  clients := by
    rw [h.clients]
    exact List.filter_congr fun c hc => by rw [hQ c hc]
  statServers := by
    rw [h.statServers, List.countP_congr fun s hs => by rw [hP s hs]]
  statServServers := by
    rw [h.statServServers, List.countP_congr fun s hs => by rw [hP s hs]]
  fault := h.fault

theorem Removal.parent (h : Removal P Q a b) : b.parent = a.parent := by
  funext s
  rw [Net.parent, Net.parent, h.srv]

theorem Removal.below (h : Removal P Q a b) (s : ℕ) : b.below s = a.below s := by
  funext x
  rw [Net.below, Net.below, h.parent]

theorem Removal.gone (h : Gone P a b) (h' : Gone P' b c) : Gone (fun s => P s || P' s) a c := by
  have htrans := h.trans h'
  rwa [h.cli] at htrans

/-- A removal that takes the servers behind those that go leaves the list in order. -/
theorem Removal.ordered (h : Removal P Q a b) (ha : a.Ordered)
    (hP : ∀ x p, a.parent x = some p → P p = true → P x = true)
    (hQ : ∀ c, P (a.cli c).server = true → Q c = true) : b.Ordered where
  order := by
    rw [h.parent, h.me, h.servers]
    refine ha.order.filter fun x p hp hx => .inr ?_
    cases hPp : P p with
    | false => rfl
    | true =>
      rw [hP x p hp hPp] at hx
      exact hx
  registered s hs := by
    rw [h.servers] at hs
    rw [h.srv]
    exact ha.registered s (List.mem_of_mem_filter hs)
  me_parent := by
    rw [h.parent, h.me]
    exact ha.me_parent
  clients c hc := by
    rw [h.clients] at hc
    obtain ⟨hc, hkept⟩ := List.mem_filter.mp hc
    rw [h.cli, h.me, h.servers]
    refine (ha.clients c hc).imp_right fun hs => List.mem_filter.mpr ⟨hs, ?_⟩
    cases hPs : P (a.cli c).server with
    | false => rfl
    | true =>
      rw [hQ c hPs] at hkept
      exact hkept
  clients_nodup := by
    rw [h.clients]
    exact ha.clients_nodup.filter _

theorem below_iff {s x : ℕ} : a.below s x = true ↔ Forest.Below a.parent s x := by
  simp [below]

theorem below_of_parent {s x p : ℕ} (hp : a.parent x = some p) (h : a.below s p = true) :
    a.below s x = true :=
  below_iff.mpr (.step hp (below_iff.mp h))

end

/-! ### The parts of `destroy_server` -/

variable {net : Net}

theorem filter_ne (l : List ℕ) (c : ℕ) :
    l.filter (fun d => decide (d ≠ c)) = l.filter fun d => !(some c == some d) := by
  refine List.filter_congr fun d _ => ?_
  by_cases hd : d = c
  · simp [hd]
  · simp [hd, Ne.symm hd]

theorem conns_closeOwn (net : Net) (o : Option ℕ) :
    (net.closeOwn o).conns = net.conns.filter fun c => !(o == some c) := by
  cases o with
  | none => simp [closeOwn]
  | some c => exact filter_ne net.conns c

theorem serverConns_closeOwn (net : Net) (o : Option ℕ) :
    (net.closeOwn o).serverConns = net.serverConns.filter fun c => !(o == some c) := by
  cases o with
  | none => simp [closeOwn]
  | some c => exact filter_ne net.serverConns c

theorem any_beq {l : List ℕ} {x : ℕ} (h : x ∈ l) (m : ℕ → Bool) :
    (l.any fun y => y == x && m y) = m x := by
  rw [Bool.eq_iff_iff, List.any_eq_true]
  constructor
  · rintro ⟨y, -, hy⟩
    rw [Bool.and_eq_true, beq_iff_eq] at hy
    obtain ⟨rfl, hm⟩ := hy
    exact hm
  · exact fun hm => ⟨x, h, by simp [hm]⟩

theorem countP_beq {l : List ℕ} {x : ℕ} (h : x ∈ l) (hl : l.Nodup) (m : ℕ → Bool) :
    l.countP (fun y => y == x && m y) = if m x then 1 else 0 := by
  have hone : l.countP (fun y => y == x) = 1 := List.count_eq_one_of_mem hl h
  cases hm : m x with
  | true =>
    rw [if_pos rfl, ← hone]
    refine List.countP_congr fun y _ => ?_
    by_cases hy : y = x <;> simp [hy, hm]
  | false =>
    rw [if_neg Bool.false_ne_true, List.countP_eq_zero]
    intro y _
    by_cases hy : y = x <;> simp [hy, hm]

section

variable (net : Net) (o : Option ℕ)

@[simp] theorem closeOwn_me : (net.closeOwn o).me = net.me := by cases o <;> rfl

@[simp] theorem closeOwn_srv : (net.closeOwn o).srv = net.srv := by cases o <;> rfl

@[simp] theorem closeOwn_cli : (net.closeOwn o).cli = net.cli := by cases o <;> rfl

@[simp] theorem closeOwn_connection : (net.closeOwn o).connection = net.connection := by
  cases o <;> rfl

@[simp] theorem closeOwn_conf : (net.closeOwn o).conf = net.conf := by cases o <;> rfl

@[simp] theorem closeOwn_fresh : (net.closeOwn o).fresh = net.fresh := by cases o <;> rfl

@[simp] theorem closeOwn_servers : (net.closeOwn o).servers = net.servers := by cases o <;> rfl

@[simp] theorem closeOwn_clients : (net.closeOwn o).clients = net.clients := by cases o <;> rfl

@[simp] theorem closeOwn_statServers : (net.closeOwn o).statServers = net.statServers := by
  cases o <;> rfl

@[simp] theorem closeOwn_statServServers :
    (net.closeOwn o).statServServers = net.statServServers := by
  cases o <;> rfl

@[simp] theorem closeOwn_fault : (net.closeOwn o).fault = net.fault := by cases o <;> rfl

end

theorem destroyClient_removal {c : ℕ} (h : c ∈ net.clients) :
    Removal (fun _ => false) (fun k => k == c) net (net.destroyClient c) where
  me := closeOwn_me ..
  srv := closeOwn_srv ..
  cli := closeOwn_cli ..
  connection := closeOwn_connection ..
  conf := closeOwn_conf ..
  fresh := closeOwn_fresh ..
  conns := by
    refine (conns_closeOwn net _).trans (List.filter_congr fun d _ => ?_)
    unfold owned
    rw [any_beq h]
    simp
  serverConns := by
    refine (serverConns_closeOwn net _).trans (List.filter_congr fun d _ => ?_)
    unfold owned
    rw [any_beq h]
    simp
  servers := by simp [destroyClient]
  clients := List.filter_congr fun k _ => by by_cases hk : k = c <;> simp [hk]
  statServers := by simp [destroyClient]
  statServServers := by simp [destroyClient]
  fault := closeOwn_fault ..

theorem dropClients_removal (h : net.clients.Nodup) (s : ℕ) :
    Removal (fun _ => false) (fun c => (net.cli c).server == s) net (net.dropClients s) := by
  suffices ∀ l : List ℕ, l.Nodup → ∀ cur : Net, cur.cli = net.cli → (∀ c ∈ l, c ∈ cur.clients) →
      Removal (fun _ => false) (fun c => decide (c ∈ l) && (net.cli c).server == s) cur
        (l.foldl (fun net c => if (net.cli c).server = s then net.destroyClient c else net)
          cur) from
    (this net.clients h net rfl fun _ hc => hc).congr (fun _ _ => rfl) fun c hc => by simp [hc]
  intro l hl
  induction l with
  | nil => exact fun cur _ _ => (Removal.refl cur).congr (fun _ _ => rfl) fun c _ => by simp
  | cons k l ih =>
    intro cur hcur hmem
    obtain ⟨hk, hl⟩ := List.nodup_cons.mp hl
    rw [List.foldl_cons, hcur]
    split
    · rename_i hks
      have hclient := destroyClient_removal (hmem k List.mem_cons_self)
      have hrest := ih hl _ (hclient.cli.trans hcur) fun c hc => by
        rw [hclient.clients]
        refine List.mem_filter.mpr ⟨hmem c (List.mem_cons_of_mem k hc), ?_⟩
        have hck : c ≠ k := fun heq => hk (heq ▸ hc)
        simp [hck]
      refine (hclient.trans hrest).congr (fun _ _ => rfl) fun c _ => ?_
      by_cases hck : c = k
      · simp [hck, hks]
      · simp [hck]
    · rename_i hks
      have hrest := ih hl cur hcur fun c hc => hmem c (List.mem_cons_of_mem k hc)
      refine hrest.congr (fun _ _ => rfl) fun c _ => ?_
      by_cases hck : c = k
      · simp [hck, hks]
      · simp [hck]

/-- The end of `destroy_server`. -/
theorem unlinkServer_removal {s : ℕ} (hs : s ∈ net.servers) (hnodup : net.servers.Nodup) :
    Removal (fun x => x == s) (fun _ => false) net
      ((net.unlinkServer s).closeOwn (net.srv s).conn) where
  me := closeOwn_me ..
  srv := closeOwn_srv ..
  cli := closeOwn_cli ..
  connection := closeOwn_connection ..
  conf := closeOwn_conf ..
  fresh := closeOwn_fresh ..
  conns := by
    refine (conns_closeOwn _ _).trans (List.filter_congr fun d _ => ?_)
    unfold owned
    rw [any_beq hs]
    simp
  serverConns := by
    refine (serverConns_closeOwn _ _).trans (List.filter_congr fun d _ => ?_)
    unfold owned
    rw [any_beq hs]
    simp
  servers := by
    rw [closeOwn_servers]
    exact List.filter_congr fun x _ => by by_cases hx : x = s <;> simp [hx]
  clients := by simp [unlinkServer]
  statServers := by
    have hcount := countP_beq hs hnodup fun _ => true
    simp only [Bool.and_true, if_true] at hcount
    rw [hcount, closeOwn_statServers]
    rfl
  statServServers := by
    rw [countP_beq hs hnodup, closeOwn_statServServers, unlinkServer]
    split <;> simp
  fault := closeOwn_fault ..

/-- The successor on a list without repetitions. -/
theorem nextOf_append {l₁ l₂ : List ℕ} {x : ℕ} (h : x ∉ l₁) :
    nextOf (l₁ ++ x :: l₂) x = l₂.head? := by
  unfold nextOf
  rw [List.dropWhile_append_of_pos]
  · rw [List.dropWhile_cons_of_neg (by simp)]
    rfl
  · intro y hy
    rw [decide_eq_true_iff]
    rintro rfl
    exact h hy

/-! ### The walk -/

/-- The servers behind a child of `s` among the first ones. -/
noncomputable def behind (net : Net) (s : ℕ) (l : List ℕ) (x : ℕ) : Bool :=
  l.any fun child => decide (net.parent child = some s) && net.below child x

theorem behind_append (net : Net) (s : ℕ) (l : List ℕ) (sp x : ℕ) :
    net.behind s (l ++ [sp]) x =
      (net.behind s l x || (decide (net.parent sp = some s) && net.below sp x)) := by
  simp [behind]

theorem behind_of_parent {s x p : ℕ} {l : List ℕ} (hp : net.parent x = some p)
    (h : net.behind s l p = true) : net.behind s l x = true := by
  unfold behind at h ⊢
  rw [List.any_eq_true] at h ⊢
  obtain ⟨child, hmem, hchild⟩ := h
  rw [Bool.and_eq_true] at hchild
  exact ⟨child, hmem, Bool.and_eq_true _ _ |>.mpr ⟨hchild.1, below_of_parent hp hchild.2⟩⟩

/-- Nothing behind a server stands after it. -/
theorem Ordered.below_eq_false (h : net.Ordered) {l₁ l₂ : List ℕ} {s x : ℕ}
    (hl : net.servers = l₁ ++ s :: l₂) (hx : x ∈ l₂) : net.below s x = false := by
  have horder := h.order
  rw [hl] at horder
  rw [← Bool.not_eq_true, below_iff]
  exact horder.of_append.not_below h.me_parent (.inr hx)

theorem Ordered.behind_eq_false (h : net.Ordered) {s x : ℕ} {done rest : List ℕ}
    (hl : net.servers = done ++ rest) (hx : x ∈ rest) : net.behind s done x = false := by
  unfold behind
  rw [List.any_eq_false]
  intro child hchild
  obtain ⟨d₁, d₂, rfl⟩ := List.append_of_mem hchild
  rw [List.append_assoc, List.cons_append] at hl
  rw [h.below_eq_false hl (List.mem_append_right d₂ hx), Bool.and_false]
  exact Bool.false_ne_true

/-- The walk steps to a server that is still on the list. -/
theorem readServer_eq {sp : ℕ} (h : sp ∈ net.servers) : net.readServer sp = net := by
  unfold readServer
  rw [List.contains_iff_mem.mpr h, Bool.not_true, Bool.or_false]

/-- What a call to destroy a server has to do where the walk calls it. -/
def Destroys (destroy : Net → ℕ → Net) (n : ℕ) : Prop :=
  ∀ net s l₁ l₂, net.Ordered → net.servers = l₁ ++ s :: l₂ → l₁.length < n →
    Gone (net.below s) net (destroy net s)

/-- The walk over the rest of the list; `done` are the servers it has passed. -/
theorem dropChildren_gone {destroy : Net → ℕ → Net} {n s : ℕ} (hdestroy : Destroys destroy n)
    (hnet : net.Ordered) (hchild : ∀ l₁ c l₂, net.servers = l₁ ++ c :: l₂ →
      net.parent c = some s → l₁.length < n) {done rest : List ℕ}
    (hl : net.servers = done ++ rest) {cur : Net} (hcur : Gone (net.behind s done) net cur) {k : ℕ}
    (hk : rest.length ≤ k) :
    Gone (net.behind s net.servers) net (dropChildren destroy s k rest.head? cur) := by
  induction rest generalizing done cur k with
  | nil =>
    rw [List.append_nil] at hl
    rw [← hl] at hcur
    cases k with
    | zero => exact hcur
    | succ k => exact hcur
  | cons sp rest ih =>
    obtain ⟨k, rfl⟩ : ∃ k', k = k' + 1 := Nat.exists_eq_succ_of_ne_zero (by
      rintro rfl
      exact absurd hk (by simp))
    have hservers : cur.servers =
        (done.filter fun x => !net.behind s done x) ++ sp :: rest := by
      rw [hcur.servers, hl, List.filter_append]
      congr 1
      rw [List.filter_eq_self]
      intro x hx
      rw [hnet.behind_eq_false hl hx]
      rfl
    have hsp : sp ∉ done := by
      have hnodup := hnet.order.nodup
      rw [hl] at hnodup
      exact fun hmem => List.disjoint_of_nodup_append hnodup hmem List.mem_cons_self
    have hnext : nextOf cur.servers sp = rest.head? := by
      rw [hservers]
      exact nextOf_append fun hmem => hsp (List.mem_of_mem_filter hmem)
    have hread : cur.readServer sp = cur := readServer_eq (by rw [hservers]; simp)
    rw [List.head?_cons, dropChildren, hnext, hread]
    have hl' : net.servers = (done ++ [sp]) ++ rest := by rw [hl]; simp
    have hk' : rest.length ≤ k := by
      rw [List.length_cons] at hk
      omega
    refine ih hl' ?_ hk'
    have hparent : (cur.srv sp).parent = net.parent sp := by rw [hcur.srv]; rfl
    rw [hparent]
    split
    · rename_i hs
      have hordered : cur.Ordered := 
        hcur.ordered hnet (fun x p hp => behind_of_parent hp) fun _ hc => hc
      have hlt : (done.filter fun x => !net.behind s done x).length < n :=
        (List.length_filter_le _ _).trans_lt (hchild done sp rest hl hs)
      have hgone := hcur.gone (hdestroy cur sp _ rest hordered hservers hlt)
      rw [hcur.below] at hgone
      have heq : net.behind s (done ++ [sp]) = fun x => net.behind s done x || net.below sp x := by
        funext x
        rw [behind_append, decide_eq_true hs, Bool.true_and]
      rw [heq]
      exact hgone
    · rename_i hs
      have heq : net.behind s (done ++ [sp]) = net.behind s done := by
        funext x
        rw [behind_append, decide_eq_false hs, Bool.false_and, Bool.or_false]
      rw [heq]
      exact hcur

/-! ### The recursion -/

/-- A child stands before its parent. -/
theorem Ordered.child_mem (h : net.Ordered) {s c : ℕ} {l₁ l₂ : List ℕ}
    (hl : net.servers = l₁ ++ s :: l₂) (hc : net.parent c = some s) (hmem : c ∈ net.servers) :
    c ∈ l₁ := by
  rw [hl] at hmem
  obtain hc₁ | hc₂ := List.mem_append.mp hmem
  · exact hc₁
  · have hbelow : net.below s c = true := below_iff.mpr (.step hc .refl)
    obtain rfl | hc₂ := List.mem_cons.mp hc₂
    · have horder := h.order
      rw [hl] at horder
      obtain ⟨hne, hnot, ⟨p, hp, hup⟩, -⟩ := horder.of_append
      obtain rfl := Option.some.inj (hp.symm.trans hc)
      exact absurd hup (not_or.mpr ⟨hne, hnot⟩)
    · rw [h.below_eq_false hl hc₂] at hbelow
      exact absurd hbelow Bool.false_ne_true

theorem Ordered.length_lt (h : net.Ordered) {s c : ℕ} {l₁ l₂ m₁ m₂ : List ℕ}
    (hl : net.servers = l₁ ++ s :: l₂) (hm : net.servers = m₁ ++ c :: m₂)
    (hc : net.parent c = some s) : m₁.length < l₁.length := by
  have hidx : ∀ (k₁ k₂ : List ℕ) (x : ℕ), net.servers = k₁ ++ x :: k₂ →
      net.servers.idxOf x = k₁.length := by
    intro k₁ k₂ x hk
    have hnodup := h.order.nodup
    rw [hk] at hnodup ⊢
    rw [List.idxOf_append_of_notMem, List.idxOf_cons_self, Nat.add_zero]
    exact fun hmem => List.disjoint_of_nodup_append hnodup hmem List.mem_cons_self
  have hmem : c ∈ l₁ := h.child_mem hl hc (by rw [hm]; simp)
  have hc₁ : net.servers.idxOf c = l₁.idxOf c := by
    rw [hl, List.idxOf_append_of_mem hmem]
  rw [← hidx m₁ m₂ c hm, hc₁]
  exact List.idxOf_lt_length_of_mem hmem

/-- No server is behind a child of its own. -/
theorem Ordered.behind_self (h : net.Ordered) {s : ℕ} (hs : s ∈ net.servers) :
    net.behind s net.servers s = false := by
  unfold behind
  rw [List.any_eq_false]
  intro c hmem hc
  rw [Bool.and_eq_true, decide_eq_true_iff] at hc
  obtain ⟨l₁, l₂, hl⟩ := List.append_of_mem hs
  obtain ⟨m₁, m₂, rfl⟩ := List.append_of_mem (h.child_mem hl hc.1 hmem)
  rw [List.append_assoc, List.cons_append] at hl
  rw [h.below_eq_false hl (by simp)] at hc
  exact Bool.false_ne_true hc.2

/-- What is behind a server is the server or behind one of its children. -/
theorem Ordered.below_eq (h : net.Ordered) {s x : ℕ} (hx : x = net.me ∨ x ∈ net.servers) :
    net.below s x = (net.behind s net.servers x || x == s) := by
  rw [Bool.eq_iff_iff, below_iff, Forest.below_iff, Bool.or_eq_true, beq_iff_eq, or_comm]
  refine or_congr_left ?_
  unfold behind
  rw [List.any_eq_true]
  constructor
  · rintro ⟨c, hc, hbelow⟩
    have hmem : c ∈ net.servers := by
      obtain rfl | hmem := h.order.above_mem h.me_parent hbelow hx
      · rw [h.me_parent] at hc
        exact absurd hc (by simp)
      · exact hmem
    exact ⟨c, hmem, Bool.and_eq_true _ _ |>.mpr ⟨decide_eq_true hc, below_iff.mpr hbelow⟩⟩
  · rintro ⟨c, -, hc⟩
    rw [Bool.and_eq_true, decide_eq_true_iff, below_iff] at hc
    exact ⟨c, hc⟩

theorem destroyServer_gone (n : ℕ) : Destroys (destroyServer n) n := by
  induction n with
  | zero => exact fun net s l₁ l₂ _ _ hn => absurd hn (Nat.not_lt_zero _)
  | succ n ih =>
    intro net s l₁ l₂ hnet hl hn
    have hs : s ∈ net.servers := by
      rw [hl]
      simp
    rw [destroyServer, if_pos (hnet.registered s hs)]
    -- first the servers behind the children, then the clients of `s`, then `s`
    have hwalk : Gone (net.behind s net.servers) net
        (dropChildren (destroyServer n) s net.servers.length net.servers.head? net) := by
      refine dropChildren_gone ih hnet (fun m₁ c m₂ hm hc => ?_) (List.nil_append _).symm ?_ le_rfl
      · have hlt := hnet.length_lt hl hm hc
        omega
      · exact (Removal.refl net).congr (fun _ _ => rfl) fun _ _ => rfl
    generalize dropChildren (destroyServer n) s net.servers.length net.servers.head? net = cur
      at hwalk
    have hcur_nodup : cur.clients.Nodup := by
      rw [hwalk.clients]
      exact hnet.clients_nodup.filter _
    have hclients := dropClients_removal hcur_nodup s
    have hcur : s ∈ cur.servers := by
      rw [hwalk.servers]
      exact List.mem_filter.mpr ⟨hs, by rw [hnet.behind_self hs]; rfl⟩
    have hmem : s ∈ (cur.dropClients s).servers := by
      rw [hclients.servers]
      simpa using hcur
    have hnodup : (cur.dropClients s).servers.Nodup := by
      rw [hclients.servers, hwalk.servers]
      exact (hnet.order.nodup.filter _).filter _
    have hlast := unlinkServer_removal hmem hnodup
    rw [hclients.srv, hwalk.srv] at hlast
    have hall := (hwalk.trans hclients).trans hlast
    refine hall.congr (fun x hx => ?_) fun c hc => ?_
    · rw [hnet.below_eq (.inr hx)]
      simp
    · rw [hnet.below_eq (hnet.clients c hc), hwalk.cli]
      simp

/-- `destroy_server` takes a server and what is behind it, and nothing else. -/
theorem Ordered.destroy (h : net.Ordered) {s : ℕ} (hs : s ∈ net.servers) :
    Gone (net.below s) net (net.destroy s) := by
  obtain ⟨l₁, l₂, hl⟩ := List.append_of_mem hs
  refine destroyServer_gone _ net s l₁ l₂ h hl ?_
  rw [hl, List.length_append]
  omega

/-! ### Runs -/

/-- What may happen to the lists: `register` creates a server, fills it in and registers it. -/
inductive TreeAction
  | register (v : Server) (parent : ℕ)
  | client (v : Client)
  | destroyClient (c : ℕ)
  | destroy (s : ℕ)

/-- Only `ircd.me` is there. -/
def alone (me : Server) (conf : Bytes → Option ServerConf) (protocol : Bytes → Bool)
    (sameNick : Bytes → Bytes → Bool) : Net where
  me := 0
  srv _ := { me with parent := none, conn := none, registered := false }
  cli _ := ⟨[], 0, none, false⟩
  connection _ := ⟨none, [], none, none⟩
  servers := []
  clients := []
  conns := []
  serverConns := []
  statServers := 0
  statServServers := 0
  conf := conf
  protocol := protocol
  sameNick := sameNick
  fresh := 1
  fault := false

/-- A new server is filled in and registered. -/
def registerNew (net : Net) (v : Server) (parent : ℕ) : Net :=
  ({ net with fresh := net.fresh + 1 }.modifyServer net.fresh fun _ =>
    { v with parent := some parent, registered := false }).registerServer net.fresh

/-- A step of the lists: parents and the servers of clients are registered. -/
def treeStep (net : Net) : TreeAction → Option Net
  | .register v parent =>
    if parent = net.me ∨ parent ∈ net.servers then some (net.registerNew v parent) else none
  | .client v =>
    if v.server = net.me ∨ v.server ∈ net.servers then
      some { net with
        cli := Function.update net.cli net.fresh v
        clients := net.fresh :: net.clients
        fresh := net.fresh + 1 }
    else none
  | .destroyClient c => if c ∈ net.clients then some (net.destroyClient c) else none
  | .destroy s => if s ∈ net.servers then some (net.destroy s) else none

/-- What the steps keep. -/
structure Grown (net : Net) : Prop where
  ordered : net.Ordered
  fresh : ∀ s ∈ net.servers, s < net.fresh
  me_lt : net.me < net.fresh
  fresh_clients : ∀ c ∈ net.clients, c < net.fresh
  fault : net.fault = false

theorem grown_alone (me : Server) (conf : Bytes → Option ServerConf) (protocol : Bytes → Bool)
    (sameNick : Bytes → Bytes → Bool) : (alone me conf protocol sameNick).Grown where
  ordered := {
    order := trivial
    registered := fun _ hs => absurd hs List.not_mem_nil
    me_parent := rfl
    clients := fun _ hc => absurd hc List.not_mem_nil
    clients_nodup := List.nodup_nil }
  fresh _ hs := absurd hs List.not_mem_nil
  me_lt := Nat.zero_lt_one
  fresh_clients _ hc := absurd hc List.not_mem_nil
  fault := rfl

/-- Whole subtrees go, or just clients. -/
theorem Grown.removal {a b : Net} (h : a.Grown) {P Q : ℕ → Bool} (hgone : Removal P Q a b)
    (hP : ∀ x p, a.parent x = some p → P p = true → P x = true)
    (hQ : ∀ c, P (a.cli c).server = true → Q c = true) : b.Grown where
  ordered := hgone.ordered h.ordered hP hQ
  fresh s hs := by
    rw [hgone.servers] at hs
    rw [hgone.fresh]
    exact h.fresh s (List.mem_of_mem_filter hs)
  me_lt := by
    rw [hgone.me, hgone.fresh]
    exact h.me_lt
  fresh_clients c hc := by
    rw [hgone.clients] at hc
    rw [hgone.fresh]
    exact h.fresh_clients c (List.mem_of_mem_filter hc)
  fault := by
    rw [hgone.fault]
    exact h.fault

theorem Grown.destroy (h : net.Grown) {s : ℕ} (hs : s ∈ net.servers) : (net.destroy s).Grown :=
  h.removal (h.ordered.destroy hs) (fun _ _ hp hbelow => below_of_parent hp hbelow) fun _ hc => hc

theorem registerConn_eq (net : Net) (o : Option ℕ) :
    (net.registerConn o).servers = net.servers ∧ (net.registerConn o).clients = net.clients ∧
      (net.registerConn o).srv = net.srv ∧ (net.registerConn o).cli = net.cli ∧
      (net.registerConn o).me = net.me ∧ (net.registerConn o).fresh = net.fresh ∧
      (net.registerConn o).fault = net.fault := by
  cases o <;> exact ⟨rfl, rfl, rfl, rfl, rfl, rfl, rfl⟩

/-- `server_register` puts a server at the head of the list. -/
theorem registerServer_eq (net : Net) (s : ℕ) :
    (net.registerServer s).servers = s :: net.servers ∧
      (net.registerServer s).clients = net.clients ∧
      (net.registerServer s).srv =
        Function.update net.srv s { net.srv s with registered := true } ∧
      (net.registerServer s).cli = net.cli ∧ (net.registerServer s).me = net.me ∧
      (net.registerServer s).fresh = net.fresh ∧ (net.registerServer s).fault = net.fault := by
  obtain ⟨h₁, h₂, h₃, h₄, h₅, h₆, h₇⟩ := registerConn_eq
    { net with servers := s :: net.servers, statServers := net.statServers + 1 } (net.srv s).conn
  refine ⟨h₁, h₂, ?_, h₄, h₅, h₆, h₇⟩
  unfold registerServer modifyServer
  rw [h₃]

/-- A server that was not there is registered under a parent that is. -/
theorem Grown.register (h : net.Grown) {s p : ℕ} (hs : s ∉ net.servers) (hme : s ≠ net.me)
    (hlt : s < net.fresh) (hp : net.parent s = some p) (hmem : p = net.me ∨ p ∈ net.servers) :
    (net.registerServer s).Grown := by
  obtain ⟨hservers, hclients, hsrv, hcli, hme', hfresh, hfault⟩ := registerServer_eq net s
  have hparent : (net.registerServer s).parent = net.parent := by
    funext x
    rw [parent, parent, hsrv]
    by_cases hx : x = s
    · subst hx
      rw [Function.update_self]
    · rw [Function.update_of_ne hx]
  refine ⟨⟨?_, ?_, ?_, ?_, ?_⟩, ?_, ?_, ?_, hfault.trans h.fault⟩
  · rw [hparent, hservers, hme']
    exact ⟨hme, hs, ⟨p, hp, hmem⟩, h.ordered.order⟩
  · intro x hx
    rw [hservers] at hx
    rw [hsrv]
    by_cases hxs : x = s
    · subst hxs
      rw [Function.update_self]
    · rw [Function.update_of_ne hxs]
      exact h.ordered.registered x ((List.mem_cons.mp hx).resolve_left hxs)
  · rw [hparent, hme']
    exact h.ordered.me_parent
  · intro c hc
    rw [hclients] at hc
    rw [hcli, hme', hservers]
    exact (h.ordered.clients c hc).imp_right (List.mem_cons_of_mem s)
  · rw [hclients]
    exact h.ordered.clients_nodup
  · intro x hx
    rw [hservers] at hx
    rw [hfresh]
    obtain rfl | hx := List.mem_cons.mp hx
    · exact hlt
    · exact h.fresh x hx
  · rw [hme', hfresh]
    exact h.me_lt
  · rw [hclients, hfresh]
    exact h.fresh_clients

/-- A record that is neither a server's on the list nor `ircd.me`'s may be written. -/
theorem Grown.modify (h : net.Grown) {s : ℕ} (hs : s ∉ net.servers) (hme : s ≠ net.me)
    (f : Server → Server) : (net.modifyServer s f).Grown := by
  have hsrv : ∀ x, x ≠ s → (net.modifyServer s f).srv x = net.srv x := fun x hx =>
    Function.update_of_ne hx _ _
  have hmem : ∀ x ∈ net.servers, x ≠ s := by
    rintro x hx rfl
    exact hs hx
  refine ⟨⟨?_, ?_, ?_, h.ordered.clients, h.ordered.clients_nodup⟩, h.fresh, h.me_lt,
    h.fresh_clients, h.fault⟩
  · refine h.ordered.order.congr fun x hx => ?_
    rw [parent, parent, hsrv x (hmem x hx)]
  · intro x hx
    rw [hsrv x (hmem x hx)]
    exact h.ordered.registered x hx
  · show ((net.modifyServer s f).srv net.me).parent = none
    rw [hsrv net.me hme.symm]
    exact h.ordered.me_parent

theorem Grown.fresh_add (h : net.Grown) (n : ℕ) :
    ({ net with fresh := net.fresh + n } : Net).Grown where
  ordered := ⟨h.ordered.order, h.ordered.registered, h.ordered.me_parent, h.ordered.clients,
    h.ordered.clients_nodup⟩
  fresh s hs := (h.fresh s hs).trans_le (Nat.le_add_right _ _)
  me_lt := h.me_lt.trans_le (Nat.le_add_right _ _)
  fresh_clients c hc := (h.fresh_clients c hc).trans_le (Nat.le_add_right _ _)
  fault := h.fault

/-- A client that has not been there comes on a registered server or on ours. -/
theorem Grown.client (h : net.Grown) {k n : ℕ} {v : Client} (hk : net.fresh ≤ k)
    (hkn : k < net.fresh + n) (hv : v.server = net.me ∨ v.server ∈ net.servers) :
    ({ net with
      cli := Function.update net.cli k v
      clients := k :: net.clients
      fresh := net.fresh + n } : Net).Grown := by
  have hnot : k ∉ net.clients := fun hmem => absurd (h.fresh_clients k hmem) (Nat.not_lt.mpr hk)
  have hnext := h.fresh_add n
  refine ⟨⟨h.ordered.order, h.ordered.registered, h.ordered.me_parent, fun c hc => ?_,
    List.nodup_cons.mpr ⟨hnot, h.ordered.clients_nodup⟩⟩, hnext.fresh, hnext.me_lt,
    fun c hc => ?_, h.fault⟩
  · dsimp only
    by_cases hck : c = k
    · subst hck
      rw [Function.update_self]
      exact hv
    · rw [Function.update_of_ne hck]
      exact h.ordered.clients c ((List.mem_cons.mp hc).resolve_left hck)
  · obtain rfl | hc := List.mem_cons.mp hc
    · exact hkn
    · exact hnext.fresh_clients c hc

theorem Grown.closeOwn (h : net.Grown) (o : Option ℕ) : (net.closeOwn o).Grown := by
  cases o with
  | none => exact h
  | some c =>
    exact ⟨⟨h.ordered.order, h.ordered.registered, h.ordered.me_parent, h.ordered.clients,
      h.ordered.clients_nodup⟩, h.fresh, h.me_lt, h.fresh_clients, h.fault⟩

theorem Grown.step (h : net.Grown) {a : TreeAction} {net' : Net}
    (hstep : treeStep net a = some net') : net'.Grown := by
  cases a with
  | register v p =>
    rw [treeStep] at hstep
    split_ifs at hstep with hp
    obtain rfl := Option.some.inj hstep
    have hnew : net.fresh ∉ net.servers := fun hs => absurd (h.fresh _ hs) (lt_irrefl _)
    have hme : net.fresh ≠ net.me := h.me_lt.ne'
    refine Grown.register ((h.fresh_add 1).modify hnew hme _) hnew hme (Nat.lt_succ_self _) ?_ hp
    show (Function.update net.srv net.fresh _ net.fresh).parent = some p
    rw [Function.update_self]
  | client v =>
    rw [treeStep] at hstep
    split_ifs at hstep with hv
    obtain rfl := Option.some.inj hstep
    exact h.client le_rfl (Nat.lt_succ_self _) hv
  | destroyClient c =>
    rw [treeStep] at hstep
    split_ifs at hstep with hc
    obtain rfl := Option.some.inj hstep
    exact h.removal (destroyClient_removal hc) (fun _ _ _ hp => hp)
      fun _ hp => absurd hp Bool.false_ne_true
  | destroy s =>
    rw [treeStep] at hstep
    split_ifs at hstep with hs
    obtain rfl := Option.some.inj hstep
    exact h.destroy hs

theorem grown_of_run {me : Server} {conf : Bytes → Option ServerConf} {protocol : Bytes → Bool}
    {sameNick : Bytes → Bytes → Bool} {as : List TreeAction}
    (hrun : Run.run treeStep (alone me conf protocol sameNick) as = some net) : net.Grown :=
  Run.run_induction (I := fun _ => Grown) (grown_alone me conf protocol sameNick)
    (fun _ _ _ _ h hstep => h.step hstep) hrun

/-- After any registrations, `destroy_server` takes a server and its descendants off the list, with
their clients, counts them off, and does not stray from the list. -/
theorem destroy_of_run {me : Server} {conf : Bytes → Option ServerConf} {protocol : Bytes → Bool}
    {sameNick : Bytes → Bytes → Bool} {as : List TreeAction}
    (hrun : Run.run treeStep (alone me conf protocol sameNick) as = some net) {s : ℕ}
    (hs : s ∈ net.servers) :
    Gone (net.below s) net (net.destroy s) ∧ (net.destroy s).fault = false := by
  have h := grown_of_run hrun
  exact ⟨h.ordered.destroy hs, (h.destroy hs).fault⟩

/-- A link with two servers behind it, another link, and a client on one of them. -/
def spread : List TreeAction :=
  [.register (Server.blank (some 10)) 0, .register (Server.blank none) 1,
    .register (Server.blank (some 11)) 0, .register (Server.blank none) 2,
    .client ⟨[], 4, none, false⟩]

/-- A server without configuration, after these registrations. -/
def spreadNet : Net :=
  let net := alone (Server.blank none) (fun _ => none) (fun _ => false) fun _ _ => false
  (Run.run treeStep net spread).getD net

theorem destroy_of_run_spread : Gone (spreadNet.below 1) spreadNet (spreadNet.destroy 1) ∧
    (spreadNet.destroy 1).fault = false ∧ spreadNet.servers = [4, 3, 2, 1] ∧
    (spreadNet.destroy 1).servers = [3] := by
  have hrun : Run.run treeStep (alone (Server.blank none) (fun _ => none) (fun _ => false)
      fun _ _ => false) spread = some spreadNet := rfl
  have h := destroy_of_run hrun (s := 1) (by decide)
  exact ⟨h.1, h.2, by decide, by decide⟩

end Net

end Ithildin
