import Ithildin.Lib.Firsts
import Ithildin.Lib.Routing
import Ithildin.Match
import Mathlib.Tactic.Common

/-!
# Messages to a mask

An operator's NOTICE or PRIVMSG to `$$mask` is for the clients on servers with such names, and one
to `$#mask` for those with such hosts. Every server takes it to the clients of its own and passes it
on, with one character less in its target.

* `MaskNet`: the servers of a network, the links between them and the clients;
* `sendtoMatchButone`, `deliver`: what a server does with a message, and what comes of it;
* `Handed`: the servers that the message gets to;
* `count_deliver`: a client gets it once if its server does and matches it, and otherwise not;
* `audience_iff`: whether this is the audience.
-/

namespace Ithildin

/-- A client, as far as masks go. One that a module has made has no connection. -/
structure MaskClient (V : Type) where
  home : V
  host : Bytes
  registered : Bool
  conn : Bool

/-- A network at rest: the links make a tree, `next v t` is what `srv_server_uplink` finds at the
server `v` for the server `t`, and every server lists the same clients, in an order of its own. -/
structure MaskNet (V : Type) where
  links : SimpleGraph V
  next : V → V → V
  hops : Routing.NextHop links next
  name : V → Bytes
  cli : ℕ → MaskClient V
  clients : V → List ℕ
  same : ∀ v v' c, c ∈ clients v → c ∈ clients v'

/-- The connection to a client of the server's own, or to another server. -/
inductive MaskConn (V : Type)
  | own (c : ℕ)
  | link (x : V)
  deriving DecidableEq

def MaskConn.elim {V β : Type} (f : ℕ → β) (g : V → β) : MaskConn V → β
  | .own c => f c
  | .link x => g x

namespace MaskNet

variable {V : Type} [DecidableEq V] (w : MaskNet V)

/-- The byte `'$'`. -/
def dollar : UInt8 := 36

/-- The byte `'#'`. -/
def hash : UInt8 := 35

/-- `cli_uplink` -/
def cliUplink (v : V) (c : ℕ) : Option (MaskConn V) :=
  if (w.cli c).home = v then
    if (w.cli c).conn then some (.own c) else none
  else some (.link (w.next v (w.cli c).home))

/-- `cli_server_uplink` -/
def cliServerUplink (v : V) (c : ℕ) : V :=
  if (w.cli c).home = v then v else w.next v (w.cli c).home

/-- The test of `sendto_match_butone`: the pattern begins behind the first character of the mask. -/
def hits (mask : Bytes) (c : ℕ) : Bool :=
  match mask.tail with
  | [] => stringMatch [] (w.name (w.cli c).home)
  | a :: pat =>
      if a = hash then stringMatch pat (w.cli c).host
      else stringMatch (a :: pat) (w.name (w.cli c).home)

/-- The loop of `sendto_match_butone`: the connections that get the message. -/
def matchLoop (v : V) (one : Option ℕ) (mask : Bytes) :
    (MaskConn V → Bool) → List ℕ → List (MaskConn V)
  | _, [] => []
  | sends, c :: l =>
      if some c = one then matchLoop v one mask sends l
      else if !(w.cli c).registered then matchLoop v one mask sends l
      else
        match w.cliUplink v c with
        | none => matchLoop v one mask sends l
        | some conn =>
            if sends conn then matchLoop v one mask sends l
            else if !w.hits mask c then matchLoop v one mask sends l
            else conn :: matchLoop v one mask (Function.update sends conn true) l

/-- `sendto_match_butone` -/
def sendtoMatchButone (v : V) (one : Option ℕ) (mask : Bytes) : List (MaskConn V) :=
  w.matchLoop v one mask (fun _ => false) (w.clients v)

/-- A target that is a `'$'` with a mask behind it. -/
def IsMask (tgt : Bytes) : Prop := tgt.head? = some dollar ∧ tgt.tail ≠ []

instance (tgt : Bytes) : Decidable (IsMask tgt) := inferInstanceAs (Decidable (_ ∧ _))

/-- The clients that get a message in the end which a server is sent by `sptr`:
`command_exec_client` takes it if the sender is in that direction, and `do_send_notice` passes what
stands behind the `'$'` of the target to `sendto_match_butone`. `other` are those that it reaches
with a target of another kind. -/
def deliver (other : V → Bytes → List ℕ) (sender : ℕ) : ℕ → V → V → Bytes → List ℕ
  | 0, _, _, _ => []
  | n + 1, sptr, v, tgt =>
      if sptr ≠ w.cliServerUplink v sender then []
      else if IsMask tgt then
        (w.sendtoMatchButone v none tgt.tail).flatMap
          (MaskConn.elim (fun c => [c]) fun x => deliver other sender n v x tgt.tail)
      else other v tgt

/-- The target that an operator gives, for hosts or for servers. -/
def target (host : Bool) (mask : Bytes) : Bytes :=
  dollar :: (if host then hash else dollar) :: mask

/-- The clients it is meant for. -/
def audience (host : Bool) (mask : Bytes) (c : ℕ) : Bool :=
  if host then stringMatch mask (w.cli c).host else stringMatch mask (w.name (w.cli c).home)

/-- Each client of the audience gets it once, and no other one does. -/
def Exact (v : V) (host : Bool) (mask : Bytes) (got : List ℕ) : Prop :=
  ∀ c, got.count c =
    if c ∈ w.clients v ∧ (w.cli c).registered ∧ (w.cli c).conn ∧ w.audience host mask c
    then 1 else 0

/-- What is left of the target when the message is at a server. -/
noncomputable def left (s : V) (tgt : Bytes) (v : V) : Bytes := tgt.drop (w.links.dist s v)

/-- A server that has the message passes it on over a link: some client behind it matches. -/
def Passed (s : V) (tgt : Bytes) (v x : V) : Prop :=
  ∃ c ∈ w.clients v, (w.cli c).registered ∧ (w.cli c).home ≠ v ∧ w.next v (w.cli c).home = x ∧
    w.hits (w.left s tgt v).tail c

/-- The servers that the message gets to, away from the sender's. -/
inductive Handed (s : V) (tgt : Bytes) : V → Prop
  | start : Handed s tgt s
  | hop (v x : V) (hv : Handed s tgt v) (hx : w.Passed s tgt v x)
      (haway : w.links.dist s x = w.links.dist s v + 1) : Handed s tgt x

/-- A client matches the target as its server gets it. -/
def Hit (s : V) (tgt : Bytes) (c : ℕ) : Prop :=
  c ∈ w.clients s ∧ (w.cli c).registered ∧ (w.cli c).conn ∧
    w.hits (w.left s tgt (w.cli c).home).tail c

section
variable {w} {other : V → Bytes → List ℕ} {sender c n : ℕ} {s sptr v x : V} {tgt mask : Bytes}
  {sends : MaskConn V → Bool} {l : List ℕ} {conn : MaskConn V}

/-! ### One server -/

/-- A connection that a client puts up. -/
def wanted (w : MaskNet V) (v : V) (mask : Bytes) (c : ℕ) : Option (MaskConn V) :=
  if (w.cli c).registered && w.hits mask c then w.cliUplink v c else none

/-- The loop takes each connection once. -/
theorem matchLoop_eq : w.matchLoop v none mask sends l =
    Firsts.firsts id sends (l.filterMap (w.wanted v mask)) := by
  induction l generalizing sends with
  | nil => rfl
  | cons c l ih =>
    rw [matchLoop, if_neg (Option.some_ne_none c), ih]
    cases hreg : (w.cli c).registered with
    | false =>
      have hnone : w.wanted v mask c = none := by rw [wanted, hreg]; rfl
      rw [List.filterMap_cons_none hnone]
      rfl
    | true =>
      cases hup : w.cliUplink v c with
      | none =>
        have hnone : w.wanted v mask c = none := by rw [wanted, hup, ite_self]
        rw [List.filterMap_cons_none hnone]
        rfl
      | some conn =>
        cases hhits : w.hits mask c with
        | false =>
          have hnone : w.wanted v mask c = none := by rw [wanted, hhits, Bool.and_false]; rfl
          rw [List.filterMap_cons_none hnone]
          exact ite_self _
        | true =>
          have hsome : w.wanted v mask c = some conn := by rw [wanted, hreg, hhits, hup]; rfl
          rw [List.filterMap_cons_some hsome, Firsts.firsts_cons]
          simp only [Bool.not_true, Bool.false_eq_true, if_false, id_eq, ih]

theorem mem_wanted : conn ∈ (w.clients v).filterMap (w.wanted v mask) ↔
    ∃ c ∈ w.clients v, (w.cli c).registered ∧ w.hits mask c ∧ w.cliUplink v c = some conn := by
  refine List.mem_filterMap.trans (exists_congr fun c => and_congr_right fun _ => ?_)
  rw [wanted, Option.ite_none_right_eq_some, Bool.and_eq_true, and_assoc]

theorem cliUplink_own_iff {d : ℕ} : w.cliUplink v d = some (.own c) ↔
    d = c ∧ (w.cli c).home = v ∧ (w.cli c).conn := by
  rw [cliUplink]
  split
  · rename_i hhome
    rw [Option.ite_none_right_eq_some, Option.some.injEq, MaskConn.own.injEq]
    constructor
    · rintro ⟨hconn, rfl⟩
      exact ⟨rfl, hhome, hconn⟩
    · rintro ⟨rfl, -, hconn⟩
      exact ⟨hconn, rfl⟩
  · rename_i hhome
    constructor
    · rintro ⟨⟩
    · rintro ⟨rfl, heq, -⟩
      exact absurd heq hhome

theorem cliUplink_link_iff : w.cliUplink v c = some (.link x) ↔
    (w.cli c).home ≠ v ∧ w.next v (w.cli c).home = x := by
  rw [cliUplink]
  split
  · rename_i hhome
    constructor
    · intro heq
      split at heq <;> cases heq
    · rintro ⟨hne, -⟩
      exact absurd hhome hne
  · rename_i hhome
    rw [Option.some.injEq, MaskConn.link.injEq, and_iff_right hhome]

theorem count_sendto : (w.sendtoMatchButone v none mask).count conn =
    if conn ∈ (w.clients v).filterMap (w.wanted v mask) then 1 else 0 := by
  rw [sendtoMatchButone, matchLoop_eq]
  exact Firsts.count_firsts (fun _ _ heq => heq) rfl

theorem mem_sendto : conn ∈ w.sendtoMatchButone v none mask ↔
    ∃ c ∈ w.clients v, (w.cli c).registered ∧ w.hits mask c ∧ w.cliUplink v c = some conn := by
  rw [← mem_wanted, ← List.count_pos_iff, count_sendto]
  split <;> simp_all

/-! ### The way of a message -/

omit [DecidableEq V] in
/-- One character is taken off with every hop. -/
theorem tail_left (hx : w.links.dist s x = w.links.dist s v + 1) :
    (w.left s tgt v).tail = w.left s tgt x := by
  rw [left, left, List.tail_drop, hx]

/-- A link that a message is sent over, and where it leads. -/
theorem passed_iff : w.Passed s tgt v x ↔
    .link x ∈ w.sendtoMatchButone v none (w.left s tgt v).tail := by
  refine Iff.symm (mem_sendto.trans (exists_congr fun c => and_congr_right fun _ => ?_))
  rw [cliUplink_link_iff]
  constructor
  · rintro ⟨hreg, hhits, hhome, hnext⟩
    exact ⟨hreg, hhome, hnext, hhits⟩
  · rintro ⟨hreg, hhome, hnext, hhits⟩
    exact ⟨hreg, hhits, hhome, hnext⟩

omit [DecidableEq V] in
theorem Passed.adj (h : w.Passed s tgt v x) : w.links.Adj v x := by
  obtain ⟨c, -, -, hhome, rfl, -⟩ := h
  exact w.hops.adj v _ hhome.symm

/-- What is sent back is taken for a message from a wrong direction. -/
theorem deliver_back (hs : (w.cli sender).home = s) (hvs : v ≠ s) :
    w.deliver other sender n v (w.next v s) tgt = [] := by
  cases n with
  | zero => rfl
  | succ n =>
    refine if_pos ?_
    rw [cliServerUplink, hs]
    split
    · rename_i heq
      exact (w.hops.adj v s hvs).ne
    · rename_i hne
      exact (w.hops.next_next_ne hvs (Ne.symm hne)).symm

/-- A server farther away takes what its neighbour sends it. -/
theorem cliServerUplink_of_away (hs : (w.cli sender).home = s) (hadj : w.links.Adj v x)
    (hx : w.links.dist s x = w.links.dist s v + 1) : w.cliServerUplink x sender = v := by
  have hne : s ≠ x := by
    rintro rfl
    rw [SimpleGraph.dist_self] at hx
    omega
  rw [cliServerUplink, hs, if_neg hne]
  exact w.hops.next_of_away hadj hx

/-- Over a link that is used a message goes on, away from the sender, or comes to nothing. -/
theorem Passed.away_or_back (h : w.Passed s tgt v x) :
    w.links.dist s x = w.links.dist s v + 1 ∨ v ≠ s ∧ x = w.next v s := by
  by_cases hback : v ≠ s ∧ x = w.next v s
  · exact .inr hback
  · refine .inl (w.hops.away h.adj ?_)
    by_cases hvs : v = s
    · exact .inl hvs
    · exact .inr fun hx => hback ⟨hvs, hx⟩

theorem deliver_succ (hsptr : sptr = w.cliServerUplink v sender) (hmask : IsMask tgt) :
    w.deliver other sender (n + 1) sptr v tgt =
      (w.sendtoMatchButone v none tgt.tail).flatMap
        (MaskConn.elim (fun c => [c]) fun x => w.deliver other sender n v x tgt.tail) := by
  rw [deliver, if_neg (not_not.mpr hsptr), if_pos hmask]

/-- Whom a server reaches is a client behind it. -/
theorem between_of_mem_deliver (hs : (w.cli sender).home = s)
    (hmask : ∀ v, w.Handed s tgt v → IsMask (w.left s tgt v)) (hv : w.Handed s tgt v)
    (hc : c ∈ w.deliver other sender n sptr v (w.left s tgt v)) :
    c ∈ w.clients s ∧ Routing.Between w.links s v (w.cli c).home := by
  induction n generalizing sptr v with
  | zero => cases hc
  | succ n ih =>
    by_cases hsptr : sptr = w.cliServerUplink v sender
    · rw [deliver_succ hsptr (hmask v hv)] at hc
      obtain ⟨conn, hconn, hc⟩ := List.mem_flatMap.mp hc
      cases conn with
      | own d =>
        obtain rfl := List.mem_singleton.mp hc
        obtain ⟨e, he, -, -, hup⟩ := mem_sendto.mp hconn
        obtain ⟨rfl, hhome, -⟩ := cliUplink_own_iff.mp hup
        rw [hhome]
        exact ⟨w.same v s e he, Routing.between_right s v⟩
      | link x =>
        have hpassed := passed_iff.mpr hconn
        rcases hpassed.away_or_back with haway | ⟨hvs, rfl⟩
        · rw [MaskConn.elim, tail_left haway] at hc
          obtain ⟨hlisted, hb⟩ := ih (.hop v x hv hpassed haway) hc
          exact ⟨hlisted, (w.hops.between_of_away hpassed.adj haway hb).1⟩
        · rw [MaskConn.elim, deliver_back hs hvs] at hc
          cases hc
    · rw [deliver, if_pos hsptr] at hc
      cases hc

/-- To get to a server behind this one, a message goes over the next one. -/
theorem Handed.passed {t : V} (ht : w.Handed s tgt t) (hb : Routing.Between w.links s v t)
    (hvt : v ≠ t) : w.Passed s tgt v (w.next v t) := by
  induction ht with
  | start =>
    rw [Routing.Between, SimpleGraph.dist_self] at hb
    have hzero : w.links.dist v s = 0 := by omega
    exact absurd (w.hops.tree.connected.dist_eq_zero_iff.mp hzero) hvt
  | hop u x hu hx haway ih =>
    obtain ⟨hbu, hd⟩ := hb.before w.hops hvt hx.adj haway
    by_cases hvu : v = u
    · subst hvu
      rwa [← w.hops.eq_next hvt hx.adj (by rw [hd, SimpleGraph.dist_self, SimpleGraph.dist_self])]
    · rw [← w.hops.next_eq hvu hx.adj hd]
      exact ih hbu hvu

/-- The connection in the direction of a client. -/
def toward (w : MaskNet V) (v : V) (c : ℕ) : MaskConn V :=
  if (w.cli c).home = v then .own c else .link (w.next v (w.cli c).home)

/-- In other directions it is not reached. -/
theorem count_elim_of_ne (hs : (w.cli sender).home = s)
    (hmask : ∀ v, w.Handed s tgt v → IsMask (w.left s tgt v)) (hv : w.Handed s tgt v)
    (hconn : conn ∈ w.sendtoMatchButone v none (w.left s tgt v).tail)
    (hne : conn ≠ w.toward v c) :
    (conn.elim (fun c => [c])
      fun x => w.deliver other sender n v x (w.left s tgt v).tail).count c = 0 := by
  rw [List.count_eq_zero]
  intro hc
  cases conn with
  | own d =>
    obtain rfl := List.mem_singleton.mp hc
    obtain ⟨e, -, -, -, hup⟩ := mem_sendto.mp hconn
    exact hne (if_pos (cliUplink_own_iff.mp hup).2.1).symm
  | link x =>
    have hpassed := passed_iff.mpr hconn
    rcases hpassed.away_or_back with haway | ⟨hvs, rfl⟩
    · rw [MaskConn.elim, tail_left haway] at hc
      obtain ⟨-, hb⟩ := between_of_mem_deliver hs hmask (.hop v x hv hpassed haway) hc
      obtain ⟨-, hhome, hx⟩ := w.hops.between_of_away hpassed.adj haway hb
      refine hne ?_
      rw [toward, if_neg hhome.symm, hx]
    · rw [MaskConn.elim, deliver_back hs hvs] at hc
      cases hc

/-- A client of a server's own gets a message if it matches. -/
theorem own_mem_sendto (hhome : (w.cli c).home = v) :
    .own c ∈ w.sendtoMatchButone v none (w.left s tgt v).tail ↔ w.Hit s tgt c := by
  rw [mem_sendto, Hit, hhome]
  constructor
  · rintro ⟨d, hd, hreg, hhits, hup⟩
    obtain ⟨rfl, -, hconn⟩ := cliUplink_own_iff.mp hup
    exact ⟨w.same v s d hd, hreg, hconn, hhits⟩
  · rintro ⟨hc, hreg, hconn, hhits⟩
    exact ⟨c, w.same s v c hc, hreg, hhits, cliUplink_own_iff.mpr ⟨rfl, hhome, hconn⟩⟩

theorem count_sendto_of_mem (h : conn ∈ w.sendtoMatchButone v none mask) :
    (w.sendtoMatchButone v none mask).count conn = 1 := by
  have hcount := @count_sendto V _ w v mask conn
  split at hcount
  · exact hcount
  · exact absurd h (List.count_eq_zero.mp hcount)

/-- A client that a server is before gets once what its own server is handed, if it matches there,
and else nothing. -/
theorem count_deliver (hs : (w.cli sender).home = s)
    (hmask : ∀ v, w.Handed s tgt v → IsMask (w.left s tgt v)) (hv : w.Handed s tgt v)
    (hsptr : sptr = w.cliServerUplink v sender)
    (hb : Routing.Between w.links s v (w.cli c).home)
    (hn : w.links.dist v (w.cli c).home < n) :
    (w.Handed s tgt (w.cli c).home ∧ w.Hit s tgt c →
      (w.deliver other sender n sptr v (w.left s tgt v)).count c = 1) ∧
    (¬ (w.Handed s tgt (w.cli c).home ∧ w.Hit s tgt c) →
      (w.deliver other sender n sptr v (w.left s tgt v)).count c = 0) := by
  induction n generalizing sptr v with
  | zero => exact absurd hn (Nat.not_lt_zero _)
  | succ n ih =>
    rw [deliver_succ hsptr (hmask v hv), Firsts.count_flatMap_of_only (x := w.toward v c)
      fun conn hconn hne => count_elim_of_ne hs hmask hv hconn hne]
    by_cases hhome : (w.cli c).home = v
    · rw [toward, if_pos hhome, MaskConn.elim, List.count_singleton_self, Nat.mul_one]
      rw [← @own_mem_sendto V _ w c s v tgt hhome]
      refine ⟨fun h => count_sendto_of_mem h.2, fun h => List.count_eq_zero.mpr fun hmem => h ?_⟩
      exact ⟨hhome ▸ hv, hmem⟩
    · obtain ⟨hbx, haway⟩ := hb.onward w.hops (Ne.symm hhome)
      rw [toward, if_neg hhome, MaskConn.elim]
      by_cases hmem : .link (w.next v (w.cli c).home) ∈
          w.sendtoMatchButone v none (w.left s tgt v).tail
      · rw [count_sendto_of_mem hmem, Nat.one_mul, tail_left haway]
        have hpassed := passed_iff.mpr hmem
        refine ih (.hop v _ hv hpassed haway) ?_ hbx ?_
        · exact (cliServerUplink_of_away hs hpassed.adj haway).symm
        · have hnear := w.hops.nearer v (w.cli c).home (Ne.symm hhome)
          omega
      · rw [List.count_eq_zero.mpr hmem, Nat.zero_mul]
        refine ⟨fun h => absurd ?_ hmem, fun _ => rfl⟩
        exact passed_iff.mp (h.1.passed hb (Ne.symm hhome))

omit [DecidableEq V] in
theorem left_self (s : V) (tgt : Bytes) : w.left s tgt s = tgt := by
  rw [left, SimpleGraph.dist_self, List.drop_zero]

theorem cliServerUplink_home : w.cliServerUplink (w.cli sender).home sender = (w.cli sender).home :=
  if_pos rfl

end

/-- As long as no server is sent anything but a mask, the message gets to its audience if and only
if the servers that have it match just that, each with what is left of the target. -/
theorem audience_iff (w : MaskNet V) (other : V → Bytes → List ℕ) (sender : ℕ) (host : Bool)
    (mask : Bytes) (n : ℕ)
    (hn : ∀ c ∈ w.clients (w.cli sender).home,
      w.links.dist (w.cli sender).home (w.cli c).home < n)
    (hmask : ∀ v, w.Handed (w.cli sender).home (target host mask) v →
      IsMask (w.left (w.cli sender).home (target host mask) v)) :
    w.Exact (w.cli sender).home host mask
        (w.deliver other sender n (w.cli sender).home (w.cli sender).home (target host mask)) ↔
      ∀ c ∈ w.clients (w.cli sender).home, (w.cli c).registered → (w.cli c).conn →
        (w.audience host mask c ↔
          w.Handed (w.cli sender).home (target host mask) (w.cli c).home ∧
            w.hits (w.left (w.cli sender).home (target host mask) (w.cli c).home).tail c) := by
  have hcount : ∀ c ∈ w.clients (w.cli sender).home, _ := fun c hc =>
    @count_deliver V _ w other sender c n (w.cli sender).home (w.cli sender).home
      (w.cli sender).home (target host mask) rfl hmask .start cliServerUplink_home.symm
      (Routing.between_left _ _) (hn c hc)
  rw [left_self] at hcount
  constructor
  · intro hexact c hc hreg hconn
    have hgot := hexact c
    obtain ⟨hone, hzero⟩ := hcount c hc
    constructor
    · intro haud
      rw [if_pos ⟨hc, hreg, hconn, haud⟩] at hgot
      by_contra hnot
      have hnone := hzero fun h => hnot ⟨h.1, h.2.2.2.2⟩
      rw [hnone] at hgot
      cases hgot
    · rintro ⟨hhanded, hhits⟩
      by_contra hnot
      rw [if_neg fun h => hnot h.2.2.2, hone ⟨hhanded, hc, hreg, hconn, hhits⟩] at hgot
      cases hgot
  · intro hagree c
    split
    · rename_i h
      obtain ⟨hc, hreg, hconn, haud⟩ := h
      obtain ⟨hhanded, hhits⟩ := (hagree c hc hreg hconn).mp haud
      exact (hcount c hc).1 ⟨hhanded, hc, hreg, hconn, hhits⟩
    · rename_i h
      by_cases hc : c ∈ w.clients (w.cli sender).home
      · refine (hcount c hc).2 ?_
        rintro ⟨hhanded, -, hreg, hconn, hhits⟩
        exact h ⟨hc, hreg, hconn, (hagree c hc hreg hconn).mpr ⟨hhanded, hhits⟩⟩
      · rw [List.count_eq_zero]
        intro hmem
        have hself : w.left (w.cli sender).home (target host mask) (w.cli sender).home =
            target host mask := left_self _ _
        rw [← hself] at hmem
        exact hc (between_of_mem_deliver rfl hmask .start hmem).1

theorem isTree_top_bool : (⊤ : SimpleGraph Bool).IsTree where
  connected := SimpleGraph.connected_top
  isAcyclic := by
    have hedge : (⊤ : SimpleGraph Bool) = ⊥ ⊔ SimpleGraph.edge false true := by
      ext v x
      cases v <;> cases x <;> simp [SimpleGraph.edge_adj]
    rw [hedge]
    refine SimpleGraph.isAcyclic_bot.sup_edge_of_not_reachable ?_
    simp

/-- Two servers, with an operator on the one and a client on the other. -/
def twoServers : MaskNet Bool where
  links := ⊤
  next _ t := t
  hops := {
    tree := isTree_top_bool
    adj := fun _ _ hne => hne
    nearer := fun v t hne => by
      rw [SimpleGraph.dist_self, SimpleGraph.dist_top_of_ne hne] }
  name v := if v then bytes "b.net" else bytes "a.net"
  cli c := ⟨c != 0, bytes "h.org", true, true⟩
  clients v := if v then [1, 0] else [0, 1]
  same v v' c := by cases v <;> cases v' <;> simp [or_comm]

theorem twoServers_dist_lt (v x : Bool) : twoServers.links.dist v x < 2 := by
  change (⊤ : SimpleGraph Bool).dist v x < 2
  rw [SimpleGraph.dist_top]
  split <;> decide

/-- A mask that matches the operator's own server. -/
theorem audience_iff_ownServer : twoServers.Exact false false (bytes "a*")
    (twoServers.deliver (fun _ _ => []) 0 2 false false (target false (bytes "a*"))) := by
  -- nothing is sent to the other one
  have hstay : ∀ v, twoServers.Handed false (target false (bytes "a*")) v → v = false := by
    intro v hv
    induction hv with
    | start => rfl
    | hop v x hv hx haway ih =>
      subst ih
      obtain ⟨c, hc, -, hhome, -, hhits⟩ := hx
      rw [left_self] at hhits
      rcases List.mem_pair.mp (show c ∈ [0, 1] from hc) with rfl | rfl
      · exact absurd rfl hhome
      · exact absurd hhits (by decide)
  refine (audience_iff twoServers (fun _ _ => []) 0 false (bytes "a*") 2
    (fun c _ => twoServers_dist_lt _ _) fun v hv => ?_).mpr fun c hc _ _ => ?_
  · obtain rfl := hstay v hv
    refine (left_self false _).symm ▸ ?_
    decide
  · rcases List.mem_pair.mp (show c ∈ [0, 1] from hc) with rfl | rfl
    · have hself := @left_self _ twoServers false (target false (bytes "a*"))
      refine iff_of_true (by decide) ⟨.start, ?_⟩
      change twoServers.hits (twoServers.left false (target false (bytes "a*")) false).tail 0 = true
      rw [hself]
      decide
    · exact iff_of_false (by decide) fun h => by cases hstay true h.1

/-- A mask for hosts is compared with the names of servers. -/
theorem masks_fail : ¬ ∀ (w : MaskNet Bool) (other : Bool → Bytes → List ℕ) (sender : ℕ)
    (host : Bool) (mask : Bytes) (n : ℕ),
    (∀ c ∈ w.clients (w.cli sender).home,
      w.links.dist (w.cli sender).home (w.cli c).home < n) →
    w.Exact (w.cli sender).home host mask
      (w.deliver other sender n (w.cli sender).home (w.cli sender).home (target host mask)) := by
  intro hall
  have hbad := hall twoServers (fun _ _ => []) 0 true (bytes "h.org") 2
    (fun c _ => twoServers_dist_lt _ _) 0
  revert hbad
  decide

end MaskNet

end Ithildin
