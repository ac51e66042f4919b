import Ithildin.Client.Watch
import Mathlib.Order.MinMax

/-!
# Who is told that a nick comes or goes

* `WatchNet.step`: clients sign on and off and change their nicks, and ours use WATCH;
* `Watched`: what is to hold of lists, counts and entries in every state;
* `Informed`, `Limited`: what is to hold of a step: every watcher is told once of each nick that is
  lost and gained, and no list grows over its client's limit;
* `Alike`: the steps for which nicks that are the same hash alike, and the table has room;
* `watched_of_run`: in a run of such steps all of this holds.
-/

namespace Ithildin

namespace WatchNet

variable (first maps : CharMap) (net : WatchNet)

/-- What happens: a client is registered, is destroyed, changes its nick (and its timestamp), or
sends WATCH, its limit at that time being given; and time goes on. -/
inductive Action
  | signOn (c : ℕ) (r : WatchClient)
  | signOff (c : ℕ)
  | changeNick (c : ℕ) (nick : Bytes) (ts : ℤ)
  | watch (c : ℕ) (limit : ℤ) (arg : Option Bytes)
  | tick (now : ℤ)

/-- When it can happen: the address of a new client is free, nicks have been checked, and WATCH is
from one of ours. -/
def Called : Action → Prop
  | .signOn c r => net.client c = none ∧ r.nick ≠ [] ∧ maps.Valid r.nick
  | .signOff c => (net.client c).isSome = true
  | .changeNick c nick _ => (net.client c).isSome = true ∧ nick ≠ [] ∧ maps.Valid nick
  | .watch c _ _ => (net.client c).any WatchClient.mine = true
  | .tick _ => True

instance (act : Action) : Decidable (net.Called maps act) :=
  match act with
  | .signOn _ _ => inferInstanceAs (Decidable (_ ∧ _))
  | .signOff _ => inferInstanceAs (Decidable (_ = true))
  | .changeNick _ _ _ => inferInstanceAs (Decidable (_ ∧ _))
  | .watch _ _ _ => inferInstanceAs (Decidable (_ = true))
  | .tick _ => inferInstanceAs (Decidable True)

/-- What it does. -/
def exec (net : WatchNet) : Action → Option WatchNet
  | .signOn c r => net.signOn maps c r
  | .signOff c => net.signOff maps c
  | .changeNick c nick ts => net.changeNick maps c nick ts
  | .watch c limit arg => net.watch first maps c limit arg
  | .tick now => some { net with now := now }

/-- A step. A call that goes wrong leaves its mark. -/
def step (net : WatchNet) (act : Action) : Option WatchNet :=
  if net.Called maps act then some ((net.exec first maps act).getD { net with fault := true })
  else none

/-- The module is loaded, with the table that it creates. -/
def start (t : HashTable ℕ) : WatchNet :=
  ⟨fun _ => none, fun _ => ⟨[], 0⟩, fun _ => none, 0, t, 0, [], false⟩

/-! ### What is to hold -/

/-- The client has the nick. -/
def Holds (c : ℕ) (nick : Bytes) : Prop :=
  ∃ r, net.client c = some r ∧ maps.same r.nick nick = true

/-- The client has the nick on its list. -/
def Watches (c : ℕ) (nick : Bytes) : Prop :=
  ∃ e ∈ (net.watches c).list, ∃ s, net.nickOf e = some s ∧ maps.same s nick = true

/-- Somebody had the nick, and does not have it any more. -/
def Leaves (net net' : WatchNet) (nick : Bytes) : Prop :=
  ∃ c, net.Holds maps c nick ∧ ¬ net'.Holds maps c nick

/-- How often a client is told so of a nick. -/
def heard (new : List WatchNotice) (c : ℕ) (reply : WatchReply) (nick : Bytes) : ℕ :=
  new.countP fun x => decide (x.watcher = c) && decide (x.reply = reply) && maps.same x.nick nick

/-- Once if something holds, and otherwise not at all. -/
def Once (n : ℕ) (P : Prop) : Prop := (P → n = 1) ∧ (¬ P → n = 0)

/-- Each client that watches a nick is told once if the nick is lost, and once if it is gained; and
nobody is told anything else. -/
def Informed (net net' : WatchNet) : Prop :=
  ∃ new, net'.sent = net.sent ++ new ∧ ∀ c nick, maps.Valid nick →
    Once (heard maps new c .logoff nick) (net.Watches maps c nick ∧ Leaves maps net net' nick) ∧
    Once (heard maps new c .logon nick) (net.Watches maps c nick ∧ Leaves maps net' net nick)

/-- The count of a client grows by its own WATCH only, and not over its limit. -/
def Limited (net net' : WatchNet) (act : Action) : Prop :=
  ∀ c, (net'.watches c).count ≤ (net.watches c).count ∨
    ∃ limit arg, act = .watch c limit arg ∧ (net'.watches c).count ≤ limit

/-- No call has gone wrong; each entry in the table counts its users, and has some; each client
counts its list; no client is linked to a nick twice; and who is linked, and to what, is there. -/
structure Watched : Prop where
  safe : net.fault = false
  counted : ∀ e ∈ net.table.ents, ∃ w, net.entry e = some w ∧ w.count = w.users.length ∧ 0 < w.count
  own : ∀ c, (net.watches c).count = (net.watches c).list.length
  once : ∀ c, (net.watches c).list.Pairwise fun e e' =>
    ∀ s t, net.nickOf e = some s → net.nickOf e' = some t → maps.same s t = false
  users : ∀ e w, net.entry e = some w → w.users.Nodup ∧ e ∈ net.table.ents ∧
    ∀ c ∈ w.users, (net.client c).isSome ∧ e ∈ (net.watches c).list
  watched : ∀ c, ∀ e ∈ (net.watches c).list, (net.client c).isSome ∧
    ∃ w, net.entry e = some w ∧ c ∈ w.users

/-- The steps that keep it: a nick that comes, goes or is added hashes as its entry does, if there
is one; and where an entry is made, the table has fewer than 2^29 buckets, or room. -/
def Alike (net : WatchNet) : Action → Prop
  | .signOn _ r => net.NickAlike maps r.nick
  | .signOff c => ∀ r ∈ net.client c, net.NickAlike maps r.nick
  | .changeNick c nick _ => ∀ r ∈ net.client c, maps.same r.nick nick = false →
      net.NickAlike maps r.nick ∧ net.NickAlike maps nick
  | .watch c limit arg =>
      Run.Along (watchWord first maps c limit) (WordAlike first maps c limit) net (watchWords arg)
  | .tick _ => True

/-! ### Notices -/

section
variable {first maps} {net} {net' : WatchNet} {c e : ℕ} {r : WatchClient} {w : WatchEntry}
  {nick s t : Bytes} {x : Option ℕ} {P Q : Prop} {n m : ℕ} {new new' : List WatchNotice}
  {reply reply' : WatchReply}

theorem Once.congr (h : Once n P) (hiff : Q ↔ P) : Once n Q :=
  ⟨fun hQ => h.1 (hiff.mp hQ), fun hQ => h.2 fun hP => hQ (hiff.mpr hP)⟩

theorem once_zero (h : ¬ P) : Once 0 P := ⟨fun hP => absurd hP h, fun _ => rfl⟩

theorem Once.add_right (h : Once n P) (h' : Once m Q) (hQ : ¬ Q) : Once (n + m) P := by
  rw [h'.2 hQ]
  exact h

theorem Once.add_left (h : Once n P) (h' : Once m Q) (hQ : ¬ Q) : Once (m + n) P := by
  rw [h'.2 hQ, Nat.zero_add]
  exact h

theorem heard_append : heard maps (new ++ new') c reply nick =
    heard maps new c reply nick + heard maps new' c reply nick :=
  List.countP_append

/-- Nicks that are the same as one are the same. -/
theorem same_trans {u : Bytes} (hs : maps.Valid s) (ht : maps.Valid t) (hu : maps.Valid u)
    (h : maps.same s t = true) (h' : maps.same t u = true) : maps.same s u = true := by
  rw [CharMap.same_iff hs ht] at h
  rw [CharMap.same_iff ht hu] at h'
  exact (CharMap.same_iff hs hu).mpr (h.trans h')

theorem same_comm (hs : maps.Valid s) (ht : maps.Valid t) : maps.same s t = maps.same t s := by
  rw [Bool.eq_iff_iff, CharMap.same_iff hs ht, CharMap.same_iff ht hs]
  exact eq_comm

/-- A list of users is told, each of them once. -/
theorem once_heard_map {users : List ℕ} (hnodup : users.Nodup) (user host : Bytes) (time : ℤ) :
    Once (heard maps (users.map fun d => ⟨d, reply, s, user, host, time⟩) c reply' nick)
      (reply' = reply ∧ maps.same s nick = true ∧ c ∈ users) := by
  rw [heard, List.countP_map]
  by_cases hmatch : reply' = reply ∧ maps.same s nick = true
  · obtain ⟨rfl, hsame⟩ := hmatch
    have hcount : users.countP ((fun x : WatchNotice => decide (x.watcher = c) &&
        decide (x.reply = reply') && maps.same x.nick nick) ∘
          fun d => ⟨d, reply', s, user, host, time⟩) = users.count c := by
      refine List.countP_congr fun d _ => ?_
      simp [hsame]
    rw [hcount]
    constructor
    · exact fun h => List.count_eq_one_of_mem hnodup h.2.2
    · exact fun h => List.count_eq_zero_of_not_mem fun hmem => h ⟨rfl, hsame, hmem⟩
  · have hnone : users.countP ((fun x : WatchNotice => decide (x.watcher = c) &&
        decide (x.reply = reply') && maps.same x.nick nick) ∘
          fun d => ⟨d, reply, s, user, host, time⟩) = 0 := by
      refine List.countP_eq_zero.mpr fun d _ hd => hmatch ?_
      simp only [Function.comp, Bool.and_eq_true, decide_eq_true_eq] at hd
      exact ⟨hd.1.2.symm, hd.2⟩
    rw [hnone]
    exact once_zero fun h => hmatch ⟨h.1, h.2.1⟩

/-- Notices are sent, and all else stays as it is but for the times that entries remember. -/
structure Told (net net' : WatchNet) (new : List WatchNotice) : Prop where
  client : net'.client = net.client
  watches : net'.watches = net.watches
  nickOf : net'.nickOf = net.nickOf
  table : net'.table = net.table
  now : net'.now = net.now
  sent : net'.sent = net.sent ++ new

theorem Told.watches_iff (h : Told net net' new) :
    net'.Watches maps c nick ↔ net.Watches maps c nick := by
  rw [Watches, Watches, h.watches, h.nickOf]

theorem Told.nickAlike (h : Told net net' new) (halike : net.NickAlike maps nick) :
    net'.NickAlike maps nick := by
  rw [NickAlike, watchEnv, h.nickOf, h.table]
  exact halike

/-- All that watch a nick are told once. -/
theorem Sound.notify (h : net.Sound maps none) (hvalid : maps.Valid nick)
    (halike : net.NickAlike maps nick) (reply : WatchReply) (user host : Bytes) (last time : ℤ) :
    ∃ net' new,
      net.notify maps nick last (fun d => ⟨d, reply, nick, user, host, time⟩) = some net' ∧
      net'.Sound maps none ∧ Told net net' new ∧
      ∀ c reply' s, maps.Valid s → Once (heard maps new c reply' s)
        (reply' = reply ∧ maps.same nick s = true ∧ net.Watches maps c s) := by
  obtain ⟨o, hfind, hright⟩ := h.files.findWatch halike
  rw [WatchNet.notify, hfind, Option.bind_some]
  cases o with
  | none =>
    refine ⟨net, [], rfl, h, ⟨rfl, rfl, rfl, rfl, rfl, (List.append_nil _).symm⟩, ?_⟩
    rintro c reply' s hs
    refine once_zero ?_
    rintro ⟨-, hsame, e, -, t, ht, hwatch⟩
    have hvalid' := h.files.valid e t ht
    have hno := hright e t ht
    rw [same_trans hvalid' hs hvalid hwatch (same_comm hvalid hs ▸ hsame)] at hno
    cases hno
  | some e =>
    obtain ⟨w, hw, hsame⟩ := hright
    have hnick := nickOf_eq hw
    have hvalid' := h.files.valid e w.nick hnick
    have hthere : w.users.all (fun d => (net.client d).isSome) = true := by
      refine List.all_eq_true.mpr fun d hd => ?_
      obtain ⟨-, r, hr, -⟩ := h.user hw hd
      rw [hr]
      rfl
    have hnodup : w.users.Nodup := usersOf_eq hw ▸ h.linked.nodup' e
    have hsound : (net.setEntry e (some { w with last := last })).Sound maps none := by
      refine h.relist hw rfl ?_ h.own (h.counted e w hw) (fun _ _ he => he) (h.used e w hw) h.here
      rw [← usersOf_eq hw, Function.update_eq_self]
      exact h.linked
    have hnicks : (net.setEntry e (some { w with last := last })).nickOf = net.nickOf := by
      rw [nickOf_setEntry, Option.map_some, ← hnick, Function.update_eq_self]
    dsimp only
    rw [tell, hw, Option.bind_some, if_pos hthere]
    refine ⟨_, w.users.map fun d => ⟨d, reply, nick, user, host, time⟩, rfl,
      hsound.frame _ net.now, ⟨rfl, rfl, hnicks, rfl, rfl, rfl⟩, fun c reply' s hs => ?_⟩
    refine (once_heard_map hnodup user host time).congr ?_
    refine and_congr_right fun _ => and_congr_right fun hsame' => ?_
    -- who watches the nick is on the list of the entry that is found
    constructor
    · rintro ⟨e', he', t, ht, hwatch⟩
      have hvalid'' := h.files.valid e' t ht
      have htn := same_trans hvalid'' hs hvalid hwatch (same_comm hvalid hs ▸ hsame')
      have htw := same_trans hvalid'' hvalid hvalid' htn (same_comm hvalid' hvalid ▸ hsame)
      obtain rfl := h.files.nicks e' e t w.nick ht hnick htw
      exact usersOf_eq hw ▸ (h.linked.mem c e').mp he'
    · intro hc
      exact ⟨e, (h.user hw hc).1, w.nick, hnick, same_trans hvalid' hvalid hs hsame hsame'⟩

/-! ### Steps -/

theorem holds_iff (hc : net.client c = some r) :
    net.Holds maps c nick ↔ maps.same r.nick nick = true := by
  constructor
  · rintro ⟨r', hr', hsame⟩
    obtain rfl := Option.some.inj (hc.symm.trans hr')
    exact hsame
  · exact fun hsame => ⟨r, hc, hsame⟩

theorem not_holds (hc : net.client c = none) : ¬ net.Holds maps c nick := by
  rintro ⟨r, hr, -⟩
  rw [hc] at hr
  cases hr

/-- Where one client changes, it is the one that may lose a nick. -/
theorem leaves_iff (h : ∀ d, d ≠ c → net'.client d = net.client d) :
    Leaves maps net net' nick ↔ net.Holds maps c nick ∧ ¬ net'.Holds maps c nick := by
  constructor
  · rintro ⟨d, hold, hnew⟩
    by_cases hd : d = c
    · exact hd ▸ ⟨hold, hnew⟩
    · rw [Holds, h d hd] at hnew
      exact absurd hold hnew
  · exact fun h => ⟨c, h⟩

/-- What a step is to come to. -/
def Fine (first maps : CharMap) (net : WatchNet) (act : Action) : Prop :=
  ∃ net', net.exec first maps act = some net' ∧ net'.Sound maps none ∧ Informed maps net net' ∧
    Limited net net' act

theorem client_setClient_self {o : Option WatchClient} : (net.setClient c o).client c = o :=
  Function.update_self ..

theorem client_setClient_of_ne {o : Option WatchClient} {d : ℕ} (hd : d ≠ c) :
    (net.setClient c o).client d = net.client d :=
  Function.update_of_ne hd ..

/-- A client may be another one if it has no list, or is one of ours. -/
theorem Sound.setClient {o : Option WatchClient} (h : net.Sound maps none)
    (hlist : (net.watches c).list ≠ [] → ∃ r, o = some r ∧ r.mine = true)
    (hvalid : ∀ r ∈ o, maps.Valid r.nick) : (net.setClient c o).Sound maps none where
  safe := h.safe
  files := h.files.congr rfl rfl rfl
  linked := h.linked
  own := h.own
  counted := h.counted
  used := h.used
  here d e he := by
    by_cases hd : d = c
    · subst hd
      obtain ⟨r, ho, hmine⟩ := hlist (List.ne_nil_of_mem he)
      exact ⟨r, client_setClient_self.trans ho, hmine⟩
    · obtain ⟨r, hr, hmine⟩ := h.here d e he
      exact ⟨r, (client_setClient_of_ne hd).trans hr, hmine⟩
  people d r hr := by
    by_cases hd : d = c
    · subst hd
      exact hvalid r (client_setClient_self.symm.trans hr)
    · exact h.people d r ((client_setClient_of_ne hd).symm.trans hr)

/-- Who is not there, or not one of ours, has no list. -/
theorem Sound.list_eq_nil (h : net.Sound maps none)
    (hc : ∀ r, net.client c = some r → r.mine = false) : (net.watches c).list = [] := by
  refine List.eq_nil_iff_forall_not_mem.mpr fun e he => ?_
  obtain ⟨r, hr, hmine⟩ := h.here c e he
  rw [hc r hr] at hmine
  cases hmine

theorem limited_of_watches {act : Action} (h : net'.watches = net.watches) :
    Limited net net' act :=
  fun _ => .inl (h ▸ le_rfl)

theorem Sound.signOn (h : net.Sound maps none) (hcall : net.Called maps (.signOn c r))
    (halike : net.Alike first maps (.signOn c r)) : net.Fine first maps (.signOn c r) := by
  obtain ⟨hc, -, hvalid⟩ := hcall
  have hlist : (net.watches c).list = [] := by
    refine h.list_eq_nil fun r' hr' => ?_
    rw [hc] at hr'
    cases hr'
  have hzero : Function.update net.watches c ⟨[], 0⟩ = net.watches := by
    have hown := h.own c
    rw [hlist] at hown
    refine Function.update_eq_self_iff.mpr ?_
    cases hcwp : net.watches c
    rw [hcwp] at hlist hown
    exact ClientWatches.mk.injEq .. ▸ ⟨hlist.symm, hown.symm⟩
  have hsound : (net.setClient c (some r)).Sound maps none := by
    refine h.setClient (fun hne => absurd hlist hne) fun r' hr' => ?_
    exact Option.some.inj hr' ▸ hvalid
  obtain ⟨net', new, hnotify, h', htold, honce⟩ :=
    hsound.notify hvalid halike .logon r.user r.host r.signon r.signon
  have hself : net'.client c = some r := htold.client ▸ client_setClient_self
  have hothers : ∀ d, d ≠ c → net'.client d = net.client d := fun d hd =>
    htold.client ▸ client_setClient_of_ne hd
  refine ⟨net', ?_, h', ⟨new, htold.sent, fun d nick hnick => ⟨?_, ?_⟩⟩,
    limited_of_watches htold.watches⟩
  · rw [exec, WatchNet.signOn, hzero]
    exact hnotify
  · refine (honce d .logoff nick hnick).congr ?_
    rw [leaves_iff hothers]
    exact iff_of_false (fun hleave => not_holds hc hleave.2.1) (by rintro ⟨⟨⟩, -⟩)
  · refine (honce d .logon nick hnick).congr ?_
    rw [leaves_iff fun d hd => (hothers d hd).symm, holds_iff hself, and_iff_left (not_holds hc),
      and_iff_right rfl]
    exact and_comm

theorem Sound.signOff (h : net.Sound maps none) (hcall : net.Called maps (.signOff c))
    (halike : net.Alike first maps (.signOff c)) : net.Fine first maps (.signOff c) := by
  obtain ⟨r, hr⟩ := Option.isSome_iff_exists.mp hcall
  have hvalid := h.people c r hr
  obtain ⟨net₁, new, hnotify, h₁, htold, honce⟩ :=
    h.notify hvalid (halike r hr) .logoff r.user r.host net.now net.now
  have hr₁ : net₁.client c = some r := by rw [htold.client, hr]
  -- one of ours takes its list with it
  have hclear : ∃ net₂, (if r.mine then net₁.clear maps c else some net₁) = some net₂ ∧
      net₂.Sound maps none ∧ Quiet net₁ net₂ c ∧ (net₂.watches c).list = [] := by
    by_cases hmine : r.mine = true
    · rw [if_pos hmine]
      exact h₁.clear (by rw [hr₁]; rfl)
    · refine ⟨net₁, if_neg hmine, h₁, .refl net₁ c, h₁.list_eq_nil fun r' hr' => ?_⟩
      obtain rfl := Option.some.inj (hr₁.symm.trans hr')
      exact Bool.eq_false_iff.mpr hmine
  obtain ⟨net₂, hclear, h₂, hquiet, hlist⟩ := hclear
  have hnone : (net₂.setClient c none).client c = none := client_setClient_self
  have hothers : ∀ d, d ≠ c → (net₂.setClient c none).client d = net.client d := fun d hd =>
    (client_setClient_of_ne hd).trans (congrFun (hquiet.client.trans htold.client) d)
  refine ⟨net₂.setClient c none, ?_, ?_, ⟨new, ?_, fun d nick hnick => ⟨?_, ?_⟩⟩, fun d => .inl ?_⟩
  · rw [exec, WatchNet.signOff, hr, Option.bind_some, unregisterHook, hnotify, Option.bind_some,
      hclear, Option.map_some]
  · exact h₂.setClient (fun hne => absurd hlist hne) fun r' hr' => by cases hr'
  · exact hquiet.sent.trans htold.sent
  · refine (honce d .logoff nick hnick).congr ?_
    rw [leaves_iff hothers, holds_iff hr, and_iff_left (not_holds hnone), and_iff_right rfl]
    exact and_comm
  · refine (honce d .logon nick hnick).congr ?_
    rw [leaves_iff fun d hd => (hothers d hd).symm]
    exact iff_of_false (fun hleave => not_holds hnone hleave.2.1) (by rintro ⟨⟨⟩, -⟩)
  · by_cases hd : d = c
    · rw [hd]
      have hcount := h₂.own c
      rw [hlist] at hcount
      change (net₂.watches c).count ≤ _
      rw [hcount, h.own c]
      exact Int.ofNat_le.mpr (Nat.zero_le _)
    · change (net₂.watches d).count ≤ _
      rw [hquiet.others d hd, htold.watches]

theorem Sound.changeNick {ts : ℤ} (h : net.Sound maps none)
    (hcall : net.Called maps (.changeNick c nick ts))
    (halike : net.Alike first maps (.changeNick c nick ts)) :
    net.Fine first maps (.changeNick c nick ts) := by
  obtain ⟨hthere, -, hvalid⟩ := hcall
  obtain ⟨r, hr⟩ := Option.isSome_iff_exists.mp hthere
  have hold := h.people c r hr
  let new : WatchClient := { r with nick := nick, ts := ts }
  have htake : nick.take NICKLEN = nick := List.take_of_length_le hvalid.1
  have hsound : (net.setClient c (some new)).Sound maps none := by
    refine h.setClient (fun hne => ?_) fun r' hr' => ?_
    · obtain ⟨e, he⟩ := List.exists_mem_of_ne_nil _ hne
      obtain ⟨r', hr', hmine⟩ := h.here c e he
      obtain rfl := Option.some.inj (hr.symm.trans hr')
      exact ⟨new, rfl, hmine⟩
    · exact Option.some.inj hr' ▸ hvalid
  have hexec : net.exec first maps (.changeNick c nick ts) =
      if maps.same r.nick nick then some (net.setClient c (some new))
      else (net.setClient c (some new)).nickHook maps r.nick new := by
    rw [exec, WatchNet.changeNick, hr, Option.bind_some, htake]
  by_cases hsame : maps.same r.nick nick = true
  · -- a change of case only: nobody loses a nick
    have hself : (net.setClient c (some new)).client c = some new := client_setClient_self
    have hothers : ∀ d, d ≠ c → (net.setClient c (some new)).client d = net.client d :=
      fun d hd => client_setClient_of_ne hd
    have hiff : ∀ s, maps.Valid s → (maps.same r.nick s = true ↔ maps.same nick s = true) := by
      intro s hs
      exact ⟨same_trans hvalid hold hs (same_comm hold hvalid ▸ hsame),
        same_trans hold hvalid hs hsame⟩
    refine ⟨net.setClient c (some new), hexec.trans (if_pos hsame), hsound,
      ⟨[], (List.append_nil _).symm, fun d s hs => ⟨once_zero ?_, once_zero ?_⟩⟩,
      limited_of_watches rfl⟩
    · rw [leaves_iff hothers, holds_iff hr, holds_iff hself, hiff s hs]
      exact fun hleave => hleave.2.2 hleave.2.1
    · rw [leaves_iff fun d hd => (hothers d hd).symm, holds_iff hr, holds_iff hself, hiff s hs]
      exact fun hleave => hleave.2.2 hleave.2.1
  · obtain ⟨halikeOld, halikeNew⟩ := halike r hr (Bool.eq_false_iff.mpr hsame)
    obtain ⟨net₁, new₁, hnotify₁, h₁, htold₁, honce₁⟩ :=
      hsound.notify hold halikeOld .logoff r.user r.host net.now net.now
    obtain ⟨net₂, new₂, hnotify₂, h₂, htold₂, honce₂⟩ :=
      h₁.notify hvalid (htold₁.nickAlike halikeNew) .logon r.user r.host ts r.signon
    have hclient : net₂.client = (net.setClient c (some new)).client :=
      htold₂.client.trans htold₁.client
    have hself : net₂.client c = some new := hclient ▸ client_setClient_self
    have hothers : ∀ d, d ≠ c → net₂.client d = net.client d := fun d hd =>
      hclient ▸ client_setClient_of_ne hd
    -- no nick is the same as both
    have hneither : ∀ s, maps.Valid s → maps.same r.nick s = true → maps.same nick s = true →
        False := by
      intro s hs hsameOld hsameNew
      exact hsame (same_trans hold hs hvalid hsameOld (same_comm hvalid hs ▸ hsameNew))
    refine ⟨net₂, hexec.trans ((if_neg hsame).trans ?_), h₂,
      ⟨new₁ ++ new₂, ?_, fun d s hs => ⟨?_, ?_⟩⟩,
      limited_of_watches (htold₂.watches.trans htold₁.watches)⟩
    · rw [nickHook]
      exact (congrArg (Option.bind · _) hnotify₁).trans hnotify₂
    · rw [htold₂.sent, htold₁.sent, List.append_assoc]
      rfl
    · have hone := (honce₁ d .logoff s hs).add_right (honce₂ d .logoff s hs) (by rintro ⟨⟨⟩, -⟩)
      rw [heard_append]
      refine hone.congr ?_
      rw [leaves_iff hothers, holds_iff hr, holds_iff hself, and_iff_right rfl]
      constructor
      · exact fun hleave => ⟨hleave.2.1, hleave.1⟩
      · exact fun hleave => ⟨hleave.2, hleave.1, fun hnew => hneither s hs hleave.1 hnew⟩
    · have hone := (honce₂ d .logon s hs).add_left (honce₁ d .logon s hs) (by rintro ⟨⟨⟩, -⟩)
      rw [heard_append]
      refine hone.congr ?_
      rw [leaves_iff fun d hd => (hothers d hd).symm, holds_iff hr, holds_iff hself,
        and_iff_right rfl, htold₁.watches_iff]
      constructor
      · exact fun hleave => ⟨hleave.2.1, hleave.1⟩
      · exact fun hleave => ⟨hleave.2, hleave.1, fun hnew => hneither s hs hnew hleave.1⟩

theorem Sound.watch {limit : ℤ} {arg : Option Bytes} (h : net.Sound maps none)
    (hcall : net.Called maps (.watch c limit arg))
    (halike : net.Alike first maps (.watch c limit arg)) :
    net.Fine first maps (.watch c limit arg) := by
  obtain ⟨r, hr, hmine⟩ := (Option.any_eq_true _ _).mp hcall
  obtain ⟨net', hrun, h', hquiet, hcount⟩ := h.run_watchWord hr hmine halike
  have hnobody : ∀ s, ¬ Leaves maps net net' s ∧ ¬ Leaves maps net' net s := by
    intro s
    constructor
    · rintro ⟨d, hold, hnew⟩
      rw [Holds, hquiet.client] at hnew
      exact hnew hold
    · rintro ⟨d, hold, hnew⟩
      rw [Holds, hquiet.client] at hold
      exact hnew hold
  refine ⟨net', hrun, h', ⟨[], ?_, fun d s _ => ⟨?_, ?_⟩⟩, fun d => ?_⟩
  · rw [hquiet.sent, List.append_nil]
  · exact once_zero fun hleave => (hnobody s).1 hleave.2
  · exact once_zero fun hleave => (hnobody s).2 hleave.2
  · by_cases hd : d = c
    · subst hd
      rcases le_max_iff.mp hcount with hle | hle
      · exact .inl hle
      · exact .inr ⟨limit, arg, rfl, hle⟩
    · exact .inl (hquiet.others d hd ▸ le_rfl)

theorem Sound.tick (h : net.Sound maps none) (now : ℤ) : net.Fine first maps (.tick now) := by
  have hnobody : ∀ s, ¬ Leaves maps net net s := by
    rintro s ⟨d, hold, hnew⟩
    exact hnew hold
  refine ⟨{ net with now := now }, rfl, h.frame net.sent now,
    ⟨[], (List.append_nil _).symm, fun d s _ => ⟨?_, ?_⟩⟩, limited_of_watches rfl⟩
  · exact once_zero fun hleave => hnobody s hleave.2
  · exact once_zero fun hleave => hnobody s hleave.2

theorem Sound.fine {act : Action} (h : net.Sound maps none) (hcall : net.Called maps act)
    (halike : net.Alike first maps act) : net.Fine first maps act := by
  cases act with
  | signOn c r => exact h.signOn hcall halike
  | signOff c => exact h.signOff hcall halike
  | changeNick c nick ts => exact h.changeNick hcall halike
  | watch c limit arg => exact h.watch hcall halike
  | tick now => exact h.tick now

theorem Sound.step {act : Action} (h : net.Sound maps none) (halike : net.Alike first maps act)
    (hstep : net.step first maps act = some net') :
    net'.Sound maps none ∧ Informed maps net net' ∧ Limited net net' act := by
  rw [WatchNet.step] at hstep
  split at hstep
  · rename_i hcall
    obtain ⟨net₁, hexec, hfine⟩ := h.fine hcall halike
    rw [hexec, Option.getD_some] at hstep
    exact Option.some.inj hstep ▸ hfine
  · cases hstep

/-! ### Runs -/

theorem sound_start {elems : UInt32} {t : HashTable ℕ} (hcreate : HashTable.create elems = some t) :
    (start t).Sound maps none := by
  have hcalm : HashTable.Calm ((start t).watchEnv maps) t 0 := HashTable.calm_create hcreate
  have hnil : t.ents = [] := (Multiset.coe_eq_zero _).mp hcalm.ents
  exact {
    safe := rfl
    files := {
      filed := by
        change HashTable.Calm _ t (t.ents : Multiset ℕ)
        rw [hnil]
        exact hcalm
      nodup := hnil.symm ▸ List.nodup_nil
      listed := by
        intro e
        change e ∈ t.ents ↔ _
        rw [hnil]
        exact iff_of_false List.not_mem_nil Bool.false_ne_true
      nicks := fun _ _ _ _ hs => by cases hs
      valid := fun _ _ hs => by cases hs
      fresh := fun _ _ => rfl }
    linked := Incidence.Mutual.nil
    own := fun _ => rfl
    counted := fun _ _ he => by cases he
    used := fun _ _ he => by cases he
    here := fun _ _ he => by cases he
    people := fun _ _ hc => by cases hc }

theorem Sound.toWatched (h : net.Sound maps none) : net.Watched maps where
  safe := h.safe
  counted e he := by
    obtain ⟨s, hs⟩ := Option.isSome_iff_exists.mp ((h.files.listed e).mp he)
    obtain ⟨w, hw, -⟩ := Option.map_eq_some_iff.mp hs
    have hcounted := h.counted e w hw
    refine ⟨w, hw, hcounted, ?_⟩
    rw [hcounted]
    refine Int.natCast_pos.mpr (List.length_pos_of_ne_nil fun hnil => ?_)
    cases h.used e w hw hnil
  own := h.own
  once c := by
    refine (h.linked.nodup c).imp fun hne s t hs ht => ?_
    rw [← Bool.not_eq_true]
    exact fun hsame => hne (h.files.nicks _ _ s t hs ht hsame)
  users e w hw := by
    refine ⟨usersOf_eq hw ▸ h.linked.nodup' e, (h.files.listed e).mpr ?_, fun c hc => ?_⟩
    · rw [nickOf_eq hw]
      rfl
    · obtain ⟨hmem, r, hr, -⟩ := h.user hw hc
      exact ⟨by rw [hr]; rfl, hmem⟩
  watched c e he := by
    obtain ⟨r, hr, -⟩ := h.here c e he
    exact ⟨by rw [hr]; rfl, h.watched he⟩

/-- As long as nicks that are the same hash alike, lists, counts and entries agree in every state
reached, every watcher is told once of each nick that is lost and gained, and no limit is passed. -/
theorem watched_of_run (first maps : CharMap) {elems : UInt32} {t : HashTable ℕ}
    (acts : List Action)
    (hcreate : HashTable.create elems = some t)
    (hG : Run.Along (WatchNet.step first maps) (Alike first maps) (start t) acts) :
    ∀ before behind net, acts = before ++ behind →
      Run.run (WatchNet.step first maps) (start t) before = some net → net.Watched maps ∧
        ∀ act rest net', behind = act :: rest → net.step first maps act = some net' →
          Informed maps net net' ∧ Limited net net' act := by
  rintro before behind net rfl hrun
  have hsound : net.Sound maps none := Run.reached_of_along (I := fun net => net.Sound maps none)
    (fun _ _ _ h ha hstep => (h.step ha hstep).1) (sound_start hcreate) hG hrun
  refine ⟨hsound.toWatched, ?_⟩
  rintro act rest net' rfl hstep
  exact (hsound.step (Run.along_behind hG hrun).1 hstep).2

/-- It can happen, and at each word the table has room for one more. -/
def Roomy (first maps : CharMap) (net : WatchNet) (act : Action) : Prop :=
  net.Called maps act ∧
    match act with
    | .watch c limit arg =>
        Run.Along (watchWord first maps c limit) (fun net _ => net.table.Fits) net (watchWords arg)
    | .signOn _ _ | .signOff _ | .changeNick _ _ _ | .tick _ => True

instance (t : HashTable ℕ) : Decidable t.Fits := inferInstanceAs (Decidable (_ ∨ _))

instance (net : WatchNet) (act : Action) : Decidable (Roomy first maps net act) :=
  match act with
  | .watch _ _ _ => inferInstanceAs (Decidable (_ ∧ Run.Along _ _ _ _))
  | .signOn _ _ | .signOff _ | .changeNick _ _ _ | .tick _ =>
      inferInstanceAs (Decidable (_ ∧ True))

theorem Files.nickAlike (h : net.Files maps) (hfolds : maps.FoldsCase) (hvalid : maps.Valid nick) :
    net.NickAlike maps nick := by
  rintro ⟨e, he, heq⟩
  obtain ⟨s, hs⟩ := Option.isSome_iff_exists.mp ((h.listed e).mp (Multiset.mem_coe.mp he))
  refine ⟨e, he, heq, ?_⟩
  rw [equates_watchEnv hs] at heq
  rw [key_watchEnv hs]
  have hlower := hfolds.eq_of_same (h.valid e s hs) hvalid heq
  exact congrArg (· &&& (net.table.size - 1)) (keyHash_nickText hlower)

theorem Sound.wordAlike {limit : ℤ} {word : Bytes} (h : net.Sound maps none)
    (hfolds : maps.FoldsCase) (hroom : net.table.Fits) : WordAlike first maps c limit net word := by
  rintro nick - - hcheck hlen
  exact ⟨h.files.nickAlike hfolds (valid_of_check hcheck hlen), fun _ => hroom⟩

theorem Sound.alike {act : Action} (h : net.Sound maps none) (hfolds : maps.FoldsCase)
    (hroom : net.Roomy first maps act) : net.Alike first maps act := by
  obtain ⟨hcall, hroom⟩ := hroom
  cases act with
  | signOn c r => exact h.files.nickAlike hfolds hcall.2.2
  | signOff c => exact fun r hr => h.files.nickAlike hfolds (h.people c r hr)
  | changeNick c nick ts =>
    exact fun r hr _ => ⟨h.files.nickAlike hfolds (h.people c r hr),
      h.files.nickAlike hfolds hcall.2.2⟩
  | watch c limit arg =>
    obtain ⟨r, hr, hmine⟩ := (Option.any_eq_true _ _).mp hcall
    refine Run.along_of_along (I := fun net => net.Sound maps none ∧ net.client c = some r) ?_ ?_
      ⟨h, hr⟩ hroom
    · rintro net₁ word net₂ ⟨h₁, hr₁⟩ hroom hword
      obtain ⟨net', hword', h', hquiet, -⟩ := h₁.watchWord hr₁ hmine (h₁.wordAlike hfolds hroom)
      obtain rfl := Option.some.inj (hword'.symm.trans hword)
      exact ⟨h', hquiet.client ▸ hr₁⟩
    · exact fun net₁ word h₁ hroom => h₁.1.wordAlike hfolds hroom
  | tick now => trivial

/-- With a map that folds case only, as the default one, all it takes is room in the table. -/
theorem along_of_foldsCase {elems : UInt32} {t : HashTable ℕ} {acts : List Action}
    (hcreate : HashTable.create elems = some t) (hfolds : maps.FoldsCase)
    (hroom : Run.Along (WatchNet.step first maps) (Roomy first maps) (start t) acts) :
    Run.Along (WatchNet.step first maps) (Alike first maps) (start t) acts :=
  Run.along_of_along (I := fun net => net.Sound maps none)
    (fun _ _ _ h hroom hstep => (h.step (h.alike hfolds hroom) hstep).1)
    (fun _ _ h hroom => h.alike hfolds hroom) (sound_start hcreate) hroom

/-- A client that signs on with a nick. -/
def person (nick : Bytes) (mine : Bool) : WatchClient := ⟨nick, bytes "u", bytes "h", 1, 1, mine⟩

/-- A table of 128 buckets. -/
def watchTable : HashTable ℕ := ⟨128, 0, fun _ => []⟩

/-- One client watches two nicks, one of which the other client has, and then the other. -/
def twoWatched : List Action :=
  [.signOn 0 (person (bytes "ann") true), .watch 0 2 (some (bytes "+bob,+carl +dan")),
    .signOn 1 (person (bytes "Bob") false), .changeNick 1 (bytes "Carl") 5,
    .watch 0 2 (some (bytes "-bob")), .signOff 1, .watch 0 2 (some (bytes "c")), .signOff 0]

theorem watched_of_run_twoWatched :
    ∃ net, Run.run (WatchNet.step CharMap.nicks CharMap.nicks) (start watchTable) twoWatched =
      some net ∧ net.Watched CharMap.nicks := by
  have hsome : (Run.run (WatchNet.step CharMap.nicks CharMap.nicks) (start watchTable)
      twoWatched).isSome := by
    decide +kernel
  obtain ⟨net, hrun⟩ := Option.isSome_iff_exists.mp hsome
  have hcreate : HashTable.create 128 = some watchTable := rfl
  have hroom : Run.Along (WatchNet.step CharMap.nicks CharMap.nicks)
      (Roomy CharMap.nicks CharMap.nicks) (start watchTable) twoWatched := by
    decide +kernel
  exact ⟨net, hrun, (watched_of_run CharMap.nicks CharMap.nicks twoWatched hcreate
    (along_of_foldsCase hcreate CharMap.foldsCase_nicks hroom) twoWatched [] net
    (List.append_nil _).symm hrun).1⟩

/-- Where `[` and `{` are the same, who watches a nick with one of them is not told of the client
that has the other. -/
theorem notices_fail : ¬ ∀ (first maps : CharMap) (elems : UInt32) (t : HashTable ℕ)
    (acts : List Action) (act : Action) (net net' : WatchNet), HashTable.create elems = some t →
    Run.run (WatchNet.step first maps) (start t) acts = some net →
    net.step first maps act = some net' → Informed maps net net' := by
  intro hall
  let acts : List Action :=
    [.signOn 0 (person (bytes "ann") true), .watch 0 2 (some (bytes "+a["))]
  let act : Action := .signOn 1 (person (bytes "a\x7b") false)
  have hvals : (Run.run (WatchNet.step CharMap.braces CharMap.braces) (start watchTable) acts).map
      (fun net => ((net.watches 0).list, net.nickOf 0, net.client 1, net.sent)) =
      some ([0], some (bytes "a["), none, []) := by
    decide +kernel
  obtain ⟨net, hrun, hnet⟩ := Option.map_eq_some_iff.mp hvals
  simp only [Prod.mk.injEq] at hnet
  obtain ⟨hlist, hnick, hfree, hsent⟩ := hnet
  have hvals' : (Run.run (WatchNet.step CharMap.braces CharMap.braces) (start watchTable)
      (acts ++ [act])).map (fun net => (net.client 1, net.sent)) =
      some (some (person (bytes "a\x7b") false), []) := by
    decide +kernel
  obtain ⟨net', hrun', hnet'⟩ := Option.map_eq_some_iff.mp hvals'
  obtain ⟨hclient, hsent'⟩ := Prod.mk.inj hnet'
  rw [Run.run_append, hrun, Option.bind_some] at hrun'
  obtain ⟨net₁, hstep, hdone⟩ := Run.run_cons_eq_some.mp hrun'
  obtain rfl := Option.some.inj hdone
  obtain ⟨new, hnew, honce⟩ :=
    hall CharMap.braces CharMap.braces 128 watchTable acts act net net₁ rfl hrun hstep
  rw [hsent, hsent', List.nil_append] at hnew
  subst hnew
  have hvalid : CharMap.braces.Valid (bytes "a\x7b") := by decide +kernel
  have hsame : CharMap.braces.same (bytes "a[") (bytes "a\x7b") = true := by decide
  have hself : CharMap.braces.same (bytes "a\x7b") (bytes "a\x7b") = true := by decide
  have htold := (honce 0 (bytes "a\x7b") hvalid).2.1 ⟨⟨0, hlist ▸ List.mem_singleton_self 0,
    bytes "a[", hnick, hsame⟩, 1, ⟨_, hclient, hself⟩, not_holds hfree⟩
  cases htold

end

end WatchNet

end Ithildin
