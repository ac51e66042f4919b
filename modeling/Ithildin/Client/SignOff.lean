import Ithildin.Client.History

/-!
# Clients that come, change nicks and sign off

* `HistNet.step`: a client is made, is given a nick, registers, changes its nick or is destroyed;
* `Intact`: what is to hold of the history, and of what `client_get_history` finds;
* `Roll`: the client list and the client table;
* `Alike`: the calls for which nicks that are the same hash alike, and the tables have room;
* `intact_of_run`: they keep it;
* `along_of_foldsCase`: with the default map all calls are of this kind.
-/

namespace Ithildin

namespace HistNet

/-- What happens: a client is made, one of ours or not; the nick of one that another server
introduces is checked and filled in; `register_client`, `client_change_nick` and `destroy_client`
are called; and time goes on. -/
inductive Action
  | create (mine : Bool)
  | name (c : ℕ) (nick : Bytes)
  | register (c : ℕ)
  | changeNick (c : ℕ) (nick : Bytes)
  | destroy (c : ℕ)
  | tick (now : ℤ)

variable (maps : CharMap) (net : HistNet)

/-- `create_client`. -/
def createClient (mine : Bool) : HistNet :=
  { net.setCli net.fresh (some ⟨[], mine, false, false, none⟩) with
    clients := net.fresh :: net.clients
    fresh := net.fresh + 1 }

/-- When a call is made: on a client that is online, and has what the call needs. -/
def Called (net : HistNet) : Action → Prop
  | .create _ | .tick _ => True
  | .name c nick => c ∈ net.clients ∧ nick ≠ [] ∧ maps.Valid nick ∧
      (net.cli c).all fun r => !r.mine && !r.registered
  | .register c => c ∈ net.clients ∧
      (net.cli c).all fun r => !r.registered && decide (r.nick ≠ [])
  | .changeNick c _ => c ∈ net.clients ∧
      (net.cli c).all fun r => r.mine || r.registered
  | .destroy c => c ∈ net.clients

instance (act : Action) : Decidable (net.Called maps act) :=
  match act with
  | .create _ | .tick _ => inferInstanceAs (Decidable True)
  | .name c _ => inferInstanceAs (Decidable (c ∈ net.clients ∧ _ ∧ _ ∧ _ = true))
  | .register c => inferInstanceAs (Decidable (c ∈ net.clients ∧ _ = true))
  | .changeNick c _ => inferInstanceAs (Decidable (c ∈ net.clients ∧ _ = true))
  | .destroy c => inferInstanceAs (Decidable (c ∈ net.clients))

/-- What a call does. -/
def exec (net : HistNet) : Action → Option HistNet
  | .create mine => some (net.createClient mine)
  | .name c nick => some (net.modify c fun r => { r with nick := nick })
  | .register c => net.registerClient maps c
  | .changeNick c nick => net.changeNick maps c nick
  | .destroy c => net.destroyClient maps c
  | .tick now => some { net with now := now }

/-- A step. A call that goes wrong leaves its mark. -/
def step (net : HistNet) (act : Action) : Option HistNet :=
  if net.Called maps act then some ((net.exec maps act).getD { net with fault := true }) else none

/-- The tables that the module creates. -/
def start : HistNet :=
  ⟨fun _ => none, fun _ => none, 0, [], [], ⟨128, 0, fun _ => []⟩, ⟨1024, 0, fun _ => []⟩, 0, false⟩

/-- No call has gone wrong; the list and the table hold the same entries, those in memory; no two
entries have one nick, or one client; each points at a client that is in memory and points back; a
client that is not online is in memory exactly as long as an entry points at it; and a look-up finds
clients that are online only. -/
structure Intact : Prop where
  safe : net.fault = false
  list : net.history.Nodup ∧ ∀ e, e ∈ net.history ↔ (net.entry e).isSome
  table : (net.historyTable.ents : Multiset ℕ) = net.history
  nicks : ∀ e e' h h', net.entry e = some h → net.entry e' = some h' →
    maps.same h.nick h'.nick = true → e = e'
  clients : ∀ e e' h h', net.entry e = some h → net.entry e' = some h' → h.cli = h'.cli → e = e'
  back : ∀ e h, net.entry e = some h → ∃ r, net.cli h.cli = some r ∧ r.hist = some e
  freed : ∀ c, c ∉ net.clients →
    ((net.cli c).isSome ↔ ∃ e ∈ net.history, (net.entry e).map HistEntry.cli = some c)
  found : ∀ nick limit, ∃ o, net.getHistory maps nick limit = some o ∧
    ∀ c ∈ o, c ∈ net.clients ∧ (net.cli c).any HistClient.registered = true

/-- The calls that keep it: a new nick is one, as its comment has the caller verify; a table that
takes one more entry has fewer than 2^29 buckets, or room; a nick that is put into the history
hashes as the entries do that have the same nick, and so does the new nick of a client that keeps
its place in the client table. -/
def Alike (net : HistNet) : Action → Prop
  | .create _ | .tick _ | .name _ _ => True
  | .register c => ∀ r ∈ net.cli c, r.mine = false → net.table.Fits
  | .changeNick c nick => nick ≠ [] ∧ maps.Valid nick ∧ ∀ r ∈ net.cli c,
      if maps.same r.nick nick then
        (net.cliEnv maps).bucket net.table.size (nickText r.nick) =
          (net.cliEnv maps).bucket net.table.size (nickText nick)
      else net.table.Fits ∧
        (r.registered = true → net.historyTable.Fits ∧ HistAlike maps net r.nick)
  | .destroy c => ∀ r ∈ net.cli c, r.registered = true →
      net.historyTable.Fits ∧ HistAlike maps net r.nick

/-! ### The client list and its table -/

/-- The client is in the table. -/
def hashed (c : ℕ) : Bool := (net.cli c).any fun r => r.nick != [] && (r.mine || r.registered)

/-- Who is online is in memory, and in the table as soon as it has a nick of its own. -/
structure Roll : Prop where
  nodup : net.clients.Nodup
  online : ∀ c ∈ net.clients, ∃ r, net.cli c = some r ∧ r.history = false
  listed : ∀ c r, net.cli c = some r → r.history = false → c ∈ net.clients
  named : ∀ c r, net.cli c = some r → r.registered = true → r.nick ≠ []
  filed : HashTable.Calm (net.cliEnv maps) net.table (net.clients.filter net.hashed : Multiset ℕ)

/-- Besides one client, those that are online keep all but their entries, and none comes. -/
structure Kin (net net' : HistNet) (c : ℕ) : Prop where
  online : ∀ d, d ≠ c → ∀ r, net.cli d = some r → r.history = false →
    ∃ o, net'.cli d = some { r with hist := o }
  old : ∀ d, d ≠ c → ∀ r', net'.cli d = some r' → ∃ r, net.cli d = some r ∧
    r' = { r with hist := r'.hist }

/-- The clients in the table but for one. -/
def others (c : ℕ) : Multiset ℕ := ((net.clients.erase c).filter net.hashed : List ℕ)

section
variable {maps} {net} {net' : HistNet} {c : ℕ} {r : HistClient} {nick : Bytes}
  {t : HashTable ℕ}

theorem hashed_eq (hc : net.cli c = some r) :
    net.hashed c = (r.nick != [] && (r.mine || r.registered)) := by
  rw [hashed, hc, Option.any_some]

theorem Kin.refl (net : HistNet) (c : ℕ) : Kin net net c where
  online _ _ r hr _ := ⟨r.hist, hr⟩
  old _ _ r' hr' := ⟨r', hr', rfl⟩

theorem Kin.setCli {o : Option HistClient} (h : Kin net net' c) : Kin net (net'.setCli c o) c where
  online d hd r hr hhist := by
    rw [cli_setCli_of_ne hd]
    exact h.online d hd r hr hhist
  old d hd r' hr' := by
    rw [cli_setCli_of_ne hd] at hr'
    exact h.old d hd r' hr'

theorem Logged.kin (h : Logged net net' c r) : Kin net net' c where
  online d hd s hs hhist := by
    rcases h.cli d hd with hsame | ⟨s', hs', hnew⟩
    · exact ⟨s.hist, hsame.trans hs⟩
    · obtain rfl := Option.some.inj (hs.symm.trans hs')
      rw [if_neg (by rw [hhist]; exact Bool.false_ne_true)] at hnew
      exact ⟨none, hnew⟩
  old d hd s' hs' := by
    rcases h.cli d hd with hsame | ⟨s, hs, hnew⟩
    · exact ⟨s', hsame ▸ hs', rfl⟩
    · rw [hnew] at hs'
      split at hs'
      · cases hs'
      · obtain rfl := Option.some.inj hs'
        exact ⟨s, hs, rfl⟩

/-- A client is in the table, or it is not. -/
theorem coe_filter_hashed (hc : c ∈ net.clients) :
    (net.clients.filter net.hashed : Multiset ℕ) =
      if net.hashed c then c ::ₘ net.others c else net.others c := by
  have hperm := (List.perm_cons_erase hc).filter net.hashed
  rw [Multiset.coe_eq_coe.mpr hperm]
  by_cases hhashed : net.hashed c = true
  · rw [List.filter_cons_of_pos hhashed, if_pos hhashed]
    rfl
  · rw [List.filter_cons_of_neg hhashed, if_neg hhashed]
    rfl

theorem mem_others {d : ℕ} (hnodup : net.clients.Nodup) :
    d ∈ net.others c ↔ d ≠ c ∧ d ∈ net.clients ∧ net.hashed d = true := by
  rw [others, Multiset.mem_coe, List.mem_filter, hnodup.mem_erase_iff, and_assoc]

/-- A client that stays online has the place it had. -/
theorem Kin.hashed_eq {d : ℕ} (h : Kin net net' c) (hroll : net.Roll maps) (hd : d ∈ net.clients)
    (hne : d ≠ c) : net'.hashed d = net.hashed d := by
  obtain ⟨r, hr, hhist⟩ := hroll.online d hd
  obtain ⟨o, ho⟩ := h.online d hne r hr hhist
  rw [HistNet.hashed_eq hr, HistNet.hashed_eq ho]

theorem Kin.key_eq {d : ℕ} (h : Kin net net' c) (hroll : net.Roll maps) (hd : d ∈ net.clients)
    (hne : d ≠ c) : (net'.cliEnv maps).key d = (net.cliEnv maps).key d := by
  obtain ⟨r, hr, hhist⟩ := hroll.online d hd
  obtain ⟨o, ho⟩ := h.online d hne r hr hhist
  rw [key_cliEnv hr, key_cliEnv ho]

/-- The others are as they were. -/
theorem Kin.others_eq (h : Kin net net' c) (hroll : net.Roll maps)
    (hclients : net'.clients = net.clients) : net'.others c = net.others c := by
  rw [others, others, hclients]
  refine congrArg _ (List.filter_congr fun d hd => ?_)
  obtain ⟨hne, hmem⟩ := hroll.nodup.mem_erase_iff.mp hd
  exact h.hashed_eq hroll hmem hne

theorem Kin.calm (h : Kin net net' c) (hroll : net.Roll maps)
    (ht : HashTable.Calm (net.cliEnv maps) t (net.others c)) :
    HashTable.Calm (net'.cliEnv maps) t (net.others c) := by
  refine ht.congr_env fun d hd => ?_
  obtain ⟨hne, hmem, -⟩ := (mem_others hroll.nodup).mp hd
  exact congrArg _ (h.key_eq hroll hmem hne)

/-- One client changes, and so does the table. -/
theorem Roll.update {r' : HistClient} (hroll : net.Roll maps) (hc : c ∈ net.clients)
    (hclients : net'.clients = net.clients) (hkin : Kin net net' c) (hc' : net'.cli c = some r')
    (hr' : r'.history = false) (hnamed : r'.registered = true → r'.nick ≠ [])
    (ht : HashTable.Calm (net'.cliEnv maps) net'.table
      (if net'.hashed c then c ::ₘ net.others c else net.others c)) : net'.Roll maps where
  nodup := hclients ▸ hroll.nodup
  online d hd := by
    by_cases hdc : d = c
    · exact ⟨r', hdc ▸ hc', hr'⟩
    · obtain ⟨r, hr, hhist⟩ := hroll.online d (hclients ▸ hd)
      obtain ⟨o, ho⟩ := hkin.online d hdc r hr hhist
      exact ⟨_, ho, hhist⟩
  listed d s hs hhist := by
    rw [hclients]
    by_cases hdc : d = c
    · exact hdc ▸ hc
    · obtain ⟨s₀, hs₀, hsame⟩ := hkin.old d hdc s hs
      rw [hsame] at hhist
      exact hroll.listed d s₀ hs₀ hhist
  named d s hs hreg := by
    by_cases hdc : d = c
    · subst hdc
      obtain rfl := Option.some.inj (hc'.symm.trans hs)
      exact hnamed hreg
    · obtain ⟨s₀, hs₀, hsame⟩ := hkin.old d hdc s hs
      rw [hsame] at hreg ⊢
      exact hroll.named d s₀ hs₀ hreg
  filed := by
    rw [coe_filter_hashed (hclients ▸ hc), hkin.others_eq hroll hclients]
    exact ht

/-- One client leaves, and the table has lost it. -/
theorem Roll.leave (hroll : net.Roll maps) (hclients : net'.clients = net.clients.erase c)
    (hkin : Kin net net' c) (hc' : ∀ r' ∈ net'.cli c, r'.history = true ∧ r'.nick ≠ [])
    (ht : HashTable.Calm (net'.cliEnv maps) net'.table (net.others c)) : net'.Roll maps where
  nodup := hclients ▸ hroll.nodup.erase c
  online d hd := by
    rw [hclients, hroll.nodup.mem_erase_iff] at hd
    obtain ⟨r, hr, hhist⟩ := hroll.online d hd.2
    obtain ⟨o, ho⟩ := hkin.online d hd.1 r hr hhist
    exact ⟨_, ho, hhist⟩
  listed d s hs hhist := by
    rw [hclients, hroll.nodup.mem_erase_iff]
    have hdc : d ≠ c := by
      rintro rfl
      rw [(hc' s hs).1] at hhist
      cases hhist
    obtain ⟨s₀, hs₀, hsame⟩ := hkin.old d hdc s hs
    rw [hsame] at hhist
    exact ⟨hdc, hroll.listed d s₀ hs₀ hhist⟩
  named d s hs hreg := by
    by_cases hdc : d = c
    · subst hdc
      exact (hc' s hs).2
    · obtain ⟨s₀, hs₀, hsame⟩ := hkin.old d hdc s hs
      rw [hsame] at hreg ⊢
      exact hroll.named d s₀ hs₀ hreg
  filed := by
    have hfilter : net'.clients.filter net'.hashed = (net.clients.erase c).filter net.hashed := by
      rw [hclients]
      refine List.filter_congr fun d hd => ?_
      obtain ⟨hne, hmem⟩ := hroll.nodup.mem_erase_iff.mp hd
      exact hkin.hashed_eq hroll hmem hne
    rw [hfilter]
    exact ht

/-! ### Calls -/

/-- The books do not know of the client list, nor of its table. -/
theorem Books.frame (hb : net.Books maps) (clients : List ℕ) (t : HashTable ℕ) (now : ℤ) :
    ({ net with clients := clients, table := t, now := now } : HistNet).Books maps :=
  ⟨hb.crossed, hb.listed, hb.nodup, hb.nicks, hb.filed, hb.gone, hb.logged, hb.names, hb.entries,
    hb.fresh⟩

theorem Books.withFresh {n : ℕ} (hb : net.Books maps) (hn : net.fresh ≤ n) :
    ({ net with fresh := n } : HistNet).Books maps :=
  ⟨hb.crossed, hb.listed, hb.nodup, hb.nicks, hb.filed, hb.gone, hb.logged, hb.names, hb.entries,
    fun m hm => hb.fresh m (Nat.le_trans hn hm)⟩

theorem Books.lt_fresh (hb : net.Books maps) (hc : net.cli c = some r) : c < net.fresh := by
  by_contra hge
  rw [(hb.fresh c (Nat.not_lt.mp hge)).1] at hc
  cases hc

/-- A record is changed, or freed, that points where it pointed. -/
theorem Books.setCli {o : Option HistClient} (hb : net.Books maps) (hlt : c < net.fresh)
    (hhist : o.bind HistClient.hist = net.histOf c)
    (ho : ∀ r' ∈ o, (r'.history = true → r'.hist.isSome) ∧
      (r'.hist.isSome → r'.registered = true) ∧ maps.Valid r'.nick) :
    (net.setCli c o).Books maps where
  crossed := by
    refine hb.crossed.congr (fun d => ?_) fun _ => rfl
    by_cases hd : d = c
    · rw [hd, histOf, cli_setCli_self, hhist]
    · rw [histOf, cli_setCli_of_ne hd, histOf]
  listed := hb.listed
  nodup := hb.nodup
  nicks := hb.nicks
  filed := hb.filed
  gone d r' hd := by
    rcases cli_setCli_cases hd with ⟨-, hnew⟩ | ⟨-, hold⟩
    · exact (ho r' hnew).1
    · exact hb.gone d r' hold
  logged d r' hd := by
    rcases cli_setCli_cases hd with ⟨-, hnew⟩ | ⟨-, hold⟩
    · exact (ho r' hnew).2.1
    · exact hb.logged d r' hold
  names d r' hd := by
    rcases cli_setCli_cases hd with ⟨-, hnew⟩ | ⟨-, hold⟩
    · exact (ho r' hnew).2.2
    · exact hb.names d r' hold
  entries := hb.entries
  fresh n hn := by
    have hnc : n ≠ c := Nat.ne_of_gt (Nat.lt_of_lt_of_le hlt hn)
    exact ⟨(cli_setCli_of_ne hnc).trans (hb.fresh n hn).1, (hb.fresh n hn).2⟩

/-- A client that points where it pointed gets a new record. -/
theorem Books.setRecord {r' : HistClient} (hb : net.Books maps) (hc : net.cli c = some r)
    (hhist : r'.hist = r.hist) (hgone : r'.history = true → r'.hist.isSome)
    (hreg : r.registered = true → r'.registered = true) (hvalid : maps.Valid r'.nick) :
    (net.setCli c (some r')).Books maps := by
  refine hb.setCli (hb.lt_fresh hc) (hhist.trans (histOf_eq hc).symm) ?_
  rintro s hs
  obtain rfl := Option.some.inj hs
  exact ⟨hgone, fun hsome => hreg (hb.logged c r hc (hhist ▸ hsome)), hvalid⟩

theorem modify_eq {f : HistClient → HistClient} (hc : net.cli c = some r) :
    net.modify c f = net.setCli c (some (f r)) := by
  rw [modify, hc, Option.map_some]

/-- What is kept: the books, the roll, and no call has gone wrong. -/
structure Kept (maps : CharMap) (net : HistNet) : Prop where
  safe : net.fault = false
  books : net.Books maps
  roll : net.Roll maps

theorem Kept.createClient (h : net.Kept maps) (mine : Bool) :
    (net.createClient mine).Kept maps where
  safe := h.safe
  books := by
    have hb := h.books.withFresh (Nat.le_succ net.fresh)
    have hnone := (h.books.fresh net.fresh (Nat.le_refl _)).1
    refine (@Books.setCli maps { net with fresh := net.fresh + 1 } net.fresh
      (some ⟨[], mine, false, false, none⟩) hb (Nat.lt_succ_self _) ?_ ?_).frame _ _ _
    · change none = (net.cli net.fresh).bind HistClient.hist
      rw [hnone, Option.bind_none]
    · rintro r' hr'
      obtain rfl := Option.some.inj hr'
      exact ⟨(by rintro ⟨⟩), (by rintro ⟨⟩), CharMap.valid_nil⟩
  roll := by
    have hnone := (h.books.fresh net.fresh (Nat.le_refl _)).1
    have hset : Kin net (net.setCli net.fresh (some ⟨[], mine, false, false, none⟩)) net.fresh :=
      (Kin.refl net net.fresh).setCli
    have hkin : Kin net (net.createClient mine) net.fresh := ⟨hset.online, hset.old⟩
    have hself : (net.createClient mine).cli net.fresh = some ⟨[], mine, false, false, none⟩ :=
      cli_setCli_self
    have hnot : net.fresh ∉ net.clients := by
      intro hmem
      obtain ⟨r, hr, -⟩ := h.roll.online net.fresh hmem
      rw [hnone] at hr
      cases hr
    have hothers : net.others net.fresh = (net.clients.filter net.hashed : Multiset ℕ) := by
      rw [others, List.erase_of_not_mem hnot]
    exact {
      nodup := List.nodup_cons.mpr ⟨hnot, h.roll.nodup⟩
      online := fun d hd => by
        by_cases hdf : d = net.fresh
        · exact ⟨_, hdf ▸ hself, rfl⟩
        · obtain ⟨r, hr, hhist⟩ := h.roll.online d ((List.mem_cons.mp hd).resolve_left hdf)
          obtain ⟨o, ho⟩ := hkin.online d hdf r hr hhist
          exact ⟨_, ho, hhist⟩
      listed := fun d s hs hhist => by
        by_cases hdf : d = net.fresh
        · exact hdf ▸ List.mem_cons_self
        · obtain ⟨s₀, hs₀, hsame⟩ := hkin.old d hdf s hs
          rw [hsame] at hhist
          exact List.mem_cons_of_mem _ (h.roll.listed d s₀ hs₀ hhist)
      named := fun d s hs hreg => by
        by_cases hdf : d = net.fresh
        · rw [hdf, hself] at hs
          obtain rfl := Option.some.inj hs
          cases hreg
        · obtain ⟨s₀, hs₀, hsame⟩ := hkin.old d hdf s hs
          rw [hsame] at hreg ⊢
          exact h.roll.named d s₀ hs₀ hreg
      filed := by
        have hhashed : (net.createClient mine).hashed net.fresh = false := hashed_eq hself
        have hfilter : (net.createClient mine).clients.filter (net.createClient mine).hashed =
            net.clients.filter net.hashed := by
          refine (List.filter_cons_of_neg (Bool.eq_false_iff.mp hhashed)).trans ?_
          refine List.filter_congr fun d hd => ?_
          exact hkin.hashed_eq h.roll hd fun heq => hnot (heq ▸ hd)
        rw [hfilter, ← hothers]
        exact hkin.calm h.roll (hothers ▸ h.roll.filed) }

/-- `hash_delete`, whether the client is in the table or not. -/
theorem Roll.unhash (hroll : net.Roll maps) (hc : c ∈ net.clients) (hkin : Kin net net' c)
    (htable : net'.table = net.table) (hnick : (net'.cliEnv maps).key c = (net.cliEnv maps).key c) :
    ∃ t, net'.unhash maps c = some { net' with table := t } ∧
      HashTable.Calm (net'.cliEnv maps) t (net.others c) ∧ (net.table.Fits → t.Fits) := by
  have hcalm : HashTable.Calm (net'.cliEnv maps) net'.table
      (net.clients.filter net.hashed : Multiset ℕ) := by
    rw [htable]
    refine hroll.filed.congr_env fun d hd => ?_
    by_cases hdc : d = c
    · rw [hdc, hnick]
      rfl
    · obtain ⟨hmem, -⟩ := List.mem_filter.mp (Multiset.mem_coe.mp hd)
      exact congrArg _ (hkin.key_eq hroll hmem hdc)
  obtain ⟨t, hdelete, hcalm'⟩ := hcalm.delete c
  have herase : (net.clients.filter net.hashed : Multiset ℕ).erase c = net.others c := by
    rw [coe_filter_hashed hc]
    split
    · rw [Multiset.erase_cons_head]
    · refine Multiset.erase_of_notMem fun hmem => ?_
      exact ((mem_others hroll.nodup).mp hmem).1 rfl
  refine ⟨t, ?_, herase ▸ hcalm', fun hfits => ?_⟩
  · rw [HistNet.unhash, hdelete, Option.map_some]
  · refine hfits.of_le hroll.filed hcalm' ((HashTable.size_delete hdelete).trans ?_) ?_
    · rw [htable]
    · exact Multiset.card_le_card (Multiset.erase_le c _)

theorem leave_of_history (hc : (net.cli c).any HistClient.history = true) :
    net.leave c = { net with clients := net.clients.erase c } :=
  if_pos hc

theorem leave_of_online (hc : net.cli c = some r) (hr : r.history = false) :
    net.leave c = ({ net with clients := net.clients.erase c } : HistNet).freeClient c := by
  rw [HistNet.leave, hc, Option.any_some, hr]
  rfl

/-- A client that has no nick of its own yet, or of another server, is not in the table. -/
theorem Roll.filed_others (hroll : net.Roll maps) (hc : c ∈ net.clients)
    (hnot : net.hashed c = false) :
    HashTable.Calm (net.cliEnv maps) net.table (net.others c) := by
  have hfiled := hroll.filed
  rwa [coe_filter_hashed hc, hnot, if_neg Bool.false_ne_true] at hfiled

/-- A client that is online is signed off, and leaves its memory to its entry, or is freed. -/
theorem Kept.destroyClient (h : net.Kept maps) (hc : c ∈ net.clients)
    (ha : net.Alike maps (.destroy c)) :
    ∃ net', net.destroyClient maps c = some net' ∧ net'.Kept maps := by
  obtain ⟨r, hr, hhist⟩ := h.roll.online c hc
  have hlt := h.books.lt_fresh hr
  rw [HistNet.destroyClient, hr, Option.bind_some, if_neg (by rw [hhist]; exact Bool.false_ne_true)]
  by_cases hreg : r.registered = true
  · obtain ⟨hfits, halike⟩ := ha r hr hreg
    obtain ⟨net₁, hadd, hb₁, hlog⟩ := h.books.addHistory hr hhist hreg hfits halike
    obtain ⟨e, hown⟩ := hlog.own
    have hmark : net₁.modify c (fun r => { r with history := true }) =
        net₁.setCli c (some { r with hist := some e, history := true }) := modify_eq hown
    have hkin : Kin net (net₁.setCli c (some { r with hist := some e, history := true })) c :=
      hlog.kin.setCli
    have hb₂ := @Books.setRecord maps net₁ c { r with hist := some e }
      { r with hist := some e, history := true } hb₁ hown rfl (fun _ => rfl) id
      (h.books.names c r hr)
    obtain ⟨t, hunhash, ht, -⟩ := h.roll.unhash hc hkin hlog.table (by
      rw [key_cliEnv hr, key_cliEnv cli_setCli_self])
    have hnick := h.roll.named c r hr hreg
    rw [if_pos hreg, hadd, Option.map_some, Option.bind_some, hmark, if_pos hnick, hunhash,
      Option.map_some]
    refine ⟨_, rfl, ?_⟩
    have hself : (net₁.setCli c (some { r with hist := some e, history := true })).cli c =
        some { r with hist := some e, history := true } := cli_setCli_self
    rw [leave_of_history (by dsimp only; rw [hself]; rfl)]
    exact {
      safe := hlog.fault.trans h.safe
      books := hb₂.frame _ _ _
      roll := by
        refine h.roll.leave ?_ ⟨hkin.online, hkin.old⟩ ?_ ht
        · exact congrArg (List.erase · c) hlog.clients
        · rintro r' hr'
          obtain rfl := Option.some.inj (hself.symm.trans hr')
          exact ⟨rfl, hnick⟩ }
  · have hnone : r.hist = none := by
      rw [← Option.not_isSome_iff_eq_none]
      exact fun hsome => hreg (h.books.logged c r hr hsome)
    have hstep : ∃ t, (if r.nick ≠ [] then net.unhash maps c else some net) =
        some { net with table := t } ∧ HashTable.Calm (net.cliEnv maps) t (net.others c) := by
      by_cases hnick : r.nick = []
      · refine ⟨net.table, if_neg (not_not.mpr hnick), h.roll.filed_others hc ?_⟩
        rw [hashed_eq hr, hnick]
        rfl
      · obtain ⟨t, hunhash, ht, -⟩ := h.roll.unhash hc (Kin.refl net c) rfl rfl
        exact ⟨t, (if_pos hnick).trans hunhash, ht⟩
    obtain ⟨t, htable, ht⟩ := hstep
    rw [if_neg hreg, Option.bind_some, htable, Option.map_some]
    refine ⟨_, rfl, ?_⟩
    rw [@leave_of_online { net with table := t } c r hr hhist]
    have hkin : Kin net (net.setCli c none) c := (Kin.refl net c).setCli
    have hb := @Books.setCli maps net c none h.books hlt
      (by rw [histOf_eq hr, hnone]; rfl) (fun _ hr' => by cases hr')
    exact {
      safe := h.safe
      books := hb.frame _ _ _
      roll := by
        refine h.roll.leave rfl ⟨hkin.online, hkin.old⟩ ?_ (hkin.calm h.roll ht)
        rintro r' hr'
        have hgone : (net.setCli c none).cli c = none := cli_setCli_self
        cases hgone.symm.trans hr' }

/-- A client keeps its record but for its nick, its entry and its flags, and the table has it. -/
theorem Kept.update {r' : HistClient} (h : net.Kept maps) (hc : c ∈ net.clients)
    (hr : net.cli c = some r) (hclients : net'.clients = net.clients)
    (hfault : net'.fault = net.fault) (hkin : Kin net net' c) (hb : net'.Books maps)
    (hc' : net'.cli c = some r') (hr' : r'.history = r.history)
    (hnamed : r'.registered = true → r'.nick ≠ [])
    (ht : HashTable.Calm (net'.cliEnv maps) net'.table
      (if net'.hashed c then c ::ₘ net.others c else net.others c)) : net'.Kept maps where
  safe := hfault.trans h.safe
  books := hb
  roll := by
    obtain ⟨s, hs, hhist⟩ := h.roll.online c hc
    obtain rfl := Option.some.inj (hr.symm.trans hs)
    exact h.roll.update hc hclients hkin hc' (hr'.trans hhist) hnamed ht

/-- What `client_change_nick` does to leave the old nick. -/
theorem Kept.leaveNick (h : net.Kept maps) (hc : c ∈ net.clients) (hr : net.cli c = some r)
    (hnot : maps.same r.nick nick = false)
    (ha : net.table.Fits ∧
      (r.registered = true → net.historyTable.Fits ∧ HistAlike maps net r.nick)) :
    ∃ net₁ o, (if r.nick ≠ [] ∧ maps.same r.nick nick = false then
        (net.unhash maps c).bind fun net₁ =>
          if r.registered then net₁.addHistory maps c else some net₁
      else some net) = some net₁ ∧ net₁.Books maps ∧ net₁.cli c = some { r with hist := o } ∧
      Kin net net₁ c ∧ net₁.clients = net.clients ∧ net₁.fault = net.fault ∧ net₁.table.Fits ∧
      HashTable.Calm (net.cliEnv maps) net₁.table (net.others c) := by
  obtain ⟨s, hs, hhist⟩ := h.roll.online c hc
  obtain rfl := Option.some.inj (hr.symm.trans hs)
  by_cases hnick : r.nick = []
  · refine ⟨net, r.hist, if_neg fun hboth => hboth.1 hnick, h.books, hr, .refl net c, rfl, rfl,
      ha.1, h.roll.filed_others hc ?_⟩
    rw [hashed_eq hr, hnick]
    rfl
  · obtain ⟨t, hunhash, ht, hfits⟩ := h.roll.unhash hc (Kin.refl net c) rfl rfl
    rw [if_pos ⟨hnick, hnot⟩, hunhash, Option.bind_some]
    by_cases hreg : r.registered = true
    · obtain ⟨hroom, halike⟩ := ha.2 hreg
      have hb := h.books.frame net.clients t net.now
      obtain ⟨net₁, hadd, hb₁, hlog⟩ := hb.addHistory hr hhist hreg hroom halike
      obtain ⟨e, hown⟩ := hlog.own
      have hkin := hlog.kin
      refine ⟨net₁, some e, (if_pos hreg).trans hadd, hb₁, hown, ⟨hkin.online, hkin.old⟩,
        hlog.clients, hlog.fault, ?_, ?_⟩
      · rw [hlog.table]
        exact hfits ha.1
      · rw [hlog.table]
        exact ht
    · exact ⟨{ net with table := t }, r.hist, if_neg hreg, h.books.frame _ _ _, hr,
        ⟨(Kin.refl net c).online, (Kin.refl net c).old⟩, rfl, rfl, hfits ha.1, ht⟩

theorem Kept.changeNick (h : net.Kept maps)
    (hcall : net.Called maps (.changeNick c nick)) (ha : net.Alike maps (.changeNick c nick)) :
    ∃ net', net.changeNick maps c nick = some net' ∧ net'.Kept maps := by
  obtain ⟨hc, hwho⟩ := hcall
  obtain ⟨r, hr, hhist⟩ := h.roll.online c hc
  rw [hr, Option.all_some] at hwho
  obtain ⟨hnonempty, hvalid, hhash⟩ := ha
  have halike := hhash r hr
  rw [HistNet.changeNick, List.take_of_length_le hvalid.1, hr, Option.bind_some]
  by_cases hsame : maps.same r.nick nick = true
  · -- the client keeps its place in the table
    rw [if_pos hsame] at halike
    have hstay : ¬ (r.nick ≠ [] ∧ maps.same r.nick nick = false) := by
      rintro ⟨-, hdiff⟩
      rw [hsame] at hdiff
      cases hdiff
    rw [if_neg hstay, Option.bind_some, if_pos hsame, modify_eq hr]
    refine ⟨_, rfl, ?_⟩
    have hnick : r.nick ≠ [] := by
      intro hnil
      rw [hnil, CharMap.same_iff CharMap.valid_nil hvalid] at hsame
      exact hnonempty (List.map_eq_nil_iff.mp hsame.symm)
    have hself : (net.setCli c (some { r with nick := nick })).cli c =
        some { r with nick := nick } := cli_setCli_self
    have hkin : Kin net (net.setCli c (some { r with nick := nick })) c :=
      (Kin.refl net c).setCli
    refine h.update hc hr rfl rfl hkin ?_ hself rfl (fun _ => hnonempty) ?_
    · exact h.books.setRecord hr rfl (h.books.gone c r hr) id hvalid
    · have hold : net.hashed c = true := by
        rw [hashed_eq hr, hwho, Bool.and_true]
        exact bne_iff_ne.mpr hnick
      have hnew : (net.setCli c (some { r with nick := nick })).hashed c = true := by
        rw [hashed_eq hself, hwho, Bool.and_true]
        exact bne_iff_ne.mpr hnonempty
      have hfiled := h.roll.filed
      rw [coe_filter_hashed hc, if_pos hold] at hfiled
      rw [if_pos hnew]
      refine hfiled.congr_env fun d hd => ?_
      rcases Multiset.mem_cons.mp hd with rfl | hd
      · rw [key_cliEnv hr, key_cliEnv hself]
        exact halike.symm
      · obtain ⟨hne, hmem, -⟩ := (mem_others h.roll.nodup).mp hd
        exact congrArg _ (hkin.key_eq h.roll hmem hne)
  · rw [if_neg hsame] at halike
    obtain ⟨net₁, o, hleave, hb₁, hr₁, hkin₁, hclients, hfault, hfits, ht⟩ :=
      h.leaveNick hc hr (Bool.eq_false_iff.mpr hsame) halike
    rw [hleave, Option.bind_some, if_neg hsame, modify_eq hr₁]
    have hself : (net₁.setCli c (some { r with nick := nick, hist := o })).cli c =
        some { r with nick := nick, hist := o } := cli_setCli_self
    have hkin : Kin net (net₁.setCli c (some { r with nick := nick, hist := o })) c :=
      hkin₁.setCli
    obtain ⟨t, hinsert, ht'⟩ := (hkin.calm h.roll ht).insert c hfits
    refine ⟨{ net₁.setCli c (some { r with nick := nick, hist := o }) with table := t }, ?_, ?_⟩
    · exact congrArg (Option.map _) hinsert
    · have hb := @Books.setRecord maps net₁ c { r with hist := o }
        { r with nick := nick, hist := o } hb₁ hr₁ rfl (hb₁.gone c { r with hist := o } hr₁) id
        hvalid
      have hnew : (net₁.setCli c (some { r with nick := nick, hist := o })).hashed c = true := by
        rw [hashed_eq hself, hwho, Bool.and_true]
        exact bne_iff_ne.mpr hnonempty
      refine h.update hc hr hclients hfault ⟨hkin.online, hkin.old⟩ (hb.frame _ _ _) hself rfl
        (fun _ => hnonempty) ?_
      exact (if_pos hnew).symm ▸ ht'

theorem Kept.registerClient (h : net.Kept maps) (hcall : net.Called maps (.register c))
    (ha : net.Alike maps (.register c)) :
    ∃ net', net.registerClient maps c = some net' ∧ net'.Kept maps := by
  obtain ⟨hc, hwho⟩ := hcall
  obtain ⟨r, hr, hhist⟩ := h.roll.online c hc
  rw [hr, Option.all_some, Bool.and_eq_true, Bool.not_eq_true', decide_eq_true_eq] at hwho
  obtain ⟨hreg, hnick⟩ := hwho
  have hkin : Kin net (net.setCli c (some { r with registered := true })) c :=
    (Kin.refl net c).setCli
  have hself : (net.setCli c (some { r with registered := true })).cli c =
      some { r with registered := true } := cli_setCli_self
  have hb : (net.setCli c (some { r with registered := true })).Books maps := by
    exact h.books.setRecord hr rfl (h.books.gone c r hr) (fun _ => rfl) (h.books.names c r hr)
  have hnew : ∀ t, ({ net.setCli c (some { r with registered := true }) with
      table := t } : HistNet).hashed c = true := by
    intro t
    have hself' : ({ net.setCli c (some { r with registered := true }) with
        table := t } : HistNet).cli c = some { r with registered := true } := hself
    rw [hashed_eq hself', Bool.or_true, Bool.and_true]
    exact bne_iff_ne.mpr hnick
  have hkey : ((net.setCli c (some { r with registered := true })).cliEnv maps).key c =
      (net.cliEnv maps).key c := by
    rw [key_cliEnv hr, key_cliEnv hself]
  -- the table has the client already, or gets it
  have htable : ∃ t, (if r.mine then some net else net.hash maps c) =
      some { net with table := t } ∧
      HashTable.Calm (net.cliEnv maps) t (c ::ₘ net.others c) := by
    by_cases hmine : r.mine = true
    · refine ⟨net.table, if_pos hmine, ?_⟩
      have hold : net.hashed c = true := by
        rw [hashed_eq hr, hmine, Bool.true_or, Bool.and_true]
        exact bne_iff_ne.mpr hnick
      have hfiled := h.roll.filed
      rwa [coe_filter_hashed hc, if_pos hold] at hfiled
    · have hother : r.mine = false := Bool.eq_false_iff.mpr hmine
      have hold : net.hashed c = false := by
        rw [hashed_eq hr, hreg, hother]
        exact Bool.and_false _
      obtain ⟨t, hinsert, ht⟩ := (h.roll.filed_others hc hold).insert c (ha r hr hother)
      exact ⟨t, (if_neg hmine).trans (congrArg (Option.map _) hinsert), ht⟩
  obtain ⟨t, hstep, ht⟩ := htable
  refine ⟨{ net.setCli c (some { r with registered := true }) with table := t }, ?_, ?_⟩
  · rw [HistNet.registerClient, hr, Option.bind_some, hstep, Option.map_some]
    exact congrArg some (@modify_eq { net with table := t } c r _ hr)
  · refine h.update hc hr rfl rfl ⟨hkin.online, hkin.old⟩ (hb.frame _ _ _) hself rfl
      (fun _ => hnick) ?_
    rw [if_pos (hnew t)]
    refine ht.congr_env fun d hd => ?_
    rcases Multiset.mem_cons.mp hd with rfl | hd
    · exact congrArg _ hkey
    · obtain ⟨hne, hmem, -⟩ := (mem_others h.roll.nodup).mp hd
      exact congrArg _ (hkin.key_eq h.roll hmem hne)

/-- A client of another server is given its nick before it is in the table. -/
theorem Kept.name (h : net.Kept maps)
    (hcall : net.Called maps (.name c nick)) :
    (net.modify c fun r => { r with nick := nick }).Kept maps := by
  obtain ⟨hc, hnonempty, hvalid, hwho⟩ := hcall
  obtain ⟨r, hr, hhist⟩ := h.roll.online c hc
  rw [hr, Option.all_some, Bool.and_eq_true, Bool.not_eq_true', Bool.not_eq_true'] at hwho
  obtain ⟨hmine, hreg⟩ := hwho
  rw [modify_eq hr]
  have hself : (net.setCli c (some { r with nick := nick })).cli c =
      some { r with nick := nick } := cli_setCli_self
  have hkin : Kin net (net.setCli c (some { r with nick := nick })) c :=
    (Kin.refl net c).setCli
  refine h.update hc hr rfl rfl hkin ?_ hself rfl (fun _ => hnonempty) ?_
  · exact h.books.setRecord hr rfl (h.books.gone c r hr) id hvalid
  · have hold : net.hashed c = false := by
      rw [hashed_eq hr, hmine, hreg]
      exact Bool.and_false _
    have hnew : (net.setCli c (some { r with nick := nick })).hashed c = false := by
      rw [hashed_eq hself, hmine, hreg]
      exact Bool.and_false _
    rw [hnew, if_neg Bool.false_ne_true]
    exact hkin.calm h.roll (h.roll.filed_others hc hold)

theorem Kept.tick (h : net.Kept maps) (now : ℤ) :
    ({ net with now := now } : HistNet).Kept maps where
  safe := h.safe
  books := h.books.frame net.clients net.table now
  roll := ⟨h.roll.nodup, h.roll.online, h.roll.listed, h.roll.named, h.roll.filed⟩

/-! ### Runs -/

theorem kept_start : (start.Kept maps) where
  safe := rfl
  books := {
    crossed := fun _ _ => ⟨(by rintro ⟨⟩), (by rintro ⟨⟩)⟩
    listed := fun _ => ⟨(by rintro ⟨⟩), (by rintro ⟨⟩)⟩
    nodup := List.nodup_nil
    nicks := fun _ _ _ _ he => by cases he
    filed := HashTable.calm_create (show HashTable.create 1024 = _ from rfl)
    gone := fun _ _ hc => by cases hc
    logged := fun _ _ hc => by cases hc
    names := fun _ _ hc => by cases hc
    entries := fun _ _ he => by cases he
    fresh := fun _ _ => ⟨rfl, rfl⟩ }
  roll := {
    nodup := List.nodup_nil
    online := fun _ hc => by cases hc
    listed := fun _ _ hc => by cases hc
    named := fun _ _ hc => by cases hc
    filed := HashTable.calm_create (show HashTable.create 128 = _ from rfl) }

theorem Kept.exec {act : Action} (h : net.Kept maps) (hcall : net.Called maps act)
    (ha : net.Alike maps act) : ∃ net', net.exec maps act = some net' ∧ net'.Kept maps := by
  cases act with
  | create mine => exact ⟨_, rfl, h.createClient mine⟩
  | name c nick => exact ⟨_, rfl, h.name hcall⟩
  | register c => exact h.registerClient hcall ha
  | changeNick c nick => exact h.changeNick hcall ha
  | destroy c => exact h.destroyClient hcall ha
  | tick now => exact ⟨_, rfl, h.tick now⟩

theorem Kept.step {act : Action} (h : net.Kept maps) (ha : net.Alike maps act)
    (hstep : net.step maps act = some net') : net'.Kept maps := by
  rw [HistNet.step] at hstep
  split at hstep
  · rename_i hcall
    obtain ⟨net₁, hexec, hkept⟩ := h.exec hcall ha
    rw [hexec, Option.getD_some] at hstep
    exact Option.some.inj hstep ▸ hkept
  · cases hstep

/-- A look-up among the clients finds one that is in the table. -/
theorem Kept.findClient (h : net.Kept maps) (nick : Bytes) :
    ∃ o, net.findClient maps nick = some o ∧
      ∀ c ∈ o, c ∈ net.clients ∧ (net.cli c).any HistClient.registered = true := by
  obtain ⟨o, hfind, hmem⟩ := h.roll.filed.find_mem (nickText nick)
  rw [HistNet.findClient, hfind, Option.bind_some]
  cases o with
  | none => exact ⟨none, rfl, fun c hc => by cases hc⟩
  | some c =>
    obtain ⟨hc, -⟩ := List.mem_filter.mp (Multiset.mem_coe.mp (hmem c rfl))
    obtain ⟨r, hr, -⟩ := h.roll.online c hc
    refine ⟨if r.registered then some c else none, by simp only [hr, Option.map_some], ?_⟩
    intro d hd
    split at hd
    · rename_i hreg
      obtain rfl := Option.some.inj hd
      exact ⟨hc, by rw [hr, Option.any_some, hreg]⟩
    · cases hd

/-- A look-up in the history finds a client that is online. -/
theorem Kept.getHistory (h : net.Kept maps) (nick : Bytes) (limit : ℤ) :
    ∃ o, net.getHistory maps nick limit = some o ∧
      ∀ c ∈ o, c ∈ net.clients ∧ (net.cli c).any HistClient.registered = true := by
  obtain ⟨o, hfind, hright⟩ := h.findClient nick
  rw [HistNet.getHistory, hfind, Option.bind_some]
  cases o with
  | some c => exact ⟨some c, rfl, hright⟩
  | none =>
    obtain ⟨o, hlook, hmem⟩ := h.books.filed.find_mem (nickText nick)
    dsimp only
    rw [hlook, Option.bind_some]
    cases o with
    | none => exact ⟨none, rfl, fun c hc => by cases hc⟩
    | some e =>
      have hlisted := Multiset.mem_coe.mp (hmem e rfl)
      obtain ⟨x, hx⟩ := Option.isSome_iff_exists.mp ((h.books.listed e).mp hlisted)
      obtain ⟨r, hr, hhist⟩ := h.books.cli_of_entry hx
      dsimp only
      rw [hx, Option.bind_some, hr, Option.map_some]
      refine ⟨_, rfl, fun c hc => ?_⟩
      rw [Option.mem_def, Option.ite_none_right_eq_some, Option.some.injEq] at hc
      obtain ⟨honline, rfl⟩ := hc
      have hreg := h.books.logged x.cli r hr (by rw [hhist]; rfl)
      exact ⟨h.roll.listed x.cli r hr honline.1, by rw [hr, Option.any_some, hreg]⟩

theorem Kept.intact (h : net.Kept maps) : net.Intact maps where
  safe := h.safe
  list := ⟨h.books.nodup, h.books.listed⟩
  table := h.books.filed.ents
  nicks := h.books.nicks
  clients e e' x x' he he' hcli := by
    have hcli' : net.cliOf e = net.cliOf e' := by
      rw [cliOf, cliOf, he, he', Option.map_some, Option.map_some, hcli]
    have hx : net.cliOf e = some x.cli := by rw [cliOf, he, Option.map_some]
    have hback := (h.books.crossed x.cli e).mpr hx
    have hback' := (h.books.crossed x.cli e').mpr (hcli' ▸ hx)
    exact Option.some.inj (hback.symm.trans hback')
  back _ _ he := h.books.cli_of_entry he
  freed c hc := by
    constructor
    · intro hsome
      obtain ⟨r, hr⟩ := Option.isSome_iff_exists.mp hsome
      have hgone : r.history = true := by
        by_contra hon
        exact hc (h.roll.listed c r hr (Bool.eq_false_iff.mpr hon))
      obtain ⟨e, he⟩ := Option.isSome_iff_exists.mp (h.books.gone c r hr hgone)
      obtain ⟨x, hx, hcli⟩ := h.books.entry_of_hist hr he
      refine ⟨e, (h.books.listed e).mpr (by rw [hx]; rfl), ?_⟩
      rw [hx, Option.map_some, hcli]
    · rintro ⟨e, -, he⟩
      obtain ⟨x, hx, rfl⟩ := Option.map_eq_some_iff.mp he
      obtain ⟨r, hr, -⟩ := h.books.cli_of_entry hx
      rw [hr]
      rfl
  found nick limit := h.getHistory nick limit

/-- As long as nicks that are the same hash alike, the history is intact in every state reached, and
no call goes wrong. -/
theorem intact_of_run (maps : CharMap) (acts : List Action)
    (hG : Run.Along (HistNet.step maps) (Alike maps) start acts) :
    ∀ before behind net, acts = before ++ behind →
      Run.run (HistNet.step maps) start before = some net → net.Intact maps := by
  rintro before behind net rfl hrun
  have hkept : net.Kept maps := Run.reached_of_along (I := Kept maps)
    (fun _ _ _ h ha hstep => h.step ha hstep) kept_start hG hrun
  exact hkept.intact

/-- A new nick is one. -/
def NewNick (maps : CharMap) : Action → Prop
  | .changeNick _ nick => nick ≠ [] ∧ maps.Valid nick
  | .create _ | .name _ _ | .register _ | .destroy _ | .tick _ => True

instance (act : Action) : Decidable (NewNick maps act) :=
  match act with
  | .changeNick _ _ => inferInstanceAs (Decidable (_ ∧ _))
  | .create _ | .name _ _ | .register _ | .destroy _ | .tick _ => inferInstanceAs (Decidable True)

/-- A new nick is one, and both tables have room for one more. -/
def Roomy (maps : CharMap) (net : HistNet) (act : Action) : Prop :=
  NewNick maps act ∧ net.table.Fits ∧ net.historyTable.Fits

instance (net : HistNet) (act : Action) : Decidable (Roomy maps net act) :=
  inferInstanceAs (Decidable (_ ∧ (_ ∨ _) ∧ (_ ∨ _)))

theorem Books.alike {act : Action} (hb : net.Books maps) (hfolds : maps.FoldsCase)
    (hroom : net.Roomy maps act) : net.Alike maps act := by
  obtain ⟨hnew, htable, hhistory⟩ := hroom
  cases act with
  | create mine => trivial
  | name c nick => trivial
  | register c => exact fun _ _ _ => htable
  | changeNick c nick =>
    refine ⟨hnew.1, hnew.2, fun r hr => ?_⟩
    have hvalid := hb.names c r hr
    split
    · rename_i hsame
      have hlower := hfolds.eq_of_same hvalid hnew.2 hsame
      exact congrArg (· &&& (net.table.size - 1)) (keyHash_nickText hlower)
    · exact ⟨htable, fun _ => ⟨hhistory, hb.histAlike hfolds hvalid⟩⟩
  | destroy c => exact fun r hr _ => ⟨hhistory, hb.histAlike hfolds (hb.names c r hr)⟩
  | tick now => trivial

/-- With a map that folds case only, as the default one, all it takes is room in the tables. -/
theorem along_of_foldsCase {acts : List Action} (hfolds : maps.FoldsCase)
    (hroom : Run.Along (HistNet.step maps) (Roomy maps) start acts) :
    Run.Along (HistNet.step maps) (Alike maps) start acts :=
  Run.along_of_along (I := Kept maps)
    (fun _ _ _ h hroom hstep => h.step (h.books.alike hfolds hroom) hstep)
    (fun _ _ h hroom => h.books.alike hfolds hroom) kept_start hroom

/-- A client registers, changes its nick and signs off; another one takes both nicks. -/
def twoNicks : List Action :=
  [.create true, .changeNick 0 (bytes "ann"), .register 0,
    .changeNick 0 (bytes "bob"), .destroy 0, .create true,
    .changeNick 3 (bytes "BOB"), .register 3,
    .changeNick 3 (bytes "Ann")]

theorem intact_of_run_twoNicks :
    ∃ net, Run.run (HistNet.step CharMap.nicks) start twoNicks = some net ∧
      net.Intact CharMap.nicks := by
  have hsome : (Run.run (HistNet.step CharMap.nicks) start twoNicks).isSome := by decide +kernel
  obtain ⟨net, hrun⟩ := Option.isSome_iff_exists.mp hsome
  have hroom : Run.Along (HistNet.step CharMap.nicks) (Roomy CharMap.nicks) start twoNicks := by
    decide +kernel
  exact ⟨net, hrun, intact_of_run CharMap.nicks twoNicks
    (along_of_foldsCase CharMap.foldsCase_nicks hroom) twoNicks [] net (List.append_nil _).symm
    hrun⟩

/-- A change from `[` to `{` leaves a client where it is not looked for, and so in the table when it
signs off. -/
theorem intact_fails : ¬ ∀ (maps : CharMap) (acts : List Action) (net : HistNet),
    Run.run (HistNet.step maps) start acts = some net → net.Intact maps := by
  intro hall
  have hvals : (Run.run (HistNet.step CharMap.braces) start
      [.create true, .changeNick 0 (bytes "a["), .register 0,
        .changeNick 0 (bytes "a\x7b"), .destroy 0]).map
      (fun net => (net.getHistory CharMap.braces (bytes "a[") 0, net.clients)) =
      some (some (some 0), []) := by
    decide +kernel
  obtain ⟨net, hrun, hnet⟩ := Option.map_eq_some_iff.mp hvals
  obtain ⟨hget, hclients⟩ := Prod.mk.inj hnet
  obtain ⟨o, ho, honline⟩ := (hall CharMap.braces _ net hrun).found (bytes "a[") 0
  obtain rfl := Option.some.inj (hget.symm.trans ho)
  have hmem := (honline 0 rfl).1
  rw [hclients] at hmem
  cases hmem

end

end HistNet

end Ithildin
