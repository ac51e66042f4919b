import Ithildin.Client.History
import Ithildin.Lib.Incidence
import Ithildin.Lib.Run
import Mathlib.Data.Int.Order.Basic

/-!
# The WATCH command

A client may ask to be told when a nick comes and goes. Each nick that is watched has an entry,
which a table finds, with the clients that watch it; and each client has a list of its entries.

* `WatchNet`: the clients, their lists, the entries and their table, and what has been sent;
* `createWatch`, `addToWatch`, `delFromWatch`, `watch`, `clientHook`: the functions of `watch.c`;
* `Sound`: what lists, counts, entries and table are to each other;
* `Sound.watchWord`: one word of the command keeps it.

A link is no object of its own here: it is the client on the list of the entry and the entry on that
of the client. An access to memory that is not allocated, or a table that breaks, yields nothing.
-/

namespace Ithildin

/-- `struct watch`. -/
structure WatchEntry where
  nick : Bytes
  last : ℤ
  count : ℤ
  users : List ℕ
  deriving DecidableEq

/-- `struct client_watches`. -/
structure ClientWatches where
  list : List ℕ
  count : ℤ
  deriving DecidableEq

/-- A client that is registered, as far as others are told of it; and whether it is ours. -/
structure WatchClient where
  nick : Bytes
  user : Bytes
  host : Bytes
  ts : ℤ
  signon : ℤ
  mine : Bool
  deriving DecidableEq

/-- `RPL_LOGON` and `RPL_LOGOFF`. -/
inductive WatchReply
  | logon
  | logoff
  deriving DecidableEq

/-- What `sendto_one` sends to a client. -/
structure WatchNotice where
  watcher : ℕ
  reply : WatchReply
  nick : Bytes
  user : Bytes
  host : Bytes
  time : ℤ
  deriving DecidableEq

/-- The clients that are registered, and their data of this module; the memory of entries, with the
next address; the table; `me.now`; what has been sent; and whether a call has gone wrong. -/
structure WatchNet where
  client : ℕ → Option WatchClient
  watches : ℕ → ClientWatches
  entry : ℕ → Option WatchEntry
  fresh : ℕ
  table : HashTable ℕ
  now : ℤ
  sent : List WatchNotice
  fault : Bool

/-- `check_nickname`, with `ircd.maps.nick_first` and `ircd.maps.nick`. -/
def checkNickname (first maps : CharMap) (nick : Bytes) : Bool :=
  nick != [] && (nick.take 1).all (fun c => first.map c != 0) && nick.all fun c => maps.map c != 0

namespace WatchNet

variable (first maps : CharMap) (net : WatchNet)

/-- The nick of an entry. -/
def nickOf (e : ℕ) : Option Bytes := (net.entry e).map WatchEntry.nick

/-- The entries in memory, as their table sees them. -/
def watchEnv : HashTable.Env ℕ :=
  { nickTable maps with mem := fun e => nickText ((net.nickOf e).getD []) }

/-- What is at the address of an entry. -/
def setEntry (e : ℕ) (o : Option WatchEntry) : WatchNet :=
  { net with entry := Function.update net.entry e o }

/-- `find_watch`. -/
def findWatch (nick : Bytes) : Option (Option ℕ) :=
  net.table.find (net.watchEnv maps) (nickText nick)

/-- A new entry in memory. -/
def allocWatch (nick : Bytes) : WatchNet :=
  { net.setEntry net.fresh (some ⟨nick.take NICKLEN, 0, 0, []⟩) with fresh := net.fresh + 1 }

/-- `create_watch`: the entry is at what was the next address. -/
def createWatch (nick : Bytes) : Option WatchNet :=
  let made := net.allocWatch nick
  (made.table.insert (made.watchEnv maps) net.fresh).map fun t => { made with table := t }

/-- `destroy_watch`. -/
def destroyWatch (e : ℕ) : Option WatchNet :=
  (net.table.delete (net.watchEnv maps) e).map fun t => { net.setEntry e none with table := t }

/-- `find_watch_link` finds one. -/
def findWatchLink (c e : ℕ) : Option Bool :=
  (net.client c).map fun _ => decide (e ∈ (net.watches c).list)

/-- `add_to_watch`. -/
def addToWatch (e c : ℕ) : Option WatchNet :=
  (net.client c).bind fun _ =>
    (net.entry e).map fun w =>
      let cwp := net.watches c
      { net.setEntry e (some { w with users := c :: w.users, count := w.count + 1 }) with
        watches := Function.update net.watches c ⟨e :: cwp.list, cwp.count + 1⟩ }

/-- The link is taken off both lists. -/
def unlink (e c : ℕ) (w : WatchEntry) : WatchNet :=
  let cwp := net.watches c
  { net.setEntry e (some { w with users := w.users.erase c, count := w.count - 1 }) with
    watches := Function.update net.watches c ⟨cwp.list.erase e, cwp.count - 1⟩ }

/-- `del_from_watch`. -/
def delFromWatch (e c : ℕ) : Option WatchNet :=
  (net.findWatchLink c e).bind fun linked =>
    (net.entry e).bind fun w =>
      let net₁ := if linked then net.unlink e c w else net
      (net₁.entry e).bind fun w => if w.count = 0 then net₁.destroyWatch maps e else some net₁

/-- A client's entries are taken off its list, the first one first, while its count is above zero.
-/
def clearFuel (maps : CharMap) (c : ℕ) : ℕ → WatchNet → Option WatchNet
  | 0, net => if 0 < (net.watches c).count then none else some net
  | n + 1, net =>
      if 0 < (net.watches c).count then
        (net.watches c).list.head?.bind fun e =>
          (net.delFromWatch maps e c).bind fun net₁ => clearFuel maps c n net₁
      else some net

/-- A client's list is cleared. -/
def clear (c : ℕ) : Option WatchNet :=
  (net.client c).bind fun _ => clearFuel maps c (net.watches c).count.toNat net

/-- A nick is added, once it has passed the checks. -/
def add (c : ℕ) (nick : Bytes) : Option WatchNet :=
  (net.findWatch maps nick).bind fun o =>
    match o with
    | none => (net.createWatch maps nick).bind fun net₁ => net₁.addToWatch net.fresh c
    | some e =>
        (net.findWatchLink c e).bind fun linked => if linked then some net else net.addToWatch e c

/-- A word of `CLIENT_COMMAND(watch)`. The words that only ask for replies change nothing. -/
def watchWord (c : ℕ) (limit : ℤ) (net : WatchNet) : Bytes → Option WatchNet
  | [] => some net
  | ch :: nick =>
      if ch = 43 then
        if nick = [] then some net
        else
          (net.client c).bind fun _ =>
            if limit ≤ (net.watches c).count then some net
            else if checkNickname first maps nick ∧ nick.length ≤ NICKLEN then net.add maps c nick
            else some net
      else if ch = 45 then
        if nick = [] then some net
        else
          (net.findWatch maps nick).bind fun o =>
            match o with
            | none => some net
            | some e => net.delFromWatch maps e c
      else if toLower ch = 99 then net.clear maps c
      else some net

/-- The words of the argument, as `strsep` cuts it at commas, blanks and tabs. -/
def watchWords (arg : Option Bytes) : List Bytes :=
  (arg.getD (bytes "l")).splitOnP fun ch => ch = 44 || ch = 32 || ch = 9

/-- `CLIENT_COMMAND(watch)`; `limit` is the client's privilege. -/
def watch (c : ℕ) (limit : ℤ) (arg : Option Bytes) : Option WatchNet :=
  Run.run (watchWord first maps c limit) net (watchWords arg)

/-! ### The hook -/

/-- All that watch the entry are told, and it remembers when. -/
def tell (e : ℕ) (last : ℤ) (notice : ℕ → WatchNotice) : Option WatchNet :=
  (net.entry e).bind fun w =>
    if w.users.all fun c => (net.client c).isSome then
      some { net.setEntry e (some { w with last := last }) with
        sent := net.sent ++ w.users.map notice }
    else none

/-- All that watch the nick are told. -/
def notify (nick : Bytes) (last : ℤ) (notice : ℕ → WatchNotice) : Option WatchNet :=
  (net.findWatch maps nick).bind fun o =>
    match o with
    | none => some net
    | some e => net.tell e last notice

/-- `register_client` comes to the hook. -/
def registerHook (r : WatchClient) : Option WatchNet :=
  net.notify maps r.nick r.signon fun c => ⟨c, .logon, r.nick, r.user, r.host, r.signon⟩

/-- `unregister_client` comes to the hook. -/
def unregisterHook (c : ℕ) (r : WatchClient) : Option WatchNet :=
  (net.notify maps r.nick net.now fun d => ⟨d, .logoff, r.nick, r.user, r.host, net.now⟩).bind
    fun net₁ => if r.mine then net₁.clear maps c else some net₁

/-- `client_nick` comes to the hook, the old nick in the client's history entry. -/
def nickHook (old : Bytes) (r : WatchClient) : Option WatchNet :=
  (net.notify maps old net.now fun d => ⟨d, .logoff, old, r.user, r.host, net.now⟩).bind fun net₁ =>
    net₁.notify maps r.nick r.ts fun d => ⟨d, .logon, r.nick, r.user, r.host, r.signon⟩

/-! ### What happens -/

/-- What is at the address of a client. -/
def setClient (c : ℕ) (o : Option WatchClient) : WatchNet :=
  { net with client := Function.update net.client c o }

/-- A client is made, with its data all zero, and registered. -/
def signOn (c : ℕ) (r : WatchClient) : Option WatchNet :=
  { net.setClient c (some r) with
    watches := Function.update net.watches c ⟨[], 0⟩ }.registerHook maps r

/-- A client that is registered is destroyed. -/
def signOff (c : ℕ) : Option WatchNet :=
  (net.client c).bind fun r => (net.unregisterHook maps c r).map fun net₁ => net₁.setClient c none

/-- `client_change_nick` of a client that is registered, with its new timestamp. -/
def changeNick (c : ℕ) (nick : Bytes) (ts : ℤ) : Option WatchNet :=
  (net.client c).bind fun r =>
    let new := { r with nick := nick.take NICKLEN, ts := ts }
    let net₁ := net.setClient c (some new)
    if maps.same r.nick nick then some net₁ else net₁.nickHook maps r.nick new

/-! ### The entries and their table -/

/-- Who watches an entry. -/
def usersOf (e : ℕ) : List ℕ := ((net.entry e).map WatchEntry.users).getD []

/-- The table holds the entries in memory, no two of one nick. -/
structure Files : Prop where
  filed : HashTable.Calm (net.watchEnv maps) net.table (net.table.ents : Multiset ℕ)
  nodup : net.table.ents.Nodup
  listed : ∀ e, e ∈ net.table.ents ↔ (net.nickOf e).isSome
  nicks : ∀ e e' s t, net.nickOf e = some s → net.nickOf e' = some t → maps.same s t = true → e = e'
  valid : ∀ e s, net.nickOf e = some s → maps.Valid s
  fresh : ∀ e, net.fresh ≤ e → net.nickOf e = none

/-- A client is on the list of an entry as often as the entry is on that of the client, at most
once; the counts are the lengths; only the entry that is given may have no users; who watches is
there, and one of ours. -/
structure Sound (x : Option ℕ) : Prop where
  safe : net.fault = false
  files : net.Files maps
  linked : Incidence.Mutual (fun c => (net.watches c).list) net.usersOf
  own : ∀ c, (net.watches c).count = (net.watches c).list.length
  counted : ∀ e w, net.entry e = some w → w.count = w.users.length
  used : ∀ e w, net.entry e = some w → w.users = [] → x = some e
  here : ∀ c e, e ∈ (net.watches c).list → ∃ r, net.client c = some r ∧ r.mine = true
  people : ∀ c r, net.client c = some r → maps.Valid r.nick

/-- An entry that has the nick hashes as it does, if there is one. -/
def NickAlike (nick : Bytes) : Prop :=
  HashTable.HashesAlike (net.watchEnv maps) net.table (net.table.ents : Multiset ℕ) (nickText nick)

section
variable {maps} {net} {net' : WatchNet} {c e : ℕ} {r : WatchClient} {w : WatchEntry}
  {nick s : Bytes} {x : Option ℕ}

theorem nickOf_eq (he : net.entry e = some w) : net.nickOf e = some w.nick := by
  rw [nickOf, he, Option.map_some]

theorem usersOf_eq (he : net.entry e = some w) : net.usersOf e = w.users := by
  rw [usersOf, he, Option.map_some, Option.getD_some]

theorem key_watchEnv (he : net.nickOf e = some s) : (net.watchEnv maps).key e = nickText s := by
  funext i
  simp [HashTable.Env.key, watchEnv, nickTable, he]

theorem equates_watchEnv (he : net.nickOf e = some s) :
    HashTable.equates (net.watchEnv maps) e (nickText nick) = maps.same s nick := by
  rw [HashTable.equates, key_watchEnv he, CharMap.same]
  dsimp only [watchEnv, nickTable]
  by_cases hcmp : istrcmp maps.map (NICKLEN + 1) (nickText s) (nickText nick) = true <;>
    simp [hcmp]

/-- Only the nicks of the entries count. -/
theorem Files.congr (h : net.Files maps) (hnick : net'.nickOf = net.nickOf)
    (htable : net'.table = net.table) (hfresh : net'.fresh = net.fresh) : net'.Files maps := by
  have henv : net'.watchEnv maps = net.watchEnv maps := by rw [watchEnv, watchEnv, hnick]
  constructor
  · rw [henv, htable]
    exact h.filed
  · exact htable ▸ h.nodup
  · rw [htable, hnick]
    exact h.listed
  · exact hnick ▸ h.nicks
  · exact hnick ▸ h.valid
  · exact hnick ▸ hfresh ▸ h.fresh

/-- A search for a nick that hashes as its entry does. -/
theorem Files.findWatch (h : net.Files maps) (halike : net.NickAlike maps nick) :
    ∃ o, net.findWatch maps nick = some o ∧
      match o with
      | none => ∀ e s, net.nickOf e = some s → maps.same s nick = false
      | some e => ∃ w, net.entry e = some w ∧ maps.same w.nick nick = true := by
  obtain ⟨o, hfind, hright⟩ := h.filed.find (nickText nick)
  have hright := hright.mpr halike
  refine ⟨o, hfind, ?_⟩
  cases o with
  | none =>
    intro e s hs
    have hmem : e ∈ (net.table.ents : Multiset ℕ) :=
      Multiset.mem_coe.mpr ((h.listed e).mpr (by rw [hs]; rfl))
    rw [← hright e hmem]
    exact (equates_watchEnv hs).symm
  | some e =>
    obtain ⟨hmem, heq⟩ := hright
    obtain ⟨s, hs⟩ := Option.isSome_iff_exists.mp ((h.listed e).mp (Multiset.mem_coe.mp hmem))
    obtain ⟨w, hw, rfl⟩ := Option.map_eq_some_iff.mp hs
    exact ⟨w, hw, (equates_watchEnv hs).symm.trans heq⟩

/-- Whatever is found is there. -/
theorem Files.findWatch_mem (h : net.Files maps) (nick : Bytes) :
    ∃ o, net.findWatch maps nick = some o ∧ ∀ e ∈ o, ∃ w, net.entry e = some w := by
  obtain ⟨o, hfind, hmem⟩ := h.filed.find_mem (nickText nick)
  refine ⟨o, hfind, fun e he => ?_⟩
  obtain ⟨s, hs⟩ :=
    Option.isSome_iff_exists.mp ((h.listed e).mp (Multiset.mem_coe.mp (hmem e he)))
  obtain ⟨w, hw, -⟩ := Option.map_eq_some_iff.mp hs
  exact ⟨w, hw⟩

theorem nickOf_allocWatch :
    (net.allocWatch nick).nickOf =
      Function.update net.nickOf net.fresh (some (nick.take NICKLEN)) := by
  funext e
  by_cases he : e = net.fresh
  · subst he
    rw [nickOf, allocWatch, setEntry]
    simp
  · rw [Function.update_of_ne he, nickOf, nickOf, allocWatch, setEntry]
    simp [he]

/-- A new entry is put into the table. -/
theorem Files.createWatch (h : net.Files maps) (hvalid : maps.Valid nick)
    (hnew : ∀ e s, net.nickOf e = some s → maps.same s nick = false) (hfits : net.table.Fits) :
    ∃ t, net.createWatch maps nick = some { net.allocWatch nick with table := t } ∧
      ({ net.allocWatch nick with table := t } : WatchNet).Files maps := by
  have hnick := @nickOf_allocWatch net nick
  rw [List.take_of_length_le hvalid.1] at hnick
  have hfresh : net.fresh ∉ net.table.ents := by
    intro hmem
    have hsome := (h.listed net.fresh).mp hmem
    rw [h.fresh net.fresh le_rfl] at hsome
    cases hsome
  have hold : HashTable.Calm ((net.allocWatch nick).watchEnv maps) net.table
      (net.table.ents : Multiset ℕ) := by
    refine h.filed.congr_env fun e he => ?_
    have he' : e ∈ net.table.ents := Multiset.mem_coe.mp he
    obtain ⟨s, hs⟩ := Option.isSome_iff_exists.mp ((h.listed e).mp he')
    have hs' : (net.allocWatch nick).nickOf e = some s := by
      rw [hnick, Function.update_of_ne (ne_of_mem_of_not_mem he' hfresh), hs]
    rw [key_watchEnv hs, key_watchEnv hs']
    rfl
  obtain ⟨t, hinsert, ht⟩ := hold.insert net.fresh hfits
  refine ⟨t, congrArg (Option.map _) hinsert, ?_⟩
  have hperm : t.ents.Perm (net.fresh :: net.table.ents) := Multiset.coe_eq_coe.mp ht.ents
  constructor
  · exact ht.ents.symm ▸ ht
  · exact hperm.nodup_iff.mpr (List.nodup_cons.mpr ⟨hfresh, h.nodup⟩)
  · intro e
    change e ∈ t.ents ↔ ((net.allocWatch nick).nickOf e).isSome
    rw [hperm.mem_iff, List.mem_cons, hnick]
    by_cases he : e = net.fresh
    · rw [he, Function.update_self]
      exact iff_of_true (.inl rfl) rfl
    · rw [Function.update_of_ne he, or_iff_right he]
      exact h.listed e
  · intro e e' s t hs ht' hsame
    change (net.allocWatch nick).nickOf e = some s at hs
    change (net.allocWatch nick).nickOf e' = some t at ht'
    rw [hnick] at hs ht'
    by_cases he : e = net.fresh
    · by_cases he' : e' = net.fresh
      · rw [he, he']
      · rw [he, Function.update_self] at hs
        rw [Function.update_of_ne he'] at ht'
        obtain rfl := Option.some.inj hs
        have hsame' := hnew e' t ht'
        rw [← Bool.not_eq_true, CharMap.same_iff (h.valid e' t ht') hvalid] at hsame'
        exact absurd ((CharMap.same_iff hvalid (h.valid e' t ht')).mp hsame).symm hsame'
    · rw [Function.update_of_ne he] at hs
      by_cases he' : e' = net.fresh
      · rw [he', Function.update_self] at ht'
        obtain rfl := Option.some.inj ht'
        rw [hnew e s hs] at hsame
        cases hsame
      · rw [Function.update_of_ne he'] at ht'
        exact h.nicks e e' s t hs ht' hsame
  · intro e s hs
    change (net.allocWatch nick).nickOf e = some s at hs
    rw [hnick] at hs
    by_cases he : e = net.fresh
    · rw [he, Function.update_self] at hs
      exact Option.some.inj hs ▸ hvalid
    · rw [Function.update_of_ne he] at hs
      exact h.valid e s hs
  · intro e he
    change (net.allocWatch nick).nickOf e = none
    have hlt : net.fresh < e := he
    rw [hnick, Function.update_of_ne (Nat.ne_of_gt hlt)]
    exact h.fresh e hlt.le

theorem entry_setEntry_self {o : Option WatchEntry} : (net.setEntry e o).entry e = o :=
  Function.update_self ..

theorem entry_setEntry_of_ne {o : Option WatchEntry} {e' : ℕ} (he : e' ≠ e) :
    (net.setEntry e o).entry e' = net.entry e' :=
  Function.update_of_ne he ..

theorem nickOf_setEntry {o : Option WatchEntry} :
    (net.setEntry e o).nickOf = Function.update net.nickOf e (o.map WatchEntry.nick) := by
  funext e'
  by_cases he : e' = e
  · subst he
    rw [nickOf, entry_setEntry_self, Function.update_self]
  · rw [nickOf, entry_setEntry_of_ne he, Function.update_of_ne he, nickOf]

theorem usersOf_setEntry {o : Option WatchEntry} :
    (net.setEntry e o).usersOf =
      Function.update net.usersOf e ((o.map WatchEntry.users).getD []) := by
  funext e'
  by_cases he : e' = e
  · subst he
    rw [usersOf, entry_setEntry_self, Function.update_self]
  · rw [usersOf, entry_setEntry_of_ne he, Function.update_of_ne he, usersOf]

theorem entry_setEntry_cases {o : Option WatchEntry} {e' : ℕ} {w' : WatchEntry}
    (he : (net.setEntry e o).entry e' = some w') :
    (e' = e ∧ o = some w') ∨ e' ≠ e ∧ net.entry e' = some w' := by
  by_cases heq : e' = e
  · rw [heq, entry_setEntry_self] at he
    exact .inl ⟨heq, he⟩
  · rw [entry_setEntry_of_ne heq] at he
    exact .inr ⟨heq, he⟩

/-- An entry is taken out of the table and freed. -/
theorem Files.destroyWatch (h : net.Files maps) (e : ℕ) :
    ∃ t, net.destroyWatch maps e = some { net.setEntry e none with table := t } ∧
      ({ net.setEntry e none with table := t } : WatchNet).Files maps := by
  obtain ⟨t, hdelete, ht⟩ := h.filed.delete e
  refine ⟨t, congrArg (Option.map _) hdelete, ?_⟩
  have hnick : (net.setEntry e none).nickOf = Function.update net.nickOf e none := nickOf_setEntry
  rw [Multiset.coe_erase] at ht
  have hperm : t.ents.Perm (net.table.ents.erase e) := Multiset.coe_eq_coe.mp ht.ents
  have hold : ∀ e' s, (net.setEntry e none).nickOf e' = some s → net.nickOf e' = some s := by
    intro e' s hs
    rw [hnick] at hs
    by_cases he : e' = e
    · rw [he, Function.update_self] at hs
      cases hs
    · rwa [Function.update_of_ne he] at hs
  constructor
  · change HashTable.Calm ((net.setEntry e none).watchEnv maps) t (t.ents : Multiset ℕ)
    rw [Multiset.coe_eq_coe.mpr hperm]
    refine ht.congr_env fun e' he' => ?_
    obtain ⟨hne, hmem⟩ := h.nodup.mem_erase_iff.mp (Multiset.mem_coe.mp he')
    obtain ⟨s, hs⟩ := Option.isSome_iff_exists.mp ((h.listed e').mp hmem)
    have hs' : (net.setEntry e none).nickOf e' = some s := by
      rw [hnick, Function.update_of_ne hne, hs]
    rw [key_watchEnv hs, key_watchEnv hs']
    rfl
  · exact hperm.nodup_iff.mpr (h.nodup.erase e)
  · intro e'
    change e' ∈ t.ents ↔ ((net.setEntry e none).nickOf e').isSome
    rw [hperm.mem_iff, h.nodup.mem_erase_iff, hnick]
    by_cases he : e' = e
    · rw [he, Function.update_self]
      exact iff_of_false (fun hne => hne.1 rfl) Bool.false_ne_true
    · rw [Function.update_of_ne he, and_iff_right he]
      exact h.listed e'
  · exact fun e₁ e₂ s₁ s₂ h₁ h₂ => h.nicks e₁ e₂ s₁ s₂ (hold e₁ s₁ h₁) (hold e₂ s₂ h₂)
  · exact fun e' s hs => h.valid e' s (hold e' s hs)
  · intro e' he'
    change (net.setEntry e none).nickOf e' = none
    rw [hnick]
    by_cases he : e' = e
    · rw [he, Function.update_self]
    · rw [Function.update_of_ne he]
      exact h.fresh e' he'

/-! ### Lists and counts -/

/-- Entries may change and the list of a client; the clients and the other lists do not, and nothing
is sent. -/
structure Quiet (net net' : WatchNet) (c : ℕ) : Prop where
  client : net'.client = net.client
  sent : net'.sent = net.sent
  now : net'.now = net.now
  others : ∀ d, d ≠ c → net'.watches d = net.watches d

theorem Quiet.refl (net : WatchNet) (c : ℕ) : Quiet net net c := ⟨rfl, rfl, rfl, fun _ _ => rfl⟩

theorem Quiet.trans {net'' : WatchNet} (h : Quiet net net' c) (h' : Quiet net' net'' c) :
    Quiet net net'' c where
  client := h'.client.trans h.client
  sent := h'.sent.trans h.sent
  now := h'.now.trans h.now
  others d hd := (h'.others d hd).trans (h.others d hd)

/-- What is sent, and when, does not count. -/
theorem Sound.frame (h : net.Sound maps x) (sent : List WatchNotice) (now : ℤ) :
    ({ net with sent := sent, now := now } : WatchNet).Sound maps x :=
  ⟨h.safe, h.files.congr rfl rfl rfl, h.linked, h.own, h.counted, h.used, h.here, h.people⟩

/-- Who is on the list of an entry is there, and one of ours. -/
theorem Sound.user (h : net.Sound maps x) (he : net.entry e = some w) (hc : c ∈ w.users) :
    e ∈ (net.watches c).list ∧ ∃ r, net.client c = some r ∧ r.mine = true := by
  have hmem : e ∈ (net.watches c).list := (h.linked.mem c e).mpr (usersOf_eq he ▸ hc)
  exact ⟨hmem, h.here c e hmem⟩

/-- What is on the list of a client is there. -/
theorem Sound.watched (h : net.Sound maps x) (he : e ∈ (net.watches c).list) :
    ∃ w, net.entry e = some w ∧ c ∈ w.users := by
  have hmem := (h.linked.mem c e).mp he
  cases hentry : net.entry e with
  | none =>
    rw [usersOf, hentry, Option.map_none] at hmem
    cases hmem
  | some w => exact ⟨w, rfl, usersOf_eq hentry ▸ hmem⟩

/-- The lists of one entry and of the clients change, and agree again. -/
theorem Sound.relist {y : Option ℕ} {w' : WatchEntry} {cw : ℕ → ClientWatches}
    (h : net.Sound maps x) (he : net.entry e = some w) (hnick : w'.nick = w.nick)
    (hlinked : Incidence.Mutual (fun c => (cw c).list) (Function.update net.usersOf e w'.users))
    (hown : ∀ c, (cw c).count = (cw c).list.length) (hcounted : w'.count = w'.users.length)
    (hx : ∀ e', e' ≠ e → x = some e' → y = some e') (hused : w'.users = [] → y = some e)
    (hhere : ∀ c e, e ∈ (cw c).list → ∃ r, net.client c = some r ∧ r.mine = true) :
    ({ net.setEntry e (some w') with watches := cw } : WatchNet).Sound maps y where
  safe := h.safe
  files := by
    refine h.files.congr ?_ rfl rfl
    refine nickOf_setEntry.trans ?_
    rw [Option.map_some, hnick, ← nickOf_eq he, Function.update_eq_self]
  linked := by
    refine hlinked.congr (fun _ => rfl) fun e' => ?_
    exact congrFun usersOf_setEntry e'
  own := hown
  counted e' v hv := by
    rcases entry_setEntry_cases hv with ⟨-, hnew⟩ | ⟨-, hold⟩
    · exact Option.some.inj hnew ▸ hcounted
    · exact h.counted e' v hold
  used e' v hv hnone := by
    rcases entry_setEntry_cases hv with ⟨rfl, hnew⟩ | ⟨hne, hold⟩
    · exact hused (Option.some.inj hnew ▸ hnone)
    · exact hx e' hne (h.used e' v hold hnone)
  here := hhere
  people := h.people

/-- A client of ours watches an entry. -/
theorem Sound.addToWatch (h : net.Sound maps x) (hx : ∀ e', x = some e' → e' = e)
    (hc : net.client c = some r) (hmine : r.mine = true) (he : net.entry e = some w)
    (hnot : e ∉ (net.watches c).list) :
    ∃ net', net.addToWatch e c = some net' ∧ net'.Sound maps none ∧ Quiet net net' c ∧
      (net'.watches c).count = (net.watches c).count + 1 := by
  let cwp : ClientWatches := ⟨e :: (net.watches c).list, (net.watches c).count + 1⟩
  let new : WatchEntry := { w with users := c :: w.users, count := w.count + 1 }
  refine ⟨{ net.setEntry e (some new) with watches := Function.update net.watches c cwp }, ?_, ?_,
    ⟨rfl, rfl, rfl, fun _ hd => Function.update_of_ne hd ..⟩, ?_⟩
  · rw [WatchNet.addToWatch, hc, Option.bind_some, he, Option.map_some]
  · refine h.relist he rfl ?_ ?_ ?_ ?_ ?_ ?_
    · refine (h.linked.link hnot).congr (fun d => ?_) fun e' => ?_
      · by_cases hd : d = c
        · rw [hd, Function.update_self, Function.update_self]
        · rw [Function.update_of_ne hd, Function.update_of_ne hd]
      · rw [usersOf_eq he]
    · intro d
      by_cases hd : d = c
      · have hown := h.own c
        rw [hd, Function.update_self, List.length_cons]
        change (net.watches c).count + 1 = _
        omega
      · rw [Function.update_of_ne hd]
        exact h.own d
    · have hcounted := h.counted e w he
      rw [List.length_cons]
      change w.count + 1 = _
      omega
    · exact fun e' hne he' => absurd (hx e' he') hne
    · rintro ⟨⟩
    · intro d e' he'
      by_cases hd : d = c
      · exact hd ▸ ⟨r, hc, hmine⟩
      · rw [Function.update_of_ne hd] at he'
        exact h.here d e' he'
  · change (Function.update net.watches c cwp c).count = _
    rw [Function.update_self]

/-- An entry that may have no users is freed if it has none. -/
theorem Sound.dropUnused (h : net.Sound maps (some e)) (he : net.entry e = some w) :
    ∃ net', (if w.count = 0 then net.destroyWatch maps e else some net) = some net' ∧
      net'.Sound maps none ∧ net'.client = net.client ∧ net'.sent = net.sent ∧
        net'.now = net.now ∧ net'.watches = net.watches := by
  have hcounted := h.counted e w he
  by_cases hzero : w.count = 0
  · have husers : w.users = [] := by
      rw [hzero] at hcounted
      exact List.eq_nil_of_length_eq_zero (Int.ofNat_eq_zero.mp hcounted.symm)
    obtain ⟨t, hdestroy, hfiles⟩ := h.files.destroyWatch e
    refine ⟨_, (if_pos hzero).trans hdestroy, ?_, rfl, rfl, rfl, rfl⟩
    exact {
      safe := h.safe
      files := hfiles
      linked := by
        refine h.linked.congr (fun _ => rfl) fun e' => (congrFun usersOf_setEntry e').trans ?_
        have hnil : net.usersOf e = [] := (usersOf_eq he).trans husers
        rw [Option.map_none, Option.getD_none, ← hnil, Function.update_eq_self]
      own := h.own
      counted := by
        intro e' v hv
        rcases entry_setEntry_cases hv with ⟨-, hnew⟩ | ⟨-, hold⟩
        · cases hnew
        · exact h.counted e' v hold
      used := by
        intro e' v hv hnone
        rcases entry_setEntry_cases hv with ⟨-, hnew⟩ | ⟨hne, hold⟩
        · cases hnew
        · exact absurd (Option.some.inj (h.used e' v hold hnone)).symm hne
      here := h.here
      people := h.people }
  · refine ⟨net, if_neg hzero, ?_, rfl, rfl, rfl, rfl⟩
    refine ⟨h.safe, h.files, h.linked, h.own, h.counted, fun e' v hv hnone => ?_, h.here, h.people⟩
    obtain rfl := Option.some.inj (h.used e' v hv hnone)
    obtain rfl := Option.some.inj (he.symm.trans hv)
    rw [hnone] at hcounted
    exact absurd hcounted hzero

/-- A client stops watching an entry, if it does. -/
theorem Sound.delFromWatch (h : net.Sound maps none) (hc : (net.client c).isSome)
    (he : net.entry e = some w) :
    ∃ net', net.delFromWatch maps e c = some net' ∧ net'.Sound maps none ∧ Quiet net net' c ∧
      (net'.watches c).list = (net.watches c).list.erase e := by
  obtain ⟨r, hr⟩ := Option.isSome_iff_exists.mp hc
  rw [WatchNet.delFromWatch, findWatchLink, hr, Option.map_some, Option.bind_some, he,
    Option.bind_some]
  by_cases hmem : e ∈ (net.watches c).list
  · let cwp : ClientWatches := ⟨(net.watches c).list.erase e, (net.watches c).count - 1⟩
    let new : WatchEntry := { w with users := w.users.erase c, count := w.count - 1 }
    have husers : c ∈ w.users := usersOf_eq he ▸ (h.linked.mem c e).mp hmem
    have hsound : (net.unlink e c w).Sound maps (some e) := by
      refine h.relist he rfl ?_ ?_ ?_ ?_ ?_ ?_
      · refine (h.linked.unlink c e).congr (fun d => ?_) fun e' => ?_
        · by_cases hd : d = c
          · rw [hd, Function.update_self, Function.update_self]
          · rw [Function.update_of_ne hd, Function.update_of_ne hd]
        · rw [usersOf_eq he]
      · intro d
        by_cases hd : d = c
        · have hpos := List.length_pos_of_mem hmem
          have hown := h.own c
          rw [hd, Function.update_self, List.length_erase_of_mem hmem]
          change (net.watches c).count - 1 = _
          omega
        · rw [Function.update_of_ne hd]
          exact h.own d
      · have hpos := List.length_pos_of_mem husers
        have hcounted := h.counted e w he
        rw [List.length_erase_of_mem husers]
        change w.count - 1 = _
        omega
      · exact fun e' _ he' => nomatch he'
      · exact fun _ => rfl
      · intro d e' he'
        by_cases hd : d = c
        · rw [hd, Function.update_self] at he'
          exact hd ▸ h.here c e' (List.mem_of_mem_erase he')
        · rw [Function.update_of_ne hd] at he'
          exact h.here d e' he'
    have hentry : (net.unlink e c w).entry e = some new := Function.update_self ..
    obtain ⟨net', hdrop, hsound', hclient, hsent, hnow, hwatches⟩ := hsound.dropUnused hentry
    have hothers : ∀ d, d ≠ c → net'.watches d = net.watches d := fun d hd =>
      (congrFun hwatches d).trans (Function.update_of_ne hd ..)
    refine ⟨net', ?_, hsound', ⟨hclient, hsent, hnow, hothers⟩, ?_⟩
    · dsimp only
      rw [decide_eq_true hmem, if_pos rfl, hentry]
      exact hdrop
    · rw [hwatches]
      change (Function.update net.watches c cwp c).list = _
      rw [Function.update_self]
  · have hsound : net.Sound maps (some e) :=
      ⟨h.safe, h.files, h.linked, h.own, h.counted, fun e' v hv hnone =>
        absurd (h.used e' v hv hnone) (Option.some_ne_none e').symm, h.here, h.people⟩
    obtain ⟨net', hdrop, hsound', hclient, hsent, hnow, hwatches⟩ := hsound.dropUnused he
    refine ⟨net', ?_, hsound', ⟨hclient, hsent, hnow, fun d _ => congrFun hwatches d⟩, ?_⟩
    · dsimp only
      rw [decide_eq_false hmem, if_neg Bool.false_ne_true, he]
      exact hdrop
    · rw [hwatches, List.erase_of_not_mem hmem]

/-- A client's list is cleared, whatever is on it. -/
theorem Sound.clearFuel (n : ℕ) (h : net.Sound maps none) (hc : (net.client c).isSome)
    (hn : (net.watches c).list.length = n) :
    ∃ net', clearFuel maps c n net = some net' ∧ net'.Sound maps none ∧ Quiet net net' c ∧
      (net'.watches c).list = [] := by
  have hown := h.own c
  induction n generalizing net with
  | zero =>
    refine ⟨net, ?_, h, .refl net c, List.eq_nil_of_length_eq_zero hn⟩
    rw [WatchNet.clearFuel, hown, hn]
    rfl
  | succ n ih =>
    have hpos : 0 < (net.watches c).count := by
      rw [hown, hn]
      exact Int.natCast_pos.mpr (Nat.succ_pos n)
    obtain ⟨e, rest, hlist⟩ := List.exists_cons_of_length_eq_add_one hn
    obtain ⟨w, hw, -⟩ := h.watched (hlist ▸ List.mem_cons_self : e ∈ (net.watches c).list)
    obtain ⟨net₁, hdel, h₁, hquiet, hlist₁⟩ := h.delFromWatch hc hw
    rw [hlist, List.erase_cons_head] at hlist₁
    have hn₁ : (net₁.watches c).list.length = n := by
      rw [hlist, List.length_cons] at hn
      rw [hlist₁]
      exact Nat.succ.inj hn
    obtain ⟨net', hclear, h', hquiet', hnil⟩ := ih h₁ (hquiet.client ▸ hc) hn₁ (h₁.own c)
    refine ⟨net', ?_, h', hquiet.trans hquiet', hnil⟩
    rw [WatchNet.clearFuel, if_pos hpos, hlist, List.head?_cons, Option.bind_some, hdel]
    exact hclear

theorem Sound.clear (h : net.Sound maps none) (hc : (net.client c).isSome) :
    ∃ net', net.clear maps c = some net' ∧ net'.Sound maps none ∧ Quiet net net' c ∧
      (net'.watches c).list = [] := by
  obtain ⟨r, hr⟩ := Option.isSome_iff_exists.mp hc
  have hfuel : (net.watches c).count.toNat = (net.watches c).list.length := by
    rw [h.own c, Int.toNat_natCast]
  rw [WatchNet.clear, hr, Option.bind_some, hfuel]
  exact h.clearFuel _ hc rfl

/-! ### Words -/

theorem valid_of_check {first : CharMap} (hcheck : checkNickname first maps nick = true)
    (hlen : nick.length ≤ NICKLEN) : maps.Valid nick := by
  rw [checkNickname, Bool.and_eq_true, List.all_eq_true] at hcheck
  exact ⟨hlen, fun c hc => bne_iff_ne.mp (hcheck.2 c hc)⟩

/-- A shorter list is counted as such. -/
theorem Sound.count_le (h : net.Sound maps x) {y : Option ℕ} (h' : net'.Sound maps y)
    (hlist : (net'.watches c).list.length ≤ (net.watches c).list.length) :
    (net'.watches c).count ≤ (net.watches c).count := by
  rw [h.own c, h'.own c]
  exact Int.ofNat_le.mpr hlist

theorem Sound.add (h : net.Sound maps none) (hc : net.client c = some r) (hmine : r.mine = true)
    (hvalid : maps.Valid nick) (halike : net.NickAlike maps nick)
    (hroom : net.findWatch maps nick = some none → net.table.Fits) :
    ∃ net', net.add maps c nick = some net' ∧ net'.Sound maps none ∧ Quiet net net' c ∧
      (net'.watches c).count ≤ (net.watches c).count + 1 := by
  obtain ⟨o, hfind, hright⟩ := h.files.findWatch halike
  rw [WatchNet.add, hfind, Option.bind_some]
  cases o with
  | none =>
    obtain ⟨t, hcreate, hfiles⟩ := h.files.createWatch hvalid hright (hroom hfind)
    -- nobody watches what has just been made
    have hnone : net.usersOf net.fresh = [] := by
      have hfree := h.files.fresh net.fresh le_rfl
      rw [nickOf, Option.map_eq_none_iff] at hfree
      rw [usersOf, hfree, Option.map_none, Option.getD_none]
    have hsound : ({ net.allocWatch nick with table := t } : WatchNet).Sound maps
        (some net.fresh) := {
      safe := h.safe
      files := hfiles
      linked := by
        refine h.linked.congr (fun _ => rfl) fun e' => (congrFun usersOf_setEntry e').trans ?_
        rw [Option.map_some, Option.getD_some, ← hnone, Function.update_eq_self]
      own := h.own
      counted := by
        intro e' v hv
        rcases entry_setEntry_cases hv with ⟨-, hnew⟩ | ⟨-, hold⟩
        · exact Option.some.inj hnew ▸ rfl
        · exact h.counted e' v hold
      used := by
        intro e' v hv hnil
        rcases entry_setEntry_cases hv with ⟨rfl, -⟩ | ⟨-, hold⟩
        · rfl
        · exact absurd (h.used e' v hold hnil) (Option.some_ne_none e').symm
      here := h.here
      people := h.people }
    have hentry : ({ net.allocWatch nick with table := t } : WatchNet).entry net.fresh =
        some ⟨nick.take NICKLEN, 0, 0, []⟩ := entry_setEntry_self
    have hnot : net.fresh ∉ (net.watches c).list := by
      intro hmem
      have huser := (h.linked.mem c net.fresh).mp hmem
      rw [hnone] at huser
      cases huser
    obtain ⟨net', hadd, h', hquiet, hcount⟩ :=
      hsound.addToWatch (fun e' he' => (Option.some.inj he').symm) hc hmine
        hentry hnot
    refine ⟨net', ?_, h', ⟨hquiet.client, hquiet.sent, hquiet.now, hquiet.others⟩, hcount.le⟩
    dsimp only
    rw [hcreate]
    exact hadd
  | some e =>
    obtain ⟨w, hw, -⟩ := hright
    dsimp only
    rw [findWatchLink, hc, Option.map_some, Option.bind_some]
    by_cases hmem : e ∈ (net.watches c).list
    · rw [decide_eq_true hmem, if_pos rfl]
      exact ⟨net, rfl, h, .refl net c, Int.le_add_one le_rfl⟩
    · obtain ⟨net', hadd, h', hquiet, hcount⟩ :=
        h.addToWatch (fun e' he' => nomatch he') hc hmine hw hmem
      rw [decide_eq_false hmem, if_neg Bool.false_ne_true]
      exact ⟨net', hadd, h', hquiet, hcount.le⟩

/-- A nick that the word adds hashes as its entry does, and there is room for a new one. -/
def WordAlike (first maps : CharMap) (c : ℕ) (limit : ℤ) (net : WatchNet) (word : Bytes) : Prop :=
  ∀ nick, word = 43 :: nick → (net.watches c).count < limit →
    checkNickname first maps nick = true → nick.length ≤ NICKLEN →
      net.NickAlike maps nick ∧ (net.findWatch maps nick = some none → net.table.Fits)

/-- A word of the command, whatever it is: no limit is passed. -/
theorem Sound.watchWord {first : CharMap} {limit : ℤ} {word : Bytes} (h : net.Sound maps none)
    (hc : net.client c = some r) (hmine : r.mine = true)
    (halike : WordAlike first maps c limit net word) :
    ∃ net', watchWord first maps c limit net word = some net' ∧ net'.Sound maps none ∧
      Quiet net net' c ∧ (net'.watches c).count ≤ max (net.watches c).count limit := by
  have hsame : ∃ net', some net = some net' ∧ net'.Sound maps none ∧ Quiet net net' c ∧
      (net'.watches c).count ≤ max (net.watches c).count limit :=
    ⟨net, rfl, h, .refl net c, le_max_left _ _⟩
  have hsome : (net.client c).isSome := by rw [hc]; rfl
  cases word with
  | nil => exact hsame
  | cons ch nick =>
    rw [WatchNet.watchWord]
    split
    · rename_i hplus
      split
      · exact hsame
      · rw [hc, Option.bind_some]
        split
        · exact hsame
        · rename_i hbelow
          split
          · rename_i hcheck
            have hlt := not_le.mp hbelow
            obtain ⟨halike, hroom⟩ := halike nick (hplus ▸ rfl) hlt hcheck.1 hcheck.2
            obtain ⟨net', hadd, h', hquiet, hcount⟩ :=
              h.add hc hmine (valid_of_check hcheck.1 hcheck.2) halike hroom
            have hlimit := hcount.trans (Int.add_one_le_of_lt hlt)
            exact ⟨net', hadd, h', hquiet, hlimit.trans (le_max_right _ _)⟩
          · exact hsame
    · split
      · split
        · exact hsame
        · obtain ⟨o, hfind, hmem⟩ := h.files.findWatch_mem nick
          rw [hfind, Option.bind_some]
          cases o with
          | none => exact hsame
          | some e =>
            obtain ⟨w, hw⟩ := hmem e rfl
            obtain ⟨net', hdel, h', hquiet, hlist⟩ := h.delFromWatch hsome hw
            have hcount := h.count_le h' (by rw [hlist]; exact List.length_erase_le)
            exact ⟨net', hdel, h', hquiet, hcount.trans (le_max_left _ _)⟩
      · split
        · obtain ⟨net', hclear, h', hquiet, hlist⟩ := h.clear hsome
          have hcount := h.count_le h' (by rw [hlist]; exact Nat.zero_le _)
          exact ⟨net', hclear, h', hquiet, hcount.trans (le_max_left _ _)⟩
        · exact hsame

/-- All words of the command. -/
theorem Sound.run_watchWord {first : CharMap} {limit : ℤ} {words : List Bytes}
    (h : net.Sound maps none) (hc : net.client c = some r) (hmine : r.mine = true)
    (halike : Run.Along (WatchNet.watchWord first maps c limit) (WordAlike first maps c limit) net
      words) :
    ∃ net', Run.run (WatchNet.watchWord first maps c limit) net words = some net' ∧
      net'.Sound maps none ∧ Quiet net net' c ∧
      (net'.watches c).count ≤ max (net.watches c).count limit := by
  induction words generalizing net with
  | nil => exact ⟨net, rfl, h, .refl net c, le_max_left _ _⟩
  | cons word words ih =>
    obtain ⟨net₁, hword, h₁, hquiet, hcount⟩ := h.watchWord hc hmine halike.1
    obtain ⟨net', hrun, h', hquiet', hcount'⟩ :=
      ih h₁ (hquiet.client ▸ hc) (halike.2 net₁ hword)
    refine ⟨net', Run.run_cons_eq_some.mpr ⟨net₁, hword, hrun⟩, h', hquiet.trans hquiet', ?_⟩
    exact hcount'.trans (max_le hcount (le_max_right _ _))

end

end WatchNet

end Ithildin
