import Ithildin.Channel.Modes
import Ithildin.Lib.Crosslink
import Ithildin.Table.Contents
import Mathlib.Data.List.GetD

/-!
# The client history

Entries remember the nicks that clients have left. The newest stands first on the list, and a table
finds them by nick; an entry and its client point at each other. A client that signs off keeps its
memory until its entry goes.

* `CharMap`, `istrcmp`: how nicks are compared;
* `HistNet`: clients and entries in memory, the lists and the two tables;
* `removeHistory`, `addHistory`, `getHistory`, `destroyClient`, `changeNick`: the functions of
  `client.c`;
* `Books`: what the list, the table and the pointers are to each other;
* `Books.addHistory`: `client_add_history` keeps it.

An access to memory that is not allocated, an assertion that fails or a table that breaks yields
nothing.
-/

namespace Ithildin

/-- `ircd.maps.nick`, as `istr_map` makes it: characters that are the same have one image, those
that are not allowed have none. -/
structure CharMap where
  map : UInt8 → UInt8
  map_zero : map 0 = 0

/-- `istrcmp` finds no difference among the first `n` characters. -/
def istrcmp (map : UInt8 → UInt8) : ℕ → Memory → Memory → Bool
  | 0, _, _ => true
  | n + 1, one, two =>
      if map (one 0) = map (two 0) then
        if one 0 = 0 then true else istrcmp map n (fun i => one (i + 1)) fun i => two (i + 1)
      else false

/-- A string in memory, with zeros behind it. -/
def nickText (s : Bytes) : Memory := fun i => s.getD i 0

/-- How both tables are created: with `HASH_FL_NOCASE` and `HASH_FL_STRING` and `nickcmp`.
Structures are seen from their nick on. -/
def nickTable (maps : CharMap) : TableConf where
  nocase := true
  string := true
  inserttail := false
  keyoffset := 0
  keylen := NICKLEN
  cmp one two _ := if istrcmp maps.map (NICKLEN + 1) one two then 0 else 1

/-- Two nicks are the same. -/
def CharMap.same (maps : CharMap) (s t : Bytes) : Bool :=
  istrcmp maps.map (NICKLEN + 1) (nickText s) (nickText t)

/-- A nick that is not too long and has allowed characters only. -/
def CharMap.Valid (maps : CharMap) (s : Bytes) : Prop :=
  s.length ≤ NICKLEN ∧ ∀ c ∈ s, maps.map c ≠ 0

instance (maps : CharMap) (s : Bytes) : Decidable (maps.Valid s) :=
  inferInstanceAs (Decidable (_ ∧ _))

/-- A client, as far as its history goes: whether it is one of ours, registered, or signed off. -/
structure HistClient where
  nick : Bytes
  mine : Bool
  registered : Bool
  history : Bool
  hist : Option ℕ
  deriving DecidableEq

/-- `struct client_history`. -/
structure HistEntry where
  nick : Bytes
  cli : ℕ
  signoff : ℤ
  deriving DecidableEq

/-- The memory of clients and of entries, with the next address; `ircd.lists.clients` and
`ircd.lists.client_history`, newest first; the two tables; `me.now`; and whether a call has gone
wrong. -/
structure HistNet where
  cli : ℕ → Option HistClient
  entry : ℕ → Option HistEntry
  fresh : ℕ
  clients : List ℕ
  history : List ℕ
  table : HashTable ℕ
  historyTable : HashTable ℕ
  now : ℤ
  fault : Bool

namespace HistNet

variable (maps : CharMap) (net : HistNet)

/-- The clients in memory, as their table sees them. -/
def cliEnv : HashTable.Env ℕ :=
  { nickTable maps with mem := fun c => nickText (((net.cli c).map HistClient.nick).getD []) }

/-- The entries in memory, as their table sees them. -/
def histEnv : HashTable.Env ℕ :=
  { nickTable maps with mem := fun e => nickText (((net.entry e).map HistEntry.nick).getD []) }

/-- What is at the address of a client. -/
def setCli (c : ℕ) (o : Option HistClient) : HistNet :=
  { net with cli := Function.update net.cli c o }

/-- A client's record is changed. -/
def modify (c : ℕ) (f : HistClient → HistClient) : HistNet := net.setCli c ((net.cli c).map f)

/-- A client's memory is freed. -/
def freeClient (c : ℕ) : HistNet := net.setCli c none

/-- An entry is taken out and freed. -/
def unlist (e : ℕ) (t : HashTable ℕ) : HistNet :=
  { net with
    historyTable := t
    history := net.history.erase e
    entry := Function.update net.entry e none }

/-- `client_remove_history`. A client that is signed off goes with its entry. -/
def removeHistory (c : ℕ) : Option HistNet :=
  (net.cli c).bind fun r =>
    match r.hist with
    | none => some net
    | some e =>
        (net.entry e).bind fun h =>
          if h.cli ≠ c then none
          else
            (net.historyTable.delete (net.histEnv maps) e).map fun t =>
              if r.history then (net.unlist e t).freeClient c
              else (net.unlist e t).modify c fun r => { r with hist := none }

/-- The entry of the client itself goes. -/
def dropOwn (c : ℕ) : Option HistNet :=
  (net.cli c).bind fun r => if r.hist.isSome then net.removeHistory maps c else some net

/-- The entry goes that has the nick, if one has. -/
def dropNick (nick : Bytes) : Option HistNet :=
  (net.historyTable.find (net.histEnv maps) (nickText nick)).bind fun o =>
    match o with
    | none => some net
    | some e => (net.entry e).bind fun h => net.removeHistory maps h.cli

/-- The oldest entry goes if the table is full and not smaller than that of the clients. -/
def dropOldest : Option HistNet :=
  if net.historyTable.size ≤ net.historyTable.entries ∧ net.table.size ≤ net.historyTable.size then
    net.history.getLast?.bind fun e => (net.entry e).bind fun h => net.removeHistory maps h.cli
  else some net

/-- A new entry in memory, and on the list. -/
def enlist (c : ℕ) (nick : Bytes) : HistNet :=
  { net.modify c fun r => { r with hist := some net.fresh } with
    entry := Function.update net.entry net.fresh (some ⟨nick, c, net.now⟩)
    history := net.fresh :: net.history
    fresh := net.fresh + 1 }

/-- The end of `client_add_history`. -/
def enter (c : ℕ) : Option HistNet :=
  (net.cli c).bind fun r =>
    ((net.enlist c r.nick).historyTable.insert ((net.enlist c r.nick).histEnv maps) net.fresh).map
      fun t => { net.enlist c r.nick with historyTable := t }

/-- `client_add_history`. -/
def addHistory (c : ℕ) : Option HistNet :=
  (net.dropOwn maps c).bind fun net₁ =>
    (net₁.cli c).bind fun r =>
      (net₁.dropNick maps r.nick).bind fun net₂ =>
        (net₂.dropOldest maps).bind fun net₃ => net₃.enter maps c

/-- `hash_insert(ircd.hashes.client, cli)`. -/
def hash (c : ℕ) : Option HistNet :=
  (net.table.insert (net.cliEnv maps) c).map fun t => { net with table := t }

/-- `hash_delete(ircd.hashes.client, cli)`. -/
def unhash (c : ℕ) : Option HistNet :=
  (net.table.delete (net.cliEnv maps) c).map fun t => { net with table := t }

/-- A client leaves the list; its memory stays if it is signed off. -/
def leave (c : ℕ) : HistNet :=
  let gone := { net with clients := net.clients.erase c }
  if (net.cli c).any HistClient.history then gone else gone.freeClient c

/-- `destroy_client`. -/
def destroyClient (c : ℕ) : Option HistNet :=
  (net.cli c).bind fun r =>
    if r.history then some (net.freeClient c)
    else
      ((if r.registered then
          (net.addHistory maps c).map fun net₁ => net₁.modify c fun r => { r with history := true }
        else some net).bind fun net₁ =>
        if r.nick ≠ [] then net₁.unhash maps c else some net₁).map fun net₂ => net₂.leave c

/-- `client_change_nick`. -/
def changeNick (c : ℕ) (nick : Bytes) : Option HistNet :=
  (net.cli c).bind fun r =>
    (if r.nick ≠ [] ∧ maps.same r.nick nick = false then
        (net.unhash maps c).bind fun net₁ =>
          if r.registered then net₁.addHistory maps c else some net₁
      else some net).bind fun net₁ =>
      let net₂ := net₁.modify c fun r => { r with nick := nick.take NICKLEN }
      if maps.same r.nick nick then some net₂ else net₂.hash maps c

/-- `register_client`: clients of other servers are put into the table. -/
def registerClient (c : ℕ) : Option HistNet :=
  (net.cli c).bind fun r =>
    (if r.mine then some net else net.hash maps c).map fun net₁ =>
      net₁.modify c fun r => { r with registered := true }

/-- `find_client`. -/
def findClient (nick : Bytes) : Option (Option ℕ) :=
  (net.table.find (net.cliEnv maps) (nickText nick)).bind fun o =>
    match o with
    | none => some none
    | some c => (net.cli c).map fun r => if r.registered then some c else none

/-- `client_get_history`. -/
def getHistory (nick : Bytes) (limit : ℤ) : Option (Option ℕ) :=
  (net.findClient maps nick).bind fun o =>
    match o with
    | some c => some (some c)
    | none =>
        (net.historyTable.find (net.histEnv maps) (nickText nick)).bind fun o =>
          match o with
          | none => some none
          | some e =>
              (net.entry e).bind fun h =>
                (net.cli h.cli).map fun r =>
                  if r.history = false ∧ (if limit = 0 then 0 else net.now - limit) ≤ h.signoff then
                    some h.cli
                  else none

end HistNet

/-! ### Nicks -/

section
variable {maps : CharMap} {s t : Bytes}

theorem nickText_succ (c : UInt8) (s : Bytes) :
    (fun i => nickText (c :: s) (i + 1)) = nickText s := rfl

theorem istrcmp_nickText {n : ℕ} (hs : ∀ c ∈ s, maps.map c ≠ 0) (ht : ∀ c ∈ t, maps.map c ≠ 0)
    (hn : s.length < n) :
    istrcmp maps.map n (nickText s) (nickText t) = true ↔ s.map maps.map = t.map maps.map := by
  induction s generalizing t n with
  | nil =>
    obtain ⟨n, rfl⟩ := Nat.exists_eq_add_one.mpr hn
    cases t with
    | nil => simp [istrcmp, nickText]
    | cons b t =>
      have hb : ¬ maps.map 0 = maps.map b := by
        rw [maps.map_zero]
        exact Ne.symm (ht b List.mem_cons_self)
      simp [istrcmp, nickText, hb]
  | cons a s ih =>
    obtain ⟨n, rfl⟩ := Nat.exists_eq_add_one.mpr (Nat.zero_lt_of_lt hn)
    have ha := hs a List.mem_cons_self
    have hzero : a ≠ 0 := fun h => ha (by rw [h, maps.map_zero])
    cases t with
    | nil =>
      have hend : ¬ maps.map a = maps.map 0 := by rwa [maps.map_zero]
      simp [istrcmp, nickText, hend]
    | cons b t =>
      have hrest := @ih t n (fun c hc => hs c (List.mem_cons_of_mem a hc))
        (fun c hc => ht c (List.mem_cons_of_mem b hc)) (Nat.lt_of_succ_lt_succ hn)
      rw [istrcmp, nickText_succ, nickText_succ, List.map_cons, List.map_cons, List.cons.injEq,
        ← hrest]
      have hhead : nickText (a :: s) 0 = a := rfl
      have hhead' : nickText (b :: t) 0 = b := rfl
      rw [hhead, hhead', if_neg hzero]
      split
      · rename_i heq
        rw [and_iff_right heq]
      · rename_i hne
        exact iff_of_false Bool.false_ne_true fun h => hne h.1

namespace CharMap

theorem same_iff (hs : maps.Valid s) (ht : maps.Valid t) :
    maps.same s t = true ↔ s.map maps.map = t.map maps.map :=
  istrcmp_nickText hs.2 ht.2 (Nat.lt_succ_of_le hs.1)

theorem valid_nil : maps.Valid [] := ⟨Nat.zero_le _, fun _ hc => by cases hc⟩

end CharMap

/-- Nicks that differ in case only have one hash. -/
theorem keyHash_nickText (h : s.map toLower = t.map toLower) :
    (nickTable maps).keyHash (nickText s) = (nickTable maps).keyHash (nickText t) := by
  have hbyte : ∀ i, toLower (nickText s i) = toLower (nickText t i) := by
    intro i
    have hmap : ∀ u : Bytes, toLower (nickText u i) = (u.map toLower).getD i (toLower 0) := by
      intro u
      exact (List.getD_map u 0 toLower).symm
    rw [hmap, hmap, h]
  have hbytes :
      (nickTable maps).hashByte (nickText s) = (nickTable maps).hashByte (nickText t) := by
    funext i
    simp only [TableConf.hashByte, nickTable, if_true, hbyte]
  have hlength : (nickTable maps).hashLength (nickText s) =
      (nickTable maps).hashLength (nickText t) := by
    have hzero : (fun i => decide (nickText s i = 0)) = fun i => decide (nickText t i = 0) := by
      funext i
      rw [decide_eq_decide, ← @toLower_eq_zero (nickText s i), hbyte, toLower_eq_zero]
    simp only [TableConf.hashLength, hzero]
  rw [TableConf.keyHash, TableConf.keyHash, hbytes, hlength]

end

namespace CharMap

/-- Characters that are the same differ in case only. -/
def FoldsCase (maps : CharMap) : Prop := ∀ c, maps.map c ≠ 0 → toLower (maps.map c) = toLower c

section
variable {maps : CharMap} {s t : Bytes}

theorem FoldsCase.map_toLower (h : maps.FoldsCase) (hs : maps.Valid s) :
    (s.map maps.map).map toLower = s.map toLower := by
  rw [List.map_map]
  exact List.map_congr_left fun c hc => h c (hs.2 c hc)

theorem FoldsCase.eq_of_same (h : maps.FoldsCase) (hs : maps.Valid s) (ht : maps.Valid t)
    (hsame : maps.same s t = true) : s.map toLower = t.map toLower := by
  rw [← h.map_toLower hs, (same_iff hs ht).mp hsame, h.map_toLower ht]

end

/-- The default map: letters without regard to case, digits, and some more. -/
def nicks : CharMap where
  map c :=
    if 97 ≤ c ∧ c ≤ 122 then c - 32
    else if (65 ≤ c ∧ c ≤ 90) ∨ (48 ≤ c ∧ c ≤ 57) ∨ c ∈ bytes "`^_[\x7b]\x7d\\|-" then c
    else 0
  map_zero := by decide

theorem foldsCase_nicks : nicks.FoldsCase := by
  have hbytes : ∀ n < 256, nicks.map (UInt8.ofNat n) ≠ 0 →
      toLower (nicks.map (UInt8.ofNat n)) = toLower (UInt8.ofNat n) := by
    decide +kernel
  intro c
  have hc := hbytes c.toNat c.toNat_lt
  rwa [UInt8.ofNat_toNat] at hc

/-- A map that may be configured: braces are the same as brackets. -/
def braces : CharMap where
  map c := if c = 123 then 91 else if c = 125 then 93 else nicks.map c
  map_zero := by decide

end CharMap

namespace HistNet

/-! ### The books -/

section
variable (maps : CharMap) (net : HistNet)

/-- The entry of a client. -/
def histOf (c : ℕ) : Option ℕ := (net.cli c).bind HistClient.hist

/-- The client of an entry. -/
def cliOf (e : ℕ) : Option ℕ := (net.entry e).map HistEntry.cli

/-- List, table and memory hold the same entries, no two of one nick; entries and clients point at
each other; and a client that is signed off has an entry. -/
structure Books : Prop where
  crossed : Crosslink.Crossed net.histOf net.cliOf
  listed : ∀ e, e ∈ net.history ↔ (net.entry e).isSome
  nodup : net.history.Nodup
  nicks : ∀ e e' h h', net.entry e = some h → net.entry e' = some h' →
    maps.same h.nick h'.nick = true → e = e'
  filed : HashTable.Calm (net.histEnv maps) net.historyTable (net.history : Multiset ℕ)
  gone : ∀ c r, net.cli c = some r → r.history = true → r.hist.isSome
  logged : ∀ c r, net.cli c = some r → r.hist.isSome → r.registered = true
  names : ∀ c r, net.cli c = some r → maps.Valid r.nick
  entries : ∀ e h, net.entry e = some h → maps.Valid h.nick
  fresh : ∀ n, net.fresh ≤ n → net.cli n = none ∧ net.entry n = none

/-- Some entries are gone, and with them the clients that were signed off. -/
structure Fewer (net net' : HistNet) : Prop where
  clients : net'.clients = net.clients
  table : net'.table = net.table
  now : net'.now = net.now
  fresh : net'.fresh = net.fresh
  fault : net'.fault = net.fault
  size : net'.historyTable.size = net.historyTable.size
  history : net'.history.Sublist net.history
  entry : ∀ e h, net'.entry e = some h → net.entry e = some h
  cli : ∀ c, net'.cli c = net.cli c ∨ ∃ r, net.cli c = some r ∧
    net'.cli c = if r.history then none else some { r with hist := none }

end

section
variable {maps : CharMap} {net net' : HistNet} {c e : ℕ} {r : HistClient} {h : HistEntry}
  {nick : Bytes}

theorem Fewer.refl (net : HistNet) : Fewer net net :=
  ⟨rfl, rfl, rfl, rfl, rfl, rfl, .refl _, fun _ _ h => h, fun _ => .inl rfl⟩

theorem Fewer.trans {net'' : HistNet} (h : Fewer net net') (h' : Fewer net' net'') :
    Fewer net net'' where
  clients := h'.clients.trans h.clients
  table := h'.table.trans h.table
  now := h'.now.trans h.now
  fresh := h'.fresh.trans h.fresh
  fault := h'.fault.trans h.fault
  size := h'.size.trans h.size
  history := h'.history.trans h.history
  entry e x hx := h.entry e x (h'.entry e x hx)
  cli c := by
    rcases h'.cli c with hsame | ⟨r', hr', hnew'⟩
    · rw [hsame]
      exact h.cli c
    · rcases h.cli c with hsame | ⟨r, hr, hnew⟩
      · exact .inr ⟨r', hsame ▸ hr', hnew'⟩
      · -- the client has lost its entry before
        refine .inr ⟨r, hr, ?_⟩
        rw [hnew']
        rw [hnew] at hr'
        split at hr'
        · cases hr'
        · rename_i hhist
          obtain rfl := Option.some.inj hr'
          rw [if_neg hhist]

/-- A client that is not signed off stays. -/
theorem Fewer.online (h : Fewer net net') (hc : net.cli c = some r) (hr : r.history = false) :
    net'.cli c = some r ∨ net'.cli c = some { r with hist := none } := by
  rcases h.cli c with hsame | ⟨r', hr', hnew⟩
  · exact .inl (hsame.trans hc)
  · obtain rfl := Option.some.inj (hc.symm.trans hr')
    rw [if_neg (by rw [hr]; exact Bool.false_ne_true)] at hnew
    exact .inr hnew

theorem key_histEnv (he : net.entry e = some h) :
    (net.histEnv maps).key e = nickText h.nick := by
  funext i
  simp [HashTable.Env.key, histEnv, nickTable, he]

theorem key_cliEnv (hc : net.cli c = some r) : (net.cliEnv maps).key c = nickText r.nick := by
  funext i
  simp [HashTable.Env.key, cliEnv, nickTable, hc]

theorem cli_setCli_self {o : Option HistClient} : (net.setCli c o).cli c = o :=
  Function.update_self ..

theorem cli_setCli_of_ne {o : Option HistClient} {d : ℕ} (hd : d ≠ c) :
    (net.setCli c o).cli d = net.cli d :=
  Function.update_of_ne hd ..

theorem cli_setCli_cases {o : Option HistClient} {d : ℕ} {r' : HistClient}
    (hd : (net.setCli c o).cli d = some r') :
    (d = c ∧ o = some r') ∨ d ≠ c ∧ net.cli d = some r' := by
  by_cases hdc : d = c
  · rw [hdc, cli_setCli_self] at hd
    exact .inl ⟨hdc, hd⟩
  · rw [cli_setCli_of_ne hdc] at hd
    exact .inr ⟨hdc, hd⟩

theorem entry_setCli {o : Option HistClient} : (net.setCli c o).entry = net.entry := rfl

theorem entry_unlist_self {t : HashTable ℕ} : (net.unlist e t).entry e = none :=
  Function.update_self ..

theorem entry_unlist_of_ne {t : HashTable ℕ} {e' : ℕ} (he' : e' ≠ e) :
    (net.unlist e t).entry e' = net.entry e' :=
  Function.update_of_ne he' ..

/-- What is left was there. -/
theorem entry_of_remove {t : HashTable ℕ} {o : Option HistClient} {e' : ℕ}
    (h' : ((net.unlist e t).setCli c o).entry e' = some h) : net.entry e' = some h := by
  rw [entry_setCli] at h'
  by_cases he' : e' = e
  · rw [he', entry_unlist_self] at h'
    cases h'
  · rwa [entry_unlist_of_ne he'] at h'

theorem histOf_eq (hc : net.cli c = some r) : net.histOf c = r.hist := by
  rw [histOf, hc, Option.bind_some]

/-- The entry of a client is there, and names it. -/
theorem Books.entry_of_hist (hb : net.Books maps) (hc : net.cli c = some r)
    (hhist : r.hist = some e) : ∃ h, net.entry e = some h ∧ h.cli = c :=
  Option.map_eq_some_iff.mp ((hb.crossed c e).mp ((histOf_eq hc).trans hhist))

/-- The client of an entry is there, and points at it. -/
theorem Books.cli_of_entry (hb : net.Books maps) (he : net.entry e = some h) :
    ∃ r, net.cli h.cli = some r ∧ r.hist = some e := by
  have hcli : net.cliOf e = some h.cli := by rw [cliOf, he, Option.map_some]
  exact Option.bind_eq_some_iff.mp ((hb.crossed h.cli e).mpr hcli)

/-- The entry of a client is taken out: the client is freed, or points nowhere. -/
theorem Books.remove {o : Option HistClient} {t : HashTable ℕ} (hb : net.Books maps)
    (hc : net.cli c = some r) (hhist : r.hist = some e)
    (ht : HashTable.Calm (net.histEnv maps) t ((net.history : Multiset ℕ).erase e))
    (ho : o = if r.history then none else some { r with hist := none }) :
    ((net.unlist e t).setCli c o).Books maps where
  crossed := by
    refine (hb.crossed.unlink ((histOf_eq hc).trans hhist)).congr (fun d => ?_) fun e' => ?_
    · by_cases hd : d = c
      · rw [hd, histOf, cli_setCli_self, Function.update_self, ho]
        split <;> rfl
      · rw [histOf, cli_setCli_of_ne hd, Function.update_of_ne hd]
        rfl
    · by_cases he' : e' = e
      · rw [he', Function.update_self, cliOf, entry_setCli, entry_unlist_self, Option.map_none]
      · rw [Function.update_of_ne he', cliOf, entry_setCli, entry_unlist_of_ne he', cliOf]
  listed e' := by
    rw [entry_setCli]
    refine hb.nodup.mem_erase_iff.trans ?_
    by_cases he' : e' = e
    · rw [he', entry_unlist_self]
      exact iff_of_false (fun h => h.1 rfl) (by simp)
    · rw [entry_unlist_of_ne he', and_iff_right he']
      exact hb.listed e'
  nodup := hb.nodup.erase e
  nicks e₁ e₂ h₁ h₂ he₁ he₂ hsame :=
    hb.nicks e₁ e₂ h₁ h₂ (entry_of_remove he₁) (entry_of_remove he₂) hsame
  filed := by
    rw [Multiset.coe_erase] at ht
    refine ht.congr_env fun e' he' => ?_
    obtain ⟨hne, hmem⟩ := hb.nodup.mem_erase_iff.mp (Multiset.mem_coe.mp he')
    obtain ⟨h, hentry⟩ := Option.isSome_iff_exists.mp ((hb.listed e').mp hmem)
    have hentry' : ((net.unlist e t).setCli c o).entry e' = some h := by
      rw [entry_setCli, entry_unlist_of_ne hne, hentry]
    rw [key_histEnv hentry, key_histEnv hentry']
    rfl
  gone d r' hd hr' := by
    rcases cli_setCli_cases hd with ⟨-, hnew⟩ | ⟨-, hold⟩
    · rw [ho] at hnew
      split at hnew
      · cases hnew
      · rename_i hhistory
        obtain rfl := Option.some.inj hnew
        exact absurd hr' hhistory
    · exact hb.gone d r' hold hr'
  logged d r' hd hr' := by
    rcases cli_setCli_cases hd with ⟨-, hnew⟩ | ⟨-, hold⟩
    · rw [ho] at hnew
      split at hnew
      · cases hnew
      · obtain rfl := Option.some.inj hnew
        cases hr'
    · exact hb.logged d r' hold hr'
  names d r' hd := by
    rcases cli_setCli_cases hd with ⟨-, hnew⟩ | ⟨-, hold⟩
    · rw [ho] at hnew
      split at hnew
      · cases hnew
      · obtain rfl := Option.some.inj hnew
        exact hb.names c r hc
    · exact hb.names d r' hold
  entries e' h he' := hb.entries e' h (entry_of_remove he')
  fresh n hn := by
    obtain ⟨hcli, hentry⟩ := hb.fresh n hn
    have hnc : n ≠ c := by
      rintro rfl
      rw [hcli] at hc
      cases hc
    refine ⟨(cli_setCli_of_ne hnc).trans hcli, ?_⟩
    rw [entry_setCli]
    by_cases hne : n = e
    · rw [hne, entry_unlist_self]
    · rw [entry_unlist_of_ne hne, hentry]

theorem fewer_remove {t : HashTable ℕ} {o : Option HistClient} (hc : net.cli c = some r)
    (ht : net.historyTable.delete (net.histEnv maps) e = some t)
    (ho : o = if r.history then none else some { r with hist := none }) :
    Fewer net ((net.unlist e t).setCli c o) where
  clients := rfl
  table := rfl
  now := rfl
  fresh := rfl
  fault := rfl
  size := HashTable.size_delete ht
  history := List.erase_sublist
  entry _ _ he := entry_of_remove he
  cli d := by
    by_cases hd : d = c
    · rw [hd, cli_setCli_self]
      exact .inr ⟨r, hc, ho⟩
    · exact .inl (cli_setCli_of_ne hd)

/-- `client_remove_history`, for a client that has an entry. -/
theorem Books.removeHistory (hb : net.Books maps) (hc : net.cli c = some r)
    (hhist : r.hist = some e) :
    ∃ net', net.removeHistory maps c = some net' ∧ net'.Books maps ∧ Fewer net net' ∧
      net'.entry e = none ∧
      net'.cli c = if r.history then none else some { r with hist := none } := by
  obtain ⟨h, he, hcli⟩ := hb.entry_of_hist hc hhist
  obtain ⟨t, hdelete, hcalm⟩ := hb.filed.delete e
  refine ⟨(net.unlist e t).setCli c (if r.history then none else some { r with hist := none }), ?_,
    hb.remove hc hhist hcalm rfl, fewer_remove hc hdelete rfl, ?_, cli_setCli_self⟩
  · have hmem : (net.unlist e t).cli c = some r := hc
    rw [HistNet.removeHistory, hc, Option.bind_some, hhist]
    dsimp only
    rw [he, Option.bind_some, if_neg (not_not.mpr hcli), hdelete, Option.map_some, freeClient,
      modify, hmem, Option.map_some]
    cases r.history <;> rfl
  · rw [entry_setCli, entry_unlist_self]

/-! ### A new entry -/

/-- Stored entries of a nick that is the same hash as it does. -/
def HistAlike (maps : CharMap) (net : HistNet) (nick : Bytes) : Prop :=
  ∀ e ∈ net.history, ∀ h ∈ net.entry e, maps.same h.nick nick = true →
    (net.histEnv maps).bucket net.historyTable.size (nickText h.nick) =
      (net.histEnv maps).bucket net.historyTable.size (nickText nick)

theorem HistAlike.fewer (ha : HistAlike maps net nick) (h : Fewer net net') :
    HistAlike maps net' nick := by
  intro e he x hx hsame
  rw [h.size]
  exact ha e (h.history.subset he) x (h.entry e x hx) hsame

/-- If only case is folded, nicks that are the same hash alike. -/
theorem Books.histAlike (hb : net.Books maps) (hfolds : maps.FoldsCase) (hnick : maps.Valid nick) :
    HistAlike maps net nick := by
  intro e _ x hx hsame
  have hlower := hfolds.eq_of_same (hb.entries e x hx) hnick hsame
  exact congrArg (· &&& (net.historyTable.size - 1)) (keyHash_nickText hlower)

theorem Books.dropOwn (hb : net.Books maps) (hc : net.cli c = some r) (hr : r.history = false) :
    ∃ net', net.dropOwn maps c = some net' ∧ net'.Books maps ∧ Fewer net net' ∧
      net'.cli c = some { r with hist := none } := by
  rw [HistNet.dropOwn, hc, Option.bind_some]
  cases hhist : r.hist with
  | none =>
    refine ⟨net, rfl, hb, .refl net, ?_⟩
    rw [hc, ← hhist]
  | some e =>
    obtain ⟨net', hremove, hb', hfewer, -, hcli⟩ := hb.removeHistory hc hhist
    rw [hr, if_neg Bool.false_ne_true] at hcli
    exact ⟨net', hremove, hb', hfewer, by rw [hcli, hr]⟩

theorem equates_histEnv (he : net.entry e = some h) :
    HashTable.equates (net.histEnv maps) e (nickText nick) = maps.same h.nick nick := by
  rw [HashTable.equates, key_histEnv he, CharMap.same]
  dsimp only [histEnv, nickTable]
  by_cases hcmp : istrcmp maps.map (NICKLEN + 1) (nickText h.nick) (nickText nick) = true <;>
    simp [hcmp]

/-- The entry with the nick is found, if there is one. -/
theorem Books.find (hb : net.Books maps) (hnick : maps.Valid nick) (ha : HistAlike maps net nick) :
    ∃ o, net.historyTable.find (net.histEnv maps) (nickText nick) = some o ∧
      (∀ e ∈ o, e ∈ net.history) ∧
      ∀ e h, net.entry e = some h → maps.same h.nick nick = true → o = some e := by
  obtain ⟨o, hfind, hright⟩ := hb.filed.find (nickText nick)
  have hentry : ∀ {e}, e ∈ net.history → ∃ h, net.entry e = some h := fun {e} he =>
    Option.isSome_iff_exists.mp ((hb.listed e).mp he)
  have hr : HashTable.Right (net.histEnv maps) (net.history : Multiset ℕ) (nickText nick) o := by
    refine hright.mpr ?_
    rintro ⟨e, he, heq⟩
    obtain ⟨h, hh⟩ := hentry (Multiset.mem_coe.mp he)
    refine ⟨e, he, heq, ?_⟩
    rw [equates_histEnv hh] at heq
    rw [key_histEnv hh]
    exact ha e (Multiset.mem_coe.mp he) h hh heq
  refine ⟨o, hfind, ?_, ?_⟩
  · rintro e he
    obtain rfl := he
    exact Multiset.mem_coe.mp hr.1
  · intro e h he hsame
    have hmem : e ∈ net.history := (hb.listed e).mpr (he ▸ rfl)
    cases o with
    | none =>
      have hno := hr e (Multiset.mem_coe.mpr hmem)
      rw [equates_histEnv he, hsame] at hno
      cases hno
    | some e' =>
      obtain ⟨hmem', heq'⟩ := hr
      obtain ⟨h', he'⟩ := hentry (Multiset.mem_coe.mp hmem')
      rw [equates_histEnv he'] at heq'
      have hvalid := hb.entries e h he
      have hvalid' := hb.entries e' h' he'
      refine congrArg some (hb.nicks e' e h' h he' he ?_)
      rw [CharMap.same_iff hvalid' hvalid]
      exact ((CharMap.same_iff hvalid' hnick).mp heq').trans
        ((CharMap.same_iff hvalid hnick).mp hsame).symm

theorem Books.dropNick (hb : net.Books maps) (hnick : maps.Valid nick)
    (ha : HistAlike maps net nick) :
    ∃ net', net.dropNick maps nick = some net' ∧ net'.Books maps ∧ Fewer net net' ∧
      ∀ e h, net'.entry e = some h → maps.same h.nick nick = false := by
  obtain ⟨o, hfind, hlisted, hfound⟩ := hb.find hnick ha
  rw [HistNet.dropNick, hfind, Option.bind_some]
  cases o with
  | none =>
    refine ⟨net, rfl, hb, .refl net, fun e h he => ?_⟩
    rw [← Bool.not_eq_true]
    intro hsame
    cases hfound e h he hsame
  | some e =>
    obtain ⟨h, he⟩ := Option.isSome_iff_exists.mp ((hb.listed e).mp (hlisted e rfl))
    obtain ⟨r, hr, hhist⟩ := hb.cli_of_entry he
    obtain ⟨net', hremove, hb', hfewer, hgone, -⟩ := hb.removeHistory hr hhist
    refine ⟨net', ?_, hb', hfewer, fun e' h' he' => ?_⟩
    · dsimp only
      rw [he, Option.bind_some, hremove]
    · rw [← Bool.not_eq_true]
      intro hsame
      obtain rfl := Option.some.inj (hfound e' h' (hfewer.entry e' h' he') hsame)
      rw [hgone] at he'
      cases he'

theorem Books.dropOldest (hb : net.Books maps) :
    ∃ net', net.dropOldest maps = some net' ∧ net'.Books maps ∧ Fewer net net' := by
  rw [HistNet.dropOldest]
  split
  · rename_i hfull
    have hpos : 0 < net.history.length := by
      have hsize := hb.filed.size_pos
      have hle := UInt32.le_iff_toNat_le.mp hfull.1
      rw [hb.filed.count, Multiset.coe_card] at hle
      exact Nat.lt_of_lt_of_le hsize hle
    obtain ⟨e, hlast⟩ := Option.ne_none_iff_exists'.mp
      (List.getLast?_eq_none_iff.not.mpr (List.ne_nil_of_length_pos hpos))
    have hmem : e ∈ net.history := List.mem_of_getLast? hlast
    obtain ⟨h, he⟩ := Option.isSome_iff_exists.mp ((hb.listed e).mp hmem)
    obtain ⟨r, hr, hhist⟩ := hb.cli_of_entry he
    obtain ⟨net', hremove, hb', hfewer, -⟩ := hb.removeHistory hr hhist
    refine ⟨net', ?_, hb', hfewer⟩
    rw [hlast, Option.bind_some, he, Option.bind_some, hremove]
  · exact ⟨net, rfl, hb, .refl net⟩

theorem cli_enlist_self (hc : net.cli c = some r) :
    (net.enlist c nick).cli c = some { r with hist := some net.fresh } := by
  rw [enlist]
  dsimp only [modify]
  rw [cli_setCli_self, hc, Option.map_some]

theorem cli_enlist_of_ne {d : ℕ} (hd : d ≠ c) : (net.enlist c nick).cli d = net.cli d :=
  cli_setCli_of_ne hd

theorem entry_enlist_self : (net.enlist c nick).entry net.fresh = some ⟨nick, c, net.now⟩ :=
  Function.update_self ..

theorem entry_enlist_of_ne (he : e ≠ net.fresh) : (net.enlist c nick).entry e = net.entry e :=
  Function.update_of_ne he ..

theorem cli_enlist_cases {d : ℕ} {r' : HistClient} (hc : net.cli c = some r)
    (hd : (net.enlist c nick).cli d = some r') :
    (d = c ∧ r' = { r with hist := some net.fresh }) ∨ d ≠ c ∧ net.cli d = some r' := by
  by_cases hdc : d = c
  · rw [hdc, cli_enlist_self hc] at hd
    exact .inl ⟨hdc, (Option.some.inj hd).symm⟩
  · rw [cli_enlist_of_ne hdc] at hd
    exact .inr ⟨hdc, hd⟩

theorem entry_enlist_cases (he : (net.enlist c nick).entry e = some h) :
    (e = net.fresh ∧ h = ⟨nick, c, net.now⟩) ∨ e ≠ net.fresh ∧ net.entry e = some h := by
  by_cases hef : e = net.fresh
  · rw [hef, entry_enlist_self] at he
    exact .inl ⟨hef, (Option.some.inj he).symm⟩
  · rw [entry_enlist_of_ne hef] at he
    exact .inr ⟨hef, he⟩

theorem histOf_enlist (hc : net.cli c = some r) :
    (net.enlist c nick).histOf = Function.update net.histOf c (some net.fresh) := by
  funext d
  by_cases hd : d = c
  · rw [hd, Function.update_self, histOf_eq (cli_enlist_self hc)]
  · rw [Function.update_of_ne hd, histOf, cli_enlist_of_ne hd, histOf]

theorem cliOf_enlist :
    (net.enlist c nick).cliOf = Function.update net.cliOf net.fresh (some c) := by
  funext e
  by_cases he : e = net.fresh
  · rw [he, Function.update_self, cliOf, entry_enlist_self, Option.map_some]
  · rw [Function.update_of_ne he, cliOf, entry_enlist_of_ne he, cliOf]

/-- A client that has no entry gets one, for a nick that has none. -/
theorem Books.enlist {t : HashTable ℕ} (hb : net.Books maps) (hc : net.cli c = some r)
    (hhist : r.hist = none) (hr : r.registered = true)
    (hfree : ∀ e h, net.entry e = some h → maps.same h.nick r.nick = false)
    (ht : HashTable.Calm ((net.enlist c r.nick).histEnv maps) t
      (net.fresh ::ₘ (net.history : Multiset ℕ))) :
    ({ net.enlist c r.nick with historyTable := t } : HistNet).Books maps where
  crossed := by
    change Crosslink.Crossed (net.enlist c r.nick).histOf (net.enlist c r.nick).cliOf
    rw [histOf_enlist hc, cliOf_enlist]
    refine hb.crossed.link ((histOf_eq hc).trans hhist) ?_
    rw [cliOf, (hb.fresh net.fresh (Nat.le_refl _)).2, Option.map_none]
  listed e := by
    refine List.mem_cons.trans ?_
    change _ ↔ ((net.enlist c r.nick).entry e).isSome
    by_cases he : e = net.fresh
    · rw [he, entry_enlist_self]
      exact iff_of_true (.inl rfl) rfl
    · rw [or_iff_right he, entry_enlist_of_ne he]
      exact hb.listed e
  nodup := by
    refine List.nodup_cons.mpr ⟨fun hmem => ?_, hb.nodup⟩
    have hsome := (hb.listed net.fresh).mp hmem
    rw [(hb.fresh net.fresh (Nat.le_refl _)).2] at hsome
    cases hsome
  nicks e₁ e₂ h₁ h₂ he₁ he₂ hsame := by
    have hvalid := hb.names c r hc
    rcases entry_enlist_cases he₁ with ⟨rfl, rfl⟩ | ⟨-, hold₁⟩
    · rcases entry_enlist_cases he₂ with ⟨rfl, rfl⟩ | ⟨-, hold₂⟩
      · rfl
      · have hfree₂ := hfree e₂ h₂ hold₂
        have hvalid₂ := hb.entries e₂ h₂ hold₂
        rw [← Bool.not_eq_true, CharMap.same_iff hvalid₂ hvalid] at hfree₂
        exact absurd ((CharMap.same_iff hvalid hvalid₂).mp hsame).symm hfree₂
    · rcases entry_enlist_cases he₂ with ⟨rfl, rfl⟩ | ⟨-, hold₂⟩
      · rw [hfree e₁ h₁ hold₁] at hsame
        cases hsame
      · exact hb.nicks e₁ e₂ h₁ h₂ hold₁ hold₂ hsame
  filed := ht
  gone d r' hd hhistory := by
    rcases @cli_enlist_cases net c r r.nick d r' hc hd with ⟨-, rfl⟩ | ⟨-, hold⟩
    · rfl
    · exact hb.gone d r' hold hhistory
  logged d r' hd hsome := by
    rcases @cli_enlist_cases net c r r.nick d r' hc hd with ⟨-, rfl⟩ | ⟨-, hold⟩
    · exact hr
    · exact hb.logged d r' hold hsome
  names d r' hd := by
    rcases @cli_enlist_cases net c r r.nick d r' hc hd with ⟨-, rfl⟩ | ⟨-, hold⟩
    · exact hb.names c r hc
    · exact hb.names d r' hold
  entries e h he := by
    rcases entry_enlist_cases he with ⟨-, rfl⟩ | ⟨-, hold⟩
    · exact hb.names c r hc
    · exact hb.entries e h hold
  fresh n hn := by
    have hlt : net.fresh < n := hn
    obtain ⟨hcli, hentry⟩ := hb.fresh n (Nat.le_of_lt hlt)
    have hnc : n ≠ c := by
      rintro rfl
      rw [hcli] at hc
      cases hc
    change (net.enlist c r.nick).cli n = none ∧ (net.enlist c r.nick).entry n = none
    rw [cli_enlist_of_ne hnc, entry_enlist_of_ne (Nat.ne_of_gt hlt)]
    exact ⟨hcli, hentry⟩

theorem Books.enter (hb : net.Books maps) (hc : net.cli c = some r) (hhist : r.hist = none)
    (hr : r.registered = true) (hfits : net.historyTable.Fits)
    (hfree : ∀ e h, net.entry e = some h → maps.same h.nick r.nick = false) :
    ∃ t, net.enter maps c = some { net.enlist c r.nick with historyTable := t } ∧
      ({ net.enlist c r.nick with historyTable := t } : HistNet).Books maps := by
  have hcalm : HashTable.Calm ((net.enlist c r.nick).histEnv maps) net.historyTable
      (net.history : Multiset ℕ) := by
    refine hb.filed.congr_env fun e he => ?_
    obtain ⟨h, hentry⟩ := Option.isSome_iff_exists.mp ((hb.listed e).mp (Multiset.mem_coe.mp he))
    have hne : e ≠ net.fresh := by
      rintro rfl
      rw [(hb.fresh net.fresh (Nat.le_refl _)).2] at hentry
      cases hentry
    have hentry' : (net.enlist c r.nick).entry e = some h :=
      (entry_enlist_of_ne hne).trans hentry
    rw [key_histEnv hentry, key_histEnv hentry']
    rfl
  obtain ⟨t, hinsert, hcalm'⟩ := hcalm.insert net.fresh hfits
  refine ⟨t, ?_, hb.enlist hc hhist hr hfree hcalm'⟩
  rw [HistNet.enter, hc, Option.bind_some]
  exact congrArg (Option.map _) hinsert

/-- A new entry, and what had to go for it. -/
structure Logged (net net' : HistNet) (c : ℕ) (r : HistClient) : Prop where
  clients : net'.clients = net.clients
  table : net'.table = net.table
  now : net'.now = net.now
  fault : net'.fault = net.fault
  own : ∃ e, net'.cli c = some { r with hist := some e }
  cli : ∀ d, d ≠ c → net'.cli d = net.cli d ∨ ∃ r, net.cli d = some r ∧
    net'.cli d = if r.history then none else some { r with hist := none }

/-- `client_add_history`, for a client that is online. -/
theorem Books.addHistory (hb : net.Books maps) (hc : net.cli c = some r) (hr : r.history = false)
    (hreg : r.registered = true) (hfits : net.historyTable.Fits)
    (ha : HistAlike maps net r.nick) :
    ∃ net', net.addHistory maps c = some net' ∧ net'.Books maps ∧ Logged net net' c r := by
  obtain ⟨net₁, hdrop₁, hb₁, hfewer₁, hc₁⟩ := hb.dropOwn hc hr
  obtain ⟨net₂, hdrop₂, hb₂, hfewer₂, hfree₂⟩ :=
    hb₁.dropNick (hb.names c r hc) (ha.fewer hfewer₁)
  obtain ⟨net₃, hdrop₃, hb₃, hfewer₃⟩ := hb₂.dropOldest
  have hfewer₁₃ := hfewer₂.trans hfewer₃
  have hfewer := hfewer₁.trans hfewer₁₃
  have hc₃ : net₃.cli c = some { r with hist := none } :=
    (hfewer₁₃.online hc₁ hr).elim id id
  have hfits₃ : net₃.historyTable.Fits := hfits.of_le hb.filed hb₃.filed hfewer.size
    (Multiset.card_le_card (Multiset.coe_le.mpr hfewer.history.subperm))
  obtain ⟨t, henter, hb'⟩ := hb₃.enter hc₃ rfl hreg hfits₃ fun e h he =>
    hfree₂ e h (hfewer₃.entry e h he)
  refine ⟨_, ?_, hb', ?_⟩
  · rw [HistNet.addHistory, hdrop₁, Option.bind_some, hc₁, Option.bind_some, hdrop₂,
      Option.bind_some, hdrop₃, Option.bind_some, henter]
  · exact {
      clients := hfewer.clients
      table := hfewer.table
      now := hfewer.now
      fault := hfewer.fault
      own := ⟨net₃.fresh, @cli_enlist_self net₃ c { r with hist := none } r.nick hc₃⟩
      cli := fun d hd => by
        have hsame : (net₃.enlist c r.nick).cli d = net₃.cli d := cli_enlist_of_ne hd
        exact hsame ▸ hfewer.cli d }

end

end HistNet

end Ithildin
