import Ithildin.Client.Usermode
import Ithildin.Lib.Census
import Ithildin.Lib.Run
import Mathlib.Tactic.Common

/-!
# The counters of clients

`create_client`, `register_client`, `user_mode` and `destroy_client` with the counters of
`ircd.stats`.

* `Counted`: what the counters are in every run;
* `exact_of_run`: the registered clients, those of ours and the visible ones are counted exactly,
  and the maxima are no smaller.
-/

namespace Ithildin

/-- `client_t`, as far as the counters go. `mine` is `MYCLIENT` and `conn` is whether there is a
connection. -/
structure StatClient where
  unknown : Bool
  registered : Bool
  history : Bool
  mine : Bool
  conn : Bool
  modes : UInt8 → Bool

/-- `ircd.stats` with the list of clients and the memory. A client stays in memory after it has been
taken off the list as long as the history has an entry for it. -/
structure ClientStats where
  mem : ℕ → Option StatClient
  clients : List ℕ
  fresh : ℕ
  netCur : ℤ
  netMax : ℤ
  netVis : ℤ
  servCur : ℤ
  servMax : ℤ
  servUnk : ℤ
  opers : ℤ

inductive StatAction
  /-- `create_client`, and the server its caller gives it at once -/
  | create (mine conn : Bool)
  /-- `register_client`; a client with a connection may be refused by a hook -/
  | register (id : ℕ) (denied : Bool)
  /-- The end of the NICK command of a server: `user_mode` on the new client, and
  `register_client` -/
  | introduce (id : ℕ) (priv : Bool) (ans : ℕ → UInt8 → Bool) (umodes : Bytes)
  /-- `user_mode` on a client that `find_client` has found or that is registered -/
  | umode (id : ℕ) (self priv : Bool) (ans : ℕ → UInt8 → Bool) (modes : Bytes)
  /-- `destroy_client` -/
  | destroy (id : ℕ) (ans : UInt8 → UInt8 → Bool)
  /-- `destroy_client` of a client whose entry the history has removed -/
  | forget (id : ℕ)

namespace ClientStats

variable (u : Umodes) (s : ClientStats)

/-- The server has just started. -/
def start : ClientStats where
  mem := fun _ => none
  clients := []
  fresh := 0
  netCur := 0
  netMax := 0
  netVis := 0
  servCur := 0
  servMax := 0
  servUnk := 0
  opers := 0

/-- `create_client` -/
def createClient (mine conn : Bool) : ClientStats :=
  { s with
    mem := Function.update s.mem s.fresh (some
      { unknown := true, registered := false, history := false, mine := mine, conn := conn
        modes := fun _ => false })
    clients := s.fresh :: s.clients
    fresh := s.fresh + 1
    servUnk := s.servUnk + 1 }

/-- What a mode change to a client touches. -/
def held (cli : StatClient) : Held := ⟨cli.modes, s.netVis, s.opers⟩

/-- Write back what a mode change has made of a client. -/
def putHeld (id : ℕ) (cli : StatClient) (h : Held) : ClientStats :=
  { s with
    mem := Function.update s.mem id (some { cli with modes := h.modes })
    netVis := h.visclients
    opers := h.opers }

section
variable {s} {id : ℕ} {cli : StatClient} {h : Held}

@[simp] theorem putHeld_clients : (s.putHeld id cli h).clients = s.clients := rfl

@[simp] theorem putHeld_netCur : (s.putHeld id cli h).netCur = s.netCur := rfl

@[simp] theorem putHeld_netVis : (s.putHeld id cli h).netVis = h.visclients := rfl

@[simp] theorem putHeld_servCur : (s.putHeld id cli h).servCur = s.servCur := rfl

@[simp] theorem putHeld_servUnk : (s.putHeld id cli h).servUnk = s.servUnk := rfl

end

/-- `user_mode` -/
def userMode (id : ℕ) (cli : StatClient) (self priv : Bool) (ans : ℕ → UInt8 → Bool)
    (modes : Bytes) : ClientStats :=
  s.putHeld id cli ((s.held cli).userMode u cli.mine self priv ans modes true)

/-- The part of `register_client` behind the hook. -/
def welcome (id : ℕ) (cli : StatClient) : ClientStats :=
  let s := if cli.mine then
      { s with
        servUnk := if cli.unknown then s.servUnk - 1 else s.servUnk
        servCur := s.servCur + 1
        servMax := if s.servMax < s.servCur + 1 then s.servMax + 1 else s.servMax }
    else s
  { s with
    mem := Function.update s.mem id (some
      { cli with unknown := cli.unknown && !cli.mine, registered := true })
    netVis := s.netVis + 1
    netCur := s.netCur + 1
    netMax := if s.netMax < s.netCur + 1 then s.netMax + 1 else s.netMax }

/-- The part of `destroy_client` for registered clients: the client goes into the history, its modes
are unset, and it is not counted any more. -/
def signOff (id : ℕ) (cli : StatClient) (ans : UInt8 → UInt8 → Bool) : ClientStats :=
  let h := (s.held cli).unsetAll u cli.mine ans
  let s := s.putHeld id { cli with history := true } h
  { s with
    servCur := if cli.mine then s.servCur - 1 else s.servCur
    netVis := s.netVis - 1
    netCur := s.netCur - 1 }

/-- `destroy_client` of a client on the list: what is not in the history is freed. -/
def destroyClient (id : ℕ) (cli : StatClient) (ans : UInt8 → UInt8 → Bool) : ClientStats :=
  let s := if cli.registered then s.signOff u id cli ans
    else { s with mem := Function.update s.mem id none }
  { s with
    servUnk := if cli.unknown then s.servUnk - 1 else s.servUnk
    clients := s.clients.erase id }

/-- `register_client` -/
def registerClient (id : ℕ) (cli : StatClient) (denied : Bool) : ClientStats :=
  if cli.mine && cli.conn && denied then s.destroyClient u id cli (fun _ _ => true)
  else s.welcome id cli

/-- A call. Clients are registered once, and the modes are those of registered clients, but for the
NICK command of a server. -/
def step : StatAction → Option ClientStats
  | .create mine conn => some (s.createClient mine conn)
  | .register id denied =>
    (s.mem id).bind fun cli =>
      if id ∈ s.clients ∧ cli.registered = false then some (s.registerClient u id cli denied)
      else none
  | .introduce id priv ans umodes =>
    (s.mem id).bind fun cli =>
      if id ∈ s.clients ∧ cli.registered = false ∧ cli.conn = false then
        let s := s.userMode u id cli true priv ans umodes
        (s.mem id).map fun cli => s.welcome id cli
      else none
  | .umode id self priv ans modes =>
    (s.mem id).bind fun cli =>
      if id ∈ s.clients ∧ cli.registered then some (s.userMode u id cli self priv ans modes)
      else none
  | .destroy id ans =>
    (s.mem id).bind fun cli =>
      if id ∈ s.clients then some (s.destroyClient u id cli ans) else none
  | .forget id =>
    (s.mem id).bind fun cli =>
      if cli.history then some { s with mem := Function.update s.mem id none } else none

/-! ### What is counted -/

/-- The number of clients on the list with a property. -/
def census (p : StatClient → Bool) : ℕ := Census.count p s.mem s.clients

/-- The counters are what they should be, but for the unknown clients: each client that is not
registered, or is registered at another server, counts for one. -/
structure Tallied : Prop where
  nodup : s.clients.Nodup
  live : ∀ id ∈ s.clients, ∃ cli, s.mem id = some cli ∧ cli.history = false ∧
    cli.unknown = !(cli.registered && cli.mine)
  fresh : ∀ id, s.fresh ≤ id → s.mem id = none
  netCur : s.netCur = s.census (·.registered)
  servCur : s.servCur = s.census fun cli => cli.registered && cli.mine
  netVis : s.netVis + s.census (·.modes umodeI) = s.census (·.registered)
  servUnk : s.servUnk = s.census (·.unknown)
  netMax : s.netCur ≤ s.netMax
  servMax : s.servCur ≤ s.servMax

/-- A client that is not registered has no modes yet. -/
def Plain : Prop :=
  ∀ id ∈ s.clients, ∀ cli, s.mem id = some cli → cli.registered = false →
    cli.modes umodeI = false

section
variable {u s} {id : ℕ} {cli cli' : StatClient}

theorem tallied_start : start.Tallied := by
  constructor <;> simp [start, census]

theorem plain_start : start.Plain := by simp [Plain, start]

theorem Tallied.lt_fresh (h : s.Tallied) (hc : s.mem id = some cli) : id < s.fresh := by
  by_contra hle
  rw [h.fresh id (not_lt.mp hle)] at hc
  cases hc

theorem Tallied.fresh_notMem (h : s.Tallied) : s.fresh ∉ s.clients := by
  intro hin
  obtain ⟨cli, hc, -⟩ := h.live _ hin
  exact (h.lt_fresh hc).false

/-- What the census says after a client on the list has changed. -/
theorem Tallied.census_update (h : s.Tallied) (hi : id ∈ s.clients) (hc : s.mem id = some cli)
    (p : StatClient → Bool) :
    Census.count p (Function.update s.mem id (some cli')) s.clients + (p cli).toNat =
      s.census p + (p cli').toNat := by
  have hcount := @Census.total_update _ _ (fun c => (p c).toNat) s.mem _ _ _ (some cli') h.nodup hi
  rwa [hc, Census.unit_some, Census.unit_some] at hcount

/-- What the census says after a client has been taken off the list. -/
theorem Tallied.census_erase (h : s.Tallied) (hi : id ∈ s.clients) (hc : s.mem id = some cli)
    (o : Option StatClient) (p : StatClient → Bool) :
    Census.count p (Function.update s.mem id o) (s.clients.erase id) + (p cli).toNat =
      s.census p := by
  have hcount := @Census.total_erase _ _ (fun c => (p c).toNat) s.mem _ _ _ hi
  have hnot : id ∉ s.clients.erase id := fun hin => (h.nodup.mem_erase_iff.mp hin).1 rfl
  rwa [hc, Census.unit_some, ← Census.total_update_of_notMem (o := o) hnot] at hcount

theorem Tallied.create (h : s.Tallied) (mine conn : Bool) : (s.createClient mine conn).Tallied := by
  have hcount : ∀ p : StatClient → Bool, (s.createClient mine conn).census p =
      (p { unknown := true, registered := false, history := false, mine := mine, conn := conn
           modes := fun _ => false }).toNat + s.census p := by
    intro p
    show Census.count p (Function.update s.mem s.fresh _) (s.fresh :: s.clients) = _
    rw [Census.count, Census.total_cons, Function.update_self, Census.unit_some,
      Census.total_update_of_notMem h.fresh_notMem]
    rfl
  constructor
  · exact List.nodup_cons.mpr ⟨h.fresh_notMem, h.nodup⟩
  · intro id hi
    show ∃ cli, Function.update s.mem s.fresh _ id = some cli ∧ _
    rcases List.mem_cons.mp hi with rfl | hi
    · exact ⟨_, Function.update_self .., rfl, rfl⟩
    · rw [Function.update_of_ne (ne_of_mem_of_not_mem hi h.fresh_notMem)]
      exact h.live id hi
  · intro id hid
    show Function.update s.mem s.fresh _ id = none
    have hne : id ≠ s.fresh := by
      intro heq
      rw [heq] at hid
      exact Nat.not_succ_le_self _ hid
    rw [Function.update_of_ne hne]
    exact h.fresh id (Nat.le_of_succ_le hid)
  · show s.netCur = _
    rw [hcount]
    simpa using h.netCur
  · show s.servCur = _
    rw [hcount]
    simpa using h.servCur
  · show s.netVis + _ = _
    rw [hcount, hcount]
    simpa using h.netVis
  · rw [hcount, Bool.toNat_true]
    have hunk := h.servUnk
    show s.servUnk + 1 = _
    push_cast
    omega
  · exact h.netMax
  · exact h.servMax

/-- A client on the list is written over, with the counters of visible clients and operators; the
modes are shown as before, and nothing else that is counted changes. -/
theorem Tallied.putHeld (h : s.Tallied) (hi : id ∈ s.clients) (hc : s.mem id = some cli)
    {h' : Held} (hshown : Held.Shown (s.held cli) h') : (s.putHeld id cli h').Tallied := by
  obtain ⟨c, hc', hhistory, hunknown⟩ := h.live id hi
  obtain rfl : cli = c := Option.some.inj (hc.symm.trans hc')
  have hcount : ∀ p : StatClient → Bool, p { cli with modes := h'.modes } = p cli →
      (s.putHeld id cli h').census p = s.census p := by
    intro p hp
    have hupdate : (s.putHeld id cli h').census p + (p cli).toNat =
        s.census p + (p { cli with modes := h'.modes }).toNat := h.census_update hi hc p
    rw [hp] at hupdate
    exact Nat.add_right_cancel hupdate
  constructor
  · exact h.nodup
  · intro j hj
    show ∃ c, Function.update s.mem id _ j = some c ∧ _
    by_cases hji : j = id
    · subst hji
      exact ⟨_, Function.update_self .., hhistory, hunknown⟩
    · rw [Function.update_of_ne hji]
      exact h.live j hj
  · intro j hj
    show Function.update s.mem id _ j = none
    rw [Function.update_of_ne]
    · exact h.fresh j hj
    · rintro rfl
      exact absurd (h.lt_fresh hc) (not_lt.mpr hj)
  · rw [hcount _ rfl]
    exact h.netCur
  · rw [hcount _ rfl]
    exact h.servCur
  · have hvis : (s.putHeld id cli h').census (·.modes umodeI) + (cli.modes umodeI).toNat =
        s.census (·.modes umodeI) + (h'.modes umodeI).toNat := h.census_update hi hc _
    have hnet := h.netVis
    rw [hcount (·.registered) rfl, putHeld_netVis]
    change h'.visclients + (h'.modes umodeI).toInt = s.netVis + (cli.modes umodeI).toInt at hshown
    cases hm : cli.modes umodeI <;> cases hm' : h'.modes umodeI <;>
      simp only [hm, hm', Bool.toNat_true, Bool.toNat_false, Bool.toInt_true, Bool.toInt_false]
        at hvis hshown <;> omega
  · rw [hcount _ rfl]
    exact h.servUnk
  · exact h.netMax
  · exact h.servMax

/-- A client that is not registered becomes so. -/
theorem Tallied.welcome (h : s.Tallied) (hi : id ∈ s.clients) (hc : s.mem id = some cli)
    (hreg : cli.registered = false) : (s.welcome id cli).Tallied := by
  obtain ⟨c, hc', hhistory, hunknown⟩ := h.live id hi
  obtain rfl : cli = c := Option.some.inj (hc.symm.trans hc')
  rw [hreg, Bool.false_and, Bool.not_false] at hunknown
  have hcount : ∀ p : StatClient → Bool, (s.welcome id cli).census p + (p cli).toNat =
      s.census p + (p { cli with unknown := !cli.mine, registered := true }).toNat := by
    intro p
    rw [← h.census_update hi hc p, census, ClientStats.welcome, hunknown, Bool.true_and]
    cases cli.mine <;> rfl
  have hregs := hcount (·.registered)
  have hmines := hcount fun cli => cli.registered && cli.mine
  have hvis := hcount (·.modes umodeI)
  have hunks := hcount (·.unknown)
  have hcur := h.netCur
  have hserv := h.servCur
  have hnet := h.netVis
  have hunk := h.servUnk
  have hmax := h.netMax
  have hsmax := h.servMax
  simp only [hreg, hunknown, Bool.false_and, Bool.true_and, Bool.toNat_true, Bool.toNat_false]
    at hregs hmines hvis hunks
  have hlists : (s.welcome id cli).clients = s.clients ∧ (s.welcome id cli).fresh = s.fresh ∧
      (s.welcome id cli).netCur = s.netCur + 1 ∧ (s.welcome id cli).netVis = s.netVis + 1 ∧
      (s.welcome id cli).netMax = (if s.netMax < s.netCur + 1 then s.netMax + 1 else s.netMax) ∧
      (s.welcome id cli).mem = Function.update s.mem id
        (some { cli with unknown := !cli.mine, registered := true }) := by
    rw [ClientStats.welcome, hunknown, Bool.true_and]
    cases cli.mine <;> exact ⟨rfl, rfl, rfl, rfl, rfl, rfl⟩
  obtain ⟨hclients, hfresh, hcur', hvis', hmax', hmem⟩ := hlists
  have hserv' : (s.welcome id cli).servCur = s.servCur + (cli.mine).toNat ∧
      (s.welcome id cli).servUnk = s.servUnk - (cli.mine).toNat ∧
      (s.welcome id cli).servCur ≤ (s.welcome id cli).servMax := by
    rw [ClientStats.welcome, hunknown]
    cases cli.mine
    · simpa using hsmax
    · simp only [if_true, Bool.toNat_true]
      refine ⟨rfl, rfl, ?_⟩
      split <;> omega
  constructor
  · rw [hclients]
    exact h.nodup
  · intro j hj
    rw [hclients] at hj
    rw [hmem]
    by_cases hji : j = id
    · subst hji
      exact ⟨_, Function.update_self .., hhistory, by simp⟩
    · rw [Function.update_of_ne hji]
      exact h.live j hj
  · intro j hj
    rw [hfresh] at hj
    rw [hmem, Function.update_of_ne]
    · exact h.fresh j hj
    · rintro rfl
      exact absurd (h.lt_fresh hc) (not_lt.mpr hj)
  · rw [hcur']
    omega
  · rw [hserv'.1]
    omega
  · rw [hvis']
    omega
  · rw [hserv'.2.1]
    cases hmine : cli.mine <;> simp only [hmine, Bool.not_true, Bool.not_false, Bool.toNat_true,
      Bool.toNat_false] at hunks ⊢ <;> omega
  · rw [hcur', hmax']
    split <;> omega
  · exact hserv'.2.2

/-- A client is destroyed; one that is not registered has no mode `i`. -/
theorem Tallied.destroy (h : s.Tallied) (hi : id ∈ s.clients) (hc : s.mem id = some cli)
    (hplain : cli.registered = false → cli.modes umodeI = false) (ans : UInt8 → UInt8 → Bool) :
    (s.destroyClient u id cli ans).Tallied := by
  obtain ⟨c, hc', hhistory, hunknown⟩ := h.live id hi
  obtain rfl : cli = c := Option.some.inj (hc.symm.trans hc')
  have hnot : id ∉ s.clients.erase id := fun hin => (h.nodup.mem_erase_iff.mp hin).1 rfl
  have hmem : ∃ o, (s.destroyClient u id cli ans).mem = Function.update s.mem id o := by
    rw [destroyClient]
    cases cli.registered <;> exact ⟨_, rfl⟩
  obtain ⟨o, hmem⟩ := hmem
  have hclients : (s.destroyClient u id cli ans).clients = s.clients.erase id := by
    rw [destroyClient]
    cases cli.registered <;> rfl
  have hfresh : (s.destroyClient u id cli ans).fresh = s.fresh := by
    rw [destroyClient]
    cases cli.registered <;> rfl
  have hcount : ∀ p : StatClient → Bool,
      (s.destroyClient u id cli ans).census p + (p cli).toNat = s.census p := by
    intro p
    rw [census, hmem, hclients]
    exact h.census_erase hi hc o p
  have hregs := hcount (·.registered)
  have hmines := hcount fun cli => cli.registered && cli.mine
  have hvis := hcount (·.modes umodeI)
  have hunks := hcount (·.unknown)
  have hcur := h.netCur
  have hserv := h.servCur
  have hnet := h.netVis
  have hunk := h.servUnk
  have hmax := h.netMax
  have hsmax := h.servMax
  have hnums : (s.destroyClient u id cli ans).netCur = s.netCur - (cli.registered).toNat ∧
      (s.destroyClient u id cli ans).servCur =
        s.servCur - (cli.registered && cli.mine).toNat ∧
      (s.destroyClient u id cli ans).netVis =
        s.netVis + (cli.modes umodeI).toNat - (cli.registered).toNat ∧
      (s.destroyClient u id cli ans).servUnk = s.servUnk - (cli.unknown).toNat ∧
      (s.destroyClient u id cli ans).netMax = s.netMax ∧
      (s.destroyClient u id cli ans).servMax = s.servMax := by
    rw [destroyClient]
    cases hreg : cli.registered
    · simp only [hplain hreg, Bool.false_eq_true, if_false]
      cases cli.unknown <;> simp
    · -- the modes are unset before the client is taken from the visible ones
      have hshown := @Held.unsetAll_shown u cli.mine (s.held cli) ans
      rw [Held.Shown, Held.unsetAll_i] at hshown
      change _ + 0 = s.netVis + (cli.modes umodeI).toInt at hshown
      simp only [if_true, signOff, putHeld_netCur, putHeld_netVis, putHeld_servCur,
        putHeld_servUnk, Bool.true_and, Bool.toNat_true]
      refine ⟨rfl, ?_, ?_, ?_, rfl, rfl⟩
      · cases cli.mine <;> simp
      · cases hm : cli.modes umodeI <;>
          simp only [hm, Bool.toInt_true, Bool.toInt_false, Bool.toNat_true,
            Bool.toNat_false] at hshown ⊢ <;> omega
      · cases cli.unknown <;> simp
  obtain ⟨hcur', hserv', hvis', hunk', hmax', hsmax'⟩ := hnums
  constructor
  · rw [hclients]
    exact h.nodup.erase id
  · intro j hj
    rw [hclients] at hj
    rw [hmem, Function.update_of_ne (ne_of_mem_of_not_mem hj hnot)]
    exact h.live j (List.mem_of_mem_erase hj)
  · intro j hj
    rw [hfresh] at hj
    rw [hmem, Function.update_of_ne]
    · exact h.fresh j hj
    · rintro rfl
      exact absurd (h.lt_fresh hc) (not_lt.mpr hj)
  · omega
  · omega
  · omega
  · omega
  · omega
  · omega

/-- What is not on the list does not count. -/
theorem Tallied.forget (h : s.Tallied) (hi : id ∉ s.clients) :
    ({ s with mem := Function.update s.mem id none } : ClientStats).Tallied := by
  have hcount : ∀ p : StatClient → Bool,
      ({ s with mem := Function.update s.mem id none } : ClientStats).census p = s.census p :=
    fun p => Census.total_update_of_notMem hi
  constructor
  · exact h.nodup
  · intro j hj
    show ∃ c, Function.update s.mem id _ j = some c ∧ _
    rw [Function.update_of_ne (ne_of_mem_of_not_mem hj hi)]
    exact h.live j hj
  · intro j hj
    show Function.update s.mem id _ j = none
    rw [Function.update_apply]
    split
    · rfl
    · exact h.fresh j hj
  · rw [hcount]
    exact h.netCur
  · rw [hcount]
    exact h.servCur
  · rw [hcount, hcount]
    exact h.netVis
  · rw [hcount]
    exact h.servUnk
  · exact h.netMax
  · exact h.servMax

/-! ### Steps -/

/-- What holds after every call. -/
structure Counted (s : ClientStats) : Prop extends s.Tallied where
  plain : s.Plain

theorem Counted.destroy (h : s.Counted) (hi : id ∈ s.clients) (hc : s.mem id = some cli)
    (ans : UInt8 → UInt8 → Bool) : (s.destroyClient u id cli ans).Counted := by
  refine ⟨h.toTallied.destroy hi hc (h.plain id hi cli hc) ans, fun j hj c hcj => ?_⟩
  have hclients : (s.destroyClient u id cli ans).clients = s.clients.erase id := by
    rw [destroyClient]
    cases cli.registered <;> rfl
  rw [hclients] at hj
  have hne : j ≠ id := (h.nodup.mem_erase_iff.mp hj).1
  have hmem : (s.destroyClient u id cli ans).mem j = s.mem j := by
    rw [destroyClient]
    cases cli.registered <;> exact Function.update_of_ne hne _ _
  rw [hmem] at hcj
  exact h.plain j (List.mem_of_mem_erase hj) c hcj

/-- Where a client has become registered, the others are as they were. -/
theorem Counted.of_registered (h : s.Counted) (id : ℕ) {s' : ClientStats} (h' : s'.Tallied)
    (hclients : s'.clients = s.clients) (hself : ∀ c, s'.mem id = some c → c.registered = true)
    (hmem : ∀ j, j ≠ id → s'.mem j = s.mem j) : s'.Counted := by
  refine ⟨h', fun j hj c hcj hreg => ?_⟩
  rw [hclients] at hj
  by_cases hji : j = id
  · subst hji
    rw [hself c hcj] at hreg
    cases hreg
  · rw [hmem j hji] at hcj
    exact h.plain j hj c hcj hreg

theorem welcome_mem (s : ClientStats) (id : ℕ) (cli : StatClient) :
    (s.welcome id cli).clients = s.clients ∧ (s.welcome id cli).mem = Function.update s.mem id
      (some { cli with unknown := cli.unknown && !cli.mine, registered := true }) := by
  rw [welcome]
  cases cli.mine <;> exact ⟨rfl, rfl⟩

theorem Counted.welcome (h : s.Counted) (hi : id ∈ s.clients) (hc : s.mem id = some cli)
    (hreg : cli.registered = false) : (s.welcome id cli).Counted := by
  obtain ⟨hclients, hmem⟩ := welcome_mem s id cli
  refine h.of_registered id (h.toTallied.welcome hi hc hreg) hclients (fun c hcj => ?_)
    fun j hj => by rw [hmem, Function.update_of_ne hj]
  rw [hmem, Function.update_self] at hcj
  exact congrArg StatClient.registered (Option.some.inj hcj).symm

theorem Counted.create (h : s.Counted) (mine conn : Bool) : (s.createClient mine conn).Counted := by
  refine ⟨h.toTallied.create mine conn, fun j hj c hcj hreg => ?_⟩
  change Function.update s.mem s.fresh _ j = some c at hcj
  rcases List.mem_cons.mp hj with rfl | hj
  · rw [Function.update_self] at hcj
    obtain rfl := Option.some.inj hcj
    rfl
  · rw [Function.update_of_ne (ne_of_mem_of_not_mem hj h.fresh_notMem)] at hcj
    exact h.plain j hj c hcj hreg

/-- The modes of a client, registered or about to be. -/
theorem Tallied.userMode (h : s.Tallied) (hi : id ∈ s.clients) (hc : s.mem id = some cli)
    (self priv : Bool) (ans : ℕ → UInt8 → Bool) (modes : Bytes) :
    (s.userMode u id cli self priv ans modes).Tallied :=
  h.putHeld hi hc (Held.userMode_shown _ _ _ _ _)

theorem userMode_mem (u : Umodes) (s : ClientStats) (id : ℕ) (cli : StatClient)
    (self priv : Bool) (ans : ℕ → UInt8 → Bool) (modes : Bytes) :
    ∃ m, (s.userMode u id cli self priv ans modes).mem =
      Function.update s.mem id (some { cli with modes := m }) := ⟨_, rfl⟩

theorem Counted.introduce (h : s.Counted) (hi : id ∈ s.clients) (hc : s.mem id = some cli)
    (hreg : cli.registered = false) (priv : Bool) (ans : ℕ → UInt8 → Bool) (umodes : Bytes)
    {cli' : StatClient}
    (hc' : (s.userMode u id cli true priv ans umodes).mem id = some cli') :
    ((s.userMode u id cli true priv ans umodes).welcome id cli').Counted := by
  have hmode := h.toTallied.userMode (u := u) hi hc true priv ans umodes
  obtain ⟨m, hmem⟩ := userMode_mem u s id cli true priv ans umodes
  have hreg' : cli'.registered = false := by
    rw [hmem, Function.update_self] at hc'
    obtain rfl := Option.some.inj hc'
    exact hreg
  obtain ⟨hclients, hwelcome⟩ := welcome_mem (s.userMode u id cli true priv ans umodes) id cli'
  refine h.of_registered id (hmode.welcome hi hc' hreg') hclients (fun c hcj => ?_)
    fun j hj => by rw [hwelcome, Function.update_of_ne hj, hmem, Function.update_of_ne hj]
  rw [hwelcome, Function.update_self] at hcj
  exact congrArg StatClient.registered (Option.some.inj hcj).symm

theorem Counted.umode (h : s.Counted) (hi : id ∈ s.clients) (hc : s.mem id = some cli)
    (hreg : cli.registered = true) (self priv : Bool) (ans : ℕ → UInt8 → Bool) (modes : Bytes) :
    (s.userMode u id cli self priv ans modes).Counted := by
  obtain ⟨m, hmem⟩ := userMode_mem u s id cli self priv ans modes
  refine h.of_registered id (h.toTallied.userMode hi hc self priv ans modes) rfl
    (fun c hcj => ?_) fun j hj => by rw [hmem, Function.update_of_ne hj]
  rw [hmem, Function.update_self] at hcj
  obtain rfl := Option.some.inj hcj
  exact hreg

theorem Counted.forget (h : s.Counted) (hc : s.mem id = some cli) (hhistory : cli.history = true) :
    ({ s with mem := Function.update s.mem id none } : ClientStats).Counted := by
  have hnot : id ∉ s.clients := by
    intro hi
    obtain ⟨c, hc', hfalse, -⟩ := h.live id hi
    obtain rfl := Option.some.inj (hc.symm.trans hc')
    rw [hhistory] at hfalse
    cases hfalse
  refine ⟨h.toTallied.forget hnot, fun j hj c hcj => ?_⟩
  change Function.update s.mem id none j = some c at hcj
  rw [Function.update_of_ne (ne_of_mem_of_not_mem hj hnot)] at hcj
  exact h.plain j hj c hcj

/-- A call keeps the counters right. -/
theorem Counted.step {a : StatAction} {s' : ClientStats} (h : s.Counted)
    (hstep : step u s a = some s') : s'.Counted := by
  cases a with
  | create mine conn =>
    obtain rfl := Option.some.inj hstep
    exact h.create mine conn
  | register id denied =>
    obtain ⟨cli, hc, hif⟩ := Option.bind_eq_some_iff.mp hstep
    obtain ⟨⟨hi, hreg⟩, ⟨⟩⟩ := Option.ite_none_right_eq_some.mp hif
    rw [registerClient]
    split
    · exact h.destroy hi hc _
    · exact h.welcome hi hc hreg
  | introduce id priv ans umodes =>
    obtain ⟨cli, hc, hif⟩ := Option.bind_eq_some_iff.mp hstep
    obtain ⟨⟨hi, hreg, -⟩, hmap⟩ := Option.ite_none_right_eq_some.mp hif
    obtain ⟨cli', hc', rfl⟩ := Option.map_eq_some_iff.mp hmap
    exact h.introduce hi hc hreg priv ans umodes hc'
  | umode id self priv ans modes =>
    obtain ⟨cli, hc, hif⟩ := Option.bind_eq_some_iff.mp hstep
    obtain ⟨⟨hi, hreg⟩, ⟨⟩⟩ := Option.ite_none_right_eq_some.mp hif
    exact h.umode hi hc hreg self priv ans modes
  | destroy id ans =>
    obtain ⟨cli, hc, hif⟩ := Option.bind_eq_some_iff.mp hstep
    obtain ⟨hi, ⟨⟩⟩ := Option.ite_none_right_eq_some.mp hif
    exact h.destroy hi hc ans
  | forget id =>
    obtain ⟨cli, hc, hif⟩ := Option.bind_eq_some_iff.mp hstep
    obtain ⟨hhistory, ⟨⟩⟩ := Option.ite_none_right_eq_some.mp hif
    exact h.forget hc hhistory

theorem counted_start : start.Counted := ⟨tallied_start, plain_start⟩

theorem tallies_of_run {as : List StatAction} (hrun : Run.run (step u) start as = some s) :
    s.Counted :=
  Run.run_induction (I := fun _ s => s.Counted) counted_start
    (fun _ _ _ _ h hstep => h.step hstep) hrun

/-! ### Registered clients -/

/-- The registered clients, those of ours and those without the mode `i` are counted, and no more of
them than ever before. -/
structure Exact (s : ClientStats) : Prop where
  netCur : s.netCur = s.census (·.registered)
  servCur : s.servCur = s.census fun cli => cli.registered && cli.mine
  netVis : s.netVis = s.census fun cli => cli.registered && !cli.modes umodeI
  netMax : s.netCur ≤ s.netMax
  servMax : s.servCur ≤ s.servMax

/-- Only registered clients have the mode `i`, so those without it are the rest of them. -/
theorem Counted.exact (h : s.Counted) : s.Exact where
  netCur := h.netCur
  servCur := h.servCur
  netVis := by
    have hsplit : s.census (·.registered) = _ := Census.count_eq_add (·.modes umodeI)
    have hi : s.census (fun cli => cli.registered && cli.modes umodeI) =
        s.census (·.modes umodeI) := by
      refine Census.count_congr fun id hid cli hc => ?_
      cases hreg : cli.registered with
      | true => rfl
      | false => rw [h.plain id hid cli hc hreg, Bool.false_and]
    have hvis := h.netVis
    change s.census (·.registered) = s.census (fun cli => cli.registered && cli.modes umodeI) +
      s.census (fun cli => cli.registered && !cli.modes umodeI) at hsplit
    omega
  netMax := h.netMax
  servMax := h.servMax

/-- In every run the counters of registered clients are exact. -/
theorem exact_of_run (u : Umodes) (as : List StatAction) (s : ClientStats)
    (hrun : Run.run (step u) start as = some s) : s.Exact :=
  (tallies_of_run hrun).exact

/-- The modes `i` and `o`. -/
def twoModes : Umodes where
  avail := [umodeI, umodeO]
  oper := fun _ => false
  preserve := fun _ => false
  avail_i := by simp
  oper_i := rfl
  oper_o := rfl

/-- A client connects, registers, becomes invisible and quits. -/
def oneVisit : List StatAction :=
  [.create true true, .register 0 false, .umode 0 true false (fun _ _ => true) (bytes "+i"),
    .destroy 0 fun _ _ => true]

theorem exact_of_run_oneVisit : ∃ s, Run.run (step twoModes) start oneVisit = some s ∧ s.Exact := by
  have hsome : (Run.run (step twoModes) start oneVisit).isSome := by decide
  obtain ⟨s, hrun⟩ := Option.isSome_iff_exists.mp hsome
  exact ⟨s, hrun, exact_of_run twoModes oneVisit s hrun⟩

end

end ClientStats

end Ithildin
