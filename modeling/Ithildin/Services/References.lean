import Ithildin.Services.Expiry

/-!
# The nicks that clients are taken to own

* `Registry`: the records of services, and the clients that are registered;
* `Registry.step`: clients come and go, and identify, register and drop nicks, and nicks expire;
* `Registry.Valid`: no client owns a nick that is gone, and the records refer to each other as they
  should;
* `Registry.valid_of_run`: that is so along suitable steps.
-/

namespace Ithildin

namespace NickStore

/-- Every nick is written to. -/
def mapNick (s : NickStore) (g : ℕ → NickRecord → NickRecord) : NickStore :=
  { s with nick := fun a => (s.nick a).map (g a) }

/-- A nick is created under its parent, and its mail contact counts one more. -/
def enroll (s : NickStore) (addr m : ℕ) (np : NickRecord) : NickStore :=
  let s := (s.modifyMail m fun mcp => { mcp with nicks := mcp.nicks + 1 }).regnickCreate addr np
  np.parent.elim s fun p => s.modifyNick p fun pp => { pp with links := addr :: pp.links }

variable {s s' : NickStore} {rank : ℕ → ℕ} {a m addr : ℕ} {np : NickRecord}

/-! ### Nicks are written to -/

/-- What a nick refers to is left as it is, and it is not marked as written. -/
def Keeps (f : NickRecord → NickRecord) : Prop :=
  ∀ np, (f np).parent = np.parent ∧ (f np).links = np.links ∧ (f np).email = np.email ∧
    (synced np = false → synced (f np) = false)

theorem modifyNick_eq (s : NickStore) (addr : ℕ) (f : NickRecord → NickRecord) :
    s.modifyNick addr f = s.mapNick fun a => if a = addr then f else id := by
  rw [modifyNick, mapNick]
  congr 1
  funext a
  by_cases ha : a = addr
  · rw [ha, Function.update_self, if_pos rfl]
  · rw [Function.update_of_ne ha, if_neg ha, Option.map_id, id]

theorem keeps_ite {f : NickRecord → NickRecord} (hf : Keeps f) (a : ℕ) :
    Keeps (if a = addr then f else id) := by
  split
  · exact hf
  · exact fun np => ⟨rfl, rfl, rfl, id⟩

theorem mapNick_eq_some {g : ℕ → NickRecord → NickRecord} {r : NickRecord} :
    (s.mapNick g).nick a = some r ↔ ∃ np, s.nick a = some np ∧ g a np = r := by
  rw [mapNick, Option.map_eq_some_iff]

theorem Sound.mapNick {g : ℕ → NickRecord → NickRecord} (h : Sound [] s) (hg : ∀ a, Keeps (g a)) :
    Sound [] (s.mapNick g) where
  nodup := h.nodup
  mem a := by
    rw [NickStore.mapNick, ne_eq, Option.map_eq_none_iff]
    exact h.mem a
  parent a r p ha hp := by
    obtain ⟨np, hnp, rfl⟩ := mapNick_eq_some.mp ha
    obtain ⟨pp, hpp, hmem⟩ := h.parent a np p hnp ((hg a np).1.symm.trans hp)
    exact ⟨g p pp, mapNick_eq_some.mpr ⟨pp, hpp, rfl⟩, (hg p pp).2.1 ▸ hmem⟩
  links p r hp := by
    obtain ⟨pp, hpp, rfl⟩ := mapNick_eq_some.mp hp
    rw [(hg p pp).2.1]
    obtain ⟨hnodup, hlinks⟩ := h.links p pp hpp
    refine ⟨hnodup, fun a ha => ?_⟩
    obtain ⟨np, hnp, hparent⟩ := hlinks a ha
    exact ⟨g a np, mapNick_eq_some.mpr ⟨np, hnp, rfl⟩, (hg a np).1.trans hparent⟩
  email a r ha hat := by
    obtain ⟨np, hnp, rfl⟩ := mapNick_eq_some.mp ha
    rw [(hg a np).2.2.1]
    exact h.email a np hnp hat
  count m mcp hm := by
    obtain ⟨hcount, hpos⟩ := h.count m mcp hm
    refine ⟨?_, hpos⟩
    rw [hcount, users, users]
    congr 2
    refine List.filter_congr fun x _ => ?_
    congr 1
    change _ = Option.any _ ((s.nick x).map (g x))
    cases s.nick x with
    | none => rfl
    | some np => rw [Option.map_some, Option.any_some, Option.any_some, (hg x np).2.2.1]
  mails := h.mails
  mem_mails := h.mem_mails

theorem Ranked.mapNick {g : ℕ → NickRecord → NickRecord} (h : Ranked rank s)
    (hg : ∀ a, Keeps (g a)) : Ranked rank (s.mapNick g) := by
  intro a r p ha hp
  obtain ⟨np, hnp, rfl⟩ := mapNick_eq_some.mp ha
  exact h a np p hnp ((hg a np).1.symm.trans hp)

theorem Unmarked.mapNick {g : ℕ → NickRecord → NickRecord} (h : Unmarked s)
    (hg : ∀ a, Keeps (g a)) : Unmarked (s.mapNick g) := by
  intro a r ha
  obtain ⟨np, hnp, rfl⟩ := mapNick_eq_some.mp ha
  exact (hg a np).2.2.2 (h a np hnp)

/-! ### A nick is created -/

theorem enroll_nick (s : NickStore) (addr m : ℕ) (np : NickRecord) (hself : np.parent ≠ some addr)
    (a : ℕ) : (s.enroll addr m np).nick a = if a = addr then some np else (s.nick a).map fun r =>
      if np.parent = some a then { r with links := addr :: r.links } else r := by
  rw [enroll]
  cases hp : np.parent with
  | none =>
    rw [Option.elim_none]
    dsimp only [regnickCreate, modifyMail]
    by_cases ha : a = addr
    · rw [ha, Function.update_self, if_pos rfl]
    · rw [Function.update_of_ne ha, if_neg ha]
      simp
  | some p =>
    have hne : addr ≠ p := by
      rintro rfl
      exact hself hp
    rw [Option.elim_some]
    dsimp only [modifyNick, regnickCreate, modifyMail]
    rw [Function.update_of_ne hne.symm]
    by_cases hap : a = p
    · subst hap
      rw [Function.update_self, if_neg hne.symm]
      simp
    · rw [Function.update_of_ne hap]
      by_cases ha : a = addr
      · rw [ha, Function.update_self, if_pos rfl]
      · rw [Function.update_of_ne ha, if_neg ha]
        simp [Ne.symm hap]

theorem enroll_rest (s : NickStore) (addr m : ℕ) (np : NickRecord) :
    (s.enroll addr m np).nicks = addr :: s.nicks ∧ (s.enroll addr m np).mails = s.mails ∧
      (s.enroll addr m np).contact = Function.update s.contact m
        ((s.contact m).map fun mcp => { mcp with nicks := mcp.nicks + 1 }) := by
  rw [enroll]
  cases np.parent <;> exact ⟨rfl, rfl, rfl⟩

/-- What becomes of a nick as another is created. -/
theorem enroll_eq_some (hself : np.parent ≠ some addr) {r : NickRecord} :
    (s.enroll addr m np).nick a = some r ↔ a = addr ∧ r = np ∨ a ≠ addr ∧ ∃ r₀, s.nick a = some r₀ ∧
      r = if np.parent = some a then { r₀ with links := addr :: r₀.links } else r₀ := by
  rw [enroll_nick s addr m np hself]
  split
  · rename_i ha
    simp [ha, eq_comm]
  · rename_i ha
    rw [Option.map_eq_some_iff]
    simp [ha, eq_comm]

/-- What a new nick has to be: nothing is linked to it, its mail contact is there, and its parent,
if it has one. -/
structure New (s : NickStore) (addr m : ℕ) (np : NickRecord) : Prop where
  fresh : s.nick addr = none
  links : np.links = []
  email : np.email = some m
  contact : s.contact m ≠ none
  parent : ∀ p, np.parent = some p → s.nick p ≠ none
  unmarked : synced np = false

theorem New.parent_ne (h : New s addr m np) : np.parent ≠ some addr :=
  fun hp => h.parent addr hp h.fresh

theorem New.ne_of_old (h : New s addr m np) {r₀ : NickRecord} (ha : s.nick a = some r₀) :
    a ≠ addr := by
  rintro rfl
  rw [h.fresh] at ha
  cases ha

/-- An old nick is still there, with one more nick linked to it if it is the parent. -/
theorem New.enroll_of_old (h : New s addr m np) {r₀ : NickRecord} (ha : s.nick a = some r₀) :
    ∃ r, (s.enroll addr m np).nick a = some r ∧ r.parent = r₀.parent ∧
      (∀ x ∈ r₀.links, x ∈ r.links) ∧ (np.parent = some a → addr ∈ r.links) := by
  refine ⟨_, (enroll_eq_some h.parent_ne).mpr (.inr ⟨h.ne_of_old ha, r₀, ha, rfl⟩), ?_,
    fun x hx => ?_, fun hp => ?_⟩
  · split <;> rfl
  · split
    · exact List.mem_cons_of_mem _ hx
    · exact hx
  · rw [if_pos hp]
    exact List.mem_cons_self

/-- The new nick is one more that uses its mail contact. -/
theorem New.users_enroll (h : New s addr m np) (hnotin : addr ∉ s.nicks) (m' : ℕ) :
    (s.enroll addr m np).users [] m' =
      if m' = m then addr :: s.users [] m' else s.users [] m' := by
  have htail : s.nicks.filter (fun a => decide (a ∉ []) &&
      ((s.enroll addr m np).nick a).any fun r => r.email == some m') = s.users [] m' := by
    refine List.filter_congr fun x hx => ?_
    have hne : x ≠ addr := fun heq => hnotin (heq ▸ hx)
    rw [enroll_nick s addr m np h.parent_ne, if_neg hne]
    congr 1
    cases s.nick x with
    | none => rfl
    | some r =>
      rw [Option.map_some, Option.any_some, Option.any_some]
      split <;> rfl
  rw [users, (enroll_rest s addr m np).1, List.filter_cons, htail,
    enroll_nick s addr m np h.parent_ne, if_pos rfl, Option.any_some, h.email]
  by_cases hmm : m' = m
  · simp [hmm]
  · simp [hmm, Ne.symm hmm]

theorem Sound.enroll (h : Sound [] s) (hnew : New s addr m np) : Sound [] (s.enroll addr m np) := by
  obtain ⟨hnicks, hmails, hcontact⟩ := enroll_rest s addr m np
  change _ = (s.modifyMail m fun mcp => { mcp with nicks := mcp.nicks + 1 }).contact at hcontact
  have hnotin : addr ∉ s.nicks := fun hin => (h.mem addr).mp hin hnew.fresh
  obtain ⟨mcp₀, hmcp₀⟩ := Option.ne_none_iff_exists'.mp hnew.contact
  constructor
  · exact hnicks ▸ List.nodup_cons.mpr ⟨hnotin, h.nodup⟩
  · intro a
    rw [hnicks, List.mem_cons, h.mem, enroll_nick s addr m np hnew.parent_ne]
    by_cases ha : a = addr
    · simp [ha]
    · simp [ha]
  · intro a r p ha hp
    rcases (enroll_eq_some hnew.parent_ne).mp ha with ⟨rfl, rfl⟩ | ⟨-, r₀, hr₀, heq⟩
    · obtain ⟨pp₀, hpp₀⟩ := Option.ne_none_iff_exists'.mp (hnew.parent p hp)
      obtain ⟨pp, hpp, -, -, hmem⟩ := hnew.enroll_of_old hpp₀
      exact ⟨pp, hpp, hmem hp⟩
    · have hp₀ : r₀.parent = some p := by
        rw [heq] at hp
        split at hp <;> exact hp
      obtain ⟨pp₀, hpp₀, hmem₀⟩ := h.parent a r₀ p hr₀ hp₀
      obtain ⟨pp, hpp, -, hmem, -⟩ := hnew.enroll_of_old hpp₀
      exact ⟨pp, hpp, hmem a hmem₀⟩
  · intro p pp hp
    rcases (enroll_eq_some hnew.parent_ne).mp hp with ⟨rfl, rfl⟩ | ⟨-, pp₀, hpp₀, heq⟩
    · rw [hnew.links]
      exact ⟨List.nodup_nil, fun a ha => absurd ha List.not_mem_nil⟩
    · obtain ⟨hnodup, hlinks⟩ := h.links p pp₀ hpp₀
      have hold : ∀ a ∈ pp₀.links, ∃ r, (s.enroll addr m np).nick a = some r ∧
          r.parent = some p := by
        intro a ha
        obtain ⟨r₀, hr₀, hpr⟩ := hlinks a ha
        obtain ⟨r, hr, hparent, -, -⟩ := hnew.enroll_of_old hr₀
        exact ⟨r, hr, hparent.trans hpr⟩
      rw [heq]
      split
      · rename_i hpar
        refine ⟨List.nodup_cons.mpr ⟨fun hin => ?_, hnodup⟩, fun a ha => ?_⟩
        · obtain ⟨r₀, hr₀, -⟩ := hlinks addr hin
          exact hnew.ne_of_old hr₀ rfl
        · rcases List.mem_cons.mp ha with rfl | ha
          · exact ⟨np, (enroll_eq_some hnew.parent_ne).mpr (.inl ⟨rfl, rfl⟩), hpar⟩
          · exact hold a ha
      · exact ⟨hnodup, hold⟩
  · intro a r ha _
    have hthere : ∀ m', s.contact m' ≠ none →
        ∃ mcp, (s.enroll addr m np).contact m' = some mcp := by
      intro m' hm'
      rw [hcontact]
      exact Option.ne_none_iff_exists'.mp (modifyMail_ne_none.mpr hm')
    rcases (enroll_eq_some hnew.parent_ne).mp ha with ⟨-, rfl⟩ | ⟨-, r₀, hr₀, heq⟩
    · obtain ⟨mcp, hmcp⟩ := hthere m hnew.contact
      exact ⟨m, mcp, hnew.email, hmcp⟩
    · obtain ⟨m', mcp', hm', hmcp'⟩ := h.email a r₀ hr₀ List.not_mem_nil
      obtain ⟨mcp, hmcp⟩ := hthere m' (by rw [hmcp']; simp)
      refine ⟨m', mcp, ?_, hmcp⟩
      rw [heq]
      split <;> exact hm'
  · intro m' mcp hm'
    rw [hcontact] at hm'
    rw [hnew.users_enroll hnotin]
    rcases (modifyMail_eq_some hmcp₀).mp hm' with ⟨rfl, rfl⟩ | ⟨hne, hm'⟩
    · obtain ⟨hcount, hpos⟩ := h.count m' mcp₀ hmcp₀
      rw [if_pos rfl, List.length_cons]
      push_cast
      exact ⟨by rw [← hcount], by omega⟩
    · rw [if_neg hne]
      exact h.count m' mcp hm'
  · exact hmails ▸ h.mails
  · intro m'
    rw [hmails, hcontact, h.mem_mails]
    exact modifyMail_ne_none.symm

theorem Ranked.enroll (h : Ranked rank s) (hs : Sound [] s) (hnew : New s addr m np) :
    Ranked (fun a => if a = addr then 0 else rank a + 1) (s.enroll addr m np) := by
  intro a r p ha hp
  rcases (enroll_eq_some hnew.parent_ne).mp ha with ⟨rfl, rfl⟩ | ⟨hne, r₀, hr₀, heq⟩
  · have hpa : p ≠ a := by
      rintro rfl
      exact hnew.parent_ne hp
    dsimp only
    rw [if_pos rfl, if_neg hpa]
    exact Nat.succ_pos _
  · have hp₀ : r₀.parent = some p := by
      rw [heq] at hp
      split at hp <;> exact hp
    have hpa : p ≠ addr := by
      rintro rfl
      obtain ⟨pp, hpp, -⟩ := hs.parent a r₀ p hr₀ hp₀
      rw [hnew.fresh] at hpp
      cases hpp
    dsimp only
    rw [if_neg hne, if_neg hpa]
    exact Nat.succ_lt_succ (h a r₀ p hr₀ hp₀)

theorem Unmarked.enroll (h : Unmarked s) (hnew : New s addr m np) :
    Unmarked (s.enroll addr m np) := by
  intro a r ha
  rcases (enroll_eq_some hnew.parent_ne).mp ha with ⟨-, rfl⟩ | ⟨-, r₀, hr₀, rfl⟩
  · exact hnew.unmarked
  · split <;> exact h a r₀ hr₀

/-! ### The records between two commands -/

/-- The records refer to each other as they should, no nick is below itself, and none is marked as
written. -/
structure Settled (s : NickStore) : Prop where
  sound : Sound [] s
  ranked : ∃ rank, Ranked rank s
  unmarked : Unmarked s

theorem Settled.mapNick {g : ℕ → NickRecord → NickRecord} (h : Settled s) (hg : ∀ a, Keeps (g a)) :
    Settled (s.mapNick g) where
  sound := h.sound.mapNick hg
  ranked := by
    obtain ⟨rank, hrank⟩ := h.ranked
    exact ⟨rank, hrank.mapNick hg⟩
  unmarked := h.unmarked.mapNick hg

theorem Settled.modifyNick {f : NickRecord → NickRecord} (h : Settled s) (hf : Keeps f) :
    Settled (s.modifyNick addr f) := by
  rw [modifyNick_eq]
  exact h.mapNick fun a => keeps_ite hf a

theorem Settled.enroll (h : Settled s) (hnew : New s addr m np) : Settled (s.enroll addr m np) where
  sound := h.sound.enroll hnew
  ranked := by
    obtain ⟨rank, hrank⟩ := h.ranked
    exact ⟨_, hrank.enroll h.sound hnew⟩
  unmarked := h.unmarked.enroll hnew

/-- A nick is destroyed, and what is below it; nothing else is. -/
theorem Settled.regnickDestroy (h : Settled s) (ha : s.nick a ≠ none) :
    ∃ s', s.regnickDestroy (s.nicks.length + 1) a = some s' ∧ Settled s' ∧
      ∀ x, s.nick x ≠ none → ¬ Below s x a → s'.nick x ≠ none := by
  obtain ⟨rank, hrank⟩ := h.ranked
  obtain ⟨np, hnp⟩ := Option.ne_none_iff_exists'.mp ha
  obtain ⟨s', hs', hd⟩ := h.sound.regnickDestroy (n := s.nicks.length + 1) hrank hnp
    (fun x hx => absurd hx List.not_mem_nil) (Nat.lt_succ_of_le (List.length_filter_le ..))
  refine ⟨s', hs', ⟨hd.sound, ⟨rank, hrank.shrunk hd.shrunk⟩, fun x r hx => ?_⟩,
    fun x hx hb hx' => ?_⟩
  · obtain ⟨r₀, hr₀, heq, -⟩ := hd.shrunk.nick x r hx
    rw [heq]
    exact h.unmarked x r₀ hr₀
  · exact hb (hd.below x hx hx')

theorem mem_of_dbFindNick {fold : Bytes → Bytes} {name : Bytes}
    (h : s.dbFindNick fold name = some a) :
    s.nick a ≠ none := by
  have hany := List.find?_some h
  obtain ⟨np, hnp, -⟩ := (Option.any_eq_true _ _).mp hany
  rw [hnp]
  simp

theorem contact_of_dbFindMail {address : Bytes} (h : s.dbFindMail address = some m) :
    s.contact m ≠ none := by
  have hany := List.find?_some h
  obtain ⟨mcp, hmcp, -⟩ := (Option.any_eq_true _ _).mp hany
  rw [hmcp]
  simp

end NickStore

/-! ### The service -/

/-- A client, with its `info`. -/
structure ServiceClient extends NickClient where
  info : Bytes

/-- The records of services, and the clients that are registered. -/
structure Registry where
  store : NickStore
  client : ℕ → Option ServiceClient

namespace Registry

open NickStore

variable (conf : NickServConf) (r : Registry)

/-- The records at the start, with no client. -/
def start (s : NickStore) : Registry := ⟨s, fun _ => none⟩

/-- The nick that a client is given as it signs on. -/
def givenNick (c : ServiceClient) : Option ℕ :=
  if c.mine then none
  else (r.store.dbFindNick conf.fold c.nick).filter fun addr => (r.store.nick addr).any fun np =>
    hasAccessToNick { c.toNickClient with owns := none } addr np.toRegnick NICK_IFL_ACCESS

/-- `nick_register_hook` for `register_client`. The data of a client starts out zeroed. -/
def registerHook (cli : ℕ) (c : ServiceClient) : Registry where
  store := (r.givenNick conf c).elim r.store fun addr =>
    r.store.modifyNick addr fun np => { np with flags := np.flags ||| NICK_IFL_MASKACCESS }
  client := Function.update r.client cli (some { c with owns := r.givenNick conf c })

/-- `nick_register_hook` for `unregister_client`. -/
def unregisterHook (cli : ℕ) (now : ℤ) : Option Registry :=
  let client := Function.update r.client cli none
  match r.client cli with
  | none => some r
  | some c =>
      match c.owns with
      | none => some ⟨r.store, client⟩
      | some addr =>
          if c.mine then some ⟨r.store, client⟩
          else if (r.store.nick addr).isSome then
            some ⟨r.store.modifyNick addr fun np =>
              { np with last := now, flags := np.flags &&& ~~~NICK_IFL_ACCESS }, client⟩
          else none

/-- `ns_identify`. -/
def nsIdentify (cli : ℕ) (nick : Option Bytes) (pass : Bytes) : Option Registry :=
  match r.client cli with
  | none => some r
  | some c =>
      match r.store.dbFindNick conf.fold (nick.getD c.nick) with
      | none => some r
      | some addr =>
          if (r.store.nick addr).any fun np => np.pass == pass then
            if c.owns.any fun old => (r.store.nick old).isNone then none
            else
              let s := c.owns.elim r.store fun old => r.store.modifyNick old fun np =>
                { np with intflags := np.intflags &&& ~~~NICK_IFL_ACCESS }
              some ⟨s.modifyNick addr fun np =>
                { np with intflags := np.intflags ||| NICK_IFL_IDACCESS },
                Function.update r.client cli (some { c with owns := some addr })⟩
          else some r

/-- What `ns_register` fills in of the client. -/
def newNick (c : ServiceClient) (pass : Bytes) (now : ℤ) (m : ℕ) : NickRecord where
  name := c.nick
  user := c.user
  host := c.host
  pass := pass
  info := c.info
  last := now
  regtime := now
  flags := 0
  intflags := 0
  alist := []
  parent := none
  email := some m
  links := []

/-- `ns_register`, with the key that is made up and where the new record will lie, which is not
where another does. A contact that is not there is written to, and so is what is behind the room for
a password. -/
def nsRegister (cli : ℕ) (pass arg : Bytes) (key : BitVec 64) (addr : ℕ) (now : ℤ) :
    Option Registry :=
  match r.client cli with
  | none => some r
  | some c =>
      if (r.store.nick addr).isSome ∨ (r.store.dbFindNick conf.fold c.nick).isSome then some r
      else if NickServ.isMail arg then
        match r.store.dbFindMail arg with
        | none => none
        | some m =>
            if (r.store.contact m).any fun mcp => decide (conf.mailNicks ≤ mcp.nicks) then some r
            else if NICK_PASSWDLEN < pass.length then none
            else
              let np := { newNick c pass now m with flags := key }
              some { r with store := r.store.enroll addr m np }
      else
        match r.store.dbFindNick conf.fold arg with
        | none => some r
        | some p =>
            match r.store.nick p with
            | none => none
            | some pp =>
                if ¬ hasAccessToNick c.toNickClient p pp.toRegnick NICK_IFL_IDACCESS then some r
                -- so this is the nick that the client is taken to own
                else if conf.linkedNicks ≤ pp.links.length then some r
                else
                  match pp.email with
                  | none => none
                  | some m =>
                      let np := { newNick c pass now m with
                        intflags := NICK_IFL_ACTIVATED, parent := some p }
                      if NICK_PASSWDLEN < pass.length then none
                      else some { r with store := r.store.enroll addr m np }

/-- `ns_drop`. -/
def nsDrop (cli : ℕ) (nick : Bytes) : Option Registry :=
  match r.client cli with
  | none => some r
  | some c =>
      match r.store.dbFindNick conf.fold nick with
      | none => some r
      | some addr =>
          if (r.store.nick addr).any fun np =>
              hasAccessToNick c.toNickClient addr np.toRegnick NICK_IFL_IDACCESS then
            (r.store.regnickDestroy (r.store.nicks.length + 1) addr).map fun s =>
              ⟨s, Function.update r.client cli (some { c with owns := none })⟩
          else some r

/-- `db_sync`. -/
def dbSync (now : ℤ) : Option Registry :=
  (dbWriteFile ⟨conf.expires, now⟩ r.store).map fun p => { r with store := p.1 }

/-- What may happen. -/
inductive Action
  | signOn (cli : ℕ) (c : ServiceClient)
  | signOff (cli : ℕ) (now : ℤ)
  | changeNick (cli : ℕ) (nick : Bytes)
  | identify (cli : ℕ) (nick : Option Bytes) (pass : Bytes)
  | register (cli : ℕ) (pass arg : Bytes) (key : BitVec 64) (addr : ℕ) (now : ℤ)
  | drop (cli : ℕ) (nick : Bytes)
  | sync (now : ℤ)

/-- One action; `none` if freed memory or a null pointer is touched, a buffer overflows or a loop
does not end. -/
def step : Action → Option Registry
  | .signOn cli c => if (r.client cli).isSome then some r else some (r.registerHook conf cli c)
  | .signOff cli now => r.unregisterHook cli now
  | .changeNick cli nick => some { r with
      client := Function.update r.client cli ((r.client cli).map fun c => { c with nick := nick }) }
  | .identify cli nick pass => r.nsIdentify conf cli nick pass
  | .register cli pass arg key addr now => r.nsRegister conf cli pass arg key addr now
  | .drop cli nick => r.nsDrop conf cli nick
  | .sync now => r.dbSync conf now

/-- What is to hold: no client owns a nick that is gone; a parent is there, and lists what is linked
to it once; each nick has a mail contact; and a mail contact counts the nicks that use it, which are
some. -/
structure Valid : Prop where
  owns : ∀ cli c a, r.client cli = some c → c.owns = some a → r.store.nick a ≠ none
  parent : ∀ a np p, r.store.nick a = some np → np.parent = some p →
    ∃ pp, r.store.nick p = some pp ∧ pp.links.count a = 1
  email : ∀ a np, r.store.nick a = some np → ∃ m mcp, np.email = some m ∧
    r.store.contact m = some mcp
  nodup : r.store.nicks.Nodup
  mem : ∀ a, a ∈ r.store.nicks ↔ r.store.nick a ≠ none
  count : ∀ m mcp, r.store.contact m = some mcp → 0 < mcp.nicks ∧
    mcp.nicks = (r.store.nicks.filter fun a => (r.store.nick a).any fun np =>
      np.email == some m).length

/-- A mail contact for the address is there, and the password has room if the nick is registered. -/
def MailSuits (arg pass : Bytes) : Prop :=
  ∃ m, r.store.dbFindMail arg = some m ∧ ∀ mcp, r.store.contact m = some mcp →
    mcp.nicks < conf.mailNicks → pass.length ≤ NICK_PASSWDLEN

/-- The password has room if the nick is linked to the one that is named. -/
def LinkSuits (c : ServiceClient) (arg pass : Bytes) : Prop :=
  ∀ p pp, r.store.dbFindNick conf.fold arg = some p → r.store.nick p = some pp →
    hasAccessToNick c.toNickClient p pp.toRegnick NICK_IFL_IDACCESS = true →
      (pp.links.length : ℤ) < conf.linkedNicks → pass.length ≤ NICK_PASSWDLEN

/-- No other client owns the nick, or one that is below it. -/
def DropSuits (cli : ℕ) (nick : Bytes) : Prop :=
  ∀ c addr np, r.client cli = some c → r.store.dbFindNick conf.fold nick = some addr →
    r.store.nick addr = some np →
    hasAccessToNick c.toNickClient addr np.toRegnick NICK_IFL_IDACCESS = true →
      ∀ cli' c' a, cli' ≠ cli → r.client cli' = some c' → c'.owns = some a → ¬ Below r.store a addr

/-- The actions that keep the references valid. -/
def Suitable : Action → Prop
  | .register cli pass arg _ _ _ => ∀ c, r.client cli = some c →
      r.store.dbFindNick conf.fold c.nick = none →
        if NickServ.isMail arg then r.MailSuits conf arg pass else r.LinkSuits conf c arg pass
  | .drop cli nick => r.DropSuits conf cli nick
  | .sync now => ∀ a np, r.store.nick a = some np → due ⟨conf.expires, now⟩ np = false
  | _ => True

/-! ### What the actions keep -/

variable {conf} {r}

/-- The records are settled, and what clients own is there. -/
structure Good (r : Registry) : Prop where
  settled : Settled r.store
  owns : ∀ cli c a, r.client cli = some c → c.owns = some a → r.store.nick a ≠ none

theorem keeps_flags (f : BitVec 64 → BitVec 64) :
    Keeps fun np => { np with flags := f np.flags } := fun _ => ⟨rfl, rfl, rfl, id⟩

theorem keeps_last (f : BitVec 64 → BitVec 64) (now : ℤ) :
    Keeps fun np => { np with last := now, flags := f np.flags } := fun _ => ⟨rfl, rfl, rfl, id⟩

theorem synced_eq_false {np : NickRecord} :
    synced np = false ↔ np.intflags &&& NICK_IFL_SYNCED = 0 := by
  rw [synced, decide_eq_false_iff_not, ne_eq, not_not]

theorem keeps_disown :
    Keeps fun np => { np with intflags := np.intflags &&& ~~~NICK_IFL_ACCESS } := by
  refine fun np => ⟨rfl, rfl, rfl, fun hsync => ?_⟩
  rw [synced_eq_false] at *
  dsimp only
  rw [BitVec.and_assoc, BitVec.and_comm (~~~_), ← BitVec.and_assoc, hsync]
  exact BitVec.zero_and

theorem keeps_identify :
    Keeps fun np => { np with intflags := np.intflags ||| NICK_IFL_IDACCESS } := by
  refine fun np => ⟨rfl, rfl, rfl, fun hsync => ?_⟩
  have hzero : NICK_IFL_IDACCESS &&& NICK_IFL_SYNCED = 0 := by decide
  rw [synced_eq_false] at *
  dsimp only
  rw [BitVec.and_or_distrib_right, hsync, hzero]
  exact BitVec.or_zero

theorem modifyNick_ne_none {s : NickStore} {addr a : ℕ} {f : NickRecord → NickRecord} :
    (s.modifyNick addr f).nick a ≠ none ↔ s.nick a ≠ none := by
  rw [modifyNick_eq, mapNick, ne_eq, Option.map_eq_none_iff]

/-- A client is written to, or is new, or is gone, and the nicks that are there stay. -/
theorem Good.update (h : Good r) {s : NickStore} {cli : ℕ} {c : Option ServiceClient}
    (hs : Settled s) (hkept : ∀ a, r.store.nick a ≠ none → s.nick a ≠ none)
    (hc : ∀ c' a, c = some c' → c'.owns = some a → s.nick a ≠ none) :
    Good ⟨s, Function.update r.client cli c⟩ := by
  refine ⟨hs, fun cli' c' a hc' ha => ?_⟩
  dsimp only at hc'
  by_cases heq : cli' = cli
  · rw [heq, Function.update_self] at hc'
    exact hc c' a hc' ha
  · rw [Function.update_of_ne heq] at hc'
    exact hkept a (h.owns cli' c' a hc' ha)

theorem givenNick_ne_none {c : ServiceClient} {a : ℕ} (h : r.givenNick conf c = some a) :
    r.store.nick a ≠ none := by
  rw [givenNick] at h
  split at h
  · cases h
  · obtain ⟨hfind, -⟩ := Option.filter_eq_some_iff.mp h
    exact mem_of_dbFindNick hfind

theorem Good.registerHook (h : Good r) (cli : ℕ) (c : ServiceClient) :
    Good (r.registerHook conf cli c) := by
  rw [Registry.registerHook]
  cases hgiven : r.givenNick conf c with
  | none =>
    refine h.update h.settled (fun a ha => ha) fun c' a hc' ha => ?_
    obtain rfl := Option.some.inj hc'
    cases ha
  | some addr =>
    have hfound := givenNick_ne_none hgiven
    refine h.update (h.settled.modifyNick (keeps_flags (· ||| NICK_IFL_MASKACCESS)))
      (fun a ha => modifyNick_ne_none.mpr ha) ?_
    intro c' a hc' ha
    obtain rfl := Option.some.inj hc'
    obtain rfl := Option.some.inj ha
    exact modifyNick_ne_none.mpr hfound

theorem Good.unregisterHook (h : Good r) (cli : ℕ) (now : ℤ) :
    ∃ r', r.unregisterHook cli now = some r' ∧ Good r' := by
  have hgone : ∀ s, Settled s → (∀ a, r.store.nick a ≠ none → s.nick a ≠ none) →
      Good ⟨s, Function.update r.client cli none⟩ :=
    fun s hs hkept => h.update hs hkept fun c' a hc' _ => by cases hc'
  rw [Registry.unregisterHook]
  cases hc : r.client cli with
  | none => exact ⟨_, rfl, h⟩
  | some c =>
    dsimp only
    cases ho : c.owns with
    | none => exact ⟨_, rfl, hgone _ h.settled fun a ha => ha⟩
    | some addr =>
      dsimp only
      split
      · exact ⟨_, rfl, hgone _ h.settled fun a ha => ha⟩
      · have hthere := h.owns cli c addr hc ho
        rw [if_pos (Option.isSome_iff_ne_none.mpr hthere)]
        exact ⟨_, rfl, hgone _ (h.settled.modifyNick (keeps_last (· &&& ~~~NICK_IFL_ACCESS) now))
          fun a ha => modifyNick_ne_none.mpr ha⟩

theorem Good.nsIdentify (h : Good r) (cli : ℕ) (nick : Option Bytes) (pass : Bytes) :
    ∃ r', r.nsIdentify conf cli nick pass = some r' ∧ Good r' := by
  rw [Registry.nsIdentify]
  cases hc : r.client cli with
  | none => exact ⟨_, rfl, h⟩
  | some c =>
    dsimp only
    cases hfind : r.store.dbFindNick conf.fold (nick.getD c.nick) with
    | none => exact ⟨_, rfl, h⟩
    | some addr =>
      dsimp only
      have hfound := mem_of_dbFindNick hfind
      split
      · have hthere : (c.owns.any fun old => (r.store.nick old).isNone) = false := by
          rw [Option.any_eq_false]
          intro old ho
          rw [Option.isNone_eq_false_iff, Option.isSome_iff_ne_none]
          exact h.owns cli c old hc ho
        rw [hthere, if_neg Bool.false_ne_true]
        -- the nick that the client had before is written to, and then the new one
        obtain ⟨hs, hkept⟩ : Settled (c.owns.elim r.store fun old =>
          r.store.modifyNick old fun np =>
              { np with intflags := np.intflags &&& ~~~NICK_IFL_ACCESS }) ∧
            ∀ a, (c.owns.elim r.store fun old => r.store.modifyNick old fun np =>
              { np with intflags := np.intflags &&& ~~~NICK_IFL_ACCESS }).nick a ≠ none ↔
                r.store.nick a ≠ none := by
          cases c.owns with
          | none => exact ⟨h.settled, fun a => Iff.rfl⟩
          | some old => exact ⟨h.settled.modifyNick keeps_disown, fun a => modifyNick_ne_none⟩
        refine ⟨_, rfl, h.update (hs.modifyNick keeps_identify)
          (fun a ha => modifyNick_ne_none.mpr ((hkept a).mpr ha)) fun c' a hc' ha => ?_⟩
        obtain rfl := Option.some.inj hc'
        obtain rfl := Option.some.inj ha
        exact modifyNick_ne_none.mpr ((hkept addr).mpr hfound)
      · exact ⟨_, rfl, h⟩

/-- A new nick leaves what clients own. -/
theorem Good.enroll (h : Good r) {addr m : ℕ} {np : NickRecord} (hnew : New r.store addr m np) :
    Good { r with store := r.store.enroll addr m np } := by
  refine ⟨h.settled.enroll hnew, fun cli c a hc ha => ?_⟩
  have hthere := h.owns cli c a hc ha
  dsimp only
  rw [enroll_nick _ _ _ _ hnew.parent_ne]
  split
  · simp
  · simpa using hthere

theorem Good.nsRegister (h : Good r) {cli : ℕ} {pass arg : Bytes} {key : BitVec 64} {addr : ℕ}
    {now : ℤ} (hsuit : Suitable conf r (.register cli pass arg key addr now)) :
    ∃ r', r.nsRegister conf cli pass arg key addr now = some r' ∧ Good r' := by
  rw [Registry.nsRegister]
  cases hc : r.client cli with
  | none => exact ⟨_, rfl, h⟩
  | some c =>
    dsimp only
    split
    · exact ⟨_, rfl, h⟩
    · rename_i hnot
      rw [not_or, Option.not_isSome_iff_eq_none, Option.not_isSome_iff_eq_none] at hnot
      obtain ⟨hfresh, hunused⟩ := hnot
      have hsuit := hsuit c hc hunused
      split
      · rename_i hmail
        rw [if_pos hmail] at hsuit
        obtain ⟨m, hm, hroom⟩ := hsuit
        have hcontact := contact_of_dbFindMail hm
        obtain ⟨mcp, hmcp⟩ := Option.ne_none_iff_exists'.mp hcontact
        rw [hm]
        dsimp only
        rw [hmcp, Option.any_some]
        split
        · exact ⟨_, rfl, h⟩
        · rename_i hlimit
          rw [decide_eq_true_eq, Int.not_le] at hlimit
          rw [if_neg (Nat.not_lt.mpr (hroom mcp hmcp hlimit))]
          refine ⟨_, rfl, h.enroll
            ⟨hfresh, rfl, rfl, hcontact, fun p hp => ?_, synced_eq_false.mpr ?_⟩⟩
          · cases hp
          · exact BitVec.zero_and
      · rename_i hmail
        rw [if_neg hmail] at hsuit
        cases hfind : r.store.dbFindNick conf.fold arg with
        | none => exact ⟨_, rfl, h⟩
        | some p =>
          dsimp only
          have hfound := mem_of_dbFindNick hfind
          obtain ⟨pp, hpp⟩ := Option.ne_none_iff_exists'.mp hfound
          rw [hpp]
          dsimp only
          split
          · exact ⟨_, rfl, h⟩
          · rename_i haccess
            split
            · exact ⟨_, rfl, h⟩
            · rename_i hlimit
              obtain ⟨m, mcp, hm, hmcp⟩ := h.settled.sound.email p pp hpp List.not_mem_nil
              rw [hm]
              dsimp only
              have hroom := hsuit p pp hfind hpp (not_not.mp haccess) (Int.not_le.mp hlimit)
              rw [if_neg (Nat.not_lt.mpr hroom)]
              refine ⟨_, rfl, h.enroll
                ⟨hfresh, rfl, rfl, by rw [hmcp]; simp, fun q hq => ?_, synced_eq_false.mpr ?_⟩⟩
              · obtain rfl := Option.some.inj hq
                exact hfound
              · change NICK_IFL_ACTIVATED &&& NICK_IFL_SYNCED = 0
                decide

theorem Good.nsDrop (h : Good r) {cli : ℕ} {nick : Bytes} (hsuit : r.DropSuits conf cli nick) :
    ∃ r', r.nsDrop conf cli nick = some r' ∧ Good r' := by
  rw [Registry.nsDrop]
  cases hc : r.client cli with
  | none => exact ⟨_, rfl, h⟩
  | some c =>
    dsimp only
    cases hfind : r.store.dbFindNick conf.fold nick with
    | none => exact ⟨_, rfl, h⟩
    | some addr =>
      dsimp only
      split
      · rename_i hany
        obtain ⟨np, hnp, haccess⟩ := (Option.any_eq_true _ _).mp hany
        obtain ⟨s, hs, hsettled, hkept⟩ := h.settled.regnickDestroy (mem_of_dbFindNick hfind)
        rw [hs]
        refine ⟨_, rfl, hsettled, fun cli' c' a hc' ha => ?_⟩
        dsimp only at hc'
        by_cases heq : cli' = cli
        · rw [heq, Function.update_self] at hc'
          obtain rfl := Option.some.inj hc'
          cases ha
        · rw [Function.update_of_ne heq] at hc'
          exact hkept a (h.owns cli' c' a hc' ha)
            (hsuit c addr np hc hfind hnp haccess cli' c' a heq hc' ha)
      · exact ⟨_, rfl, h⟩

/-- The walk takes off the marks that it has put on. -/
theorem finish_walkAt {s : NickStore} (hs : Sound [] s) (l : List ℕ) :
    (walkAt s l .done).finish = s.mapNick fun a np => { np with
      intflags := (if a ∈ l then np.intflags ||| NICK_IFL_SYNCED else np.intflags) &&&
        ~~~NICK_IFL_SYNCED } := by
  rw [Walk.finish, mapNick, walkAt, mark]
  congr 1
  funext a
  dsimp only
  cases ha : s.nick a with
  | none => simp
  | some np =>
    have hmem : a ∈ s.nicks := (hs.mem a).mpr (by simp [ha])
    rw [if_pos hmem, Option.map_some, Option.map_some, Option.map_some, Option.some.injEq]
    split <;> rfl

theorem keeps_clear (x : NickRecord → BitVec 64) :
    Keeps fun np => { np with intflags := x np &&& ~~~NICK_IFL_SYNCED } := by
  refine fun np => ⟨rfl, rfl, rfl, fun _ => ?_⟩
  have hzero : ~~~NICK_IFL_SYNCED &&& NICK_IFL_SYNCED = 0 := by decide
  rw [synced_eq_false]
  dsimp only
  rw [BitVec.and_assoc, hzero]
  exact BitVec.and_zero

theorem Good.dbSync (h : Good r) {now : ℤ}
    (hdue : ∀ a np, r.store.nick a = some np → due ⟨conf.expires, now⟩ np = false) :
    ∃ r', r.dbSync conf now = some r' ∧ Good r' := by
  rw [Registry.dbSync, dbWriteFile_eq h.settled.sound h.settled.unmarked hdue, Option.map_some,
    finish_walkAt h.settled.sound]
  refine ⟨_, rfl, h.settled.mapNick fun a => keeps_clear _, fun cli c a hc ha => ?_⟩
  have hthere := h.owns cli c a hc ha
  dsimp only
  rw [mapNick]
  simpa using hthere

theorem Good.step (h : Good r) {a : Action} (hsuit : Suitable conf r a) :
    ∃ r', r.step conf a = some r' ∧ Good r' := by
  cases a with
  | signOn cli c =>
    rw [Registry.step]
    split
    · exact ⟨_, rfl, h⟩
    · exact ⟨_, rfl, h.registerHook cli c⟩
  | signOff cli now => exact h.unregisterHook cli now
  | changeNick cli nick =>
    refine ⟨_, rfl, h.update h.settled (fun a ha => ha) fun c' a hc' ha => ?_⟩
    obtain ⟨c, hc, rfl⟩ := Option.map_eq_some_iff.mp hc'
    exact h.owns cli c a hc ha
  | identify cli nick pass => exact h.nsIdentify cli nick pass
  | register cli pass arg key addr now => exact h.nsRegister hsuit
  | drop cli nick => exact h.nsDrop hsuit
  | sync now => exact h.dbSync hsuit

theorem Good.valid (h : Good r) : Valid r where
  owns := h.owns
  parent a np p ha hp := by
    obtain ⟨pp, hpp, hmem⟩ := h.settled.sound.parent a np p ha hp
    exact ⟨pp, hpp, List.count_eq_one_of_mem (h.settled.sound.links p pp hpp).1 hmem⟩
  email a np ha := h.settled.sound.email a np ha List.not_mem_nil
  nodup := h.settled.sound.nodup
  mem := h.settled.sound.mem
  count m mcp hm := by
    obtain ⟨hcount, hpos⟩ := h.settled.sound.count m mcp hm
    refine ⟨hpos, ?_⟩
    rw [hcount, users]
    simp

/-- Along suitable actions nothing goes wrong, and the references stay valid. -/
theorem valid_of_run (conf : NickServConf) {s : NickStore} (hs : Settled s) {as : List Action}
    (hall : Run.Along (step conf) (Suitable conf) (start s) as) :
    ∃ r, Run.run (step conf) (start s) as = some r ∧ Valid r := by
  have hgood : ∀ (as : List Action) (r : Registry), Good r →
      Run.Along (step conf) (Suitable conf) r as →
        ∃ r', Run.run (step conf) r as = some r' ∧ Good r' := by
    intro as
    induction as with
    | nil => exact fun r h _ => ⟨r, rfl, h⟩
    | cons a as ih =>
      intro r h hall
      obtain ⟨r₁, hr₁, h₁⟩ := h.step hall.1
      obtain ⟨r', hr', h'⟩ := ih r₁ h₁ (hall.2 r₁ hr₁)
      exact ⟨r', Run.run_cons_eq_some.mpr ⟨r₁, hr₁, hr'⟩, h'⟩
  obtain ⟨r, hr, h⟩ := hgood as (start s) ⟨hs, fun cli c a hc _ => by cases hc⟩ hall
  exact ⟨r, hr, h.valid⟩

/-! ### One nick and two clients -/

def plainConf : NickServConf where
  fold s := s.map toLower
  expires := 100
  mailNicks := 3
  linkedNicks := 3
  nickAcclist := 3

/-- A client of this server, with a nick. -/
def plainClient (nick : Bytes) : ServiceClient where
  nick := nick
  user := bytes "user"
  host := bytes "nargothrond.org"
  ip := bytes "10.0.0.1"
  mine := true
  owns := none
  info := bytes "nobody"

theorem settled_loneNick : Settled (loneNick plainNick plainMail) where
  sound := sound_loneNick plainNick plainMail
  ranked := by
    refine ⟨id, fun a np p ha hp => ?_⟩
    obtain ⟨-, rfl⟩ := loneNick_eq ha
    cases hp
  unmarked := unmarked_loneNick

/-- A client identifies for the nick, and registers another that is linked to it. -/
def identifyLink : List Action :=
  [.signOn 0 (plainClient (bytes "luthien")), .identify 0 none (bytes "secret"),
    .changeNick 0 (bytes "nightingale"), .register 0 (bytes "song") (bytes "Luthien") 0 1 7]

theorem valid_of_run_identifyLink :
    ∃ r, Run.run (step plainConf) (start (loneNick plainNick plainMail)) identifyLink = some r ∧
      Valid r ∧ (r.store.nick 1).bind (fun np => np.parent) = some 0 := by
  have hall : Run.Along (step plainConf) (Suitable plainConf) (start (loneNick plainNick plainMail))
      identifyLink := by
    refine ⟨trivial, fun _ _ => ⟨trivial, fun _ _ => ⟨trivial, fun _ _ =>
      ⟨?_, fun _ _ => trivial⟩⟩⟩⟩
    intro c _ _
    rw [if_neg (by decide)]
    intro p pp _ _ _ _
    decide
  have hvals : (Run.run (step plainConf) (start (loneNick plainNick plainMail)) identifyLink).map
      (fun r => (r.store.nick 1).bind fun np => np.parent) = some (some 0) := by
    decide +kernel
  obtain ⟨r, hrun, hvalid⟩ := valid_of_run plainConf settled_loneNick hall
  rw [hrun] at hvals
  exact ⟨r, hrun, hvalid, Option.some.inj hvals⟩

/-- Two clients identify for the nick, and one of them drops it. -/
def identifyDrop : List Action :=
  [.signOn 0 (plainClient (bytes "luthien")), .signOn 1 (plainClient (bytes "beren")),
    .identify 0 none (bytes "secret"), .identify 1 (some (bytes "luthien")) (bytes "secret"),
    .drop 0 (bytes "luthien")]

/-- The other owns a nick that is gone. -/
theorem references_fail :
    ¬ ∀ (conf : NickServConf) (s : NickStore) (as : List Action) (r : Registry),
    Settled s → Run.run (step conf) (start s) as = some r → Valid r := by
  intro h
  have hvals : (Run.run (step plainConf) (start (loneNick plainNick plainMail)) identifyDrop).map
      (fun r => ((r.client 1).bind fun c => c.owns, (r.store.nick 0).isSome)) =
        some (some 0, false) := by
    decide +kernel
  obtain ⟨r, hrun, hval⟩ := Option.map_eq_some_iff.mp hvals
  obtain ⟨howns, hgone⟩ := Prod.mk.inj hval
  obtain ⟨c, hc, ho⟩ := Option.bind_eq_some_iff.mp howns
  have hvalid := h plainConf _ identifyDrop r settled_loneNick hrun
  exact hvalid.owns 1 c 0 hc ho (Option.not_isSome_iff_eq_none.mp (by rw [hgone]; decide))

end Registry

end Ithildin
