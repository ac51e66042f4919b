import Ithildin.Services.Nick

/-!
# Who is identified

The bits that say that the owner of a nick has given its password are on the record of the nick, and
each client that is taken for its owner points to the record. A client signing off clears them in
the wrong word.

* `NickServ.Personal`: access by password is given only to clients that gave it themselves;
* `NickServ.Lone`: no client comes to share a record that another one has identified for;
* `NickServ.personal_of_run_iff`: runs keep the first just when all their steps are the second.
-/

namespace Ithildin

/-! ### The bits of a nick -/

section
variable {x m : BitVec 64}

theorem idaccess_or (hm : m &&& NICK_IFL_IDACCESS = 0) :
    (x ||| m) &&& NICK_IFL_IDACCESS = x &&& NICK_IFL_IDACCESS := by
  rw [BitVec.and_comm, BitVec.and_or_distrib_left, BitVec.and_comm _ m, hm, BitVec.and_comm]
  exact BitVec.or_zero

theorem activated_idaccess : NICK_IFL_ACTIVATED &&& NICK_IFL_IDACCESS = 0 := by decide

theorem ne_zero_of_andNot (h : x &&& ~~~m &&& NICK_IFL_IDACCESS ≠ 0) :
    x &&& NICK_IFL_IDACCESS ≠ 0 := by
  rintro hzero
  apply h
  rw [BitVec.and_assoc, BitVec.and_comm (~~~m), ← BitVec.and_assoc, hzero]
  exact BitVec.zero_and

theorem idaccess_self : (x ||| NICK_IFL_IDACCESS) &&& NICK_IFL_IDACCESS ≠ 0 := by
  intro hzero
  have hbit := congrArg (BitVec.getLsbD · 7) hzero
  simp [NICK_IFL_IDACCESS] at hbit

end

theorem hasAccessToNick_idaccess {cli : NickClient} {addr : ℕ} {np : Regnick} :
    hasAccessToNick cli addr np NICK_IFL_IDACCESS = true ↔
      cli.owns = some addr ∧ np.idaccess = true := by
  have hid : ¬ NICK_IFL_IDACCESS = 0#64 := by decide
  have hmask : NICK_IFL_IDACCESS &&& NICK_IFL_MASKACCESS = 0 := by decide
  simp [hasAccessToNick, hid, hmask]

namespace NickServ

/-- A client has access to a nick by password only if it gave the password, since it signed on and
since the nick is there. -/
def Personal (s : NickServ) : Prop :=
  ∀ cli c addr np, s.client cli = some c → s.nick addr = some np →
    hasAccessToNick c addr np NICK_IFL_IDACCESS = true → (cli, addr) ∈ s.identified

/-- No client is given a nick by mask while that has access by password, and none identifies for a
nick that another client, who has not identified for it, is taken to own. -/
def Lone (conf : NickServConf) (s : NickServ) : NickAction → Prop
  | .signOn _ c => ∀ addr ∈ s.givenNick conf c, ∀ np ∈ s.nick addr, np.idaccess = false
  | .identify cli nick pass => ∀ addr ∈ s.passwordFor conf cli nick pass, ∀ d c,
      s.client d = some c → d ≠ cli → c.owns = some addr → (d, addr) ∈ s.identified
  | _ => True

/-- Those who have identified are clients. -/
def Known (s : NickServ) : Prop := ∀ p ∈ s.identified, (s.client p.1).isSome

/-- Nobody has access by password who had it not before, and nobody is forgotten who is still there,
as the nick is. -/
structure Kept (s t : NickServ) : Prop where
  owns : ∀ cli c', t.client cli = some c' → ∃ c, s.client cli = some c ∧
    ∀ addr, c'.owns = some addr → c.owns = some addr
  access : ∀ addr np', t.nick addr = some np' → np'.idaccess = true →
    ∃ np, s.nick addr = some np ∧ np.idaccess = true
  stays : ∀ cli addr, (cli, addr) ∈ s.identified → (t.client cli).isSome → (t.nick addr).isSome →
    (cli, addr) ∈ t.identified
  known : ∀ p ∈ t.identified, p ∈ s.identified ∧ ((s.client p.1).isSome → (t.client p.1).isSome)

section
variable {conf : NickServConf} {s t u : NickServ} {cli addr : ℕ}

theorem personal_iff : s.Personal ↔ ∀ cli c addr np, s.client cli = some c → s.nick addr = some np →
    c.owns = some addr → np.idaccess = true → (cli, addr) ∈ s.identified := by
  simp only [Personal, hasAccessToNick_idaccess, and_imp]

theorem Kept.personal (h : Kept s t) (hs : s.Personal) : t.Personal := by
  rw [personal_iff] at hs ⊢
  intro cli c' addr np' hc' hnp' howns haccess
  obtain ⟨c, hc, hsame⟩ := h.owns cli c' hc'
  obtain ⟨np, hnp, hid⟩ := h.access addr np' hnp' haccess
  have hmem := hs cli c addr np hc hnp (hsame addr howns) hid
  exact h.stays cli addr hmem (by rw [hc']; rfl) (by rw [hnp']; rfl)

theorem Kept.isKnown (h : Kept s t) (hs : s.Known) : t.Known := fun p hp =>
  (h.known p hp).2 (hs p (h.known p hp).1)

theorem Kept.refl (s : NickServ) : Kept s s where
  owns := fun _ c hc => ⟨c, hc, fun _ h => h⟩
  access := fun _ np hnp hid => ⟨np, hnp, hid⟩
  stays := fun _ _ h _ _ => h
  known := fun _ hp => ⟨hp, fun h => h⟩

/-! ### What the operations do to records -/

theorem nick_modifyNick (s : NickServ) (addr a : ℕ) (f : Regnick → Regnick) :
    (s.modifyNick addr f).nick a = if a = addr then (s.nick addr).map f else s.nick a :=
  Function.update_apply s.nick addr _ a

theorem client_modifyClient (s : NickServ) (cli d : ℕ) (f : NickClient → NickClient) :
    (s.modifyClient cli f).client d = if d = cli then (s.client cli).map f else s.client d :=
  Function.update_apply s.client cli _ d

/-- A function of a record that gives no access by password. -/
def Mild (f : Regnick → Regnick) : Prop := ∀ np, (f np).idaccess = true → np.idaccess = true

theorem mild_or {m : BitVec 64} (hm : m &&& NICK_IFL_IDACCESS = 0) :
    Mild fun np => { np with intflags := np.intflags ||| m } := by
  intro np h
  rw [Regnick.idaccess, decide_eq_true_eq] at h ⊢
  rwa [idaccess_or hm] at h

theorem mild_andNot (m : BitVec 64) :
    Mild fun np => { np with intflags := np.intflags &&& ~~~m } := by
  intro np h
  rw [Regnick.idaccess, decide_eq_true_eq] at h ⊢
  exact ne_zero_of_andNot h

theorem kept_of_nicks {f : ℕ → Regnick → Regnick} (hf : ∀ a, Mild (f a))
    (hnick : ∀ a, t.nick a = (s.nick a).map (f a)) (hclient : t.client = s.client)
    (hid : t.identified = s.identified) : Kept s t where
  owns := by
    intro cli c' hc'
    rw [hclient] at hc'
    exact ⟨c', hc', fun _ h => h⟩
  access := by
    intro addr np' hnp' haccess
    rw [hnick, Option.map_eq_some_iff] at hnp'
    obtain ⟨np, hnp, rfl⟩ := hnp'
    exact ⟨np, hnp, hf addr np haccess⟩
  stays := by
    intro cli addr hmem _ _
    rwa [hid]
  known := by
    intro p hp
    rw [hid] at hp
    rw [hclient]
    exact ⟨hp, fun h => h⟩

theorem kept_modifyNick (addr : ℕ) {f : Regnick → Regnick} (hf : Mild f) :
    Kept s (s.modifyNick addr f) := by
  refine @kept_of_nicks s _ (fun a => if a = addr then f else id) (fun a => ?_) (fun a => ?_) rfl
    rfl
  · show Mild (if a = addr then f else id)
    split
    · exact hf
    · exact fun _ h => h
  · rw [nick_modifyNick]
    split
    · rename_i heq
      rw [heq]
    · simp

theorem Kept.forget (h : Kept s t) (cli : ℕ) : Kept s (t.forget cli) where
  owns := by
    intro d c' hc'
    have hupd : Function.update t.client cli none d = some c' := hc'
    rw [Function.update_apply] at hupd
    split at hupd
    · exact absurd hupd (by simp)
    · exact h.owns d c' hupd
  access := h.access
  stays := by
    intro d addr hmem hd haddr
    have hupd : (Function.update t.client cli none d).isSome := hd
    rw [Function.update_apply] at hupd
    split at hupd
    · exact absurd hupd (by simp)
    · rename_i hne
      exact List.mem_filter.mpr ⟨h.stays d addr hmem hupd haddr, by simpa using hne⟩
  known := by
    intro p hp
    obtain ⟨hp, hne⟩ := List.mem_filter.mp hp
    obtain ⟨hold, hthere⟩ := h.known p hp
    have hne' : p.1 ≠ cli := by simpa using hne
    refine ⟨hold, fun hs => ?_⟩
    show (Function.update t.client cli none p.1).isSome
    rw [Function.update_of_ne hne']
    exact hthere hs

theorem kept_modifyClient (cli : ℕ) {f : NickClient → NickClient}
    (hf : ∀ c addr, (f c).owns = some addr → c.owns = some addr) :
    Kept s (s.modifyClient cli f) where
  owns := by
    intro d c' hc'
    rw [client_modifyClient] at hc'
    split at hc'
    · rename_i heq
      obtain ⟨c, hc, rfl⟩ := Option.map_eq_some_iff.mp hc'
      exact ⟨c, heq ▸ hc, hf c⟩
    · exact ⟨c', hc', fun _ h => h⟩
  access := fun _ np hnp hid => ⟨np, hnp, hid⟩
  stays := fun _ _ h _ _ => h
  known := by
    intro p hp
    refine ⟨hp, fun hs => ?_⟩
    rw [client_modifyClient]
    split
    · rename_i heq
      rw [Option.isSome_map, ← heq]
      exact hs
    · exact hs

theorem Kept.regnickDestroy (h : Kept s t) (addr : ℕ) : Kept s (t.regnickDestroy addr) where
  owns := h.owns
  access := by
    intro a np' hnp' haccess
    have hnick : (if a ∈ t.linked addr t.nicks then none else t.nick a) = some np' := hnp'
    split at hnick
    · exact absurd hnick (by simp)
    · exact h.access a np' hnick haccess
  stays := by
    intro cli a hmem hcli ha
    have hnick : (if a ∈ t.linked addr t.nicks then none else t.nick a).isSome := ha
    split at hnick
    · exact absurd hnick (by simp)
    · rename_i hnot
      exact List.mem_filter.mpr ⟨h.stays cli a hmem hcli hnick, by simpa using hnot⟩
  known := fun p hp => h.known p (List.mem_of_mem_filter hp)

theorem kept_regnickCreate {np : Regnick} (hid : np.idaccess = false) :
    Kept s (s.regnickCreate addr np) where
  owns := fun _ c hc => ⟨c, hc, fun _ h => h⟩
  access := by
    intro a np' hnp' haccess
    have hnick : Function.update s.nick addr (some np) a = some np' := hnp'
    rw [Function.update_apply] at hnick
    split at hnick
    · obtain rfl := Option.some.inj hnick
      rw [hid] at haccess
      exact absurd haccess (by simp)
    · exact ⟨np', hnick, haccess⟩
  stays := fun _ _ h _ _ => h
  known := fun _ hp => ⟨hp, fun h => h⟩

/-! ### The steps that are mild -/

theorem kept_unregisterHook {now : ℤ} (h : s.unregisterHook cli now = some t) : Kept s t := by
  unfold unregisterHook at h
  split at h
  · exact absurd h (by simp)
  · split at h
    · obtain rfl := Option.some.inj h
      exact (Kept.refl s).forget cli
    · split at h
      · obtain rfl := Option.some.inj h
        exact (Kept.refl s).forget cli
      · split at h
        · obtain rfl := Option.some.inj h
          refine Kept.forget (kept_modifyNick _ ?_) cli
          exact fun _ h => h
        · exact absurd h (by simp)

theorem kept_nsRegister {pass arg : Bytes} {contact : Option ℤ} {key : BitVec 64} {now : ℤ}
    (h : s.nsRegister conf cli pass arg contact key addr now = some t) : Kept s t := by
  have hsame : some s = some t → Kept s t := by
    intro heq
    obtain rfl := Option.some.inj heq
    exact .refl s
  have hnew : ∀ np : Regnick, np.intflags &&& NICK_IFL_IDACCESS = 0 →
      some (s.regnickCreate addr np) = some t →
      Kept s t := by
    intro np hid heq
    obtain rfl := Option.some.inj heq
    exact kept_regnickCreate (decide_eq_false (not_not.mpr hid))
  obtain ⟨c, hc, h⟩ := Option.bind_eq_some_iff.mp h
  split at h
  · exact hsame h
  split at h
  · split at h
    · exact hsame h
    split at h
    · exact absurd h (by simp)
    · exact hnew _ BitVec.zero_and h
  · split at h
    · exact hsame h
    split at h
    · exact hsame h
    split at h
    · exact hsame h
    split at h
    · exact absurd h (by simp)
    · exact hnew _ activated_idaccess h

theorem kept_nsDrop {nick : Bytes} (h : s.nsDrop conf cli nick = some t) : Kept s t := by
  obtain ⟨c, hc, h⟩ := Option.bind_eq_some_iff.mp h
  split at h
  · obtain rfl := Option.some.inj h
    exact .refl s
  · split_ifs at h with haccess
    · obtain rfl := Option.some.inj h
      exact (kept_modifyClient cli fun _ _ h => absurd h (by simp)).regnickDestroy _
    · obtain rfl := Option.some.inj h
      exact .refl s

theorem kept_nsAuth {nick : Bytes} {key : BitVec 64} : Kept s (s.nsAuth conf nick key) := by
  unfold nsAuth
  split
  · exact .refl s
  · refine kept_modifyNick _ fun np haccess => ?_
    split_ifs at haccess with hbad
    · exact haccess
    · have hnp := mild_andNot NICK_IFL_MAILED
        { np with flags := 0, intflags := np.intflags ||| NICK_IFL_ACTIVATED } haccess
      exact mild_or (by decide) np hnp

theorem kept_nsAccess {op : AccessOp} (h : s.nsAccess conf cli op = some t) : Kept s t := by
  obtain ⟨c, hc, h⟩ := Option.bind_eq_some_iff.mp h
  split at h
  · obtain rfl := Option.some.inj h
    exact .refl s
  · obtain rfl := Option.some.inj h
    refine kept_modifyNick _ fun np haccess => ?_
    split_ifs at haccess <;> exact haccess

theorem kept_dbSync {now : ℤ} (h : s.dbSync conf now = some t) : Kept s t := by
  unfold dbSync at h
  split_ifs at h
  obtain rfl := Option.some.inj h
  refine @kept_of_nicks s _ (fun a np => if a ∈ s.nicks then
    { np with intflags := np.intflags &&& ~~~NICK_IFL_SYNCED } else np) (fun a np haccess => ?_)
    (fun a => ?_) rfl rfl
  · split_ifs at haccess
    · exact mild_andNot _ np haccess
    · exact haccess
  · show (if a ∈ s.nicks then _ else _) = _
    split_ifs
    · rfl
    · simp

theorem kept_mailSend : Kept s s.mailSend := by
  refine @kept_of_nicks s _ (fun a np => if a ∈ s.nicks then
    { np with intflags := np.intflags ||| NICK_IFL_MAILED } else np) (fun a np haccess => ?_)
    (fun a => ?_) rfl rfl
  · split_ifs at haccess
    · exact mild_or (by decide) np haccess
    · exact haccess
  · show (if a ∈ s.nicks then _ else _) = _
    split_ifs
    · rfl
    · simp

/-! ### Signing on -/

theorem nick_registerHook (c : NickClient) (a : ℕ) :
    (s.registerHook conf cli c).nick a = (s.nick a).map fun np =>
      if s.givenNick conf c = some a then { np with flags := np.flags ||| NICK_IFL_MASKACCESS }
      else np := by
  unfold registerHook
  cases s.givenNick conf c with
  | none => simp
  | some addr =>
    show (s.modifyNick addr _).nick a = _
    rw [nick_modifyNick]
    by_cases ha : a = addr
    · simp [ha]
    · simp [ha, Ne.symm ha]

theorem client_registerHook (c : NickClient) (d : ℕ) :
    (s.registerHook conf cli c).client d =
      if d = cli then some { c with owns := s.givenNick conf c } else s.client d := by
  have hsame : ((s.givenNick conf c).elim s fun addr => s.modifyNick addr fun np =>
      { np with flags := np.flags ||| NICK_IFL_MASKACCESS }).client = s.client := by
    cases s.givenNick conf c <;> rfl
  show Function.update s.client cli _ d = _
  rw [Function.update_apply]

theorem identified_registerHook (c : NickClient) :
    (s.registerHook conf cli c).identified = s.identified := by
  unfold registerHook
  cases s.givenNick conf c <;> rfl

/-- A client that signs on gets access by password exactly if the nick it is given has it. -/
theorem personal_registerHook {c : NickClient} (hknown : s.Known) (hs : s.Personal)
    (hnew : ¬ (s.client cli).isSome) :
    (s.registerHook conf cli c).Personal ↔ Lone conf s (.signOn cli c) := by
  rw [personal_iff] at hs ⊢
  constructor
  · intro h addr haddr np hnp
    by_contra hid
    have hclient : (s.registerHook conf cli c).client cli = some { c with owns := some addr } := by
      rw [client_registerHook, if_pos rfl, Option.mem_def.mp haddr]
    have hnick : (s.registerHook conf cli c).nick addr =
        some { np with flags := np.flags ||| NICK_IFL_MASKACCESS } := by
      rw [nick_registerHook, Option.mem_def.mp hnp, Option.map_some,
        if_pos (Option.mem_def.mp haddr)]
    have hmem := h cli _ addr _ hclient hnick rfl ((Bool.not_eq_false _).mp hid)
    rw [identified_registerHook] at hmem
    exact hnew (hknown _ hmem)
  · intro h d c' a np' hc' hnp' howns haccess
    rw [identified_registerHook]
    rw [nick_registerHook, Option.map_eq_some_iff] at hnp'
    obtain ⟨np, hnp, rfl⟩ := hnp'
    have hid : np.idaccess = true := by
      split_ifs at haccess <;> exact haccess
    rw [client_registerHook] at hc'
    split_ifs at hc' with hd
    · obtain rfl := Option.some.inj hc'
      rw [h a howns np hnp] at hid
      exact absurd hid (by simp)
    · exact hs d c' a np hc' hnp howns hid

/-! ### Identifying -/

theorem nick_disown (owned : Option ℕ) (a : ℕ) :
    ((s.disown owned).nick a).isSome = (s.nick a).isSome := by
  cases owned with
  | none => rfl
  | some old =>
    show ((s.modifyNick old _).nick a).isSome = _
    rw [nick_modifyNick]
    split_ifs with ha
    · rw [Option.isSome_map, ha]
    · rfl

theorem kept_disown (owned : Option ℕ) : Kept s (s.disown owned) := by
  cases owned with
  | none => exact .refl s
  | some old => exact kept_modifyNick old (mild_andNot _)

theorem nick_identifyFor (a : ℕ) :
    (s.identifyFor cli addr).nick a = if a = addr then
      (s.nick addr).map fun np => { np with intflags := np.intflags ||| NICK_IFL_IDACCESS }
      else s.nick a :=
  nick_modifyNick s addr a _

theorem client_identifyFor (d : ℕ) :
    (s.identifyFor cli addr).client d = if d = cli then
      (s.client cli).map fun c => { c with owns := some addr } else s.client d :=
  client_modifyClient _ cli d _

theorem client_disown (owned : Option ℕ) : (s.disown owned).client = s.client := by
  cases owned <;> rfl

theorem identified_disown (owned : Option ℕ) : (s.disown owned).identified = s.identified := by
  cases owned <;> rfl

theorem isSome_of_passwordFor {nick : Option Bytes} {pass : Bytes}
    (h : s.passwordFor conf cli nick pass = some addr) : (s.nick addr).isSome := by
  obtain ⟨c, -, hfilter⟩ := Option.bind_eq_some_iff.mp h
  have hpass := (Option.filter_eq_some_iff.mp hfilter).2
  cases hnp : s.nick addr with
  | none =>
    rw [hnp] at hpass
    exact absurd hpass (by simp)
  | some np => rfl

/-- When a client has identified, whoever was taken for the owner has access by password. -/
theorem personal_nsIdentify {nick : Option Bytes} {pass : Bytes} (hs : s.Personal)
    (h : s.nsIdentify conf cli nick pass = some t) :
    t.Personal ↔ Lone conf s (.identify cli nick pass) := by
  obtain ⟨c, hc, h⟩ := Option.bind_eq_some_iff.mp h
  split at h
  · rename_i hnone
    obtain rfl := Option.some.inj h
    refine ⟨fun _ addr haddr => ?_, fun _ => hs⟩
    rw [hnone] at haddr
    exact absurd haddr (by simp)
  rename_i addr haddr
  split at h
  · exact absurd h (by simp)
  obtain rfl := Option.some.inj h
  have hthere := isSome_of_passwordFor haddr
  rw [← nick_disown c.owns, Option.isSome_iff_exists] at hthere
  obtain ⟨np, hnp⟩ := hthere
  have hmild := (@kept_disown s c.owns).access
  rw [personal_iff] at hs ⊢
  constructor
  · intro hpersonal a ha d c' hc' hd howns
    obtain rfl := Option.some.inj (haddr.symm.trans ha)
    have hclient : ((s.disown c.owns).identifyFor cli addr).client d = some c' := by
      rw [client_identifyFor, if_neg hd, client_disown, hc']
    have hnick : ((s.disown c.owns).identifyFor cli addr).nick addr =
        some { np with intflags := np.intflags ||| NICK_IFL_IDACCESS } := by
      rw [nick_identifyFor, if_pos rfl, hnp, Option.map_some]
    have hmem := hpersonal d c' addr _ hclient hnick howns (decide_eq_true idaccess_self)
    have hmem' : (d, addr) ∈ (cli, addr) :: (s.disown c.owns).identified := hmem
    rw [identified_disown, List.mem_cons] at hmem'
    rcases hmem' with heq | hmem'
    · exact absurd (Prod.mk.inj heq).1 hd
    · exact hmem'
  · intro hlone d c' a np' hc' hnp' howns haccess
    show (d, a) ∈ (cli, addr) :: (s.disown c.owns).identified
    rw [identified_disown]
    rw [client_identifyFor, client_disown] at hc'
    rw [nick_identifyFor] at hnp'
    by_cases hd : d = cli
    · rw [if_pos hd, hc, Option.map_some, Option.some.injEq] at hc'
      rw [← hc', Option.some.injEq] at howns
      rw [hd, howns]
      exact List.mem_cons_self
    · rw [if_neg hd] at hc'
      refine List.mem_cons_of_mem _ ?_
      by_cases ha : a = addr
      · rw [ha] at howns ⊢
        exact hlone addr haddr d c' hc' hd howns
      · rw [if_neg ha] at hnp'
        obtain ⟨np₀, hnp₀, hid⟩ := hmild a np' hnp' haccess
        exact hs d c' a np₀ hc' hnp₀ howns hid

theorem known_nsIdentify {nick : Option Bytes} {pass : Bytes} (hs : s.Known)
    (h : s.nsIdentify conf cli nick pass = some t) : t.Known := by
  obtain ⟨c, hc, h⟩ := Option.bind_eq_some_iff.mp h
  split at h
  · obtain rfl := Option.some.inj h
    exact hs
  rename_i addr haddr
  split at h
  · exact absurd h (by simp)
  obtain rfl := Option.some.inj h
  intro p hp
  have hp' : p ∈ (cli, addr) :: (s.disown c.owns).identified := hp
  rw [identified_disown, List.mem_cons] at hp'
  rw [client_identifyFor, client_disown]
  rcases hp' with rfl | hp'
  · simp [hc]
  · split_ifs with hcli
    · simp [hc]
    · exact hs p hp'

/-! ### Runs -/

/-- Every step but the two is mild. -/
theorem kept_step {a : NickAction} (hon : ∀ cli c, a ≠ .signOn cli c)
    (hid : ∀ cli nick pass, a ≠ .identify cli nick pass) (h : s.step conf a = some t) :
    Kept s t := by
  cases a with
  | signOn cli c => exact absurd rfl (hon cli c)
  | identify cli nick pass => exact absurd rfl (hid cli nick pass)
  | signOff cli now => exact kept_unregisterHook h
  | changeNick cli nick =>
    rw [step] at h
    split_ifs at h
    obtain rfl := Option.some.inj h
    exact kept_modifyClient cli fun _ _ h => h
  | register cli pass arg contact key addr now => exact kept_nsRegister h
  | drop cli nick => exact kept_nsDrop h
  | auth nick key =>
    obtain rfl := Option.some.inj h
    exact kept_nsAuth
  | access cli op => exact kept_nsAccess h
  | sync now => exact kept_dbSync h
  | mail =>
    obtain rfl := Option.some.inj h
    exact kept_mailSend

theorem known_step {a : NickAction} (hs : s.Known) (h : s.step conf a = some t) : t.Known := by
  cases a with
  | signOn cli c =>
    rw [step] at h
    split_ifs at h
    obtain rfl := Option.some.inj h
    intro p hp
    rw [identified_registerHook] at hp
    rw [client_registerHook]
    split_ifs
    · rfl
    · exact hs p hp
  | identify cli nick pass => exact known_nsIdentify hs h
  | _ => exact (kept_step (by simp) (by simp) h).isKnown hs

theorem personal_step {a : NickAction} (hknown : s.Known) (hs : s.Personal)
    (h : s.step conf a = some t) : t.Personal ↔ Lone conf s a := by
  cases a with
  | signOn cli c =>
    rw [step] at h
    split_ifs at h with hnew
    obtain rfl := Option.some.inj h
    exact personal_registerHook hknown hs hnew
  | identify cli nick pass => exact personal_nsIdentify hs h
  | _ => exact ⟨fun _ => trivial, fun _ => (kept_step (by simp) (by simp) h).personal hs⟩

end

/-- In every state of a run access by password is given only to clients that gave it themselves,
exactly when no step lets a client share in what another one has. -/
theorem personal_of_run_iff {conf : NickServConf} {nick : ℕ → Option Regnick} {nicks : List ℕ}
    {as : List NickAction} {t : NickServ}
    (hrun : Run.run (step conf) (start nick nicks) as = some t) :
    (∀ before behind s, as = before ++ behind →
        Run.run (step conf) (start nick nicks) before = some s → s.Personal) ↔
      Run.Along (step conf) (Lone conf) (start nick nicks) as := by
  refine Run.forall_reached_iff (fun s a s' hs h => known_step hs h)
    (fun s a s' hknown hs h => personal_step hknown hs h) ?_ ?_ hrun
  · intro p hp
    exact absurd hp List.not_mem_nil
  · intro cli c addr np hc
    exact absurd hc (by simp [start])

/-- Services with one nick, whose access list takes everyone, and clients from anywhere. -/
def someNick : Regnick :=
  ⟨bytes "alice", bytes "secret", 0, 0, NICK_IFL_ACTIVATED, [(bytes "*", bytes "*")], none⟩

def plainConf : NickServConf := ⟨fun s => s.map toLower, 2592000, 10, 5, 10⟩

def oneNick : NickServ := start (fun a => if a = 1 then some someNick else none) [1]

def someClient (nick : Bytes) : NickClient :=
  ⟨nick, bytes "user", bytes "host.example", bytes "192.0.2.1", false, none⟩

/-- Alice herself signs on, identifies, and signs off. -/
def visit : List NickAction :=
  [.signOn 0 (someClient (bytes "alice")), .identify 0 none (bytes "secret"), .signOff 0 60]

theorem personal_of_run_iff_visit :
    (∀ before behind s, visit = before ++ behind →
        Run.run (step plainConf) oneNick before = some s → s.Personal) ↔
      Run.Along (step plainConf) (Lone plainConf) oneNick visit :=
  have hsome : (Run.run (step plainConf) oneNick visit).isSome := by decide +kernel
  @personal_of_run_iff plainConf _ _ visit _ (Option.some_get hsome).symm

/-- The next client that the access list takes has access by password. -/
theorem personal_fails :
    ¬ ∀ conf nick nicks as t, Run.run (step conf) (start nick nicks) as = some t → t.Personal := by
  intro hall
  let shared (t : NickServ) : Bool := (t.client 2).any fun c => (t.nick 1).any fun np =>
    hasAccessToNick c 1 np NICK_IFL_IDACCESS && decide ((2, 1) ∉ t.identified)
  have hshared : (Run.run (step plainConf) oneNick
      (visit ++ [.signOn 2 (someClient (bytes "alice"))])).any shared = true := by decide +kernel
  obtain ⟨t, hrun, ht⟩ := (Option.any_eq_true _ _).mp hshared
  obtain ⟨c, hc, hnick⟩ := (Option.any_eq_true _ _).mp ht
  obtain ⟨np, hnp, haccess⟩ := (Option.any_eq_true _ _).mp hnick
  rw [Bool.and_eq_true, decide_eq_true_eq] at haccess
  exact haccess.2 (hall plainConf _ _ _ t hrun 2 c 1 np hc hnp haccess.1)

end NickServ

end Ithildin
