import Ithildin.Dns.Shelves

/-!
# Replies and the lookups they settle

A reply is matched with a lookup by its identifier alone, and identifiers are handed out in turn
without a look at the lookups that are still out. So a reply settles the lookup that it is for, and
no two lookups that are out have the same identifier, in just those runs where every lookup is made
while its identifier is free and every reply repeats the question of the lookup with its identifier
(`settled_of_run_iff`).
-/

namespace Ithildin

namespace Dns

open Layout

variable {F : Type} {s s' : State F} {key k k' : ℕ} {dlp dlp' : Lookup F} {env : Env} {pkt : Bytes}
  {g : Prop}

/-! ### Questions -/

/-- Is this the question that was asked? Names are compared as `find_dns_lookup` does it. -/
def Asks (asked : Option Bytes) (type : ℕ) (question : Option (Bytes × ℕ)) : Prop :=
  ∃ name name', asked = some name ∧ question = some (name', type % 2 ^ 16) ∧
    name'.map toLower = name.map toLower

/-- The reply was for the lookup that it has settled. -/
structure Answer.Right (a : Answer) : Prop where
  id : a.id = a.replyId
  question : Asks a.asked a.type a.question

/-- What is to hold of replies and of the lookups that wait for one. -/
structure Settled (s : State F) : Prop where
  answers : ∀ a ∈ s.answers, a.Right
  ids : ∀ k k' dlp dlp', s.mem k = some dlp → s.mem k' = some dlp' → dlp.Outstanding →
    dlp'.Outstanding → dlp.id = dlp'.id → k = k'

theorem settled_start (now : ℤ) : Settled (start now : State F) where
  answers := by simp [start]
  ids := by simp [start]

/-! ### What the changes keep -/

/-- A lookup that waits for an answer has waited for it before, with its identifier. -/
theorem Change.outstanding (h : Change g s s') (hdlp : s'.mem k = some dlp)
    (hout : dlp.Outstanding) :
    ∃ d, s.mem k = some d ∧ d.Outstanding ∧ d.id = dlp.id := by
  cases h with
  | modify key f hf =>
    rw [State.modify_mem] at hdlp
    split at hdlp
    · obtain ⟨d, hd, rfl⟩ := Option.map_eq_some_iff.1 hdlp
      rw [Lookup.Outstanding, (hf d).1] at hout
      exact ⟨d, hd, hout, (hf d).2.symm⟩
    · exact ⟨dlp, hdlp, hout, rfl⟩
  | move key p head hawaited _ =>
    cases hkey : s.mem key with
    | none =>
      rw [State.move_of_none hkey] at hdlp
      exact ⟨dlp, hdlp, hout, rfl⟩
    | some d =>
      rw [State.move_eq hkey] at hdlp
      dsimp only at hdlp
      by_cases hk : k = key
      · subst hk
        rw [Function.update_self] at hdlp
        cases hdlp
        refine ⟨d, hkey, hawaited ?_ d hkey, rfl⟩
        rintro rfl
        simp [Lookup.Outstanding] at hout
      · rw [Function.update_of_ne hk] at hdlp
        exact ⟨dlp, hdlp, hout, rfl⟩
  | destroy key =>
    cases hkey : s.mem key with
    | none =>
      rw [State.destroy_of_none hkey] at hdlp
      exact ⟨dlp, hdlp, hout, rfl⟩
    | some d =>
      rw [State.destroy_eq hkey] at hdlp
      dsimp only at hdlp
      by_cases hk : k = key
      · subst hk
        rw [Function.update_self] at hdlp
        cases hdlp
      · rw [Function.update_of_ne hk] at hdlp
        exact ⟨dlp, hdlp, hout, rfl⟩
  | serve key _ => exact ⟨dlp, hdlp, hout, rfl⟩
  | other s' _ _ hmem _ _ _ => exact ⟨dlp, hmem ▸ hdlp, hout, rfl⟩

theorem Change.answers (h : Change g s s') : s'.answers = s.answers := by
  cases h with
  | modify key f _ => rfl
  | move key p head _ _ =>
    cases hkey : s.mem key with
    | none => rw [State.move_of_none hkey]
    | some d => rw [State.move_eq hkey]
  | destroy key =>
    cases hkey : s.mem key with
    | none => rw [State.destroy_of_none hkey]
    | some d => rw [State.destroy_eq hkey]
  | serve key _ => rfl
  | other s' _ _ _ _ hanswers _ => exact hanswers

theorem Settled.changes (hs : Settled s) (h : Changes g s s') : Settled s' := by
  refine h.keep (fun s s' hs h => ⟨?_, ?_⟩) hs
  · rw [h.answers]
    exact hs.answers
  · intro k k' dlp dlp' hdlp hdlp' hout hout' hid
    obtain ⟨d, hd, hdout, hdid⟩ := h.outstanding hdlp hout
    obtain ⟨d', hd', hdout', hdid'⟩ := h.outstanding hdlp' hout'
    exact hs.ids k k' d d' hd hd' hdout hdout' (hdid.trans (hid.trans hdid'.symm))

/-! ### Replies -/

/-- The identifier of a packet. -/
def replyId (pkt : Bytes) : ℕ := (header (slice 0 12 pkt)).id

/-- Is this a packet that settles the lookup it is matched with? -/
def Settling (env : Env) (pkt : Bytes) : Prop :=
  12 + 4 ≤ pkt.length ∧ (header (slice 0 12 pkt)).qdcount = 1 ∧
    (header (slice 0 12 pkt)).qr = true ∧
    (header (slice 0 12 pkt)).opcode = 0 ∧
    ((header (slice 0 12 pkt)).tc = true ∨ ∃ name rc, env.expand pkt 12 = some (name, rc) ∧
      ¬ ((header (slice 0 12 pkt)).rcode = 3 ∧ be (slice (12 + rc + 2) 2 pkt) = classIn ∧
        rrType (be (slice (12 + rc) 2 pkt)) = .ptr ∧ isIp6Arpa env.below name))

/-- What a packet does, by its header and its question. -/
theorem packetParse_eq_some {known : ℕ → Bool} {o : Option (ℕ × Reply)}
    (h : packetParse env.expand env.below known pkt = some o) :
    o = none ∧ (pkt.length < 12 + 4 ∨ known (replyId pkt) = false) ∨
      ∃ r, o = some (replyId pkt, r) ∧ (r.settles ↔ Settling env pkt) := by
  rw [packetParse] at h
  split at h
  · cases h
    exact Or.inl ⟨rfl, Or.inl ‹_›⟩
  rename_i hlen
  obtain ⟨b, hb, h⟩ := Option.bind_eq_some_iff.1 h
  obtain rfl := fetch_eq_some hb
  rw [replyId, Settling]
  generalize header (slice 0 12 pkt) = hdr at h ⊢
  dsimp only at h
  split at h
  · cases h
    exact Or.inl ⟨rfl, Or.inr ‹_›⟩
  right
  split at h
  · rename_i hmangled
    cases h
    refine ⟨_, rfl, iff_of_false Bool.false_ne_true ?_⟩
    rintro ⟨-, hqd, hqr, hop, -⟩
    simp [hqd, hqr, hop] at hmangled
  rename_i hmangled
  simp only [not_or, not_not, Bool.not_eq_false] at hmangled
  obtain ⟨hqd, hqr, hop⟩ := hmangled
  have hgood : ∀ q : Prop, (12 + 4 ≤ pkt.length ∧ hdr.qdcount = 1 ∧ hdr.qr = true ∧
      hdr.opcode = 0 ∧ q) ↔ q :=
    fun q => ⟨fun h => h.2.2.2.2, fun hq => ⟨not_lt.1 hlen, hqd, hqr, hop, hq⟩⟩
  rw [hgood]
  split at h
  · rename_i htc
    cases h
    exact ⟨_, rfl, iff_of_true rfl (Or.inl htc)⟩
  rename_i htc
  split at h
  · rename_i hexpand
    cases h
    refine ⟨_, rfl, iff_of_false Bool.false_ne_true ?_⟩
    rintro (h | ⟨name, rc, h, -⟩)
    · exact htc h
    · rw [hexpand] at h
      cases h
  rename_i name rc hexpand
  obtain ⟨type, htype, h⟩ := Option.bind_eq_some_iff.1 h
  obtain ⟨rrClass, hclass, h⟩ := Option.bind_eq_some_iff.1 h
  obtain rfl := fetch_eq_some htype
  obtain rfl := fetch_eq_some hclass
  have hquestion : ∀ q : Bytes → ℕ → Prop, (hdr.tc = true ∨ ∃ name rc,
      env.expand pkt 12 = some (name, rc) ∧ q name rc) ↔ q name rc := by
    intro q
    refine ⟨?_, fun hq => Or.inr ⟨name, rc, hexpand, hq⟩⟩
    rintro (h | ⟨name', rc', h, hq⟩)
    · exact absurd h htc
    · cases hexpand.symm.trans h
      exact hq
  rw [hquestion]
  split at h
  · rename_i hrcode
    cases h
    exact ⟨_, rfl, iff_of_true rfl fun hagain => hrcode.2 hagain.1⟩
  split at h
  · rename_i hagain
    cases h
    exact ⟨_, rfl, iff_of_false Bool.false_ne_true fun h => h hagain⟩
  rename_i hagain
  obtain ⟨⟨pidx, an⟩, -, h⟩ := Option.bind_eq_some_iff.1 h
  obtain ⟨⟨pidx', ns⟩, -, h⟩ := Option.bind_eq_some_iff.1 h
  obtain ⟨⟨pidx'', ad⟩, -, h⟩ := Option.bind_eq_some_iff.1 h
  cases h
  exact ⟨_, rfl, iff_of_true rfl hagain⟩

/-! ### The condition -/

/-- The condition on a step: a lookup is made while its identifier is free, and a reply repeats the
question of the lookup with its identifier. -/
def Honest (env : Env) (s : State F) : Action F → Prop
  | .lookup rrClass type data _ =>
    data.length ≤ maxNamelen → s.findLookup rrClass type data = none →
      ∀ k dlp, s.mem k = some dlp → dlp.Outstanding → dlp.id ≠ s.idn
  | .reply pkt => Settling env pkt → ∀ k dlp, s.mem k = some dlp → s.Matchable dlp →
      dlp.id = replyId pkt → Asks dlp.asked dlp.type (State.question env pkt)
  | _ => True

theorem Settled.make_iff [DecidableEq F] (hs : Settled s) (hl : Shelved s) (rrClass type : ℕ)
    (data : Bytes) (callback : F) :
    Settled (s.make rrClass type data callback) ↔
      ∀ k dlp, s.mem k = some dlp → dlp.Outstanding → dlp.id ≠ s.idn := by
  have hnone : s.mem s.keys = none := hl.fresh s.keys le_rfl
  have hmade : (s.made rrClass type data callback).Outstanding := Or.inl rfl
  rw [State.make_eq]
  constructor
  · intro h k dlp hdlp hout hid
    have hk : k ≠ s.keys := by
      rintro rfl
      rw [hnone] at hdlp
      cases hdlp
    refine hk (h.ids k s.keys dlp _ ?_ (Function.update_self _ _ _) hout hmade hid)
    exact (Function.update_of_ne hk _ _).trans hdlp
  · refine fun h => ⟨hs.answers, fun k k' dlp dlp' hdlp hdlp' hout hout' hid => ?_⟩
    dsimp only at hdlp hdlp'
    by_cases hk : k = s.keys
    · by_cases hk' : k' = s.keys
      · exact hk.trans hk'.symm
      · rw [hk, Function.update_self] at hdlp
        rw [Function.update_of_ne hk'] at hdlp'
        cases hdlp
        exact absurd hid.symm (h k' dlp' hdlp' hout')
    · rw [Function.update_of_ne hk] at hdlp
      by_cases hk' : k' = s.keys
      · rw [hk', Function.update_self] at hdlp'
        cases hdlp'
        exact absurd hid (h k dlp hdlp hout)
      · rw [Function.update_of_ne hk'] at hdlp'
        exact hs.ids k k' dlp dlp' hdlp hdlp' hout hout' hid

/-- A reply settles a lookup rightly if it is for it. -/
theorem Settled.answered_iff (hs : Settled s)
    (h : Changes g (s.answered env pkt dlp.id dlp) s') :
    Settled s' ↔ Asks dlp.asked dlp.type (State.question env pkt) := by
  constructor
  · intro h'
    have hanswers : s'.answers = (s.answered env pkt dlp.id dlp).answers :=
      h.keep (I := fun t => t.answers = (s.answered env pkt dlp.id dlp).answers)
        (fun _ _ ht hc => hc.answers.trans ht) rfl
    have hright := h'.answers
    rw [hanswers] at hright
    exact (hright _ List.mem_cons_self).question
  · intro hasks
    have hs' : Settled (s.answered env pkt dlp.id dlp) := by
      refine ⟨fun a ha => ?_, hs.ids⟩
      rcases List.mem_cons.1 ha with rfl | ha
      · exact ⟨rfl, hasks⟩
      · exact hs.answers a ha
    exact hs'.changes h

theorem Settled.reply_iff (hs : Settled s) (hl : Shelved s) (h : s.reply env pkt = some s') :
    Settled s' ↔ Honest env s (.reply pkt) := by
  obtain ⟨o, ho, h⟩ := changes_reply (g := True) hl h
  have hparse := packetParse_eq_some ho
  rcases h with ⟨hnot, h⟩ | ⟨id, r, key, dlp, rfl, hr, hmatched, hdlp, h⟩
  · refine iff_of_true (hs.changes h) fun hsettling k dlp hdlp hmatch hid => ?_
    have hknown : s.matched (replyId pkt) ≠ none := hid ▸ hl.matched_ne_none hdlp hmatch
    rcases hparse with ⟨-, hlen | hunknown⟩ | ⟨r, rfl, hr⟩
    · exact absurd hsettling.1 (not_le.2 hlen)
    · exact absurd (Option.not_isSome_iff_eq_none.1 (ne_true_of_eq_false hunknown)) hknown
    · exact absurd (hr.2 hsettling) (ne_true_of_eq_false (hnot _ rfl hknown))
  · rcases hparse with ⟨hnone, -⟩ | ⟨r', hsome, hr'⟩
    · cases hnone
    cases hsome
    obtain ⟨d, hd, hid, hmatch⟩ := hl.matched hmatched
    cases hdlp.symm.trans hd
    rw [← hid] at h
    rw [hs.answered_iff h]
    constructor
    · intro hasks _ k dlp' hdlp' hmatch' hid'
      obtain rfl := hs.ids k key dlp' dlp hdlp' hdlp hmatch'.outstanding hmatch.outstanding
        (hid'.trans hid.symm)
      cases hdlp.symm.trans hdlp'
      exact hasks
    · exact fun hhonest => hhonest (hr'.1 hr) key dlp hdlp hmatch hid

variable [DecidableEq F]

theorem Settled.step_iff (hs : Settled s) (hl : Shelved s) {a : Action F}
    (h : Stepped env s a s') : Settled s' ↔ Honest env s a := by
  cases a with
  | lookup rrClass type data callback =>
    cases h with
    | lookup _ _ _ _ _ =>
      by_cases hnew : data.length ≤ maxNamelen ∧ s.findLookup rrClass type data = none
      · rw [lookup_eq_make callback hnew.1 hnew.2, hs.make_iff hl]
        exact ⟨fun h _ _ => h, fun h => h hnew.1 hnew.2⟩
      · exact iff_of_true (hs.changes (g := True) (changes_lookup callback hnew))
          fun hlen hfind => absurd ⟨hlen, hfind⟩ hnew
  | reply pkt =>
    cases h with
    | reply _ _ _ h => exact hs.reply_iff hl h
  | _ => exact iff_of_true (hs.changes (changes_step hl h nofun nofun)) trivial

/-- The states of a run are right exactly when every step meets the condition. -/
theorem settled_of_run_iff (env : Env) {now : ℤ} {as : List (Action F)}
    (hrun : Run.run (step env) (start now) as = some s) :
    (∀ before behind s', as = before ++ behind →
      Run.run (step env) (start now) before = some s' → Settled s') ↔
      Run.Along (step env) (Honest env) (start now) as :=
  Run.forall_reached_iff (fun _ _ _ hl h => Shelved.step hl (stepped h).2)
    (fun _ _ _ hl hs h => hs.step_iff hl (stepped h).2) (shelved_start now) (settled_start now) hrun

/-- `dn_expand` where a name has one label at most. -/
def expandLabel : Expand := fun pkt i =>
  match pkt.drop i with
  | [] => none
  | n :: rest =>
    if n = 0 then some ([], 1)
    else if n < 64 ∧ (rest.drop n.toNat).head? = some 0 then
      some (rest.take n.toNat, n.toNat + 2)
    else none

/-- The C library, on such names. -/
def labelEnv : Env where
  expand := expandLabel
  below := []
  inetPton6 := fun _ => none
  scanQuad := fun _ => (0, 0, 0, 0)
  dnComp := fun name => name.length + 2

/-- The default configuration. -/
def defaultConf : Conf :=
  { timeout := 10, retries := 2, max := 128, expire := 3600, failure := true, cacheMax := 256 }

/-- A reply without records to a question for the address of `name`. -/
def emptyReply (id : UInt8) (name : Bytes) : Bytes :=
  [0, id, 128, 0, 0, 1, 0, 0, 0, 0, 0, 0] ++ name.length.toUInt8 :: name ++ [0, 0, 1, 0, 1]

/-- One lookup, and a reply with its identifier and this name. -/
def lookupA (name : Bytes) : List (Action ℕ) :=
  [.reload defaultConf true, .lookup 1 1 (bytes "a") 0, .send true 0, .reply (emptyReply 0 name)]

theorem settled_of_run_iff_a :
    ∃ s, Run.run (step labelEnv) (start 0) (lookupA (bytes "a")) = some s ∧
      ((∀ before behind s', lookupA (bytes "a") = before ++ behind →
        Run.run (step labelEnv) (start 0) before = some s' → Settled s') ↔
        Run.Along (step labelEnv) (Honest labelEnv) (start 0) (lookupA (bytes "a"))) := by
  have hsome : (Run.run (step labelEnv) (start 0) (lookupA (bytes "a"))).isSome := by
    decide +kernel
  obtain ⟨s, hs⟩ := Option.isSome_iff_exists.1 hsome
  exact ⟨s, hs, settled_of_run_iff labelEnv hs⟩

/-- A reply for another name settles the lookup with its identifier. -/
theorem settled_fails : ¬ ∀ (env : Env) (now : ℤ) (as : List (Action ℕ)) (s : State ℕ),
    Run.run (step env) (start now) as = some s → Settled s := by
  intro hall
  have hanswers : (Run.run (step labelEnv) (start 0) (lookupA (bytes "b"))).map (·.answers) =
      some [{ id := 0, asked := some (bytes "a"), type := 1, replyId := 0,
              question := some (bytes "b", 1) }] := by decide +kernel
  obtain ⟨s, hs, hlist⟩ := Option.map_eq_some_iff.1 hanswers
  obtain ⟨name, name', hasked, hquestion, heq⟩ :=
    ((hall labelEnv 0 _ s hs).answers _ (hlist ▸ List.mem_singleton_self _)).question
  cases hasked
  cases hquestion
  exact absurd heq (by decide)

end Dns

end Ithildin
