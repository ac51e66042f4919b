import Ithildin.Dns.Answers
import Ithildin.Dns.Books

/-!
# Calls and their callbacks

No call of `dns_lookup` is lost and no callback is repeated (`called_of_run`) as long as nothing
that was freed is used and no callback looks for what a lookup that is being finished is for. A hook
that is added to such a lookup is not called in that pass, and freed with it.
-/

namespace Ithildin

namespace Dns

open Places Event

variable {F : Type} {s s' t : State F} {key k n : ℕ} {d d' dlp : Lookup F} {p : Place} {env : Env}
  {rest : List Frame}

/-! ### The end of a lookup -/

theorem quiet_startTimer {interval : ℤ} (h : s.startTimer key interval = some s') :
    Quiet s s' := by
  obtain ⟨⟨q, ref⟩, -, rfl⟩ := Option.map_eq_some_iff.1 h
  have hq : Quiet s { s with q := q } := quiet_other rfl rfl rfl rfl rfl
  exact hq.trans (quiet_modify key fun d => ⟨rfl, rfl⟩)

theorem quiet_evict (hs : Shelved s) (hfault : s.evict.fault = false) : Quiet s s.evict := by
  rw [State.evict] at hfault ⊢
  by_cases hfull : s.counts .cache = s.cacheMax ∧ 0 < s.counts .cache
  · rw [if_pos hfull] at hfault ⊢
    cases hlast : (s.lists .cache).getLast? with
    | none =>
      rw [hlast] at hfault
      cases hfault
    | some last =>
      have hcache : s.place last = some .cache :=
        ((hs.placed .cache).2 last).1 (List.mem_of_getLast? hlast)
      obtain ⟨d, hd, hplace⟩ := Option.bind_eq_some_iff.1 hcache
      exact quiet_destroy hd hplace
  · rw [if_neg hfull]
    exact Quiet.refl s

/-- What is left of a lookup that is finished is in the cache. -/
theorem keep_left (h : s.mem key = some d) (hkeep : s.keep key = some s') :
    s'.frames = s.frames ∧ s'.done = s.done ∧ s'.cancelled = s.cancelled ∧ s'.calls = s.calls ∧
      (∀ k, k ≠ key → s'.mem k = s.mem k) ∧ ∀ d, s'.mem key = some d → d.place = some .cache := by
  rw [State.keep, h] at hkeep
  dsimp only at hkeep
  split at hkeep
  · cases hkeep
    rw [State.destroy_eq h]
    refine ⟨rfl, rfl, rfl, rfl, fun k hk => Function.update_of_ne hk _ _, fun d' hd' => ?_⟩
    dsimp only at hd'
    rw [Function.update_self] at hd'
    cases hd'
  · rename_i hplace
    split at hkeep
    · obtain ⟨q, ref, -, rfl⟩ := startTimer_eq h hkeep
      refine ⟨rfl, rfl, rfl, rfl, fun k hk => Function.update_of_ne hk _ _, fun d' hd' => ?_⟩
      obtain rfl := eq_of_update hd'
      exact not_not.1 hplace
    · cases hkeep
      refine ⟨rfl, rfl, rfl, rfl, fun _ _ => rfl, fun d' hd' => ?_⟩
      cases h.symm.trans hd'
      exact not_not.1 hplace

/-- The event is over, so the lookup that is freed or cached owes no call. -/
theorem Booked.settle (hs : Booked s) (hk : Kept none none s)
    (hframes : s.frames = .ended key :: rest)
    (hspare : ({ s with frames := rest } : State F).q.Spare)
    (h : State.settle { s with frames := rest } key = some s') : Booked s' := by
  obtain ⟨d, hd, hplace⟩ := hk.there (k := key)
    (mem_finishing.2 ⟨.ended key, hframes ▸ List.mem_cons_self, rfl⟩)
  have hended : Kept none (some key) { s with frames := rest } := hk.pop hframes (by simp)
  obtain ⟨hbooks, hother⟩ := hs.pop hframes rfl
  have hempty : s.owed key = ∅ := by
    have hprogress : s.progress key = some none := by
      rw [State.progress, hframes, List.findSome?_cons, Frame.progress, if_pos rfl]
    rw [owed_eq hd hplace, hprogress, restOf, toCall_nil]
  generalize ht : ({ s with frames := rest } : State F) = t at h hended hbooks hother hspare
  have hdt : t.mem key = some d := by rwa [← ht]
  obtain ⟨hevict, hd', -, -⟩ := hended.evict hdt hplace hspare
  have hquiet : Quiet t t.evict := quiet_evict hended.shelved hevict.fault
  have hbooks' : Books s.owed (some key) t.evict := hbooks.quiet hquiet
  have hother' : ∀ k, k ≠ key → s.owed k = t.evict.owed k := fun k hk => by
    rw [hquiet.owed, hother k hk]
  rw [State.settle, hdt] at h
  dsimp only at h
  rw [State.toCache] at h
  have hbusy : ∀ k, some key = some k → k = key := fun k hk => (Option.some.inj hk).symm
  split at h
  · split at h
    · rw [State.move_eq hd'] at h
      obtain ⟨h₁, h₂, h₃, h₄, hmem, hleft⟩ := keep_left (Function.update_self _ _ _) h
      refine hbooks'.leave hbusy hempty hother' h₁ h₂ h₃ h₄ (fun k hk => ?_) hleft
      exact (hmem k hk).trans (Function.update_of_ne hk _ _)
    · obtain ⟨h₁, h₂, h₃, h₄, hmem, hleft⟩ := keep_left hd' h
      exact hbooks'.leave hbusy hempty hother' h₁ h₂ h₃ h₄ hmem hleft
  · obtain ⟨h₁, h₂, h₃, h₄, hmem, hleft⟩ := keep_left hdt h
    exact hbooks.leave hbusy hempty (fun k hk => (hother k hk).symm) h₁ h₂ h₃ h₄ hmem hleft

/-! ### Queries -/

/-- A lookup is changed and finished. -/
theorem Booked.modify_finish (hs : Booked s) (h : s.mem key = some d)
    (hplace : d.place ≠ some .cache)
    (hkey : key ∉ s.finishing) {f : Lookup F → Lookup F}
    (hfinish : (s.modify key f).finish key = some s')
    (hf : ∀ d, (f d).finished = d.finished ∧ (f d).place = d.place) : Booked s' :=
  (hs.quiet (quiet_modify key hf)).finish (State.modify_mem_self h) ((hf d).2 ▸ hplace) hkey hfinish

/-- A lookup is changed and is to wait. -/
theorem Booked.modify_wait (hs : Booked s) (h : s.mem key = some d) (hplace : d.place ≠ some .cache)
    {f : Lookup F → Lookup F} (hf : ∀ d, (f d).finished = d.finished ∧ (f d).place = d.place) :
    Booked ((s.modify key f).move key .waiting true) := by
  refine (hs.quiet (quiet_modify key hf)).quiet
    (quiet_move (State.modify_mem_self h) ((hf d).2 ▸ hplace) ?_ true)
  simp

theorem Booked.fail {more : Bool} (hs : Booked s) (h : s.mem key = some d)
    (hplace : d.place ≠ some .cache) (hkey : key ∉ s.finishing)
    (hfail : s.fail key = some (s', more)) : Booked s' := by
  obtain ⟨t, ht, hfail⟩ := Option.map_eq_some_iff.1 hfail
  cases hfail
  exact hs.modify_finish h hplace hkey ht fun d => ⟨rfl, rfl⟩

theorem quiet_sent {name : Bytes} {junk : ℤ} (hsent : s.sent key dlp name junk = some s') :
    Quiet s s' := by
  rw [State.sent, State.freeTimer_eq] at hsent
  have hq : Quiet s { s with q := (s.freeTimer dlp).q } := quiet_other rfl rfl rfl rfl rfl
  refine (hq.trans (quiet_modify key ?_)).trans (quiet_startTimer hsent)
  exact fun d => ⟨rfl, rfl⟩

theorem Booked.request {wrote more : Bool} {junk : ℤ} (hs : Booked s) (h : s.mem key = some d)
    (hplace : d.place ≠ some .cache) (hsendable : key ∈ s.finishing → dlp.Sendable env)
    (hrequest : s.request env key dlp wrote junk = some (s', more)) : Booked s' := by
  rw [State.request] at hrequest
  split at hrequest
  · rename_i hname
    refine hs.fail h hplace (fun hk => ?_) hrequest
    obtain ⟨name, hname', -⟩ := hsendable hk
    rw [hname] at hname'
    cases hname'
  · rename_i name hname
    have hnamed : Booked (s.modify key Lookup.named) :=
      hs.quiet (quiet_modify key fun d => ⟨(named_timer d).2, (named_place d).1⟩)
    have hmem : (s.modify key Lookup.named).mem key = some d.named := State.modify_mem_self h
    have hplace' : d.named.place ≠ some .cache := (named_place d).1 ▸ hplace
    dsimp only at hrequest
    split at hrequest
    · rename_i hlen
      refine hnamed.fail hmem hplace' (fun hk => ?_) hrequest
      obtain ⟨name', hname', hle⟩ := hsendable hk
      cases hname.symm.trans hname'
      exact absurd hlen (not_lt.2 hle)
    · split at hrequest
      · obtain ⟨t, ht, hrequest⟩ := Option.map_eq_some_iff.1 hrequest
        cases hrequest
        exact hnamed.quiet (quiet_sent ht)
      · cases hrequest
        exact hnamed.quiet (quiet_move hmem hplace' (by simp) true)

theorem Booked.send {wrote more : Bool} {junk : ℤ} (hs : Booked s) (hshelved : Shelved s)
    (hready : SendReady env s) (hsend : s.send env wrote junk = some (s', more)) : Booked s' := by
  rw [State.send] at hsend
  split at hsend
  · cases hsend
    exact hs
  · rename_i hcount
    split at hsend
    · cases hsend
      exact hs
    · rename_i key rest hlist
      have hwaiting : s.place key = some .waiting :=
        ((hshelved.placed .waiting).2 key).1 (by rw [hlist]; exact List.mem_cons_self)
      obtain ⟨d, hd, hplace⟩ := Option.bind_eq_some_iff.1 hwaiting
      rw [hd] at hsend
      have hmove : Quiet s (s.move key .pending false) :=
        quiet_move hd (by simp [hplace]) (by simp) false
      have hsendable : key ∈ (s.move key .pending false).finishing → d.Sendable env := by
        intro hk
        rw [State.finishing, move_frames] at hk
        exact hready hcount key (by rw [hlist]; rfl) hk d hd
      have hbooked := hs.quiet hmove
      dsimp only at hsend
      rw [State.move_eq hd] at hbooked hsendable hsend
      exact hbooked.request (Function.update_self _ _ _) (by simp) hsendable hsend

/-! ### Replies, timers and the configuration -/

theorem Booked.replied {pkt : Bytes} {id : ℕ} {r : Reply} (hs : Booked s)
    (h : s.mem key = some d) (hplace : d.place ≠ some .cache) (hkey : key ∉ s.finishing)
    (hreplied : s.replied env pkt id key dlp r = some s') : Booked s' := by
  have hanswered : Booked (s.answered env pkt id dlp) :=
    hs.quiet (quiet_other rfl rfl rfl rfl rfl)
  cases r with
  | ignored =>
    cases hreplied
    exact hs
  | failed => exact hanswered.modify_finish h hplace hkey hreplied fun d => ⟨rfl, rfl⟩
  | again =>
    cases hreplied
    exact hs.modify_wait h hplace fun d => ⟨rfl, rfl⟩
  | answered nxdomain an ns ad =>
    exact hanswered.modify_finish h hplace hkey hreplied fun d => ⟨rfl, rfl⟩

theorem Booked.reply {pkt : Bytes} (hs : Booked s) (hshelved : Shelved s) (hframes : s.frames = [])
    (hreply : s.reply env pkt = some s') : Booked s' := by
  rw [State.reply, Option.bind_eq_bind, Option.bind_eq_some_iff] at hreply
  obtain ⟨o, -, hreply⟩ := hreply
  rcases o with _ | ⟨id, r⟩
  · cases hreply
    exact hs
  · dsimp only at hreply
    split at hreply
    · cases hreply
      exact hs
    · rename_i key hmatched
      obtain ⟨d, hd, -, hmatch⟩ := hshelved.matched hmatched
      rw [hd] at hreply
      have hplace : d.place ≠ some .cache := by
        rcases hmatch.outstanding with h | h
        · simp [h]
        · simp [h]
      exact hs.replied hd hplace (finishing_nil hframes) hreply

theorem Booked.timedOut (hs : Booked s) (h : s.mem key = some d) (hplace : d.place ≠ some .cache)
    (hkey : key ∉ s.finishing) (htimed : s.timedOut key dlp = some s') : Booked s' := by
  rw [State.timedOut] at htimed
  split at htimed
  · exact hs.modify_finish h hplace hkey htimed fun d => ⟨rfl, rfl⟩
  · cases htimed
    exact hs.modify_wait h hplace fun d => ⟨rfl, rfl⟩

theorem Booked.tick {ref : ℕ} (hs : Booked s) (hk : Kept none none s) (hframes : s.frames = [])
    (htick : s.tick ref = some s') : Booked s' := by
  rw [State.tick] at htick
  split at htick
  · cases htick
  · rename_i t hfind
    split at htick
    · obtain ⟨ht, href⟩ := Timers.findTimer_eq_some hfind
      obtain ⟨d, hd, -, -⟩ := (hk.clock ref t.udata).1 ⟨t, ht, href, rfl⟩
      have hkey : t.udata ∉ s.finishing := finishing_nil hframes
      have hq : Quiet s { s with q := s.q.destroyTimer ref } := quiet_other rfl rfl rfl rfl rfl
      rw [State.timerHook] at htick
      dsimp only at htick
      rw [hd] at htick
      dsimp only at htick
      have hquiet : Quiet s (({ s with q := s.q.destroyTimer ref } : State F).modify t.udata
          fun d => { d with timer := Timers.timerInvalid }) :=
        hq.trans (quiet_modify t.udata fun d => ⟨rfl, rfl⟩)
      have hmem : (({ s with q := s.q.destroyTimer ref } : State F).modify t.udata
          fun d => { d with timer := Timers.timerInvalid }).mem t.udata =
          some { d with timer := Timers.timerInvalid } :=
        State.modify_mem_self (s := { s with q := s.q.destroyTimer ref }) hd
      split at htick
      · cases htick
        exact hs.quiet (hquiet.trans (quiet_destroy hmem ‹_›))
      · rename_i hplace
        exact (hs.quiet (hquiet.trans (quiet_push rfl))).timedOut hmem hplace
          (@notMem_push _ _ _ .sending (by simp [Frame.lookup]) |>.2 hkey) htick
    · cases htick

theorem quiet_flush (l : List ℕ) (hl : l.Nodup) (hmem : ∀ k ∈ l, s.place k = some .cache) :
    Quiet s (l.foldl State.destroy s) := by
  induction l generalizing s with
  | nil => exact Quiet.refl s
  | cons key l ih =>
    obtain ⟨hnot, hl⟩ := List.nodup_cons.1 hl
    obtain ⟨d, hd, hplace⟩ := Option.bind_eq_some_iff.1 (hmem key List.mem_cons_self)
    refine (quiet_destroy hd hplace).trans (ih hl fun k hk => ?_)
    have hne : k ≠ key := fun heq => hnot (heq ▸ hk)
    rw [State.place, State.destroy_eq hd]
    dsimp only
    rw [Function.update_of_ne hne]
    exact hmem k (List.mem_cons_of_mem _ hk)

theorem quiet_reload (hs : Shelved s) (conf : Conf) (sock : Bool) :
    Quiet s (s.reload conf sock) := by
  have hconf : Quiet s (s.configure conf) := quiet_other rfl rfl rfl rfl rfl
  have hshelved : Shelved (s.configure conf) := hs.other rfl rfl rfl rfl
  rw [State.reload]
  split
  · refine hconf.trans (quiet_flush _ (hshelved.placed .cache).1 fun k hk => ?_)
    exact ((hshelved.placed .cache).2 k).1 hk
  · exact hconf

/-! ### Calls -/

theorem owed_congr (hprogress : s'.progress = s.progress) (hmem : s'.mem k = s.mem k) :
    s'.owed k = s.owed k := by
  rw [State.owed, State.owed, hprogress, hmem]

/-- One lookup changes, and the books with it. -/
theorem Booked.change (hs : Booked s) (hmem : ∀ k, k ≠ key → s'.mem k = s.mem k)
    (hprogress : s'.progress = s.progress)
    (hledger : Ledger s'.owed (s'.done.map Prod.fst) s'.cancelled s'.calls)
    (halive : ∀ c ∈ s'.done, c.2 = true) (hover : ∀ n, s.Over n → s'.Over n)
    (hentered : ∀ d, s'.mem key = some d → d.place ≠ some .cache →
      Entered s'.Over (s'.owed key) (key ∉ s.finishing) d.finished) : Booked s' := by
  refine ⟨hledger, halive, fun k d hd hplace => ?_⟩
  have hnot : k ∉ s'.finishing ↔ k ∉ s.finishing := by
    rw [← progress_eq_none, ← progress_eq_none, hprogress]
  rw [hnot]
  by_cases hk : k = key
  · subst hk
    exact (hentered d hd hplace).mono (fun _ _ => id) And.left
  · rw [owed_congr hprogress (hmem k hk)]
    rw [hmem k hk] at hd
    exact (hs.entered k d hd hplace).mono (fun n _ hn => hn.imp_left (hover n)) id

/-- An event that is marked as being called is being called. -/
theorem Kept.calling_iff (hs : Kept none none s) (h : s.mem key = some d) :
    (key ∉ s.finishing → d.finished.calling = false) ∧
      ∀ cur, s.progress key = some (some cur) → d.finished.calling = true := by
  refine ⟨fun hkey => ?_, fun cur hcur => ?_⟩
  · by_contra hcalling
    obtain ⟨cur, nc, hframe⟩ := hs.idle key d h (eq_true_of_ne_false hcalling) (by simp)
    exact hkey (mem_finishing.2 ⟨_, hframe, rfl⟩)
  · obtain ⟨frame, hframe, hprogress⟩ := List.exists_of_findSome?_eq_some hcur
    cases frame with
    | running k cur' nc =>
      rw [Frame.progress] at hprogress
      split at hprogress
      · rename_i hk
        subst hk
        obtain ⟨d', hd', -, hcalling, -⟩ := hs.held _ hframe
        cases h.symm.trans hd'
        exact hcalling
      · cases hprogress
    | ended k =>
      rw [Frame.progress] at hprogress
      split at hprogress
      · cases hprogress
      · cases hprogress
    | once | sending | served => cases hprogress

/-- No call has the number of the next one. -/
theorem Booked.fresh (hs : Booked s) (h : s.mem key = some d) (hplace : d.place ≠ some .cache) :
    s.calls ∉ ids d.finished.hooks := by
  obtain ⟨hpaid, hcancelled, howed⟩ := hs.ledger.fresh
  intro hin
  rcases (hs.entered key d h hplace).own s.calls hin with (hn | hn) | hn
  · exact hpaid hn
  · exact hcancelled hn
  · exact howed key hn

/-- A call is given a lookup from the cache. -/
theorem Booked.serve (hs : Booked s) (h : s.mem key = some d) : Booked (s.serve key) := by
  have hprogress : (s.serve key).progress = s.progress := rfl
  have howed : (s.serve key).owed = s.owed := rfl
  refine @Booked.change F s (s.serve key) key hs (fun _ _ => rfl) hprogress ?_ ?_ ?_ ?_
  · rw [howed]
    exact hs.ledger.payNew
  · intro c hc
    rcases List.mem_cons.1 hc with rfl | hc
    · exact Option.isSome_iff_exists.2 ⟨d, h⟩
    · exact hs.alive c hc
  · exact fun n hn => hn.imp_left (List.mem_cons_of_mem _)
  · intro d' hd' hplace
    refine (hs.entered key d' hd' hplace).mono (fun n _ hn => ?_) fun hi => ⟨hi, (by simp)⟩
    exact hn.imp_left fun hn => hn.imp_left (List.mem_cons_of_mem _)

/-- What is found is there. -/
theorem Shelved.found (hs : Shelved s) {rrClass type : ℕ} {data : Bytes}
    (h : s.findLookup rrClass type data = some key) : ∃ d, s.mem key = some d := by
  have hon : ∀ p, s.findOn p rrClass type data = some key → ∃ d, s.mem key = some d :=
    fun p hp => (hs.find_eq_some hp).imp fun d hd => hd.1
  rw [State.findLookup] at h
  rcases Option.or_eq_some_iff.1 h with h | ⟨-, h⟩
  · exact hon _ h
  · rcases Option.or_eq_some_iff.1 h with h | ⟨-, h⟩
    · exact hon _ h
    · exact hon _ h

section

variable {hooks : List (Hook F)} {pr : Option (Option ℕ)} {ev : Event F} {hp : Hook F}

theorem toCall_defer (id : ℕ) : toCall (defer id hooks) = toCall hooks \ {id} := by
  ext n
  constructor
  · rintro ⟨h, hh, hd, rfl⟩
    obtain ⟨h', hh', rfl⟩ := List.mem_map.1 hh
    split at hd
    · cases hd
    · rename_i hne
      rw [if_neg hne]
      exact ⟨⟨h', hh', hd, rfl⟩, hne⟩
  · rintro ⟨⟨h, hh, hd, rfl⟩, hne⟩
    exact ⟨h, List.mem_map.2 ⟨h, hh, if_neg hne⟩, hd, rfl⟩

theorem toCall_filter (id : ℕ) : toCall (hooks.filter (·.id ≠ id)) = toCall hooks \ {id} := by
  ext n
  constructor
  · rintro ⟨h, hh, hd, rfl⟩
    obtain ⟨hh, hne⟩ := List.mem_filter.1 hh
    exact ⟨⟨h, hh, hd, rfl⟩, of_decide_eq_true hne⟩
  · rintro ⟨⟨h, hh, hd, rfl⟩, hne⟩
    exact ⟨h, List.mem_filter.2 ⟨hh, decide_eq_true hne⟩, hd, rfl⟩

theorem restOf_defer (id : ℕ) : restOf (defer id hooks) pr = defer id (restOf hooks pr) := by
  rcases pr with _ | _ | cur
  · rfl
  · rfl
  · refine Cursor.behind_map fun h => ?_
    split
    · rfl
    · rfl

variable [DecidableEq F] {callback : F}

/-- A hook that is removed is not called, whether the event is being called or not. -/
theorem toCall_unhooked (hcalling : ∀ cur, pr = some (some cur) → ev.calling = true)
    (hfind : ev.findHook callback = some hp) :
    toCall (restOf (unhooked callback ev).hooks pr) = toCall (restOf ev.hooks pr) \ {hp.id} := by
  rw [unhooked, Event.removeHook, hfind]
  dsimp only [Option.getD_some]
  split
  · rw [restOf_defer, toCall_defer]
  · rename_i hidle
    rcases pr with _ | _ | cur
    · exact toCall_filter hp.id
    · simp [restOf, toCall_nil]
    · exact absurd (hcalling cur rfl) hidle

theorem Entered.unhooked {isOver : ℕ → Prop} {owed : Set ℕ} {idle : Prop}
    (h : Entered isOver owed idle ev) (hidle : idle → ev.calling = false)
    (hfind : ev.findHook callback = some hp) :
    Entered isOver owed idle (Dns.unhooked callback ev) := by
  have hmem : hp ∈ ev.hooks := List.mem_of_find?_eq_some hfind
  rw [Dns.unhooked, Event.removeHook, hfind]
  dsimp only [Option.getD_some]
  split
  · rename_i hcalling
    refine ⟨h.onehook, ?_, ?_, ?_, ?_⟩
    · rw [ids_defer]
      exact h.nodup
    · rw [ids_defer]
      exact h.own
    · intro b hb
      obtain ⟨b', hb', rfl⟩ := List.mem_map.1 hb
      split
      · exact h.new b' hb'
      · exact h.new b' hb'
    · exact fun hi => absurd hcalling (Bool.eq_false_iff.1 (hidle hi))
  · have hsub : (ev.hooks.filter (·.id ≠ hp.id)).Sublist ev.hooks := List.filter_sublist
    refine ⟨h.onehook, h.nodup.sublist (hsub.map _), ?_, ?_, fun hi => ⟨?_, ?_⟩⟩
    · exact fun n hn => h.own n ((hsub.map _).subset hn)
    · exact fun b hb => h.new b (hsub.subset hb)
    · have hlen := (entries_filter_perm h.nodup hmem).length_eq
      rw [List.length_cons, List.length_map, List.length_map] at hlen
      have hnum := (h.plain hi).1
      dsimp only
      omega
    · exact fun b hb => (h.plain hi).2 b (hsub.subset hb)

/-- A hook of a lookup is removed, and nothing else done. -/
def State.dropHook (s : State F) (key : ℕ) (callback : F) : State F :=
  s.modify key fun d => { d with finished := Dns.unhooked callback d.finished }

theorem dropHook_mem_of_ne {k : ℕ} (hk : k ≠ key) :
    (s.dropHook key callback).mem k = s.mem k := by
  rw [State.dropHook, State.modify_mem, if_neg hk]

theorem dropHook_mem_self (h : s.mem key = some d) : (s.dropHook key callback).mem key =
    some { d with finished := Dns.unhooked callback d.finished } := State.modify_mem_self h

/-- The hook is not called any more. -/
theorem owed_dropHook (hk : Kept none none s) (h : s.mem key = some d)
    (hplace : d.place ≠ some .cache) (hfind : d.finished.findHook callback = some hp) :
    (s.dropHook key callback).owed key = s.owed key \ {hp.id} := by
  rw [owed_eq (dropHook_mem_self h) hplace, owed_eq h hplace]
  exact toCall_unhooked (hk.calling_iff h).2 hfind

theorem owed_dropHook_of_ne {k : ℕ} (hk : k ≠ key) :
    (s.dropHook key callback).owed k = s.owed k := owed_congr rfl (dropHook_mem_of_ne hk)

/-- The books are right again when the call is over, in one way or the other. -/
theorem Booked.dropHook (hs : Booked s) (hk : Kept none none s) (h : s.mem key = some d)
    (hplace : d.place ≠ some .cache) (hfind : d.finished.findHook callback = some hp)
    {cancelled : List ℕ} (hkept : ∀ n ∈ s.cancelled, n ∈ cancelled)
    (hover : hp.id ∈ s.done.map (·.1) ∨ hp.id ∈ cancelled)
    (hledger : Ledger (s.dropHook key callback).owed (s.done.map (·.1)) cancelled s.calls) :
    Booked { s.dropHook key callback with cancelled := cancelled } := by
  have hev := hs.entered key d h hplace
  have hover' : ∀ n, s.Over n → ({ s.dropHook key callback with cancelled := cancelled }).Over n :=
    fun n hn => hn.imp_right (hkept n)
  refine @Booked.change F s { s.dropHook key callback with cancelled := cancelled } key hs
    (fun k hk => dropHook_mem_of_ne hk) rfl hledger hs.alive hover' fun d' hd' _ => ?_
  cases (dropHook_mem_self h).symm.trans hd'
  refine (hev.unhooked (fun hi => (hk.calling_iff h).1 hi.1) hfind).mono (fun n _ hn => ?_)
    fun hi => ⟨hi, (by simp)⟩
  by_cases hn' : n = hp.id
  · exact Or.inl (hn'.symm ▸ hover)
  · change _ ∨ n ∈ (s.dropHook key callback).owed key
    rw [owed_dropHook hk h hplace hfind]
    exact hn.imp (hover' n) fun hn => ⟨hn, hn'⟩

/-- A hook is removed: its call is cancelled, if it is not over. -/
theorem Booked.unhook (hs : Booked s) (hk : Kept none none s) (h : s.mem key = some d)
    (hplace : d.place ≠ some .cache) : Booked (s.unhook key callback) := by
  cases hfind : d.finished.findHook callback with
  | none =>
    rw [State.unhook, h, Option.bind_some, hfind]
    exact hs
  | some hp =>
    have howed := owed_dropHook hk h hplace hfind
    have heq : s.unhook key callback = { s.dropHook key callback with
        cancelled :=
          if hp.id ∈ s.done.map (·.1) ∨ hp.id ∈ s.cancelled then s.cancelled
          else hp.id :: s.cancelled } := by
      rw [State.unhook, h, Option.bind_some, hfind]
      rfl
    rw [heq]
    split
    · rename_i hover
      have hnot : hp.id ∉ s.owed key := fun hin => by
        rcases hover with hp' | hp'
        · exact (hs.ledger.paid hp.id hp').2 key hin
        · exact hs.ledger.cancelled hp.id hp' key hin
      have hsame : (s.dropHook key callback).owed = s.owed := by
        funext k
        by_cases hk : k = key
        · rw [hk, howed, Set.sdiff_singleton_eq_self hnot]
        · exact owed_dropHook_of_ne hk
      refine hs.dropHook hk h hplace hfind (fun _ hn => hn) hover ?_
      rw [hsame]
      exact hs.ledger
    · rename_i hover
      have hmem : hp.id ∈ ids d.finished.hooks :=
        List.mem_map_of_mem (List.mem_of_find?_eq_some hfind)
      have hin : hp.id ∈ s.owed key :=
        ((hs.entered key d h hplace).own hp.id hmem).resolve_left hover
      refine hs.dropHook hk h hplace hfind (fun _ hn => List.mem_cons_of_mem _ hn)
        (Or.inr List.mem_cons_self) ?_
      exact hs.ledger.cancel hin howed fun k hk => owed_dropHook_of_ne hk

/-- A waiting lookup without hooks that are counted owes no call. -/
theorem Booked.cancelWaiting (hs : Booked s) (hk : Kept none none s) (h : s.mem key = some d)
    (hplace : d.place ≠ some .cache) (hspared : Spared callback s key) :
    Booked (s.cancelWaiting callback key) := by
  have hunhook : Booked (s.unhook key callback) := hs.unhook hk h hplace
  have hmem : (s.unhook key callback).mem key =
      some { d with finished := unhooked callback d.finished } := unhook_mem_self h
  rw [State.cancelWaiting, hmem]
  dsimp only
  split
  · rename_i hzero
    have hkey : key ∉ (s.unhook key callback).finishing := by
      intro hin
      rw [unhook_frames] at hin
      exact hspared hin d h hzero
    have hempty : (s.unhook key callback).owed key = ∅ := by
      have hnum := ((hunhook.entered key _ hmem hplace).plain ⟨hkey, (by simp)⟩).1
      have hnil : (unhooked callback d.finished).hooks = [] :=
        List.length_eq_zero_iff.1 (by dsimp only at hnum; omega)
      rw [owed_eq hmem hplace, progress_eq_none.2 hkey, restOf]
      dsimp only
      rw [hnil, toCall_nil]
    have hdestroy := State.destroy_eq hmem
    refine hunhook.leave (by simp) hempty (fun _ _ => rfl) ?_ ?_ ?_ ?_ (fun k hk => ?_)
      fun d' hd' => ?_
    · rw [hdestroy]
    · rw [hdestroy]
    · rw [hdestroy]
    · rw [hdestroy]
    · rw [hdestroy]
      exact Function.update_of_ne hk _ _
    · rw [hdestroy] at hd'
      dsimp only at hd'
      rw [Function.update_self] at hd'
      cases hd'
  · exact hunhook

theorem Booked.cancelAll (l : List ℕ) (hl : l.Nodup) (hs : Booked s) (hk : Kept none none s)
    (hmem : ∀ k ∈ l, s.place k = some .waiting) (hspared : ∀ k ∈ l, Spared callback s k) :
    Booked (l.foldl (State.cancelWaiting callback) s) := by
  induction l generalizing s with
  | nil => exact hs
  | cons key l ih =>
    obtain ⟨hnot, hl⟩ := List.nodup_cons.1 hl
    obtain ⟨d, hd, hplace⟩ := Option.bind_eq_some_iff.1 (hmem key List.mem_cons_self)
    have hrest : ∀ k ∈ l, (s.cancelWaiting callback key).mem k = s.mem k ∧
        (s.cancelWaiting callback key).finishing = s.finishing :=
      fun k hk => cancelWaiting_mem hd fun heq => hnot (heq ▸ hk)
    have hspared' := hspared key List.mem_cons_self
    refine ih hl (hs.cancelWaiting hk hd (by simp [hplace]) hspared') (hk.cancelWaiting hd hspared')
      (fun k hk => ?_) fun k hk => ?_
    · rw [State.place, (hrest k hk).1]
      exact hmem k (List.mem_cons_of_mem _ hk)
    · rw [Spared, (hrest k hk).1, (hrest k hk).2]
      exact hspared k (List.mem_cons_of_mem _ hk)

theorem Booked.unhookAll (l : List ℕ) (hl : l.Nodup) (hs : Booked s) (hk : Kept none none s)
    (hmem : ∀ k ∈ l, s.place k = some .pending) :
    Booked (l.foldl (fun s key => s.unhook key callback) s) := by
  induction l generalizing s with
  | nil => exact hs
  | cons key l ih =>
    obtain ⟨hnot, hl⟩ := List.nodup_cons.1 hl
    obtain ⟨d, hd, hplace⟩ := Option.bind_eq_some_iff.1 (hmem key List.mem_cons_self)
    refine ih hl (hs.unhook hk hd (by simp [hplace])) (hk.unhook key callback) fun k hk => ?_
    have hne : k ≠ key := fun heq => hnot (heq ▸ hk)
    rw [State.place, unhook_mem_of_ne hne]
    exact hmem k (List.mem_cons_of_mem _ hk)

theorem Booked.cancel (hs : Booked s) (hk : Kept none none s)
    (hspared : ∀ k ∈ s.lists .waiting, Spared callback s k) : Booked (s.cancel callback) := by
  obtain ⟨hlists, hframes⟩ := unhookAll_lists callback (s.lists .pending) s
  have hmem : ∀ k ∈ s.lists .waiting, _ := fun k hin =>
    unhookAll_mem callback (s.lists .pending) s (hk.shelved.notMem_pending hin)
  have hpending := hk.shelved.placed .pending
  rw [State.cancel, hlists]
  refine (hs.unhookAll _ hpending.1 hk fun k => (hpending.2 k).1).cancelAll _
    (hk.shelved.placed .waiting).1 (hk.unhookAll _) (fun k hin => ?_) fun k hin => ?_
  · rw [State.place, hmem k hin]
    exact ((hk.shelved.placed .waiting).2 k).1 hin
  · rw [Spared, hmem k hin, hframes]
    exact hspared k hin

/-- A call finds a lookup that is not being finished. -/
theorem Booked.hookLookup (hs : Booked s) (hk : Kept none none s) (h : s.mem key = some d)
    (hplace : d.place ≠ some .cache) (hkey : key ∉ s.finishing) :
    Booked (s.hookLookup key callback) := by
  have hev := hs.entered key d h hplace
  have hcalling := (hk.calling_iff h).1 hkey
  obtain ⟨hp, hhp⟩ : ∃ hp : Hook F, hp =
    { id := s.calls, function := callback, deferred := false, new := d.finished.calling } :=
      ⟨_, rfl⟩
  have hadd : (d.finished.addHookAfter s.calls (some callback) none).getD d.finished =
      { d.finished with
        hooks := d.finished.hooks ++ [hp]
        numhooks := d.finished.numhooks + 1 } := by
    rw [Event.addHookAfter, Event.full, hev.onehook, Bool.and_false, if_neg Bool.false_ne_true,
      Option.getD_some, Event.addHookReally, Event.afterPos, List.insertIdx_length_self, hhp]
  obtain ⟨t, ht⟩ : ∃ t, s.hookLookup key callback = t := ⟨_, rfl⟩
  rw [ht]
  have hprogress : t.progress = s.progress := by
    rw [← ht]
    rfl
  have hother : ∀ k, k ≠ key → t.mem k = s.mem k := fun k hk => by
    rw [← ht, State.hookLookup]
    exact Function.update_of_ne hk _ _
  have hself : t.mem key = some { d with finished :=
      { d.finished with
        hooks := d.finished.hooks ++ [hp]
        numhooks := d.finished.numhooks + 1 } } := by
    rw [← hadd, ← ht]
    exact State.modify_mem_self h
  have howed : t.owed key = insert s.calls (s.owed key) := by
    rw [owed_eq hself hplace, owed_eq h hplace, hprogress, progress_eq_none.2 hkey, restOf, restOf,
      toCall_append, toCall_singleton (by rw [hhp]), hhp, Set.union_singleton]
  have hsame : t.done = s.done ∧ t.cancelled = s.cancelled ∧ t.calls = s.calls + 1 := by
    rw [← ht]
    exact ⟨rfl, rfl, rfl⟩
  obtain ⟨hdone, hcancelled, hcalls⟩ := hsame
  have hover : ∀ n, s.Over n → t.Over n := fun n hn => by
    rwa [State.Over, hdone, hcancelled]
  refine hs.change hother hprogress ?_ ?_ hover ?_
  · rw [hdone, hcancelled, hcalls]
    exact hs.ledger.owe howed fun k hk => owed_congr hprogress (hother k hk)
  · rw [hdone]
    exact hs.alive
  · intro d' hd' _
    cases hself.symm.trans hd'
    refine ⟨hev.onehook, ?_, ?_, ?_, fun hi => ⟨?_, ?_⟩⟩
    · rw [ids, List.map_append, List.map_singleton, List.nodup_append]
      refine ⟨hev.nodup, List.nodup_singleton _, fun a ha b hb => ?_⟩
      rintro rfl
      obtain rfl := List.mem_singleton.1 hb
      rw [hhp] at ha
      exact hs.fresh h hplace ha
    · intro n hn
      rw [howed]
      rw [ids, List.map_append, List.mem_append] at hn
      rcases hn with hn | hn
      · exact (hev.own n hn).imp (hover n) (Set.mem_insert_of_mem _)
      · rw [List.map_singleton, List.mem_singleton, hhp] at hn
        exact Or.inr (Or.inl hn)
    · intro b hb
      rcases List.mem_append.1 hb with hb | hb
      · exact hev.new b hb
      · rw [List.mem_singleton.1 hb, hhp, hcalling]
    · rw [List.length_append, (hev.plain ⟨hi, (by simp)⟩).1]
      rfl
    · intro b hb
      rcases List.mem_append.1 hb with hb | hb
      · exact (hev.plain ⟨hi, (by simp)⟩).2 b hb
      · rw [List.mem_singleton.1 hb, hhp]

/-- A lookup is made for a call. -/
theorem Booked.make (hs : Booked s) (hk : Kept none none s) (rrClass type : ℕ) (data : Bytes)
    (callback : F) : Booked (s.make rrClass type data callback) := by
  have hnone : s.mem s.keys = none := hk.shelved.fresh s.keys le_rfl
  have hkey : s.keys ∉ s.finishing := hk.notMem_finishing hnone
  obtain ⟨t, ht⟩ : ∃ t, s.make rrClass type data callback = t := ⟨_, rfl⟩
  rw [ht]
  rw [State.make_eq] at ht
  have hprogress : t.progress = s.progress := by
    rw [← ht]
    rfl
  have hother : ∀ k, k ≠ s.keys → t.mem k = s.mem k := fun k hk => by
    rw [← ht]
    exact Function.update_of_ne hk _ _
  have hself : t.mem s.keys = some (s.made rrClass type data callback) := by
    rw [← ht]
    exact Function.update_self _ _ _
  have hhooks : (s.made rrClass type data callback).finished.hooks =
      [{ id := s.calls, function := callback, deferred := false, new := false }] := rfl
  have howed : t.owed s.keys = insert s.calls (s.owed s.keys) := by
    rw [owed_of_none hnone, owed_eq hself (by simp [State.made]), hprogress,
      progress_eq_none.2 hkey, restOf, hhooks, toCall_singleton rfl, insert_empty_eq]
  have hsame : t.done = s.done ∧ t.cancelled = s.cancelled ∧ t.calls = s.calls + 1 := by
    rw [← ht]
    exact ⟨rfl, rfl, rfl⟩
  obtain ⟨hdone, hcancelled, hcalls⟩ := hsame
  refine hs.change hother hprogress ?_ ?_ (fun n hn => ?_) ?_
  · rw [hdone, hcancelled, hcalls]
    exact hs.ledger.owe howed fun k hk => owed_congr hprogress (hother k hk)
  · rw [hdone]
    exact hs.alive
  · rwa [State.Over, hdone, hcancelled]
  · intro d hd _
    cases hself.symm.trans hd
    refine ⟨rfl, ?_, ?_, ?_, fun _ => ⟨rfl, ?_⟩⟩
    · rw [hhooks]
      exact List.nodup_singleton _
    · intro n hn
      rw [hhooks, ids, List.map_singleton, List.mem_singleton] at hn
      rw [howed]
      exact Or.inr (Or.inl hn)
    · rw [hhooks]
      simp
    · rw [hhooks]
      simp

/-- The condition on a step: a call does not find a lookup that is being finished. -/
def Aside (s : State F) : Action F → Prop
  | .lookup rrClass type data _ => data.length ≤ maxNamelen →
    ∀ key ∈ s.findLookup rrClass type data, key ∉ s.finishing
  | _ => True

theorem Booked.lookup (hs : Booked s) (hk : Kept none none s) {rrClass type : ℕ} {data : Bytes}
    (haside : Aside s (.lookup rrClass type data callback)) :
    Booked (s.lookup rrClass type data callback) := by
  rw [State.lookup]
  split
  · exact hs
  · rename_i hlen
    split
    · exact hs.make hk rrClass type data callback
    · rename_i key hfind
      obtain ⟨d, hd⟩ := hk.shelved.found hfind
      rw [hd]
      split
      · exact hs.serve hd
      · rename_i hcache
        have hplace : d.place ≠ some .cache := by simpa using hcache
        exact hs.hookLookup hk hd hplace (haside (not_lt.1 hlen) key hfind)

/-! ### Runs -/

/-- Every step that meets the conditions keeps the books right. -/
theorem Booked.step {a : Action F} (hs : Booked s) (hk : Kept none none s) (hG : Steady env s a)
    (haside : Aside s a) (h : Stepped env s a s') : Booked s' := by
  cases h with
  | lookup rrClass type data callback _ => exact hs.lookup hk haside
  | cancel callback _ => exact hs.cancel hk hG
  | @once rest hframes wrote junk _ more h =>
    have hready : SendReady env { s with frames := rest } := by
      intro hcount key hkey hin
      refine hG.2 hcount key hkey ?_
      rw [State.finishing, hframes]
      exact hin
    exact (hs.quiet (quiet_pop hframes rfl)).send (hk.shelved.other rfl rfl rfl rfl) hready h
  | more hframes wrote junk _ h => exact hs.send hk.shelved hG.2 h
  | last hframes wrote junk t h =>
    have hsend := hs.send hk.shelved hG.2 h
    exact hsend.quiet (quiet_pop ((send_frames h).trans hframes) rfl)
  | @ret key cur nc rest hframes =>
    obtain ⟨d, hd, hplace, -, hcur⟩ :=
      hk.held (.running key cur nc) (hframes ▸ List.mem_cons_self)
    rw [State.ret, hd]
    dsimp only
    rw [if_pos hcur]
    exact hs.ret hd hplace hframes
  | served hframes => exact hs.quiet (quiet_pop hframes rfl)
  | settle hframes _ h => exact hs.settle hk hframes hG h
  | poll hframes => exact hs.quiet (quiet_push rfl)
  | reply hframes pkt _ h => exact hs.reply hk.shelved hframes h
  | tick hframes ref _ h => exact hs.tick hk hframes h
  | reload hframes conf sock => exact hs.quiet (quiet_reload hk.shelved conf sock)
  | clock hframes now => exact hs.quiet (quiet_other rfl rfl rfl rfl rfl)

/-- What is to hold of the calls: none is lost or called back more than once, and a callback is
given a lookup that is there. -/
structure Called (s : State F) : Prop where
  fault : s.fault = false
  total : ∀ n < s.calls, n ∈ s.done.map Prod.fst ∨ n ∈ s.cancelled ∨
    ∃ p, p ≠ .cache ∧ ∃ k ∈ s.lists p, n ∈ s.owed k
  once : (s.done.map Prod.fst).Nodup
  settled : ∀ n ∈ s.done.map Prod.fst, n ∉ s.cancelled ∧ ∀ k, n ∉ s.owed k
  alive : ∀ c ∈ s.done, c.2 = true

omit [DecidableEq F] in
theorem Booked.called (hs : Booked s) (hk : Kept none none s) : Called s where
  fault := hk.fault
  total := by
    intro n hn
    rcases (hs.ledger.total n).1 hn with hn | hn | ⟨k, hn⟩
    · exact Or.inl hn
    · exact Or.inr (Or.inl hn)
    · refine Or.inr (Or.inr ?_)
      cases hd : s.mem k with
      | none =>
        rw [owed_of_none hd] at hn
        exact absurd hn (Set.notMem_empty n)
      | some d =>
        rcases hplace : d.place with _ | p
        · exact absurd hplace (hk.shelved.listed k d hd)
        · refine ⟨p, ?_, k, ((hk.shelved.placed p).2 k).2 ((place_eq hd).trans hplace), hn⟩
          rintro rfl
          rw [owed_of_cache hd hplace] at hn
          exact Set.notMem_empty n hn
  once := hs.ledger.once
  settled := hs.ledger.paid
  alive := hs.alive

/-- In a run whose steps meet the conditions every call is called back once, unless it is
cancelled. -/
theorem called_of_run (env : Env) {now : ℤ} {as : List (Action F)}
    (hG : Run.Along (step env) (fun s a => Steady env s a ∧ Aside s a) (start now) as)
    (hrun : Run.run (step env) (start now) as = some s) : Called s := by
  have hbooked := Run.run_invariant (I := fun s => Kept none none s ∧ Booked s)
    (fun _ _ _ hs hG h =>
      ⟨hs.1.step hG.1 (stepped h).2, hs.2.step hs.1 hG.1 hG.2 (stepped h).2⟩)
    ⟨kept_start now, booked_start now⟩ hG hrun
  exact hbooked.2.called hbooked.1

instance (s : State F) : DecidablePred (Aside s)
  | .lookup rrClass type data _ => inferInstanceAs (Decidable (data.length ≤ maxNamelen →
      ∀ key ∈ s.findLookup rrClass type data, key ∉ s.finishing))
  | .cancel _ | .send _ _ | .ret | .settle | .poll | .reply _ | .tick _ | .reload _ _ | .clock _ =>
    isTrue trivial

/-- A callback makes a lookup. The first one is given to another call then, and the second one
cancelled. -/
def lookupNested : List (Action ℕ) :=
  lookupA (bytes "a") ++
    [.lookup 1 1 (bytes "b") 1, .send true 0, .ret, .settle, .lookup 1 1 (bytes "A") 2, .ret,
      .cancel 1]

theorem called_of_run_nested :
    ∃ s, Run.run (step labelEnv) (start 0) lookupNested = some s ∧ Called s := by
  have hsome : (Run.run (step labelEnv) (start 0) lookupNested).isSome := by decide +kernel
  obtain ⟨s, hs⟩ := Option.isSome_iff_exists.1 hsome
  exact ⟨s, hs, called_of_run labelEnv (by decide +kernel) hs⟩

/-- A callback makes the lookup that it is called for once more. -/
def lookupAgain : List (Action ℕ) :=
  lookupA (bytes "a") ++ [.lookup 1 1 (bytes "a") 1, .ret, .settle]

/-- The callback of that call is not called. -/
theorem called_fails : ¬ ∀ (env : Env) (now : ℤ) (as : List (Action ℕ)) (s : State ℕ),
    Run.run (step env) (start now) as = some s → Called s := by
  intro hall
  have hlost : (Run.run (step labelEnv) (start 0) lookupAgain).map (fun s =>
      (s.calls, s.done, s.cancelled, s.lists .waiting, s.lists .pending)) =
      some (2, [(0, true)], [], [], []) := by decide +kernel
  obtain ⟨s, hs, heq⟩ := Option.map_eq_some_iff.1 hlost
  obtain ⟨hcalls, hdone, hcancelled, hwaiting, hpending⟩ := by simpa using heq
  have htotal := (hall labelEnv 0 _ s hs).total 1 (by rw [hcalls]; decide)
  rw [hdone, hcancelled] at htotal
  rcases htotal with h | h | ⟨p, hp, k, hk, -⟩
  · exact absurd h (by decide)
  · exact absurd h (by decide)
  · cases p with
    | waiting =>
      rw [hwaiting] at hk
      cases hk
    | pending =>
      rw [hpending] at hk
      cases hk
    | cache => exact hp rfl

end

end Dns

end Ithildin
