import Ithildin.Event.Bookkeeping

/-!
# Passes within passes

A hook may call `hook_event` on its own event. There is one bit for all the calls that are active,
so the inner one takes the marks away from under the outer one: it frees what the outer one stands
on and lets it see what was added since.

`Held` is what keeps one active pass safe. Every action keeps it for all of them if, while a pass is
active, nothing it stands on is freed and no hook added since loses the mark it is skipped by
(`sound_of_run`).
-/

namespace Ithildin

namespace Pass

open Event

variable {F : Type}

/-! ### One pass -/

/-- A hook that the pass may still call: it was there at the start and is not marked. -/
def Frame.old (fr : Frame) (h : Hook F) : Bool :=
  decide (h.id < fr.start) && !h.deferred

/-- How many hooks the pass may still call behind the one at `cur`. -/
def Frame.remaining (fr : Frame) (cur : ℕ) (hooks : List (Hook F)) : ℕ :=
  (Cursor.behind (·.id) cur hooks).countP fr.old

/-- What keeps a pass safe: the hook it stands on is on the list, the hooks added since are marked,
and there is room for the results to come. -/
structure Held (hooks : List (Hook F)) (next maxhooks : ℕ) (fr : Frame) : Prop where
  start_le : fr.start ≤ next
  fresh : ∀ h ∈ hooks, fr.start ≤ h.id → h.deferred = true ∨ h.new = true
  there : ∀ cur ∈ fr.current, cur ∈ ids hooks
  room : ∀ cur ∈ fr.current, fr.i + 1 + fr.remaining cur hooks < maxhooks

variable {hooks : List (Hook F)} {next maxhooks : ℕ} {fr : Frame}

theorem Held.mono {next' maxhooks' : ℕ} (hfr : Held hooks next maxhooks fr) (hn : next ≤ next')
    (hm : maxhooks ≤ maxhooks') : Held hooks next' maxhooks' fr :=
  ⟨hfr.start_le.trans hn, hfr.fresh, hfr.there, fun cur hcur => (hfr.room cur hcur).trans_le hm⟩

/-- A hook that is added meanwhile has the mark. -/
theorem Held.insertIdx (hfr : Held hooks next maxhooks fr) (hlt : ∀ id ∈ ids hooks, id < next)
    {f : F} {n : ℕ} (hn : n ≤ hooks.length) :
    Held (hooks.insertIdx n { id := next, function := f, deferred := false, new := true })
      (next + 1) maxhooks fr where
  start_le := hfr.start_le.trans (Nat.le_succ next)
  fresh := by
    rintro h hh hstart
    rcases (List.mem_insertIdx hn).mp hh with rfl | hh
    · exact .inr rfl
    · exact hfr.fresh h hh hstart
  there := by
    rintro cur hcur
    obtain ⟨h, hh, rfl⟩ := List.mem_map.mp (hfr.there cur hcur)
    exact List.mem_map_of_mem ((List.mem_insertIdx hn).mpr (.inr hh))
  room := by
    rintro cur hcur
    have hne : next ≠ cur := (hlt cur (hfr.there cur hcur)).ne'
    have hnot : fr.old { id := next, function := f, deferred := false, new := true } = false := by
      simpa [Frame.old] using hfr.start_le
    rw [Frame.remaining, Cursor.countP_behind_insertIdx hnot hne]
    exact hfr.room cur hcur

theorem old_defer (fr : Frame) (id : ℕ) (h : Hook F) :
    fr.old (if h.id = id then { h with deferred := true } else h) = true → fr.old h = true := by
  by_cases hid : h.id = id
  · simp [Frame.old, hid]
  · simp [hid]

theorem remaining_defer_le (fr : Frame) (cur id : ℕ) :
    fr.remaining cur (defer id hooks) ≤ fr.remaining cur hooks := by
  have hkey : ∀ h : Hook F, (if h.id = id then { h with deferred := true } else h).id = h.id := by
    intro h
    split <;> rfl
  rw [Frame.remaining, defer, Cursor.behind_map hkey, List.countP_map]
  exact List.countP_mono_left fun h _ => old_defer fr id h

theorem Held.defer (hfr : Held hooks next maxhooks fr) (id : ℕ) :
    Held (defer id hooks) next maxhooks fr where
  start_le := hfr.start_le
  fresh := by
    rintro h hh hstart
    obtain ⟨b, hb, rfl⟩ := List.mem_map.mp hh
    by_cases hid : b.id = id
    · exact .inl (by simp [hid])
    · rw [if_neg hid] at hstart ⊢
      exact hfr.fresh b hb hstart
  there := fun cur hcur => by
    rw [ids_defer]
    exact hfr.there cur hcur
  room := fun cur hcur =>
    (Nat.add_le_add_left (remaining_defer_le fr cur id) _).trans_lt (hfr.room cur hcur)

/-- Freeing a hook leaves a pass safe that does not stand on it. -/
theorem Held.filter (hfr : Held hooks next maxhooks fr) {id : ℕ} (hid : fr.current ≠ some id) :
    Held (hooks.filter (·.id ≠ id)) next maxhooks fr where
  start_le := hfr.start_le
  fresh := fun h hh => hfr.fresh h (List.mem_of_mem_filter hh)
  there := by
    rintro cur hcur
    obtain ⟨h, hh, rfl⟩ := List.mem_map.mp (hfr.there cur hcur)
    have hne : h.id ≠ id := fun heq => hid (heq ▸ hcur)
    exact List.mem_map_of_mem (List.mem_filter.mpr ⟨hh, by simpa using hne⟩)
  room := by
    rintro cur hcur
    have hkeep : ∀ h ∈ hooks, h.id = cur → decide (h.id ≠ id) = true := by
      rintro h - rfl
      exact decide_eq_true fun heq => hid (heq ▸ hcur)
    refine lt_of_le_of_lt (Nat.add_le_add_left ?_ _) (hfr.room cur hcur)
    rw [Frame.remaining, Cursor.behind_filter hkeep]
    exact List.filter_sublist.countP_le

/-- The loop at the end of another pass leaves this one safe if it does not stand on a marked hook
and no hook that was added since it began has the mark of a new one. -/
theorem Held.sweep (hfr : Held hooks next maxhooks fr)
    (hcur : ∀ h ∈ hooks, h.deferred = true → fr.current ≠ some h.id)
    (hnew : ∀ h ∈ hooks, h.deferred = false → h.new = true → h.id < fr.start) :
    Held (sweep hooks) next maxhooks fr where
  start_le := hfr.start_le
  fresh := by
    rintro h hh hstart
    obtain ⟨b, hb, rfl⟩ := List.mem_map.mp hh
    obtain ⟨hb, hbd⟩ := List.mem_filter.mp hb
    have hd : b.deferred = false := by simpa using hbd
    rcases hfr.fresh b hb hstart with hd' | hn
    · simp [hd] at hd'
    · exact absurd hstart (not_le.mpr (hnew b hb hd hn))
  there := by
    rintro cur hc
    obtain ⟨h, hh, rfl⟩ := List.mem_map.mp (hfr.there cur hc)
    have hd : h.deferred = false := by
      rw [← Bool.not_eq_true]
      exact fun hd => hcur h hh hd hc
    rw [ids_sweep]
    exact List.mem_map_of_mem (List.mem_filter.mpr ⟨hh, by simp [hd]⟩)
  room := by
    rintro cur hc
    have hkeep : ∀ h ∈ hooks, h.id = cur → (!h.deferred) = true := by
      rintro h hh rfl
      rw [Bool.not_eq_true', ← Bool.not_eq_true]
      exact fun hd => hcur h hh hd hc
    refine lt_of_le_of_lt (Nat.add_le_add_left ?_ _) (hfr.room cur hc)
    have hkey : ∀ h : Hook F, ({ h with new := false } : Hook F).id = h.id := fun _ => rfl
    rw [Frame.remaining, Event.sweep, Cursor.behind_map hkey, Cursor.behind_filter hkeep,
      List.countP_map]
    exact List.filter_sublist.countP_le

/-- A pass that has come to the next hook. -/
theorem Held.walk (hnd : (ids hooks).Nodup) (hstart : fr.start ≤ next)
    (hfresh : ∀ h ∈ hooks, fr.start ≤ h.id → h.deferred = true ∨ h.new = true)
    {needclean nc : Bool} {before ahead : List (Hook F)} {o : Option (Hook F)}
    (hhooks : hooks = before ++ ahead) (hw : Event.walk needclean ahead = (o, nc))
    (hcur : fr.current = o.map (·.id)) (hroom : fr.i + ahead.countP fr.old < maxhooks) :
    Held hooks next maxhooks fr := by
  refine ⟨hstart, hfresh, fun cur hc => ?_, fun cur hc => ?_⟩
  all_goals
    obtain ⟨h, rfl, rfl⟩ := Option.map_eq_some_iff.mp (hcur.symm.trans hc)
    obtain ⟨hd, hn, skipped, after, rfl⟩ := walk_eq_some hw
    have hmem : h ∈ hooks := by simp [hhooks]
  · exact List.mem_map_of_mem hmem
  · have hold : fr.old h = true := by
      have hlt : h.id < fr.start := by
        by_contra hge
        rcases hfresh h hmem (not_lt.mp hge) with hd' | hn'
        · simp [hd] at hd'
        · simp [hn] at hn'
      simp [Frame.old, hlt, hd]
    have hafter : Cursor.behind (·.id) h.id hooks = after := by
      rw [hhooks, ← List.append_assoc]
      rw [hhooks, ← List.append_assoc, ids, List.map_append, List.map_cons] at hnd
      exact Cursor.behind_append fun hin =>
        (List.nodup_append.mp hnd).2.2 _ hin _ List.mem_cons_self rfl
    rw [List.countP_append, List.countP_cons_of_pos hold] at hroom
    rw [Frame.remaining, hafter]
    omega

/-- Fewer hooks may be called than there are live ones. -/
theorem countP_old_le (fr : Frame) (hooks : List (Hook F)) :
    hooks.countP fr.old ≤ (live hooks).length := by
  rw [live, ← List.countP_eq_length_filter]
  refine List.countP_mono_left fun h _ hold => ?_
  exact (Bool.and_eq_true_iff.mp hold).2

/-! ### All the passes -/

/-- No freed hook is stepped to, no result is written behind the end of `hookreturns`, and every
hook that has been called was registered at the time and on the list when the pass began. -/
structure Sound (s : State F) : Prop where
  fault : s.fault = none
  log : ∀ c ∈ s.log, c.registered = true ∧ c.old = true

/-- What the steps keep. -/
structure Guarded (s : State F) : Prop extends Sound s where
  listed : Listed s
  excess : 0 ≤ s.excess
  pos : 0 < s.maxhooks
  capacity : s.ev.numhooks < s.maxhooks
  held : ∀ fr ∈ s.frames, Held s.ev.hooks s.next s.maxhooks fr

theorem le_grown (m : ℕ) (n : ℤ) : m ≤ grown m n := by
  rw [grown]
  split <;> omega

theorem guarded_start (flags : EventFlags) : Guarded (start flags : State F) where
  fault := rfl
  log := by simp [start]
  listed := listed_start flags
  excess := le_rfl
  pos := by simp [start]
  capacity := by simp [start, create]
  held := by simp [start]

variable {s s' : State F} {a : Action F}

theorem Guarded.added (hs : Guarded s) {f : F} {n : ℕ} (hn : n ≤ s.ev.hooks.length)
    (hmark : s.frames = [] ∨ s.ev.calling = true) :
    Guarded (s.added (some f) (some (s.ev.addHookReally s.next f n))) := by
  have hcap := hs.capacity
  have hpos := hs.pos
  have hgrown := le_grown s.maxhooks (s.ev.numhooks + 1)
  refine ⟨⟨hs.fault, hs.log⟩, hs.listed.added f hn, ?_, hpos.trans_le hgrown, ?_, ?_⟩
  · rw [excess_added f hn]
    exact hs.excess
  · show s.ev.numhooks + 1 < (grown s.maxhooks (s.ev.numhooks + 1) : ℕ)
    rw [grown]
    split <;> push_cast <;> omega
  · rintro fr (hfr : fr ∈ s.frames)
    have hcalling : s.ev.calling = true :=
      hmark.resolve_left fun hnil => by simp [hnil] at hfr
    have hheld := ((hs.held fr hfr).insertIdx hs.listed.lt hn (f := f)).mono le_rfl hgrown
    simpa only [State.added, addHookReally, hcalling] using hheld

variable [DecidableEq F]

/-- While a pass is active a hook that is added gets the mark of a new one. -/
def MarksNew (s : State F) (func : Option F) : Prop :=
  s.frames = [] ∨ s.ev.calling = true ∨ func = none ∨ s.ev.full = true

/-- `remove_hook` comes to no marked hook and frees none that a pass stands on. -/
def FreesIdle (s : State F) (f : F) : Prop :=
  ∀ hp ∈ s.ev.findHook f, hp.deferred = false ∧
    (s.ev.calling = false → ∀ fr ∈ s.frames, fr.current ≠ some hp.id)

/-- The pass that ends leaves the passes around it what they stand on, and its mark to every hook
that was added since they began. -/
def SweepsIdle (s : State F) : Prop :=
  ∀ fr ∈ s.frames.head?, fr.needclean = true → ∀ outer ∈ s.frames.tail, ∀ h ∈ s.ev.hooks,
    (h.deferred = true → outer.current ≠ some h.id) ∧
    (h.deferred = false → h.new = true → h.id < outer.start)

/-- The condition on a step. -/
def Orderly (s : State F) : Action F → Prop
  | .add func _ | .addBefore func _ => MarksNew s func
  | .remove f => FreesIdle s f
  | .finish => SweepsIdle s
  | _ => True

instance (s : State F) : DecidablePred (Orderly s)
  | .add func _ | .addBefore func _ => inferInstanceAs (Decidable
      (s.frames = [] ∨ s.ev.calling = true ∨ func = none ∨ s.ev.full = true))
  | .remove f => inferInstanceAs (Decidable (∀ hp ∈ s.ev.findHook f, hp.deferred = false ∧
      (s.ev.calling = false → ∀ fr ∈ s.frames, fr.current ≠ some hp.id)))
  | .finish => inferInstanceAs (Decidable (∀ fr ∈ s.frames.head?, fr.needclean = true →
      ∀ outer ∈ s.frames.tail, ∀ h ∈ s.ev.hooks,
        (h.deferred = true → outer.current ≠ some h.id) ∧
        (h.deferred = false → h.new = true → h.id < outer.start)))
  | .call | .ret _ | .grow => isTrue trivial

/-- What is called is registered and was there when the pass began. -/
theorem logged_sound (hreg : (liveEntries hooks).Perm s.reg)
    (hlog : ∀ c ∈ s.log, c.registered = true ∧ c.old = true)
    {start : ℕ} {needclean nc : Bool} {before ahead : List (Hook F)} {o : Option (Hook F)}
    (hfresh : ∀ h ∈ hooks, start ≤ h.id → h.deferred = true ∨ h.new = true)
    (hhooks : hooks = before ++ ahead) (hw : Event.walk needclean ahead = (o, nc)) :
    ∀ c ∈ s.logged start o, c.registered = true ∧ c.old = true := by
  cases o with
  | none => exact hlog
  | some h =>
    obtain ⟨hd, hn, skipped, after, rfl⟩ := walk_eq_some hw
    have hmem : h ∈ hooks := by simp [hhooks]
    have hin : entry h ∈ s.reg := hreg.subset (mem_liveEntries hd hmem)
    have hlt : h.id < start := by
      by_contra hge
      rcases hfresh h hmem (not_lt.mp hge) with hd' | hn'
      · simp [hd] at hd'
      · simp [hn] at hn'
    rintro c hc
    rcases List.mem_cons.mp hc with rfl | hc
    · exact ⟨decide_eq_true hin, decide_eq_true hlt⟩
    · exact hlog c hc

theorem Guarded.called (hs : Guarded s) : Guarded s.called := by
  have hfresh : ∀ h ∈ s.ev.hooks, s.next ≤ h.id → h.deferred = true ∨ h.new = true :=
    fun h hh hge => absurd (hs.listed.lt _ (List.mem_map_of_mem hh)) (not_lt.mpr hge)
  refine ⟨⟨hs.fault, ?_⟩, ⟨hs.listed.nodup, hs.listed.lt, hs.listed.reg⟩, hs.excess, hs.pos,
    hs.capacity, ?_⟩
  · exact logged_sound hs.listed.reg hs.log hfresh (List.nil_append _).symm rfl
  · rintro fr hfr
    rcases List.mem_cons.mp hfr with rfl | hfr
    · refine Held.walk hs.listed.nodup le_rfl hfresh (List.nil_append _).symm rfl rfl ?_
      refine lt_of_le_of_lt (Nat.add_le_add_left (countP_old_le _ _) _) ?_
      have hexc := hs.excess
      have hcap := hs.capacity
      rw [State.excess] at hexc
      show 0 + (live s.ev.hooks).length < s.maxhooks
      omega
    · exact hs.held fr hfr

theorem Guarded.finished (hs : Guarded s) {fr : Frame} {rest : List Frame}
    (hframes : s.frames = fr :: rest) (hG : Orderly s .finish) : Guarded (s.finished fr rest) := by
  refine ⟨⟨hs.fault, hs.log⟩, hs.listed.finished fr rest, ?_, hs.pos, hs.capacity, ?_⟩
  · rw [excess_finished]
    exact hs.excess
  · rintro outer (houter : outer ∈ rest)
    have hheld := hs.held outer (by rw [hframes]; exact List.mem_cons_of_mem fr houter)
    rw [State.finished]
    dsimp only
    split
    case isTrue hclean =>
      have hswept := hG fr (by simp [hframes]) hclean outer (by simpa [hframes] using houter)
      exact hheld.sweep (fun h hh => (hswept h hh).1) fun h hh => (hswept h hh).2
    case isFalse => exact hheld

theorem Guarded.passedOn (hs : Guarded s) {fr : Frame} {rest : List Frame} {cur : ℕ} (v : ℤ)
    (hframes : s.frames = fr :: rest) (hcur : fr.current = some cur) :
    Guarded (s.passedOn fr rest cur v) := by
  have hlisted := hs.listed.passedOn fr rest cur v
  have hheld : ∀ o ∈ s.frames,
      Held (s.passedOn fr rest cur v).ev.hooks s.next s.maxhooks o := by
    rintro o ho
    rw [State.passedOn]
    dsimp only
    split
    · exact (hs.held o ho).defer cur
    · exact hs.held o ho
  have hfr := hheld fr (by simp [hframes])
  -- the loop goes on in what is behind the hook
  obtain ⟨before, hsplit⟩ := @Cursor.behind_suffix _ _ _ (fun h : Hook F => h.id) cur
    (s.passedOn fr rest cur v).ev.hooks
  refine ⟨⟨hs.fault, ?_⟩, hlisted, hs.excess.trans (excess_passedOn_le fr rest cur v), hs.pos,
    hs.capacity, ?_⟩
  · exact logged_sound (s := { s with reg := (s.passedOn fr rest cur v).reg }) hlisted.reg hs.log
      hfr.fresh hsplit.symm rfl
  · rintro o ho
    rcases List.mem_cons.mp ho with rfl | ho
    · refine Held.walk hlisted.nodup hfr.start_le hfr.fresh hsplit.symm rfl rfl ?_
      exact hfr.room cur hcur
    · exact hheld o (by rw [hframes]; exact List.mem_cons_of_mem fr ho)

theorem Guarded.removed (hs : Guarded s) {f : F} {hp : Hook F}
    (hfind : s.ev.findHook f = some hp) (hd : hp.deferred = false)
    (hfree : s.ev.calling = false → ∀ fr ∈ s.frames, fr.current ≠ some hp.id) :
    Guarded { s with
      ev := { s.ev with
        numhooks := s.ev.numhooks - 1
        hooks := if s.ev.calling then Event.defer hp.id s.ev.hooks
          else s.ev.hooks.filter (·.id ≠ hp.id) }
      reg := s.unregister f } := by
  have hcap := hs.capacity
  refine ⟨⟨hs.fault, hs.log⟩, hs.listed.removed hfind hd, ?_, hs.pos, ?_, ?_⟩
  · exact hs.excess.trans (hs.listed.excess_removed hfind hd).ge
  · show s.ev.numhooks - 1 < s.maxhooks
    omega
  · rintro fr hfr
    dsimp only
    split
    case isTrue => exact (hs.held fr hfr).defer hp.id
    case isFalse hcalling =>
      exact (hs.held fr hfr).filter (hfree (by simpa using hcalling) fr hfr)

/-- A step that meets the condition keeps every active pass safe. -/
theorem Guarded.step (hs : Guarded s) (hG : Orderly s a) (h : Pass.step s a = some s') :
    Guarded s' := by
  cases (steps_of_step h).2 with
  | grow =>
    have hpos := hs.pos
    have hcap := hs.capacity
    refine ⟨⟨hs.fault, hs.log⟩, ⟨hs.listed.nodup, hs.listed.lt, hs.listed.reg⟩, hs.excess, ?_, ?_,
      fun fr hfr => (hs.held fr hfr).mono le_rfl ?_⟩ <;> dsimp only <;> omega
  | refused => exact hs
  | added a f n ha hn hfull =>
    refine hs.added hn ?_
    obtain ⟨at', rfl | rfl⟩ := ha
    all_goals
      rcases hG with hnil | hcalling | hnone | hone
      · exact .inl hnil
      · exact .inr hcalling
      · cases hnone
      · simp [hfull] at hone
  | notFound f hfind =>
    rw [hs.listed.unregister_of_none hfind]
    exact hs
  | removed f hp hfind =>
    exact hs.removed hfind (hG hp hfind).1 (hG hp hfind).2
  | called => exact hs.called
  | overrun v fr rest cur hfr hcur hi =>
    have hroom := (hs.held fr (by simp [hfr])).room cur hcur
    omega
  | stopped v fr rest hfr hi hstop =>
    refine ⟨⟨hs.fault, hs.log⟩, ⟨hs.listed.nodup, hs.listed.lt, hs.listed.reg⟩, hs.excess, hs.pos,
      hs.capacity, fun o ho => ?_⟩
    rcases List.mem_cons.mp ho with rfl | ho
    · have hheld := hs.held fr (by simp [hfr])
      exact ⟨hheld.start_le, hheld.fresh, by simp, by simp⟩
    · exact hs.held o (by rw [hfr]; exact List.mem_cons_of_mem fr ho)
  | freed v fr rest cur hfr hcur hstop hmem =>
    exact absurd ((hs.held fr (by simp [hfr])).there cur hcur) hmem
  | passedOn v fr rest cur hfr hcur => exact hs.passedOn v hfr hcur
  | finished fr rest hfr => exact hs.finished hfr hG

/-- In a run whose steps meet the condition every pass is safe. -/
theorem sound_of_run {flags : EventFlags} {as : List (Action F)} {t : State F}
    (hG : Run.Along Pass.step Orderly (start flags) as)
    (hrun : Run.run Pass.step (start flags) as = some t) : Sound t :=
  (Run.run_invariant (fun _ _ _ hs hG h => Guarded.step hs hG h) (guarded_start flags) hG
    hrun).toSound

/-- A pass within a pass, and a hook that is removed behind where the outer one stands. -/
def nestedPass : List (Action ℕ) :=
  [.add (some 7) none, .add (some 8) none, .call, .call, .ret 0, .ret 0, .finish, .remove 8,
    .ret 0, .finish]

theorem sound_of_run_nested :
    ∃ t : State ℕ, Run.run Pass.step (start plainFlags) nestedPass = some t ∧ Sound t :=
  ⟨_, rfl, @sound_of_run ℕ _ plainFlags nestedPass _ (by decide) rfl⟩

/-- A hook that removes itself and calls `hook_event` is freed under the outer call. -/
theorem sound_fails : ¬ ∀ (flags : EventFlags) (as : List (Action ℕ)) (t : State ℕ),
    Run.run Pass.step (start flags) as = some t → Sound t := by
  intro hall
  have hbad := hall plainFlags
    [.add (some 7) none, .call, .remove 7, .call, .finish, .ret 0] _ rfl
  exact absurd hbad.fault (by decide)

end Pass

end Ithildin
