import Ithildin.Event.Pass

/-!
# The count of an event's hooks

`numhooks` and the list against the registrations in force, over any run. The list loses nothing as
long as `remove_hook` does not come to a hook that is marked already; the count is right as long as,
besides, no one-shot hook is swept that has not removed itself (`counted_of_run`).
-/

namespace Ithildin

namespace Pass

open Event

variable {F : Type}

/-! ### Registrations and live hooks -/

/-- The live hooks are the registrations in force, each at an address of its own. -/
structure Listed (s : State F) : Prop where
  nodup : (ids s.ev.hooks).Nodup
  lt : ∀ id ∈ ids s.ev.hooks, id < s.next
  reg : (liveEntries s.ev.hooks).Perm s.reg

/-- How much `numhooks` is above the number of the live hooks. -/
def State.excess (s : State F) : ℤ :=
  s.ev.numhooks - (live s.ev.hooks).length

variable {s : State F}

theorem listed_start (flags : EventFlags) : Listed (start flags : State F) where
  nodup := List.nodup_nil
  lt := by simp [start, create, ids]
  reg := List.Perm.refl _

theorem live_insertIdx_perm {hooks : List (Hook F)} {h : Hook F} {n : ℕ} (hn : n ≤ hooks.length)
    (hd : h.deferred = false) : (live (hooks.insertIdx n h)).Perm (h :: live hooks) := by
  have hperm := (List.perm_insertIdx h hooks hn).filter fun h => !h.deferred
  rwa [List.filter_cons_of_pos (by simp [hd])] at hperm

theorem live_removed (s : State F) (hp : Hook F) :
    live (if s.ev.calling then defer hp.id s.ev.hooks else s.ev.hooks.filter (·.id ≠ hp.id)) =
      (live s.ev.hooks).filter (·.id ≠ hp.id) := by
  split
  · exact live_defer hp.id
  · exact live_filter hp.id

theorem ids_removed_sublist (s : State F) (hp : Hook F) :
    (ids (if s.ev.calling then defer hp.id s.ev.hooks
      else s.ev.hooks.filter (·.id ≠ hp.id))).Sublist (ids s.ev.hooks) := by
  split
  · rw [ids_defer]
  · exact List.filter_sublist.map _

/-- Taking the live hook at an address off takes its entry off. -/
theorem Listed.live_filter_perm (hs : Listed s) {hp : Hook F} (hmem : hp ∈ s.ev.hooks)
    (hd : hp.deferred = false) :
    (entry hp :: ((live s.ev.hooks).filter (·.id ≠ hp.id)).map entry).Perm s.reg :=
  (entries_filter_perm (ids_live_sublist.nodup hs.nodup)
    (List.mem_filter.mpr ⟨hmem, by simp [hd]⟩)).trans hs.reg

theorem Listed.finished (hs : Listed s) (fr : Frame) (rest : List Frame) :
    Listed (s.finished fr rest) := by
  rw [State.finished]
  split
  case isTrue =>
    have hsub : (ids (sweep s.ev.hooks)).Sublist (ids s.ev.hooks) := by
      rw [ids_sweep]
      exact ids_live_sublist
    exact ⟨hsub.nodup hs.nodup, fun id hid => hs.lt id (hsub.subset hid), by
      rw [liveEntries_sweep]
      exact hs.reg⟩
  case isFalse => exact ⟨hs.nodup, hs.lt, hs.reg⟩

theorem Listed.added (hs : Listed s) (f : F) {n : ℕ} (hn : n ≤ s.ev.hooks.length) :
    Listed (s.added (some f) (some (s.ev.addHookReally s.next f n))) where
  nodup := by
    have hperm := (List.perm_insertIdx
      { id := s.next, function := f, deferred := false, new := s.ev.calling } s.ev.hooks hn).map
      (·.id)
    refine hperm.nodup_iff.mpr (List.nodup_cons.mpr ⟨fun hmem => ?_, hs.nodup⟩)
    exact (hs.lt _ hmem).false
  lt := by
    rintro id hid
    obtain ⟨h, hh, rfl⟩ := List.mem_map.mp hid
    rcases (List.mem_insertIdx hn).mp hh with rfl | hh
    · exact Nat.lt_succ_self _
    · exact Nat.lt_succ_of_lt (hs.lt _ (List.mem_map_of_mem hh))
  reg := ((live_insertIdx_perm hn rfl).map entry).trans (hs.reg.cons _)

theorem excess_added (f : F) {n : ℕ} (hn : n ≤ s.ev.hooks.length) :
    (s.added (some f) (some (s.ev.addHookReally s.next f n))).excess = s.excess := by
  have hlen := (@live_insertIdx_perm F s.ev.hooks
    { id := s.next, function := f, deferred := false, new := s.ev.calling } n hn rfl).length_eq
  simp only [State.excess, State.added, addHookReally, hlen, List.length_cons]
  omega

theorem excess_finished (fr : Frame) (rest : List Frame) :
    (s.finished fr rest).excess = s.excess := by
  rw [State.excess, State.excess, State.finished]
  dsimp only
  split
  · rw [length_live_sweep]
  · rfl

variable [DecidableEq F] {s' : State F} {a : Action F}

/-- Does `remove_hook` come to a hook that is not marked yet, if to any? -/
def FindsLive (s : State F) (f : F) : Prop :=
  ∀ hp ∈ s.ev.findHook f, hp.deferred = false

instance (s : State F) (f : F) : Decidable (FindsLive s f) :=
  inferInstanceAs (Decidable (∀ hp ∈ s.ev.findHook f, hp.deferred = false))

/-- The registrations after a removal that comes to a live hook. -/
theorem Listed.unregister (hs : Listed s) {f : F} {hp : Hook F}
    (hfind : s.ev.findHook f = some hp) (hd : hp.deferred = false) :
    s.unregister f = s.reg.erase (entry hp) := by
  have hmem : hp ∈ s.ev.hooks := List.mem_of_find?_eq_some hfind
  have hreg : entry hp ∈ s.reg := hs.reg.subset (mem_liveEntries hd hmem)
  obtain ⟨hf, before, after, heq, hbefore⟩ := List.find?_eq_some_iff_append.mp hfind
  have hsame : (s.ev.hooks.find? fun h => h.function = f ∧ entry h ∈ s.reg) = some hp := by
    refine List.find?_eq_some_iff_append.mpr ⟨by simpa [hreg] using hf, before, after, heq, ?_⟩
    rintro b hb
    have hne : b.function ≠ f := by simpa using hbefore b hb
    simp [hne]
  rw [State.unregister, hsame]

/-- No hook has the function: there is no registration of it either. -/
theorem Listed.unregister_of_none (hs : Listed s) {f : F} (hfind : s.ev.findHook f = none) :
    s.unregister f = s.reg := by
  have hno : ∀ h ∈ s.ev.hooks, h.function ≠ f := by simpa [findHook] using hfind
  have hsame : (s.ev.hooks.find? fun h => h.function = f ∧ entry h ∈ s.reg) = none := by
    refine List.find?_eq_none.mpr fun h hh => ?_
    simp [hno h hh]
  rw [State.unregister, hsame]
  refine List.eraseP_of_forall_not fun r hr hrf => ?_
  obtain ⟨h, hh, rfl⟩ := List.mem_map.mp (hs.reg.symm.subset hr)
  exact hno h (List.mem_of_mem_filter hh) (of_decide_eq_true hrf)

theorem Listed.removed (hs : Listed s) {f : F} {hp : Hook F}
    (hfind : s.ev.findHook f = some hp) (hd : hp.deferred = false) :
    Listed { s with
      ev := { s.ev with
        numhooks := s.ev.numhooks - 1
        hooks := if s.ev.calling then defer hp.id s.ev.hooks
          else s.ev.hooks.filter (·.id ≠ hp.id) }
      reg := s.unregister f } where
  nodup := (ids_removed_sublist s hp).nodup hs.nodup
  lt := fun id hid => hs.lt id ((ids_removed_sublist s hp).subset hid)
  reg := by
    have hmem : hp ∈ s.ev.hooks := List.mem_of_find?_eq_some hfind
    rw [hs.unregister hfind hd, liveEntries, live_removed]
    have herase := (hs.live_filter_perm hmem hd).erase (entry hp)
    rwa [List.erase_cons_head] at herase

theorem Listed.passedOn (hs : Listed s) (fr : Frame) (rest : List Frame) (cur : ℕ) (v : ℤ) :
    Listed (s.passedOn fr rest cur v) := by
  have hids : ids (s.passedOn fr rest cur v).ev.hooks = ids s.ev.hooks := by
    rw [State.passedOn]
    dsimp only
    split
    · exact ids_defer cur
    · rfl
  refine ⟨hids ▸ hs.nodup, fun id hid => hs.lt id (hids ▸ hid), ?_⟩
  rw [State.passedOn]
  dsimp only
  split
  case isTrue =>
    have hmap : ((live s.ev.hooks).filter (·.id ≠ cur)).map entry =
        (liveEntries s.ev.hooks).filter (·.1 ≠ cur) := by
      rw [liveEntries, List.filter_map]
      rfl
    rw [liveEntries, live_defer, hmap]
    exact hs.reg.filter _
  case isFalse => exact hs.reg

/-- A step keeps the list in agreement with the registrations if `remove_hook` comes to no marked
hook. -/
theorem Listed.step (hs : Listed s) (hG : ∀ f, a = .remove f → FindsLive s f)
    (h : step s a = some s') : Listed s' := by
  cases (steps_of_step h).2 with
  | grow => exact ⟨hs.nodup, hs.lt, hs.reg⟩
  | refused => exact hs
  | added a f n ha hn => exact hs.added f hn
  | notFound f hfind =>
    rw [hs.unregister_of_none hfind]
    exact hs
  | removed f hp hfind => exact hs.removed hfind (hG f rfl hp hfind)
  | called => exact ⟨hs.nodup, hs.lt, hs.reg⟩
  | overrun => exact ⟨hs.nodup, hs.lt, hs.reg⟩
  | stopped => exact ⟨hs.nodup, hs.lt, hs.reg⟩
  | freed => exact ⟨hs.nodup, hs.lt, hs.reg⟩
  | passedOn v fr rest cur => exact hs.passedOn fr rest cur v
  | finished fr rest => exact hs.finished fr rest

/-! ### The count -/

theorem Listed.excess_removed (hs : Listed s) {f : F} {hp : Hook F}
    (hfind : s.ev.findHook f = some hp) (hd : hp.deferred = false) :
    s.ev.numhooks - 1 - (live (if s.ev.calling then defer hp.id s.ev.hooks
      else s.ev.hooks.filter (·.id ≠ hp.id))).length = s.excess := by
  have hmem : hp ∈ s.ev.hooks := List.mem_of_find?_eq_some hfind
  have hlen := ((hs.live_filter_perm hmem hd).trans hs.reg.symm).length_eq
  rw [List.length_cons, List.length_map, length_liveEntries] at hlen
  rw [live_removed, State.excess, ← hlen]
  omega

/-- A one-shot hook that has been called is swept without a change of the count. -/
theorem excess_passedOn_le (fr : Frame) (rest : List Frame) (cur : ℕ) (v : ℤ) :
    s.excess ≤ (s.passedOn fr rest cur v).excess := by
  rw [State.excess, State.excess, State.passedOn]
  dsimp only
  split
  case isTrue =>
    have hle := List.length_filter_le (fun h : Hook F => h.id ≠ cur) (live s.ev.hooks)
    rw [live_defer]
    omega
  case isFalse => exact le_rfl

theorem Listed.excess_passedOn (hs : Listed s) (fr : Frame) (rest : List Frame) {h : Hook F}
    (v : ℤ) (hmem : h ∈ s.ev.hooks) (honce : s.ev.flags.hookonce = true → h.deferred = true) :
    (s.passedOn fr rest h.id v).excess = s.excess := by
  rw [State.excess, State.excess, State.passedOn]
  dsimp only
  split
  case isTrue hflag =>
    -- the hook has removed itself, so it is not among the live ones
    have hself : (live s.ev.hooks).filter (·.id ≠ h.id) = live s.ev.hooks := by
      refine List.filter_eq_self.mpr fun b hb => ?_
      obtain ⟨hb, hbd⟩ := List.mem_filter.mp hb
      have hne : b.id ≠ h.id := by
        rintro heq
        obtain rfl := List.inj_on_of_nodup_map hs.nodup hb hmem heq
        simp [honce hflag] at hbd
      simpa using hne
    rw [live_defer, hself]
  case isFalse => rfl

/-- The condition on a step: `remove_hook` comes to no hook that is marked already; and when a hook
returns, there is room for its result, its entry is still there (unless the result ends the loop)
and a one-shot hook has removed itself. -/
def Kept (s : State F) : Action F → Prop
  | .remove f => FindsLive s f
  | .ret v => ∀ fr ∈ s.frames.head?, fr.i < s.maxhooks ∧
      ((s.condNext fr v).2 = true ∨ ∃ h ∈ s.ev.hooks, fr.current = some h.id ∧
        (s.ev.flags.hookonce = true → h.deferred = true))
  | _ => True

instance (s : State F) : DecidablePred (Kept s)
  | .remove f => inferInstanceAs (Decidable (FindsLive s f))
  | .ret v => inferInstanceAs (Decidable (∀ fr ∈ s.frames.head?, fr.i < s.maxhooks ∧
      ((s.condNext fr v).2 = true ∨ ∃ h ∈ s.ev.hooks, fr.current = some h.id ∧
        (s.ev.flags.hookonce = true → h.deferred = true))))
  | .add .. | .addBefore .. | .call | .finish | .grow => isTrue trivial

/-- `numhooks` is the number of live hooks and every registration in force is on the list exactly
once, whenever no `hook_event` is active; and nothing is done to memory that is not the program's.
-/
structure Counted (s : State F) : Prop where
  fault : s.fault = none
  numhooks : s.frames = [] → s.ev.numhooks = (live s.ev.hooks).length
  once : s.frames = [] → ∀ r, (liveEntries s.ev.hooks).count r = if r ∈ s.reg then 1 else 0

theorem Kept.excess (hs : Listed s) (hG : Kept s a) (h : Pass.step s a = some s') :
    s'.excess = s.excess ∧ s'.fault = none := by
  obtain ⟨hfault, hsteps⟩ := steps_of_step h
  cases hsteps with
  | grow => exact ⟨rfl, hfault⟩
  | refused => exact ⟨rfl, hfault⟩
  | added a f n ha hn => exact ⟨excess_added f hn, hfault⟩
  | notFound => exact ⟨rfl, hfault⟩
  | removed f hp hfind => exact ⟨hs.excess_removed hfind (hG hp hfind), hfault⟩
  | called => exact ⟨rfl, hfault⟩
  | overrun v fr rest cur hfr hcur hi =>
    exact absurd (hG fr (by simp [hfr])).1 (not_lt.mpr hi)
  | stopped => exact ⟨rfl, hfault⟩
  | freed v fr rest cur hfr hcur hstop hmem =>
    rcases (hG fr (by simp [hfr])).2 with hs' | ⟨b, hb, hbcur, -⟩
    · simp [hs'] at hstop
    · obtain rfl : cur = b.id := Option.some.inj (hcur.symm.trans hbcur)
      exact absurd (List.mem_map_of_mem hb) hmem
  | passedOn v fr rest cur hfr hcur hi hstop hmem =>
    rcases (hG fr (by simp [hfr])).2 with hs' | ⟨b, hb, hbcur, honce⟩
    · simp [hs'] at hstop
    · obtain rfl : cur = b.id := Option.some.inj (hcur.symm.trans hbcur)
      exact ⟨hs.excess_passedOn fr rest v hb honce, hfault⟩
  | finished fr rest => exact ⟨excess_finished fr rest, hfault⟩

/-- In a run whose steps meet the condition the hooks are counted right in every state. -/
theorem counted_of_run {flags : EventFlags} {as : List (Action F)} {t : State F}
    (hG : Run.Along Pass.step Kept (start flags) as)
    (hrun : Run.run Pass.step (start flags) as = some t) : Counted t := by
  have hinv : Listed t ∧ t.excess = 0 ∧ t.fault = none := by
    refine Run.run_invariant (I := fun s => Listed s ∧ s.excess = 0 ∧ s.fault = none)
      (fun s a s' ⟨hs, hexc, _⟩ hG h => ?_) ⟨listed_start flags, rfl, rfl⟩ hG hrun
    have hlisted : Listed s' := hs.step (fun f hf => by subst hf; exact hG) h
    obtain ⟨hexc', hfault⟩ := hG.excess hs h
    exact ⟨hlisted, hexc'.trans hexc, hfault⟩
  obtain ⟨hs, hexc, hfault⟩ := hinv
  refine ⟨hfault, fun _ => Int.sub_eq_zero.mp hexc, fun _ r => ?_⟩
  have hnd : (liveEntries t.ev.hooks).Nodup := by
    refine List.Nodup.of_map Prod.fst ?_
    rw [liveEntries, List.map_map]
    exact ids_live_sublist.nodup hs.nodup
  rw [hnd.count]
  exact if_congr hs.reg.mem_iff rfl rfl

/-- An event without any of the flags. -/
def plainFlags : EventFlags := ⟨false, false, false, false⟩

/-- A hook that removes itself when it is run. -/
def selfRemoval : List (Action ℕ) :=
  [.add (some 7) none, .call, .remove 7, .ret 0, .finish]

theorem counted_of_run_self :
    ∃ t : State ℕ, Run.run Pass.step (start plainFlags) selfRemoval = some t ∧ Counted t :=
  ⟨_, rfl, @counted_of_run ℕ _ plainFlags selfRemoval _ (by decide) rfl⟩

/-- A one-shot hook is still counted when it has been run and swept. -/
theorem counted_fails : ¬ ∀ (flags : EventFlags) (as : List (Action ℕ)) (t : State ℕ),
    Run.run Pass.step (start flags) as = some t → Counted t := by
  intro hall
  have hbad := hall ⟨false, false, true, false⟩ [.add (some 7) none, .call, .ret 0, .finish] _ rfl
  exact absurd (hbad.numhooks rfl) (by decide)

end Pass

end Ithildin
