import Ithildin.Dns.Shelves
import Ithildin.Timer.Owners

/-!
# Lookups, their timers and what is under way

Nothing that was freed is touched (`Kept`) as long as

* no callback takes the last hook of a lookup that is being finished and is on the wait list, which
  `dns_lookup_cancel` frees then;
* no query that cannot be made is due for a lookup that is being finished, which `dns_lookup_send`
  would finish once more;
* no timer has the reference `TIMER_INVALID`.

Then a timer that goes off finds its lookup, and what a callback returns to is there.
-/

namespace Ithildin

namespace Dns

open Places

variable {F : Type} {s s' : State F} {key k : ℕ} {d dlp : Lookup F} {p : Place} {head : Bool}
  {run hand run' hand' : Option ℕ} {frame : Frame} {rest : List Frame}

/-! ### What is under way -/

/-- The lookup that is being finished. -/
def Frame.lookup : Frame → Option ℕ
  | .running key _ _ | .ended key => some key
  | .once | .sending | .served => none

/-- The lookups that are being finished. -/
def State.finishing (s : State F) : List ℕ := s.frames.filterMap Frame.lookup

/-- What is under way relies on this lookup: while the event is being called its hooks stay. -/
def Frame.Held (mem : ℕ → Option (Lookup F)) : Frame → Prop
  | .running key cur _ => ∃ dlp, mem key = some dlp ∧ dlp.place ≠ some .cache ∧
    dlp.finished.calling = true ∧ cur ∈ Event.ids dlp.finished.hooks
  | .ended key => ∃ dlp, mem key = some dlp ∧ dlp.place ≠ some .cache
  | .once | .sending | .served => True

/-- A lookup that is being finished, after a change. -/
structure Holds (d d' : Lookup F) : Prop where
  place : d.place ≠ some .cache → d'.place ≠ some .cache
  calling : d.finished.calling = true → d'.finished.calling = true
  ids : d.finished.calling = true →
    ∀ i ∈ Event.ids d.finished.hooks, i ∈ Event.ids d'.finished.hooks

theorem Frame.Held.change {mem mem' : ℕ → Option (Lookup F)} (h : frame.Held mem)
    (hmem : ∀ k ∈ frame.lookup, ∀ d, mem k = some d → ∃ d', mem' k = some d' ∧ Holds d d') :
    frame.Held mem' := by
  cases frame with
  | running key cur nc =>
    obtain ⟨d, hd, hplace, hcalling, hcur⟩ := h
    obtain ⟨d', hd', hold⟩ := hmem key rfl d hd
    exact ⟨d', hd', hold.place hplace, hold.calling hcalling, hold.ids hcalling cur hcur⟩
  | ended key =>
    obtain ⟨d, hd, hplace⟩ := h
    obtain ⟨d', hd', hold⟩ := hmem key rfl d hd
    exact ⟨d', hd', hold.place hplace⟩
  | once | sending | served => trivial

theorem Frame.Held.there {mem : ℕ → Option (Lookup F)} (h : frame.Held mem)
    (hkey : frame.lookup = some key) : ∃ dlp, mem key = some dlp ∧ dlp.place ≠ some .cache := by
  cases frame with
  | running key cur nc =>
    cases hkey
    obtain ⟨d, hd, hplace, -⟩ := h
    exact ⟨d, hd, hplace⟩
  | ended key =>
    cases hkey
    exact h
  | once | sending | served => cases hkey

theorem mem_finishing : k ∈ s.finishing ↔ ∃ frame ∈ s.frames, frame.lookup = some k :=
  List.mem_filterMap

/-! ### What is kept -/

/-- Nothing is used that has been freed. The lookup `run` has its event marked as being called with
nothing under way yet, and `hand` is on the active list or in the cache with no timer yet. -/
structure Kept (run hand : Option ℕ) (s : State F) : Prop where
  fault : s.fault = false
  shelved : Shelved s
  nodup : s.finishing.Nodup
  held : ∀ frame ∈ s.frames, frame.Held s.mem
  idle : ∀ k dlp, s.mem k = some dlp → dlp.finished.calling = true → run ≠ some k →
    ∃ cur nc, .running k cur nc ∈ s.frames
  queue : Timers.Listed s.q
  clock : ∀ r u, s.q.Has r u ↔ ∃ dlp, s.mem u = some dlp ∧ dlp.timer = r ∧ r ≠ Timers.timerInvalid
  timed : ∀ k dlp, s.mem k = some dlp → dlp.place ≠ some .waiting → k ∉ s.finishing →
    hand ≠ some k → dlp.timer ≠ Timers.timerInvalid

theorem kept_start (now : ℤ) : Kept none none (start now : State F) where
  fault := rfl
  shelved := shelved_start now
  nodup := List.nodup_nil
  held := by simp [start]
  idle := by simp [start]
  queue := Timers.listed_empty now
  clock := fun r u => iff_of_false (Timers.not_has_empty now) (by simp [start])
  timed := by simp [start]

/-- What is being finished is there, and not in the cache. -/
theorem Kept.there (hs : Kept run hand s) (hk : k ∈ s.finishing) :
    ∃ dlp, s.mem k = some dlp ∧ dlp.place ≠ some .cache := by
  obtain ⟨frame, hframe, hkey⟩ := mem_finishing.1 hk
  exact (hs.held frame hframe).there hkey

/-- A lookup that is new is not being finished. -/
theorem Kept.notMem_finishing (hs : Kept run hand s) (h : s.mem k = none) : k ∉ s.finishing := by
  intro hk
  obtain ⟨dlp, hdlp, -⟩ := hs.there hk
  rw [h] at hdlp
  cases hdlp

/-- Nothing changes about the lookups, their timers and what is under way. -/
theorem Kept.other (hs : Kept run hand s) (hshelved : Shelved s') (hfault : s'.fault = s.fault)
    (hmem : s'.mem = s.mem) (hq : s'.q = s.q) (hframes : s'.frames = s.frames) :
    Kept run hand s' where
  fault := hfault.trans hs.fault
  shelved := hshelved
  nodup := by
    rw [State.finishing, hframes]
    exact hs.nodup
  held := by
    rw [hframes, hmem]
    exact hs.held
  idle := by
    rw [hframes, hmem]
    exact hs.idle
  queue := hq ▸ hs.queue
  clock := by
    rw [hq, hmem]
    exact hs.clock
  timed := by
    rw [State.finishing, hframes, hmem]
    exact hs.timed

/-- One lookup changes, or its timer. -/
theorem Kept.update (hs : Kept run hand s) (key : ℕ) (hfault : s'.fault = s.fault)
    (hshelved : Shelved s') (hframes : s'.frames = s.frames)
    (hmem : ∀ k, k ≠ key → s'.mem k = s.mem k)
    (hhold : key ∈ s.finishing → ∀ d, s.mem key = some d → ∃ d', s'.mem key = some d' ∧ Holds d d')
    (hidle : ∀ d, s'.mem key = some d → d.finished.calling = true → run' ≠ some key →
      ∃ cur nc, .running key cur nc ∈ s.frames)
    (hqueue : Timers.Listed s'.q) (hhas : ∀ r u, u ≠ key → (s'.q.Has r u ↔ s.q.Has r u))
    (hclock : ∀ r, s'.q.Has r key ↔
      ∃ d, s'.mem key = some d ∧ d.timer = r ∧ r ≠ Timers.timerInvalid)
    (htimed : ∀ d, s'.mem key = some d → d.place ≠ some .waiting → key ∉ s.finishing →
      hand' ≠ some key → d.timer ≠ Timers.timerInvalid)
    (hrun : ∀ k, k ≠ key → run = some k → run' = some k)
    (hhand : ∀ k, k ≠ key → hand = some k → hand' = some k) : Kept run' hand' s' where
  fault := hfault.trans hs.fault
  shelved := hshelved
  nodup := by
    rw [State.finishing, hframes]
    exact hs.nodup
  held := by
    rw [hframes]
    intro frame hframe
    refine (hs.held frame hframe).change fun k hk d hd => ?_
    by_cases hkey : k = key
    · subst hkey
      exact hhold (mem_finishing.2 ⟨frame, hframe, hk⟩) d hd
    · exact ⟨d, (hmem k hkey).trans hd, id, id, fun _ _ => id⟩
  idle := by
    rw [hframes]
    intro k dlp hdlp hcalling hne
    by_cases hkey : k = key
    · subst hkey
      exact hidle dlp hdlp hcalling hne
    · exact hs.idle k dlp ((hmem k hkey).symm.trans hdlp) hcalling fun h => hne (hrun k hkey h)
  queue := hqueue
  clock := by
    intro r u
    by_cases hkey : u = key
    · subst hkey
      exact hclock r
    · rw [hhas r u hkey, hmem u hkey]
      exact hs.clock r u
  timed := by
    rw [State.finishing, hframes]
    intro k dlp hdlp hplace hk hne
    by_cases hkey : k = key
    · subst hkey
      exact htimed dlp hdlp hplace hk hne
    · exact hs.timed k dlp ((hmem k hkey).symm.trans hdlp) hplace hk fun h => hne (hhand k hkey h)

/-- The timer of a lookup is the only one for it. -/
theorem Kept.has_iff (hs : Kept run hand s) (h : s.mem key = some d) {r : ℕ} :
    s.q.Has r key ↔ r = d.timer ∧ r ≠ Timers.timerInvalid := by
  refine (hs.clock r key).trans ⟨?_, fun hr => ⟨d, h, hr.1.symm, hr.2⟩⟩
  rintro ⟨d', hd', rfl, hne⟩
  cases h.symm.trans hd'
  exact ⟨rfl, hne⟩

/-- It is for no other lookup. -/
theorem Kept.eq_of_has (hs : Kept run hand s) (h : s.mem key = some d) (hr : s.q.Has d.timer k) :
    k = key := by
  obtain ⟨-, -, -, hne⟩ := (hs.clock d.timer k).1 hr
  exact hs.queue.has_unique hr ((hs.has_iff h).2 ⟨rfl, hne⟩)

theorem eq_of_update {mem : ℕ → Option (Lookup F)} (h : Function.update mem key (some d) key =
    some dlp) : dlp = d := by
  rw [Function.update_self] at h
  exact (Option.some.inj h).symm

/-! ### One lookup -/

/-- A lookup is changed, but for its list and its timer. -/
theorem Kept.modify (hs : Kept run hand s) {f : Lookup F → Lookup F}
    (hf : ∀ d, (f d).place = d.place ∧ (f d).timer = d.timer)
    (hhold : key ∈ s.finishing → ∀ d, s.mem key = some d → Holds d (f d))
    (hidle : ∀ d, s.mem key = some d → (f d).finished.calling = true → run' ≠ some key →
      ∃ cur nc, .running key cur nc ∈ s.frames)
    (hrun : ∀ k, k ≠ key → run = some k → run' = some k) : Kept run' hand (s.modify key f) := by
  have hself : ∀ d, (s.modify key f).mem key = some d → ∃ d', s.mem key = some d' ∧ f d' = d := by
    intro d hd
    rw [State.modify_mem, if_pos rfl] at hd
    exact Option.map_eq_some_iff.1 hd
  refine hs.update key rfl (hs.shelved.modify fun d => (hf d).1) rfl ?_ ?_ ?_ hs.queue
    (fun _ _ _ => Iff.rfl) ?_ ?_ hrun fun _ _ => id
  · exact fun k hk => Function.update_of_ne hk _ _
  · intro hk d hd
    exact ⟨f d, State.modify_mem_self hd, hhold hk d hd⟩
  · intro d hd hcalling hne
    obtain ⟨d', hd', rfl⟩ := hself d hd
    exact hidle d' hd' hcalling hne
  · intro r
    refine (hs.clock r key).trans ⟨?_, ?_⟩
    · rintro ⟨d, hd, rfl, hne⟩
      exact ⟨f d, State.modify_mem_self hd, (hf d).2, hne⟩
    · rintro ⟨d, hd, rfl, hne⟩
      obtain ⟨d', hd', rfl⟩ := hself d hd
      exact ⟨d', hd', (hf d').2.symm, hne⟩
  · intro d hd hplace hk hne
    obtain ⟨d', hd', rfl⟩ := hself d hd
    rw [(hf d').1] at hplace
    rw [(hf d').2]
    exact hs.timed key d' hd' hplace hk hne

/-- A lookup is changed, but for its list, its timer and its event. -/
theorem Kept.modify_same (hs : Kept run hand s) {f : Lookup F → Lookup F}
    (hf : ∀ d, (f d).place = d.place ∧ (f d).timer = d.timer ∧ (f d).finished = d.finished) :
    Kept run hand (s.modify key f) := by
  refine hs.modify (fun d => ⟨(hf d).1, (hf d).2.1⟩) (fun _ d _ => ⟨?_, ?_, ?_⟩) ?_ fun _ _ => id
  · rw [(hf d).1]
    exact id
  · rw [(hf d).2.2]
    exact id
  · rw [(hf d).2.2]
    exact fun _ _ => id
  · intro d hd hcalling hne
    rw [(hf d).2.2] at hcalling
    exact hs.idle key d hd hcalling hne

theorem Kept.move (hs : Kept run hand s) (h : s.mem key = some d) (head : Bool)
    (hcache : p = .cache → key ∉ s.finishing)
    (htimed : p ≠ .waiting → key ∉ s.finishing → hand' ≠ some key →
      d.timer ≠ Timers.timerInvalid)
    (hhand : ∀ k, k ≠ key → hand = some k → hand' = some k) :
    Kept run hand' (s.move key p head) := by
  have hshelved := hs.shelved.move key p head
  rw [State.move_eq h] at hshelved ⊢
  refine hs.update key rfl hshelved rfl ?_ ?_ ?_ hs.queue (fun _ _ _ => Iff.rfl) ?_ ?_
    (fun _ _ => id) hhand
  · exact fun k hk => Function.update_of_ne hk _ _
  · intro hk d' hd'
    cases h.symm.trans hd'
    refine ⟨_, Function.update_self _ _ _, fun _ hp => ?_, id, fun _ _ => id⟩
    exact hcache (Option.some.inj hp) hk
  · intro d' hd' hcalling hne
    obtain rfl := eq_of_update hd'
    exact hs.idle key d h hcalling hne
  · intro r
    refine (hs.clock r key).trans ⟨?_, ?_⟩
    · rintro ⟨d', hd', htimer⟩
      cases h.symm.trans hd'
      exact ⟨_, Function.update_self _ _ _, htimer⟩
    · rintro ⟨d', hd', htimer⟩
      obtain rfl := eq_of_update hd'
      exact ⟨d, h, htimer⟩
  · intro d' hd' hplace hk hne
    obtain rfl := eq_of_update hd'
    exact htimed (fun hp => hplace (congrArg some hp)) hk hne

/-- A lookup is to wait, and needs no timer then. -/
theorem Kept.wait (hs : Kept run hand s) (h : s.mem key = some d) (head : Bool)
    (hhand : ∀ k, hand = some k → k = key) : Kept run none (s.move key .waiting head) := by
  refine hs.move h head (fun hp => absurd hp (by simp)) (fun hp => absurd rfl hp) ?_
  exact fun k hk hh => absurd (hhand k hh) hk

/-! ### Its timer -/

theorem Kept.listed_freeTimer (hs : Kept run hand s) (d : Lookup F) :
    Timers.Listed (s.freeTimer d).q := by
  rw [State.freeTimer]
  split
  · exact hs.queue
  · exact hs.queue.destroyTimer d.timer

theorem Kept.has_freeTimer (hs : Kept run hand s) {r u : ℕ} :
    (s.freeTimer d).q.Has r u ↔ s.q.Has r u ∧ r ≠ d.timer := by
  rw [State.freeTimer]
  split
  · rename_i hinvalid
    refine ⟨fun hr => ⟨hr, ?_⟩, And.left⟩
    obtain ⟨-, -, -, hne⟩ := (hs.clock r u).1 hr
    exact hinvalid ▸ hne
  · exact hs.queue.has_destroyTimer

theorem spare_freeTimer (h : s.q.Spare) (d : Lookup F) : (s.freeTimer d).q.Spare := by
  rw [State.freeTimer]
  split
  · exact h
  · exact h.destroyTimer d.timer

theorem startTimer_eq {interval : ℤ} (hd : s.mem key = some d)
    (h : s.startTimer key interval = some s') :
    ∃ q ref, s.q.createTimer 0 interval 0 key = some (q, ref) ∧
      s' = { s with q := q, mem := Function.update s.mem key (some { d with timer := ref }) } := by
  obtain ⟨⟨q, ref⟩, hcreate, rfl⟩ := Option.map_eq_some_iff.1 h
  refine ⟨q, ref, hcreate, ?_⟩
  rw [State.modify]
  dsimp only
  rw [hd]
  rfl

/-- A lookup's old timer is gone, and it has a new one. -/
theorem Kept.setTimer (hs : Kept run hand s) (h : s.mem key = some d) {q q' : Timers.Queue}
    {interval : ℤ} {ref : ℕ} (hq : Timers.Listed q)
    (hhas : ∀ r u, q.Has r u ↔ s.q.Has r u ∧ r ≠ d.timer) (hspare : q.Spare)
    (hcreate : q.createTimer 0 interval 0 key = some (q', ref))
    (hhand : ∀ k, hand = some k → k = key) :
    Kept run none
      { s with q := q', mem := Function.update s.mem key (some { d with timer := ref }) } := by
  have hvalid : ref ≠ Timers.timerInvalid := hspare.createTimer hcreate
  obtain ⟨hq', hfresh⟩ := hq.createTimer hcreate
  refine hs.update key rfl ?_ rfl ?_ ?_ ?_ hq' ?_ ?_ ?_ (fun _ _ => id) ?_
  · have hshelved : Shelved (s.modify key fun d => { d with timer := ref }) :=
      hs.shelved.modify fun d => rfl
    rw [State.modify, h] at hshelved
    exact hshelved.other rfl rfl rfl rfl
  · exact fun k hk => Function.update_of_ne hk _ _
  · intro hk d' hd'
    cases h.symm.trans hd'
    exact ⟨_, Function.update_self _ _ _, id, id, fun _ _ => id⟩
  · intro d' hd' hcalling hne
    obtain rfl := eq_of_update hd'
    exact hs.idle key d h hcalling hne
  · intro r u hu
    rw [Timers.has_createTimer hcreate, hhas]
    refine ⟨?_, fun hr => Or.inr ⟨hr, ?_⟩⟩
    · rintro (⟨-, hkey⟩ | ⟨hr, -⟩)
      · exact absurd hkey hu
      · exact hr
    · rintro rfl
      exact hu (hs.eq_of_has h hr)
  · intro r
    rw [Timers.has_createTimer hcreate, hhas]
    constructor
    · rintro (⟨rfl, -⟩ | ⟨hr, hne⟩)
      · exact ⟨_, Function.update_self _ _ _, rfl, hvalid⟩
      · exact absurd ((hs.has_iff h).1 hr).1 hne
    · rintro ⟨d', hd', htimer, -⟩
      obtain rfl := eq_of_update hd'
      exact Or.inl ⟨htimer.symm, rfl⟩
  · intro d' hd' _ _ _
    obtain rfl := eq_of_update hd'
    exact hvalid
  · exact fun k hk hh => absurd (hhand k hh) hk

theorem Kept.startTimer (hs : Kept run hand s) (h : s.mem key = some d)
    (hinvalid : d.timer = Timers.timerInvalid) (hspare : s.q.Spare) {interval : ℤ}
    (hstart : s.startTimer key interval = some s') (hhand : ∀ k, hand = some k → k = key) :
    Kept run none s' := by
  obtain ⟨q, ref, hcreate, rfl⟩ := startTimer_eq h hstart
  refine hs.setTimer h hs.queue (fun r u => ⟨fun hr => ⟨hr, ?_⟩, And.left⟩) hspare hcreate hhand
  obtain ⟨-, -, -, hne⟩ := (hs.clock r u).1 hr
  exact hinvalid ▸ hne

/-- The timer of a lookup is gone. -/
theorem Kept.unsetTimer (hs : Kept run none s) (h : s.mem key = some d) :
    Kept run (some key)
      { s with
        q := s.q.destroyTimer d.timer
        mem := Function.update s.mem key (some { d with timer := Timers.timerInvalid }) } := by
  refine hs.update key rfl ?_ rfl ?_ ?_ ?_ (hs.queue.destroyTimer d.timer) ?_ ?_ ?_
    (fun _ _ => id) (by simp)
  · have hshelved : Shelved (s.modify key fun d => { d with timer := Timers.timerInvalid }) :=
      hs.shelved.modify fun d => rfl
    rw [State.modify, h] at hshelved
    exact hshelved.other rfl rfl rfl rfl
  · exact fun k hk => Function.update_of_ne hk _ _
  · intro hk d' hd'
    cases h.symm.trans hd'
    exact ⟨_, Function.update_self _ _ _, id, id, fun _ _ => id⟩
  · intro d' hd' hcalling hne
    obtain rfl := eq_of_update hd'
    exact hs.idle key d h hcalling hne
  · intro r u hu
    rw [hs.queue.has_destroyTimer, and_iff_left_iff_imp]
    rintro hr rfl
    exact hu (hs.eq_of_has h hr)
  · intro r
    rw [hs.queue.has_destroyTimer]
    refine iff_of_false ?_ ?_
    · rintro ⟨hr, hne⟩
      exact hne ((hs.has_iff h).1 hr).1
    · rintro ⟨d', hd', htimer, hne⟩
      obtain rfl := eq_of_update hd'
      exact hne htimer.symm
  · exact fun _ _ _ _ hne => absurd rfl hne

/-- A lookup is freed with its timer. -/
theorem Kept.destroy (hs : Kept run hand s) (h : s.mem key = some d) (hkey : key ∉ s.finishing)
    (hrun : ∀ k, k ≠ key → run = some k → run' = some k)
    (hhand : ∀ k, k ≠ key → hand = some k → hand' = some k) :
    Kept run' hand' (s.destroy key) := by
  have hshelved := hs.shelved.destroy key
  rw [State.destroy_eq h] at hshelved ⊢
  have hnone : ∀ d', Function.update s.mem key none key ≠ some d' := by simp
  refine hs.update key rfl hshelved rfl ?_ (fun hk => absurd hk hkey) ?_ ?_ ?_ ?_ ?_ hrun hhand
  · exact fun k hk => Function.update_of_ne hk _ _
  · exact fun d' hd' => absurd hd' (hnone d')
  · exact hs.listed_freeTimer d
  · intro r u hu
    dsimp only
    rw [hs.has_freeTimer, and_iff_left_iff_imp]
    rintro hr rfl
    exact hu (hs.eq_of_has h hr)
  · intro r
    dsimp only
    rw [hs.has_freeTimer]
    refine iff_of_false ?_ ?_
    · rintro ⟨hr, hne⟩
      exact hne ((hs.has_iff h).1 hr).1
    · rintro ⟨d', hd', -⟩
      exact hnone d' hd'
  · exact fun d' hd' => absurd hd' (hnone d')

/-! ### Frames -/

/-- Something more is under way. -/
theorem Kept.push (hs : Kept run hand s) (hnew : ∀ k ∈ frame.lookup, k ∉ s.finishing)
    (hheld : frame.Held s.mem)
    (hrun : ∀ k dlp, run = some k → s.mem k = some dlp → dlp.finished.calling = true →
      ∃ cur nc, frame = .running k cur nc)
    (hhand : ∀ k, hand = some k → hand' = some k ∨ frame.lookup = some k) :
    Kept none hand' (s.push frame) where
  fault := hs.fault
  shelved := hs.shelved.other rfl rfl rfl rfl
  nodup := by
    rw [State.finishing, State.push, List.filterMap_cons]
    cases hlookup : frame.lookup with
    | none => exact hs.nodup
    | some k => exact List.nodup_cons.2 ⟨hnew k hlookup, hs.nodup⟩
  held := by
    intro f hf
    rcases List.mem_cons.1 hf with rfl | hf
    · exact hheld
    · exact hs.held f hf
  idle := by
    intro k dlp hdlp hcalling _
    by_cases hk : run = some k
    · obtain ⟨cur, nc, rfl⟩ := hrun k dlp hk hdlp hcalling
      exact ⟨cur, nc, List.mem_cons_self⟩
    · obtain ⟨cur, nc, hmem⟩ := hs.idle k dlp hdlp hcalling hk
      exact ⟨cur, nc, List.mem_cons_of_mem _ hmem⟩
  queue := hs.queue
  clock := hs.clock
  timed := by
    intro k dlp hdlp hplace hk hne
    have hnot : ∀ f ∈ frame :: s.frames, f.lookup ≠ some k := fun f hf hfk =>
      hk (mem_finishing.2 ⟨f, hf, hfk⟩)
    refine hs.timed k dlp hdlp hplace (fun hin => ?_) fun hh => ?_
    · obtain ⟨f, hf, hfk⟩ := mem_finishing.1 hin
      exact hnot f (List.mem_cons_of_mem _ hf) hfk
    · rcases hhand k hh with hh | hh
      · exact hne hh
      · exact hnot frame List.mem_cons_self hh

/-- The innermost thing under way is over; its lookup is in hand. -/
theorem Kept.pop (hs : Kept none none s) (hframes : s.frames = frame :: rest)
    (hrun : ∀ k cur nc, frame = .running k cur nc → run = some k) :
    Kept run frame.lookup { s with frames := rest } where
  fault := hs.fault
  shelved := hs.shelved.other rfl rfl rfl rfl
  nodup := by
    have hnodup := hs.nodup
    rw [State.finishing, hframes] at hnodup
    exact hnodup.sublist ((List.sublist_cons_self frame rest).filterMap _)
  held := fun f hf => hs.held f (hframes ▸ List.mem_cons_of_mem _ hf)
  idle := by
    intro k dlp hdlp hcalling hne
    obtain ⟨cur, nc, hmem⟩ := hs.idle k dlp hdlp hcalling (by simp)
    rw [hframes] at hmem
    rcases List.mem_cons.1 hmem with rfl | hmem
    · exact absurd (hrun k cur nc rfl) hne
    · exact ⟨cur, nc, hmem⟩
  queue := hs.queue
  clock := hs.clock
  timed := by
    intro k dlp hdlp hplace hk hne
    refine hs.timed k dlp hdlp hplace (fun hin => ?_) (by simp)
    obtain ⟨f, hf, hfk⟩ := mem_finishing.1 hin
    rw [hframes] at hf
    rcases List.mem_cons.1 hf with rfl | hf
    · exact hne hfk
    · exact hk (mem_finishing.2 ⟨f, hf, hfk⟩)

/-- What is over was about no lookup. -/
theorem Kept.popIdle (hs : Kept none none s) (hframes : s.frames = frame :: rest)
    (hidle : frame.lookup = none) : Kept none none { s with frames := rest } := by
  have hpop : Kept none frame.lookup { s with frames := rest } :=
    hs.pop hframes fun k cur nc h => by
    rw [h] at hidle
    cases hidle
  rwa [hidle] at hpop

theorem Kept.notMem_of_pop (hs : Kept none none s) (hframes : s.frames = frame :: rest)
    (hkey : frame.lookup = some key) : key ∉ State.finishing { s with frames := rest } := by
  have hnodup := hs.nodup
  rw [State.finishing, hframes, List.filterMap_cons, hkey] at hnodup
  exact (List.nodup_cons.1 hnodup).1

/-! ### Finishing a lookup -/

/-- `hook_event` goes on to the next hook of the lookup in hand, or returns. -/
theorem Kept.goOn (hs : Kept (some key) hand s) (h : s.mem key = some d)
    (hplace : d.place ≠ some .cache) (hcalling : d.finished.calling = true)
    (hkey : key ∉ s.finishing) (hhand : ∀ k, hand = some k → k = key) (nc : Bool)
    {hooks : List (Hook F)} (hhooks : ∀ hp ∈ hooks, hp.id ∈ Event.ids d.finished.hooks) :
    Kept none none (s.goOn key nc hooks) := by
  rw [State.goOn]
  split
  · rename_i nc' hwalk
    have hclosed : Kept none hand (s.closeEvent key nc') := by
      rw [State.closeEvent]
      refine hs.modify ?_ (fun hk => absurd hk hkey) ?_ ?_
      · exact fun d => ⟨rfl, rfl⟩
      · exact fun d hd h => absurd h Bool.false_ne_true
      · exact fun k hk hrun => absurd (Option.some.inj hrun).symm hk
    refine hclosed.push ?_ ?_ ?_ ?_
    · rintro k ⟨⟩
      exact hkey
    · rw [State.closeEvent]
      exact ⟨_, State.modify_mem_self h, hplace⟩
    · rintro k dlp ⟨⟩
    · exact fun k hk => Or.inr (congrArg some (hhand k hk).symm)
  · rename_i hp nc' hwalk
    obtain ⟨-, -, before, after, rfl⟩ := Event.walk_eq_some hwalk
    have hpush : Kept none none (s.push (.running key hp.id nc')) := by
      refine hs.push ?_ ?_ ?_ ?_
      · rintro k ⟨⟩
        exact hkey
      · exact ⟨d, h, hplace, hcalling, hhooks hp (by simp)⟩
      · rintro k dlp ⟨⟩ _ _
        exact ⟨hp.id, nc', rfl⟩
      · exact fun k hk => Or.inr (congrArg some (hhand k hk).symm)
    exact hpush.other (hpush.shelved.other rfl rfl rfl rfl) rfl rfl rfl rfl

theorem Kept.finish (hs : Kept none hand s) (h : s.mem key = some d)
    (hplace : d.place ≠ some .cache) (hkey : key ∉ s.finishing)
    (hhand : ∀ k, hand = some k → k = key) (hfinish : s.finish key = some s') :
    Kept none none s' := by
  rw [State.finish, h] at hfinish
  obtain ⟨ttl, -, rfl⟩ := Option.map_eq_some_iff.1 hfinish
  have hcall : Kept (some key) hand (s.modify key fun d =>
      { d with last := s.q.now, ttl := ttl, finished := { d.finished with calling := true } }) := by
    refine hs.modify ?_ (fun hk => absurd hk hkey) ?_ (by simp)
    · exact fun d => ⟨rfl, rfl⟩
    · exact fun _ _ _ hne => absurd rfl hne
  exact hcall.goOn (State.modify_mem_self h) hplace rfl hkey hhand false
    fun hp hhp => List.mem_map_of_mem hhp

/-- A lookup is changed and finished. -/
theorem Kept.modify_finish (hs : Kept none hand s) (h : s.mem key = some d)
    (hplace : d.place ≠ some .cache) (hkey : key ∉ s.finishing)
    (hhand : ∀ k, hand = some k → k = key) {f : Lookup F → Lookup F}
    (hfinish : (s.modify key f).finish key = some s')
    (hf : ∀ d, (f d).place = d.place ∧ (f d).timer = d.timer ∧ (f d).finished = d.finished) :
    Kept none none s' :=
  (hs.modify_same hf).finish (State.modify_mem_self h) ((hf d).1 ▸ hplace) hkey hhand hfinish

/-- A lookup is changed and is to wait. -/
theorem Kept.modify_wait (hs : Kept none hand s) (h : s.mem key = some d)
    (hhand : ∀ k, hand = some k → k = key) {f : Lookup F → Lookup F}
    (hf : ∀ d, (f d).place = d.place ∧ (f d).timer = d.timer ∧ (f d).finished = d.finished) :
    Kept none none ((s.modify key f).move key .waiting true) :=
  (hs.modify_same hf).wait (State.modify_mem_self h) true hhand

/-- A callback returns. -/
theorem Kept.ret {cur : ℕ} {nc : Bool} (hs : Kept none none s)
    (hframes : s.frames = .running key cur nc :: rest) :
    Kept none none (s.ret key cur nc rest) := by
  obtain ⟨d, hd, hplace, hcalling, hcur⟩ :=
    hs.held (.running key cur nc) (hframes ▸ List.mem_cons_self)
  have hpop : Kept (some key) (some key) { s with frames := rest } :=
    hs.pop hframes fun k cur nc h => by cases h; rfl
  rw [State.ret, hd]
  dsimp only
  rw [if_pos hcur]
  refine hpop.goOn hd hplace hcalling (hs.notMem_of_pop hframes rfl) ?_ nc fun hp hhp => ?_
  · exact fun k hk => (Option.some.inj hk).symm
  · exact List.mem_map_of_mem (Cursor.behind_suffix.subset hhp)

/-- The lookup that is freed for another one is neither that nor one that is being finished. -/
theorem Kept.evict (hs : Kept none (some key) s) (h : s.mem key = some d)
    (hplace : d.place ≠ some .cache) (hspare : s.q.Spare) :
    Kept none (some key) s.evict ∧ s.evict.mem key = some d ∧ s.evict.q.Spare ∧
      s.evict.finishing = s.finishing := by
  rw [State.evict]
  split
  · rename_i hfull
    have hpos : 0 < (s.lists .cache).length := by
      have hcount := hs.shelved.counts .cache (by simp)
      omega
    have hlast := List.getLast?_eq_some_getLast (List.ne_nil_of_length_pos hpos)
    rw [hlast]
    dsimp only
    generalize List.getLast _ _ = last at hlast
    have hcache : s.place last = some .cache :=
      ((hs.shelved.placed .cache).2 last).1 (List.mem_of_getLast? hlast)
    obtain ⟨dlp, hdlp, hdlpplace⟩ := Option.bind_eq_some_iff.1 hcache
    have hne : last ≠ key := by
      rintro rfl
      cases h.symm.trans hdlp
      exact hplace hdlpplace
    have hfinishing : last ∉ s.finishing := by
      intro hin
      obtain ⟨dlp', hdlp', hplace'⟩ := hs.there hin
      cases hdlp.symm.trans hdlp'
      exact hplace' hdlpplace
    refine ⟨hs.destroy hdlp hfinishing (by simp) fun _ _ => id, ?_⟩
    rw [State.destroy_eq hdlp]
    exact ⟨(Function.update_of_ne hne.symm _ _).trans h, spare_freeTimer hspare dlp, rfl⟩
  · exact ⟨hs, h, hspare, rfl⟩

/-- The end of `dns_lookup_finish`: the lookup is freed, or it has a timer. -/
theorem Kept.keep (hs : Kept none (some key) s) (h : s.mem key = some d) (hkey : key ∉ s.finishing)
    (hspare : s.q.Spare) (hkeep : s.keep key = some s') : Kept none none s' := by
  have hhand : ∀ k, some key = some k → k = key := fun k hk => (Option.some.inj hk).symm
  rw [State.keep, h] at hkeep
  dsimp only at hkeep
  split at hkeep
  · cases hkeep
    exact hs.destroy h hkey (by simp) fun k hk hh => absurd (hhand k hh) hk
  · split at hkeep
    · exact hs.startTimer h ‹_› hspare hkeep hhand
    · rename_i htimer
      cases hkeep
      refine hs.update key rfl (hs.shelved.other rfl rfl rfl rfl) rfl (fun _ _ => rfl) ?_ ?_
        (hs.queue.adjustTimer _ _ _) ?_ ?_ ?_ (fun _ _ => id) fun k hk hh => absurd (hhand k hh) hk
      · exact fun _ d' hd' => ⟨d', hd', id, id, fun _ _ => id⟩
      · exact hs.idle key
      · exact fun r u _ => hs.queue.has_adjustTimer _ _ _
      · exact fun r => (hs.queue.has_adjustTimer _ _ _).trans (hs.clock r key)
      · rintro d' hd' - - -
        cases h.symm.trans hd'
        exact htimer

theorem Kept.settle (hs : Kept none (some key) s) (h : s.mem key = some d)
    (hplace : d.place ≠ some .cache) (hkey : key ∉ s.finishing) (hspare : s.q.Spare)
    (hsettle : s.settle key = some s') : Kept none none s' := by
  obtain ⟨hevict, hd, hspare', hframes⟩ := hs.evict h hplace hspare
  rw [← hframes] at hkey
  rw [State.settle, h] at hsettle
  dsimp only at hsettle
  rw [State.toCache] at hsettle
  split at hsettle
  · split at hsettle
    · have hmove : Kept none (some key) (s.evict.move key .cache true) :=
        hevict.move hd true (fun _ => hkey) (fun _ _ hne => absurd rfl hne) fun _ _ => id
      rw [State.move_eq hd] at hmove hsettle
      exact hmove.keep (Function.update_self _ _ _) hkey hspare' hsettle
    · exact hevict.keep hd hkey hspare' hsettle
  · exact hs.keep h (hframes ▸ hkey) hspare hsettle

/-! ### Queries -/

variable {env : Env}

/-- Can a query be made for the lookup? -/
def Lookup.Sendable (env : Env) (dlp : Lookup F) : Prop :=
  ∃ name ∈ dlp.queryName env, 12 + env.dnComp name + 4 ≤ (maxPacketSize : ℤ)

theorem Kept.fail {more : Bool} (hs : Kept none hand s) (h : s.mem key = some d)
    (hplace : d.place ≠ some .cache) (hkey : key ∉ s.finishing)
    (hhand : ∀ k, hand = some k → k = key) (hfail : s.fail key = some (s', more)) :
    Kept none none s' := by
  obtain ⟨t, ht, hfail⟩ := Option.map_eq_some_iff.1 hfail
  cases hfail
  exact hs.modify_finish h hplace hkey hhand ht fun d => ⟨rfl, rfl, rfl⟩

theorem Kept.sent (hs : Kept none hand s) (h : s.mem key = some d) (htimer : dlp.timer = d.timer)
    (hspare : s.q.Spare) (hhand : ∀ k, hand = some k → k = key) {name : Bytes} {junk : ℤ}
    (hsent : s.sent key dlp name junk = some s') : Kept none none s' := by
  have hasked : Kept none hand (s.modify key fun d => { d with asked := some name }) := by
    refine hs.modify_same ?_
    exact fun d => ⟨rfl, rfl, rfl⟩
  have hq : (s.freeTimer dlp).q = (s.freeTimer d).q := by
    rw [State.freeTimer, State.freeTimer, htimer]
  rw [State.sent, State.freeTimer_eq, hq] at hsent
  obtain ⟨q, ref, hcreate, rfl⟩ := startTimer_eq
    (State.modify_mem_self (s := { s with q := (s.freeTimer d).q }) h) hsent
  exact hasked.setTimer (State.modify_mem_self h) (hs.listed_freeTimer d)
    (fun r u => hs.has_freeTimer) (spare_freeTimer hspare d) hcreate hhand

theorem named_timer (d : Lookup F) :
    d.named.timer = d.timer ∧ d.named.finished = d.finished := by
  rw [Lookup.named]
  split <;> exact ⟨rfl, rfl⟩

/-- A query for the lookup in hand, which is on the active list. -/
theorem Kept.request {wrote more : Bool} {junk : ℤ} (hs : Kept none hand s)
    (h : s.mem key = some d) (hplace : d.place ≠ some .cache) (htimer : dlp.timer = d.timer)
    (hspare : s.q.Spare) (hsendable : key ∈ s.finishing → dlp.Sendable env)
    (hhand : ∀ k, hand = some k → k = key)
    (hrequest : s.request env key dlp wrote junk = some (s', more)) : Kept none none s' := by
  rw [State.request] at hrequest
  split at hrequest
  · rename_i hname
    refine hs.fail h hplace (fun hk => ?_) hhand hrequest
    obtain ⟨name, hname', -⟩ := hsendable hk
    rw [hname] at hname'
    cases hname'
  · rename_i name hname
    have hnamed : Kept none hand (s.modify key Lookup.named) :=
      hs.modify_same fun d => ⟨(named_place d).1, named_timer d⟩
    have hmem : (s.modify key Lookup.named).mem key = some d.named := State.modify_mem_self h
    dsimp only at hrequest
    split at hrequest
    · rename_i hlen
      refine hnamed.fail hmem ((named_place d).1 ▸ hplace) (fun hk => ?_) hhand hrequest
      obtain ⟨name', hname', hle⟩ := hsendable hk
      cases hname.symm.trans hname'
      exact absurd hlen (not_lt.2 hle)
    · split at hrequest
      · obtain ⟨t, ht, hrequest⟩ := Option.map_eq_some_iff.1 hrequest
        cases hrequest
        exact hnamed.sent hmem (htimer.trans (named_timer d).1.symm) hspare hhand ht
      · cases hrequest
        exact hnamed.wait hmem true hhand

/-- The query that is due can be made, if its lookup is being finished. -/
def SendReady (env : Env) (s : State F) : Prop :=
  s.counts .pending ≠ s.max → ∀ key ∈ (s.lists .waiting).head?, key ∈ s.finishing →
    ∀ dlp ∈ s.mem key, dlp.Sendable env

theorem Kept.send {wrote more : Bool} {junk : ℤ} (hs : Kept none none s) (hspare : s.q.Spare)
    (hready : SendReady env s) (hsend : s.send env wrote junk = some (s', more)) :
    Kept none none s' := by
  rw [State.send] at hsend
  split at hsend
  · cases hsend
    exact hs
  · rename_i hcount
    split at hsend
    · cases hsend
      exact hs
    · rename_i key rest hlist
      have hwaiting : s.place key = some .waiting :=
        ((hs.shelved.placed .waiting).2 key).1 (by rw [hlist]; exact List.mem_cons_self)
      obtain ⟨d, hd, hplace⟩ := Option.bind_eq_some_iff.1 hwaiting
      rw [hd] at hsend
      have hmove : Kept none (some key) (s.move key .pending false) :=
        hs.move hd false (by simp) (fun _ _ hne => absurd rfl hne) (by simp)
      have hsendable : key ∈ s.finishing → d.Sendable env := fun hk =>
        hready hcount key (by rw [hlist]; rfl) hk d hd
      rw [State.move_eq hd] at hmove
      dsimp only at hsend
      rw [State.move_eq hd] at hsend
      refine hmove.request (Function.update_self _ _ _) ?_ rfl hspare hsendable ?_ hsend
      · simp
      · exact fun k hk => (Option.some.inj hk).symm

theorem move_frames : (s.move key p head).frames = s.frames := by
  cases h : s.mem key with
  | none => rw [State.move_of_none h]
  | some d => rw [State.move_eq h]

/-- Where no query was sent nothing more is under way. -/
theorem send_frames {wrote : Bool} {junk : ℤ} (h : s.send env wrote junk = some (s', false)) :
    s'.frames = s.frames := by
  have hmap : ∀ o : Option (State F), o.map (fun s => (s, true)) ≠ some (s', false) := by
    intro o ho
    obtain ⟨t, -, ht⟩ := Option.map_eq_some_iff.1 ho
    cases ht
  rw [State.send] at h
  split at h
  · cases h
    rfl
  · split at h
    · cases h
      rfl
    · split at h
      · cases h
        rfl
      · rw [State.request] at h
        split at h
        · exact absurd h (hmap _)
        · dsimp only at h
          split at h
          · exact absurd h (hmap _)
          · split at h
            · exact absurd h (hmap _)
            · cases h
              exact move_frames.trans move_frames

/-! ### Replies, timers and the configuration -/

theorem finishing_nil (hframes : s.frames = []) : k ∉ s.finishing := by
  rw [State.finishing, hframes]
  exact List.not_mem_nil

theorem Kept.answered (hs : Kept run hand s) (pkt : Bytes) (id : ℕ) (dlp : Lookup F) :
    Kept run hand (s.answered env pkt id dlp) :=
  hs.other (hs.shelved.answered pkt id) rfl rfl rfl rfl

theorem Kept.replied {pkt : Bytes} {id : ℕ} {r : Reply} (hs : Kept none none s)
    (h : s.mem key = some d) (hplace : d.place ≠ some .cache) (hkey : key ∉ s.finishing)
    (hreplied : s.replied env pkt id key d r = some s') : Kept none none s' := by
  have hanswered := @Kept.answered _ _ _ _ env hs pkt id d
  cases r with
  | ignored =>
    cases hreplied
    exact hs
  | failed =>
    exact hanswered.modify_finish h hplace hkey (by simp) hreplied fun d => ⟨rfl, rfl, rfl⟩
  | again =>
    cases hreplied
    exact hs.modify_wait h (by simp) fun d => ⟨rfl, rfl, rfl⟩
  | answered nxdomain an ns ad =>
    exact hanswered.modify_finish h hplace hkey (by simp) hreplied fun d => ⟨rfl, rfl, rfl⟩

theorem Kept.reply {pkt : Bytes} (hs : Kept none none s) (hframes : s.frames = [])
    (hreply : s.reply env pkt = some s') : Kept none none s' := by
  rw [State.reply, Option.bind_eq_bind, Option.bind_eq_some_iff] at hreply
  obtain ⟨o, -, hreply⟩ := hreply
  rcases o with _ | ⟨id, r⟩
  · cases hreply
    exact hs
  · dsimp only at hreply
    split at hreply
    · cases hreply
      exact hs
    · rename_i key hmatched
      obtain ⟨d, hd, -, hmatch⟩ := hs.shelved.matched hmatched
      rw [hd] at hreply
      have hplace : d.place ≠ some .cache := by
        rcases hmatch.outstanding with h | h
        · simp [h]
        · simp [h]
      exact hs.replied hd hplace (finishing_nil hframes) hreply

theorem Kept.timedOut (hs : Kept none (some key) s) (h : s.mem key = some d)
    (hplace : d.place ≠ some .cache) (hkey : key ∉ s.finishing)
    (htimed : s.timedOut key dlp = some s') : Kept none none s' := by
  have hhand : ∀ k, some key = some k → k = key := fun k hk => (Option.some.inj hk).symm
  rw [State.timedOut] at htimed
  split at htimed
  · exact hs.modify_finish h hplace hkey hhand htimed fun d => ⟨rfl, rfl, rfl⟩
  · cases htimed
    exact hs.modify_wait h hhand fun d => ⟨rfl, rfl, rfl⟩

/-- A timer that goes off is one of a lookup. -/
theorem Kept.tick {ref : ℕ} (hs : Kept none none s) (hframes : s.frames = [])
    (htick : s.tick ref = some s') : Kept none none s' := by
  rw [State.tick] at htick
  split at htick
  · cases htick
  · rename_i t hfind
    split at htick
    · obtain ⟨ht, href⟩ := Timers.findTimer_eq_some hfind
      obtain ⟨d, hd, rfl, -⟩ := (hs.clock ref t.udata).1 ⟨t, ht, href, rfl⟩
      have hunset := hs.unsetTimer hd
      have hkey : t.udata ∉ s.finishing := finishing_nil hframes
      rw [State.timerHook] at htick
      dsimp only at htick
      rw [hd] at htick
      dsimp only at htick
      rw [State.modify] at htick
      dsimp only at htick
      rw [hd, Option.map_some] at htick
      split at htick
      · cases htick
        exact hunset.destroy (Function.update_self _ _ _) hkey (by simp)
          fun k hk hh => absurd (Option.some.inj hh).symm hk
      · rename_i hplace
        have hpush : Kept none (some t.udata) (State.push { s with
            q := s.q.destroyTimer d.timer
            mem := Function.update s.mem t.udata
              (some { d with timer := Timers.timerInvalid }) } .sending) := by
          refine hunset.push ?_ trivial ?_ fun k hk => Or.inl hk
          · rintro k ⟨⟩
          · rintro k dlp ⟨⟩
        exact hpush.timedOut (Function.update_self _ _ _) hplace hkey htick
    · cases htick

theorem Kept.flush (l : List ℕ) (hl : l.Nodup) (hs : Kept none none s)
    (hmem : ∀ k ∈ l, (s.mem k).isSome ∧ k ∉ s.finishing) :
    Kept none none (l.foldl State.destroy s) := by
  induction l generalizing s with
  | nil => exact hs
  | cons key l ih =>
    obtain ⟨hnot, hl⟩ := List.nodup_cons.1 hl
    obtain ⟨hsome, hkey⟩ := hmem key List.mem_cons_self
    obtain ⟨d, hd⟩ := Option.isSome_iff_exists.1 hsome
    refine ih hl (hs.destroy hd hkey (by simp) (by simp)) fun k hk => ?_
    obtain ⟨hk', hkf⟩ := hmem k (List.mem_cons_of_mem _ hk)
    have hne : k ≠ key := fun heq => hnot (heq ▸ hk)
    rw [State.destroy_eq hd]
    dsimp only
    rw [Function.update_of_ne hne]
    exact ⟨hk', hkf⟩

theorem Kept.reload (hs : Kept none none s) (hframes : s.frames = []) (conf : Conf) (sock : Bool) :
    Kept none none (s.reload conf sock) := by
  have hconf : Kept none none (s.configure conf) :=
    hs.other (hs.shelved.other rfl rfl rfl rfl) rfl rfl rfl rfl
  rw [State.reload]
  split
  · refine hconf.flush _ (hconf.shelved.placed .cache).1 fun k hk => ?_
    obtain ⟨d, hd, -⟩ := Option.bind_eq_some_iff.1 (((hconf.shelved.placed .cache).2 k).1 hk)
    exact ⟨Option.isSome_iff_exists.2 ⟨d, hd⟩, finishing_nil hframes⟩
  · exact hconf

theorem Kept.tock (hs : Kept run hand s) (now : ℤ) :
    Kept run hand { s with q := { s.q with now := now } } where
  fault := hs.fault
  shelved := hs.shelved.other rfl rfl rfl rfl
  nodup := hs.nodup
  held := hs.held
  idle := hs.idle
  queue := ⟨hs.queue.ordered, hs.queue.keys, hs.queue.refs, hs.queue.lt, hs.queue.refcnt⟩
  clock := hs.clock
  timed := hs.timed

/-- A waiting lookup is on no other list. -/
theorem Shelved.notMem_pending (hs : Shelved s) (hk : k ∈ s.lists .waiting) :
    k ∉ s.lists .pending :=
  fun hk' => absurd (hs.placed.disjoint hk hk') (by simp)

/-! ### Calls -/

section

variable [DecidableEq F] {callback : F}

/-- The event of a lookup without the hook of a callback. -/
def unhooked (callback : F) (ev : Event F) : Event F := (ev.removeHook callback).getD ev

/-- While an event is being called its hooks stay, though they are removed. -/
theorem unhooked_calling (ev : Event F) : (unhooked callback ev).calling = ev.calling ∧
    (ev.calling = true → Event.ids (unhooked callback ev).hooks = Event.ids ev.hooks) := by
  rw [unhooked, Event.removeHook]
  split
  · exact ⟨rfl, fun _ => rfl⟩
  · refine ⟨rfl, fun h => ?_⟩
    dsimp only [Option.getD_some]
    rw [if_pos h, Event.ids_defer]

theorem unhook_eq (key : ℕ) (callback : F) :
    ∃ cancelled, s.unhook key callback =
      { s.modify key fun d => { d with finished := unhooked callback d.finished } with
        cancelled := cancelled } := by
  rw [State.unhook]
  split
  · rename_i hnone
    refine ⟨s.cancelled, ?_⟩
    have hsame : (s.mem key).map (fun d => { d with finished := unhooked callback d.finished }) =
        s.mem key := by
      cases hd : s.mem key with
      | none => rfl
      | some d =>
        rw [hd, Option.bind_some] at hnone
        rw [Option.map_some, unhooked, Event.removeHook, hnone]
        rfl
    rw [State.modify, hsame, Function.update_eq_self]
  · exact ⟨_, rfl⟩

theorem unhook_mem_of_ne (hk : k ≠ key) : (s.unhook key callback).mem k = s.mem k := by
  obtain ⟨cancelled, h⟩ := unhook_eq (s := s) key callback
  rw [h]
  exact Function.update_of_ne hk _ _

theorem unhook_mem_self (h : s.mem key = some d) : (s.unhook key callback).mem key =
    some { d with finished := unhooked callback d.finished } := by
  obtain ⟨cancelled, heq⟩ := unhook_eq (s := s) key callback
  rw [heq]
  exact State.modify_mem_self h

theorem unhook_frames : (s.unhook key callback).finishing = s.finishing := by
  obtain ⟨cancelled, h⟩ := unhook_eq (s := s) key callback
  rw [h]
  rfl

theorem Kept.unhook (hs : Kept run hand s) (key : ℕ) (callback : F) :
    Kept run hand (s.unhook key callback) := by
  obtain ⟨cancelled, h⟩ := unhook_eq (s := s) key callback
  rw [h]
  have hmodify : Kept run hand (s.modify key fun d =>
      { d with finished := unhooked callback d.finished }) := by
    refine hs.modify (fun d => ⟨rfl, rfl⟩) (fun _ d _ => ⟨id, ?_, ?_⟩) ?_ fun _ _ => id
    · exact fun h => (unhooked_calling d.finished).1.trans h
    · exact fun h i hi => ((unhooked_calling d.finished).2 h).symm ▸ hi
    · intro d hd hcalling hne
      exact hs.idle key d hd ((unhooked_calling d.finished).1.symm.trans hcalling) hne
  exact hmodify.other (hmodify.shelved.other rfl rfl rfl rfl) rfl rfl rfl rfl

/-- Taking the callback from this lookup does not free it while it is being finished. -/
def Spared (callback : F) (s : State F) (key : ℕ) : Prop :=
  key ∈ s.finishing → ∀ dlp ∈ s.mem key, (unhooked callback dlp.finished).numhooks ≠ 0

theorem Kept.cancelWaiting (hs : Kept none none s) (h : s.mem key = some d)
    (hspared : Spared callback s key) : Kept none none (s.cancelWaiting callback key) := by
  rw [State.cancelWaiting, unhook_mem_self h]
  dsimp only
  split
  · rename_i hzero
    refine (hs.unhook key callback).destroy (unhook_mem_self h) (fun hk => ?_) (by simp) (by simp)
    rw [unhook_frames] at hk
    exact hspared hk d h hzero
  · exact hs.unhook key callback

theorem cancelWaiting_mem (h : s.mem key = some d) (hk : k ≠ key) :
    (s.cancelWaiting callback key).mem k = s.mem k ∧
      (s.cancelWaiting callback key).finishing = s.finishing := by
  rw [State.cancelWaiting, unhook_mem_self h]
  dsimp only
  split
  · rw [State.destroy_eq (unhook_mem_self h)]
    exact ⟨(Function.update_of_ne hk _ _).trans (unhook_mem_of_ne hk), unhook_frames⟩
  · exact ⟨unhook_mem_of_ne hk, unhook_frames⟩

theorem Kept.cancelAll (l : List ℕ) (hl : l.Nodup) (hs : Kept none none s)
    (hmem : ∀ k ∈ l, (s.mem k).isSome) (hspared : ∀ k ∈ l, Spared callback s k) :
    Kept none none (l.foldl (State.cancelWaiting callback) s) := by
  induction l generalizing s with
  | nil => exact hs
  | cons key l ih =>
    obtain ⟨hnot, hl⟩ := List.nodup_cons.1 hl
    obtain ⟨d, hd⟩ := Option.isSome_iff_exists.1 (hmem key List.mem_cons_self)
    have hrest : ∀ k ∈ l, (s.cancelWaiting callback key).mem k = s.mem k ∧
        (s.cancelWaiting callback key).finishing = s.finishing :=
      fun k hk => cancelWaiting_mem hd fun heq => hnot (heq ▸ hk)
    refine ih hl (hs.cancelWaiting hd (hspared key List.mem_cons_self)) (fun k hk => ?_)
      fun k hk => ?_
    · rw [(hrest k hk).1]
      exact hmem k (List.mem_cons_of_mem _ hk)
    · rw [Spared, (hrest k hk).1, (hrest k hk).2]
      exact hspared k (List.mem_cons_of_mem _ hk)

theorem Kept.unhookAll (l : List ℕ) (hs : Kept none none s) :
    Kept none none (l.foldl (fun s key => s.unhook key callback) s) := by
  induction l generalizing s with
  | nil => exact hs
  | cons key l ih => exact ih (hs.unhook key callback)

theorem unhookAll_mem (callback : F) (l : List ℕ) (s : State F) (hk : k ∉ l) :
    (l.foldl (fun s key => s.unhook key callback) s).mem k = s.mem k := by
  induction l generalizing s with
  | nil => rfl
  | cons key l ih =>
    rw [List.mem_cons, not_or] at hk
    exact (ih (s.unhook key callback) hk.2).trans (unhook_mem_of_ne hk.1)

theorem unhookAll_lists (callback : F) (l : List ℕ) (s : State F) :
    (l.foldl (fun s key => s.unhook key callback) s).lists = s.lists ∧
      (l.foldl (fun s key => s.unhook key callback) s).finishing = s.finishing := by
  induction l generalizing s with
  | nil => exact ⟨rfl, rfl⟩
  | cons key l ih =>
    obtain ⟨hlists, hframes⟩ := ih (s.unhook key callback)
    obtain ⟨cancelled, h⟩ := unhook_eq (s := s) key callback
    refine ⟨hlists.trans ?_, hframes.trans unhook_frames⟩
    rw [h]
    rfl

theorem Kept.cancel (hs : Kept none none s)
    (hspared : ∀ k ∈ s.lists .waiting, Spared callback s k) :
    Kept none none (s.cancel callback) := by
  obtain ⟨hlists, hframes⟩ := unhookAll_lists callback (s.lists .pending) s
  have hmem : ∀ k ∈ s.lists .waiting, _ := fun k hk =>
    unhookAll_mem callback (s.lists .pending) s (hs.shelved.notMem_pending hk)
  rw [State.cancel, hlists]
  refine (hs.unhookAll _).cancelAll _ (hs.shelved.placed .waiting).1 (fun k hk => ?_) fun k hk => ?_
  · rw [hmem k hk]
    obtain ⟨d, hd, -⟩ := Option.bind_eq_some_iff.1 (((hs.shelved.placed .waiting).2 k).1 hk)
    exact Option.isSome_iff_exists.2 ⟨d, hd⟩
  · rw [Spared, hmem k hk, hframes]
    exact hspared k hk

/-- A hook is added to the event of a lookup. -/
theorem Kept.hookLookup (hs : Kept none none s) (key : ℕ) (callback : F) :
    Kept none none (s.hookLookup key callback) := by
  have hadd : ∀ ev : Event F, ∀ id, ((ev.addHookAfter id (some callback) none).getD ev).calling =
      ev.calling ∧ ∀ i ∈ Event.ids ev.hooks,
        i ∈ Event.ids ((ev.addHookAfter id (some callback) none).getD ev).hooks := by
    intro ev id
    rw [Event.addHookAfter]
    split
    · exact ⟨rfl, fun _ h => h⟩
    · refine ⟨rfl, fun i hi => ?_⟩
      obtain ⟨hp, hhp, rfl⟩ := List.mem_map.1 hi
      exact List.mem_map_of_mem ((List.mem_insertIdx (Nat.le_refl _)).2 (Or.inr hhp))
  have hmodify : Kept none none (s.modify key fun d => { d with finished :=
      (d.finished.addHookAfter s.calls (some callback) none).getD d.finished }) := by
    refine hs.modify (fun d => ⟨rfl, rfl⟩) (fun _ d _ => ⟨id, ?_, ?_⟩) ?_ fun _ _ => id
    · exact fun h => (hadd d.finished s.calls).1.trans h
    · exact fun _ => (hadd d.finished s.calls).2
    · intro d hd hcalling hne
      exact hs.idle key d hd ((hadd d.finished s.calls).1.symm.trans hcalling) hne
  exact hmodify.other (hmodify.shelved.other rfl rfl rfl rfl) rfl rfl rfl rfl

theorem Kept.make (hs : Kept none none s) (rrClass type : ℕ) (data : Bytes) (callback : F) :
    Kept none none (s.make rrClass type data callback) := by
  have hshelved := hs.shelved.make rrClass type data callback
  have hnone : s.mem s.keys = none := hs.shelved.fresh s.keys le_rfl
  have hnot : ∀ r, ¬ s.q.Has r s.keys := by
    intro r hr
    obtain ⟨d, hd, -⟩ := (hs.clock r s.keys).1 hr
    rw [hnone] at hd
    cases hd
  rw [State.make_eq] at hshelved ⊢
  have hmade : Kept none none { s.make rrClass type data callback with frames := s.frames } := by
    rw [State.make_eq]
    refine hs.update s.keys rfl (hshelved.other rfl rfl rfl rfl) rfl ?_
      (fun hk => absurd hk (hs.notMem_finishing hnone)) ?_ hs.queue (fun _ _ _ => Iff.rfl) ?_ ?_
      (fun _ _ => id) fun _ _ => id
    · exact fun k hk => Function.update_of_ne hk _ _
    · intro d hd hcalling
      obtain rfl := eq_of_update hd
      cases hcalling
    · intro r
      refine iff_of_false (hnot r) ?_
      rintro ⟨d, hd, htimer, hne⟩
      obtain rfl := eq_of_update hd
      exact hne htimer.symm
    · intro d hd hplace
      obtain rfl := eq_of_update hd
      exact absurd rfl hplace
  rw [State.make_eq] at hmade
  refine @Kept.push _ _ _ _ _ .once hmade ?_ trivial ?_ (by simp)
  · rintro k ⟨⟩
  · rintro k dlp ⟨⟩

theorem Kept.lookup (hs : Kept none none s) (rrClass type : ℕ) (data : Bytes) (callback : F) :
    Kept none none (s.lookup rrClass type data callback) := by
  rw [State.lookup]
  split
  · exact hs
  · split
    · exact hs.make rrClass type data callback
    · rename_i key hkey
      split
      · rename_i hcache
        obtain ⟨dlp, hdlp, hplace⟩ := (Option.any_eq_true _ _).1 hcache
        have hplace' : s.place key = some .cache :=
          (place_eq hdlp).trans (of_decide_eq_true hplace)
        have hpush : Kept none none (s.push .served) := by
          refine hs.push ?_ trivial ?_ (by simp)
          · rintro k ⟨⟩
          · rintro k dlp ⟨⟩
        exact hpush.other ((hs.shelved.serve hplace').other rfl rfl rfl rfl) rfl rfl rfl rfl
      · exact hs.hookLookup key callback

/-! ### Runs -/

/-- The condition on a step. -/
def Steady (env : Env) (s : State F) : Action F → Prop
  | .cancel callback => ∀ k ∈ s.lists .waiting, Spared callback s k
  | .send _ _ => s.q.Spare ∧ SendReady env s
  | .settle => s.q.Spare
  | _ => True

theorem Kept.step {a : Action F} (hs : Kept none none s) (hG : Steady env s a)
    (h : Stepped env s a s') : Kept none none s' := by
  cases h with
  | lookup rrClass type data callback _ => exact hs.lookup rrClass type data callback
  | cancel callback _ => exact hs.cancel hG
  | @once rest hframes wrote junk _ more h =>
    have hfinishing : ∀ k, k ∈ State.finishing { s with frames := rest } → k ∈ s.finishing := by
      intro k hk
      rw [State.finishing, hframes]
      exact hk
    exact (hs.popIdle hframes rfl).send hG.1
      (fun hcount key hkey hk => hG.2 hcount key hkey (hfinishing key hk)) h
  | more hframes wrote junk _ h => exact hs.send hG.1 hG.2 h
  | last hframes wrote junk t h =>
    have hsend := hs.send hG.1 hG.2 h
    exact hsend.popIdle ((send_frames h).trans hframes) rfl
  | ret hframes => exact hs.ret hframes
  | served hframes => exact hs.popIdle hframes rfl
  | @settle key rest hframes _ h =>
    obtain ⟨d, hd, hplace⟩ := hs.there (k := key)
      (mem_finishing.2 ⟨.ended key, hframes ▸ List.mem_cons_self, rfl⟩)
    have hended : Kept none (some key) { s with frames := rest } := hs.pop hframes (by simp)
    exact hended.settle hd hplace (hs.notMem_of_pop hframes rfl) hG h
  | poll hframes =>
    refine hs.push ?_ trivial ?_ (by simp)
    · rintro k ⟨⟩
    · rintro k dlp ⟨⟩
  | reply hframes pkt _ h => exact hs.reply hframes h
  | tick hframes ref _ h => exact hs.tick hframes h
  | reload hframes conf sock => exact hs.reload hframes conf sock
  | clock hframes now => exact hs.tock now

/-- In a run whose steps meet the condition nothing is used that has been freed. -/
theorem kept_of_run (env : Env) {now : ℤ} {as : List (Action F)}
    (hG : Run.Along (step env) (Steady env) (start now) as)
    (hrun : Run.run (step env) (start now) as = some s) : Kept none none s :=
  Run.run_invariant (fun _ _ _ hs hG h => hs.step hG (stepped h).2) (kept_start now) hG hrun

instance (q : Timers.Queue) : Decidable q.Spare :=
  inferInstanceAs (Decidable ((if q.rollover then q.refcnt else 0) + q.timers.length <
    Timers.timerInvalid))

instance (callback : F) (s : State F) (key : ℕ) : Decidable (Spared callback s key) :=
  inferInstanceAs (Decidable (key ∈ s.finishing →
    ∀ dlp ∈ s.mem key, (unhooked callback dlp.finished).numhooks ≠ 0))

omit [DecidableEq F] in
instance (env : Env) (dlp : Lookup F) : Decidable (dlp.Sendable env) :=
  inferInstanceAs (Decidable (∃ name ∈ dlp.queryName env,
    12 + env.dnComp name + 4 ≤ (maxPacketSize : ℤ)))

instance (env : Env) (s : State F) : Decidable (SendReady env s) :=
  inferInstanceAs (Decidable (s.counts .pending ≠ s.max → ∀ key ∈ (s.lists .waiting).head?,
    key ∈ s.finishing → ∀ dlp ∈ s.mem key, dlp.Sendable env))

instance (env : Env) (s : State F) : DecidablePred (Steady env s)
  | .cancel callback => inferInstanceAs (Decidable (∀ k ∈ s.lists .waiting, Spared callback s k))
  | .send _ _ => inferInstanceAs (Decidable (s.q.Spare ∧ SendReady env s))
  | .settle => inferInstanceAs (Decidable s.q.Spare)
  | .lookup _ _ _ _ | .ret | .poll | .reply _ | .tick _ | .reload _ _ | .clock _ => isTrue trivial

end

end Dns

end Ithildin
