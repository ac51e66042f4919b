import Ithildin.Dns.Upkeep
import Ithildin.Lib.Ledger

/-!
# Calls that are owed

Every call of `dns_lookup` is owed one call of its callback, by the lookup that it was made for or
found: one that is not in the cache owes a call for every hook that is still to come
(`State.owed`). The books are right if every call is called back, cancelled or owed (`Booked`).
Calling the hooks of an event keeps them right (`Books.goOn`).
-/

namespace Ithildin

namespace Dns

open Places Event

variable {F : Type} {s s' t : State F} {key k n : ℕ} {d d' dlp : Lookup F} {p : Place}
  {hooks : List (Hook F)} {frame : Frame} {rest : List Frame} {pr : Option (Option ℕ)}

/-! ### Hooks still to come -/

/-- How far the event of a lookup has been called: up to a hook, or to the end. -/
def Frame.progress (k : ℕ) : Frame → Option (Option ℕ)
  | .running key cur _ => if key = k then some (some cur) else none
  | .ended key => if key = k then some none else none
  | .once | .sending | .served => none

/-- How far the event of a lookup has been called, if it is being called. -/
def State.progress (s : State F) (k : ℕ) : Option (Option ℕ) :=
  s.frames.findSome? (Frame.progress k)

/-- The hooks that are still to come. -/
def restOf (hooks : List (Hook F)) : Option (Option ℕ) → List (Hook F)
  | none => hooks
  | some none => []
  | some (some cur) => Cursor.behind (·.id) cur hooks

/-- The hooks that are not marked for deletion. -/
def toCall (hooks : List (Hook F)) : Set ℕ := {n | ∃ h ∈ hooks, h.deferred = false ∧ h.id = n}

/-- The calls that a lookup is still to call back. -/
def owedBy : Option (Lookup F) → Option (Option ℕ) → Set ℕ
  | none, _ => ∅
  | some dlp, pr => if dlp.place = some .cache then ∅ else toCall (restOf dlp.finished.hooks pr)

/-- The calls that the lookup at an address is still to call back. -/
def State.owed (s : State F) (k : ℕ) : Set ℕ := owedBy (s.mem k) (s.progress k)

theorem progress_frame : frame.progress k = none ↔ frame.lookup ≠ some k := by
  cases frame with
  | running key cur nc => simp [Frame.progress, Frame.lookup]
  | ended key => simp [Frame.progress, Frame.lookup]
  | once | sending | served => simp [Frame.progress, Frame.lookup]

theorem progress_eq_none : s.progress k = none ↔ k ∉ s.finishing := by
  rw [State.progress, List.findSome?_eq_none_iff, mem_finishing]
  simp only [progress_frame]
  push Not
  exact Iff.rfl

theorem progress_congr (hframes : s'.frames = s.frames) : s'.progress = s.progress := by
  funext k
  rw [State.progress, hframes]
  rfl

theorem owed_of_none (h : s.mem k = none) : s.owed k = ∅ := by
  rw [State.owed, h]
  rfl

theorem owed_of_cache (h : s.mem k = some d) (hplace : d.place = some .cache) : s.owed k = ∅ := by
  rw [State.owed, h, owedBy, if_pos hplace]

theorem owed_eq (h : s.mem k = some d) (hplace : d.place ≠ some .cache) :
    s.owed k = toCall (restOf d.finished.hooks (s.progress k)) := by
  rw [State.owed, h, owedBy, if_neg hplace]

theorem progress_push (hk : frame.lookup ≠ some k) : (s.push frame).progress k = s.progress k := by
  rw [State.progress, State.push, List.findSome?_cons, progress_frame.2 hk]
  rfl

theorem notMem_push (hk : frame.lookup ≠ some k) :
    k ∉ (s.push frame).finishing ↔ k ∉ s.finishing := by
  rw [← progress_eq_none, ← progress_eq_none, progress_push hk]

theorem owed_push (hk : frame.lookup ≠ some k) : (s.push frame).owed k = s.owed k := by
  rw [State.owed, State.owed, progress_push hk]
  rfl

/-! ### Walking the hooks -/

theorem toCall_nil : toCall ([] : List (Hook F)) = ∅ := by
  simp [toCall]

theorem toCall_singleton {hp : Hook F} (h : hp.deferred = false) : toCall [hp] = {hp.id} := by
  ext n
  simp only [toCall, Set.mem_ofPred_eq, List.mem_singleton, Set.mem_singleton_iff]
  constructor
  · rintro ⟨_, rfl, -, rfl⟩
    rfl
  · rintro rfl
    exact ⟨hp, rfl, h, rfl⟩

theorem toCall_append {hooks' : List (Hook F)} :
    toCall (hooks ++ hooks') = toCall hooks ∪ toCall hooks' := by
  ext n
  simp [toCall, or_and_right, exists_or]

/-- The walk ends: nothing is left to be called. -/
theorem toCall_of_walk_none {nc nc' : Bool} (hnew : ∀ h ∈ hooks, h.new = false)
    (hw : walk nc hooks = (none, nc')) : toCall hooks = ∅ := by
  induction hooks generalizing nc with
  | nil => exact toCall_nil
  | cons b hooks ih =>
    rw [walk] at hw
    split at hw
    case isTrue hb =>
      rw [hnew b List.mem_cons_self, Bool.or_false] at hb
      rw [← ih (fun h hh => hnew h (List.mem_cons_of_mem b hh)) hw]
      ext n
      simp [toCall, hb]
    case isFalse => cases hw

/-- The walk stops at a hook: the others that are to be called are behind it. -/
theorem toCall_of_walk {nc nc' : Bool} {hp : Hook F} (hnew : ∀ h ∈ hooks, h.new = false)
    (hnd : (ids hooks).Nodup) (hw : walk nc hooks = (some hp, nc')) :
    ∃ before after, hooks = before ++ hp :: after ∧ hp.id ∈ toCall hooks ∧
      toCall after = toCall hooks \ {hp.id} := by
  induction hooks generalizing nc with
  | nil => cases hw
  | cons b hooks ih =>
    rw [ids, List.map_cons, List.nodup_cons] at hnd
    rw [walk] at hw
    split at hw
    case isTrue hb =>
      rw [hnew b List.mem_cons_self, Bool.or_false] at hb
      obtain ⟨before, after, rfl, hmem, hafter⟩ :=
        ih (fun h hh => hnew h (List.mem_cons_of_mem b hh)) hnd.2 hw
      refine ⟨b :: before, after, rfl, ?_, ?_⟩
      · obtain ⟨h, hh, hd⟩ := hmem
        exact ⟨h, List.mem_cons_of_mem b hh, hd⟩
      · rw [hafter]
        ext n
        simp [toCall, hb]
    case isFalse hb =>
      obtain ⟨rfl, -⟩ : b = hp ∧ nc = nc' := by simpa using hw
      rw [Bool.or_eq_true, not_or, Bool.not_eq_true, Bool.not_eq_true] at hb
      refine ⟨[], hooks, rfl, ⟨b, List.mem_cons_self, hb.1, rfl⟩, ?_⟩
      ext n
      constructor
      · rintro ⟨h, hh, hd, rfl⟩
        exact ⟨⟨h, List.mem_cons_of_mem b hh, hd, rfl⟩,
          fun heq => hnd.1 (heq ▸ List.mem_map_of_mem hh)⟩
      · rintro ⟨⟨h, hh, hd, rfl⟩, hne⟩
        rcases List.mem_cons.1 hh with rfl | hh
        · exact absurd rfl hne
        · exact ⟨h, hh, hd, rfl⟩

/-! ### The books -/

/-- Has the call been called back, or cancelled? -/
def State.Over (s : State F) (n : ℕ) : Prop := n ∈ s.done.map Prod.fst ∨ n ∈ s.cancelled

/-- The event of a lookup that is not in the cache. Its hooks are over or owed, and plain while it
is not being called. -/
structure Entered (isOver : ℕ → Prop) (owed : Set ℕ) (idle : Prop) (ev : Event F) : Prop where
  onehook : ev.flags.onehook = false
  nodup : (ids ev.hooks).Nodup
  own : ∀ n ∈ ids ev.hooks, isOver n ∨ n ∈ owed
  new : ∀ h ∈ ev.hooks, h.new = false
  plain : idle → ev.numhooks = ev.hooks.length ∧ ∀ h ∈ ev.hooks, h.deferred = false

theorem Entered.mono {isOver isOver' : ℕ → Prop} {owed owed' : Set ℕ} {idle idle' : Prop}
    {ev : Event F} (h : Entered isOver owed idle ev)
    (hown : ∀ n ∈ ids ev.hooks, isOver n ∨ n ∈ owed → isOver' n ∨ n ∈ owed')
    (hidle : idle' → idle) : Entered isOver' owed' idle' ev :=
  ⟨h.onehook, h.nodup, fun n hn => hown n hn (h.own n hn), h.new, fun hi => h.plain (hidle hi)⟩

/-- Every call is called back once, cancelled, or owed by a lookup. The lookup `busy` is in hand
with some of its hooks called. -/
structure Books (owed : ℕ → Set ℕ) (busy : Option ℕ) (s : State F) : Prop where
  ledger : Ledger owed (s.done.map Prod.fst) s.cancelled s.calls
  alive : ∀ c ∈ s.done, c.2 = true
  entered : ∀ k dlp, s.mem k = some dlp → dlp.place ≠ some .cache →
    Entered s.Over (owed k) (k ∉ s.finishing ∧ busy ≠ some k) dlp.finished

/-- The books are right. -/
abbrev Booked (s : State F) : Prop := Books s.owed none s

theorem booked_start (now : ℤ) : Booked (start now : State F) where
  ledger := by
    have howed : (start now : State F).owed = fun _ => ∅ := funext fun k => owed_of_none rfl
    rw [howed]
    exact Ledger.empty
  alive := by simp [start]
  entered := by simp [start]

/-! ### What does not change the books -/

/-- A lookup keeps its event and is in the cache or not as before; one in the cache may be freed. -/
inductive Same : Option (Lookup F) → Option (Lookup F) → Prop
  | none : Same none none
  | some {d d' : Lookup F} (finished : d'.finished = d.finished)
      (place : d'.place = some .cache ↔ d.place = some .cache) : Same (some d) (some d')
  | gone {d : Lookup F} (h : d.place = some .cache) : Same (some d) none

theorem Same.refl (o : Option (Lookup F)) : Same o o := by
  cases o with
  | none => exact .none
  | some d => exact .some rfl Iff.rfl

theorem Same.trans {o o' o'' : Option (Lookup F)} (h : Same o o') (h' : Same o' o'') :
    Same o o'' := by
  cases h with
  | none => exact h'
  | some hfinished hplace =>
    cases h' with
    | some hfinished' hplace' => exact .some (hfinished'.trans hfinished) (hplace'.trans hplace)
    | gone hcache => exact .gone (hplace.1 hcache)
  | gone hcache =>
    cases h'
    exact .gone hcache

theorem Same.owedBy {o o' : Option (Lookup F)} (h : Same o o') (pr : Option (Option ℕ)) :
    owedBy o' pr = owedBy o pr := by
  cases h with
  | none => rfl
  | @some d d' hfinished hplace => simp only [Dns.owedBy, hfinished, hplace]
  | gone hcache => simp [Dns.owedBy, hcache]

/-- Nothing changes that the books are about. -/
structure Quiet (s s' : State F) : Prop where
  progress : s'.progress = s.progress
  done : s'.done = s.done
  cancelled : s'.cancelled = s.cancelled
  calls : s'.calls = s.calls
  same : ∀ k, Same (s.mem k) (s'.mem k)

theorem Quiet.refl (s : State F) : Quiet s s :=
  ⟨rfl, rfl, rfl, rfl, fun _ => Same.refl _⟩

theorem Quiet.trans (h : Quiet s s') (h' : Quiet s' t) : Quiet s t where
  progress := h'.progress.trans h.progress
  done := h'.done.trans h.done
  cancelled := h'.cancelled.trans h.cancelled
  calls := h'.calls.trans h.calls
  same := fun k => (h.same k).trans (h'.same k)

theorem Quiet.notMem (h : Quiet s s') : k ∉ s'.finishing ↔ k ∉ s.finishing := by
  rw [← progress_eq_none, ← progress_eq_none, h.progress]

theorem Quiet.owed (h : Quiet s s') : s'.owed = s.owed := by
  funext k
  rw [State.owed, State.owed, h.progress]
  exact (h.same k).owedBy _

theorem Quiet.isOver (h : Quiet s s') : s'.Over = s.Over := by
  funext n
  rw [State.Over, State.Over, h.done, h.cancelled]

/-- Where there is a lookup then, there was one before. -/
theorem Quiet.back (h : Quiet s s') (hd' : s'.mem k = some d') :
    ∃ d, s.mem k = some d ∧ d'.finished = d.finished ∧
      (d'.place = some .cache ↔ d.place = some .cache) := by
  have hsame := h.same k
  rw [hd'] at hsame
  generalize hd : s.mem k = o at hsame
  cases hsame with
  | @some d _ hfinished hplace => exact ⟨d, rfl, hfinished, hplace⟩

theorem Books.quiet {owed : ℕ → Set ℕ} {busy : Option ℕ} (hs : Books owed busy s)
    (h : Quiet s s') : Books owed busy s' := by
  refine ⟨?_, ?_, ?_⟩
  · rw [h.done, h.cancelled, h.calls]
    exact hs.ledger
  · rw [h.done]
    exact hs.alive
  · intro k d' hd' hplace
    obtain ⟨d, hd, hfinished, hcache⟩ := h.back hd'
    rw [h.isOver, h.notMem, hfinished]
    exact hs.entered k d hd fun hc => hplace (hcache.2 hc)

theorem Booked.quiet (hs : Booked s) (h : Quiet s s') : Booked s' := by
  rw [Booked, h.owed]
  exact Books.quiet hs h

theorem quiet_other (hframes : s'.frames = s.frames) (hdone : s'.done = s.done)
    (hcancelled : s'.cancelled = s.cancelled) (hcalls : s'.calls = s.calls)
    (hmem : s'.mem = s.mem) : Quiet s s' :=
  ⟨progress_congr hframes, hdone, hcancelled, hcalls, fun _ => hmem ▸ Same.refl _⟩

/-- What is about no lookup does not count while it is under way. -/
theorem quiet_push (hidle : frame.lookup = none) : Quiet s (s.push frame) where
  progress := funext fun _ => progress_push (hidle ▸ (by simp))
  done := rfl
  cancelled := rfl
  calls := rfl
  same := fun _ => Same.refl _

theorem quiet_pop (hframes : s.frames = frame :: rest) (hidle : frame.lookup = none) :
    Quiet s { s with frames := rest } where
  progress := by
    funext k
    have hpush : ({ s with frames := rest } : State F).push frame = s := by
      rw [State.push, ← hframes]
    have hprogress : (State.push { s with frames := rest } frame).progress k =
        State.progress { s with frames := rest } k := progress_push (hidle ▸ (by simp))
    rw [← hprogress, hpush]
  done := rfl
  cancelled := rfl
  calls := rfl
  same := fun _ => Same.refl _

theorem quiet_modify {f : Lookup F → Lookup F} (key : ℕ)
    (hf : ∀ d, (f d).finished = d.finished ∧ (f d).place = d.place) :
    Quiet s (s.modify key f) := by
  refine ⟨rfl, rfl, rfl, rfl, fun k => ?_⟩
  rw [State.modify_mem]
  split
  · cases s.mem k with
    | none => exact .none
    | some d => exact .some (hf d).1 (by rw [(hf d).2])
  · exact Same.refl _

theorem quiet_move (h : s.mem key = some d) (hplace : d.place ≠ some .cache) (hp : p ≠ .cache)
    (head : Bool) : Quiet s (s.move key p head) := by
  rw [State.move_eq h]
  refine ⟨rfl, rfl, rfl, rfl, fun k => ?_⟩
  dsimp only
  by_cases hk : k = key
  · rw [hk, Function.update_self, h]
    exact .some rfl (iff_of_false (fun hc => hp (Option.some.inj hc)) hplace)
  · rw [Function.update_of_ne hk]
    exact Same.refl _

theorem quiet_destroy (h : s.mem key = some d) (hplace : d.place = some .cache) :
    Quiet s (s.destroy key) := by
  rw [State.destroy_eq h]
  refine ⟨rfl, rfl, rfl, rfl, fun k => ?_⟩
  dsimp only
  by_cases hk : k = key
  · rw [hk, Function.update_self, h]
    exact .gone hplace
  · rw [Function.update_of_ne hk]
    exact Same.refl _

/-! ### Finishing a lookup -/

/-- The hooks behind a hook of the last part of a list. -/
theorem behind_of_suffix {hooks' before after : List (Hook F)} {hp : Hook F}
    (hsuffix : hooks' <:+ hooks) (hnd : (ids hooks).Nodup) (heq : hooks' = before ++ hp :: after) :
    Cursor.behind (·.id) hp.id hooks = after := by
  obtain ⟨pre, rfl⟩ := hsuffix
  rw [heq, ← List.append_assoc] at hnd ⊢
  refine @Cursor.behind_append (Hook F) ℕ _ (·.id) _ hp _ fun hin => ?_
  rw [ids, List.map_append, List.map_cons] at hnd
  exact (List.nodup_append.1 hnd).2.2 _ hin _ List.mem_cons_self rfl

/-- The hooks at the end of `hook_event`. -/
def closed (nc : Bool) (hooks : List (Hook F)) : List (Hook F) :=
  if nc then sweep hooks else hooks

theorem ids_closed (nc : Bool) : (ids (closed nc hooks)).Sublist (ids hooks) := by
  rw [closed]
  split
  · rw [ids_sweep]
    exact ids_live_sublist
  · exact List.Sublist.refl _

theorem new_closed {nc : Bool} (hnew : ∀ h ∈ hooks, h.new = false) :
    ∀ h ∈ closed nc hooks, h.new = false := by
  rw [closed]
  split
  · intro h hh
    obtain ⟨h', -, rfl⟩ := List.mem_map.1 hh
    rfl
  · exact hnew

/-- The event in hand is over, and owes nothing more. -/
theorem Books.close (h : s.mem key = some d) (hplace : d.place ≠ some .cache)
    (hempty : toCall hooks = ∅)
    (hs : Books (Function.update s.owed key (toCall hooks)) (some key) s) (nc : Bool) :
    Booked ((s.closeEvent key nc).push (.ended key)) := by
  have hev := hs.entered key d h hplace
  have hne : ∀ k, k ≠ key → (Frame.ended key).lookup ≠ some k := fun k hk heq =>
    hk (Option.some.inj heq).symm
  have hmem : ∀ k, k ≠ key → (s.closeEvent key nc).mem k = s.mem k := fun k hk => by
    rw [State.closeEvent, State.modify_mem, if_neg hk]
  have hself : ((s.closeEvent key nc).push (.ended key)).mem key = some { d with finished :=
      { d.finished with calling := false, hooks := closed nc d.finished.hooks } } :=
    State.modify_mem_self h
  have howed : ((s.closeEvent key nc).push (.ended key)).owed =
      Function.update s.owed key (toCall hooks) := by
    funext k
    by_cases hk : k = key
    · have hprogress : ((s.closeEvent key nc).push (.ended key)).progress key = some none := by
        rw [State.progress, State.push, List.findSome?_cons, Frame.progress, if_pos rfl]
      rw [hk, Function.update_self, hempty, owed_eq hself hplace, hprogress, restOf, toCall_nil]
    · rw [Function.update_of_ne hk, owed_push (hne k hk), State.owed, hmem k hk]
      rfl
  rw [Booked, howed]
  refine ⟨hs.ledger, hs.alive, fun k d' hd' hplace' => ?_⟩
  by_cases hk : k = key
  · subst hk
    cases hself.symm.trans hd'
    refine ⟨hev.onehook, hev.nodup.sublist (ids_closed nc), ?_, new_closed hev.new, ?_⟩
    · exact fun n hn => hev.own n ((ids_closed nc).subset hn)
    · exact fun hidle => absurd (mem_finishing.2 ⟨_, List.mem_cons_self, rfl⟩) hidle.1
  · refine (hs.entered k d' ((hmem k hk).symm.trans hd') hplace').mono (fun _ _ => id) ?_
    exact fun hidle =>
      ⟨(notMem_push (hne k hk)).1 hidle.1, fun heq => hk (Option.some.inj heq).symm⟩

/-- The next hook of the event in hand is called. -/
theorem Books.call {hp : Hook F} (nc : Bool) (h : s.mem key = some d)
    (hplace : d.place ≠ some .cache) (hmem : hp.id ∈ toCall hooks)
    (hbehind : toCall (Cursor.behind (·.id) hp.id d.finished.hooks) = toCall hooks \ {hp.id})
    (hs : Books (Function.update s.owed key (toCall hooks)) (some key) s) :
    Booked { s.push (.running key hp.id nc) with
      done := (hp.id, (s.mem key).isSome) :: s.done } := by
  have hne : ∀ k, k ≠ key → (Frame.running key hp.id nc).lookup ≠ some k := fun k hk heq =>
    hk (Option.some.inj heq).symm
  have hself : (s.push (.running key hp.id nc)).owed key = toCall hooks \ {hp.id} := by
    have hprogress : (s.push (.running key hp.id nc)).progress key = some (some hp.id) := by
      rw [State.progress, State.push, List.findSome?_cons, Frame.progress, if_pos rfl]
    rw [owed_eq (s := s.push _) h hplace, hprogress, restOf, hbehind]
  have hledger : Ledger (s.push (.running key hp.id nc)).owed (hp.id :: s.done.map Prod.fst)
      s.cancelled s.calls := by
    refine hs.ledger.pay (k := key) ?_ ?_ fun k hk => ?_
    · rwa [Function.update_self]
    · rw [hself, Function.update_self]
    · rw [owed_push (hne k hk), Function.update_of_ne hk]
  refine ⟨hledger, ?_, fun k d' hd' hplace' => ?_⟩
  · intro c hc
    rcases List.mem_cons.1 hc with rfl | hc
    · rw [h]
      rfl
    · exact hs.alive c hc
  · have hev := hs.entered k d' hd' hplace'
    have hover : ∀ n, s.Over n → State.Over { s.push (.running key hp.id nc) with
        done := (hp.id, (s.mem key).isSome) :: s.done } n :=
      fun n hn => hn.imp_left (List.mem_cons_of_mem hp.id)
    refine hev.mono (fun n _ hn => ?_) fun hidle => ?_
    · rcases hn with hn | hn
      · exact Or.inl (hover n hn)
      · by_cases hn' : n = hp.id
        · exact Or.inl (Or.inl (List.mem_cons.2 (Or.inl hn')))
        · right
          by_cases hk : k = key
          · subst hk
            rw [Function.update_self] at hn
            change n ∈ (s.push (.running k hp.id nc)).owed k
            rw [hself]
            exact ⟨hn, hn'⟩
          · rw [Function.update_of_ne hk] at hn
            change n ∈ (s.push (.running key hp.id nc)).owed k
            rwa [owed_push (hne k hk)]
    · have hk : k ≠ key := by
        rintro rfl
        exact hidle.1 (mem_finishing.2 ⟨_, List.mem_cons_self, rfl⟩)
      exact ⟨(notMem_push (hne k hk)).1 hidle.1, fun heq => hk (Option.some.inj heq).symm⟩

/-- `hook_event` goes on to the next hook of the lookup in hand, or returns. -/
theorem Books.goOn (h : s.mem key = some d) (hplace : d.place ≠ some .cache)
    (hsuffix : hooks <:+ d.finished.hooks)
    (hs : Books (Function.update s.owed key (toCall hooks)) (some key) s) (nc : Bool) :
    Booked (s.goOn key nc hooks) := by
  have hev := hs.entered key d h hplace
  have hnew : ∀ hp ∈ hooks, hp.new = false := fun hp hhp => hev.new hp (hsuffix.subset hhp)
  have hnd : (ids hooks).Nodup := hev.nodup.sublist (hsuffix.sublist.map _)
  rw [State.goOn]
  split
  · rename_i nc' hwalk
    exact hs.close h hplace (toCall_of_walk_none hnew hwalk) nc'
  · rename_i hp nc' hwalk
    obtain ⟨before, after, heq, hmem, hafter⟩ := toCall_of_walk hnew hnd hwalk
    refine hs.call nc' h hplace hmem ?_
    rw [behind_of_suffix hsuffix hev.nodup heq, hafter]

theorem owed_modify {f : Lookup F → Lookup F}
    (hf : ∀ d, (f d).finished.hooks = d.finished.hooks ∧ (f d).place = d.place) :
    (s.modify key f).owed = s.owed := by
  funext k
  rw [State.owed, State.owed, State.modify_mem]
  split
  · cases s.mem k with
    | none => rfl
    | some d =>
      rw [Option.map_some, owedBy, owedBy, (hf d).1, (hf d).2]
      rfl
  · rfl

/-- `dns_lookup_finish` up to the first callback. -/
theorem Booked.finish (hs : Booked s) (h : s.mem key = some d) (hplace : d.place ≠ some .cache)
    (hkey : key ∉ s.finishing) (hfinish : s.finish key = some s') : Booked s' := by
  rw [State.finish, h] at hfinish
  obtain ⟨ttl, -, rfl⟩ := Option.map_eq_some_iff.1 hfinish
  dsimp only
  generalize hf : (fun d : Lookup F => { d with
    last := s.q.now, ttl := ttl, finished := { d.finished with calling := true } }) = f
  have hsame : ∀ d, (f d).finished = { d.finished with calling := true } ∧
      (f d).place = d.place := by
    subst hf
    exact fun d => ⟨rfl, rfl⟩
  have howed : Function.update (s.modify key f).owed key (toCall d.finished.hooks) = s.owed := by
    rw [owed_modify fun d => ⟨by rw [(hsame d).1], (hsame d).2⟩, Function.update_eq_iff]
    refine ⟨?_, fun _ _ => rfl⟩
    rw [owed_eq h hplace, progress_eq_none.2 hkey, restOf]
  have hhooks : (f d).finished.hooks = d.finished.hooks := by rw [(hsame d).1]
  refine Books.goOn (State.modify_mem_self h) ?_ ?_ ?_ false
  · rwa [(hsame d).2]
  · exact hhooks ▸ List.suffix_rfl
  · rw [howed]
    refine ⟨hs.ledger, hs.alive, fun k d' hd' hplace' => ?_⟩
    by_cases hk : k = key
    · subst hk
      cases (State.modify_mem_self h).symm.trans hd'
      rw [(hsame d).1]
      obtain ⟨honehook, hnodup, hown, hnew, -⟩ := hs.entered k d h hplace
      exact ⟨honehook, hnodup, hown, hnew, fun hidle => absurd rfl hidle.2⟩
    · rw [State.modify_mem, if_neg hk] at hd'
      refine (hs.entered k d' hd' hplace').mono (fun _ _ => id) fun hidle => ⟨hidle.1, (by simp)⟩

/-- The innermost thing under way is over, and its lookup is in hand. -/
theorem Booked.pop (hs : Booked s) (hframes : s.frames = frame :: rest)
    (hkey : frame.lookup = some key) :
    Books s.owed (some key) { s with frames := rest } ∧
      ∀ k, k ≠ key → State.owed { s with frames := rest } k = s.owed k := by
  have hpush : State.push { s with frames := rest } frame = s := by
    rw [State.push, ← hframes]
  have hne : ∀ k, k ≠ key → frame.lookup ≠ some k := fun k hk heq =>
    hk (Option.some.inj (heq.symm.trans hkey))
  refine ⟨⟨hs.ledger, hs.alive, fun k d hd hplace => ?_⟩, fun k hk => ?_⟩
  · refine (hs.entered k d hd hplace).mono (fun _ _ => id) fun hidle => ⟨?_, (by simp)⟩
    have hk : k ≠ key := fun heq => hidle.2 (congrArg some heq.symm)
    have hnot := (notMem_push (s := { s with frames := rest }) (hne k hk)).2 hidle.1
    rwa [hpush] at hnot
  · rw [← owed_push (s := { s with frames := rest }) (hne k hk), hpush]

/-- A callback returns. -/
theorem Booked.ret {cur : ℕ} {nc : Bool} (hs : Booked s) (h : s.mem key = some d)
    (hplace : d.place ≠ some .cache) (hframes : s.frames = .running key cur nc :: rest) :
    Booked (State.goOn { s with frames := rest } key nc
      (Cursor.behind (·.id) cur d.finished.hooks)) := by
  obtain ⟨hbooks, hother⟩ := hs.pop hframes rfl
  have hprogress : s.progress key = some (some cur) := by
    rw [State.progress, hframes, List.findSome?_cons, Frame.progress, if_pos rfl]
  refine Books.goOn (s := { s with frames := rest }) h hplace Cursor.behind_suffix ?_ nc
  have howed : Function.update (State.owed { s with frames := rest }) key
      (toCall (Cursor.behind (·.id) cur d.finished.hooks)) = s.owed := by
    rw [Function.update_eq_iff]
    refine ⟨?_, hother⟩
    rw [owed_eq h hplace, hprogress, restOf]
  rwa [howed]

/-- A lookup that owes nothing leaves: it is freed, or it is in the cache. -/
theorem Books.leave {owed : ℕ → Set ℕ} {busy : Option ℕ} (hs : Books owed busy s)
    (hbusy : ∀ k, busy = some k → k = key) (hempty : owed key = ∅)
    (howed : ∀ k, k ≠ key → owed k = s.owed k) (hframes : s'.frames = s.frames)
    (hdone : s'.done = s.done) (hcancelled : s'.cancelled = s.cancelled)
    (hcalls : s'.calls = s.calls) (hmem : ∀ k, k ≠ key → s'.mem k = s.mem k)
    (hleft : ∀ d, s'.mem key = some d → d.place = some .cache) : Booked s' := by
  have hprogress := progress_congr hframes
  have howed' : s'.owed = owed := by
    funext k
    by_cases hk : k = key
    · subst hk
      rw [hempty]
      cases hd : s'.mem k with
      | none => exact owed_of_none hd
      | some d => exact owed_of_cache hd (hleft d hd)
    · rw [howed k hk, State.owed, State.owed, hprogress, hmem k hk]
  have hover : s'.Over = s.Over := by
    funext n
    rw [State.Over, State.Over, hdone, hcancelled]
  rw [Booked, howed']
  refine ⟨?_, ?_, fun k d hd hplace => ?_⟩
  · rw [hdone, hcancelled, hcalls]
    exact hs.ledger
  · rw [hdone]
    exact hs.alive
  · by_cases hk : k = key
    · subst hk
      exact absurd (hleft d hd) hplace
    · rw [hover, State.finishing, hframes]
      rw [hmem k hk] at hd
      refine (hs.entered k d hd hplace).mono (fun _ _ => id) fun hidle => ⟨hidle.1, fun heq => ?_⟩
      exact hk (hbusy k heq)

end Dns

end Ithildin
