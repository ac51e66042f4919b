import Ithildin.Event.Cond
import Ithildin.Lib.Cursor

/-!
# The hooks of an event

The event structure and the functions on it: `add_hook_after`, `add_hook_before`, `remove_hook` and
the two loops of `hook_event`, the one to the next hook that is called and the one at the end that
frees what is marked. Running the hooks is in `Ithildin.Event.Pass`.

A hook has a number in place of its address, so that a hook that is freed and one that is allocated
later differ. A hook is live if it is not marked for deletion.
-/

namespace Ithildin

/-- The flags an event is created with. -/
structure EventFlags where
  onehook : Bool
  noreturn : Bool
  hookonce : Bool
  conditional : Bool
  deriving DecidableEq

/-- `struct hook`. -/
structure Hook (F : Type) where
  /-- In place of the address. -/
  id : ℕ
  function : F
  /-- `HOOK_FL_DEFERRED` -/
  deferred : Bool
  /-- `HOOK_FL_NEW` -/
  new : Bool
  deriving DecidableEq

/-- `struct event`. -/
structure Event (F : Type) where
  numhooks : ℤ
  flags : EventFlags
  /-- `EVENT_FL_CALLING` -/
  calling : Bool
  hooks : List (Hook F)
  deriving DecidableEq

namespace Event

variable {F : Type}

/-- `create_event` -/
def create (flags : EventFlags) : Event F where
  numhooks := 0
  flags := flags
  calling := false
  hooks := []

/-! ### Adding hooks -/

section

variable [DecidableEq F]

/-- Where `add_hook_after` puts a hook: behind the first with the function `after`, or at the end.
-/
def afterPos (hooks : List (Hook F)) : Option F → ℕ
  | none => hooks.length
  | some after => min (hooks.findIdx (·.function = after) + 1) hooks.length

/-- Where `add_hook_before` puts a hook: in front of the first with the function `before`, at the
end if there is none, and at the head for `NULL`. -/
def beforePos (hooks : List (Hook F)) : Option F → ℕ
  | none => 0
  | some before => hooks.findIdx (·.function = before)

/-- `add_hook_really`, with `n` hooks in front of the new one. -/
def addHookReally (ev : Event F) (id : ℕ) (func : F) (n : ℕ) : Event F :=
  { ev with
    hooks := ev.hooks.insertIdx n { id, function := func, deferred := false, new := ev.calling }
    numhooks := ev.numhooks + 1 }

/-- `add_hook_after` and `add_hook_before` refuse a second hook on a one-hook event. -/
def full (ev : Event F) : Bool :=
  ev.numhooks ≠ 0 && ev.flags.onehook

/-- `add_hook_after`; nothing when it returns 0. -/
def addHookAfter (ev : Event F) (id : ℕ) (func after : Option F) : Option (Event F) :=
  match func with
  | none => none
  | some f => if ev.full then none else some (ev.addHookReally id f (afterPos ev.hooks after))

/-- `add_hook_before`; nothing when it returns 0. -/
def addHookBefore (ev : Event F) (id : ℕ) (func before : Option F) : Option (Event F) :=
  match func with
  | none => none
  | some f => if ev.full then none else some (ev.addHookReally id f (beforePos ev.hooks before))

/-- `maxhooks` after a hook is added. -/
def grown (maxhooks : ℕ) (numhooks : ℤ) : ℕ :=
  if maxhooks ≤ numhooks then maxhooks * 2 else maxhooks

/-! ### Removing hooks -/

/-- `find_hook` -/
def findHook (ev : Event F) (func : F) : Option (Hook F) :=
  ev.hooks.find? (·.function = func)

/-- Mark the hook at an address for deletion. -/
def defer (id : ℕ) (hooks : List (Hook F)) : List (Hook F) :=
  hooks.map fun h => if h.id = id then { h with deferred := true } else h

/-- `remove_hook`; nothing when it returns 0. -/
def removeHook (ev : Event F) (func : F) : Option (Event F) :=
  match ev.findHook func with
  | none => none
  | some hp =>
    some { ev with
      numhooks := ev.numhooks - 1
      hooks := if ev.calling then defer hp.id ev.hooks else ev.hooks.filter (·.id ≠ hp.id) }

end

/-! ### The loops of `hook_event` -/

/-- From here to the next hook that is called, and `needclean`. -/
def walk : Bool → List (Hook F) → Option (Hook F) × Bool
  | needclean, [] => (none, needclean)
  | needclean, hp :: hooks =>
      if hp.deferred || hp.new then walk true hooks else (some hp, needclean)

/-- The loop at the end of `hook_event`. -/
def sweep (hooks : List (Hook F)) : List (Hook F) :=
  (hooks.filter fun h => !h.deferred).map fun h => { h with new := false }

/-! ### Live hooks -/

/-- The hooks that are not marked for deletion. -/
def live (hooks : List (Hook F)) : List (Hook F) :=
  hooks.filter fun h => !h.deferred

/-- A hook and what it calls. -/
def entry (h : Hook F) : ℕ × F :=
  (h.id, h.function)

/-- The live hooks and what they call. -/
def liveEntries (hooks : List (Hook F)) : List (ℕ × F) :=
  (live hooks).map entry

/-- The hooks as their addresses. -/
def ids (hooks : List (Hook F)) : List ℕ :=
  hooks.map (·.id)

variable {hooks : List (Hook F)} {ev : Event F} {h : Hook F}

@[simp] theorem ids_defer (id : ℕ) : ids (defer id hooks) = ids hooks := by
  rw [ids, ids, defer, List.map_map]
  refine List.map_congr_left fun h _ => ?_
  by_cases hid : h.id = id <;> simp [hid]

theorem ids_sweep : ids (sweep hooks) = ids (live hooks) := by
  rw [ids, ids, sweep, List.map_map, live]
  rfl

@[simp] theorem liveEntries_sweep : liveEntries (sweep hooks) = liveEntries hooks := by
  rw [liveEntries, liveEntries, live, live, sweep, List.filter_map, List.filter_filter,
    List.map_map]
  simp [Function.comp_def, entry]

theorem ids_live_sublist : (ids (live hooks)).Sublist (ids hooks) :=
  List.filter_sublist.map _

theorem length_liveEntries : (liveEntries hooks).length = (live hooks).length :=
  List.length_map _

theorem length_live_sweep : (live (sweep hooks)).length = (live hooks).length := by
  rw [← length_liveEntries, liveEntries_sweep, length_liveEntries]

theorem mem_liveEntries : h.deferred = false → h ∈ hooks → entry h ∈ liveEntries hooks :=
  fun hd hmem => List.mem_map_of_mem (List.mem_filter.mpr ⟨hmem, by simp [hd]⟩)

/-- Marking a live hook takes it off the live ones, as freeing it does. -/
theorem live_defer (id : ℕ) : live (defer id hooks) = (live hooks).filter (·.id ≠ id) := by
  induction hooks with
  | nil => rfl
  | cons h hooks ih =>
    rw [live, live, defer] at ih
    by_cases hid : h.id = id <;> by_cases hd : h.deferred = true <;>
      simp_all [live, defer]

theorem live_filter (id : ℕ) :
    live (hooks.filter (·.id ≠ id)) = (live hooks).filter (·.id ≠ id) := by
  rw [live, live, List.filter_filter, List.filter_filter]
  exact List.filter_congr fun h _ => Bool.and_comm _ _

/-- Among hooks with different addresses one is left out. -/
theorem entries_filter_perm (hnd : (ids hooks).Nodup) (hmem : h ∈ hooks) :
    (entry h :: (hooks.filter (·.id ≠ h.id)).map entry).Perm (hooks.map entry) := by
  induction hooks with
  | nil => cases hmem
  | cons b hooks ih =>
    rw [ids, List.map_cons, List.nodup_cons] at hnd
    rcases List.mem_cons.mp hmem with rfl | hmem
    · rw [List.filter_cons_of_neg (by simp), List.map_cons, List.filter_eq_self.mpr]
      intro a ha
      have hne : a.id ≠ h.id := fun heq => hnd.1 (heq ▸ List.mem_map_of_mem ha)
      simpa using hne
    · have hne : b.id ≠ h.id := fun heq => hnd.1 (heq ▸ List.mem_map_of_mem hmem)
      rw [List.filter_cons_of_pos (by simpa using hne), List.map_cons, List.map_cons]
      exact (List.Perm.swap _ _ _).trans ((ih hnd.2 hmem).cons _)

/-- The loop stops at the first hook without a mark. -/
theorem walk_eq_some {needclean nc : Bool} (hw : walk needclean hooks = (some h, nc)) :
    h.deferred = false ∧ h.new = false ∧
      ∃ before after, hooks = before ++ h :: after := by
  induction hooks generalizing needclean with
  | nil => cases hw
  | cons b hooks ih =>
    rw [walk] at hw
    split at hw
    case isTrue =>
      obtain ⟨hd, hn, before, after, rfl⟩ := ih hw
      exact ⟨hd, hn, b :: before, after, rfl⟩
    case isFalse hb =>
      obtain ⟨rfl, -⟩ : b = h ∧ needclean = nc := by simpa using hw
      rw [Bool.or_eq_true, not_or, Bool.not_eq_true, Bool.not_eq_true] at hb
      exact ⟨hb.1, hb.2, [], hooks, rfl⟩

end Event

end Ithildin
