import Mathlib.Data.List.Nodup
import Mathlib.Logic.Function.Basic

/-!
# Lists that things are moved between

Some lists, and for each thing the list it is on. `Placed lists place` says that the two agree: a
thing is on the list of its place, once, and on no other. A thing is taken off the list of its place
and put at one end of another.
-/

namespace Places

variable {π κ : Type*} {lists : π → List κ} {place place' : κ → Option π} {k : κ} {p : π}
  {head : Bool}

/-- Every thing is on the list of its place and on no other. -/
def Placed (lists : π → List κ) (place : κ → Option π) : Prop :=
  ∀ p, (lists p).Nodup ∧ ∀ k, k ∈ lists p ↔ place k = some p

theorem Placed.congr (h : Placed lists place) (heq : ∀ k, place' k = place k) :
    Placed lists place' := by
  obtain rfl : place' = place := funext heq
  exact h

/-- Nothing is on two lists. -/
theorem Placed.disjoint (h : Placed lists place) {p' : π} (hp : k ∈ lists p) (hp' : k ∈ lists p') :
    p = p' :=
  Option.some.inj ((((h p).2 k).1 hp).symm.trans (((h p').2 k).1 hp'))

/-! ### Putting a thing on a list -/

section Put

variable [DecidableEq π]

/-- Put a thing at the head or at the end of a list. -/
def put (head : Bool) (k : κ) (p : π) (lists : π → List κ) : π → List κ :=
  Function.update lists p (if head then k :: lists p else lists p ++ [k])

theorem put_self : put head k p lists p = if head then k :: lists p else lists p ++ [k] :=
  Function.update_self p _ lists

theorem put_of_ne {p' : π} (h : p' ≠ p) : put head k p lists p' = lists p' :=
  Function.update_of_ne h _ lists

theorem mem_put_self {k' : κ} : k' ∈ put head k p lists p ↔ k' = k ∨ k' ∈ lists p := by
  rw [put_self]
  cases head with
  | true => exact List.mem_cons
  | false => rw [if_neg Bool.false_ne_true, List.mem_append, List.mem_singleton, or_comm]

theorem length_put_self : (put head k p lists p).length = (lists p).length + 1 := by
  rw [put_self]
  cases head with
  | true => exact List.length_cons
  | false => simp

/-- A thing that was on no list is on this one. -/
theorem Placed.put [DecidableEq κ] (h : Placed lists place) (hk : place k = none) (head : Bool)
    (p : π) : Placed (put head k p lists) (Function.update place k (some p)) := by
  have hnot : ∀ p', k ∉ lists p' := fun p' hin => by simp [((h p').2 k).1 hin] at hk
  intro p'
  by_cases hp : p' = p
  · subst hp
    constructor
    · rw [put_self]
      cases head with
      | true => exact List.nodup_cons.2 ⟨hnot p', (h p').1⟩
      | false =>
        refine List.nodup_append.2 ⟨(h p').1, List.nodup_singleton k, ?_⟩
        rintro a ha b hb rfl
        exact hnot p' (List.mem_singleton.1 hb ▸ ha)
    · intro k'
      rw [mem_put_self, (h p').2]
      by_cases hk' : k' = k
      · simp [hk']
      · simp [hk']
  · rw [put_of_ne hp]
    refine ⟨(h p').1, fun k' => ?_⟩
    rw [(h p').2]
    by_cases hk' : k' = k
    · rw [hk', Function.update_self, hk]
      exact iff_of_false (by simp) fun heq => hp (Option.some.inj heq).symm
    · rw [Function.update_of_ne hk']

end Put

/-! ### Taking a thing off its list -/

variable [DecidableEq π] [DecidableEq κ]

/-- Take a thing off the list of its place. -/
def take (k : κ) (place : Option π) (lists : π → List κ) : π → List κ :=
  match place with
  | none => lists
  | some p => Function.update lists p ((lists p).erase k)

theorem take_self : take k (some p) lists p = (lists p).erase k :=
  Function.update_self p _ lists

theorem take_of_ne {o : Option π} (h : o ≠ some p) : take k o lists p = lists p := by
  cases o with
  | none => rfl
  | some p' => exact Function.update_of_ne (fun heq => h (congrArg some heq.symm)) _ lists

/-- The thing is on no list then. -/
theorem Placed.take (h : Placed lists place) (k : κ) :
    Placed (take k (place k) lists) (Function.update place k none) := by
  intro p
  by_cases hp : place k = some p
  · rw [hp, take_self]
    refine ⟨(h p).1.erase k, fun k' => ?_⟩
    rw [(h p).1.mem_erase_iff, (h p).2]
    by_cases hk : k' = k
    · simp [hk]
    · simp [hk]
  · rw [take_of_ne hp]
    refine ⟨(h p).1, fun k' => ?_⟩
    rw [(h p).2]
    by_cases hk : k' = k
    · rw [hk, Function.update_self]
      exact iff_of_false hp (by simp)
    · rw [Function.update_of_ne hk]

theorem Placed.length_take_self (h : Placed lists place) (hk : place k = some p) :
    (Places.take k (some p) lists p).length + 1 = (lists p).length := by
  have hmem : k ∈ lists p := ((h p).2 k).2 hk
  rw [take_self, List.length_erase_of_mem hmem]
  have hpos := List.length_pos_of_mem hmem
  omega

end Places
