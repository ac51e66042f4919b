import Mathlib.Data.List.Nodup
import Mathlib.Logic.Function.Basic

/-!
# Singly linked tail queues

The queues of `queue.h`: a pointer to the first element, the address of the pointer that ends the
queue, and a link in every element. Elements are known by their addresses.

* `zeroed`: a head that was cleared and never initialised, so that `last` is NULL;
* `insertHead`, `insertTail`, `removeHead`;
* `Holds q l`: the queue has just the elements `l`. It says nothing of `last` where there are none,
  so that a zeroed head holds the empty queue.
-/

variable {ι : Type*}

/-- The head of a queue with the links of its elements. `last` is `none` for NULL, `some none` for
the address of `first`, and `some (some i)` for that of the link of `i`. -/
structure Stailq (ι : Type*) where
  first : Option ι
  last : Option (Option ι)
  next : ι → Option ι

namespace Stailq

/-- `calloc` has cleared the head. -/
def zeroed : Stailq ι := { first := none, last := none, next := fun _ => none }

/-- The elements from a pointer on. -/
inductive Chain (next : ι → Option ι) : Option ι → List ι → Prop
  | nil : Chain next none []
  | cons {i : ι} {l : List ι} (h : Chain next (next i) l) : Chain next (some i) (i :: l)

/-- The queue has the elements `l`, once each. -/
structure Holds (q : Stailq ι) (l : List ι) : Prop where
  chain : Chain q.next q.first l
  last : ∀ i, l.getLast? = some i → q.last = some (some i)
  nodup : l.Nodup

/-- `STAILQ_REMOVE_HEAD`, which reads the first element. -/
def removeHead (q : Stailq ι) : Option (Stailq ι) :=
  match q.first with
  | none => none
  | some i =>
    some { first := q.next i
           last := if (q.next i).isNone then some none else q.last
           next := q.next }

section
variable {q : Stailq ι} {i : ι} {l : List ι}

theorem Holds.first_eq (h : q.Holds l) : q.first = l.head? := by
  obtain ⟨hchain, -, -⟩ := h
  generalize q.first = p at hchain
  cases hchain <;> rfl

/-- The links determine the elements. -/
theorem Chain.unique {next : ι → Option ι} {p : Option ι} {l' : List ι} (h : Chain next p l)
    (h' : Chain next p l') : l = l' := by
  induction h generalizing l' with
  | nil =>
    cases h'
    rfl
  | cons _ ih =>
    cases h' with
    | cons h' => rw [ih h']

theorem Holds.unique {l' : List ι} (h : q.Holds l) (h' : q.Holds l') : l = l' :=
  h.chain.unique h'.chain

theorem holds_zeroed : (zeroed : Stailq ι).Holds [] :=
  ⟨.nil, (by intro _ hi; cases hi), List.nodup_nil⟩

theorem Holds.removeHead (h : q.Holds (i :: l)) :
    ∃ q', q.removeHead = some q' ∧ q'.Holds l := by
  have hfirst : q.first = some i := h.first_eq
  have hchain : Chain q.next (q.next i) l := by
    obtain ⟨hchain, -, -⟩ := h
    rw [hfirst] at hchain
    cases hchain with
    | cons h => exact h
  refine ⟨_, by rw [Stailq.removeHead, hfirst], hchain, fun j hj => ?_,
    (List.nodup_cons.mp h.nodup).2⟩
  show (if (q.next i).isNone then some none else q.last) = some (some j)
  cases l with
  | nil => cases hj
  | cons k l =>
    generalize q.next i = p at hchain
    cases hchain
    exact h.last j ((List.getLast?_cons_cons).trans hj)

end

variable [DecidableEq ι]

/-- `STAILQ_INSERT_HEAD`. -/
def insertHead (q : Stailq ι) (i : ι) : Stailq ι :=
  { first := some i
    last := if q.first.isNone then some (some i) else q.last
    next := Function.update q.next i q.first }

/-- `STAILQ_INSERT_TAIL`, which writes through `last`. -/
def insertTail (q : Stailq ι) (i : ι) : Option (Stailq ι) :=
  let next := Function.update q.next i none
  match q.last with
  | none => none
  | some none => some { first := some i, last := some (some i), next := next }
  | some (some j) =>
    some { first := q.first, last := some (some i), next := Function.update next j (some i) }

section
variable {q : Stailq ι} {i j : ι} {l : List ι} {next : ι → Option ι} {p : Option ι}

/-- Links of other elements do not matter. -/
theorem Chain.update (h : Chain next p l) (hi : i ∉ l) (o : Option ι) :
    Chain (Function.update next i o) p l := by
  induction h with
  | nil => exact .nil
  | @cons j l h ih =>
    rw [List.mem_cons, not_or] at hi
    refine .cons ?_
    rw [Function.update_of_ne (Ne.symm hi.1)]
    exact ih hi.2

/-- The last link is set to a new element. -/
theorem Chain.concat (h : Chain next p l) (hl : l.Nodup) (hj : l.getLast? = some j) (hi : i ∉ l)
    (hnext : next i = none) : Chain (Function.update next j (some i)) p (l ++ [i]) := by
  induction h with
  | nil => cases hj
  | @cons k l h ih =>
    rw [List.mem_cons, not_or] at hi
    obtain ⟨hk, hl⟩ := List.nodup_cons.mp hl
    cases l with
    | nil =>
      obtain rfl : k = j := Option.some.inj hj
      refine .cons ?_
      rw [Function.update_self]
      refine .cons ?_
      rw [Function.update_of_ne hi.1, hnext]
      exact .nil
    | cons k' l =>
      rw [List.getLast?_cons_cons] at hj
      refine .cons ?_
      rw [Function.update_of_ne]
      · exact ih hl hj hi.2
      · rintro rfl
        exact hk (List.mem_of_getLast? hj)

/-- The first element of an empty queue, whose head may never have been initialised. -/
theorem Holds.insertHead (h : q.Holds []) (i : ι) : (q.insertHead i).Holds [i] := by
  have hfirst : q.first = none := h.first_eq
  refine ⟨?_, fun j hj => ?_, List.nodup_singleton i⟩
  · refine .cons ?_
    show Chain _ (Function.update q.next i q.first i) []
    rw [Function.update_self, hfirst]
    exact .nil
  · obtain rfl := Option.some.inj hj
    show (if q.first.isNone then some (some i) else q.last) = some (some i)
    rw [hfirst]
    rfl

theorem Holds.insertTail (h : q.Holds l) (hl : l ≠ []) (hi : i ∉ l) :
    ∃ q', q.insertTail i = some q' ∧ q'.Holds (l ++ [i]) := by
  obtain ⟨j, hj⟩ := Option.isSome_iff_exists.mp (List.getLast?_isSome.mpr hl)
  refine ⟨_, by rw [Stailq.insertTail, h.last j hj], ?_, fun k hk => ?_, ?_⟩
  · exact (h.chain.update hi none).concat h.nodup hj hi (Function.update_self ..)
  · rw [List.getLast?_concat] at hk
    obtain rfl := Option.some.inj hk
    rfl
  · exact List.nodup_append.mpr ⟨h.nodup, List.nodup_singleton i, fun a ha b hb =>
      List.mem_singleton.mp hb ▸ ne_of_mem_of_not_mem ha hi⟩

end

end Stailq
