import Mathlib.Data.List.Nodup
import Mathlib.Logic.Function.Basic
import Mathlib.Tactic.Common

/-!
# Lists whose elements point back

The lists of `queue.h`: a head points at the first element, every element at the next one, and every
element has the address of the pointer that points at it.

* `insertHead`, `remove`: `LIST_INSERT_HEAD` and `LIST_REMOVE`;
* `Holds a l`: the list with the head `a` has the elements `l`, and they point back where they
  should;
* `Holds.get_inj`: pointers back leave an element in one place only;
* `Holds.insertHead`, `Holds.remove`: what the operations make of a list, and of the others.
-/

/-- Where a pointer to an element is kept: in the head of a list, or in an element. -/
inductive Place (η ι : Type*)
  | head (a : η)
  | link (i : ι)
  deriving DecidableEq

/-- Heads, and the links of elements. -/
structure Backlist (η ι : Type*) where
  first : η → Option ι
  next : ι → Option ι
  prev : ι → Place η ι

namespace Backlist

variable {η ι : Type*}

/-- The pointer that is kept in a place. -/
def get (L : Backlist η ι) : Place η ι → Option ι
  | .head a => L.first a
  | .link i => L.next i

/-- The elements from a place on, each with the address of the pointer to it. -/
def Chain (L : Backlist η ι) : Place η ι → List ι → Prop
  | p, [] => L.get p = none
  | p, i :: l => L.get p = some i ∧ L.prev i = p ∧ Chain L (.link i) l

/-- The elements of a list. -/
def Holds (L : Backlist η ι) (a : η) (l : List ι) : Prop := L.Chain (.head a) l

section
variable {L L' : Backlist η ι} {a b : η} {i : ι} {l l' : List ι} {p : Place η ι}

/-- Only the elements and the place count. -/
theorem Chain.congr (h : L.Chain p l) (hget : L'.get p = L.get p)
    (hmem : ∀ i ∈ l, L'.next i = L.next i ∧ L'.prev i = L.prev i) : L'.Chain p l := by
  induction l generalizing p with
  | nil => exact hget.trans h
  | cons i l ih =>
    obtain ⟨hp, hprev, hrest⟩ := h
    obtain ⟨hnext, hprev'⟩ := hmem i List.mem_cons_self
    exact ⟨hget.trans hp, hprev'.trans hprev,
      ih hrest hnext fun j hj => hmem j (List.mem_cons_of_mem i hj)⟩

/-- The pointer to an element is in the place before the list, or in one of its elements. -/
theorem Chain.prev_cases (h : L.Chain p l) (hi : i ∈ l) :
    L.prev i = p ∨ ∃ j ∈ l, L.prev i = .link j := by
  induction l generalizing p with
  | nil => cases hi
  | cons j l ih =>
    obtain ⟨-, hprev, hrest⟩ := h
    rcases List.mem_cons.mp hi with rfl | hi
    · exact .inl hprev
    · rcases ih hrest hi with hlink | ⟨k, hk, hlink⟩
      · exact .inr ⟨j, List.mem_cons_self, hlink⟩
      · exact .inr ⟨k, List.mem_cons_of_mem j hk, hlink⟩

/-- What follows an element is an element. -/
theorem Chain.next_mem {j : ι} (h : L.Chain p l) (hi : i ∈ l) (hj : L.next i = some j) : j ∈ l := by
  induction l generalizing p with
  | nil => cases hi
  | cons k l ih =>
    obtain ⟨-, -, hrest⟩ := h
    rcases List.mem_cons.mp hi with rfl | hi
    · cases l with
      | nil =>
        have hnone : L.next i = none := hrest
        rw [hnone] at hj
        cases hj
      | cons k' l =>
        have hnext : L.next i = some k' := hrest.1
        rw [hnext] at hj
        obtain rfl := Option.some.inj hj
        simp
    · exact List.mem_cons_of_mem k (ih hrest hi)

/-- The address that an element has, by its position. -/
theorem Chain.prev_getElem? (h : L.Chain p l) (k : ℕ) (hi : l[k + 1]? = some i) :
    ∃ j, l[k]? = some j ∧ L.prev i = .link j := by
  induction k generalizing p l with
  | zero =>
    rcases l with _ | ⟨j, _ | ⟨i', l⟩⟩
    · simp at hi
    · simp at hi
    · obtain rfl : i' = i := by simpa using hi
      exact ⟨j, rfl, h.2.2.2.1⟩
  | succ k ih =>
    cases l with
    | nil => simp at hi
    | cons j l => exact ih h.2.2 (by simpa using hi)

theorem Chain.prev_head (h : L.Chain p l) (hi : l[0]? = some i) : L.prev i = p := by
  cases l with
  | nil => simp at hi
  | cons j l =>
    obtain rfl : j = i := by simpa using hi
    exact h.2.1

/-- An element is in one list only, and there in one position. -/
theorem Holds.get_inj (h : L.Holds a l) (h' : L.Holds b l') (k k' : ℕ) (hi : l[k]? = some i)
    (hi' : l'[k']? = some i) : a = b ∧ k = k' := by
  -- walk back from the element in both lists
  induction k generalizing k' i with
  | zero =>
    have hprev := h.prev_head hi
    cases k' with
    | zero =>
      rw [h'.prev_head hi'] at hprev
      cases hprev
      exact ⟨rfl, rfl⟩
    | succ k' =>
      obtain ⟨j, -, hlink⟩ := h'.prev_getElem? k' hi'
      rw [hlink] at hprev
      cases hprev
  | succ k ih =>
    obtain ⟨j, hj, hlink⟩ := h.prev_getElem? k hi
    cases k' with
    | zero =>
      rw [h'.prev_head hi'] at hlink
      cases hlink
    | succ k' =>
      obtain ⟨j', hj', hlink'⟩ := h'.prev_getElem? k' hi'
      rw [hlink] at hlink'
      obtain rfl : j = j' := by simpa using hlink'
      obtain ⟨hab, hk⟩ := ih k' hj hj'
      exact ⟨hab, by omega⟩

theorem Holds.eq_of_mem (h : L.Holds a l) (h' : L.Holds b l') (hi : i ∈ l) (hi' : i ∈ l') :
    a = b := by
  obtain ⟨k, hk⟩ := List.getElem?_of_mem hi
  obtain ⟨k', hk'⟩ := List.getElem?_of_mem hi'
  exact (h.get_inj h' k k' hk hk').1

theorem Holds.nodup (h : L.Holds a l) : l.Nodup := by
  rw [List.nodup_iff_getElem?_ne_getElem?]
  intro k k' hlt hlen heq
  have hi : l[k']? = some l[k'] := List.getElem?_eq_getElem hlen
  have hkk : k = k' := (h.get_inj h k k' (heq.trans hi) hi).2
  omega

/-- A list has one sequence of elements. -/
theorem Chain.unique (h : L.Chain p l) (h' : L.Chain p l') : l = l' := by
  induction l generalizing p l' with
  | nil =>
    cases l' with
    | nil => rfl
    | cons j l' =>
      have hsome : L.get p = some j := h'.1
      have hnone : L.get p = none := h
      rw [hnone] at hsome
      cases hsome
  | cons i l ih =>
    cases l' with
    | nil =>
      have hsome : L.get p = some i := h.1
      have hnone : L.get p = none := h'
      rw [hnone] at hsome
      cases hsome
    | cons j l' =>
      obtain rfl := Option.some.inj (h.1.symm.trans h'.1)
      rw [ih h.2.2 h'.2.2]

end

section
variable [DecidableEq η] [DecidableEq ι]

/-- A pointer is written to a place. -/
def put (L : Backlist η ι) : Place η ι → Option ι → Backlist η ι
  | .head a, o => { L with first := Function.update L.first a o }
  | .link i, o => { L with next := Function.update L.next i o }

/-- An element, if there is one, is given the address of the pointer to it. -/
def setPrev (L : Backlist η ι) (o : Option ι) (p : Place η ι) : Backlist η ι :=
  match o with
  | none => L
  | some i => { L with prev := Function.update L.prev i p }

/-- `LIST_INSERT_HEAD`. -/
def insertHead (L : Backlist η ι) (a : η) (i : ι) : Backlist η ι :=
  (((L.put (.link i) (L.first a)).setPrev (L.first a) (.link i)).put (.head a) (some i)).setPrev
    (some i) (.head a)

/-- `LIST_REMOVE`. -/
def remove (L : Backlist η ι) (i : ι) : Backlist η ι :=
  (L.setPrev (L.next i) (L.prev i)).put (L.prev i) (L.next i)

variable {L : Backlist η ι} {a b : η} {i j : ι} {l l' : List ι} {p q : Place η ι} {o : Option ι}

omit [DecidableEq η] in
@[simp] theorem get_setPrev : (L.setPrev o p).get q = L.get q := by
  cases o <;> cases q <;> rfl

omit [DecidableEq η] in
@[simp] theorem prev_setPrev_self : (L.setPrev (some i) p).prev i = p := by
  simp [setPrev]

omit [DecidableEq η] in
theorem prev_setPrev_of_ne (h : o ≠ some i) : (L.setPrev o p).prev i = L.prev i := by
  cases o with
  | none => rfl
  | some j => exact Function.update_of_ne (fun heq => h (congrArg some heq.symm)) ..

@[simp] theorem get_put_self : (L.put p o).get p = o := by
  cases p <;> simp [put, get]

theorem get_put_of_ne (h : q ≠ p) : (L.put p o).get q = L.get q := by
  cases p <;> cases q <;> simp_all [put, get]

@[simp] theorem prev_put : (L.put p o).prev = L.prev := by
  cases p <;> rfl

/-! ### Inserting -/

theorem get_insertHead_of_ne (hhead : q ≠ .head a) (hlink : q ≠ .link i) :
    (L.insertHead a i).get q = L.get q := by
  unfold insertHead
  rw [get_setPrev, get_put_of_ne hhead, get_setPrev, get_put_of_ne hlink]

theorem prev_insertHead_of_ne (hij : j ≠ i) (hfirst : L.first a ≠ some j) :
    (L.insertHead a i).prev j = L.prev j := by
  unfold insertHead
  rw [prev_setPrev_of_ne (by simpa using hij.symm), prev_put, prev_setPrev_of_ne hfirst, prev_put]

/-- The new element comes first. -/
theorem Holds.insertHead (h : L.Holds a l) (hi : i ∉ l) : (L.insertHead a i).Holds a (i :: l) := by
  have hnext : (L.insertHead a i).get (.link i) = L.first a := by
    unfold Backlist.insertHead
    rw [get_setPrev, get_put_of_ne (by simp), get_setPrev, get_put_self]
  refine ⟨?_, ?_, ?_⟩
  · unfold Backlist.insertHead
    rw [get_setPrev, get_put_self]
  · unfold Backlist.insertHead
    rw [prev_setPrev_self]
  · cases l with
    | nil => exact hnext.trans h
    | cons j l =>
      obtain ⟨hfirst, hprev, hrest⟩ := h
      have hji : j ≠ i := fun heq => hi (heq ▸ List.mem_cons_self)
      have hnodup := Holds.nodup (L := L) (a := a) (l := j :: l) ⟨hfirst, hprev, hrest⟩
      refine ⟨hnext.trans hfirst, ?_, ?_⟩
      · -- the old first element points back at the new one
        have hfirst' : L.first a = some j := hfirst
        unfold Backlist.insertHead
        rw [prev_setPrev_of_ne (by simpa using hji.symm), prev_put, hfirst', prev_setPrev_self]
      · refine hrest.congr (get_insertHead_of_ne (by simp) (by simpa using hji)) fun k hk => ?_
        have hki : k ≠ i := fun heq => hi (heq ▸ List.mem_cons_of_mem j hk)
        have hkj : L.first a ≠ some k := by
          have hfirst' : L.first a = some j := hfirst
          rw [hfirst']
          rintro ⟨⟩
          exact (List.nodup_cons.mp hnodup).1 hk
        exact ⟨get_insertHead_of_ne (q := .link k) (by simp) (by simpa using hki),
          prev_insertHead_of_ne hki hkj⟩

/-- The other lists stay as they are. -/
theorem Holds.insertHead_of_ne (h : L.Holds b l') (ha : L.Holds a l) (hab : b ≠ a) (hi : i ∉ l') :
    (L.insertHead a i).Holds b l' := by
  refine h.congr (get_insertHead_of_ne (by simpa using hab) (by simp)) fun j hj => ?_
  have hji : j ≠ i := fun heq => hi (heq ▸ hj)
  refine ⟨get_insertHead_of_ne (q := .link j) (by simp) (by simpa using hji),
    prev_insertHead_of_ne hji fun hfirst => ?_⟩
  cases l with
  | nil =>
    have hnone : L.first a = none := ha
    rw [hnone] at hfirst
    cases hfirst
  | cons k l =>
    obtain rfl := Option.some.inj (ha.1.symm.trans hfirst)
    exact hab (h.eq_of_mem ha hj List.mem_cons_self)

/-! ### Removing -/

theorem get_remove_of_ne (h : q ≠ L.prev i) : (L.remove i).get q = L.get q := by
  unfold remove
  rw [get_put_of_ne h, get_setPrev]

theorem prev_remove_of_ne (h : L.next i ≠ some j) : (L.remove i).prev j = L.prev j := by
  unfold remove
  rw [prev_put, prev_setPrev_of_ne h]

/-- An element is taken out of what follows a place. -/
theorem Chain.remove (h : L.Chain p l) (hnodup : l.Nodup) (hp : ∀ j ∈ l, p ≠ .link j)
    (hi : i ∈ l) : (L.remove i).Chain p (l.erase i) := by
  induction l generalizing p with
  | nil => cases hi
  | cons j l ih =>
    obtain ⟨hget, hprev, hrest⟩ := h
    obtain ⟨hj, hnodup⟩ := List.nodup_cons.mp hnodup
    by_cases hij : j = i
    · subst hij
      rw [List.erase_cons_head]
      have hself : (L.remove j).get p = L.next j := by
        unfold Backlist.remove
        rw [hprev, get_put_self]
      cases l with
      | nil => exact hself.trans hrest
      | cons k l =>
        have hnext : L.next j = some k := hrest.1
        refine ⟨hself.trans hnext, ?_, ?_⟩
        · unfold Backlist.remove
          rw [prev_put, hnext, prev_setPrev_self, hprev]
        · have hk : Place.link k ≠ L.prev j := by
            rw [hprev]
            exact (hp k (by simp)).symm
          refine hrest.2.2.congr (get_remove_of_ne hk) fun x hx => ?_
          have hxk : L.next j ≠ some x := by
            rw [hnext]
            rintro ⟨⟩
            exact (List.nodup_cons.mp hnodup).1 hx
          have hlink : Place.link x ≠ L.prev j := by
            rw [hprev]
            exact (hp x (by simp [hx])).symm
          exact ⟨get_remove_of_ne (q := .link x) hlink, prev_remove_of_ne hxk⟩
    · have hi : i ∈ l := by
        rcases List.mem_cons.mp hi with heq | hi
        · exact absurd heq.symm hij
        · exact hi
      rw [List.erase_cons_tail (by simpa using hij)]
      refine ⟨?_, ?_, ?_⟩
      · -- the pointer to the element is behind the place
        refine (get_remove_of_ne fun heq => ?_).trans hget
        rcases hrest.prev_cases hi with hlink | ⟨k, hk, hlink⟩
        · exact hp j List.mem_cons_self (heq.trans hlink)
        · exact hp k (List.mem_cons_of_mem j hk) (heq.trans hlink)
      · exact (prev_remove_of_ne fun hnext => hj (hrest.next_mem hi hnext)).trans hprev
      · refine ih hrest hnodup (fun k hk heq => ?_) hi
        obtain rfl : j = k := by simpa using heq
        exact hj hk

theorem Holds.remove (h : L.Holds a l) (hi : i ∈ l) : (L.remove i).Holds a (l.erase i) :=
  Chain.remove h h.nodup (fun _ _ heq => by cases heq) hi

theorem Holds.remove_of_ne (h : L.Holds b l') (ha : L.Holds a l) (hab : b ≠ a) (hi : i ∈ l) :
    (L.remove i).Holds b l' := by
  have hdisjoint : ∀ j ∈ l', j ∉ l := fun j hj hj' => hab (h.eq_of_mem ha hj hj')
  have hplace : ∀ j ∈ l', Place.link j ≠ L.prev i := by
    intro j hj heq
    rcases Chain.prev_cases ha hi with hlink | ⟨k, hk, hlink⟩
    · rw [hlink] at heq
      cases heq
    · rw [hlink] at heq
      obtain rfl : j = k := by simpa using heq
      exact hdisjoint j hj hk
  refine Chain.congr h (get_remove_of_ne fun heq => ?_) fun j hj => ?_
  · rcases Chain.prev_cases ha hi with hlink | ⟨k, -, hlink⟩
    · rw [hlink] at heq
      exact hab (by simpa using heq)
    · rw [hlink] at heq
      cases heq
  · exact ⟨get_remove_of_ne (q := .link j) (hplace j hj),
      prev_remove_of_ne fun hnext => hdisjoint j hj (Chain.next_mem ha hi hnext)⟩

end

end Backlist
