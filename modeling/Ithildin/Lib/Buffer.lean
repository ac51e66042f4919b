import Mathlib.Data.List.TakeWhile

/-!
# Stores into a buffer

What was stored from the start of a buffer on is a list. A store behind its end makes it longer, so
that a buffer of `n` elements was not overrun as long as the list has `n`.

* `Buffer.storeAt`: a store of several elements;
* `Buffer.Writer`: a buffer with a pointer that elements are stored at;
* `Buffer.Writer.Holds`: what was stored before the pointer;
* `Buffer.Checked`: a buffer of which is known whether each store was inside.
-/

namespace Buffer

variable {α : Type*}

/-- A store of `s` at `pos`, which is not behind what was stored. -/
def storeAt (pos : ℕ) (s mem : List α) : List α := mem.take pos ++ s ++ mem.drop (pos + s.length)

theorem storeAt_append (text s rest : List α) :
    storeAt text.length s (text ++ rest) = text ++ s ++ rest.drop s.length := by
  unfold storeAt
  rw [List.take_left' rfl, List.drop_append]
  simp

theorem length_le_storeAt (pos : ℕ) (s mem : List α) :
    mem.length ≤ (storeAt pos s mem).length := by
  simp only [storeAt, List.length_append, List.length_take, List.length_drop]
  omega

theorem length_storeAt {pos : ℕ} {s mem : List α} (h : pos + s.length ≤ mem.length) :
    (storeAt pos s mem).length = mem.length := by
  simp only [storeAt, List.length_append, List.length_take, List.length_drop]
  omega

/-- A store makes a buffer longer exactly by what lies behind its end. -/
theorem length_storeAt_eq_max {pos : ℕ} {mem : List α} (h : pos ≤ mem.length) (s : List α) :
    (storeAt pos s mem).length = max mem.length (pos + s.length) := by
  simp only [storeAt, List.length_append, List.length_take, List.length_drop]
  omega

theorem storeAt_zero (s mem : List α) : storeAt 0 s mem = s ++ mem.drop s.length := by
  simp [storeAt]

/-- A buffer and the place of the next store. -/
structure Writer (α : Type*) where
  buf : List α
  s : ℕ

namespace Writer

/-- `*s++ = c`. -/
def put (c : α) (k : Writer α) : Writer α := ⟨storeAt k.s [c] k.buf, k.s + 1⟩

/-- `s = s - 1` if the last element is `c`. -/
def unput [DecidableEq α] (c : α) (k : Writer α) : Writer α :=
  if k.buf[k.s - 1]? = some c then { k with s := k.s - 1 } else k

/-- A buffer of `size` elements that was not overrun has `text` before the pointer. -/
structure Holds (size : ℕ) (k : Writer α) (text : List α) : Prop where
  here : k.s = text.length
  bytes : ∃ rest, k.buf = text ++ rest
  inside : k.buf.length = size

variable {size : ℕ} {k : Writer α} {text : List α} {c : α}

theorem Holds.start {mem : List α} (h : mem.length = size) : Holds size ⟨mem, 0⟩ [] :=
  ⟨rfl, ⟨mem, rfl⟩, h⟩

theorem Holds.put (h : k.Holds size text) (c : α) (hroom : text.length < size) :
    (k.put c).Holds size (text ++ [c]) := by
  obtain ⟨hs, ⟨rest, hbuf⟩, hinside⟩ := h
  rw [hbuf, List.length_append] at hinside
  have hput : (k.put c).buf = text ++ [c] ++ rest.drop 1 := by
    rw [Writer.put, hs, hbuf, storeAt_append]
    rfl
  refine ⟨by simp [Writer.put, hs], ⟨rest.drop 1, hput⟩, ?_⟩
  rw [hput]
  simp only [List.length_append, List.length_drop, List.length_singleton]
  omega

/-- Several elements are stored, with others behind them that are not counted. -/
theorem Holds.store (h : k.Holds size text) (s extra : List α)
    (hroom : text.length + (s ++ extra).length ≤ size) :
    (Writer.mk (storeAt k.s (s ++ extra) k.buf) (k.s + s.length)).Holds size (text ++ s) := by
  obtain ⟨hs, ⟨rest, hbuf⟩, hinside⟩ := h
  have hplace : k.s + (s ++ extra).length ≤ k.buf.length := by omega
  refine ⟨by simp [hs], ⟨extra ++ rest.drop (s ++ extra).length, ?_⟩, ?_⟩
  · change storeAt k.s (s ++ extra) k.buf = _
    rw [hs, hbuf, storeAt_append]
    simp only [List.append_assoc]
  · exact (length_storeAt hplace).trans hinside

/-- A loop that stores something for each element it takes. -/
theorem Holds.foldl_put {β : Type*} (p : β → Bool) (f : β → α) (l : List β)
    (h : k.Holds size text) (hroom : text.length + (l.filter p).length ≤ size) :
    (l.foldl (fun k x => if p x then k.put (f x) else k) k).Holds size
      (text ++ (l.filter p).map f) := by
  induction l generalizing k text with
  | nil => simpa using h
  | cons x l ih =>
    rw [List.foldl_cons]
    by_cases hx : p x
    · rw [List.filter_cons_of_pos hx] at hroom ⊢
      rw [List.length_cons] at hroom
      rw [if_pos hx]
      have hput := h.put (f x) (by omega)
      have hrest := ih hput (by simp only [List.length_append, List.length_singleton]; omega)
      simpa using hrest
    · rw [List.filter_cons_of_neg hx] at hroom ⊢
      rw [if_neg hx]
      exact ih h hroom

/-- The last element is taken back exactly if it is the one. -/
theorem Holds.unput [DecidableEq α] (h : k.Holds size (text ++ [c])) (d : α) :
    (k.unput d).Holds size (if c = d then text else text ++ [c]) := by
  obtain ⟨hs, ⟨rest, hbuf⟩, hinside⟩ := h
  have hlast : k.buf[k.s - 1]? = some c := by
    rw [hbuf, hs]
    simp
  unfold Writer.unput
  rw [hlast]
  by_cases hc : c = d
  · rw [if_pos (congrArg some hc), if_pos hc]
    exact ⟨by simp [hs], ⟨c :: rest, by simp [hbuf]⟩, hinside⟩
  · rw [if_neg (fun heq => hc (Option.some.inj heq)), if_neg hc]
    exact ⟨hs, ⟨rest, hbuf⟩, hinside⟩

end Writer

/-! ### Stores that may be outside -/

/-- The elements of a buffer, and whether each store so far was inside. -/
structure Checked (α : Type*) where
  mem : List α
  inside : Bool

namespace Checked

/-- `buf[i] = c`. -/
def store (i : ℤ) (c : α) (b : Checked α) : Checked α :=
  if 0 ≤ i ∧ i < b.mem.length then ⟨b.mem.set i.toNat c, b.inside⟩ else ⟨b.mem, false⟩

/-- Several stores, one behind the other. -/
def storeAll : ℤ → List α → Checked α → Checked α
  | _, [], b => b
  | i, c :: s, b => storeAll (i + 1) s (b.store i c)

variable {inside : Bool} {b : Checked α} {i : ℤ} {c : α}

theorem store_append (l : List α) (d : α) (r : List α) :
    store l.length c ⟨l ++ d :: r, inside⟩ = ⟨l ++ c :: r, inside⟩ := by
  have hin : (0 : ℤ) ≤ l.length ∧ (l.length : ℤ) < (l ++ d :: r).length := by
    rw [List.length_append, List.length_cons]
    omega
  rw [store, if_pos hin, Int.toNat_natCast, List.set_append_right _ _ le_rfl, Nat.sub_self]
  rfl

@[simp] theorem length_store (i : ℤ) (c : α) (b : Checked α) :
    (b.store i c).mem.length = b.mem.length := by
  rw [store]
  split
  · exact List.length_set
  · rfl

@[simp] theorem length_storeAll (i : ℤ) (s : List α) (b : Checked α) :
    (storeAll i s b).mem.length = b.mem.length := by
  induction s generalizing i b with
  | nil => rfl
  | cons c s ih => rw [storeAll, ih, length_store]

theorem store_outside (h : i < 0 ∨ (b.mem.length : ℤ) ≤ i) : b.store i c = ⟨b.mem, false⟩ :=
  if_neg (by omega)

theorem inside_store_of_false (h : b.inside = false) : (b.store i c).inside = false := by
  rw [store]
  split
  · exact h
  · rfl

theorem storeAll_append {l s old : List α} (h : s.length ≤ old.length) :
    storeAll l.length s ⟨l ++ old, inside⟩ = ⟨l ++ s ++ old.drop s.length, inside⟩ := by
  induction s generalizing l old with
  | nil => simp [storeAll]
  | cons c s ih =>
    cases old with
    | nil => simp at h
    | cons d old =>
      have hnext := @ih (l ++ [c]) old (by simpa using h)
      rw [List.length_append, List.length_singleton, Int.natCast_add, Int.natCast_one,
        List.append_assoc, List.singleton_append] at hnext
      rw [storeAll, store_append, hnext]
      simp

end Checked

end Buffer
