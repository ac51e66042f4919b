import Mathlib.Data.List.Basic
import Mathlib.Data.List.Pairwise
import Mathlib.Algebra.Order.Ring.Int

/-!
# Ranges laid side by side

`Laid start len base l stop`: the ranges `[start a, start a + len a)` of the list follow one another
from `base` to `stop`, the last one first. They cover what is between, each position once; a range
can be taken out if the ranges in front of it are moved down by its length.

`slice` and the lemmas on it do the same to a list that holds what is in the ranges.
-/

namespace Layout

variable {α β : Type*} {start : α → ℤ} {len : α → ℕ} {base stop : ℤ} {l : List α}

/-- The ranges follow one another from `base` to `stop`, the last one first. -/
def Laid (start : α → ℤ) (len : α → ℕ) (base : ℤ) : List α → ℤ → Prop
  | [], stop => stop = base
  | a :: l, stop => start a + len a = stop ∧ Laid start len base l (start a)

theorem laid_append {l₁ l₂ : List α} :
    Laid start len base (l₁ ++ l₂) stop ↔
      ∃ mid, Laid start len mid l₁ stop ∧ Laid start len base l₂ mid := by
  induction l₁ generalizing stop with
  | nil => exact ⟨fun h => ⟨stop, rfl, h⟩, fun ⟨mid, hmid, h⟩ => by rwa [hmid]⟩
  | cons a l₁ ih =>
    rw [List.cons_append, Laid, ih]
    constructor
    · rintro ⟨hstop, mid, h₁, h₂⟩
      exact ⟨mid, ⟨hstop, h₁⟩, h₂⟩
    · rintro ⟨mid, ⟨hstop, h₁⟩, h₂⟩
      exact ⟨hstop, mid, h₁, h₂⟩

theorem Laid.le (h : Laid start len base l stop) : base ≤ stop := by
  induction l generalizing stop with
  | nil => exact h.ge
  | cons a l ih =>
    obtain ⟨hstop, h⟩ := h
    have hle := ih h
    omega

theorem Laid.bounds (h : Laid start len base l stop) {a : α} (ha : a ∈ l) :
    base ≤ start a ∧ start a + len a ≤ stop := by
  induction l generalizing stop with
  | nil => cases ha
  | cons b l ih =>
    obtain ⟨hstop, h⟩ := h
    rcases List.mem_cons.mp ha with rfl | ha
    · exact ⟨h.le, hstop.le⟩
    · obtain ⟨hbase, hle⟩ := ih h ha
      exact ⟨hbase, by omega⟩

/-- Every position between the ends is in a range. -/
theorem Laid.exists_mem (h : Laid start len base l stop) {n : ℤ} (hn : base ≤ n) (hn' : n < stop) :
    ∃ a ∈ l, start a ≤ n ∧ n < start a + len a := by
  induction l generalizing stop with
  | nil =>
    rw [Laid] at h
    omega
  | cons a l ih =>
    obtain ⟨hstop, h⟩ := h
    by_cases ha : n < start a
    · obtain ⟨b, hb, hcov⟩ := ih h ha
      exact ⟨b, List.mem_cons_of_mem a hb, hcov⟩
    · exact ⟨a, List.mem_cons_self, by omega, by omega⟩

/-- No position is in two of the ranges. -/
theorem Laid.pairwise (h : Laid start len base l stop) :
    l.Pairwise fun a b => start b + len b ≤ start a := by
  induction l generalizing stop with
  | nil => exact List.Pairwise.nil
  | cons a l ih => exact List.Pairwise.cons (fun b hb => (h.2.bounds hb).2) (ih h.2)

/-- Ranges that are all moved down by `k`. -/
theorem Laid.shift (h : Laid start len base l stop) {f : α → α} {k : ℤ}
    (hstart : ∀ a ∈ l, start (f a) = start a - k) (hlen : ∀ a ∈ l, len (f a) = len a) :
    Laid start len (base - k) (l.map f) (stop - k) := by
  induction l generalizing stop with
  | nil =>
    rw [Laid] at h
    exact congrArg (· - k) h
  | cons a l ih =>
    obtain ⟨hstop, h⟩ := h
    have hrest := ih h (fun b hb => hstart b (List.mem_cons_of_mem a hb))
      fun b hb => hlen b (List.mem_cons_of_mem a hb)
    have ha := hstart a List.mem_cons_self
    have hl := hlen a List.mem_cons_self
    exact ⟨by omega, ha ▸ hrest⟩

/-! ### What the ranges hold -/

/-- The `n` elements from position `o` on. -/
def slice (o n : ℕ) (d : List β) : List β :=
  (d.drop o).take n

variable {d e : List β} {o n p k : ℕ}

/-- A range of a range. -/
theorem slice_slice (h : o + n ≤ k) : slice o n (slice p k d) = slice (p + o) n d := by
  rw [slice, slice, slice, List.drop_take, List.take_take, List.drop_drop, min_eq_left (by omega)]

theorem slice_append_left (h : o + n ≤ d.length) : slice o n (d ++ e) = slice o n d := by
  rw [slice, slice, List.drop_append_of_le_length (by omega), List.take_append_of_le_length]
  rw [List.length_drop]
  omega

theorem slice_append_right : slice (d.length + o) n (d ++ e) = slice o n e := by
  rw [slice, slice, List.drop_append, List.drop_eq_nil_of_le (Nat.le_add_right _ _),
    List.nil_append, Nat.add_sub_cancel_left]

/-- A change inside the range is one of the slice. -/
theorem slice_set_of_mem {i : ℕ} {b : β} (hi : o ≤ i) :
    slice o n (d.set i b) = (slice o n d).set (i - o) b := by
  rw [slice, slice, List.drop_set, if_neg (by omega), List.take_set]

/-- A change outside the range leaves the slice. -/
theorem slice_set_of_notMem {i : ℕ} {b : β} (hi : i < o ∨ o + n ≤ i) :
    slice o n (d.set i b) = slice o n d := by
  rw [slice, slice, List.drop_set]
  split
  · rfl
  · rw [List.take_set, List.set_eq_of_length_le]
    rw [List.length_take]
    omega

theorem slice_replicate {b : β} {m : ℕ} (h : o + n ≤ m) :
    slice o n (List.replicate m b) = List.replicate n b := by
  rw [slice, List.drop_replicate, List.take_replicate]
  congr 1
  omega

/-- A range in front of what is taken out stays. -/
theorem slice_take_append (h : o + n ≤ p) (hp : p ≤ d.length) :
    slice o n (d.take p ++ e) = slice o n d := by
  have hlen : (d.take p).length = p := List.length_take_of_le hp
  rw [slice_append_left (by omega)]
  conv_rhs => rw [← List.take_append_drop p d]
  rw [slice_append_left (by omega)]

/-- A range behind what is taken out moves down. -/
theorem slice_take_append_drop (h : p + k ≤ o) (hp : p ≤ d.length) :
    slice (o - k) n (d.take p ++ d.drop (p + k)) = slice o n d := by
  have hlen : (d.take p).length = p := List.length_take_of_le hp
  rw [show o - k = (d.take p).length + (o - k - p) by omega, slice_append_right, slice, slice,
    List.drop_drop]
  congr 2
  omega

end Layout
