import Mathlib.Data.List.Basic
import Mathlib.Data.List.Nodup

/-!
# A tree kept as a list

Elements refer to their parents and are kept on a list, to whose head each new one goes. The parent
of an element is the root, which is not on the list, or stands behind the element.

* `Below parent s x`: `x` is `s` or a descendant of it;
* `Ordered parent root l`: the list that such insertions make;
* `Ordered.above_mem`: what an element of a list is below is on the list too;
* `Ordered.below_root`: every element is below the root;
* `Ordered.filter`: a subtree may go.
-/

namespace Forest

variable {α : Type*} (parent : α → Option α) (root : α)

/-- `x` is `s` or a descendant of it. -/
inductive Below (s : α) : α → Prop
  | refl : Below s s
  | step {x p : α} (h : parent x = some p) (hp : Below s p) : Below s x

/-- Every element stands before its parent, unless that is the root. -/
def Ordered : List α → Prop
  | [] => True
  | s :: l => s ≠ root ∧ s ∉ l ∧ (∃ p, parent s = some p ∧ (p = root ∨ p ∈ l)) ∧ Ordered l

variable {parent root}

theorem Below.trans {s x y : α} (hx : Below parent s x) (hy : Below parent x y) :
    Below parent s y := by
  induction hy with
  | refl => exact hx
  | step h _ ih => exact .step h ih

/-- A descendant is below a child. -/
theorem below_iff {s x : α} :
    Below parent s x ↔ x = s ∨ ∃ c, parent c = some s ∧ Below parent c x := by
  constructor
  · intro h
    induction h with
    | refl => exact .inl rfl
    | step h _ ih =>
      obtain rfl | ⟨c, hc, hcx⟩ := ih
      · exact .inr ⟨_, h, .refl⟩
      · exact .inr ⟨c, hc, .step h hcx⟩
  · rintro (rfl | ⟨c, hc, hcx⟩)
    · exact .refl
    · exact Below.trans (.step hc .refl) hcx

/-- Two ancestors of one element are above one another. -/
theorem Below.total {s t x : α} (hs : Below parent s x) (ht : Below parent t x) :
    Below parent s t ∨ Below parent t s := by
  induction hs with
  | refl => exact .inr ht
  | @step x p h hp ih =>
    cases ht with
    | refl => exact .inl (.step h hp)
    | step h' ht =>
      obtain rfl := Option.some.inj (h.symm.trans h')
      exact ih ht

/-- An element is below one child of the root at most. -/
theorem Below.child_unique {s t x : α} (hroot : parent root = none) (hs : parent s = some root)
    (ht : parent t = some root) (hsx : Below parent s x) (htx : Below parent t x) : s = t := by
  have hchild : ∀ {a b : α}, parent a = some root → parent b = some root → Below parent a b →
      a = b := by
    intro a b ha hb hab
    cases hab with
    | refl => rfl
    | step h hp =>
      obtain rfl := Option.some.inj (hb.symm.trans h)
      cases hp with
      | refl =>
        rw [hroot] at ha
        cases ha
      | step h' _ =>
        rw [hroot] at h'
        cases h'
  rcases hsx.total htx with h | h
  · exact hchild hs ht h
  · exact (hchild ht hs h).symm

theorem Ordered.nodup {l : List α} (h : Ordered parent root l) : l.Nodup := by
  induction l with
  | nil => exact List.nodup_nil
  | cons s l ih => exact List.nodup_cons.mpr ⟨h.2.1, ih h.2.2.2⟩

theorem Ordered.root_notin {l : List α} (h : Ordered parent root l) : root ∉ l := by
  induction l with
  | nil => exact List.not_mem_nil
  | cons s l ih =>
    rw [List.mem_cons, not_or]
    exact ⟨h.1.symm, ih h.2.2.2⟩

theorem Ordered.of_append {l₁ l₂ : List α} (h : Ordered parent root (l₁ ++ l₂)) :
    Ordered parent root l₂ := by
  induction l₁ with
  | nil => exact h
  | cons s l ih => exact ih h.2.2.2

theorem Ordered.parent_mem {l : List α} (h : Ordered parent root l) {s : α} (hs : s ∈ l) :
    ∃ p, parent s = some p ∧ (p = root ∨ p ∈ l) := by
  induction l with
  | nil => exact absurd hs List.not_mem_nil
  | cons t l ih =>
    obtain rfl | hs := List.mem_cons.mp hs
    · obtain ⟨p, hp, hmem⟩ := h.2.2.1
      exact ⟨p, hp, hmem.imp_right (List.mem_cons_of_mem s)⟩
    · obtain ⟨p, hp, hmem⟩ := ih h.2.2.2 hs
      exact ⟨p, hp, hmem.imp_right (List.mem_cons_of_mem t)⟩

/-- Ancestors of elements are elements, or the root. -/
theorem Ordered.above_mem {l : List α} (h : Ordered parent root l) (hroot : parent root = none)
    {s x : α} (hbelow : Below parent s x) (hx : x = root ∨ x ∈ l) : s = root ∨ s ∈ l := by
  induction hbelow with
  | refl => exact hx
  | step hp _ ih =>
    refine ih ?_
    obtain rfl | hx := hx
    · rw [hroot] at hp
      exact absurd hp (by simp)
    · obtain ⟨q, hq, hmem⟩ := h.parent_mem hx
      obtain rfl := Option.some.inj (hq.symm.trans hp)
      exact hmem

/-- What stands behind an element is not below it. -/
theorem Ordered.not_below {l : List α} {s x : α} (h : Ordered parent root (s :: l))
    (hroot : parent root = none) (hx : x = root ∨ x ∈ l) : ¬ Below parent s x := by
  intro hbelow
  obtain hs | hs := h.2.2.2.above_mem hroot hbelow hx
  · exact h.1 hs
  · exact h.2.1 hs

theorem Ordered.below_root {l : List α} (h : Ordered parent root l) {s : α} (hs : s ∈ l) :
    Below parent root s := by
  induction l generalizing s with
  | nil => exact absurd hs List.not_mem_nil
  | cons t l ih =>
    obtain rfl | hs := List.mem_cons.mp hs
    · obtain ⟨p, hp, rfl | hmem⟩ := h.2.2.1
      · exact .step hp .refl
      · exact .step hp (ih h.2.2.2 hmem)
    · exact ih h.2.2.2 hs

/-- Only the parents of elements matter. -/
theorem Ordered.congr {parent' : α → Option α} {l : List α} (h : Ordered parent root l)
    (heq : ∀ x ∈ l, parent' x = parent x) : Ordered parent' root l := by
  induction l with
  | nil => trivial
  | cons s l ih =>
    obtain ⟨p, hp, hmem⟩ := h.2.2.1
    refine ⟨h.1, h.2.1, ⟨p, ?_, hmem⟩, ih h.2.2.2 fun x hx => heq x (List.mem_cons_of_mem s hx)⟩
    rw [heq s List.mem_cons_self, hp]

/-- What is kept when an element is kept includes its parent. -/
theorem Ordered.filter {l : List α} {keep : α → Bool} (h : Ordered parent root l)
    (hkeep : ∀ x p, parent x = some p → keep x = true → p = root ∨ keep p = true) :
    Ordered parent root (l.filter keep) := by
  induction l with
  | nil => trivial
  | cons s l ih =>
    rw [List.filter_cons]
    split
    · rename_i hs
      obtain ⟨p, hp, hmem⟩ := h.2.2.1
      refine ⟨h.1, fun hs' => h.2.1 (List.mem_of_mem_filter hs'), ⟨p, hp, ?_⟩, ih h.2.2.2⟩
      obtain hroot | hkp := hkeep s p hp hs
      · exact .inl hroot
      · exact hmem.imp_right fun hl => List.mem_filter.mpr ⟨hl, hkp⟩
    · exact ih h.2.2.2

end Forest
