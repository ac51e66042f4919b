import Ithildin.Lib.Forest
import Mathlib.Data.List.Flatten
import Mathlib.Data.List.Nodup

/-!
# A walk down a tree that is kept as a list

The tree of `Forest.Ordered`, gone through from an element down: the element, and then, for each of
its children as the list has them, the walk from there. One element is cut out with all below it.

* `preorder l parent cut n x`: the walk, with a bound on the depth;
* `preorder_stable`: a bound over the place of `x` on the list is enough;
* `mem_preorder`, `nodup_preorder`: it meets every element below `x` that is not below `cut`, once;
* `parent_first`: each after its parent.
-/

namespace Forest

variable {α : Type*} [DecidableEq α] (l : List α) (parent : α → Option α) (cut : α)

/-- The children of an element, but for the one that is cut out. -/
def children (x : α) : List α := l.filter fun y => decide (parent y = some x ∧ y ≠ cut)

/-- The walk. -/
def preorder : ℕ → α → List α
  | 0, _ => []
  | n + 1, x => x :: (children l parent cut x).flatMap (preorder n)

variable {l parent cut} {root x y : α} {n : ℕ}

theorem mem_children : y ∈ children l parent cut x ↔ y ∈ l ∧ parent y = some x ∧ y ≠ cut := by
  rw [children, List.mem_filter, decide_eq_true_eq]

/-- A child stands before its parent. -/
theorem Ordered.idxOf_lt (h : Ordered parent root l) (hy : y ∈ l) (hp : parent y = some x) :
    l.idxOf y < l.idxOf x := by
  induction l with
  | nil => cases hy
  | cons s l ih =>
    obtain ⟨hroot, hs, ⟨p, hsp, hmem⟩, hrest⟩ := h
    by_cases hys : y = s
    · subst hys
      obtain rfl := Option.some.inj (hp.symm.trans hsp)
      have hne : y ≠ x := by
        rintro rfl
        exact hmem.elim hroot hs
      rw [List.idxOf_cons_self, List.idxOf_cons_ne _ hne]
      exact Nat.succ_pos _
    · have hyl : y ∈ l := (List.mem_cons.mp hy).resolve_left hys
      have hlt := ih hrest hyl
      by_cases hxs : s = x
      · -- the parent of an element behind `s` is not `s`
        subst hxs
        obtain ⟨q, hq, hqmem⟩ := hrest.parent_mem hyl
        obtain rfl := Option.some.inj (hq.symm.trans hp)
        exact (hqmem.elim hroot hs).elim
      · rw [List.idxOf_cons_ne _ (Ne.symm hys), List.idxOf_cons_ne _ hxs]
        exact Nat.succ_lt_succ hlt

/-- What is below an element does not stand behind it. -/
theorem Ordered.idxOf_le (h : Ordered parent root l) (hroot : parent root = none)
    (hxy : Below parent x y) (hy : y = root ∨ y ∈ l) : l.idxOf y ≤ l.idxOf x := by
  induction hxy with
  | refl => exact Nat.le_refl _
  | @step y p hp _ ih =>
    have hyl : y ∈ l := hy.resolve_left fun heq => by
      rw [heq, hroot] at hp
      cases hp
    obtain ⟨q, hq, hqmem⟩ := h.parent_mem hyl
    obtain rfl := Option.some.inj (hq.symm.trans hp)
    exact Nat.le_trans (Nat.le_of_lt (h.idxOf_lt hyl hp)) (ih hqmem)

/-- The children are on the list, and not cut off. -/
theorem Ordered.child (h : Ordered parent root l) (hx : ¬ Below parent cut x)
    (hy : y ∈ children l parent cut x) :
    (y = root ∨ y ∈ l) ∧ ¬ Below parent cut y ∧ l.idxOf y < l.idxOf x := by
  obtain ⟨hyl, hp, hcut⟩ := mem_children.mp hy
  refine ⟨.inr hyl, fun hbelow => ?_, h.idxOf_lt hyl hp⟩
  cases hbelow with
  | refl => exact hcut rfl
  | step hp' hbelow =>
    obtain rfl := Option.some.inj (hp.symm.trans hp')
    exact hx hbelow

/-- All that the walk meets is on the list, but for the root. -/
theorem preorder_mem (hx : x = root ∨ x ∈ l) (hy : y ∈ preorder l parent cut n x) :
    y = root ∨ y ∈ l := by
  induction n generalizing x with
  | zero => cases hy
  | succ n ih =>
    rcases List.mem_cons.mp hy with rfl | hy
    · exact hx
    · obtain ⟨z, hz, hyz⟩ := List.mem_flatMap.mp hy
      exact ih (.inr (mem_children.mp hz).1) hyz

/-- More depth than the list has does not matter. -/
theorem Ordered.preorder_stable (h : Ordered parent root l) {m : ℕ} (hn : l.idxOf x < n)
    (hm : l.idxOf x < m)
    (hx : ¬ Below parent cut x) :
    preorder l parent cut n x = preorder l parent cut m x := by
  induction n generalizing x m with
  | zero => cases hn
  | succ n ih =>
    cases m with
    | zero => cases hm
    | succ m =>
      rw [preorder, preorder]
      refine congrArg _ (List.flatMap_congr fun y hy => ?_)
      obtain ⟨-, hcut, hlt⟩ := h.child hx hy
      exact ih (Nat.lt_of_lt_of_le hlt (Nat.le_of_lt_succ hn))
        (Nat.lt_of_lt_of_le hlt (Nat.le_of_lt_succ hm)) hcut

/-- The walk meets what is below its start and not cut off. -/
theorem Ordered.mem_preorder (h : Ordered parent root l) (hroot : parent root = none)
    (hn : l.idxOf x < n) (hx : ¬ Below parent cut x) (hy : y = root ∨ y ∈ l) :
    y ∈ preorder l parent cut n x ↔ Below parent x y ∧ ¬ Below parent cut y := by
  induction n generalizing x with
  | zero => cases hn
  | succ n ih =>
    rw [preorder, List.mem_cons, List.mem_flatMap]
    constructor
    · rintro (rfl | ⟨z, hz, hyz⟩)
      · exact ⟨.refl, hx⟩
      · obtain ⟨-, hcut, hlt⟩ := h.child hx hz
        obtain ⟨hbelow, hy'⟩ := (ih (Nat.lt_of_lt_of_le hlt (Nat.le_of_lt_succ hn)) hcut).mp hyz
        exact ⟨Below.trans (.step (mem_children.mp hz).2.1 .refl) hbelow, hy'⟩
    · rintro ⟨hbelow, hcut⟩
      rcases below_iff.mp hbelow with rfl | ⟨z, hz, hzy⟩
      · exact .inl rfl
      · have hzl : z ∈ l := (h.above_mem hroot hzy hy).resolve_left fun heq => by
          rw [heq, hroot] at hz
          cases hz
        have hzcut : z ≠ cut := by
          rintro rfl
          exact hcut hzy
        have hchild := mem_children.mpr ⟨hzl, hz, hzcut⟩
        obtain ⟨-, hcut', hlt⟩ := h.child hx hchild
        exact .inr
          ⟨z, hchild, (ih (Nat.lt_of_lt_of_le hlt (Nat.le_of_lt_succ hn)) hcut').mpr ⟨hzy, hcut⟩⟩

/-- Nothing is met twice. -/
theorem Ordered.nodup_preorder (h : Ordered parent root l) (hroot : parent root = none)
    (hn : l.idxOf x < n) (hx : ¬ Below parent cut x) (hxl : x = root ∨ x ∈ l) :
    (preorder l parent cut n x).Nodup := by
  induction n generalizing x with
  | zero => cases hn
  | succ n ih =>
    have hbelow : ∀ z ∈ children l parent cut x, ∀ y ∈ preorder l parent cut n z,
        (y = root ∨ y ∈ l) ∧ Below parent z y := by
      intro z hz y hy
      obtain ⟨hzl, hcut, hlt⟩ := h.child hx hz
      have hyl := preorder_mem hzl hy
      have hmem :=
        (h.mem_preorder hroot (Nat.lt_of_lt_of_le hlt (Nat.le_of_lt_succ hn)) hcut hyl).mp hy
      exact ⟨hyl, hmem.1⟩
    rw [preorder, List.nodup_cons, List.nodup_flatMap]
    refine ⟨fun hin => ?_, fun z hz => ?_, ?_⟩
    · -- `x` is not below its child
      obtain ⟨z, hz, hxz⟩ := List.mem_flatMap.mp hin
      obtain ⟨-, -, hlt⟩ := h.child hx hz
      exact absurd (h.idxOf_le hroot (hbelow z hz x hxz).2 hxl) (Nat.not_le.mpr hlt)
    · obtain ⟨hzl, hcut, hlt⟩ := h.child hx hz
      exact ih (Nat.lt_of_lt_of_le hlt (Nat.le_of_lt_succ hn)) hcut hzl
    · -- two children have nothing in common
      have hsib : ∀ z ∈ children l parent cut x, ∀ z' ∈ children l parent cut x,
          Below parent z z' → z = z' := by
        intro z hz z' hz' hzz'
        cases hzz' with
        | refl => rfl
        | step hp hbelow =>
          obtain rfl := Option.some.inj ((mem_children.mp hz').2.1.symm.trans hp)
          obtain ⟨-, -, hlt⟩ := h.child hx hz
          exact absurd (h.idxOf_le hroot hbelow hxl) (Nat.not_le.mpr hlt)
      refine (h.nodup.filter _).imp_of_mem fun {z z'} hz hz' hne y hy hy' => ?_
      rcases (hbelow z hz y hy).2.total (hbelow z' hz' y hy').2 with hzz' | hzz'
      · exact hne (hsib z hz z' hz' hzz')
      · exact hne (hsib z' hz' z hz hzz').symm

/-- Each element but the first comes after its parent. -/
theorem parent_first (hy : y ∈ preorder l parent cut n x) (hyx : y ≠ x) :
    ∃ p, parent y = some p ∧ List.Sublist [p, y] (preorder l parent cut n x) := by
  induction n generalizing x with
  | zero => cases hy
  | succ n ih =>
    rw [preorder] at hy ⊢
    have hy' := (List.mem_cons.mp hy).resolve_left hyx
    obtain ⟨z, hz, hyz⟩ := List.mem_flatMap.mp hy'
    by_cases hyz' : y = z
    · subst hyz'
      exact ⟨x, (mem_children.mp hz).2.1, (List.singleton_sublist.mpr hy').cons_cons x⟩
    · obtain ⟨p, hp, hsub⟩ := ih hyz hyz'
      refine ⟨p, hp, .cons x (hsub.trans ?_)⟩
      exact List.sublist_flatten_of_mem (List.mem_map_of_mem hz)

end Forest
