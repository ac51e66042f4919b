import Mathlib.Data.Option.Basic
import Mathlib.Logic.Function.Basic

/-!
# Pointers both ways

Objects of two kinds point at each other: where one points, the other points back.

* `Crossed f g`: the pointers `f` and `g` are each other's inverses;
* `Crossed.unlink`, `Crossed.link`: a pair is taken apart, or made of two that point nowhere;
* `Crossed.congr`: only the pointers count.
-/

namespace Crosslink

variable {α β : Type*} {f f' : α → Option β} {g g' : β → Option α} {a : α} {b : β}

/-- Where an object points, that one points back. -/
def Crossed (f : α → Option β) (g : β → Option α) : Prop := ∀ a b, f a = some b ↔ g b = some a

theorem Crossed.congr (h : Crossed f g) (hf : ∀ a, f' a = f a) (hg : ∀ b, g' b = g b) :
    Crossed f' g' := by
  intro a b
  rw [hf, hg]
  exact h a b

/-- Two objects do not point at one. -/
theorem Crossed.inj {a' : α} (h : Crossed f g) (ha : f a = some b) (ha' : f a' = some b) :
    a = a' :=
  Option.some.inj (((h a b).mp ha).symm.trans ((h a' b).mp ha'))

variable [DecidableEq α] [DecidableEq β]

theorem Crossed.unlink (h : Crossed f g) (hab : f a = some b) :
    Crossed (Function.update f a none) (Function.update g b none) := by
  intro x y
  by_cases hx : x = a
  · subst hx
    rw [Function.update_self]
    refine iff_of_false (Option.some_ne_none _).symm fun hg => ?_
    by_cases hy : y = b
    · rw [hy, Function.update_self] at hg
      cases hg
    · rw [Function.update_of_ne hy] at hg
      exact hy (Option.some.inj (((h x y).mpr hg).symm.trans hab))
  · rw [Function.update_of_ne hx]
    by_cases hy : y = b
    · rw [hy, Function.update_self]
      exact iff_of_false (fun hf => hx (h.inj hf hab)) (Option.some_ne_none _).symm
    · rw [Function.update_of_ne hy]
      exact h x y

theorem Crossed.link (h : Crossed f g) (ha : f a = none) (hb : g b = none) :
    Crossed (Function.update f a (some b)) (Function.update g b (some a)) := by
  intro x y
  by_cases hx : x = a
  · subst hx
    rw [Function.update_self, Option.some.injEq]
    by_cases hy : y = b
    · rw [hy, Function.update_self]
      exact iff_of_true rfl rfl
    · rw [Function.update_of_ne hy, ← h x y, ha]
      exact iff_of_false (Ne.symm hy) (Option.some_ne_none _).symm
  · rw [Function.update_of_ne hx]
    by_cases hy : y = b
    · rw [hy, Function.update_self, h x b, hb, Option.some.injEq]
      exact iff_of_false (Option.some_ne_none _).symm (Ne.symm hx)
    · rw [Function.update_of_ne hy]
      exact h x y

end Crosslink
