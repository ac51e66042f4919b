import Mathlib.Data.List.Nodup
import Mathlib.Logic.Function.Basic

/-!
# Links between many and many

Objects of two kinds are linked; each keeps a list of those of the other kind that it is linked to.

* `Mutual f g`: the lists tell of the same links, and of each of them once;
* `Mutual.link`, `Mutual.unlink`: two objects are linked, or no longer;
* `Mutual.congr`: only the lists count.
-/

namespace Incidence

variable {α β : Type*} {f f' : α → List β} {g g' : β → List α} {a : α} {b : β}

/-- Each link is on two lists, once on each. -/
structure Mutual (f : α → List β) (g : β → List α) : Prop where
  mem : ∀ a b, b ∈ f a ↔ a ∈ g b
  nodup : ∀ a, (f a).Nodup
  nodup' : ∀ b, (g b).Nodup

theorem Mutual.congr (h : Mutual f g) (hf : ∀ a, f' a = f a) (hg : ∀ b, g' b = g b) :
    Mutual f' g' where
  mem a b := by
    rw [hf, hg]
    exact h.mem a b
  nodup a := hf a ▸ h.nodup a
  nodup' b := hg b ▸ h.nodup' b

theorem Mutual.nil : Mutual (fun _ : α => ([] : List β)) fun _ => [] where
  mem _ _ := iff_of_false List.not_mem_nil List.not_mem_nil
  nodup _ := List.nodup_nil
  nodup' _ := List.nodup_nil

variable [DecidableEq α] [DecidableEq β]

theorem Mutual.link (h : Mutual f g) (hab : b ∉ f a) :
    Mutual (Function.update f a (b :: f a)) (Function.update g b (a :: g b)) where
  mem x y := by
    by_cases hx : x = a
    · subst hx
      rw [Function.update_self, List.mem_cons, h.mem]
      by_cases hy : y = b
      · subst hy
        rw [Function.update_self]
        exact iff_of_true (.inl rfl) List.mem_cons_self
      · rw [Function.update_of_ne hy, or_iff_right hy]
    · rw [Function.update_of_ne hx, h.mem]
      by_cases hy : y = b
      · rw [hy, Function.update_self, List.mem_cons, or_iff_right hx]
      · rw [Function.update_of_ne hy]
  nodup x := by
    by_cases hx : x = a
    · rw [hx, Function.update_self]
      exact List.nodup_cons.mpr ⟨hab, h.nodup a⟩
    · rw [Function.update_of_ne hx]
      exact h.nodup x
  nodup' y := by
    by_cases hy : y = b
    · rw [hy, Function.update_self]
      exact List.nodup_cons.mpr ⟨mt (h.mem a b).mpr hab, h.nodup' b⟩
    · rw [Function.update_of_ne hy]
      exact h.nodup' y

theorem Mutual.unlink (h : Mutual f g) (a : α) (b : β) :
    Mutual (Function.update f a ((f a).erase b)) (Function.update g b ((g b).erase a)) where
  mem x y := by
    by_cases hx : x = a
    · subst hx
      rw [Function.update_self, (h.nodup x).mem_erase_iff, h.mem]
      by_cases hy : y = b
      · rw [hy, Function.update_self, (h.nodup' b).mem_erase_iff]
        exact iff_of_false (fun hne => hne.1 rfl) fun hne => hne.1 rfl
      · rw [Function.update_of_ne hy, and_iff_right hy]
    · rw [Function.update_of_ne hx, h.mem]
      by_cases hy : y = b
      · rw [hy, Function.update_self, (h.nodup' b).mem_erase_iff, and_iff_right hx]
      · rw [Function.update_of_ne hy]
  nodup x := by
    by_cases hx : x = a
    · rw [hx, Function.update_self]
      exact (h.nodup a).erase b
    · rw [Function.update_of_ne hx]
      exact h.nodup x
  nodup' y := by
    by_cases hy : y = b
    · rw [hy, Function.update_self]
      exact (h.nodup' b).erase a
    · rw [Function.update_of_ne hy]
      exact h.nodup' y

end Incidence
