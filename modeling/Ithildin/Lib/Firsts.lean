import Mathlib.Data.List.Nodup
import Mathlib.Logic.Function.Basic

/-!
# The first of each kind

A list is gone through with a table of marks; an element is left out if its key is marked, and marks
its key if it is not.

* `firsts key seen l`: the elements that are not left out;
* `marks key seen l`: the table afterwards;
* `firsts_eq_self_iff`: when nothing is left out;
* `mem_firsts`, `filter_firsts`, `count_firsts`: an element stays only if its key was not marked,
  and just once if it shares its key with no other.
-/

namespace Firsts

variable {α κ : Type*} [DecidableEq κ] (key : α → κ)

/-- The elements whose keys were not marked. -/
def firsts : (κ → Bool) → List α → List α
  | _, [] => []
  | seen, x :: l =>
    if seen (key x) then firsts seen l else x :: firsts (Function.update seen (key x) true) l

/-- The marks afterwards. -/
def marks : (κ → Bool) → List α → κ → Bool
  | seen, [] => seen
  | seen, x :: l =>
    if seen (key x) then marks seen l else marks (Function.update seen (key x) true) l

variable {key}

theorem firsts_cons (seen : κ → Bool) (x : α) (l : List α) :
    firsts key seen (x :: l) =
      if seen (key x) then firsts key seen l
      else x :: firsts key (Function.update seen (key x) true) l := rfl

theorem marks_cons (seen : κ → Bool) (x : α) (l : List α) :
    marks key seen (x :: l) =
      if seen (key x) then marks key seen l
      else marks key (Function.update seen (key x) true) l := rfl

theorem mem_firsts {x : α} {seen : κ → Bool} {l : List α} (hx : x ∈ firsts key seen l) :
    x ∈ l ∧ seen (key x) = false := by
  induction l generalizing seen with
  | nil => cases hx
  | cons y l ih =>
    rw [firsts_cons] at hx
    split at hx
    · obtain ⟨hmem, hseen⟩ := ih hx
      exact ⟨List.mem_cons_of_mem y hmem, hseen⟩
    · rename_i hy
      rcases List.mem_cons.mp hx with rfl | hx
      · exact ⟨List.mem_cons_self, Bool.eq_false_iff.mpr hy⟩
      · obtain ⟨hmem, hseen⟩ := ih hx
        refine ⟨List.mem_cons_of_mem y hmem, ?_⟩
        by_cases hkey : key x = key y
        · rw [hkey, Function.update_self] at hseen
          cases hseen
        · rwa [Function.update_of_ne hkey] at hseen

theorem firsts_sublist {seen : κ → Bool} {l : List α} : (firsts key seen l).Sublist l := by
  induction l generalizing seen with
  | nil => exact .slnil
  | cons y l ih =>
    rw [firsts_cons]
    split
    · exact ih.cons y
    · exact ih.cons_cons y

theorem firsts_eq_nil_iff {seen : κ → Bool} {l : List α} :
    firsts key seen l = [] ↔ ∀ x ∈ l, seen (key x) = true := by
  induction l with
  | nil => exact iff_of_true rfl fun x hx => absurd hx List.not_mem_nil
  | cons y l ih =>
    rw [firsts_cons, List.forall_mem_cons]
    split
    · rename_i hy
      rw [ih, and_iff_right hy]
    · rename_i hy
      exact iff_of_false (List.cons_ne_nil _ _) fun h => hy h.1

/-- Nothing is left out if no key is marked and no two elements share one. -/
theorem firsts_eq_self_iff {seen : κ → Bool} {l : List α} :
    firsts key seen l = l ↔
      (∀ x ∈ l, seen (key x) = false) ∧ l.Pairwise fun x y => key x ≠ key y := by
  induction l generalizing seen with
  | nil => simp [firsts]
  | cons y l ih =>
    rw [firsts_cons, List.forall_mem_cons, List.pairwise_cons]
    split
    · rename_i hy
      refine iff_of_false (fun heq => ?_) (by simp [hy])
      have hle := (@firsts_sublist _ _ _ key seen l).length_le
      rw [heq, List.length_cons] at hle
      omega
    · rename_i hy
      rw [List.cons.injEq, eq_self_iff_true, true_and, ih]
      constructor
      · rintro ⟨hseen, hpair⟩
        have hne : ∀ x ∈ l, key x ≠ key y := by
          intro x hx heq
          have hmarked := hseen x hx
          rw [heq, Function.update_self] at hmarked
          cases hmarked
        refine ⟨⟨Bool.eq_false_iff.mpr hy, fun x hx => ?_⟩, fun x hx => (hne x hx).symm, hpair⟩
        have hmarked := hseen x hx
        rwa [Function.update_of_ne (hne x hx)] at hmarked
      · rintro ⟨⟨-, hseen⟩, hne, hpair⟩
        refine ⟨fun x hx => ?_, hpair⟩
        rw [Function.update_of_ne (hne x hx).symm]
        exact hseen x hx

/-- Keys that are marked afterwards. -/
theorem marks_eq_true_iff {k : κ} {seen : κ → Bool} {l : List α} :
    marks key seen l k = true ↔ seen k = true ∨ ∃ x ∈ l, key x = k := by
  induction l generalizing seen with
  | nil => simp [marks]
  | cons y l ih =>
    rw [marks_cons]
    split
    · rename_i hy
      rw [ih, List.exists_mem_cons_iff]
      refine ⟨Or.imp_right .inr, fun h => ?_⟩
      rcases h with h | rfl | h
      exacts [.inl h, .inl hy, .inr h]
    · rw [ih, List.exists_mem_cons_iff, Function.update_apply]
      by_cases hk : k = key y
      · simp [hk]
      · rw [if_neg hk, or_iff_right (Ne.symm hk)]

variable [DecidableEq α]

/-- An element that shares its key with no other stays just once. -/
theorem filter_firsts {x : α} {seen : κ → Bool} {l : List α}
    (hx : ∀ y ∈ l, key y = key x → y = x) (hmem : x ∈ l) (hseen : seen (key x) = false) :
    (firsts key seen l).filter (· == x) = [x] := by
  induction l generalizing seen with
  | nil => cases hmem
  | cons y l ih =>
    have hl : ∀ z ∈ l, key z = key x → z = x := fun z hz => hx z (List.mem_cons_of_mem y hz)
    rw [firsts_cons]
    by_cases hyx : y = x
    · subst hyx
      have hrest : (firsts key (Function.update seen (key y) true) l).filter (· == y) = [] := by
        refine List.filter_eq_nil_iff.mpr fun z hz hzy => ?_
        obtain rfl := beq_iff_eq.mp hzy
        have hmarked := (mem_firsts hz).2
        rw [Function.update_self] at hmarked
        cases hmarked
      rw [hseen, if_neg Bool.false_ne_true, List.filter_cons, beq_self_eq_true, if_pos rfl, hrest]
    · have hmem' : x ∈ l := (List.mem_cons.mp hmem).resolve_left (Ne.symm hyx)
      have hkey : key x ≠ key y := fun heq => hyx (hx y List.mem_cons_self heq.symm)
      split
      · exact ih hl hmem' hseen
      · rw [List.filter_cons, beq_false_of_ne hyx, if_neg Bool.false_ne_true]
        exact ih hl hmem' (by rw [Function.update_of_ne hkey, hseen])

theorem filter_of_notMem {x : α} {l : List α} (hx : x ∉ l) : l.filter (· == x) = [] :=
  List.filter_eq_nil_iff.mpr fun _ hy hyx => hx (beq_iff_eq.mp hyx ▸ hy)

/-- In a list without repetitions. -/
theorem filter_of_nodup {x : α} {l : List α} (hl : l.Nodup) (hx : x ∈ l) :
    l.filter (· == x) = [x] := by
  rw [List.filter_beq, List.count_eq_one_of_mem hl hx, List.replicate_one]

theorem count_firsts {x : α} {seen : κ → Bool} {l : List α} [Decidable (x ∈ l)]
    (hx : ∀ y ∈ l, key y = key x → y = x) (hseen : seen (key x) = false) :
    (firsts key seen l).count x = if x ∈ l then 1 else 0 := by
  split
  · rename_i hmem
    rw [List.count, List.countP_eq_length_filter, filter_firsts hx hmem hseen,
      List.length_singleton]
  · rename_i hnot
    exact List.count_eq_zero_of_not_mem fun hmem => hnot (mem_firsts hmem).1

/-- Only one element contributes. -/
theorem count_flatMap_of_only {β : Type*} [DecidableEq β] {f : α → List β} {x : α} {b : β}
    {l : List α} (hx : ∀ y ∈ l, y ≠ x → (f y).count b = 0) :
    (l.flatMap f).count b = l.count x * (f x).count b := by
  induction l with
  | nil => rw [List.flatMap_nil, List.count_nil, List.count_nil, Nat.zero_mul]
  | cons y l ih =>
    have hrest := ih fun z hz => hx z (List.mem_cons_of_mem y hz)
    rw [List.flatMap_cons, List.count_append, hrest]
    by_cases hyx : y = x
    · rw [hyx, List.count_cons_self, Nat.succ_mul, Nat.add_comm]
    · rw [List.count_cons_of_ne hyx, hx y List.mem_cons_self hyx, Nat.zero_add]

end Firsts
