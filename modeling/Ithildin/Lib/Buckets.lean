import Mathlib.Data.List.Basic
import Mathlib.Data.Nat.Basic
import Mathlib.Data.List.Perm.Basic
import Mathlib.Logic.Function.Basic

/-!
# Lists in numbered buckets

`entries n b` is everything in the first `n` buckets of `b`, bucket by bucket. A change of one of
them changes it, up to order, as it changes the bucket.
-/

namespace Buckets

variable {α : Type*}

/-- What is in the first `n` buckets. -/
def entries (n : ℕ) (b : ℕ → List α) : List α :=
  (List.range n).flatMap b

variable {n i : ℕ} {b : ℕ → List α}

theorem mem_entries {a : α} : a ∈ entries n b ↔ ∃ i < n, a ∈ b i := by
  simp [entries]

theorem entries_succ : entries (n + 1) b = entries n b ++ b n := by
  simp [entries, List.range_succ]

@[simp] theorem entries_nil : entries n (fun _ => ([] : List α)) = [] := by
  simp [entries]

theorem entries_update_of_le (h : n ≤ i) (l : List α) :
    entries n (Function.update b i l) = entries n b := by
  refine List.flatMap_congr fun j hj => ?_
  have hne : j ≠ i := Nat.ne_of_lt (lt_of_lt_of_le (List.mem_range.mp hj) h)
  exact Function.update_of_ne hne l b

/-- One bucket is replaced: what was in it goes and what is in it now comes. -/
theorem entries_update_perm (h : i < n) (l : List α) :
    (entries n (Function.update b i l) ++ b i).Perm (entries n b ++ l) := by
  induction n with
  | zero => omega
  | succ n ih =>
    rw [entries_succ, entries_succ]
    by_cases hi : i = n
    · subst hi
      rw [entries_update_of_le le_rfl, Function.update_self, List.append_assoc, List.append_assoc]
      exact List.perm_append_comm.append_left _
    · rw [Function.update_of_ne (Ne.symm hi)]
      have hstep := (ih (by omega)).append_right (b n)
      rw [List.append_assoc, List.append_assoc] at hstep ⊢
      exact (List.perm_append_comm.append_left _).trans
        (hstep.trans (List.perm_append_comm.append_left _))

theorem entries_update_cons (h : i < n) {l : List α} {a : α} (hl : l.Perm (a :: b i)) :
    (entries n (Function.update b i l)).Perm (a :: entries n b) := by
  have hperm := (entries_update_perm h l).trans (hl.append_left (entries n b))
  have hmid : (entries n b ++ a :: b i).Perm (a :: entries n b ++ b i) :=
    List.perm_middle
  exact (List.perm_append_right_iff (b i)).mp (hperm.trans hmid)

theorem entries_update_erase (h : i < n) {l : List α} {a : α} (hl : (b i).Perm (a :: l)) :
    (entries n b).Perm (a :: entries n (Function.update b i l)) := by
  have hcons := entries_update_cons (b := Function.update b i l) (l := b i) h
    (by rw [Function.update_self]; exact hl)
  rwa [Function.update_idem, Function.update_eq_self] at hcons

end Buckets
