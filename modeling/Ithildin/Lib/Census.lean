import Mathlib.Algebra.GroupWithZero.Nat
import Mathlib.Data.List.Basic
import Mathlib.Data.List.Nodup
import Mathlib.Data.List.Perm.Basic
import Mathlib.Logic.Function.Basic

/-!
# A census

Records lie at addresses, some of which are on a list. `Census.total w mem l` adds up the weights of
the listed records, and `Census.count p mem l` is the number of those with the property `p`. The
lemmas say how this changes when a record is written, and when an address is put on the list or
taken from it.
-/

namespace Census

variable {ι ρ : Type*}

/-- The weight of a record that may be missing. -/
def unit (w : ρ → ℕ) (o : Option ρ) : ℕ := (o.map w).getD 0

/-- The weights of the listed records. -/
def total (w : ρ → ℕ) (mem : ι → Option ρ) (l : List ι) : ℕ := (l.map fun i => unit w (mem i)).sum

/-- How many of the listed records have the property. -/
def count (p : ρ → Bool) (mem : ι → Option ρ) (l : List ι) : ℕ := total (fun c => (p c).toNat) mem l

section
variable {w w' : ρ → ℕ} {p q : ρ → Bool} {mem mem' : ι → Option ρ} {l : List ι} {i : ι} {c : ρ}

@[simp] theorem unit_none : unit w none = 0 := rfl

@[simp] theorem unit_some : unit w (some c) = w c := rfl

@[simp] theorem total_nil : total w mem [] = 0 := rfl

@[simp] theorem count_nil : count p mem [] = 0 := rfl

theorem total_cons : total w mem (i :: l) = unit w (mem i) + total w mem l := by
  rw [total, List.map_cons, List.sum_cons, total]

theorem total_concat : total w mem (l ++ [i]) = total w mem l + unit w (mem i) := by
  rw [total, List.map_append, List.sum_append, total, List.map_singleton, List.sum_singleton]

theorem total_congr (h : ∀ i ∈ l, unit w' (mem' i) = unit w (mem i)) :
    total w' mem' l = total w mem l := by
  rw [total, total, List.map_congr_left h]

theorem total_eq_zero_iff : total w mem l = 0 ↔ ∀ i ∈ l, ∀ c, mem i = some c → w c = 0 := by
  induction l with
  | nil => simp
  | cons i l ih =>
    rw [total_cons, Nat.add_eq_zero_iff, ih, List.forall_mem_cons]
    refine and_congr_left fun _ => ?_
    cases mem i <;> simp

/-- Properties that agree on the listed records. -/
theorem count_congr (h : ∀ i ∈ l, ∀ c, mem i = some c → p c = q c) :
    count p mem l = count q mem l := by
  refine total_congr fun i hi => ?_
  cases hc : mem i with
  | none => rfl
  | some c => rw [unit_some, unit_some, h i hi c hc]

/-- A property counted in two parts. -/
theorem count_eq_add (q : ρ → Bool) : count p mem l =
    count (fun c => p c && q c) mem l + count (fun c => p c && !q c) mem l := by
  induction l with
  | nil => rfl
  | cons i l ih =>
    have hunit : unit (fun c => (p c).toNat) (mem i) =
        unit (fun c => (p c && q c).toNat) (mem i) +
          unit (fun c => (p c && !q c).toNat) (mem i) := by
      cases mem i with
      | none => rfl
      | some c =>
        simp only [unit_some]
        cases p c <;> cases q c <;> rfl
    have hcons (r : ρ → Bool) : count r mem (i :: l) =
        unit (fun c => (r c).toNat) (mem i) + count r mem l := total_cons
    rw [hcons, hcons, hcons, hunit, ih]
    omega

theorem count_eq_zero_iff :
    count p mem l = 0 ↔ ∀ i ∈ l, ∀ c, mem i = some c → p c = false := by
  simp only [count, total_eq_zero_iff, Bool.toNat_eq_zero]

variable [DecidableEq ι]

/-- What is read after a write. -/
theorem update_eq_iff {α : Type*} {f : ι → α} {a b : α} {j : ι} :
    Function.update f i a j = b ↔ (j = i ∧ a = b) ∨ (j ≠ i ∧ f j = b) := by
  by_cases h : j = i
  · subst h
    simp
  · simp [h]

/-- A record that is there is written over. -/
theorem isSome_update (hi : (mem i).isSome) (j : ι) :
    (Function.update mem i (some c) j).isSome = (mem j).isSome := by
  by_cases h : j = i
  · subst h
    rw [Function.update_self, hi]
    rfl
  · rw [Function.update_of_ne h]

theorem total_update_of_notMem {o : Option ρ} (hi : i ∉ l) :
    total w (Function.update mem i o) l = total w mem l :=
  total_congr fun _ hj => by rw [Function.update_of_ne (ne_of_mem_of_not_mem hj hi)]

/-- Taking an address from the list. -/
theorem total_erase (hi : i ∈ l) : total w mem (l.erase i) + unit w (mem i) = total w mem l := by
  have hperm := ((List.perm_cons_erase hi).map fun i => unit w (mem i)).sum_nat
  rw [List.map_cons, List.sum_cons] at hperm
  rw [total, total, hperm, Nat.add_comm]

/-- Writing a listed record. -/
theorem total_update {o : Option ρ} (hl : l.Nodup) (hi : i ∈ l) :
    total w (Function.update mem i o) l + unit w (mem i) = total w mem l + unit w o := by
  have hself : unit w (Function.update mem i o i) = unit w o := by rw [Function.update_self]
  have hrest : total w (Function.update mem i o) (l.erase i) = total w mem (l.erase i) :=
    total_update_of_notMem fun h => (hl.mem_erase_iff.mp h).1 rfl
  have hnew : total w (Function.update mem i o) (l.erase i) +
      unit w (Function.update mem i o i) = total w (Function.update mem i o) l := total_erase hi
  have hold : total w mem (l.erase i) + unit w (mem i) = total w mem l := total_erase hi
  omega

end

end Census
