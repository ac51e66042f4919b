import Mathlib.Data.Set.Insert
import Mathlib.Logic.Function.Basic

/-!
# Debts

Debts have numbers, given out in turn. Each is owed by one debtor until it is paid or cancelled.
`Ledger owed paid cancelled next` says that every number given out is in just one of these places,
and that nothing was paid twice.
-/

/-- Every debt is owed by one debtor, or paid once, or cancelled. -/
structure Ledger {κ : Type*} (owed : κ → Set ℕ) (paid cancelled : List ℕ) (next : ℕ) : Prop where
  total : ∀ n, n < next ↔ n ∈ paid ∨ n ∈ cancelled ∨ ∃ k, n ∈ owed k
  once : paid.Nodup
  paid : ∀ n ∈ paid, n ∉ cancelled ∧ ∀ k, n ∉ owed k
  cancelled : ∀ n ∈ cancelled, ∀ k, n ∉ owed k
  single : ∀ k k' n, n ∈ owed k → n ∈ owed k' → k = k'

namespace Ledger

variable {κ : Type*} {owed owed' : κ → Set ℕ} {paid cancelled : List ℕ} {n next : ℕ} {k : κ}

theorem empty : Ledger (fun _ : κ => ∅) [] [] 0 := by
  constructor <;> simp

/-- The next debt is new. -/
theorem fresh (h : Ledger owed paid cancelled next) :
    next ∉ paid ∧ next ∉ cancelled ∧ ∀ k, next ∉ owed k := by
  have hnot := fun hin => Nat.lt_irrefl next ((h.total next).2 hin)
  exact ⟨fun hn => hnot (Or.inl hn), fun hn => hnot (Or.inr (Or.inl hn)),
    fun k hn => hnot (Or.inr (Or.inr ⟨k, hn⟩))⟩

/-- A debtor pays a debt. -/
theorem pay (h : Ledger owed paid cancelled next) (hn : n ∈ owed k)
    (hself : owed' k = owed k \ {n}) (hother : ∀ k', k' ≠ k → owed' k' = owed k') :
    Ledger owed' (n :: paid) cancelled next := by
  have hmem : ∀ m k', m ∈ owed' k' ↔ m ∈ owed k' ∧ m ≠ n := by
    intro m k'
    by_cases hk : k' = k
    · rw [hk, hself]
      exact Iff.rfl
    · rw [hother k' hk]
      refine ⟨fun hm => ⟨hm, ?_⟩, And.left⟩
      rintro rfl
      exact hk (h.single k' k m hm hn)
  refine ⟨fun m => ?_, ?_, ?_, ?_, ?_⟩
  · rw [h.total]
    by_cases hm : m = n
    · rw [hm]
      exact iff_of_true (Or.inr (Or.inr ⟨k, hn⟩)) (Or.inl List.mem_cons_self)
    · simp [hmem, hm]
  · exact List.nodup_cons.2 ⟨fun hp => (h.paid n hp).2 k hn, h.once⟩
  · rintro m hm
    rcases List.mem_cons.1 hm with rfl | hm
    · exact ⟨fun hc => h.cancelled m hc k hn, fun k' hk' => ((hmem m k').1 hk').2 rfl⟩
    · exact ⟨(h.paid m hm).1, fun k' hk' => (h.paid m hm).2 k' ((hmem m k').1 hk').1⟩
  · exact fun m hm k' hk' => h.cancelled m hm k' ((hmem m k').1 hk').1
  · exact fun k₁ k₂ m h₁ h₂ => h.single k₁ k₂ m ((hmem m k₁).1 h₁).1 ((hmem m k₂).1 h₂).1

/-- A debt is cancelled. -/
theorem cancel (h : Ledger owed paid cancelled next) (hn : n ∈ owed k)
    (hself : owed' k = owed k \ {n}) (hother : ∀ k', k' ≠ k → owed' k' = owed k') :
    Ledger owed' paid (n :: cancelled) next := by
  have hpay := h.pay hn hself hother
  refine ⟨fun m => ?_, h.once, ?_, ?_, hpay.single⟩
  · rw [hpay.total, List.mem_cons, List.mem_cons, or_assoc, or_assoc, or_left_comm]
  · rintro m hm
    obtain ⟨hc, hk⟩ := hpay.paid m (List.mem_cons_of_mem n hm)
    refine ⟨fun hin => ?_, hk⟩
    rcases List.mem_cons.1 hin with rfl | hin
    · exact (h.paid m hm).2 k hn
    · exact hc hin
  · rintro m hm k'
    rcases List.mem_cons.1 hm with rfl | hm
    · exact (hpay.paid m List.mem_cons_self).2 k'
    · exact hpay.cancelled m hm k'

/-- A new debt. -/
theorem owe (h : Ledger owed paid cancelled next) (hself : owed' k = insert next (owed k))
    (hother : ∀ k', k' ≠ k → owed' k' = owed k') : Ledger owed' paid cancelled (next + 1) := by
  obtain ⟨hpaid, hcancelled, howed⟩ := h.fresh
  have hmem : ∀ m k', m ∈ owed' k' ↔ m ∈ owed k' ∨ m = next ∧ k' = k := by
    intro m k'
    by_cases hk : k' = k
    · rw [hk, hself, Set.mem_insert_iff, or_comm]
      simp
    · rw [hother k' hk]
      simp [hk]
  refine ⟨fun m => ?_, h.once, ?_, ?_, ?_⟩
  · rw [Nat.lt_succ_iff_lt_or_eq, h.total]
    by_cases hm : m = next
    · rw [hm]
      exact iff_of_true (Or.inr rfl) (Or.inr (Or.inr ⟨k, (hmem next k).2 (Or.inr ⟨rfl, rfl⟩)⟩))
    · simp [hmem, hm]
  · refine fun m hm => ⟨(h.paid m hm).1, fun k' hk' => ?_⟩
    rcases (hmem m k').1 hk' with hk' | ⟨rfl, -⟩
    · exact (h.paid m hm).2 k' hk'
    · exact hpaid hm
  · refine fun m hm k' hk' => ?_
    rcases (hmem m k').1 hk' with hk' | ⟨rfl, -⟩
    · exact h.cancelled m hm k' hk'
    · exact hcancelled hm
  · rintro k₁ k₂ m h₁ h₂
    rcases (hmem m k₁).1 h₁ with h₁ | ⟨rfl, rfl⟩
    · rcases (hmem m k₂).1 h₂ with h₂ | ⟨rfl, -⟩
      · exact h.single k₁ k₂ m h₁ h₂
      · exact absurd h₁ (howed k₁)
    · rcases (hmem _ k₂).1 h₂ with h₂ | ⟨-, rfl⟩
      · exact absurd h₂ (howed k₂)
      · rfl

/-- A debt that is paid at once. -/
theorem payNew (h : Ledger owed paid cancelled next) :
    Ledger owed (next :: paid) cancelled (next + 1) := by
  obtain ⟨hpaid, hcancelled, howed⟩ := h.fresh
  refine ⟨fun m => ?_, List.nodup_cons.2 ⟨hpaid, h.once⟩, ?_, h.cancelled, h.single⟩
  · rw [Nat.lt_succ_iff_lt_or_eq, h.total, List.mem_cons, or_comm, or_assoc]
  · rintro m hm
    rcases List.mem_cons.1 hm with rfl | hm
    · exact ⟨hcancelled, howed⟩
    · exact h.paid m hm

end Ledger
