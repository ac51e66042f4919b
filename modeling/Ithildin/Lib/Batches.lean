import Ithildin.Lib.Run
import Mathlib.Data.List.Flatten
import Mathlib.Tactic.Common

/-!
# Items in batches

Items are put into a batch one after the other, as long as the batch has room. A batch may be closed
before an item that it should not take, and behind one that fills it.

* `Batches.Rules`, `Batches.step`, `Batches.run`: the rules, one item, and a list of them;
* `Batches.Packs`: every item has room in its batch;
* `Batches.run_isSome`: the run comes to its end just if they have;
* `Batches.foldlM_eq_run`, `Batches.foldlM_eq_run_flatMap`: loops that do what the run does;
* `Batches.flatten_run`: then the batches hold the items in order;
* `Batches.ne_nil_of_run`, `Batches.length_le_of_run`: no batch is empty, or longer than the rules
  let it be.
-/

namespace Batches

/-- When a batch is closed before an item, whether it has room for the item, and when it is closed
behind it. -/
structure Rules (α : Type*) where
  early : List α → α → Bool
  fits : List α → α → Bool
  late : List α → α → Bool

/-- The batches that are closed, and the open one. -/
structure Packing (α : Type*) where
  done : List (List α)
  cur : List α

variable {α : Type*} (R : Rules α)

/-- The open batch is closed. -/
def Packing.close (p : Packing α) : Packing α := ⟨p.done ++ [p.cur], []⟩

/-- All batches; an open one counts if there is something in it. -/
def Packing.batches (p : Packing α) : List (List α) :=
  p.done ++ if p.cur.isEmpty then [] else [p.cur]

/-- A batch that should not take the item is closed. -/
def Packing.early (p : Packing α) (x : α) : Packing α := if R.early p.cur x then p.close else p

/-- The item goes into the batch, which is closed if it is full then. -/
def Packing.put (p : Packing α) (x : α) : Packing α :=
  let q : Packing α := ⟨p.done, p.cur ++ [x]⟩
  if R.late p.cur x then q.close else q

/-- One item; `none` when there is no room for it. -/
def step (p : Packing α) (x : α) : Option (Packing α) :=
  if R.fits (p.early R x).cur x then some ((p.early R x).put R x) else none

/-- A list of items. -/
def run (p : Packing α) (l : List α) : Option (Packing α) := Run.run (step R) p l

/-- The batch that an item goes into. -/
def before (cur : List α) (x : α) : List α := if R.early cur x then [] else cur

/-- The batch behind an item. -/
def behind (cur : List α) (x : α) : List α :=
  if R.late (before R cur x) x then [] else before R cur x ++ [x]

/-- Every item has room in its batch. -/
def Packs : List α → List α → Prop
  | _, [] => True
  | cur, x :: l => R.fits (before R cur x) x = true ∧ Packs (behind R cur x) l

instance decidablePacks : ∀ cur l : List α, Decidable (Packs R cur l)
  | _, [] => isTrue trivial
  | cur, x :: l =>
    have : Decidable (Packs R (behind R cur x) l) := decidablePacks (behind R cur x) l
    inferInstanceAs (Decidable (_ ∧ Packs R (behind R cur x) l))

variable {R}

@[simp] theorem run_nil (p : Packing α) : run R p [] = some p := rfl

theorem run_cons (p : Packing α) (x : α) (l : List α) :
    run R p (x :: l) = (step R p x).bind fun q => run R q l := rfl

theorem run_append (p : Packing α) (l l' : List α) :
    run R p (l ++ l') = (run R p l).bind fun q => run R q l' := Run.run_append

/-- A loop whose rounds do what the steps do, with a state that the packing stands for, does what
the run does. -/
theorem foldlM_eq_run {σ : Type*} {f : σ → α → Option σ} {render : Packing α → σ}
    {l : List α} (h : ∀ p, ∀ x ∈ l, f (render p) x = (step R p x).map render) (p : Packing α) :
    l.foldlM f (render p) = (run R p l).map render := by
  induction l generalizing p with
  | nil => rfl
  | cons x l ih =>
    rw [List.foldlM_cons, h p x List.mem_cons_self, run_cons]
    cases step R p x with
    | none => rfl
    | some q => exact ih (fun p y hy => h p y (List.mem_cons_of_mem x hy)) q

/-- The same for a loop that has a loop in each of its rounds. -/
theorem foldlM_eq_run_flatMap {β σ : Type*} {g : σ → β → Option σ} {items : β → List α}
    {render : Packing α → σ} {l : List β}
    (h : ∀ p, ∀ b ∈ l, g (render p) b = (run R p (items b)).map render) (p : Packing α) :
    l.foldlM g (render p) = (run R p (l.flatMap items)).map render := by
  induction l generalizing p with
  | nil => rfl
  | cons b l ih =>
    rw [List.foldlM_cons, h p b List.mem_cons_self, List.flatMap_cons, run_append]
    cases run R p (items b) with
    | none => rfl
    | some q => exact ih (fun p y hy => h p y (List.mem_cons_of_mem b hy)) q

theorem cur_early (p : Packing α) (x : α) : (p.early R x).cur = before R p.cur x := by
  unfold Packing.early before
  split <;> rfl

theorem cur_put (p : Packing α) (x : α) :
    (p.put R x).cur = if R.late p.cur x then [] else p.cur ++ [x] := by
  unfold Packing.put
  dsimp only
  split <;> rfl

theorem flatten_early (p : Packing α) (x : α) :
    (p.early R x).done.flatten ++ (p.early R x).cur = p.done.flatten ++ p.cur := by
  unfold Packing.early
  split
  · simp [Packing.close]
  · rfl

theorem flatten_put (p : Packing α) (x : α) :
    (p.put R x).done.flatten ++ (p.put R x).cur = p.done.flatten ++ p.cur ++ [x] := by
  unfold Packing.put
  dsimp only
  split
  · simp [Packing.close]
  · simp

/-- What one item does. -/
theorem step_eq_some {p q : Packing α} {x : α} :
    step R p x = some q ↔ R.fits (before R p.cur x) x = true ∧ q = (p.early R x).put R x := by
  unfold step
  rw [cur_early]
  split
  · rename_i hfits
    simp [hfits, eq_comm]
  · rename_i hfits
    simp [hfits]

theorem cur_step {p q : Packing α} {x : α} (h : step R p x = some q) :
    q.cur = behind R p.cur x := by
  obtain ⟨-, rfl⟩ := step_eq_some.1 h
  rw [cur_put, cur_early]
  rfl

/-- The run comes to its end just if every item has room. -/
theorem run_isSome {p : Packing α} {l : List α} : (run R p l).isSome ↔ Packs R p.cur l := by
  induction l generalizing p with
  | nil => simp [Packs]
  | cons x l ih =>
    rw [run_cons, Packs]
    cases hstep : step R p x with
    | none =>
      refine iff_of_false (by simp) fun h => ?_
      rw [step_eq_some.2 ⟨h.1, rfl⟩] at hstep
      cases hstep
    | some q => rw [Option.bind_some, ih, cur_step hstep, and_iff_right (step_eq_some.1 hstep).1]

/-- Items that have room in any batch they may be put into. -/
theorem packs_of_fits {l : List α} (h : ∀ cur, ∀ x ∈ l, R.fits (before R cur x) x = true)
    (cur : List α) : Packs R cur l := by
  induction l generalizing cur with
  | nil => trivial
  | cons x l ih =>
    exact ⟨h cur x List.mem_cons_self,
      ih (fun cur y hy => h cur y (List.mem_cons_of_mem x hy)) (behind R cur x)⟩

theorem flatten_batches (p : Packing α) : p.batches.flatten = p.done.flatten ++ p.cur := by
  unfold Packing.batches
  rw [List.flatten_append]
  cases p.cur with
  | nil => rfl
  | cons x l => simp

/-- The batches hold the items in order. -/
theorem flatten_run {p q : Packing α} {l : List α} (h : run R p l = some q) :
    q.batches.flatten = p.batches.flatten ++ l := by
  induction l generalizing p with
  | nil =>
    cases h
    rw [List.append_nil]
  | cons x l ih =>
    obtain ⟨p', hstep, hrest⟩ := Option.bind_eq_some_iff.1 h
    obtain ⟨-, rfl⟩ := step_eq_some.1 hstep
    rw [ih hrest, flatten_batches, flatten_put, flatten_early, ← flatten_batches,
      List.append_assoc, List.singleton_append]

/-- If an empty batch is closed only before what has no room anywhere, no batch is empty. -/
theorem ne_nil_of_run (hR : ∀ x, R.early [] x = true → R.fits [] x = false) {q : Packing α}
    {l : List α} (h : run R ⟨[], []⟩ l = some q) : ∀ b ∈ q.batches, b ≠ [] := by
  have hdone : ∀ b ∈ q.done, b ≠ [] := by
    refine Run.run_induction (I := fun _ (p : Packing α) => ∀ b ∈ p.done, b ≠ [])
      (s := ⟨[], []⟩) (by simp) ?_ (show Run.run (step R) _ l = some q from h)
    intro _ p x p' hp hstep
    obtain ⟨hfits, rfl⟩ := step_eq_some.1 hstep
    have hearly : ∀ b ∈ (p.early R x).done, b ≠ [] := by
      unfold Packing.early
      split
      · rename_i hx
        have hne : p.cur ≠ [] := by
          intro hnil
          rw [before, if_pos hx, hR x (hnil ▸ hx)] at hfits
          cases hfits
        simpa [Packing.close, or_imp, forall_and] using And.intro hp hne
      · exact hp
    unfold Packing.put
    dsimp only
    split
    · simpa [Packing.close, or_imp, forall_and] using hearly
    · exact hearly
  intro b hb
  unfold Packing.batches at hb
  rcases List.mem_append.1 hb with hb | hb
  · exact hdone b hb
  · split at hb
    · cases hb
    · rename_i hne
      obtain rfl := List.mem_singleton.1 hb
      exact fun hnil => hne (by rw [hnil]; rfl)

/-- If a batch is closed behind its `n`-th item, no batch is longer than that. -/
theorem length_le_of_run {n : ℕ} (hn : 0 < n)
    (hR : ∀ cur x, cur.length + 1 = n → R.late cur x = true) {q : Packing α} {l : List α}
    (h : run R ⟨[], []⟩ l = some q) : ∀ b ∈ q.batches, b.length ≤ n := by
  have hq : (∀ b ∈ q.done, b.length ≤ n) ∧ q.cur.length < n := by
    refine Run.run_induction
      (I := fun _ (p : Packing α) => (∀ b ∈ p.done, b.length ≤ n) ∧ p.cur.length < n)
      (s := ⟨[], []⟩) ⟨by simp, hn⟩ ?_ (show Run.run (step R) _ l = some q from h)
    intro _ p x p' hp hstep
    obtain ⟨-, rfl⟩ := step_eq_some.1 hstep
    have hearly : (∀ b ∈ (p.early R x).done, b.length ≤ n) ∧ (p.early R x).cur.length < n := by
      unfold Packing.early
      split
      · constructor
        · simpa [Packing.close, or_imp, forall_and] using And.intro hp.1 (Nat.le_of_lt hp.2)
        · exact hn
      · exact hp
    generalize p.early R x = p' at hearly
    unfold Packing.put
    dsimp only
    split
    · constructor
      · simpa [Packing.close, or_imp, forall_and] using
          And.intro hearly.1 (Nat.succ_le_of_lt hearly.2)
      · exact hn
    · rename_i hlate
      have hne : p'.cur.length + 1 ≠ n := fun heq => hlate (hR _ _ heq)
      have hlt := hearly.2
      refine ⟨hearly.1, ?_⟩
      simp only [List.length_append, List.length_singleton]
      omega
  intro b hb
  unfold Packing.batches at hb
  rcases List.mem_append.1 hb with hb | hb
  · exact hq.1 b hb
  · split at hb
    · cases hb
    · obtain rfl := List.mem_singleton.1 hb
      exact Nat.le_of_lt hq.2

end Batches
