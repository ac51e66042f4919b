import Mathlib.Data.Option.Basic
import Mathlib.Data.List.Basic

/-!
# Runs of a labelled step system

A step takes a state and an action to the next state, or to nothing when the action cannot happen
there.

* `run step s as`: the state after the actions `as`;
* `run_induction`: what holds at the start and is kept by every step, the actions so far in view,
  holds after every run;
* `Along G step s as`: every step of the run meets the condition `G`;
* `run_invariant`: an invariant that the steps meeting `G` keep;
* `along_of_along`, `along_iff`: a condition that implies another, or agrees with it, wherever it
  has kept an invariant;
* `forall_reached_iff`: a property that the steps meeting `G` keep, and the others do not;
* `along_behind`: the steps that are left meet the condition;
* `reached_of_along`, `along_of_reached`: what the steps meeting `G` keep holds in every state
  reached, and a run that ends well has only such steps if every other one leads to a bad end.
-/

namespace Run

variable {σ α : Type*} (step : σ → α → Option σ)

/-- The state after a list of actions. -/
def run : σ → List α → Option σ
  | s, [] => some s
  | s, a :: as => (step s a).bind fun s' => run s' as

/-- Every step of the run meets the condition. -/
def Along (G : σ → α → Prop) : σ → List α → Prop
  | _, [] => True
  | s, a :: as => G s a ∧ ∀ s', step s a = some s' → Along G s' as

variable {step}

instance Along.decidable {G : σ → α → Prop} [∀ s a, Decidable (G s a)] :
    ∀ (s : σ) (as : List α), Decidable (Along step G s as)
  | _, [] => isTrue trivial
  | s, a :: as =>
    match h : step s a with
    | none => decidable_of_iff (G s a) (by simp [Along, h])
    | some s' =>
      have : Decidable (Along step G s' as) := Along.decidable s' as
      decidable_of_iff (G s a ∧ Along step G s' as) (by simp [Along, h])

theorem run_nil (s : σ) : run step s [] = some s := rfl

theorem run_cons (s : σ) (a : α) (as : List α) :
    run step s (a :: as) = (step s a).bind fun s' => run step s' as := rfl

theorem run_single (s : σ) (a : α) : run step s [a] = step s a :=
  Option.bind_fun_some (step s a)

theorem run_cons_eq_some {s t : σ} {a : α} {as : List α} :
    run step s (a :: as) = some t ↔ ∃ s', step s a = some s' ∧ run step s' as = some t := by
  rw [run_cons, Option.bind_eq_some_iff]

theorem run_append {s : σ} {as bs : List α} :
    run step s (as ++ bs) = (run step s as).bind fun s' => run step s' bs := by
  induction as generalizing s with
  | nil => rfl
  | cons a as ih =>
    rw [List.cons_append, run_cons, run_cons]
    cases step s a with
    | none => rfl
    | some s' => exact ih

/-- Induction along a run, over the actions taken so far. -/
theorem run_induction {I : List α → σ → Prop} {s t : σ} {as : List α} (h0 : I [] s)
    (hstep : ∀ past s a s', I past s → step s a = some s' → I (past ++ [a]) s')
    (hrun : run step s as = some t) : I as t := by
  suffices ∀ past s, I past s → run step s as = some t → I (past ++ as) t from
    this [] s h0 hrun
  clear hrun h0
  induction as with
  | nil =>
    rintro past s hs hrun
    obtain rfl : s = t := Option.some.inj hrun
    simpa using hs
  | cons a as ih =>
    rintro past s hs hrun
    obtain ⟨s', hs', hrest⟩ := run_cons_eq_some.1 hrun
    simpa using ih (past ++ [a]) s' (hstep past s a s' hs hs') hrest

/-- An invariant of the steps that meet a condition holds after every run of such steps. -/
theorem run_invariant {I : σ → Prop} {G : σ → α → Prop} {s t : σ} {as : List α}
    (hstep : ∀ s a s', I s → G s a → step s a = some s' → I s')
    (h0 : I s) (hG : Along step G s as) (hrun : run step s as = some t) : I t := by
  induction as generalizing s with
  | nil =>
    obtain rfl : s = t := Option.some.inj hrun
    exact h0
  | cons a as ih =>
    obtain ⟨s', hs', hrest⟩ := run_cons_eq_some.1 hrun
    exact ih (hstep s a s' h0 hG.1 hs') (hG.2 s' hs') hrest

/-- A condition on steps that implies another one wherever it has kept an invariant. -/
theorem along_of_along {I : σ → Prop} {G G' : σ → α → Prop} {s : σ} {as : List α}
    (hI : ∀ s a s', I s → G s a → step s a = some s' → I s')
    (hG : ∀ s a, I s → G s a → G' s a) (hs : I s) (h : Along step G s as) :
    Along step G' s as := by
  induction as generalizing s with
  | nil => trivial
  | cons a as ih =>
    exact ⟨hG s a hs h.1, fun s' hs' => ih (hI s a s' hs h.1 hs') (h.2 s' hs')⟩

/-- Two conditions on steps that agree wherever the first has kept an invariant. -/
theorem along_iff {I : σ → Prop} {G G' : σ → α → Prop} {s : σ} {as : List α}
    (hI : ∀ s a s', I s → G s a → step s a = some s' → I s')
    (hG : ∀ s a, I s → (G s a ↔ G' s a)) (hs : I s) :
    Along step G s as ↔ Along step G' s as := by
  induction as generalizing s with
  | nil => exact Iff.rfl
  | cons a as ih =>
    constructor
    · rintro ⟨ha, hrest⟩
      exact ⟨(hG s a hs).mp ha, fun s' hs' => (ih (hI s a s' hs ha hs')).mp (hrest s' hs')⟩
    · rintro ⟨ha, hrest⟩
      have hGa := (hG s a hs).mpr ha
      exact ⟨hGa, fun s' hs' => (ih (hI s a s' hs hGa hs')).mpr (hrest s' hs')⟩

/-- If just the steps that meet a condition keep a property, it holds in every state reached exactly
when all steps meet the condition. -/
theorem forall_reached_iff {I P : σ → Prop} {G : σ → α → Prop} {s t : σ} {as : List α}
    (hI : ∀ s a s', I s → step s a = some s' → I s')
    (hP : ∀ s a s', I s → P s → step s a = some s' → (P s' ↔ G s a))
    (hs : I s) (hp : P s) (hrun : run step s as = some t) :
    (∀ before behind s', as = before ++ behind → run step s before = some s' → P s') ↔
      Along step G s as := by
  induction as generalizing s with
  | nil =>
    refine ⟨fun _ => trivial, fun _ before behind s' heq hs' => ?_⟩
    obtain ⟨rfl, -⟩ := List.append_eq_nil_iff.mp heq.symm
    obtain rfl : s = s' := Option.some.inj hs'
    exact hp
  | cons a as ih =>
    obtain ⟨s₁, hs₁, hrest⟩ := run_cons_eq_some.1 hrun
    constructor
    · intro h
      have hp₁ : P s₁ := h [a] as s₁ rfl ((run_single s a).trans hs₁)
      refine ⟨(hP s a s₁ hs hp hs₁).mp hp₁, fun s' hs' => ?_⟩
      obtain rfl : s₁ = s' := Option.some.inj (hs₁.symm.trans hs')
      refine (ih (hI s a s₁ hs hs₁) hp₁ hrest).mp fun before behind s' heq hs' => ?_
      exact h (a :: before) behind s' (by rw [heq]; rfl) (run_cons_eq_some.2 ⟨s₁, hs₁, hs'⟩)
    · rintro ⟨hG, halong⟩ before behind s' heq hs'
      have hp₁ := (hP s a s₁ hs hp hs₁).mpr hG
      cases before with
      | nil =>
        obtain rfl : s = s' := Option.some.inj hs'
        exact hp
      | cons b before =>
        obtain ⟨rfl, rfl⟩ := List.cons.inj heq
        obtain ⟨s₂, hs₂, hrest'⟩ := run_cons_eq_some.1 hs'
        obtain rfl : s₁ = s₂ := Option.some.inj (hs₁.symm.trans hs₂)
        exact (ih (hI s a s₁ hs hs₁) hp₁ hrest).mpr (halong s₁ hs₁) before behind s' rfl hrest'

/-- The rest of a run whose steps meet a condition. -/
theorem along_behind {G : σ → α → Prop} {s s' : σ} {before behind : List α}
    (hG : Along step G s (before ++ behind)) (hs' : run step s before = some s') :
    Along step G s' behind := by
  induction before generalizing s with
  | nil =>
    obtain rfl : s = s' := Option.some.inj hs'
    exact hG
  | cons a before ih =>
    obtain ⟨s₁, hs₁, hrest⟩ := run_cons_eq_some.1 hs'
    exact ih (hG.2 s₁ hs₁) hrest

/-- What the steps meeting a condition keep holds in every state reached by such steps. -/
theorem reached_of_along {I : σ → Prop} {G : σ → α → Prop} {s s' : σ} {before behind : List α}
    (hI : ∀ s a s', I s → G s a → step s a = some s' → I s') (hs : I s)
    (hG : Along step G s (before ++ behind)) (hs' : run step s before = some s') : I s' := by
  induction before generalizing s with
  | nil =>
    obtain rfl : s = s' := Option.some.inj hs'
    exact hs
  | cons a before ih =>
    obtain ⟨s₁, hs₁, hrest⟩ := run_cons_eq_some.1 hs'
    exact ih (hI s a s₁ hs hG.1 hs₁) (hG.2 s₁ hs₁) hrest

/-- A step that does not meet the condition leads to a doomed state, and a doomed state stays doomed
as long as the property holds: then a run in which the property holds throughout and whose end is
not doomed has only steps that meet the condition. -/
theorem along_of_reached {I D P : σ → Prop} {G : σ → α → Prop} {s t : σ} {as : List α}
    (hI : ∀ s a s', I s → G s a → step s a = some s' → I s')
    (hbad : ∀ s a s', I s → ¬ G s a → step s a = some s' → P s' → D s')
    (hD : ∀ s a s', D s → step s a = some s' → P s' → D s')
    (hs : I s) (hrun : run step s as = some t) (hend : ¬ D t)
    (h : ∀ before behind s', as = before ++ behind → run step s before = some s' → P s') :
    Along step G s as := by
  have hdoomed : ∀ (as : List α) (s : σ), D s → run step s as = some t →
      (∀ before behind s', as = before ++ behind → run step s before = some s' → P s') → D t := by
    intro as
    induction as with
    | nil =>
      intro s hs hrun _
      obtain rfl : s = t := Option.some.inj hrun
      exact hs
    | cons a as ih =>
      intro s hs hrun h
      obtain ⟨s₁, hs₁, hrest⟩ := run_cons_eq_some.1 hrun
      refine ih s₁ (hD s a s₁ hs hs₁ (h [a] as s₁ rfl ((run_single s a).trans hs₁))) hrest ?_
      intro before behind s' heq hs'
      exact h (a :: before) behind s' (by rw [heq]; rfl) (run_cons_eq_some.2 ⟨s₁, hs₁, hs'⟩)
  induction as generalizing s with
  | nil => trivial
  | cons a as ih =>
    obtain ⟨s₁, hs₁, hrest⟩ := run_cons_eq_some.1 hrun
    have hp : P s₁ := h [a] as s₁ rfl ((run_single s a).trans hs₁)
    have hreached : ∀ before behind s', as = before ++ behind → run step s₁ before = some s' →
        P s' := by
      intro before behind s' heq hs'
      exact h (a :: before) behind s' (by rw [heq]; rfl) (run_cons_eq_some.2 ⟨s₁, hs₁, hs'⟩)
    by_cases hG : G s a
    · refine ⟨hG, fun s' hs' => ?_⟩
      obtain rfl : s₁ = s' := Option.some.inj (hs₁.symm.trans hs')
      exact ih (hI s a s₁ hs hG hs₁) hrest hreached
    · exact absurd (hdoomed as s₁ (hbad s a s₁ hs hG hs₁ hp) hrest hreached) hend

end Run
