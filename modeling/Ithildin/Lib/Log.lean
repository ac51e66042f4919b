import Ithildin.Lib.Run

/-!
# What a run puts down

`Run.log f s as` is what the steps of a run put down, one behind the other; `Run.run_log` is the
induction along a run with the log in view.
-/

namespace Run

variable {σ α β : Type*} (step : σ → α → Option σ)

/-- What the steps put down. -/
def log (f : σ → α → List β) : σ → List α → List β
  | _, [] => []
  | s, a :: as => f s a ++ ((step s a).map fun s' => log f s' as).getD []

variable {step} {f : σ → α → List β}

@[simp] theorem log_nil (s : σ) : log step f s [] = [] := rfl

theorem log_cons {s s' : σ} {a : α} {as : List α} (h : step s a = some s') :
    log step f s (a :: as) = f s a ++ log step f s' as := by
  rw [log, h]
  rfl

/-- An invariant of a state and what was put down before. -/
theorem run_log {I : σ → List β → Prop} {s t : σ} {as : List α} {l : List β}
    (hstep : ∀ s, ∀ a ∈ as, ∀ s' l, I s l → step s a = some s' → I s' (l ++ f s a)) (h0 : I s l)
    (hrun : run step s as = some t) : I t (l ++ log step f s as) := by
  induction as generalizing s l with
  | nil =>
    obtain rfl : s = t := Option.some.inj hrun
    rw [log_nil, List.append_nil]
    exact h0
  | cons a as ih =>
    obtain ⟨s', hs', hrest⟩ := run_cons_eq_some.1 hrun
    rw [log_cons hs', ← List.append_assoc]
    exact ih (fun s b hb => hstep s b (List.mem_cons_of_mem a hb))
      (hstep s a List.mem_cons_self s' l h0 hs') hrest

end Run
