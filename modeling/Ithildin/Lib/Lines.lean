import Mathlib.Data.List.Basic

/-!
# Lines of a growing stream

A stream is cut at every newline into its finished runs; what follows the last newline is the
unfinished run.

* `finished`, `unfinished`: the two parts of `List.splitOn`;
* how they change when the stream grows by bytes without a newline, or by a newline;
* `framed n deliver l`: the lines handed on when a run is handed on at its newline, or as soon as
  `n` letters of it are there, whichever comes first.
-/

namespace Lines

variable {α : Type*} [DecidableEq α] (nl : α)

/-- The runs that a newline has ended. -/
def finished (l : List α) : List (List α) := (l.splitOn nl).dropLast

/-- The run that no newline has ended yet. -/
def unfinished (l : List α) : List α := (l.splitOn nl).getLastD []

/-- The lines handed on after the stream `l`. -/
def framed (n : ℕ) (deliver : List α → List α) (l : List α) : List (List α) :=
  (finished nl l ++ if n ≤ (unfinished nl l).length then [unfinished nl l] else []).map deliver

variable {nl}

theorem splitOn_eq (l : List α) : l.splitOn nl = finished nl l ++ [unfinished nl l] := by
  have hne : l.splitOn nl ≠ [] := List.splitOn_ne_nil nl l
  rw [unfinished, List.getLastD_eq_getLast?, List.getLast?_eq_some_getLast hne]
  exact (List.dropLast_append_getLast hne).symm

theorem finished_unfinished_of_splitOn {l t : List α} {rs : List (List α)}
    (h : l.splitOn nl = rs ++ [t]) : finished nl l = rs ∧ unfinished nl l = t := by
  rw [splitOn_eq] at h
  simpa using List.append_inj' h rfl

@[simp] theorem finished_nil : finished nl [] = [] := by simp [finished]

@[simp] theorem unfinished_nil : unfinished nl [] = [] := by simp [unfinished]

/-- A newline ends the unfinished run. -/
theorem finished_newline (nl : α) (l : List α) :
    finished nl (l ++ [nl]) = finished nl l ++ [unfinished nl l] ∧ unfinished nl (l ++ [nl]) = [] :=
  finished_unfinished_of_splitOn (by
    rw [List.splitOn_append_cons_self, List.splitOn_nil, splitOn_eq])

/-- Bytes without a newline extend the unfinished run. -/
theorem finished_append (l : List α) {run : List α} (h : nl ∉ run) :
    finished nl (l ++ run) = finished nl l ∧ unfinished nl (l ++ run) = unfinished nl l ++ run := by
  apply finished_unfinished_of_splitOn
  induction hn : l.length using Nat.strongRecOn generalizing l with
  | ind n ih =>
    by_cases hl : nl ∈ l
    · obtain ⟨a, b, rfl⟩ := List.append_of_mem hl
      have hb := ih b.length (by simp at hn; omega) b rfl
      have hsplit : (a ++ nl :: b).splitOn nl = a.splitOn nl ++ b.splitOn nl :=
        List.splitOn_append_cons_self a b
      rw [splitOn_eq b, ← List.append_assoc] at hsplit
      obtain ⟨hfin, hunf⟩ := finished_unfinished_of_splitOn hsplit
      rw [hfin, hunf, List.append_assoc, List.cons_append, List.splitOn_append_cons_self, hb,
        List.append_assoc]
    · have hlr : nl ∉ l ++ run := by simp [hl, h]
      have hsplit : l.splitOn nl = [] ++ [l] := List.splitOn_eq_singleton hl
      obtain ⟨hfin, hunf⟩ := finished_unfinished_of_splitOn hsplit
      rw [List.splitOn_eq_singleton hlr, hfin, hunf]
      rfl

/-! ### What a reader hands on while it consumes the stream -/

section
variable {n : ℕ} {deliver : List α → List α} {l run : List α}

@[simp] theorem framed_nil (hn : 0 < n) : framed nl n deliver [] = [] := by
  rw [framed, if_neg (by simp only [unfinished_nil, List.length_nil]; omega)]
  simp

theorem framed_of_lt (h : (unfinished nl l).length < n) :
    framed nl n deliver l = (finished nl l).map deliver := by
  simp [framed, h]

theorem framed_of_le (h : n ≤ (unfinished nl l).length) :
    framed nl n deliver l = (finished nl l).map deliver ++ [deliver (unfinished nl l)] := by
  simp [framed, h]

theorem framed_newline (hn : 0 < n) (l : List α) :
    framed nl n deliver (l ++ [nl]) =
      (finished nl l).map deliver ++ [deliver (unfinished nl l)] := by
  obtain ⟨hfin, hunf⟩ := finished_newline nl l
  rw [framed_of_lt (by simpa [hunf] using hn), hfin, List.map_append]
  rfl

/-- At a newline boundary, a run and its newline add one line. -/
theorem framed_line (hn : 0 < n) (hl : unfinished nl l = []) (hrun : nl ∉ run) :
    framed nl n deliver (l ++ run ++ [nl]) = framed nl n deliver l ++ [deliver run] := by
  obtain ⟨hfin, hunf⟩ := finished_append l hrun
  rw [framed_newline hn, hfin, hunf, hl, framed_of_lt (by simpa [hl] using hn)]
  rfl

/-- At a newline boundary, `n` letters without a newline add one line. -/
theorem framed_long (hn : 0 < n) (hl : unfinished nl l = []) (hrun : nl ∉ run)
    (hlen : n ≤ run.length) :
    framed nl n deliver (l ++ run) = framed nl n deliver l ++ [deliver run] := by
  obtain ⟨hfin, hunf⟩ := finished_append l hrun
  rw [framed_of_le (by simpa [hunf, hl] using hlen), hfin, hunf, hl,
    framed_of_lt (by simpa [hl] using hn)]
  rfl

/-- At a newline boundary, fewer than `n` letters without a newline add nothing. -/
theorem framed_short (hn : 0 < n) (hl : unfinished nl l = []) (hrun : nl ∉ run)
    (hlen : run.length < n) : framed nl n deliver (l ++ run) = framed nl n deliver l := by
  obtain ⟨hfin, hunf⟩ := finished_append l hrun
  rw [framed_of_lt (by simpa [hunf, hl] using hlen), hfin, framed_of_lt (by simpa [hl] using hn)]

/-- The rest of a run that was handed on early adds nothing. -/
theorem framed_rest (hd : ∀ a b, n ≤ a.length → deliver (a ++ b) = deliver a)
    (hl : n ≤ (unfinished nl l).length) (hrun : nl ∉ run) :
    framed nl n deliver (l ++ run) = framed nl n deliver l := by
  obtain ⟨hfin, hunf⟩ := finished_append l hrun
  rw [framed_of_le (by rw [hunf, List.length_append]; omega), framed_of_le hl, hfin, hunf,
    hd _ _ hl]

/-- Nor does its newline. -/
theorem framed_rest_line (hn : 0 < n) (hd : ∀ a b, n ≤ a.length → deliver (a ++ b) = deliver a)
    (hl : n ≤ (unfinished nl l).length) (hrun : nl ∉ run) :
    framed nl n deliver (l ++ run ++ [nl]) = framed nl n deliver l := by
  obtain ⟨hfin, hunf⟩ := finished_append l hrun
  rw [framed_newline hn, hfin, hunf, hd _ _ hl, framed_of_le hl]

end

end Lines
