import Mathlib.Data.List.Basic
import Mathlib.Data.List.TakeWhile

/-!
# Splitting a line into fields

A line over an arbitrary alphabet is a run of fields set apart by separators.  A field whose
first letter is the lead letter takes everything that follows, separators included.

* `word`, `afterWord`, `trim`: the pieces one scanning loop passes over;
* `fields n l`: the fields of `l`, at most `n + 1` of them, the last one taking the rest;
* `fieldsRaw n l`: the same, except that the `n + 1`-st field keeps its lead letter;
* `remainder n l`: what is left of `l` after `n` plain fields;
* `Word`: what is one field wherever it stands; `fieldsRaw_words`: words set apart by separators are
  the fields again.
-/

namespace Tokens

variable {α : Type*}

/-! ### Scanning past one letter that stops every loop -/

theorem takeWhile_append_stop {p : α → Bool} {a : α} (ha : p a = false) (l r : List α) :
    (l ++ a :: r).takeWhile p = l.takeWhile p := by
  induction l with
  | nil => simp [ha]
  | cons c l ih => by_cases hc : p c <;> simp [hc, ih]

theorem drop_length_takeWhile (p : α → Bool) (l : List α) :
    l.drop (l.takeWhile p).length = l.dropWhile p := by
  induction l with
  | nil => rfl
  | cons c l ih => by_cases hc : p c <;> simp [hc, ih]

theorem length_takeWhile_add_dropWhile (p : α → Bool) (l : List α) :
    (l.takeWhile p).length + (l.dropWhile p).length = l.length := by
  rw [← List.length_append, List.takeWhile_append_dropWhile]

theorem takeWhile_congr {p q : α → Bool} {l : List α} (h : ∀ c ∈ l, p c = q c) :
    l.takeWhile p = l.takeWhile q := by
  induction l with
  | nil => rfl
  | cons c l ih =>
    have hl := ih fun d hd => h d (List.mem_cons_of_mem c hd)
    simp [List.takeWhile_cons, h c, hl]

theorem dropWhile_congr {p q : α → Bool} {l : List α} (h : ∀ c ∈ l, p c = q c) :
    l.dropWhile p = l.dropWhile q := by
  induction l with
  | nil => rfl
  | cons c l ih =>
    have hl := ih fun d hd => h d (List.mem_cons_of_mem c hd)
    simp [List.dropWhile_cons, h c, hl]

/-! ### Words -/

section
variable (sep : α → Bool)

/-- The run of letters before the first separator. -/
def word (l : List α) : List α := l.takeWhile fun c => !sep c

/-- What follows the first word. -/
def afterWord (l : List α) : List α := l.dropWhile fun c => !sep c

/-- The list less its leading separators. -/
def trim (l : List α) : List α := l.dropWhile sep

variable {sep}

theorem word_append_afterWord (sep : α → Bool) (l : List α) : word sep l ++ afterWord sep l = l :=
  List.takeWhile_append_dropWhile

theorem sep_of_mem_word {l : List α} {c : α} (h : c ∈ word sep l) : sep c = false := by
  simpa using List.mem_takeWhile_imp h

/-- A trimmed list does not start with a separator. -/
theorem sep_head_trim {l : List α} {c : α} {r : List α} (h : trim sep l = c :: r) :
    sep c = false := by
  induction l with
  | nil => simp [trim] at h
  | cons a l ih =>
    by_cases ha : sep a
    · exact ih (by simpa [trim, ha] using h)
    · obtain ⟨rfl, -⟩ : a = c ∧ l = r := by simpa [trim, ha] using h
      simpa using ha

theorem trim_of_not_sep {c : α} (h : sep c = false) (l : List α) : trim sep (c :: l) = c :: l := by
  simp [trim, h]

theorem trim_trim (l : List α) : trim sep (trim sep l) = trim sep l := by
  cases hl : trim sep l with
  | nil => rfl
  | cons c r => exact trim_of_not_sep (sep_head_trim hl) r

/-- What follows a word starts with a separator. -/
theorem sep_head_afterWord {l : List α} {c : α} {r : List α} (h : afterWord sep l = c :: r) :
    sep c = true := by
  have h' : trim (fun c => !sep c) l = c :: r := h
  simpa using sep_head_trim h'

/-- The end of a list, or a separator and what follows. -/
def Rest (sep : α → Bool) : List α → Prop
  | [] => True
  | c :: _ => sep c = true

theorem word_append {w r : List α} (hw : ∀ c ∈ w, sep c = false) (hr : Rest sep r) :
    word sep (w ++ r) = w := by
  induction w with
  | nil =>
    cases r with
    | nil => rfl
    | cons c r => simp [word, show sep c = true from hr]
  | cons c w ih =>
    have hc := hw c List.mem_cons_self
    have hrest := ih fun d hd => hw d (List.mem_cons_of_mem c hd)
    simp only [word, List.cons_append, List.takeWhile_cons, hc, Bool.not_false, if_true] at hrest ⊢
    rw [hrest]

theorem afterWord_append {w r : List α} (hw : ∀ c ∈ w, sep c = false) (hr : Rest sep r) :
    afterWord sep (w ++ r) = r := by
  have happend := word_append_afterWord sep (w ++ r)
  rw [word_append hw hr] at happend
  exact List.append_cancel_left happend

theorem trim_cons_sep {s : α} (hs : sep s = true) (l : List α) :
    trim sep (s :: l) = trim sep l := by
  simp [trim, hs]

/-- A field that is not the last one, wherever it stands. -/
def Word (sep : α → Bool) (lead : α) (w : List α) : Prop :=
  w ≠ [] ∧ (∀ c ∈ w, sep c = false) ∧ w.head? ≠ some lead

theorem Word.trim {lead : α} {w : List α} (hw : Word sep lead w) (r : List α) :
    Tokens.trim sep (w ++ r) = w ++ r := by
  obtain ⟨hne, hsep, -⟩ := hw
  cases w with
  | nil => exact absurd rfl hne
  | cons c w => exact trim_of_not_sep (hsep c List.mem_cons_self) (w ++ r)

end

/-! ### Fields -/

section
variable [DecidableEq α] (sep : α → Bool) (lead : α)

/-- The fields of a list that starts at a field, at most `n + 1` of them. -/
def fields : ℕ → List α → List (List α)
  | _, [] => []
  | 0, c :: l => [if c = lead then l else c :: l]
  | n + 1, c :: l =>
      if c = lead then [l]
      else word sep (c :: l) :: fields n (trim sep (afterWord sep (c :: l)))

/-- The fields, with the lead letter of the `n + 1`-st one kept. -/
def fieldsRaw : ℕ → List α → List (List α)
  | _, [] => []
  | 0, c :: l => [c :: l]
  | n + 1, c :: l =>
      if c = lead then [l]
      else word sep (c :: l) :: fieldsRaw n (trim sep (afterWord sep (c :: l)))

/-- What is left after `n` plain fields; nothing when a lead letter comes before. -/
def remainder : ℕ → List α → List α
  | 0, l => l
  | _ + 1, [] => []
  | n + 1, c :: l =>
      if c = lead then [] else remainder n (trim sep (afterWord sep (c :: l)))

@[simp] theorem fields_nil (n : ℕ) : fields sep lead n [] = [] := by
  cases n <;> rfl

@[simp] theorem fieldsRaw_nil (n : ℕ) : fieldsRaw sep lead n [] = [] := by
  cases n <;> rfl

theorem fields_zero (c : α) (l : List α) :
    fields sep lead 0 (c :: l) = [if c = lead then l else c :: l] := rfl

theorem fields_succ (n : ℕ) (c : α) (l : List α) :
    fields sep lead (n + 1) (c :: l) =
      if c = lead then [l]
      else word sep (c :: l) :: fields sep lead n (trim sep (afterWord sep (c :: l))) := rfl

theorem fieldsRaw_zero (c : α) (l : List α) : fieldsRaw sep lead 0 (c :: l) = [c :: l] := rfl

theorem fieldsRaw_succ (n : ℕ) (c : α) (l : List α) :
    fieldsRaw sep lead (n + 1) (c :: l) =
      if c = lead then [l]
      else word sep (c :: l) :: fieldsRaw sep lead n (trim sep (afterWord sep (c :: l))) := rfl

theorem remainder_zero (l : List α) : remainder sep lead 0 l = l := rfl

theorem remainder_nil (n : ℕ) : remainder sep lead n [] = [] := by
  cases n <;> rfl

theorem remainder_succ (n : ℕ) (c : α) (l : List α) :
    remainder sep lead (n + 1) (c :: l) =
      if c = lead then [] else remainder sep lead n (trim sep (afterWord sep (c :: l))) := rfl

variable {sep lead}

/-- The first field is a word. -/
theorem fieldsRaw_word {w r : List α} (hw : Word sep lead w) (hr : Rest sep r) (n : ℕ) :
    fieldsRaw sep lead (n + 1) (w ++ r) = w :: fieldsRaw sep lead n (trim sep r) := by
  obtain ⟨hne, hsep, hlead⟩ := hw
  cases w with
  | nil => exact absurd rfl hne
  | cons c w =>
    have hc : c ≠ lead := by simpa using hlead
    have hword := word_append hsep hr
    have hafter := afterWord_append hsep hr
    rw [List.cons_append] at hword hafter ⊢
    rw [fieldsRaw_succ, if_neg hc, hword, hafter]

/-- Words with a separator before each are fields; so is what follows them. -/
theorem fieldsRaw_words {s : α} (hs : sep s = true) {w : List α} {ws : List (List α)} {r : List α}
    (hw : Word sep lead w) (hws : ∀ v ∈ ws, Word sep lead v) (hr : Rest sep r) (n : ℕ) :
    fieldsRaw sep lead (n + ws.length + 1) (w ++ (ws.flatMap (fun v => s :: v) ++ r)) =
      w :: (ws ++ fieldsRaw sep lead n (trim sep r)) := by
  induction ws generalizing w with
  | nil => simpa using fieldsRaw_word hw hr n
  | cons v ws ih =>
    have hv := hws v List.mem_cons_self
    have hrest := ih hv fun u hu => hws u (List.mem_cons_of_mem v hu)
    rw [List.length_cons, ← Nat.add_assoc, List.flatMap_cons, List.cons_append, List.cons_append,
      List.append_assoc, fieldsRaw_word hw (show Rest sep (s :: _) from hs), trim_cons_sep hs,
      hv.trim, hrest, List.cons_append]

/-- The first field does not depend on how many there may be, from two on. -/
theorem head?_fieldsRaw (n : ℕ) (l : List α) :
    (fieldsRaw sep lead (n + 1) l).head? = (fieldsRaw sep lead 1 l).head? := by
  cases l with
  | nil => rfl
  | cons c l =>
    rw [fieldsRaw_succ, fieldsRaw_succ]
    split <;> rfl

/-- The fields, each with a separator, are together no longer than the list and one separator. -/
theorem length_flatMap_fieldsRaw (s : α) (n : ℕ) (l : List α) :
    ((fieldsRaw sep lead n l).flatMap fun v => s :: v).length ≤ l.length + 1 := by
  induction n generalizing l with
  | zero => cases l <;> simp [fieldsRaw_zero]
  | succ n ih =>
    cases l with
    | nil => simp
    | cons c l =>
      rw [fieldsRaw_succ]
      split
      · simp
      · have hlen := congrArg List.length (word_append_afterWord sep (c :: l))
        have hrest := ih (trim sep (afterWord sep (c :: l)))
        rw [List.length_append] at hlen
        rw [List.flatMap_cons, List.length_append, List.length_cons]
        cases hafter : afterWord sep (c :: l) with
        | nil =>
          simp only [hafter, trim, List.dropWhile_nil, fieldsRaw_nil, List.flatMap_nil,
            List.length_nil] at hlen ⊢
          omega
        | cons d r =>
          have htrim := (List.dropWhile_suffix (l := r) sep).length_le
          have hd := trim_cons_sep (sep_head_afterWord hafter) r
          rw [hafter] at hlen hrest
          rw [hd] at hrest ⊢
          rw [List.length_cons] at hlen
          simp only [trim] at hrest ⊢
          omega

end

end Tokens
