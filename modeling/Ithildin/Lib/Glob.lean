import Mathlib.Data.List.Forall2
import Mathlib.Data.List.Infix
import Mathlib.Tactic.Common

/-!
# Patterns with wildcards

A pattern is a list of pieces: any run of a string, any one element, or a part that says for itself
what it takes from the front of a string.

* `Glob.Matches`: the strings that a pattern matches;
* `Glob.levels`: how often a run must be chosen before all of a pattern is placed;
* `Glob.Matches.of_alike`: patterns and strings that are alike piece by piece.
-/

namespace Glob

/-- A piece of a pattern. -/
inductive Piece (β : Type*)
  | many
  | one
  | part (b : β)
  deriving DecidableEq

open Piece

variable {α α' β β' : Type*}

/-- The strings that a pattern matches; `takes b s` is what the part `b` leaves of `s`. -/
def Matches (takes : β → List α → Option (List α)) : List (Piece β) → List α → Prop
  | [], s => s = []
  | many :: p, s => ∃ t, t <:+ s ∧ Matches takes p t
  | one :: p, s => ∃ x t, s = x :: t ∧ Matches takes p t
  | part b :: p, s => ∃ t, takes b s = some t ∧ Matches takes p t

/-- The number of times that a part has to be sought behind a run; `sought` if a run is open. -/
def levels (sought : Bool) : List (Piece β) → ℕ
  | [] => 0
  | many :: p => levels true p
  | one :: p => levels sought p
  | part _ :: p => levels false p + if sought then 1 else 0

section
variable {takes : β → List α → Option (List α)} {takes' : β' → List α' → Option (List α')}
variable {p : List (Piece β)} {p' : List (Piece β')} {s : List α} {s' : List α'} {b : β}

@[simp] theorem matches_nil : Matches takes [] s ↔ s = [] := Iff.rfl

@[simp] theorem matches_many : Matches takes [many] s := ⟨[], List.nil_suffix, rfl⟩

@[simp] theorem matches_one_nil : ¬ Matches takes (one :: p) [] := by
  simp [Matches]

@[simp] theorem matches_one_cons {x : α} :
    Matches takes (one :: p) (x :: s) ↔ Matches takes p s := by
  simp [Matches]

theorem matches_part :
    Matches takes (part b :: p) s ↔ ∃ t, takes b s = some t ∧ Matches takes p t := Iff.rfl

/-- Another run behind a run changes nothing. -/
theorem matches_many_many : Matches takes (many :: many :: p) s ↔ Matches takes (many :: p) s := by
  constructor
  · rintro ⟨t, ht, u, hu, h⟩
    exact ⟨u, hu.trans ht, h⟩
  · rintro ⟨t, ht, h⟩
    exact ⟨s, List.suffix_refl s, t, ht, h⟩

/-- Behind a run, one element may as well be taken from the front. -/
theorem matches_many_one_cons {x : α} :
    Matches takes (many :: one :: p) (x :: s) ↔ Matches takes (many :: p) s := by
  constructor
  · rintro ⟨t, ht, y, u, rfl, h⟩
    refine ⟨u, ?_, h⟩
    rcases List.suffix_cons_iff.1 ht with heq | htail
    · cases heq
      exact List.suffix_refl _
    · exact (List.suffix_cons y u).trans htail
  · rintro ⟨t, ht, h⟩
    obtain ⟨r, rfl⟩ := ht
    -- the element in front of the rest is the last one of what the run took, or `x`
    cases r using List.reverseRecOn with
    | nil => exact ⟨x :: t, List.suffix_refl _, x, t, rfl, h⟩
    | append_singleton r y =>
      exact ⟨y :: t, ⟨x :: r, by simp⟩, y, t, rfl, h⟩

@[simp] theorem matches_many_one_nil : ¬ Matches takes (many :: one :: p) [] := by
  rintro ⟨t, ht, x, u, rfl, h⟩
  simp at ht

@[simp] theorem levels_many (sought : Bool) :
    levels sought (many :: p) = levels true p := rfl

@[simp] theorem levels_one (sought : Bool) :
    levels sought (one :: p) = levels sought p := rfl

@[simp] theorem levels_part (sought : Bool) :
    levels sought (part b :: p) = levels false p + if sought then 1 else 0 := rfl

/-- In a pattern that matches, every part takes something from some end of the string. -/
theorem Matches.part_takes (hsuffix : ∀ b s t, takes b s = some t → t <:+ s)
    (h : Matches takes p s) (hb : part b ∈ p) : ∃ t u, t <:+ s ∧ takes b t = some u := by
  induction p generalizing s with
  | nil => cases hb
  | cons piece p ih =>
    cases piece with
    | many =>
      obtain ⟨t, ht, hp⟩ := h
      obtain ⟨u, v, hu, htakes⟩ := ih hp (by simpa using hb)
      exact ⟨u, v, hu.trans ht, htakes⟩
    | one =>
      obtain ⟨x, t, rfl, hp⟩ := h
      obtain ⟨u, v, hu, htakes⟩ := ih hp (by simpa using hb)
      exact ⟨u, v, hu.trans (List.suffix_cons x t), htakes⟩
    | part a =>
      obtain ⟨t, ht, hp⟩ := h
      rcases List.mem_cons.1 hb with heq | hb
      · cases heq
        exact ⟨s, t, List.suffix_refl s, ht⟩
      · obtain ⟨u, v, hu, htakes⟩ := ih hp hb
        exact ⟨u, v, hu.trans (hsuffix a s t ht), htakes⟩

/-! ### Patterns that are alike -/

/-- Pieces of one kind, with parts that `q` relates. -/
inductive Alike (q : β → β' → Prop) : Piece β → Piece β' → Prop
  | many : Alike q many many
  | one : Alike q one one
  | part {b : β} {b' : β'} (h : q b b') : Alike q (part b) (part b')

/-- An end of a string has its counterpart in a string that is alike. -/
theorem exists_suffix_of_forall₂ {r : α → α' → Prop} {t : List α} (hs : List.Forall₂ r s s')
    (ht : t <:+ s) : ∃ t', t' <:+ s' ∧ List.Forall₂ r t t' := by
  obtain ⟨u, rfl⟩ := ht
  refine ⟨s'.drop u.length, List.drop_suffix _ _, ?_⟩
  have hdrop := List.forall₂_drop u.length hs
  rwa [List.drop_left] at hdrop

/-- Patterns that are alike match strings that are alike, if their parts take what is alike. -/
theorem Matches.of_alike {q : β → β' → Prop} {r : α → α' → Prop}
    (htakes : ∀ b b' s s' t, q b b' → List.Forall₂ r s s' → takes b s = some t →
      ∃ t', takes' b' s' = some t' ∧ List.Forall₂ r t t')
    (hp : List.Forall₂ (Alike q) p p') (hs : List.Forall₂ r s s') (h : Matches takes p s) :
    Matches takes' p' s' := by
  induction hp generalizing s s' with
  | nil =>
    obtain rfl : s = [] := h
    obtain rfl : s' = [] := List.forall₂_nil_left_iff.1 hs
    rfl
  | cons hpiece hp ih =>
    cases hpiece with
    | many =>
      obtain ⟨t, ht, h⟩ := h
      obtain ⟨t', ht', halike⟩ := exists_suffix_of_forall₂ hs ht
      exact ⟨t', ht', ih halike h⟩
    | one =>
      obtain ⟨x, t, rfl, h⟩ := h
      obtain ⟨x', t', hx, ht, rfl⟩ := List.forall₂_cons_left_iff.1 hs
      exact ⟨x', t', rfl, ih ht h⟩
    | part hb =>
      obtain ⟨t, ht, h⟩ := h
      obtain ⟨t', ht', halike⟩ := htakes _ _ _ _ _ hb hs ht
      exact ⟨t', ht', ih halike h⟩

theorem levels_of_alike {q : β → β' → Prop} (sought : Bool) (hp : List.Forall₂ (Alike q) p p') :
    levels sought p = levels sought p' := by
  induction hp generalizing sought with
  | nil => rfl
  | cons hpiece hp ih => cases hpiece <;> simp [ih]

end

end Glob
