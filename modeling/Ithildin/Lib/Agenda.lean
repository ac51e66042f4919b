import Ithildin.Lib.Cursor
import Mathlib.Data.List.Pairwise
import Mathlib.Data.List.Perm.Basic
import Mathlib.Order.Lattice

/-!
# Lists ordered by a time

`insert time a l` puts an entry in front of the first one with a later time, and so keeps a list
ordered. `ahead key c l` is the rest of the list from the entry with the key `c` on: what a walk
that has come to this entry still meets.
-/

namespace Agenda

open Cursor

variable {α τ κ : Type*}

section Insert

variable [LinearOrder τ] (time : α → τ) {a b : α} {l : List α}

/-- In front of the first entry with a later time. -/
def insert (a : α) : List α → List α
  | [] => [a]
  | b :: l => if time a < time b then a :: b :: l else b :: insert a l

/-- No entry has a later time than one behind it. -/
def Ordered (l : List α) : Prop := l.Pairwise fun a b => time a ≤ time b

variable {time}

/-- Where the entry goes. -/
theorem insert_eq_append (a : α) (l : List α) : ∃ before later,
    l = before ++ later ∧ insert time a l = before ++ a :: later ∧
      (∀ b ∈ before, time b ≤ time a) ∧ ∀ b ∈ later.head?, time a < time b := by
  induction l with
  | nil => exact ⟨[], [], rfl, rfl, by simp, by simp⟩
  | cons b l ih =>
    rw [insert]
    split
    · rename_i hlt
      exact ⟨[], b :: l, rfl, rfl, by simp, by simpa using hlt⟩
    · rename_i hle
      obtain ⟨before, later, rfl, hins, hbefore, hlater⟩ := ih
      refine ⟨b :: before, later, rfl, by rw [hins]; rfl, ?_, hlater⟩
      rintro c hc
      rcases List.mem_cons.1 hc with rfl | hc
      · exact not_lt.1 hle
      · exact hbefore c hc

theorem perm_insert (a : α) (l : List α) : (insert time a l).Perm (a :: l) := by
  obtain ⟨before, later, rfl, hins, -, -⟩ := @insert_eq_append _ _ _ time a l
  rw [hins]
  exact List.perm_middle

theorem mem_insert : b ∈ insert time a l ↔ b = a ∨ b ∈ l := by
  rw [(perm_insert a l).mem_iff, List.mem_cons]

/-- In an ordered list everything behind the entry is later. -/
theorem Ordered.insert_eq_append (hl : Ordered time l) (a : α) : ∃ before later,
    l = before ++ later ∧ insert time a l = before ++ a :: later ∧
      (∀ b ∈ before, time b ≤ time a) ∧ ∀ b ∈ later, time a < time b := by
  obtain ⟨before, later, rfl, hins, hbefore, hhead⟩ := @Agenda.insert_eq_append _ _ _ time a l
  refine ⟨before, later, rfl, hins, hbefore, ?_⟩
  cases later with
  | nil => simp
  | cons c later =>
    have hc : time a < time c := hhead c rfl
    rintro b hb
    rcases List.mem_cons.1 hb with rfl | hb
    · exact hc
    · exact hc.trans_le ((List.pairwise_cons.1 (List.pairwise_append.1 hl).2.1).1 b hb)

theorem Ordered.insert (hl : Ordered time l) (a : α) : Ordered time (insert time a l) := by
  obtain ⟨before, later, rfl, hins, hbefore, hlater⟩ := hl.insert_eq_append a
  obtain ⟨hb, hlat, hcross⟩ := List.pairwise_append.1 hl
  rw [hins, Ordered]
  refine List.pairwise_append.2 ⟨hb, List.pairwise_cons.2 ⟨fun b hb => (hlater b hb).le, hlat⟩, ?_⟩
  rintro b hb c hc
  rcases List.mem_cons.1 hc with rfl | hc
  · exact hbefore b hb
  · exact hcross b hb c hc

theorem Ordered.filter (hl : Ordered time l) (p : α → Bool) : Ordered time (l.filter p) :=
  List.Pairwise.filter p hl

end Insert

/-! ### What is ahead -/

variable [DecidableEq κ] (key : α → κ)

/-- The entries from the one with the key `c` on. -/
def ahead (c : κ) : List α → List α
  | [] => []
  | a :: l => if key a = c then a :: l else ahead c l

variable {key} {c : κ} {a b : α} {l l₁ l₂ : List α}

theorem ahead_cons_of_ne (h : key a ≠ c) : ahead key c (a :: l) = ahead key c l := if_neg h

theorem ahead_cons_self : ahead key (key a) (a :: l) = a :: l := if_pos rfl

theorem ahead_suffix : ahead key c l <:+ l := by
  induction l with
  | nil => exact List.suffix_rfl
  | cons a l ih =>
    rw [ahead]
    split
    · exact List.suffix_rfl
    · exact ih.trans (List.suffix_cons a l)

/-- What is ahead is the entry and what is behind it. -/
theorem ahead_eq_cons (ha : a ∈ l) (hl : (l.map key).Nodup) :
    ahead key (key a) l = a :: behind key (key a) l := by
  induction l with
  | nil => cases ha
  | cons b l ih =>
    rw [List.map_cons, List.nodup_cons] at hl
    rcases List.mem_cons.1 ha with rfl | ha
    · rw [ahead_cons_self, behind_cons_self]
    · have hne : key b ≠ key a := fun heq => hl.1 (heq ▸ List.mem_map_of_mem ha)
      rw [ahead_cons_of_ne hne, behind_cons_of_ne hne, ih ha hl.2]

theorem ahead_append (h : c ∈ l₁.map key) : ahead key c (l₁ ++ l₂) = ahead key c l₁ ++ l₂ := by
  induction l₁ with
  | nil => cases h
  | cons b l₁ ih =>
    by_cases hb : key b = c
    · subst hb
      rw [List.cons_append, ahead_cons_self, ahead_cons_self, List.cons_append]
    · rw [List.map_cons, List.mem_cons] at h
      rw [List.cons_append, ahead_cons_of_ne hb, ahead_cons_of_ne hb,
        ih (h.resolve_left (Ne.symm hb))]

theorem ahead_append_of_notMem (h : c ∉ l₁.map key) :
    ahead key c (l₁ ++ l₂) = ahead key c l₂ := by
  induction l₁ with
  | nil => rfl
  | cons b l₁ ih =>
    rw [List.map_cons, List.mem_cons, not_or] at h
    rw [List.cons_append, ahead_cons_of_ne (Ne.symm h.1), ih h.2]

/-- An entry that is put in elsewhere leaves what is ahead there. -/
theorem mem_ahead_middle (hne : key a ≠ c) (h : b ∈ ahead key c (l₁ ++ l₂)) :
    b ∈ ahead key c (l₁ ++ a :: l₂) := by
  by_cases hc : c ∈ l₁.map key
  · rw [ahead_append hc, List.mem_append] at h ⊢
    exact h.imp_right (List.mem_cons_of_mem a)
  · rw [ahead_append_of_notMem hc] at h ⊢
    rwa [ahead_cons_of_ne hne]

/-- What is taken out elsewhere leaves what is ahead there. -/
theorem mem_ahead_filter {p : α → Bool} (hc : ∀ a ∈ l, key a = c → p a = true)
    (h : b ∈ ahead key c l) (hb : p b = true) : b ∈ ahead key c (l.filter p) := by
  induction l with
  | nil => cases h
  | cons a l ih =>
    by_cases ha : key a = c
    · subst ha
      rw [ahead_cons_self] at h
      rw [List.filter_cons_of_pos (hc a List.mem_cons_self rfl), ahead_cons_self,
        ← List.filter_cons_of_pos (hc a List.mem_cons_self rfl)]
      exact List.mem_filter.2 ⟨h, hb⟩
    · rw [ahead_cons_of_ne ha] at h
      have hrest := ih (fun a' ha' => hc a' (List.mem_cons_of_mem a ha')) h
      by_cases hp : p a = true
      · rw [List.filter_cons_of_pos hp, ahead_cons_of_ne ha]
        exact hrest
      · rwa [List.filter_cons_of_neg hp]

section Insert

variable [LinearOrder τ] {time : α → τ}

theorem mem_ahead_insert (hne : key a ≠ c) (h : b ∈ ahead key c l) :
    b ∈ ahead key c (insert time a l) := by
  obtain ⟨before, later, rfl, hins, -, -⟩ := @insert_eq_append _ _ _ time a l
  rw [hins]
  exact mem_ahead_middle hne h

/-- A new entry is ahead of a walk that has come to an entry with no later time. -/
theorem self_mem_ahead_insert (hl : Ordered time l) (hb : b ∈ l) (hle : time b ≤ time a) :
    a ∈ ahead key (key b) (insert time a l) := by
  obtain ⟨before, later, rfl, hins, -, hlater⟩ := hl.insert_eq_append a
  rcases List.mem_append.1 hb with hb | hb
  · rw [hins, ahead_append (List.mem_map_of_mem hb)]
    exact List.mem_append_right _ List.mem_cons_self
  · exact absurd (hlater b hb) (not_lt.2 hle)

theorem mem_ahead_self (ha : a ∈ l) (hl : (l.map key).Nodup) : a ∈ ahead key (key a) l := by
  rw [ahead_eq_cons ha hl]
  exact List.mem_cons_self

theorem notMem_behind (ha : a ∈ l) (hl : (l.map key).Nodup) :
    key a ∉ (behind key (key a) l).map key := by
  have hsub : (a :: behind key (key a) l).Sublist l := by
    rw [← ahead_eq_cons ha hl]
    exact ahead_suffix.sublist
  exact (List.nodup_cons.1 (hl.sublist (hsub.map key))).1

/-- The walk goes on to the next entry. -/
theorem ahead_next {a' : α} (hl : (l.map key).Nodup) (h : behind key (key a) l = a' :: l₁) :
    ahead key (key a') l = a' :: l₁ := by
  have hmem : a' ∈ l := behind_suffix.subset (h ▸ List.mem_cons_self)
  rw [ahead_eq_cons hmem hl, @behind_of_append _ _ _ key _ _ _ [] _ hl h]

/-- What is later than a new entry is ahead of a walk that has come to the new one. -/
theorem mem_ahead_insert_self (hnew : key a ∉ l.map key) (hb : b ∈ l) (hlt : time a < time b) :
    b ∈ ahead key (key a) (insert time a l) := by
  obtain ⟨before, later, rfl, hins, hbefore, -⟩ := @insert_eq_append _ _ _ time a l
  rw [List.map_append, List.mem_append, not_or] at hnew
  rw [hins, ahead_append_of_notMem hnew.1, ahead_cons_self]
  rcases List.mem_append.1 hb with hb | hb
  · exact absurd (hbefore b hb) (not_le.2 hlt)
  · exact List.mem_cons_of_mem a hb

/-- The walk meets nothing that is before the entry it has come to. -/
theorem Ordered.le_of_mem_ahead (hl : Ordered time l) (ha : a ∈ l) (hk : (l.map key).Nodup)
    (hb : b ∈ ahead key (key a) l) : time a ≤ time b := by
  rw [ahead_eq_cons ha hk] at hb
  have hord : (ahead key (key a) l).Pairwise fun a b => time a ≤ time b :=
    List.Pairwise.sublist ahead_suffix.sublist hl
  rw [ahead_eq_cons ha hk, List.pairwise_cons] at hord
  rcases List.mem_cons.1 hb with rfl | hb
  · exact le_rfl
  · exact hord.1 b hb

end Insert

end Agenda
