import Mathlib.Data.List.Basic
import Mathlib.Data.List.Nodup

/-!
# Lists that are walked while they change

A walk over a linked list stands on an entry while the list is changed. The entries are told apart
by a key; `behind key c l` is what the walk still has before it when it stands on the entry `c`.

Insertions and deletions away from that entry commute with `behind`, so that a walk sees of them
just what is behind it.

`Yields` is for walks that start anew with each call: `yields_iff` tells when the calls return the
entries that are asked for.
-/

namespace Cursor

variable {α κ : Type*} [DecidableEq κ] (key : α → κ)

/-- The entries behind the one with the key `c`. -/
def behind (c : κ) : List α → List α
  | [] => []
  | a :: l => if key a = c then l else behind c l

variable {key} {c : κ} {l : List α}

theorem behind_cons_self {a : α} : behind key (key a) (a :: l) = l :=
  if_pos rfl

theorem behind_cons_of_ne {a : α} (h : key a ≠ c) : behind key c (a :: l) = behind key c l :=
  if_neg h

theorem behind_suffix : behind key c l <:+ l := by
  induction l with
  | nil => exact List.suffix_rfl
  | cons a l ih =>
    rw [behind]
    split
    · exact List.suffix_cons a l
    · exact ih.trans (List.suffix_cons a l)

theorem behind_append {a : α} {r : List α} (h : key a ∉ l.map key) :
    behind key (key a) (l ++ a :: r) = r := by
  induction l with
  | nil => exact behind_cons_self
  | cons b l ih =>
    rw [List.map_cons, List.mem_cons, not_or] at h
    rw [List.cons_append, behind_cons_of_ne (Ne.symm h.1), ih h.2]

theorem behind_map {f : α → α} (hf : ∀ a, key (f a) = key a) :
    behind key c (l.map f) = (behind key c l).map f := by
  induction l with
  | nil => rfl
  | cons a l ih =>
    by_cases ha : key a = c
    · subst ha
      rw [List.map_cons, behind_cons_self, ← hf a, behind_cons_self]
    · rw [List.map_cons, behind_cons_of_ne ha, behind_cons_of_ne ((hf a).trans_ne ha), ih]

/-- What is deleted from the list is deleted behind the walk, if it is not where the walk stands. -/
theorem behind_filter {p : α → Bool} (hc : ∀ a ∈ l, key a = c → p a = true) :
    behind key c (l.filter p) = (behind key c l).filter p := by
  induction l with
  | nil => rfl
  | cons a l ih =>
    have hl : ∀ b ∈ l, key b = c → p b = true := fun b hb => hc b (List.mem_cons_of_mem a hb)
    by_cases ha : key a = c
    · subst ha
      rw [List.filter_cons_of_pos (hc a List.mem_cons_self rfl), behind_cons_self,
        behind_cons_self]
    · rw [behind_cons_of_ne ha, ← ih hl]
      by_cases hp : p a = true
      · rw [List.filter_cons_of_pos hp, behind_cons_of_ne ha]
      · rw [List.filter_cons_of_neg hp]

/-- A new entry is not counted behind the walk if it would not be counted anywhere. -/
theorem countP_behind_insertIdx {q : α → Bool} {x : α} (hq : q x = false) (hx : key x ≠ c)
    (n : ℕ) : (behind key c (l.insertIdx n x)).countP q = (behind key c l).countP q := by
  induction l generalizing n with
  | nil =>
    cases n with
    | zero => simp [behind, hx]
    | succ n => rfl
  | cons a l ih =>
    cases n with
    | zero => rw [List.insertIdx_zero, behind_cons_of_ne hx]
    | succ n =>
      rw [List.insertIdx_succ_cons]
      by_cases ha : key a = c
      · subst ha
        rw [behind_cons_self, behind_cons_self]
        -- behind the walk the new entry is there, but it does not count
        by_cases hn : n ≤ l.length
        · rw [(List.perm_insertIdx x l hn).countP_eq, List.countP_cons_of_neg (by simp [hq])]
        · rw [List.insertIdx_of_length_lt (by omega)]
      · rw [behind_cons_of_ne ha, behind_cons_of_ne ha, ih]

/-- The walk goes on to an entry that was behind it. -/
theorem behind_of_append {a : α} {l₁ l₂ : List α} (hl : (l.map key).Nodup)
    (h : behind key c l = l₁ ++ a :: l₂) : behind key (key a) l = l₂ := by
  induction l with
  | nil => simp [behind] at h
  | cons b l ih =>
    rw [List.map_cons, List.nodup_cons] at hl
    by_cases hb : key b = c
    · subst hb
      rw [behind_cons_self] at h
      have hne : key b ≠ key a := by
        rintro heq
        exact hl.1 (heq ▸ List.mem_map_of_mem (by rw [h]; simp))
      have hnot : key a ∉ l₁.map key := by
        rw [h, List.map_append, List.map_cons] at hl
        exact fun hmem => (List.nodup_append.mp hl.2).2.2 _ hmem _ List.mem_cons_self rfl
      rw [behind_cons_of_ne hne, h, behind_append hnot]
    · rw [behind_cons_of_ne hb] at h
      have hne : key b ≠ key a := by
        rintro heq
        have hmem : a ∈ behind key c l := by rw [h]; simp
        have hmem := behind_suffix.subset hmem
        exact hl.1 (heq ▸ List.mem_map_of_mem hmem)
      rw [behind_cons_of_ne hne, ih hl.2 h]

/-! ### Entries one call at a time -/

variable {bad stop : α → Bool} {next : Option κ → Option (Option κ)}

/-- The first entry to stop at; nothing comes of it if there is a bad one before. -/
def scan (bad stop : α → Bool) : List α → Option (Option α)
  | [] => some none
  | a :: l => if bad a then none else if stop a then some (some a) else scan bad stop l

/-- What calls return until one returns nothing, each being given what the one before returned. -/
inductive Yields (next : Option κ → Option (Option κ)) : Option κ → List κ → Prop
  | done {last : Option κ} : next last = some none → Yields next last []
  | more {last : Option κ} {c : κ} {cs : List κ} :
      next last = some (some c) → Yields next (some c) cs → Yields next last (c :: cs)

omit [DecidableEq κ] in
theorem Yields.ne_none {last : Option κ} {cs : List κ} (h : Yields next last cs) :
    next last ≠ none := by
  cases h with
  | done h => simp [h]
  | more h => simp [h]

omit [DecidableEq κ] in
theorem yields_cons_iff {last : Option κ} {c : κ} {cs : List κ} (h : next last = some (some c)) :
    Yields next last (c :: cs) ↔ Yields next (some c) cs := by
  refine ⟨fun hc => ?_, .more h⟩
  cases hc with
  | more _ hcs => exact hcs

omit [DecidableEq κ] in
/-- Calls that scan on behind the entry that was returned last return the entries to stop at, in
order, exactly if no entry is bad. -/
theorem yields_iff {name : α → Option κ} (rest : Option κ → List α) (l : List α)
    (hstart : rest none = l)
    (hnext : ∀ last, next last = (scan bad stop (rest last)).map (·.bind name))
    (hrest : ∀ before a after, l = before ++ a :: after → stop a = true →
      ∃ c, name a = some c ∧ rest (some c) = after) :
    Yields next none ((l.filter stop).filterMap name) ↔ ∀ a ∈ l, bad a = false := by
  have hbehind : ∀ r, r <:+ l → ∀ last, scan bad stop (rest last) = scan bad stop r →
      (Yields next last ((r.filter stop).filterMap name) ↔ ∀ a ∈ r, bad a = false) := by
    intro r
    induction r with
    | nil =>
      intro _ last hlast
      refine iff_of_true (.done ?_) (by simp)
      rw [hnext, hlast]
      rfl
    | cons a r ih =>
      intro hr last hlast
      have hr' : r <:+ l := (List.suffix_cons a r).trans hr
      rw [List.forall_mem_cons]
      rw [scan] at hlast
      cases hbad : bad a with
      | true =>
        refine iff_of_false (fun h => h.ne_none ?_) (by simp)
        rw [hnext, hlast, hbad]
        rfl
      | false =>
        rw [hbad, if_neg Bool.false_ne_true] at hlast
        cases hstop : stop a with
        | true =>
          obtain ⟨before, heq⟩ := hr
          obtain ⟨c, hname, hafter⟩ := hrest before a r heq.symm hstop
          have hcall : next last = some (some c) := by
            rw [hnext, hlast, hstop, if_pos rfl]
            exact congrArg some hname
          rw [List.filter_cons_of_pos hstop, List.filterMap_cons_some hname,
            yields_cons_iff hcall, ih hr' (some c) (congrArg _ hafter)]
          simp
        | false =>
          rw [hstop, if_neg Bool.false_ne_true] at hlast
          rw [List.filter_cons_of_neg (by simp [hstop]), ih hr' last hlast]
          simp
  exact hbehind l List.suffix_rfl none (congrArg _ hstart)

end Cursor
