import Mathlib.Data.List.Basic
import Mathlib.Data.List.Count
import Mathlib.Data.Fintype.Card
import Mathlib.Order.WellFoundedSet

/-!
# Settings found through includes

A block may have a setting of its own, and it names blocks to include, in an order.

* `Finds`: what a block finds: its own setting, else the first that a block it includes finds, the
  included blocks taken in order and each to its depth;
* `Finds.unique`: a block finds one thing;
* `height`, `height_lt`: if includes lead down a rank, how many blocks are below one bounds how deep
  the includes go;
* `acc_of_no_cycle`: includes among finitely many blocks come to an end where they do not go round;
* `look`: the search itself, which may be too deep and may come to a name that is missing;
* `look_ends_iff`: it ends exactly if where it goes there is no way round and no missing name.
-/

namespace Includes

variable {B V : Type*} {own : B → Option V} {incl : B → List B}

/-- What a block finds. -/
inductive Finds (own : B → Option V) (incl : B → List B) : B → Option V → Prop
  | own {b : B} {v : V} : own b = some v → Finds own incl b (some v)
  | included {b c : B} {v : V} {before after : List B} : own b = none →
      incl b = before ++ c :: after → (∀ d ∈ before, Finds own incl d none) →
      Finds own incl c (some v) → Finds own incl b (some v)
  | nothing {b : B} : own b = none → (∀ d ∈ incl b, Finds own incl d none) → Finds own incl b none

/-- Of two splits of a list one is the other, or one goes farther. -/
theorem split_cases {l before after before' after' : List B} {c c' : B}
    (h : l = before ++ c :: after) (h' : l = before' ++ c' :: after') :
    (before = before' ∧ c = c') ∨ c ∈ before' ∨ c' ∈ before := by
  rcases List.append_eq_append_iff.mp (h.symm.trans h') with
    ⟨mid, hbefore, hafter⟩ | ⟨mid, hbefore, hafter⟩
  · cases mid with
    | nil => exact .inl ⟨(by rw [hbefore, List.append_nil]), (List.cons.inj hafter).1⟩
    | cons d mid =>
      refine .inr (.inl ?_)
      rw [hbefore, (List.cons.inj hafter).1]
      exact List.mem_append_right _ List.mem_cons_self
  · cases mid with
    | nil => exact .inl ⟨(by rw [hbefore, List.append_nil]), (List.cons.inj hafter).1.symm⟩
    | cons d mid =>
      refine .inr (.inr ?_)
      rw [hbefore, (List.cons.inj hafter).1]
      exact List.mem_append_right _ List.mem_cons_self

theorem Finds.unique {b : B} {r r' : Option V} (h : Finds own incl b r)
    (h' : Finds own incl b r') : r = r' := by
  induction h generalizing r' with
  | own hown =>
    cases h' with
    | own hown' => exact hown.symm.trans hown'
    | included hnone _ _ _ => cases hown.symm.trans hnone
    | nothing hnone _ => cases hown.symm.trans hnone
  | included hnone hsplit hbefore _ ihbefore ihc =>
    cases h' with
    | own hown' => cases hnone.symm.trans hown'
    | included _ hsplit' hbefore' hc' =>
      rcases split_cases hsplit hsplit' with ⟨-, rfl⟩ | hmem | hmem
      · exact ihc hc'
      · cases ihc (hbefore' _ hmem)
      · cases ihbefore _ hmem hc'
    | nothing _ hall =>
      refine ihc (hall _ ?_)
      rw [hsplit]
      exact List.mem_append_right _ List.mem_cons_self
  | nothing hnone _ ih =>
    cases h' with
    | own hown' => cases hnone.symm.trans hown'
    | included _ hsplit' _ hc' =>
      refine ih _ ?_ hc'
      rw [hsplit']
      exact List.mem_append_right _ List.mem_cons_self
    | nothing _ _ => rfl

/-- How many of the blocks are below a rank. -/
def height (rank : B → ℕ) (blocks : List B) (n : ℕ) : ℕ :=
  blocks.countP fun c => decide (rank c < n)

variable {rank : B → ℕ} {blocks : List B}

theorem height_le (n : ℕ) : height rank blocks n ≤ blocks.length := List.countP_le_length

/-- A block of the list is not below itself. -/
theorem height_lt {c : B} {n : ℕ} (hc : c ∈ blocks) (hrank : rank c < n) :
    height rank blocks (rank c) < height rank blocks n := by
  obtain ⟨before, after, rfl⟩ := List.append_of_mem hc
  have hmono : ∀ l : List B, height rank l (rank c) ≤ height rank l n := by
    intro l
    refine List.countP_mono_left fun d _ hd => ?_
    exact decide_eq_true (Nat.lt_trans (of_decide_eq_true hd) hrank)
  have hbefore := hmono before
  have hafter := hmono after
  simp only [height, List.countP_append, List.countP_cons, Nat.lt_irrefl, hrank, decide_true,
    decide_false] at hbefore hafter ⊢
  simp only [Bool.false_eq_true, if_false, if_true]
  omega

section
open Relation

variable {r : B → B → Prop}

/-- Among finitely many blocks, none of which is below itself, there is no endless descent. -/
theorem wellFoundedOn_of_no_cycle {s : Set B} (hs : s.Finite) (h : ∀ b ∈ s, ¬ TransGen r b b) :
    s.WellFoundedOn (flip (TransGen r)) := by
  have : Finite s := hs.to_subtype
  have : IsTrans s (Subrel (flip (TransGen r)) (· ∈ s)) := ⟨fun _ _ _ hab hbc => hbc.trans hab⟩
  have : Std.Irrefl (Subrel (flip (TransGen r)) (· ∈ s)) := ⟨fun b => h b.1 b.2⟩
  exact Finite.wellFounded_of_trans_of_irrefl _

/-- If finitely many blocks that are reached from one include others, there is no endless descent
from it unless one is reached that is below itself. -/
theorem acc_of_no_cycle {a : B} (hfinite : {b | (∃ c, r b c) ∧ ReflTransGen r a b}.Finite)
    (hcycle : ∀ b, ReflTransGen r a b → ¬ TransGen r b b) : Acc (flip r) a := by
  have hwf : {b | (∃ c, r b c) ∧ ReflTransGen r a b}.WellFoundedOn (flip (TransGen r)) :=
    wellFoundedOn_of_no_cycle hfinite fun b hb => hcycle b hb.2
  by_cases hin : ∃ b, r a b
  · refine hwf.induction ⟨hin, .refl⟩ fun b hb ih => .intro b fun c hc => ?_
    by_cases hin : ∃ d, r c d
    · exact ih c ⟨hin, hb.2.tail hc⟩ (.single hc)
    · exact .intro c fun d hd => absurd ⟨d, hd⟩ hin
  · exact .intro a fun b hb => absurd ⟨b, hb⟩ hin

/-- A block without endless descent is not below itself. -/
theorem not_transGen_of_acc {a : B} (h : Acc r a) : ¬ TransGen r a a := by
  intro hself
  induction h.transGen with
  | intro a _ ih => exact ih a hself (h.inv_of_transGen hself) hself

end

/-! ### The search -/

/-- What the includes of a block are: a missing name, the name of no block, or a block. -/
abbrev Target (B : Type*) := Option (Option B)

/-- The first that an included block finds. Nothing comes of it when a name is missing. -/
def lookAll (find : B → Option (Option V)) : List (Target B) → Option (Option V)
  | [] => some none
  | none :: _ => none
  | some none :: rest => lookAll find rest
  | some (some c) :: rest =>
      match find c with
      | none => none
      | some (some v) => some (some v)
      | some none => lookAll find rest

/-- A block's own setting, else the first that a block it includes finds; so many calls deep. -/
def look (own : B → Option V) (targets : B → List (Target B)) : ℕ → B → Option (Option V)
  | 0, _ => none
  | n + 1, b =>
      match own b with
      | some v => some (some v)
      | none => lookAll (look own targets n) (targets b)

theorem lookAll_some (find : B → Option (Option V)) (c : B) (rest : List (Target B)) :
    lookAll find (some (some c) :: rest) =
      match find c with
      | none => none
      | some (some v) => some (some v)
      | some none => lookAll find rest := rfl

theorem look_succ (targets : B → List (Target B)) (n : ℕ) (b : B) :
    look own targets (n + 1) b =
      match own b with
      | some v => some (some v)
      | none => lookAll (look own targets n) (targets b) := rfl

/-- A block includes another. -/
def Leads (targets : B → List (Target B)) (b c : B) : Prop := some (some c) ∈ targets b

/-- No block that is reached has a setting of its own. -/
def Bare (own : B → Option V) (targets : B → List (Target B)) (b : B) : Prop :=
  ∀ c, Relation.ReflTransGen (Leads targets) b c → own c = none

/-- The search of a block comes to what it includes there: nothing is to be found before. -/
def Comes (own : B → Option V) (targets : B → List (Target B)) (b : B) (t : Target B) : Prop :=
  own b = none ∧ ∃ before after, targets b = before ++ t :: after ∧
    ∀ c, some (some c) ∈ before → Bare own targets c

/-- The search of a block goes on with another. -/
def Goes (own : B → Option V) (targets : B → List (Target B)) (b c : B) : Prop :=
  Comes own targets b (some (some c))

section
open Relation

variable {targets : B → List (Target B)} {find : B → Option (Option V)} {l : List (Target B)}
  {b c : B} {n : ℕ}

theorem Goes.leads (h : Goes own targets b c) : Leads targets b c := by
  obtain ⟨-, before, after, heq, -⟩ := h
  rw [Leads, heq]
  exact List.mem_append_right _ List.mem_cons_self

theorem lookAll_eq_some_none (h : lookAll find l = some none) (hc : some (some c) ∈ l) :
    find c = some none := by
  induction l with
  | nil => cases hc
  | cons t l ih =>
    rcases t with - | - | d
    · cases h
    · exact ih h ((List.mem_cons.mp hc).resolve_left (by simp))
    · rw [lookAll_some] at h
      split at h
      · cases h
      · cases h
      · rename_i hd
        rcases List.mem_cons.mp hc with heq | hmem
        · rwa [Option.some.inj (Option.some.inj heq)]
        · exact ih h hmem

theorem lookAll_eq_some_some {v : V} (h : lookAll find l = some (some v)) :
    ∃ c, some (some c) ∈ l ∧ find c = some (some v) := by
  induction l with
  | nil => cases h
  | cons t l ih =>
    rcases t with - | - | d
    · cases h
    · obtain ⟨c, hc, hfind⟩ := ih h
      exact ⟨c, List.mem_cons_of_mem _ hc, hfind⟩
    · rw [lookAll_some] at h
      split at h
      · cases h
      · rename_i hfind
        rw [h] at hfind
        exact ⟨d, List.mem_cons_self, hfind⟩
      · obtain ⟨c, hc, hfind⟩ := ih h
        exact ⟨c, List.mem_cons_of_mem _ hc, hfind⟩

/-- A search that ends where nothing is to be found before has come that far. -/
theorem lookAll_append {before : List (Target B)} {r : Option V}
    (h : lookAll find (before ++ l) = some r)
    (hbefore : ∀ c v, some (some c) ∈ before → find c ≠ some (some v)) :
    lookAll find l = some r := by
  induction before with
  | nil => exact h
  | cons t before ih =>
    have hrest := fun c v hc => hbefore c v (List.mem_cons_of_mem t hc)
    rcases t with - | - | d
    · cases h
    · exact ih h hrest
    · rw [List.cons_append, lookAll_some] at h
      split at h
      · cases h
      · rename_i v hfind
        exact absurd hfind (hbefore d v List.mem_cons_self)
      · exact ih h hrest

/-- What is found is a block's own. -/
theorem exists_own_of_look {v : V} (h : look own targets n b = some (some v)) :
    ∃ c, ReflTransGen (Leads targets) b c ∧ own c = some v := by
  induction n generalizing b with
  | zero => cases h
  | succ n ih =>
    rw [look_succ] at h
    split at h
    · rename_i hown
      cases h
      exact ⟨b, .refl, hown⟩
    · obtain ⟨c, hc, hfind⟩ := lookAll_eq_some_some h
      obtain ⟨d, hd, hown⟩ := ih hfind
      exact ⟨d, .head hc hd, hown⟩

/-- A search that finds nothing has been everywhere. -/
theorem bare_of_look (h : look own targets n b = some none) : Bare own targets b := by
  intro c hc
  induction n generalizing b with
  | zero => cases h
  | succ n ih =>
    rw [look_succ] at h
    split at h
    · cases h
    · rename_i hown
      rcases ReflTransGen.cases_head hc with rfl | ⟨d, hd, hc⟩
      · exact hown
      · exact ih (lookAll_eq_some_none h hd) hc

/-- A search that ends has come to an end of all that it comes to. -/
theorem lookAll_of_comes {t : Target B} {r : Option V} (h : look own targets (n + 1) b = some r)
    (hcomes : Comes own targets b t) :
    ∃ after, lookAll (look own targets n) (t :: after) = some r := by
  obtain ⟨hown, before, after, heq, hbare⟩ := hcomes
  rw [look_succ, hown, heq] at h
  refine ⟨after, lookAll_append h fun c v hc hfind => ?_⟩
  obtain ⟨d, hd, hown'⟩ := exists_own_of_look hfind
  cases (hbare c hc d hd).symm.trans hown'

theorem not_stumbles_of_look {r : Option V} (h : look own targets n b = some r) :
    ¬ Comes own targets b none := by
  intro hcomes
  cases n with
  | zero => cases h
  | succ n =>
    obtain ⟨after, hnone⟩ := lookAll_of_comes h hcomes
    cases hnone

theorem look_of_goes {r : Option V} (h : look own targets (n + 1) b = some r)
    (hgoes : Goes own targets b c) : ∃ r', look own targets n c = some r' := by
  obtain ⟨after, hsome⟩ := lookAll_of_comes h hgoes
  rw [lookAll_some] at hsome
  split at hsome
  · cases hsome
  · exact ⟨_, ‹_›⟩
  · exact ⟨_, ‹_›⟩

/-- Deeper calls end, too. -/
theorem look_of_reaches {r : Option V} (h : look own targets n b = some r)
    (hreach : ReflTransGen (Goes own targets) b c) : ∃ m r', look own targets m c = some r' := by
  induction hreach using ReflTransGen.head_induction_on generalizing n r with
  | refl => exact ⟨n, r, h⟩
  | head hgoes _ ih =>
    cases n with
    | zero => cases h
    | succ n =>
      obtain ⟨r', h'⟩ := look_of_goes h hgoes
      exact ih h'

/-- Each call is less deep. -/
theorem acc_of_look {r : Option V} (h : look own targets n b = some r) :
    Acc (flip (Goes own targets)) b := by
  induction n generalizing b r with
  | zero => cases h
  | succ n ih =>
    refine .intro b fun c hc => ?_
    obtain ⟨r', h'⟩ := look_of_goes h hc
    exact ih h'

/-- The includes from some place on are searched if the blocks among them are. -/
theorem exists_lookAll {after : List (Target B)} (hstumble : ¬ Comes own targets b none)
    (hgoes : ∀ c, Goes own targets b c → ∃ n r, ∀ m ≥ n, look own targets m c = some r)
    (hown : own b = none) {before : List (Target B)} (heq : targets b = before ++ after)
    (hbare : ∀ c, some (some c) ∈ before → Bare own targets c) :
    ∃ n r, ∀ m ≥ n, lookAll (look own targets m) after = some r := by
  induction after generalizing before with
  | nil => exact ⟨0, none, fun _ _ => rfl⟩
  | cons t after ih =>
    rw [List.append_cons] at heq
    rcases t with - | - | c
    · exact absurd ⟨hown, before, after, by rw [heq, ← List.append_cons], hbare⟩ hstumble
    · refine ih heq fun c hc => ?_
      rcases List.mem_append.mp hc with hc | hc
      · exact hbare c hc
      · cases List.mem_singleton.mp hc
    · obtain ⟨n, r, hlook⟩ :=
        hgoes c ⟨hown, before, after, by rw [heq, ← List.append_cons], hbare⟩
      cases r with
      | some v => exact ⟨n, some v, fun m hm => by rw [lookAll_some, hlook m hm]⟩
      | none =>
        have hc := bare_of_look (hlook n le_rfl)
        obtain ⟨n', r, hrest⟩ := ih heq fun d hd => by
          rcases List.mem_append.mp hd with hd | hd
          · exact hbare d hd
          · cases List.mem_singleton.mp hd
            exact hc
        refine ⟨max n n', r, fun m hm => ?_⟩
        rw [lookAll_some, hlook m (le_of_max_le_left hm)]
        exact hrest m (le_of_max_le_right hm)

/-- Without endless descent the search ends, whatever depth beyond some is allowed. -/
theorem exists_look_of_acc (h : Acc (flip (Goes own targets)) b)
    (hstumble : ∀ c, ReflTransGen (Goes own targets) b c → ¬ Comes own targets c none) :
    ∃ n r, ∀ m ≥ n, look own targets m b = some r := by
  induction h with
  | intro b _ ih =>
    cases hown : own b with
    | some v =>
      refine ⟨1, some v, fun m hm => ?_⟩
      obtain ⟨m, rfl⟩ := Nat.exists_eq_add_of_le' hm
      rw [look_succ, hown]
    | none =>
      obtain ⟨n, r, hall⟩ := exists_lookAll (hstumble b .refl)
        (fun c hc => ih c hc fun d hd => hstumble d (.head hc hd)) hown (List.nil_append _).symm
        fun c hc => absurd hc List.not_mem_nil
      refine ⟨n + 1, r, fun m hm => ?_⟩
      obtain ⟨m, rfl⟩ := Nat.exists_eq_add_of_le' (Nat.le_of_add_left_le hm)
      rw [look_succ, hown]
      exact hall m (by omega)

/-- The search ends exactly if none of the blocks that it goes on with comes round to itself, and
none stumbles over a missing name. -/
theorem look_ends_iff
    (hfinite : {c | (∃ d, Leads targets c d) ∧ ReflTransGen (Leads targets) b c}.Finite) :
    (∃ n r, look own targets n b = some r) ↔
      ∀ c, ReflTransGen (Goes own targets) b c →
        ¬ TransGen (Goes own targets) c c ∧ ¬ Comes own targets c none := by
  constructor
  · rintro ⟨n, r, h⟩ c hc
    obtain ⟨m, r', h'⟩ := look_of_reaches h hc
    refine ⟨fun hcycle => ?_, not_stumbles_of_look h'⟩
    exact not_transGen_of_acc (acc_of_look h') (transGen_swap.mpr hcycle)
  · intro h
    have hgoes :
        {c | (∃ d, Goes own targets c d) ∧ ReflTransGen (Goes own targets) b c}.Finite := by
      refine hfinite.subset ?_
      rintro c ⟨⟨d, hd⟩, hc⟩
      exact ⟨⟨d, hd.leads⟩, ReflTransGen.mono (fun _ _ => Goes.leads) b c hc⟩
    obtain ⟨n, r, hlook⟩ :=
      exists_look_of_acc (acc_of_no_cycle hgoes fun c hc => (h c hc).1) fun c hc => (h c hc).2
    exact ⟨n, r, hlook n le_rfl⟩

end

end Includes
