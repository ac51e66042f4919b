import Mathlib.Logic.Function.Basic
import Mathlib.Order.MinMax
import Mathlib.Order.WithBot

/-!
# Two replicas of a value

Two replicas tell each other what they do, over two wires that keep the order.

* `Pair`: what the replicas hold, and what is on the way to each of them;
* `Pair.Agree`: the replicas hold the same once everything has arrived;
* `agree_deliver_iff`, `agree_write_iff`: a message that arrives leaves it at that, and a replica
  that takes over another value does when that commutes with what is on the way to it;
* `Op`, `apply`: replicas that keep the lowest value they are told of, until it is cleared;
* `commutes_iff`: what it takes to commute then.
-/

namespace Replica

section

variable {σ ω : Type*}

/-- What the replicas hold, and what is on the way to each of them. -/
structure Pair (σ ω : Type*) where
  held : Bool → σ
  wire : Bool → List ω

/-- The first message on the way to a replica arrives. -/
def Pair.deliver (f : σ → ω → σ) (p : Pair σ ω) (i : Bool) (m : ω) (ms : List ω) : Pair σ ω where
  held := Function.update p.held i (f (p.held i) m)
  wire := Function.update p.wire i ms

/-- A replica takes over a value and sends messages. -/
def Pair.write (p : Pair σ ω) (i : Bool) (v : σ) (ms : List ω) : Pair σ ω where
  held := Function.update p.held i v
  wire := Function.update p.wire (!i) (p.wire (!i) ++ ms)

/-- What a replica holds once everything on the way to it has arrived. -/
def Pair.settled (f : σ → ω → σ) (p : Pair σ ω) (i : Bool) : σ := (p.wire i).foldl f (p.held i)

/-- The replicas hold the same once everything has arrived. -/
def Pair.Agree (f : σ → ω → σ) (p : Pair σ ω) : Prop := p.settled f false = p.settled f true

/-- It makes no difference whether `v` is taken over before the messages `q` arrive, or the messages
`ms` behind them. -/
def Commutes (f : σ → ω → σ) (a v : σ) (q ms : List ω) : Prop :=
  q.foldl f v = ms.foldl f (q.foldl f a)

variable {f : σ → ω → σ} {p : Pair σ ω} {i : Bool}

theorem settled_deliver {m : ω} {ms : List ω} (h : p.wire i = m :: ms) (j : Bool) :
    (p.deliver f i m ms).settled f j = p.settled f j := by
  by_cases hj : j = i
  · subst hj
    simp [Pair.settled, Pair.deliver, h]
  · simp [Pair.settled, Pair.deliver, hj]

theorem agree_deliver_iff {m : ω} {ms : List ω} (h : p.wire i = m :: ms) :
    (p.deliver f i m ms).Agree f ↔ p.Agree f := by
  rw [Pair.Agree, Pair.Agree, settled_deliver h, settled_deliver h]

theorem agree_iff_settled (p : Pair σ ω) (i : Bool) :
    p.Agree f ↔ p.settled f i = p.settled f (!i) := by
  cases i
  · exact Iff.rfl
  · exact eq_comm

/-- Replicas that agree do so after a write exactly when it commutes with what is on the way. -/
theorem agree_write_iff (h : p.Agree f) (v : σ) (ms : List ω) :
    (p.write i v ms).Agree f ↔ Commutes f (p.held i) v (p.wire i) ms := by
  have hne : i ≠ !i := by simp
  have hold : (p.wire (!i)).foldl f (p.held (!i)) = (p.wire i).foldl f (p.held i) :=
    ((agree_iff_settled p i).mp h).symm
  have hours : (p.write i v ms).settled f i = (p.wire i).foldl f v := by
    simp [Pair.settled, Pair.write, hne]
  have htheirs : (p.write i v ms).settled f (!i) = ms.foldl f ((p.wire i).foldl f (p.held i)) := by
    simp [Pair.settled, Pair.write, hne.symm, List.foldl_append, hold]
  rw [agree_iff_settled _ i, hours, htheirs, Commutes]

end

/-! ### The lowest value -/

section

variable {α : Type*} [LinearOrder α]

/-- What one replica tells the other: a value that may be lower, that the value is cleared, or
nothing that makes a difference. -/
inductive Op (α : Type*)
  | lower (x : α)
  | clear
  | idle
  deriving DecidableEq

/-- A message arrives at a replica, which holds `⊤` when it holds nothing. -/
def apply : WithTop α → Op α → WithTop α
  | v, .lower x => min v x
  | _, .clear => ⊤
  | v, .idle => v

/-- The value that a message brings. -/
def Op.value : Op α → WithTop α
  | .lower x => x
  | .clear => ⊤
  | .idle => ⊤

/-- The lowest value that messages bring behind the last one that clears. -/
def lowest (q : List (Op α)) : WithTop α := q.foldl apply ⊤

theorem apply_of_ne {o : Op α} (h : o ≠ .clear) (v : WithTop α) : apply v o = min v o.value := by
  cases o with
  | lower x => rfl
  | clear => exact absurd rfl h
  | idle => exact (min_eq_left le_top).symm

/-- Nothing is left of what was held before a message that clears. -/
theorem foldl_apply_of_clear {q : List (Op α)} (h : .clear ∈ q) (v : WithTop α) :
    q.foldl apply v = lowest q := by
  induction q generalizing v with
  | nil => cases h
  | cons o q ih =>
    rw [lowest, List.foldl_cons, List.foldl_cons]
    rcases List.mem_cons.mp h with rfl | h
    · rfl
    · rw [ih h, ih h]

theorem foldl_apply_of_not_clear {q : List (Op α)} (h : .clear ∉ q) (v : WithTop α) :
    q.foldl apply v = min v (lowest q) := by
  induction q generalizing v with
  | nil => exact (min_eq_left le_top).symm
  | cons o q ih =>
    obtain ⟨ho, hq⟩ : o ≠ .clear ∧ .clear ∉ q := by
      rw [List.mem_cons, not_or] at h
      exact ⟨Ne.symm h.1, h.2⟩
    rw [lowest, List.foldl_cons, List.foldl_cons, ih hq, ih hq, apply_of_ne ho, apply_of_ne ho,
      min_eq_right (b := o.value) le_top, min_assoc]

/-- A replica that holds `a` may take over `v` and send `o` with `q` on the way to it. -/
def Ok (a v : WithTop α) (q : List (Op α)) (o : Op α) : Prop :=
  if o = .clear then lowest q = ⊤
  else if .clear ∈ q then lowest q ≤ o.value
  else min v (lowest q) = min (min a (lowest q)) o.value

theorem commutes_iff {a v : WithTop α} {q : List (Op α)} {o : Op α} (h : o = .clear → v = ⊤) :
    Commutes apply a v q [o] ↔ Ok a v q o := by
  rw [Commutes, Ok, List.foldl_cons, List.foldl_nil]
  by_cases ho : o = .clear
  · rw [if_pos ho, h ho, ho]
    exact Iff.rfl
  · rw [if_neg ho, apply_of_ne ho]
    by_cases hq : .clear ∈ q
    · rw [if_pos hq, foldl_apply_of_clear hq, foldl_apply_of_clear hq]
      exact eq_comm.trans min_eq_left_iff
    · rw [if_neg hq, foldl_apply_of_not_clear hq, foldl_apply_of_not_clear hq]

/-- If the value arrives as it is, it or one on the way has to be as low as the one that is held. -/
theorem ok_lower_iff {a : WithTop α} {x : α} {q : List (Op α)} (h : .clear ∉ q) :
    Ok a x q (.lower x) ↔ (x : WithTop α) ≤ a ∨ lowest q ≤ a := by
  rw [Ok, if_neg (by simp), if_neg h, Op.value]
  grind

end

end Replica
