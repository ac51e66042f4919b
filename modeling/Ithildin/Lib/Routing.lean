import Ithildin.Lib.Distance
import Mathlib.Data.List.Basic
import Mathlib.Tactic.Common

/-!
# Next hops in a tree

From each vertex of a tree one neighbour is nearer to a target. What travels from `s` always to
other neighbours than the one nearer to `s` gets away from `s` with every hop.

* `NextHop G next`: `next v t` is the neighbour of `v` that is nearer to `t`;
* `NextHop.away`: the other neighbours are farther away, and their way back is over `v`;
* `Between G s v t`: `v` is on the way from `s` to `t`;
* `Between.onward`, `NextHop.between_of_away`: the vertex behind it.
-/

namespace Routing

variable {V : Type*} {G : SimpleGraph V} {next : V → V → V} {s t u v w x : V}

/-- The tables that have the nearer neighbour for every target. -/
structure NextHop (G : SimpleGraph V) (next : V → V → V) : Prop where
  tree : G.IsTree
  adj : ∀ v t, v ≠ t → G.Adj v (next v t)
  nearer : ∀ v t, v ≠ t → G.dist v t = G.dist (next v t) t + 1

/-- There is no other way. -/
theorem NextHop.eq_next (h : NextHop G next) (hvt : v ≠ t) (hx : G.Adj v x)
    (hd : G.dist v t = G.dist x t + 1) : x = next v t :=
  Distance.nearer_unique h.tree.isAcyclic hx (h.adj v t hvt) (h.tree.connected v t) hd
    (h.nearer v t hvt)

/-- A neighbour that is not nearer to `s` is farther. -/
theorem NextHop.away (h : NextHop G next) (hx : G.Adj v x) (hne : v = s ∨ x ≠ next v s) :
    G.dist s x = G.dist s v + 1 := by
  by_cases hvs : v = s
  · subst hvs
    rw [G.dist_self, Nat.zero_add]
    exact SimpleGraph.dist_eq_one_iff_adj.mpr hx
  · have haway := Distance.dist_away h.tree.isAcyclic (h.adj v s hvs) hx
      (hne.resolve_left hvs).symm (h.tree.connected v s) (h.nearer v s hvs)
    rw [G.dist_comm, haway, G.dist_comm]

/-- From there the way back is over `v`. -/
theorem NextHop.next_of_away (h : NextHop G next) (hx : G.Adj v x)
    (hd : G.dist s x = G.dist s v + 1) : next x s = v := by
  have hne : x ≠ s := by
    rintro rfl
    rw [G.dist_self] at hd
    omega
  refine (h.eq_next hne hx.symm ?_).symm
  rw [G.dist_comm, hd, G.dist_comm]

/-- Two neighbours do not take each other for the way to `s`. -/
theorem NextHop.next_next_ne (h : NextHop G next) (hvs : v ≠ s) (hns : next v s ≠ s) :
    next (next v s) s ≠ v := by
  intro heq
  have hv := h.nearer v s hvs
  have hn := h.nearer (next v s) s hns
  rw [heq] at hn
  omega

/-- A vertex is on the way. -/
def Between (G : SimpleGraph V) (s v t : V) : Prop := G.dist s t = G.dist s v + G.dist v t

theorem between_left (s t : V) : Between G s s t := by
  rw [Between, G.dist_self, Nat.zero_add]

theorem between_right (s t : V) : Between G s t t := by
  rw [Between, G.dist_self, Nat.add_zero]

/-- The way goes on over the next vertex, which is farther from `s`. -/
theorem Between.onward (hb : Between G s v t) (h : NextHop G next) (hvt : v ≠ t) :
    Between G s (next v t) t ∧ G.dist s (next v t) = G.dist s v + 1 := by
  have hnear := h.nearer v t hvt
  have hone := SimpleGraph.dist_eq_one_iff_adj.mpr (h.adj v t hvt)
  have hle : G.dist s (next v t) ≤ G.dist s v + 1 := by
    rw [← hone]
    exact h.tree.connected.dist_triangle
  have hge : G.dist s t ≤ G.dist s (next v t) + G.dist (next v t) t :=
    h.tree.connected.dist_triangle
  rw [Between] at hb ⊢
  omega

/-- Only over that one. -/
theorem NextHop.between_of_away (h : NextHop G next) (hx : G.Adj v x)
    (hd : G.dist s x = G.dist s v + 1) (hb : Between G s x t) :
    Between G s v t ∧ v ≠ t ∧ x = next v t := by
  have hone := SimpleGraph.dist_eq_one_iff_adj.mpr hx
  have hle : G.dist v t ≤ G.dist v x + G.dist x t := h.tree.connected.dist_triangle
  have hge : G.dist s t ≤ G.dist s v + G.dist v t := h.tree.connected.dist_triangle
  rw [Between] at hb ⊢
  have hvt : v ≠ t := by
    rintro rfl
    rw [G.dist_self] at hge
    omega
  refine ⟨by omega, hvt, h.eq_next hvt hx (by omega)⟩

/-- The vertex before the last one is on the way too. -/
theorem Between.before (hb : Between G s v t) (h : NextHop G next) (hvt : v ≠ t) (hu : G.Adj u t)
    (hd : G.dist s t = G.dist s u + 1) : Between G s v u ∧ G.dist v t = G.dist v u + 1 := by
  have hadj := h.adj t v hvt.symm
  have hnear := h.nearer t v hvt.symm
  have hle : G.dist s (next t v) ≤ G.dist s v + G.dist v (next t v) :=
    h.tree.connected.dist_triangle
  have hge : G.dist s t ≤ G.dist s (next t v) + G.dist (next t v) t :=
    h.tree.connected.dist_triangle
  rw [SimpleGraph.dist_eq_one_iff_adj.mpr hadj.symm] at hge
  rw [G.dist_comm, @SimpleGraph.dist_comm _ G (next t v)] at hnear
  rw [Between] at hb ⊢
  -- both lead from `t` towards `s`
  have hut : next t v = u := by
    have hnext := h.next_of_away hu hd
    rw [← hnext]
    exact (h.next_of_away hadj.symm (by omega)).symm
  subst hut
  omega

/-- The next hop towards a neighbour that is farther is the same. -/
theorem NextHop.next_eq (h : NextHop G next) (hvu : v ≠ u) (hu : G.Adj u t)
    (hd : G.dist v t = G.dist v u + 1) : next v u = next v t := by
  have hnear := h.nearer v u hvu
  have hadj := h.adj v u hvu
  have hle : G.dist (next v u) t ≤ G.dist (next v u) u + G.dist u t :=
    h.tree.connected.dist_triangle
  have hge : G.dist v t ≤ G.dist v (next v u) + G.dist (next v u) t :=
    h.tree.connected.dist_triangle
  rw [SimpleGraph.dist_eq_one_iff_adj.mpr hu] at hle
  rw [SimpleGraph.dist_eq_one_iff_adj.mpr hadj] at hge
  have hvt : v ≠ t := by
    rintro rfl
    rw [G.dist_self] at hd
    omega
  exact h.eq_next hvt hadj (by omega)

end Routing
