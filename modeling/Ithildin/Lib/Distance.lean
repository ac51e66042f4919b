import Mathlib.Combinatorics.SimpleGraph.Acyclic
import Mathlib.Combinatorics.SimpleGraph.Metric
import Mathlib.Combinatorics.SimpleGraph.Operations

/-!
# Distances in a forest

Between two vertices of a forest that are connected there is one path, so their distance stays when
edges are added and the graph stays a forest, and away from the one neighbour that is nearer every
neighbour is farther.

* `dist_of_le`: the distance in a larger forest;
* `dist_away`: all neighbours but one are farther;
* `dist_sup_edge`: two trees are joined by an edge.
-/

namespace Distance

variable {V : Type*} {G H : SimpleGraph V} {u v w x : V}

/-- A path of a forest is as long as its ends are apart. -/
theorem length_eq_dist (hG : G.IsAcyclic) {p : G.Walk u v} (hp : p.IsPath) :
    p.length = G.dist u v := by
  obtain ⟨q, hq, hlength⟩ := p.reachable.exists_path_of_dist
  have heq : p = q := congrArg Subtype.val ((hG.subsingleton_path u v).elim ⟨p, hp⟩ ⟨q, hq⟩)
  rw [heq, hlength]

theorem dist_of_le (hle : G ≤ H) (hH : H.IsAcyclic) (hreach : G.Reachable u v) :
    H.dist u v = G.dist u v := by
  obtain ⟨p, hp, hlength⟩ := hreach.exists_path_of_dist
  rw [← hlength, ← length_eq_dist hH (hp.mapLe hle), SimpleGraph.Walk.length_mapLe]

/-- The neighbour that is nearer comes next on the path. -/
theorem nearer_unique (hG : G.IsAcyclic) (hw : G.Adj u w) (hx : G.Adj u x)
    (hreach : G.Reachable u v) (hdw : G.dist u v = G.dist w v + 1)
    (hdx : G.dist u v = G.dist x v + 1) : w = x := by
  have hstep : ∀ y, G.Adj u y → G.dist u v = G.dist y v + 1 →
      ∃ p : G.Walk u v, p.IsPath ∧ p.snd = y := by
    intro y hy hdy
    obtain ⟨q, hq, hlength⟩ := (hy.symm.reachable.trans hreach).exists_path_of_dist
    refine ⟨.cons hy q, SimpleGraph.Walk.isPath_of_length_eq_dist _ ?_, ?_⟩
    · rw [SimpleGraph.Walk.length_cons, hlength, hdy]
    · exact SimpleGraph.Walk.snd_cons q hy
  obtain ⟨p, hp, rfl⟩ := hstep w hw hdw
  obtain ⟨q, hq, rfl⟩ := hstep x hx hdx
  have heq : p = q := congrArg Subtype.val ((hG.subsingleton_path u v).elim ⟨p, hp⟩ ⟨q, hq⟩)
  rw [heq]

theorem dist_away (hG : G.IsAcyclic) (hw : G.Adj u w) (hx : G.Adj u x) (hwx : w ≠ x)
    (hreach : G.Reachable u v) (hdw : G.dist u v = G.dist w v + 1) :
    G.dist x v = G.dist u v + 1 := by
  rw [G.dist_comm, @SimpleGraph.dist_comm _ G u v]
  rcases hG.dist_eq_dist_add_one_of_adj_of_reachable v hx hreach.symm with hdx | hdx
  · rw [G.dist_comm, @SimpleGraph.dist_comm _ G v x] at hdx
    exact absurd (nearer_unique hG hw hx hreach hdw hdx) hwx
  · exact hdx

theorem dist_sup_edge (hG : G.IsAcyclic) (hwx : ¬ G.Reachable w x) (hreach : G.Reachable u v) :
    (G ⊔ SimpleGraph.edge w x).dist u v = G.dist u v :=
  dist_of_le le_sup_left (hG.sup_edge_of_not_reachable hwx) hreach

end Distance
