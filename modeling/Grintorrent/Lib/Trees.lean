import Mathlib.Combinatorics.SimpleGraph.Acyclic

/-!
# Rooted trees

A tree seen from one of its vertices: each edge leads away from the root in one
direction, and every other vertex is reached by exactly one such edge.
-/

namespace Grintorrent.Lib

open SimpleGraph

variable {V : Type*} {G : SimpleGraph V} {root parent other child : V}

/-- The edge leads away from the root. -/
def Parent (G : SimpleGraph V) (root parent child : V) : Prop :=
  G.Adj parent child ∧ G.dist root child = G.dist root parent + 1

namespace Parent

theorem ne_root (below : Parent G root parent child) : child ≠ root := by
  intro same
  have farther := below.2
  rw [same, dist_self] at farther
  omega

theorem asymm (below : Parent G root parent child) : ¬Parent G root child parent := by
  intro above
  have farther := below.2
  have nearer := above.2
  omega

/-- Every edge of a tree leads away from the root in one direction. -/
theorem of_adj (tree : G.IsTree) (root : V) (adj : G.Adj parent child) :
    Parent G root parent child ∨ Parent G root child parent := by
  rcases tree.dist_eq_dist_add_one_of_adj root adj with nearer | farther
  · exact .inr ⟨adj.symm, nearer⟩
  · exact .inl ⟨adj, farther⟩

theorem exists_path (tree : G.IsTree) (below : Parent G root parent child) :
    ∃ path : G.Walk root parent, (path.concat below.1).IsPath := by
  classical
  obtain ⟨path, isPath, length⟩ := tree.connected.exists_path_of_dist root parent
  refine ⟨path, isPath.concat ?_ below.1⟩
  intro visited
  have bound := dist_le (path.takeUntil child visited)
  have shorter := path.length_takeUntil_le_length visited
  have farther := below.2
  omega

/-- A vertex of a tree has at most one parent. -/
theorem unique (tree : G.IsTree) (below : Parent G root parent child)
    (beside : Parent G root other child) : parent = other := by
  obtain ⟨first, firstPath⟩ := below.exists_path tree
  obtain ⟨second, secondPath⟩ := beside.exists_path tree
  have same := (tree.existsUnique_path root child).unique firstPath secondPath
  have last := congrArg Walk.penultimate same
  simpa using last

theorem of_adj_root (tree : G.IsTree) (adj : G.Adj root child) :
    Parent G root root child :=
  (of_adj tree root adj).resolve_right fun above => above.ne_root rfl

/-- The edges of a vertex, apart from the one to its parent, lead away from the root. -/
theorem of_adj_child (tree : G.IsTree) (below : Parent G root parent child)
    (adj : G.Adj child other) (notBack : other ≠ parent) : Parent G root child other :=
  (of_adj tree root adj).resolve_right fun above => notBack (above.unique tree below)

end Parent

/-- Induction along the edges that lead away from the root. -/
theorem parent_induction (G : SimpleGraph V) (root : V) {property : V → Prop}
    (onward : ∀ child, (∀ parent, Parent G root parent child → property parent) →
      property child) (vertex : V) : property vertex := by
  induction distance : G.dist root vertex using Nat.strong_induction_on generalizing vertex with
  | h distance ih =>
      apply onward
      intro parent below
      have nearer := below.2
      exact ih (G.dist root parent) (by omega) parent rfl

end Grintorrent.Lib
