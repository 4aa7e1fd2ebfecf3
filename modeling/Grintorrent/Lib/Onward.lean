import Mathlib.Combinatorics.SimpleGraph.Acyclic
import Mathlib.Combinatorics.SimpleGraph.Connectivity.Subgraph

/-!
# Walks that do not turn back

A walk that never goes back along the edge it came by can go on for ever exactly if it can
reach a cycle.
-/

namespace Grintorrent.Lib

open SimpleGraph

variable {V : Type*} {G : SimpleGraph V} {root source vertex next : V} {length : Nat}

/-- A walk of so many edges from the root, with this edge as its last, that never turns
back. -/
inductive Onward (G : SimpleGraph V) (root : V) : V → V → Nat → Prop where
  | first {vertex : V} : G.Adj root vertex → Onward G root root vertex 1
  | next {source vertex next : V} {length : Nat} : Onward G root source vertex length →
      G.Adj vertex next → next ≠ source → Onward G root vertex next (length + 1)

namespace Onward

/-- Where no cycle can be reached, it is a path. -/
theorem exists_path
    (acyclic : ∀ vertex, G.Reachable root vertex → ∀ cycle : G.Walk vertex vertex, ¬cycle.IsCycle)
    (onward : Onward G root source vertex length) :
    ∃ path : G.Walk root vertex, path.IsPath ∧ path.length = length ∧
      path.penultimate = source := by
  classical
  induction onward with
  | @first vertex adj =>
      refine ⟨.cons adj .nil, ?_, rfl, rfl⟩
      simp [adj.ne]
  | @next source vertex next length _ adj notBack ih =>
      obtain ⟨path, isPath, edges, last⟩ := ih
      by_cases visited : next ∈ path.support
      · -- The new edge closes a cycle.
        exfalso
        apply acyclic vertex path.reachable (.cons adj (path.dropUntil next visited))
        apply (Walk.cons_isCycle_iff _ _).mpr
        refine ⟨isPath.dropUntil visited, ?_⟩
        intro used
        apply notBack
        rw [← last]
        exact isPath.eq_penultimate_of_mem_edges
          (path.edges_dropUntil_subset_edges visited used)
      · exact ⟨path.concat adj, isPath.concat visited adj, by rw [Walk.length_concat, edges],
          path.penultimate_concat adj⟩

theorem of_isPath (path : G.Walk root vertex) (isPath : path.IsPath)
    (nonempty : 0 < path.length) : Onward G root path.penultimate vertex path.length := by
  induction path using Walk.concatRec with
  | Hnil => exact absurd nonempty (Nat.lt_irrefl 0)
  | @Hconcat root middle vertex path adj ih =>
      rw [Walk.penultimate_concat, Walk.length_concat]
      have before := (Walk.concat_isPath_iff adj).mp isPath
      rcases Nat.eq_zero_or_pos path.length with isNil | longer
      · obtain rfl := Walk.eq_of_length_eq_zero isNil
        rw [isNil]
        exact .first adj
      · refine .next (ih before.1 longer) adj ?_
        rintro rfl
        exact before.2 (path.getVert_mem_support _)

/-- On a cycle it can go on along the cycle. -/
theorem along {start : V} {cycle : G.Walk start start} (isCycle : cycle.IsCycle)
    (onward : Onward G root source vertex length) (member : vertex ∈ cycle.support)
    (more : Nat) : ∃ source vertex, Onward G root source vertex (length + more) := by
  suffices goesOn : ∃ source vertex, Onward G root source vertex (length + more) ∧
      vertex ∈ cycle.support by
    obtain ⟨source, vertex, further, _⟩ := goesOn
    exact ⟨source, vertex, further⟩
  induction more with
  | zero => exact ⟨source, vertex, onward, member⟩
  | succ more ih =>
      obtain ⟨source, vertex, further, onCycle⟩ := ih
      have two := isCycle.ncard_neighborSet_toSubgraph_eq_two onCycle
      obtain ⟨next, adj, notBack⟩ :=
        Set.exists_ne_of_one_lt_ncard (by rw [two]; exact Nat.one_lt_two) source
      exact ⟨vertex, next, further.next adj.adj_sub notBack,
        cycle.mem_verts_toSubgraph.mp adj.snd_mem⟩

end Onward

/-- **Walks that do not turn back are bounded** if and only if they can reach no cycle. -/
theorem onward_bounded_iff [Finite V] :
    (∃ bound, ∀ source vertex length, Onward G root source vertex length → length ≤ bound) ↔
      ∀ vertex, G.Reachable root vertex → ∀ cycle : G.Walk vertex vertex, ¬cycle.IsCycle := by
  classical
  constructor
  · rintro ⟨bound, bounded⟩ vertex reachable cycle isCycle
    obtain ⟨path, isPath⟩ := reachable.exists_isPath
    have starts : ∃ source target length, Onward G root source target length ∧
        target ∈ cycle.support := by
      rcases Nat.eq_zero_or_pos path.length with isNil | longer
      · obtain rfl := Walk.eq_of_length_eq_zero isNil
        exact ⟨root, cycle.snd, 1, .first (cycle.adj_snd isCycle.not_nil),
          cycle.getVert_mem_support 1⟩
      · exact ⟨_, vertex, _, .of_isPath path isPath longer, cycle.start_mem_support⟩
    obtain ⟨source, target, length, onward, member⟩ := starts
    obtain ⟨_, _, further⟩ := onward.along isCycle member (bound + 1)
    have short := bounded _ _ _ further
    omega
  · intro acyclic
    have := Fintype.ofFinite V
    refine ⟨Fintype.card V, ?_⟩
    intro source vertex length onward
    obtain ⟨path, isPath, rfl, _⟩ := onward.exists_path acyclic
    exact isPath.length_lt.le

end Grintorrent.Lib
