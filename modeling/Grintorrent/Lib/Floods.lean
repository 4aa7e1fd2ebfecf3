import Grintorrent.Lib.Trees
import Mathlib.Combinatorics.SimpleGraph.DegreeSum

/-!
# Floods on a graph

Tokens are injected at the vertices of a graph.  Each vertex passes a token that was
injected at it to all its neighbours, and one that it got from a neighbour to all the
others.  In a tree no vertex ever gets more tokens than were injected.  Once all tokens
have been passed on, every vertex of a connected graph has got as many as every other, and
the graph is a tree.
-/

namespace Grintorrent.Lib

open SimpleGraph

variable {V : Type*} [Fintype V] {G : SimpleGraph V}
variable {injected : V → Nat} {passed : V → V → Nat}

/-- What has reached a vertex: the tokens injected at it and those of its neighbours. -/
def reached (injected : V → Nat) (passed : V → V → Nat) (vertex : V) : Nat :=
  injected vertex + ∑ source, passed source vertex

/-- Along an edge went some of the tokens that did not come along it. -/
structure UnderWay (G : SimpleGraph V) (injected : V → Nat) (passed : V → V → Nat) : Prop where
  adj : ∀ {source target}, passed source target ≠ 0 → G.Adj source target
  bounded : ∀ {source target}, G.Adj source target →
    passed source target + passed target source ≤ reached injected passed source

/-- Seen from a root, a vertex that is not the root shares tokens with its parent only. -/
theorem UnderWay.sum_parents_le (underWay : UnderWay G injected passed) (tree : G.IsTree)
    (root vertex : V) [∀ parent, Decidable (Parent G root parent vertex)] :
    (∑ parent, if Parent G root parent vertex then
        passed parent vertex + passed vertex parent else 0) ≤
      reached injected passed vertex := by
  by_cases child : ∃ parent, Parent G root parent vertex
  · obtain ⟨parent, below⟩ := child
    rw [Finset.sum_eq_single parent]
    · rw [if_pos below, Nat.add_comm]
      exact underWay.bounded below.1.symm
    · intro other _ different
      exact if_neg fun beside => different (beside.unique tree below)
    · intro absent
      exact absurd (Finset.mem_univ parent) absent
  · rw [Finset.sum_eq_zero]
    · exact Nat.zero_le _
    · intro parent _
      exact if_neg fun below => child ⟨parent, below⟩

/-- **No vertex of a tree gets more tokens than were injected**, however far they have
come. -/
theorem UnderWay.reached_le (underWay : UnderWay G injected passed) (tree : G.IsTree)
    (root : V) : reached injected passed root ≤ ∑ vertex, injected vertex := by
  classical
  have parted : ∀ vertex source, passed source vertex ≤
      (if Parent G root source vertex then passed source vertex else 0) +
        if Parent G root vertex source then passed source vertex else 0 := by
    intro vertex source
    by_cases nonzero : passed source vertex = 0
    · omega
    · rcases Parent.of_adj tree root (underWay.adj nonzero) with down | up
      · rw [if_pos down]
        exact Nat.le_add_right _ _
      · rw [if_pos up]
        exact Nat.le_add_left _ _
  have orphan : (∑ parent, if Parent G root parent root then
      passed parent root + passed root parent else 0) = 0 := by
    apply Finset.sum_eq_zero
    intro parent _
    exact if_neg fun below => below.ne_root rfl
  have bound : ∑ vertex, reached injected passed vertex ≤
      ∑ vertex, injected vertex +
        ∑ vertex ∈ Finset.univ.erase root, reached injected passed vertex := by
    calc
      _ = ∑ vertex, injected vertex + ∑ vertex, ∑ source, passed source vertex :=
        Finset.sum_add_distrib
      _ ≤ ∑ vertex, injected vertex +
          ∑ vertex, ∑ source,
            ((if Parent G root source vertex then passed source vertex else 0) +
              if Parent G root vertex source then passed source vertex else 0) := by
        gcongr with vertex _ source _
        exact parted vertex source
      _ = ∑ vertex, injected vertex +
          ∑ vertex, ∑ parent, (if Parent G root parent vertex then
            passed parent vertex + passed vertex parent else 0) := by
        simp only [Finset.sum_add_distrib, ite_add_zero]
        rw [Finset.sum_comm (f := fun vertex source =>
          if Parent G root vertex source then passed source vertex else 0)]
      _ = ∑ vertex, injected vertex +
          ∑ vertex ∈ Finset.univ.erase root, ∑ parent, (if Parent G root parent vertex then
            passed parent vertex + passed vertex parent else 0) := by
        congr 1
        rw [← Finset.add_sum_erase _ _ (Finset.mem_univ root), orphan, Nat.zero_add]
      _ ≤ _ := by
        gcongr with vertex _
        exact underWay.sum_parents_le tree root vertex
  rw [← Finset.add_sum_erase _ _ (Finset.mem_univ root)] at bound
  omega

/-- Everything has been passed on: along an edge go the tokens that did not come along it. -/
structure DiedOut (G : SimpleGraph V) (injected : V → Nat) (passed : V → V → Nat) : Prop where
  adj : ∀ {source target}, passed source target ≠ 0 → G.Adj source target
  balanced : ∀ {source target}, G.Adj source target →
    passed source target + passed target source = reached injected passed source

namespace DiedOut

theorem reached_of_adj (died : DiedOut G injected passed) {source target : V}
    (adj : G.Adj source target) :
    reached injected passed source = reached injected passed target := by
  rw [← died.balanced adj, ← died.balanced adj.symm, Nat.add_comm]

theorem reached_eq (died : DiedOut G injected passed) (connected : G.Preconnected)
    (first second : V) : reached injected passed first = reached injected passed second := by
  obtain ⟨walk⟩ := connected first second
  induction walk with
  | nil => rfl
  | cons adj _ ih => exact (died.reached_of_adj adj).trans ih

/-- Twice what was passed along the edges, counted from both of their ends. -/
theorem sum_passed [DecidableRel G.Adj] (died : DiedOut G injected passed) {count : Nat}
    (same : ∀ vertex, reached injected passed vertex = count) :
    ∑ target, ∑ source, passed source target = G.edgeFinset.card * count := by
  have absent : ∀ {source target}, ¬G.Adj source target → passed source target = 0 := by
    intro source target apart
    by_contra nonzero
    exact apart (died.adj nonzero)
  have both : ∀ target, ∑ source, (passed source target + passed target source) =
      G.degree target * count := by
    intro target
    have outside : ∀ source ∈ Finset.univ, source ∉ G.neighborFinset target →
        passed source target + passed target source = 0 := by
      intro source _ apart
      rw [mem_neighborFinset] at apart
      rw [absent apart, absent fun adj => apart adj.symm]
    rw [← Finset.sum_subset (Finset.subset_univ _) outside]
    apply Finset.sum_eq_card_nsmul
    intro source member
    rw [mem_neighborFinset] at member
    rw [Nat.add_comm, died.balanced member, same]
  have twice : 2 * ∑ target, ∑ source, passed source target =
      2 * (G.edgeFinset.card * count) := by
    calc
      _ = ∑ target, ∑ source, passed source target +
          ∑ target, ∑ source, passed target source := by
        rw [Nat.two_mul, Finset.sum_comm (f := fun target source => passed target source)]
      _ = ∑ target, G.degree target * count := by
        rw [← Finset.sum_add_distrib]
        apply Finset.sum_congr rfl
        intro target _
        rw [← Finset.sum_add_distrib, both]
      _ = 2 * (G.edgeFinset.card * count) := by
        rw [← Finset.sum_mul, G.sum_degrees_eq_twice_card_edges, Nat.mul_assoc]
  exact Nat.eq_of_mul_eq_mul_left Nat.two_pos twice

/-- **A flood dies out on trees only**, and then every vertex gets every token once. -/
theorem isTree (died : DiedOut G injected passed) (connected : G.Connected)
    (some : ∑ vertex, injected vertex ≠ 0) :
    G.IsTree ∧ ∀ vertex, reached injected passed vertex = ∑ vertex, injected vertex := by
  classical
  obtain ⟨root⟩ := connected.nonempty
  have same : ∀ vertex, reached injected passed vertex = reached injected passed root :=
    fun vertex => died.reached_eq connected.preconnected vertex root
  generalize reached injected passed root = count at same
  have total : Fintype.card V * count =
      ∑ vertex, injected vertex + G.edgeFinset.card * count := by
    calc
      _ = ∑ vertex, reached injected passed vertex := by simp [same]
      _ = _ := by
        rw [← died.sum_passed same, ← Finset.sum_add_distrib]
        rfl
  have edges : Fintype.card V ≤ G.edgeFinset.card + 1 := by
    have bound := connected.card_vert_le_card_edgeSet_add_one
    rwa [Nat.card_eq_fintype_card, Nat.card_eq_fintype_card, ← edgeFinset_card] at bound
  have fewer : G.edgeFinset.card < Fintype.card V := by
    by_contra enough
    have bound := Nat.mul_le_mul_right count (Nat.le_of_not_lt enough)
    omega
  have exact : Fintype.card V = G.edgeFinset.card + 1 := by omega
  constructor
  · rw [isTree_iff_connected_and_card, Nat.card_eq_fintype_card, Nat.card_eq_fintype_card,
      ← edgeFinset_card]
    exact ⟨connected, exact.symm⟩
  · intro vertex
    rw [exact, Nat.add_mul, Nat.one_mul] at total
    rw [same]
    omega

end DiedOut

end Grintorrent.Lib
