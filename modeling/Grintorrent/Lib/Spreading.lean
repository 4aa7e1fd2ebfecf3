import Mathlib.Algebra.BigOperators.Group.List.Lemmas
import Mathlib.Tactic.Ring

/-!
# Tokens that spread

A pool holds tokens.  A step takes one of them out, and puts those in that it spreads to.
The pool can be emptied if and only if the chains of tokens from it are bounded, and then
every run empties it, after as many steps as every other.
-/

namespace Grintorrent.Lib

variable {τ : Type*} (spread : τ → List τ)

/-- A chain from the token has no more tokens than this. -/
def Within : Nat → τ → Prop
  | 0, _ => False
  | bound + 1, token => ∀ next ∈ spread token, Within bound next

/-- How many steps the token causes, with those of the tokens that it spreads to, if no
chain from it has more tokens than this. -/
def caused : Nat → τ → Nat
  | 0, _ => 0
  | bound + 1, token => 1 + ((spread token).map (caused bound)).sum

/-- All steps that the tokens of a pool cause. -/
def causedBy (bound : Nat) (pool : List τ) : Nat := (pool.map (caused spread bound)).sum

/-- One token of the pool spreads. -/
def Spreads (pool after : List τ) : Prop :=
  ∃ token rest, pool.Perm (token :: rest) ∧ after.Perm (rest ++ spread token)

/-- The chains from the token are not bounded. -/
def Endless (token : τ) : Prop := ∀ bound, ¬Within spread bound token

variable {spread} {token : τ} {pool after : List τ} {bound larger : Nat}

theorem Within.mono (within : Within spread bound token) (le : bound ≤ larger) :
    Within spread larger token := by
  induction bound generalizing token larger with
  | zero => exact within.elim
  | succ bound ih =>
      cases larger with
      | zero => exact absurd le (Nat.not_succ_le_zero bound)
      | succ larger =>
          intro next member
          exact ih (within next member) (Nat.le_of_succ_le_succ le)

theorem Within.caused_eq (within : Within spread bound token) (le : bound ≤ larger) :
    caused spread larger token = caused spread bound token := by
  induction bound generalizing token larger with
  | zero => exact within.elim
  | succ bound ih =>
      cases larger with
      | zero => exact absurd le (Nat.not_succ_le_zero bound)
      | succ larger =>
          have each : (spread token).map (caused spread larger) =
              (spread token).map (caused spread bound) := by
            apply List.map_congr_left
            intro next member
            exact ih (within next member) (Nat.le_of_succ_le_succ le)
          rw [caused, caused, each]

theorem exists_within (every : ∀ token ∈ pool, ∃ bound, Within spread bound token) :
    ∃ bound, ∀ token ∈ pool, Within spread bound token := by
  induction pool with
  | nil => exact ⟨0, fun token member => absurd member List.not_mem_nil⟩
  | cons first pool ih =>
      obtain ⟨own, within⟩ := every first List.mem_cons_self
      obtain ⟨others, withins⟩ := ih fun token member => every token (List.mem_cons_of_mem _ member)
      refine ⟨max own others, ?_⟩
      intro token member
      rcases List.mem_cons.mp member with rfl | old
      · exact within.mono (Nat.le_max_left _ _)
      · exact (withins token old).mono (Nat.le_max_right _ _)

theorem Endless.next (endless : Endless spread token) :
    ∃ next ∈ spread token, Endless spread next := by
  by_contra none
  have every : ∀ next ∈ spread token, ∃ bound, Within spread bound next := by
    intro next member
    by_contra unbounded
    exact none ⟨next, member, fun bound within => unbounded ⟨bound, within⟩⟩
  obtain ⟨bound, withins⟩ := exists_within every
  exact endless (bound + 1) withins

theorem Spreads.within (spreads : Spreads spread pool after)
    (within : ∀ token ∈ pool, Within spread bound token) :
    ∀ token ∈ after, Within spread bound token := by
  obtain ⟨token, rest, isPool, isAfter⟩ := spreads
  intro next member
  rcases List.mem_append.mp (isAfter.mem_iff.mp member) with old | new
  · exact within next (isPool.mem_iff.mpr (List.mem_cons_of_mem _ old))
  · have own := within token (isPool.mem_iff.mpr List.mem_cons_self)
    cases bound with
    | zero => exact own.elim
    | succ bound => exact (own next new).mono (Nat.le_succ bound)

/-- A step is one of those that the tokens cause. -/
theorem Spreads.causedBy (spreads : Spreads spread pool after)
    (within : ∀ token ∈ pool, Within spread bound token) :
    causedBy spread bound after + 1 = causedBy spread bound pool := by
  obtain ⟨token, rest, isPool, isAfter⟩ := spreads
  have own := within token (isPool.mem_iff.mpr List.mem_cons_self)
  have before : Lib.causedBy spread bound pool =
      caused spread bound token + Lib.causedBy spread bound rest := by
    rw [Lib.causedBy, (isPool.map _).sum_eq, List.map_cons, List.sum_cons, Lib.causedBy]
  have behind : Lib.causedBy spread bound after =
      Lib.causedBy spread bound rest + Lib.causedBy spread bound (spread token) := by
    rw [Lib.causedBy, (isAfter.map _).sum_eq, List.map_append, List.sum_append, Lib.causedBy,
      Lib.causedBy]
  have causes : caused spread bound token = 1 + Lib.causedBy spread bound (spread token) := by
    rw [← own.caused_eq (Nat.le_succ bound)]
    rfl
  omega

/-- Of the tokens with endless chains there is always one left. -/
theorem Spreads.endless (spreads : Spreads spread pool after)
    (endless : ∃ token ∈ pool, Endless spread token) :
    ∃ token ∈ after, Endless spread token := by
  obtain ⟨token, rest, isPool, isAfter⟩ := spreads
  obtain ⟨old, member, chains⟩ := endless
  rcases List.mem_cons.mp (isPool.mem_iff.mp member) with rfl | left
  · obtain ⟨next, new, goOn⟩ := chains.next
    exact ⟨next, isAfter.mem_iff.mpr (List.mem_append_right _ new), goOn⟩
  · exact ⟨old, isAfter.mem_iff.mpr (List.mem_append_left _ left), chains⟩

/-- A pool of tokens without bounded chains has one with endless chains. -/
theorem exists_endless (unbounded : ¬∃ bound, ∀ token ∈ pool, Within spread bound token) :
    ∃ token ∈ pool, Endless spread token := by
  by_contra none
  apply unbounded
  apply exists_within
  intro token member
  by_contra notWithin
  exact none ⟨token, member, fun bound within => notWithin ⟨bound, within⟩⟩

end Grintorrent.Lib
