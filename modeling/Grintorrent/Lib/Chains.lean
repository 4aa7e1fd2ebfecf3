import Mathlib.Data.List.Nodup
import Mathlib.Logic.Function.Basic

/-!
# Chains of nodes

Singly linked lists in a heap, for any addresses and any nodes with a link to the next
one.  A chain is what a pointer reaches by following the links up to the end; it
determines its nodes and visits none of them twice.
-/

namespace Grintorrent.Lib

section Chains

variable {ν σ : Type*}

/-- The links lead from `start` through these addresses to the end of the list. -/
inductive Chain (nextOf : σ → Option ν) (heap : ν → Option σ) : Option ν → List ν → Prop where
  | nil : Chain nextOf heap none []
  | cons {address : ν} {node : σ} {rest : List ν} :
      heap address = some node → Chain nextOf heap (nextOf node) rest →
      Chain nextOf heap (some address) (address :: rest)

variable {nextOf : σ → Option ν} {heap after : ν → Option σ} {start : Option ν}
variable {address : ν} {addresses : List ν}

namespace Chain

theorem head (chain : Chain nextOf heap start addresses) : start = addresses.head? := by
  cases chain with
  | nil => rfl
  | cons => rfl

theorem allocated (chain : Chain nextOf heap start addresses) (member : address ∈ addresses) :
    ∃ node, heap address = some node := by
  induction chain with
  | nil => simp at member
  | cons present _ ih =>
      rcases List.mem_cons.mp member with rfl | later
      · exact ⟨_, present⟩
      · exact ih later

/-- A pointer determines its chain. -/
theorem unique {others : List ν} (chain : Chain nextOf heap start addresses)
    (other : Chain nextOf heap start others) : addresses = others := by
  induction chain generalizing others with
  | nil =>
      cases other with
      | nil => rfl
  | cons present _ ih =>
      cases other with
      | cons present' rest =>
          obtain rfl := Option.some.inj (present.symm.trans present')
          rw [ih rest]

theorem suffix {front back : List ν} (chain : Chain nextOf heap start (front ++ address :: back)) :
    Chain nextOf heap (some address) (address :: back) := by
  induction front generalizing start with
  | nil =>
      cases chain with
      | cons present rest => exact .cons present rest
  | cons head front ih =>
      cases chain with
      | cons _ rest => exact ih rest

/-- A chain has no cycle. -/
theorem nodup (chain : Chain nextOf heap start addresses) : addresses.Nodup := by
  induction chain with
  | nil => exact .nil
  | @cons address node rest present chain ih =>
      refine List.nodup_cons.mpr ⟨fun again => ?_, ih⟩
      -- A second visit would go on with a shorter rest.
      obtain ⟨front, back, split⟩ := List.append_of_mem again
      have whole : Chain nextOf heap (some address) (address :: rest) := .cons present chain
      rw [split] at whole
      have later := @suffix _ _ _ _ _ _ (address :: front) _ whole
      have lengths := congrArg List.length (whole.unique later)
      simp only [List.length_cons, List.length_append] at lengths
      omega

/-- A chain stays where none of its nodes changes. -/
theorem frame (chain : Chain nextOf heap start addresses)
    (same : ∀ address ∈ addresses, after address = heap address) :
    Chain nextOf after start addresses := by
  induction chain with
  | nil => exact .nil
  | @cons address node rest present _ ih =>
      refine .cons ?_ (ih fun other member => same other (List.mem_cons_of_mem _ member))
      rw [same address List.mem_cons_self, present]

variable [DecidableEq ν]

theorem update (chain : Chain nextOf heap start addresses) (absent : address ∉ addresses)
    (content : Option σ) : Chain nextOf (Function.update heap address content) start addresses :=
  chain.frame fun _ member => Function.update_of_ne (ne_of_mem_of_not_mem member absent) ..

/-- Linking the last node to a node without a successor puts it at the end. -/
theorem snoc {front : List ν} {last : ν} {new node : σ}
    (chain : Chain nextOf heap start (front ++ [last])) (absent : address ∉ front ++ [last])
    (present : heap address = some node) (ends : nextOf node = none)
    (links : nextOf new = some address) :
    Chain nextOf (Function.update heap last (some new)) start (front ++ [last, address]) := by
  have distinct := chain.nodup
  induction front generalizing start with
  | nil =>
      cases chain with
      | cons _ _ =>
          have other : address ≠ last := fun same => absent (by simp [same])
          have linked : Function.update heap last (some new) last = some new :=
            Function.update_self ..
          have kept : Function.update heap last (some new) address = some node :=
            (Function.update_of_ne other ..).trans present
          refine .cons linked ?_
          rw [links]
          refine .cons kept ?_
          rw [ends]
          exact .nil
  | cons head front ih =>
      cases chain with
      | cons first rest =>
          obtain ⟨apart, distinct⟩ := List.nodup_cons.mp distinct
          have other : head ≠ last := fun same => apart (by simp [same])
          refine .cons ((Function.update_of_ne other ..).trans first) ?_
          exact ih rest (fun member => absent (List.mem_cons_of_mem _ member)) distinct

end Chain

end Chains

end Grintorrent.Lib
