import Mathlib.Logic.Relation
import Mathlib.Data.List.Count

/-!
# Runs of a transition system

A run is a finite sequence of steps, `Relation.ReflTransGen step`.  The three rules
below are all that the protocol models need: an invariant of the steps holds
after every run, an order that every step respects holds between any two
states of a run, and a system whose steps are runs of another one has runs that
are runs of it.

A history lists calls that are performed one after the other, with their results; it is
what a run of calls that overlap is compared with.
-/

namespace Grintorrent.Lib

open Relation

variable {σ : Type*} {step : σ → σ → Prop} {start final : σ}

/-- What every step preserves holds after every run. -/
theorem invariant_run {inv : σ → Prop}
    (preserved : ∀ state next, inv state → step state next → inv next)
    (run : ReflTransGen step start final) (initially : inv start) : inv final := by
  induction run with
  | refl => exact initially
  | tail _ last ih => exact preserved _ _ ih last

/-- An order that every step respects, while an invariant holds, relates the two
ends of a run. -/
theorem order_run {inv : σ → Prop} {order : σ → σ → Prop}
    (refl : ∀ state, order state state)
    (trans : ∀ {first second third}, order first second → order second third →
      order first third)
    (preserved : ∀ state next, inv state → step state next → inv next)
    (advances : ∀ state next, inv state → step state next → order state next)
    (run : ReflTransGen step start final) (initially : inv start) : order start final := by
  induction run with
  | refl => exact refl start
  | tail before last ih =>
      exact trans ih (advances _ _ (invariant_run preserved before initially) last)

/-- A run whose steps are runs of another system is a run of it. -/
theorem simulation_run {τ : Type*} {step' : τ → τ → Prop} {related : σ → τ → Prop}
    (simulates : ∀ {state next other}, related state other → step state next →
      ∃ other', ReflTransGen step' other other' ∧ related next other')
    (run : ReflTransGen step start final) {other : τ} (initially : related start other) :
    ∃ other', ReflTransGen step' other other' ∧ related final other' := by
  induction run with
  | refl => exact ⟨other, .refl, initially⟩
  | tail _ last ih =>
      obtain ⟨between, before, isRelated⟩ := ih
      obtain ⟨other', behind, isRelated'⟩ := simulates isRelated last
      exact ⟨other', before.trans behind, isRelated'⟩

/-! ## Histories -/

section Histories

variable {α ρ : Type*} {performs : σ → α → ρ → σ → Prop} {history : List (α × ρ)}

/-- The calls of a history, with their results, performed one after the other. -/
inductive Sequential (performs : σ → α → ρ → σ → Prop) (start : σ) :
    List (α × ρ) → σ → Prop where
  | nil : Sequential performs start [] start
  | snoc {history : List (α × ρ)} {state next : σ} {call : α} {result : ρ} :
      Sequential performs start history state → performs state call result next →
      Sequential performs start (history ++ [(call, result)]) next

namespace Sequential

/-- A measure to which some of the proper calls add one has grown by their number. -/
theorem measure {inv : σ → Prop} {proper : α → Prop} {measure : σ → Nat} {adds : α × ρ → Bool}
    (preserved : ∀ {state call result next}, inv state → proper call →
      performs state call result next → inv next)
    (grows : ∀ {state call result next}, inv state → proper call →
      performs state call result next →
      measure next = measure state + (if adds (call, result) then 1 else 0))
    (sequential : Sequential performs start history final)
    (calls : ∀ performed ∈ history, proper performed.1) (initially : inv start) :
    inv final ∧ measure final = measure start + history.countP adds := by
  induction sequential with
  | nil => exact ⟨initially, rfl⟩
  | snoc before last ih =>
      obtain ⟨earlier, own⟩ := List.forall_mem_append.mp calls
      obtain ⟨invariant, counted⟩ := ih earlier
      have isProper := own _ List.mem_cons_self
      refine ⟨preserved invariant isProper last, ?_⟩
      rw [grows invariant isProper last, counted, List.countP_append, List.countP_singleton,
        Nat.add_assoc]

end Sequential

end Histories

end Grintorrent.Lib
