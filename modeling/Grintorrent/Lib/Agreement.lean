import Mathlib.Data.List.Basic

/-!
# Agreeing computations

Two computations that may fail agree when they fail for the same reason, or both return
and what they return is related.  Agreement goes through sequences and loops, so a program
is compared with its model one operation at a time.
-/

namespace Grintorrent.Lib

universe u

variable {ε γ : Type*} {α α' β β' : Type u}

/-- The computations fail alike, or their values are related. -/
inductive Agree (related : α → β → Prop) : Except ε α → Except ε β → Prop where
  | stopped (reason : ε) : Agree related (.error reason) (.error reason)
  | returned {left : α} {right : β} :
      related left right → Agree related (.ok left) (.ok right)

namespace Agree

variable {related : α → β → Prop} {related' : α' → β' → Prop}
variable {left : Except ε α} {right : Except ε β}

/-- What a computation is compared with returns, and so does the computation. -/
theorem of_ok {value : β} (agree : Agree related left (.ok value)) :
    ∃ result, left = .ok result ∧ related result value := by
  cases agree with
  | returned holds => exact ⟨_, rfl, holds⟩

theorem bind {next : α → Except ε α'} {next' : β → Except ε β'}
    (agree : Agree related left right)
    (later : ∀ {a b}, related a b → Agree related' (next a) (next' b)) :
    Agree related' (left >>= next) (right >>= next') := by
  cases agree with
  | stopped reason => exact .stopped reason
  | returned holds => exact later holds

theorem foldlM {body : α → γ → Except ε α} {body' : β → γ → Except ε β}
    (items : List γ)
    (step : ∀ {a b}, ∀ item ∈ items, related a b →
      Agree related (body a item) (body' b item))
    {a : α} {b : β} (initially : related a b) :
    Agree related (items.foldlM body a) (items.foldlM body' b) := by
  induction items generalizing a b with
  | nil => exact .returned initially
  | cons item items ih =>
      rw [List.foldlM_cons, List.foldlM_cons]
      refine (step item List.mem_cons_self initially).bind fun holds => ?_
      exact ih (fun later member => step later (List.mem_cons_of_mem _ member)) holds

end Agree

end Grintorrent.Lib
