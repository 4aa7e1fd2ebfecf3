import Grintorrent.Lib.Probing
import Mathlib.Data.Nat.Find

/-!
# Packed arrays

What is left of the placement invariant when several writers share an array: a writer
that has walked over occupied slots stores its key in the slot behind them, whatever that
slot holds by then.  Keys may be lost or stored twice, but no vacant slot ever separates an
entry from the home index of its key, so that a run still decides membership.
-/

namespace Grintorrent.Lib

section Packing

variable {σ κ : Type*} {keyOf : σ → Option κ} {home : κ → Nat} {next : Nat → Nat}
variable {slots : List σ} {key : κ} {start index stop fuel : Nat}

/-- Slots `start` to `stop - 1` all hold keys. -/
def Occupied (keyOf : σ → Option κ) (slots : List σ) (start stop : Nat) : Prop :=
  ∀ position, start ≤ position → position < stop →
    ∃ slot other, slots[position]? = some slot ∧ keyOf slot = some other

namespace Occupied

theorem refl (keyOf : σ → Option κ) (slots : List σ) (start : Nat) :
    Occupied keyOf slots start start := by
  intro position after before
  omega

theorem snoc {slot : σ} {other : κ} (occupied : Occupied keyOf slots start stop)
    (lookup : slots[stop]? = some slot) (held : keyOf slot = some other) :
    Occupied keyOf slots start (stop + 1) := by
  intro position after before
  rcases Nat.lt_succ_iff_lt_or_eq.mp before with earlier | rfl
  · exact occupied position after earlier
  · exact ⟨slot, other, lookup, held⟩

theorem set {changed : σ} {other : κ} (occupied : Occupied keyOf slots start stop)
    (holds : keyOf changed = some other) :
    Occupied keyOf (slots.set index changed) start stop := by
  intro position after before
  obtain ⟨slot, found, lookup, held⟩ := occupied position after before
  have inside := (List.getElem?_eq_some_iff.mp lookup).1
  by_cases same : index = position
  · subst same
    exact ⟨changed, other, List.getElem?_set_self inside, holds⟩
  · exact ⟨slot, found, by rw [List.getElem?_set_ne same, lookup], held⟩

end Occupied

theorem Passed.occupied (passed : Passed keyOf slots key start stop) :
    Occupied keyOf slots start stop := by
  intro position after before
  obtain ⟨slot, other, lookup, held, _⟩ := passed position after before
  exact ⟨slot, other, lookup, held⟩

theorem Passed.snoc {slot : σ} {other : κ} (passed : Passed keyOf slots key start stop)
    (lookup : slots[stop]? = some slot) (held : keyOf slot = some other)
    (different : other ≠ key) : Passed keyOf slots key start (stop + 1) := by
  intro position after before
  rcases Nat.lt_succ_iff_lt_or_eq.mp before with earlier | rfl
  · exact passed position after earlier
  · exact ⟨slot, other, lookup, held, different⟩

theorem Passed.set {changed slot : σ} (passed : Passed keyOf slots key start stop)
    (lookup : slots[index]? = some slot) (vacant : keyOf slot = none) :
    Passed keyOf (slots.set index changed) key start stop := by
  intro position after before
  obtain ⟨passedSlot, other, found, held, different⟩ := passed position after before
  have apart : index ≠ position := by
    rintro rfl
    obtain rfl := Option.some.inj (lookup.symm.trans found)
    rw [vacant] at held
    exact nomatch held
  exact ⟨passedSlot, other, by rw [List.getElem?_set_ne apart, found], held, different⟩

/-- Every entry is reachable from its key's home index without crossing a vacant slot. -/
structure Packed (keyOf : σ → Option κ) (home : κ → Nat) (slots : List σ) : Prop where
  home_le : ∀ {index : Nat} {slot : σ} {key : κ},
    slots[index]? = some slot → keyOf slot = some key → home key ≤ index
  filled : ∀ {index : Nat} {slot : σ} {key : κ},
    slots[index]? = some slot → keyOf slot = some key → Occupied keyOf slots (home key) index

theorem Placed.packed (placed : Placed keyOf home slots) : Packed keyOf home slots where
  home_le := placed.home_le
  filled lookup held := (placed.passed lookup held).occupied

/-- Storing a key behind occupied slots keeps the array packed, whatever the slot held. -/
theorem Packed.set {changed : σ} (packed : Packed keyOf home slots)
    (holds : keyOf changed = some key) (reached : home key ≤ stop)
    (occupied : Occupied keyOf slots (home key) stop) :
    Packed keyOf home (slots.set stop changed) where
  home_le := by
    intro index slot found lookup held
    rw [List.getElem?_set] at lookup
    split at lookup
    next same =>
      split at lookup
      next inside =>
        obtain rfl := Option.some.inj lookup
        obtain rfl := Option.some.inj (holds.symm.trans held)
        rwa [← same]
      next => exact nomatch lookup
    next => exact packed.home_le lookup held
  filled := by
    intro index slot found lookup held
    rw [List.getElem?_set] at lookup
    split at lookup
    next same =>
      split at lookup
      next inside =>
        obtain rfl := Option.some.inj lookup
        obtain rfl := Option.some.inj (holds.symm.trans held)
        rw [← same]
        exact occupied.set holds
      next => exact nomatch lookup
    next => exact (packed.filled lookup held).set holds

variable [DecidableEq κ]

/-- A run that has passed only other keys ends at the vacant slot behind them. -/
theorem probe_eq_vacant {slot : σ} (ascending : Ascending next slots)
    (enough : stop - index < fuel) (before : index ≤ stop)
    (passed : Passed keyOf slots key index stop) (lookup : slots[stop]? = some slot)
    (vacant : keyOf slot = none) : probe keyOf next slots key fuel index = .vacant stop := by
  obtain ⟨left, positive, reached⟩ := probe_of_passed ascending enough before passed
  rw [reached]
  cases left with
  | zero => omega
  | succ left => simp [probe, lookup, vacant]

/-- An entry is reached from the home index of its key, at the latest where it lies. -/
theorem Packed.probe_of_key {slot : σ} (packed : Packed keyOf home slots)
    (ascending : Ascending next slots) (lookup : slots[index]? = some slot)
    (held : keyOf slot = some key) (enough : slots.length < fuel) :
    ∃ first ≤ index, probe keyOf next slots key fuel (home key) = .occupied first := by
  classical
  -- The run ends at the first slot from the home index on that holds the key.
  have present : ∃ position, home key ≤ position ∧
      ∃ slot, slots[position]? = some slot ∧ keyOf slot = some key :=
    ⟨index, packed.home_le lookup held, slot, lookup, held⟩
  obtain ⟨after, firstSlot, firstLookup, firstHeld⟩ := Nat.find_spec present
  have inside := (List.getElem?_eq_some_iff.mp firstLookup).1
  refine ⟨Nat.find present, Nat.find_min' present ⟨packed.home_le lookup held, slot, lookup,
    held⟩, probe_eq_occupied ascending (by omega) after ?_ firstLookup firstHeld⟩
  intro position beyond before
  obtain ⟨between, other, found, holds⟩ :=
    packed.filled firstLookup firstHeld position beyond before
  refine ⟨between, other, found, holds, ?_⟩
  rintro rfl
  exact Nat.find_min present before ⟨beyond, between, found, holds⟩

/-- **Membership.**  In a packed array a run finds a key exactly if some slot holds it. -/
theorem Packed.probe_occupied_iff (packed : Packed keyOf home slots)
    (ascending : Ascending next slots) (enough : slots.length < fuel) :
    (∃ index, probe keyOf next slots key fuel (home key) = .occupied index) ↔
      ∃ (index : Nat) (slot : σ), slots[index]? = some slot ∧ keyOf slot = some key := by
  constructor
  · rintro ⟨index, ended⟩
    obtain ⟨_, _, slot, lookup, held⟩ := (probe_inside ascending _).2 index ended
    exact ⟨index, slot, lookup, held⟩
  · rintro ⟨index, slot, lookup, held⟩
    obtain ⟨first, _, ended⟩ := packed.probe_of_key ascending lookup held enough
    exact ⟨first, ended⟩

end Packing

end Grintorrent.Lib
