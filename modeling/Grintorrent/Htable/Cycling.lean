import Grintorrent.Htable.Growth
import Grintorrent.Htable.Wrapping

/-!
# Probes that go on behind the array

A probe that passes the last slot reads the slot behind the array and then goes on at
slot 0.  Here the slot behind the array may hold anything, at each call something else.
Before growth the table always has a vacant slot, and a probe meets it before it has gone
once around.
-/

namespace Grintorrent

open Lib

namespace Htable

/-- The probe loop with `behind` read at index `capacity`, left after `fuel` slots. -/
def probeBehind (ht : Htable) (behind : Tfile) (fuel : Nat) (hash : Digest) : Probe :=
  Lib.probe Tfile.key (nextIndex ht.capacity) (ht.table ++ [behind]) (words hash)
    fuel (homeIndex ht.capacity (words hash))

/-- The indexes of the slots that this loop examines. -/
def examined (ht : Htable) (behind : Tfile) (fuel : Nat) (hash : Digest) : List Nat :=
  Lib.visited Tfile.key (nextIndex ht.capacity) (ht.table ++ [behind]) (words hash)
    fuel (homeIndex ht.capacity (words hash))

/-- `search_htable`. -/
def searchBehind (ht : Htable) (behind : Tfile) (fuel : Nat) (hash : Digest) :
    Result (Option Nat) :=
  match ht.probeBehind behind fuel hash with
  | .vacant _ => .ok none
  | .occupied index => .ok (some index)
  | .outside _ => .error .outOfRange
  | .running => .error .running

/-- The part of `add_htable` after the growth test.  Filling the slot behind the array
counts the definition and leaves the table as it is. -/
def insertBehind (ht : Htable) (behind : Tfile) (fuel : Nat) (tdef : TfileDef) :
    Result (Htable × Option Nat) :=
  match ht.probeBehind behind fuel tdef.fHash with
  | .vacant index => .ok (ht.fill index tdef, some index)
  | .occupied _ => .ok (ht, none)
  | .outside _ => .error .outOfRange
  | .running => .error .running

end Htable

/-- Tables that `add_htable` calls lead to from `init_htable`, before growth, whatever
they read behind the array. -/
inductive ReachableBehind : Htable → Prop where
  | init : ReachableBehind initHtable
  | add {ht after : Htable} {behind : Tfile} {fuel : Nat} {tdef : TfileDef}
      {result : Option Nat} :
      ReachableBehind ht → ¬ht.Grows →
      ht.insertBehind behind fuel tdef = .ok (after, result) →
      ReachableBehind after

section Behind

variable {ht after : Htable} {behind : Tfile} {fuel : Nat} {tdef : TfileDef} {hash : Digest}
variable {result : Option Nat}

theorem insertBehind_cases (returned : ht.insertBehind behind fuel tdef = .ok (after, result)) :
    after = ht ∨ ∃ index, after = ht.fill index tdef := by
  unfold Htable.insertBehind at returned
  split at returned
  next index _ =>
      cases returned
      exact .inr ⟨index, rfl⟩
  next =>
      cases returned
      exact .inl rfl
  next => cases returned
  next => cases returned

theorem entries_fill_le (ht : Htable) (index : Nat) (tdef : TfileDef) :
    (ht.fill index tdef).entries ≤ ht.entries + 1 := by
  cases lookup : ht.table[index]? with
  | none =>
      have outside : ht.table.length ≤ index := List.getElem?_eq_none_iff.mp lookup
      simp [Htable.entries, Htable.fill, List.modify_eq_self outside]
  | some slot =>
      obtain ⟨inside, _⟩ := List.getElem?_eq_some_iff.mp lookup
      rw [Htable.entries, Htable.fill_table lookup, List.countP_set inside, Htable.entries]
      split <;> split <;> omega

/-- What holds of these tables: entries are counted, and growth is not overdue by more
than one definition. -/
structure Filling (ht : Htable) : Prop where
  capacity : ht.capacity = startingCapacity
  length : ht.table.length = startingCapacity
  counted : ht.entries ≤ ht.size
  early : ht.size ≤ 129

theorem Filling.init : Filling initHtable where
  capacity := rfl
  length := List.length_replicate
  counted := by
    rw [Htable.entries, initHtable, List.countP_replicate]
    simp
  early := by decide

theorem Filling.add (filling : Filling ht) (calm : ¬ht.Grows)
    (returned : ht.insertBehind behind fuel tdef = .ok (after, result)) : Filling after := by
  rcases insertBehind_cases returned with rfl | ⟨index, rfl⟩
  · exact filling
  · have more := entries_fill_le ht index tdef
    have counted := filling.counted
    have capacity := filling.capacity
    refine ⟨capacity, ?_, ?_, ?_⟩
    · rw [← filling.length]
      exact List.length_modify ..
    · rw [Htable.fill_size]
      omega
    · rw [Htable.fill_size]
      simp only [Htable.Grows, capacity, startingCapacity] at calm
      omega

theorem ReachableBehind.filling (reachable : ReachableBehind ht) : Filling ht := by
  induction reachable with
  | init => exact Filling.init
  | add _ calm returned ih => exact ih.add calm returned

theorem Filling.exists_vacant (filling : Filling ht) :
    ∃ (index : Nat) (slot : Tfile), ht.table[index]? = some slot ∧ slot.key = none := by
  refine Grintorrent.exists_vacant (filling.length.trans filling.capacity.symm) ?_
  have counted := filling.counted
  have early := filling.early
  rw [filling.capacity, startingCapacity]
  omega

/-- `nextIndex` leads around the array and the slot behind it. -/
theorem nextIndex_cyclic (length : ht.table.length = ht.capacity) (behind : Tfile) :
    Cyclic (nextIndex ht.capacity) (ht.table ++ [behind]) := by
  intro index inside
  simp only [List.length_append, List.length_singleton, length] at inside ⊢
  unfold nextIndex
  split
  next last =>
      rw [show index = ht.capacity by omega, Nat.mod_self]
  next => rw [Nat.mod_eq_of_lt (by omega)]

/-- While the table is filling, a probe ends before it has gone once around. -/
theorem Filling.probe_ends (filling : Filling ht) (behind : Tfile) (fuel : Nat)
    (hash : Digest) :
    (ht.examined behind fuel hash).length ≤ ht.capacity + 1 ∧
      (ht.capacity + 1 ≤ fuel → (ht.probeBehind behind fuel hash).Ended) := by
  obtain ⟨position, slot, lookup, vacant⟩ := filling.exists_vacant
  have length := filling.length.trans filling.capacity.symm
  have home := Htable.homeIndex_lt (show 0 < ht.capacity by rw [filling.capacity]; decide)
    (words hash)
  have around : (ht.table ++ [behind]).length = ht.capacity + 1 := by simp [length]
  have kept : (ht.table ++ [behind])[position]? = some slot := by
    rw [List.getElem?_append_left (List.getElem?_eq_some_iff.mp lookup).1, lookup]
  have ends := @Cyclic.run_ends _ _ _ _ _ (words hash) fuel
    (homeIndex ht.capacity (words hash)) _ (nextIndex_cyclic length behind) _ _ (by omega)
    kept vacant
  rw [around] at ends
  exact ends

/-- **Probing terminates.**  In every table that `add_htable` calls lead to before growth,
whatever they read behind the array, the loops of `search_htable` and `add_htable` examine
at most `capacity + 1` slots for any hash, and granted as many the two calls return. -/
theorem probing_terminates (reachable : ReachableBehind ht) (behind : Tfile) (fuel : Nat)
    (tdef : TfileDef) :
    (ht.examined behind fuel tdef.fHash).length ≤ ht.capacity + 1 ∧
      (ht.capacity + 1 ≤ fuel →
        (∃ found, ht.searchBehind behind fuel tdef.fHash = .ok found) ∧
        ∃ returned, ht.insertBehind behind fuel tdef = .ok returned) := by
  obtain ⟨few, ends⟩ := reachable.filling.probe_ends behind fuel tdef.fHash
  refine ⟨few, fun enough => ?_⟩
  rcases ends enough with ⟨index, ended⟩ | ⟨index, ended⟩
  · simp [Htable.searchBehind, Htable.insertBehind, ended]
  · simp [Htable.searchBehind, Htable.insertBehind, ended]

/-- An insertion that stays in the array is the one that reads whatever is behind it. -/
theorem insertBehind_of_insert (returned : ht.insert tdef = .ok (after, result)) :
    ht.insertBehind behind (ht.capacity + 1) tdef = .ok (after, result) := by
  have ended : (ht.probe tdef.fHash).Ended := by
    rcases Htable.insert_cases returned with ⟨_, _, index, ended⟩ | ⟨index, _, _, ended⟩
    · exact .inr ⟨index, ended⟩
    · exact .inl ⟨index, ended⟩
  have same : ht.probeBehind behind (ht.capacity + 1) tdef.fHash = ht.probe tdef.fHash :=
    @probe_append _ _ _ _ _ _ _ _ _ [behind] 0 ended
  rw [Htable.insertBehind, same]
  exact returned

theorem AddRun.reachableBehind {callocOk : Nat → Bool} {defs : List TfileDef}
    (run : AddRun callocOk defs ht) : ReachableBehind ht := by
  induction run with
  | init => exact .init
  | add _ calm completes ih =>
      have inserts := addHtable_of_not_grows calm completes
      exact .add ih calm (@insertBehind_of_insert _ _ .zero _ _ inserts)

end Behind

/-- A probe from the last slot of a table whose last slot is taken, with the same key
behind the array. -/
theorem probing_terminates_last :
    ∃ ht, AddRun (fun _ => true) [lastDef] ht ∧ ht.capacity = 256 ∧
      (ht.examined { Tfile.zero with tdef := lastDef } 300 0x1FF).length ≤ 257 := by
  have reachable := (AddRun.single lastDef).reachableBehind
  exact ⟨_, .single lastDef, rfl,
    (probing_terminates reachable { Tfile.zero with tdef := lastDef } 300
      { sampleDef with fHash := 0x1FF }).1⟩

end Grintorrent
