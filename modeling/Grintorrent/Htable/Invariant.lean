import Grintorrent.Htable.Basic
import Mathlib.Tactic.Common

/-!
# The table invariant

What the table's code relies on without checking it: the array has `capacity`
slots, the entries are placed for linear probing, and a slot without an entry is
as `calloc` returned it.  Each operation gets one lemma that says what it returns
and which slot it changes; everything else in the development goes through them.
-/

namespace Grintorrent

open Lib

theorem words_injective : Function.Injective words := by
  intro left right same
  simp only [words, Prod.mk.injEq] at same
  obtain ⟨low, high⟩ := same
  apply BitVec.eq_of_getLsbD_eq
  intro position inside
  rcases Nat.lt_or_ge position 64 with first | second
  · have bit := congrArg (fun word => word.getLsbD position) low
    simpa [first] using bit
  · have bit := congrArg (fun word => word.getLsbD (position - 64)) high
    have early : position - 64 < 64 := by omega
    simpa [early, Nat.add_sub_cancel' second] using bit

theorem words_eq_zero {hash : Digest} : words hash = (0, 0) ↔ hash = 0 := by
  constructor
  · intro zero
    apply words_injective
    rw [zero]
    rfl
  · rintro rfl
    rfl

theorem Tfile.key_eq_none {slot : Tfile} : slot.key = none ↔ slot.tdef.fHash = 0 := by
  simp only [Tfile.key, words_eq_zero]
  split <;> simp_all

theorem Tfile.key_eq_some {slot : Tfile} {hash : Digest} :
    slot.key = some (words hash) ↔ slot.tdef.fHash = hash ∧ hash ≠ 0 := by
  simp only [Tfile.key, words_eq_zero]
  split
  · simp_all
  · rename_i nonzero
    simp only [Option.some.injEq]
    constructor
    · intro same
      have equal := words_injective same
      exact ⟨equal, equal ▸ nonzero⟩
    · rintro ⟨rfl, _⟩
      rfl

theorem Tfile.key_of_ne_zero {slot : Tfile} (nonzero : slot.tdef.fHash ≠ 0) :
    slot.key = some (words slot.tdef.fHash) :=
  Tfile.key_eq_some.mpr ⟨rfl, nonzero⟩

@[simp] theorem Tfile.key_zero : Tfile.zero.key = none := by
  rw [Tfile.key_eq_none]
  rfl

/-- The probe index only leaves the upward walk at `capacity`. -/
theorem nextIndex_ascending {slots : List Tfile} {capacity : Nat}
    (length : slots.length = capacity) : Ascending (nextIndex capacity) slots := by
  intro index inside
  simp [nextIndex, show ¬capacity ≤ index by omega]

namespace Htable

/-- The array has the capacity the table records and its entries are placed for
linear probing from their home index. -/
structure WF (ht : Htable) : Prop where
  length : ht.table.length = ht.capacity
  placed : Placed Tfile.key (homeIndex ht.capacity) ht.table

/-- Slots without an entry are untouched since `calloc`. -/
def Blank (ht : Htable) : Prop :=
  ∀ {index : Nat} {slot : Tfile}, ht.table[index]? = some slot →
    slot.key = none → slot = .zero

/-- The slot at `index` is an entry for `hash`. -/
def Holds (ht : Htable) (index : Nat) (hash : Digest) (slot : Tfile) : Prop :=
  ht.table[index]? = some slot ∧ slot.tdef.fHash = hash

theorem init_slot {index : Nat} {slot : Tfile}
    (lookup : initHtable.table[index]? = some slot) : slot = .zero := by
  simp only [initHtable, List.getElem?_replicate] at lookup
  split at lookup
  · exact (Option.some.inj lookup).symm
  · simp at lookup

theorem init_wf : initHtable.WF where
  length := by simp [initHtable]
  placed := Placed.of_vacant fun lookup => by
    rw [init_slot lookup, Tfile.key_zero]

theorem init_blank : initHtable.Blank := fun lookup _ => init_slot lookup

variable {ht : Htable} {hash : Digest} {index : Nat}

theorem probe_vacant (length : ht.table.length = ht.capacity)
    (ended : ht.probe hash = .vacant index) :
    homeIndex ht.capacity (words hash) ≤ index ∧
      Passed Tfile.key ht.table (words hash) (homeIndex ht.capacity (words hash)) index ∧
      ∃ slot, ht.table[index]? = some slot ∧ slot.key = none :=
  (probe_inside (nextIndex_ascending length) _).1 index ended

theorem probe_occupied (length : ht.table.length = ht.capacity)
    (ended : ht.probe hash = .occupied index) :
    ∃ slot, ht.table[index]? = some slot ∧ slot.key = some (words hash) :=
  ((probe_inside (nextIndex_ascending length) _).2 index ended).2.2

theorem WF.probe_of_key (wf : ht.WF) {slot : Tfile}
    (lookup : ht.table[index]? = some slot) (held : slot.key = some (words hash)) :
    ht.probe hash = .occupied index := by
  have inside : index < ht.table.length := (List.getElem?_eq_some_iff.mp lookup).1
  have capacity := wf.length
  exact wf.placed.probe_eq (nextIndex_ascending wf.length) lookup held (by omega)

theorem WF.probe_ne_running (wf : ht.WF) : ht.probe hash ≠ .running := by
  have capacity := wf.length
  exact Lib.probe_ne_running (nextIndex_ascending wf.length) (by omega) (by omega)

theorem search_eq_none :
    searchHtable ht hash = .ok none ↔ ∃ index, ht.probe hash = .vacant index := by
  unfold searchHtable
  split <;> simp_all

theorem search_eq_some :
    searchHtable ht hash = .ok (some index) ↔ ht.probe hash = .occupied index := by
  unfold searchHtable
  split <;> simp_all

theorem WF.search_of_holds (wf : ht.WF) {slot : Tfile}
    (holds : ht.Holds index hash slot) (nonzero : hash ≠ 0) :
    searchHtable ht hash = .ok (some index) :=
  search_eq_some.mpr
    (wf.probe_of_key holds.1 (Tfile.key_eq_some.mpr ⟨holds.2, nonzero⟩))

theorem WF.holds_of_search (wf : ht.WF)
    (found : searchHtable ht hash = .ok (some index)) :
    ∃ slot, ht.Holds index hash slot ∧ hash ≠ 0 := by
  obtain ⟨slot, lookup, held⟩ := probe_occupied wf.length (search_eq_some.mp found)
  obtain ⟨same, nonzero⟩ := Tfile.key_eq_some.mp held
  exact ⟨slot, ⟨lookup, same⟩, nonzero⟩

theorem WF.absent_of_search (wf : ht.WF)
    (missing : searchHtable ht hash = .ok none) {slot : Tfile}
    (holds : ht.Holds index hash slot) : hash = 0 := by
  by_contra nonzero
  rw [wf.search_of_holds holds nonzero] at missing
  simp at missing

@[simp] theorem fill_size (ht : Htable) (index : Nat) (tdef : TfileDef) :
    (ht.fill index tdef).size = ht.size + 1 := rfl

theorem fill_table {slot : Tfile} (lookup : ht.table[index]? = some slot)
    (tdef : TfileDef) :
    (ht.fill index tdef).table = ht.table.set index { slot with tdef } := by
  simp [fill, List.modify_eq_set_getElem?, lookup]

theorem setLocations_table {slot : Tfile} (lookup : ht.table[index]? = some slot)
    (fLocation : Option Path) (mLocation : Option Mapping) :
    (ht.setLocations index fLocation mLocation).table =
      ht.table.set index { slot with fLocation, mLocation } := by
  simp [setLocations, List.modify_eq_set_getElem?, lookup]

/-- What the probe part of `add_htable` does: it refuses a hash that has an
entry and changes nothing, or it fills one vacant slot. -/
theorem insert_cases {tdef : TfileDef} {after : Htable} {result : Option Nat}
    (returned : ht.insert tdef = .ok (after, result)) :
    (result = none ∧ after = ht ∧ ∃ index, ht.probe tdef.fHash = .occupied index) ∨
    ∃ index, result = some index ∧ after = ht.fill index tdef ∧
      ht.probe tdef.fHash = .vacant index := by
  unfold insert at returned
  split at returned
  · rename_i index ended
    simp only [Except.ok.injEq, Prod.mk.injEq] at returned
    exact .inr ⟨index, returned.2.symm, returned.1.symm, ended⟩
  · rename_i index ended
    simp only [Except.ok.injEq, Prod.mk.injEq] at returned
    exact .inl ⟨returned.2.symm, returned.1.symm, index, ended⟩
  · simp at returned
  · simp at returned

theorem WF.fill (wf : ht.WF) {tdef : TfileDef} (nonzero : tdef.fHash ≠ 0)
    (ended : ht.probe tdef.fHash = .vacant index) : (ht.fill index tdef).WF := by
  obtain ⟨reached, passed, slot, lookup, vacant⟩ := probe_vacant wf.length ended
  have inside : index < ht.table.length := (List.getElem?_eq_some_iff.mp lookup).1
  refine ⟨?_, ?_⟩
  · simp [Htable.fill, wf.length]
  · rw [fill_table lookup]
    refine wf.placed.set (Tfile.key_of_ne_zero nonzero) inside ?_ reached passed
    intro position other found held
    rw [wf.probe_of_key found held] at ended
    simp at ended

theorem WF.setLocations (wf : ht.WF) {slot : Tfile}
    (lookup : ht.table[index]? = some slot)
    (fLocation : Option Path) (mLocation : Option Mapping) :
    (ht.setLocations index fLocation mLocation).WF := by
  refine ⟨?_, ?_⟩
  · simp [Htable.setLocations, wf.length]
  · rw [setLocations_table lookup]
    exact wf.placed.set_sameKey lookup rfl

theorem WF.relocate (wf : ht.WF) (index : Nat) (fLocation : Option Path)
    (mLocation : Option Mapping) : (ht.setLocations index fLocation mLocation).WF := by
  cases lookup : ht.table[index]? with
  | some slot => exact wf.setLocations lookup fLocation mLocation
  | none =>
      have same : ht.setLocations index fLocation mLocation = ht := by
        simp [Htable.setLocations, List.modify_eq_set_getElem?, lookup]
      rw [same]
      exact wf

/-- A slot filled with the zero hash stays vacant. -/
theorem WF.fill_zero (wf : ht.WF) {tdef : TfileDef} (zero : tdef.fHash = 0)
    (ended : ht.probe tdef.fHash = .vacant index) : (ht.fill index tdef).WF := by
  obtain ⟨_, _, slot, lookup, vacant⟩ := probe_vacant wf.length ended
  have still : ({ slot with tdef } : Tfile).key = none := Tfile.key_eq_none.mpr zero
  refine ⟨by simp [Htable.fill, wf.length], ?_⟩
  rw [fill_table lookup]
  exact wf.placed.set_sameKey lookup (still.trans vacant.symm)

/-- The probe part of `add_htable` keeps the table well formed, whatever the hash. -/
theorem WF.insert (wf : ht.WF) {tdef : TfileDef} {after : Htable} {result : Option Nat}
    (returned : ht.insert tdef = .ok (after, result)) : after.WF := by
  rcases insert_cases returned with ⟨_, rfl, _⟩ | ⟨_, _, rfl, ended⟩
  · exact wf
  · by_cases zero : tdef.fHash = 0
    · exact wf.fill_zero zero ended
    · exact wf.fill zero ended

/-- Writing an entry to a slot leaves the vacant slots untouched. -/
theorem blank_set (blank : ht.Blank) {after : Htable} {slot : Tfile} (held : slot.key ≠ none)
    (table : after.table = ht.table.set index slot) : after.Blank := by
  intro position other found empty
  rw [table, List.getElem?_set] at found
  split at found
  next =>
      split at found
      next =>
          cases found
          exact absurd empty held
      next => simp at found
  next => exact blank found empty

theorem search_setLocations (ht : Htable) (index : Nat)
    (fLocation : Option Path) (mLocation : Option Mapping) (hash : Digest) :
    searchHtable (ht.setLocations index fLocation mLocation) hash =
      searchHtable ht hash := by
  have sameKeys : (ht.setLocations index fLocation mLocation).table.map Tfile.key =
      ht.table.map Tfile.key := by
    apply List.ext_getElem?
    intro position
    simp only [Htable.setLocations, List.getElem?_map, List.getElem?_modify]
    by_cases same : index = position
    · cases lookup : ht.table[position]? <;> simp [same, Tfile.key]
    · simp [same]
  have sameProbe : (ht.setLocations index fLocation mLocation).probe hash =
      ht.probe hash := probe_congr sameKeys
  simp only [searchHtable, sameProbe]

theorem homeIndex_lt {capacity : Nat} (positive : 0 < capacity)
    (key : BitVec 64 × BitVec 64) : homeIndex capacity key < capacity := by
  have masked : homeIndex capacity key ≤ (capacity - 1) % 2 ^ 64 := by
    rw [homeIndex, BitVec.toNat_and, BitVec.toNat_ofNat]
    exact Nat.and_le_right
  have reduced := Nat.mod_le (capacity - 1) (2 ^ 64)
  omega

theorem probe_init (hash : Digest) :
    initHtable.probe hash = .vacant (homeIndex startingCapacity (words hash)) := by
  have inside : homeIndex startingCapacity (words hash) < startingCapacity :=
    homeIndex_lt (by decide) (words hash)
  have lookup : initHtable.table[homeIndex startingCapacity (words hash)]? = some .zero := by
    simp [initHtable, inside]
  have capacity : initHtable.capacity = startingCapacity := rfl
  simp only [Htable.probe, Lib.probe, capacity, lookup, Tfile.key_zero]

theorem search_init (hash : Digest) : searchHtable initHtable hash = .ok none :=
  search_eq_none.mpr ⟨_, probe_init hash⟩

theorem insert_init (tdef : TfileDef) :
    initHtable.insert tdef =
      .ok (initHtable.fill (homeIndex startingCapacity (words tdef.fHash)) tdef,
        some (homeIndex startingCapacity (words tdef.fHash))) := by
  simp only [insert, probe_init]

end Htable

theorem addHtable_init (callocOk : Nat → Bool) (fuel : Nat) (tdef : TfileDef) :
    addHtable callocOk (fuel + 1) initHtable tdef =
      .ok (initHtable.fill (homeIndex startingCapacity (words tdef.fHash)) tdef,
        some (homeIndex startingCapacity (words tdef.fHash))) := by
  have calm : ¬initHtable.Grows := by decide
  simp only [addHtable, if_neg calm, Htable.insert_init]

end Grintorrent
