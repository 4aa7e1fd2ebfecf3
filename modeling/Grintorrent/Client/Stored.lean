import Grintorrent.Client.Entries
import Grintorrent.Htable.Listing

/-!
# Definitions in the table

Which definition a table holds under a hash, and that the calls on a table keep what it
holds as long as `resize_htable` does not replace the array.
-/

namespace Grintorrent

open Lib

namespace Htable

variable {ht after : Htable} {hash : Digest} {index : Nat} {tdef held : TfileDef} {slot : Tfile}
variable {callocOk : Nat → Bool} {fuel : Nat} {result : Option Nat}

/-- The table holds this definition under its hash. -/
def Stored (ht : Htable) (tdef : TfileDef) : Prop :=
  ∃ tf, ht.Entry tdef.fHash tf ∧ tf.tdef = tdef

/-- `add_htable` does not replace the array: there is room, or none for another one. -/
def Stays (callocOk : Nat → Bool) (ht : Htable) : Prop :=
  ht.Grows → callocOk ht.callocs = false

/-- What the calls on a table keep as long as its array is not replaced. -/
structure Regular (ht : Htable) : Prop where
  wf : ht.WF
  blank : ht.Blank
  counted : ht.Counted

/-- The table is regular and holds what it held before. -/
structure Keeps (before after : Htable) : Prop where
  regular : after.Regular
  stored : ∀ {tdef}, before.Stored tdef → after.Stored tdef

theorem regular_init : initHtable.Regular where
  wf := init_wf
  blank := init_blank
  counted := init_counted

theorem Regular.keeps (regular : ht.Regular) : ht.Keeps ht where
  regular := regular
  stored := id

theorem Stored.unique (left : ht.Stored tdef) (right : ht.Stored held)
    (same : held.fHash = tdef.fHash) : held = tdef := by
  obtain ⟨tf, entry, rfl⟩ := left
  obtain ⟨tf', entry', rfl⟩ := right
  rw [same] at entry'
  rw [entry'.unique entry]

theorem Regular.stored_iff (regular : ht.Regular) :
    ht.Stored tdef ↔ tdef.fHash ≠ 0 ∧ ∃ slot ∈ ht.table, slot.tdef = tdef := by
  constructor
  · rintro ⟨tf, ⟨index, found⟩, same⟩
    obtain ⟨lookup, _, nonzero⟩ := lookupTfile_entry found
    exact ⟨nonzero, tf, List.mem_of_getElem? lookup, same⟩
  · rintro ⟨nonzero, slot, member, rfl⟩
    obtain ⟨index, lookup⟩ := List.getElem?_of_mem member
    exact ⟨slot, regular.wf.entry lookup nonzero, rfl⟩

theorem Regular.setLocations (regular : ht.Regular) (lookup : ht.table[index]? = some slot)
    (held : slot.key ≠ none) (fLocation : Option Path) (mLocation : Option Mapping) :
    (ht.setLocations index fLocation mLocation).Regular where
  wf := regular.wf.setLocations lookup fLocation mLocation
  blank := by
    refine blank_set regular.blank ?_ (setLocations_table lookup fLocation mLocation)
    exact held
  counted := regular.counted.setLocations lookup fLocation mLocation

theorem Regular.attached (regular : ht.Regular) (attached : Attached ht hash after) :
    ht.Keeps after where
  regular := by
    cases attached with
    | unchanged => exact regular
    | @attached index tf fLocation mLocation found =>
        obtain ⟨lookup, same, nonzero⟩ := lookupTfile_entry found
        have held : tf.key ≠ none := by
          rw [ne_eq, Tfile.key_eq_none, same]
          exact nonzero
        exact regular.setLocations lookup held fLocation mLocation
  stored := by
    rintro tdef ⟨tf, entry, same⟩
    obtain ⟨tf', entry', kept⟩ := attached.tdef entry
    exact ⟨tf', entry', kept.trans same⟩

theorem Regular.fill (regular : ht.Regular) (nonzero : tdef.fHash ≠ 0)
    (ended : ht.probe tdef.fHash = .vacant index) : (ht.fill index tdef).Regular where
  wf := regular.wf.fill nonzero ended
  blank := by
    obtain ⟨_, _, slot, lookup, _⟩ := probe_vacant regular.wf.length ended
    refine blank_set regular.blank ?_ (fill_table lookup tdef)
    intro empty
    exact nonzero (Tfile.key_eq_none.mp empty)
  counted := regular.counted.fill regular.wf nonzero ended

/-- A filled slot was vacant, so nothing else is lost. -/
theorem Regular.fill_keeps (regular : ht.Regular) (nonzero : tdef.fHash ≠ 0)
    (ended : ht.probe tdef.fHash = .vacant index) : ht.Keeps (ht.fill index tdef) where
  regular := regular.fill nonzero ended
  stored := by
    intro held isStored
    obtain ⟨_, _, slot, lookup, vacant⟩ := probe_vacant regular.wf.length ended
    obtain ⟨isEntry, other, member, rfl⟩ := regular.stored_iff.mp isStored
    obtain ⟨position, found⟩ := List.getElem?_of_mem member
    have elsewhere : index ≠ position := by
      rintro rfl
      rw [lookup, Option.some.injEq] at found
      rw [found, Tfile.key_eq_none] at vacant
      exact isEntry vacant
    apply (regular.fill nonzero ended).stored_iff.mpr
    refine ⟨isEntry, other, ?_, rfl⟩
    apply List.mem_of_getElem? (i := position)
    rw [fill_table lookup, List.getElem?_set_ne elsewhere]
    exact found

theorem Regular.fill_found (regular : ht.Regular) (nonzero : tdef.fHash ≠ 0)
    (ended : ht.probe tdef.fHash = .vacant index) :
    lookupTfile (ht.fill index tdef) tdef.fHash =
      .ok (some (index, { Tfile.zero with tdef })) := by
  obtain ⟨_, _, slot, lookup, vacant⟩ := probe_vacant regular.wf.length ended
  obtain rfl := regular.blank lookup vacant
  have inside : index < ht.table.length := (List.getElem?_eq_some_iff.mp lookup).1
  have filled : (ht.fill index tdef).table[index]? = some { Tfile.zero with tdef } := by
    rw [fill_table lookup, List.getElem?_set_self inside]
  have searched := (regular.wf.fill nonzero ended).search_of_holds ⟨filled, rfl⟩ nonzero
  simp only [lookupTfile, searched, Result.ok_bind, filled]

/-- Without a new array, `add_htable` is its probe part. -/
theorem addHtable_of_stays (stays : ht.Stays callocOk)
    (completes : addHtable callocOk fuel ht tdef = .ok (after, result)) :
    ∃ callocs, Htable.insert { ht with callocs } tdef = .ok (after, result) := by
  rcases addHtable_inserts completes with ⟨_, inserted⟩ | ⟨grows, _, resized, _, resizes, inserted⟩
  · exact ⟨ht.callocs, inserted⟩
  · rcases resizeHtable_cases resizes with rfl | ⟨allocated, _⟩
    · exact ⟨_, inserted⟩
    · rw [stays grows] at allocated
      simp at allocated

theorem Regular.callocs (regular : ht.Regular) (callocs : Nat) :
    ht.Keeps { ht with callocs } where
  regular := ⟨⟨regular.wf.length, regular.wf.placed⟩, regular.blank, regular.counted⟩
  stored := id

/-- **`add_htable`** keeps what the table holds, and the definition is stored afterwards
unless another one was under its hash. -/
theorem Regular.addHtable (regular : ht.Regular) (stays : ht.Stays callocOk)
    (nonzero : tdef.fHash ≠ 0)
    (completes : Grintorrent.addHtable callocOk fuel ht tdef = .ok (after, result)) :
    ht.Keeps after ∧
      (after.Stored tdef ↔ ∀ held, ht.Stored held → held.fHash = tdef.fHash → held = tdef) := by
  obtain ⟨callocs, inserted⟩ := addHtable_of_stays stays completes
  have counted := regular.callocs callocs
  rcases insert_cases inserted with ⟨_, rfl, place, ended⟩ | ⟨place, _, rfl, ended⟩
  · refine ⟨counted, ?_⟩
    obtain ⟨slot, lookup, isKey⟩ := probe_occupied counted.regular.wf.length ended
    have same := (Tfile.key_eq_some.mp isKey).1
    have isStored : ht.Stored slot.tdef := by
      apply regular.stored_iff.mpr
      exact ⟨same ▸ nonzero, slot, List.mem_of_getElem? lookup, rfl⟩
    constructor
    · intro added held isHeld equal
      exact Stored.unique added (counted.stored isHeld) equal
    · intro unique
      rw [← unique slot.tdef isStored same]
      exact counted.stored isStored
  · have kept := counted.regular.fill_keeps nonzero ended
    have added : Stored _ tdef := ⟨_, ⟨place, counted.regular.fill_found nonzero ended⟩, rfl⟩
    refine ⟨⟨kept.regular, fun isStored => kept.stored (counted.stored isStored)⟩, ?_⟩
    constructor
    · intro _ held isHeld equal
      exact added.unique (kept.stored (counted.stored isHeld)) equal
    · intro _
      exact added

theorem Regular.addHtable_found (regular : ht.Regular) (stays : ht.Stays callocOk)
    (nonzero : tdef.fHash ≠ 0)
    (completes : Grintorrent.addHtable callocOk fuel ht tdef = .ok (after, some index)) :
    lookupTfile after tdef.fHash = .ok (some (index, { Tfile.zero with tdef })) := by
  obtain ⟨callocs, inserted⟩ := addHtable_of_stays stays completes
  rcases insert_cases inserted with ⟨refused, _⟩ | ⟨place, isPlace, rfl, ended⟩
  · simp at refused
  · cases isPlace
    exact (regular.callocs callocs).regular.fill_found nonzero ended

theorem Regular.search_fresh (regular : ht.Regular) (fresh : ∀ tf, ¬ht.Entry hash tf)
    (searched : searchHtable ht hash = .ok result) : result = none := by
  cases result with
  | none => rfl
  | some index =>
      obtain ⟨slot, ⟨lookup, _⟩, _⟩ := regular.wf.holds_of_search searched
      exact absurd ⟨index, by simp only [lookupTfile, searched, Result.ok_bind, lookup]⟩
        (fresh slot)

/-- A definition with a hash of zero is never found. -/
theorem not_stored_zero (zero : tdef.fHash = 0) : ¬ht.Stored tdef := by
  rintro ⟨tf, ⟨index, found⟩, _⟩
  exact (lookupTfile_entry found).2.2 zero

theorem Regular.listTfiles (regular : ht.Regular) {listed : List TfileDef}
    (returned : listTfiles ht = .ok listed) (member : tdef ∈ listed) : ht.Stored tdef := by
  have all := @listFrom_eq ht regular.wf.length ht.capacity 0 (Nat.le_refl _)
  simp only [Nat.sub_self, List.drop_zero, Nat.zero_add] at all
  rw [Grintorrent.listTfiles, all (regular.counted.room regular.blank)] at returned
  cases returned
  obtain ⟨⟨slot, inTable, rfl⟩, positive⟩ := mem_sized.mp member
  apply regular.stored_iff.mpr
  refine ⟨?_, slot, inTable, rfl⟩
  intro zero
  obtain ⟨index, lookup⟩ := List.getElem?_of_mem inTable
  have blank := regular.blank lookup (Tfile.key_eq_none.mpr zero)
  subst blank
  simp [Tfile.zero, TfileDef.zero] at positive

end Htable

end Grintorrent
