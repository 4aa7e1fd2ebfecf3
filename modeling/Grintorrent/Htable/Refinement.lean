import Grintorrent.Htable.Invariant
import Mathlib.Logic.Function.Basic

/-!
# The table refines a finite map

`TableMap` is what the table is for: a partial function from hashes to entries
in which the first definition added under a hash stays and locations can be
attached to it later.  `Refines` relates a table to a map; every call that
completes without growing the table keeps the two in step, so after any such
sequence of calls the table answers as the map of its history does.
-/

namespace Grintorrent

open Lib

/-- The calls made on the table.  `attach` is the assignment of the two location
fields through a pointer that a lookup returned. -/
inductive TableOp where
  | add (tdef : TfileDef)
  | search (hash : Digest)
  | attach (hash : Digest) (fLocation : Option Path) (mLocation : Option Mapping)

namespace TableOp

/-- Run one call on the table. -/
def call (callocOk : Nat → Bool) (fuel : Nat) (ht : Htable) :
    TableOp → Result (Htable × Option Nat)
  | .add tdef => addHtable callocOk fuel ht tdef
  | .search hash => do
      let found ← searchHtable ht hash
      .ok (ht, found)
  | .attach hash fLocation mLocation => do
      let found ← searchHtable ht hash
      match found with
      | none => .ok (ht, none)
      | some index => .ok (ht.setLocations index fLocation mLocation, found)

/-- The call adds a non-zero hash without triggering `resize_htable`, or does
not add at all. -/
def Calm (ht : Htable) : TableOp → Prop
  | .add tdef => tdef.fHash ≠ 0 ∧ ¬ht.Grows
  | _ => True

variable {callocOk : Nat → Bool} {fuel : Nat} {ht after : Htable} {result : Option Nat}

theorem call_search {hash : Digest}
    (completes : (search hash).call callocOk fuel ht = .ok (after, result)) : after = ht := by
  simp only [call, Result.bind_eq_ok, Except.ok.injEq, Prod.mk.injEq] at completes
  obtain ⟨_, _, same, _⟩ := completes
  exact same.symm

theorem call_attach {hash : Digest} {fLocation : Option Path} {mLocation : Option Mapping}
    (completes : (attach hash fLocation mLocation).call callocOk fuel ht = .ok (after, result)) :
    (searchHtable ht hash = .ok none ∧ after = ht) ∨
      ∃ index, searchHtable ht hash = .ok (some index) ∧
        after = ht.setLocations index fLocation mLocation := by
  simp only [call, Result.bind_eq_ok] at completes
  obtain ⟨found, searched, attached⟩ := completes
  cases found with
  | none =>
      cases attached
      exact .inl ⟨searched, rfl⟩
  | some index =>
      cases attached
      exact .inr ⟨index, searched, rfl⟩

end TableOp

/-- Sequences of calls from `init_htable` that all complete, add non-zero hashes
only and never grow the table, with the table they lead to. -/
inductive CalmRun (callocOk : Nat → Bool) : List TableOp → Htable → Prop where
  | init : CalmRun callocOk [] initHtable
  | call {calls : List TableOp} {ht after : Htable} {op : TableOp}
      {fuel : Nat} {result : Option Nat} :
      CalmRun callocOk calls ht → op.Calm ht →
      op.call callocOk fuel ht = .ok (after, result) →
      CalmRun callocOk (calls ++ [op]) after

/-- Some call of the sequence added this hash. -/
def Added (calls : List TableOp) (hash : Digest) : Prop :=
  ∃ tdef, TableOp.add tdef ∈ calls ∧ tdef.fHash = hash

/-- The definition that was first added under a hash. -/
def firstAdded (calls : List TableOp) (hash : Digest) : Option TfileDef :=
  calls.findSome? fun
    | .add tdef => if tdef.fHash = hash then some tdef else none
    | _ => none

/-- A partial function from hashes to entries. -/
abbrev TableMap := Digest → Option Tfile

namespace TableMap

/-- The effect of a call on the map. -/
def step (map : TableMap) : TableOp → TableMap
  | .add tdef =>
      if (map tdef.fHash).isSome then map
      else Function.update map tdef.fHash
        (some { tdef, fLocation := none, mLocation := none })
  | .search _ => map
  | .attach hash fLocation mLocation =>
      Function.update map hash
        ((map hash).map fun slot => { slot with fLocation, mLocation })

/-- The map that a sequence of calls leads to. -/
def ofCalls (calls : List TableOp) : TableMap :=
  calls.foldl step fun _ => none

@[simp] theorem ofCalls_snoc (calls : List TableOp) (op : TableOp) :
    ofCalls (calls ++ [op]) = (ofCalls calls).step op := by
  simp [ofCalls]

/-- The map holds, under each hash, the definition first added under it. -/
theorem ofCalls_tdef (calls : List TableOp) (hash : Digest) :
    (ofCalls calls hash).map Tfile.tdef = firstAdded calls hash := by
  induction calls using List.reverseRecOn with
  | nil => rfl
  | append_singleton calls op ih =>
      rw [ofCalls_snoc, firstAdded, List.findSome?_append, ← firstAdded, ← ih]
      cases op with
      | search query => simp [step]
      | attach query fLocation mLocation =>
          by_cases same : hash = query
          · subst same
            cases found : ofCalls calls hash <;> simp [step, found]
          · simp [step, same]
      | add tdef =>
          by_cases same : hash = tdef.fHash
          · subst same
            cases found : ofCalls calls tdef.fHash <;> simp [step, found]
          · have other : tdef.fHash ≠ hash := fun equal => same equal.symm
            cases present : (ofCalls calls tdef.fHash).isSome <;>
              simp [step, present, same, other]

theorem ofCalls_isSome (calls : List TableOp) (hash : Digest) :
    (ofCalls calls hash).isSome ↔ Added calls hash := by
  have first := ofCalls_tdef calls hash
  have viaFirst : (ofCalls calls hash).isSome = (firstAdded calls hash).isSome := by
    rw [← first, Option.isSome_map]
  rw [viaFirst, firstAdded, List.findSome?_isSome_iff]
  constructor
  · rintro ⟨op, member, found⟩
    cases op with
    | add tdef =>
        refine ⟨tdef, member, ?_⟩
        by_contra different
        simp [different] at found
    | search query => simp at found
    | attach query fLocation mLocation => simp at found
  · rintro ⟨tdef, member, same⟩
    exact ⟨.add tdef, member, by simp [same]⟩

end TableMap

/-! ## Refinement -/

/-- The entries of a well-formed table are exactly those of the map. -/
structure Refines (ht : Htable) (map : TableMap) : Prop where
  wf : ht.WF
  blank : ht.Blank
  entry : ∀ {index : Nat} {slot : Tfile}, ht.table[index]? = some slot →
    slot.tdef.fHash ≠ 0 → map slot.tdef.fHash = some slot
  stored : ∀ {hash : Digest} {slot : Tfile}, map hash = some slot →
    hash ≠ 0 ∧ ∃ index, ht.Holds index hash slot

namespace Refines

variable {ht after : Htable} {map : TableMap} {hash : Digest} {index : Nat}
variable {tdef : TfileDef} {result : Option Nat}

theorem init : Refines initHtable fun _ => none where
  wf := Htable.init_wf
  blank := Htable.init_blank
  entry lookup nonzero := by
    rw [Htable.init_slot lookup] at nonzero
    exact absurd rfl nonzero
  stored found := by simp at found

theorem search (refines : Refines ht map)
    (returned : searchHtable ht hash = .ok result) :
    result.bind (fun index => ht.table[index]?) = map hash := by
  cases result with
  | none =>
      cases found : map hash with
      | none => rfl
      | some slot =>
          obtain ⟨nonzero, index, holds⟩ := refines.stored found
          exact absurd (refines.wf.absent_of_search returned holds) nonzero
  | some index =>
      obtain ⟨slot, ⟨lookup, same⟩, nonzero⟩ := refines.wf.holds_of_search returned
      subst same
      rw [Option.bind_some, lookup, refines.entry lookup nonzero]

theorem search_none (refines : Refines ht map)
    (returned : searchHtable ht hash = .ok result) :
    result = none ↔ map hash = none := by
  rw [← refines.search returned]
  cases result with
  | none => simp
  | some index =>
      obtain ⟨slot, ⟨lookup, _⟩, _⟩ := refines.wf.holds_of_search returned
      simp [lookup]

theorem fill (refines : Refines ht map) (nonzero : tdef.fHash ≠ 0)
    (ended : ht.probe tdef.fHash = .vacant index) :
    Refines (ht.fill index tdef) (map.step (.add tdef)) := by
  obtain ⟨_, _, slot, lookup, vacant⟩ := Htable.probe_vacant refines.wf.length ended
  have inside : index < ht.table.length := (List.getElem?_eq_some_iff.mp lookup).1
  have absent : map tdef.fHash = none :=
    (refines.search_none (Htable.search_eq_none.mpr ⟨index, ended⟩)).mp rfl
  have updated : map.step (.add tdef) = Function.update map tdef.fHash
      (some { tdef, fLocation := none, mLocation := none }) := by
    simp [TableMap.step, absent]
  have zero := refines.blank lookup vacant
  subst zero
  have table := Htable.fill_table lookup tdef
  rw [updated]
  refine ⟨refines.wf.fill nonzero ended, ?_, ?_, ?_⟩
  · refine Htable.blank_set refines.blank ?_ table
    intro empty
    exact nonzero (Tfile.key_eq_none.mp empty)
  · intro position other found held
    rw [table, List.getElem?_set] at found
    split at found
    · simp only [Option.some.injEq] at found
      subst found
      simp [Tfile.zero]
    · have entry := refines.entry found held
      have different : other.tdef.fHash ≠ tdef.fHash := by
        intro same
        rw [same, absent] at entry
        simp at entry
      rw [Function.update_of_ne different, entry]
  · intro query other found
    by_cases same : query = tdef.fHash
    · subst same
      simp only [Function.update_self, Option.some.injEq] at found
      subst found
      refine ⟨nonzero, index, ?_, rfl⟩
      rw [table]
      simp [inside, Tfile.zero]
    · rw [Function.update_of_ne same] at found
      obtain ⟨queryNonzero, position, holds⟩ := refines.stored found
      refine ⟨queryNonzero, position, ?_, holds.2⟩
      rw [table, List.getElem?_set_ne]
      · exact holds.1
      · rintro rfl
        have zero := lookup.symm.trans holds.1
        simp only [Option.some.injEq] at zero
        exact queryNonzero (holds.2 ▸ zero ▸ rfl)

theorem attach (refines : Refines ht map)
    (found : searchHtable ht hash = .ok (some index))
    (fLocation : Option Path) (mLocation : Option Mapping) :
    Refines (ht.setLocations index fLocation mLocation)
      (map.step (.attach hash fLocation mLocation)) := by
  obtain ⟨slot, ⟨lookup, same⟩, nonzero⟩ := refines.wf.holds_of_search found
  subst same
  have inside : index < ht.table.length := (List.getElem?_eq_some_iff.mp lookup).1
  have table := Htable.setLocations_table lookup fLocation mLocation
  have updated : map.step (.attach slot.tdef.fHash fLocation mLocation) =
      Function.update map slot.tdef.fHash
        (some { slot with fLocation, mLocation }) := by
    simp [TableMap.step, refines.entry lookup nonzero]
  rw [updated]
  refine ⟨refines.wf.setLocations lookup fLocation mLocation, ?_, ?_, ?_⟩
  · refine Htable.blank_set refines.blank ?_ table
    intro empty
    exact nonzero (Tfile.key_eq_none.mp empty)
  · intro position other present held
    rw [table, List.getElem?_set] at present
    split at present
    · simp only [Option.some.injEq] at present
      subst present
      simp
    · rename_i elsewhere
      have different : other.tdef.fHash ≠ slot.tdef.fHash := by
        intro equal
        refine elsewhere (refines.wf.placed.distinct lookup present
          (Tfile.key_of_ne_zero nonzero) ?_)
        exact Tfile.key_eq_some.mpr ⟨equal, nonzero⟩
      rw [Function.update_of_ne different, refines.entry present held]
  · intro query other present
    by_cases equal : query = slot.tdef.fHash
    · subst equal
      simp only [Function.update_self, Option.some.injEq] at present
      subst present
      refine ⟨nonzero, index, ?_, rfl⟩
      rw [table]
      simp [inside]
    · rw [Function.update_of_ne equal] at present
      obtain ⟨queryNonzero, position, holds⟩ := refines.stored present
      refine ⟨queryNonzero, position, ?_, holds.2⟩
      rw [table, List.getElem?_set_ne]
      · exact holds.1
      · rintro rfl
        have slotEq := lookup.symm.trans holds.1
        simp only [Option.some.injEq] at slotEq
        exact equal (holds.2 ▸ slotEq ▸ rfl)

end Refines

/-- A completed `add_htable` is its probe part, on the table itself or on what
`resize_htable` made of it. -/
theorem addHtable_inserts {callocOk : Nat → Bool} {fuel : Nat} {ht : Htable}
    {tdef : TfileDef} {returned : Htable × Option Nat}
    (completes : addHtable callocOk fuel ht tdef = .ok returned) :
    ¬ht.Grows ∧ ht.insert tdef = .ok returned ∨
      ht.Grows ∧ ∃ fuel' resized code, resizeHtable callocOk fuel' ht = .ok (resized, code) ∧
        resized.insert tdef = .ok returned := by
  cases fuel with
  | zero => simp [addHtable] at completes
  | succ fuel =>
      simp only [addHtable] at completes
      split at completes
      next grows =>
          rw [Result.bind_eq_ok] at completes
          obtain ⟨⟨resized, code⟩, resizes, inserted⟩ := completes
          exact .inr ⟨grows, fuel, resized, code, resizes, inserted⟩
      next calm => exact .inl ⟨calm, completes⟩

/-- A completed `resize_htable` either changed nothing but the request count, or
left an array of zero slots. -/
theorem resizeHtable_cases {callocOk : Nat → Bool} {fuel : Nat} {ht after : Htable} {code : Int}
    (completes : resizeHtable callocOk fuel ht = .ok (after, code)) :
    after = { ht with callocs := ht.callocs + 1 } ∨
    callocOk ht.callocs = true ∧ after.capacity = ht.capacity * 2 ∧
      after.table = List.replicate (ht.capacity * 2) .zero := by
  cases fuel with
  | zero => simp [resizeHtable] at completes
  | succ fuel =>
      simp only [resizeHtable] at completes
      split at completes
      next allocated =>
          simp only [Result.bind_eq_ok, Except.ok.injEq, Prod.mk.injEq] at completes
          obtain ⟨rehashed, _, rfl, _⟩ := completes
          exact .inr ⟨allocated, rfl, rfl⟩
      next =>
          simp only [Except.ok.injEq, Prod.mk.injEq] at completes
          exact .inl completes.1.symm

theorem addHtable_of_not_grows {callocOk : Nat → Bool} {fuel : Nat} {ht : Htable}
    {tdef : TfileDef} {returned : Htable × Option Nat} (calm : ¬ht.Grows)
    (completes : addHtable callocOk fuel ht tdef = .ok returned) :
    ht.insert tdef = .ok returned := by
  rcases addHtable_inserts completes with ⟨_, inserted⟩ | ⟨grows, _⟩
  · exact inserted
  · exact absurd grows calm

theorem Refines.step {callocOk : Nat → Bool} {fuel : Nat} {ht after : Htable}
    {map : TableMap} {op : TableOp} {result : Option Nat}
    (refines : Refines ht map) (calm : op.Calm ht)
    (completes : op.call callocOk fuel ht = .ok (after, result)) :
    Refines after (map.step op) := by
  cases op with
  | add tdef =>
      rcases Htable.insert_cases (addHtable_of_not_grows calm.2 completes) with
        ⟨_, rfl, index, ended⟩ | ⟨index, _, rfl, ended⟩
      · obtain ⟨slot, lookup, held⟩ := Htable.probe_occupied refines.wf.length ended
        obtain ⟨same, _⟩ := Tfile.key_eq_some.mp held
        have entry := refines.entry lookup (same ▸ calm.1)
        have unchanged : map.step (.add tdef) = map := by
          simp [TableMap.step, ← same, entry]
        rw [unchanged]
        exact refines
      · exact refines.fill calm.1 ended
  | search hash =>
      obtain rfl := TableOp.call_search completes
      exact refines
  | attach hash fLocation mLocation =>
      rcases TableOp.call_attach completes with ⟨searched, rfl⟩ | ⟨index, searched, rfl⟩
      · have absent := (refines.search_none searched).mp rfl
        have unchanged : map.step (.attach hash fLocation mLocation) = map := by
          simp only [TableMap.step, absent, Option.map_none]
          exact Function.update_eq_iff.mpr ⟨absent.symm, fun _ _ => rfl⟩
        rw [unchanged]
        exact refines
      · exact refines.attach searched fLocation mLocation

/-- Every calm run keeps the table in step with the map of its history. -/
theorem CalmRun.refines {callocOk : Nat → Bool} {calls : List TableOp} {ht : Htable}
    (run : CalmRun callocOk calls ht) : Refines ht (.ofCalls calls) := by
  induction run with
  | init => exact Refines.init
  | call run calm completes ih =>
      rw [TableMap.ofCalls_snoc]
      exact ih.step calm completes

/-- What a completed `add_htable` does after a calm run: it refuses exactly the
hashes added before, and otherwise fills one untouched slot. -/
theorem CalmRun.add {callocOk : Nat → Bool} {calls : List TableOp} {ht after : Htable}
    {fuel : Nat} {tdef : TfileDef} {result : Option Nat}
    (run : CalmRun callocOk calls ht) (calm : ¬ht.Grows)
    (completes : addHtable callocOk fuel ht tdef = .ok (after, result)) :
    (result = none ↔ Added calls tdef.fHash) ∧
    (result = none → after = ht) ∧
    ∀ index, result = some index →
      ht.table[index]? = some .zero ∧
      after.table[index]? = some { tdef, fLocation := none, mLocation := none } ∧
      after.size = ht.size + 1 ∧ after.capacity = ht.capacity ∧
      ∀ other, other ≠ index → after.table[other]? = ht.table[other]? := by
  have refines := run.refines
  rcases Htable.insert_cases (addHtable_of_not_grows calm completes) with
    ⟨rfl, rfl, index, ended⟩ | ⟨index, rfl, rfl, ended⟩
  · refine ⟨?_, fun _ => rfl, by simp⟩
    have found := refines.search_none (Htable.search_eq_some.mpr ended)
    have present : (TableMap.ofCalls calls tdef.fHash).isSome := by
      rw [Option.isSome_iff_ne_none]
      exact fun absent => by simpa using found.mpr absent
    simp [(TableMap.ofCalls_isSome calls tdef.fHash).mp present]
  · obtain ⟨_, _, slot, lookup, vacant⟩ := Htable.probe_vacant refines.wf.length ended
    have zero := refines.blank lookup vacant
    subst zero
    have inside : index < ht.table.length := (List.getElem?_eq_some_iff.mp lookup).1
    have absent := (refines.search_none (Htable.search_eq_none.mpr ⟨index, ended⟩)).mp rfl
    refine ⟨?_, by simp, ?_⟩
    · have notAdded : ¬Added calls tdef.fHash := by
        rw [← TableMap.ofCalls_isSome, absent]
        simp
      simp [notAdded]
    · intro position place
      simp only [Option.some.injEq] at place
      subst place
      rw [Htable.fill_table lookup]
      refine ⟨lookup, by simp [inside, Tfile.zero], rfl, rfl, ?_⟩
      intro other different
      exact List.getElem?_set_ne different.symm

/-- **The tfile table refines a finite map.**  After any sequence of completed
calls that neither grow the table nor leave the array, `add_htable` returns
`NULL` exactly for a hash added earlier and then changes nothing; otherwise it
stores the definition in a slot without an entry, counts it once and leaves every
other slot alone.  `search_htable` returns the slot with the definition first
added under the hash and the locations attached since, or `NULL` when the hash
was never added. -/
theorem htable_refines_map {callocOk : Nat → Bool} {calls : List TableOp} {ht : Htable}
    (run : CalmRun callocOk calls ht) :
    (∀ {fuel : Nat} {tdef : TfileDef} {after : Htable} {result : Option Nat},
      tdef.fHash ≠ 0 → ¬ht.Grows →
      addHtable callocOk fuel ht tdef = .ok (after, result) →
      (result = none ↔ Added calls tdef.fHash) ∧
      (result = none → after = ht) ∧
      ∀ index, result = some index →
        ht.table[index]? = some .zero ∧
        after.table[index]? = some { tdef, fLocation := none, mLocation := none } ∧
        after.size = ht.size + 1 ∧ after.capacity = ht.capacity ∧
        ∀ other, other ≠ index → after.table[other]? = ht.table[other]?) ∧
    (∀ {hash : Digest} {result : Option Nat}, searchHtable ht hash = .ok result →
      (result = none ↔ ¬Added calls hash) ∧
      result.bind (fun index => ht.table[index]?) = TableMap.ofCalls calls hash ∧
      (TableMap.ofCalls calls hash).map Tfile.tdef = firstAdded calls hash) := by
  constructor
  · intro fuel tdef after result _ calm completes
    exact run.add calm completes
  · intro hash result returned
    refine ⟨?_, run.refines.search returned, TableMap.ofCalls_tdef calls hash⟩
    rw [run.refines.search_none returned, ← TableMap.ofCalls_isSome]
    simp

/-- The name `f`. -/
def sampleName : Vector UInt8 nameLen := ⟨(102 :: List.replicate 31 0).toArray, by simp⟩

/-- The name `g`. -/
def otherName : Vector UInt8 nameLen := ⟨(103 :: List.replicate 31 0).toArray, by simp⟩

/-- A definition whose home index is slot 1. -/
def sampleDef : TfileDef := { TfileDef.zero with name := sampleName, fHash := 1, size := 300 }

/-- Another definition with this home index. -/
def otherDef : TfileDef := { sampleDef with name := otherName, fHash := 0x101 }

/-- The table with both definitions. -/
def pairTable : Htable := (initHtable.fill 1 sampleDef).fill 2 otherDef

theorem addHtable_pair : addHtable (fun _ => true) 1 (initHtable.fill 1 sampleDef) otherDef =
    .ok (pairTable, some 2) := by
  rfl

theorem CalmRun.pair :
    CalmRun (fun _ => true) [.add sampleDef, .add otherDef] pairTable := by
  have added : TableOp.call (fun _ => true) 1 initHtable (.add sampleDef) =
      .ok (initHtable.fill 1 sampleDef, some 1) := by rfl
  have first : CalmRun (fun _ => true) ([] ++ [.add sampleDef]) (initHtable.fill 1 sampleDef) :=
    .call .init ⟨by decide, by decide⟩ added
  have again : TableOp.call (fun _ => true) 1 (initHtable.fill 1 sampleDef) (.add otherDef) =
      .ok (pairTable, some 2) := addHtable_pair
  exact .call first ⟨by decide, by decide⟩ again

/-- The second definition is found behind the first one. -/
theorem htable_refines_map_sample :
    ∃ ht, CalmRun (fun _ => true) [.add sampleDef, .add otherDef] ht ∧
      searchHtable ht otherDef.fHash = .ok (some 2) ∧
      ht.table[2]?.map Tfile.tdef = some otherDef := by
  have searched : searchHtable pairTable otherDef.fHash = .ok (some 2) := by rfl
  have answers := (htable_refines_map .pair).2 searched
  have first := answers.2.2
  rw [← answers.2.1, show firstAdded _ otherDef.fHash = some otherDef from rfl] at first
  exact ⟨_, .pair, searched, first⟩

end Grintorrent
