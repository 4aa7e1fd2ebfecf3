import Grintorrent.Htable.Refinement

/-!
# Listing the table

`list_tfiles` copies the definitions of positive size, and stops when it has copied
as many as the table has entries.  The count never stops it early: in a table built
by `add_htable` only entries have a size, and `size` counts the entries.
-/

namespace Grintorrent

namespace Htable

/-- The loop of `list_tfiles`, with `remaining` slots to go and `found` definitions
copied. -/
def listFrom (ht : Htable) : (remaining found : Nat) → Result (List TfileDef)
  | 0, _ => .ok []
  | remaining + 1, found =>
      if found < ht.size then
        match ht.table[ht.capacity - (remaining + 1)]? with
        | none => .error .outOfRange
        | some slot =>
            if slot.tdef.size > 0 then do
              let rest ← ht.listFrom remaining (found + 1)
              .ok (slot.tdef :: rest)
            else ht.listFrom remaining found
      else .ok []

end Htable

/-- `list_tfiles`: the definitions copied to `tf_list`.  Memory is taken to be
available. -/
def listTfiles (ht : Htable) : Result (List TfileDef) :=
  ht.listFrom ht.capacity 0

namespace Htable

variable {ht : Htable}

/-- The definitions of positive size in a part of the table. -/
def sized (slots : List Tfile) : List TfileDef :=
  (slots.map Tfile.tdef).filter fun tdef => tdef.size > 0

@[simp] theorem mem_sized {slots : List Tfile} {tdef : TfileDef} :
    tdef ∈ sized slots ↔ (∃ slot ∈ slots, slot.tdef = tdef) ∧ 0 < tdef.size := by
  simp [sized]

theorem sized_cons (slot : Tfile) (slots : List Tfile) :
    sized (slot :: slots) =
      if slot.tdef.size > 0 then slot.tdef :: sized slots else sized slots := by
  simp [sized, List.filter_cons]

/-- With room for all of them, the loop copies every definition of positive size. -/
theorem listFrom_eq (length : ht.table.length = ht.capacity) {remaining found : Nat}
    (inside : remaining ≤ ht.capacity)
    (room : found + (sized (ht.table.drop (ht.capacity - remaining))).length ≤ ht.size) :
    ht.listFrom remaining found = .ok (sized (ht.table.drop (ht.capacity - remaining))) := by
  induction remaining generalizing found with
  | zero =>
      have none : ht.table.drop ht.capacity = [] := by simp [length]
      simp [listFrom, none, sized]
  | succ remaining ih =>
      have within : ht.capacity - (remaining + 1) < ht.table.length := by omega
      have next : ht.capacity - (remaining + 1) + 1 = ht.capacity - remaining := by omega
      have first := List.drop_eq_getElem_cons within
      rw [next] at first
      rw [first, sized_cons] at room ⊢
      unfold listFrom
      rw [List.getElem?_eq_getElem within]
      by_cases positive : ht.table[ht.capacity - (remaining + 1)].tdef.size > 0
      · simp only [positive, if_true, List.length_cons] at room ⊢
        rw [if_pos (by omega), ih (by omega) (by omega)]
        rfl
      · simp only [positive, if_false] at room ⊢
        by_cases more : found < ht.size
        · rw [if_pos more]
          exact ih (by omega) room
        · have none : sized (ht.table.drop (ht.capacity - remaining)) = [] :=
            List.eq_nil_of_length_eq_zero (by omega)
          rw [if_neg more, none]

theorem listTfiles_of_room (length : ht.table.length = ht.capacity)
    (room : (sized ht.table).length ≤ ht.size) : listTfiles ht = .ok (sized ht.table) := by
  have listed := @listFrom_eq ht length ht.capacity 0 (Nat.le_refl _)
  simp only [Nat.sub_self, List.drop_zero, Nat.zero_add] at listed
  exact listed room

/-- `size` counts the entries. -/
def Counted (ht : Htable) : Prop := ht.size = ht.table.countP fun slot => slot.key.isSome

theorem init_counted : initHtable.Counted := by
  unfold Counted initHtable
  rw [List.countP_replicate]
  simp

variable {hash : Digest} {index : Nat}

theorem Counted.fill (counted : ht.Counted) (wf : ht.WF) {tdef : TfileDef}
    (nonzero : tdef.fHash ≠ 0) (ended : ht.probe tdef.fHash = .vacant index) :
    (ht.fill index tdef).Counted := by
  obtain ⟨_, _, slot, lookup, vacant⟩ := probe_vacant wf.length ended
  obtain ⟨inside, slotEq⟩ := List.getElem?_eq_some_iff.mp lookup
  have held : ({ slot with tdef } : Tfile).key = some (words tdef.fHash) :=
    Tfile.key_of_ne_zero nonzero
  unfold Counted at counted ⊢
  rw [fill_table lookup, List.countP_set inside, slotEq, vacant, held, ← counted]
  simp [Htable.fill]

theorem Counted.setLocations (counted : ht.Counted) {slot : Tfile}
    (lookup : ht.table[index]? = some slot) (fLocation : Option Path)
    (mLocation : Option Mapping) : (ht.setLocations index fLocation mLocation).Counted := by
  obtain ⟨inside, slotEq⟩ := List.getElem?_eq_some_iff.mp lookup
  have same : ({ slot with fLocation, mLocation } : Tfile).key = slot.key := rfl
  unfold Counted at counted ⊢
  rw [setLocations_table lookup, List.countP_set inside, slotEq, same, ← counted]
  cases key : slot.key with
  | none => simp [Htable.setLocations]
  | some words =>
      have positive : 0 < ht.table.countP fun slot => slot.key.isSome :=
        List.countP_pos_iff.mpr ⟨slot, List.mem_of_getElem? lookup, by simp [key]⟩
      simp only [Htable.setLocations, Option.isSome_some, if_true]
      omega

theorem Counted.step {callocOk : Nat → Bool} {fuel : Nat} {after : Htable} {op : TableOp}
    {result : Option Nat} (counted : ht.Counted) (wf : ht.WF) (calm : op.Calm ht)
    (completes : op.call callocOk fuel ht = .ok (after, result)) : after.Counted := by
  cases op with
  | add tdef =>
      rcases insert_cases (addHtable_of_not_grows calm.2 completes) with
        ⟨_, rfl, _⟩ | ⟨index, _, rfl, ended⟩
      · exact counted
      · exact counted.fill wf calm.1 ended
  | search hash =>
      obtain rfl := TableOp.call_search completes
      exact counted
  | attach hash fLocation mLocation =>
      rcases TableOp.call_attach completes with ⟨_, rfl⟩ | ⟨index, searched, rfl⟩
      · exact counted
      · obtain ⟨slot, ⟨lookup, _⟩, _⟩ := wf.holds_of_search searched
        exact counted.setLocations lookup fLocation mLocation

theorem Counted.room (counted : ht.Counted) (blank : ht.Blank) :
    (sized ht.table).length ≤ ht.size := by
  rw [counted, sized, ← List.countP_eq_length_filter, List.countP_map]
  apply List.countP_mono_left
  intro slot member positive
  by_contra vacant
  obtain ⟨index, lookup⟩ := List.getElem?_of_mem member
  have zero := blank lookup (by simpa using vacant)
  subst zero
  simp [Tfile.zero, TfileDef.zero] at positive

end Htable

theorem CalmRun.counted {callocOk : Nat → Bool} {calls : List TableOp} {ht : Htable}
    (run : CalmRun callocOk calls ht) : ht.Counted := by
  induction run with
  | init => exact Htable.init_counted
  | call run calm completes ih => exact ih.step run.refines.wf calm completes

theorem CalmRun.listTfiles_eq {callocOk : Nat → Bool} {calls : List TableOp} {ht : Htable}
    (run : CalmRun callocOk calls ht) :
    Grintorrent.listTfiles ht = .ok (Htable.sized ht.table) :=
  Htable.listTfiles_of_room run.refines.wf.length (run.counted.room run.refines.blank)

/-- After a calm run `list_tfiles` returns the definitions of positive size among
those first added under their hash. -/
theorem CalmRun.listTfiles {callocOk : Nat → Bool} {calls : List TableOp} {ht : Htable}
    (run : CalmRun callocOk calls ht) :
    ∃ listed, Grintorrent.listTfiles ht = .ok listed ∧
      ∀ tdef, tdef ∈ listed ↔ firstAdded calls tdef.fHash = some tdef ∧ 0 < tdef.size := by
  have refines := run.refines
  refine ⟨_, run.listTfiles_eq, ?_⟩
  intro tdef
  rw [Htable.mem_sized]
  apply and_congr_left
  intro positive
  rw [← TableMap.ofCalls_tdef]
  constructor
  · rintro ⟨slot, member, rfl⟩
    obtain ⟨index, lookup⟩ := List.getElem?_of_mem member
    have nonzero : slot.tdef.fHash ≠ 0 := by
      intro zero
      have blank := refines.blank lookup (Tfile.key_eq_none.mpr zero)
      subst blank
      simp [Tfile.zero, TfileDef.zero] at positive
    rw [refines.entry lookup nonzero]
    rfl
  · intro first
    obtain ⟨slot, found, same⟩ := Option.map_eq_some_iff.mp first
    obtain ⟨_, index, lookup, _⟩ := refines.stored found
    exact ⟨slot, List.mem_of_getElem? lookup, same⟩

namespace Htable

/-- `search_htable` finds this definition under its hash. -/
def Finds (ht : Htable) (tdef : TfileDef) : Prop :=
  ∃ index slot, searchHtable ht tdef.fHash = .ok (some index) ∧
    ht.table[index]? = some slot ∧ slot.tdef = tdef

/-- `list_tfiles` returns just the definitions that `search_htable` finds, each of
them once. -/
def ListsFound (ht : Htable) : Prop :=
  ∃ listed, listTfiles ht = .ok listed ∧
    ∀ tdef, (tdef ∈ listed ↔ ht.Finds tdef) ∧ (tdef ∈ listed → listed.count tdef = 1)

variable {ht : Htable}

/-- Entries have different hashes, so no definition is listed twice. -/
theorem nodup_sized (wf : ht.WF) (blank : ht.Blank) : (sized ht.table).Nodup := by
  unfold sized List.Nodup
  rw [List.pairwise_filter, List.pairwise_map, List.pairwise_iff_getElem]
  intro left right leftInside rightInside before positive _ same
  have nonzero : ht.table[left].tdef.fHash ≠ 0 := by
    intro zero
    have untouched := blank (List.getElem?_eq_getElem leftInside) (Tfile.key_eq_none.mpr zero)
    simp [untouched, Tfile.zero, TfileDef.zero] at positive
  have held := Tfile.key_of_ne_zero nonzero
  have heldToo : ht.table[right].key = some (words ht.table[left].tdef.fHash) := by
    rw [same] at nonzero ⊢
    exact Tfile.key_of_ne_zero nonzero
  have equal := wf.placed.distinct (List.getElem?_eq_getElem leftInside)
    (List.getElem?_eq_getElem rightInside) held heldToo
  omega

end Htable

theorem CalmRun.finds {callocOk : Nat → Bool} {calls : List TableOp} {ht : Htable}
    (run : CalmRun callocOk calls ht) (tdef : TfileDef) :
    ht.Finds tdef ↔ firstAdded calls tdef.fHash = some tdef := by
  have refines := run.refines
  rw [← TableMap.ofCalls_tdef]
  constructor
  · rintro ⟨index, slot, searched, lookup, same⟩
    rw [← refines.search searched, Option.bind_some, lookup, Option.map_some, same]
  · intro first
    obtain ⟨slot, found, same⟩ := Option.map_eq_some_iff.mp first
    obtain ⟨nonzero, index, holds⟩ := refines.stored found
    exact ⟨index, slot, refines.wf.search_of_holds holds nonzero, holds.1, same⟩

/-- **Listing and lookup agree exactly when every stored definition has a positive
size.**  The table decides by the hash which slots are entries, the listing by the
size field. -/
theorem listTfiles_finds_iff {callocOk : Nat → Bool} {calls : List TableOp} {ht : Htable}
    (run : CalmRun callocOk calls ht) :
    ht.ListsFound ↔
      ∀ tdef, firstAdded calls tdef.fHash = some tdef → 0 < tdef.size := by
  obtain ⟨listed, returned, members⟩ := run.listTfiles
  constructor
  · rintro ⟨others, same, agree⟩ tdef first
    rw [returned] at same
    cases same
    exact ((members tdef).mp ((agree tdef).1.mpr ((run.finds tdef).mpr first))).2
  · intro positive
    refine ⟨listed, returned, fun tdef => ⟨?_, ?_⟩⟩
    · rw [members, run.finds]
      exact ⟨fun member => member.1, fun first => ⟨first, positive tdef first⟩⟩
    · intro member
      have distinct := Htable.nodup_sized run.refines.wf run.refines.blank
      rw [run.listTfiles_eq] at returned
      cases returned
      exact List.count_eq_one_of_mem distinct member

/-- A definition of no bytes. -/
def unsizedDef : TfileDef := { sampleDef with size := 0 }

theorem CalmRun.first {tdef : TfileDef} (nonzero : tdef.fHash ≠ 0) :
    CalmRun (fun _ => true) [.add tdef]
      (initHtable.fill (homeIndex startingCapacity (words tdef.fHash)) tdef) := by
  have added : TableOp.call (fun _ => true) 1 initHtable (.add tdef) = .ok _ :=
    addHtable_init (fun _ => true) 0 tdef
  exact .call .init ⟨nonzero, by decide⟩ added

theorem listTfiles_finds_sample :
    ∃ ht, CalmRun (fun _ => true) [.add sampleDef, .add otherDef] ht ∧ ht.ListsFound := by
  refine ⟨_, .pair, (listTfiles_finds_iff .pair).mpr ?_⟩
  intro tdef first
  by_cases same : sampleDef.fHash = tdef.fHash
  · simp only [firstAdded, List.findSome?_cons, if_pos same, Option.some.injEq] at first
    rw [← first]
    decide
  · by_cases other : otherDef.fHash = tdef.fHash
    · simp only [firstAdded, List.findSome?_cons, if_neg same, if_pos other,
        Option.some.injEq] at first
      rw [← first]
      decide
    · simp [firstAdded, same, other] at first

/-- A search finds a definition of no bytes, the listing leaves it out. -/
theorem listTfiles_empty_fails :
    ∃ ht, CalmRun (fun _ => true) [.add unsizedDef] ht ∧ unsizedDef.fHash ≠ 0 ∧
      ht.Finds unsizedDef ∧ listTfiles ht = .ok [] ∧ ¬ht.ListsFound := by
  have run := @CalmRun.first unsizedDef (by decide)
  have found := (run.finds unsizedDef).mpr (by rfl)
  have listed := run.listTfiles_eq
  have nothing : Htable.sized (initHtable.fill (homeIndex startingCapacity
      (words unsizedDef.fHash)) unsizedDef).table = [] := by decide
  rw [nothing] at listed
  refine ⟨_, run, by decide, found, listed, ?_⟩
  rintro ⟨others, same, agree⟩
  rw [listed] at same
  cases same
  simpa using (agree unsizedDef).1.mpr found

end Grintorrent
