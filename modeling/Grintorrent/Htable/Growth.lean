import Grintorrent.Htable.Refinement

/-!
# Growing the table

`resize_htable` passes the *vacant* slots of the old table to `add_htable`, whose
growth test is still true, and installs the new array without having written to
it.  So when every allocation succeeds the two functions call each other for
ever, and when one fails the call can only return a table that was not doubled or
that has lost its entries.
-/

namespace Grintorrent

open Lib

/-- The tables that `add_htable` calls with non-zero hashes lead to, with any
locations attached in between. -/
inductive TableReachable (callocOk : Nat → Bool) : Htable → Prop where
  | init : TableReachable callocOk initHtable
  | add {ht after : Htable} {tdef : TfileDef} {fuel : Nat} {result : Option Nat} :
      TableReachable callocOk ht → tdef.fHash ≠ 0 →
      addHtable callocOk fuel ht tdef = .ok (after, result) →
      TableReachable callocOk after
  | attach {ht : Htable} (index : Nat) (fLocation : Option Path)
      (mLocation : Option Mapping) :
      TableReachable callocOk ht →
      TableReachable callocOk (ht.setLocations index fLocation mLocation)

namespace Htable

/-- The number of slots with an entry. -/
def entries (ht : Htable) : Nat :=
  ht.table.countP fun slot => slot.key.isSome

/-- What growth is for: the call returns, the capacity is doubled, every entry
and the new definition are found, and `size` counts the entries. -/
def GrowthPreserves (callocOk : Nat → Bool) (ht : Htable) (tdef : TfileDef) : Prop :=
  ∃ fuel after result, addHtable callocOk fuel ht tdef = .ok (after, result) ∧
    after.capacity = 2 * ht.capacity ∧
    (∀ (index : Nat) (slot : Tfile), ht.table[index]? = some slot → slot.tdef.fHash ≠ 0 →
      ∃ place, searchHtable after slot.tdef.fHash = .ok (some place) ∧
        after.table[place]? = some slot) ∧
    (∃ (place : Nat) (slot : Tfile), searchHtable after tdef.fHash = .ok (some place) ∧
      after.table[place]? = some slot ∧ slot.tdef = tdef) ∧
    after.size = after.entries

/-- The table has no entry for the hash. -/
def Fresh (ht : Htable) (hash : Digest) : Prop :=
  ∀ (index : Nat) (slot : Tfile), ht.table[index]? = some slot → slot.tdef.fHash ≠ hash

end Htable

section Growth

variable {callocOk : Nat → Bool} {fuel : Nat} {ht after : Htable} {tdef : TfileDef}
variable {result : Option Nat}

/-- A completed `add_htable` is an insertion into the table itself, or into an
array of zero slots of twice the capacity. -/
theorem addHtable_cases
    (completes : addHtable callocOk fuel ht tdef = .ok (after, result)) :
    ∃ base : Htable, base.insert tdef = .ok (after, result) ∧
      (base.capacity = ht.capacity ∧ base.table = ht.table ∧ base.size = ht.size ∨
        base.capacity = ht.capacity * 2 ∧
          base.table = List.replicate (ht.capacity * 2) .zero) := by
  rcases addHtable_inserts completes with ⟨_, inserted⟩ | ⟨_, _, resized, _, resizes, inserted⟩
  · exact ⟨ht, inserted, .inl ⟨rfl, rfl, rfl⟩⟩
  · refine ⟨resized, inserted, ?_⟩
    rcases resizeHtable_cases resizes with rfl | ⟨_, wiped⟩
    · exact .inl ⟨rfl, rfl, rfl⟩
    · exact .inr wiped

/-- After an insertion into zero slots, every entry is the inserted definition. -/
theorem entry_of_insert_blank {base : Htable} {count index : Nat} {slot : Tfile}
    (blank : base.table = List.replicate count .zero)
    (inserted : base.insert tdef = .ok (after, result))
    (lookup : after.table[index]? = some slot) (entry : slot.tdef.fHash ≠ 0) :
    slot.tdef = tdef := by
  have zero : ∀ {position : Nat} {other : Tfile},
      base.table[position]? = some other → other.tdef.fHash = 0 := by
    intro position other found
    rw [blank] at found
    rw [(List.eq_of_mem_replicate (List.mem_of_getElem? found))]
    rfl
  rcases Htable.insert_cases inserted with ⟨_, rfl, _⟩ | ⟨place, _, rfl, _⟩
  · exact absurd (zero lookup) entry
  · rw [Htable.fill, List.getElem?_modify, Option.map_eq_map,
      Option.map_eq_some_iff] at lookup
    obtain ⟨old, found, rfl⟩ := lookup
    split
    · rfl
    · rename_i elsewhere
      rw [if_neg elsewhere] at entry
      exact absurd (zero found) entry

theorem TableReachable.length (reachable : TableReachable callocOk ht) :
    ht.table.length = ht.capacity := by
  induction reachable with
  | init => simp [initHtable]
  | add _ _ completes ih =>
      obtain ⟨base, inserted, origin⟩ := addHtable_cases completes
      have baseLength : base.table.length = base.capacity := by
        rcases origin with ⟨capacity, table, _⟩ | ⟨capacity, table⟩
        · rw [capacity, table, ih]
        · simp [capacity, table]
      rcases Htable.insert_cases inserted with ⟨_, rfl, _⟩ | ⟨index, _, rfl, _⟩
      · exact baseLength
      · simpa [Htable.fill] using baseLength
  | attach index fLocation mLocation _ ih => simpa [Htable.setLocations] using ih

theorem TableReachable.entry (reachable : TableReachable callocOk ht)
    (counted : 0 < ht.size) :
    ∃ (index : Nat) (slot : Tfile),
      ht.table[index]? = some slot ∧ slot.tdef.fHash ≠ 0 := by
  induction reachable with
  | init => simp [initHtable] at counted
  | @add ht after tdef fuel result reachable nonzero completes ih =>
      obtain ⟨base, inserted, origin⟩ := addHtable_cases completes
      have baseLength : base.table.length = base.capacity := by
        rcases origin with ⟨capacity, table, _⟩ | ⟨capacity, table⟩
        · rw [capacity, table, reachable.length]
        · simp [capacity, table]
      rcases Htable.insert_cases inserted with
        ⟨_, rfl, index, ended⟩ | ⟨index, _, rfl, ended⟩
      · obtain ⟨slot, lookup, held⟩ := Htable.probe_occupied baseLength ended
        obtain ⟨same, present⟩ := Tfile.key_eq_some.mp held
        exact ⟨index, slot, lookup, same ▸ present⟩
      · obtain ⟨_, _, slot, lookup, _⟩ := Htable.probe_vacant baseLength ended
        refine ⟨index, { slot with tdef }, ?_, nonzero⟩
        simp [Htable.fill, lookup]
  | attach index fLocation mLocation _ ih =>
      obtain ⟨position, slot, lookup, entry⟩ := ih counted
      by_cases same : index = position
      · subst same
        exact ⟨index, { slot with fLocation, mLocation },
          by simp [Htable.setLocations, lookup], entry⟩
      · exact ⟨position, slot, by simp [Htable.setLocations, same, lookup], entry⟩

/-! ## Growth that allocates does not return -/

/-- A growing table with a slot that the loop of `resize_htable` passes on. -/
structure Stuck (ht : Htable) (pivot : Nat) : Prop where
  grows : ht.Grows
  length : ht.table.length = ht.capacity
  inside : pivot < ht.capacity
  passes : ∀ {slot : Tfile}, ht.table[pivot]? = some slot → testHash slot = 0

/-- From such a table none of the three functions returns, however many steps
they are granted: the loop hands the slot to `add_htable`, which starts over. -/
theorem Stuck.running {pivot : Nat} (grants : ∀ request, callocOk request = true)
    (stuck : Stuck ht pivot) (fuel : Nat) :
    (∀ tdef, addHtable callocOk fuel ht tdef = .error .running) ∧
    resizeHtable callocOk fuel ht = .error .running ∧
    ∀ index ≤ pivot, rehash callocOk fuel ht index = .error .running := by
  induction fuel generalizing ht with
  | zero => exact ⟨fun _ => rfl, rfl, fun _ _ => rfl⟩
  | succ fuel ih =>
      obtain ⟨adds, resizes, loops⟩ := ih stuck
      have requested : Stuck { ht with callocs := ht.callocs + 1 } pivot :=
        ⟨stuck.grows, stuck.length, stuck.inside, stuck.passes⟩
      refine ⟨?_, ?_, ?_⟩
      · intro tdef
        simp [addHtable, stuck.grows, resizes]
      · simp [resizeHtable, grants, (ih requested).2.2 0 (Nat.zero_le _)]
      · intro index before
        have capacity := stuck.length
        have bound := stuck.inside
        have present : index < ht.table.length := by omega
        have lookup : ht.table[index]? = some ht.table[index] :=
          List.getElem?_eq_getElem present
        simp only [rehash, if_pos (show index < ht.capacity by omega), lookup]
        split
        · simp [adds]
        · rename_i passed
          have earlier : index ≠ pivot := by
            rintro rfl
            exact passed (stuck.passes lookup)
          exact loops (index + 1) (by omega)

theorem testHash_of_vacant {slot : Tfile} (vacant : slot.key = none) :
    testHash slot = 0 := by
  rw [testHash, Tfile.key_eq_none.mp vacant]
  rfl

theorem Stuck.of_vacant {pivot : Nat} {slot : Tfile} (grows : ht.Grows)
    (length : ht.table.length = ht.capacity)
    (lookup : ht.table[pivot]? = some slot) (vacant : slot.key = none) :
    Stuck ht pivot := by
  have present : pivot < ht.table.length := (List.getElem?_eq_some_iff.mp lookup).1
  refine ⟨grows, length, by omega, ?_⟩
  intro other found
  rw [lookup, Option.some.injEq] at found
  subst found
  exact testHash_of_vacant vacant

theorem exists_vacant (length : ht.table.length = ht.capacity)
    (room : ht.entries < ht.capacity) :
    ∃ (index : Nat) (slot : Tfile), ht.table[index]? = some slot ∧ slot.key = none := by
  by_contra full
  have all : ht.entries = ht.table.length := by
    rw [Htable.entries, List.countP_eq_length]
    intro slot member
    obtain ⟨index, lookup⟩ := List.getElem?_of_mem member
    rw [Option.isSome_iff_ne_none]
    exact fun vacant => full ⟨index, slot, lookup, vacant⟩
  omega

theorem entries_fill {index : Nat} {slot : Tfile}
    (lookup : ht.table[index]? = some slot) (vacant : slot.key = none)
    (nonzero : tdef.fHash ≠ 0) :
    (ht.fill index tdef).entries = ht.entries + 1 := by
  have present : index < ht.table.length := (List.getElem?_eq_some_iff.mp lookup).1
  have old : ht.table[index] = slot := (List.getElem?_eq_some_iff.mp lookup).2
  have held : ({ slot with tdef } : Tfile).key = some (words tdef.fHash) :=
    Tfile.key_of_ne_zero nonzero
  rw [Htable.entries, Htable.fill_table lookup, List.countP_set present, old]
  simp [held, vacant, Htable.entries]

theorem entries_setLocations (ht : Htable) (index : Nat) (fLocation : Option Path)
    (mLocation : Option Mapping) :
    (ht.setLocations index fLocation mLocation).entries = ht.entries := by
  cases lookup : ht.table[index]? with
  | none =>
      have same : (ht.setLocations index fLocation mLocation).table = ht.table := by
        simp [Htable.setLocations, List.modify_eq_set_getElem?, lookup]
      rw [Htable.entries, same, Htable.entries]
  | some slot =>
      have present : index < ht.table.length := (List.getElem?_eq_some_iff.mp lookup).1
      have old : ht.table[index] = slot := (List.getElem?_eq_some_iff.mp lookup).2
      have sameKey : ({ slot with fLocation, mLocation } : Tfile).key = slot.key := rfl
      rw [Htable.entries, Htable.setLocations_table lookup, List.countP_set present, old,
        sameKey]
      have counted : slot.key.isSome → 0 < ht.entries := fun held =>
        List.countP_pos_iff.mpr ⟨slot, List.mem_of_getElem? lookup, held⟩
      rw [Htable.entries] at counted ⊢
      split <;> simp_all

/-- While every allocation succeeds no growth ever completes, so the capacity is
the initial one, `size` counts the entries, and one entry too many triggers the
growth test. -/
theorem TableReachable.invariant (grants : ∀ request, callocOk request = true)
    (reachable : TableReachable callocOk ht) :
    ht.capacity = startingCapacity ∧ ht.size = ht.entries ∧
      ht.size ≤ startingCapacity / 2 + 1 := by
  induction reachable with
  | init =>
      refine ⟨rfl, ?_, by simp [initHtable]⟩
      have none : initHtable.entries = 0 := by
        simp [Htable.entries, initHtable]
      rw [none]
      rfl
  | @add ht after tdef fuel result reachable nonzero completes ih =>
      obtain ⟨capacity, counts, small⟩ := ih
      have length := reachable.length
      have room : ht.entries < ht.capacity := by
        rw [← counts, capacity]
        exact Nat.lt_of_le_of_lt small (by decide)
      obtain ⟨pivot, vacantSlot, found, vacant⟩ := exists_vacant length room
      have calm : ¬ht.Grows := by
        intro grows
        have stuck := Stuck.of_vacant grows length found vacant
        rw [(stuck.running grants fuel).1 tdef] at completes
        simp at completes
      rcases Htable.insert_cases (addHtable_of_not_grows calm completes) with
        ⟨_, rfl, _⟩ | ⟨index, _, rfl, ended⟩
      · exact ⟨capacity, counts, small⟩
      · obtain ⟨_, _, slot, lookup, empty⟩ := Htable.probe_vacant length ended
        refine ⟨capacity, ?_, ?_⟩
        · rw [entries_fill lookup empty nonzero, Htable.fill_size, counts]
        · have limit : ht.size * 2 ≤ startingCapacity := by
            simpa [Htable.Grows, capacity] using calm
          rw [Htable.fill_size]
          omega
  | attach index fLocation mLocation _ ih =>
      obtain ⟨capacity, counts, small⟩ := ih
      exact ⟨capacity, by rw [entries_setLocations]; exact counts, small⟩

/-- **Growth never returns while allocation succeeds.** -/
theorem addHtable_growth_running (grants : ∀ request, callocOk request = true)
    (reachable : TableReachable callocOk ht) (grows : ht.Grows) (fuel : Nat)
    (tdef : TfileDef) : addHtable callocOk fuel ht tdef = .error .running := by
  obtain ⟨capacity, counts, small⟩ := reachable.invariant grants
  have room : ht.entries < ht.capacity := by
    rw [← counts, capacity]
    exact Nat.lt_of_le_of_lt small (by decide)
  obtain ⟨pivot, slot, found, vacant⟩ := exists_vacant reachable.length room
  exact ((Stuck.of_vacant grows reachable.length found vacant).running grants fuel).1 tdef

theorem not_growthPreserves (reachable : TableReachable callocOk ht) (grows : ht.Grows)
    (fresh : ht.Fresh tdef.fHash) : ¬ht.GrowthPreserves callocOk tdef := by
  rintro ⟨fuel, after, result, completes, doubled, kept, _⟩
  have counted : 0 < ht.size := by
    simp only [Htable.Grows] at grows
    omega
  obtain ⟨index, slot, lookup, entry⟩ := reachable.entry counted
  have nonempty : 0 < ht.capacity := by
    have present : index < ht.table.length := (List.getElem?_eq_some_iff.mp lookup).1
    rw [reachable.length] at present
    omega
  obtain ⟨base, inserted, origin⟩ := addHtable_cases completes
  rcases origin with ⟨capacity, _, _⟩ | ⟨_, blank⟩
  · have same : after.capacity = base.capacity := by
      rcases Htable.insert_cases inserted with ⟨_, rfl, _⟩ | ⟨_, _, rfl, _⟩ <;> rfl
    omega
  · obtain ⟨place, _, stored⟩ := kept index slot lookup entry
    have replaced := entry_of_insert_blank blank inserted stored entry
    exact fresh index slot lookup (congrArg TfileDef.fHash replaced)

/-- For every reachable table and every new definition that takes the growth
branch of `add_htable`, growth fails: with an allocator that always succeeds the
call does not return, and with any other it returns no table that is doubled and
still holds its entries. -/
theorem growth_loses_table (reachable : TableReachable callocOk ht) (grows : ht.Grows)
    (fresh : ht.Fresh tdef.fHash) :
    ¬ht.GrowthPreserves callocOk tdef ∧
    ((∀ request, callocOk request = true) →
      ∀ fuel, addHtable callocOk fuel ht tdef = .error .running) :=
  ⟨not_growthPreserves reachable grows fresh,
    fun grants fuel => addHtable_growth_running grants reachable grows fuel tdef⟩

end Growth

/-- Add definitions one after another. -/
def addAll (callocOk : Nat → Bool) (ht : Htable) (tdefs : List TfileDef) :
    Result Htable :=
  tdefs.foldlM (fun table tdef => do
    let (after, _) ← addHtable callocOk 1 table tdef
    .ok after) ht

theorem TableReachable.addAll {callocOk : Nat → Bool} {ht after : Htable}
    {tdefs : List TfileDef} (reachable : TableReachable callocOk ht)
    (nonzero : ∀ tdef ∈ tdefs, tdef.fHash ≠ 0)
    (completes : Grintorrent.addAll callocOk ht tdefs = .ok after) :
    TableReachable callocOk after := by
  induction tdefs generalizing ht with
  | nil =>
      simp only [Grintorrent.addAll, List.foldlM_nil, Result.pure_eq_ok,
        Except.ok.injEq] at completes
      exact completes ▸ reachable
  | cons tdef tdefs ih =>
      simp only [Grintorrent.addAll, List.foldlM_cons, Result.bind_eq_ok] at completes
      obtain ⟨next, ⟨⟨added, result⟩, adds, same⟩, rest⟩ := completes
      simp only [Except.ok.injEq] at same
      subst same
      exact ih (reachable.add (nonzero tdef List.mem_cons_self) adds)
        (fun other member => nonzero other (List.mem_cons_of_mem _ member)) rest

/-- The definition with the given number as its hash. -/
def numberedDef (number : Nat) : TfileDef :=
  { TfileDef.zero with fHash := BitVec.ofNat 128 number, size := 256 }

/-- The definitions with hashes 1 to 129. -/
def crowd : List TfileDef := (List.range 129).map fun number => numberedDef (number + 1)

theorem crowd_nonzero : ∀ tdef ∈ crowd, tdef.fHash ≠ 0 := by
  intro tdef member zero
  obtain ⟨number, listed, rfl⟩ := List.mem_map.mp member
  have below := List.mem_range.mp listed
  have value := congrArg BitVec.toNat zero
  simp only [numberedDef, BitVec.ofNat_eq_ofNat, BitVec.toNat_ofNat, Nat.zero_mod] at value
  omega

/-- After 129 files the table is in the growth branch, and hash 130 is new. -/
theorem crowd_grows :
    ∃ ht, addAll (fun _ => true) initHtable crowd = .ok ht ∧ ht.Grows ∧
      ht.Fresh (numberedDef 130).fHash := by
  have check : (match addAll (fun _ => true) initHtable crowd with
      | .ok ht => decide ht.Grows &&
          ht.table.all fun slot => slot.tdef.fHash != (numberedDef 130).fHash
      | .error _ => false) = true := by
    decide +kernel
  split at check
  · rename_i ht completes
    simp only [Bool.and_eq_true, decide_eq_true_eq, List.all_eq_true, bne_iff_ne] at check
    exact ⟨ht, completes, check.1, fun _ slot lookup => check.2 slot (List.mem_of_getElem? lookup)⟩
  · simp at check

/-- The 130th file. -/
theorem growth_loses_table_crowd :
    ∃ ht, TableReachable (fun _ => true) ht ∧ ht.Grows ∧
      ¬ht.GrowthPreserves (fun _ => true) (numberedDef 130) := by
  obtain ⟨ht, completes, grows, fresh⟩ := crowd_grows
  have reachable := TableReachable.init.addAll crowd_nonzero completes
  exact ⟨ht, reachable, grows, (growth_loses_table reachable grows fresh).1⟩

/-- The 130th file is not stored: growth is not preserved at it. -/
theorem growth_preserves_fails :
    ¬∀ (callocOk : Nat → Bool) (ht : Htable) (tdef : TfileDef),
      TableReachable callocOk ht → ht.Grows → tdef.fHash ≠ 0 →
      ht.Fresh tdef.fHash → ht.GrowthPreserves callocOk tdef := by
  intro claim
  obtain ⟨ht, completes, grows, fresh⟩ := crowd_grows
  have reachable := TableReachable.init.addAll crowd_nonzero completes
  exact not_growthPreserves reachable grows fresh
    (claim (fun _ => true) ht (numberedDef 130) reachable grows (by decide) fresh)

end Grintorrent
