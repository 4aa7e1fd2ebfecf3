import Grintorrent.Htable.Serial

/-!
# Listing the table while calls race

`list_tfiles` stops when it has copied as many definitions as `size` says, and `add_htable`
stores a definition before it counts it.  In between the table has more definitions than
`size`, and a listing leaves out the last of them, which need not be the new ones.  A client
that accepts a connection at that moment sends its peer such a listing.
-/

namespace Grintorrent

open Lib Relation

namespace Htable

variable {ht : Htable}

/-- The loop copies the definitions of positive size until it has copied `size` of them. -/
theorem listFrom_take (length : ht.table.length = ht.capacity) {remaining found : Nat}
    (inside : remaining ≤ ht.capacity) :
    ht.listFrom remaining found =
      .ok ((sized (ht.table.drop (ht.capacity - remaining))).take (ht.size - found)) := by
  induction remaining generalizing found with
  | zero =>
      have none : ht.table.drop ht.capacity = [] := by simp [length]
      simp [listFrom, none, sized]
  | succ remaining ih =>
      have within : ht.capacity - (remaining + 1) < ht.table.length := by omega
      have next : ht.capacity - (remaining + 1) + 1 = ht.capacity - remaining := by omega
      have first := List.drop_eq_getElem_cons within
      rw [next] at first
      rw [first, sized_cons]
      unfold listFrom
      rw [List.getElem?_eq_getElem within]
      by_cases more : found < ht.size
      · rw [if_pos more]
        by_cases positive : ht.table[ht.capacity - (remaining + 1)].tdef.size > 0
        · have left : ht.size - found = ht.size - (found + 1) + 1 := by omega
          simp only [positive, if_true]
          rw [ih (by omega), left, List.take_succ_cons]
          rfl
        · simp only [positive, if_false]
          exact ih (by omega)
      · rw [if_neg more, Nat.sub_eq_zero_of_le (by omega), List.take_zero]

theorem listTfiles_take (length : ht.table.length = ht.capacity) :
    listTfiles ht = .ok ((sized ht.table).take ht.size) := by
  have listed := @listFrom_take ht length ht.capacity 0 (Nat.le_refl _)
  rwa [Nat.sub_self, List.drop_zero, Nat.sub_zero] at listed

/-- Slots without an entry are as `calloc` returned them, and entries have a size. -/
structure Sized (ht : Htable) : Prop where
  blank : ht.Blank
  positive : ∀ {index : Nat} {slot : Tfile}, ht.table[index]? = some slot →
    slot.key ≠ none → 0 < slot.tdef.size

namespace Sized

theorem init : initHtable.Sized where
  blank := init_blank
  positive := by
    intro index slot lookup held
    rw [init_slot lookup] at held
    exact absurd Tfile.key_zero held

theorem key_ne_none_iff (sizes : ht.Sized) {index : Nat} {slot : Tfile}
    (lookup : ht.table[index]? = some slot) : slot.key ≠ none ↔ 0 < slot.tdef.size := by
  refine ⟨sizes.positive lookup, fun positive vacant => ?_⟩
  rw [sizes.blank lookup vacant] at positive
  exact absurd positive (by decide)

theorem length_sized (sizes : ht.Sized) : (sized ht.table).length = ht.entries := by
  rw [sized, ← List.countP_eq_length_filter, List.countP_map, entries]
  apply List.countP_congr
  intro slot member
  obtain ⟨index, lookup⟩ := List.getElem?_of_mem member
  rw [Option.isSome_iff_ne_none, sizes.key_ne_none_iff lookup]
  simp

theorem mem_sized_iff (sizes : ht.Sized) (wf : ht.WF) (tdef : TfileDef) :
    tdef ∈ sized ht.table ↔ ht.Finds tdef := by
  rw [mem_sized]
  constructor
  · rintro ⟨⟨slot, member, rfl⟩, positive⟩
    obtain ⟨index, lookup⟩ := List.getElem?_of_mem member
    have held := (sizes.key_ne_none_iff lookup).mpr positive
    have nonzero : slot.tdef.fHash ≠ 0 := fun zero => held (Tfile.key_eq_none.mpr zero)
    exact ⟨index, slot, wf.search_of_holds ⟨lookup, rfl⟩ nonzero, lookup, rfl⟩
  · rintro ⟨index, slot, searched, lookup, rfl⟩
    obtain ⟨_, _, nonzero⟩ := wf.holds_of_search searched
    refine ⟨⟨slot, List.mem_of_getElem? lookup, rfl⟩, sizes.positive lookup ?_⟩
    exact fun vacant => nonzero (Tfile.key_eq_none.mp vacant)

theorem store (sizes : ht.Sized) {index : Nat} {tdef : TfileDef} {slot : Tfile}
    (lookup : ht.table[index]? = some slot) (nonzero : tdef.fHash ≠ 0)
    (positive : 0 < tdef.size) : (ht.store index tdef).Sized where
  blank := by
    refine blank_set sizes.blank ?_ (store_table lookup tdef)
    exact fun vacant => nonzero (Tfile.key_eq_none.mp vacant)
  positive := by
    intro position other found held
    rw [store_table lookup, List.getElem?_set] at found
    split at found
    next =>
      split at found
      next =>
        obtain rfl := Option.some.inj found
        exact positive
      next => exact nomatch found
    next => exact sizes.positive found held

end Sized

end Htable

namespace Racing

variable {ι : Type} [DecidableEq ι] {calls : ι → TableCall} {now after : Racing ι}
variable {thread : ι} {ht : Htable}

theorem sized_run (wf : ht.WF) (sizes : ht.Sized) (keyed : ∀ thread, (calls thread).Keyed)
    (positive : ∀ thread tdef, calls thread = .add tdef → 0 < tdef.size)
    (run : ReflTransGen (Step calls) (start ht) now) : now.ht.Sized := by
  refine (@invariant_run _ _ _ _ (fun state => Walks calls state ∧ state.ht.Sized) ?_ run
    ⟨walks_start wf, sizes⟩).2
  rintro state next ⟨walks, held⟩ ⟨thread, taken⟩
  have took := took_of_next taken
  refine ⟨walks.step keyed took, ?_⟩
  obtain ⟨_, ⟨table, _⟩ | ⟨index, tdef, slot, phase, lookup, rfl⟩⟩ := took.table
  · refine ⟨?_, ?_⟩
    · intro position other found vacant
      rw [table] at found
      exact held.blank found vacant
    · intro position other found entry
      rw [table] at found
      exact held.positive found entry
  · have along := walks.along thread
    rw [phase] at along
    exact held.store lookup (keyed thread tdef along.1) (positive thread tdef along.1)

/-- **Listing while calls race.**  Calls race over a table that counts its entries, and all
definitions have a positive size.  In every state in which nothing was overwritten and no
count was lost, a listing returns the first definitions of the table, each of which a search
finds, and leaves out as many of the last ones as there are calls that have stored their
definition and not counted it yet. -/
theorem racing_lists (wf : ht.WF) (sizes : ht.Sized) (counted : ht.Counted)
    (keyed : ∀ thread, (calls thread).Keyed)
    (positive : ∀ thread tdef, calls thread = .add tdef → 0 < tdef.size)
    (run : ReflTransGen (Step calls) (start ht) now) (clean : now.overwrites = 0)
    (exact : now.lostCounts = 0) :
    (Htable.sized now.ht.table).Nodup ∧
      (∀ tdef, tdef ∈ Htable.sized now.ht.table ↔ now.ht.Finds tdef) ∧
      ∃ listed, listTfiles now.ht = .ok listed ∧ listed <+: Htable.sized now.ht.table ∧
        listed.length + {thread | (now.phase thread).Uncounted}.ncard =
          (Htable.sized now.ht.table).length := by
  have raced := Raced.run wf keyed run
  have serial := raced.serial clean
  have sized := sized_run wf sizes keyed positive run
  refine ⟨Htable.nodup_sized serial.wf sized.blank, sized.mem_sized_iff serial.wf, _,
    Htable.listTfiles_take serial.wf.length, List.take_prefix _ _, ?_⟩
  -- The table has as many entries as were stored, and `size` those that were counted.
  have entered := raced.entered
  rw [Entered, clean, Nat.add_zero] at entered
  have size := raced.sized.exact exact
  have stored := raced.logged.countP_stored raced.walks
  have before : ht.size = ht.entries := counted
  rw [List.length_take, sized.length_sized]
  omega

/-- The definition is stored, and its call has not read `size` yet. -/
theorem pairCalls_uncounted : ∃ now : Racing Bool,
    (start initHtable).runSchedule pairCalls [true, false, true, true] = some now ∧
      now.overwrites = 0 ∧ now.lostCounts = 0 ∧ listTfiles now.ht = .ok [] ∧
      now.ht.table[1]? = some { Tfile.zero with tdef := sampleDef } :=
  ⟨_, rfl, rfl, rfl, rfl, rfl⟩

theorem racing_lists_sample :
    ∃ now : Racing Bool, now.ht.Finds sampleDef ∧ listTfiles now.ht = .ok [] := by
  obtain ⟨now, ran, clean, exact, listed, stored⟩ := pairCalls_uncounted
  have positive : ∀ thread tdef, pairCalls thread = .add tdef → 0 < tdef.size := by
    intro thread tdef call
    cases thread with
    | true =>
        obtain rfl := TableCall.add.inj call
        decide
    | false => exact nomatch call
  obtain ⟨_, finds, _⟩ := racing_lists Htable.init_wf Htable.Sized.init Htable.init_counted
    pairCalls_keyed positive (run_of_schedule ran) clean exact
  have member : sampleDef ∈ Htable.sized now.ht.table :=
    Htable.mem_sized.mpr ⟨⟨_, List.mem_of_getElem? stored, rfl⟩, by decide⟩
  exact ⟨now, (finds sampleDef).mp member, listed⟩

end Racing

end Grintorrent
