import Grintorrent.File.Copies

/-!
# The entries of a table

What `open_tfile` and `save_tfile` do to the table.  Each of them attaches locations to the
entry of its hash, if it does anything to the table, so all other entries stay as they
are.
-/

namespace Grintorrent

open Lib

variable {env : Env} {store after : Store} {ht : Htable} {hash other : Digest}
variable {index : Nat} {tf tf' : Tfile} {chunk : Int}

/-- The table has this entry for the hash. -/
def Htable.Entry (ht : Htable) (hash : Digest) (tf : Tfile) : Prop :=
  ∃ index, lookupTfile ht hash = .ok (some (index, tf))

theorem Htable.Entry.unique (left : ht.Entry hash tf) (right : ht.Entry hash tf') :
    tf = tf' := by
  obtain ⟨_, found⟩ := left
  obtain ⟨_, found'⟩ := right
  rw [found] at found'
  simp only [Except.ok.injEq, Option.some.injEq, Prod.mk.injEq] at found'
  exact found'.2

theorem Htable.WF.entry (wf : ht.WF) (lookup : ht.table[index]? = some tf)
    (nonzero : tf.tdef.fHash ≠ 0) : ht.Entry tf.tdef.fHash tf := by
  have searched := wf.search_of_holds ⟨lookup, rfl⟩ nonzero
  exact ⟨index, by simp only [lookupTfile, searched, Result.ok_bind, lookup]⟩

/-- What becomes of a table when a call attaches locations to the entry of `hash`. -/
inductive Attached (ht : Htable) (hash : Digest) : Htable → Prop where
  | unchanged : Attached ht hash ht
  | attached {index : Nat} {tf : Tfile} (fLocation : Option Path) (mLocation : Option Mapping) :
      lookupTfile ht hash = .ok (some (index, tf)) →
      Attached ht hash (ht.setLocations index fLocation mLocation)

theorem lookupTfile_setLocations_of_ne
    (found : lookupTfile ht hash = .ok (some (index, tf))) (different : other ≠ hash)
    (fLocation : Option Path) (mLocation : Option Mapping) :
    lookupTfile (ht.setLocations index fLocation mLocation) other = lookupTfile ht other := by
  simp only [lookupTfile, Htable.search_setLocations]
  cases searched : searchHtable ht other with
  | error stop => rfl
  | ok result =>
      cases result with
      | none => rfl
      | some place =>
          obtain ⟨slot, lookup, held⟩ := key_of_probe (Htable.search_eq_some.mp searched)
          have elsewhere : index ≠ place := by
            rintro rfl
            obtain ⟨entry, sameHash, _⟩ := lookupTfile_entry found
            rw [lookup, Option.some.injEq] at entry
            rw [entry] at held
            exact different ((Tfile.key_eq_some.mp held).1.symm.trans sameHash)
          simp only [Result.ok_bind, Htable.setLocations, List.getElem?_modify,
            if_neg elsewhere, Option.map_eq_map, Option.map_id']

theorem Attached.others {ht' : Htable} (attached : Attached ht hash ht')
    (different : other ≠ hash) : lookupTfile ht' other = lookupTfile ht other := by
  cases attached with
  | unchanged => rfl
  | attached _ _ found => exact lookupTfile_setLocations_of_ne found different _ _

theorem Attached.tdef {ht' : Htable} (attached : Attached ht hash ht')
    (entry : ht.Entry other tf) : ∃ tf', ht'.Entry other tf' ∧ tf'.tdef = tf.tdef := by
  by_cases same : other = hash
  · subst same
    cases attached with
    | unchanged => exact ⟨tf, entry, rfl⟩
    | attached fLocation mLocation found =>
        obtain rfl := entry.unique ⟨_, found⟩
        exact ⟨_, ⟨_, lookupTfile_setLocations found fLocation mLocation⟩, rfl⟩
  · obtain ⟨index, found⟩ := entry
    exact ⟨tf, ⟨index, (attached.others same).trans found⟩, rfl⟩

theorem Attached.wf {ht' : Htable} (attached : Attached ht hash ht') (wf : ht.WF) : ht'.WF := by
  cases attached with
  | unchanged => exact wf
  | attached fLocation mLocation found => exact wf.relocate _ fLocation mLocation

/-- Mapping an entry attaches locations to it, whether or not it succeeds. -/
theorem mapTfile_attached (found : lookupTfile store.ht hash = .ok (some (index, tf))) :
    Attached store.ht hash (mapTfile env store index tf).2.ht := by
  simp only [mapTfile]
  split
  next => exact .attached _ _ found
  next =>
      split
      next => exact .attached _ _ found
      next => exact .attached _ _ found

theorem openTfile_attached {result : Option (Location × Int)}
    (returned : openTfile env store hash chunk = .ok (result, after)) :
    Attached store.ht hash after.ht := by
  rcases openTfile_cases returned with ⟨_, rfl, _⟩ | ⟨index, tf, found, _, ⟨_, _, rfl, _⟩ |
    ⟨_, rfl, _⟩⟩
  · exact .unchanged
  · exact .unchanged
  · exact mapTfile_attached found

theorem openTfile_mapped {result : Option (Location × Int)} {mapping : Mapping}
    (entry : store.ht.Entry hash tf) (isMapped : tf.mLocation = some mapping)
    (returned : openTfile env store hash chunk = .ok (result, after)) : after = store := by
  rcases openTfile_cases returned with ⟨_, rfl, _⟩ | ⟨index, tf', found, _, ⟨_, _, rfl, _⟩ |
    ⟨notMapped, _⟩⟩
  · rfl
  · rfl
  · rw [entry.unique ⟨index, found⟩, notMapped] at isMapped
    simp at isMapped

/-- What `save_tfile` does: it detaches the mapping of an entry if both calls succeed, and
changes nothing if not. -/
theorem saveTfile_cases {code : Int} {syncs unmaps : Bool}
    (returned : saveTfile store hash syncs unmaps = .ok (code, after)) :
    after = store ∨
      ∃ index tf, syncs = true ∧ unmaps = true ∧
        lookupTfile store.ht hash = .ok (some (index, tf)) ∧ tf.mLocation ≠ none ∧
        after = { store with ht := store.ht.setLocations index tf.fLocation none } := by
  simp only [saveTfile, Result.bind_eq_ok] at returned
  obtain ⟨entry, found, rest⟩ := returned
  cases entry with
  | none =>
      cases rest
      exact .inl rfl
  | some entry =>
      obtain ⟨index, tf⟩ := entry
      simp only at rest
      split at rest
      next =>
          cases rest
          exact .inl rfl
      next mapping isMapped =>
          split at rest
          next succeeds =>
              cases rest
              rw [Bool.and_eq_true] at succeeds
              exact .inr ⟨index, tf, succeeds.1, succeeds.2, found, by simp [isMapped], rfl⟩
          next =>
              cases rest
              exact .inl rfl

theorem saveTfile_attached {code : Int} {syncs unmaps : Bool}
    (returned : saveTfile store hash syncs unmaps = .ok (code, after)) :
    Attached store.ht hash after.ht := by
  rcases saveTfile_cases returned with rfl | ⟨index, tf, _, _, found, _, rfl⟩
  · exact .unchanged
  · exact .attached _ _ found

end Grintorrent
