import Grintorrent.Htable.Listing
import Grintorrent.Htable.Wrapping
import Mathlib.Data.Set.Card

/-!
# What the size counter counts

`add_htable` adds one to `size` whenever it fills a slot.  A definition with the zero
hash is counted each time it is added and leaves its slot vacant, so `size` is the number
of entries and of zero hashes taken together.  It is never below the number of slots of
positive size, which is what lets `list_tfiles` stop at it.
-/

namespace Grintorrent

open Lib

namespace Htable

/-- The hashes for which `search_htable` returns an entry. -/
def found (ht : Htable) : Set Digest :=
  {hash | ∃ index, searchHtable ht hash = .ok (some index)}

end Htable

theorem nodup_distinctHashes (defs : List TfileDef) : (distinctHashes defs).Nodup := by
  induction defs using List.reverseRecOn with
  | nil => exact .nil
  | append_singleton defs tdef ih =>
      rw [distinctHashes_snoc]
      split
      next => exact ih
      next fresh => exact List.nodup_cons.mpr ⟨fun known => fresh (.inr known), ih⟩

section Counter

variable {callocOk : Nat → Bool} {defs : List TfileDef} {ht : Htable}

theorem Tracks.mem_found {hashes : List Digest} (tracks : Tracks ht hashes) (hash : Digest) :
    hash ∈ ht.found ↔ hash ∈ hashes := by
  constructor
  · rintro ⟨index, searched⟩
    exact (tracks.mem_of_occupied (Htable.search_eq_some.mp searched)).1
  · intro known
    obtain ⟨index, slot, lookup, held⟩ := (tracks.member hash).mp known
    exact ⟨index, Htable.search_eq_some.mpr (tracks.wf.probe_of_key lookup held)⟩

/-- After a run, the hashes found are the different ones that were added. -/
theorem AddRun.ncard_found (run : AddRun callocOk defs ht) :
    ht.found.ncard = (distinctHashes defs).length := by
  have same : ht.found = ↑(distinctHashes defs).toFinset := by
    ext hash
    rw [run.tracks.mem_found, Finset.mem_coe, List.mem_toFinset]
  rw [same, Set.ncard_coe_finset, List.toFinset_card_of_nodup (nodup_distinctHashes defs)]

/-- The counter is the number of different hashes, and of zero hashes one by one. -/
theorem AddRun.size_eq (run : AddRun callocOk defs ht) :
    ht.size = (distinctHashes defs).length + defs.countP fun tdef => tdef.fHash = 0 := by
  induction run with
  | init => rfl
  | add run calm completes ih =>
      rename_i defs ht after fuel tdef result
      have tracks := run.tracks
      rw [distinctHashes_snoc, List.countP_append, List.countP_singleton]
      rcases Htable.insert_cases (addHtable_of_not_grows calm completes) with
        ⟨_, rfl, index, ended⟩ | ⟨index, _, rfl, ended⟩
      · obtain ⟨known, nonzero⟩ := tracks.mem_of_occupied ended
        rw [if_pos (.inr known), if_neg (by simpa using nonzero)]
        exact ih
      · rw [Htable.fill_size, ih]
        by_cases zero : tdef.fHash = 0
        · simp [zero, Nat.add_assoc]
        · rw [if_neg (not_or.mpr ⟨zero, tracks.not_mem_of_vacant ended⟩)]
          simp only [zero, decide_false, Bool.false_eq_true, if_false, List.length_cons]
          omega

/-- **The size counter.**  After any sequence of additions before growth, `size` is the
number of hashes that `search_htable` finds exactly if none of the definitions had the
zero hash. -/
theorem size_exact_iff (run : AddRun callocOk defs ht) :
    ht.size = ht.found.ncard ↔ ∀ tdef ∈ defs, tdef.fHash ≠ 0 := by
  have counted : ht.size = ht.found.ncard ↔ defs.countP (fun tdef => tdef.fHash = 0) = 0 := by
    rw [run.size_eq, run.ncard_found]
    omega
  rw [counted, List.countP_eq_zero]
  simp only [decide_eq_true_eq, ne_eq]

end Counter

theorem AddRun.twice :
    AddRun (fun _ => true) [sampleDef, otherDef, sampleDef] pairTable :=
  .add .pair (by decide) (show addHtable (fun _ => true) 1 _ _ = .ok (pairTable, none) by rfl)

theorem size_exact_sample :
    ∃ ht, AddRun (fun _ => true) [sampleDef, otherDef, sampleDef] ht ∧ ht.size = 2 ∧
      ht.size = ht.found.ncard := by
  refine ⟨_, .twice, rfl, (size_exact_iff .twice).mpr ?_⟩
  intro tdef member
  simp only [List.mem_cons, List.not_mem_nil, or_false] at member
  rcases member with rfl | rfl | rfl
  · decide
  · decide
  · decide

/-- A definition with the zero hash. -/
def vacantDef : TfileDef := { sampleDef with fHash := 0 }

/-- Added twice, it is counted twice, and no search returns an entry. -/
theorem size_vacant_fails :
    ∃ ht, AddRun (fun _ => true) [vacantDef, vacantDef] ht ∧ ht.size = 2 ∧
      ht.found.ncard = 0 := by
  have again : addHtable (fun _ => true) 1 (initHtable.fill 0 vacantDef) vacantDef =
      .ok ((initHtable.fill 0 vacantDef).fill 0 vacantDef, some 0) := by rfl
  have run : AddRun (fun _ => true) ([vacantDef] ++ [vacantDef]) _ :=
    .add (.single vacantDef) (by decide) again
  exact ⟨_, run, rfl, run.ncard_found⟩

theorem Htable.length_sized (slots : List Tfile) :
    (sized slots).length = slots.countP fun slot => slot.tdef.size > 0 := by
  rw [sized, ← List.countP_eq_length_filter, List.countP_map]
  rfl

/-- Slots of positive size never outnumber the counter: each slot filled is counted, and
one that is filled again is counted again. -/
theorem AddRun.room {callocOk : Nat → Bool} {defs : List TfileDef} {ht : Htable}
    (run : AddRun callocOk defs ht) : (Htable.sized ht.table).length ≤ ht.size := by
  induction run with
  | init =>
      rw [Htable.length_sized, initHtable, List.countP_replicate]
      simp [Tfile.zero, TfileDef.zero]
  | add run calm completes ih =>
      rename_i defs ht after fuel tdef result
      rcases Htable.insert_cases (addHtable_of_not_grows calm completes) with
        ⟨_, rfl, _⟩ | ⟨index, _, rfl, ended⟩
      · exact ih
      · obtain ⟨_, _, slot, lookup, _⟩ := Htable.probe_vacant run.tracks.wf.length ended
        obtain ⟨inside, _⟩ := List.getElem?_eq_some_iff.mp lookup
        rw [Htable.length_sized] at ih ⊢
        rw [Htable.fill_table lookup, Htable.fill_size, List.countP_set inside]
        split <;> split <;> omega

/-- **The early exit of `list_tfiles`.**  After any sequence of additions before growth,
`list_tfiles` returns the definitions of all slots of positive size, in the order of the
slots, and there are at most `size` of them. -/
theorem listTfiles_complete {callocOk : Nat → Bool} {defs : List TfileDef} {ht : Htable}
    (run : AddRun callocOk defs ht) :
    listTfiles ht =
        .ok ((ht.table.map Tfile.tdef).filter fun tdef => tdef.size > 0) ∧
      ((ht.table.map Tfile.tdef).filter fun tdef => tdef.size > 0).length ≤ ht.size := by
  exact ⟨Htable.listTfiles_of_room run.tracks.wf.length run.room, run.room⟩

theorem listTfiles_complete_sample :
    ∃ ht, AddRun (fun _ => true) [sampleDef, otherDef, sampleDef] ht ∧
      listTfiles ht = .ok [sampleDef, otherDef] := by
  have sized : (pairTable.table.map Tfile.tdef).filter (fun tdef => tdef.size > 0) =
      [sampleDef, otherDef] := by decide
  have listed := (listTfiles_complete .twice).1
  rw [sized] at listed
  exact ⟨_, .twice, listed⟩

end Grintorrent
