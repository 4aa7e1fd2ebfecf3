import Grintorrent.Htable.Refinement

/-!
# Probes at the end of the array

A probe run restarts at slot 0 only after it has read the slot behind the last one, so it
leaves the array as soon as it passes the last slot.  Before any growth this happens for
a new hash exactly if, for some index up to its home index, as many of the hashes added
before are at home from that index on as there are slots from there on.
-/

namespace Grintorrent

open Lib

namespace Htable

/-- The indexes at which `add_htable`, behind its growth test, and `search_htable` read the
array for a hash. -/
def visited (ht : Htable) (hash : Digest) : List Nat :=
  Lib.visited Tfile.key (nextIndex ht.capacity) ht.table (words hash)
    (ht.capacity + 1) (homeIndex ht.capacity (words hash))

/-- Every slot that the two functions read for a hash, and the one that `add_htable`
writes, lies in the array. -/
def ProbesInside (ht : Htable) (hash : Digest) : Prop :=
  (∀ index ∈ ht.visited hash, index < ht.capacity) ∧
    ∀ tdef after index, tdef.fHash = hash → ht.insert tdef = .ok (after, some index) →
      index < ht.capacity

end Htable

/-- Sequences of definitions that `add_htable` took one after another, from `init_htable`
on and without growing the table, with the table they lead to. -/
inductive AddRun (callocOk : Nat → Bool) : List TfileDef → Htable → Prop where
  | init : AddRun callocOk [] initHtable
  | add {defs : List TfileDef} {ht after : Htable} {fuel : Nat} {tdef : TfileDef}
      {result : Option Nat} :
      AddRun callocOk defs ht → ¬ht.Grows →
      addHtable callocOk fuel ht tdef = .ok (after, result) →
      AddRun callocOk (defs ++ [tdef]) after

/-- The different hashes of the definitions, without the zero hash, which the table takes
for a vacant slot. -/
def distinctHashes (defs : List TfileDef) : List Digest :=
  defs.foldl (fun hashes tdef =>
    if tdef.fHash = 0 ∨ tdef.fHash ∈ hashes then hashes else tdef.fHash :: hashes) []

theorem distinctHashes_snoc (defs : List TfileDef) (tdef : TfileDef) :
    distinctHashes (defs ++ [tdef]) =
      if tdef.fHash = 0 ∨ tdef.fHash ∈ distinctHashes defs then distinctHashes defs
      else tdef.fHash :: distinctHashes defs := by
  simp only [distinctHashes, List.foldl_append, List.foldl_cons, List.foldl_nil]
  rfl

/-- The keys of the table are those of the hashes, each of them once. -/
structure Tracks (ht : Htable) (hashes : List Digest) : Prop where
  wf : ht.WF
  capacity : ht.capacity = startingCapacity
  member : ∀ hash, hash ∈ hashes ↔ ∃ (index : Nat) (slot : Tfile),
    ht.table[index]? = some slot ∧ slot.key = some (words hash)
  counted : ∀ p : BitVec 64 × BitVec 64 → Bool,
    ht.table.countP (fun slot => slot.key.any p) = hashes.countP fun hash => p (words hash)

namespace Tracks

variable {ht : Htable} {hashes : List Digest} {tdef : TfileDef} {index : Nat}

theorem init : Tracks initHtable [] where
  wf := Htable.init_wf
  capacity := rfl
  member hash := by
    constructor
    · simp
    · rintro ⟨index, slot, lookup, held⟩
      rw [Htable.init_slot lookup] at held
      simp at held
  counted p := by simp [initHtable, List.countP_replicate]

/-- The slot that a run for the zero hash ends at stays vacant. -/
theorem fill_zero (tracks : Tracks ht hashes) (zero : tdef.fHash = 0)
    (ended : ht.probe tdef.fHash = .vacant index) : Tracks (ht.fill index tdef) hashes := by
  obtain ⟨_, _, slot, lookup, vacant⟩ := Htable.probe_vacant tracks.wf.length ended
  obtain ⟨inside, isSlot⟩ := List.getElem?_eq_some_iff.mp lookup
  have table := Htable.fill_table lookup tdef
  have still : ({ slot with tdef } : Tfile).key = none := Tfile.key_eq_none.mpr zero
  refine ⟨tracks.wf.fill_zero zero ended, tracks.capacity, ?_, ?_⟩
  · intro hash
    rw [tracks.member, table]
    constructor
    · rintro ⟨position, other, found, held⟩
      have elsewhere : index ≠ position := by
        rintro rfl
        obtain rfl := Option.some.inj (lookup.symm.trans found)
        simp [vacant] at held
      exact ⟨position, other, (List.getElem?_set_ne elsewhere).trans found, held⟩
    · rintro ⟨position, other, found, held⟩
      rw [List.getElem?_set] at found
      split at found
      next =>
          obtain rfl := Option.some.inj found
          simp [still] at held
      next => exact ⟨position, other, found, held⟩
  · intro p
    rw [table, List.countP_set inside, isSlot, vacant, still, ← tracks.counted p]
    simp

theorem fill (tracks : Tracks ht hashes) (nonzero : tdef.fHash ≠ 0)
    (ended : ht.probe tdef.fHash = .vacant index) :
    Tracks (ht.fill index tdef) (tdef.fHash :: hashes) := by
  obtain ⟨_, _, slot, lookup, vacant⟩ := Htable.probe_vacant tracks.wf.length ended
  obtain ⟨inside, isSlot⟩ := List.getElem?_eq_some_iff.mp lookup
  have table := Htable.fill_table lookup tdef
  have held : ({ slot with tdef } : Tfile).key = some (words tdef.fHash) :=
    Tfile.key_of_ne_zero nonzero
  refine ⟨tracks.wf.fill nonzero ended, tracks.capacity, ?_, ?_⟩
  · intro hash
    rw [List.mem_cons, tracks.member, table]
    constructor
    · rintro (rfl | ⟨position, other, found, holds⟩)
      · exact ⟨index, _, by rw [List.getElem?_set_self inside], held⟩
      · have elsewhere : index ≠ position := by
          rintro rfl
          obtain rfl := Option.some.inj (lookup.symm.trans found)
          simp [vacant] at holds
        exact ⟨position, other, (List.getElem?_set_ne elsewhere).trans found, holds⟩
    · rintro ⟨position, other, found, holds⟩
      rw [List.getElem?_set] at found
      split at found
      next =>
          obtain rfl := Option.some.inj found
          rw [held, Option.some.injEq] at holds
          exact .inl (words_injective holds).symm
      next => exact .inr ⟨position, other, found, holds⟩
  · intro p
    rw [table, List.countP_set inside, isSlot, vacant, held, List.countP_cons, ← tracks.counted p]
    simp

/-- A run that ends at an entry was for a hash of the table. -/
theorem mem_of_occupied {hash : Digest} (tracks : Tracks ht hashes)
    (ended : ht.probe hash = .occupied index) : hash ∈ hashes ∧ hash ≠ 0 := by
  obtain ⟨slot, lookup, held⟩ := Htable.probe_occupied tracks.wf.length ended
  exact ⟨(tracks.member _).mpr ⟨index, slot, lookup, held⟩, (Tfile.key_eq_some.mp held).2⟩

theorem not_mem_of_vacant {hash : Digest} (tracks : Tracks ht hashes)
    (ended : ht.probe hash = .vacant index) : hash ∉ hashes := by
  intro known
  obtain ⟨position, slot, lookup, held⟩ := (tracks.member _).mp known
  rw [tracks.wf.probe_of_key lookup held] at ended
  simp at ended

end Tracks

theorem AddRun.single (tdef : TfileDef) :
    AddRun (fun _ => true) [tdef]
      (initHtable.fill (homeIndex startingCapacity (words tdef.fHash)) tdef) :=
  .add .init (by decide) (addHtable_init (fun _ => true) 0 tdef)

theorem AddRun.pair : AddRun (fun _ => true) [sampleDef, otherDef] pairTable :=
  .add (.single sampleDef) (by decide) addHtable_pair

theorem AddRun.tracks {callocOk : Nat → Bool} {defs : List TfileDef} {ht : Htable}
    (run : AddRun callocOk defs ht) : Tracks ht (distinctHashes defs) := by
  induction run with
  | init => exact Tracks.init
  | add run calm completes ih =>
      rename_i defs ht after fuel tdef result
      rw [distinctHashes_snoc]
      rcases Htable.insert_cases (addHtable_of_not_grows calm completes) with
        ⟨_, rfl, index, ended⟩ | ⟨index, _, rfl, ended⟩
      · rw [if_pos (.inr (ih.mem_of_occupied ended).1)]
        exact ih
      · by_cases zero : tdef.fHash = 0
        · rw [if_pos (.inl zero)]
          exact ih.fill_zero zero ended
        · rw [if_neg (not_or.mpr ⟨zero, ih.not_mem_of_vacant ended⟩)]
          exact ih.fill zero ended

/-- **Probes leave the array exactly at a crowded end.**  After definitions were added
without growth, whatever their hashes, the two functions stay inside the array for a hash
that has been added, and for another one as long as, for no index up to its home index, as
many of the hashes added are at home from there on as there are slots. -/
theorem probesInside_iff {callocOk : Nat → Bool} {defs : List TfileDef} {ht : Htable}
    (run : AddRun callocOk defs ht) (hash : Digest) :
    ht.ProbesInside hash ↔
      hash ∈ distinctHashes defs ∨
        ∀ first ≤ homeIndex startingCapacity (words hash),
          first + (distinctHashes defs).countP (fun other =>
            first ≤ homeIndex startingCapacity (words other)) < startingCapacity := by
  have tracks := run.tracks
  have length : ht.table.length = startingCapacity := tracks.wf.length.trans tracks.capacity
  have home := Htable.homeIndex_lt (show 0 < startingCapacity by decide) (words hash)
  have placed := tracks.wf.placed
  have ascending := nextIndex_ascending tracks.wf.length
  rw [tracks.capacity] at placed ascending
  have reads := @Lib.Placed.visited_inside_iff _ _ _ _ _ (words hash) (startingCapacity + 1) _ _
    placed ascending (by omega) (by omega)
  have crowds : ∀ first, Lib.crowd Tfile.key (homeIndex startingCapacity) ht.table first =
      (distinctHashes defs).countP fun other =>
        first ≤ homeIndex startingCapacity (words other) :=
    fun first => tracks.counted fun key => first ≤ homeIndex startingCapacity key
  simp only [crowds, length, ← tracks.member] at reads
  have writes : ∀ tdef after index, tdef.fHash = hash →
      ht.insert tdef = .ok (after, some index) → index < ht.capacity := by
    intro tdef after index same returned
    rcases Htable.insert_cases returned with ⟨none, _⟩ | ⟨place, isPlace, _, ended⟩
    · simp at none
    · obtain rfl := Option.some.inj isPlace
      obtain ⟨_, _, slot, lookup, _⟩ := Htable.probe_vacant tracks.wf.length ended
      rw [← tracks.wf.length]
      exact (List.getElem?_eq_some_iff.mp lookup).1
  unfold Htable.ProbesInside Htable.visited
  rw [and_iff_left writes, tracks.capacity]
  exact reads

/-- A third hash with the home index of two entries. -/
theorem probesInside_sample :
    ∃ ht, AddRun (fun _ => true) [sampleDef, otherDef] ht ∧ ht.ProbesInside 0x201 := by
  refine ⟨_, .pair, (probesInside_iff .pair 0x201).mpr (.inr ?_)⟩
  intro first early
  have home : homeIndex startingCapacity (words 0x201) = 1 := by rfl
  have few := List.countP_le_length (l := distinctHashes [sampleDef, otherDef])
    (p := fun other => first ≤ homeIndex startingCapacity (words other))
  have two : (distinctHashes [sampleDef, otherDef]).length = 2 := by rfl
  have capacity : startingCapacity = 256 := rfl
  omega

/-- A definition whose home index is the last slot. -/
def lastDef : TfileDef := { sampleDef with fHash := 0xFF }

/-- Another hash with this home index: after slot 255 slot 256 is read. -/
theorem probesInside_last_fails :
    ∃ ht, AddRun (fun _ => true) [lastDef] ht ∧ ht.capacity = 256 ∧
      ht.visited 0x1FF = [255, 256] ∧ ¬ht.ProbesInside 0x1FF := by
  have visits : (initHtable.fill (homeIndex startingCapacity (words lastDef.fHash))
      lastDef).visited 0x1FF = [255, 256] := by rfl
  refine ⟨_, .single lastDef, rfl, visits, ?_⟩
  rintro ⟨reads, _⟩
  rw [visits] at reads
  have below : 256 < startingCapacity := reads 256 (by simp)
  simp [startingCapacity] at below

end Grintorrent
