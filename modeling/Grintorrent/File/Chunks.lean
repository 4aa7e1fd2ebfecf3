import Grintorrent.File.Basic
import Grintorrent.Htable.Invariant
import Mathlib.Tactic.FinCases

/-!
# The eight chunks of a file

The chunk ranges are computed in several places of `file.c`, always as a multiple
of `size / NUM_CHUNKS` with the remainder in the last chunk.  They are pairwise
disjoint and cover the file, whatever its size, so a file is determined by its
chunks.  The bitmap of `verify_tfile` numbers them from the most significant bit
down, and `is_chunk_verified` reads it the same way.
-/

namespace Grintorrent

open Lib

/-- Where a chunk of a file of `size` bytes starts. -/
def chunkStart (size : Nat) (i : Fin numChunks) : Nat := i.val * (size / numChunks)

/-- How long a chunk of a file of `size` bytes is. -/
def chunkLen (size : Nat) (i : Fin numChunks) : Nat :=
  if i.val = 7 then size - 7 * (size / numChunks) else size / numChunks

/-- The bytes of a chunk. -/
def chunkOf (content : Bytes) (i : Fin numChunks) : Bytes :=
  slice (chunkStart content.length i) (chunkLen content.length i) content

variable {size : Nat} {i j : Fin numChunks}

theorem chunk_inside (size : Nat) (i : Fin numChunks) :
    chunkStart size i + chunkLen size i ≤ size := by
  have tiles := Nat.div_add_mod size 8
  fin_cases i <;> simp [chunkStart, chunkLen, numChunks] <;> omega

theorem chunkLen_pos (admitted : minSize ≤ size) (i : Fin numChunks) : 0 < chunkLen size i := by
  simp only [minSize] at admitted
  simp only [chunkLen, numChunks]
  split <;> omega

theorem chunk_disjoint (size : Nat) (different : i ≠ j) :
    chunkStart size i + chunkLen size i ≤ chunkStart size j ∨
      chunkStart size j + chunkLen size j ≤ chunkStart size i := by
  have tiles := Nat.div_add_mod size 8
  rcases Nat.lt_or_gt_of_ne (fun same => different (Fin.ext same)) with before | after
  · left
    have notLast : i.val ≠ 7 := by
      have bound := j.isLt
      simp only [numChunks] at bound
      omega
    have next : (i.val + 1) * (size / numChunks) ≤ j.val * (size / numChunks) :=
      Nat.mul_le_mul_right _ before
    simp only [chunkStart, chunkLen, if_neg notLast]
    rw [Nat.add_mul, Nat.one_mul] at next
    exact next
  · right
    have notLast : j.val ≠ 7 := by
      have bound := i.isLt
      simp only [numChunks] at bound
      omega
    have next : (j.val + 1) * (size / numChunks) ≤ i.val * (size / numChunks) :=
      Nat.mul_le_mul_right _ after
    simp only [chunkStart, chunkLen, if_neg notLast]
    rw [Nat.add_mul, Nat.one_mul] at next
    exact next

theorem chunk_cover {position : Nat} (inside : position < size) :
    ∃ i, chunkStart size i ≤ position ∧ position < chunkStart size i + chunkLen size i := by
  have tiles := Nat.div_add_mod size 8
  rcases Nat.lt_or_ge position (7 * (size / 8)) with early | late
  · have positive : 0 < size / 8 := by omega
    have lower := Nat.div_mul_le_self position (size / 8)
    have upper := Nat.lt_div_mul_add positive (a := position)
    have below : position / (size / 8) < 7 := Nat.div_lt_of_lt_mul (by rwa [Nat.mul_comm])
    have index : position / (size / 8) < numChunks := Nat.lt_trans below (by decide)
    refine ⟨⟨position / (size / 8), index⟩, ?_, ?_⟩
    · exact lower
    · have notLast : position / (size / 8) ≠ 7 := by omega
      simp only [chunkStart, chunkLen, if_neg notLast]
      exact upper
  · refine ⟨7, ?_, ?_⟩
    · simpa [chunkStart, numChunks] using late
    · simp [chunkStart, chunkLen, numChunks]
      omega

theorem length_chunkOf (content : Bytes) (i : Fin numChunks) :
    (chunkOf content i).length = chunkLen content.length i :=
  length_slice (chunk_inside content.length i)

/-- A file is determined by its length and its chunks. -/
theorem eq_of_chunks {left right : Bytes} (sameLength : left.length = right.length)
    (agree : ∀ i, chunkOf left i = chunkOf right i) : left = right := by
  apply eq_of_slices sameLength (fun position inside => chunk_cover inside)
  intro i
  have same := agree i
  simp only [chunkOf, ← sameLength] at same
  exact same

/-- A loop that assigns each index of a list once ends with the assigned values,
and the old values elsewhere. -/
theorem foldlM_update {ι β : Type} [DecidableEq ι] {assign : ι → β → Result β}
    {current final : ι → β} {indices : List ι} (distinct : indices.Nodup)
    (assigned : ∀ i ∈ indices, assign i (current i) = .ok (final i))
    (kept : ∀ i, i ∉ indices → current i = final i) :
    indices.foldlM (fun values i => do
      let value ← assign i (values i)
      .ok (Function.update values i value)) current = (.ok final : Result _) := by
  induction indices generalizing current with
  | nil =>
      simp only [List.foldlM_nil, Result.pure_eq_ok]
      exact congrArg _ (funext fun i => kept i (by simp))
  | cons i indices ih =>
      simp only [List.foldlM_cons, assigned i List.mem_cons_self, Result.ok_bind]
      apply ih (List.nodup_cons.mp distinct).2
      · intro k member
        have other : k ≠ i := by
          rintro rfl
          exact (List.nodup_cons.mp distinct).1 member
        rw [Function.update_of_ne other]
        exact assigned k (List.mem_cons_of_mem _ member)
      · intro k absent
        by_cases same : k = i
        · subst same
          simp
        · rw [Function.update_of_ne same]
          exact kept k (by simp [same, absent])

theorem of_foldlM_update {ι β : Type} [DecidableEq ι] {assign : ι → β → Result β}
    {current final : ι → β} {indices : List ι} (distinct : indices.Nodup)
    (ended : indices.foldlM (fun values i => do
      let value ← assign i (values i)
      .ok (Function.update values i value)) current = (.ok final : Result _)) :
    (∀ i ∈ indices, assign i (current i) = .ok (final i)) ∧
      ∀ i, i ∉ indices → current i = final i := by
  induction indices generalizing current with
  | nil =>
      simp only [List.foldlM_nil, Result.pure_eq_ok, Except.ok.injEq] at ended
      simp [ended]
  | cons i indices ih =>
      simp only [List.foldlM_cons, Result.bind_eq_ok, Except.ok.injEq] at ended
      obtain ⟨_, ⟨value, isValue, rfl⟩, later⟩ := ended
      obtain ⟨absent, distinct⟩ := List.nodup_cons.mp distinct
      obtain ⟨assigned, kept⟩ := ih distinct later
      constructor
      · intro k member
        rcases List.mem_cons.mp member with rfl | inside
        · rw [isValue, ← kept k absent, Function.update_self]
        · have other : k ≠ i := by
            rintro rfl
            exact absent inside
          have hashed := assigned k inside
          rwa [Function.update_of_ne other] at hashed
      · intro k outside
        rw [List.mem_cons, not_or] at outside
        rw [← kept k outside.2, Function.update_of_ne outside.1]

/-- The offset and the size the chunk loops compute for each chunk, in the
source's arithmetic. -/
theorem hashChunks_eq {hashAt : Int → Int → Digest → Result Digest}
    {cHashes computed : Fin numChunks → Digest}
    (hashes : ∀ i, hashAt (chunkStart size i) (chunkLen size i) (cHashes i) =
      .ok (computed i)) :
    hashChunks hashAt size cHashes = .ok computed := by
  have quotient : (size : Int).tdiv numChunks = (size / numChunks : Nat) := by
    rw [← Int.ofNat_tdiv]
  have lastOffset : ((size / numChunks : Nat) : Int) * (numChunks - 1) =
      (chunkStart size 7 : Nat) := by
    simp [chunkStart, numChunks, Int.mul_comm]
  have lastSize : (size : Int) - (chunkStart size 7 : Nat) = (chunkLen size 7 : Nat) := by
    have tiles := Nat.div_add_mod size 8
    simp only [chunkStart, chunkLen, numChunks]
    simp
    omega
  have others : ∀ i : Fin numChunks, i ≠ 7 →
      hashAt (i.val * (size / numChunks : Nat)) (size / numChunks : Nat) (cHashes i) =
        .ok (computed i) := by
    intro i different
    have notLast : i.val ≠ 7 := fun last => different (Fin.ext last)
    have hashed := hashes i
    simp only [chunkStart, chunkLen, if_neg notLast] at hashed
    exact_mod_cast hashed
  have indices : (List.finRange numChunks).dropLast = [0, 1, 2, 3, 4, 5, 6] := by decide
  simp only [hashChunks, quotient, lastOffset, lastSize, hashes 7, Result.ok_bind, indices]
  apply foldlM_update
  · decide
  · intro i member
    have notLast : i ≠ 7 := by
      rintro rfl
      exact absurd member (by decide)
    rw [Function.update_of_ne notLast]
    exact others i notLast
  · intro i absent
    have last : i = 7 := by
      revert i
      decide
    subst last
    simp

/-- A bitmap with one bit for each chunk, from the most significant bit down. -/
def bitmap (verified : Fin numChunks → Bool) : VerifiedChunks :=
  (List.finRange numChunks).foldl (fun chunks i =>
    chunks ||| (if verified i then 1 else 0) <<< (numChunks - 1 - i.val)) unverifiedFile

theorem compareHashes_eq (computed expected : Fin numChunks → Digest) :
    compareHashes computed expected =
      bitmap fun i => decide (computed i = expected i) := by
  simp only [compareHashes, bitmap, words_injective.eq_iff, decide_eq_true_eq]

theorem getLsbD_flag (flag : Bool) {place k : Nat} (inside : k < 8) :
    (((if flag then 1 else 0) <<< place : Nat) : VerifiedChunks).getLsbD k =
      (flag && decide (place = k)) := by
  cases flag with
  | false => simp
  | true =>
      rw [if_pos rfl, Nat.one_shiftLeft, BitVec.natCast_eq_ofNat, BitVec.getLsbD_ofNat,
        Nat.testBit_two_pow, decide_eq_true inside]

/-- A loop that adds the flags of some chunks sets the bits of these chunks and keeps the
other ones. -/
theorem getLsbD_foldl_flags (verified : Fin numChunks → Bool) (indices : List (Fin numChunks))
    (chunks : VerifiedChunks) (i : Fin numChunks) :
    (indices.foldl (fun chunks k => chunks |||
      (((if verified k then 1 else 0) <<< (numChunks - 1 - k.val) : Nat) : VerifiedChunks))
      chunks).getLsbD (numChunks - 1 - i.val) =
      (chunks.getLsbD (numChunks - 1 - i.val) || (decide (i ∈ indices) && verified i)) := by
  induction indices generalizing chunks with
  | nil => simp
  | cons k indices ih =>
      have place : numChunks - 1 - k.val = numChunks - 1 - i.val ↔ i = k := by
        simp only [numChunks]
        omega
      have inside : numChunks - 1 - i.val < 8 := by
        simp only [numChunks]
        omega
      rw [List.foldl_cons, ih, BitVec.getLsbD_or, getLsbD_flag _ inside]
      simp only [place, List.mem_cons, Bool.decide_or, Bool.or_assoc, Bool.and_or_distrib_right]
      by_cases same : i = k
      · rw [same, Bool.and_comm]
      · simp only [same, decide_false, Bool.and_false, Bool.false_and, Bool.false_or]

theorem isChunkVerified_eq (chunks : VerifiedChunks) (i : Fin numChunks) :
    isChunkVerified chunks i.val = chunks.getLsbD (numChunks - 1 - i.val) := by
  have inside : ¬((i.val : Int) < 0 ∨ numChunks ≤ (i.val : Int)) := by omega
  have lowest : ∀ bits : VerifiedChunks, (bits &&& 0x01 != 0) = bits.getLsbD 0 := by
    intro bits
    rw [BitVec.ofNat_eq_ofNat, BitVec.and_one_eq_setWidth_ofBool_getLsbD]
    cases bits.getLsbD 0 with
    | false => rfl
    | true => rfl
  simp only [isChunkVerified, if_neg inside, Int.toNat_natCast, lowest,
    BitVec.getLsbD_ushiftRight, Nat.add_zero]

theorem isChunkVerified_bitmap (verified : Fin numChunks → Bool) (i : Fin numChunks) :
    isChunkVerified (bitmap verified) i.val = verified i := by
  rw [isChunkVerified_eq, bitmap, getLsbD_foldl_flags]
  simp [unverifiedFile]

theorem isChunkVerified_verifiedFile (i : Fin numChunks) :
    isChunkVerified verifiedFile i.val = true := by
  revert i
  decide

theorem bitmap_eq_verifiedFile (verified : Fin numChunks → Bool) :
    bitmap verified = verifiedFile ↔ ∀ i, verified i = true := by
  constructor
  · intro full i
    rw [← isChunkVerified_bitmap verified i, full]
    exact isChunkVerified_verifiedFile i
  · intro every
    rw [show verified = fun _ => true from funext every]
    decide

theorem isChunkVerified_unverifiedFile (chunkIndex : Int) :
    isChunkVerified unverifiedFile chunkIndex = false := by
  simp [isChunkVerified, unverifiedFile]

theorem bitmap_eq_unverifiedFile (verified : Fin numChunks → Bool) :
    bitmap verified = unverifiedFile ↔ ∀ i, verified i = false := by
  constructor
  · intro empty i
    rw [← isChunkVerified_bitmap verified i, empty]
    exact isChunkVerified_unverifiedFile i.val
  · intro none
    rw [show verified = fun _ => false from funext none]
    decide

theorem isChunkVerified_outside {chunks : VerifiedChunks} {chunkIndex : Int}
    (outside : chunkIndex < 0 ∨ numChunks ≤ chunkIndex) :
    isChunkVerified chunks chunkIndex = false := by
  simp only [isChunkVerified, if_pos outside]

theorem exists_chunk {chunkIndex : Int} (inside : ¬(chunkIndex < 0 ∨ numChunks ≤ chunkIndex)) :
    ∃ i : Fin numChunks, chunkIndex = i.val := by
  refine ⟨⟨chunkIndex.toNat, by omega⟩, ?_⟩
  simp only
  omega

theorem exists_chunk_of_verified {chunks : VerifiedChunks} {chunkIndex : Int}
    (verified : isChunkVerified chunks chunkIndex = true) :
    ∃ i : Fin numChunks, chunkIndex = i.val := by
  apply exists_chunk
  intro outside
  rw [isChunkVerified_outside outside] at verified
  simp at verified

end Grintorrent
