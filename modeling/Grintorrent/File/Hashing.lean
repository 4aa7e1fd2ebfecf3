import Grintorrent.File.Basic
import Mathlib.Tactic.Ring

/-!
# What `md5_hash` computes

The block loop and the remainder read tile the requested range, so a range inside
the file is digested exactly, as long as the `int` block counter cannot overflow:
that is, for ranges below `2 ^ 44` bytes.  From that size on the counter is
incremented past its largest value before the end of the range is reached.
-/

namespace Grintorrent

open Lib

variable {env : Env} {content : Bytes}

/-- The context has digested exactly these bytes. -/
def Env.Digested (env : Env) (c : env.Ctx) (bytes : Bytes) : Prop :=
  ∃ blocks : List Bytes, c = blocks.foldl env.md5Update env.md5Init ∧
    blocks.flatten = bytes

theorem Env.digested_init (env : Env) : env.Digested env.md5Init [] :=
  ⟨[], rfl, rfl⟩

theorem Env.Digested.update {c : env.Ctx} {bytes : Bytes}
    (digested : env.Digested c bytes) (block : Bytes) :
    env.Digested (env.md5Update c block) (bytes ++ block) := by
  obtain ⟨blocks, rfl, rfl⟩ := digested
  exact ⟨blocks ++ [block], by simp, by simp⟩

theorem Env.Digested.final {c : env.Ctx} {bytes : Bytes}
    (digested : env.Digested c bytes) : env.md5Final c = env.md5 bytes := by
  obtain ⟨blocks, rfl, rfl⟩ := digested
  exact env.md5_blocks blocks

/-- The block loop reads consecutive blocks while they are complete and the
counter stays below its limit. -/
theorem md5Blocks_complete {blocks i offset : Nat} {c : env.Ctx} {bytes : Bytes}
    (digested : env.Digested c bytes)
    (inside : offset + blocks * blockReadSize ≤ content.length)
    (counts : i + blocks < 2 ^ 31) :
    ∃ c', md5Blocks env content blocks i offset c =
        .ok (some (offset + blocks * blockReadSize, c')) ∧
      env.Digested c' (bytes ++ slice offset (blocks * blockReadSize) content) := by
  induction blocks generalizing i offset c bytes with
  | zero => exact ⟨c, by simp [md5Blocks], by simpa [slice] using digested⟩
  | succ blocks ih =>
      rw [Nat.add_mul, Nat.one_mul] at inside
      have full : (slice offset blockReadSize content).length = blockReadSize :=
        length_slice (by omega)
      obtain ⟨c', returned, digested'⟩ :=
        @ih (i + 1) (offset + blockReadSize) _ _
          (digested.update (slice offset blockReadSize content)) (by omega) (by omega)
      refine ⟨c', ?_, ?_⟩
      · have next : offset + (blocks + 1) * blockReadSize =
            offset + blockReadSize + blocks * blockReadSize := by ring
        simp only [md5Blocks, full, ne_eq, not_true_eq_false, if_false,
          if_neg (show ¬i + 1 = 2 ^ 31 by omega), returned, next]
      · have joined := slice_append_slice offset blockReadSize
          (blocks * blockReadSize) content
        rw [List.append_assoc, joined] at digested'
        rw [Nat.add_mul, Nat.one_mul, Nat.add_comm (blocks * blockReadSize)]
        exact digested'

theorem md5Blocks_overflow {blocks i offset : Nat} {c : env.Ctx}
    (inside : offset + (2 ^ 31 - i) * blockReadSize ≤ content.length)
    (below : i < 2 ^ 31) (many : 2 ^ 31 ≤ i + blocks) :
    md5Blocks env content blocks i offset c = .error .signedOverflow := by
  induction blocks generalizing i offset c with
  | zero => omega
  | succ blocks ih =>
      have split : (2 ^ 31 - i) * blockReadSize =
          (2 ^ 31 - (i + 1)) * blockReadSize + blockReadSize := by
        rw [show 2 ^ 31 - i = 2 ^ 31 - (i + 1) + 1 by omega, Nat.add_mul, Nat.one_mul]
      have full : (slice offset blockReadSize content).length = blockReadSize :=
        length_slice (by omega)
      simp only [md5Blocks, full, ne_eq, not_true_eq_false, if_false]
      split
      · rfl
      · exact ih (by omega) (by omega) (by omega)

/-- The block loop fails at the end of the file, if its counter has not overflowed
before. -/
theorem md5Blocks_short {blocks i offset : Nat} {c : env.Ctx} (positive : 0 < blocks)
    (outside : content.length < offset + blocks * blockReadSize)
    (counts : i * blockReadSize + content.length < 2 ^ 44 + offset) :
    md5Blocks env content blocks i offset c = .ok none := by
  induction blocks generalizing i offset c with
  | zero => omega
  | succ blocks ih =>
      simp only [md5Blocks]
      split
      next => rfl
      next full =>
          have inside : offset + blockReadSize ≤ content.length := by
            simp only [slice, List.length_take, List.length_drop, ne_eq, not_not] at full
            simp only [blockReadSize] at full ⊢
            omega
          rw [Nat.add_mul, Nat.one_mul] at outside
          have below : ¬i + 1 = 2 ^ 31 := by
            simp only [blockReadSize] at counts inside
            omega
          rw [if_neg below]
          apply ih
          · simp only [blockReadSize] at outside inside
            omega
          · omega
          · rw [Nat.add_mul, Nat.one_mul]
            omega

theorem blocks_toNat (size : Nat) :
    ((size : Int).tdiv blockReadSize).toNat = size / blockReadSize := by
  rw [← Int.ofNat_tdiv, Int.toNat_natCast]

theorem rest_natCast (size : Nat) :
    (size : Int).tmod blockReadSize = (size % blockReadSize : Nat) := by
  rw [← Int.ofNat_tmod]

theorem md5Hash_complete {offset size : Nat} {hash : Digest}
    (inside : offset + size ≤ content.length) (counts : size < 2 ^ 44) :
    md5Hash env content offset size hash =
      .ok (0, env.md5 (slice offset size content)) := by
  have counted : size / blockReadSize < 2 ^ 31 :=
    Nat.div_lt_of_lt_mul (by simpa [blockReadSize] using counts)
  have tiles := Nat.div_add_mod' size blockReadSize
  obtain ⟨c, returned, digested⟩ := @md5Blocks_complete env content
    (size / blockReadSize) 0 offset _ _ env.digested_init (by omega) (by omega)
  have tail : (slice (offset + size / blockReadSize * blockReadSize)
      (size % blockReadSize) content).length = size % blockReadSize :=
    length_slice (by omega)
  have whole := (digested.update (slice (offset + size / blockReadSize * blockReadSize)
    (size % blockReadSize) content)).final
  rw [List.nil_append, slice_append_slice, tiles] at whole
  have positive : ¬((size % blockReadSize : Nat) : Int) = -1 := by omega
  have nonneg : ¬((size % blockReadSize : Nat) : Int) < 0 := by omega
  simp only [md5Hash, blocks_toNat, Int.toNat_natCast, returned, Result.ok_bind, rest_natCast,
    if_neg positive, if_neg nonneg, tail, ne_eq, not_true_eq_false, if_false, whole]

theorem md5Hash_short {offset size : Nat} {hash : Digest} (positive : 0 < size)
    (outside : content.length < offset + size) (counts : content.length < 2 ^ 44 + offset) :
    md5Hash env content offset size hash = .ok (1, hash) := by
  have tiles := Nat.div_add_mod' size blockReadSize
  have notMinus : ¬((size % blockReadSize : Nat) : Int) = -1 := by omega
  have nonneg : ¬((size % blockReadSize : Nat) : Int) < 0 := by omega
  have tail : content.length < offset + size / blockReadSize * blockReadSize +
      size % blockReadSize := by omega
  simp only [md5Hash, blocks_toNat, rest_natCast, Int.toNat_natCast]
  rcases Nat.lt_or_ge content.length (offset + size / blockReadSize * blockReadSize) with
    early | late
  · rcases Nat.eq_zero_or_pos (size / blockReadSize) with none | some
    · have short : (slice offset (size % blockReadSize) content).length ≠
          size % blockReadSize := by
        simp only [slice, List.length_take, List.length_drop]
        rw [none, Nat.zero_mul] at tiles early
        omega
      simp only [none, md5Blocks, Result.ok_bind, if_neg notMinus, if_neg nonneg,
        if_pos short]
    · have counted : 0 * blockReadSize + content.length < 2 ^ 44 + offset := by omega
      rw [md5Blocks_short some early counted]
      rfl
  · have counted : 0 + size / blockReadSize < 2 ^ 31 := by
      simp only [blockReadSize] at late ⊢
      omega
    obtain ⟨c, returned, _⟩ := md5Blocks_complete env.digested_init late counted
    have short : (slice (offset + size / blockReadSize * blockReadSize)
        (size % blockReadSize) content).length ≠ size % blockReadSize := by
      simp only [slice, List.length_take, List.length_drop]
      omega
    simp only [returned, Result.ok_bind, if_neg notMinus, if_neg nonneg, if_pos short]

/-- An empty range is digested at any offset, also behind the end of the file. -/
theorem md5Hash_empty {offset : Nat} {hash : Digest} :
    md5Hash env content offset 0 hash = .ok (0, env.md5 []) := by
  have digested := (env.digested_init.update []).final
  simp [md5Hash, md5Blocks, slice, digested]

/-- **`md5_hash` digests exactly the requested range**, as far as its counter reaches. -/
theorem md5Hash_eq {offset size : Nat} {hash : Digest} (counts : size < 2 ^ 44) :
    md5Hash env content offset size hash =
      .ok (if offset + size ≤ content.length ∨ size = 0 then
          (0, env.md5 (slice offset size content))
        else (1, hash)) := by
  rcases Nat.eq_zero_or_pos size with rfl | positive
  · rw [if_pos (.inr rfl)]
    exact md5Hash_empty
  by_cases inside : offset + size ≤ content.length
  · rw [if_pos (.inl inside)]
    exact md5Hash_complete inside counts
  · rw [if_neg (by omega)]
    exact md5Hash_short positive (by omega) (by omega)

/-- From `2 ^ 44` bytes on the counter overflows. -/
theorem md5Hash_overflow {offset size : Nat} {hash : Digest}
    (inside : offset + size ≤ content.length) (large : 2 ^ 44 ≤ size) :
    md5Hash env content offset size hash = .error .signedOverflow := by
  have blocks : 2 ^ 31 ≤ size / blockReadSize :=
    (Nat.le_div_iff_mul_le (by decide)).mpr (by simpa [blockReadSize] using large)
  have room : 2 ^ 31 * blockReadSize ≤ size := by simpa [blockReadSize] using large
  have quotient : ((size : Int).tdiv blockReadSize).toNat = size / blockReadSize := by
    rw [← Int.ofNat_tdiv, Int.toNat_natCast]
  have overflow := @md5Blocks_overflow env content (size / blockReadSize) 0 offset
    env.md5Init (by omega) (by omega) (by omega)
  simp only [md5Hash, quotient, Int.toNat_natCast, overflow, Result.error_bind]

theorem md5HashInto_complete {offset size : Nat} {hash : Digest}
    (inside : offset + size ≤ content.length) (counts : size < 2 ^ 44) :
    md5HashInto env content offset size hash =
      .ok (env.md5 (slice offset size content)) := by
  simp only [md5HashInto, md5Hash_complete inside counts, Result.ok_bind]

theorem md5HashInto_short {offset size : Nat} {hash : Digest} (positive : 0 < size)
    (outside : content.length < offset + size) (counts : content.length < 2 ^ 44 + offset) :
    md5HashInto env content offset size hash = .ok hash := by
  simp only [md5HashInto, md5Hash_short positive outside counts, Result.ok_bind]

theorem md5HashInto_overflow {offset size : Nat} {hash : Digest}
    (inside : offset + size ≤ content.length) (large : 2 ^ 44 ≤ size) :
    md5HashInto env content offset size hash = .error .signedOverflow := by
  simp only [md5HashInto, md5Hash_overflow inside large, Result.error_bind]

end Grintorrent
