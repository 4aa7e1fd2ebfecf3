import Grintorrent.File.Reads
import Grintorrent.Lib.Agreement

/-!
# The descriptor of `md5_hash`

`md5_hash` moves the position of a descriptor to the start of its range, and then reads
from there on into a buffer of its own.  All calls that digest one file share a descriptor,
and each leaves it where its last `read` ended.  Here position and buffer are part of the
state.  The model that takes a content and an offset is what `md5_hash` does on a
descriptor, wherever an earlier call left it.

The result of `lseek` is not looked at.  A negative offset is refused and leaves the
position as it is, but the sizes that come with one have no bytes to read.
-/

namespace Grintorrent

open Lib

/-- A regular file that is open for reading, and the position of the next `read`. -/
structure Descriptor where
  content : Bytes
  position : Nat

namespace Descriptor

variable {fd : Descriptor}

/-- `lseek(fd, offset, SEEK_SET)`.  The position may be behind the end of the file. -/
def lseek (fd : Descriptor) (offset : Int) : Descriptor :=
  if 0 ≤ offset then { fd with position := offset.toNat } else fd

/-- The position after a `read` of so many bytes. -/
def advance (fd : Descriptor) (count : Nat) : Descriptor :=
  { fd with position := fd.position + count }

/-- `read(fd, buffer, count)`: what it returns, the buffer and the descriptor.  It reads
fewer bytes than `count` only where the file ends. -/
def read (fd : Descriptor) (buffer : Bytes) (count : Nat) :
    Result (Int × Bytes × Descriptor) :=
  let result := sizeRead fd.content fd.position count
  if buffer.length < result.toNat then .error .outOfRange
  else
    .ok (result, splice 0 (slice fd.position result.toNat fd.content) buffer,
      fd.advance result.toNat)

@[simp] theorem lseek_content (fd : Descriptor) (offset : Int) :
    (fd.lseek offset).content = fd.content := by
  simp only [lseek]
  split <;> rfl

theorem lseek_position {offset : Int} (nonneg : 0 ≤ offset) :
    (fd.lseek offset).position = offset.toNat := by
  rw [lseek, if_pos nonneg]

theorem read_refused {buffer : Bytes} {count : Nat} (huge : ssizeMax < count) :
    fd.read buffer count = .ok (-1, buffer, fd) := by
  have refused : sizeRead fd.content fd.position count = -1 := if_pos huge
  have nothing : (-1 : Int).toNat = 0 := rfl
  simp only [read, refused, nothing, Nat.not_lt_zero, if_false, slice, List.take_zero,
    splice_nil]
  rfl

theorem read_delivers {buffer : Bytes} {count : Nat} (small : count ≤ ssizeMax)
    (fits : count ≤ buffer.length) :
    fd.read buffer count =
      .ok ((slice fd.position count fd.content).length,
        splice 0 (slice fd.position count fd.content) buffer,
        fd.advance (slice fd.position count fd.content).length) := by
  have accepted : ¬count > ssizeMax := Nat.not_lt.mpr small
  have bounded : (slice fd.position count fd.content).length ≤ count :=
    List.length_take_le _ _
  have same : slice fd.position (slice fd.position count fd.content).length fd.content =
      slice fd.position count fd.content := by
    simp only [slice, List.take_eq_take_iff, List.length_take]
    omega
  simp only [read, sizeRead, if_neg accepted, Int.toNat_natCast, same]
  rw [if_neg (by omega)]

end Descriptor

/-- What `md5_hash` works on: its context, `data_block`, and the descriptor. -/
structure Digesting (env : Env) where
  c : env.Ctx
  dataBlock : Bytes
  fd : Descriptor

/-- `MD5_Update(&c, data_block, count)`. -/
def Digesting.update {env : Env} (state : Digesting env) (count : Nat) :
    Result (Digesting env) :=
  if state.dataBlock.length < count then .error .outOfRange
  else .ok { state with c := env.md5Update state.c (state.dataBlock.take count) }

/-- One `read` of `md5_hash` with the check and the `MD5_Update` behind it, which are the
same in the loop and after it.  The first component says whether `size_read` was the
`size` asked for. -/
def Digesting.readBlock {env : Env} (state : Digesting env) (size : Int) :
    Result (Bool × Digesting env) := do
  -- Both functions take the length as a `size_t`.
  let count := (size % 2 ^ 64).toNat
  let (sizeRead, dataBlock, fd) ← state.fd.read state.dataBlock count
  let state := { state with dataBlock, fd }
  if sizeRead ≠ size then .ok (false, state)
  else do
    let state ← state.update count
    .ok (true, state)

/-- The loop of `md5_hash`, with the blocks that are left and the counter `i`. -/
def Digesting.readBlocks {env : Env} :
    (blocks i : Nat) → Digesting env → Result (Bool × Digesting env)
  | 0, _, state => .ok (true, state)
  | blocks + 1, i, state => do
      let (whole, state) ← state.readBlock blockReadSize
      if !whole then .ok (false, state)
      else if i + 1 = 2 ^ 31 then .error .signedOverflow
      else readBlocks blocks (i + 1) state

/-- `md5_hash` on a descriptor: the return code, the digest buffer and the descriptor.
`dataBlock` is what the local buffer holds at the start. -/
def Descriptor.md5Hash (env : Env) (fd : Descriptor) (offset size : Int) (hash : Digest)
    (dataBlock : Vector UInt8 blockReadSize) : Result (Int × Digest × Descriptor) := do
  let (whole, state) ← Digesting.readBlocks (size.tdiv blockReadSize).toNat 0
    ⟨env.md5Init, dataBlock.toList, fd.lseek offset⟩
  if !whole then .ok (1, hash, state.fd)
  else do
    let (whole, state) ← state.readBlock (size.tmod blockReadSize)
    if !whole then .ok (1, hash, state.fd)
    else .ok (0, env.md5Final state.c, state.fd)

namespace Digesting

variable {env : Env} {state : Digesting env}

/-- The state after the bytes from the position on were read and digested. -/
def digested (state : Digesting env) (count : Nat) : Digesting env where
  c := env.md5Update state.c (slice state.fd.position count state.fd.content)
  dataBlock := splice 0 (slice state.fd.position count state.fd.content) state.dataBlock
  fd := state.fd.advance count

theorem readBlock_natCast {count : Nat} (room : state.dataBlock.length = blockReadSize)
    (small : count ≤ blockReadSize) :
    state.readBlock count =
      if (slice state.fd.position count state.fd.content).length = count then
        .ok (true, state.digested count)
      else
        .ok (false, { state with
          dataBlock := splice 0 (slice state.fd.position count state.fd.content) state.dataBlock
          fd := state.fd.advance (slice state.fd.position count state.fd.content).length }) := by
  have passed : ((count : Int) % 2 ^ 64).toNat = count := by
    simp only [blockReadSize] at small
    omega
  have accepted : count ≤ ssizeMax := by
    simp only [blockReadSize, ssizeMax] at small ⊢
    omega
  have delivers := @Descriptor.read_delivers state.fd state.dataBlock count accepted (by omega)
  simp only [readBlock, passed, delivers, Result.ok_bind, ne_eq, Int.natCast_inj]
  by_cases whole : (slice state.fd.position count state.fd.content).length = count
  · have within : 0 + (slice state.fd.position count state.fd.content).length ≤
        state.dataBlock.length := by
      omega
    have first := slice_splice_self within
    rw [whole, slice, List.drop_zero] at first
    have fits : ¬state.dataBlock.length < count := by omega
    simp only [whole, not_true_eq_false, if_false, if_true, update, length_splice within,
      if_neg fits, first, digested, Result.ok_bind]
  · simp only [whole, not_false_eq_true, if_true, if_false]

/-- A negative length is more than `read` accepts, and `-1` is what it returns for it. -/
theorem readBlock_negative {size : Int} (room : state.dataBlock.length = blockReadSize)
    (negative : size < 0) (bounded : -blockReadSize < size) :
    state.readBlock size =
      if size = -1 then .error .outOfRange else .ok (false, state) := by
  have huge : ssizeMax < (size % 2 ^ 64).toNat := by
    simp only [blockReadSize, ssizeMax] at bounded ⊢
    omega
  have outside : state.dataBlock.length < (size % 2 ^ 64).toNat := by
    simp only [ssizeMax] at huge
    simp only [blockReadSize] at room
    omega
  simp only [readBlock, Descriptor.read_refused huge, Result.ok_bind, update, if_pos outside,
    ne_eq, ite_not, eq_comm]
  rfl

/-- How the loop ends here and in the model: after a short read, or at the same place with
the same context. -/
inductive SameEnd (content : Bytes) : Bool × Digesting env → Option (Nat × env.Ctx) → Prop where
  | short {state : Digesting env} :
      state.fd.content = content → SameEnd content (false, state) none
  | whole {state : Digesting env} :
      state.fd.content = content → state.dataBlock.length = blockReadSize →
      SameEnd content (true, state) (some (state.fd.position, state.c))

/-- **The block loop** on a descriptor is that of the model. -/
theorem readBlocks_agree (blocks i : Nat) (room : state.dataBlock.length = blockReadSize) :
    Agree (SameEnd state.fd.content) (readBlocks blocks i state)
      (md5Blocks env state.fd.content blocks i state.fd.position state.c) := by
  induction blocks generalizing i state with
  | zero => exact .returned (.whole rfl room)
  | succ blocks ih =>
      rw [readBlocks, md5Blocks, readBlock_natCast room (Nat.le_refl _)]
      by_cases whole : (slice state.fd.position blockReadSize state.fd.content).length =
          blockReadSize
      · have kept : (state.digested blockReadSize).dataBlock.length = blockReadSize := by
          rw [digested, length_splice (by omega), room]
        simp only [whole, if_true, Result.ok_bind, Bool.not_true, Bool.false_eq_true, if_false,
          ne_eq, not_true_eq_false]
        split
        next => exact .stopped _
        next => exact ih (i + 1) kept
      · simp only [whole, if_false, Result.ok_bind, Bool.not_false, if_true, ne_eq,
          not_false_eq_true]
        exact .returned (.short rfl)

end Digesting

/-! ## The model of `md5_hash` -/

section Digest

variable {env : Env} {fd : Descriptor} {offset size : Int} {hash : Digest}
variable {dataBlock : Vector UInt8 blockReadSize}

/-- A call returns what the model does, and leaves the descriptor with its file. -/
def SameDigest (content : Bytes) (after : Int × Digest × Descriptor) (result : Int × Digest) :
    Prop :=
  (after.1, after.2.1) = result ∧ after.2.2.content = content

theorem rest_agree {state : Digesting env} {rest : Int}
    (room : state.dataBlock.length = blockReadSize)
    (bounds : -blockReadSize < rest ∧ rest < blockReadSize) :
    Agree (SameDigest state.fd.content)
      (do
        let (whole, state) ← state.readBlock rest
        if !whole then .ok (1, hash, state.fd)
        else .ok (0, env.md5Final state.c, state.fd))
      (if rest = -1 then .error .outOfRange
      else if rest < 0 then .ok (1, hash)
      else
        let dataBlock := slice state.fd.position rest.toNat state.fd.content
        if dataBlock.length ≠ rest.toNat then .ok (1, hash)
        else .ok (0, env.md5Final (env.md5Update state.c dataBlock))) := by
  rcases lt_or_ge rest 0 with negative | isLength
  · rw [Digesting.readBlock_negative room negative bounds.1]
    by_cases isMinus : rest = -1
    · simp only [isMinus, if_true, Result.error_bind]
      exact .stopped _
    · simp only [isMinus, if_false, negative, if_true, Result.ok_bind, Bool.not_false]
      exact .returned ⟨rfl, rfl⟩
  · obtain ⟨count, rfl⟩ := Int.eq_ofNat_of_zero_le isLength
    have notMinus : ¬(count : Int) = -1 := by omega
    have notNegative : ¬(count : Int) < 0 := by omega
    rw [Digesting.readBlock_natCast room (by omega), if_neg notMinus, if_neg notNegative]
    by_cases whole : (slice state.fd.position count state.fd.content).length = count
    · simp only [whole, if_true, Result.ok_bind, Bool.not_true, Bool.false_eq_true, if_false,
        Int.toNat_natCast, ne_eq, not_true_eq_false]
      exact .returned ⟨rfl, rfl⟩
    · simp only [whole, if_false, Result.ok_bind, Bool.not_false, if_true, Int.toNat_natCast,
        ne_eq, not_false_eq_true]
      exact .returned ⟨rfl, rfl⟩

/-- With an offset that `lseek` accepts, `md5_hash` does on a descriptor what it does in the
model. -/
theorem md5Hash_agree_nonneg (nonneg : 0 ≤ offset) :
    Agree (SameDigest fd.content) (fd.md5Hash env offset size hash dataBlock)
      (md5Hash env fd.content offset size hash) := by
  have loop := @Digesting.readBlocks_agree env
    ⟨env.md5Init, dataBlock.toList, fd.lseek offset⟩ (size.tdiv blockReadSize).toNat 0
    (Vector.length_toList ..)
  simp only [Descriptor.lseek_content, Descriptor.lseek_position nonneg] at loop
  unfold Descriptor.md5Hash md5Hash
  refine loop.bind fun ends => ?_
  cases ends with
  | short same => exact .returned ⟨rfl, same⟩
  | whole same room =>
      rw [← same]
      exact rest_agree room (rest_bounds size)

theorem md5Hash_nothing {content : Bytes} (nothing : size ≤ 0) (offset' : Int) :
    md5Hash env content offset size hash = md5Hash env content offset' size hash := by
  have remains := Int.tmod_nonneg blockReadSize (show 0 ≤ -size by omega)
  rw [Int.neg_tmod] at remains
  have noRest : (size.tmod blockReadSize).toNat = 0 := by omega
  simp only [md5Hash, blocks_of_nonpos nothing, noRest, md5Blocks, Result.ok_bind, slice,
    List.take_zero]

/-- **`md5_hash` on a descriptor is the model of it**, wherever the position was before, if
`lseek` accepts the offset or there is nothing to read. -/
theorem md5Hash_agree (seeks : 0 ≤ offset ∨ size ≤ 0) :
    Agree (SameDigest fd.content) (fd.md5Hash env offset size hash dataBlock)
      (md5Hash env fd.content offset size hash) := by
  rcases lt_or_ge offset 0 with negative | nonneg
  · -- The position stays where the call before left it.
    have stays : fd.lseek offset = fd.lseek fd.position := by
      rw [Descriptor.lseek, if_neg (by omega), Descriptor.lseek, if_pos (by omega),
        Int.toNat_natCast]
    rw [md5Hash_nothing (by omega) fd.position, Descriptor.md5Hash, stays]
    exact md5Hash_agree_nonneg (Int.natCast_nonneg _)
  · exact md5Hash_agree_nonneg nonneg

/-- **`md5_hash` digests exactly the requested range**, wherever the position was before and
whatever its buffers held. -/
theorem md5Hash_digests_range (nonneg : 0 ≤ offset) (sized : 0 ≤ size)
    (counts : size < 2 ^ 44) :
    ∃ after : Descriptor, after.content = fd.content ∧
      fd.md5Hash env offset size hash dataBlock =
        .ok (if offset + size ≤ fd.content.length ∨ size = 0 then
            (0, env.md5 (slice offset.toNat size.toNat fd.content), after)
          else (1, hash, after)) := by
  have agree := @md5Hash_agree env fd offset size hash dataBlock (.inl nonneg)
  obtain ⟨start, rfl⟩ := Int.eq_ofNat_of_zero_le nonneg
  obtain ⟨length, rfl⟩ := Int.eq_ofNat_of_zero_le sized
  rw [md5Hash_eq (by omega)] at agree
  obtain ⟨⟨code, digest, after⟩, returned, same, kept⟩ := agree.of_ok
  have inside : ((start : Int) + length ≤ fd.content.length ∨ (length : Int) = 0) ↔
      (start + length ≤ fd.content.length ∨ length = 0) := by
    omega
  refine ⟨after, kept, ?_⟩
  -- The model decides over natural numbers.
  simp only [returned, inside, Int.toNat_natCast]
  split at same
  next reached =>
      obtain ⟨rfl, rfl⟩ := Prod.mk.inj same
      rw [if_pos reached]
  next missed =>
      obtain ⟨rfl, rfl⟩ := Prod.mk.inj same
      rw [if_neg missed]

/-- The zeros in the middle of a file from a descriptor at its end, then a range that is one
byte too long. -/
theorem md5Hash_digests_range_middle :
    let content : Bytes := 1 :: List.replicate 32 0 ++ [1]
    ∃ first second : Descriptor, first.content = content ∧
      Descriptor.md5Hash sampleEnv ⟨content, 34⟩ 1 32 0 (Vector.replicate blockReadSize 0) =
        .ok (0, 0x51ce1d44e8f88b462169a8724b8fbc70, first) ∧
      first.md5Hash sampleEnv 1 34 7 (Vector.replicate blockReadSize 0) = .ok (1, 7, second) := by
  intro content
  obtain ⟨first, kept, digested⟩ := @md5Hash_digests_range sampleEnv ⟨content, 34⟩ 1 32 0
    (Vector.replicate blockReadSize 0) (by decide) (by decide) (by decide)
  obtain ⟨second, _, refused⟩ := @md5Hash_digests_range sampleEnv first 1 34 7
    (Vector.replicate blockReadSize 0) (by decide) (by decide) (by decide)
  have size : first.content = content := kept
  have zeros : sampleEnv.md5 (slice 1 32 content) = 0x51ce1d44e8f88b462169a8724b8fbc70 := by
    decide
  rw [size, if_neg (by decide)] at refused
  rw [if_pos (by decide)] at digested
  exact ⟨first, second, kept, zeros ▸ digested, refused⟩

end Digest

section Chunks

variable {env : Env} {fd : Descriptor} {size : Int} {cHashes : Fin numChunks → Digest}
variable {dataBlocks : Fin numChunks → Vector UInt8 blockReadSize}

/-- The chunk loops of `generate_tfile` and `verify_tfile`, whose calls share a descriptor.
`dataBlocks` is what the buffer of each call holds at its start. -/
def Descriptor.hashChunks (env : Env) (fd : Descriptor) (size : Int)
    (cHashes : Fin numChunks → Digest)
    (dataBlocks : Fin numChunks → Vector UInt8 blockReadSize) :
    Result ((Fin numChunks → Digest) × Descriptor) := do
  let chunkSize := size.tdiv numChunks
  let offset := chunkSize * (numChunks - 1)
  let (_, last, fd) ← fd.md5Hash env offset (size - offset) (cHashes 7) (dataBlocks 7)
  (List.finRange numChunks).dropLast.foldlM (fun (hashes, fd) i => do
    let (_, hash, fd) ← fd.md5Hash env (i.val * chunkSize) chunkSize (hashes i) (dataBlocks i)
    .ok (Function.update hashes i hash, fd)) (Function.update cHashes 7 last, fd)

/-- The digests are those of the model, and the descriptor still has its file. -/
def SameHashes (content : Bytes) (after : (Fin numChunks → Digest) × Descriptor)
    (hashes : Fin numChunks → Digest) : Prop :=
  after.1 = hashes ∧ after.2.content = content

theorem md5HashInto_agree {offset : Int} {hash : Digest}
    {dataBlock : Vector UInt8 blockReadSize} (seeks : 0 ≤ offset ∨ size ≤ 0) :
    Agree (fun after hash' => after.2.1 = hash' ∧ after.2.2.content = fd.content)
      (fd.md5Hash env offset size hash dataBlock)
      (md5HashInto env fd.content offset size hash) := by
  rw [← bind_pure (fd.md5Hash env offset size hash dataBlock), md5HashInto]
  refine (md5Hash_agree seeks).bind fun same => ?_
  obtain ⟨rfl, kept⟩ := same
  exact .returned ⟨rfl, kept⟩

/-- The ranges of the chunks start where `lseek` goes, or have nothing to read. -/
theorem chunkRanges_seek : ∀ range ∈ chunkRanges size, 0 ≤ range.1 ∨ range.2 ≤ 0 := by
  simp only [chunkRanges, List.forall_mem_cons, List.forall_mem_map]
  rcases le_total 0 size with nonneg | nonpos
  · have chunkSize : 0 ≤ size.tdiv numChunks := Int.tdiv_nonneg nonneg (by decide)
    refine ⟨.inl (Int.mul_nonneg chunkSize (by decide)), fun i _ => .inl ?_⟩
    exact Int.mul_nonneg (Int.natCast_nonneg _) chunkSize
  · obtain ⟨n, rfl⟩ : ∃ n : Nat, size = -(n : Int) := ⟨(-size).toNat, by omega⟩
    rw [Int.neg_tdiv, ← Int.ofNat_tdiv]
    refine ⟨.inr ?_, fun _ _ => .inr ?_⟩
    · simp only [numChunks]
      omega
    · exact Int.neg_nonpos_of_nonneg (Int.natCast_nonneg _)

/-- **The chunk loops** on a descriptor are those of the model: no call depends on where the
one before it left the descriptor. -/
theorem hashChunks_agree :
    Agree (SameHashes fd.content) (fd.hashChunks env size cHashes dataBlocks)
      (hashChunks (md5HashInto env fd.content) size cHashes) := by
  have seeks := @chunkRanges_seek size
  simp only [chunkRanges, List.forall_mem_cons, List.forall_mem_map] at seeks
  unfold Descriptor.hashChunks hashChunks
  refine (md5HashInto_agree seeks.1).bind fun first => ?_
  obtain ⟨rfl, kept⟩ := first
  refine Agree.foldlM _ (fun i member same => ?_) ⟨rfl, kept⟩
  obtain ⟨rfl, kept⟩ := same
  rw [← kept]
  refine (md5HashInto_agree (seeks.2 i member)).bind fun next => ?_
  obtain ⟨rfl, kept⟩ := next
  exact .returned ⟨rfl, kept⟩

end Chunks

end Grintorrent
