import Grintorrent.File.Entries
import Grintorrent.File.OnDisk

/-!
# The reads of `md5_hash`

The calls of `read` and `MD5_Update` that `md5_hash` makes, with the lengths that it passes
to them.  Division and remainder truncate towards zero, so the last length is negative for
most negative sizes; `read` takes it as a count of almost `2 ^ 64` and returns `-1`, which
is a length that `md5_hash` may have asked for.
-/

namespace Grintorrent

open Lib

/-- A call that `md5_hash` makes.  Both functions take a `size_t`. -/
inductive DigestCall where
  | read (count : Nat) (sizeRead : Int)
  | update (count : Nat)
  deriving DecidableEq

namespace DigestCall

/-- The length that is passed. -/
def count : DigestCall → Nat
  | .read count _ | .update count => count

/-- A `read` returned as many bytes as it was asked for. -/
def Delivers : DigestCall → Prop
  | .read count sizeRead => sizeRead = count
  | .update _ => True

end DigestCall

/-- `SSIZE_MAX`. -/
def ssizeMax : Nat := 2 ^ 63 - 1

/-- What `read` returns at this offset of a regular file. -/
def sizeRead (content : Bytes) (offset count : Nat) : Int :=
  if count > ssizeMax then -1 else (slice offset count content).length

/-- The calls of the block loop, and its end as `md5Blocks` has it. -/
def blockCalls (content : Bytes) :
    (blocks i offset : Nat) → List DigestCall × Result (Option Nat)
  | 0, _, offset => ([], .ok (some offset))
  | blocks + 1, i, offset =>
      let sizeRead := sizeRead content offset blockReadSize
      if sizeRead ≠ blockReadSize then ([.read blockReadSize sizeRead], .ok none)
      else if i + 1 = 2 ^ 31 then
        ([.read blockReadSize sizeRead, .update blockReadSize], .error .signedOverflow)
      else
        let (calls, result) := blockCalls content blocks (i + 1) (offset + blockReadSize)
        (.read blockReadSize sizeRead :: .update blockReadSize :: calls, result)

/-- The calls of `md5_hash` and its return code.  The remainder is converted to a `size_t`
where it is a length, and compared with the result of `read` as it is. -/
def digestCalls (content : Bytes) (offset size : Int) : List DigestCall × Result Int :=
  match blockCalls content (size.tdiv blockReadSize).toNat 0 offset.toNat with
  | (calls, .error stop) => (calls, .error stop)
  | (calls, .ok none) => (calls, .ok 1)
  | (calls, .ok (some offset)) =>
      let rest := size.tmod blockReadSize
      let count := (rest % 2 ^ 64).toNat
      let sizeRead := sizeRead content offset count
      if sizeRead ≠ rest then (calls ++ [.read count sizeRead], .ok 1)
      else (calls ++ [.read count sizeRead, .update count], .ok 0)

variable {env : Env} {content : Bytes} {hash : Digest} {offset size : Int}
variable {call : DigestCall}

theorem sizeRead_block (content : Bytes) (offset : Nat) :
    sizeRead content offset blockReadSize =
      (slice offset blockReadSize content).length := by
  rw [sizeRead, if_neg (by decide)]

theorem sizeRead_small {offset count : Nat} (small : count < blockReadSize) :
    sizeRead content offset count = (slice offset count content).length := by
  rw [sizeRead, if_neg]
  simp only [blockReadSize, ssizeMax] at small ⊢
  omega

theorem md5Blocks_calls (blocks i offset : Nat) (c : env.Ctx) :
    (md5Blocks env content blocks i offset c).map (Option.map Prod.fst) =
      (blockCalls content blocks i offset).2 := by
  induction blocks generalizing i offset c with
  | zero => rfl
  | succ blocks ih =>
      simp only [md5Blocks, blockCalls, sizeRead_block, ne_eq, Int.natCast_inj]
      split
      next => rfl
      next =>
          split
          next => rfl
          next => exact ih _ _ _

theorem rest_bounds (size : Int) :
    -blockReadSize < size.tmod blockReadSize ∧ size.tmod blockReadSize < blockReadSize := by
  have positive : (0 : Int) < blockReadSize := by decide
  exact ⟨Int.lt_tmod_of_pos size positive, Int.tmod_lt_of_pos size positive⟩

theorem rest_count (nonneg : 0 ≤ size.tmod blockReadSize) :
    (size.tmod blockReadSize % 2 ^ 64).toNat = (size.tmod blockReadSize).toNat := by
  have bounds := rest_bounds size
  simp only [blockReadSize] at bounds nonneg ⊢
  rw [Int.emod_eq_of_lt nonneg (by omega)]

/-- A negative remainder is more than `read` accepts. -/
theorem rest_huge (negative : size.tmod blockReadSize < 0) :
    ssizeMax < (size.tmod blockReadSize % 2 ^ 64).toNat := by
  have bounds := rest_bounds size
  simp only [blockReadSize, ssizeMax] at bounds negative ⊢
  omega

/-- Except for the remainder `-1`, where `MD5_Update` runs over all memory, `md5_hash` is
that of the model. -/
theorem md5Hash_calls (defined : size.tmod blockReadSize ≠ -1) :
    (md5Hash env content offset size hash).map Prod.fst =
      (digestCalls content offset size).2 := by
  have loop := @md5Blocks_calls env content (size.tdiv blockReadSize).toNat 0 offset.toNat
    env.md5Init
  unfold md5Hash digestCalls
  cases ended : blockCalls content (size.tdiv blockReadSize).toNat 0 offset.toNat with
  | mk calls result =>
      rw [ended] at loop
      cases blocks : md5Blocks env content (size.tdiv blockReadSize).toNat 0 offset.toNat
          env.md5Init with
      | error stop =>
          rw [blocks] at loop
          subst loop
          rfl
      | ok last =>
          rw [blocks] at loop
          subst loop
          cases last with
          | none => rfl
          | some last =>
              simp only [Except.map, Option.map_some, Result.ok_bind, if_neg defined]
              by_cases negative : size.tmod blockReadSize < 0
              · have refused : sizeRead content last.1
                    (size.tmod blockReadSize % 2 ^ 64).toNat = -1 := if_pos (rest_huge negative)
                rw [if_pos negative, refused, if_pos (Ne.symm defined)]
              · have nonneg := Int.not_lt.mp negative
                have small : (size.tmod blockReadSize).toNat < blockReadSize := by
                  have bounds := rest_bounds size
                  omega
                rw [if_neg negative, rest_count nonneg, sizeRead_small small]
                by_cases whole : (slice last.1 (size.tmod blockReadSize).toNat content).length =
                    (size.tmod blockReadSize).toNat
                · have isRest : ((slice last.1 (size.tmod blockReadSize).toNat
                      content).length : Int) = size.tmod blockReadSize := by
                    omega
                  rw [if_neg (not_not.mpr whole), if_neg (not_not.mpr isRest)]
                · have notRest : ((slice last.1 (size.tmod blockReadSize).toNat
                      content).length : Int) ≠ size.tmod blockReadSize := by
                    omega
                  rw [if_pos whole, if_pos notRest]

/-- The calls pass lengths of at most a block, and `md5_hash` returns 0 only if each `read`
delivered what it was asked for. -/
def DigestSound (content : Bytes) (offset size : Int) : Prop :=
  (∀ call ∈ (digestCalls content offset size).1, call.count ≤ blockReadSize) ∧
  ((digestCalls content offset size).2 = .ok 0 →
    ∀ call ∈ (digestCalls content offset size).1, call.Delivers)

theorem blockCalls_count (blocks i offset : Nat) :
    ∀ call ∈ (blockCalls content blocks i offset).1, call.count ≤ blockReadSize := by
  induction blocks generalizing i offset with
  | zero => simp [blockCalls]
  | succ blocks ih =>
      intro call made
      simp only [blockCalls] at made
      split at made
      next =>
          obtain rfl := List.mem_singleton.mp made
          exact Nat.le_refl _
      next =>
          split at made
          next =>
              simp only [List.mem_cons, List.not_mem_nil, or_false] at made
              rcases made with rfl | rfl
              · exact Nat.le_refl _
              · exact Nat.le_refl _
          next =>
              simp only [List.mem_cons] at made
              rcases made with rfl | rfl | later
              · exact Nat.le_refl _
              · exact Nat.le_refl _
              · exact ih _ _ call later

/-- The loop goes on only after blocks that were delivered. -/
theorem blockCalls_delivers {blocks i offset last : Nat}
    (ended : (blockCalls content blocks i offset).2 = .ok (some last)) :
    ∀ call ∈ (blockCalls content blocks i offset).1, call.Delivers := by
  induction blocks generalizing i offset with
  | zero => simp [blockCalls]
  | succ blocks ih =>
      intro call made
      simp only [blockCalls] at made ended
      split at made
      next short =>
          rw [if_pos short] at ended
          simp at ended
      next whole =>
          rw [if_neg whole] at ended
          split at made
          next overflows =>
              rw [if_pos overflows] at ended
              simp at ended
          next counts =>
              rw [if_neg counts] at ended
              simp only [List.mem_cons] at made
              rcases made with rfl | rfl | later
              · exact not_not.mp whole
              · trivial
              · exact ih ended call later

theorem blocks_of_nonpos (nonpos : size ≤ 0) : (size.tdiv blockReadSize).toNat = 0 := by
  have mirrored := Int.tdiv_nonneg (show 0 ≤ -size by omega)
    (show (0 : Int) ≤ blockReadSize by decide)
  rw [Int.neg_tdiv] at mirrored
  omega

theorem blocks_of_negative (negative : size.tmod blockReadSize < 0) :
    (size.tdiv blockReadSize).toNat = 0 := by
  apply blocks_of_nonpos
  by_contra positive
  exact Int.not_lt.mpr (Int.tmod_nonneg _ (by omega)) negative

theorem read_of_negative (negative : size.tmod blockReadSize < 0) :
    ∃ result, DigestCall.read (size.tmod blockReadSize % 2 ^ 64).toNat result ∈
      (digestCalls content offset size).1 := by
  simp only [digestCalls, blocks_of_negative negative, blockCalls]
  split
  next => exact ⟨_, List.mem_append_right _ (List.mem_singleton.mpr rfl)⟩
  next => exact ⟨_, List.mem_append_right _ List.mem_cons_self⟩

theorem digestSound_of_nonneg (nonneg : 0 ≤ size.tmod blockReadSize) :
    DigestSound content offset size := by
  have counts := @blockCalls_count content (size.tdiv blockReadSize).toNat 0 offset.toNat
  have delivers := @blockCalls_delivers content (size.tdiv blockReadSize).toNat 0 offset.toNat
  have small : (size.tmod blockReadSize).toNat ≤ blockReadSize := by
    have bounds := rest_bounds size
    omega
  unfold DigestSound digestCalls
  cases ended : blockCalls content (size.tdiv blockReadSize).toNat 0 offset.toNat with
  | mk calls result =>
      rw [ended] at counts delivers
      cases result with
      | error stop => exact ⟨counts, by simp⟩
      | ok last =>
          cases last with
          | none => exact ⟨counts, by simp⟩
          | some last =>
              simp only [rest_count nonneg]
              split
              next =>
                  refine ⟨fun call made => ?_, by simp⟩
                  rcases List.mem_append.mp made with block | isRest
                  · exact counts call block
                  · rw [List.mem_singleton.mp isRest]
                    exact small
              next delivered =>
                  have last : ∀ call ∈ [DigestCall.read (size.tmod blockReadSize).toNat
                        (sizeRead content last (size.tmod blockReadSize).toNat),
                      .update (size.tmod blockReadSize).toNat],
                      call.count ≤ blockReadSize ∧ call.Delivers := by
                    simp only [List.forall_mem_cons, List.not_mem_nil, false_imp_iff,
                      implies_true, and_true]
                    refine ⟨⟨small, ?_⟩, small, trivial⟩
                    exact (not_not.mp delivered).trans (Int.toNat_of_nonneg nonneg).symm
                  refine ⟨fun call made => ?_, fun _ call made => ?_⟩
                  · rcases List.mem_append.mp made with block | isRest
                    · exact counts call block
                    · exact (last call isRest).1
                  · rcases List.mem_append.mp made with block | isRest
                    · exact delivers rfl call block
                    · exact (last call isRest).2

/-- **`md5_hash` is sound** exactly for sizes whose remainder is not negative. -/
theorem digestSound_iff :
    DigestSound content offset size ↔ 0 ≤ size.tmod blockReadSize := by
  refine ⟨fun sound => ?_, digestSound_of_nonneg⟩
  by_contra negative
  have huge := rest_huge (Int.not_le.mp negative)
  obtain ⟨result, made⟩ := @read_of_negative content offset size (Int.not_le.mp negative)
  have bound := sound.1 _ made
  simp only [DigestCall.count, blockReadSize, ssizeMax] at bound huge
  omega

/-- The ranges that the chunk loops of `verify_tfile` pass to `md5_hash`, in their order. -/
def chunkRanges (size : Int) : List (Int × Int) :=
  let chunkSize := size.tdiv numChunks
  let offset := chunkSize * (numChunks - 1)
  (offset, size - offset) ::
    (List.finRange numChunks).dropLast.map fun i => (i.val * chunkSize, chunkSize)

theorem hashChunks_congr {hashAt hashAt' : Int → Int → Digest → Result Digest}
    (same : ∀ range ∈ chunkRanges size, hashAt range.1 range.2 = hashAt' range.1 range.2)
    (cHashes : Fin numChunks → Digest) :
    hashChunks hashAt size cHashes = hashChunks hashAt' size cHashes := by
  have last := same _ List.mem_cons_self
  simp only at last
  simp only [hashChunks, last]
  cases hashAt' (size.tdiv numChunks * (numChunks - 1))
      (size - size.tdiv numChunks * (numChunks - 1)) (cHashes 7) with
  | error stop => rfl
  | ok first =>
      have others : ∀ i ∈ (List.finRange numChunks).dropLast,
          hashAt (i.val * size.tdiv numChunks) (size.tdiv numChunks) =
            hashAt' (i.val * size.tdiv numChunks) (size.tdiv numChunks) :=
        fun i member => same _ (List.mem_cons_of_mem _ (List.mem_map_of_mem member))
      simp only [Result.ok_bind]
      generalize Function.update cHashes 7 first = hashes
      generalize (List.finRange numChunks).dropLast = indexes at others
      induction indexes generalizing hashes with
      | nil => rfl
      | cons i indexes ih =>
          simp only [List.foldlM_cons, others i List.mem_cons_self]
          cases hashAt' (i.val * size.tdiv numChunks) (size.tdiv numChunks) (hashes i) with
          | error stop => rfl
          | ok hash => exact ih _ fun j member => others j (List.mem_cons_of_mem _ member)

/-- A definition whose chunks `md5_hash` can take: the size is not negative, or all chunks
are a multiple of the block size. -/
def Digestible (size : Int) : Prop := 0 ≤ size ∨ (numChunks * blockReadSize : Int) ∣ size

/-- The last lengths of all chunks are not negative exactly for such a size. -/
theorem chunkRanges_sound_iff :
    (∀ range ∈ chunkRanges size, DigestSound content range.1 range.2) ↔ Digestible size := by
  have lengths : (∀ range ∈ chunkRanges size, DigestSound content range.1 range.2) ↔
      0 ≤ (size - size.tdiv numChunks * (numChunks - 1)).tmod blockReadSize ∧
        0 ≤ (size.tdiv numChunks).tmod blockReadSize := by
    simp only [digestSound_iff, chunkRanges, List.forall_mem_cons, List.forall_mem_map]
    have some : (0 : Fin numChunks) ∈ (List.finRange numChunks).dropLast := by decide
    exact and_congr_right fun _ => ⟨fun all => all 0 some, fun nonneg _ _ => nonneg⟩
  rw [lengths, Digestible]
  by_cases nonneg : 0 ≤ size
  · obtain ⟨n, rfl⟩ := Int.eq_ofNat_of_zero_le nonneg
    refine iff_of_true ⟨Int.tmod_nonneg _ ?_, Int.tmod_nonneg _ ?_⟩ (.inl nonneg)
    · rw [← Int.ofNat_tdiv]
      simp only [numChunks]
      omega
    · rw [← Int.ofNat_tdiv]
      exact Int.natCast_nonneg _
  · obtain ⟨n, rfl⟩ : ∃ n : Nat, size = -(n : Int) := ⟨(-size).toNat, by omega⟩
    have last : -(n : Int) - (-(n : Int)).tdiv numChunks * (numChunks - 1) =
        -((n - 7 * (n / numChunks) : Nat) : Int) := by
      rw [Int.neg_tdiv, ← Int.ofNat_tdiv]
      simp only [numChunks]
      omega
    rw [last, Int.neg_tmod, Int.neg_tdiv, Int.neg_tmod, ← Int.ofNat_tdiv, ← Int.ofNat_tmod,
      ← Int.ofNat_tmod]
    simp only [numChunks, blockReadSize]
    omega

variable {store : Store} {locals : VerifyLocals}

/-- The files and ranges that `verify_tfile` passes to `md5_hash`, as long as its calls
return. -/
def verifyRanges (env : Env) (store : Store) (hash : Digest) (locals : VerifyLocals) :
    List (Bytes × Int × Int) :=
  match lookupTfile store.ht hash with
  | .ok (some (_, tf)) =>
      match tf.mLocation, tf.fLocation with
      | none, some path =>
          match store.os.openRdonly env path with
          | none => []
          | some (content, _) =>
              (content, 0, content.length) ::
                match md5HashInto env content 0 content.length locals.testHash with
                | .error _ => []
                | .ok testHash =>
                    if words testHash = words tf.tdef.fHash then []
                    else (chunkRanges tf.tdef.size).map fun range => (content, range)
      | _, _ => []
  | _ => []

/-- Every call of `md5_hash` that `verify_tfile` makes is sound. -/
def VerifySound (env : Env) (store : Store) (hash : Digest) (locals : VerifyLocals) : Prop :=
  ∀ range ∈ verifyRanges env store hash locals, DigestSound range.1 range.2.1 range.2.2

/-- If `verify_tfile` looks at the chunks of a file, the recorded size is one that
`md5_hash` can take. -/
def SizeFits (env : Env) (store : Store) (hash : Digest) : Prop :=
  ∀ tf path content, store.ht.Entry hash tf → tf.mLocation = none →
    tf.fLocation = some path → env.openOk store.os.openFds path = true →
    store.os.files path = some content → content.length < 2 ^ 44 →
    env.md5 content ≠ tf.tdef.fHash → Digestible tf.tdef.size

theorem digestSound_length (content : Bytes) : DigestSound content 0 content.length :=
  digestSound_iff.mpr (Int.tmod_nonneg _ (Int.natCast_nonneg _))

section Opened

variable {index : Nat} {tf : Tfile} {path : Path}
  (found : lookupTfile store.ht hash = .ok (some (index, tf)))
  (notMapped : tf.mLocation = none) (located : tf.fLocation = some path)
  (file : store.os.files path = some content)
  (opens : env.openOk store.os.openFds path = true)

include found notMapped located file opens

theorem sizeFits_opened_iff :
    SizeFits env store hash ↔ (content.length < 2 ^ 44 →
      env.md5 content ≠ tf.tdef.fHash → Digestible tf.tdef.size) := by
  constructor
  · intro fits
    exact fits tf path content ⟨index, found⟩ notMapped located opens file
  · intro fits slot path' content' isEntry _ isPath _ file'
    obtain rfl := isEntry.unique ⟨index, found⟩
    obtain rfl := Option.some.inj (located.symm.trans isPath)
    obtain rfl := Option.some.inj (file.symm.trans file')
    exact fits

/-- With a file to read, the chunks are looked at if its blocks can be counted and it is
not the whole file that was defined. -/
theorem verifySound_opened_iff :
    VerifySound env store hash locals ↔ (content.length < 2 ^ 44 →
      env.md5 content ≠ tf.tdef.fHash → Digestible tf.tdef.size) := by
  simp only [VerifySound, verifyRanges, found, notMapped, located,
    openRdonly_eq_some.mpr ⟨opens, file, rfl⟩, List.forall_mem_cons,
    and_iff_right (digestSound_length content)]
  rcases Nat.lt_or_ge content.length (2 ^ 44) with counts | large
  · simp only [md5HashInto_whole counts, words_injective.eq_iff]
    split
    next whole => exact iff_of_true (by simp) fun _ partly => absurd whole partly
    next partly =>
        rw [List.forall_mem_map, chunkRanges_sound_iff]
        exact ⟨fun digestible _ _ => digestible, fun fits => fits counts partly⟩
  · have overflow := @md5HashInto_overflow env content 0 content.length locals.testHash
      (by omega) large
    simp only [Nat.cast_zero] at overflow
    simp only [overflow]
    exact iff_of_true (by simp) fun counts => by omega

end Opened

theorem verifyRanges_opensNone (opensNone : OpensNone env store hash) :
    verifyRanges env store hash locals = [] := by
  unfold verifyRanges
  split
  next index tf found =>
      split
      next path notMapped located => rw [opensNone index tf path found notMapped located]
      next => rfl
  next => rfl

theorem sizeFits_opensNone (opensNone : OpensNone env store hash) : SizeFits env store hash := by
  rintro tf path content ⟨index, found⟩ notMapped located opens file
  have unread := opensNone index tf path found notMapped located
  rw [openRdonly_eq_some.mpr ⟨opens, file, rfl⟩] at unread
  simp at unread

/-- **`verify_tfile` is sound** exactly if the size fits. -/
theorem verifySound_iff : VerifySound env store hash locals ↔ SizeFits env store hash := by
  by_cases opensNone : OpensNone env store hash
  · refine iff_of_true ?_ (sizeFits_opensNone opensNone)
    rw [VerifySound, verifyRanges_opensNone opensNone]
    simp
  · simp only [OpensNone, not_forall] at opensNone
    obtain ⟨index, tf, path, found, notMapped, located, read⟩ := opensNone
    obtain ⟨⟨content, os⟩, isRead⟩ := Option.ne_none_iff_exists'.mp read
    obtain ⟨opens, file, _⟩ := openRdonly_eq_some.mp isRead
    rw [sizeFits_opened_iff found notMapped located file opens]
    exact verifySound_opened_iff found notMapped located file opens

end Grintorrent
