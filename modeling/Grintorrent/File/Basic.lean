import Grintorrent.Htable.Basic
import Grintorrent.Os

/-!
# Torrent files (`file.c`)

Hashing a range of a file block by block, generating a definition, opening a
file for one of its chunks, saving it, and verifying which chunks match the definition.

`off_t` division truncates towards zero.  Signed arithmetic that overflows has no defined
result, and is an error in both places where it can happen: the block counter of `md5_hash`
and the location of a chunk.  Where the source leaves a digest untouched on a failed read,
the old content is a parameter: the caller's record in `generate_tfile`, the uninitialised
local arrays in `verify_tfile`.
-/

namespace Grintorrent

open Lib

/-- `BLOCK_READ_SIZE`. -/
def blockReadSize : Nat := 8192

/-- `MIN_SIZE`. -/
def minSize : Nat := 256

/-- `verified_chunks_t`. -/
abbrev VerifiedChunks := BitVec 8

/-- `VERIFIED_FILE`. -/
def verifiedFile : VerifiedChunks := 0xFF

/-- `UNVERIFIED_FILE`. -/
def unverifiedFile : VerifiedChunks := 0x00

/-- The block loop of `md5_hash`: the offset and context it ends with, or `none`
when a read is short.  `i` is the source's `int` counter. -/
def md5Blocks (env : Env) (content : Bytes) :
    (blocks i offset : Nat) → env.Ctx → Result (Option (Nat × env.Ctx))
  | 0, _, offset, c => .ok (some (offset, c))
  | blocks + 1, i, offset, c =>
      let dataBlock := slice offset blockReadSize content
      if dataBlock.length ≠ blockReadSize then .ok none
      else if i + 1 = 2 ^ 31 then .error .signedOverflow
      else md5Blocks env content blocks (i + 1) (offset + blockReadSize)
        (env.md5Update c dataBlock)

/-- `md5_hash`: the return code and the digest buffer.  A negative remainder is
passed to `read` as a huge count, which fails with `-1`; when the remainder is
itself `-1` the failure goes unnoticed and `MD5_Update` runs over all memory. -/
def md5Hash (env : Env) (content : Bytes) (offset size : Int) (hash : Digest) :
    Result (Int × Digest) := do
  match ← md5Blocks env content (size.tdiv blockReadSize).toNat 0 offset.toNat
      env.md5Init with
  | none => .ok (1, hash)
  | some (offset, c) =>
      let rest := size.tmod blockReadSize
      if rest = -1 then .error .outOfRange
      else if rest < 0 then .ok (1, hash)
      else
        let dataBlock := slice offset rest.toNat content
        if dataBlock.length ≠ rest.toNat then .ok (1, hash)
        else .ok (0, env.md5Final (env.md5Update c dataBlock))

/-- The chunk loops of `generate_tfile` and of both branches of `verify_tfile`:
the last chunk first, since its size differs, then the others in order. -/
def hashChunks (hashAt : (offset size : Int) → Digest → Result Digest) (size : Int)
    (cHashes : Fin numChunks → Digest) : Result (Fin numChunks → Digest) := do
  let chunkSize := size.tdiv numChunks
  let offset := chunkSize * (numChunks - 1)
  let last ← hashAt offset (size - offset) (cHashes 7)
  (List.finRange numChunks).dropLast.foldlM (fun hashes i => do
    let hash ← hashAt (i.val * chunkSize) chunkSize (hashes i)
    .ok (Function.update hashes i hash)) (Function.update cHashes 7 last)

/-- `md5_hash` into a digest buffer, its return code ignored. -/
def md5HashInto (env : Env) (content : Bytes) (offset size : Int) (hash : Digest) :
    Result Digest := do
  let (_, hash) ← md5Hash env content offset size hash
  .ok hash

/-- `generate_tfile`: the return code, the caller's record and the new state.
The early returns leave the descriptor open. -/
def generateTfile (env : Env) (fuel : Nat) (store : Store) (tdef : TfileDef)
    (filePath : Path) (name : Vector UInt8 nameLen) :
    Result (Int × TfileDef × Store) :=
  match store.os.openRdonly env filePath with
  | none => .ok (-1, tdef, store)
  | some (content, os) =>
      let stSize : Int := content.length
      if stSize < minSize then .ok (-1, tdef, { store with os })
      else do
        let fHash ← md5HashInto env content 0 stSize tdef.fHash
        let found ← searchHtable store.ht fHash
        if found.isSome then .ok (-1, { tdef with fHash }, { store with os })
        else do
          let cHashes ← hashChunks (md5HashInto env content) stSize tdef.cHashes
          let tdef : TfileDef := { name, fHash, cHashes, size := stSize }
          let (ht, place) ← addHtable env.callocOk fuel store.ht tdef
          match place with
          | none => .error .nullPointer
          | some index =>
              .ok (0, tdef, ⟨ht.setLocations index (some filePath) none, os.close⟩)

/-! ## Opening a chunk -/

/-- The bytes of a `tfile_def_t`, in memory and on the wire. -/
def TfileDef.bytes (tdef : TfileDef) : Bytes :=
  tdef.name.toList ++ leBytes 16 tdef.fHash.toNat ++
    (List.finRange numChunks).flatMap (fun i => leBytes 16 (tdef.cHashes i).toNat) ++
    leBytes 8 (tdef.size % 2 ^ 64).toNat

/-- The C string at `tdef.name`, which ends at the first NUL from there on. -/
def TfileDef.namePath (tdef : TfileDef) : Path :=
  tdef.bytes.takeWhile (· != 0)

/-- The slot `search_htable` returns, with its index. -/
def lookupTfile (ht : Htable) (hash : Digest) : Result (Option (Nat × Tfile)) := do
  match ← searchHtable ht hash with
  | none => .ok none
  | some index =>
      match ht.table[index]? with
      | none => .error .outOfRange
      | some tf => .ok (some (index, tf))

/-- The part of `open_tfile` that maps an entry without a mapping: the mapping,
or `none` for a return of `-1`, and the state it leaves.  A refused `mmap` leaves
the descriptor open, and a new `f_location` stays in either case. -/
def mapTfile (env : Env) (store : Store) (index : Nat) (tf : Tfile) :
    Option Mapping × Store :=
  let fLocation := tf.fLocation.getD tf.tdef.namePath
  let named := store.ht.setLocations index (some fLocation) none
  match store.os.openCreate env fLocation with
  | none => (none, { store with ht := named })
  | some os =>
      let sized := os.ftruncate env fLocation tf.tdef.size
      match sized.mmap env fLocation tf.tdef.size with
      | none => (none, ⟨named, sized⟩)
      | some (mapping, os) =>
          (some mapping,
            ⟨store.ht.setLocations index (some fLocation) (some mapping), os.close⟩)

/-- The location and size that `open_tfile` computes for a chunk of a mapped
entry. -/
def chunkLocation (mapping : Mapping) (size chunk : Int) : Location × Int :=
  let chunkSize := size.tdiv numChunks
  let offset := chunk * chunkSize
  (⟨mapping, size, offset⟩, if chunk = numChunks - 1 then size - offset else chunkSize)

/-- The product of index and chunk size is an `off_t`. -/
def ChunkFits (size chunk : Int) : Prop :=
  -2 ^ 63 ≤ chunk * size.tdiv numChunks ∧ chunk * size.tdiv numChunks < 2 ^ 63

instance (size chunk : Int) : Decidable (ChunkFits size chunk) := instDecidableAnd

/-- The end of `open_tfile`, where the entry is mapped. -/
def locateChunk (mapping : Mapping) (size chunk : Int) : Result (Location × Int) :=
  if ChunkFits size chunk then .ok (chunkLocation mapping size chunk)
  else .error .signedOverflow

/-- `open_tfile`: `*location` with the returned size, or `none` when it returns
`-1` and leaves `*location` alone. -/
def openTfile (env : Env) (store : Store) (hash : Digest) (chunk : Int) :
    Result (Option (Location × Int) × Store) :=
  if numChunks ≤ chunk then .ok (none, store)
  else do
    match ← lookupTfile store.ht hash with
    | none => .ok (none, store)
    | some (index, tf) =>
        let (mapped, store) :=
          match tf.mLocation with
          | some mapping => (some mapping, store)
          | none => mapTfile env store index tf
        match mapped with
        | none => .ok (none, store)
        | some mapping => do
            let location ← locateChunk mapping tf.tdef.size chunk
            .ok (some location, store)

/-- `save_tfile`: the return code and the state it leaves.  `syncs` and `unmaps` are the
outcomes of `msync` and `munmap`. -/
def saveTfile (store : Store) (hash : Digest) (syncs unmaps : Bool) :
    Result (Int × Store) := do
  match ← lookupTfile store.ht hash with
  | none => .ok (-1, store)
  | some (index, tf) =>
      match tf.mLocation with
      | none => .ok (0, store)
      | some _ =>
          if syncs && unmaps then
            .ok (0, { store with ht := store.ht.setLocations index tf.fLocation none })
          else .ok (-1, store)

/-! ## Verification -/

/-- The local arrays of `verify_tfile` before anything is written to them. -/
structure VerifyLocals where
  testHash : Digest
  cHashes : Fin numChunks → Digest
  deriving Inhabited

/-- The comparison loop of `verify_tfile`. -/
def compareHashes (computed expected : Fin numChunks → Digest) : VerifiedChunks :=
  (List.finRange numChunks).foldl (fun chunks i =>
    chunks ||| (if words (computed i) = words (expected i) then 1 else 0) <<<
      (numChunks - 1 - i.val)) unverifiedFile

/-- `verify_tfile`, with the state it leaves: the branch that reads the file does
not close its descriptor. -/
def verifyTfile (env : Env) (store : Store) (hash : Digest) (locals : VerifyLocals) :
    Result (VerifiedChunks × Store) := do
  match ← lookupTfile store.ht hash with
  | none => .ok (unverifiedFile, store)
  | some (_, tf) =>
      match tf.mLocation, tf.fLocation with
      | some mapping, _ => do
          let whole ← store.os.readMapped env mapping 0 tf.tdef.size
          if words (env.md5 whole) = words tf.tdef.fHash then .ok (verifiedFile, store)
          else do
            let cHashes ← hashChunks (fun offset size _ => do
              let bytes ← store.os.readMapped env mapping offset size
              .ok (env.md5 bytes)) tf.tdef.size locals.cHashes
            .ok (compareHashes cHashes tf.tdef.cHashes, store)
      | none, some path =>
          match store.os.openRdonly env path with
          | none => .ok (unverifiedFile, store)
          | some (content, os) => do
              let testHash ← md5HashInto env content 0 content.length locals.testHash
              if words testHash = words tf.tdef.fHash then
                .ok (verifiedFile, { store with os })
              else do
                let cHashes ← hashChunks (md5HashInto env content) tf.tdef.size
                  locals.cHashes
                .ok (compareHashes cHashes tf.tdef.cHashes, { store with os })
      | none, none => .ok (unverifiedFile, store)

/-- `is_chunk_verified`. -/
def isChunkVerified (chunks : VerifiedChunks) (chunkIndex : Int) : Bool :=
  if chunkIndex < 0 ∨ numChunks ≤ chunkIndex then false
  else (chunks >>> (numChunks - 1 - chunkIndex.toNat)) &&& 0x01 != 0

end Grintorrent
