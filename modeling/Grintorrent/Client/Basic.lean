import Grintorrent.File.Basic

/-!
# Chunk messages (`client.c`)

What `readWorker` does with a `FILE_DATA` and a `REQUEST_FILE_DATA` message, and
the payload that `send_chunk_message` builds.

`readWorker` receives every message into the same buffer, so a handler sees the
payload in front of whatever earlier messages left there.  The records are read
from and written to that buffer byte by byte, with `int` fields in the machine's
little-endian order and `chunk_size` in network order.
-/

namespace Grintorrent

open Lib

/-- `message_size`, the length of `data_read`. -/
def messageSize : Nat := 100000

/-- `ntohl` and `htonl`: reverse the four bytes. -/
def ntohl (value : BitVec 32) : BitVec 32 :=
  BitVec.ofNat 32 (leNat (leBytes 4 value.toNat).reverse)

@[inherit_doc ntohl] def htonl (value : BitVec 32) : BitVec 32 := ntohl value

/-- `chunk_payload_t`. -/
structure ChunkPayload where
  fileHash : Digest
  chunkIndex : BitVec 32
  chunkSize : BitVec 32
  deriving DecidableEq

namespace ChunkPayload

/-- `sizeof(chunk_payload_t)`. -/
def sizeOf : Nat := 24

/-- The record at the start of a buffer. -/
def decode (data : Bytes) : ChunkPayload where
  fileHash := BitVec.ofNat 128 (leNat (slice 0 16 data))
  chunkIndex := BitVec.ofNat 32 (leNat (slice 16 4 data))
  chunkSize := BitVec.ofNat 32 (leNat (slice 20 4 data))

/-- The bytes of the record. -/
def bytes (hdr : ChunkPayload) : Bytes :=
  leBytes 16 hdr.fileHash.toNat ++ leBytes 4 hdr.chunkIndex.toNat ++
    leBytes 4 hdr.chunkSize.toNat

end ChunkPayload

/-- `chunk_request_t`.  The return address is kept as the bytes of its
`sockaddr_in`. -/
structure ChunkRequest where
  fileHash : Digest
  chunkIndex : BitVec 32
  returnAddr : Bytes
  returnAddrLen : BitVec 32
  ttl : BitVec 8
  deriving DecidableEq

/-- The record at the start of a buffer. -/
def ChunkRequest.decode (data : Bytes) : ChunkRequest where
  fileHash := BitVec.ofNat 128 (leNat (slice 0 16 data))
  chunkIndex := BitVec.ofNat 32 (leNat (slice 16 4 data))
  returnAddr := slice 20 16 data
  returnAddrLen := BitVec.ofNat 32 (leNat (slice 36 4 data))
  ttl := BitVec.ofNat 8 (leNat (slice 40 1 data))

/-- `send_chunk_message`: the payload it hands to `send_message`, or `none` when
it returns `FAILED` before that. -/
def sendChunkMessage (env : Env) (store : Store) (fileHash : Digest) (chunkIndex : Int) :
    Result (Option Bytes × Store) := do
  let (opened, store) ← openTfile env store fileHash chunkIndex
  match opened with
  | none => .ok (none, store)
  | some (chunkPtr, chunkSize) =>
      if chunkSize ≤ 0 then .ok (none, store)
      else if env.mallocOk (ChunkPayload.sizeOf + chunkSize.toNat) then do
        let hdr : ChunkPayload :=
          { fileHash
            chunkIndex := BitVec.ofInt 32 chunkIndex
            chunkSize := htonl (BitVec.ofInt 32 chunkSize) }
        let chunk ← store.os.readMapped env chunkPtr.mapping chunkPtr.offset chunkSize
        .ok (some (hdr.bytes ++ chunk), store)
      else .ok (none, store)

/-! ## Receiving -/

/-- `receive_message` of a whole payload into the buffer.  The buffer's length is
not checked. -/
def receiveInto (dataRead payload : Bytes) : Result Bytes :=
  if payload.length ≤ dataRead.length then .ok (splice 0 payload dataRead)
  else .error .outOfRange

/-- `memcpy(dest, chunk_data, chunk_size)` from behind the header in the buffer.  A copy
of no bytes does nothing, whatever its destination is, as in every C library. -/
def memcpyChunk (env : Env) (store : Store) (dest : Option Location) (dataRead : Bytes)
    (chunkSize : Nat) : Result Store :=
  if chunkSize = 0 then .ok store
  else
    match dest with
    | none => .error .nullPointer
    | some location =>
        if ChunkPayload.sizeOf + chunkSize ≤ dataRead.length then do
          let os ← store.os.writeMapped env location
            (slice ChunkPayload.sizeOf chunkSize dataRead)
          .ok { store with os }
        else .error .outOfRange

/-- The `FILE_DATA` branch of `readWorker`.  A size that differs from the expected
one is reported by `perror`, and the copy is made all the same. -/
def handleFileData (env : Env) (store : Store) (dataRead : Bytes) (locals : VerifyLocals) :
    Result Store := do
  let hdr := ChunkPayload.decode dataRead
  let (chunks, store) ← verifyTfile env store hdr.fileHash locals
  if isChunkVerified chunks hdr.chunkIndex.toInt then .ok store
  else do
    let chunkSize := (ntohl hdr.chunkSize).toNat
    let (opened, store) ← openTfile env store hdr.fileHash hdr.chunkIndex.toInt
    memcpyChunk env store (opened.map Prod.fst) dataRead chunkSize

/-- One `FILE_DATA` message for a `readWorker`: what its buffer and the local
arrays of `verify_tfile` held before, and the payload. -/
structure FileData where
  dataRead : Bytes
  payload : Bytes
  locals : VerifyLocals

/-- Receive a `FILE_DATA` message and handle it. -/
def readFileData (env : Env) (store : Store) (message : FileData) : Result Store := do
  let dataRead ← receiveInto message.dataRead message.payload
  handleFileData env store dataRead message.locals

/-- What the `REQUEST_FILE_DATA` branch of `readWorker` sends. -/
inductive Answer where
  /-- A `FILE_DATA` message to the return address. -/
  | chunk (payload : Bytes)
  /-- The request itself, to the peers. -/
  | relay
  /-- Nothing. -/
  | silent

/-- The `REQUEST_FILE_DATA` branch of `readWorker`.  `connects` is the outcome of
`socket_connect_addr`. -/
def handleRequest (env : Env) (store : Store) (req : ChunkRequest) (locals : VerifyLocals)
    (connects : Bool) : Result (Answer × Store) := do
  let (chunks, store) ← verifyTfile env store req.fileHash locals
  if isChunkVerified chunks req.chunkIndex.toInt then
    if connects then do
      let (payload, store) ← sendChunkMessage env store req.fileHash req.chunkIndex.toInt
      match payload with
      | some payload => .ok (.chunk payload, store)
      | none => .ok (.silent, store)
    else .ok (.silent, store)
  else .ok (.relay, store)

/-- What the branch does: a chunk that is not reported is relayed, and one that is gets
the answer that `send_chunk_message` makes, if the return address can be reached. -/
theorem handleRequest_cases {env : Env} {store after : Store} {req : ChunkRequest}
    {locals : VerifyLocals} {connects : Bool} {answer : Answer}
    (returned : handleRequest env store req locals connects = .ok (answer, after)) :
    ∃ chunks verified,
      verifyTfile env store req.fileHash locals = .ok (chunks, verified) ∧
      ((isChunkVerified chunks req.chunkIndex.toInt = false ∧ answer = .relay ∧
          after = verified) ∨
        (isChunkVerified chunks req.chunkIndex.toInt = true ∧ connects = false ∧
          answer = .silent ∧ after = verified) ∨
        (isChunkVerified chunks req.chunkIndex.toInt = true ∧ connects = true ∧
          ∃ payload, sendChunkMessage env verified req.fileHash req.chunkIndex.toInt =
              .ok (payload, after) ∧
            answer = payload.elim .silent .chunk)) := by
  simp only [handleRequest, Result.bind_eq_ok] at returned
  obtain ⟨⟨chunks, verified⟩, isVerified, rest⟩ := returned
  refine ⟨chunks, verified, isVerified, ?_⟩
  simp only at rest
  split at rest
  next reported =>
      right
      split at rest
      next connected =>
          simp only [Result.bind_eq_ok] at rest
          obtain ⟨⟨payload, sent⟩, isSent, rest⟩ := rest
          cases payload with
          | some payload =>
              cases rest
              exact .inr ⟨reported, connected, _, isSent, rfl⟩
          | none =>
              cases rest
              exact .inr ⟨reported, connected, _, isSent, rfl⟩
      next unconnected =>
          cases rest
          exact .inl ⟨reported, Bool.eq_false_iff.mpr unconnected, rfl, rfl⟩
  next missing =>
      cases rest
      exact .inl ⟨Bool.eq_false_iff.mpr missing, rfl, rfl⟩

theorem ntohl_htonl (value : BitVec 32) : ntohl (htonl value) = value := by
  have small : leNat (leBytes 4 value.toNat).reverse < 2 ^ 32 := by
    have bound := leNat_lt (leBytes 4 value.toNat).reverse
    simpa using bound
  have written : leBytes 4 (leNat (leBytes 4 value.toNat).reverse) =
      (leBytes 4 value.toNat).reverse := by
    have back := leBytes_leNat (leBytes 4 value.toNat).reverse
    simpa using back
  simp only [htonl, ntohl, BitVec.toNat_ofNat, Nat.mod_eq_of_lt small, written,
    List.reverse_reverse]
  rw [leNat_leBytes (by simpa using value.isLt), BitVec.ofNat_toNat, BitVec.setWidth_eq]

@[simp] theorem ChunkPayload.length_bytes (hdr : ChunkPayload) :
    hdr.bytes.length = sizeOf := by
  simp [bytes, sizeOf]

theorem ChunkPayload.decode_append (hdr : ChunkPayload) (rest : Bytes) :
    decode (hdr.bytes ++ rest) = hdr := by
  have hashBytes : slice 0 16 (hdr.bytes ++ rest) = leBytes 16 hdr.fileHash.toNat := by
    simp [slice, bytes]
  have indexBytes : slice 16 4 (hdr.bytes ++ rest) = leBytes 4 hdr.chunkIndex.toNat := by
    simp [slice, bytes]
  have sizeBytes : slice 20 4 (hdr.bytes ++ rest) = leBytes 4 hdr.chunkSize.toNat := by
    have passed : (leBytes 16 hdr.fileHash.toNat).drop 20 = [] :=
      List.drop_eq_nil_of_le (by simp)
    simp [slice, bytes, List.drop_append, passed]
  simp only [decode, hashBytes, indexBytes, sizeBytes]
  rw [leNat_leBytes (by simpa using hdr.fileHash.isLt),
    leNat_leBytes (by simpa using hdr.chunkIndex.isLt),
    leNat_leBytes (by simpa using hdr.chunkSize.isLt)]
  simp

end Grintorrent
