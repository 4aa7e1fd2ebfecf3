import Grintorrent.Client.FileData
import Grintorrent.Client.Peers
import Grintorrent.Message.Framing

/-!
# Handling a message

The body of the read loop of `readWorker`, from a message in the buffer to the effects
of its handler: the table and the files, the peer list, the messages sent, the worker
started and the copy made.  The handlers cast the buffer to a record of a fixed size,
whatever the size of the message was; what they do is decided by the message alone for
the messages that `Complete` describes, and for no others.
-/

namespace Grintorrent

open Lib

/-- `sizeof(tfile_def_t)`. -/
def TfileDef.sizeOf : Nat := 184

/-- The definition at the start of a buffer. -/
def TfileDef.decode (data : Bytes) : TfileDef where
  name := Vector.ofFn fun i => data.getD i.val 0
  fHash := BitVec.ofNat 128 (leNat (slice 32 16 data))
  cHashes i := BitVec.ofNat 128 (leNat (slice (48 + 16 * i.val) 16 data))
  size := (BitVec.ofNat 64 (leNat (slice 176 8 data))).toInt

/-- `sizeof(chunk_request_t)`, with the padding behind `ttl`. -/
def ChunkRequest.sizeOf : Nat := 44

/-- What the calls of one handler return.  `fuel` are the nested steps granted to
`add_htable`, `accepts` is the socket and the address that `server_socket_accept_addr`
yields, and `connects` says to which addresses `socket_connect_addr` succeeds. -/
structure Calls where
  fuel : Nat
  locals : VerifyLocals
  accepts : Option (Fd × Bytes)
  connects : (returnAddr : Bytes) → (returnAddrLen : BitVec 32) → Bool

/-- A message that a handler sends. -/
inductive Sent where
  /-- `ADDR_SELF` on a socket. -/
  | addrSelf (socket : Fd) (serverAddr : Bytes)
  /-- `FILE_DATA` to a return address. -/
  | chunk (returnAddr : Bytes) (returnAddrLen : BitVec 32) (payload : Bytes)
  /-- `REQUEST_FILE_DATA` to a peer. -/
  | request (fd : Fd) (req : Bytes)
  deriving DecidableEq

/-- What a handler has done.  `share` is the `share_tfile_to_peers` worker it started,
`connect` the address it passed to `socket_connect_addr`, and `copy` the destination and
the bytes of its `memcpy`, as far as they lie in the buffer; `ended` says that
`readWorker` leaves its loop. -/
structure Handled where
  store : Store
  peers : Peers
  share : Option SendTfile := none
  connect : Option (Bytes × BitVec 32) := none
  sent : List Sent := []
  copy : Option (Location × Bytes) := none
  ended : Bool := false

/-- The `FILE_DATA` branch as far as its `memcpy`: the store it leaves, with the
destination and the bytes unless the chunk is verified or there is nothing to copy. -/
def fileDataCopy (env : Env) (store : Store) (dataRead : Bytes) (locals : VerifyLocals) :
    Result (Store × Option (Location × Bytes)) := do
  let hdr := ChunkPayload.decode dataRead
  let (chunks, store) ← verifyTfile env store hdr.fileHash locals
  if isChunkVerified chunks hdr.chunkIndex.toInt then .ok (store, none)
  else do
    let chunkSize := (ntohl hdr.chunkSize).toNat
    match ← openTfile env store hdr.fileHash hdr.chunkIndex.toInt with
    | (none, store) => if chunkSize = 0 then .ok (store, none) else .error .nullPointer
    | (some (dest, _), store) =>
        .ok (store, some (dest, slice ChunkPayload.sizeOf chunkSize dataRead))

/-- The handlers of `readWorker`, with a message of this type in the buffer.  Every
other type is ignored. -/
def handleMessage (env : Env) (calls : Calls) (store : Store) (peers : Peers)
    (fdData : ClientServer) (type : UInt8) (dataRead : Bytes) : Result Handled :=
  if type = requestAddrSelf then
    match calls.accepts with
    | none => .ok { store, peers := removePeer peers fdData.clientFd, ended := true }
    | some (socket, serverAddr) => .ok { store, peers, sent := [.addrSelf socket serverAddr] }
  else if type = tfileDef then do
    let newTfile := TfileDef.decode dataRead
    let (ht, _) ← addHtable env.callocOk calls.fuel store.ht newTfile
    .ok { store := { store with ht }, peers, share := some ⟨newTfile, fdData.serverFd⟩ }
  else if type = requestFileData then do
    let req := ChunkRequest.decode dataRead
    let connects := calls.connects req.returnAddr req.returnAddrLen
    let (answer, store) ← handleRequest env store req calls.locals connects
    match answer with
    | .chunk payload =>
        .ok
          { store
            peers
            connect := some (req.returnAddr, req.returnAddrLen)
            sent := [.chunk req.returnAddr req.returnAddrLen payload] }
    | .relay =>
        .ok
          { store
            peers
            sent := (peers.recipients fdData.clientFd).map fun fd =>
              .request fd (slice 0 ChunkRequest.sizeOf dataRead) }
    | .silent => .ok { store, peers, connect := some (req.returnAddr, req.returnAddrLen) }
  else if type = fileData then do
    let (store, copy) ← fileDataCopy env store dataRead calls.locals
    .ok { store, peers, copy }
  else .ok { store, peers }

section Handlers

variable (env : Env) (calls : Calls) (store : Store) (peers : Peers) (fdData : ClientServer)
variable (dataRead : Bytes)

theorem handle_tfileDef :
    handleMessage env calls store peers fdData tfileDef dataRead = (do
      let newTfile := TfileDef.decode dataRead
      let (ht, _) ← addHtable env.callocOk calls.fuel store.ht newTfile
      .ok { store := { store with ht }, peers, share := some ⟨newTfile, fdData.serverFd⟩ }) := by
  have notSelf : tfileDef ≠ requestAddrSelf := by decide
  simp only [handleMessage, if_neg notSelf, if_true]

theorem handle_requestFileData :
    handleMessage env calls store peers fdData requestFileData dataRead = (do
      let req := ChunkRequest.decode dataRead
      let connects := calls.connects req.returnAddr req.returnAddrLen
      let (answer, store) ← handleRequest env store req calls.locals connects
      match answer with
      | .chunk payload =>
          .ok
            { store
              peers
              connect := some (req.returnAddr, req.returnAddrLen)
              sent := [.chunk req.returnAddr req.returnAddrLen payload] }
      | .relay =>
          .ok
            { store
              peers
              sent := (peers.recipients fdData.clientFd).map fun fd =>
                .request fd (slice 0 ChunkRequest.sizeOf dataRead) }
      | .silent =>
          .ok { store, peers, connect := some (req.returnAddr, req.returnAddrLen) }) := by
  have notSelf : requestFileData ≠ requestAddrSelf := by decide
  have notDef : requestFileData ≠ tfileDef := by decide
  simp only [handleMessage, if_neg notSelf, if_neg notDef, if_true]

theorem handle_fileData :
    handleMessage env calls store peers fdData fileData dataRead = (do
      let (store, copy) ← fileDataCopy env store dataRead calls.locals
      .ok { store, peers, copy }) := by
  have notSelf : fileData ≠ requestAddrSelf := by decide
  have notDef : fileData ≠ tfileDef := by decide
  have notRequest : fileData ≠ requestFileData := by decide
  simp only [handleMessage, if_neg notSelf, if_neg notDef, if_neg notRequest, if_true]

end Handlers

/-- One round of the read loop: a message is received into the buffer and handled. -/
def readMessage (env : Env) (calls : Calls) (store : Store) (peers : Peers)
    (fdData : ClientServer) (message : Message) (dataRead : Bytes) : Result Handled := do
  let dataRead ← receiveInto dataRead message.payload
  handleMessage env calls store peers fdData message.info.type dataRead

/-- A `FILE_DATA` handler makes the copy that it asks for, if its source lies in the
buffer. -/
theorem handleFileData_copy {env : Env} {store after : Store} {dataRead bytes : Bytes}
    {locals : VerifyLocals} {dest : Location}
    (asks : fileDataCopy env store dataRead locals = .ok (after, some (dest, bytes)))
    (inside : ChunkPayload.sizeOf + (ChunkPayload.decode dataRead).claimedSize ≤
      dataRead.length) :
    handleFileData env store dataRead locals = (do
      let os ← after.os.writeMapped env dest bytes
      .ok { after with os }) := by
  simp only [fileDataCopy, Result.bind_eq_ok] at asks
  obtain ⟨⟨chunks, verified⟩, returned, rest⟩ := asks
  simp only [handleFileData, returned, Result.ok_bind]
  cases isVerified : isChunkVerified chunks (ChunkPayload.decode dataRead).chunkIndex.toInt with
  | true => simp [isVerified] at rest
  | false =>
      simp only [isVerified, Bool.false_eq_true, if_false, Result.bind_eq_ok] at rest ⊢
      obtain ⟨⟨pointed, opened⟩, isOpened, rest⟩ := rest
      cases pointed with
      | none =>
          simp only at rest
          split at rest
          next => simp at rest
          next => simp at rest
      | some pointed =>
          simp only [Except.ok.injEq, Prod.mk.injEq, Option.some.injEq] at rest
          obtain ⟨rfl, rfl, rfl⟩ := rest
          rw [isOpened]
          exact memcpyChunk_some inside

theorem handleMessage_request {env : Env} {calls : Calls} {store : Store} {peers : Peers}
    {fdData : ClientServer} {dataRead : Bytes} {handled : Handled}
    (handles : handleMessage env calls store peers fdData requestFileData dataRead =
      .ok handled) :
    let req := ChunkRequest.decode dataRead
    ∃ chunks verified,
      verifyTfile env store req.fileHash calls.locals = .ok (chunks, verified) ∧
      ((isChunkVerified chunks req.chunkIndex.toInt = true ∧
          handled.connect = some (req.returnAddr, req.returnAddrLen) ∧
          ∀ fd bytes, .request fd bytes ∉ handled.sent) ∨
        (isChunkVerified chunks req.chunkIndex.toInt = false ∧ handled.connect = none ∧
          handled.sent = (peers.recipients fdData.clientFd).map fun fd =>
            .request fd (slice 0 ChunkRequest.sizeOf dataRead))) := by
  simp only [handle_requestFileData, Result.bind_eq_ok] at handles
  obtain ⟨⟨answer, after⟩, answered, rest⟩ := handles
  obtain ⟨chunks, verified, returned, outcome⟩ := handleRequest_cases answered
  refine ⟨chunks, verified, returned, ?_⟩
  rcases outcome with ⟨missing, rfl, _⟩ | ⟨reported, _, rfl, _⟩ | ⟨reported, _, payload, _, rfl⟩
  · cases rest
    exact .inr ⟨missing, rfl, rfl⟩
  · cases rest
    exact .inl ⟨reported, rfl, by simp⟩
  · cases payload with
    | some payload =>
        cases rest
        exact .inl ⟨reported, rfl, by simp⟩
    | none =>
        cases rest
        exact .inl ⟨reported, rfl, by simp⟩

theorem handleMessage_unknown {env : Env} {calls : Calls} {store : Store} {peers : Peers}
    {fdData : ClientServer} {dataRead : Bytes}
    (unknown : lookupTfile store.ht (ChunkRequest.decode dataRead).fileHash = .ok none) :
    handleMessage env calls store peers fdData requestFileData dataRead =
      .ok
        { store
          peers
          sent := (peers.recipients fdData.clientFd).map fun fd =>
            .request fd (slice 0 ChunkRequest.sizeOf dataRead) } := by
  simp only [handle_requestFileData, handleRequest, verifyTfile_unknown unknown, Result.ok_bind,
    isChunkVerified_unverifiedFile, Bool.false_eq_true, if_false]

/-- Whatever the buffer held before, the message is handled in the same way by every
client. -/
def DecidesHandling (message : Message) : Prop :=
  ∀ (env : Env) (calls : Calls) (store : Store) (peers : Peers) (fdData : ClientServer)
    (dataRead dataRead' : Bytes),
    dataRead.length = messageSize → dataRead'.length = messageSize →
    readMessage env calls store peers fdData message dataRead =
      readMessage env calls store peers fdData message dataRead'

/-- The bytes that were received name no chunk: their hash is zero, or their index too
large. -/
def NamesNone (message : Message) : Prop :=
  let hdr := ChunkPayload.decode message.payload
  (16 ≤ message.size ∧ hdr.fileHash = 0) ∨
    (20 ≤ message.size ∧ numChunks ≤ hdr.chunkIndex.toInt)

/-- The payload fills the record that its handler reads.  A `FILE_DATA` message that names
no chunk has no destination, and needs no more than to say whether it claims any bytes;
any other one must hold its header and the bytes it claims, as far as they lie in the
buffer. -/
def Complete (message : Message) : Prop :=
  let hdr := ChunkPayload.decode message.payload
  (message.info.type = tfileDef → TfileDef.sizeOf ≤ message.size) ∧
  (message.info.type = requestFileData → ChunkRequest.sizeOf ≤ message.size) ∧
  (message.info.type = fileData →
    (NamesNone message ∧ (ChunkPayload.sizeOf ≤ message.size ∨ hdr.claimedSize ≠ 0)) ∨
    (ChunkPayload.sizeOf ≤ message.size ∧
      min (ChunkPayload.sizeOf + hdr.claimedSize) messageSize ≤ message.size))

section Prefixes

variable {payload : Bytes} (rest : Bytes)

theorem TfileDef.decode_append (whole : sizeOf ≤ payload.length) :
    decode (payload ++ rest) = decode payload := by
  have inside : 184 ≤ payload.length := whole
  have name : ∀ i : Fin nameLen, (payload ++ rest).getD i.val 0 = payload.getD i.val 0 := by
    intro i
    have early : i.val < payload.length := Nat.lt_of_lt_of_le i.isLt
      (Nat.le_trans (by decide) inside)
    simp only [List.getD_eq_getElem?_getD, List.getElem?_append_left early]
  have hashes : ∀ i : Fin numChunks, slice (48 + 16 * i.val) 16 (payload ++ rest) =
      slice (48 + 16 * i.val) 16 payload := by
    intro i
    have early : i.val < 8 := i.isLt
    apply slice_append_left
    omega
  simp only [decode, name, hashes]
  rw [slice_append_left (by omega), slice_append_left (by omega)]

theorem ChunkRequest.decode_append (whole : sizeOf ≤ payload.length) :
    decode (payload ++ rest) = decode payload := by
  have inside : 44 ≤ payload.length := whole
  simp only [decode]
  rw [slice_append_left (by omega), slice_append_left (by omega), slice_append_left (by omega),
    slice_append_left (by omega), slice_append_left (by omega)]

theorem ChunkPayload.fileHash_append (received : 16 ≤ payload.length) :
    (decode (payload ++ rest)).fileHash = (decode payload).fileHash := by
  simp only [decode]
  rw [slice_append_left (by omega)]

theorem ChunkPayload.chunkIndex_append (received : 20 ≤ payload.length) :
    (decode (payload ++ rest)).chunkIndex = (decode payload).chunkIndex := by
  simp only [decode]
  rw [slice_append_left (by omega)]

theorem claimedSize_eq_zero_iff {data : Bytes} :
    (ChunkPayload.decode data).claimedSize = 0 ↔ ∀ byte ∈ slice 20 4 data, byte = 0 := by
  have small : leNat (slice 20 4 data) < 2 ^ 32 := by
    have four : (slice 20 4 data).length ≤ 4 := by
      rw [slice, List.length_take]
      exact Nat.min_le_left _ _
    calc leNat (slice 20 4 data) < 256 ^ (slice 20 4 data).length := leNat_lt _
      _ ≤ 256 ^ 4 := Nat.pow_le_pow_right (by decide) four
  have reversed : leNat (leBytes 4 (leNat (slice 20 4 data))).reverse < 2 ^ 32 := by
    apply (leNat_lt _).trans_eq
    rw [List.length_reverse, length_leBytes]
    rfl
  rw [ChunkPayload.claimedSize, ChunkPayload.decode, ntohl, BitVec.toNat_ofNat,
    BitVec.toNat_ofNat, Nat.mod_eq_of_lt small, Nat.mod_eq_of_lt reversed, leNat_eq_zero_iff]
  simp only [List.mem_reverse]
  rw [← leNat_eq_zero_iff, leNat_leBytes small, leNat_eq_zero_iff]

/-- Whether any bytes are claimed can be known before the size has been received. -/
theorem claimedSize_append (known : ChunkPayload.sizeOf ≤ payload.length ∨
      (ChunkPayload.decode payload).claimedSize ≠ 0) :
    (ChunkPayload.decode (payload ++ rest)).claimedSize = 0 ↔
      (ChunkPayload.decode payload).claimedSize = 0 := by
  rcases Nat.lt_or_ge payload.length ChunkPayload.sizeOf with short | whole
  · have nonzero := known.resolve_left (Nat.not_le.mpr short)
    refine iff_of_false (fun zero => nonzero (claimedSize_eq_zero_iff.mpr ?_)) nonzero
    intro byte member
    obtain ⟨place, isByte⟩ := List.getElem?_of_mem member
    apply claimedSize_eq_zero_iff.mp zero
    apply List.mem_of_getElem? (i := place)
    rw [getElem?_slice] at isByte ⊢
    split at isByte
    next inside =>
        have received := (List.getElem?_eq_some_iff.mp isByte).1
        rwa [if_pos inside, List.getElem?_append_left received]
    next => simp at isByte
  · rw [ChunkPayload.decode_prefix whole]

end Prefixes

/-! ## Complete messages -/

section Complete

variable {env : Env} {store : Store} {locals : VerifyLocals} {dataRead dataRead' : Bytes}

/-- What the `FILE_DATA` branch does before its `memcpy` depends on the two fields of
the header that name the chunk, and its `memcpy` on the bytes copied. -/
theorem fileDataCopy_congr
    (sameHash : (ChunkPayload.decode dataRead).fileHash = (ChunkPayload.decode dataRead').fileHash)
    (sameIndex : (ChunkPayload.decode dataRead).chunkIndex =
      (ChunkPayload.decode dataRead').chunkIndex)
    (sameClaim : (ChunkPayload.decode dataRead).claimedSize = 0 ↔
      (ChunkPayload.decode dataRead').claimedSize = 0)
    (sameBytes : slice ChunkPayload.sizeOf (ChunkPayload.decode dataRead).claimedSize dataRead =
      slice ChunkPayload.sizeOf (ChunkPayload.decode dataRead').claimedSize dataRead') :
    fileDataCopy env store dataRead locals = fileDataCopy env store dataRead' locals := by
  simp only [ChunkPayload.claimedSize] at sameClaim sameBytes
  simp only [fileDataCopy, sameHash, sameIndex, sameClaim, sameBytes]

theorem lookupTfile_zero {ht : Htable} {hash : Digest} {result : Option (Nat × Tfile)}
    (zero : hash = 0) (returned : lookupTfile ht hash = .ok result) : result = none := by
  cases result with
  | none => rfl
  | some entry => exact absurd zero (lookupTfile_entry returned).2.2

theorem verifyTfile_zero {hash : Digest} {chunks : VerifiedChunks} {verified : Store}
    (zero : hash = 0) (returned : verifyTfile env store hash locals = .ok (chunks, verified)) :
    lookupTfile verified.ht hash = .ok none ∧ chunks = unverifiedFile := by
  simp only [verifyTfile, Result.bind_eq_ok] at returned
  obtain ⟨result, found, rest⟩ := returned
  obtain rfl := lookupTfile_zero zero found
  cases rest
  exact ⟨found, rfl⟩

/-- `open_tfile` has no destination for a hash of zero or an index that is too large,
and the chunk is not verified. -/
theorem openTfile_nowhere {hash : Digest} {chunk : Int} {chunks : VerifiedChunks}
    {verified : Store} (nowhere : hash = 0 ∨ numChunks ≤ chunk)
    (returned : verifyTfile env store hash locals = .ok (chunks, verified)) :
    isChunkVerified chunks chunk = false ∧
      openTfile env verified hash chunk = .ok (none, verified) := by
  rcases nowhere with zero | large
  · obtain ⟨found, unverified⟩ := verifyTfile_zero zero returned
    constructor
    · rw [unverified, isChunkVerified_unverifiedFile]
    · simp only [openTfile, found, Result.ok_bind]
      split <;> rfl
  · constructor
    · exact isChunkVerified_outside (.inr large)
    · rw [openTfile, if_pos large]

/-- Without a destination the `FILE_DATA` branch copies to `NULL`, if it copies
anything. -/
theorem fileDataCopy_nowhere (nowhere : (ChunkPayload.decode dataRead).fileHash = 0 ∨
      numChunks ≤ (ChunkPayload.decode dataRead).chunkIndex.toInt) :
    fileDataCopy env store dataRead locals = (do
      let (_, store) ← verifyTfile env store (ChunkPayload.decode dataRead).fileHash locals
      if (ChunkPayload.decode dataRead).claimedSize = 0 then .ok (store, none)
      else .error .nullPointer) := by
  simp only [fileDataCopy, ChunkPayload.claimedSize]
  cases returned : verifyTfile env store (ChunkPayload.decode dataRead).fileHash locals with
  | error stop => rfl
  | ok result =>
      obtain ⟨chunks, verified⟩ := result
      obtain ⟨notVerified, opened⟩ := openTfile_nowhere nowhere returned
      simp only [Result.ok_bind, notVerified, Bool.false_eq_true, if_false, opened]
      rfl

variable {message : Message}

theorem readMessage_eq {calls : Calls} {peers : Peers} {fdData : ClientServer}
    (fits : message.size ≤ messageSize) (buffer : dataRead.length = messageSize) :
    readMessage env calls store peers fdData message dataRead =
      handleMessage env calls store peers fdData message.info.type
        (message.payload ++ dataRead.drop message.size) := by
  have inside : message.payload.length ≤ dataRead.length := by
    rw [message.length_payload, buffer]
    exact fits
  rw [readMessage, receiveInto_eq inside, message.length_payload, Result.ok_bind]

/-- What follows a message that names no chunk does not change what it names. -/
theorem NamesNone.decode_append (none : NamesNone message) (rest : Bytes) :
    (ChunkPayload.decode (message.payload ++ rest)).fileHash =
        (ChunkPayload.decode message.payload).fileHash ∧
      ((ChunkPayload.decode (message.payload ++ rest)).fileHash = 0 ∨
        numChunks ≤ (ChunkPayload.decode (message.payload ++ rest)).chunkIndex.toInt) := by
  have length := message.length_payload
  rcases none with ⟨received, zero⟩ | ⟨received, large⟩
  · have hashes := ChunkPayload.fileHash_append rest (length ▸ received)
    exact ⟨hashes, .inl (hashes.trans zero)⟩
  · have indices := ChunkPayload.chunkIndex_append rest (length ▸ received)
    exact ⟨ChunkPayload.fileHash_append rest (by omega), .inr (by rwa [indices])⟩

theorem Complete.fileDataCopy_eq (complete : Complete message)
    (isFileData : message.info.type = fileData) (buffer : dataRead.length = messageSize)
    (buffer' : dataRead'.length = messageSize) :
    fileDataCopy env store (message.payload ++ dataRead.drop message.size) locals =
      fileDataCopy env store (message.payload ++ dataRead'.drop message.size) locals := by
  have length := message.length_payload
  rcases complete.2.2 isFileData with ⟨none, known⟩ | ⟨whole, covered⟩
  · have claims := fun rest => @claimedSize_append message.payload rest (length ▸ known)
    obtain ⟨hash, nowhere⟩ := none.decode_append (dataRead.drop message.size)
    obtain ⟨hash', nowhere'⟩ := none.decode_append (dataRead'.drop message.size)
    rw [fileDataCopy_nowhere nowhere, fileDataCopy_nowhere nowhere', hash, hash']
    simp only [claims]
  · have header : ∀ rest, ChunkPayload.decode (message.payload ++ rest) =
        ChunkPayload.decode message.payload :=
      fun rest => ChunkPayload.decode_prefix (length ▸ whole) rest
    apply fileDataCopy_congr
    · rw [header, header]
    · rw [header, header]
    · rw [header, header]
    · rw [header, header]
      rcases Nat.le_total (ChunkPayload.sizeOf +
          (ChunkPayload.decode message.payload).claimedSize) messageSize with within | past
      · rw [Nat.min_eq_left within, ← length] at covered
        rw [slice_append_left covered, slice_append_left covered]
      · rw [Nat.min_eq_right past] at covered
        rw [List.drop_eq_nil_of_le (buffer.trans_le covered),
          List.drop_eq_nil_of_le (buffer'.trans_le covered)]

theorem Complete.decidesHandling (complete : Complete message) : DecidesHandling message := by
  intro env calls store peers fdData dataRead dataRead' buffer buffer'
  have length := message.length_payload
  by_cases fits : message.size ≤ messageSize
  · rw [readMessage_eq fits buffer, readMessage_eq fits buffer']
    simp only [handleMessage]
    split
    next => rfl
    next =>
        split
        next isDef =>
            have whole : TfileDef.sizeOf ≤ message.payload.length := length ▸ complete.1 isDef
            rw [TfileDef.decode_append _ whole, TfileDef.decode_append _ whole]
        next =>
            split
            next isRequest =>
                have whole : ChunkRequest.sizeOf ≤ message.payload.length :=
                  length ▸ complete.2.1 isRequest
                have inside : 0 + ChunkRequest.sizeOf ≤ message.payload.length := by omega
                rw [ChunkRequest.decode_append _ whole, ChunkRequest.decode_append _ whole,
                  slice_append_left inside, slice_append_left inside]
            next =>
                split
                next isFileData =>
                    rw [complete.fileDataCopy_eq isFileData buffer buffer']
                next => rfl
  · have outside : ¬message.payload.length ≤ messageSize := by omega
    simp only [readMessage, receiveInto, buffer, buffer', if_neg outside]

end Complete

/-! ## Incomplete messages

The buffer is filled byte by byte, once with zeros where the message does not reach, and
once with a byte that the handler passes on.  The fields of a header that are missing
are filled so that the header names a chunk. -/

section Incomplete

/-- A buffer that held these bytes. -/
def leftover (byteAt : Nat → UInt8) : Bytes := (List.range messageSize).map byteAt

@[simp] theorem length_leftover (byteAt : Nat → UInt8) :
    (leftover byteAt).length = messageSize := by
  simp [leftover]

/-- The buffer after a message was received into it. -/
def buffered (payload : Bytes) (byteAt : Nat → UInt8) : Bytes :=
  payload ++ (leftover byteAt).drop payload.length

variable {payload : Bytes} {byteAt byteAt' : Nat → UInt8} {position : Nat}

theorem length_buffered (fits : payload.length ≤ messageSize) :
    (buffered payload byteAt).length = messageSize := by
  rw [buffered, List.length_append, List.length_drop, length_leftover]
  omega

theorem buffered_get (behind : payload.length ≤ position) (inside : position < messageSize) :
    (buffered payload byteAt)[position]? = some (byteAt position) := by
  rw [buffered, List.getElem?_append_right behind, List.getElem?_drop,
    Nat.add_sub_cancel' behind, leftover, List.getElem?_map, List.getElem?_range inside,
    Option.map_some]

theorem mem_slice_buffered {offset length : Nat} (behind : payload.length ≤ position)
    (inside : position < messageSize) (after : offset ≤ position)
    (before : position < offset + length) :
    byteAt position ∈ slice offset length (buffered payload byteAt) := by
  apply List.mem_of_getElem? (i := position - offset)
  rw [getElem?_slice, if_pos (by omega), Nat.add_sub_cancel' after, buffered_get behind inside]

theorem slice_buffered {offset length : Nat}
    (same : ∀ position < offset + length, byteAt position = byteAt' position) :
    slice offset length (buffered payload byteAt) =
      slice offset length (buffered payload byteAt') := by
  apply List.ext_getElem?
  intro place
  simp only [getElem?_slice]
  split
  next inside =>
      simp only [buffered, List.getElem?_append, List.getElem?_drop, leftover,
        List.getElem?_map]
      split
      next => rfl
      next behind =>
          rw [Nat.add_sub_cancel' (by omega)]
          rcases Nat.lt_or_ge (offset + place) messageSize with early | late
          · rw [List.getElem?_range early, Option.map_some, Option.map_some,
              same _ (by omega)]
          · rw [List.getElem?_eq_none (by simpa using late), Option.map_none, Option.map_none]
  next => rfl

variable {message : Message}

theorem readMessage_leftover {env : Env} {calls : Calls} {store : Store} {peers : Peers}
    {fdData : ClientServer} (fits : message.size ≤ messageSize) :
    readMessage env calls store peers fdData message (leftover byteAt) =
      handleMessage env calls store peers fdData message.info.type
        (buffered message.payload byteAt) := by
  rw [readMessage_eq fits (length_leftover byteAt), buffered, message.length_payload]

/-- The calls of a handler, none of which fails. -/
def sampleCalls : Calls where
  fuel := 1
  locals := ⟨0, fun _ => 0⟩
  accepts := none
  connects _ _ := true

/-- The last byte of a record is one of the definition's size. -/
theorem TfileDef.decode_buffered_ne (short : payload.length < sizeOf)
    (differ : byteAt 183 ≠ byteAt' 183) :
    decode (buffered payload byteAt) ≠ decode (buffered payload byteAt') := by
  have behind : payload.length ≤ 183 := Nat.le_of_lt_succ short
  have fits : payload.length ≤ messageSize := Nat.le_trans behind (by decide)
  have length : ∀ byteAt, (slice 176 8 (buffered payload byteAt)).length = 8 := by
    intro byteAt
    apply length_slice
    rw [length_buffered fits]
    decide
  intro same
  have numbers : leNat (slice 176 8 (buffered payload byteAt)) =
      leNat (slice 176 8 (buffered payload byteAt')) := by
    have sizes := BitVec.eq_of_toInt_eq (congrArg TfileDef.size same)
    have small : ∀ byteAt, leNat (slice 176 8 (buffered payload byteAt)) < 2 ^ 64 := by
      intro byteAt
      apply (leNat_lt _).trans_eq
      rw [length]
      rfl
    have bounded := congrArg BitVec.toNat sizes
    rwa [BitVec.toNat_ofNat, BitVec.toNat_ofNat, Nat.mod_eq_of_lt (small byteAt),
      Nat.mod_eq_of_lt (small byteAt')] at bounded
  have bytes := eq_of_leNat ((length byteAt).trans (length byteAt').symm) numbers
  have last : ∀ byteAt, (slice 176 8 (buffered payload byteAt))[7]? = some (byteAt 183) := by
    intro byteAt
    rw [getElem?_slice, if_pos (by decide), buffered_get behind (by decide)]
  have equal := last byteAt
  rw [bytes, last byteAt', Option.some.injEq] at equal
  exact differ equal.symm

/-- A definition that was not received whole is shared with bytes of the buffer. -/
theorem DecidesHandling.whole_tfileDef (decides : DecidesHandling message)
    (isDef : message.info.type = tfileDef) : TfileDef.sizeOf ≤ message.size := by
  by_contra short
  have length := message.length_payload
  have fits : message.size ≤ messageSize :=
    Nat.le_trans (Nat.le_of_lt (Nat.lt_of_not_le short)) (by decide)
  have same := decides sampleEnv sampleCalls (sampleStore []) .init (.load 4 4)
    (leftover fun _ => 0) (leftover fun _ => 1) (length_leftover _) (length_leftover _)
  rw [readMessage_leftover fits, readMessage_leftover fits] at same
  simp only [isDef, handle_tfileDef, sampleStore, sampleCalls,
    addHtable_init, Result.ok_bind, Except.ok.injEq, Handled.mk.injEq, Option.some.injEq,
    SendTfile.mk.injEq, true_and, and_true] at same
  exact TfileDef.decode_buffered_ne (by omega) (by decide) same.2

/-- A request that was not received whole is relayed with bytes of the buffer. -/
theorem DecidesHandling.whole_request (decides : DecidesHandling message)
    (isRequest : message.info.type = requestFileData) :
    ChunkRequest.sizeOf ≤ message.size := by
  by_contra short
  have length := message.length_payload
  have behind : message.payload.length ≤ 43 := by
    rw [length]
    exact Nat.le_of_lt_succ (Nat.lt_of_not_le short)
  have fits : message.size ≤ messageSize :=
    Nat.le_trans (Nat.le_of_lt (Nat.lt_of_not_le short)) (by decide)
  have same := decides sampleEnv sampleCalls (sampleStore []) ⟨100, 100, [4]⟩ (.load 5 5)
    (leftover fun _ => 0) (leftover fun _ => 1) (length_leftover _) (length_leftover _)
  rw [readMessage_leftover fits, readMessage_leftover fits] at same
  have unknown : ∀ hash, lookupTfile (sampleStore []).ht hash = .ok none := by
    intro hash
    simp only [lookupTfile, sampleStore, Htable.search_init, Result.ok_bind]
  rw [isRequest, handleMessage_unknown (unknown _), handleMessage_unknown (unknown _)] at same
  have recipients : Peers.recipients ⟨100, 100, [4]⟩ (ClientServer.load 5 5).clientFd = [4] := by
    decide
  simp only [recipients, List.map_cons, List.map_nil, Except.ok.injEq, Handled.mk.injEq,
    List.cons.injEq, Sent.request.injEq, true_and, and_true] at same
  have last : ∀ byteAt,
      (slice 0 ChunkRequest.sizeOf (buffered message.payload byteAt))[43]? =
        some (byteAt 43) := by
    intro byteAt
    rw [getElem?_slice, if_pos (by decide), buffered_get (by omega) (by decide)]
  have equal := last fun _ => 0
  rw [same, last fun _ => 1] at equal
  exact absurd equal (by decide)

/-- An environment in which every digest is zero. -/
def blankEnv : Env :=
  { sampleEnv with
    md5Final := fun _ => 0
    md5 := fun _ => 0
    md5_blocks := fun _ => rfl }

/-- A definition of eight bytes, none of whose chunks ever matches in `blankEnv`. -/
def blankDef (hash : Digest) : TfileDef where
  name := sampleName
  fHash := hash
  cHashes := fun _ => 1
  size := 8

/-- A client whose only entry is mapped. -/
def blankStore (hash : Digest) : Store where
  ht := (initHtable.fill (homeIndex startingCapacity (words hash)) (blankDef hash)).setLocations
    (homeIndex startingCapacity (words hash)) (some samplePath) (some ⟨samplePath, 0⟩)
  os := (sampleStore (List.replicate 8 0)).os

theorem fileDataCopy_blankStore {hash : Digest} {data : Bytes} {locals : VerifyLocals}
    (nonzero : hash ≠ 0) (isHash : (ChunkPayload.decode data).fileHash = hash)
    (below : (ChunkPayload.decode data).chunkIndex.toInt < numChunks) :
    fileDataCopy blankEnv (blankStore hash) data locals =
      .ok (blankStore hash,
        some ((chunkLocation ⟨samplePath, 0⟩ 8 (ChunkPayload.decode data).chunkIndex.toInt).1,
          slice ChunkPayload.sizeOf (ChunkPayload.decode data).claimedSize data)) := by
  have first : lookupTfile (initHtable.fill (homeIndex startingCapacity (words hash))
      (blankDef hash)) hash = .ok (some (_, { Tfile.zero with tdef := blankDef hash })) :=
    @lookupTfile_first (blankDef hash) nonzero
  have found : lookupTfile (blankStore hash).ht hash =
      .ok (some (homeIndex startingCapacity (words hash),
        { tdef := blankDef hash
          fLocation := some samplePath
          mLocation := some ⟨samplePath, 0⟩ })) :=
    lookupTfile_setLocations first _ _
  have verified : verifyTfile blankEnv (blankStore hash) hash locals =
      .ok (verdict blankEnv (blankDef hash) (List.replicate 8 0), blankStore hash) := by
    have file : (blankStore hash).os.files samplePath = some (List.replicate 8 0) :=
      sampleStore_file _
    exact @verifyTfile_mapped blankEnv (blankStore hash) hash _ _ _ locals ⟨samplePath, 0⟩ found
      rfl file rfl
  have unverified : isChunkVerified (verdict blankEnv (blankDef hash) (List.replicate 8 0))
      (ChunkPayload.decode data).chunkIndex.toInt = false := by
    apply Bool.eq_false_iff.mpr
    intro reported
    obtain ⟨i, isIndex⟩ := exists_chunk_of_verified reported
    rw [isIndex] at reported
    rcases (isChunkVerified_verdict i).mp reported with whole | chunk
    · exact nonzero whole.symm
    · exact absurd chunk (show (0 : Digest) ≠ 1 by decide)
  have opened : openTfile blankEnv (blankStore hash) hash
      (ChunkPayload.decode data).chunkIndex.toInt =
        .ok (some (chunkLocation ⟨samplePath, 0⟩ 8 (ChunkPayload.decode data).chunkIndex.toInt),
          blankStore hash) := by
    have lower := BitVec.le_two_mul_toInt (x := (ChunkPayload.decode data).chunkIndex)
    have upper := BitVec.two_mul_toInt_lt (x := (ChunkPayload.decode data).chunkIndex)
    have fits : ChunkFits (blankDef hash).size (ChunkPayload.decode data).chunkIndex.toInt := by
      have quotient : (blankDef hash).size.tdiv numChunks = 1 := rfl
      rw [ChunkFits, quotient]
      omega
    simp only [openTfile, if_neg (Int.not_le.mpr below), found, Result.ok_bind, locateChunk,
      if_pos fits]
    rfl
  simp only [fileDataCopy, isHash, verified, Result.ok_bind, unverified, Bool.false_eq_true,
    if_false, opened]
  rfl

/-- Bytes behind a message that make up a header which names a chunk. -/
def headerByte (position : Nat) : UInt8 :=
  if position = 15 ∨ position = 19 then 0x80 else 0

/-- The same bytes but for the last one of the claimed size and the first one that the
message of `size` bytes leaves to be copied. -/
def markedByte (size position : Nat) : UInt8 :=
  if position = 23 ∨ position = max size 24 then 1 else headerByte position

theorem headerByte_eq {size : Nat} (early : position < 20) :
    headerByte position = markedByte size position := by
  rw [markedByte, if_neg (by omega)]

theorem fileHash_buffered (size : Nat) :
    (ChunkPayload.decode (buffered payload headerByte)).fileHash =
      (ChunkPayload.decode (buffered payload (markedByte size))).fileHash := by
  simp only [ChunkPayload.decode]
  rw [slice_buffered fun position early => headerByte_eq (by omega)]

theorem chunkIndex_buffered (size : Nat) :
    (ChunkPayload.decode (buffered payload headerByte)).chunkIndex =
      (ChunkPayload.decode (buffered payload (markedByte size))).chunkIndex := by
  simp only [ChunkPayload.decode]
  rw [slice_buffered fun position early => headerByte_eq (by omega)]

theorem fileHash_ne_zero (fits : payload.length ≤ messageSize)
    (named : ¬(16 ≤ payload.length ∧ (ChunkPayload.decode payload).fileHash = 0)) :
    (ChunkPayload.decode (buffered payload headerByte)).fileHash ≠ 0 := by
  intro zero
  rcases Nat.lt_or_ge payload.length 16 with short | whole
  · have length : (slice 0 16 (buffered payload headerByte)).length = 16 := by
      apply length_slice
      rw [length_buffered fits]
      decide
    have member : headerByte 15 ∈ slice 0 16 (buffered payload headerByte) :=
      mem_slice_buffered (by omega) (by decide) (by decide) (by decide)
    have small : leNat (slice 0 16 (buffered payload headerByte)) < 2 ^ 128 := by
      apply (leNat_lt _).trans_eq
      rw [length]
      rfl
    apply leNat_ne_zero member (by decide)
    have number := congrArg BitVec.toNat zero
    rwa [ChunkPayload.decode, BitVec.toNat_ofNat, Nat.mod_eq_of_lt small] at number
  · apply named
    rw [buffered, ChunkPayload.fileHash_append _ whole] at zero
    exact ⟨whole, zero⟩

theorem chunkIndex_lt (fits : payload.length ≤ messageSize)
    (named : ¬(20 ≤ payload.length ∧ numChunks ≤ (ChunkPayload.decode payload).chunkIndex.toInt)) :
    (ChunkPayload.decode (buffered payload headerByte)).chunkIndex.toInt < numChunks := by
  rcases Nat.lt_or_ge payload.length 20 with short | whole
  · have last : slice 19 1 (buffered payload headerByte) = [0x80] := by
      apply List.ext_getElem?
      intro place
      rw [getElem?_slice]
      split
      next first =>
          obtain rfl : place = 0 := by omega
          exact buffered_get (by omega) (by decide)
      next later => exact (List.getElem?_eq_none (Nat.le_of_not_lt later)).symm
    have length : (slice 16 3 (buffered payload headerByte)).length = 3 := by
      apply length_slice
      rw [length_buffered fits]
      decide
    have low := leNat_lt (slice 16 3 (buffered payload headerByte))
    have number : leNat (slice 16 4 (buffered payload headerByte)) =
        leNat (slice 16 3 (buffered payload headerByte)) + 2 ^ 31 := by
      rw [← slice_append_slice 16 3 1, leNat_append, length, last]
      rfl
    rw [length] at low
    rw [ChunkPayload.decode, number, BitVec.toInt_ofNat', Int.bmod]
    simp only [numChunks]
    omega
  · rw [buffered, ChunkPayload.chunkIndex_append _ whole]
    omega

theorem copied_ne (fits : payload.length ≤ messageSize)
    (missing : ¬(ChunkPayload.sizeOf ≤ payload.length ∧
      min (ChunkPayload.sizeOf + (ChunkPayload.decode payload).claimedSize) messageSize ≤
        payload.length)) :
    slice ChunkPayload.sizeOf
        (ChunkPayload.decode (buffered payload headerByte)).claimedSize
        (buffered payload headerByte) ≠
      slice ChunkPayload.sizeOf
        (ChunkPayload.decode (buffered payload (markedByte payload.length))).claimedSize
        (buffered payload (markedByte payload.length)) := by
  have buffer : ∀ byteAt, (buffered payload byteAt).length = messageSize :=
    fun _ => length_buffered fits
  have first : max payload.length 24 < messageSize := by
    simp only [ChunkPayload.sizeOf, messageSize] at missing ⊢
    omega
  have claims : max payload.length 24 - 24 <
      (ChunkPayload.decode (buffered payload (markedByte payload.length))).claimedSize := by
    rcases Nat.lt_or_ge payload.length 24 with short | whole
    · rw [Nat.max_eq_right (by omega), Nat.sub_self]
      apply Nat.pos_of_ne_zero
      intro zero
      have marked : markedByte payload.length 23 ∈
          slice 20 4 (buffered payload (markedByte payload.length)) :=
        mem_slice_buffered (by omega) (by decide) (by decide) (by decide)
      have isZero := claimedSize_eq_zero_iff.mp zero _ marked
      simp [markedByte] at isZero
    · rw [buffered, ChunkPayload.decode_prefix whole]
      simp only [ChunkPayload.sizeOf, messageSize] at missing
      omega
  have place : ChunkPayload.sizeOf + (max payload.length 24 - 24) = max payload.length 24 := by
    simp only [ChunkPayload.sizeOf]
    omega
  intro same
  have marked := congrArg (fun bytes => bytes[max payload.length 24 - 24]?) same
  have bytes : ∀ byteAt, (buffered payload byteAt)[max payload.length 24]? =
      some (byteAt (max payload.length 24)) :=
    fun _ => buffered_get (Nat.le_max_left _ _) first
  simp only [getElem?_slice, if_pos claims, place, bytes, markedByte, or_true, if_true]
    at marked
  split at marked
  next =>
      rw [headerByte, if_neg (by omega), Option.some.injEq] at marked
      exact absurd marked (by decide)
  next => simp at marked

/-- Without a destination, bytes of the buffer decide whether there is anything to copy. -/
theorem DecidesHandling.known_claim (decides : DecidesHandling message)
    (isFileData : message.info.type = fileData) (none : NamesNone message) :
    ChunkPayload.sizeOf ≤ message.size ∨
      (ChunkPayload.decode message.payload).claimedSize ≠ 0 := by
  by_contra unknown
  obtain ⟨short, zero⟩ := not_or.mp unknown
  have length := message.length_payload
  have behind : message.payload.length ≤ 23 := by
    rw [length]
    exact Nat.le_of_lt_succ (Nat.lt_of_not_le short)
  have fits : message.size ≤ messageSize :=
    Nat.le_trans (Nat.le_of_lt (Nat.lt_of_not_le short)) (by decide)
  have unknown : ∀ hash, lookupTfile (sampleStore []).ht hash = .ok Option.none := by
    intro hash
    simp only [lookupTfile, sampleStore, Htable.search_init, Result.ok_bind]
  have same := decides sampleEnv sampleCalls (sampleStore []) .init (.load 4 4)
    (leftover fun _ => 0) (leftover fun _ => 1) (length_leftover _) (length_leftover _)
  rw [readMessage_leftover fits, readMessage_leftover fits] at same
  have nowhere : ∀ byteAt, (ChunkPayload.decode (buffered message.payload byteAt)).fileHash = 0 ∨
      numChunks ≤ (ChunkPayload.decode (buffered message.payload byteAt)).chunkIndex.toInt :=
    fun byteAt => (none.decode_append _).2
  have noClaim : (ChunkPayload.decode (buffered message.payload fun _ => 0)).claimedSize = 0 := by
    rw [claimedSize_eq_zero_iff]
    intro byte member
    obtain ⟨place, isByte⟩ := List.getElem?_of_mem member
    rw [getElem?_slice] at isByte
    split at isByte
    next inside =>
        rcases Nat.lt_or_ge (20 + place) message.payload.length with received | behind
        · rw [buffered, List.getElem?_append_left received] at isByte
          apply claimedSize_eq_zero_iff.mp (Classical.not_not.mp zero)
          apply List.mem_of_getElem? (i := place)
          rw [getElem?_slice, if_pos inside, isByte]
        · rw [buffered_get behind (by simp only [messageSize]; omega)] at isByte
          exact (Option.some.inj isByte).symm
    next => simp at isByte
  have claim : (ChunkPayload.decode (buffered message.payload fun _ => 1)).claimedSize ≠ 0 := by
    intro zero
    have last : (1 : UInt8) ∈ slice 20 4 (buffered message.payload fun _ => 1) :=
      @mem_slice_buffered _ (fun _ => 1) 23 _ _ behind (by decide) (by decide) (by decide)
    exact absurd (claimedSize_eq_zero_iff.mp zero _ last) (by decide)
  simp only [isFileData, handle_fileData, fileDataCopy_nowhere (nowhere _), noClaim, if_true,
    verifyTfile_unknown (unknown _), Result.ok_bind, if_neg claim] at same
  simp at same

/-- A chunk that was not received whole is completed with bytes of the buffer. -/
theorem DecidesHandling.whole_fileData (decides : DecidesHandling message)
    (isFileData : message.info.type = fileData) (named : ¬NamesNone message) :
    ChunkPayload.sizeOf ≤ message.size ∧
      min (ChunkPayload.sizeOf + (ChunkPayload.decode message.payload).claimedSize)
        messageSize ≤ message.size := by
  by_contra missing
  obtain ⟨named, below⟩ := not_or.mp named
  have fits : message.size ≤ messageSize := by
    simp only [ChunkPayload.sizeOf, messageSize] at missing ⊢
    omega
  have inside : message.payload.length ≤ messageSize := message.length_payload ▸ fits
  rw [← message.length_payload] at named below missing
  have nonzero := fileHash_ne_zero inside named
  have index := chunkIndex_lt inside below
  have same := decides blankEnv sampleCalls
    (blankStore (ChunkPayload.decode (buffered message.payload headerByte)).fileHash) .init
    (.load 4 4) (leftover headerByte) (leftover (markedByte message.payload.length))
    (length_leftover _) (length_leftover _)
  rw [readMessage_leftover fits, readMessage_leftover fits] at same
  simp only [isFileData, handle_fileData] at same
  rw [fileDataCopy_blankStore nonzero rfl index,
    fileDataCopy_blankStore nonzero (fileHash_buffered _).symm
      (chunkIndex_buffered message.payload.length ▸ index)] at same
  simp only [Result.ok_bind, Except.ok.injEq, Handled.mk.injEq, Option.some.injEq,
    Prod.mk.injEq, true_and, and_true] at same
  exact copied_ne inside missing same.2

end Incomplete

/-- **Handling a message depends on the message alone exactly if it is complete.** -/
theorem decidesHandling_iff (message : Message) :
    DecidesHandling message ↔ Complete message := by
  constructor
  · intro decides
    refine ⟨decides.whole_tfileDef, decides.whole_request, fun isFileData => ?_⟩
    by_cases none : NamesNone message
    · exact .inl ⟨none, decides.known_claim isFileData none⟩
    · exact .inr (decides.whole_fileData isFileData none)
  · exact Complete.decidesHandling

theorem sized_none : (Option.getD (none : Option Bytes) []).length = (0 : BitVec 64).toNat := rfl

/-- A `TFILE_DEF` message without a payload. -/
def emptyDef : Message where
  info := ⟨tfileDef, 0⟩
  padding := Vector.replicate 7 0
  data := none
  sized := sized_none

/-- It is handled as whatever definition the buffer held. -/
theorem emptyDef_handling : ¬DecidesHandling emptyDef := by
  intro decides
  have whole := decides.whole_tfileDef rfl
  exact absurd whole (by decide)

end Grintorrent
