import Grintorrent.Client.Reading
import Grintorrent.Htable.Counting

/-!
# The read loop of a worker

`readWorker` with its stream and its buffer: each round peeks at a header, receives the
message into the buffer that all rounds share, and runs the handler of its type.  When one
of the two calls fails, or the accept of a `REQUEST_ADDR_SELF` does, the worker takes a
peer off the list and ends.  For messages that decide what is done, the loop does to the
stream what `workOn` does to the messages, however the bytes arrive.
-/

namespace Grintorrent

open Lib

/-- The handler of the message in the buffer, with the copy of a `FILE_DATA` message. -/
def handleWhole (env : Env) (calls : Calls) (store : Store) (peers : Peers)
    (fdData : ClientServer) (type : UInt8) (dataRead : Bytes) : Result Handled :=
  if type = fileData then do
    let store ← handleFileData env store dataRead calls.locals
    .ok { store, peers }
  else handleMessage env calls store peers fdData type dataRead

/-- What one round meets: the counts that its reads return, what its handler's calls
return, and what the other threads have made of the store and of the peer list when it
starts. -/
structure WorkerRound where
  reads : Reads
  calls : Calls
  meets : Store × Peers → Store × Peers

/-- What a worker has done: the store and the list it leaves, its handlers in order, and
whether it has ended. -/
structure WorkerRun where
  store : Store
  peers : Peers
  handled : List Handled
  ended : Bool

/-- The worker has handled this message before. -/
def WorkerRun.after (handled : Handled) (run : WorkerRun) : WorkerRun :=
  { run with handled := handled :: run.handled }

/-- The worker ends without handling anything more. -/
def leaves (fdData : ClientServer) (left : Store × Peers) : WorkerRun where
  store := left.1
  peers := removePeer left.2 fdData.clientFd
  handled := []
  ended := true

/-- `readWorker`, one round for each entry of the list. -/
def readWorker (env : Env) (fdData : ClientServer) :
    (rounds : List WorkerRound) → Store × Peers → (dataRead stream : Bytes) → Result WorkerRun
  | [], left, _, _ => .ok { store := left.1, peers := left.2, handled := [], ended := false }
  | round :: rounds, left, dataRead, stream =>
      let left := round.meets left
      match incomingMessageInfo round.reads.peek stream with
      | none => .ok (leaves fdData left)
      | some info => do
          let (code, data, stream) ←
            receiveMessage round.reads stream (some dataRead) info.size.toNat
          let dataRead := data.getD dataRead
          if code ≠ success then .ok (leaves fdData left)
          else do
            let handled ← handleWhole env round.calls left.1 left.2 fdData info.type dataRead
            if handled.ended then
              .ok
                { store := handled.store
                  peers := handled.peers
                  handled := [handled]
                  ended := true }
            else do
              let run ← readWorker env fdData rounds (handled.store, handled.peers) dataRead
                stream
              .ok (run.after handled)

/-- The handler, with nothing in the buffer but the message. -/
def Message.handle (message : Message) (env : Env) (calls : Calls) (store : Store)
    (peers : Peers) (fdData : ClientServer) : Result Handled :=
  handleWhole env calls store peers fdData message.info.type
    (splice 0 message.payload (List.replicate messageSize 0))

/-- A message as it is delivered: the way it is split, and what its round meets. -/
structure Arrival where
  transfer : Transfer
  calls : Calls
  meets : Store × Peers → Store × Peers

namespace Arrival

variable (arrival : Arrival)

/-- The message that is delivered. -/
def message : Message := arrival.transfer.message

/-- The round that delivers it. -/
def round : WorkerRound where
  reads := arrival.message.reads arrival.transfer.received
  calls := arrival.calls
  meets := arrival.meets

end Arrival

/-- The frames of the messages. -/
def arrivalFrames (arrivals : List Arrival) : Bytes :=
  arrivals.flatMap fun arrival => arrival.message.frame

/-- The handlers of the messages, one after the other, until one of them ends the worker. -/
def workOn (env : Env) (fdData : ClientServer) :
    List Arrival → Store × Peers → Result WorkerRun
  | [], left => .ok { store := left.1, peers := left.2, handled := [], ended := false }
  | arrival :: arrivals, left => do
      let left := arrival.meets left
      let handled ← arrival.message.handle env arrival.calls left.1 left.2 fdData
      if handled.ended then
        .ok { store := handled.store, peers := handled.peers, handled := [handled], ended := true }
      else do
        let run ← workOn env fdData arrivals (handled.store, handled.peers)
        .ok (run.after handled)

/-- A worker that has not ended goes on with more rounds. -/
def WorkerRun.goesOn (env : Env) (fdData : ClientServer) (rounds : List WorkerRound)
    (dataRead stream : Bytes) (run : WorkerRun) : Result WorkerRun :=
  if run.ended then .ok run
  else do
    let later ← readWorker env fdData rounds (run.store, run.peers) dataRead stream
    .ok { later with handled := run.handled ++ later.handled }

section OneMessage

variable {env : Env} {calls : Calls} {store : Store} {peers : Peers} {fdData : ClientServer}
variable {message : Message} {dataRead dataRead' : Bytes}

/-- The `memcpy` of a buffer of this length depends on its header and on the bytes that it
copies. -/
theorem handleFileData_congr {locals : VerifyLocals}
    (sameLength : dataRead.length = dataRead'.length)
    (sameHeader : ChunkPayload.decode dataRead = ChunkPayload.decode dataRead')
    (sameBytes : slice ChunkPayload.sizeOf (ChunkPayload.decode dataRead).claimedSize dataRead =
      slice ChunkPayload.sizeOf (ChunkPayload.decode dataRead).claimedSize dataRead') :
    handleFileData env store dataRead locals = handleFileData env store dataRead' locals := by
  simp only [ChunkPayload.claimedSize, sameHeader] at sameBytes
  have copies : ∀ (opened : Store) (dest : Option Location),
      memcpyChunk env opened dest dataRead (ntohl (ChunkPayload.decode dataRead').chunkSize).toNat =
        memcpyChunk env opened dest dataRead'
          (ntohl (ChunkPayload.decode dataRead').chunkSize).toNat := by
    intro opened dest
    simp only [memcpyChunk, sameLength, sameBytes]
  simp only [handleFileData, sameHeader, copies]

/-- Without a destination the `FILE_DATA` branch copies to `NULL`, if it copies anything. -/
theorem handleFileData_nowhere {locals : VerifyLocals}
    (nowhere : (ChunkPayload.decode dataRead).fileHash = 0 ∨
      numChunks ≤ (ChunkPayload.decode dataRead).chunkIndex.toInt) :
    handleFileData env store dataRead locals = (do
      let (_, store) ← verifyTfile env store (ChunkPayload.decode dataRead).fileHash locals
      if (ChunkPayload.decode dataRead).claimedSize = 0 then .ok store
      else .error .nullPointer) := by
  simp only [handleFileData, ChunkPayload.claimedSize]
  cases returned : verifyTfile env store (ChunkPayload.decode dataRead).fileHash locals with
  | error stop => rfl
  | ok result =>
      obtain ⟨chunks, verified⟩ := result
      obtain ⟨notVerified, opened⟩ := openTfile_nowhere nowhere returned
      simp only [Result.ok_bind, notVerified, Bool.false_eq_true, if_false, opened,
        Option.map_none, memcpyChunk]
      rfl

theorem Complete.handleFileData_eq {locals : VerifyLocals} (complete : Complete message)
    (isFileData : message.info.type = fileData) (buffer : dataRead.length = messageSize)
    (buffer' : dataRead'.length = messageSize) :
    handleFileData env store (message.payload ++ dataRead.drop message.size) locals =
      handleFileData env store (message.payload ++ dataRead'.drop message.size) locals := by
  have length := message.length_payload
  rcases complete.2.2 isFileData with ⟨none, known⟩ | ⟨whole, covered⟩
  · have claims := fun rest => @claimedSize_append message.payload rest (length ▸ known)
    obtain ⟨hash, nowhere⟩ := none.decode_append (dataRead.drop message.size)
    obtain ⟨hash', nowhere'⟩ := none.decode_append (dataRead'.drop message.size)
    rw [handleFileData_nowhere nowhere, handleFileData_nowhere nowhere', hash, hash']
    simp only [claims]
  · have header : ∀ rest, ChunkPayload.decode (message.payload ++ rest) =
        ChunkPayload.decode message.payload :=
      fun rest => ChunkPayload.decode_prefix (length ▸ whole) rest
    apply handleFileData_congr
    · simp only [List.length_append, List.length_drop, buffer, buffer']
    · rw [header, header]
    · rw [header]
      rcases Nat.le_total (ChunkPayload.sizeOf +
          (ChunkPayload.decode message.payload).claimedSize) messageSize with within | past
      · rw [Nat.min_eq_left within, ← length] at covered
        rw [slice_append_left covered, slice_append_left covered]
      · rw [Nat.min_eq_right past] at covered
        rw [List.drop_eq_nil_of_le (buffer.trans_le covered),
          List.drop_eq_nil_of_le (buffer'.trans_le covered)]

/-- **A complete message is handled by what it says alone.** -/
theorem Complete.handle_eq (complete : Complete message) (fits : message.size ≤ messageSize)
    (buffer : dataRead.length = messageSize) :
    handleWhole env calls store peers fdData message.info.type
        (splice 0 message.payload dataRead) =
      message.handle env calls store peers fdData := by
  have blank : (List.replicate messageSize (0 : UInt8)).length = messageSize :=
    List.length_replicate
  have length := message.length_payload
  simp only [Message.handle, handleWhole, splice_zero, length]
  split
  next isFileData =>
      rw [complete.handleFileData_eq isFileData buffer blank]
  next =>
      have decides := complete.decidesHandling env calls store peers fdData dataRead
        (List.replicate messageSize 0) buffer blank
      rwa [readMessage_eq fits buffer, readMessage_eq fits blank] at decides

end OneMessage

section Refinement

variable {env : Env} {fdData : ClientServer}

/-- A round that delivers a complete message runs its handler and leaves the rest of the
stream to the next ones. -/
theorem readWorker_deliver {arrival : Arrival} {rounds : List WorkerRound}
    {left : Store × Peers} {dataRead rest : Bytes} (complete : Complete arrival.message)
    (fits : arrival.message.size ≤ messageSize) (buffer : dataRead.length = messageSize) :
    readWorker env fdData (arrival.round :: rounds) left dataRead
        (arrival.message.frame ++ rest) = (do
      let left := arrival.meets left
      let handled ← arrival.message.handle env arrival.calls left.1 left.2 fdData
      if handled.ended then
        .ok { store := handled.store, peers := handled.peers, handled := [handled], ended := true }
      else do
        let run ← readWorker env fdData rounds (handled.store, handled.peers)
          (splice 0 arrival.message.payload dataRead) rest
        .ok (run.after handled)) := by
  have peeked : incomingMessageInfo arrival.round.reads.peek (arrival.message.frame ++ rest) =
      some arrival.message.info := by
    simp [incomingMessageInfo, Arrival.round, Message.reads, arrival.message.decode_frame]
  have received := arrival.message.receive_frame arrival.transfer.received dataRead rest
    (buffer ▸ fits)
  simp only [readWorker, peeked]
  simp only [Arrival.round]
  rw [received]
  simp only [Result.ok_bind, Option.getD_some, ne_eq, not_true_eq_false, if_false,
    complete.handle_eq fits buffer]

/-- **The worker refines its messages.**  For every sequence of complete messages that fit
the buffer, every split of their payloads, whatever the buffer held and whatever the other
threads do between the rounds: the worker handles the messages in order, each by what it
says alone, until a handler ends it, and otherwise goes on behind the last of them. -/
theorem readWorker_frames {arrivals : List Arrival} (rounds : List WorkerRound)
    (left : Store × Peers) (dataRead rest : Bytes)
    (complete : ∀ arrival ∈ arrivals, Complete arrival.message)
    (fits : ∀ arrival ∈ arrivals, arrival.message.size ≤ messageSize)
    (buffer : dataRead.length = messageSize) :
    ∃ remaining, remaining.length = messageSize ∧
      readWorker env fdData (arrivals.map Arrival.round ++ rounds) left dataRead
          (arrivalFrames arrivals ++ rest) = (do
        let run ← workOn env fdData arrivals left
        run.goesOn env fdData rounds remaining rest) := by
  induction arrivals generalizing left dataRead with
  | nil =>
      refine ⟨dataRead, buffer, ?_⟩
      simp only [workOn, WorkerRun.goesOn, Result.ok_bind, arrivalFrames, List.map_nil,
        List.nil_append, List.flatMap_nil, Bool.false_eq_true, if_false]
      cases readWorker env fdData rounds (left.1, left.2) dataRead rest <;> rfl
  | cons arrival arrivals ih =>
      have fitsFirst := fits arrival List.mem_cons_self
      have inside : 0 + arrival.message.payload.length ≤ dataRead.length := by
        rw [arrival.message.length_payload, buffer, Nat.zero_add]
        exact fitsFirst
      have kept : (splice 0 arrival.message.payload dataRead).length = messageSize :=
        (length_splice inside).trans buffer
      have frames : arrivalFrames (arrival :: arrivals) ++ rest =
          arrival.message.frame ++ (arrivalFrames arrivals ++ rest) := by
        rw [arrivalFrames, List.flatMap_cons, List.append_assoc]
        rfl
      rw [List.map_cons, List.cons_append, frames,
        readWorker_deliver (complete arrival List.mem_cons_self) fitsFirst buffer]
      simp only [workOn]
      cases handles : arrival.message.handle env arrival.calls (arrival.meets left).1
          (arrival.meets left).2 fdData with
      | error stop => exact ⟨dataRead, buffer, rfl⟩
      | ok handled =>
          simp only [Result.ok_bind]
          by_cases ended : handled.ended = true
          · refine ⟨dataRead, buffer, ?_⟩
            simp only [if_pos ended, Result.ok_bind, WorkerRun.goesOn, if_true]
          · simp only [if_neg ended]
            obtain ⟨remaining, length, same⟩ := ih (handled.store, handled.peers)
              (splice 0 arrival.message.payload dataRead)
              (fun other member => complete other (List.mem_cons_of_mem _ member))
              (fun other member => fits other (List.mem_cons_of_mem _ member)) kept
            refine ⟨remaining, length, ?_⟩
            rw [same]
            cases workOn env fdData arrivals (handled.store, handled.peers) with
            | error stop => rfl
            | ok run =>
                simp only [Result.ok_bind, WorkerRun.goesOn, WorkerRun.after]
                split
                · rfl
                · cases readWorker env fdData rounds (run.store, run.peers) remaining rest <;> rfl

/-- The peek fails, or the message cannot be received whole. -/
def WorkerRound.Fails (round : WorkerRound) (dataRead stream : Bytes) : Prop :=
  ∀ info, incomingMessageInfo round.reads.peek stream = some info →
    ∃ data stream', receiveMessage round.reads stream (some dataRead) info.size.toNat =
      .ok (failed, data, stream')

/-- A round that fails calls `remove_peer` and ends the worker. -/
theorem readWorker_fails {round : WorkerRound} {rounds : List WorkerRound}
    {left : Store × Peers} {dataRead stream : Bytes} (fails : round.Fails dataRead stream) :
    readWorker env fdData (round :: rounds) left dataRead stream =
      .ok (leaves fdData (round.meets left)) := by
  have unsuccessful : failed ≠ success := by decide
  simp only [readWorker]
  cases peeked : incomingMessageInfo round.reads.peek stream with
  | none => rfl
  | some info =>
      obtain ⟨data, stream', received⟩ := fails info peeked
      simp only [received, Result.ok_bind, ne_eq, unsuccessful, not_false_eq_true, if_true]

/-- What a worker leaves when its connection fails: if it has not ended before, it calls
`remove_peer` on the list that it then finds. -/
def WorkerRun.closed (fdData : ClientServer) (meets : Store × Peers → Store × Peers)
    (run : WorkerRun) : WorkerRun :=
  if run.ended then run
  else { leaves fdData (meets (run.store, run.peers)) with handled := run.handled }

/-- **A worker on a connection that fails.**  Complete messages that fit the buffer arrive,
split in any way, and behind the last of them the connection fails, in the middle of a
message or between two of them.  Whatever the buffer held and whatever the other threads do
between the rounds, the worker has handled just these messages, in order and each by what
it says alone, and then it has called `remove_peer` for the `int` behind its argument, which
may be no peer, unless a handler has ended it before; the rounds behind never run. -/
theorem readWorker_closes {arrivals : List Arrival} {last : WorkerRound}
    (rounds : List WorkerRound) (left : Store × Peers) (dataRead rest : Bytes)
    (complete : ∀ arrival ∈ arrivals, Complete arrival.message)
    (fits : ∀ arrival ∈ arrivals, arrival.message.size ≤ messageSize)
    (buffer : dataRead.length = messageSize)
    (fails : ∀ remaining, remaining.length = messageSize → last.Fails remaining rest) :
    readWorker env fdData (arrivals.map Arrival.round ++ last :: rounds) left dataRead
        (arrivalFrames arrivals ++ rest) = (do
      let run ← workOn env fdData arrivals left
      .ok (run.closed fdData last.meets)) := by
  obtain ⟨remaining, length, refined⟩ := @readWorker_frames env fdData arrivals
    (last :: rounds) left dataRead rest complete fits buffer
  rw [refined]
  cases workOn env fdData arrivals left with
  | error stop => rfl
  | ok run =>
      simp only [Result.ok_bind, WorkerRun.goesOn, WorkerRun.closed,
        readWorker_fails (fails remaining length)]
      split
      · rfl
      · simp only [leaves, List.append_nil]

end Refinement

namespace TfileDef

variable (tdef : TfileDef)

theorem length_bytes : tdef.bytes.length = sizeOf := by
  simp [bytes, sizeOf, List.length_flatMap, nameLen, numChunks]

/-- **A definition is read back as it was sent**, as long as its size is an `off_t`. -/
theorem decode_bytes (lower : -2 ^ 63 ≤ tdef.size) (upper : tdef.size < 2 ^ 63) (rest : Bytes) :
    decode (tdef.bytes ++ rest) = tdef := by
  have nameLength : tdef.name.toList.length = 32 := tdef.name.length_toList
  have hashLength : ∀ hash : Digest, (leBytes 16 hash.toNat).length = 16 :=
    fun hash => length_leBytes 16 hash.toNat
  have hashesLength : ((List.finRange numChunks).flatMap
      fun i => leBytes 16 (tdef.cHashes i).toNat).length = 128 := by
    simp [List.length_flatMap, numChunks]
  have parts : tdef.bytes ++ rest = tdef.name.toList ++ (leBytes 16 tdef.fHash.toNat ++
      ((List.finRange numChunks).flatMap (fun i => leBytes 16 (tdef.cHashes i).toNat) ++
        (leBytes 8 (tdef.size % 2 ^ 64).toNat ++ rest))) := by
    simp only [bytes, List.append_assoc]
  have name : ∀ i : Fin nameLen, (tdef.bytes ++ rest).getD i.val 0 = tdef.name[i] := by
    intro i
    have early : i.val < tdef.name.toList.length := nameLength ▸ i.isLt
    rw [parts, List.getD_eq_getElem?_getD, List.getElem?_append_left early]
    simp
  have fHash : slice 32 16 (tdef.bytes ++ rest) = leBytes 16 tdef.fHash.toNat := by
    rw [parts, slice_append_right nameLength 0, slice_front (hashLength _)]
  have cHashes : ∀ i : Fin numChunks, slice (48 + 16 * i.val) 16 (tdef.bytes ++ rest) =
      leBytes 16 (tdef.cHashes i).toNat := by
    intro i
    have inside : i.val < (List.finRange numChunks).length := by simp
    rw [parts, show 48 + 16 * i.val = 32 + (16 + 16 * i.val) by ring,
      slice_append_right nameLength, slice_append_right (hashLength _),
      slice_flatMap (fun i => hashLength (tdef.cHashes i)) _ inside]
    simp
  have size : slice 176 8 (tdef.bytes ++ rest) = leBytes 8 (tdef.size % 2 ^ 64).toNat := by
    rw [parts, slice_append_right nameLength 144, slice_append_right (hashLength _) 128,
      slice_append_right hashesLength 0, slice_front (length_leBytes _ _)]
  have read : ∀ hash : Digest, BitVec.ofNat 128 (leNat (leBytes 16 hash.toNat)) = hash := by
    intro hash
    rw [leNat_leBytes (by simpa using hash.isLt), BitVec.ofNat_toNat, BitVec.setWidth_eq]
  have sizeRead : (BitVec.ofNat 64 (leNat (leBytes 8 (tdef.size % 2 ^ 64).toNat))).toInt =
      tdef.size := by
    rw [leNat_leBytes (by omega), BitVec.toInt_ofNat', Int.toNat_of_nonneg (by omega),
      Int.bmod_def]
    push_cast
    split <;> omega
  have names : Vector.ofFn (fun i : Fin nameLen => tdef.name[i]) = tdef.name := by
    apply Vector.ext
    intro i inside
    rw [Vector.getElem_ofFn]
    rfl
  simp only [decode, name, fHash, cHashes, size, read, sizeRead, names]

end TfileDef

end Grintorrent
