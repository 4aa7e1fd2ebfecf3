import Grintorrent.Client.Handling
import Grintorrent.Client.FileData
import Grintorrent.Message.Framing

/-!
# The read buffer

`readWorker` passes the size in the header of a message, and not the length of its
buffer, to `receive_message`.  So a message keeps to the buffer exactly if it is not
longer than the buffer; the `FILE_DATA` message for a chunk is longer as soon as the
chunk leaves no room for its header.
-/

namespace Grintorrent

open Lib

/-- The counts that successive calls of `read` can return when each is asked for what
is left of `remaining` bytes.  Nothing is said about calls after one that failed. -/
def Readable : (remaining : Nat) → List Int → Prop
  | _, [] => True
  | remaining, rc :: counts =>
      rc ≤ remaining ∧ (0 < rc → Readable (remaining - rc.toNat) counts)

/-- However the bytes of the message arrive, one round of the read loop of `readWorker`
stores none outside its buffer. -/
def KeepsToBuffer (message : Message) : Prop :=
  ∀ (reads : Reads) (dataRead rest : Bytes), dataRead.length = messageSize →
    Readable message.size reads.payload →
    receiveLoop [reads] dataRead (message.frame ++ rest) ≠ .error .outOfRange

theorem receivePayload_inside {size bytesRead : Nat} {counts : List Int} {data stream : Bytes}
    (readable : Readable (size - bytesRead) counts) (fits : size ≤ data.length) :
    receivePayload size counts data bytesRead stream ≠ .error .outOfRange := by
  induction counts generalizing bytesRead data stream with
  | nil =>
      simp only [receivePayload]
      split <;> simp
  | cons rc counts ih =>
      obtain ⟨bounded, later⟩ := readable
      simp only [receivePayload]
      split
      next unfinished =>
          split
          next => simp
          next advances =>
              have inside : bytesRead + rc.toNat ≤ data.length := by omega
              have short : (stream.take rc.toNat).length ≤ rc.toNat := by simp
              rw [if_neg (by omega)]
              apply ih
              · rw [← Nat.sub_sub]
                exact later (by omega)
              · rw [length_splice (by omega)]
                exact fits
      next => simp

theorem discardExtra_inside (extraData : Int) (counts : List Int) (bytesDiscarded : Int)
    (stream : Bytes) :
    discardExtra extraData counts bytesDiscarded stream ≠ .error .outOfRange := by
  induction counts generalizing bytesDiscarded stream with
  | nil =>
      simp only [discardExtra]
      split <;> simp
  | cons rc counts ih =>
      simp only [discardExtra]
      split
      next => exact ih _ _
      next => simp

namespace Message

variable {message : Message} {reads : Reads} {dataRead rest : Bytes}

theorem receiveMessage_inside (fits : message.size ≤ dataRead.length)
    (readable : Readable message.size reads.payload) :
    receiveMessage reads (message.frame ++ rest) (some dataRead) message.info.size.toNat ≠
      .error .outOfRange := by
  have inside := @receivePayload_inside message.size 0 reads.payload dataRead
    ((message.frame ++ rest).drop reads.header.toNat) readable fits
  simp only [receiveMessage, message.decode_frame, Option.isNone_some, Bool.false_eq_true,
    if_false, Nat.min_self, Option.getD_some]
  split
  next => simp
  next =>
      rw [show message.info.size.toNat = message.size from rfl]
      cases received : receivePayload message.size reads.payload dataRead 0
          ((message.frame ++ rest).drop reads.header.toNat) with
      | error stop =>
          rw [received] at inside
          simpa using inside
      | ok result =>
          obtain ⟨result, stream⟩ := result
          cases result with
          | none => simp
          | some result =>
              simp only [Result.ok_bind]
              split
              next => simp
              next =>
                  have discards := discardExtra_inside
                    ((message.size - result.2 : Int).bmod (2 ^ 64)) reads.discarded 0 stream
                  cases discarded : discardExtra
                      ((message.size - result.2 : Int).bmod (2 ^ 64)) reads.discarded 0
                      stream with
                  | error stop =>
                      rw [discarded] at discards
                      simpa using discards
                  | ok stream => simp

theorem keepsToBuffer_of_fits (fits : message.size ≤ messageSize) :
    KeepsToBuffer message := by
  intro reads dataRead rest buffer readable
  have inside := @receiveMessage_inside message reads dataRead rest (buffer ▸ fits) readable
  simp only [receiveLoop, incomingMessageInfo]
  split
  next => simp
  next info peeked =>
      have same : info = message.info := by
        split at peeked
        next => simp at peeked
        next =>
            rw [message.decode_frame, Option.some.injEq] at peeked
            exact peeked.symm
      rw [same]
      cases received : receiveMessage reads (message.frame ++ rest) (some dataRead)
          message.info.size.toNat with
      | error stop =>
          rw [received] at inside
          simpa using inside
      | ok result =>
          simp only [Result.ok_bind]
          split <;> simp

/-- One `read` that returns a byte more than the buffer holds. -/
def overrun : Reads where
  peek := MessageInfo.sizeOf
  header := MessageInfo.sizeOf
  payload := [messageSize + 1]
  discarded := []

theorem overruns (long : messageSize < message.size) (buffer : dataRead.length = messageSize) :
    receiveLoop [overrun] dataRead (message.frame ++ rest) = .error .outOfRange := by
  have unfinished : 0 < message.info.size.toNat := Nat.zero_lt_of_lt long
  have advances : ¬((messageSize : Int) + 1 ≤ 0) := by omega
  have outside : dataRead.length < 0 + ((messageSize : Int) + 1).toNat := by omega
  have stored : receivePayload message.info.size.toNat overrun.payload dataRead 0
      ((message.frame ++ rest).drop overrun.header.toNat) = .error .outOfRange := by
    simp only [overrun, receivePayload, if_pos unfinished, if_neg advances, if_pos outside]
  have header : overrun.header = MessageInfo.sizeOf := rfl
  have peek : overrun.peek = MessageInfo.sizeOf := rfl
  simp only [receiveLoop, incomingMessageInfo, peek, ne_eq, not_true_eq_false, if_false,
    message.decode_frame, receiveMessage, header, Option.isNone_some, Bool.false_eq_true,
    Nat.min_self, Option.getD_some]
  rw [← header, stored]
  rfl

theorem keepsToBuffer_iff : KeepsToBuffer message ↔ message.size ≤ messageSize := by
  constructor
  · intro keeps
    by_contra long
    have readable : Readable message.size overrun.payload :=
      ⟨by simp only [messageSize] at long ⊢; omega, fun _ => trivial⟩
    apply keeps overrun (List.replicate messageSize 0) [] List.length_replicate readable
    exact overruns (by omega) List.length_replicate
  · exact keepsToBuffer_of_fits

end Message

/-! ## Chunk messages -/

theorem length_readMapped {env : Env} {os : Os} {mapping : Mapping} {offset : Int} {size : Nat}
    {data : Bytes} (read : os.readMapped env mapping offset size = .ok data) :
    data.length = size := by
  simp only [Os.readMapped] at read
  split at read
  next => simp at read
  next content file =>
      split at read
      next inside =>
          have within := env.le_pageEnd content.length
          rw [← Except.ok.inj read, Int.toNat_natCast]
          apply length_slice
          rw [List.length_append, Os.length_lastPage]
          omega
      next => simp at read

theorem sendChunkMessage_some {env : Env} {store after : Store} {hash : Digest} {index size : Nat}
    {tf : Tfile} {i : Fin numChunks} {payload : Bytes}
    (found : lookupTfile store.ht hash = .ok (some (index, tf))) (sized : tf.tdef.size = size)
    (sent : sendChunkMessage env store hash i.val = .ok (some payload, after)) :
    ∃ chunk, chunk.length = chunkLen size i ∧ payload = chunkMessage hash i chunk := by
  obtain ⟨result, opened, nothing | ⟨location, chunkSize, chunk, rfl, read, built⟩⟩ :=
    sendChunkMessage_cases sent
  · simp at nothing
  obtain ⟨_, entry, mapping, lookup, _, _, pointed, _⟩ := openTfile_some opened
  obtain rfl : tf = entry := by
    rw [found] at lookup
    simp only [Except.ok.injEq, Option.some.injEq, Prod.mk.injEq] at lookup
    exact lookup.2
  rw [sized, chunkLocation_eq, Prod.mk.injEq] at pointed
  obtain ⟨rfl, rfl⟩ := pointed
  have length : chunk.length = chunkLen size i := length_readMapped read
  refine ⟨chunk, length, ?_⟩
  rw [Option.some.inj built, chunkMessage, length, BitVec.ofInt_natCast, BitVec.ofInt_natCast]

theorem length_sendChunkMessage {env : Env} {store after : Store} {hash : Digest} {index size : Nat}
    {tf : Tfile} {i : Fin numChunks} {payload : Bytes}
    (found : lookupTfile store.ht hash = .ok (some (index, tf))) (sized : tf.tdef.size = size)
    (sent : sendChunkMessage env store hash i.val = .ok (some payload, after)) :
    payload.length = ChunkPayload.sizeOf + chunkLen size i := by
  obtain ⟨chunk, length, rfl⟩ := sendChunkMessage_some found sized sent
  rw [length_chunkMessage, length]

/-- `send_chunk_message` of some client builds the message for a chunk of a file with
this content, of which `generate_tfile` of some client made the definition. -/
def IsChunkMessage (content : Bytes) (i : Fin numChunks) (message : Message) : Prop :=
  ∃ (maker env : Env) (fuel : Nat) (origin stored sender after : Store)
    (scratch tdef : TfileDef) (path : Path) (name : Vector UInt8 nameLen)
    (index : Nat) (tf : Tfile) (payload : Bytes),
    origin.os.files path = some content ∧
    generateTfile maker fuel origin scratch path name = .ok (0, tdef, stored) ∧
    lookupTfile sender.ht tdef.fHash = .ok (some (index, tf)) ∧ tf.tdef = tdef ∧
    sendChunkMessage env sender tdef.fHash i.val = .ok (some payload, after) ∧
    message.info.type = fileData ∧ message.data = some payload

theorem IsChunkMessage.size_eq {content : Bytes} {i : Fin numChunks} {message : Message}
    (built : IsChunkMessage content i message) :
    message.size = ChunkPayload.sizeOf + chunkLen content.length i := by
  obtain ⟨maker, env, fuel, origin, stored, sender, after, scratch, tdef, path, name, index, tf,
    payload, file, generated, found, same, sent, -, data⟩ := built
  obtain ⟨original, isFile, -, counts, definition⟩ := generateTfile_definition generated
  obtain rfl : content = original := Option.some.inj (file.symm.trans isFile)
  have sized : tf.tdef.size = content.length := by
    rw [same, definition, definitionOf_size]
  have length := length_sendChunkMessage found sized sent
  have recorded := message.length_payload
  rw [Message.payload, data, Option.getD_some] at recorded
  rw [← recorded, length]

/-- **Overrun of the read buffer.**  A message is stored inside the buffer exactly if it
has at most as many bytes, and the message for a chunk of a file exactly if header and
chunk have. -/
theorem readBuffer_overrun_iff (message : Message) :
    (KeepsToBuffer message ↔ message.size ≤ messageSize) ∧
      ∀ content i, IsChunkMessage content i message →
        (KeepsToBuffer message ↔
          ChunkPayload.sizeOf + chunkLen content.length i ≤ messageSize) := by
  constructor
  · exact Message.keepsToBuffer_iff
  · intro content i built
    rw [Message.keepsToBuffer_iff, built.size_eq]

/-- The message that carries a payload. -/
def Message.ofPayload (payload : Bytes) (small : payload.length < 2 ^ 64) : Message where
  info := ⟨fileData, BitVec.ofNat 64 payload.length⟩
  padding := Vector.replicate 7 0
  data := some payload
  sized := by
    rw [Option.getD_some, BitVec.toNat_ofNat, Nat.mod_eq_of_lt small]

/-- A client with one file, after it has generated the definition. -/
def generatedStore (env : Env) (content : Bytes) : Store where
  ht := (initHtable.fill (homeIndex startingCapacity (words (env.md5 content)))
    (definitionOf env sampleName content)).setLocations
      (homeIndex startingCapacity (words (env.md5 content))) (some samplePath) none
  os := (sampleStore content).os

section GeneratedStore

variable {env : Env} {content : Bytes}

theorem generatedStore_generated (opens : env.openOk 0 samplePath = true)
    (admitted : 256 ≤ content.length) (counts : content.length < 2 ^ 44) :
    generateTfile env 1 (sampleStore content) .zero samplePath sampleName =
      .ok (0, definitionOf env sampleName content, generatedStore env content) := by
  rw [generateTfile_eq (sampleStore_file content) opens admitted counts]
  simp only [sampleStore, Htable.search_init, Result.ok_bind, Option.isSome_none,
    Bool.false_eq_true, if_false, addHtable_init]
  rfl

theorem generatedStore_copy (nonzero : env.md5 content ≠ 0) :
    Copy (generatedStore env content) (definitionOf env sampleName content)
      ⟨definitionOf env sampleName content, some samplePath, none⟩ (some content) where
  found :=
    have first := @lookupTfile_first (definitionOf env sampleName content) nonzero
    ⟨_, lookupTfile_setLocations first (some samplePath) none⟩
  same := rfl
  file := sampleStore_file content
  sized := by
    rintro bytes ⟨⟩
    rfl
  mapped := by simp

end GeneratedStore

/-- An environment that refuses nothing here lets a client generate the definition of its one
file and send any chunk of it. -/
theorem exists_chunkMessage {env : Env} {content : Bytes} (i : Fin numChunks)
    (opens : env.createOk 0 samplePath = true)
    (maps : ∀ size, env.mmapOk size = true) (allocates : ∀ size, env.mallocOk size = true)
    (nonzero : env.md5 content ≠ 0) (admitted : 256 ≤ content.length)
    (counts : content.length < 2 ^ 44) (nonempty : 0 < chunkLen content.length i) :
    ∃ message, IsChunkMessage content i message := by
  have made := generatedStore_generated (env.readable opens) admitted counts
  have copy := generatedStore_copy nonzero
  have reachable : Reachable env (generatedStore env content)
      ⟨definitionOf env sampleName content, some samplePath, none⟩ := by
    refine fun _ => ⟨opens, maps _, fun missing => ?_⟩
    rw [copy.file] at missing
    simp at missing
  obtain ⟨_, after, sent, _⟩ := copy.send_eq reachable (definitionOf_size _ _ _)
    (by omega) (by omega) i
  rw [if_pos ⟨nonempty, allocates _⟩] at sent
  obtain ⟨index, found⟩ := copy.found
  have length := length_sendChunkMessage found (definitionOf_size _ _ _) sent
  have inside := chunk_inside content.length i
  have small : (chunkMessage (definitionOf env sampleName content).fHash i
      (chunkOf content i)).length < 2 ^ 64 := by
    rw [length, ChunkPayload.sizeOf]
    omega
  exact ⟨.ofPayload _ small, env, env, 1, sampleStore content, _, _, after, .zero, _, samplePath,
    sampleName, index, _, _, sampleStore_file content, made, found, rfl, sent, rfl,
    rfl⟩

/-- The first chunk of a file of 256 bytes. -/
theorem readBuffer_overrun_iff_small :
    ∃ message, IsChunkMessage sampleContent 0 message ∧ KeepsToBuffer message := by
  have nonempty : 0 < chunkLen sampleContent.length 0 := by
    rw [length_sampleContent]
    decide
  obtain ⟨message, built⟩ := exists_chunkMessage 0 rfl (fun _ => rfl) (fun _ => rfl)
    (sampleEnv_md5_ne_zero sampleContent) length_sampleContent.ge sampleContent_counts nonempty
  refine ⟨message, built, ((readBuffer_overrun_iff message).2 sampleContent 0 built).mpr ?_⟩
  rw [length_sampleContent]
  decide

/-- A file of 800000 bytes. -/
@[irreducible] def largeContent : Bytes := List.replicate 800000 0

theorem length_largeContent : largeContent.length = 800000 := by
  rw [largeContent, List.length_replicate]

/-- A digest that is MD5 on `largeContent` and its chunks. -/
def largeMd5 (bytes : Bytes) : Digest :=
  if bytes = List.replicate 800000 0 then 0x8e628dc1a87d553cfae22f00d30f6bd9
  else if bytes = List.replicate 100000 0 then 0x6f7f00d7111289a136a156ef3bd21900
  else 1

def largeEnv : Env :=
  { sampleEnv with
    md5Final := largeMd5
    md5 := largeMd5
    md5_blocks := by
      intro blocks
      change largeMd5 (blocks.foldl (fun c bytes => c ++ bytes) []) = _
      rw [List.foldl_append_eq_append, List.nil_append, List.map_id'] }

theorem largeEnv_md5_ne_zero (bytes : Bytes) : largeEnv.md5 bytes ≠ 0 := by
  simp only [largeEnv, largeMd5]
  split
  · decide
  · split <;> decide

/-- The message for the first chunk of `largeContent` has 100024 bytes. -/
theorem largeChunk_overruns :
    ∃ message, IsChunkMessage largeContent 0 message ∧ ¬KeepsToBuffer message := by
  have nonempty : 0 < chunkLen largeContent.length 0 := by
    rw [length_largeContent]
    decide
  have counts : largeContent.length < 2 ^ 44 := by
    rw [length_largeContent]
    decide
  have admitted : 256 ≤ largeContent.length := by
    rw [length_largeContent]
    decide
  obtain ⟨message, built⟩ := exists_chunkMessage 0 rfl (fun _ => rfl) (fun _ => rfl)
    (largeEnv_md5_ne_zero largeContent) admitted counts nonempty
  refine ⟨message, built, ?_⟩
  rw [Message.keepsToBuffer_iff, built.size_eq, length_largeContent]
  decide

/-! ## The size field -/

theorem chunkLen_lt_iff (size : Nat) (i : Fin numChunks) :
    chunkLen size i < 2 ^ 32 ↔ size / 8 + (if i.val = 7 then size % 8 else 0) < 2 ^ 32 := by
  have tiles := Nat.div_add_mod size 8
  simp only [chunkLen, numChunks]
  split <;> omega

/-- **Sender and receiver agree on the chunk size exactly while the chunk is shorter
than `2 ^ 32` bytes.**  What follows the payload in the receiver's buffer does not
matter. -/
theorem chunkSize_agrees_iff {sending receiving : Env} {sender receiver after after' : Store}
    {hash : Digest} {index index' size : Nat} {tf tf' : Tfile} {i : Fin numChunks}
    {payload rest : Bytes} {hdr : ChunkPayload} {location : Location} {expected : Int}
    (found : lookupTfile sender.ht hash = .ok (some (index, tf)))
    (held : lookupTfile receiver.ht hash = .ok (some (index', tf')))
    (same : tf'.tdef = tf.tdef) (sized : tf.tdef.size = size)
    (sent : sendChunkMessage sending sender hash i.val = .ok (some payload, after))
    (isHeader : ChunkPayload.decode (payload ++ rest) = hdr)
    (opened : openTfile receiving receiver hdr.fileHash hdr.chunkIndex.toInt =
      .ok (some (location, expected), after')) :
    ((ntohl hdr.chunkSize).toNat = expected ∧
        (ntohl hdr.chunkSize).toNat = (payload.drop ChunkPayload.sizeOf).length) ↔
      size / 8 + (if i.val = 7 then size % 8 else 0) < 2 ^ 32 := by
  obtain ⟨chunk, length, rfl⟩ := sendChunkMessage_some found sized sent
  rw [decode_chunkMessage] at isHeader
  subst isHeader
  simp only [chunkIndex_toInt] at opened
  obtain ⟨_, entry, mapping, lookup, _, _, pointed, _⟩ := openTfile_some opened
  obtain rfl : tf' = entry := by
    rw [held] at lookup
    simp only [Except.ok.injEq, Option.some.injEq, Prod.mk.injEq] at lookup
    exact lookup.2
  rw [same, sized, chunkLocation_eq, Prod.mk.injEq] at pointed
  rw [pointed.2, List.length_drop, length_chunkMessage, Nat.add_sub_cancel_left, length,
    ntohl_htonl, BitVec.toNat_ofNat, ← chunkLen_lt_iff]
  constructor
  · rintro ⟨_, exact⟩
    rw [← exact]
    exact Nat.mod_lt _ (by decide)
  · intro fits
    rw [Nat.mod_eq_of_lt fits]
    exact ⟨rfl, rfl⟩

theorem generatedStore_sends {content : Bytes} (i : Fin numChunks)
    (nonempty : 0 < chunkLen content.length i) (offT : content.length < 2 ^ 63) :
    ∃ index tf location after after',
      lookupTfile (generatedStore sampleEnv content).ht (sampleEnv.md5 content) =
        .ok (some (index, tf)) ∧
      tf.tdef.size = content.length ∧
      sendChunkMessage sampleEnv (generatedStore sampleEnv content) (sampleEnv.md5 content)
        i.val = .ok (some (chunkMessage (sampleEnv.md5 content) i (chunkOf content i)), after) ∧
      openTfile sampleEnv (generatedStore sampleEnv content) (sampleEnv.md5 content) i.val =
        .ok (some (location, (chunkLen content.length i : Int)), after') := by
  have inside := chunk_inside content.length i
  have copy := generatedStore_copy (sampleEnv_md5_ne_zero content)
  obtain ⟨index, found⟩ := copy.found
  have named : samplePath ≠ [] := by decide
  obtain ⟨_, after, sent, _⟩ := copy.send_eq (sampleEnv_reachable _ named)
    (definitionOf_size _ _ _) (by omega) offT i
  obtain ⟨mapping, _, after', opened, _⟩ := copy.open (sampleEnv_reachable _ named)
    (definitionOf_size _ _ _) (by omega) offT i
  rw [if_pos ⟨nonempty, rfl⟩] at sent
  exact ⟨index, _, _, after, after', found, rfl, sent, opened⟩

theorem chunkSize_agrees_small :
    ∃ payload after,
      sendChunkMessage sampleEnv (generatedStore sampleEnv sampleContent)
        (sampleEnv.md5 sampleContent) 7 = .ok (some payload, after) ∧
      (ntohl (ChunkPayload.decode payload).chunkSize).toNat =
        (payload.drop ChunkPayload.sizeOf).length := by
  have nonempty : 0 < chunkLen sampleContent.length 7 := by
    rw [length_sampleContent]
    decide
  have offT : sampleContent.length < 2 ^ 63 := by
    rw [length_sampleContent]
    decide
  obtain ⟨index, tf, location, after, after', found, sized, sent, opened⟩ :=
    generatedStore_sends 7 nonempty offT
  have isHeader := decode_chunkMessage (sampleEnv.md5 sampleContent) 7
    (chunkOf sampleContent 7) []
  rw [← chunkIndex_toInt 7] at opened
  have agrees := (chunkSize_agrees_iff found found rfl sized sent isHeader opened).mpr (by
    rw [length_sampleContent]
    decide)
  rw [List.append_nil] at isHeader
  refine ⟨_, after, sent, ?_⟩
  rw [isHeader]
  exact agrees.2

/-- A file of thirty-two gibibytes. -/
def wideContent : Bytes := List.replicate (2 ^ 35) 0

/-- Each of its chunks is sent with a size of zero. -/
theorem chunkSize_wide_fails :
    ∃ payload location after after',
      sendChunkMessage sampleEnv (generatedStore sampleEnv wideContent)
        (sampleEnv.md5 wideContent) 0 = .ok (some payload, after) ∧
      openTfile sampleEnv (generatedStore sampleEnv wideContent)
        (ChunkPayload.decode payload).fileHash
        (ChunkPayload.decode payload).chunkIndex.toInt =
          .ok (some (location, 2 ^ 32), after') ∧
      (payload.drop ChunkPayload.sizeOf).length = 2 ^ 32 ∧
      (ntohl (ChunkPayload.decode payload).chunkSize).toNat = 0 := by
  have length : wideContent.length = 2 ^ 35 := List.length_replicate
  have chunk : chunkLen wideContent.length 0 = 2 ^ 32 := by
    rw [length]
    decide
  obtain ⟨index, tf, location, after, after', found, sized, sent, opened⟩ :=
    @generatedStore_sends wideContent 0 (by omega) (by omega)
  have isHeader := decode_chunkMessage (sampleEnv.md5 wideContent) 0
    (chunkOf wideContent 0) []
  rw [List.append_nil] at isHeader
  refine ⟨_, location, after, after', sent, ?_, ?_, ?_⟩
  · rw [isHeader, chunkIndex_toInt, opened, chunk]
    rfl
  · rw [List.length_drop, length_chunkMessage, Nat.add_sub_cancel_left, length_chunkOf, chunk]
  · rw [isHeader, ntohl_htonl, BitVec.toNat_ofNat, length_chunkOf, chunk, Nat.mod_self]

end Grintorrent
