import Grintorrent.Client.Downloading
import Grintorrent.Request.Basic

/-!
# A download from one complete peer

The requests of a round reach a peer as messages; its `readWorker` decodes them, verifies
its copy and sends each chunk asked for to the return address.  A peer with the complete
file that is listed during one round therefore ends the download at the next one.
-/

namespace Grintorrent

open Lib

/-- A client that requests arrive at, with the `readWorker` of the connection they come on. -/
structure Seeder where
  env : Env
  store : Store
  calls : Calls
  peers : Peers
  fdData : ClientServer
  dataRead : Bytes

/-- A `readWorker` receives these requests one after the other: what it sends, and the state it
leaves. -/
def serveRequests (env : Env) (calls : Calls) (peers : Peers) (fdData : ClientServer) :
    (requests : List Bytes) → (dataRead : Bytes) → (store : Store) →
      Result (List Sent × Store)
  | [], _, store => .ok ([], store)
  | payload :: requests, dataRead, store => do
      let dataRead ← receiveInto dataRead payload
      let handled ← handleMessage env calls store peers fdData requestFileData dataRead
      let (sent, store) ← serveRequests env calls peers fdData requests dataRead handled.store
      .ok (handled.sent ++ sent, store)

namespace Seeder

/-- What the client sends when these requests arrive. -/
def answers (seeder : Seeder) (padding : Vector UInt8 3) (requests : List ChunkRequest) :
    Result (List Sent × Store) :=
  serveRequests seeder.env seeder.calls seeder.peers seeder.fdData
    (requests.map fun req => req.bytes padding) seeder.dataRead seeder.store

/-- The client has the whole file and a path for it, has mapped it or can open and map it, and
gets on with sending it. -/
structure Holds (seeder : Seeder) (tdef : TfileDef) (original : Bytes) (tempPort : BitVec 16) :
    Prop where
  copy : ∃ tf, Copy seeder.store tdef tf (some original) ∧
    ¬(tf.mLocation = none ∧ tf.fLocation = none) ∧
    (tf.mLocation = none → Serves seeder.env tf.home original.length (seeder.store.os.openFds + 1))
  complete : seeder.env.md5 original = tdef.fHash
  connects : seeder.calls.connects (sockaddrIn tempPort inaddrAny) 16 = true
  allocates : ∀ i, seeder.env.mallocOk (ChunkPayload.sizeOf + chunkLen original.length i) = true
  buffer : seeder.dataRead.length = messageSize

end Seeder

variable {env : Env} {store : Store} {tdef : TfileDef} {tf : Tfile} {original : Bytes}
variable {locals : VerifyLocals} {tempPort : BitVec 16} {i : Fin numChunks}
variable {calls : Calls} {peers : Peers} {fdData : ClientServer} {dataRead : Bytes}
variable {padding : Vector UInt8 3} {requests : List ChunkRequest}

theorem Copy.answer (copy : Copy store tdef tf (some original))
    (located : ¬(tf.mLocation = none ∧ tf.fLocation = none))
    (reaches : tf.mLocation = none → Serves env tf.home original.length (store.os.openFds + 1))
    (counts : original.length < 2 ^ 44)
    (complete : env.md5 original = tdef.fHash) (nonempty : 0 < chunkLen original.length i)
    (allocates : env.mallocOk (ChunkPayload.sizeOf + chunkLen original.length i) = true) :
    ∃ tf' after,
      handleRequest env store (.forDownload tdef.fHash i tempPort) locals true =
        .ok (.chunk (chunkMessage tdef.fHash i (chunkOf original i)), after) ∧
      Copy after tdef tf' (some original) ∧ tf'.home = tf.home ∧ tf'.mLocation ≠ none := by
  have sized : tdef.size = original.length := copy.sized rfl
  obtain ⟨verified, returned, copied, kept⟩ := copy.verified (by omega)
    (fun notMapped => (reaches notMapped).reads (Nat.le_succ _)) locals
  have leaked := openFds_of_leak kept
  have within := chunk_inside original.length i
  have whole : report env tf (some original) = verifiedFile := by
    rw [report, if_neg located, copy.same]
    exact verdict_eq_verifiedFile.mpr (.inl complete)
  have reachable : Reachable env verified tf := by
    intro notMapped
    rw [copied.same, sized, copied.file]
    exact ⟨(reaches notMapped).opens _ leaked.2, (reaches notMapped).maps, by simp⟩
  obtain ⟨opened, after, sent, home, isMapped, stored, _⟩ :=
    copied.send_eq reachable sized (by omega) (by omega) i
  rw [if_pos ⟨nonempty, allocates⟩] at sent
  refine ⟨opened, after, ?_, stored, home, isMapped⟩
  have isHash : (ChunkRequest.forDownload tdef.fHash i tempPort).fileHash = tdef.fHash := rfl
  have isIndex : (ChunkRequest.forDownload tdef.fHash i tempPort).chunkIndex.toInt = i.val :=
    chunkIndex_toInt i
  simp only [handleRequest, isHash, isIndex, returned, Result.ok_bind, whole,
    isChunkVerified_verifiedFile, if_true, sent]

/-- What the client sends to answer the request for a chunk. -/
def chunkAnswer (fileHash : Digest) (original : Bytes) (tempPort : BitVec 16)
    (i : Fin numChunks) : Sent :=
  .chunk (sockaddrIn tempPort inaddrAny) 16 (chunkMessage fileHash i (chunkOf original i))

theorem Copy.handlesRequest (copy : Copy store tdef tf (some original))
    (located : ¬(tf.mLocation = none ∧ tf.fLocation = none))
    (reaches : tf.mLocation = none → Serves env tf.home original.length (store.os.openFds + 1))
    (counts : original.length < 2 ^ 44)
    (complete : env.md5 original = tdef.fHash) (nonempty : 0 < chunkLen original.length i)
    (allocates : env.mallocOk (ChunkPayload.sizeOf + chunkLen original.length i) = true)
    (connects : calls.connects (sockaddrIn tempPort inaddrAny) 16 = true) (peers : Peers)
    (fdData : ClientServer) (padding : Vector UInt8 3) (rest : Bytes) :
    ∃ tf' after,
      handleMessage env calls store peers fdData requestFileData
          ((ChunkRequest.forDownload tdef.fHash i tempPort).bytes padding ++ rest) =
        .ok
          { store := after
            peers
            connect := some (sockaddrIn tempPort inaddrAny, 16)
            sent := [chunkAnswer tdef.fHash original tempPort i] } ∧
      Copy after tdef tf' (some original) ∧ tf'.home = tf.home ∧ tf'.mLocation ≠ none := by
  obtain ⟨tf', after, answered, copied, home, isMapped⟩ := @Copy.answer _ _ _ _ _ calls.locals
    tempPort i copy located reaches counts complete nonempty allocates
  have address : (ChunkRequest.forDownload tdef.fHash i tempPort).returnAddr =
      sockaddrIn tempPort inaddrAny := rfl
  have addressLen : (ChunkRequest.forDownload tdef.fHash i tempPort).returnAddrLen = 16 := rfl
  refine ⟨tf', after, ?_, copied, home, isMapped⟩
  rw [handle_requestFileData]
  simp only [ChunkRequest.decode_bytes ChunkRequest.length_returnAddr, address, addressLen,
    connects, answered, Result.ok_bind]
  rfl

/-- **All requests are answered**: each with the chunk that it asks for, to the address that
the downloading client has put into it, and with nothing else. -/
theorem serveRequests_complete (copy : Copy store tdef tf (some original))
    (located : ¬(tf.mLocation = none ∧ tf.fLocation = none))
    (reaches : tf.mLocation = none → Serves env tf.home original.length (store.os.openFds + 1))
    (counts : original.length < 2 ^ 44)
    (complete : env.md5 original = tdef.fHash)
    (nonempty : ∀ i, 0 < chunkLen original.length i)
    (allocates : ∀ i, env.mallocOk (ChunkPayload.sizeOf + chunkLen original.length i) = true)
    (connects : calls.connects (sockaddrIn tempPort inaddrAny) 16 = true)
    (buffer : dataRead.length = messageSize) (indexes : List (Fin numChunks)) :
    ∃ after, serveRequests env calls peers fdData
      (indexes.map fun i => (ChunkRequest.forDownload tdef.fHash i tempPort).bytes padding)
      dataRead store = .ok (indexes.map (chunkAnswer tdef.fHash original tempPort), after) := by
  induction indexes generalizing store tf dataRead with
  | nil => exact ⟨store, rfl⟩
  | cons i indexes ih =>
      have size : ((ChunkRequest.forDownload tdef.fHash i tempPort).bytes padding).length = 44 :=
        ChunkRequest.length_bytes
      have received := @receiveInto_eq dataRead
        ((ChunkRequest.forDownload tdef.fHash i tempPort).bytes padding)
        (by rw [size, buffer]; decide)
      obtain ⟨tf', after, handles, copied, home, isMapped⟩ :=
        copy.handlesRequest located reaches counts complete (nonempty i) (allocates i) connects
          peers fdData padding (dataRead.drop
            ((ChunkRequest.forDownload tdef.fHash i tempPort).bytes padding).length)
      obtain ⟨final, rest⟩ := @ih _ _
        ((ChunkRequest.forDownload tdef.fHash i tempPort).bytes padding ++ dataRead.drop
          ((ChunkRequest.forDownload tdef.fHash i tempPort).bytes padding).length)
        copied (fun unlocated => isMapped unlocated.1) (fun notMapped => absurd notMapped isMapped)
        (by
          rw [List.length_append, List.length_drop, size, buffer]
          rfl)
      refine ⟨final, ?_⟩
      simp only [List.map_cons, serveRequests, received, Result.ok_bind, handles, rest]
      rfl

theorem Seeder.Holds.answers_eq {seeder : Seeder} (holds : seeder.Holds tdef original tempPort)
    (admitted : minSize ≤ original.length) (counts : original.length < 2 ^ 44)
    (padding : Vector UInt8 3) (indexes : List (Fin numChunks)) :
    ∃ after, seeder.answers padding
        (indexes.map fun i => .forDownload tdef.fHash i tempPort) =
      .ok (indexes.map (chunkAnswer tdef.fHash original tempPort), after) := by
  obtain ⟨tf, copy, located, reaches⟩ := holds.copy
  obtain ⟨after, served⟩ := @serveRequests_complete _ _ _ _ _ tempPort seeder.calls seeder.peers
    seeder.fdData seeder.dataRead padding copy located reaches counts holds.complete
    (chunkLen_pos admitted) holds.allocates holds.connects holds.buffer indexes
  refine ⟨after, ?_⟩
  rw [Seeder.answers, List.map_map]
  exact served

/-- The requests that a round sends to one peer are for chunks that are not verified, and all
of these are among them if the peer is listed. -/
theorem requestsOf_to (fileHash : Digest) (chunks : VerifiedChunks)
    (found : Fin numChunks → Peers) (fd : Fd) :
    ∃ indexes : List (Fin numChunks),
      ((requestsOf fileHash tempPort chunks found).filter fun request => request.1 = fd).map
          Prod.snd = indexes.map (fun i => .forDownload fileHash i tempPort) ∧
      ∀ i, isChunkVerified chunks i.val = false → fd ∈ (found i).arr → i ∈ indexes := by
  refine ⟨(List.finRange numChunks).flatMap fun i =>
    if !isChunkVerified chunks i.val then ((found i).arr.filter (· = fd)).map fun _ => i else [],
    ?_, ?_⟩
  · rw [requestsOf, List.filter_flatMap, List.map_flatMap, List.map_flatMap]
    apply List.flatMap_congr
    intro i _
    split
    next => simp [List.filter_map, Function.comp_def]
    next => rfl
  · intro i missing listed
    rw [List.mem_flatMap]
    refine ⟨i, List.mem_finRange i, ?_⟩
    simp [missing, listed]

/-- The peer is listed whenever the round asks for a chunk, and its answers are among the
messages that are handled before the next round. -/
structure DownloadRound.Seeded (round : DownloadRound) (hash : Digest) (tempPort : BitVec 16)
    (seeder : Seeder) (padding : Vector UInt8 3) (fd : Fd) : Prop where
  listed : ∀ i, fd ∈ (round.found i).arr
  answered : ∀ chunks sent after,
    seeder.answers padding (((requestsOf hash tempPort chunks round.found).filter
      fun request => request.1 = fd).map Prod.snd) = .ok (sent, after) →
    ∀ addr len payload, .chunk addr len payload ∈ sent →
      ∃ message ∈ round.answers (requestsOf hash tempPort chunks round.found),
        message.payload = payload ∧ message.dataRead.length = messageSize

/-- The answers of a peer with the complete file complete the copy in one round. -/
theorem Copy.downloadLoop_seeded {content : Option Bytes} {first second : DownloadRound}
    {rounds : List DownloadRound} {seeder : Seeder} {fd : Fd} {name : Vector UInt8 nameLen}
    {limit most : Nat} (copy : Copy store tdef tf content)
    (serviceable : Serviceable env tf.home tdef original.length limit)
    (creates : Creates env tf.home original.length content)
    (few : store.os.openFds + 1 + most ≤ limit)
    (defined : tdef = definitionOf env name original) (admitted : minSize ≤ original.length)
    (fits : ∀ i, ChunkPayload.sizeOf + chunkLen original.length i ≤ messageSize)
    (sound : first.Sound tdef.fHash original.length tempPort)
    (brings : first.AtMost tdef.fHash tempPort most)
    (holds : seeder.Holds tdef original tempPort)
    (seeded : first.Seeded tdef.fHash tempPort seeder padding fd) :
    ∃ requests after,
      downloadLoop env tdef.fHash tempPort (first :: second :: rounds) store =
        .ok (requests, after) ∧ requests.length ≤ 1 := by
  have recorded : tdef.size < 2 ^ 44 := by
    rw [serviceable.sized]
    exact_mod_cast serviceable.counts
  by_cases incomplete : report env tf content = verifiedFile
  · obtain ⟨verified, ended⟩ :=
      copy.downloadLoop_complete recorded (fun _ => serviceable.reads (by omega)) incomplete
    exact ⟨[], verified, ended, Nat.zero_le 1⟩
  · have messages := brings (report env tf content)
    obtain ⟨tf', content', between, midCopy, midHome, advances, descriptors, delivered, goesOn⟩ :=
      copy.downloadRound serviceable creates sound (by omega) incomplete
    have every : ∀ i, Reported env tf' content' i := by
      intro i
      cases known : isChunkVerified (report env tf content) i.val with
      | true => exact advances.kept known
      | false =>
          -- The chunk was asked for, and the peer has answered.
          obtain ⟨indexes, sentTo, all⟩ := @requestsOf_to tempPort tdef.fHash
            (report env tf content) first.found fd
          obtain ⟨after, answers⟩ := holds.answers_eq admitted serviceable.counts padding indexes
          rw [← sentTo] at answers
          obtain ⟨message, member, payload, buffer⟩ := seeded.answered _ _ _ answers _ _ _
            (List.mem_map_of_mem (all i known (seeded.listed i)))
          have length : message.payload.length =
              ChunkPayload.sizeOf + chunkLen original.length i := by
            rw [payload, length_chunkMessage, length_chunkOf]
          have carries : Carries tdef.fHash original.length i (chunkOf original i) message :=
            carries_chunkMessage buffer payload (length_chunkOf original i)
              (length ▸ fits i)
          apply delivered message member i _ carries
          rw [defined]
          rfl
    obtain ⟨final, ended⟩ := @Copy.downloadLoop_complete env between tdef tf' content' tempPort
      second rounds midCopy recorded (fun _ => midHome ▸ serviceable.reads (by omega))
      (report_eq_verifiedFile every)
    refine ⟨[requestsOf tdef.fHash tempPort (report env tf content) first.found], final, ?_,
      Nat.le_refl 1⟩
    rw [goesOn, ended]
    rfl

theorem Copy.downloadFile_seeds {content : Option Bytes} {first second : DownloadRound}
    {rounds : List DownloadRound} {seeder : Seeder} {fd : Fd} {name : Vector UInt8 nameLen}
    {limit most : Nat} (copy : Copy store tdef tf content)
    (serviceable : Serviceable env tf.home tdef original.length limit)
    (creates : Creates env tf.home original.length content)
    (few : store.os.openFds + 1 + most ≤ limit)
    (defined : tdef = definitionOf env name original) (admitted : minSize ≤ original.length)
    (fits : ∀ i, ChunkPayload.sizeOf + chunkLen original.length i ≤ messageSize)
    (sound : ∀ round ∈ first :: second :: rounds,
      round.Sound tdef.fHash original.length tempPort)
    (brings : first.AtMost tdef.fHash tempPort most)
    (holds : seeder.Holds tdef original tempPort)
    (seeded : first.Seeded tdef.fHash tempPort seeder padding fd) (syncs unmaps : Bool) :
    ∃ result, downloadFile env tdef.fHash (some tempPort) (first :: second :: rounds) syncs
        unmaps store = .ok result ∧
      result.requests.length ≤ 1 ∧
      ∃ bytes, result.store.os.files tf.home = some bytes ∧
        (Distinguished env bytes original → bytes = original) := by
  obtain ⟨requests, ended, returned, bound⟩ :=
    @Copy.downloadLoop_seeded _ _ _ _ _ _ _ _ first second rounds _ _ _ _ _ copy serviceable
      creates few defined admitted fits (sound first List.mem_cons_self) brings holds seeded
  obtain ⟨_, _, _, grown, _⟩ := copy.downloadLoop_ended serviceable.sized admitted
    serviceable.counts sound returned
  obtain ⟨code, saved, index, entry, saves, _, found, _⟩ := grown.copy.save syncs unmaps
  have returns : downloadFile env tdef.fHash (some tempPort) (first :: second :: rounds) syncs
      unmaps store = .ok ⟨saved, requests, [(asciiBytes "system",
        downloadedMessage entry.tdef.namePath)]⟩ := by
    simp only [downloadFile, returned, Result.ok_bind, saves, found]
  obtain ⟨⟨⟨bytes, isFile, _, same, _⟩, _⟩, _⟩ :=
    copy.downloadFile_done admitted serviceable.counts sound defined returns
  exact ⟨_, returns, bound, bytes, isFile, same⟩

/-- **One complete peer is enough.**  The client that generated the definition, or any other
with the complete file, is listed at a client that holds the definition and any copy of the
recorded length, or no file at all, and that can open, map and if need be create the file.
If the socket is opened, the chunks fit the buffer of `readWorker`, all messages are sound and
the answers are handled before the next round, `download_file` returns after at most one round
of requests, and the file is the one the definition was made from unless digests collide. -/
theorem downloadFile_seeded {maker : Env} {fuel most : Nat} {origin stored receiver : Store}
    {scratch : TfileDef} {path : Path} {name : Vector UInt8 nameLen} {content : Option Bytes}
    {first second : DownloadRound} {rounds : List DownloadRound} {seeder : Seeder} {fd : Fd}
    (generated : generateTfile maker fuel origin scratch path name = .ok (0, tdef, stored))
    (file : origin.os.files path = some original) (sameMd5 : maker.md5 = env.md5)
    (copy : Copy receiver tdef tf content)
    (opens : ∀ descriptors ≤ receiver.os.openFds + 1 + most,
      env.createOk descriptors tf.home = true)
    (maps : env.mmapOk original.length = true)
    (creates : Creates env tf.home original.length content)
    (fits : ∀ i, ChunkPayload.sizeOf + chunkLen original.length i ≤ messageSize)
    (sound : ∀ round ∈ first :: second :: rounds,
      round.Sound tdef.fHash original.length tempPort)
    (brings : first.AtMost tdef.fHash tempPort most)
    (holds : seeder.Holds tdef original tempPort)
    (seeded : first.Seeded tdef.fHash tempPort seeder padding fd) (syncs unmaps : Bool) :
    ∃ result, downloadFile env tdef.fHash (some tempPort) (first :: second :: rounds) syncs
        unmaps receiver = .ok result ∧
      result.requests.length ≤ 1 ∧
      ∃ bytes, result.store.os.files tf.home = some bytes ∧
        (Distinguished env bytes original → bytes = original) := by
  obtain ⟨admitted, counts, definition⟩ := definitionOf_generated generated file
  have defined := definition.trans (definitionOf_congr sameMd5 name original)
  have sized : tdef.size = original.length := by rw [defined, definitionOf_size]
  have serviceable : Serviceable env tf.home tdef original.length
      (receiver.os.openFds + 1 + most) :=
    ⟨⟨opens, maps⟩, sized, Nat.lt_of_lt_of_le (by decide) admitted, counts⟩
  exact copy.downloadFile_seeds serviceable creates (Nat.le_refl _) defined admitted fits sound
    brings holds seeded syncs unmaps

/-- The client that generated the sample file, which can reach every address. -/
def sampleSeeder : Seeder where
  env := sampleEnv
  store := sampleServer
  calls := sampleCalls
  peers := .init
  fdData := .load 5 5
  dataRead := List.replicate messageSize 2

theorem sampleSeeder_holds : sampleSeeder.Holds heldDef sampleContent 9000 where
  copy := by
    refine ⟨_, sampleServer_copy, by simp, fun _ => ⟨?_, rfl⟩⟩
    exact fun _ _ => sampleEnv_creates _ (by decide)
  complete := heldDef_digest
  connects := rfl
  allocates _ := rfl
  buffer := List.length_replicate

theorem sampleRound_seeded (padding : Vector UInt8 3) :
    sampleRound.Seeded heldDef.fHash 9000 sampleSeeder padding 4 where
  listed _ := List.mem_singleton_self _
  answered := by
    intro chunks sent after answers addr len payload member
    obtain ⟨indexes, sentTo, _⟩ := @requestsOf_to 9000 heldDef.fHash chunks sampleRound.found 4
    obtain ⟨final, answered⟩ := sampleSeeder_holds.answers_eq
      (by rw [length_sampleContent]; decide) sampleContent_counts padding indexes
    rw [sentTo, answered] at answers
    cases answers
    obtain ⟨i, _, same⟩ := List.mem_map.mp member
    cases same
    exact ⟨sampleMessage i, List.mem_map_of_mem (List.mem_finRange i), rfl,
      List.length_replicate⟩

theorem sampleContent_fits (i : Fin numChunks) :
    ChunkPayload.sizeOf + chunkLen sampleContent.length i ≤ messageSize := by
  have small : ∀ i, chunkLen 256 i = 32 := by decide
  rw [length_sampleContent, small]
  decide

theorem sampleRounds_pair : ∀ round ∈ [sampleRound, sampleRound],
    round.Sound heldDef.fHash sampleContent.length 9000 :=
  fun round member =>
    sampleRounds_sound round (List.mem_replicate.mpr ⟨by decide, by simpa using member⟩)

/-- The sample file is downloaded from it in one round. -/
theorem downloadFile_seeded_sample :
    ∃ result, downloadFile sampleEnv heldDef.fHash (some 9000) [sampleRound, sampleRound] true
        true (sampleReceiver staleContent) = .ok result ∧
      result.requests.length ≤ 1 := by
  obtain ⟨result, returned, bound, _⟩ := downloadFile_seeded sampleServer_generated
    (sampleStore_file sampleContent) rfl (sampleReceiver_copy length_staleContent)
    (fun _ _ => sampleEnv_creates _ heldDef_named) rfl (creates_some _ _ _ _) sampleContent_fits
    sampleRounds_pair (sampleRounds_atMost sampleRound (by simp)) sampleSeeder_holds
    (sampleRound_seeded (Vector.replicate 3 0)) true true
  exact ⟨result, returned, bound⟩

end Grintorrent
