import Grintorrent.Client.Basic
import Grintorrent.File.Copies

/-!
# Chunk messages and copies

What a `FILE_DATA` message with a sound header does to the copy of a client, and
which payload `send_chunk_message` builds from one.  Every result about a run of
messages, at one receiver or in a swarm, is built on these two.
-/

namespace Grintorrent

open Lib

theorem receiveInto_eq {dataRead payload : Bytes}
    (fits : payload.length ≤ dataRead.length) :
    receiveInto dataRead payload = .ok (payload ++ dataRead.drop payload.length) := by
  rw [receiveInto, if_pos fits, splice_zero]

theorem ChunkPayload.decode_prefix {payload : Bytes} (whole : sizeOf ≤ payload.length)
    (rest : Bytes) : decode (payload ++ rest) = decode payload := by
  have inside : 24 ≤ payload.length := whole
  simp only [decode]
  rw [slice_append_left (by omega), slice_append_left (by omega), slice_append_left (by omega)]

/-- A `memcpy` that was made copies no bytes, or bytes of the buffer to a place that is
not `NULL`. -/
theorem memcpyChunk_cases {env : Env} {store after : Store} {dest : Option Location}
    {dataRead : Bytes} {chunkSize : Nat}
    (copied : memcpyChunk env store dest dataRead chunkSize = .ok after) :
    chunkSize = 0 ∧ after = store ∨
      ∃ location os, 0 < chunkSize ∧ dest = some location ∧
        ChunkPayload.sizeOf + chunkSize ≤ dataRead.length ∧
        store.os.writeMapped env location (slice ChunkPayload.sizeOf chunkSize dataRead) =
          .ok os ∧
        after = { store with os } := by
  simp only [memcpyChunk] at copied
  split at copied
  next nothing =>
      cases copied
      exact .inl ⟨nothing, rfl⟩
  next something =>
      cases dest with
      | none => simp at copied
      | some location =>
          simp only at copied
          split at copied
          next fits =>
              rw [Result.bind_eq_ok] at copied
              obtain ⟨os, written, same⟩ := copied
              cases same
              exact .inr ⟨location, os, Nat.pos_of_ne_zero something, rfl, fits, written, rfl⟩
          next => simp at copied

theorem memcpyChunk_some {env : Env} {store : Store} {location : Location} {dataRead : Bytes}
    {chunkSize : Nat} (inside : ChunkPayload.sizeOf + chunkSize ≤ dataRead.length) :
    memcpyChunk env store (some location) dataRead chunkSize = (do
      let os ← store.os.writeMapped env location (slice ChunkPayload.sizeOf chunkSize dataRead)
      .ok { store with os }) := by
  by_cases nothing : chunkSize = 0
  · have empty : slice ChunkPayload.sizeOf chunkSize dataRead = [] := by
      rw [nothing, slice, List.take_zero]
    rw [memcpyChunk, if_pos nothing, empty, Os.writeMapped, if_pos rfl, Result.ok_bind]
  · rw [memcpyChunk, if_neg nothing]
    simp only [if_pos inside]

theorem memcpyChunk_eq {env : Env} {store : Store} {location : Location} {dataRead : Bytes}
    {chunkSize : Nat} {os : Os} (inside : ChunkPayload.sizeOf + chunkSize ≤ dataRead.length)
    (written : store.os.writeMapped env location
      (slice ChunkPayload.sizeOf chunkSize dataRead) = .ok os) :
    memcpyChunk env store (some location) dataRead chunkSize = .ok { store with os } := by
  rw [memcpyChunk_some inside, written, Result.ok_bind]

/-- The `FILE_DATA` branch verifies, and then opens and copies if the chunk is missing. -/
theorem handleFileData_cases {env : Env} {store after : Store} {dataRead : Bytes}
    {locals : VerifyLocals} (handled : handleFileData env store dataRead locals = .ok after) :
    ∃ chunks verified,
      verifyTfile env store (ChunkPayload.decode dataRead).fileHash locals =
        .ok (chunks, verified) ∧
      (isChunkVerified chunks (ChunkPayload.decode dataRead).chunkIndex.toInt = true ∧
          after = verified ∨
        isChunkVerified chunks (ChunkPayload.decode dataRead).chunkIndex.toInt = false ∧
          ∃ pointed opened,
            openTfile env verified (ChunkPayload.decode dataRead).fileHash
              (ChunkPayload.decode dataRead).chunkIndex.toInt = .ok (pointed, opened) ∧
            memcpyChunk env opened (pointed.map Prod.fst) dataRead
              (ntohl (ChunkPayload.decode dataRead).chunkSize).toNat = .ok after) := by
  simp only [handleFileData, Result.bind_eq_ok] at handled
  obtain ⟨⟨chunks, verified⟩, isVerified, rest⟩ := handled
  refine ⟨chunks, verified, isVerified, ?_⟩
  simp only at rest
  split at rest
  next reported =>
      cases rest
      exact .inl ⟨reported, rfl⟩
  next unreported =>
      rw [Result.bind_eq_ok] at rest
      obtain ⟨⟨pointed, opened⟩, isOpened, copied⟩ := rest
      exact .inr ⟨Bool.eq_false_iff.mpr unreported, pointed, opened, isOpened, copied⟩

/-- The message claims the hash and the index, and carries as many bytes as the
chunk has, which is also the size it claims. -/
structure Carries (hash : Digest) (size : Nat) (i : Fin numChunks) (data : Bytes)
    (message : FileData) : Prop where
  buffer : message.dataRead.length = messageSize
  fits : message.payload.length ≤ messageSize
  length : message.payload.length = ChunkPayload.sizeOf + chunkLen size i
  data : message.payload.drop ChunkPayload.sizeOf = data
  hash : (ChunkPayload.decode message.payload).fileHash = hash
  index : (ChunkPayload.decode message.payload).chunkIndex.toInt = i.val
  claimed : (ntohl (ChunkPayload.decode message.payload).chunkSize).toNat = chunkLen size i

variable {env : Env} {store : Store} {tdef : TfileDef} {tf : Tfile}
variable {content : Option Bytes} {size : Nat} {i : Fin numChunks} {data : Bytes}
variable {message : FileData}

theorem Carries.length_data (carries : Carries tdef.fHash size i data message) :
    data.length = chunkLen size i := by
  rw [← carries.data, List.length_drop, carries.length]
  omega

theorem Carries.unique {hash : Digest} {k : Fin numChunks} {other : Bytes}
    (left : Carries hash size i data message) (right : Carries hash size k other message) :
    i = k ∧ data = other := by
  have sameIndex := left.index.symm.trans right.index
  exact ⟨Fin.ext (by omega), left.data.symm.trans right.data⟩

theorem Carries.slice_eq (carries : Carries tdef.fHash size i data message) (rest : Bytes) :
    slice ChunkPayload.sizeOf (chunkLen size i) (message.payload ++ rest) = data := by
  rw [slice_append_left carries.length.ge, slice, carries.data]
  exact List.take_of_length_le carries.length_data.le

theorem Copy.write {bytes : Bytes} {mapping : Mapping} (copy : Copy store tdef tf (some bytes))
    (sized : tdef.size = size) (isMapped : tf.mLocation = some mapping)
    (exact : data.length = chunkLen size i) :
    ∃ os, store.os.writeMapped env ⟨mapping, size, chunkStart size i⟩ data = .ok os ∧
      Copy { store with os } tdef tf (some (splice (chunkStart size i) data bytes)) ∧
      Os.Elsewhere tf.home store.os os ∧ os.openFds = store.os.openFds := by
  have home : tf.home = mapping.file := by simp only [Tfile.home, isMapped]
  have length : bytes.length = size := by
    have recorded := copy.sized rfl
    omega
  have within := chunk_inside size i
  have inside : chunkStart size i + data.length ≤ bytes.length := by omega
  have file : store.os.files mapping.file = some bytes := home ▸ copy.file
  refine ⟨_, Os.writeMapped_inside file inside (by omega), ?_, ?_, rfl⟩
  · exact
      { found := copy.found
        same := copy.same
        file := by
          rw [home]
          exact Os.files_setFile
        sized := by
          rintro patched ⟨⟩
          rw [length_splice inside]
          exact copy.sized rfl
        mapped := by simp }
  · rw [home]
    exact Os.elsewhere_setFile

/-- What a client needs from the system to handle messages for a file of this many bytes:
with up to `limit` descriptors open the file opens for reading and writing, and it can be
mapped. -/
structure Serves (env : Env) (path : Path) (size limit : Nat) : Prop where
  opens : ∀ descriptors ≤ limit, env.createOk descriptors path = true
  maps : env.mmapOk size = true

theorem Serves.reads {path : Path} {limit descriptors : Nat}
    (serves : Serves env path size limit) (few : descriptors ≤ limit) :
    env.openOk descriptors path = true :=
  env.readable (serves.opens descriptors few)

/-- What a handled `FILE_DATA` message leaves: a chunk that is verified is left alone, any
other chunk is overwritten with the data of the message, and the rest of the file and every
other file keep their bytes. -/
structure CopyHandled (env : Env) (store after : Store) (tdef : TfileDef) (tf : Tfile)
    (content : Option Bytes) (size : Nat) (i : Fin numChunks) (data : Bytes) : Prop where
  outcome : isChunkVerified (report env tf content) i.val = true ∧ Copy after tdef tf content ∨
    isChunkVerified (report env tf content) i.val = false ∧
      ∃ opened, opened.mLocation ≠ none ∧ opened.home = tf.home ∧
        Copy after tdef opened (some (splice (chunkStart size i) data (filled size content)))
  elsewhere : Os.Elsewhere tf.home store.os after.os
  descriptors : store.os.openFds ≤ after.os.openFds ∧ after.os.openFds ≤ store.os.openFds + 1

section Handle

variable {verified : Store} {locals : VerifyLocals} {buffer : Bytes}

theorem Carries.received (carries : Carries tdef.fHash size i data message) :
    readFileData env store message = handleFileData env store
      (message.payload ++ message.dataRead.drop message.payload.length) message.locals := by
  rw [readFileData, receiveInto_eq (carries.fits.trans carries.buffer.ge), Result.ok_bind]

theorem Copy.handle_verified (copy : Copy store tdef tf content)
    (kept : verified = store ∨ verified = store.leak)
    (returned : verifyTfile env store tdef.fHash message.locals =
      .ok (report env tf content, verified))
    (reachable : isChunkVerified (report env tf content) i.val = false →
      Reachable env verified tf)
    (sized : tdef.size = size) (positive : 0 < size) (small : size < 2 ^ 63)
    (carries : Carries tdef.fHash size i data message) :
    ∃ after, readFileData env store message = .ok after ∧
      CopyHandled env store after tdef tf content size i data := by
  have whole : ChunkPayload.sizeOf ≤ message.payload.length := by
    rw [carries.length]
    omega
  have copied : Copy verified tdef tf content := by
    rcases kept with rfl | rfl
    · exact copy
    · exact copy.leak
  have elsewhere := elsewhere_of_leak kept tf.home
  have descriptors := openFds_of_leak kept
  rw [carries.received]
  simp only [handleFileData, ChunkPayload.decode_prefix whole, carries.hash, carries.index,
    carries.claimed, returned, Result.ok_bind]
  cases reported : isChunkVerified (report env tf content) i.val with
  | true => exact ⟨verified, rfl, .inl ⟨reported, copied⟩, elsewhere, descriptors⟩
  | false =>
      obtain ⟨mapping, opened, mapped, pointed, isMapped, home, stored, frame, sameFds⟩ :=
        copied.open (reachable reported) sized positive small i
      obtain ⟨os, written, final, others, endFds⟩ :=
        stored.write sized isMapped carries.length_data
      have openedHome : opened.home = tf.home := by
        rw [← home]
        simp only [Tfile.home, isMapped]
      have inside : ChunkPayload.sizeOf + chunkLen size i ≤
          (message.payload ++ message.dataRead.drop message.payload.length).length := by
        rw [List.length_append, ← carries.length]
        omega
      rw [openedHome] at others
      rw [← carries.slice_eq (message.dataRead.drop message.payload.length)] at written
      simp only [Bool.false_eq_true, if_false, pointed, Result.ok_bind, Option.map_some]
      exact ⟨{ mapped with os }, memcpyChunk_eq inside written,
        .inr ⟨reported, opened, by simp [isMapped], openedHome, final⟩,
        (elsewhere.trans frame).trans others, by rwa [endFds, sameFds]⟩

/-- **Handling a sound `FILE_DATA` message** for a file that opens and maps, and that can be
created if it is not there. -/
theorem Copy.handle {limit : Nat} (copy : Copy store tdef tf content)
    (serves : Serves env tf.home size limit) (few : store.os.openFds < limit)
    (creates : content = none → env.ftruncateOk tf.home size = true)
    (sized : tdef.size = size) (positive : 0 < size) (counts : size < 2 ^ 44)
    (carries : Carries tdef.fHash size i data message) :
    ∃ after, readFileData env store message = .ok after ∧
      CopyHandled env store after tdef tf content size i data := by
  obtain ⟨verified, returned, copied, kept⟩ :=
    copy.verified (by omega) (fun _ => serves.reads (by omega)) message.locals
  have descriptors := openFds_of_leak kept
  refine copy.handle_verified kept returned (fun _ _ => ?_) sized positive (by omega) carries
  rw [copied.same, sized, copied.file]
  exact ⟨serves.opens _ (by omega), serves.maps, creates⟩

/-- A file that did not exist has been given its length, if bytes were copied into it. -/
theorem Copy.created_of_copied {opened after : Store} {pointed : Location × Int}
    {chunk : Int} {copied : Nat} (copy : Copy store tdef tf none)
    (isOpened : openTfile env store tdef.fHash chunk = .ok (some pointed, opened))
    (positive : 0 < copied)
    (made : memcpyChunk env opened (some pointed.1) buffer copied = .ok after) :
    env.ftruncateOk tf.home tdef.size.toNat = true := by
  obtain ⟨index, found⟩ := copy.found
  have notMapped : tf.mLocation = none := by
    by_contra isMapped
    exact copy.mapped isMapped rfl
  obtain ⟨opens, nonempty, maps⟩ := mapped_of_open found isOpened notMapped
  by_contra uncreated
  have file : opened.os.files tf.home = some [] ∧ pointed.1.mapping.file = tf.home := by
    rcases openTfile_cases isOpened with ⟨nothing, _⟩ | ⟨_, _, found', _, ⟨_, isMapped, _⟩ |
      ⟨_, rfl, ⟨_, nothing⟩ | ⟨mapping, isMapping, _, isLocation⟩⟩⟩
    · simp at nothing
    · rw [found] at found'
      cases found'
      simp [notMapped] at isMapped
    · simp at nothing
    · rw [found] at found'
      cases found'
      rw [mapTfile_success notMapped opens nonempty maps] at isMapping ⊢
      obtain rfl := Option.some.inj isMapping
      obtain rfl := Option.some.inj isLocation
      refine ⟨(@Os.prepare_files env _ _ _).trans ?_, rfl⟩
      rw [copy.file, copy.same, Env.sizedTo, if_neg fun both => uncreated both.2]
      rfl
  rcases memcpyChunk_cases made with ⟨nothing, _⟩ | ⟨location, os, _, isDest, fits, written, _⟩
  · omega
  · obtain rfl := Option.some.inj isDest
    have length : (slice ChunkPayload.sizeOf copied buffer).length = copied := length_slice fits
    rcases Os.writeMapped_cases written with ⟨empty, _⟩ | ⟨content, offset, _, _, _, isContent,
      inside, _⟩
    · rw [empty, List.length_nil] at length
      omega
    · rw [file.2, file.1, Option.some.injEq] at isContent
      rw [← isContent, List.length_nil, env.pageEnd_zero] at inside
      omega

/-- **A sound message whose handler returned** has been handled so, whatever the system
refuses: without a destination the handler would not have returned. -/
theorem Copy.handled {after : Store} (copy : Copy store tdef tf content)
    (sized : tdef.size = size) (nonempty : 0 < chunkLen size i) (counts : size < 2 ^ 44)
    (carries : Carries tdef.fHash size i data message)
    (handled : readFileData env store message = .ok after) :
    CopyHandled env store after tdef tf content size i data := by
  have whole : ChunkPayload.sizeOf ≤ message.payload.length := by
    rw [carries.length]
    omega
  have within := chunk_inside size i
  have isHandled := handled
  rw [carries.received] at handled
  obtain ⟨chunks, verified, returned, outcome⟩ := handleFileData_cases handled
  simp only [ChunkPayload.decode_prefix whole, carries.hash, carries.index,
    carries.claimed] at returned outcome
  have done : ∀ (kept : verified = store ∨ verified = store.leak)
      (isReport : chunks = report env tf content)
      (reachable : isChunkVerified (report env tf content) i.val = false →
        Reachable env verified tf), CopyHandled env store after tdef tf content size i data := by
    rintro kept rfl reachable
    obtain ⟨after', again, result⟩ := copy.handle_verified kept returned reachable sized
      (by omega) (by omega) carries
    rw [isHandled, Except.ok.injEq] at again
    rwa [again]
  rcases outcome with ⟨reported, _⟩ | ⟨unreported, pointed, opened, isOpened, copied⟩
  · obtain ⟨isReport, kept⟩ := copy.report_of_verify (by omega) returned reported
    refine done kept isReport fun unreported => ?_
    rw [← isReport, reported] at unreported
    simp at unreported
  · -- The copy was made, so the file opened and was mapped and sized.
    obtain ⟨index, found⟩ := copy.found
    cases pointed with
    | none =>
        rcases memcpyChunk_cases copied with ⟨nothing, _⟩ | ⟨_, _, _, isDest, _⟩
        · omega
        · simp at isDest
    | some pointed =>
        have kept : verified = store ∨ verified = store.leak := by
          rcases copy.verify_cases (by omega) returned with ⟨_, _, kept⟩ | ⟨_, _, same⟩
          · exact kept
          · exact .inl same
        have copiedTo : Copy verified tdef tf content := by
          rcases kept with rfl | rfl
          · exact copy
          · exact copy.leak
        have table : verified.ht = store.ht := by
          rcases kept with rfl | rfl <;> rfl
        have needs := fun notMapped => mapped_of_open (table ▸ found) isOpened notMapped
        rcases copy.verify_cases (by omega) returned with ⟨_, isReport, _⟩ | ⟨refused, _, same⟩
        · refine done kept isReport fun _ notMapped => ⟨(needs notMapped).1, (needs notMapped).2.2,
            fun missing => ?_⟩
          rw [copiedTo.file] at missing
          subst missing
          rw [copiedTo.same]
          exact copiedTo.created_of_copied isOpened nonempty copied
        · subst same
          exact absurd (fun notMapped => env.readable (needs notMapped).1) refused

end Handle

/-! ## Sending a chunk -/

/-- The payload that carries a chunk. -/
def chunkMessage (hash : Digest) (i : Fin numChunks) (data : Bytes) : Bytes :=
  ChunkPayload.bytes
    ⟨hash, BitVec.ofNat 32 i.val, htonl (BitVec.ofNat 32 data.length)⟩ ++ data

theorem length_chunkMessage (hash : Digest) (i : Fin numChunks) (chunk : Bytes) :
    (chunkMessage hash i chunk).length = ChunkPayload.sizeOf + chunk.length := by
  rw [chunkMessage, List.length_append, ChunkPayload.length_bytes]

/-- The chunk size in the header of a chunk message is the length of the chunk modulo
`2 ^ 32`. -/
theorem decode_chunkMessage (hash : Digest) (i : Fin numChunks) (chunk rest : Bytes) :
    ChunkPayload.decode (chunkMessage hash i chunk ++ rest) =
      ⟨hash, BitVec.ofNat 32 i.val, htonl (BitVec.ofNat 32 chunk.length)⟩ := by
  rw [chunkMessage, List.append_assoc, ChunkPayload.decode_append]

theorem chunkIndex_toInt (i : Fin numChunks) : (BitVec.ofNat 32 i.val).toInt = i.val := by
  revert i
  decide

/-- **`send_chunk_message` on a copy** that can be mapped: it sends the chunk under
its own header, unless the chunk is empty or the payload cannot be allocated, and
the copy keeps its bytes. -/
theorem Copy.send_eq {bytes : Bytes} (copy : Copy store tdef tf (some bytes))
    (reachable : Reachable env store tf)
    (sized : tdef.size = size) (positive : 0 < size) (small : size < 2 ^ 63)
    (i : Fin numChunks) :
    ∃ opened after,
      sendChunkMessage env store tdef.fHash i.val =
        .ok (if 0 < chunkLen size i ∧
            env.mallocOk (ChunkPayload.sizeOf + chunkLen size i) = true then
          some (chunkMessage tdef.fHash i (chunkOf bytes i))
        else none, after) ∧
      opened.home = tf.home ∧ opened.mLocation ≠ none ∧
      Copy after tdef opened (some bytes) ∧
      Os.Elsewhere tf.home store.os after.os ∧ after.os.openFds = store.os.openFds := by
  have length : bytes.length = size := by
    have recorded := copy.sized rfl
    omega
  obtain ⟨mapping, opened, after, pointed, isMapped, home, stored, frame⟩ :=
    copy.open reachable sized positive small i
  have openedHome : opened.home = tf.home := by
    rw [← home]
    simp only [Tfile.home, isMapped]
  have file : after.os.files mapping.file = some bytes := by
    rw [home, ← openedHome]
    exact stored.file
  have within := chunk_inside size i
  have header : ChunkPayload.bytes ⟨tdef.fHash, BitVec.ofInt 32 i.val,
      htonl (BitVec.ofInt 32 (chunkLen size i))⟩ ++
        slice (chunkStart size i) (chunkLen size i) bytes =
      chunkMessage tdef.fHash i (chunkOf bytes i) := by
    rw [chunkMessage, length_chunkOf, length, chunkOf, length, BitVec.ofInt_natCast,
      BitVec.ofInt_natCast]
  refine ⟨opened, after, ?_, openedHome, by simp [isMapped], stored, frame⟩
  simp only [sendChunkMessage, pointed, Result.ok_bind, Int.toNat_natCast]
  by_cases nonempty : 0 < chunkLen size i
  · rw [if_neg (by omega)]
    by_cases allocates : env.mallocOk (ChunkPayload.sizeOf + chunkLen size i) = true
    · rw [if_pos allocates, Os.readMapped_slice file (by omega), Result.ok_bind, header,
        if_pos ⟨nonempty, allocates⟩]
    · rw [if_neg allocates, if_neg (fun both => allocates both.2)]
  · rw [if_pos (by omega), if_neg (fun both => nonempty both.1)]

/-- `send_chunk_message` leaves the store as `open_tfile` left it.  If it sends a message,
it is the bytes at the place that was opened, under a header with their length. -/
theorem sendChunkMessage_cases {env : Env} {store after : Store} {hash : Digest} {chunk : Int}
    {payload : Option Bytes}
    (sent : sendChunkMessage env store hash chunk = .ok (payload, after)) :
    ∃ result, openTfile env store hash chunk = .ok (result, after) ∧
      (payload = none ∨
        ∃ location size data, result = some (location, size) ∧
          after.os.readMapped env location.mapping location.offset size = .ok data ∧
          payload = some
            (({ fileHash := hash
                chunkIndex := BitVec.ofInt 32 chunk
                chunkSize := htonl (BitVec.ofInt 32 size) } : ChunkPayload).bytes ++ data)) := by
  simp only [sendChunkMessage, Result.bind_eq_ok] at sent
  obtain ⟨⟨result, opened⟩, isOpened, rest⟩ := sent
  refine ⟨result, ?_⟩
  rw [isOpened]
  cases result with
  | none =>
      cases rest
      exact ⟨rfl, .inl rfl⟩
  | some pointed =>
      obtain ⟨location, size⟩ := pointed
      simp only at rest
      split at rest
      next =>
          cases rest
          exact ⟨rfl, .inl rfl⟩
      next =>
          split at rest
          next =>
              simp only [Result.bind_eq_ok] at rest
              obtain ⟨data, read, built⟩ := rest
              cases built
              exact ⟨rfl, .inr ⟨location, size, data, rfl, read, rfl⟩⟩
          next =>
              cases rest
              exact ⟨rfl, .inl rfl⟩

theorem Copy.send {bytes payload : Bytes} {after : Store}
    (copy : Copy store tdef tf (some bytes))
    (sized : tdef.size = size) (positive : 0 < size) (small : size < 2 ^ 63)
    (sent : sendChunkMessage env store tdef.fHash i.val = .ok (some payload, after)) :
    payload = chunkMessage tdef.fHash i (chunkOf bytes i) := by
  have reachable : Reachable env store tf := by
    obtain ⟨result, opened, nothing | ⟨location, chunkSize, data, rfl, _⟩⟩ :=
      sendChunkMessage_cases sent
    · simp at nothing
    · exact copy.reachable_of_open opened
  obtain ⟨_, _, returned, _⟩ := copy.send_eq reachable sized positive small i
  rw [sent] at returned
  simp only [Except.ok.injEq, Prod.mk.injEq] at returned
  split at returned
  · exact Option.some.inj returned.1
  · simp at returned

theorem carries_chunkMessage {hash : Digest}
    (buffer : message.dataRead.length = messageSize)
    (payload : message.payload = chunkMessage hash i data)
    (exact : data.length = chunkLen size i)
    (fits : message.payload.length ≤ messageSize) :
    Carries hash size i data message := by
  have length : message.payload.length = ChunkPayload.sizeOf + data.length := by
    rw [payload, length_chunkMessage]
  have header := decode_chunkMessage hash i data []
  rw [List.append_nil, ← payload] at header
  have small : data.length < 2 ^ 32 := by
    rw [length] at fits
    simp only [messageSize] at fits
    omega
  refine ⟨buffer, fits, exact ▸ length, ?_, ?_, ?_, ?_⟩
  · rw [payload, chunkMessage, ← ChunkPayload.length_bytes, List.drop_left]
  · rw [header]
  · rw [header, chunkIndex_toInt]
  · rw [header, ntohl_htonl, BitVec.toNat_ofNat, Nat.mod_eq_of_lt small, exact]

end Grintorrent
