import Grintorrent.Client.Entries
import Grintorrent.Request.Basic

/-!
# Serving a file

A request for a chunk that `verify_tfile` finds in a file on disk is answered by
`send_chunk_message`, which calls `open_tfile` as the receiver of a chunk does: the file is
opened for writing and given the length that its definition records.  So a file that has
another length by then, and still contains the chunk, is cut or extended by a request.
-/

namespace Grintorrent

open Lib

variable {env : Env} {store after : Store} {hash : Digest} {index size : Nat} {tf : Tfile}
variable {path : Path} {content : Bytes} {locals : VerifyLocals}

/-- The entry of the hash is not mapped, the chunk asked for is found in its file, which
can be opened again, and the file has another length than the definition records.
`verify_tfile` leaves a descriptor open in between. -/
structure Resizes (env : Env) (store : Store) (req : ChunkRequest) (locals : VerifyLocals)
    (tf : Tfile) (path : Path) (content : Bytes) (size : Nat) (i : Fin numChunks) : Prop where
  entry : store.ht.Entry req.fileHash tf
  notMapped : tf.mLocation = none
  located : tf.fLocation = some path
  file : store.os.files path = some content
  counts : content.length < 2 ^ 44
  opens : env.openOk store.os.openFds path = true
  reopens : env.createOk (store.os.openFds + 1) path = true
  resizes : env.ftruncateOk path size = true
  index : req.chunkIndex.toInt = i.val
  sized : tf.tdef.size = size
  matching : Matches env tf.tdef content size locals.cHashes i
  differs : content.length ≠ size

/-- Answering the request changes the length of a file. -/
def Resized (env : Env) (store : Store) (req : ChunkRequest) (locals : VerifyLocals) : Prop :=
  ∃ tf path content size i, Resizes env store req locals tf path content size i

variable {req : ChunkRequest} {i : Fin numChunks}

/-- `send_chunk_message` returns if `open_tfile` can give the file its recorded length, whether
it maps the file or fails to. -/
theorem sendChunkMessage_returns (found : lookupTfile store.ht hash = .ok (some (index, tf)))
    (notMapped : tf.mLocation = none) (sized : tf.tdef.size = size) (small : size < 2 ^ 63)
    (resizes : env.ftruncateOk tf.home size = true) :
    ∃ payload, sendChunkMessage env store hash i.val =
      .ok (payload, (mapTfile env store index tf).2) := by
  have below : (i.val : Int) < numChunks := Int.ofNat_lt.mpr i.isLt
  simp only [sendChunkMessage, openTfile_unmapped below found notMapped]
  by_cases accepted : env.createOk store.os.openFds tf.home = true ∧ 0 < tf.tdef.size ∧
      env.mmapOk tf.tdef.size.toNat = true
  · rw [mapTfile_success notMapped accepted.1 accepted.2.1 accepted.2.2]
    simp only [sized, locateChunk_eq small, Result.ok_bind, Int.toNat_natCast]
    split
    next => exact ⟨none, rfl⟩
    next =>
        split
        next =>
            have file : Os.files { store.os.prepare env tf.home size with
                nextAddr := store.os.nextAddr + 1 } tf.home =
                some (resize size ((store.os.files tf.home).getD [])) := by
              refine (@Os.prepare_files env store.os tf.home size).trans ?_
              rw [Env.sizedTo, if_pos ⟨Int.natCast_nonneg size, resizes⟩, Int.toNat_natCast]
            have inside : chunkStart size i + chunkLen size i ≤
                (resize size ((store.os.files tf.home).getD [])).length := by
              rw [length_resize]
              exact chunk_inside size i
            rw [@Os.readMapped_slice env _ _ ⟨tf.home, store.os.nextAddr⟩ _ _ file inside]
            exact ⟨_, rfl⟩
        next => exact ⟨none, rfl⟩
  · rw [mapTfile_failure notMapped accepted]
    exact ⟨none, rfl⟩

/-- A request that is answered from a file of another length changes it. -/
theorem Resizes.changes (resizes : Resizes env store req locals tf path content size i)
    (small : size < 2 ^ 63) :
    ∃ answer after, handleRequest env store req locals true = .ok (answer, after) ∧
      after.os.files ≠ store.os.files := by
  obtain ⟨index, found⟩ := resizes.entry
  obtain ⟨chunks, verified, reported⟩ := @verifyTfile_read env store req.fileHash index size tf
    path content locals found resizes.notMapped resizes.located resizes.file resizes.opens
    resizes.counts resizes.sized
  have isReported := (reported i).mpr resizes.matching
  have home : tf.home = path := by
    simp only [Tfile.home, resizes.notMapped, resizes.located, Option.getD_some]
  obtain ⟨payload, sent⟩ := @sendChunkMessage_returns env store.leak req.fileHash index size tf
    i found resizes.notMapped resizes.sized small (home ▸ resizes.resizes)
  have files := @mapTfile_files env store.leak index tf resizes.notMapped
  have reopens : env.createOk store.leak.os.openFds tf.home = true := home ▸ resizes.reopens
  have changed : (mapTfile env store.leak index tf).2.os.files ≠ store.os.files := by
    rw [files, if_pos reopens]
    intro same
    have kept := (@prepare_files_eq_iff env _ _ store.leak.os tf.tdef.size
      (home ▸ resizes.file)).mp same
    rw [resizes.sized, Env.sizedTo, if_pos ⟨Int.natCast_nonneg size, home ▸ resizes.resizes⟩,
      Option.getD_some, Int.toNat_natCast, resize_eq_iff] at kept
    exact resizes.differs kept
  simp only [handleRequest, verified, Result.ok_bind, resizes.index, isReported, if_true, sent]
  cases payload with
  | none => exact ⟨_, _, rfl, changed⟩
  | some payload => exact ⟨_, _, rfl, changed⟩

/-- Mapping the file of a reported chunk changes no file, or changes the length of the
file on disk. -/
theorem mapTfile_reported {chunks : VerifiedChunks} {verified : Store}
    (found : lookupTfile store.ht req.fileHash = .ok (some (index, tf)))
    (notMapped : tf.mLocation = none)
    (isVerified : verifyTfile env store req.fileHash locals = .ok (chunks, verified))
    (isIndex : req.chunkIndex.toInt = i.val)
    (reported : isChunkVerified chunks i.val = true) :
    (mapTfile env verified index tf).2.os.files = store.os.files ∨
      Resized env store req locals := by
  have sameFiles := (verifyTfile_files isVerified).1
  obtain ⟨path, content, located, file, opens, counts⟩ :=
    verifyTfile_reported found notMapped isVerified reported
  have home : tf.home = path := by
    simp only [Tfile.home, notMapped, located, Option.getD_some]
  have file' : verified.os.files path = some content := by rw [sameFiles, file]
  rw [mapTfile_files notMapped, home, ← sameFiles]
  split
  next writable =>
      by_cases kept : env.sizedTo path tf.tdef.size (some content) = content
      · exact .inl ((prepare_files_eq_iff file').mpr kept)
      · right
        have granted : 0 ≤ tf.tdef.size ∧ env.ftruncateOk path tf.tdef.size.toNat = true := by
          by_contra refused
          rw [Env.sizedTo, if_neg refused] at kept
          exact kept rfl
        obtain ⟨size, sized⟩ := Int.eq_ofNat_of_zero_le granted.1
        have resizes := granted.2
        rw [Env.sizedTo, if_pos granted, sized, Int.toNat_natCast] at kept
        rw [sized, Int.toNat_natCast] at resizes
        obtain ⟨chunks', verified', matching⟩ := @verifyTfile_read env store req.fileHash index
          size tf path content locals found notMapped located file opens counts sized
        rw [verified'] at isVerified
        cases isVerified
        refine ⟨tf, path, content, size, i, ?_⟩
        exact
          { entry := ⟨index, found⟩
            notMapped := notMapped
            located := located
            file := file
            counts := counts
            opens := opens
            reopens := writable
            resizes := resizes
            index := isIndex
            sized := sized
            matching := (matching i).mp reported
            differs := fun same => kept (resize_of_length same) }
  next => exact .inl rfl

theorem openTfile_after {chunk : Int} {result : Option (Location × Int)}
    (below : chunk < numChunks) (found : lookupTfile store.ht hash = .ok (some (index, tf)))
    (notMapped : tf.mLocation = none)
    (isOpened : openTfile env store hash chunk = .ok (result, after)) :
    after = (mapTfile env store index tf).2 := by
  rw [openTfile_unmapped below found notMapped] at isOpened
  split at isOpened
  next =>
      cases isOpened
      rfl
  next =>
      obtain ⟨location, _, rest⟩ := Result.bind_eq_ok.mp isOpened
      cases rest
      rfl

theorem openTfile_reported {chunks : VerifiedChunks} {verified : Store}
    {result : Option (Location × Int)}
    (isVerified : verifyTfile env store req.fileHash locals = .ok (chunks, verified))
    (reported : isChunkVerified chunks req.chunkIndex.toInt = true)
    (isOpened : openTfile env verified req.fileHash req.chunkIndex.toInt = .ok (result, after)) :
    after.os.files = store.os.files ∨ Resized env store req locals := by
  obtain ⟨sameFiles, sameTable⟩ := verifyTfile_files isVerified
  obtain ⟨i, isIndex⟩ := exists_chunk_of_verified reported
  rw [isIndex] at reported isOpened
  have below : (i.val : Int) < numChunks := Int.ofNat_lt.mpr i.isLt
  cases found : lookupTfile store.ht req.fileHash with
  | error stop => simp [verifyTfile, found] at isVerified
  | ok entry =>
      cases entry with
      | none =>
          rw [verifyTfile_unknown found] at isVerified
          cases isVerified
          simp [isChunkVerified_unverifiedFile] at reported
      | some entry =>
          obtain ⟨index, tf⟩ := entry
          have found' := found
          rw [← sameTable] at found'
          cases isMapped : tf.mLocation with
          | some mapping =>
              obtain rfl := openTfile_mapped ⟨index, found'⟩ isMapped isOpened
              exact .inl sameFiles
          | none =>
              rw [openTfile_after below found' isMapped isOpened]
              exact mapTfile_reported found isMapped isVerified isIndex reported

/-- A request changes a file only by answering it from a file of another length. -/
theorem handleRequest_changes {answer : Answer} {connects : Bool}
    (answered : handleRequest env store req locals connects = .ok (answer, after))
    (changed : after.os.files ≠ store.os.files) :
    connects = true ∧ Resized env store req locals := by
  obtain ⟨chunks, verified, isVerified, ⟨_, _, rfl⟩ | ⟨_, _, _, rfl⟩ |
    ⟨reported, connected, payload, isSent, _⟩⟩ := handleRequest_cases answered
  · exact absurd (verifyTfile_files isVerified).1 changed
  · exact absurd (verifyTfile_files isVerified).1 changed
  · obtain ⟨result, isOpened, _⟩ := sendChunkMessage_cases isSent
    exact ⟨connected, (openTfile_reported isVerified reported isOpened).resolve_left changed⟩

theorem handleMessage_answered {calls : Calls} {peers : Peers} {fdData : ClientServer}
    {dataRead : Bytes} :
    (∃ handled, handleMessage env calls store peers fdData requestFileData dataRead =
        .ok handled ∧ handled.store = after) ↔
      ∃ answer, handleRequest env store (ChunkRequest.decode dataRead) calls.locals
        (calls.connects (ChunkRequest.decode dataRead).returnAddr
          (ChunkRequest.decode dataRead).returnAddrLen) = .ok (answer, after) := by
  simp only [handle_requestFileData, Result.bind_eq_ok]
  constructor
  · rintro ⟨handled, ⟨⟨answer, answered⟩, isAnswered, rest⟩, rfl⟩
    refine ⟨answer, ?_⟩
    rw [isAnswered]
    cases answer <;> cases rest <;> rfl
  · rintro ⟨answer, answered⟩
    cases answer with
    | chunk payload => exact ⟨_, ⟨_, answered, rfl⟩, rfl⟩
    | relay => exact ⟨_, ⟨_, answered, rfl⟩, rfl⟩
    | silent => exact ⟨_, ⟨_, answered, rfl⟩, rfl⟩

/-- Handling the request in the buffer leaves the content and the length of every file as
they are. -/
def LeavesFiles (env : Env) (calls : Calls) (store : Store) (peers : Peers)
    (fdData : ClientServer) (dataRead : Bytes) : Prop :=
  ∀ handled, handleMessage env calls store peers fdData requestFileData dataRead =
    .ok handled → handled.store.os.files = store.os.files

/-- **Serving a request leaves every file as it is** exactly unless it is answered from a
file that has another length than its definition records. -/
theorem leavesFiles_iff (calls : Calls) (store : Store) (peers : Peers) (fdData : ClientServer)
    (dataRead : Bytes)
    (offT : ∀ tf, store.ht.Entry (ChunkRequest.decode dataRead).fileHash tf →
      tf.tdef.size < 2 ^ 63) :
    LeavesFiles env calls store peers fdData dataRead ↔
      ¬(calls.connects (ChunkRequest.decode dataRead).returnAddr
          (ChunkRequest.decode dataRead).returnAddrLen = true ∧
        Resized env store (ChunkRequest.decode dataRead) calls.locals) := by
  constructor
  · rintro leaves ⟨connected, tf, path, content, size, i, resizes⟩
    have small : size < 2 ^ 63 := by
      have bound := offT tf resizes.entry
      rw [resizes.sized] at bound
      omega
    obtain ⟨answer, after, answered, changed⟩ := resizes.changes small
    rw [← connected] at answered
    obtain ⟨handled, handles, rfl⟩ := handleMessage_answered.mpr ⟨answer, answered⟩
    exact changed (leaves handled handles)
  · intro kept handled handles
    obtain ⟨answer, answered⟩ := handleMessage_answered.mp ⟨handled, handles, rfl⟩
    by_contra changed
    exact kept (handleRequest_changes answered changed)

/-- The client that generated the definition, with this content in the file now. -/
def laterServer (content : Bytes) : Store :=
  { sampleServer with os := (sampleStore content).os }

theorem laterServer_entry (content : Bytes) :
    (laterServer content).ht.Entry heldDef.fHash
      { tdef := heldDef, fLocation := some samplePath, mLocation := none } :=
  sampleServer_copy.found

/-- The file that the definition was generated from is left as it is. -/
theorem leavesFiles_iff_unchanged :
    LeavesFiles sampleEnv sampleCalls (laterServer sampleContent) .init (.load 4 4)
      heldRequest := by
  have req : ChunkRequest.decode heldRequest = .forDownload heldDef.fHash 0 9000 := by
    rw [← List.append_nil heldRequest, decode_heldRequest]
  refine (leavesFiles_iff sampleCalls (laterServer sampleContent) .init (.load 4 4)
    heldRequest ?_).mpr ?_
  · intro tf entry
    rw [req] at entry
    rw [← (laterServer_entry sampleContent).unique entry, heldDef_size]
    decide
  · rintro ⟨_, tf, path, content, size, i, resizes⟩
    have entry := resizes.entry
    rw [req] at entry
    obtain rfl := (laterServer_entry sampleContent).unique entry
    obtain rfl : samplePath = path := Option.some.inj resizes.located
    obtain rfl : sampleContent = content :=
      Option.some.inj ((sampleStore_file sampleContent).symm.trans resizes.file)
    have sized := resizes.sized
    rw [heldDef_size] at sized
    apply resizes.differs
    rw [length_sampleContent]
    omega

/-- A byte was appended to the file since: a request for its first chunk cuts it off. -/
theorem appended_byte_cut :
    ¬LeavesFiles sampleEnv sampleCalls (laterServer (sampleContent ++ [1])) .init (.load 4 4)
      heldRequest := by
  intro leaves
  have req : ChunkRequest.decode heldRequest = .forDownload heldDef.fHash 0 9000 := by
    rw [← List.append_nil heldRequest, decode_heldRequest]
  have length : (sampleContent ++ [1]).length = 257 := by
    rw [List.length_append, length_sampleContent]
    rfl
  have matching : readDigest sampleEnv (sampleContent ++ [1]) 256 (fun _ => 0) 0 =
      heldDef.cHashes 0 := by
    have first : slice 0 32 (sampleContent ++ [1]) = slice 0 32 sampleContent :=
      slice_append_left (by rw [length_sampleContent]; decide) [1]
    have chunk : chunkOf sampleContent 0 = slice 0 32 sampleContent := by
      rw [chunkOf, length_sampleContent]
      rfl
    have expected : heldDef.cHashes 0 = sampleEnv.md5 (chunkOf sampleContent 0) := by
      rw [heldDef, definitionOf]
    rw [readDigest, if_pos (by rw [length]; decide), expected, chunk, ← first]
    rfl
  have resizes : Resizes sampleEnv (laterServer (sampleContent ++ [1]))
      (ChunkRequest.decode heldRequest) sampleCalls.locals
      { tdef := heldDef, fLocation := some samplePath, mLocation := none } samplePath
      (sampleContent ++ [1]) 256 0 :=
    { entry := req ▸ laterServer_entry _
      notMapped := rfl
      located := rfl
      file := sampleStore_file _
      counts := by
        rw [length]
        decide
      opens := rfl
      reopens := rfl
      resizes := rfl
      index := by
        rw [req]
        rfl
      sized := heldDef_size
      matching := .inr matching
      differs := by
        rw [length]
        decide }
  obtain ⟨answer, after, answered, changed⟩ := resizes.changes (by decide)
  obtain ⟨handled, handles, rfl⟩ := (@handleMessage_answered _ _ _ sampleCalls .init (.load 4 4)
    heldRequest).mpr ⟨answer, answered⟩
  exact changed (leaves handled handles)

end Grintorrent
