import Grintorrent.Client.Entries
import Grintorrent.Client.FileData
import Grintorrent.Lib.Runs

/-!
# Releasing a mapping

A `FILE_DATA` handler copies to a destination that `open_tfile` pointed it to, and
`download_file` unmaps the file as soon as `verify_tfile` finds it complete.  No lock is
held over the table, and several handlers can have decided to copy the same chunk: each
handler takes three steps, `download_file` one for each of its calls, and all of them come
in any order.
-/

namespace Grintorrent

open Lib Relation

/-- A handler that `open_tfile` has returned to. -/
structure OpenHandler where
  dataRead : Bytes
  dest : Location
  deriving DecidableEq

/-- The hash in the handler's buffer. -/
def OpenHandler.fileHash (handler : OpenHandler) : Digest :=
  (ChunkPayload.decode handler.dataRead).fileHash

/-- What a `download_file` does next. -/
inductive DownloadPhase where
  | verifying
  | requesting
  | saving
  deriving DecidableEq

/-- A run of `download_file`. -/
structure Download where
  fileHash : Digest
  phase : DownloadPhase
  deriving DecidableEq

/-- The table and the files of a client, and the threads at work on them.  `decided` are
the buffers of the handlers that have found their chunk unverified, and `opened` the
handlers that have called `open_tfile` and not made their copy. -/
structure Workers where
  store : Store
  decided : List Bytes
  opened : List OpenHandler
  downloads : List Download

/-- What the workers can do next. -/
inductive WorkerEvent where
  /-- A handler with this message in its buffer verifies and decides. -/
  | decides (dataRead : Bytes) (locals : VerifyLocals)
  /-- It calls `open_tfile`. -/
  | opens (dataRead : Bytes)
  /-- It makes its copy. -/
  | copies (handler : OpenHandler)
  /-- `download_file` is started. -/
  | starts (hash : Digest)
  /-- It verifies the file. -/
  | verifies (hash : Digest) (locals : VerifyLocals)
  /-- It requests the chunks that are not verified. -/
  | requests (hash : Digest)
  /-- It saves the file. -/
  | saves (hash : Digest) (syncs unmaps : Bool)

namespace Workers

variable {env : Env} {workers after : Workers} {event : WorkerEvent} {store : Store}

/-- A client without any of these threads. -/
def start (store : Store) : Workers where
  store := store
  decided := []
  opened := []
  downloads := []

/-- A `download_file` goes on to another phase. -/
def advance (workers : Workers) (hash : Digest) (phase phase' : DownloadPhase) : Workers :=
  { workers with downloads := ⟨hash, phase'⟩ :: workers.downloads.erase ⟨hash, phase⟩ }

/-- The event can happen next. -/
def Possible (workers : Workers) : WorkerEvent → Prop
  | .decides .. | .starts _ => True
  | .opens dataRead => dataRead ∈ workers.decided
  | .copies handler => handler ∈ workers.opened
  | .verifies hash _ => ⟨hash, .verifying⟩ ∈ workers.downloads
  | .requests hash => ⟨hash, .requesting⟩ ∈ workers.downloads
  | .saves hash _ _ => ⟨hash, .saving⟩ ∈ workers.downloads

/-- The workers after the event, if its calls return. -/
def next (env : Env) (workers : Workers) : WorkerEvent → Result Workers
  | .decides dataRead locals => do
      let hdr := ChunkPayload.decode dataRead
      let (chunks, store) ← verifyTfile env workers.store hdr.fileHash locals
      if isChunkVerified chunks hdr.chunkIndex.toInt then .ok { workers with store }
      else .ok { workers with store, decided := dataRead :: workers.decided }
  | .opens dataRead => do
      let hdr := ChunkPayload.decode dataRead
      match ← openTfile env workers.store hdr.fileHash hdr.chunkIndex.toInt with
      | (none, store) =>
          -- Without a destination there must be nothing to copy.
          if hdr.claimedSize = 0 then
            .ok { workers with store, decided := workers.decided.erase dataRead }
          else .error .nullPointer
      | (some (dest, _), store) =>
          .ok
            { workers with
              store
              decided := workers.decided.erase dataRead
              opened := ⟨dataRead, dest⟩ :: workers.opened }
  | .copies handler => do
      let chunkSize := (ntohl (ChunkPayload.decode handler.dataRead).chunkSize).toNat
      let store ← memcpyChunk env workers.store (some handler.dest) handler.dataRead chunkSize
      .ok { workers with store, opened := workers.opened.erase handler }
  | .starts hash => .ok { workers with downloads := ⟨hash, .verifying⟩ :: workers.downloads }
  | .verifies hash locals => do
      let (chunks, store) ← verifyTfile env workers.store hash locals
      let phase : DownloadPhase := if chunks = verifiedFile then .saving else .requesting
      .ok { workers.advance hash .verifying phase with store }
  | .requests hash => .ok (workers.advance hash .requesting .verifying)
  | .saves hash syncs unmaps => do
      let (_, store) ← saveTfile workers.store hash syncs unmaps
      .ok { workers with store, downloads := workers.downloads.erase ⟨hash, .saving⟩ }

/-- The workers take the step. -/
def Step (env : Env) (workers after : Workers) : Prop :=
  ∃ event, workers.Possible event ∧ workers.next env event = .ok after

/-- The destination lies in the mapping that the entry has. -/
def Current (workers : Workers) (handler : OpenHandler) : Prop :=
  ∃ tf, workers.store.ht.Entry handler.fileHash tf ∧ tf.mLocation = some handler.dest.mapping

/-- Every copy that can be made next goes to the mapping that the entry has. -/
def Safe (workers : Workers) : Prop :=
  ∀ handler, workers.Possible (.copies handler) → workers.Current handler

/-- A mapping is released only while no handler for its file is between `open_tfile` and
its copy. -/
def Sound (workers : Workers) : WorkerEvent → Prop
  | .saves hash syncs unmaps =>
      syncs = true → unmaps = true → ∀ handler ∈ workers.opened, handler.fileHash ≠ hash
  | _ => True

/-- The workers take a step that is sound. -/
def SoundStep (env : Env) (workers after : Workers) : Prop :=
  ∃ event, workers.Possible event ∧ workers.Sound event ∧ workers.next env event = .ok after

variable {hash : Digest} {chunk : Int} {tf : Tfile} {mapping : Mapping}

theorem openTfile_current {opened : Store} {dest : Location} {size : Int}
    (returned : openTfile env store hash chunk = .ok (some (dest, size), opened)) :
    ∃ tf, opened.ht.Entry hash tf ∧ tf.mLocation = some dest.mapping := by
  obtain ⟨index, tf, mapping, found, _, _, location, ⟨isMapped, rfl⟩ | ⟨notMapped, maps, opens,
    positive, accepts⟩⟩ := openTfile_some returned
  · rw [(Prod.mk.inj location).1]
    exact ⟨tf, ⟨index, found⟩, isMapped⟩
  · rw [(Prod.mk.inj location).1]
    rw [mapTfile_success notMapped opens positive accepts, Prod.mk.injEq] at maps
    obtain ⟨isMapping, rfl⟩ := maps
    exact ⟨_, ⟨index, lookupTfile_setLocations found _ _⟩, isMapping⟩

theorem saveTfile_mapped {index : Nat}
    (found : lookupTfile store.ht hash = .ok (some (index, tf)))
    (isMapped : tf.mLocation = some mapping) :
    saveTfile store hash true true =
      .ok (0, { store with ht := store.ht.setLocations index tf.fLocation none }) := by
  simp only [saveTfile, found, Result.ok_bind, isMapped, Bool.and_self, if_true]

/-- A call that releases nothing changes nothing. -/
theorem saveTfile_failed {saved : Store} {code : Int} {syncs unmaps : Bool}
    (fails : ¬(syncs = true ∧ unmaps = true))
    (returned : saveTfile store hash syncs unmaps = .ok (code, saved)) : saved = store := by
  rcases saveTfile_cases returned with same | ⟨_, _, succeeds, unmapped, _⟩
  · exact same
  · exact absurd ⟨succeeds, unmapped⟩ fails

/-! ## The steps -/

theorem Safe.of_table (safe : workers.Safe) (table : after.store.ht = workers.store.ht)
    (fewer : ∀ handler ∈ after.opened, handler ∈ workers.opened) : after.Safe := by
  intro handler member
  obtain ⟨tf, entry, isMapped⟩ := safe handler (fewer handler member)
  exact ⟨tf, table ▸ entry, isMapped⟩

/-- Handlers of other hashes are not concerned. -/
theorem Current.attached {handler : OpenHandler} (current : workers.Current handler)
    (attached : Attached workers.store.ht hash after.store.ht)
    (different : handler.fileHash ≠ hash) : after.Current handler := by
  obtain ⟨tf, ⟨index, found⟩, isMapped⟩ := current
  exact ⟨tf, ⟨index, (attached.others different).trans found⟩, isMapped⟩

theorem Safe.opens {dataRead : Bytes} (safe : workers.Safe)
    (completes : workers.next env (.opens dataRead) = .ok after) : after.Safe := by
  simp only [next, Result.bind_eq_ok] at completes
  obtain ⟨⟨result, store⟩, isOpened, rest⟩ := completes
  have others : ∀ handler ∈ workers.opened,
      ∃ tf, store.ht.Entry handler.fileHash tf ∧ tf.mLocation = some handler.dest.mapping := by
    intro handler old
    have current := safe handler old
    by_cases same : handler.fileHash = (ChunkPayload.decode dataRead).fileHash
    · obtain ⟨tf, entry, isMapped⟩ := current
      obtain rfl := openTfile_mapped (same ▸ entry) isMapped isOpened
      exact ⟨tf, entry, isMapped⟩
    · exact @Current.attached workers { workers with store } _ _ current
        (openTfile_attached isOpened) same
  cases result with
  | none =>
      simp only at rest
      split at rest
      next =>
          cases rest
          exact others
      next => simp at rest
  | some result =>
      obtain ⟨dest, size⟩ := result
      cases rest
      intro handler member
      rcases List.mem_cons.mp member with rfl | old
      · exact openTfile_current isOpened
      · exact others handler old

theorem Safe.saves {syncs unmaps : Bool} (safe : workers.Safe)
    (sound : workers.Sound (.saves hash syncs unmaps))
    (completes : workers.next env (.saves hash syncs unmaps) = .ok after) : after.Safe := by
  simp only [next, Result.bind_eq_ok] at completes
  obtain ⟨⟨code, store⟩, isSaved, rest⟩ := completes
  cases rest
  by_cases releases : syncs = true ∧ unmaps = true
  · intro handler member
    exact (safe handler member).attached (saveTfile_attached isSaved)
      (sound releases.1 releases.2 handler member)
  · obtain rfl := saveTfile_failed releases isSaved
    exact safe.of_table rfl fun _ member => member

/-- **One sound step** keeps the copies safe. -/
theorem Safe.step (safe : workers.Safe) (sound : workers.Sound event)
    (completes : workers.next env event = .ok after) : after.Safe := by
  cases event with
  | decides dataRead locals =>
      simp only [next, Result.bind_eq_ok] at completes
      obtain ⟨⟨chunks, store⟩, isVerified, rest⟩ := completes
      have table := (verifyTfile_files isVerified).2
      simp only at rest
      split at rest <;> cases rest <;> exact safe.of_table table fun _ member => member
  | opens dataRead => exact safe.opens completes
  | copies handler =>
      simp only [next, Result.bind_eq_ok] at completes
      obtain ⟨store, copied, rest⟩ := completes
      cases rest
      exact safe.of_table (memcpyChunk_files copied).1 fun _ member =>
        List.mem_of_mem_erase member
  | starts hash =>
      cases completes
      exact safe.of_table rfl fun _ member => member
  | verifies hash locals =>
      simp only [next, Result.bind_eq_ok] at completes
      obtain ⟨⟨chunks, store⟩, isVerified, rest⟩ := completes
      cases rest
      exact safe.of_table (verifyTfile_files isVerified).2 fun _ member => member
  | requests hash =>
      cases completes
      exact safe.of_table rfl fun _ member => member
  | saves hash syncs unmaps => exact safe.saves sound completes

/-- Once the entry of its hash has lost its mapping, a handler is not current. -/
theorem not_current_of_released {handler : OpenHandler} {index : Nat} {path : Option Path}
    (found : lookupTfile store.ht handler.fileHash = .ok (some (index, tf)))
    (released : after.store.ht = store.ht.setLocations index path none) :
    ¬after.Current handler := by
  rintro ⟨tf', entry, stillMapped⟩
  rw [released] at entry
  obtain rfl := entry.unique ⟨index, lookupTfile_setLocations found path none⟩
  simp at stillMapped

/-- A mapping that is released under a handler is not the one of the entry any more. -/
theorem Safe.saves_iff {syncs unmaps : Bool} (safe : workers.Safe)
    (completes : workers.next env (.saves hash syncs unmaps) = .ok after) :
    after.Safe ↔ workers.Sound (.saves hash syncs unmaps) := by
  constructor
  · rintro safeAfter rfl rfl handler member rfl
    obtain ⟨tf, ⟨index, found⟩, isMapped⟩ := safe handler member
    simp only [next, saveTfile_mapped found isMapped, Result.ok_bind] at completes
    cases completes
    exact not_current_of_released found rfl (safeAfter handler member)
  · intro sound
    exact safe.saves sound completes

theorem safe_run (run : ReflTransGen (SoundStep env) (start store) workers) : workers.Safe := by
  refine @invariant_run _ _ _ _ (fun workers => workers.Safe) ?_ run ?_
  · rintro workers after safe ⟨event, _, sound, completes⟩
    exact safe.step sound completes
  · intro handler member
    simp [Possible, start] at member

/-- **No write through a released mapping, as long as none is released under a handler**:
in every run of sound steps a copy goes to the mapping that the entry has, and saving a
file makes the first exception exactly if a handler for it is between `open_tfile` and its
copy. -/
theorem sound_run_safe (run : ReflTransGen (SoundStep env) (start store) workers) :
    workers.Safe ∧ ∀ hash syncs unmaps after,
      workers.next env (.saves hash syncs unmaps) = .ok after →
      (after.Safe ↔ workers.Sound (.saves hash syncs unmaps)) := by
  have safe := safe_run run
  constructor
  · exact safe
  · intro hash syncs unmaps after completes
    exact safe.saves_iff completes

/-- The three steps of a handler, one after the other, are `handleFileData`. -/
theorem handleFileData_steps {store after : Store} {dataRead : Bytes} {locals : VerifyLocals}
    (handled : handleFileData env store dataRead locals = .ok after) :
    ReflTransGen (Step env) (start store) (start after) := by
  obtain ⟨chunks, verified, isVerified, outcome⟩ := handleFileData_cases handled
  rcases outcome with ⟨reported, rfl⟩ | ⟨unreported, pointed, opened, isOpened, copied⟩
  · apply ReflTransGen.single
    refine ⟨.decides dataRead locals, trivial, ?_⟩
    simp only [next, start, isVerified, Result.ok_bind, reported, if_true]
  · have decides : Step env (start store) { start verified with decided := [dataRead] } := by
      refine ⟨.decides dataRead locals, trivial, ?_⟩
      simp only [next, start, isVerified, Result.ok_bind, unreported, Bool.false_eq_true,
        if_false]
    cases pointed with
    | none =>
        rcases memcpyChunk_cases copied with ⟨nothing, rfl⟩ | ⟨_, _, _, isDest, _⟩
        · have opens : Step env { start verified with decided := [dataRead] } (start after) := by
            refine ⟨.opens dataRead, List.mem_singleton_self _, ?_⟩
            simp only [next, start, isOpened, Result.ok_bind, ChunkPayload.claimedSize, nothing,
              if_true, List.erase_cons_head]
          exact (ReflTransGen.single decides).tail opens
        · simp at isDest
    | some pointed =>
        obtain ⟨dest, size⟩ := pointed
        have opens : Step env { start verified with decided := [dataRead] }
            { start opened with opened := [⟨dataRead, dest⟩] } := by
          refine ⟨.opens dataRead, List.mem_singleton_self _, ?_⟩
          simp only [next, start, isOpened, Result.ok_bind, List.erase_cons_head]
        have copies : Step env { start opened with opened := [⟨dataRead, dest⟩] }
            (start after) := by
          have made : memcpyChunk env opened (some dest) dataRead
              (ntohl (ChunkPayload.decode dataRead).chunkSize).toNat = .ok after := copied
          refine ⟨.copies ⟨dataRead, dest⟩, List.mem_singleton_self _, ?_⟩
          simp only [next, start, made, Result.ok_bind, List.erase_cons_head]
        exact ((ReflTransGen.single decides).tail opens).tail copies

section LastChunk

variable {tdef : TfileDef} {content : Option Bytes} {bytes dataRead : Bytes} {size : Nat}
variable {i : Fin numChunks} {hdr : ChunkPayload} {locals : VerifyLocals}
variable (workers)

theorem decides_copy (copy : Copy workers.store tdef tf content) (counts : tdef.size < 2 ^ 44)
    (opens : Opens env workers.store tf)
    (decoded : ChunkPayload.decode dataRead = hdr) (isHash : hdr.fileHash = tdef.fHash)
    (missing : isChunkVerified (report env tf content) hdr.chunkIndex.toInt = false) :
    ∃ store, workers.next env (.decides dataRead locals) =
        .ok { workers with store, decided := dataRead :: workers.decided } ∧
      Copy store tdef tf content := by
  obtain ⟨store, verified, copied, _⟩ := copy.verified counts opens locals
  refine ⟨store, ?_, copied⟩
  simp only [next, decoded, isHash, verified, Result.ok_bind, missing, Bool.false_eq_true,
    if_false]

theorem opens_copy (copy : Copy workers.store tdef tf content)
    (reachable : Reachable env workers.store tf) (sized : tdef.size = size)
    (positive : 0 < size) (small : size < 2 ^ 63)
    (decoded : ChunkPayload.decode dataRead = hdr) (isHash : hdr.fileHash = tdef.fHash)
    (isIndex : hdr.chunkIndex.toInt = i.val) :
    ∃ store mapping opened, workers.next env (.opens dataRead) =
        .ok
          { workers with
            store
            decided := workers.decided.erase dataRead
            opened := ⟨dataRead, ⟨mapping, size, chunkStart size i⟩⟩ :: workers.opened } ∧
      opened.mLocation = some mapping ∧
      Copy store tdef opened (some (filled size content)) := by
  obtain ⟨mapping, opened, store, pointed, isMapped, _, copied, _⟩ :=
    copy.open reachable sized positive small i
  refine ⟨store, mapping, opened, ?_, isMapped, copied⟩
  simp only [next, decoded, isHash, isIndex, pointed, Result.ok_bind]

theorem copies_copy (copy : Copy workers.store tdef tf (some bytes)) (sized : tdef.size = size)
    (isMapped : tf.mLocation = some mapping) (buffer : dataRead.length = messageSize)
    (fits : ChunkPayload.sizeOf + chunkLen size i ≤ messageSize)
    (decoded : ChunkPayload.decode dataRead = hdr) (claimed : hdr.claimedSize = chunkLen size i) :
    ∃ store, workers.next env (.copies ⟨dataRead, ⟨mapping, size, chunkStart size i⟩⟩) =
        .ok
          { workers with
            store
            opened := workers.opened.erase ⟨dataRead, ⟨mapping, size, chunkStart size i⟩⟩ } ∧
      Copy store tdef tf (some (splice (chunkStart size i)
        (slice ChunkPayload.sizeOf (chunkLen size i) dataRead) bytes)) := by
  have inside : ChunkPayload.sizeOf + chunkLen size i ≤ dataRead.length := buffer ▸ fits
  obtain ⟨os, written, copied, _⟩ := @Copy.write env _ _ _ _ _ _ _ _ copy sized isMapped
    (length_slice inside)
  refine ⟨{ workers.store with os }, ?_, copied⟩
  rw [ChunkPayload.claimedSize] at claimed
  simp only [next, decoded, claimed, memcpyChunk_eq inside written, Result.ok_bind]

theorem verifies_copy (copy : Copy workers.store tdef tf (some bytes))
    (counts : tdef.size < 2 ^ 44) (isMapped : tf.mLocation = some mapping)
    (complete : env.md5 bytes = tdef.fHash) :
    ∃ store, workers.next env (.verifies tdef.fHash locals) =
        .ok { workers.advance tdef.fHash .verifying .saving with store } ∧
      Copy store tdef tf (some bytes) := by
  have opens : Opens env workers.store tf := by
    intro notMapped
    simp [isMapped] at notMapped
  obtain ⟨store, verified, copied, _⟩ := copy.verified counts opens locals
  refine ⟨store, ?_, copied⟩
  have reported : report env tf (some bytes) = verifiedFile := by
    rw [report, if_neg (by simp [isMapped]), copy.same]
    exact verdict_eq_verifiedFile.mpr (.inl complete)
  simp only [next, verified, Result.ok_bind, reported, if_true]

end LastChunk

/-- The bytes of the sample file, with another first chunk. -/
@[irreducible] def lackingContent : Bytes := List.replicate 32 1 ++ List.replicate 224 0

/-- The buffer of a handler that has received the first chunk. -/
@[irreducible] def firstChunk : Bytes := bufferOf sampleHeader (List.replicate 32 0)

theorem length_lackingContent : lackingContent.length = 256 := by
  rw [lackingContent, List.length_append, List.length_replicate, List.length_replicate]

theorem decode_firstChunk : ChunkPayload.decode firstChunk = sampleHeader := by
  rw [firstChunk, decode_bufferOf]

theorem length_firstChunk : firstChunk.length = messageSize := by
  rw [firstChunk, length_bufferOf]

theorem sampleHeader_index : sampleHeader.chunkIndex.toInt = (0 : Fin numChunks).val := by
  decide

theorem sampleHeader_claimed : sampleHeader.claimedSize = chunkLen 256 0 := by
  rw [ChunkPayload.claimedSize, sampleHeader, ntohl_htonl]
  rfl

theorem lackingContent_filled :
    splice (chunkStart 256 0) (slice ChunkPayload.sizeOf (chunkLen 256 0) firstChunk)
      lackingContent = sampleContent := by
  have data : slice ChunkPayload.sizeOf (chunkLen 256 0) firstChunk = List.replicate 32 0 := by
    rw [firstChunk, bufferOf, slice, ← ChunkPayload.length_bytes sampleHeader, List.drop_left]
    rfl
  have start : chunkStart 256 0 = 0 := by decide
  rw [data, start, splice_zero, lackingContent, sampleContent, List.length_replicate,
    List.drop_left' List.length_replicate, List.replicate_append_replicate]

theorem sampleReceiver_missing {content : Bytes} :
    isChunkVerified (report sampleEnv { Tfile.zero with tdef := heldDef } (some content))
      sampleHeader.chunkIndex.toInt = false := by
  rw [report, if_pos ⟨rfl, rfl⟩]
  exact isChunkVerified_unverifiedFile _

theorem sampleReceiver_opens {store : Store} :
    Opens sampleEnv store { Tfile.zero with tdef := heldDef } :=
  fun _ => sampleEnv_opens _ heldDef_named

/-- A handler that has opened the file is about to copy to the mapping of the entry. -/
theorem sound_run_safe_opened :
    ∃ workers handler, ReflTransGen (SoundStep sampleEnv) (start (sampleReceiver staleContent))
        workers ∧
      workers.opened = [handler] ∧ workers.Current handler := by
  obtain ⟨decided, decides, copy⟩ := @decides_copy _ (start (sampleReceiver staleContent)) _ _ _ _
    _ ⟨0, fun _ => 0⟩ (sampleReceiver_copy length_staleContent) (by rw [heldDef_size]; decide)
    sampleReceiver_opens decode_firstChunk rfl sampleReceiver_missing
  obtain ⟨store, mapping, _, opens, _⟩ := opens_copy ⟨decided, [firstChunk], [], []⟩
    copy (sampleEnv_reachable _ heldDef_named) heldDef_size (by decide) (by decide)
    decode_firstChunk rfl sampleHeader_index
  rw [List.erase_cons_head] at opens
  have run := (ReflTransGen.single (show SoundStep sampleEnv _ _ from
    ⟨.decides firstChunk _, trivial, trivial, decides⟩)).tail
    (show SoundStep sampleEnv _ _ from
      ⟨.opens firstChunk, List.mem_singleton_self _, trivial, opens⟩)
  refine ⟨_, _, run, rfl, ?_⟩
  exact (sound_run_safe run).1 _ (List.mem_singleton_self _)

/-- Two handlers have received the last missing chunk, and one of them makes its copy:
`download_file` finds the file complete and unmaps it while the other one still has its
destination. -/
theorem released_under_handler :
    ∃ workers handler, ReflTransGen (Step sampleEnv) (start (sampleReceiver lackingContent))
        workers ∧
      workers.Possible (.copies handler) ∧ ¬workers.Current handler := by
  have counts : heldDef.size < 2 ^ 44 := by
    rw [heldDef_size]
    decide
  obtain ⟨once, decides, copy⟩ := @decides_copy sampleEnv
    (start (sampleReceiver lackingContent)) _ _ _ _ _ ⟨0, fun _ => 0⟩
    (sampleReceiver_copy length_lackingContent) counts sampleReceiver_opens decode_firstChunk rfl
    sampleReceiver_missing
  obtain ⟨twice, decidesAgain, copy⟩ := @decides_copy sampleEnv ⟨once, [firstChunk], [], []⟩ _ _ _
    _ _ ⟨0, fun _ => 0⟩ copy counts sampleReceiver_opens decode_firstChunk rfl
    sampleReceiver_missing
  obtain ⟨opened, mapping, entry, opens, isEntry, copy⟩ := opens_copy
    ⟨twice, [firstChunk, firstChunk], [], []⟩ copy (sampleEnv_reachable _ heldDef_named)
    heldDef_size (by decide) (by decide) decode_firstChunk rfl sampleHeader_index
  rw [List.erase_cons_head] at opens
  let late : OpenHandler := ⟨firstChunk, ⟨mapping, (256 : Nat), chunkStart 256 0⟩⟩
  have again : Reachable sampleEnv opened entry := by
    intro notMapped
    simp [isEntry] at notMapped
  obtain ⟨reopened, mapping', tf, opensAgain, isMapped, copy⟩ := opens_copy
    ⟨opened, [firstChunk], [late], []⟩ copy again heldDef_size (by decide) (by decide)
    decode_firstChunk rfl sampleHeader_index
  rw [List.erase_cons_head] at opensAgain
  let early : OpenHandler := ⟨firstChunk, ⟨mapping', (256 : Nat), chunkStart 256 0⟩⟩
  obtain ⟨written, copies, copy⟩ := @copies_copy sampleEnv ⟨reopened, [], [early, late], []⟩ _ _ _
    _ _ _ _ _ copy heldDef_size isMapped length_firstChunk (by decide) decode_firstChunk
    sampleHeader_claimed
  rw [List.erase_cons_head] at copies
  rw [filled, Option.getD_some, filled, Option.getD_some, lackingContent_filled] at copy
  obtain ⟨verified, verifies, copy⟩ := @verifies_copy sampleEnv
    ⟨written, [], [late], [⟨heldDef.fHash, .verifying⟩]⟩ _ _ _ _ ⟨0, fun _ => 0⟩ copy counts
    isMapped (by rw [heldDef, definitionOf_fHash])
  simp only [advance, List.erase_cons_head] at verifies
  obtain ⟨index, found⟩ := copy.found
  have saves : next sampleEnv ⟨verified, [], [late], [⟨heldDef.fHash, .saving⟩]⟩
      (.saves heldDef.fHash true true) =
        .ok ⟨{ verified with ht := verified.ht.setLocations index tf.fLocation none }, [], [late],
          []⟩ := by
    simp only [next, saveTfile_mapped found isMapped, Result.ok_bind, List.erase_cons_head]
  have run : ReflTransGen (Step sampleEnv) (start (sampleReceiver lackingContent))
      ⟨{ verified with ht := verified.ht.setLocations index tf.fLocation none }, [], [late],
        []⟩ := by
    apply ReflTransGen.head ⟨.decides firstChunk _, trivial, decides⟩
    apply ReflTransGen.head ⟨.decides firstChunk _, trivial, decidesAgain⟩
    apply ReflTransGen.head ⟨.opens firstChunk, List.mem_cons_self, opens⟩
    apply ReflTransGen.head ⟨.opens firstChunk, List.mem_cons_self, opensAgain⟩
    apply ReflTransGen.head ⟨.copies early, List.mem_cons_self, copies⟩
    apply ReflTransGen.head ⟨.starts heldDef.fHash, trivial, rfl⟩
    apply ReflTransGen.head ⟨.verifies heldDef.fHash _, List.mem_cons_self, verifies⟩
    exact .single ⟨.saves heldDef.fHash true true, List.mem_cons_self, saves⟩
  refine ⟨_, late, run, List.mem_cons_self, ?_⟩
  have isHash : late.fileHash = heldDef.fHash := by
    rw [OpenHandler.fileHash, decode_firstChunk]
    rfl
  exact not_current_of_released (isHash ▸ found) rfl

end Workers

end Grintorrent
