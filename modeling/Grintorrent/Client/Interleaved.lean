import Grintorrent.Client.Downloading
import Grintorrent.Client.Interference
import Grintorrent.Client.Release
import Grintorrent.Client.Swarm

/-!
# Handlers that interleave

Two handlers that have received the same chunk can both find it unverified, and then both
copy it, one of them after the chunk has been reported as verified.  While the chunks that
arrive for a file are those of the original, the second copy writes what is there already:
whatever the order of the steps, and whatever is done for other files, no chunk of the
original is lost, and a file that `download_file` goes on to save is the original.
-/

namespace Grintorrent

open Lib Relation

variable {env : Env} {tdef : TfileDef} {tf tf' : Tfile} {original bytes dataRead : Bytes}
variable {content content' : Option Bytes} {store before after : Store} {home : Path}
variable {hash : Digest} {size : Int}

/-- The buffer of a handler holds this chunk of the original. -/
structure Genuine (original : Bytes) (i : Fin numChunks) (dataRead : Bytes) : Prop where
  inside : ChunkPayload.sizeOf + chunkLen original.length i ≤ dataRead.length
  index : (ChunkPayload.decode dataRead).chunkIndex.toInt = i.val
  claimed : (ntohl (ChunkPayload.decode dataRead).chunkSize).toNat = chunkLen original.length i
  data : slice ChunkPayload.sizeOf (chunkLen original.length i) dataRead = chunkOf original i

theorem Carries.genuine {message : FileData} {i : Fin numChunks}
    (carries : Carries tdef.fHash original.length i (chunkOf original i) message) :
    Genuine original i (splice 0 message.payload message.dataRead) := by
  have whole : ChunkPayload.sizeOf ≤ message.payload.length := by
    rw [carries.length]
    exact Nat.le_add_right _ _
  have header : ChunkPayload.decode (splice 0 message.payload message.dataRead) =
      ChunkPayload.decode message.payload := by
    rw [splice_zero]
    exact ChunkPayload.decode_prefix whole _
  refine ⟨?_, header ▸ carries.index, header ▸ carries.claimed, ?_⟩
  · rw [splice_zero, List.length_append, carries.length]
    exact Nat.le_add_right _ _
  · rw [splice_zero]
    exact carries.slice_eq _

/-- The entry has one path for its file. -/
def Tfile.Only (tf : Tfile) (home : Path) : Prop :=
  ∀ path, tf.Uses path → path = home

theorem Tfile.Only.home_eq (only : tf.Only home) : tf.home = home := only _ tf.uses_home

/-- Every chunk is as it was, or that of the original, and the file has not gone. -/
structure Restores (original : Bytes) (size : Int) (content content' : Option Bytes) : Prop where
  chunks : ∀ i, chunkOf (filled size content') i = chunkOf (filled size content) i ∨
    chunkOf (filled size content') i = chunkOf original i
  exists_of : content ≠ none → content' ≠ none

theorem Restores.refl (original : Bytes) (size : Int) (content : Option Bytes) :
    Restores original size content content where
  chunks _ := .inl rfl
  exists_of := id

theorem Restores.trans {content'' : Option Bytes}
    (first : Restores original size content content')
    (second : Restores original size content' content'') :
    Restores original size content content'' where
  chunks i := by
    rcases second.chunks i with same | restored
    · rw [same]
      exact first.chunks i
    · exact .inr restored
  exists_of present := second.exists_of (first.exists_of present)

theorem Restores.complete (restores : Restores original size (some original) content')
    (sized : ∀ {bytes}, content' = some bytes → bytes.length = original.length) :
    content' = some original := by
  cases content' with
  | none => exact absurd rfl (restores.exists_of (by simp))
  | some bytes =>
      congr 1
      apply eq_of_chunks (sized rfl)
      intro i
      rcases restores.chunks i with same | restored
      · exact same
      · exact restored

theorem restores_splice (length : bytes.length = original.length) (i : Fin numChunks) :
    Restores original size (some bytes)
      (some (splice (chunkStart original.length i) (chunkOf original i) bytes)) where
  chunks j := by
    have exact := length_chunkOf original i
    simp only [filled, Option.getD_some]
    by_cases same : j = i
    · subst same
      exact .inr (chunkOf_splice_self length exact)
    · exact .inl (chunkOf_splice_of_ne length exact same)
  exists_of _ := by simp

/-- From one store to another, the copy is restored, at the same path. -/
def Restored (tdef : TfileDef) (original : Bytes) (home : Path) (before after : Store) : Prop :=
  ∀ tf content, Copy before tdef tf content → tf.Only home →
    ∃ tf' content', Copy after tdef tf' content' ∧ tf'.Only home ∧
      Restores original tdef.size content content'

theorem Restored.trans {between : Store} (first : Restored tdef original home before between)
    (second : Restored tdef original home between after) :
    Restored tdef original home before after := by
  intro tf content copy only
  obtain ⟨tf', content', copy', only', restores⟩ := first tf content copy only
  obtain ⟨tf'', content'', copy'', only'', restores'⟩ := second tf' content' copy' only'
  exact ⟨tf'', content'', copy'', only'', restores.trans restores'⟩

theorem Copy.congr (copy : Copy before tdef tf content)
    (table : lookupTfile after.ht tdef.fHash = lookupTfile before.ht tdef.fHash)
    (file : after.os.files tf.home = before.os.files tf.home) : Copy after tdef tf content where
  found := by
    rw [table]
    exact copy.found
  same := copy.same
  file := file.trans copy.file
  sized := copy.sized
  mapped := copy.mapped

theorem restored_congr
    (table : lookupTfile after.ht tdef.fHash = lookupTfile before.ht tdef.fHash)
    (file : after.os.files home = before.os.files home) :
    Restored tdef original home before after := by
  intro tf content copy only
  refine ⟨tf, content, copy.congr table ?_, only, .refl _ _ _⟩
  rw [only.home_eq, file]

/-- No entry of another hash uses the file at this path. -/
def Apart (store : Store) (hash : Digest) (home : Path) : Prop :=
  ∀ other tf, other ≠ hash → store.ht.Entry other tf → ¬tf.Reaches store.os home

theorem Apart.confined {other : Digest} (apart : Apart before hash home)
    (confined : Confined other before after) : Apart after hash home := by
  intro stranger tf different entry reached
  by_cases same : stranger = other
  · subst same
    obtain ⟨first, firstEntry, uses⟩ := confined.own entry
    exact apart _ first different firstEntry (reached.of_uses uses confined.resolve)
  · obtain ⟨index, found⟩ := entry
    exact apart _ tf different ⟨index, (confined.others same).symm.trans found⟩
      (reached.of_uses (fun _ used => used) confined.resolve)

theorem Apart.restored {other : Digest} (apart : Apart before tdef.fHash home)
    (confined : Confined other before after) (different : other ≠ tdef.fHash) :
    Restored tdef original home before after := by
  apply restored_congr
  · exact confined.others (Ne.symm different)
  · exact confined.files fun tf entry => apart other tf different entry

theorem verifyTfile_restored {locals : VerifyLocals} {chunks : VerifiedChunks}
    (returned : verifyTfile env before hash locals = .ok (chunks, after)) :
    Restored tdef original home before after := by
  obtain ⟨files, table⟩ := verifyTfile_files returned
  apply restored_congr
  · rw [table]
  · rw [files]

/-- `open_tfile` leaves the bytes, and creates a file that there was not. -/
theorem openTfile_restored {chunk : Int} {dest : Location} {length : Int}
    (creates : before.os.files home = none → env.ftruncateOk home original.length = true)
    (sized : tdef.size = original.length)
    (returned : openTfile env before tdef.fHash chunk = .ok (some (dest, length), after)) :
    Restored tdef original home before after := by
  intro tf content copy only
  have homeEq := only.home_eq
  obtain ⟨index, found⟩ := copy.found
  obtain ⟨index', entry, mapping, found', _, _, _, ⟨isMapped, rfl⟩ | ⟨notMapped, mapped, opens,
    positive, maps⟩⟩ := openTfile_some returned
  · exact ⟨tf, content, copy, only, .refl _ _ _⟩
  · rw [found, Except.ok.injEq, Option.some.injEq, Prod.mk.injEq] at found'
    obtain ⟨rfl, rfl⟩ := found'
    have reachable : Reachable env before tf := by
      refine fun _ => ⟨opens, maps, fun missing => ?_⟩
      rw [homeEq] at missing ⊢
      rw [copy.same, sized]
      exact creates missing
    obtain ⟨mapping', after', mapped', home', kept, _⟩ :=
      copy.map reachable (copy.same ▸ positive) found notMapped
    rw [mapped', Prod.mk.injEq, Option.some.injEq] at mapped
    obtain ⟨rfl, rfl⟩ := mapped
    refine ⟨_, _, kept, ?_, ?_, fun _ => by simp⟩
    · rintro path (atHome | located)
      · rw [atHome]
        exact home'.trans homeEq
      · exact located.trans homeEq
    · intro i
      exact .inl rfl

theorem openTfile_kept {chunk : Int} {opened : Option (Location × Int)}
    (copy : Copy before tdef tf (some bytes)) (only : tf.Only home) (positive : 0 < tdef.size)
    (returned : openTfile env before tdef.fHash chunk = .ok (opened, after)) :
    Restored tdef original home before after := by
  intro first content copy' only'
  obtain ⟨rfl, rfl⟩ := copy.unique copy'
  obtain ⟨tf', opens, _⟩ := copy.opened positive returned
  obtain ⟨entry, isEntry, uses⟩ := (openTfile_confined returned).own opens.found
  obtain rfl := isEntry.unique copy.found
  exact ⟨tf', _, opens, fun path used => only path (uses path used), .refl _ _ _⟩

theorem saveTfile_restored {code : Int} {syncs unmaps : Bool}
    (returned : saveTfile before hash syncs unmaps = .ok (code, after)) :
    Restored tdef original home before after := by
  rcases saveTfile_cases returned with rfl | ⟨index, entry, _, _, found, isMapped, rfl⟩
  · exact fun tf content copy only => ⟨tf, content, copy, only, .refl _ _ _⟩
  · by_cases same : hash = tdef.fHash
    · subst same
      intro tf content copy only
      obtain ⟨index', found'⟩ := copy.found
      rw [found, Except.ok.injEq, Option.some.injEq, Prod.mk.injEq] at found'
      obtain ⟨rfl, rfl⟩ := found'
      have located : entry.fLocation.getD entry.tdef.namePath = home := only _ (.inr rfl)
      have released : Tfile.home { entry with mLocation := none } = home := located
      refine ⟨{ entry with mLocation := none }, content, ?_, ?_, .refl _ _ _⟩
      · refine ⟨⟨index, lookupTfile_setLocations found _ _⟩, copy.same, ?_, copy.sized, by simp⟩
        rw [released, ← only.home_eq]
        exact copy.file
      · rintro path (atHome | isLocated)
        · exact atHome.trans released
        · exact isLocated.trans located
    · apply restored_congr
      · exact lookupTfile_setLocations_of_ne found (Ne.symm same) _ _
      · rfl

theorem eq_original_of_complete {name : Vector UInt8 nameLen}
    (copy : Copy store tdef tf content) (defined : tdef = definitionOf env name original)
    (sized : tdef.size = original.length) (uncollided : Uncollided env original store tdef.fHash)
    (complete : report env tf content = verifiedFile) : content = some original := by
  have every : ∀ i, Reported env tf content i := by
    intro i
    rw [Reported, complete]
    exact isChunkVerified_verifiedFile i
  obtain ⟨bytes, rfl, _, _⟩ := reported_iff.mp (every 0)
  obtain ⟨index, found⟩ := copy.found
  have recorded := copy.sized rfl
  congr 1
  apply eq_original_of_reported (copy.same.trans defined) _ every
    (uncollided index tf bytes found copy.file)
  omega

/-! ## The workers -/

namespace Workers

variable {workers : Workers} {event : WorkerEvent}

/-- What a step that completes has done. -/
inductive Took (env : Env) (workers : Workers) : WorkerEvent → Workers → Prop where
  | skips {dataRead : Bytes} {locals : VerifyLocals} {chunks : VerifiedChunks} {store : Store} :
      verifyTfile env workers.store (ChunkPayload.decode dataRead).fileHash locals =
        .ok (chunks, store) →
      Took env workers (.decides dataRead locals) { workers with store }
  | decides {dataRead : Bytes} {locals : VerifyLocals} {chunks : VerifiedChunks}
      {store : Store} :
      verifyTfile env workers.store (ChunkPayload.decode dataRead).fileHash locals =
        .ok (chunks, store) →
      Took env workers (.decides dataRead locals)
        { workers with store, decided := dataRead :: workers.decided }
  | misses {dataRead : Bytes} {store : Store} :
      openTfile env workers.store (ChunkPayload.decode dataRead).fileHash
        (ChunkPayload.decode dataRead).chunkIndex.toInt = .ok (none, store) →
      (ChunkPayload.decode dataRead).claimedSize = 0 →
      Took env workers (.opens dataRead)
        { workers with store, decided := workers.decided.erase dataRead }
  | opens {dataRead : Bytes} {dest : Location} {size : Int} {store : Store} :
      openTfile env workers.store (ChunkPayload.decode dataRead).fileHash
        (ChunkPayload.decode dataRead).chunkIndex.toInt = .ok (some (dest, size), store) →
      Took env workers (.opens dataRead)
        { workers with
          store
          decided := workers.decided.erase dataRead
          opened := ⟨dataRead, dest⟩ :: workers.opened }
  | copies {handler : OpenHandler} {store : Store} :
      memcpyChunk env workers.store (some handler.dest) handler.dataRead
        (ntohl (ChunkPayload.decode handler.dataRead).chunkSize).toNat = .ok store →
      Took env workers (.copies handler)
        { workers with store, opened := workers.opened.erase handler }
  | starts (hash : Digest) :
      Took env workers (.starts hash)
        { workers with downloads := ⟨hash, .verifying⟩ :: workers.downloads }
  | verifies {hash : Digest} {locals : VerifyLocals} {chunks : VerifiedChunks}
      {store : Store} :
      verifyTfile env workers.store hash locals = .ok (chunks, store) →
      Took env workers (.verifies hash locals)
        { workers.advance hash .verifying
            (if chunks = verifiedFile then .saving else .requesting) with store }
  | requests (hash : Digest) :
      Took env workers (.requests hash) (workers.advance hash .requesting .verifying)
  | saves {hash : Digest} {syncs unmaps : Bool} {code : Int} {store : Store} :
      saveTfile workers.store hash syncs unmaps = .ok (code, store) →
      Took env workers (.saves hash syncs unmaps)
        { workers with store, downloads := workers.downloads.erase ⟨hash, .saving⟩ }

theorem took_of_next {after : Workers} (completes : workers.next env event = .ok after) :
    Took env workers event after := by
  cases event with
  | decides dataRead locals =>
      simp only [next, Result.bind_eq_ok] at completes
      obtain ⟨⟨chunks, store⟩, isVerified, rest⟩ := completes
      simp only at rest
      split at rest <;> cases rest
      · exact .skips isVerified
      · exact .decides isVerified
  | opens dataRead =>
      simp only [next, Result.bind_eq_ok] at completes
      obtain ⟨⟨result, store⟩, isOpened, rest⟩ := completes
      cases result with
      | none =>
          simp only at rest
          split at rest
          next nothing =>
              cases rest
              exact .misses isOpened nothing
          next => simp at rest
      | some result =>
          cases rest
          exact .opens isOpened
  | copies handler =>
      simp only [next, Result.bind_eq_ok] at completes
      obtain ⟨store, copied, rest⟩ := completes
      cases rest
      exact .copies copied
  | starts hash =>
      cases completes
      exact .starts hash
  | verifies hash locals =>
      simp only [next, Result.bind_eq_ok] at completes
      obtain ⟨⟨chunks, store⟩, isVerified, rest⟩ := completes
      cases rest
      exact .verifies isVerified
  | requests hash =>
      cases completes
      exact .requests hash
  | saves hash syncs unmaps =>
      simp only [next, Result.bind_eq_ok] at completes
      obtain ⟨⟨code, store⟩, isSaved, rest⟩ := completes
      cases rest
      exact .saves isSaved

variable {after : Workers}

/-- A chunk that a handler finds missing from the file is that of the original, and where
the file is verified the strings that are compared do not collide. -/
def Honest (env : Env) (tdef : TfileDef) (original : Bytes) (workers : Workers) :
    WorkerEvent → Prop
  | .decides dataRead _ =>
      (ChunkPayload.decode dataRead).fileHash = tdef.fHash → ∃ i, Genuine original i dataRead
  | .verifies hash _ => hash = tdef.fHash → Uncollided env original workers.store hash
  | _ => True

/-- The workers take a step that is sound and honest. -/
def HonestStep (env : Env) (tdef : TfileDef) (original : Bytes) (workers after : Workers) :
    Prop :=
  ∃ event, workers.Possible event ∧ workers.Sound event ∧ workers.Honest env tdef original event ∧
    workers.next env event = .ok after

/-- The destination of a handler for the file is the place of its chunk. -/
def Aimed (tdef : TfileDef) (original : Bytes) (handler : OpenHandler) : Prop :=
  handler.fileHash = tdef.fHash →
    ∃ i mapping, Genuine original i handler.dataRead ∧
      handler.dest = ⟨mapping, original.length, chunkStart original.length i⟩

/-- The file has a copy at its path, every chunk that is about to be written to it is one
of the original, and it is the original when it is about to be saved. -/
structure Intact (env : Env) (tdef : TfileDef) (original : Bytes) (home : Path)
    (workers : Workers) : Prop where
  copy : ∃ tf content, Copy workers.store tdef tf content ∧ tf.Only home
  creates : workers.store.os.files home = none → env.ftruncateOk home original.length = true
  apart : Apart workers.store tdef.fHash home
  safe : workers.Safe
  decided : ∀ dataRead ∈ workers.decided,
    (ChunkPayload.decode dataRead).fileHash = tdef.fHash → ∃ i, Genuine original i dataRead
  opened : ∀ handler ∈ workers.opened, Aimed tdef original handler
  saving : ⟨tdef.fHash, .saving⟩ ∈ workers.downloads →
    ∀ tf content, Copy workers.store tdef tf content → content = some original

/-- A handler for the file can make its copy, and then the chunk is that of the original. -/
theorem Intact.copies {handler : OpenHandler} (intact : Intact env tdef original home workers)
    (sized : tdef.size = original.length) (copy : Copy workers.store tdef tf content)
    (member : handler ∈ workers.opened) (own : handler.fileHash = tdef.fHash) :
    ∃ i bytes store, Genuine original i handler.dataRead ∧ content = some bytes ∧
      bytes.length = original.length ∧
      memcpyChunk env workers.store (some handler.dest) handler.dataRead
        (ntohl (ChunkPayload.decode handler.dataRead).chunkSize).toNat = .ok store ∧
      Copy store tdef tf
        (some (splice (chunkStart original.length i) (chunkOf original i) bytes)) := by
  obtain ⟨i, mapping, genuine, dest⟩ := intact.opened handler member own
  obtain ⟨entry, ⟨index, found⟩, isMapped⟩ := intact.safe handler member
  obtain ⟨index', found'⟩ := copy.found
  rw [own, found', Except.ok.injEq, Option.some.injEq, Prod.mk.injEq] at found
  obtain ⟨rfl, rfl⟩ := found
  cases content with
  | none => exact absurd rfl (copy.mapped (by simp [isMapped]))
  | some bytes =>
      have recorded := copy.sized rfl
      have inside := genuine.inside
      rw [dest] at isMapped
      obtain ⟨os, written, final, _⟩ := copy.write sized isMapped (length_chunkOf original i)
      refine ⟨i, bytes, { workers.store with os }, genuine, rfl, by omega, ?_, final⟩
      rw [dest, genuine.claimed]
      exact memcpyChunk_eq inside (genuine.data.symm ▸ written)

theorem Intact.copies_other {handler : OpenHandler} {store : Store}
    (intact : Intact env tdef original home workers) (member : handler ∈ workers.opened)
    (other : handler.fileHash ≠ tdef.fHash) {chunkSize : Nat}
    (copied : memcpyChunk env workers.store (some handler.dest) handler.dataRead chunkSize =
      .ok store) : Restored tdef original home workers.store store := by
  obtain ⟨entry, isEntry, isMapped⟩ := intact.safe handler member
  obtain ⟨table, frame⟩ := memcpyChunk_files copied
  apply restored_congr
  · rw [table]
  · apply frame.files
    intro same
    refine intact.apart _ entry other isEntry ⟨entry.home, entry.uses_home, ?_⟩
    rw [same]
    simp only [Tfile.home, isMapped]

/-- **One step** restores the copy, and leaves the other entries apart from it. -/
theorem Intact.restored (intact : Intact env tdef original home workers)
    (sized : tdef.size = original.length) (nonempty : ∀ i, 0 < chunkLen original.length i)
    (possible : workers.Possible event) (took : Took env workers event after) :
    Restored tdef original home workers.store after.store ∧
      Apart after.store tdef.fHash home := by
  cases took with
  | skips isVerified | decides isVerified | verifies isVerified =>
      exact ⟨verifyTfile_restored isVerified,
        intact.apart.confined (verifyTfile_confined isVerified)⟩
  | @misses dataRead store isOpened nothing =>
      have confined := openTfile_confined isOpened
      refine ⟨intact.apart.restored confined fun own => ?_, intact.apart.confined confined⟩
      obtain ⟨i, genuine⟩ := intact.decided dataRead possible own
      have claimed := genuine.claimed
      have positive := nonempty i
      rw [ChunkPayload.claimedSize] at nothing
      omega
  | @opens dataRead dest size store isOpened =>
      have confined := openTfile_confined isOpened
      refine ⟨?_, intact.apart.confined confined⟩
      by_cases own : (ChunkPayload.decode dataRead).fileHash = tdef.fHash
      · rw [own] at isOpened
        exact openTfile_restored intact.creates sized isOpened
      · exact intact.apart.restored confined own
  | @copies handler store copied =>
      obtain ⟨table, frame⟩ := memcpyChunk_files copied
      refine ⟨?_, fun other tf different entry reached => intact.apart other tf different
        (table ▸ entry) (reached.of_uses (fun _ used => used) frame.resolve)⟩
      by_cases own : handler.fileHash = tdef.fHash
      · intro tf content copy only
        obtain ⟨i, bytes, store', _, rfl, length, copied', final⟩ :=
          intact.copies sized copy possible own
        rw [copied', Except.ok.injEq] at copied
        subst copied
        exact ⟨tf, _, final, only, restores_splice length i⟩
      · exact intact.copies_other possible own copied
  | starts | requests => exact ⟨restored_congr rfl rfl, intact.apart⟩
  | saves isSaved =>
      exact ⟨saveTfile_restored isSaved, intact.apart.confined (saveTfile_confined isSaved)⟩

/-- What is left to write after a step was there before, or has arrived with it. -/
theorem Intact.handlers (intact : Intact env tdef original home workers)
    (sized : tdef.size = original.length) (possible : workers.Possible event)
    (honest : workers.Honest env tdef original event)
    (took : Took env workers event after) :
    (∀ dataRead ∈ after.decided,
        (ChunkPayload.decode dataRead).fileHash = tdef.fHash → ∃ i, Genuine original i dataRead) ∧
      ∀ handler ∈ after.opened, Aimed tdef original handler := by
  cases took with
  | skips | starts | requests | verifies | saves => exact ⟨intact.decided, intact.opened⟩
  | decides =>
      refine ⟨?_, intact.opened⟩
      intro dataRead member
      rcases List.mem_cons.mp member with rfl | old
      · exact honest
      · exact intact.decided dataRead old
  | copies =>
      exact ⟨intact.decided, fun handler member =>
        intact.opened handler (List.mem_of_mem_erase member)⟩
  | misses =>
      exact ⟨fun dataRead member => intact.decided dataRead (List.mem_of_mem_erase member),
        intact.opened⟩
  | @opens dataRead dest size store isOpened =>
      refine ⟨fun dataRead member => intact.decided dataRead (List.mem_of_mem_erase member), ?_⟩
      intro handler member
      rcases List.mem_cons.mp member with rfl | old
      · intro own
        obtain ⟨i, genuine⟩ := intact.decided dataRead possible own
        obtain ⟨tf, content, copy, _⟩ := intact.copy
        obtain ⟨index, found⟩ := copy.found
        obtain ⟨index', entry, mapping, found', _, _, location, _⟩ := openTfile_some isOpened
        refine ⟨i, mapping, genuine, ?_⟩
        rw [OpenHandler.fileHash] at own
        rw [own, found, Except.ok.injEq, Option.some.injEq, Prod.mk.injEq] at found'
        obtain ⟨rfl, rfl⟩ := found'
        rw [copy.same, sized, genuine.index, chunkLocation_eq, Prod.mk.injEq] at location
        exact location.1
      · exact intact.opened handler old

/-- A file that is about to be saved after a step was so before, or has been found
complete. -/
theorem saving_cases (took : Took env workers event after)
    (member : ⟨hash, .saving⟩ ∈ after.downloads) :
    ⟨hash, .saving⟩ ∈ workers.downloads ∨
      ∃ locals, event = .verifies hash locals ∧
        verifyTfile env workers.store hash locals = .ok (verifiedFile, after.store) := by
  cases took with
  | skips | decides | misses | opens | copies => exact .inl member
  | starts other => exact .inl (by simpa using member)
  | @verifies other locals chunks store isVerified =>
      rcases List.mem_cons.mp member with new | old
      · split at new
        next complete =>
            cases new
            exact .inr ⟨locals, rfl, complete ▸ isVerified⟩
        next => simp at new
      · exact .inl (List.mem_of_mem_erase old)
  | requests other =>
      rcases List.mem_cons.mp member with new | old
      · simp at new
      · exact .inl (List.mem_of_mem_erase old)
  | saves => exact .inl (List.mem_of_mem_erase member)

theorem Intact.creates_of (intact : Intact env tdef original home workers)
    (restored : Restored tdef original home workers.store store) :
    store.os.files home = none → env.ftruncateOk home original.length = true := by
  intro missing
  apply intact.creates
  obtain ⟨tf, content, copy, only⟩ := intact.copy
  obtain ⟨tf', content', copy', only', restores⟩ := restored tf content copy only
  rw [← only.home_eq, copy.file]
  by_contra present
  rw [← only'.home_eq, copy'.file] at missing
  exact restores.exists_of present missing

variable {name : Vector UInt8 nameLen}

/-- **A step** that is sound and honest keeps the file intact. -/
theorem Intact.step (intact : Intact env tdef original home workers)
    (defined : tdef = definitionOf env name original) (admitted : minSize ≤ original.length)
    (counts : original.length < 2 ^ 44) (step : HonestStep env tdef original workers after) :
    Intact env tdef original home after ∧
      Restored tdef original home workers.store after.store := by
  obtain ⟨event, possible, sound, honest, completes⟩ := step
  have took := took_of_next completes
  have sized : tdef.size = original.length := by rw [defined, definitionOf_size]
  obtain ⟨restored, apart⟩ := intact.restored sized (chunkLen_pos admitted) possible took
  obtain ⟨decided, opened⟩ := intact.handlers sized possible honest took
  obtain ⟨tf, content, copy, only⟩ := intact.copy
  obtain ⟨tf', content', copy', only', restores⟩ := restored tf content copy only
  refine ⟨⟨⟨tf', content', copy', only'⟩, intact.creates_of restored, apart,
    intact.safe.step sound completes, decided, opened, ?_⟩, restored⟩
  intro member final finalContent isFinal
  obtain ⟨rfl, rfl⟩ := isFinal.unique copy'
  rcases saving_cases took member with saving | ⟨locals, rfl, isVerified⟩
  · rw [intact.saving saving tf content copy] at restores
    apply restores.complete
    intro bytes present
    have recorded := copy'.sized present
    omega
  · rcases copy.verify_cases (by omega) isVerified with ⟨_, complete, kept⟩ | ⟨_, unverified, _⟩
    · obtain ⟨rfl, rfl⟩ := (copy.of_leak kept).unique copy'
      exact eq_original_of_complete copy defined sized (honest rfl) complete.symm
    · exact absurd unverified.symm unverifiedFile_ne_verifiedFile

theorem Intact.run (defined : tdef = definitionOf env name original)
    (admitted : minSize ≤ original.length) (counts : original.length < 2 ^ 44)
    (intact : Intact env tdef original home workers)
    (run : ReflTransGen (HonestStep env tdef original) workers after) :
    Intact env tdef original home after ∧
      Restored tdef original home workers.store after.store := by
  induction run with
  | refl => exact ⟨intact, restored_congr rfl rfl⟩
  | tail _ last ih =>
      obtain ⟨intact', restored⟩ := ih
      obtain ⟨intact'', restored'⟩ := intact'.step defined admitted counts last
      exact ⟨intact'', restored.trans restored'⟩

theorem intact_start (copy : Copy store tdef tf content) (only : tf.Only tf.home)
    (creates : Creates env tf.home original.length content)
    (apart : Apart store tdef.fHash tf.home) :
    Intact env tdef original tf.home (start store) where
  copy := ⟨tf, content, copy, only⟩
  creates missing := creates (copy.file.symm.trans missing)
  apart := apart
  safe := by
    intro handler member
    simp [Possible, start] at member
  decided := by simp [start]
  opened := by simp [start]
  saving := by simp [start]

/-- **Honest chunks in any order.**  A client holds a generated definition, with an entry of
one path, whose file no other entry uses and which can be created if there is none.  Any
number of handlers and downloads are at work on the client's files, and no mapping is released
while a handler for it is between `open_tfile` and its copy.  The chunks that arrive for this
file are those of the original, and where it is verified the digests compared do not collide.
From each state to each later one, a chunk of the file stays as it is or becomes that of the
original, a file that `download_file` goes on to save is the original, and a handler for the
file that has opened it can make its copy, which makes its chunk that of the original. -/
theorem honest_run_restores {maker : Env} {fuel : Nat} {origin stored receiver : Store}
    {scratch : TfileDef} {path : Path}
    (generated : generateTfile maker fuel origin scratch path name = .ok (0, tdef, stored))
    (file : origin.os.files path = some original) (sameMd5 : maker.md5 = env.md5)
    (copy : Copy receiver tdef tf content) (only : tf.Only tf.home)
    (apart : Apart receiver tdef.fHash tf.home)
    (creates : Creates env tf.home original.length content)
    (run : ReflTransGen (HonestStep env tdef original) (start receiver) workers)
    (later : ReflTransGen (HonestStep env tdef original) workers after) :
    ∃ tf₁ content₁ tf₂ content₂, Copy workers.store tdef tf₁ content₁ ∧
      Copy after.store tdef tf₂ content₂ ∧ tf₁.home = tf.home ∧ tf₂.home = tf.home ∧
      Restores original tdef.size content₁ content₂ ∧
      (⟨tdef.fHash, .saving⟩ ∈ after.downloads → content₂ = some original) ∧
      ∀ handler ∈ after.opened, handler.fileHash = tdef.fHash →
        ∃ (i : Fin numChunks) (final : Workers) (bytes : Bytes),
          (ChunkPayload.decode handler.dataRead).chunkIndex.toInt = i.val ∧
          after.next env (.copies handler) = .ok final ∧
          Copy final.store tdef tf₂ (some bytes) ∧ chunkOf bytes i = chunkOf original i := by
  obtain ⟨admitted, counts, definition⟩ := definitionOf_generated generated file
  have defined := definition.trans (definitionOf_congr sameMd5 name original)
  have sized : tdef.size = original.length := by rw [defined, definitionOf_size]
  obtain ⟨intact, _⟩ := (intact_start copy only creates apart).run defined admitted counts run
  obtain ⟨intact', restored⟩ := intact.run defined admitted counts later
  obtain ⟨tf₁, content₁, copy₁, only₁⟩ := intact.copy
  obtain ⟨tf₂, content₂, copy₂, only₂, restores⟩ := restored tf₁ content₁ copy₁ only₁
  refine ⟨tf₁, content₁, tf₂, content₂, copy₁, copy₂, only₁.home_eq, only₂.home_eq, restores,
    fun saving => intact'.saving saving tf₂ content₂ copy₂, ?_⟩
  intro handler member own
  obtain ⟨i, bytes, final, genuine, _, length, copied, left⟩ :=
    intact'.copies sized copy₂ member own
  refine ⟨i, { after with store := final, opened := after.opened.erase handler }, _,
    genuine.index, ?_, left, chunkOf_splice_self length (length_chunkOf original i)⟩
  simp only [next, copied, Result.ok_bind]

theorem sampleReceiver_apart (content : Bytes) (home : Path) :
    Apart (sampleReceiver content) heldDef.fHash home := by
  rintro other tf different ⟨index, found⟩ _
  obtain ⟨slot, isHash, nonzero⟩ := lookupTfile_entry found
  simp only [sampleReceiver, Htable.fill, initHtable, List.getElem?_modify,
    List.getElem?_replicate] at slot
  split at slot
  · obtain ⟨empty, _, rfl⟩ := Option.map_eq_some_iff.mp slot
    exact different isHash.symm
  · simp only [Option.map_eq_map, Option.map_id_fun', id_eq, Option.ite_none_right_eq_some,
      Option.some.injEq] at slot
    obtain ⟨_, rfl⟩ := slot
    exact nonzero isHash.symm

theorem firstChunk_genuine : Genuine sampleContent 0 firstChunk := by
  have length : chunkLen sampleContent.length 0 = 32 := by
    rw [length_sampleContent]
    rfl
  have received : slice ChunkPayload.sizeOf 32 firstChunk = List.replicate 32 0 := by
    rw [firstChunk, bufferOf, slice, ← ChunkPayload.length_bytes sampleHeader, List.drop_left]
    rfl
  have held : chunkOf sampleContent 0 = List.replicate 32 0 := by
    rw [chunkOf, length, length_sampleContent, sampleContent, slice, List.drop_replicate,
      List.take_replicate]
    rfl
  refine ⟨?_, ?_, ?_, ?_⟩
  · rw [length, length_firstChunk]
    decide
  · rw [decode_firstChunk, sampleHeader_index]
  · rw [decode_firstChunk, length_sampleContent]
    exact sampleHeader_claimed
  · rw [length, received, held]

/-- A handler that has opened the file makes its copy. -/
theorem honest_run_restores_sample :
    ∃ workers handler, ReflTransGen (HonestStep sampleEnv heldDef sampleContent)
        (start (sampleReceiver staleContent)) workers ∧ workers.opened = [handler] ∧
      ∃ (i : Fin numChunks) (final : Workers) (tf : Tfile) (bytes : Bytes),
        workers.next sampleEnv (.copies handler) = .ok final ∧
        Copy final.store heldDef tf (some bytes) ∧ chunkOf bytes i = chunkOf sampleContent i := by
  obtain ⟨decided, decides, copy⟩ := @decides_copy _ (start (sampleReceiver staleContent)) _ _ _ _
    _ ⟨0, fun _ => 0⟩ (sampleReceiver_copy length_staleContent) (by rw [heldDef_size]; decide)
    sampleReceiver_opens decode_firstChunk rfl sampleReceiver_missing
  obtain ⟨store, mapping, _, opens, _⟩ := opens_copy ⟨decided, [firstChunk], [], []⟩
    copy (sampleEnv_reachable _ heldDef_named) heldDef_size (by decide) (by decide)
    decode_firstChunk rfl sampleHeader_index
  rw [List.erase_cons_head] at opens
  have run := (ReflTransGen.single (show HonestStep sampleEnv heldDef sampleContent _ _ from
    ⟨.decides firstChunk _, trivial, trivial, fun _ => ⟨0, firstChunk_genuine⟩, decides⟩)).tail
    (show HonestStep sampleEnv heldDef sampleContent _ _ from
      ⟨.opens firstChunk, List.mem_singleton_self _, trivial, trivial, opens⟩)
  have only : Tfile.Only { Tfile.zero with tdef := heldDef }
      (Tfile.home { Tfile.zero with tdef := heldDef }) := by
    rintro path (atHome | located)
    · exact atHome
    · exact located
  obtain ⟨_, _, tf, _, _, _, _, _, _, _, copies⟩ := honest_run_restores sampleServer_generated
    (sampleStore_file sampleContent) rfl (sampleReceiver_copy length_staleContent) only
    (sampleReceiver_apart _ _) (creates_some _ _ _ _) run .refl
  have isHash : (⟨firstChunk, ⟨mapping, (256 : Nat), chunkStart 256 0⟩⟩ : OpenHandler).fileHash =
      heldDef.fHash := by
    rw [OpenHandler.fileHash, decode_firstChunk]
    rfl
  obtain ⟨i, final, bytes, _, completes, written, restored⟩ :=
    copies _ (List.mem_singleton_self _) isHash
  exact ⟨_, _, run, rfl, i, final, tf, bytes, completes, written, restored⟩

end Workers

end Grintorrent
