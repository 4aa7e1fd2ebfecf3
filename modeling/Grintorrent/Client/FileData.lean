import Grintorrent.Client.Handling
import Grintorrent.File.Opening

/-!
# Which bytes a `FILE_DATA` message can change

The header of a `FILE_DATA` message holds a hash, an index and a size, all chosen
by the peer.  The handler reports a size that does not match and then copies all
the same, also when `open_tfile` failed and there is no destination.  So it keeps
to the chunk of the message, and leaves every file alone if the message is bad,
only for the headers and states that `Proper` describes; for every other one there
are bytes a peer can send that make it write elsewhere, or to no place at all.
-/

namespace Grintorrent

open Lib

/-- The byte of a file at a position. -/
def Os.byteAt (os : Os) (path : Path) (position : Nat) : Option UInt8 :=
  (os.files path).bind fun content => content[position]?

/-- The byte is as it was before.  A byte that a file gains when it is created or
extended is zero. -/
def Untouched (before after : Os) (path : Path) (position : Nat) : Prop :=
  after.byteAt path position = before.byteAt path position ∨
    (before.byteAt path position = none ∧ after.byteAt path position = some 0)

theorem untouched_of_files {before after : Os} {path : Path}
    (same : after.files path = before.files path) (position : Nat) :
    Untouched before after path position := by
  left
  simp only [Os.byteAt, same]

theorem Untouched.congr_left {before before' after : Os} {path : Path} {position : Nat}
    (untouched : Untouched before after path position) (same : before'.files = before.files) :
    Untouched before' after path position := by
  simpa only [Untouched, Os.byteAt, same] using untouched

theorem Untouched.congr_right {before after after' : Os} {path : Path} {position : Nat}
    (untouched : Untouched before after path position)
    (same : after'.byteAt path position = after.byteAt path position) :
    Untouched before after' path position := by
  simpa only [Untouched, same] using untouched

theorem Untouched.not_changed {before between after : Os} {path : Path} {position : Nat}
    {byte : UInt8} (earlier : Untouched before between path position)
    (old : between.byteAt path position = some byte)
    (new : after.byteAt path position = some (byte + 1)) :
    ¬Untouched before after path position := by
  have different : byte + 1 ≠ byte := by
    simp
  intro later
  rcases earlier with same | ⟨missing, zero⟩
  · rcases later with again | ⟨missing, _⟩
    · rw [← same, old, new, Option.some.injEq] at again
      exact different again
    · rw [← same, old] at missing
      simp at missing
  · rw [old, Option.some.injEq] at zero
    subst zero
    rcases later with again | ⟨_, zero⟩
    · rw [missing, new] at again
      simp at again
    · rw [new, Option.some.injEq] at zero
      exact different zero

variable {env : Env} {store verified opened after : Store} {hash : Digest} {index : Nat}
variable {tf : Tfile} {locals : VerifyLocals} {chunks : VerifiedChunks} {chunk : Int}
variable {path : Path} {position : Nat}

/-- The files once `open_tfile` has opened that of an entry. -/
def Store.opening (env : Env) (store : Store) (tf : Tfile) : Os :=
  if tf.mLocation = none ∧ env.createOk store.os.openFds tf.home = true then
    store.os.prepare env tf.home tf.tdef.size
  else store.os

/-- Opening the file of an entry that is not mapped cuts off no byte of it. -/
def NoCut (env : Env) (store : Store) (tf : Tfile) : Prop :=
  tf.mLocation = none → env.createOk store.os.openFds tf.home = true → 0 ≤ tf.tdef.size →
    env.ftruncateOk tf.home tf.tdef.size.toNat = true →
      ∀ content, store.os.files tf.home = some content → content.length ≤ tf.tdef.size

/-- The length of a file, which is 0 if it is not there. -/
def Os.fileLength (os : Os) (path : Path) : Nat := ((os.files path).getD []).length

theorem openTfile_os {result : Option (Location × Int)}
    (returned : openTfile env store hash chunk = .ok (result, opened))
    (found : lookupTfile store.ht hash = .ok (some (index, tf))) (below : chunk < numChunks) :
    ∃ openFds nextAddr, opened.os = { store.opening env tf with openFds, nextAddr } := by
  unfold Store.opening
  rcases openTfile_cases returned with ⟨_, _, above | missing⟩ | ⟨_, _, found', _,
    ⟨mapping, isMapped, rfl, _⟩ | ⟨notMapped, rfl, _⟩⟩
  · omega
  · rw [found] at missing
    simp at missing
  · rw [found] at found'
    cases found'
    rw [if_neg (by simp [isMapped])]
    exact ⟨_, _, rfl⟩
  · rw [found] at found'
    cases found'
    rw [mapTfile_opens notMapped]
    by_cases opens : env.createOk store.os.openFds tf.home = true
    · have both : tf.mLocation = none ∧ env.createOk store.os.openFds tf.home = true :=
        ⟨notMapped, opens⟩
      rw [if_pos opens, if_pos both]
      split
      · exact ⟨_, _, rfl⟩
      · exact ⟨_, _, rfl⟩
    · rw [if_neg opens, if_neg fun both => opens both.2]
      exact ⟨_, _, rfl⟩

theorem opening_resolve : (store.opening env tf).resolve = store.os.resolve := by
  unfold Store.opening
  split
  · exact Os.prepare_resolve
  · rfl

/-- Giving a file that is not too long the recorded length leaves its bytes. -/
theorem untouched_opening (keeps : NoCut env store tf) (path : Path) (position : Nat) :
    Untouched store.os (store.opening env tf) path position := by
  unfold Store.opening
  split
  next opens =>
      by_cases same : store.os.resolve path = store.os.resolve tf.home
      · have before : store.os.files path = store.os.files tf.home :=
          Os.files_eq_of_resolve same
        have after : (store.os.prepare env tf.home tf.tdef.size).files path =
            (store.os.prepare env tf.home tf.tdef.size).files tf.home :=
          Os.files_eq_of_resolve (by rwa [Os.prepare_resolve])
        simp only [Untouched, Os.byteAt, before, after, Os.prepare_files, Option.bind_some,
          Env.sizedTo]
        split
        next sizes =>
            cases file : store.os.files tf.home with
            | none =>
                simp only [resize, Option.getD_none, List.take_nil, List.nil_append,
                  List.length_nil, Option.bind_none, List.getElem?_replicate]
                split
                · exact .inr ⟨trivial, rfl⟩
                · exact .inl rfl
            | some content =>
                have fits := keeps opens.1 opens.2 sizes.1 sizes.2 content file
                rw [Option.getD_some, Option.bind_some, resize,
                  List.take_of_length_le (by omega)]
                rcases Nat.lt_or_ge position content.length with inside | outside
                · exact .inl (List.getElem?_append_left inside)
                · rw [List.getElem?_append_right outside, List.getElem?_eq_none outside,
                    List.getElem?_replicate]
                  split
                  · exact .inr ⟨rfl, rfl⟩
                  · exact .inl rfl
        next =>
            cases file : store.os.files tf.home with
            | none => exact .inl rfl
            | some content => exact .inl rfl
      · exact untouched_of_files (Os.prepare_elsewhere.files path same) position
  next => exact untouched_of_files rfl position

theorem cut_of_not_noCut (cuts : ¬NoCut env store tf) :
    0 ≤ tf.tdef.size ∧ (store.opening env tf).fileLength tf.home = tf.tdef.size.toNat ∧
      ∃ content, store.os.files tf.home = some content ∧
        tf.tdef.size.toNat < content.length := by
  simp only [NoCut, not_forall] at cuts
  obtain ⟨notMapped, opens, nonneg, sizes, content, file, long⟩ := cuts
  refine ⟨nonneg, ?_, content, file, by omega⟩
  rw [Store.opening, if_pos ⟨notMapped, opens⟩, Os.fileLength, Os.prepare_files, Env.sizedTo,
    if_pos ⟨nonneg, sizes⟩, Option.getD_some, length_resize]

/-- When `open_tfile` returns a location, the index is below the number of chunks
and the entry was mapped or could be. -/
theorem openTfile_some {location : Location} {size : Int}
    (returned : openTfile env store hash chunk = .ok (some (location, size), opened)) :
    ∃ index tf mapping, lookupTfile store.ht hash = .ok (some (index, tf)) ∧
      chunk < numChunks ∧ mapping.file = tf.home ∧
      (location, size) = chunkLocation mapping tf.tdef.size chunk ∧
      ((tf.mLocation = some mapping ∧ opened = store) ∨
        (tf.mLocation = none ∧ mapTfile env store index tf = (some mapping, opened) ∧
          Maps env store tf)) := by
  rcases openTfile_cases returned with ⟨failed, _⟩ | ⟨index, tf, found, below,
    ⟨mapping, isMapped, rfl, _, isLocation⟩ | ⟨notMapped, rfl, ⟨_, failed⟩ |
      ⟨mapping, maps, _, isLocation⟩⟩⟩
  · simp at failed
  · refine ⟨index, tf, mapping, found, below, ?_, Option.some.inj isLocation,
      .inl ⟨isMapped, rfl⟩⟩
    simp only [Tfile.home, isMapped]
  · simp at failed
  · have accepted := mapped_of_open found returned notMapped
    have home : mapping.file = tf.home := by
      rw [mapTfile_success notMapped accepted.1 accepted.2.1 accepted.2.2] at maps
      rw [← Option.some.inj maps]
    exact ⟨index, tf, mapping, found, below, home, Option.some.inj isLocation,
      .inr ⟨notMapped, Prod.ext maps rfl, accepted⟩⟩

/-! ## The copy -/

variable {dest : Option Location} {location : Location} {dataRead : Bytes} {size : Nat}

theorem memcpyChunk_length (copied : memcpyChunk env opened dest dataRead size = .ok after)
    (path : Path) : after.os.fileLength path = opened.os.fileLength path := by
  rcases memcpyChunk_cases copied with ⟨_, rfl⟩ | ⟨location, os, _, _, _, written, rfl⟩
  · rfl
  rcases Os.writeMapped_cases written with ⟨_, rfl⟩ | ⟨content, offset, _, _, _, file, _, spliced,
    frame, _⟩
  · rfl
  · by_cases same : opened.os.resolve path = opened.os.resolve location.mapping.file
    · have there : os.files path = os.files location.mapping.file :=
        Os.files_eq_of_resolve (by rw [frame.resolve, same])
      simp only [Os.fileLength, there, spliced, Os.files_eq_of_resolve same, file,
        Option.getD_some, length_splice_take]
    · rw [Os.fileLength, Os.fileLength, frame.files path same]

/-- What a copy of at least one byte does: it is inside the pages of the region and of the
file, and puts its bytes where the file has bytes. -/
theorem memcpyChunk_bytes (positive : 0 < size)
    (copied : memcpyChunk env opened (some location) dataRead size = .ok after) :
    ∃ offset : Nat, location.offset = offset ∧
      ChunkPayload.sizeOf + size ≤ dataRead.length ∧
      offset + size ≤ env.pageEnd location.length.toNat ∧
      offset + size ≤ env.pageEnd (opened.os.fileLength location.mapping.file) ∧
      ∀ path position, after.os.byteAt path position =
        if opened.os.resolve path = opened.os.resolve location.mapping.file ∧
            offset ≤ position ∧ position < offset + size ∧
            position < opened.os.fileLength location.mapping.file then
          (slice ChunkPayload.sizeOf size dataRead)[position - offset]?
        else opened.os.byteAt path position := by
  rcases memcpyChunk_cases copied with ⟨nothing, _⟩ | ⟨_, os, _, isDest, fits, written, rfl⟩
  · omega
  obtain rfl := Option.some.inj isDest
  have length : (slice ChunkPayload.sizeOf size dataRead).length = size := length_slice fits
  rcases Os.writeMapped_cases written with ⟨empty, _⟩ | ⟨content, offset, _, isOffset, region,
    file, page, spliced, frame, _⟩
  · rw [empty, List.length_nil] at length
    omega
  have isLength : opened.os.fileLength location.mapping.file = content.length := by
    rw [Os.fileLength, file, Option.getD_some]
  rw [length] at region page
  refine ⟨offset, isOffset, fits, region, by rwa [isLength], fun path position => ?_⟩
  by_cases same : opened.os.resolve path = opened.os.resolve location.mapping.file
  · have there : os.files path = os.files location.mapping.file :=
      Os.files_eq_of_resolve (by rw [frame.resolve, same])
    simp only [Os.byteAt, there, spliced, Os.files_eq_of_resolve same, file, Option.bind_some,
      getElem?_splice_take, length, isLength, same, true_and]
  · rw [if_neg fun both => same both.1, Os.byteAt, Os.byteAt, frame.files path same]

/-- The size that the header claims. -/
def ChunkPayload.claimedSize (hdr : ChunkPayload) : Nat := (ntohl hdr.chunkSize).toNat

/-- The position lies in the chunk of that index of the file with that hash. -/
def OwnChunk (store : Store) (hash : Digest) (chunkIndex : Int) (path : Path)
    (position : Nat) : Prop :=
  ∃ index tf, ∃ i : Fin numChunks,
    lookupTfile store.ht hash = .ok (some (index, tf)) ∧
    store.os.resolve path = store.os.resolve tf.home ∧
    chunkIndex = i.val ∧ chunkStart tf.tdef.size.toNat i ≤ position ∧
    position < chunkStart tf.tdef.size.toNat i + chunkLen tf.tdef.size.toNat i

/-- The hash is unknown, the index is outside `0..7`, `open_tfile` fails, or it
returns another size than the claimed one. -/
def Bad (env : Env) (store : Store) (hdr : ChunkPayload) : Prop :=
  lookupTfile store.ht hdr.fileHash = .ok none ∨
  hdr.chunkIndex.toInt < 0 ∨ numChunks ≤ hdr.chunkIndex.toInt ∨
  (∃ after, openTfile env store hdr.fileHash hdr.chunkIndex.toInt = .ok (none, after)) ∨
  ∃ location size after,
    openTfile env store hdr.fileHash hdr.chunkIndex.toInt =
      .ok (some (location, size), after) ∧ size ≠ hdr.claimedSize

/-- Whatever bytes follow the header: the handler returns, it changes at most the
bytes of the chunk, and none at all if the message is bad.  A handler that stops
in `verify_tfile` has not copied anything. -/
def HandlesProperly (env : Env) (store : Store) (hdr : ChunkPayload)
    (locals : VerifyLocals) : Prop :=
  ∀ dataRead : Bytes, dataRead.length = messageSize → ChunkPayload.decode dataRead = hdr →
    ∀ chunks verified, verifyTfile env store hdr.fileHash locals = .ok (chunks, verified) →
      ∃ after, handleFileData env store dataRead locals = .ok after ∧
        (∀ path position, ¬OwnChunk store hdr.fileHash hdr.chunkIndex.toInt path position →
          Untouched store.os after.os path position) ∧
        (Bad env verified hdr → ∀ path position, Untouched store.os after.os path position)

/-- Nothing is copied for the header, and opening the file for it cuts off no byte. -/
def OpensProperly (env : Env) (store : Store) (hdr : ChunkPayload) : Prop :=
  numChunks ≤ hdr.chunkIndex.toInt ∨ lookupTfile store.ht hdr.fileHash = .ok none ∨
    ∃ index tf, lookupTfile store.ht hdr.fileHash = .ok (some (index, tf)) ∧
      NoCut env store tf ∧
      ((tf.mLocation = none → Maps env store tf) →
        ChunkFits tf.tdef.size hdr.chunkIndex.toInt)

/-- The claimed bytes are in the buffer, the entry is mapped or can be without cutting
off its file, and from the start of the chunk on there are as many bytes in the pages of
the region and of the file.  They are those of the chunk, or the file ends before it. -/
structure CopiesProperly (env : Env) (store : Store) (hdr : ChunkPayload) (tf : Tfile)
    (i : Fin numChunks) : Prop where
  isIndex : hdr.chunkIndex.toInt = i.val
  buffered : ChunkPayload.sizeOf + hdr.claimedSize ≤ messageSize
  maps : tf.mLocation = none → Maps env store tf
  keeps : NoCut env store tf
  region : chunkStart tf.tdef.size.toNat i + hdr.claimedSize ≤ env.pageEnd tf.tdef.size.toNat
  page : chunkStart tf.tdef.size.toNat i + hdr.claimedSize ≤
    env.pageEnd ((store.opening env tf).fileLength tf.home)
  exact : hdr.claimedSize = chunkLen tf.tdef.size.toNat i ∨
    (store.opening env tf).fileLength tf.home ≤ chunkStart tf.tdef.size.toNat i

/-- The headers and states for which the missing checks make no difference. -/
def Proper (env : Env) (store : Store) (hdr : ChunkPayload) (locals : VerifyLocals) : Prop :=
  ∀ chunks verified, verifyTfile env store hdr.fileHash locals = .ok (chunks, verified) →
    isChunkVerified chunks hdr.chunkIndex.toInt = true ∨
    if hdr.claimedSize = 0 then OpensProperly env verified hdr
    else ∃ index tf i, lookupTfile store.ht hdr.fileHash = .ok (some (index, tf)) ∧
      CopiesProperly env verified hdr tf i

variable {hdr : ChunkPayload}

theorem handleFileData_eq (isHeader : ChunkPayload.decode dataRead = hdr)
    (returned : verifyTfile env store hdr.fileHash locals = .ok (chunks, verified))
    (unverified : isChunkVerified chunks hdr.chunkIndex.toInt = false)
    {result : Option (Location × Int)}
    (pointed : openTfile env verified hdr.fileHash hdr.chunkIndex.toInt =
      .ok (result, opened)) :
    handleFileData env store dataRead locals =
      memcpyChunk env opened (result.map Prod.fst) dataRead hdr.claimedSize := by
  simp only [handleFileData, isHeader, returned, Result.ok_bind, unverified,
    Bool.false_eq_true, if_false, pointed, ChunkPayload.claimedSize]

theorem memcpyChunk_zero : memcpyChunk env opened dest dataRead 0 = .ok opened := if_pos rfl

theorem untouched_of_open {result : Option (Location × Int)}
    (returned : openTfile env store hash chunk = .ok (result, opened))
    (found : lookupTfile store.ht hash = .ok (some (index, tf))) (below : chunk < numChunks)
    (keeps : NoCut env store tf) (path : Path) (position : Nat) :
    Untouched store.os opened.os path position := by
  obtain ⟨openFds, nextAddr, isOs⟩ := openTfile_os returned found below
  rw [isOs]
  exact untouched_opening keeps path position

theorem OpensProperly.opens (proper : OpensProperly env store hdr) :
    ∃ result opened, openTfile env store hdr.fileHash hdr.chunkIndex.toInt =
        .ok (result, opened) ∧
      ∀ path position, Untouched store.os opened.os path position := by
  by_cases above : numChunks ≤ hdr.chunkIndex.toInt
  · exact ⟨_, _, openTfile_large above, fun _ position => untouched_of_files rfl position⟩
  rcases proper.resolve_left above with missing | ⟨index, tf, found, keeps, fits⟩
  · exact ⟨_, _, openTfile_unknown missing, fun _ position => untouched_of_files rfl position⟩
  have below : hdr.chunkIndex.toInt < numChunks := Int.not_le.mp above
  by_cases refused : tf.mLocation = none ∧ ¬Maps env store tf
  · have failed := @openTfile_refused env store _ _ _ _ found below refused.1 refused.2
    exact ⟨_, _, failed, untouched_of_open failed found below keeps⟩
  · have maps : tf.mLocation = none → Maps env store tf := fun notMapped =>
      not_not.mp fun unmapped => refused ⟨notMapped, unmapped⟩
    obtain ⟨result, opened, pointed, _⟩ := openTfile_entry found below (fits maps)
    exact ⟨_, _, pointed, untouched_of_open pointed found below keeps⟩

theorem openTfile_chunk {size : Nat} {i : Fin numChunks}
    (found : lookupTfile store.ht hash = .ok (some (index, tf)))
    (maps : tf.mLocation = none → Maps env store tf) (sized : tf.tdef.size = size)
    (small : size < 2 ^ 63) :
    ∃ mapping opened openFds nextAddr, openTfile env store hash i.val =
        .ok (some (⟨mapping, size, chunkStart size i⟩, (chunkLen size i : Int)), opened) ∧
      mapping.file = tf.home ∧
      opened.os = { store.opening env tf with openFds, nextAddr } := by
  have below : (i.val : Int) < numChunks := by
    have bound := i.isLt
    omega
  obtain ⟨result, opened, pointed, ⟨notMapped, refused, _⟩ | ⟨_, mapping, _, _, _, _, rfl⟩⟩ :=
    @openTfile_entry env _ _ _ _ _ found below (sized ▸ chunkFits_index small i)
  · exact absurd (maps notMapped) refused
  obtain ⟨openFds, nextAddr, isOs⟩ := openTfile_os pointed found below
  obtain ⟨_, _, mapping', found', _, home, isLocation, _⟩ := openTfile_some pointed
  rw [found] at found'
  cases found'
  have sameMapping : mapping = mapping' := congrArg (fun place => place.1.mapping) isLocation
  rw [sized, chunkLocation_eq] at pointed
  exact ⟨mapping, opened, openFds, nextAddr, pointed, sameMapping ▸ home, isOs⟩

theorem not_bad {location : Location} {size : Int}
    (found : lookupTfile store.ht hdr.fileHash = .ok (some (index, tf)))
    (nonneg : 0 ≤ hdr.chunkIndex.toInt) (below : hdr.chunkIndex.toInt < numChunks)
    (pointed : openTfile env store hdr.fileHash hdr.chunkIndex.toInt =
      .ok (some (location, size), opened))
    (claimed : size = hdr.claimedSize) : ¬Bad env store hdr := by
  rintro (unknown | negative | beyond | ⟨_, failed⟩ | ⟨_, _, _, other, differs⟩)
  · rw [found] at unknown
    simp at unknown
  · omega
  · omega
  · rw [pointed] at failed
    simp at failed
  · rw [pointed] at other
    simp only [Except.ok.injEq, Prod.mk.injEq, Option.some.injEq] at other
    exact differs (other.1.2 ▸ claimed)

theorem untouched_of_bytes {byte : Option UInt8} {written : Prop} [Decidable written]
    (kept : Untouched store.os opened.os path position)
    (isByte : after.os.byteAt path position =
      if written then byte else opened.os.byteAt path position)
    (outside : ¬written) : Untouched store.os after.os path position :=
  kept.congr_right (by rw [isByte, if_neg outside])

theorem CopiesProperly.copies {i : Fin numChunks} (proper : CopiesProperly env store hdr tf i)
    (found : lookupTfile store.ht hdr.fileHash = .ok (some (index, tf)))
    (sized : tf.tdef.size = size) (small : size < 2 ^ 63) (positive : 0 < hdr.claimedSize)
    (buffer : dataRead.length = messageSize) :
    ∃ result opened after, openTfile env store hdr.fileHash hdr.chunkIndex.toInt =
        .ok (result, opened) ∧
      memcpyChunk env opened (result.map Prod.fst) dataRead hdr.claimedSize = .ok after ∧
      (∀ path position, ¬OwnChunk store hdr.fileHash hdr.chunkIndex.toInt path position →
        Untouched store.os after.os path position) ∧
      (Bad env store hdr → ∀ path position, Untouched store.os after.os path position) := by
  obtain ⟨mapping, opened, openFds, nextAddr, pointed, home, isOs⟩ :=
    @openTfile_chunk env store _ _ _ size i found proper.maps sized small
  have below : (i.val : Int) < numChunks := by
    have bound := i.isLt
    omega
  have kept := untouched_of_open pointed found below proper.keeps
  obtain ⟨isIndex, buffered, _, _, region, page, exact⟩ := proper
  rw [sized, Int.toNat_natCast] at region page exact
  have sameLength : opened.os.fileLength mapping.file =
      (store.opening env tf).fileLength tf.home := by
    rw [isOs, home]
    rfl
  rw [← sameLength] at page exact
  have nonempty : opened.os.fileLength mapping.file ≠ 0 := by
    intro none
    rw [none, env.pageEnd_zero] at page
    omega
  obtain ⟨content, file⟩ : ∃ content, opened.os.files mapping.file = some content := by
    rw [← Option.ne_none_iff_exists']
    intro missing
    simp [Os.fileLength, missing] at nonempty
  have isLength : opened.os.fileLength mapping.file = content.length := by
    rw [Os.fileLength, file, Option.getD_some]
  have length : (slice ChunkPayload.sizeOf hdr.claimedSize dataRead).length =
      hdr.claimedSize := length_slice (by omega)
  obtain ⟨os, written⟩ := Os.writeMapped_made file
    (show chunkStart size i + (slice ChunkPayload.sizeOf hdr.claimedSize dataRead).length ≤
      env.pageEnd size by omega) (by rw [← isLength]; omega)
  have copied := memcpyChunk_eq (show ChunkPayload.sizeOf + hdr.claimedSize ≤
    dataRead.length by omega) written
  obtain ⟨offset, isOffset, _, _, _, bytes⟩ := memcpyChunk_bytes positive copied
  obtain rfl : chunkStart size i = offset := by
    simpa using isOffset
  refine ⟨some (⟨mapping, size, chunkStart size i⟩, (chunkLen size i : Int)), opened, _,
    isIndex ▸ pointed, copied, ?_, ?_⟩
  · intro path position outside
    refine untouched_of_bytes (kept path position) (bytes path position) ?_
    rintro ⟨isHome, after, before, inside⟩
    rcases exact with exact | ended
    · apply outside
      refine ⟨index, tf, i, found, ?_, isIndex, ?_, ?_⟩
      · simpa [isOs, home, opening_resolve] using isHome
      · rwa [sized, Int.toNat_natCast]
      · rw [sized, Int.toNat_natCast]
        omega
    · exact absurd inside (Nat.not_lt.mpr (ended.trans after))
  · intro bad path position
    refine untouched_of_bytes (kept path position) (bytes path position) ?_
    rintro ⟨_, after, _, inside⟩
    rcases exact with exact | ended
    · exact not_bad found (by omega) (by omega) (isIndex ▸ pointed) (by omega) bad
    · exact absurd inside (Nat.not_lt.mpr (ended.trans after))

/-- Where `verify_tfile` returned and the entry is mapped or can be, its size is not
negative. -/
theorem nonneg_of_maps
    (returned : verifyTfile env store hash locals = .ok (chunks, verified))
    (found : lookupTfile store.ht hash = .ok (some (index, tf)))
    (maps : tf.mLocation = none → Maps env verified tf) : 0 ≤ tf.tdef.size := by
  cases isMapped : tf.mLocation with
  | some mapping =>
      obtain ⟨_, _, nonneg, _⟩ := verifyTfile_mapped_page returned found isMapped
      exact nonneg
  | none => exact (maps isMapped).2.1.le

/-- **The condition is sufficient.** -/
theorem Proper.handles
    (offT : ∀ index tf, lookupTfile store.ht hdr.fileHash = .ok (some (index, tf)) →
      tf.tdef.size < 2 ^ 63)
    (proper : Proper env store hdr locals) : HandlesProperly env store hdr locals := by
  intro dataRead buffer isHeader chunks verified returned
  obtain ⟨sameFiles, sameTable⟩ := verifyTfile_files returned
  have sameResolve := (elsewhere_of_leak (verifyTfile_store returned) []).resolve
  cases reported : isChunkVerified chunks hdr.chunkIndex.toInt with
  | true =>
      have skipped : handleFileData env store dataRead locals = .ok verified := by
        simp only [handleFileData, isHeader, returned, Result.ok_bind, reported, if_true]
      have kept : ∀ path position, Untouched store.os verified.os path position :=
        fun path position => untouched_of_files (by rw [sameFiles]) position
      exact ⟨verified, skipped, fun path position _ => kept path position, fun _ => kept⟩
  | false =>
      have rest := (proper chunks verified returned).resolve_left (by simp [reported])
      split at rest
      next empty =>
          obtain ⟨result, opened, pointed, kept⟩ := rest.opens
          rw [handleFileData_eq isHeader returned reported pointed, empty, memcpyChunk_zero]
          have keptAll : ∀ path position, Untouched store.os opened.os path position :=
            fun path position => (kept path position).congr_left sameFiles.symm
          exact ⟨opened, rfl, fun path position _ => keptAll path position, fun _ => keptAll⟩
      next something =>
          obtain ⟨index, tf, i, found, copies⟩ := rest
          obtain ⟨size, sized⟩ :=
            Int.eq_ofNat_of_zero_le (nonneg_of_maps returned found copies.maps)
          have small : size < 2 ^ 63 := by
            have bound := offT index tf found
            omega
          obtain ⟨result, opened, after, pointed, copied, confined, untouched⟩ :=
            copies.copies (sameTable ▸ found) sized small (Nat.pos_of_ne_zero something) buffer
          rw [handleFileData_eq isHeader returned reported pointed]
          refine ⟨after, copied, fun path position outside => ?_, fun bad path position => ?_⟩
          · refine (confined path position fun own => outside ?_).congr_left sameFiles.symm
            rwa [OwnChunk, sameTable, sameResolve] at own
          · exact (untouched bad path position).congr_left sameFiles.symm

/-! ## Bytes that a peer can choose -/

/-- The buffer that holds a header and then these bytes. -/
def bufferOf (hdr : ChunkPayload) (data : Bytes) : Bytes :=
  hdr.bytes ++ resize (messageSize - ChunkPayload.sizeOf) data

theorem length_bufferOf (hdr : ChunkPayload) (data : Bytes) :
    (bufferOf hdr data).length = messageSize := by
  rw [bufferOf, List.length_append, ChunkPayload.length_bytes, length_resize]
  rfl

theorem decode_bufferOf (hdr : ChunkPayload) (data : Bytes) :
    ChunkPayload.decode (bufferOf hdr data) = hdr := hdr.decode_append _

theorem slice_bufferOf_zero {size : Nat} (positive : 0 < size) (byte : UInt8) :
    (slice ChunkPayload.sizeOf size (bufferOf hdr [byte]))[0]? = some byte := by
  rw [getElem?_slice, if_pos positive, bufferOf,
    List.getElem?_append_right (by rw [ChunkPayload.length_bytes]; exact Nat.le_refl _),
    ChunkPayload.length_bytes]
  rfl

/-- A file that is longer than its definition says loses bytes when it is opened,
whatever is copied afterwards. -/
theorem noCut_of_untouched {chunkIndex : Int}
    (found : lookupTfile store.ht hash = .ok (some (index, tf)))
    (length : after.os.fileLength tf.home = (store.opening env tf).fileLength tf.home)
    (confined : ∀ path position, ¬OwnChunk store hash chunkIndex path position →
      Untouched store.os after.os path position) : NoCut env store tf := by
  by_contra cuts
  obtain ⟨nonneg, isLength, content, file, long⟩ := cut_of_not_noCut cuts
  have outside : ¬OwnChunk store hash chunkIndex tf.home tf.tdef.size.toNat := by
    rintro ⟨_, _, i, found', _, _, _, before⟩
    rw [found] at found'
    cases found'
    have within := chunk_inside tf.tdef.size.toNat i
    omega
  have gone : after.os.byteAt tf.home tf.tdef.size.toNat = none := by
    rw [isLength, Os.fileLength] at length
    cases left : after.os.files tf.home with
    | none => rw [Os.byteAt, left, Option.bind_none]
    | some current =>
        rw [left, Option.getD_some] at length
        simp only [Os.byteAt, left, Option.bind_some]
        exact List.getElem?_eq_none length.le
  have there : store.os.byteAt tf.home tf.tdef.size.toNat ≠ none := by
    simp only [Os.byteAt, file, Option.bind_some, ne_eq, List.getElem?_eq_none_iff]
    omega
  rcases confined tf.home tf.tdef.size.toNat outside with same | ⟨missing, _⟩
  · exact there (same ▸ gone)
  · exact there missing

/-- A copy of at least one byte to a place inside the file changes a byte for some data:
the first one, when the data starts with another byte than the file has there. -/
theorem memcpyChunk_changes {offset : Nat} (positive : 0 < size)
    (isOffset : location.offset = offset)
    (inside : offset < opened.os.fileLength location.mapping.file)
    (kept : ∀ path position, Untouched store.os opened.os path position)
    (copies : ∀ data, ∃ after,
      memcpyChunk env opened (some location) (bufferOf hdr data) size = .ok after ∧
      ∀ path position, Untouched store.os after.os path position) : False := by
  cases file : opened.os.files location.mapping.file with
  | none => simp [Os.fileLength, file] at inside
  | some content =>
      have length : opened.os.fileLength location.mapping.file = content.length := by
        rw [Os.fileLength, file, Option.getD_some]
      have within : offset < content.length := length ▸ inside
      obtain ⟨spoiled, copied, untouched⟩ := copies [content[offset] + 1]
      obtain ⟨sameOffset, isSame, _, _, _, bytes⟩ := memcpyChunk_bytes positive copied
      obtain rfl : offset = sameOffset := by omega
      have first := bytes location.mapping.file offset
      rw [if_pos ⟨rfl, Nat.le_refl _, by omega, inside⟩, Nat.sub_self,
        slice_bufferOf_zero positive] at first
      have old : opened.os.byteAt location.mapping.file offset = some content[offset] := by
        simp only [Os.byteAt, file, Option.bind_some]
        exact List.getElem?_eq_getElem within
      exact (kept _ _).not_changed old first (untouched _ _)

theorem opensProperly_of_untouched {result : Option (Location × Int)}
    (pointed : openTfile env store hdr.fileHash hdr.chunkIndex.toInt = .ok (result, opened))
    (confined : ∀ path position,
      ¬OwnChunk store hdr.fileHash hdr.chunkIndex.toInt path position →
        Untouched store.os opened.os path position) : OpensProperly env store hdr := by
  by_cases above : numChunks ≤ hdr.chunkIndex.toInt
  · exact .inl above
  have below : hdr.chunkIndex.toInt < numChunks := Int.not_le.mp above
  cases found : lookupTfile store.ht hdr.fileHash with
  | error stop =>
      simp only [openTfile, if_neg above, found, Result.error_bind] at pointed
      simp at pointed
  | ok entry =>
      cases entry with
      | none => exact .inr (.inl found)
      | some entry =>
          obtain ⟨index, tf⟩ := entry
          obtain ⟨openFds, nextAddr, isOs⟩ := openTfile_os pointed found below
          refine .inr (.inr ⟨index, tf, found, noCut_of_untouched found ?_ confined, ?_⟩)
          · rw [isOs]
            rfl
          · intro maps
            by_contra overflows
            rw [openTfile_overflow found below overflows maps] at pointed
            simp at pointed

theorem copiesProperly_of_untouched {expected : Int} (positive : 0 < hdr.claimedSize)
    (nonneg : ∀ index tf, lookupTfile store.ht hdr.fileHash = .ok (some (index, tf)) →
      (tf.mLocation = none → Maps env store tf) → 0 ≤ tf.tdef.size)
    (pointed : openTfile env store hdr.fileHash hdr.chunkIndex.toInt =
      .ok (some (location, expected), opened))
    (probes : ∀ data, ∃ after,
      memcpyChunk env opened (some location) (bufferOf hdr data) hdr.claimedSize = .ok after ∧
      (∀ path position, ¬OwnChunk store hdr.fileHash hdr.chunkIndex.toInt path position →
        Untouched store.os after.os path position) ∧
      (Bad env store hdr → ∀ path position, Untouched store.os after.os path position)) :
    ∃ index tf i, lookupTfile store.ht hdr.fileHash = .ok (some (index, tf)) ∧
      CopiesProperly env store hdr tf i := by
  obtain ⟨index, tf, mapping, found, below, home, isLocation, mapped⟩ := openTfile_some pointed
  have maps : tf.mLocation = none → Maps env store tf := by
    intro notMapped
    rcases mapped with ⟨already, _⟩ | ⟨_, _, maps⟩
    · simp [notMapped] at already
    · exact maps
  obtain ⟨size, sized⟩ := Int.eq_ofNat_of_zero_le (nonneg index tf found maps)
  obtain ⟨openFds, nextAddr, isOs⟩ := openTfile_os pointed found below
  obtain ⟨after, copied, confined, _⟩ := probes []
  obtain ⟨offset, isOffset, buffered, region, page, _⟩ := memcpyChunk_bytes positive copied
  have isMapping : location.mapping = mapping := congrArg (fun place => place.1.mapping) isLocation
  have isLength : location.length = size :=
    sized ▸ congrArg (fun place => place.1.length) isLocation
  have fileLength : opened.os.fileLength location.mapping.file =
      (store.opening env tf).fileLength tf.home := by
    rw [isOs, isMapping, home]
    rfl
  have keeps : NoCut env store tf := by
    refine noCut_of_untouched found ?_ confined
    rw [memcpyChunk_length copied, isOs]
    rfl
  -- A bad message has to leave the file alone, so it ends before the copy begins.
  have ends : Bad env store hdr → opened.os.fileLength location.mapping.file ≤ offset := by
    intro bad
    by_contra inside
    exact memcpyChunk_changes positive isOffset (Nat.lt_of_not_le inside)
      (untouched_of_open pointed found below keeps)
      fun data => (probes data).imp fun _ probe => ⟨probe.1, probe.2.2 bad⟩
  have nonnegative : ¬hdr.chunkIndex.toInt < 0 := by
    intro negative
    have ended := ends (.inr (.inl negative))
    have product : location.offset = hdr.chunkIndex.toInt * tf.tdef.size.tdiv numChunks :=
      congrArg (fun place => place.1.offset) isLocation
    have quotient := Int.tdiv_nonneg (show 0 ≤ tf.tdef.size by omega)
      (show (0 : Int) ≤ numChunks by decide)
    have before := Int.mul_nonpos_of_nonpos_of_nonneg negative.le quotient
    have start : offset = 0 := by omega
    have empty : opened.os.fileLength location.mapping.file = 0 := by omega
    rw [empty, env.pageEnd_zero] at page
    omega
  obtain ⟨i, isIndex⟩ := exists_chunk (not_or.mpr ⟨nonnegative, Int.not_le.mpr below⟩)
  have chunk := isLocation
  rw [sized, isIndex, chunkLocation_eq, Prod.mk.injEq] at chunk
  have start : chunkStart size i = offset := by
    rw [chunk.1] at isOffset
    exact Int.ofNat_inj.mp isOffset
  rw [length_bufferOf] at buffered
  rw [isLength, Int.toNat_natCast] at region
  refine ⟨index, tf, i, found, ⟨isIndex, buffered, maps, keeps, ?_, ?_, ?_⟩⟩
  · rwa [sized, Int.toNat_natCast, start]
  · rwa [sized, Int.toNat_natCast, start, ← fileLength]
  · rw [sized, Int.toNat_natCast, start, ← fileLength]
    by_cases claimed : hdr.claimedSize = chunkLen size i
    · exact .inl claimed
    · refine .inr (ends (.inr (.inr (.inr (.inr ⟨_, _, _, pointed, ?_⟩)))))
      rw [chunk.2]
      omega

/-- **The condition is necessary.** -/
theorem HandlesProperly.proper
    (handles : HandlesProperly env store hdr locals) : Proper env store hdr locals := by
  intro chunks verified returned
  obtain ⟨sameFiles, sameTable⟩ := verifyTfile_files returned
  have sameResolve := (elsewhere_of_leak (verifyTfile_store returned) []).resolve
  cases reported : isChunkVerified chunks hdr.chunkIndex.toInt with
  | true => exact .inl rfl
  | false =>
      right
      have probes : ∀ data, ∃ after, handleFileData env store (bufferOf hdr data) locals =
          .ok after ∧ (∀ path position,
            ¬OwnChunk verified hdr.fileHash hdr.chunkIndex.toInt path position →
              Untouched verified.os after.os path position) ∧
          (Bad env verified hdr → ∀ path position,
            Untouched verified.os after.os path position) := by
        intro data
        obtain ⟨after, handled, confined, untouched⟩ := handles _ (length_bufferOf hdr data)
          (decode_bufferOf hdr data) chunks verified returned
        refine ⟨after, handled, fun path position outside => ?_, fun bad path position =>
          (untouched bad path position).congr_left sameFiles⟩
        refine (confined path position fun own => outside ?_).congr_left sameFiles
        rwa [OwnChunk, ← sameTable, ← sameResolve] at own
      cases pointed : openTfile env verified hdr.fileHash hdr.chunkIndex.toInt with
      | error stop =>
          obtain ⟨after, handled, _⟩ := probes []
          simp [handleFileData, bufferOf, ChunkPayload.decode_append, returned, reported,
            pointed] at handled
      | ok result =>
          obtain ⟨result, opened⟩ := result
          have copies : ∀ data, handleFileData env store (bufferOf hdr data) locals =
              memcpyChunk env opened (result.map Prod.fst) (bufferOf hdr data) hdr.claimedSize :=
            fun data => handleFileData_eq (decode_bufferOf hdr data) returned reported pointed
          simp only [copies] at probes
          split
          next empty =>
              obtain ⟨after, copied, confined, _⟩ := probes []
              rw [empty, memcpyChunk_zero] at copied
              cases copied
              exact opensProperly_of_untouched pointed confined
          next something =>
              have positive := Nat.pos_of_ne_zero something
              cases result with
              | none =>
                  obtain ⟨after, copied, _⟩ := probes []
                  simp [memcpyChunk, something] at copied
              | some result =>
                  obtain ⟨location, expected⟩ := result
                  have nonneg : ∀ index tf,
                      lookupTfile verified.ht hdr.fileHash = .ok (some (index, tf)) →
                      (tf.mLocation = none → Maps env verified tf) → 0 ≤ tf.tdef.size :=
                    fun index tf found maps => nonneg_of_maps returned (sameTable ▸ found) maps
                  have proper := copiesProperly_of_untouched positive nonneg pointed probes
                  rwa [sameTable] at proper

/-- **Exactly the proper headers are handled properly.** -/
theorem handlesProperly_iff
    (offT : ∀ index tf, lookupTfile store.ht hdr.fileHash = .ok (some (index, tf)) →
      tf.tdef.size < 2 ^ 63) :
    HandlesProperly env store hdr locals ↔ Proper env store hdr locals :=
  ⟨HandlesProperly.proper, Proper.handles offT⟩

/-- The header of a chunk of the sample file that claims the right size. -/
def sampleHeader : ChunkPayload where
  fileHash := heldDef.fHash
  chunkIndex := 0
  chunkSize := htonl 32

/-- A receiver that has the definition handles such a message properly. -/
theorem handlesProperly_iff_zeros :
    HandlesProperly sampleEnv (sampleReceiver staleContent) sampleHeader ⟨0, fun _ => 0⟩ := by
  have copy := sampleReceiver_copy length_staleContent
  obtain ⟨index, found⟩ := copy.found
  have claimed : sampleHeader.claimedSize = 32 := by
    rw [ChunkPayload.claimedSize, sampleHeader, ntohl_htonl]
    rfl
  have notMapped : ({ Tfile.zero with tdef := heldDef } : Tfile).mLocation = none := rfl
  refine (handlesProperly_iff ?_).mpr ?_
  · intro place tf lookup
    rw [show sampleHeader.fileHash = heldDef.fHash from rfl, found] at lookup
    simp only [Except.ok.injEq, Option.some.injEq, Prod.mk.injEq] at lookup
    rw [← lookup.2, heldDef_size]
    decide
  · intro chunks verified returned
    have file : verified.os.files ({ Tfile.zero with tdef := heldDef } : Tfile).home =
        some staleContent := by
      rw [(verifyTfile_files returned).1, copy.file]
    have opens := sampleEnv_creates verified.os.openFds heldDef_named
    have length : (verified.opening sampleEnv { Tfile.zero with tdef := heldDef }).fileLength
        ({ Tfile.zero with tdef := heldDef } : Tfile).home = 256 := by
      rw [Store.opening, if_pos ⟨notMapped, opens⟩, Os.fileLength, Os.prepare_files, heldDef_size,
        Env.sizedTo, if_pos ⟨by decide, rfl⟩, Option.getD_some, length_resize]
      rfl
    right
    rw [if_neg (by rw [claimed]; decide)]
    refine ⟨index, _, 0, found, rfl, ?_, fun _ => ⟨opens, ?_, rfl⟩, ?_, ?_, ?_, .inl ?_⟩
    · rw [claimed]
      decide
    · rw [heldDef_size]
      decide
    · intro _ _ _ _ content isContent
      rw [file, Option.some.injEq] at isContent
      rw [← isContent, heldDef_size, length_staleContent]
      decide
    · rw [claimed, heldDef_size]
      decide
    · rw [claimed, heldDef_size, length]
      decide
    · rw [claimed, heldDef_size]
      decide

/-- A message with a hash that no entry has. -/
def strangeHeader : ChunkPayload where
  fileHash := 1
  chunkIndex := 0
  chunkSize := htonl 32

/-- The handler copies to `NULL`. -/
theorem strangeHeader_not_handled :
    ¬HandlesProperly sampleEnv (sampleStore sampleContent) strangeHeader
      ⟨0, fun _ => 0⟩ := by
  intro handles
  have unknown : lookupTfile (sampleStore sampleContent).ht strangeHeader.fileHash =
      .ok none := by
    have missing : searchHtable (sampleStore sampleContent).ht strangeHeader.fileHash =
        .ok none := Htable.search_init _
    simp only [lookupTfile, missing, Result.ok_bind]
  have claimed : strangeHeader.claimedSize = 32 := by
    rw [ChunkPayload.claimedSize, strangeHeader, ntohl_htonl]
    rfl
  have returned := @verifyTfile_unknown sampleEnv _ _ ⟨0, fun _ => 0⟩ unknown
  obtain ⟨after, handled, _⟩ := handles (bufferOf strangeHeader []) (length_bufferOf _ _)
    (decode_bufferOf _ _) _ _ returned
  have pointed := @openTfile_unknown sampleEnv _ _ strangeHeader.chunkIndex.toInt unknown
  rw [handleFileData_eq (decode_bufferOf _ _) returned
    (isChunkVerified_unverifiedFile _) pointed, claimed] at handled
  simp [memcpyChunk] at handled

end Grintorrent
