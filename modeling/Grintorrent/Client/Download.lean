import Grintorrent.Client.Handling

/-!
# Downloading one file

The run of a receiver: any number of `FILE_DATA` messages for one hash, honest,
corrupt or repeated, in any order.  A message may overwrite only a chunk that is
not verified, and chunks do not overlap, so the verified chunks and their bytes
are never touched again; `Advances` is the order in which the states of a copy
develop.  An honest message makes its chunk verified if it was not yet, so eight
of them complete the file.
-/

namespace Grintorrent

open Lib

variable {env : Env} {store : Store} {tdef : TfileDef} {tf opened : Tfile}
variable {content : Option Bytes} {size : Nat} {i : Fin numChunks} {data : Bytes}
variable {message : FileData}

/-- `verify_tfile` reports the chunk of a copy as verified. -/
def Reported (env : Env) (tf : Tfile) (content : Option Bytes) (i : Fin numChunks) : Prop :=
  isChunkVerified (report env tf content) i.val = true

theorem reported_iff :
    Reported env tf content i ↔
      ∃ bytes, content = some bytes ∧ ¬(tf.mLocation = none ∧ tf.fLocation = none) ∧
        Verified env tf.tdef bytes i := by
  cases content with
  | none => simp [Reported, report, isChunkVerified_unverifiedFile]
  | some bytes =>
      simp only [Reported, report, Option.some.injEq]
      split
      · rename_i unlocated
        simp [unlocated, isChunkVerified_unverifiedFile]
      · rename_i located
        rw [isChunkVerified_verdict]
        constructor
        · intro verified
          exact ⟨bytes, rfl, located, verified⟩
        · rintro ⟨_, rfl, _, verified⟩
          exact verified

theorem report_eq_verifiedFile (every : ∀ i, Reported env tf content i) :
    report env tf content = verifiedFile := by
  obtain ⟨bytes, rfl, located, _⟩ := reported_iff.mp (every 0)
  simp only [report, if_neg located]
  apply verdict_eq_verifiedFile.mpr
  by_cases whole : env.md5 bytes = tf.tdef.fHash
  · exact .inl whole
  · right
    intro i
    obtain ⟨_, ⟨⟩, _, verified⟩ := reported_iff.mp (every i)
    cases verified with
    | inl matching => exact absurd matching whole
    | inr matching => exact matching

/-- From the first state of a copy to the second, no reported chunk was lost or
changed. -/
structure Advances (env : Env) (tf : Tfile) (content : Option Bytes) (tf' : Tfile)
    (content' : Option Bytes) : Prop where
  kept : ∀ {i}, Reported env tf content i → Reported env tf' content' i
  bytes : ∀ {i}, Reported env tf content i →
    content'.map (chunkOf · i) = content.map (chunkOf · i)
  exists_of : content ≠ none → content' ≠ none

theorem Advances.refl (env : Env) (tf : Tfile) (content : Option Bytes) :
    Advances env tf content tf content where
  kept := id
  bytes _ := rfl
  exists_of := id

theorem Advances.trans {tf' tf'' : Tfile} {content' content'' : Option Bytes}
    (first : Advances env tf content tf' content')
    (second : Advances env tf' content' tf'' content'') :
    Advances env tf content tf'' content'' where
  kept reported := second.kept (first.kept reported)
  bytes reported := (second.bytes (first.kept reported)).trans (first.bytes reported)
  exists_of present := second.exists_of (first.exists_of present)

theorem chunkOf_splice_self {bytes : Bytes} (length : bytes.length = size)
    (exact : data.length = chunkLen size i) :
    chunkOf (splice (chunkStart size i) data bytes) i = data := by
  have within := chunk_inside size i
  have inside : chunkStart size i + data.length ≤ bytes.length := by omega
  rw [chunkOf, length_splice inside, length, ← exact]
  exact slice_splice_self inside

theorem chunkOf_splice_of_ne {bytes : Bytes} {j : Fin numChunks}
    (length : bytes.length = size) (exact : data.length = chunkLen size i)
    (different : j ≠ i) :
    chunkOf (splice (chunkStart size i) data bytes) j = chunkOf bytes j := by
  have within := chunk_inside size i
  have inside : chunkStart size i + data.length ≤ bytes.length := by omega
  rw [chunkOf, length_splice inside, length, chunkOf, length]
  apply slice_splice_of_disjoint inside
  rw [exact]
  exact chunk_disjoint size different

theorem Advances.overwrite (sized : ∀ {bytes}, content = some bytes → bytes.length = size)
    (same : opened.tdef = tf.tdef) (isMapped : opened.mLocation ≠ none)
    (exact : data.length = chunkLen size i) (unreported : ¬Reported env tf content i) :
    Advances env tf content opened
      (some (splice (chunkStart size i) data (filled size content))) where
  kept := by
    intro j reported
    obtain ⟨bytes, rfl, located, verified⟩ := reported_iff.mp reported
    have partly : ¬Verified env tf.tdef bytes i := by
      intro matching
      exact unreported (reported_iff.mpr ⟨bytes, rfl, located, matching⟩)
    cases verified with
    | inl whole => exact absurd (.inl whole) partly
    | inr matching =>
        have different : j ≠ i := by
          rintro rfl
          exact partly (.inr matching)
        refine reported_iff.mpr ⟨_, rfl, fun unlocated => isMapped unlocated.1, .inr ?_⟩
        rw [filled, Option.getD_some, chunkOf_splice_of_ne (sized rfl) exact different, same]
        exact matching
  bytes := by
    intro j reported
    obtain ⟨bytes, rfl, _, _⟩ := reported_iff.mp reported
    have different : j ≠ i := by
      rintro rfl
      exact unreported reported
    simp only [Option.map_some, filled, Option.getD_some,
      chunkOf_splice_of_ne (sized rfl) exact different]
  exists_of _ := by simp

theorem reported_overwrite {bytes : Bytes} (length : bytes.length = size)
    (isMapped : opened.mLocation ≠ none) (exact : data.length = chunkLen size i)
    (matching : env.md5 data = opened.tdef.cHashes i) :
    Reported env opened (some (splice (chunkStart size i) data bytes)) i := by
  refine reported_iff.mpr ⟨_, rfl, fun unlocated => isMapped unlocated.1, .inr ?_⟩
  rw [chunkOf_splice_self length exact]
  exact matching

/-- What a client can rely on while it handles messages: with up to `limit` descriptors
open its file opens, it maps, and the definition has a size that the code can handle. -/
structure Serviceable (env : Env) (path : Path) (tdef : TfileDef) (size limit : Nat) : Prop
    extends Serves env path size limit where
  sized : tdef.size = size
  positive : 0 < size
  counts : size < 2 ^ 44

/-- A copy that has no file yet can be created. -/
def Creates (env : Env) (path : Path) (size : Nat) (content : Option Bytes) : Prop :=
  content = none → env.ftruncateOk path size = true

theorem creates_some (env : Env) (path : Path) (size : Nat) (bytes : Bytes) :
    Creates env path size (some bytes) := by
  intro missing
  simp at missing

theorem Advances.creates {tf' : Tfile} {content' : Option Bytes} {path : Path}
    (advances : Advances env tf content tf' content') (creates : Creates env path size content) :
    Creates env path size content' := by
  intro missing
  apply creates
  by_contra present
  exact advances.exists_of present missing

/-- A handled message advances the copy, and an honest one makes its chunk verified. -/
theorem CopyHandled.advances {after : Store} (copy : Copy store tdef tf content)
    (handled : CopyHandled env store after tdef tf content size i data)
    (sized : tdef.size = size) (positive : 0 < size)
    (carries : Carries tdef.fHash size i data message) :
    ∃ tf' content', Copy after tdef tf' content' ∧ tf'.home = tf.home ∧
      Advances env tf content tf' content' ∧
      (env.md5 data = tdef.cHashes i → Reported env tf' content' i) := by
  have lengths : ∀ {bytes}, content = some bytes → bytes.length = size := by
    intro bytes present
    have recorded := copy.sized present
    omega
  cases handled.outcome with
  | inl skipped =>
      obtain ⟨reported, stored⟩ := skipped
      exact ⟨tf, content, stored, rfl, .refl env tf content, fun _ => reported⟩
  | inr copied =>
      obtain ⟨unreported, opened, isMapped, home, stored⟩ := copied
      have exact := carries.length_data
      have length : (filled size content).length = size := by
        have recorded := copy.length_filled (by omega)
        rw [sized] at recorded
        omega
      refine ⟨opened, _, stored, home, ?_, ?_⟩
      · exact .overwrite lengths (stored.same.trans copy.same.symm) isMapped exact
          (by simp [Reported, unreported])
      · intro matching
        exact reported_overwrite length isMapped exact (stored.same ▸ matching)

/-- **One message** advances the copy, and an honest one makes its chunk
verified. -/
theorem Copy.step {limit : Nat} (copy : Copy store tdef tf content)
    (serviceable : Serviceable env tf.home tdef size limit) (few : store.os.openFds < limit)
    (creates : Creates env tf.home size content)
    (carries : Carries tdef.fHash size i data message) :
    ∃ tf' content' after, readFileData env store message = .ok after ∧
      Copy after tdef tf' content' ∧ tf'.home = tf.home ∧
      Advances env tf content tf' content' ∧
      (env.md5 data = tdef.cHashes i → Reported env tf' content' i) ∧
      Os.Elsewhere tf.home store.os after.os ∧ after.os.openFds ≤ store.os.openFds + 1 := by
  obtain ⟨serves, sized, positive, counts⟩ := serviceable
  obtain ⟨after, returned, handled⟩ :=
    copy.handle serves few creates sized positive counts carries
  obtain ⟨tf', content', stored, home, advances, honest⟩ :=
    handled.advances copy sized positive carries
  exact ⟨tf', content', after, returned, stored, home, advances, honest, handled.elsewhere,
    handled.descriptors.2⟩

/-- Handle messages one after the other. -/
def runFileData (env : Env) (store : Store) (messages : List FileData) : Result Store :=
  messages.foldlM (readFileData env) store

/-- **A run of messages** advances the copy, and the chunk of every honest message
in it is verified at the end. -/
theorem Copy.run {limit : Nat} {messages : List FileData} (copy : Copy store tdef tf content)
    (serviceable : Serviceable env tf.home tdef size limit)
    (few : store.os.openFds + messages.length ≤ limit)
    (creates : Creates env tf.home size content)
    (sound : ∀ message ∈ messages, ∃ i data, Carries tdef.fHash size i data message) :
    ∃ tf' content' after, runFileData env store messages = .ok after ∧
      Copy after tdef tf' content' ∧ tf'.home = tf.home ∧
      Advances env tf content tf' content' ∧
      after.os.openFds ≤ store.os.openFds + messages.length ∧
      ∀ message ∈ messages, ∀ i data, Carries tdef.fHash size i data message →
        env.md5 data = tdef.cHashes i → Reported env tf' content' i := by
  induction messages generalizing store tf content with
  | nil =>
      exact ⟨tf, content, store, rfl, copy, rfl, .refl env tf content, Nat.le_refl _, by simp⟩
  | cons first rest ih =>
      rw [List.length_cons] at few
      obtain ⟨i, data, carries⟩ := sound first List.mem_cons_self
      obtain ⟨middle, midContent, between, handled, midCopy, midHome, step, honest, _, added⟩ :=
        copy.step serviceable (by omega) creates carries
      obtain ⟨tf', content', after, ran, final, home, advances, descriptors, delivered⟩ :=
        ih midCopy (midHome ▸ serviceable) (by omega) (midHome ▸ step.creates creates)
          (fun message member => sound message (List.mem_cons_of_mem _ member))
      refine ⟨tf', content', after, ?_, final, home.trans midHome, step.trans advances, ?_, ?_⟩
      · simp only [runFileData, List.foldlM_cons, handled, Result.ok_bind]
        exact ran
      · rw [List.length_cons]
        omega
      · intro message member k chunk carried matching
        cases List.mem_cons.mp member with
        | inl isFirst =>
            obtain ⟨rfl, rfl⟩ := carries.unique (isFirst ▸ carried)
            exact advances.kept (honest matching)
        | inr later => exact delivered message later k chunk carried matching

/-! ## Convergence -/

/-- The message is for a chunk of the hash, claims the size that `open_tfile`
returns for it, carries that many bytes and fits the read buffer. -/
def Matching (env : Env) (receiver : Store) (hash : Digest) (message : FileData) : Prop :=
  let hdr := ChunkPayload.decode message.payload
  let chunkSize := (ntohl hdr.chunkSize).toNat
  message.dataRead.length = messageSize ∧ message.payload.length ≤ messageSize ∧
    message.payload.length = ChunkPayload.sizeOf + chunkSize ∧ hdr.fileHash = hash ∧
    ∃ (i : Fin numChunks) (location : Location) (after : Store),
      hdr.chunkIndex.toInt = i.val ∧
      openTfile env receiver hash i.val = .ok (some (location, (chunkSize : Int)), after)

/-- `send_chunk_message` built the message from a copy in which `verify_tfile`
reported the chunk, and the digest of that copy does not collide with that of the
original. -/
def Honest (env : Env) (tdef : TfileDef) (original : Bytes) (i : Fin numChunks)
    (message : FileData) : Prop :=
  ∃ (peer : Env) (sender verified after : Store) (tf : Tfile) (bytes : Bytes)
    (locals : VerifyLocals) (chunks : VerifiedChunks),
    peer.md5 = env.md5 ∧ Copy sender tdef tf (some bytes) ∧
    verifyTfile peer sender tdef.fHash locals = .ok (chunks, verified) ∧
    isChunkVerified chunks i.val = true ∧
    sendChunkMessage peer verified tdef.fHash i.val = .ok (some message.payload, after) ∧
    (env.md5 bytes = env.md5 original → bytes = original)

/-- Every chunk that `verify_tfile` reports in the first state is reported in the
second, and has the same bytes. -/
def NeverLoses (env : Env) (hash : Digest) (path : Path) (first second : Store) : Prop :=
  ∀ locals locals', ∃ chunks left chunks' left' bytes bytes',
    verifyTfile env first hash locals = .ok (chunks, left) ∧
    verifyTfile env second hash locals' = .ok (chunks', left') ∧
    first.os.files path = some bytes ∧ second.os.files path = some bytes' ∧
    ∀ i : Fin numChunks, isChunkVerified chunks i.val = true →
      isChunkVerified chunks' i.val = true ∧ chunkOf bytes' i = chunkOf bytes i

theorem Copy.carries {limit : Nat} {content : Bytes}
    (copy : Copy store tdef tf (some content))
    (serviceable : Serviceable env tf.home tdef size limit) (few : store.os.openFds ≤ limit)
    (matching : Matching env store tdef.fHash message) :
    ∃ i data, Carries tdef.fHash size i data message := by
  obtain ⟨serves, sized, positive, counts⟩ := serviceable
  obtain ⟨buffer, fits, length, hash, i, location, after, index, expected⟩ := matching
  have reachable : Reachable env store tf := by
    intro _
    rw [copy.same, sized, copy.file]
    exact ⟨serves.opens _ few, serves.maps, by simp⟩
  obtain ⟨mapping, _, _, pointed, _⟩ := copy.open reachable sized positive (by omega) i
  rw [pointed] at expected
  simp only [Except.ok.injEq, Prod.mk.injEq, Option.some.injEq, Nat.cast_inj] at expected
  have claimed := expected.1.2
  exact ⟨i, _, buffer, fits, claimed ▸ length, rfl, hash, index, claimed.symm⟩

theorem Honest.matching {original : Bytes} {name : Vector UInt8 nameLen}
    (generated : tdef = definitionOf env name original) (positive : 0 < original.length)
    (counts : original.length < 2 ^ 44) (honest : Honest env tdef original i message)
    {data : Bytes} {k : Fin numChunks}
    (carries : Carries tdef.fHash original.length k data message) :
    k = i ∧ env.md5 data = tdef.cHashes i := by
  obtain ⟨peer, sender, verified, after, tf, bytes, locals, chunks, sameMd5, copy, judged,
    reported, sent, distinct⟩ := honest
  have sized : tdef.size = original.length := by rw [generated]; rfl
  have length : bytes.length = original.length := by
    have recorded := copy.sized rfl
    omega
  obtain ⟨valid, kept⟩ := copy.verified_of_report (by omega) judged reported
  have payload := (copy.of_leak kept).send sized positive (by omega) sent
  have soundly : Carries tdef.fHash original.length i (chunkOf bytes i) message :=
    carries_chunkMessage carries.buffer payload (by rw [length_chunkOf, length]) carries.fits
  obtain ⟨rfl, rfl⟩ := carries.unique soundly
  refine ⟨rfl, ?_⟩
  rw [Verified, sameMd5] at valid
  cases valid with
  | inl whole =>
      rw [generated] at whole ⊢
      rw [distinct whole]
      rfl
  | inr matching => exact matching

theorem Advances.neverLoses {first second : Store} {tf' : Tfile} {content content' : Bytes}
    (advances : Advances env tf (some content) tf' (some content'))
    (before : Copy first tdef tf (some content)) (after : Copy second tdef tf' (some content'))
    (home : tf'.home = tf.home)
    (opensFirst : env.openOk first.os.openFds tf.home = true)
    (opensSecond : env.openOk second.os.openFds tf.home = true) (counts : tdef.size < 2 ^ 44) :
    NeverLoses env tdef.fHash tf.home first second := by
  intro locals locals'
  obtain ⟨left, firstReport, _⟩ := before.verified counts (fun _ => opensFirst) locals
  obtain ⟨left', secondReport, _⟩ :=
    after.verified counts (fun _ => home ▸ opensSecond) locals'
  refine ⟨_, left, _, left', content, content', firstReport, secondReport, before.file,
    home ▸ after.file, ?_⟩
  intro i reported
  refine ⟨advances.kept reported, ?_⟩
  have same := advances.bytes reported
  simpa using same

/-- **Downloads converge.**  The receiver holds a generated definition, and its
file has any content of the recorded length.  Whatever matching messages arrive,
in whatever order, every handler returns, no verified chunk is lost or changed
between any two moments of the run, and once each chunk had an honest message,
`verify_tfile` reports the whole file.  The file has to open with as many descriptors
open as there are messages in the run, since each of them may leave one. -/
theorem download_converges {maker : Env} {fuel : Nat} {origin stored receiver : Store}
    {scratch : TfileDef} {path : Path} {name : Vector UInt8 nameLen} {original content : Bytes}
    {messages : List FileData}
    (generated : generateTfile maker fuel origin scratch path name = .ok (0, tdef, stored))
    (file : origin.os.files path = some original) (sameMd5 : maker.md5 = env.md5)
    (copy : Copy receiver tdef tf (some content))
    (opens : ∀ descriptors ≤ receiver.os.openFds + messages.length,
      env.createOk descriptors tf.home = true)
    (maps : env.mmapOk original.length = true)
    (matching : ∀ message ∈ messages, Matching env receiver tdef.fHash message) :
    (∀ before later rest, messages = before ++ later ++ rest →
      ∃ first second, runFileData env receiver before = .ok first ∧
        runFileData env first later = .ok second ∧
        NeverLoses env tdef.fHash tf.home first second) ∧
    ((∀ i, ∃ message ∈ messages, Honest env tdef original i message) →
      ∃ final, runFileData env receiver messages = .ok final ∧
        ∀ locals, ∃ left, verifyTfile env final tdef.fHash locals =
          .ok (verifiedFile, left)) := by
  obtain ⟨b, isFile, admitted, counts, definition⟩ := generateTfile_definition generated
  obtain rfl : b = original := by
    rw [file, Option.some.injEq] at isFile
    exact isFile.symm
  have definedBy : tdef = definitionOf env name b := by
    rw [definition]
    simp only [definitionOf, sameMd5]
  have sized : tdef.size = b.length := by rw [definedBy]; rfl
  have serviceable : Serviceable env tf.home tdef b.length
      (receiver.os.openFds + messages.length) :=
    ⟨⟨opens, maps⟩, sized, by omega, counts⟩
  have sound : ∀ message ∈ messages, ∃ i data, Carries tdef.fHash b.length i data message :=
    fun message member => copy.carries serviceable (by omega) (matching message member)
  constructor
  · rintro before later rest rfl
    have soundBefore : ∀ message ∈ before,
        ∃ i data, Carries tdef.fHash b.length i data message :=
      fun message member =>
        sound message (List.mem_append_left _ (List.mem_append_left _ member))
    have soundLater : ∀ message ∈ later,
        ∃ i data, Carries tdef.fHash b.length i data message :=
      fun message member =>
        sound message (List.mem_append_left _ (List.mem_append_right _ member))
    have parts : (before ++ later ++ rest).length = before.length + later.length + rest.length := by
      rw [List.length_append, List.length_append]
    obtain ⟨middle, midContent, first, ranFirst, midCopy, midHome, started, firstFds, _⟩ :=
      copy.run serviceable (by omega) (creates_some _ _ _ _) soundBefore
    obtain ⟨final, endContent, second, ranSecond, endCopy, endHome, advances, secondFds, _⟩ :=
      midCopy.run (midHome ▸ serviceable) (by omega)
        (midHome ▸ started.creates (creates_some _ _ _ _)) soundLater
    cases midContent with
    | none => exact absurd rfl (started.exists_of (by simp))
    | some midBytes =>
        cases endContent with
        | none => exact absurd rfl (advances.exists_of (by simp))
        | some endBytes =>
            refine ⟨first, second, ranFirst, ranSecond, ?_⟩
            rw [← midHome]
            exact advances.neverLoses midCopy endCopy endHome
              (midHome ▸ serviceable.reads (by omega)) (midHome ▸ serviceable.reads (by omega))
              (by omega)
  · intro honest
    obtain ⟨final, endContent, after, ran, endCopy, endHome, _, descriptors, delivered⟩ :=
      copy.run serviceable (Nat.le_refl _) (creates_some _ _ _ _) sound
    have every : ∀ i, Reported env final endContent i := by
      intro i
      obtain ⟨message, member, isHonest⟩ := honest i
      obtain ⟨k, data, carries⟩ := sound message member
      obtain ⟨rfl, matches'⟩ := isHonest.matching definedBy (by omega) counts carries
      exact delivered message member k data carries matches'
    refine ⟨after, ran, ?_⟩
    intro locals
    rw [← report_eq_verifiedFile every]
    obtain ⟨left, verified, _⟩ :=
      endCopy.verified (by omega) (fun _ => endHome ▸ serviceable.reads descriptors) locals
    exact ⟨left, verified⟩

/-- A message from the client that generated the definition. -/
def sampleMessage (i : Fin numChunks) : FileData where
  dataRead := List.replicate messageSize 0
  payload := chunkMessage heldDef.fHash i (chunkOf sampleContent i)
  locals := ⟨0, fun _ => 0⟩

theorem sampleMessage_carries (i : Fin numChunks) :
    Carries heldDef.fHash 256 i (chunkOf sampleContent i) (sampleMessage i) := by
  have small : ∀ i, chunkLen 256 i = 32 := by decide
  have length : (chunkOf sampleContent i).length = chunkLen 256 i := by
    rw [length_chunkOf, length_sampleContent]
  have payload : (sampleMessage i).payload =
      chunkMessage heldDef.fHash i (chunkOf sampleContent i) := rfl
  refine carries_chunkMessage List.length_replicate payload length ?_
  rw [payload, chunkMessage, List.length_append, ChunkPayload.length_bytes, length, small]
  decide

theorem sampleServer_serves (i : Fin numChunks) (locals : VerifyLocals) :
    ∃ chunks verified after,
      verifyTfile sampleEnv sampleServer heldDef.fHash locals = .ok (chunks, verified) ∧
      isChunkVerified chunks i.val = true ∧
      sendChunkMessage sampleEnv verified heldDef.fHash i.val =
        .ok (some (chunkMessage heldDef.fHash i (chunkOf sampleContent i)), after) := by
  have nonempty : ∀ i, 0 < chunkLen 256 i := by decide
  have small : heldDef.size < 2 ^ 44 := by
    rw [heldDef_size]
    decide
  have allocates : sampleEnv.mallocOk (ChunkPayload.sizeOf + chunkLen 256 i) = true := rfl
  obtain ⟨verified, judged, copied, _⟩ :=
    sampleServer_copy.verified small (fun _ => sampleEnv_opens _ (by decide)) locals
  obtain ⟨_, after, sent, _⟩ := copied.send_eq (sampleEnv_reachable _ (by decide)) heldDef_size
    (by decide) (by decide) i
  rw [if_pos ⟨nonempty i, allocates⟩] at sent
  refine ⟨_, verified, after, judged, ?_, sent⟩
  refine reported_iff.mpr ⟨sampleContent, rfl, by simp, .inl ?_⟩
  rw [heldDef, definitionOf_fHash]

theorem sampleMessage_honest (i : Fin numChunks) :
    Honest sampleEnv heldDef sampleContent i (sampleMessage i) := by
  obtain ⟨chunks, verified, after, judged, reported, sent⟩ :=
    sampleServer_serves i ⟨0, fun _ => 0⟩
  exact ⟨sampleEnv, sampleServer, verified, after, _, sampleContent, _, chunks, rfl,
    sampleServer_copy, judged, reported, sent, fun _ => rfl⟩

theorem sampleServer_generated :
    generateTfile sampleEnv 1 (sampleStore sampleContent) .zero samplePath sampleName =
      .ok (0, heldDef, sampleServer) := by
  rw [generateTfile_eq (sampleStore_file sampleContent) (by decide) (by rw [length_sampleContent])
    sampleContent_counts, sampleStore, Htable.search_init]
  simp only [Result.ok_bind, Option.isSome_none, Bool.false_eq_true, if_false,
    addHtable_init, sampleServer, sampleReceiver, sampleStore, heldDef]

theorem download_converges_zeros :
    ∃ final, runFileData sampleEnv (sampleReceiver staleContent)
        ((List.finRange numChunks).map sampleMessage) = .ok final ∧
      ∀ locals, ∃ left, verifyTfile sampleEnv final heldDef.fHash locals =
        .ok (verifiedFile, left) := by
  have matching : ∀ message ∈ (List.finRange numChunks).map sampleMessage,
      Matching sampleEnv (sampleReceiver staleContent) heldDef.fHash message := by
    intro message member
    obtain ⟨i, _, rfl⟩ := List.mem_map.mp member
    have carries := sampleMessage_carries i
    obtain ⟨mapping, _, after, pointed, _⟩ := (sampleReceiver_copy length_staleContent).open
      (sampleEnv_reachable _ heldDef_named) heldDef_size (by decide) (by decide) i
    refine ⟨carries.buffer, carries.fits, ?_, carries.hash, i, ⟨mapping, 256, chunkStart 256 i⟩,
      after, carries.index, ?_⟩
    · rw [carries.claimed]
      exact carries.length
    · rw [carries.claimed]
      exact pointed
  have converges := download_converges sampleServer_generated (sampleStore_file sampleContent) rfl
    (sampleReceiver_copy length_staleContent) (fun _ _ => sampleEnv_creates _ heldDef_named) rfl
    matching
  apply converges.2
  intro i
  exact ⟨sampleMessage i, List.mem_map_of_mem (List.mem_finRange i), sampleMessage_honest i⟩

end Grintorrent
