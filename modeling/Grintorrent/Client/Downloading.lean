import Grintorrent.Client.Download
import Grintorrent.Client.Locking
import Grintorrent.File.Entries

/-!
# The loop of `download_file`

A download verifies the file, asks all peers for each chunk that is not verified, sleeps,
and begins again, until the file is verified.  In the meantime `readWorker` threads handle
`FILE_DATA` messages; which ones may depend on what was asked for.  Between two rounds the
copy only advances, so a later round asks for no chunk that an earlier one did not ask for,
and the loop ends with a file that matches its definition.
-/

namespace Grintorrent

open Lib

/-- What one round of the loop meets: what the arrays of `verify_tfile` hold, the peer list
while a chunk is asked for, and the messages handled until the next round. -/
structure DownloadRound where
  locals : VerifyLocals
  found : Fin numChunks → Peers
  answers : List (Fd × ChunkRequest) → List FileData

/-- The requests of a round: one to each peer for each chunk that is not verified. -/
def requestsOf (fileHash : Digest) (tempPort : BitVec 16) (chunks : VerifiedChunks)
    (found : Fin numChunks → Peers) : List (Fd × ChunkRequest) :=
  (List.finRange numChunks).flatMap fun i =>
    if !isChunkVerified chunks i.val then
      (found i).arr.map fun fd => (fd, .forDownload fileHash i tempPort)
    else []

/-- The loop of `download_file`: the requests of each round, and the state it leaves.  It is
still running when the rounds are used up. -/
def downloadLoop (env : Env) (fileHash : Digest) (tempPort : BitVec 16) :
    (rounds : List DownloadRound) → (store : Store) →
      Result (List (List (Fd × ChunkRequest)) × Store)
  | [], _ => .error .running
  | round :: rounds, store => do
      let (chunks, store) ← verifyTfile env store fileHash round.locals
      if chunks = verifiedFile then .ok ([], store)
      else do
        let requests := requestsOf fileHash tempPort chunks round.found
        let store ← runFileData env store (round.answers requests)
        let (later, store) ← downloadLoop env fileHash tempPort rounds store
        .ok (requests :: later, store)

/-- What a `download_file` has done. -/
structure Downloaded where
  store : Store
  requests : List (List (Fd × ChunkRequest))
  displayed : List (Bytes × Bytes)

/-- The message that `snprintf` writes into an array of 500 bytes. -/
def downloadedMessage (name : Bytes) : Bytes :=
  (asciiBytes "File '" ++ name ++ asciiBytes "' downloaded!").take 499

/-- `download_file`.  `opened` is the port of the socket that `server_socket_open` opened,
if it did, and `syncs` and `unmaps` are the outcomes of `msync` and `munmap`. -/
def downloadFile (env : Env) (fileHash : Digest) (opened : Option (BitVec 16))
    (rounds : List DownloadRound) (syncs unmaps : Bool) (store : Store) : Result Downloaded :=
  match opened with
  | none => .ok { store, requests := [], displayed := [] }
  | some tempPort => do
      let (requests, store) ← downloadLoop env fileHash tempPort rounds store
      let (_, store) ← saveTfile store fileHash syncs unmaps
      match ← lookupTfile store.ht fileHash with
      | none => .error .nullPointer
      | some (_, tf) =>
          .ok
            { store
              requests
              displayed := [(asciiBytes "system", downloadedMessage tf.tdef.namePath)] }

variable {env : Env} {store after : Store} {tdef : TfileDef} {tf : Tfile}
variable {content : Option Bytes} {size : Nat} {tempPort : BitVec 16}
variable {round : DownloadRound} {rounds : List DownloadRound}
variable {requests : List (List (Fd × ChunkRequest))}

/-- Whatever the round asks for, all messages are sound ones for the hash. -/
def DownloadRound.Sound (hash : Digest) (size : Nat) (tempPort : BitVec 16)
    (round : DownloadRound) : Prop :=
  ∀ chunks, ∀ message ∈ round.answers (requestsOf hash tempPort chunks round.found),
    ∃ i data, Carries hash size i data message

theorem report_iff_reported (i : Fin numChunks) :
    isChunkVerified (report env tf content) i.val = true ↔ Reported env tf content i := Iff.rfl

theorem report_eq_verifiedFile_iff :
    report env tf content = verifiedFile ↔ ∀ i, Reported env tf content i := by
  constructor
  · intro complete i
    rw [← report_iff_reported, complete]
    exact isChunkVerified_verifiedFile i
  · exact report_eq_verifiedFile

/-- From one store to a later one a copy has only advanced, and no other file has changed. -/
structure Grown (env : Env) (tdef : TfileDef) (store after : Store) (tf : Tfile)
    (content : Option Bytes) (tf' : Tfile) (content' : Option Bytes) : Prop where
  copy : Copy after tdef tf' content'
  home : tf'.home = tf.home
  advances : Advances env tf content tf' content'
  elsewhere : Os.Elsewhere tf.home store.os after.os
  descriptors : store.os.openFds ≤ after.os.openFds

/-- `verify_tfile` has left a descriptor at most. -/
theorem Copy.grown_verified (copy : Copy store tdef tf content)
    (kept : after = store ∨ after = store.leak) :
    Grown env tdef store after tf content tf content where
  copy := copy.of_leak kept
  home := rfl
  advances := .refl env tf content
  elsewhere := elsewhere_of_leak kept tf.home
  descriptors := (openFds_of_leak kept).1

theorem Grown.trans {between : Store} {middle tf' : Tfile} {midContent content' : Option Bytes}
    (first : Grown env tdef store between tf content middle midContent)
    (second : Grown env tdef between after middle midContent tf' content') :
    Grown env tdef store after tf content tf' content' where
  copy := second.copy
  home := second.home.trans first.home
  advances := first.advances.trans second.advances
  elsewhere := first.elsewhere.trans (first.home ▸ second.elsewhere)
  descriptors := first.descriptors.trans second.descriptors

theorem Copy.run_grown {messages : List FileData} (copy : Copy store tdef tf content)
    (sized : tdef.size = size) (admitted : minSize ≤ size) (counts : size < 2 ^ 44)
    (sound : ∀ message ∈ messages, ∃ i data, Carries tdef.fHash size i data message)
    (ran : runFileData env store messages = .ok after) :
    ∃ tf' content', Grown env tdef store after tf content tf' content' := by
  induction messages generalizing store tf content with
  | nil =>
      cases ran
      exact ⟨tf, content, copy.grown_verified (.inl rfl)⟩
  | cons first rest ih =>
      obtain ⟨i, data, carries⟩ := sound first List.mem_cons_self
      simp only [runFileData, List.foldlM_cons, Result.bind_eq_ok] at ran
      obtain ⟨between, handled, ran⟩ := ran
      have outcome := copy.handled sized (chunkLen_pos admitted i) counts carries handled
      have positive : 0 < size := Nat.lt_of_lt_of_le (by decide) admitted
      obtain ⟨middle, midContent, midCopy, midHome, step, _⟩ :=
        outcome.advances copy sized positive carries
      have started : Grown env tdef store between tf content middle midContent :=
        ⟨midCopy, midHome, step, outcome.elsewhere, outcome.descriptors.1⟩
      obtain ⟨tf', content', later⟩ :=
        ih midCopy (fun message member => sound message (List.mem_cons_of_mem _ member)) ran
      exact ⟨tf', content', started.trans later⟩

theorem unverifiedFile_ne_verifiedFile : unverifiedFile ≠ verifiedFile := by decide

/-- A loop that has returned found the copy complete in its first round, or it asked for the
chunks that `verify_tfile` did not report, and the copy advanced by the messages handled until
the next round. -/
theorem Copy.downloadRound_cases {asked : List (List (Fd × ChunkRequest))}
    (copy : Copy store tdef tf content) (sized : tdef.size = size) (admitted : minSize ≤ size)
    (counts : size < 2 ^ 44) (sound : round.Sound tdef.fHash size tempPort)
    (returned : downloadLoop env tdef.fHash tempPort (round :: rounds) store =
      .ok (asked, after)) :
    (asked = [] ∧ (∀ i, Reported env tf content i) ∧
        Grown env tdef store after tf content tf content) ∨
      ∃ chunks tf' content' between later,
        chunks ≠ verifiedFile ∧ (Opens env store tf → chunks = report env tf content) ∧
        Grown env tdef store between tf content tf' content' ∧
        downloadLoop env tdef.fHash tempPort rounds between = .ok (later, after) ∧
        asked = requestsOf tdef.fHash tempPort chunks round.found :: later := by
  simp only [downloadLoop, Result.bind_eq_ok] at returned
  obtain ⟨⟨chunks, verified⟩, judged, goesOn⟩ := returned
  have recorded : tdef.size < 2 ^ 44 := by omega
  have judgement := copy.verify_cases recorded judged
  have kept : verified = store ∨ verified = store.leak := by
    rcases judgement with ⟨_, _, kept⟩ | ⟨_, _, same⟩
    · exact kept
    · exact .inl same
  have started : Grown env tdef store verified tf content tf content := copy.grown_verified kept
  by_cases complete : chunks = verifiedFile
  · left
    simp only [if_pos complete, Except.ok.injEq, Prod.mk.injEq] at goesOn
    obtain ⟨rfl, rfl⟩ := goesOn
    refine ⟨rfl, ?_, started⟩
    rcases judgement with ⟨_, isReport, _⟩ | ⟨_, unverified, _⟩
    · exact report_eq_verifiedFile_iff.mp (isReport.symm.trans complete)
    · exact absurd (unverified.symm.trans complete) unverifiedFile_ne_verifiedFile
  · right
    simp only [if_neg complete, Result.bind_eq_ok] at goesOn
    obtain ⟨between, ran, ⟨later, final⟩, isLater, rest⟩ := goesOn
    cases rest
    obtain ⟨tf', content', grown⟩ :=
      started.copy.run_grown sized admitted counts (sound chunks) ran
    refine ⟨chunks, tf', content', between, later, complete, ?_, started.trans grown, isLater, rfl⟩
    intro opens
    rcases judgement with ⟨_, isReport, _⟩ | ⟨refused, _⟩
    · exact isReport
    · exact absurd opens refused

theorem Copy.downloadLoop_complete (copy : Copy store tdef tf content)
    (counts : tdef.size < 2 ^ 44) (opens : Opens env store tf)
    (complete : report env tf content = verifiedFile) :
    ∃ verified, downloadLoop env tdef.fHash tempPort (round :: rounds) store =
      .ok ([], verified) := by
  obtain ⟨verified, returned, _⟩ := copy.verified counts opens round.locals
  refine ⟨verified, ?_⟩
  simp only [downloadLoop, returned, Result.ok_bind]
  rw [if_pos complete]

/-- A round that finds chunks missing asks for them, and every message handled until the next
round that matches the definition has brought its chunk. -/
theorem Copy.downloadRound {limit : Nat} (copy : Copy store tdef tf content)
    (serviceable : Serviceable env tf.home tdef size limit)
    (creates : Creates env tf.home size content)
    (sound : round.Sound tdef.fHash size tempPort)
    (few : store.os.openFds + 1 + (round.answers
      (requestsOf tdef.fHash tempPort (report env tf content) round.found)).length ≤ limit)
    (incomplete : report env tf content ≠ verifiedFile) :
    ∃ tf' content' between,
      Copy between tdef tf' content' ∧ tf'.home = tf.home ∧
      Advances env tf content tf' content' ∧
      between.os.openFds ≤ store.os.openFds + 1 + (round.answers
        (requestsOf tdef.fHash tempPort (report env tf content) round.found)).length ∧
      (∀ message ∈ round.answers
          (requestsOf tdef.fHash tempPort (report env tf content) round.found),
        ∀ i data, Carries tdef.fHash size i data message →
          env.md5 data = tdef.cHashes i → Reported env tf' content' i) ∧
      downloadLoop env tdef.fHash tempPort (round :: rounds) store = (do
        let (later, after) ← downloadLoop env tdef.fHash tempPort rounds between
        .ok (requestsOf tdef.fHash tempPort (report env tf content) round.found :: later,
          after)) := by
  have isServiceable := serviceable
  obtain ⟨⟨opens, maps⟩, sized, positive, counts⟩ := serviceable
  obtain ⟨verified, returned, copied, kept⟩ :=
    copy.verified (by omega) (fun _ => env.readable (opens _ (by omega))) round.locals
  have leaked := openFds_of_leak kept
  obtain ⟨tf', content', between, ran, final, home, advances, descriptors, delivered⟩ :=
    copied.run isServiceable (by omega) creates (sound (report env tf content))
  refine ⟨tf', content', between, final, home, advances, by omega, delivered, ?_⟩
  simp only [downloadLoop, returned, Result.ok_bind]
  rw [if_neg incomplete, ran]
  rfl

/-! ## What a download leaves -/

/-- What the rounds asked for: each for the chunks that its bitmap does not have.  The bitmaps
only grow while the file opens with up to `descriptors` others. -/
structure Narrowing (env : Env) (tf : Tfile) (content : Option Bytes) (tempPort : BitVec 16)
    (rounds : List DownloadRound) (requests : List (List (Fd × ChunkRequest)))
    (verdicts : List VerifiedChunks) (descriptors : Nat) : Prop where
  asked : requests = List.zipWith (fun chunks (round : DownloadRound) =>
    requestsOf tf.tdef.fHash tempPort chunks round.found) verdicts rounds
  length : requests.length = verdicts.length
  incomplete : ∀ chunks ∈ verdicts, chunks ≠ verifiedFile
  least : (∀ count ≤ descriptors, env.openOk count tf.home = true) →
    ∀ chunks ∈ verdicts, ∀ i, Reported env tf content i → isChunkVerified chunks i.val = true
  grows : (∀ count ≤ descriptors, env.openOk count tf.home = true) →
    verdicts.Pairwise fun early late => ∀ i : Fin numChunks,
      isChunkVerified early i.val = true → isChunkVerified late i.val = true

/-- **What a download that has ended leaves**: a copy of which every chunk is reported, and
that has lost none it had. -/
theorem Copy.downloadLoop_ended (copy : Copy store tdef tf content) (sized : tdef.size = size)
    (admitted : minSize ≤ size) (counts : size < 2 ^ 44)
    (sound : ∀ round ∈ rounds, round.Sound tdef.fHash size tempPort)
    (returned : downloadLoop env tdef.fHash tempPort rounds store = .ok (requests, after)) :
    ∃ tf' content' verdicts,
      Grown env tdef store after tf content tf' content' ∧ (∀ i, Reported env tf' content' i) ∧
      Narrowing env tf content tempPort rounds requests verdicts after.os.openFds := by
  induction rounds generalizing store tf content requests with
  | nil => simp [downloadLoop] at returned
  | cons round rounds ih =>
      obtain ⟨rfl, every, grown⟩ | ⟨chunks, middle, midContent, between, later, incomplete,
        isReport, started, isLater, rfl⟩ :=
        copy.downloadRound_cases sized admitted counts (sound round List.mem_cons_self) returned
      · exact ⟨tf, content, [], grown, every, rfl, rfl, by simp, by simp, fun _ => .nil⟩
      · obtain ⟨tf', content', verdicts, ended, every, narrowing⟩ :=
          ih started.copy (fun round member => sound round (List.mem_cons_of_mem _ member))
            isLater
        have home := started.home
        have grown := started.trans ended
        refine ⟨tf', content', chunks :: verdicts, grown, every, ?_⟩
        constructor
        case asked =>
            rw [List.zipWith_cons_cons, narrowing.asked, started.copy.same, copy.same]
        case length => rw [List.length_cons, List.length_cons, narrowing.length]
        case incomplete =>
            intro verdict member
            rcases List.mem_cons.mp member with rfl | isLater
            · exact incomplete
            · exact narrowing.incomplete verdict isLater
        case least =>
            intro opens verdict member i reported
            rcases List.mem_cons.mp member with rfl | isLater
            · rw [isReport fun _ => opens _ grown.descriptors]
              exact reported
            · exact narrowing.least (home ▸ opens) verdict isLater i
                (started.advances.kept reported)
        case grows =>
            intro opens
            refine List.pairwise_cons.mpr ⟨?_, narrowing.grows (home ▸ opens)⟩
            intro verdict isLater i reported
            rw [isReport fun _ => opens _ grown.descriptors] at reported
            exact narrowing.least (home ▸ opens) verdict isLater i
              (started.advances.kept reported)

theorem Copy.save (copy : Copy store tdef tf content) (syncs unmaps : Bool) :
    ∃ code after index saved, saveTfile store tdef.fHash syncs unmaps = .ok (code, after) ∧
      after.os = store.os ∧ lookupTfile after.ht tdef.fHash = .ok (some (index, saved)) ∧
      saved.tdef = tdef ∧ (syncs = true → unmaps = true → saved.mLocation = none) := by
  obtain ⟨index, found⟩ := copy.found
  simp only [saveTfile, found, Result.ok_bind]
  cases isMapped : tf.mLocation with
  | none => exact ⟨0, store, index, tf, rfl, rfl, found, copy.same, fun _ _ => isMapped⟩
  | some mapping =>
      by_cases released : (syncs && unmaps) = true
      · simp only [if_pos released]
        exact ⟨0, _, index, _, rfl, rfl, lookupTfile_setLocations found _ none, copy.same,
          fun _ _ => rfl⟩
      · simp only [if_neg released]
        refine ⟨-1, store, index, tf, rfl, rfl, found, copy.same, ?_⟩
        rintro rfl rfl
        exact absurd rfl released

theorem eq_original_of_reported {name : Vector UInt8 nameLen} {original bytes : Bytes}
    (defined : tf.tdef = definitionOf env name original) (length : bytes.length = original.length)
    (every : ∀ i, Reported env tf (some bytes) i) (distinct : Distinguished env bytes original) :
    bytes = original := by
  apply (@verdict_eq_verifiedFile_iff _ _ name _ distinct length).mp
  rw [← defined]
  have complete := report_eq_verifiedFile every
  obtain ⟨_, ⟨⟩, located, _⟩ := reported_iff.mp (every 0)
  simpa only [report, if_neg located] using complete

theorem definitionOf_generated {maker : Env} {fuel : Nat} {origin stored : Store}
    {scratch : TfileDef} {path : Path} {name : Vector UInt8 nameLen} {original : Bytes}
    (generated : generateTfile maker fuel origin scratch path name = .ok (0, tdef, stored))
    (file : origin.os.files path = some original) :
    minSize ≤ original.length ∧ original.length < 2 ^ 44 ∧
      tdef = definitionOf maker name original := by
  obtain ⟨b, isFile, admitted, counts, definition⟩ := generateTfile_definition generated
  rw [file, Option.some.injEq] at isFile
  subst isFile
  exact ⟨by exact_mod_cast admitted, counts, definition⟩

theorem definitionOf_congr {maker : Env} (sameMd5 : maker.md5 = env.md5)
    (name : Vector UInt8 nameLen) (original : Bytes) :
    definitionOf maker name original = definitionOf env name original := by
  simp only [definitionOf, sameMd5]

/-- What a download that has returned has done, as far as its copy is concerned. -/
structure DownloadDone (env : Env) (tdef : TfileDef) (tf : Tfile) (content : Option Bytes)
    (original : Bytes) (tempPort : BitVec 16) (rounds : List DownloadRound)
    (before : Store) (result : Downloaded) : Prop where
  /-- The file is the original unless digests collide, and what was verified stays. -/
  file : ∃ bytes, result.store.os.files tf.home = some bytes ∧
    bytes.length = original.length ∧ (Distinguished env bytes original → bytes = original) ∧
    ∀ i, Reported env tf content i → content.map (chunkOf · i) = some (chunkOf bytes i)
  others : Os.Elsewhere tf.home before.os result.store.os
  displayed : result.displayed = [(asciiBytes "system", downloadedMessage tdef.namePath)]
  narrowing : ∃ verdicts,
    Narrowing env tf content tempPort rounds result.requests verdicts result.store.os.openFds

theorem Copy.downloadFile_done {name : Vector UInt8 nameLen} {original : Bytes}
    {syncs unmaps : Bool} {result : Downloaded} (copy : Copy store tdef tf content)
    (admitted : minSize ≤ original.length) (counts : original.length < 2 ^ 44)
    (sound : ∀ round ∈ rounds, round.Sound tdef.fHash original.length tempPort)
    (defined : tdef = definitionOf env name original)
    (returned : downloadFile env tdef.fHash (some tempPort) rounds syncs unmaps store =
      .ok result) :
    DownloadDone env tdef tf content original tempPort rounds store result ∧
      (syncs = true → unmaps = true → ∃ saved, result.store.ht.Entry tdef.fHash saved ∧
        saved.mLocation = none) := by
  have sized : tdef.size = original.length := by rw [defined, definitionOf_size]
  simp only [downloadFile, Result.bind_eq_ok] at returned
  obtain ⟨⟨requests, ended⟩, isEnded, ⟨code, after⟩, isSaved, entry, isEntry, rest⟩ := returned
  obtain ⟨tf', content', verdicts, grown, every, narrowing⟩ :=
    copy.downloadLoop_ended sized admitted counts sound isEnded
  have final := grown.copy
  obtain ⟨_, _, index, saved, saves, sameOs, found, sameDef, released⟩ := final.save syncs unmaps
  rw [saves] at isSaved
  cases isSaved
  rw [found] at isEntry
  cases isEntry
  cases rest
  obtain ⟨bytes, rfl, _, _⟩ := reported_iff.mp (every 0)
  have length : bytes.length = original.length := by
    have recorded := final.sized rfl
    omega
  refine ⟨⟨⟨bytes, ?_, length, ?_, ?_⟩, ?_, ?_, verdicts, ?_⟩, ?_⟩
  · rw [sameOs, ← grown.home]
    exact final.file
  · exact eq_original_of_reported (final.same.trans defined) length every
  · exact fun i reported => (grown.advances.bytes reported).symm
  · rw [sameOs]
    exact grown.elsewhere
  · rw [sameDef]
  · rw [sameOs]
    exact narrowing
  · exact fun synced unmapped => ⟨saved, ⟨index, found⟩, released synced unmapped⟩

/-- The chunks that a bitmap does not have. -/
def missingChunks (chunks : VerifiedChunks) : Finset (Fin numChunks) :=
  Finset.univ.filter fun i => isChunkVerified chunks i.val = false

theorem mem_missingChunks {chunks : VerifiedChunks} {i : Fin numChunks} :
    i ∈ missingChunks chunks ↔ isChunkVerified chunks i.val = false := by
  simp [missingChunks]

theorem exists_missing {chunks : VerifiedChunks} (incomplete : chunks ≠ verifiedFile) :
    ∃ i : Fin numChunks, isChunkVerified chunks i.val = false := by
  by_contra none
  simp only [not_exists, Bool.not_eq_false] at none
  apply incomplete
  apply BitVec.eq_of_getLsbD_eq
  intro bit inside
  have verified := none ⟨numChunks - 1 - bit, by simp only [numChunks]; omega⟩
  have full := isChunkVerified_verifiedFile ⟨numChunks - 1 - bit, by simp only [numChunks]; omega⟩
  have place : numChunks - 1 - (numChunks - 1 - bit) = bit := by
    simp only [numChunks]
    omega
  rw [isChunkVerified_eq, place] at verified full
  rw [verified, full]

/-- Of the chunks that a round asks for, it brings one at least, with the data that the
definition says. -/
def DownloadRound.Fair (env : Env) (tdef : TfileDef) (size : Nat) (tempPort : BitVec 16)
    (round : DownloadRound) : Prop :=
  ∀ chunks, chunks ≠ verifiedFile →
    ∃ i data, ∃ message ∈ round.answers (requestsOf tdef.fHash tempPort chunks round.found),
      isChunkVerified chunks i.val = false ∧ Carries tdef.fHash size i data message ∧
      env.md5 data = tdef.cHashes i

/-- Whatever the round asks for, it brings so many messages at most. -/
def DownloadRound.AtMost (hash : Digest) (tempPort : BitVec 16) (most : Nat)
    (round : DownloadRound) : Prop :=
  ∀ chunks, (round.answers (requestsOf hash tempPort chunks round.found)).length ≤ most

/-- If each round brings one of the chunks it asks for, the loop ends after at most one round
for each missing chunk. -/
theorem Copy.downloadLoop_returns {limit most : Nat} (copy : Copy store tdef tf content)
    (serviceable : Serviceable env tf.home tdef size limit)
    (creates : Creates env tf.home size content)
    (few : store.os.openFds + rounds.length * (most + 1) ≤ limit)
    (sound : ∀ round ∈ rounds, round.Sound tdef.fHash size tempPort)
    (brings : ∀ round ∈ rounds, round.AtMost tdef.fHash tempPort most)
    (fair : ∀ round ∈ rounds, round.Fair env tdef size tempPort)
    (enough : (missingChunks (report env tf content)).card < rounds.length) :
    ∃ requests after, downloadLoop env tdef.fHash tempPort rounds store = .ok (requests, after) ∧
      requests.length ≤ (missingChunks (report env tf content)).card := by
  induction rounds generalizing store tf content with
  | nil => simp at enough
  | cons round rounds ih =>
      have messages := brings round List.mem_cons_self (report env tf content)
      rw [List.length_cons, Nat.succ_mul] at few
      have recorded : tdef.size < 2 ^ 44 := by
        rw [serviceable.sized]
        exact_mod_cast serviceable.counts
      by_cases complete : report env tf content = verifiedFile
      · obtain ⟨verified, ended⟩ := copy.downloadLoop_complete recorded
          (fun _ => serviceable.reads (by omega)) complete
        exact ⟨[], verified, ended, Nat.zero_le _⟩
      · obtain ⟨middle, midContent, between, midCopy, midHome, step, descriptors, delivered,
          goesOn⟩ := copy.downloadRound serviceable creates (sound round List.mem_cons_self)
            (by omega) complete
        obtain ⟨i, data, message, member, missing, carries, matching⟩ :=
          fair round List.mem_cons_self _ complete
        have brought := delivered message member i data carries matching
        have fewer : missingChunks (report env middle midContent) ⊂
            missingChunks (report env tf content) := by
          refine Finset.ssubset_iff_of_subset ?_ |>.mpr ⟨i, mem_missingChunks.mpr missing, ?_⟩
          · intro j stillMissing
            rw [mem_missingChunks, Bool.eq_false_iff] at stillMissing ⊢
            exact fun reported => stillMissing (step.kept reported)
          · rw [mem_missingChunks, Bool.eq_false_iff]
            exact fun stillMissing => stillMissing brought
        have less := Finset.card_lt_card fewer
        rw [List.length_cons] at enough
        obtain ⟨later, after, returned, bound⟩ := ih midCopy (midHome ▸ serviceable)
          (midHome ▸ step.creates creates) (by omega)
          (fun round member => sound round (List.mem_cons_of_mem _ member))
          (fun round member => brings round (List.mem_cons_of_mem _ member))
          (fun round member => fair round (List.mem_cons_of_mem _ member)) (by omega)
        refine ⟨_, after, by rw [goesOn, returned]; rfl, ?_⟩
        rw [List.length_cons]
        omega

theorem Copy.downloadFile_ended (copy : Copy store tdef tf content) (sized : tdef.size = size)
    (admitted : minSize ≤ size) (counts : size < 2 ^ 44)
    (sound : ∀ round ∈ rounds, round.Sound tdef.fHash size tempPort)
    (ended : ∃ requests after,
      downloadLoop env tdef.fHash tempPort rounds store = .ok (requests, after) ∧
        requests.length ≤ (missingChunks (report env tf content)).card)
    (syncs unmaps : Bool) :
    ∃ result, downloadFile env tdef.fHash (some tempPort) rounds syncs unmaps store =
        .ok result ∧
      result.requests.length ≤ (missingChunks (report env tf content)).card := by
  obtain ⟨requests, after, returned, bound⟩ := ended
  obtain ⟨_, _, _, grown, _⟩ := copy.downloadLoop_ended sized admitted counts sound returned
  obtain ⟨code, saved, index, entry, saves, _, found, _⟩ := grown.copy.save syncs unmaps
  refine ⟨⟨saved, requests, [(asciiBytes "system", downloadedMessage entry.tdef.namePath)]⟩, ?_,
    bound⟩
  simp only [downloadFile, returned, Result.ok_bind, saves, found]

/-- **A download ends.**  The socket is opened, every message is sound, and the file can be
created, maps, and opens with as many descriptors as the messages can leave.  If each round in
which something is asked for brings one of the chunks asked for, with the data that the
definition says, `download_file` returns after at most as many rounds of requests as chunks
were missing. -/
theorem downloadFile_returns {maker : Env} {fuel most : Nat} {origin stored receiver : Store}
    {scratch : TfileDef} {path : Path} {name : Vector UInt8 nameLen} {original : Bytes}
    {syncs unmaps : Bool}
    (generated : generateTfile maker fuel origin scratch path name = .ok (0, tdef, stored))
    (file : origin.os.files path = some original)
    (copy : Copy receiver tdef tf content)
    (opens : ∀ descriptors ≤ receiver.os.openFds + rounds.length * (most + 1),
      env.createOk descriptors tf.home = true)
    (maps : env.mmapOk original.length = true)
    (creates : Creates env tf.home original.length content)
    (sound : ∀ round ∈ rounds, round.Sound tdef.fHash original.length tempPort)
    (brings : ∀ round ∈ rounds, round.AtMost tdef.fHash tempPort most)
    (fair : ∀ round ∈ rounds, round.Fair env tdef original.length tempPort)
    (enough : (missingChunks (report env tf content)).card < rounds.length) :
    ∃ result, downloadFile env tdef.fHash (some tempPort) rounds syncs unmaps receiver =
        .ok result ∧
      result.requests.length ≤ (missingChunks (report env tf content)).card := by
  obtain ⟨admitted, counts, definition⟩ := definitionOf_generated generated file
  have sized : tdef.size = original.length := by rw [definition, definitionOf_size]
  have serviceable : Serviceable env tf.home tdef original.length
      (receiver.os.openFds + rounds.length * (most + 1)) :=
    ⟨⟨opens, maps⟩, sized, Nat.lt_of_lt_of_le (by decide) admitted, counts⟩
  exact copy.downloadFile_ended sized admitted counts sound
    (copy.downloadLoop_returns serviceable creates (Nat.le_refl _) sound brings fair enough)
    syncs unmaps

namespace Locker

variable {meets : Meets} {thread : Locker}

theorem sent_sendAll (message : PeerMessage) (fds : List Fd) :
    (sendAll meets message fds thread).sent = thread.sent ++ fds.map fun fd => (fd, message) := by
  induction fds generalizing thread with
  | nil => simp [sendAll]
  | cons fd fds ih =>
      rw [sendAll, ih]
      simp [send]

/-- The requests of a round are those that the thread sends with `peers.lock` in its hands,
where each list is the one that it finds at the lock. -/
theorem requestChunks_sent (fileHash : Digest) (tempPort : BitVec 16) (chunks : VerifiedChunks)
    {indexes : List (Fin numChunks)} (nodup : indexes.Nodup) (free : thread.held = false) :
    ∃ (after : Locker) (found : Fin numChunks → Peers),
      thread.requestChunks meets fileHash tempPort chunks indexes = .ok after ∧
      after.sent = thread.sent ++ indexes.flatMap fun i =>
        if !isChunkVerified chunks i.val then
          (found i).arr.map fun fd => (fd, .request (.forDownload fileHash i tempPort))
        else [] := by
  induction indexes generalizing thread with
  | nil => exact ⟨thread, fun _ => .init, rfl, by simp⟩
  | cons i indexes ih =>
      obtain ⟨absent, nodup⟩ := List.nodup_cons.mp nodup
      by_cases missing : (!isChunkVerified chunks i.val) = true
      · -- The list for this chunk is the one at the next lock of the thread.
        set locked := sendAll meets (.request (.forDownload fileHash i tempPort))
          (meets.found thread.locks).arr (thread.entered meets) with isLocked
        have isHeld : locked.held = true := by rw [isLocked, held_sendAll, held_entered]
        have asks : thread.requestChunk meets (.forDownload fileHash i tempPort) =
            .ok { locked with held := false } := by
          simp only [requestChunk, lock_of_free free]
          exact unlock_of_held isHeld
        obtain ⟨after, found, ended, sent⟩ := @ih { locked with held := false } nodup rfl
        refine ⟨after, Function.update found i (meets.found thread.locks), ?_, ?_⟩
        · simp only [requestChunks, if_pos missing, asks]
          exact ended
        · have others : ∀ j ∈ indexes, Function.update found i (meets.found thread.locks) j =
              found j :=
            fun j member => Function.update_of_ne (ne_of_mem_of_not_mem member absent) _ _
          rw [sent, List.flatMap_cons, if_pos missing, Function.update_self, ← List.append_assoc]
          congr 1
          · rw [isLocked, sent_sendAll]
            rfl
          · apply List.flatMap_congr
            intro j member
            rw [others j member]
      · obtain ⟨after, found, ended, sent⟩ := ih nodup free
        refine ⟨after, found, ?_, ?_⟩
        · simp only [requestChunks, if_neg missing]
          exact ended
        · rw [sent, List.flatMap_cons, if_neg missing, List.nil_append]

end Locker

/-- A round in which a message for each chunk is handled. -/
def sampleRound : DownloadRound where
  locals := ⟨0, fun _ => 0⟩
  found _ := { Peers.init with arr := [4] }
  answers _ := (List.finRange numChunks).map sampleMessage

theorem sampleRound_sound : sampleRound.Sound heldDef.fHash 256 9000 := by
  intro chunks message member
  obtain ⟨i, _, rfl⟩ := List.mem_map.mp member
  exact ⟨i, _, sampleMessage_carries i⟩

theorem sampleRound_fair : sampleRound.Fair sampleEnv heldDef 256 9000 := by
  intro chunks incomplete
  obtain ⟨i, missing⟩ := exists_missing incomplete
  refine ⟨i, chunkOf sampleContent i, sampleMessage i,
    List.mem_map_of_mem (List.mem_finRange i), missing, sampleMessage_carries i, ?_⟩
  rw [heldDef]
  rfl

theorem sampleRounds_enough (content : Option Bytes) (tf : Tfile) :
    (missingChunks (report sampleEnv tf content)).card <
      (List.replicate 9 sampleRound).length := by
  rw [List.length_replicate]
  exact Nat.lt_succ_of_le (Finset.card_le_univ _)

theorem sampleRounds_sound :
    ∀ round ∈ List.replicate 9 sampleRound,
      round.Sound heldDef.fHash sampleContent.length 9000 := by
  intro round member
  rw [List.eq_of_mem_replicate member, length_sampleContent]
  exact sampleRound_sound

theorem sampleRounds_fair :
    ∀ round ∈ List.replicate 9 sampleRound,
      round.Fair sampleEnv heldDef sampleContent.length 9000 := by
  intro round member
  rw [List.eq_of_mem_replicate member, length_sampleContent]
  exact sampleRound_fair

theorem sampleRounds_atMost :
    ∀ round ∈ List.replicate 9 sampleRound, round.AtMost heldDef.fHash 9000 8 := by
  intro round member chunks
  rw [List.eq_of_mem_replicate member]
  exact Nat.le_of_eq (List.length_map _)

/-- A file with other bytes is downloaded. -/
theorem downloadFile_returns_sample :
    ∃ result, downloadFile sampleEnv heldDef.fHash (some 9000) (List.replicate 9 sampleRound) true
        true (sampleReceiver staleContent) = .ok result ∧
      result.requests.length ≤ 8 := by
  obtain ⟨result, returned, bound⟩ := @downloadFile_returns _ _ _ _ _ _ _ _ 8 _ _ _ _ _ _ _
    true true sampleServer_generated (sampleStore_file sampleContent)
    (sampleReceiver_copy length_staleContent) (fun _ _ => sampleEnv_creates _ heldDef_named) rfl
    (creates_some _ _ _ _) sampleRounds_sound sampleRounds_atMost sampleRounds_fair
    (sampleRounds_enough _ _)
  exact ⟨result, returned, bound.trans (Finset.card_le_univ _)⟩

end Grintorrent
