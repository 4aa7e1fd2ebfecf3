import Grintorrent.File.Copies

/-!
# Verifying a file of any length

The branch of `verify_tfile` over a file on disk is a function of what the file contains
and of what the local arrays held.  `md5_hash` fails on a chunk that the file does not
contain to its end, and the comparison then reads the old content of the array.
-/

namespace Grintorrent

open Lib

variable {env : Env} {store after : Store} {hash : Digest} {index size : Nat} {tf : Tfile}
variable {tdef : TfileDef} {path : Path} {content : Bytes} {locals : VerifyLocals}
variable {chunks : VerifiedChunks}

/-- What the branch of `verify_tfile` over a file on disk reports about its content. -/
def readReport (env : Env) (tdef : TfileDef) (content : Bytes) (locals : VerifyLocals) :
    Result VerifiedChunks := do
  let testHash ← md5HashInto env content 0 content.length locals.testHash
  if words testHash = words tdef.fHash then .ok verifiedFile
  else do
    let cHashes ← hashChunks (md5HashInto env content) tdef.size locals.cHashes
    .ok (compareHashes cHashes tdef.cHashes)

theorem verifyTfile_opened (found : lookupTfile store.ht hash = .ok (some (index, tf)))
    (notMapped : tf.mLocation = none) (located : tf.fLocation = some path)
    (file : store.os.files path = some content)
    (opens : env.openOk store.os.openFds path = true) :
    verifyTfile env store hash locals = (do
      let chunks ← readReport env tf.tdef content locals
      .ok (chunks, store.leak)) := by
  simp only [verifyTfile, found, Result.ok_bind, notMapped, located, openRdonly_eq file opens,
    readReport]
  cases md5HashInto env content 0 content.length locals.testHash with
  | error stop => rfl
  | ok testHash =>
      simp only [Result.ok_bind]
      split
      next => rfl
      next =>
          cases hashChunks (md5HashInto env content) tf.tdef.size locals.cHashes with
          | error stop => rfl
          | ok cHashes => rfl

/-- What the branch of `verify_tfile` over a file on disk reports, if the file can be
opened. -/
def pathReport (env : Env) (tdef : TfileDef) (opened : Option Bytes) (locals : VerifyLocals) :
    Result VerifiedChunks :=
  match opened with
  | none => .ok unverifiedFile
  | some content => readReport env tdef content locals

theorem verifyTfile_path (found : lookupTfile store.ht hash = .ok (some (index, tf)))
    (notMapped : tf.mLocation = none) (located : tf.fLocation = some path) :
    (verifyTfile env store hash locals).map Prod.fst =
      pathReport env tf.tdef
        (if env.openOk store.os.openFds path = true then store.os.files path else none)
        locals := by
  cases read : store.os.openRdonly env path with
  | none =>
      rw [verifyTfile_unopened found notMapped located read]
      split
      next opens =>
          cases file : store.os.files path with
          | none => rfl
          | some content =>
              rw [openRdonly_eq_some.mpr ⟨opens, file, rfl⟩] at read
              simp at read
      next => rfl
  | some opened =>
      obtain ⟨content, os⟩ := opened
      obtain ⟨opens, file, _⟩ := openRdonly_eq_some.mp read
      rw [verifyTfile_opened found notMapped located file opens, if_pos opens, file, pathReport]
      cases readReport env tf.tdef content locals with
      | error stop => rfl
      | ok chunks => rfl

/-- `verify_tfile` opens no file for the hash. -/
def OpensNone (env : Env) (store : Store) (hash : Digest) : Prop :=
  ∀ index tf path, lookupTfile store.ht hash = .ok (some (index, tf)) →
    tf.mLocation = none → tf.fLocation = some path → store.os.openRdonly env path = none

/-- What a call of `verify_tfile` that returns has done: it has opened no file and changed
nothing, or reported about a file on disk. -/
theorem verifyTfile_cases
    (returned : verifyTfile env store hash locals = .ok (chunks, after)) :
    (after = store ∧ OpensNone env store hash) ∨
      ∃ index tf path content, lookupTfile store.ht hash = .ok (some (index, tf)) ∧
        tf.mLocation = none ∧ tf.fLocation = some path ∧
        store.os.files path = some content ∧ env.openOk store.os.openFds path = true ∧
        readReport env tf.tdef content locals = .ok chunks ∧ after = store.leak := by
  cases found : lookupTfile store.ht hash with
  | error stop => simp [verifyTfile, found] at returned
  | ok entry =>
      cases entry with
      | none =>
          rw [verifyTfile_unknown found] at returned
          cases returned
          exact .inl ⟨rfl, fun index tf path found' => by simp [found] at found'⟩
      | some entry =>
          obtain ⟨index, tf⟩ := entry
          have opensNone : (∀ path, tf.mLocation = none → tf.fLocation = some path →
              store.os.openRdonly env path = none) → OpensNone env store hash := by
            intro unopened place slot path found' notMapped located
            rw [found] at found'
            cases found'
            exact unopened path notMapped located
          cases isMapped : tf.mLocation with
          | some mapping =>
              refine .inl ⟨?_, opensNone fun path notMapped => by simp [isMapped] at notMapped⟩
              simp only [verifyTfile, found, Result.ok_bind, isMapped, Result.bind_eq_ok]
                at returned
              obtain ⟨whole, _, rest⟩ := returned
              split at rest
              next =>
                  cases rest
                  rfl
              next =>
                  simp only [Result.bind_eq_ok] at rest
                  obtain ⟨hashes, _, rest⟩ := rest
                  cases rest
                  rfl
          | none =>
              cases located : tf.fLocation with
              | none =>
                  rw [verifyTfile_unlocated found isMapped located] at returned
                  cases returned
                  exact .inl ⟨rfl, opensNone fun path _ isPath => by simp [located] at isPath⟩
              | some path =>
                  cases read : store.os.openRdonly env path with
                  | none =>
                      rw [verifyTfile_unopened found isMapped located read] at returned
                      cases returned
                      refine .inl ⟨rfl, opensNone fun other _ isPath => ?_⟩
                      obtain rfl := Option.some.inj (located.symm.trans isPath)
                      exact read
                  | some opened =>
                      obtain ⟨content, os⟩ := opened
                      obtain ⟨opens, file, _⟩ := openRdonly_eq_some.mp read
                      rw [verifyTfile_opened found isMapped located file opens,
                        Result.bind_eq_ok] at returned
                      obtain ⟨reported, isReport, same⟩ := returned
                      cases same
                      exact .inr ⟨index, tf, path, content, rfl, isMapped, located, file, opens,
                        isReport, rfl⟩

/-- Whatever `verify_tfile` returns, it changes at most the number of open
descriptors. -/
theorem verifyTfile_store (returned : verifyTfile env store hash locals = .ok (chunks, after)) :
    after = store ∨ after = store.leak := by
  rcases verifyTfile_cases returned with
    ⟨same, _⟩ | ⟨_, _, _, _, _, _, _, _, _, _, leaked⟩
  · exact .inl same
  · exact .inr leaked

theorem verifyTfile_files (returned : verifyTfile env store hash locals = .ok (chunks, after)) :
    after.os.files = store.os.files ∧ after.ht = store.ht := by
  rcases verifyTfile_store returned with rfl | rfl
  · exact ⟨rfl, rfl⟩
  · exact ⟨rfl, rfl⟩

/-- The digest that `verify_tfile` compares for a chunk of a file on disk: that of the
bytes of the chunk, and where the file ends before them what the array held. -/
def readDigest (env : Env) (content : Bytes) (size : Nat) (leftover : Fin numChunks → Digest)
    (i : Fin numChunks) : Digest :=
  if chunkStart size i + chunkLen size i ≤ content.length then
    env.md5 (slice (chunkStart size i) (chunkLen size i) content)
  else leftover i

/-- The whole file matches its definition, or the chunk does. -/
def Matches (env : Env) (tdef : TfileDef) (content : Bytes) (size : Nat)
    (leftover : Fin numChunks → Digest) (i : Fin numChunks) : Prop :=
  env.md5 content = tdef.fHash ∨ readDigest env content size leftover i = tdef.cHashes i

theorem chunkStart_of_empty {i : Fin numChunks} (empty : chunkLen size i = 0) :
    chunkStart size i = 0 := by
  have tiles := Nat.div_add_mod size 8
  unfold chunkLen at empty
  split at empty
  next =>
      have small : size / numChunks = 0 := by
        simp only [numChunks] at empty ⊢
        omega
      rw [chunkStart, small, Nat.mul_zero]
  next => rw [chunkStart, empty, Nat.mul_zero]

theorem hashChunks_read {cHashes : Fin numChunks → Digest} (counts : content.length < 2 ^ 44) :
    hashChunks (md5HashInto env content) size cHashes =
      .ok (readDigest env content size cHashes) := by
  apply hashChunks_eq
  intro i
  by_cases inside : chunkStart size i + chunkLen size i ≤ content.length
  · rw [md5HashInto_complete inside (by omega), readDigest, if_pos inside]
  · have positive : 0 < chunkLen size i := by
      apply Nat.pos_of_ne_zero
      intro empty
      rw [empty, chunkStart_of_empty empty] at inside
      exact inside (Nat.zero_le _)
    rw [md5HashInto_short positive (by omega) (by omega), readDigest, if_neg inside]

theorem readReport_eq (counts : content.length < 2 ^ 44) (sized : tdef.size = size) :
    readReport env tdef content locals =
      .ok (if env.md5 content = tdef.fHash then verifiedFile
        else bitmap fun i =>
          decide (readDigest env content size locals.cHashes i = tdef.cHashes i)) := by
  simp only [readReport, md5HashInto_whole counts, Result.ok_bind, words_injective.eq_iff,
    sized, hashChunks_read counts, compareHashes_eq]
  split <;> rfl

theorem readReport_overflow (large : 2 ^ 44 ≤ content.length) :
    readReport env tdef content locals = .error .signedOverflow := by
  have overflow := @md5HashInto_overflow env content 0 content.length locals.testHash
    (by omega) large
  simp only [Nat.cast_zero] at overflow
  simp only [readReport, overflow, Result.error_bind]

theorem verifyTfile_read (found : lookupTfile store.ht hash = .ok (some (index, tf)))
    (notMapped : tf.mLocation = none) (located : tf.fLocation = some path)
    (file : store.os.files path = some content)
    (opens : env.openOk store.os.openFds path = true) (counts : content.length < 2 ^ 44)
    (sized : tf.tdef.size = size) :
    ∃ chunks, verifyTfile env store hash locals = .ok (chunks, store.leak) ∧
      ∀ i : Fin numChunks, isChunkVerified chunks i.val = true ↔
        Matches env tf.tdef content size locals.cHashes i := by
  rw [verifyTfile_opened found notMapped located file opens, readReport_eq counts sized,
    Result.ok_bind]
  refine ⟨_, rfl, fun i => ?_⟩
  split
  next whole => simp [Matches, whole, isChunkVerified_verifiedFile]
  next partly => simp [Matches, partly, isChunkVerified_bitmap]

/-- A file on disk of which `verify_tfile` reports a chunk can be opened, and its blocks
can be counted. -/
theorem verifyTfile_reported {chunks : VerifiedChunks} {verified : Store} {chunk : Int}
    (found : lookupTfile store.ht hash = .ok (some (index, tf)))
    (notMapped : tf.mLocation = none)
    (returned : verifyTfile env store hash locals = .ok (chunks, verified))
    (reported : isChunkVerified chunks chunk = true) :
    ∃ path content, tf.fLocation = some path ∧ store.os.files path = some content ∧
      env.openOk store.os.openFds path = true ∧ content.length < 2 ^ 44 := by
  cases located : tf.fLocation with
  | none =>
      rw [verifyTfile_unlocated found notMapped located] at returned
      cases returned
      simp [isChunkVerified_unverifiedFile] at reported
  | some path =>
      cases read : store.os.openRdonly env path with
      | none =>
          rw [verifyTfile_unopened found notMapped located read] at returned
          cases returned
          simp [isChunkVerified_unverifiedFile] at reported
      | some opened =>
          have opens : env.openOk store.os.openFds path = true := by
            by_contra refused
            simp [Os.openRdonly, refused] at read
          cases file : store.os.files path with
          | none => simp [Os.openRdonly, file] at read
          | some content =>
              refine ⟨path, content, rfl, file, opens, ?_⟩
              by_contra large
              rw [verifyTfile_opened found notMapped located file opens,
                readReport_overflow (Nat.le_of_not_lt large), Result.error_bind] at returned
              simp at returned

/-- The bytes of the chunk are in the file, all of them. -/
def ChunkPresent (content : Bytes) (size : Nat) (i : Fin numChunks) : Prop :=
  chunkStart size i + chunkLen size i ≤ content.length

theorem readDigest_present {leftover : Fin numChunks → Digest} {i : Fin numChunks}
    (present : ChunkPresent content size i) :
    readDigest env content size leftover i =
      env.md5 (slice (chunkStart size i) (chunkLen size i) content) :=
  if_pos present

theorem readDigest_missing {leftover : Fin numChunks → Digest} {i : Fin numChunks}
    (missing : ¬ChunkPresent content size i) :
    readDigest env content size leftover i = leftover i :=
  if_neg missing

/-- `verify_tfile` returns, and reports only chunks that are present and whose digest is
that of the definition. -/
def ReportsPresent (env : Env) (store : Store) (tdef : TfileDef) (content : Bytes) (size : Nat)
    (locals : VerifyLocals) : Prop :=
  ∃ chunks after, verifyTfile env store tdef.fHash locals = .ok (chunks, after) ∧
    ∀ i : Fin numChunks, isChunkVerified chunks i.val = true →
      ChunkPresent content size i ∧
        env.md5 (slice (chunkStart size i) (chunkLen size i) content) = tdef.cHashes i

theorem chunk_last (size : Nat) : chunkStart size 7 + chunkLen size 7 = size := by
  have tiles := Nat.div_add_mod size 8
  simp [chunkStart, chunkLen, numChunks]
  omega

theorem chunkPresent_of_long (long : size ≤ content.length) (i : Fin numChunks) :
    ChunkPresent content size i :=
  (chunk_inside size i).trans long

theorem verifyTfile_overflow (found : lookupTfile store.ht hash = .ok (some (index, tf)))
    (notMapped : tf.mLocation = none) (located : tf.fLocation = some path)
    (file : store.os.files path = some content)
    (opens : env.openOk store.os.openFds path = true) (large : 2 ^ 44 ≤ content.length) :
    verifyTfile env store hash locals = .error .signedOverflow := by
  rw [verifyTfile_opened found notMapped located file opens, readReport_overflow large,
    Result.error_bind]

/-- The report is the same whatever the array holds exactly if no chunk is missing, or none
is looked at. -/
theorem readReport_independent_iff (sized : tdef.size = size) :
    (∃ chunks, ∀ locals, readReport env tdef content locals = .ok chunks) ↔
      content.length < 2 ^ 44 ∧ (size ≤ content.length ∨ env.md5 content = tdef.fHash) := by
  constructor
  · rintro ⟨chunks, same⟩
    have counts : content.length < 2 ^ 44 := by
      by_contra large
      have reported := same ⟨0, fun _ => 0⟩
      rw [readReport_overflow (Nat.le_of_not_lt large)] at reported
      simp at reported
    refine ⟨counts, ?_⟩
    by_contra neither
    obtain ⟨short, partly⟩ := not_or.mp neither
    have missing : ¬ChunkPresent content size 7 := by
      rw [ChunkPresent, chunk_last]
      exact short
    -- Chunk 7 is reported for one content of the array, and not for another.
    have answers : ∀ leftover, isChunkVerified chunks (7 : Fin numChunks).val = true ↔
        leftover = tdef.cHashes 7 := by
      intro leftover
      have reported := same ⟨0, fun _ => leftover⟩
      rw [readReport_eq counts sized, if_neg partly] at reported
      rw [← Except.ok.inj reported, isChunkVerified_bitmap, decide_eq_true_iff,
        readDigest_missing missing]
    have other : ~~~tdef.cHashes 7 = tdef.cHashes 7 :=
      (answers _).mp ((answers (tdef.cHashes 7)).mpr rfl)
    have bit := congrArg (fun digest => digest.getLsbD 0) other
    simp at bit
  · rintro ⟨counts, long | whole⟩
    · have digests : ∀ leftover : Fin numChunks → Digest,
          readDigest env content size leftover =
            fun i => env.md5 (slice (chunkStart size i) (chunkLen size i) content) :=
        fun leftover => funext fun i => readDigest_present (chunkPresent_of_long long i)
      exact ⟨_, fun locals => by rw [readReport_eq counts sized, digests]⟩
    · exact ⟨verifiedFile, fun locals => by rw [readReport_eq counts sized, if_pos whole]⟩

section Missing

variable (found : lookupTfile store.ht tf.tdef.fHash = .ok (some (index, tf)))
  (notMapped : tf.mLocation = none) (located : tf.fLocation = some path)
  (file : store.os.files path = some content)
  (opens : env.openOk store.os.openFds path = true)
  (sized : tf.tdef.size = size) (partly : env.md5 content ≠ tf.tdef.fHash)

include found notMapped located file opens sized partly

theorem reportsPresent_iff (locals : VerifyLocals) :
    ReportsPresent env store tf.tdef content size locals ↔
      content.length < 2 ^ 44 ∧ ∀ i, ¬ChunkPresent content size i →
        locals.cHashes i ≠ tf.tdef.cHashes i := by
  rcases Nat.lt_or_ge content.length (2 ^ 44) with counts | large
  · obtain ⟨chunks, returned, reported⟩ := @verifyTfile_read env store tf.tdef.fHash index size tf
      path content locals found notMapped located file opens counts sized
    constructor
    · rintro ⟨chunks', after, returned', present⟩
      rw [returned] at returned'
      cases returned'
      refine ⟨counts, fun i missing stale => ?_⟩
      have matching : Matches env tf.tdef content size locals.cHashes i := by
        right
        rw [readDigest_missing missing]
        exact stale
      exact missing (present i ((reported i).mpr matching)).1
    · rintro ⟨_, fresh⟩
      refine ⟨chunks, store.leak, returned, fun i isReported => ?_⟩
      rcases (reported i).mp isReported with whole | matching
      · exact absurd whole partly
      · by_cases present : ChunkPresent content size i
        · rw [readDigest_present present] at matching
          exact ⟨present, matching⟩
        · rw [readDigest_missing present] at matching
          exact absurd matching (fresh i present)
  · constructor
    · rintro ⟨chunks, after, returned, _⟩
      rw [verifyTfile_overflow found notMapped located file opens large] at returned
      simp at returned
    · rintro ⟨counts, _⟩
      omega

theorem verifyTfile_independent_iff :
    (∃ result, ∀ locals, verifyTfile env store tf.tdef.fHash locals = .ok result) ↔
      content.length < 2 ^ 44 ∧ size ≤ content.length := by
  have opened := fun locals => @verifyTfile_opened env store tf.tdef.fHash index tf path content
    locals found notMapped located file opens
  have independent := @readReport_independent_iff env size tf.tdef content sized
  rw [or_iff_left partly] at independent
  rw [← independent]
  constructor
  · rintro ⟨⟨chunks, after⟩, same⟩
    refine ⟨chunks, fun locals => ?_⟩
    have returned := same locals
    rw [opened, Result.bind_eq_ok] at returned
    obtain ⟨reported, isReport, same⟩ := returned
    cases same
    exact isReport
  · rintro ⟨chunks, same⟩
    exact ⟨(chunks, store.leak), fun locals => by rw [opened, same, Result.ok_bind]⟩

end Missing

/-- **Missing data is reported exactly when the array held its digest.**  So what
`verify_tfile` returns is independent of the array just for files that are long enough
(and whose blocks can be counted). -/
theorem verifyTfile_missing_iff
    (found : lookupTfile store.ht tf.tdef.fHash = .ok (some (index, tf)))
    (notMapped : tf.mLocation = none) (located : tf.fLocation = some path)
    (file : store.os.files path = some content)
    (opens : env.openOk store.os.openFds path = true)
    (sized : tf.tdef.size = size) (partly : env.md5 content ≠ tf.tdef.fHash) :
    (∀ locals, ReportsPresent env store tf.tdef content size locals ↔
      content.length < 2 ^ 44 ∧ ∀ i, ¬ChunkPresent content size i →
        locals.cHashes i ≠ tf.tdef.cHashes i) ∧
    ((∃ result, ∀ locals, verifyTfile env store tf.tdef.fHash locals = .ok result) ↔
      content.length < 2 ^ 44 ∧ size ≤ content.length) :=
  ⟨reportsPresent_iff found notMapped located file opens sized partly,
    verifyTfile_independent_iff found notMapped located file opens sized partly⟩

/-- The server's table over a file with another content. -/
def cutServer (content : Bytes) : Store where
  ht := sampleServer.ht
  os := (sampleStore content).os

theorem cutServer_found (content : Bytes) :
    ∃ index, lookupTfile (cutServer content).ht heldDef.fHash =
      .ok (some (index, ⟨heldDef, some samplePath, none⟩)) :=
  sampleServer_copy.found

/-- No other content has the digest of `sampleContent`. -/
theorem heldDef_partly {content : Bytes} (other : content ≠ sampleContent) :
    sampleEnv.md5 content ≠ heldDef.fHash := by
  rw [sampleContent] at other
  rw [heldDef, definitionOf_fHash, sampleContent]
  simp only [sampleEnv, sampleMd5, if_neg other, if_true]
  split <;> decide

/-- A file of the recorded length. -/
theorem verifyTfile_missing_stale :
    ReportsPresent sampleEnv (cutServer staleContent) heldDef staleContent 256
      ⟨0, heldDef.cHashes⟩ := by
  obtain ⟨index, found⟩ := cutServer_found staleContent
  have partly : sampleEnv.md5 staleContent ≠ heldDef.fHash := by
    apply heldDef_partly
    rw [staleContent, sampleContent]
    intro same
    have first := congrArg List.head? same
    simp at first
  have file : (cutServer staleContent).os.files samplePath = some staleContent :=
    sampleStore_file staleContent
  have answers := @verifyTfile_missing_iff sampleEnv (cutServer staleContent) index 256
    ⟨heldDef, some samplePath, none⟩ samplePath staleContent found rfl rfl file rfl heldDef_size
    partly
  refine (answers.1 _).mpr ⟨?_, fun i missing => ?_⟩
  · rw [length_staleContent]
    decide
  · exact absurd (chunkPresent_of_long length_staleContent.ge i) missing

/-- The first hundred bytes of `sampleContent`. -/
@[irreducible] def cutContent : Bytes := List.replicate 100 0

theorem length_cutContent : cutContent.length = 100 := by
  rw [cutContent, List.length_replicate]

/-- Chunk 7 is reported although the file ends in chunk 3, if the array holds the digests
of an earlier call. -/
theorem verifyTfile_cut_reported :
    ∃ chunks after, verifyTfile sampleEnv (cutServer cutContent) heldDef.fHash
        ⟨0, heldDef.cHashes⟩ = .ok (chunks, after) ∧
      isChunkVerified chunks 7 = true ∧ ¬ChunkPresent cutContent 256 7 ∧
      sampleEnv.md5 cutContent ≠ heldDef.fHash ∧
      ¬ReportsPresent sampleEnv (cutServer cutContent) heldDef cutContent 256
        ⟨0, heldDef.cHashes⟩ := by
  obtain ⟨index, found⟩ := cutServer_found cutContent
  have file : (cutServer cutContent).os.files samplePath = some cutContent :=
    sampleStore_file cutContent
  have counts : cutContent.length < 2 ^ 44 := by
    rw [length_cutContent]
    decide
  have missing : ¬ChunkPresent cutContent 256 7 := by
    rw [ChunkPresent, chunk_last, length_cutContent]
    decide
  have partly : sampleEnv.md5 cutContent ≠ heldDef.fHash := by
    apply heldDef_partly
    intro same
    have lengths := congrArg List.length same
    rw [length_cutContent, length_sampleContent] at lengths
    simp at lengths
  obtain ⟨chunks, returned, reported⟩ := @verifyTfile_read sampleEnv _ _ _ 256 _ _ _
    ⟨0, heldDef.cHashes⟩ found rfl rfl file rfl counts heldDef_size
  have isReported : isChunkVerified chunks (7 : Fin numChunks).val = true :=
    (reported 7).mpr (.inr (readDigest_missing missing))
  refine ⟨chunks, _, returned, isReported, missing, partly, ?_⟩
  rintro ⟨chunks', after, returned', present⟩
  rw [returned] at returned'
  cases returned'
  exact missing (present 7 isReported).1

end Grintorrent
