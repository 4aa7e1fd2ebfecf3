import Grintorrent.File.Opening
import Grintorrent.File.Reads

/-!
# How `open_tfile` fails

`open_tfile` gives the entry a path before it opens the file, and the file its recorded
length before it maps it, and takes back neither when it fails.  A later `verify_tfile`
then reads the file that is left.  Whether it returns what it returned before depends on
the length and the digests of the file.
-/

namespace Grintorrent

open Lib

variable {env : Env} {store after : Store} {hash : Digest} {chunk offset length : Int}
variable {index size : Nat} {tf : Tfile} {tdef : TfileDef} {path : Path} {content : Bytes}

/-- After a failed call the entry is the one from before, and `verify_tfile` returns for
it what it would have returned before. -/
def FailsClean (env : Env) (store after : Store) (hash : Digest) : Prop :=
  lookupTfile after.ht hash = lookupTfile store.ht hash ∧
    ∀ locals, (verifyTfile env after hash locals).map Prod.fst =
      (verifyTfile env store hash locals).map Prod.fst

theorem Htable.setLocations_self {ht : Htable} (lookup : ht.table[index]? = some tf) :
    ht.setLocations index tf.fLocation tf.mLocation = ht := by
  have table := Htable.setLocations_table lookup tf.fLocation tf.mLocation
  obtain ⟨inside, isSlot⟩ := List.getElem?_eq_some_iff.mp lookup
  have same : ht.table.set index tf = ht.table := by
    rw [← isSlot, List.set_getElem_self]
  rw [same] at table
  cases ht
  simp only [Htable.setLocations, Htable.mk.injEq, true_and, and_true] at table ⊢
  exact table

theorem md5HashInto_negative {digest : Digest} (negative : length.tmod blockReadSize < 0)
    (returned : md5HashInto env content offset length hash = .ok digest) : digest = hash := by
  simp only [md5HashInto, md5Hash, blocks_of_negative negative, md5Blocks,
    Result.ok_bind, if_pos negative] at returned
  split at returned
  next => simp at returned
  next =>
      cases returned
      rfl

theorem md5HashInto_nothing (nonpos : length ≤ 0) (whole : length.tmod blockReadSize = 0) :
    md5HashInto env content offset length hash = .ok (env.md5 []) := by
  have digested := (env.digested_init.update []).final
  simp [md5HashInto, md5Hash, blocks_of_nonpos nonpos, md5Blocks, whole, slice, digested]

theorem chunkRanges_nonpos (negative : tdef.size < 0) :
    ∀ range ∈ chunkRanges tdef.size, range.2 ≤ 0 := by
  obtain ⟨n, isSize⟩ : ∃ n : Nat, tdef.size = -(n : Int) := ⟨(-tdef.size).toNat, by omega⟩
  intro range member
  simp only [chunkRanges, isSize, Int.neg_tdiv, ← Int.ofNat_tdiv, List.mem_cons,
    List.mem_map] at member
  rcases member with rfl | ⟨i, _, rfl⟩
  · simp only [numChunks]
    omega
  · simp only [numChunks]
    omega

/-- Chunk loops over a size that `md5_hash` can take but that is negative digest nothing,
eight times. -/
theorem hashChunks_nothing {cHashes : Fin numChunks → Digest} (negative : tdef.size < 0)
    (whole : (numChunks * blockReadSize : Int) ∣ tdef.size) :
    hashChunks (md5HashInto env content) tdef.size cHashes = .ok fun _ => env.md5 [] := by
  have sound := (@chunkRanges_sound_iff content tdef.size).mpr (.inr whole)
  have same : ∀ range ∈ chunkRanges tdef.size, md5HashInto env content range.1 range.2 =
      fun _ => .ok (env.md5 []) := by
    intro range member
    funext hash
    have nonpos := chunkRanges_nonpos negative range member
    have nonneg := digestSound_iff.mp (sound range member)
    have mirrored := Int.tmod_nonneg (blockReadSize : Int) (show 0 ≤ -range.2 by omega)
    rw [Int.neg_tmod] at mirrored
    exact md5HashInto_nothing nonpos (by omega)
  have constant : hashChunks (fun _ _ _ => .ok (env.md5 [])) tdef.size cHashes =
      hashChunks (fun _ _ _ => .ok (env.md5 [])) (0 : Nat) cHashes := rfl
  have digested : hashChunks (fun _ _ _ => .ok (env.md5 [])) (0 : Nat) cHashes =
      .ok fun _ => env.md5 [] := hashChunks_eq fun _ => rfl
  rw [@hashChunks_congr _ _ (fun _ _ _ => .ok (env.md5 [])) same, constant, digested]

/-- A chunk that cannot be digested keeps what the array held. -/
theorem hashChunks_kept {cHashes computed : Fin numChunks → Digest}
    (indigestible : ¬Digestible tdef.size)
    (ended : hashChunks (md5HashInto env content) tdef.size cHashes = .ok computed) :
    ∃ i, computed i = cHashes i := by
  have unsound := mt (@chunkRanges_sound_iff content tdef.size).mp indigestible
  simp only [not_forall, digestSound_iff, Int.not_le] at unsound
  obtain ⟨range, member, negative⟩ := unsound
  simp only [hashChunks, Result.bind_eq_ok] at ended
  obtain ⟨last, isLast, others⟩ := ended
  obtain ⟨assigned, kept⟩ := of_foldlM_update (by decide) others
  simp only [chunkRanges, List.mem_cons, List.mem_map] at member
  rcases member with rfl | ⟨i, inside, rfl⟩
  · refine ⟨7, ?_⟩
    rw [← kept 7 (by decide), Function.update_self]
    exact md5HashInto_negative negative isLast
  · have hashed := md5HashInto_negative negative (assigned i inside)
    have other : i ≠ 7 := by
      rintro rfl
      exact absurd inside (by decide)
    rw [Function.update_of_ne other] at hashed
    exact ⟨i, hashed⟩

/-- No chunk of the file counts as verified, whatever the local arrays held: its blocks
can be counted, all chunks can be digested, and no digest is the recorded one.  The
chunks of a negative size are all empty. -/
def NothingMatches (env : Env) (tdef : TfileDef) (content : Bytes) : Prop :=
  content.length < 2 ^ 44 ∧ env.md5 content ≠ tdef.fHash ∧
    if 0 ≤ tdef.size then
      tdef.size ≤ content.length ∧ ∀ i,
        env.md5 (slice (chunkStart tdef.size.toNat i) (chunkLen tdef.size.toNat i) content) ≠
          tdef.cHashes i
    else (numChunks * blockReadSize : Int) ∣ tdef.size ∧ ∀ i, env.md5 [] ≠ tdef.cHashes i

/-- A report about a file whose blocks can be counted and whose digest is another. -/
theorem readReport_partly (counts : content.length < 2 ^ 44)
    (partly : env.md5 content ≠ tdef.fHash) (locals : VerifyLocals) :
    readReport env tdef content locals = (do
      let cHashes ← hashChunks (md5HashInto env content) tdef.size locals.cHashes
      .ok (compareHashes cHashes tdef.cHashes)) := by
  simp only [readReport, md5HashInto_whole counts, Result.ok_bind, words_injective.eq_iff,
    if_neg partly]

theorem verifiedFile_ne : verifiedFile ≠ unverifiedFile := by decide

/-- The report is that nothing is verified exactly for such files. -/
theorem readReport_nothing_iff :
    (∀ locals, readReport env tdef content locals = .ok unverifiedFile) ↔
      NothingMatches env tdef content := by
  rcases Nat.lt_or_ge content.length (2 ^ 44) with counts | large
  swap
  · refine iff_of_false (fun same => ?_) fun none => absurd none.1 (Nat.not_lt.mpr large)
    have reported := same ⟨0, fun _ => 0⟩
    rw [readReport_overflow large] at reported
    simp at reported
  by_cases whole : env.md5 content = tdef.fHash
  · refine iff_of_false (fun same => ?_) fun none => none.2.1 whole
    have reported := same ⟨0, fun _ => 0⟩
    simp only [readReport, md5HashInto_whole counts, Result.ok_bind, whole, if_true,
      Except.ok.injEq] at reported
    exact verifiedFile_ne reported
  rw [NothingMatches, and_iff_right counts, and_iff_right whole]
  by_cases nonneg : 0 ≤ tdef.size
  · obtain ⟨size, sized⟩ := Int.eq_ofNat_of_zero_le nonneg
    rw [if_pos nonneg, sized, Int.toNat_natCast, Int.ofNat_le]
    simp only [readReport_eq counts sized, if_neg whole, Except.ok.injEq,
      bitmap_eq_unverifiedFile, decide_eq_false_iff_not]
    constructor
    · intro none
      have long : size ≤ content.length := by
        by_contra short
        have missing : ¬ChunkPresent content size 7 := by
          rw [ChunkPresent, chunk_last]
          exact short
        exact none ⟨0, tdef.cHashes⟩ 7 (readDigest_missing missing)
      refine ⟨long, fun i => ?_⟩
      have unmatched := none ⟨0, fun _ => 0⟩ i
      rwa [readDigest_present (chunkPresent_of_long long i)] at unmatched
    · rintro ⟨long, unmatched⟩ locals i
      rw [readDigest_present (chunkPresent_of_long long i)]
      exact unmatched i
  · rw [if_neg nonneg]
    simp only [readReport_partly counts whole]
    constructor
    · intro none
      have fits : Digestible tdef.size := by
        by_contra indigestible
        have reported := none ⟨0, tdef.cHashes⟩
        rw [Result.bind_eq_ok] at reported
        obtain ⟨computed, ended, compared⟩ := reported
        obtain ⟨i, kept⟩ := hashChunks_kept indigestible ended
        rw [compareHashes_eq, Except.ok.injEq, bitmap_eq_unverifiedFile] at compared
        simpa [kept] using compared i
      have whole := fits.resolve_left nonneg
      refine ⟨whole, fun i => ?_⟩
      have reported := none ⟨0, fun _ => 0⟩
      rw [hashChunks_nothing (Int.not_le.mp nonneg) whole, Result.ok_bind, compareHashes_eq,
        Except.ok.injEq, bitmap_eq_unverifiedFile] at reported
      simpa using reported i
    · rintro ⟨whole, unmatched⟩ locals
      rw [hashChunks_nothing (Int.not_le.mp nonneg) whole, Result.ok_bind, compareHashes_eq,
        Except.ok.injEq, bitmap_eq_unverifiedFile]
      simpa using unmatched

/-- The file cut or extended to its recorded length gives the report that it gives as it
is, whatever the local arrays held. -/
def ResizedAlike (env : Env) (tdef : TfileDef) (size : Nat) (content : Bytes) : Prop :=
  if content.length < size then
    2 ^ 44 ≤ content.length ∨
      size < 2 ^ 44 ∧ env.md5 content = tdef.fHash ∧
        ∀ i, Verified env tdef (resize size content) i
  else
    2 ^ 44 ≤ size ∨
      content.length < 2 ^ 44 ∧
        ((env.md5 (resize size content) = tdef.fHash ↔ env.md5 content = tdef.fHash) ∨
          ∀ i, env.md5 (chunkOf (resize size content) i) = tdef.cHashes i)

theorem chunkOf_resize (long : size ≤ content.length) (i : Fin numChunks) :
    chunkOf (resize size content) i =
      slice (chunkStart size i) (chunkLen size i) content := by
  have inside := chunk_inside size i
  have kept : resize size content = content.take size := by
    rw [resize, Nat.sub_eq_zero_of_le long, List.replicate_zero, List.append_nil]
  rw [chunkOf, length_resize, kept, slice_take inside]

theorem readReport_verdict (sized : tdef.size = size) (length : content.length = size)
    (counts : size < 2 ^ 44) (locals : VerifyLocals) :
    readReport env tdef content locals = .ok (verdict env tdef content) := by
  have counted : content.length < 2 ^ 44 := by omega
  have present : ∀ i, readDigest env content size locals.cHashes i =
      env.md5 (chunkOf content i) := by
    intro i
    rw [readDigest_present (chunkPresent_of_long length.ge i), chunkOf, length]
  simp only [readReport_eq counted sized, present, verdict]

/-- Zeros behind the end of a file leave its report as it was exactly in these cases. -/
theorem readReport_extended_iff (sized : tdef.size = size) (short : content.length < size) :
    (∀ locals, readReport env tdef (resize size content) locals =
      readReport env tdef content locals) ↔
      2 ^ 44 ≤ content.length ∨
        size < 2 ^ 44 ∧ env.md5 content = tdef.fHash ∧
          ∀ i, Verified env tdef (resize size content) i := by
  have resized := length_resize size content
  rcases Nat.lt_or_ge content.length (2 ^ 44) with counts | large
  swap
  · simp only [readReport_overflow large,
      fun locals => @readReport_overflow env tdef (resize size content) locals (by omega)]
    exact iff_of_true (fun _ => trivial) (.inl large)
  rw [or_iff_right (Nat.not_le.mpr counts)]
  rcases Nat.lt_or_ge size (2 ^ 44) with small | huge
  swap
  · refine iff_of_false (fun same => ?_) fun alike => absurd alike.1 (Nat.not_lt.mpr huge)
    have reported := same ⟨0, fun _ => 0⟩
    rw [readReport_overflow (by omega), readReport_eq counts sized] at reported
    simp at reported
  rw [and_iff_right small]
  by_cases whole : env.md5 content = tdef.fHash
  · have reported : ∀ locals, readReport env tdef content locals = .ok verifiedFile :=
      fun locals => by rw [readReport_eq counts sized, if_pos whole]
    have every : (∀ i, Verified env tdef (resize size content) i) ↔
        verdict env tdef (resize size content) = verifiedFile := by
      simp only [verdict_eq_verifiedFile, Verified, forall_or_left]
    simp only [readReport_verdict sized resized small, reported, Except.ok.injEq,
      and_iff_right whole, every]
    exact ⟨fun same => same ⟨0, fun _ => 0⟩, fun same _ => same⟩
  · refine iff_of_false (fun same => ?_) fun alike => whole alike.1
    have independent := (@readReport_independent_iff env size tdef content sized).mp
      ⟨verdict env tdef (resize size content), fun locals => by
        rw [← same, readReport_verdict sized resized small]⟩
    rcases independent.2 with long | isWhole
    · omega
    · exact whole isWhole

/-- Cutting off what lies behind the recorded length leaves it exactly in these cases. -/
theorem readReport_cut_iff (sized : tdef.size = size) (long : size ≤ content.length) :
    (∀ locals, readReport env tdef (resize size content) locals =
      readReport env tdef content locals) ↔
      2 ^ 44 ≤ size ∨
        content.length < 2 ^ 44 ∧
          ((env.md5 (resize size content) = tdef.fHash ↔ env.md5 content = tdef.fHash) ∨
            ∀ i, env.md5 (chunkOf (resize size content) i) = tdef.cHashes i) := by
  have resized := length_resize size content
  rcases Nat.lt_or_ge size (2 ^ 44) with small | huge
  swap
  · simp only [readReport_overflow (show 2 ^ 44 ≤ content.length by omega),
      fun locals => @readReport_overflow env tdef (resize size content) locals (by omega)]
    exact iff_of_true (fun _ => trivial) (.inl huge)
  rw [or_iff_right (Nat.not_le.mpr small)]
  rcases Nat.lt_or_ge content.length (2 ^ 44) with counts | large
  swap
  · refine iff_of_false (fun same => ?_) fun alike => absurd alike.1 (Nat.not_lt.mpr large)
    have reported := same ⟨0, fun _ => 0⟩
    rw [readReport_overflow large, readReport_verdict sized resized small] at reported
    simp at reported
  rw [and_iff_right counts]
  have reported : ∀ locals, readReport env tdef content locals =
      .ok (if env.md5 content = tdef.fHash then verifiedFile
        else bitmap fun i =>
          decide (env.md5 (chunkOf (resize size content) i) = tdef.cHashes i)) := by
    intro locals
    have present : ∀ i, readDigest env content size locals.cHashes i =
        env.md5 (chunkOf (resize size content) i) := by
      intro i
      rw [readDigest_present (chunkPresent_of_long long i), chunkOf_resize long]
    simp only [readReport_eq counts sized, present]
  simp only [readReport_verdict sized resized small, reported, Except.ok.injEq]
  have every : (∀ i, env.md5 (chunkOf (resize size content) i) = tdef.cHashes i) ↔
      bitmap (fun i => decide (env.md5 (chunkOf (resize size content) i) =
        tdef.cHashes i)) = verifiedFile := by
    simp only [bitmap_eq_verifiedFile, decide_eq_true_iff]
  rw [every, verdict]
  generalize bitmap _ = chunks
  by_cases whole : env.md5 content = tdef.fHash
  · by_cases still : env.md5 (resize size content) = tdef.fHash
    · simp [whole, still]
    · simp [whole, still]
  · by_cases now : env.md5 (resize size content) = tdef.fHash
    · simp [whole, now, eq_comm]
    · simp [whole, now]

theorem readReport_resized_iff (sized : tdef.size = size) :
    (∀ locals, readReport env tdef (resize size content) locals =
      readReport env tdef content locals) ↔ ResizedAlike env tdef size content := by
  unfold ResizedAlike
  split
  next short => exact readReport_extended_iff sized short
  next long => exact readReport_cut_iff sized (Nat.not_lt.mp long)

/-- The report about the file that a refused mapping leaves, read with one more descriptor
open, is the report about the file that was found. -/
def FailsAlike (env : Env) (os : Os) (tdef : TfileDef) (path : Path) : Prop :=
  match os.files path with
  | none =>
      env.openOk (os.openFds + 1) path = true →
        NothingMatches env tdef (env.sizedTo path tdef.size none)
  | some content =>
      if env.openOk (os.openFds + 1) path = true then
        0 ≤ tdef.size ∧ env.ftruncateOk path tdef.size.toNat = true →
          ResizedAlike env tdef tdef.size.toNat content
      else NothingMatches env tdef content

/-- The two reports of `verify_tfile` about an entry whose mapping is refused. -/
theorem pathReport_alike_iff {os : Os} :
    (∀ locals, pathReport env tdef
        (if env.openOk (os.openFds + 1) path = true then
          some (env.sizedTo path tdef.size (os.files path)) else none) locals =
      pathReport env tdef (os.files path) locals) ↔ FailsAlike env os tdef path := by
  unfold FailsAlike
  cases file : os.files path with
  | none =>
      by_cases opens : env.openOk (os.openFds + 1) path = true
      · rw [if_pos opens, forall_prop_of_true opens]
        exact readReport_nothing_iff
      · rw [if_neg opens]
        exact iff_of_true (fun _ => rfl) fun opened => absurd opened opens
  | some content =>
      simp only
      by_cases opens : env.openOk (os.openFds + 1) path = true
      · rw [if_pos opens, if_pos opens, Env.sizedTo, Option.getD_some]
        by_cases sizes : 0 ≤ tdef.size ∧ env.ftruncateOk path tdef.size.toNat = true
        · have sized : tdef.size = tdef.size.toNat := (Int.toNat_of_nonneg sizes.1).symm
          rw [if_pos sizes, forall_prop_of_true sizes]
          exact readReport_resized_iff sized
        · rw [if_neg sizes]
          exact iff_of_true (fun _ => rfl) fun resizes => absurd resizes sizes
      · rw [if_neg opens, if_neg opens, ← readReport_nothing_iff]
        exact forall_congr' fun _ => eq_comm

/-! ## Failures -/

theorem openTfile_fails_entry_iff (found : lookupTfile store.ht hash = .ok (some (index, tf)))
    (below : chunk < numChunks)
    (failed : openTfile env store hash chunk = .ok (none, after)) :
    FailsClean env store after hash ↔ ∃ path, tf.fLocation = some path ∧
      (env.createOk store.os.openFds path = false ∨ FailsAlike env store.os tf.tdef path) := by
  obtain ⟨notMapped, refused⟩ : tf.mLocation = none ∧ ¬Maps env store tf := by
    by_contra maps
    have mapped : tf.mLocation = none → Maps env store tf := fun notMapped =>
      not_not.mp fun unmapped => maps ⟨notMapped, unmapped⟩
    by_cases fits : ChunkFits tf.tdef.size chunk
    · obtain ⟨result, after', opened, ⟨notMapped, unmapped, _⟩ | ⟨_, _, _, _, _, _, isLocation⟩⟩ :=
        @openTfile_entry env _ _ _ _ _ found below fits
      · exact maps ⟨notMapped, unmapped⟩
      · rw [failed] at opened
        cases opened
        simp at isLocation
    · rw [openTfile_overflow found below fits mapped] at failed
      simp at failed
  rw [openTfile_refused found below notMapped refused] at failed
  have left : (mapTfile env store index tf).2 = after := by
    simpa using failed
  cases located : tf.fLocation with
  | none =>
      simp only [reduceCtorEq, false_and, exists_false, iff_false]
      rintro ⟨sameEntry, _⟩
      rw [← left, (mapTfile_refused notMapped refused).2, lookupTfile_setLocations found,
        found] at sameEntry
      simp only [Except.ok.injEq, Option.some.injEq, Prod.mk.injEq, true_and] at sameEntry
      rw [← sameEntry] at located
      simp at located
  | some path =>
      have home : tf.home = path := by
        simp only [Tfile.home, notMapped, located, Option.getD_some]
      have same : store.ht.setLocations index (some tf.home) none = store.ht := by
        have kept := Htable.setLocations_self (lookupTfile_entry found).1
        rw [located, notMapped] at kept
        rw [home, kept]
      simp only [Option.some.injEq, exists_eq_left']
      cases opens : env.createOk store.os.openFds path with
      | false =>
          rw [mapTfile_unopened notMapped (home ▸ opens), same] at left
          subst left
          simp [FailsClean]
      | true =>
          rw [mapTfile_unmapped notMapped (home ▸ opens)
            (fun maps => refused ⟨home ▸ opens, maps⟩), same, home] at left
          have table : after.ht = store.ht := by rw [← left]
          have descriptors : after.os.openFds = store.os.openFds + 1 := by rw [← left]
          have sized : after.os.files path =
              some (env.sizedTo path tf.tdef.size (store.os.files path)) := by
            rw [← left]
            exact Os.prepare_files
          have later := found
          rw [← table] at later
          simp only [FailsClean, table, true_and, verifyTfile_path found notMapped located,
            verifyTfile_path later notMapped located, env.readable opens, if_true, sized,
            descriptors, pathReport_alike_iff, Bool.true_eq_false, false_or]

/-- **`open_tfile` fails cleanly exactly behind its two checks**, and for an entry that
has a path already if opening the file is refused, or if neither its new length nor the
descriptor left open shows in the report. -/
theorem openTfile_fails_iff
    (failed : openTfile env store hash chunk = .ok (none, after)) :
    FailsClean env store after hash ↔
      numChunks ≤ chunk ∨ lookupTfile store.ht hash = .ok none ∨
        ∃ index tf path, lookupTfile store.ht hash = .ok (some (index, tf)) ∧
          tf.fLocation = some path ∧
          (env.createOk store.os.openFds path = false ∨ FailsAlike env store.os tf.tdef path) := by
  rcases Int.lt_or_le chunk numChunks with below | above
  · have within : ¬(numChunks : Int) ≤ chunk := by omega
    cases found : lookupTfile store.ht hash with
    | error stop =>
        simp only [openTfile, if_neg within, found, Result.error_bind] at failed
        simp at failed
    | ok entry =>
        cases entry with
        | none =>
            rw [openTfile_unknown found] at failed
            cases failed
            exact ⟨fun _ => .inr (.inl rfl), fun _ => ⟨rfl, fun _ => rfl⟩⟩
        | some entry =>
            obtain ⟨index, tf⟩ := entry
            rw [openTfile_fails_entry_iff found below failed]
            constructor
            · rintro ⟨path, located, clean⟩
              exact .inr (.inr ⟨index, tf, path, rfl, located, clean⟩)
            · rintro (above | missing | ⟨place, slot, path, found', located, clean⟩)
              · exact absurd above within
              · simp at missing
              · cases found'
                exact ⟨path, located, clean⟩
  · rw [openTfile_large above] at failed
    cases failed
    exact ⟨fun _ => .inl above, fun _ => ⟨rfl, fun _ => rfl⟩⟩

/-- An environment that refuses every mapping. -/
def unmappingEnv : Env := { sampleEnv with mmapOk := fun _ => false }

/-- The file of an entry with a path, of the recorded length. -/
theorem openTfile_fails_sample :
    ∃ after, openTfile unmappingEnv sampleServer heldDef.fHash 0 = .ok (none, after) ∧
      FailsClean unmappingEnv sampleServer after heldDef.fHash := by
  obtain ⟨index, found⟩ := sampleServer_copy.found
  have failed := @openTfile_refused unmappingEnv _ _ 0 _ _ found (by decide) rfl
    fun maps => Bool.false_ne_true maps.2.2
  refine ⟨_, failed, (openTfile_fails_iff failed).mpr (.inr (.inr ⟨index, _, samplePath,
    found, rfl, .inr ?_⟩))⟩
  have file : sampleServer.os.files samplePath = some sampleContent :=
    sampleStore_file sampleContent
  have opens : unmappingEnv.openOk (sampleServer.os.openFds + 1) samplePath = true :=
    rfl
  simp only [FailsAlike, file, if_pos opens, heldDef_size]
  intro _
  have same : resize 256 sampleContent = sampleContent := resize_of_length length_sampleContent
  rw [ResizedAlike, if_neg (by rw [length_sampleContent]; decide)]
  exact .inr ⟨sampleContent_counts, .inl (by rw [show (256 : Int).toNat = 256 from rfl, same])⟩

/-- A received definition whose file is there: the failed call gives it a path, and its
verification goes from no chunk to all. -/
theorem openTfile_refused_changes :
    ∃ after, openTfile unmappingEnv (sampleReceiver sampleContent) heldDef.fHash 0 =
        .ok (none, after) ∧
      (∀ locals, (verifyTfile unmappingEnv (sampleReceiver sampleContent) heldDef.fHash
        locals).map Prod.fst = .ok unverifiedFile) ∧
      (∀ locals, (verifyTfile unmappingEnv after heldDef.fHash locals).map Prod.fst =
        .ok verifiedFile) ∧
      ¬FailsClean unmappingEnv (sampleReceiver sampleContent) after heldDef.fHash := by
  have copy : Copy (sampleReceiver sampleContent) heldDef ⟨heldDef, none, none⟩
      (some sampleContent) := sampleReceiver_copy length_sampleContent
  obtain ⟨index, found⟩ := copy.found
  have home : (⟨heldDef, none, none⟩ : Tfile).home = samplePath := heldDef_namePath
  have refused : ¬Maps unmappingEnv (sampleReceiver sampleContent) ⟨heldDef, none, none⟩ :=
    fun maps => Bool.false_ne_true maps.2.2
  have failed := @openTfile_refused unmappingEnv _ _ 0 _ _ found (by decide) rfl refused
  have later := @Copy.mapTfile unmappingEnv _ _ _ index _ copy (by rw [heldDef_size]; decide)
    found rfl
  have unverified : ∀ locals, (verifyTfile unmappingEnv (sampleReceiver sampleContent)
      heldDef.fHash locals).map Prod.fst = .ok unverifiedFile := by
    intro locals
    rw [verifyTfile_unlocated found rfl rfl]
    rfl
  have verified : ∀ locals, (verifyTfile unmappingEnv (mapTfile unmappingEnv
      (sampleReceiver sampleContent) index ⟨heldDef, none, none⟩).2 heldDef.fHash
      locals).map Prod.fst = .ok verifiedFile := by
    intro locals
    have whole : report unmappingEnv ⟨heldDef, some samplePath, none⟩ (some sampleContent) =
        verifiedFile := verdict_eq_verifiedFile.mpr (.inl heldDef_digest)
    rw [(mapTfile_refused rfl refused).1, home] at later
    have opens : Opens unmappingEnv (mapTfile unmappingEnv (sampleReceiver sampleContent) index
        ⟨heldDef, none, none⟩).2 ⟨heldDef, some samplePath, none⟩ := fun _ =>
      sampleEnv_opens 0 (show samplePath ≠ [] by decide)
    rcases later.verify (by rw [heldDef_size]; decide) opens with same | same
    · rw [same, whole]
      rfl
    · rw [same, whole]
      rfl
  refine ⟨_, failed, unverified, verified, ?_⟩
  rintro ⟨_, same⟩
  have equal := same default
  rw [unverified, verified] at equal
  exact absurd (Except.ok.inj equal) verifiedFile_ne

end Grintorrent
