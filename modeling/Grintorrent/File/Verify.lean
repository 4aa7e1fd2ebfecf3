import Grintorrent.File.Chunks
import Grintorrent.File.Hashing
import Grintorrent.Htable.Refinement

/-!
# Generating and verifying

`verify_tfile` has two branches, over the mapping and over the file on disk.  On
a file of the size its definition records, both return the same `verdict` of the
content, and `generate_tfile` records the digests that this verdict compares
with.  So for a generated definition the bitmap says exactly which chunks are
those of the original, as long as the digests compared do not collide.

`generate_tfile` itself digests the whole file in one run of `md5_hash`, so it is
bound by the block counter of that function: a file of `2 ^ 44` bytes or more
overflows it.
-/

namespace Grintorrent

open Lib

section Verdict

variable (env : Env) (tdef : TfileDef) (content : Bytes)

/-- A chunk counts as verified when the whole file or the chunk matches. -/
def Verified (i : Fin numChunks) : Prop :=
  env.md5 content = tdef.fHash ∨ env.md5 (chunkOf content i) = tdef.cHashes i

/-- What `verify_tfile` reports about a content of the recorded size. -/
def verdict : VerifiedChunks :=
  if env.md5 content = tdef.fHash then verifiedFile
  else bitmap fun i => decide (env.md5 (chunkOf content i) = tdef.cHashes i)

variable {env tdef content}

theorem isChunkVerified_verdict (i : Fin numChunks) :
    isChunkVerified (verdict env tdef content) i.val = true ↔ Verified env tdef content i := by
  simp only [verdict, Verified]
  split
  · rename_i whole
    simp [whole, isChunkVerified_verifiedFile]
  · rename_i partly
    simp [partly, isChunkVerified_bitmap]

theorem verdict_eq_verifiedFile :
    verdict env tdef content = verifiedFile ↔
      env.md5 content = tdef.fHash ∨
        ∀ i, env.md5 (chunkOf content i) = tdef.cHashes i := by
  simp only [verdict]
  split
  · rename_i whole
    simp [whole]
  · rename_i partly
    simp [partly, bitmap_eq_verifiedFile]

end Verdict

/-- The file behind an entry has this path and content: through its mapping, or
on disk when it has none. -/
inductive Backed (os : Os) (tf : Tfile) : Path → Bytes → Prop where
  | mapped {mapping : Mapping} {content : Bytes} :
      tf.mLocation = some mapping → os.files mapping.file = some content →
      Backed os tf mapping.file content
  | disk {path : Path} {content : Bytes} :
      tf.mLocation = none → tf.fLocation = some path → os.files path = some content →
      Backed os tf path content

/-- The descriptor that `verify_tfile` leaves open is all it changes. -/
def Store.leak (store : Store) : Store :=
  { store with os := { store.os with openFds := store.os.openFds + 1 } }

variable {env : Env} {store : Store} {hash : Digest} {index : Nat} {tf : Tfile}
variable {path : Path} {content : Bytes} {locals : VerifyLocals}

theorem openRdonly_eq {os : Os} (file : os.files path = some content)
    (opens : env.openOk os.openFds path = true) :
    os.openRdonly env path = some (content, { os with openFds := os.openFds + 1 }) := by
  simp [Os.openRdonly, opens, file]

theorem openRdonly_eq_some {os os' : Os} :
    os.openRdonly env path = some (content, os') ↔
      env.openOk os.openFds path = true ∧ os.files path = some content ∧
        os' = { os with openFds := os.openFds + 1 } := by
  unfold Os.openRdonly
  split
  next opens =>
      rw [Option.map_eq_some_iff]
      constructor
      · rintro ⟨bytes, file, same⟩
        cases same
        exact ⟨opens, file, rfl⟩
      · rintro ⟨_, file, rfl⟩
        exact ⟨content, file, rfl⟩
  next refused => simp [refused]

theorem md5HashInto_whole (counts : content.length < 2 ^ 44) :
    md5HashInto env content 0 content.length hash = .ok (env.md5 content) := by
  have hashed := @md5HashInto_complete env content 0 content.length hash (by omega) counts
  rw [slice_zero_length] at hashed
  exact hashed

theorem hashChunks_disk {cHashes : Fin numChunks → Digest}
    (counts : content.length < 2 ^ 44) :
    hashChunks (md5HashInto env content) content.length cHashes =
      .ok fun i => env.md5 (chunkOf content i) := by
  apply hashChunks_eq
  intro i
  have within := chunk_inside content.length i
  rw [md5HashInto_complete within (by omega)]
  rfl

theorem hashChunks_mapped {os : Os} {mapping : Mapping} {size : Nat}
    {cHashes : Fin numChunks → Digest} (file : os.files mapping.file = some content)
    (page : size ≤ env.pageEnd content.length) :
    hashChunks (fun offset size _ => do
      let bytes ← os.readMapped env mapping offset size
      .ok (env.md5 bytes)) size cHashes =
      .ok fun i => env.md5 (chunkOf (os.shown env mapping.file size content) i) := by
  apply hashChunks_eq
  intro i
  rw [Os.readMapped_shown file (chunk_inside size i) page, chunkOf, Os.length_shown page]
  rfl

theorem verifyTfile_shown {mapping : Mapping} {size : Nat}
    (found : lookupTfile store.ht hash = .ok (some (index, tf)))
    (isMapped : tf.mLocation = some mapping)
    (file : store.os.files mapping.file = some content)
    (sized : tf.tdef.size = size) (page : size ≤ env.pageEnd content.length) :
    verifyTfile env store hash locals =
      .ok (verdict env tf.tdef (store.os.shown env mapping.file size content), store) := by
  have whole := @Os.readMapped_shown env store.os content mapping 0 size size file (by omega) page
  have all : slice 0 size (store.os.shown env mapping.file size content) =
      store.os.shown env mapping.file size content := by
    have full := slice_zero_length (store.os.shown env mapping.file size content)
    rwa [Os.length_shown page] at full
  rw [all] at whole
  simp only [Nat.cast_zero] at whole
  simp only [verifyTfile, found, Result.ok_bind, isMapped, sized, whole,
    words_injective.eq_iff, verdict, hashChunks_mapped file page, compareHashes_eq]
  split <;> rfl

theorem verifyTfile_mapped {mapping : Mapping}
    (found : lookupTfile store.ht hash = .ok (some (index, tf)))
    (isMapped : tf.mLocation = some mapping)
    (file : store.os.files mapping.file = some content)
    (sized : tf.tdef.size = content.length) :
    verifyTfile env store hash locals = .ok (verdict env tf.tdef content, store) := by
  rw [verifyTfile_shown found isMapped file sized (env.le_pageEnd _), Os.shown_whole]

/-- A call returns for a mapped entry only if the recorded size ends in the last page of its
file. -/
theorem verifyTfile_mapped_page {mapping : Mapping} {chunks : VerifiedChunks}
    {verified : Store} (returned : verifyTfile env store hash locals = .ok (chunks, verified))
    (found : lookupTfile store.ht hash = .ok (some (index, tf)))
    (isMapped : tf.mLocation = some mapping) :
    ∃ content, store.os.files mapping.file = some content ∧ 0 ≤ tf.tdef.size ∧
      tf.tdef.size ≤ env.pageEnd content.length := by
  simp only [verifyTfile, found, Result.ok_bind, isMapped, Result.bind_eq_ok,
    Os.readMapped] at returned
  obtain ⟨whole, read, _⟩ := returned
  cases file : store.os.files mapping.file with
  | none => simp [file] at read
  | some content =>
      simp only [file] at read
      split at read
      · exact ⟨content, rfl, by omega, by omega⟩
      · simp at read

theorem verifyTfile_disk (found : lookupTfile store.ht hash = .ok (some (index, tf)))
    (notMapped : tf.mLocation = none) (located : tf.fLocation = some path)
    (file : store.os.files path = some content)
    (opens : env.openOk store.os.openFds path = true)
    (sized : tf.tdef.size = content.length) (counts : content.length < 2 ^ 44) :
    verifyTfile env store hash locals = .ok (verdict env tf.tdef content, store.leak) := by
  simp only [verifyTfile, found, Result.ok_bind, notMapped, located, openRdonly_eq file opens,
    sized, md5HashInto_whole counts, words_injective.eq_iff, verdict, hashChunks_disk counts,
    compareHashes_eq]
  split <;> rfl

/-- **`verify_tfile` returns the verdict of the content**, from either branch and
whatever its local arrays hold at the start. -/
theorem verifyTfile_eq (found : lookupTfile store.ht hash = .ok (some (index, tf)))
    (backed : Backed store.os tf path content)
    (sized : tf.tdef.size = content.length) (counts : content.length < 2 ^ 44)
    (opens : tf.mLocation = none → env.openOk store.os.openFds path = true) :
    verifyTfile env store hash locals = .ok (verdict env tf.tdef content, store) ∨
    verifyTfile env store hash locals = .ok (verdict env tf.tdef content, store.leak) := by
  cases backed with
  | mapped isMapped file => exact .inl (verifyTfile_mapped found isMapped file sized)
  | disk notMapped located file =>
      exact .inr (verifyTfile_disk found notMapped located file (opens notMapped) sized counts)

/-- An entry without a mapping or a path is not verified at all. -/
theorem verifyTfile_unlocated (found : lookupTfile store.ht hash = .ok (some (index, tf)))
    (notMapped : tf.mLocation = none) (notLocated : tf.fLocation = none) :
    verifyTfile env store hash locals = .ok (unverifiedFile, store) := by
  simp only [verifyTfile, found, Result.ok_bind, notMapped, notLocated]

theorem verifyTfile_unopened (found : lookupTfile store.ht hash = .ok (some (index, tf)))
    (notMapped : tf.mLocation = none) (located : tf.fLocation = some path)
    (refused : store.os.openRdonly env path = none) :
    verifyTfile env store hash locals = .ok (unverifiedFile, store) := by
  simp only [verifyTfile, found, Result.ok_bind, notMapped, located, refused]

theorem verifyTfile_unknown (missing : lookupTfile store.ht hash = .ok none) :
    verifyTfile env store hash locals = .ok (unverifiedFile, store) := by
  simp only [verifyTfile, missing, Result.ok_bind]

/-! ## Generated definitions -/

/-- The definition of a content: its length and its nine digests. -/
def definitionOf (env : Env) (name : Vector UInt8 nameLen) (content : Bytes) : TfileDef where
  name
  fHash := env.md5 content
  cHashes i := env.md5 (chunkOf content i)
  size := content.length

@[simp] theorem definitionOf_fHash (env : Env) (name : Vector UInt8 nameLen) (content : Bytes) :
    (definitionOf env name content).fHash = env.md5 content := rfl

@[simp] theorem definitionOf_size (env : Env) (name : Vector UInt8 nameLen) (content : Bytes) :
    (definitionOf env name content).size = content.length := rfl

variable {fuel : Nat} {scratch tdef : TfileDef} {name : Vector UInt8 nameLen}

/-- What `generate_tfile` does with a readable file of at least 256 bytes while
the counter of `md5_hash` suffices: the definition it adds is that of the
content. -/
theorem generateTfile_eq (file : store.os.files path = some content)
    (opens : env.openOk store.os.openFds path = true) (admitted : 256 ≤ content.length)
    (counts : content.length < 2 ^ 44) :
    generateTfile env fuel store scratch path name = (do
      let found ← searchHtable store.ht (env.md5 content)
      if found.isSome then
        .ok (-1, { scratch with fHash := env.md5 content }, store.leak)
      else do
        let (ht, place) ← addHtable env.callocOk fuel store.ht
          (definitionOf env name content)
        match place with
        | none => .error .nullPointer
        | some index =>
            .ok (0, definitionOf env name content,
              ⟨ht.setLocations index (some path) none, store.os⟩)) := by
  have large : ¬((content.length : Int) < minSize) := by
    simp only [minSize]
    omega
  simp only [generateTfile, openRdonly_eq file opens, large, if_false,
    md5HashInto_whole counts, Result.ok_bind, hashChunks_disk counts]
  rfl

theorem generateTfile_overflow (file : store.os.files path = some content)
    (opens : env.openOk store.os.openFds path = true) (large : 2 ^ 44 ≤ content.length) :
    generateTfile env fuel store scratch path name = .error .signedOverflow := by
  have admitted : ¬((content.length : Int) < minSize) := by
    simp only [minSize]
    omega
  have overflow := @md5HashInto_overflow env content 0 content.length scratch.fHash
    (by omega) large
  simp only [Nat.cast_zero] at overflow
  simp only [generateTfile, openRdonly_eq file opens, admitted, if_false, overflow,
    Result.error_bind]

/-- What `generate_tfile` does: the return code, the caller's record and the state it
leaves.  It leaves the descriptor open unless it succeeds. -/
inductive Generates (env : Env) (fuel : Nat) (store : Store) (scratch : TfileDef)
    (path : Path) (name : Vector UInt8 nameLen) : Int → TfileDef → Store → Prop where
  | unopened : store.os.openRdonly env path = none →
      Generates env fuel store scratch path name (-1) scratch store
  | small {content : Bytes} : store.os.openRdonly env path = some (content, store.leak.os) →
      content.length < minSize →
      Generates env fuel store scratch path name (-1) scratch store.leak
  | known {content : Bytes} {index : Nat} :
      store.os.openRdonly env path = some (content, store.leak.os) →
      minSize ≤ content.length →
      searchHtable store.ht (env.md5 content) = .ok (some index) →
      Generates env fuel store scratch path name (-1) { scratch with fHash := env.md5 content }
        store.leak
  | stored {content : Bytes} {ht : Htable} {index : Nat} :
      store.os.openRdonly env path = some (content, store.leak.os) →
      minSize ≤ content.length → content.length < 2 ^ 44 →
      searchHtable store.ht (env.md5 content) = .ok none →
      addHtable env.callocOk fuel store.ht (definitionOf env name content) =
        .ok (ht, some index) →
      Generates env fuel store scratch path name 0 (definitionOf env name content)
        ⟨ht.setLocations index (some path) none, store.os⟩

/-- A call of `generate_tfile` that returns does one of these. -/
theorem generateTfile_generates {code : Int} {after : Store}
    (returned : generateTfile env fuel store scratch path name = .ok (code, tdef, after)) :
    Generates env fuel store scratch path name code tdef after := by
  cases read : store.os.openRdonly env path with
  | none =>
      simp only [generateTfile, read] at returned
      cases returned
      exact .unopened read
  | some opened =>
      obtain ⟨content, os⟩ := opened
      obtain ⟨opens, file, rfl⟩ := openRdonly_eq_some.mp read
      rcases Nat.lt_or_ge content.length minSize with small | admitted
      · simp only [generateTfile, read, Int.ofNat_lt.mpr small, if_true] at returned
        cases returned
        exact .small read small
      have counts : content.length < 2 ^ 44 := by
        by_contra large
        rw [generateTfile_overflow file opens (Nat.le_of_not_lt large)] at returned
        simp at returned
      rw [generateTfile_eq file opens admitted counts, Result.bind_eq_ok] at returned
      obtain ⟨found, searched, rest⟩ := returned
      cases found with
      | some index =>
          cases rest
          exact .known read admitted searched
      | none =>
          simp only [Option.isSome_none, Bool.false_eq_true, if_false,
            Result.bind_eq_ok] at rest
          obtain ⟨⟨ht, place⟩, added, rest⟩ := rest
          cases place with
          | none => simp at rest
          | some index =>
              cases rest
              exact .stored read admitted counts searched added

/-- A definition that `generate_tfile` stored is that of the file's content, which
is admitted and within the reach of the block counter. -/
theorem generateTfile_definition {after : Store}
    (generated : generateTfile env fuel store scratch path name = .ok (0, tdef, after)) :
    ∃ content, store.os.files path = some content ∧ 256 ≤ content.length ∧
      content.length < 2 ^ 44 ∧ tdef = definitionOf env name content := by
  cases generateTfile_generates generated with
  | stored read admitted counts =>
      exact ⟨_, (openRdonly_eq_some.mp read).2.1, admitted, counts, rfl⟩

/-- No two different strings among those that a verification compares have the
same digest. -/
structure Distinguished (env : Env) (left right : Bytes) : Prop where
  whole : env.md5 left = env.md5 right → left = right
  chunk : ∀ i, env.md5 (chunkOf left i) = env.md5 (chunkOf right i) →
    chunkOf left i = chunkOf right i

theorem verified_iff {original : Bytes} (distinct : Distinguished env content original)
    (i : Fin numChunks) :
    Verified env (definitionOf env name original) content i ↔
      chunkOf content i = chunkOf original i := by
  constructor
  · intro verified
    cases verified with
    | inl whole => rw [distinct.whole whole]
    | inr matching => exact distinct.chunk i matching
  · intro same
    right
    rw [same]
    rfl

theorem verdict_eq_verifiedFile_iff {original : Bytes}
    (distinct : Distinguished env content original)
    (sameLength : content.length = original.length) :
    verdict env (definitionOf env name original) content = verifiedFile ↔
      content = original := by
  rw [verdict_eq_verifiedFile]
  constructor
  · intro verified
    cases verified with
    | inl whole => exact distinct.whole whole
    | inr matching =>
        apply eq_of_chunks sameLength
        intro i
        exact distinct.chunk i (matching i)
  · intro same
    left
    rw [same]
    rfl

/-- `generate_tfile` stores a definition of the content, and whatever the state
and the content of the file become, `verify_tfile` singles out the chunks that
are those of the original. -/
def GeneratesAndVerifies (env : Env) (fuel : Nat) (store : Store) (scratch : TfileDef)
    (path : Path) (name : Vector UInt8 nameLen) (original : Bytes) : Prop :=
  ∃ tdef after, generateTfile env fuel store scratch path name = .ok (0, tdef, after) ∧
    ∀ (later : Store) (index : Nat) (tf : Tfile) (place : Path) (content : Bytes)
      (locals : VerifyLocals),
      lookupTfile later.ht tdef.fHash = .ok (some (index, tf)) → tf.tdef = tdef →
      Backed later.os tf place content → content.length = original.length →
      (tf.mLocation = none → env.openOk later.os.openFds place = true) →
      Distinguished env content original →
      ∃ chunks left, verifyTfile env later tdef.fHash locals = .ok (chunks, left) ∧
        (∀ i : Fin numChunks, isChunkVerified chunks i.val = true ↔
          chunkOf content i = chunkOf original i) ∧
        (chunks = verifiedFile ↔ content = original)

/-- **Verification is sound and complete exactly for the files whose blocks the
counter of `md5_hash` can count.** -/
theorem generate_verify_iff {original : Bytes} {ht : Htable} {place : Nat}
    (file : store.os.files path = some original) (admitted : 256 ≤ original.length)
    (opens : env.openOk store.os.openFds path = true)
    (fresh : searchHtable store.ht (env.md5 original) = .ok none)
    (added : addHtable env.callocOk fuel store.ht (definitionOf env name original) =
      .ok (ht, some place)) :
    GeneratesAndVerifies env fuel store scratch path name original ↔
      original.length < 2 ^ 44 := by
  constructor
  · rintro ⟨tdef, after, generated, _⟩
    by_contra large
    rw [generateTfile_overflow file opens (by omega)] at generated
    simp at generated
  · intro counts
    refine ⟨definitionOf env name original,
      ⟨ht.setLocations place (some path) none, store.os⟩, ?_, ?_⟩
    · rw [generateTfile_eq file opens admitted counts, fresh]
      simp only [Result.ok_bind, Option.isSome_none, Bool.false_eq_true, if_false, added]
    · intro later index tf current content locals found same backed sameLength opens distinct
      have sized : tf.tdef.size = content.length := by
        rw [same, sameLength]
        rfl
      have judged : ∀ i : Fin numChunks,
          isChunkVerified (verdict env tf.tdef content) i.val = true ↔
            chunkOf content i = chunkOf original i := by
        intro i
        rw [isChunkVerified_verdict, same]
        exact verified_iff distinct i
      have complete : verdict env tf.tdef content = verifiedFile ↔ content = original := by
        rw [same]
        exact verdict_eq_verifiedFile_iff distinct sameLength
      cases verifyTfile_eq found backed sized (by omega) opens with
      | inl verified => exact ⟨_, _, verified, judged, complete⟩
      | inr verified => exact ⟨_, _, verified, judged, complete⟩

/-! ## A client with one file -/

/-- A digest that is MD5 on the contents of `sampleContent` and its chunks. -/
def sampleMd5 (bytes : Bytes) : Digest :=
  if bytes = List.replicate 256 0 then 0x2f26b5b50838ec9697b841dc91978a34
  else if bytes = List.replicate 32 0 then 0x51ce1d44e8f88b462169a8724b8fbc70
  else 1

/-- An environment that refuses nothing but the empty path. -/
def sampleEnv : Env where
  Ctx := Bytes
  md5Init := []
  md5Update c bytes := c ++ bytes
  md5Final c := sampleMd5 c
  md5 := sampleMd5
  md5_blocks blocks := by
    rw [List.foldl_append_eq_append, List.nil_append, List.map_id']
  openOk _ path := path ≠ []
  createOk _ path := path ≠ []
  readable := id
  ftruncateOk _ _ := true
  mmapOk _ := true
  pageSize := 4096
  pageSize_pos := by decide
  callocOk _ := true
  mallocOk _ := true

theorem sampleEnv_md5_ne_zero (bytes : Bytes) : sampleEnv.md5 bytes ≠ 0 := by
  simp only [sampleEnv, sampleMd5]
  split
  · decide
  · split <;> decide

def samplePath : Path := [102]

@[irreducible] def sampleContent : Bytes := List.replicate 256 0

/-- Paths in one directory: a `./` in front makes no difference. -/
def sampleResolve (path : Path) : Path :=
  if path.take 2 = [46, 47] then path.drop 2 else path

/-- The files of a client that has none. -/
def emptyOs : Os where
  resolve := sampleResolve
  contents _ := none
  behind _ _ := 0
  openFds := 0
  nextAddr := 0

/-- A client with an empty table and one file. -/
def sampleStore (content : Bytes) : Store where
  ht := initHtable
  os := { emptyOs with contents := fun file => if file = samplePath then some content else none }

theorem sampleStore_file (content : Bytes) :
    (sampleStore content).os.files samplePath = some content := by
  rfl

theorem generate_verify_iff_zeros :
    GeneratesAndVerifies sampleEnv 1 (sampleStore sampleContent) .zero samplePath sampleName
      sampleContent := by
  have small : sampleContent.length < 2 ^ 44 := by
    rw [sampleContent, List.length_replicate]
    omega
  have admitted : 256 ≤ sampleContent.length := by
    rw [sampleContent, List.length_replicate]
  exact (generate_verify_iff (sampleStore_file sampleContent) admitted (by decide)
    (Htable.search_init _) (addHtable_init _ 0 _)).mpr small

/-- A file of sixteen tebibytes. -/
def hugeContent : Bytes := List.replicate (2 ^ 44) 0

theorem generate_verify_huge_fails :
    (sampleStore hugeContent).os.files samplePath = some hugeContent ∧
      256 ≤ hugeContent.length ∧
      sampleEnv.md5 hugeContent ≠ 0 ∧
      ¬GeneratesAndVerifies sampleEnv 1 (sampleStore hugeContent) .zero samplePath sampleName
        hugeContent := by
  have large : hugeContent.length = 2 ^ 44 := List.length_replicate
  refine ⟨sampleStore_file hugeContent, ?_, ?_, ?_⟩
  · omega
  · exact sampleEnv_md5_ne_zero hugeContent
  · rintro ⟨tdef, after, generated, _⟩
    rw [generateTfile_overflow (sampleStore_file hugeContent) rfl large.ge] at generated
    simp at generated

end Grintorrent
