import Grintorrent.File.Entries
import Grintorrent.File.Opening
import Grintorrent.Lib.Runs

/-!
# Descriptors

The functions of `file.c` open a file in three places.  `generate_tfile` and `open_tfile`
close it where they succeed and not where they return early; `verify_tfile` never does.
-/

namespace Grintorrent

open Lib Relation

/-- A call of one of the functions that use files. -/
inductive FileCall where
  | generate (scratch : TfileDef) (filePath : Path) (name : Vector UInt8 nameLen)
  | open (hash : Digest) (chunk : Int)
  | save (hash : Digest) (syncs unmaps : Bool)
  | verify (hash : Digest) (locals : VerifyLocals)

namespace FileCall

/-- The state that the call leaves. -/
def run (env : Env) (fuel : Nat) (store : Store) : FileCall → Result Store
  | .generate scratch filePath name => do
      let (_, _, store) ← generateTfile env fuel store scratch filePath name
      .ok store
  | .open hash chunk => do
      let (_, store) ← openTfile env store hash chunk
      .ok store
  | .save hash syncs unmaps => do
      let (_, store) ← saveTfile store hash syncs unmaps
      .ok store
  | .verify hash locals => do
      let (_, store) ← verifyTfile env store hash locals
      .ok store

/-- The call takes no return that leaves a descriptor open: a file that `generate_tfile`
can open is large enough and not shared yet, a file that `open_tfile` can open can be
mapped, and there is none that `verify_tfile` can open. -/
def Balanced (env : Env) (store : Store) : FileCall → Prop
  | .generate _ filePath _ => ∀ content os,
      store.os.openRdonly env filePath = some (content, os) →
      minSize ≤ content.length ∧
        ∀ index, searchHtable store.ht (env.md5 content) ≠ .ok (some index)
  | .open hash chunk => ∀ index tf, lookupTfile store.ht hash = .ok (some (index, tf)) →
      chunk < numChunks → tf.mLocation = none →
      env.createOk store.os.openFds tf.home = true →
      0 < tf.tdef.size ∧ env.mmapOk tf.tdef.size.toNat = true
  | .save _ _ _ => True
  | .verify hash _ => OpensNone env store hash

end FileCall

variable {env : Env} {fuel : Nat} {store after : Store} {hash : Digest} {chunk : Int}
variable {scratch tdef : TfileDef} {path : Path} {name : Vector UInt8 nameLen} {code : Int}
variable {locals : VerifyLocals} {chunks : VerifiedChunks}

/-- A call of `generate_tfile` that returns closes its descriptor exactly if it succeeds. -/
theorem generateTfile_openFds
    (returned : generateTfile env fuel store scratch path name = .ok (code, tdef, after)) :
    after.os.openFds = store.os.openFds ↔
      (FileCall.generate scratch path name).Balanced env store := by
  have opened : ∀ {content os}, store.os.openRdonly env path = some (content, os) →
      ((FileCall.generate scratch path name).Balanced env store ↔
        minSize ≤ content.length ∧
          ∀ index, searchHtable store.ht (env.md5 content) ≠ .ok (some index)) := by
    intro content os read
    constructor
    · intro balanced
      exact balanced content os read
    · intro leaves content' os' read'
      rw [read] at read'
      cases read'
      exact leaves
  cases generateTfile_generates returned with
  | unopened refused => simp [FileCall.Balanced, refused]
  | small read small =>
      rw [opened read]
      simp [Store.leak, Nat.not_le.mpr small]
  | known read admitted searched =>
      rw [opened read]
      simp [Store.leak, searched]
  | stored read admitted counts searched added =>
      rw [opened read]
      simp [admitted, searched]

/-- A call of `open_tfile` does unless its mapping is refused. -/
theorem openTfile_openFds {result : Option (Location × Int)}
    (returned : openTfile env store hash chunk = .ok (result, after)) :
    after.os.openFds = store.os.openFds ↔ (FileCall.open hash chunk).Balanced env store := by
  rcases openTfile_cases returned with ⟨_, rfl, unused⟩ | ⟨index, tf, found, below,
    ⟨mapping, isMapped, rfl, _⟩ | ⟨notMapped, rfl, _⟩⟩
  · refine iff_of_true rfl fun index tf found below => ?_
    rcases unused with large | missing
    · omega
    · simp [found] at missing
  · refine iff_of_true rfl fun place slot found' _ notMapped => ?_
    rw [found] at found'
    cases found'
    simp [notMapped] at isMapped
  · have balanced : (FileCall.open hash chunk).Balanced env store ↔
        (env.createOk store.os.openFds tf.home = true →
          0 < tf.tdef.size ∧ env.mmapOk tf.tdef.size.toNat = true) := by
      constructor
      · intro balanced
        exact balanced index tf found below notMapped
      · intro maps place slot found' _ _
        rw [found] at found'
        cases found'
        exact maps
    rw [balanced]
    cases opens : env.createOk store.os.openFds tf.home with
    | false =>
        rw [mapTfile_unopened notMapped opens]
        simp
    | true =>
        by_cases maps : 0 < tf.tdef.size ∧ env.mmapOk tf.tdef.size.toNat = true
        · rw [mapTfile_success notMapped opens maps.1 maps.2]
          simp [maps]
        · rw [mapTfile_unmapped notMapped opens maps]
          simp [maps]

/-- A call of `verify_tfile` never does, and changes nothing if it opens no file. -/
theorem verifyTfile_openFds
    (returned : verifyTfile env store hash locals = .ok (chunks, after)) :
    (after.os.openFds = store.os.openFds ↔ OpensNone env store hash) ∧
      (OpensNone env store hash → after = store) := by
  rcases verifyTfile_cases returned with ⟨rfl, opensNone⟩ |
    ⟨index, tf, path, content, found, notMapped, located, file, opens, _, rfl⟩
  · exact ⟨iff_of_true rfl opensNone, fun _ => rfl⟩
  · have opensOne : ¬OpensNone env store hash := by
      intro opensNone
      have unopened := opensNone index tf path found notMapped located
      rw [openRdonly_eq_some.mpr ⟨opens, file, rfl⟩] at unopened
      simp at unopened
    refine ⟨iff_of_false ?_ opensOne, fun opensNone => absurd opensNone opensOne⟩
    simp [Store.leak]

/-- **One call** leaves the number of open descriptors exactly if it is balanced. -/
theorem FileCall.run_openFds {call : FileCall} (completes : call.run env fuel store = .ok after) :
    after.os.openFds = store.os.openFds ↔ call.Balanced env store := by
  cases call with
  | generate scratch filePath name =>
      simp only [FileCall.run, Result.bind_eq_ok] at completes
      obtain ⟨⟨code, tdef, store'⟩, returned, same⟩ := completes
      cases same
      exact generateTfile_openFds returned
  | «open» hash chunk =>
      simp only [FileCall.run, Result.bind_eq_ok] at completes
      obtain ⟨⟨result, store'⟩, returned, same⟩ := completes
      cases same
      exact openTfile_openFds returned
  | save hash syncs unmaps =>
      simp only [FileCall.run, Result.bind_eq_ok] at completes
      obtain ⟨⟨code, store'⟩, returned, same⟩ := completes
      cases same
      refine iff_of_true ?_ trivial
      rcases saveTfile_cases returned with rfl | ⟨_, _, _, _, _, _, rfl⟩
      · rfl
      · rfl
  | verify hash locals =>
      simp only [FileCall.run, Result.bind_eq_ok] at completes
      obtain ⟨⟨chunks, store'⟩, returned, same⟩ := completes
      cases same
      exact (verifyTfile_openFds returned).1

/-- One balanced call that completes.  Each call gets its own answers from the system. -/
def BalancedStep (store after : Store) : Prop :=
  ∃ (env : Env) (fuel : Nat) (call : FileCall), call.Balanced env store ∧
    call.run env fuel store = .ok after

/-- **Descriptors in balance.**  After every run of balanced calls as many descriptors are
open as before it, a further call keeps it so exactly if it is balanced as well, and a
`verify_tfile` among these calls changes nothing, so that it can be repeated with the same
result. -/
theorem file_run_balanced {start : Store} (run : ReflTransGen BalancedStep start store) :
    store.os.openFds = start.os.openFds ∧
    (∀ {env : Env} {fuel : Nat} {call : FileCall} {after : Store},
      call.run env fuel store = .ok after →
      (after.os.openFds = start.os.openFds ↔ call.Balanced env store)) ∧
    ∀ {env : Env} {hash : Digest} {locals : VerifyLocals} {chunks : VerifiedChunks}
      {after : Store}, (FileCall.verify hash locals).Balanced env store →
      verifyTfile env store hash locals = .ok (chunks, after) → after = store := by
  have kept : store.os.openFds = start.os.openFds := by
    refine @invariant_run _ _ _ _ (fun state => state.os.openFds = start.os.openFds) ?_ run rfl
    rintro state next same ⟨env, fuel, call, balanced, completes⟩
    rw [(FileCall.run_openFds completes).mpr balanced, same]
  refine ⟨kept, fun completes => ?_, fun balanced returned => ?_⟩
  · rw [← kept]
    exact FileCall.run_openFds completes
  · exact (verifyTfile_openFds returned).2 balanced

/-- Mapping the file of a client. -/
theorem file_run_balanced_open :
    ∃ after, ReflTransGen BalancedStep sampleServer after ∧ after.os.openFds = 0 := by
  obtain ⟨index, found⟩ := sampleServer_copy.found
  have fits : ChunkFits heldDef.size 0 := by
    rw [heldDef_size]
    decide
  obtain ⟨result, after, opened, _⟩ := @openTfile_entry sampleEnv _ _ 0 _ _ found (by decide) fits
  have completes : (FileCall.open heldDef.fHash 0).run sampleEnv 1 sampleServer = .ok after := by
    simp only [FileCall.run, opened, Result.ok_bind]
  have balanced : (FileCall.open heldDef.fHash 0).Balanced sampleEnv sampleServer := by
    intro place tf found' _ _ _
    rw [found] at found'
    cases found'
    rw [heldDef_size]
    exact ⟨by decide, rfl⟩
  have run : ReflTransGen BalancedStep sampleServer after :=
    .tail .refl ⟨sampleEnv, 1, _, balanced, completes⟩
  exact ⟨after, run, (file_run_balanced run).1⟩

/-- A system that allows one descriptor. -/
def limitedEnv : Env :=
  { sampleEnv with
    openOk := fun descriptors path => descriptors < 1 && path ≠ []
    createOk := fun descriptors path => descriptors < 1 && path ≠ []
    readable := id }

theorem sampleServer_verify_limited (locals : VerifyLocals) :
    verifyTfile limitedEnv sampleServer heldDef.fHash locals =
      .ok (verifiedFile, sampleServer.leak) := by
  obtain ⟨index, found⟩ := sampleServer_copy.found
  have whole : verdict limitedEnv heldDef sampleContent = verifiedFile :=
    verdict_eq_verifiedFile.mpr (.inl heldDef_digest)
  have verified := @verifyTfile_disk limitedEnv sampleServer heldDef.fHash index
    ⟨heldDef, some samplePath, none⟩ samplePath sampleContent locals found rfl rfl
    (sampleStore_file sampleContent) rfl heldDef_sized sampleContent_counts
  rwa [whole] at verified

theorem sampleServer_leak_verify_limited (locals : VerifyLocals) :
    verifyTfile limitedEnv sampleServer.leak heldDef.fHash locals =
      .ok (unverifiedFile, sampleServer.leak) := by
  obtain ⟨index, found⟩ := sampleServer_copy.found
  have refused : sampleServer.leak.os.openRdonly limitedEnv samplePath = none := by
    simp [Os.openRdonly, limitedEnv, Store.leak]
  exact @verifyTfile_unopened limitedEnv sampleServer.leak heldDef.fHash index
    ⟨heldDef, some samplePath, none⟩ samplePath locals found rfl rfl refused

/-- The first call of `verify_tfile` reports the whole file, and leaves a descriptor open
so that the second one reports nothing. -/
theorem verifyTfile_repeated_differs :
    ∃ first second,
      verifyTfile limitedEnv sampleServer heldDef.fHash ⟨0, heldDef.cHashes⟩ =
        .ok (verifiedFile, first) ∧
      first.os.files = sampleServer.os.files ∧
      sampleServer.os.openFds = 0 ∧ first.os.openFds = 1 ∧
      verifyTfile limitedEnv first heldDef.fHash ⟨0, heldDef.cHashes⟩ =
        .ok (unverifiedFile, second) :=
  ⟨_, _, sampleServer_verify_limited _, rfl, rfl, rfl, sampleServer_leak_verify_limited _⟩

end Grintorrent
