import Grintorrent.File.Verify

/-!
# Copies

A client that holds a definition has an entry for its hash, and behind the entry
a file: mapped, on disk, or not yet created.  `Copy` says so in terms of the
content of that file, and each function of `file.c` gets one lemma in these
terms: what `verify_tfile` reports about a copy, and where `open_tfile` points
to after it has mapped one.
-/

namespace Grintorrent

open Lib

theorem lookupTfile_entry {ht : Htable} {hash : Digest} {index : Nat} {tf : Tfile}
    (found : lookupTfile ht hash = .ok (some (index, tf))) :
    ht.table[index]? = some tf ∧ tf.tdef.fHash = hash ∧ hash ≠ 0 := by
  simp only [lookupTfile, Result.bind_eq_ok] at found
  obtain ⟨result, searched, rest⟩ := found
  cases result with
  | none => simp at rest
  | some place =>
      obtain ⟨slot, lookup, held⟩ := key_of_probe (Htable.search_eq_some.mp searched)
      simp only [lookup, Except.ok.injEq, Option.some.injEq, Prod.mk.injEq] at rest
      obtain ⟨rfl, rfl⟩ := rest
      exact ⟨lookup, Tfile.key_eq_some.mp held⟩

theorem lookupTfile_setLocations {ht : Htable} {hash : Digest} {index : Nat} {tf : Tfile}
    (found : lookupTfile ht hash = .ok (some (index, tf)))
    (fLocation : Option Path) (mLocation : Option Mapping) :
    lookupTfile (ht.setLocations index fLocation mLocation) hash =
      .ok (some (index, { tf with fLocation, mLocation })) := by
  simp only [lookupTfile, Htable.search_setLocations] at found ⊢
  cases searched : searchHtable ht hash with
  | error stop => simp [searched] at found
  | ok result =>
      cases result with
      | none => simp [searched] at found
      | some place =>
          cases lookup : ht.table[place]? with
          | none => simp [searched, lookup] at found
          | some slot =>
              simp only [searched, Result.ok_bind, lookup, Except.ok.injEq,
                Option.some.injEq, Prod.mk.injEq] at found
              obtain ⟨rfl, rfl⟩ := found
              simp [Htable.setLocations, List.getElem?_modify, lookup]

/-- The path of an entry's file: the one it maps, or the one that `open_tfile`
opens for it. -/
def Tfile.home (tf : Tfile) : Path :=
  match tf.mLocation with
  | some mapping => mapping.file
  | none => tf.fLocation.getD tf.tdef.namePath

/-- The store holds the definition: `tf` is the entry of its hash, and `content`
is what its file contains, if there is a file.  The file has the recorded
length. -/
structure Copy (store : Store) (tdef : TfileDef) (tf : Tfile) (content : Option Bytes) :
    Prop where
  found : ∃ index, lookupTfile store.ht tdef.fHash = .ok (some (index, tf))
  same : tf.tdef = tdef
  file : store.os.files tf.home = content
  sized : ∀ {bytes}, content = some bytes → tdef.size = bytes.length
  mapped : tf.mLocation ≠ none → content ≠ none

variable {env : Env} {store : Store} {tdef : TfileDef} {tf : Tfile}
variable {content : Option Bytes} {locals : VerifyLocals}

/-- A store has one copy of a definition. -/
theorem Copy.unique {tf' : Tfile} {content' : Option Bytes}
    (left : Copy store tdef tf content) (right : Copy store tdef tf' content') :
    tf = tf' ∧ content = content' := by
  obtain ⟨_, found⟩ := left.found
  obtain ⟨_, found'⟩ := right.found
  rw [found] at found'
  simp only [Except.ok.injEq, Option.some.injEq, Prod.mk.injEq] at found'
  obtain ⟨_, rfl⟩ := found'
  exact ⟨rfl, left.file.symm.trans right.file⟩

theorem Copy.leak (copy : Copy store tdef tf content) : Copy store.leak tdef tf content where
  found := copy.found
  same := copy.same
  file := copy.file
  sized := copy.sized
  mapped := copy.mapped

/-! ## What `verify_tfile` reports -/

/-- The bitmap for a copy.  Without a location of its own the entry is not
verified, even if a file of its name exists. -/
def report (env : Env) (tf : Tfile) (content : Option Bytes) : VerifiedChunks :=
  match content with
  | none => unverifiedFile
  | some bytes =>
      if tf.mLocation = none ∧ tf.fLocation = none then unverifiedFile
      else verdict env tf.tdef bytes

/-- The file of the entry is mapped, or it opens with as many descriptors as are open. -/
def Opens (env : Env) (store : Store) (tf : Tfile) : Prop :=
  tf.mLocation = none → env.openOk store.os.openFds tf.home = true

theorem Copy.backed {bytes : Bytes} (copy : Copy store tdef tf (some bytes))
    (located : ¬(tf.mLocation = none ∧ tf.fLocation = none)) :
    Backed store.os tf tf.home bytes := by
  have file := copy.file
  unfold Tfile.home at file ⊢
  cases isMapped : tf.mLocation with
  | some mapping =>
      rw [isMapped] at file
      exact .mapped isMapped file
  | none =>
      cases isLocated : tf.fLocation with
      | none => exact absurd ⟨isMapped, isLocated⟩ located
      | some path =>
          rw [isMapped, isLocated] at file
          exact .disk isMapped isLocated file

/-- **`verify_tfile` on a copy** returns its report, and leaves the store as it
was but for a descriptor. -/
theorem Copy.verify (copy : Copy store tdef tf content) (counts : tdef.size < 2 ^ 44)
    (opens : Opens env store tf) :
    verifyTfile env store tdef.fHash locals = .ok (report env tf content, store) ∨
    verifyTfile env store tdef.fHash locals = .ok (report env tf content, store.leak) := by
  obtain ⟨index, found⟩ := copy.found
  by_cases located : tf.mLocation = none ∧ tf.fLocation = none
  · left
    rw [verifyTfile_unlocated found located.1 located.2]
    cases content with
    | none => rfl
    | some bytes => simp only [report, if_pos located]
  · cases content with
    | some bytes =>
        have sized := copy.sized rfl
        simp only [report, if_neg located]
        exact verifyTfile_eq found (copy.backed located) (copy.same ▸ sized) (by omega) opens
    | none =>
        left
        have notMapped : tf.mLocation = none := by
          by_contra isMapped
          exact copy.mapped isMapped rfl
        cases isLocated : tf.fLocation with
        | none => exact absurd ⟨notMapped, isLocated⟩ located
        | some path =>
            have missing := copy.file
            simp only [Tfile.home, notMapped, isLocated, Option.getD_some] at missing
            rw [verifyTfile_unopened found notMapped isLocated (by simp [Os.openRdonly, missing])]
            rfl

theorem Copy.of_leak {after : Store} (copy : Copy store tdef tf content)
    (kept : after = store ∨ after = store.leak) : Copy after tdef tf content := by
  rcases kept with rfl | rfl
  · exact copy
  · exact copy.leak

theorem elsewhere_of_leak {after : Store} (kept : after = store ∨ after = store.leak)
    (path : Path) : Os.Elsewhere path store.os after.os := by
  rcases kept with rfl | rfl
  · exact .refl path _
  · exact ⟨rfl, fun _ _ => rfl⟩

theorem openFds_of_leak {after : Store} (kept : after = store ∨ after = store.leak) :
    store.os.openFds ≤ after.os.openFds ∧ after.os.openFds ≤ store.os.openFds + 1 := by
  rcases kept with rfl | rfl
  · exact ⟨Nat.le_refl _, Nat.le_succ _⟩
  · exact ⟨Nat.le_succ _, Nat.le_refl _⟩

theorem Copy.verified (copy : Copy store tdef tf content) (counts : tdef.size < 2 ^ 44)
    (opens : Opens env store tf) (locals : VerifyLocals) :
    ∃ verified, verifyTfile env store tdef.fHash locals =
        .ok (report env tf content, verified) ∧
      Copy verified tdef tf content ∧ (verified = store ∨ verified = store.leak) := by
  cases copy.verify counts opens with
  | inl same => exact ⟨store, same, copy, .inl rfl⟩
  | inr leaked => exact ⟨store.leak, leaked, copy.leak, .inr rfl⟩

theorem Copy.verify_unopened (copy : Copy store tdef tf content)
    (refused : ¬Opens env store tf) :
    verifyTfile env store tdef.fHash locals = .ok (unverifiedFile, store) := by
  obtain ⟨notMapped, unopened⟩ := Classical.not_imp.mp refused
  obtain ⟨index, found⟩ := copy.found
  cases isLocated : tf.fLocation with
  | none => exact verifyTfile_unlocated found notMapped isLocated
  | some path =>
      simp only [Tfile.home, notMapped, isLocated, Option.getD_some] at unopened
      exact verifyTfile_unopened found notMapped isLocated (by simp [Os.openRdonly, unopened])

theorem Copy.verify_returns (copy : Copy store tdef tf content) (counts : tdef.size < 2 ^ 44)
    (locals : VerifyLocals) :
    ∃ chunks after, verifyTfile env store tdef.fHash locals = .ok (chunks, after) := by
  by_cases opens : Opens env store tf
  · obtain ⟨after, verified, _⟩ := copy.verified counts opens locals
    exact ⟨_, after, verified⟩
  · exact ⟨_, _, copy.verify_unopened opens⟩

/-- `verify_tfile` returns for every copy: its report, or that nothing is verified because
its file does not open. -/
theorem Copy.verify_cases {chunks : VerifiedChunks} {after : Store}
    (copy : Copy store tdef tf content) (counts : tdef.size < 2 ^ 44)
    (returned : verifyTfile env store tdef.fHash locals = .ok (chunks, after)) :
    (Opens env store tf ∧ chunks = report env tf content ∧
        (after = store ∨ after = store.leak)) ∨
      (¬Opens env store tf ∧ chunks = unverifiedFile ∧ after = store) := by
  by_cases opens : Opens env store tf
  · left
    cases copy.verify counts opens with
    | inl verified =>
        rw [verified] at returned
        cases returned
        exact ⟨opens, rfl, .inl rfl⟩
    | inr verified =>
        rw [verified] at returned
        cases returned
        exact ⟨opens, rfl, .inr rfl⟩
  · rw [copy.verify_unopened opens] at returned
    cases returned
    exact .inr ⟨opens, rfl, rfl⟩

theorem Copy.report_of_verify {chunks : VerifiedChunks} {after : Store} {chunk : Int}
    (copy : Copy store tdef tf content) (counts : tdef.size < 2 ^ 44)
    (returned : verifyTfile env store tdef.fHash locals = .ok (chunks, after))
    (reported : isChunkVerified chunks chunk = true) :
    chunks = report env tf content ∧ (after = store ∨ after = store.leak) := by
  rcases copy.verify_cases counts returned with ⟨_, isReport, kept⟩ | ⟨_, unverified, _⟩
  · exact ⟨isReport, kept⟩
  · rw [unverified, isChunkVerified_unverifiedFile] at reported
    simp at reported

/-- Whatever `verify_tfile` returns for a copy, a chunk it reports as verified is
one that matches the definition. -/
theorem Copy.verified_of_report {bytes : Bytes} {chunks : VerifiedChunks} {after : Store}
    {i : Fin numChunks} (copy : Copy store tdef tf (some bytes)) (counts : tdef.size < 2 ^ 44)
    (returned : verifyTfile env store tdef.fHash locals = .ok (chunks, after))
    (reported : isChunkVerified chunks i.val = true) :
    Verified env tdef bytes i ∧ (after = store ∨ after = store.leak) := by
  obtain ⟨isReport, kept⟩ := copy.report_of_verify counts returned reported
  refine ⟨?_, kept⟩
  rw [isReport] at reported
  simp only [report] at reported
  split at reported
  · simp [isChunkVerified_unverifiedFile] at reported
  · rw [copy.same] at reported
    exact isChunkVerified_verdict i |>.mp reported

/-! ## Where `open_tfile` points to -/

theorem chunkLocation_eq (size : Nat) (mapping : Mapping) (i : Fin numChunks) :
    chunkLocation mapping size i.val =
      (⟨mapping, size, chunkStart size i⟩, (chunkLen size i : Int)) := by
  have quotient : (size : Int).tdiv numChunks = (size / numChunks : Nat) := by
    rw [← Int.ofNat_tdiv]
  have product : (i.val : Int) * (size / numChunks : Nat) = (chunkStart size i : Nat) := by
    rw [← Nat.cast_mul]
    rfl
  have last : (i.val : Int) = numChunks - 1 ↔ i.val = 7 := by
    simp only [numChunks]
    omega
  simp only [chunkLocation, quotient, product, last, chunkLen]
  split
  · rename_i isLast
    have tiles := Nat.div_add_mod size 8
    simp only [chunkStart, isLast, numChunks, Prod.mk.injEq, true_and]
    omega
  · rfl

theorem chunkFits_index {size : Nat} (small : size < 2 ^ 63) (i : Fin numChunks) :
    ChunkFits size i.val := by
  have quotient : (size : Int).tdiv numChunks = (size / numChunks : Nat) := by
    rw [← Int.ofNat_tdiv]
  have inside := chunk_inside size i
  have product : (i.val : Int) * (size / numChunks : Nat) = (chunkStart size i : Nat) := by
    rw [← Nat.cast_mul]
    rfl
  rw [ChunkFits, quotient, product]
  omega

theorem locateChunk_eq {size : Nat} (small : size < 2 ^ 63) (mapping : Mapping)
    (i : Fin numChunks) :
    locateChunk mapping size i.val =
      .ok (⟨mapping, size, chunkStart size i⟩, (chunkLen size i : Int)) := by
  rw [locateChunk, if_pos (chunkFits_index small i), chunkLocation_eq]

/-- The content of a copy once its file exists: a new one is all zero bytes. -/
def filled (size : Int) (content : Option Bytes) : Bytes :=
  content.getD (List.replicate size.toNat 0)

theorem Copy.length_filled (copy : Copy store tdef tf content) (positive : 0 < tdef.size) :
    tdef.size = (filled tdef.size content).length := by
  cases content with
  | none =>
      simp only [filled, Option.getD_none, List.length_replicate]
      omega
  | some bytes => exact copy.sized rfl

/-- What a file contains once it has been opened for writing and given its recorded
length, if that is not refused. -/
def Env.sizedTo (env : Env) (path : Path) (size : Int) (content : Option Bytes) : Bytes :=
  if 0 ≤ size ∧ env.ftruncateOk path size.toNat = true then
    resize size.toNat (content.getD [])
  else content.getD []

/-- Creating and sizing a file keeps its bytes if it had the recorded length. -/
theorem Copy.sizedTo_eq (copy : Copy store tdef tf content) (positive : 0 < tdef.size)
    {path : Path} (creates : content = none → env.ftruncateOk path tdef.size.toNat = true) :
    env.sizedTo path tdef.size content = filled tdef.size content := by
  cases content with
  | none =>
      rw [Env.sizedTo, if_pos ⟨positive.le, creates rfl⟩]
      simp [resize, filled]
  | some bytes =>
      have sized := copy.sized rfl
      have same : resize tdef.size.toNat bytes = bytes := resize_of_length (by omega)
      simp only [Env.sizedTo, Option.getD_some, filled, same, ite_self]

/-- The files when `open_tfile` calls `mmap`: the one at the path is there, and it has
its recorded length unless that was refused. -/
def Os.prepare (env : Env) (os : Os) (path : Path) (size : Int) : Os :=
  (os.setFile path ((os.files path).getD [])).ftruncate env path size

section Prepare

variable {os : Os} {path : Path} {sizes : Int}

@[simp] theorem Os.prepare_openFds : (os.prepare env path sizes).openFds = os.openFds := by
  unfold Os.prepare Os.ftruncate
  split <;> rfl

@[simp] theorem Os.prepare_nextAddr : (os.prepare env path sizes).nextAddr = os.nextAddr := by
  unfold Os.prepare Os.ftruncate
  split <;> rfl

@[simp] theorem Os.prepare_resolve : (os.prepare env path sizes).resolve = os.resolve := by
  unfold Os.prepare Os.ftruncate
  split <;> rfl

theorem Os.prepare_contents : (os.prepare env path sizes).contents =
    Function.update os.contents (os.resolve path)
      (some (env.sizedTo path sizes (os.files path))) := by
  unfold Os.prepare Os.ftruncate Env.sizedTo
  rw [Os.files_setFile]
  split
  next => exact Function.update_idem _ _ _
  next => rfl

@[simp] theorem Os.prepare_files : (os.prepare env path sizes).files path =
    some (env.sizedTo path sizes (os.files path)) := by
  rw [Os.files, Os.prepare_contents, Os.prepare_resolve, Function.update_self]

theorem Os.prepare_elsewhere : Os.Elsewhere path os (os.prepare env path sizes) where
  resolve := Os.prepare_resolve
  files other different := by
    rw [Os.files, Os.prepare_contents, Os.prepare_resolve, Function.update_of_ne different]
    rfl

end Prepare

theorem mapTfile_opens {index : Nat} (notMapped : tf.mLocation = none) :
    mapTfile env store index tf =
      if env.createOk store.os.openFds tf.home = true then
        if 0 < tf.tdef.size ∧ env.mmapOk tf.tdef.size.toNat = true then
          (some ⟨tf.home, store.os.nextAddr⟩,
            { ht := store.ht.setLocations index (some tf.home)
                (some ⟨tf.home, store.os.nextAddr⟩)
              os :=
                { store.os.prepare env tf.home tf.tdef.size with
                  nextAddr := store.os.nextAddr + 1 } })
        else
          (none,
            { ht := store.ht.setLocations index (some tf.home) none
              os :=
                { store.os.prepare env tf.home tf.tdef.size with
                  openFds := store.os.openFds + 1 } })
      else (none, { store with ht := store.ht.setLocations index (some tf.home) none }) := by
  have home : tf.fLocation.getD tf.tdef.namePath = tf.home := by
    simp only [Tfile.home, notMapped]
  have sized : Os.ftruncate env { store.os.setFile tf.home ((store.os.files tf.home).getD [])
      with openFds := store.os.openFds + 1 } tf.home tf.tdef.size =
      { store.os.prepare env tf.home tf.tdef.size with openFds := store.os.openFds + 1 } := by
    unfold Os.prepare Os.ftruncate
    split <;> rfl
  by_cases opens : env.createOk store.os.openFds tf.home = true
  · rw [if_pos opens]
    simp only [mapTfile, home, Os.openCreate, opens, if_true, sized, Os.mmap,
      Os.prepare_nextAddr]
    split
    next mapped =>
        split at mapped
        next => simp at mapped
        next refused => rw [if_neg refused]
    next mapping os mapped =>
        split at mapped
        next accepted =>
            cases mapped
            rw [if_pos accepted]
            simp only [Os.close, Nat.add_sub_cancel, ← @Os.prepare_openFds env store.os tf.home
              tf.tdef.size]
        next => simp at mapped
  · rw [if_neg opens]
    simp [mapTfile, home, Os.openCreate, opens]

theorem mapTfile_success {index : Nat} (notMapped : tf.mLocation = none)
    (opens : env.createOk store.os.openFds tf.home = true) (positive : 0 < tf.tdef.size)
    (maps : env.mmapOk tf.tdef.size.toNat = true) :
    mapTfile env store index tf =
      (some ⟨tf.home, store.os.nextAddr⟩,
        { ht := store.ht.setLocations index (some tf.home)
            (some ⟨tf.home, store.os.nextAddr⟩)
          os :=
            { store.os.prepare env tf.home tf.tdef.size with
              nextAddr := store.os.nextAddr + 1 } }) := by
  rw [mapTfile_opens notMapped, if_pos opens, if_pos ⟨positive, maps⟩]

theorem mapTfile_failure {index : Nat} (notMapped : tf.mLocation = none)
    (refused : ¬(env.createOk store.os.openFds tf.home = true ∧ 0 < tf.tdef.size ∧
      env.mmapOk tf.tdef.size.toNat = true)) :
    (mapTfile env store index tf).1 = none := by
  rw [mapTfile_opens notMapped]
  by_cases opens : env.createOk store.os.openFds tf.home = true
  · rw [if_pos opens, if_neg fun maps => refused ⟨opens, maps⟩]
  · rw [if_neg opens]

/-- What mapping a copy needs from the system, if it is not mapped yet. -/
def Reachable (env : Env) (store : Store) (tf : Tfile) : Prop :=
  tf.mLocation = none →
    env.createOk store.os.openFds tf.home = true ∧ env.mmapOk tf.tdef.size.toNat = true ∧
      (store.os.files tf.home = none → env.ftruncateOk tf.home tf.tdef.size.toNat = true)

theorem Copy.map {index : Nat} (copy : Copy store tdef tf content)
    (reachable : Reachable env store tf) (positive : 0 < tdef.size)
    (found : lookupTfile store.ht tdef.fHash = .ok (some (index, tf)))
    (notMapped : tf.mLocation = none) :
    ∃ mapping after, mapTfile env store index tf = (some mapping, after) ∧
      mapping.file = tf.home ∧
      Copy after tdef { tf with fLocation := some tf.home, mLocation := some mapping }
        (some (filled tdef.size content)) ∧
      Os.Elsewhere tf.home store.os after.os ∧ after.os.openFds = store.os.openFds := by
  obtain ⟨opens, maps, creates⟩ := reachable notMapped
  have sizes : tf.tdef.size = tdef.size := by rw [copy.same]
  rw [copy.file, sizes] at creates
  refine ⟨_, _, mapTfile_success notMapped opens (sizes ▸ positive) maps, rfl, ?_, ?_, ?_⟩
  · exact
      { found := ⟨index, lookupTfile_setLocations found _ _⟩
        same := copy.same
        file := by
          rw [← copy.sizedTo_eq positive creates, ← copy.file, ← sizes]
          exact Os.prepare_files
        sized := by
          rintro bytes ⟨⟩
          exact copy.length_filled positive
        mapped := by simp }
  · exact ⟨Os.prepare_elsewhere.resolve, Os.prepare_elsewhere.files⟩
  · exact Os.prepare_openFds

/-- Whether or not it can be mapped, a copy whose file is there keeps its bytes. -/
theorem Copy.mapTfile {index : Nat} {bytes : Bytes} (copy : Copy store tdef tf (some bytes))
    (positive : 0 < tdef.size)
    (found : lookupTfile store.ht tdef.fHash = .ok (some (index, tf)))
    (notMapped : tf.mLocation = none) :
    Copy (Grintorrent.mapTfile env store index tf).2 tdef
      { tf with
        fLocation := some tf.home
        mLocation := (Grintorrent.mapTfile env store index tf).1 } (some bytes) := by
  have sizes : tf.tdef.size = tdef.size := by rw [copy.same]
  have kept : (store.os.prepare env tf.home tf.tdef.size).files tf.home = some bytes := by
    rw [Os.prepare_files, sizes, copy.file, copy.sizedTo_eq positive (by simp)]
    rfl
  rw [mapTfile_opens notMapped]
  split
  · split
    · exact ⟨⟨index, lookupTfile_setLocations found _ _⟩, copy.same, kept, copy.sized, by simp⟩
    · exact ⟨⟨index, lookupTfile_setLocations found _ _⟩, copy.same, kept, copy.sized, by simp⟩
  · exact ⟨⟨index, lookupTfile_setLocations found _ _⟩, copy.same, copy.file, copy.sized, by simp⟩

/-- **`open_tfile` on a copy** points to the chunk in a mapping of its file and
returns the length of the chunk; a file that was there keeps its bytes. -/
theorem Copy.open (copy : Copy store tdef tf content)
    (reachable : Reachable env store tf) {size : Nat}
    (sized : tdef.size = size) (positive : 0 < size) (small : size < 2 ^ 63)
    (i : Fin numChunks) :
    ∃ mapping opened after,
      openTfile env store tdef.fHash i.val =
        .ok (some (⟨mapping, size, chunkStart size i⟩, (chunkLen size i : Int)), after) ∧
      opened.mLocation = some mapping ∧ mapping.file = tf.home ∧
      Copy after tdef opened (some (filled size content)) ∧
      Os.Elsewhere tf.home store.os after.os ∧ after.os.openFds = store.os.openFds := by
  obtain ⟨index, found⟩ := copy.found
  have sizes : tf.tdef.size = size := by rw [copy.same, sized]
  have inside : ¬(numChunks : Int) ≤ i.val := by
    have bound := i.isLt
    omega
  cases isMapped : tf.mLocation with
  | some mapping =>
      have home : mapping.file = tf.home := by simp only [Tfile.home, isMapped]
      have present : content = some (filled size content) := by
        cases content with
        | none => exact absurd rfl (copy.mapped (by simp [isMapped]))
        | some bytes => rfl
      refine ⟨mapping, tf, store, ?_, isMapped, home, present ▸ copy, .refl _ _, rfl⟩
      simp only [openTfile, if_neg inside, found, Result.ok_bind, isMapped, sizes,
        locateChunk_eq small]
  | none =>
      obtain ⟨mapping, after, mapped, home, kept, frame, descriptors⟩ :=
        copy.map reachable (by omega) found isMapped
      rw [sized] at kept
      refine ⟨mapping, { tf with fLocation := some tf.home, mLocation := some mapping }, after,
        ?_, rfl, home, kept, frame, descriptors⟩
      simp only [openTfile, if_neg inside, found, Result.ok_bind, isMapped, mapped, sizes,
        locateChunk_eq small]

/-- What `open_tfile` does: it fails on an index or a hash that it does not know or if the
entry cannot be mapped, and otherwise points into the mapping that the entry has, or into
a new one. -/
theorem openTfile_cases {hash : Digest} {chunk : Int} {result : Option (Location × Int)}
    {after : Store} (returned : openTfile env store hash chunk = .ok (result, after)) :
    (result = none ∧ after = store ∧
        (numChunks ≤ chunk ∨ lookupTfile store.ht hash = .ok none)) ∨
      ∃ index tf, lookupTfile store.ht hash = .ok (some (index, tf)) ∧ chunk < numChunks ∧
        ((∃ mapping, tf.mLocation = some mapping ∧ after = store ∧
            ChunkFits tf.tdef.size chunk ∧
            result = some (chunkLocation mapping tf.tdef.size chunk)) ∨
          (tf.mLocation = none ∧ after = (mapTfile env store index tf).2 ∧
            ((mapTfile env store index tf).1 = none ∧ result = none ∨
              ∃ mapping, (mapTfile env store index tf).1 = some mapping ∧
                ChunkFits tf.tdef.size chunk ∧
                result = some (chunkLocation mapping tf.tdef.size chunk)))) := by
  unfold openTfile at returned
  split at returned
  next large =>
      cases returned
      exact .inl ⟨rfl, rfl, .inl large⟩
  next inside =>
      simp only [Result.bind_eq_ok] at returned
      obtain ⟨entry, found, rest⟩ := returned
      cases entry with
      | none =>
          cases rest
          exact .inl ⟨rfl, rfl, .inr found⟩
      | some entry =>
          obtain ⟨index, tf⟩ := entry
          refine .inr ⟨index, tf, found, Int.not_le.mp inside, ?_⟩
          have located : ∀ {mapping location} {opened : Store}, (do
              let location ← locateChunk mapping tf.tdef.size chunk
              .ok (some location, opened) : Result (Option (Location × Int) × Store)) =
                .ok (location, after) →
              after = opened ∧ ChunkFits tf.tdef.size chunk ∧
                location = some (chunkLocation mapping tf.tdef.size chunk) := by
            intro mapping location opened points
            rw [locateChunk] at points
            split at points
            next fits =>
                cases points
                exact ⟨rfl, fits, rfl⟩
            next => simp at points
          cases isMapped : tf.mLocation with
          | some mapping =>
              simp only [isMapped] at rest
              obtain ⟨same, fits, points⟩ := located rest
              exact .inl ⟨mapping, rfl, same, fits, points⟩
          | none =>
              simp only [isMapped] at rest
              cases maps : (mapTfile env store index tf).1 with
              | none =>
                  simp only [maps] at rest
                  cases rest
                  exact .inr ⟨rfl, rfl, .inl ⟨rfl, rfl⟩⟩
              | some mapping =>
                  simp only [maps] at rest
                  obtain ⟨same, fits, points⟩ := located rest
                  exact .inr ⟨rfl, same, .inr ⟨mapping, rfl, fits, points⟩⟩

theorem mapped_of_open {hash : Digest} {chunk : Int} {result : Location × Int} {after : Store}
    {index : Nat} (found : lookupTfile store.ht hash = .ok (some (index, tf)))
    (returned : openTfile env store hash chunk = .ok (some result, after))
    (notMapped : tf.mLocation = none) :
    env.createOk store.os.openFds tf.home = true ∧ 0 < tf.tdef.size ∧
      env.mmapOk tf.tdef.size.toNat = true := by
  by_contra refused
  rcases openTfile_cases returned with ⟨nothing, _⟩ | ⟨_, _, found', _, ⟨_, isMapped, _⟩ |
    ⟨_, _, ⟨_, nothing⟩ | ⟨mapping, maps, _⟩⟩⟩
  · simp at nothing
  · rw [found] at found'
    cases found'
    simp [notMapped] at isMapped
  · simp at nothing
  · rw [found] at found'
    cases found'
    rw [mapTfile_failure notMapped refused] at maps
    simp at maps

theorem Copy.reachable_of_open {bytes : Bytes} {chunk : Int} {result : Location × Int}
    {after : Store} (copy : Copy store tdef tf (some bytes))
    (returned : openTfile env store tdef.fHash chunk = .ok (some result, after)) :
    Reachable env store tf := by
  intro notMapped
  obtain ⟨index, found⟩ := copy.found
  obtain ⟨opens, _, maps⟩ := mapped_of_open found returned notMapped
  refine ⟨opens, maps, fun missing => ?_⟩
  rw [copy.file] at missing
  simp at missing

/-! ## Two clients with one file -/

/-- The definition of `sampleContent`. -/
@[irreducible] def heldDef : TfileDef := definitionOf sampleEnv sampleName sampleContent

theorem heldDef_ne_zero : heldDef.fHash ≠ 0 := by
  rw [heldDef, definitionOf_fHash]
  exact sampleEnv_md5_ne_zero sampleContent

theorem sampleEnv_creates (descriptors : Nat) {path : Path} (named : path ≠ []) :
    sampleEnv.createOk descriptors path = true :=
  decide_eq_true named

theorem sampleEnv_opens (descriptors : Nat) {path : Path} (named : path ≠ []) :
    sampleEnv.openOk descriptors path = true :=
  sampleEnv.readable (sampleEnv_creates descriptors named)

theorem sampleEnv_reachable (store : Store) {tf : Tfile} (named : tf.home ≠ []) :
    Reachable sampleEnv store tf :=
  fun _ => ⟨sampleEnv_creates _ named, rfl, fun _ => rfl⟩

theorem length_sampleContent : sampleContent.length = 256 := by
  rw [sampleContent, List.length_replicate]

/-- Another content of the same length. -/
@[irreducible] def staleContent : Bytes := List.replicate 256 1

theorem length_staleContent : staleContent.length = 256 := by
  rw [staleContent, List.length_replicate]

theorem heldDef_size : heldDef.size = 256 := by
  rw [heldDef, definitionOf_size, length_sampleContent]
  rfl

theorem heldDef_sized : heldDef.size = sampleContent.length := by
  rw [heldDef_size, length_sampleContent]
  rfl

theorem sampleContent_counts : sampleContent.length < 2 ^ 44 := by
  rw [length_sampleContent]
  decide

theorem heldDef_digest : sampleEnv.md5 sampleContent = heldDef.fHash := by
  rw [heldDef]
  rfl

theorem heldDef_namePath : heldDef.namePath = samplePath := by
  simp [TfileDef.namePath, TfileDef.bytes, heldDef, definitionOf, sampleName, samplePath]

theorem heldDef_named : ({ Tfile.zero with tdef := heldDef } : Tfile).home ≠ [] := by
  rw [show ({ Tfile.zero with tdef := heldDef } : Tfile).home = samplePath from heldDef_namePath]
  decide

theorem lookupTfile_first {tdef : TfileDef} (nonzero : tdef.fHash ≠ 0) :
    lookupTfile (initHtable.fill (homeIndex startingCapacity (words tdef.fHash)) tdef)
      tdef.fHash =
        .ok (some (homeIndex startingCapacity (words tdef.fHash),
          { Tfile.zero with tdef })) := by
  have inside := Htable.homeIndex_lt (show 0 < startingCapacity by decide) (words tdef.fHash)
  have empty : initHtable.table[homeIndex startingCapacity (words tdef.fHash)]? =
      some Tfile.zero := by
    simp [initHtable, inside]
  have lookup : (initHtable.fill (homeIndex startingCapacity (words tdef.fHash))
      tdef).table[homeIndex startingCapacity (words tdef.fHash)]? =
        some { Tfile.zero with tdef } := by
    simp [Htable.fill, empty]
  have searched := (Htable.init_wf.fill nonzero (Htable.probe_init tdef.fHash)).search_of_holds
    ⟨lookup, rfl⟩ nonzero
  simp only [lookupTfile, searched, Result.ok_bind, lookup]

/-- A client that received the definition and has a file of that name. -/
def sampleReceiver (content : Bytes) : Store where
  ht := initHtable.fill (homeIndex startingCapacity (words heldDef.fHash)) heldDef
  os := (sampleStore content).os

/-- The client that generated the definition. -/
def sampleServer : Store where
  ht := (sampleReceiver sampleContent).ht.setLocations
    (homeIndex startingCapacity (words heldDef.fHash)) (some samplePath) none
  os := (sampleStore sampleContent).os

theorem sampleReceiver_copy {content : Bytes} (length : content.length = 256) :
    Copy (sampleReceiver content) heldDef { Tfile.zero with tdef := heldDef }
      (some content) where
  found := ⟨_, lookupTfile_first heldDef_ne_zero⟩
  same := rfl
  file := by
    change (sampleStore content).os.files heldDef.namePath = some content
    rw [heldDef_namePath]
    exact sampleStore_file content
  sized := by
    rintro bytes ⟨⟩
    rw [heldDef_size, length]
    rfl
  mapped := by simp [Tfile.zero]

theorem sampleServer_copy :
    Copy sampleServer heldDef
      { tdef := heldDef, fLocation := some samplePath, mLocation := none }
      (some sampleContent) where
  found := ⟨_, lookupTfile_setLocations (lookupTfile_first heldDef_ne_zero) _ _⟩
  same := rfl
  file := sampleStore_file sampleContent
  sized := by
    rintro bytes ⟨⟩
    exact heldDef_sized
  mapped := by simp

end Grintorrent
