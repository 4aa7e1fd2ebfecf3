import Grintorrent.File.OnDisk

/-!
# What `open_tfile` promises

`open_tfile` checks that the chunk index is not too large, but not that it is not
negative, so the range that it designates lies inside the mapping for the indexes
`0..7` only.
-/

namespace Grintorrent

open Lib

variable {env : Env} {store after : Store} {hash : Digest} {chunk : Int}
variable {index size : Nat} {tf : Tfile} {path : Path} {content : Bytes}

theorem resize_eq_iff : resize size content = content ↔ content.length = size := by
  constructor
  · intro same
    rw [← same, length_resize]
  · exact resize_of_length

/-- What `open_tfile` does to the files: a file that it can open for writing gets the
recorded length unless that is refused, whether or not it is mapped then. -/
theorem mapTfile_files (notMapped : tf.mLocation = none) :
    (mapTfile env store index tf).2.os.files =
      if env.createOk store.os.openFds tf.home = true then
        (store.os.prepare env tf.home tf.tdef.size).files
      else store.os.files := by
  rw [mapTfile_opens notMapped]
  split
  · split <;> rfl
  · rfl

/-- That changes no file exactly if the length was right or is not changed. -/
theorem prepare_files_eq_iff {os : Os} {sizes : Int} (file : os.files path = some content) :
    (os.prepare env path sizes).files = os.files ↔
      env.sizedTo path sizes (some content) = content := by
  constructor
  · intro same
    have atPath := congrFun same path
    rwa [Os.prepare_files, file, Option.some.injEq] at atPath
  · intro same
    funext other
    by_cases here : os.resolve other = os.resolve path
    · have there : (os.prepare env path sizes).files other =
          (os.prepare env path sizes).files path :=
        Os.files_eq_of_resolve (by rwa [Os.prepare_resolve])
      rw [there, Os.files_eq_of_resolve here, Os.prepare_files, file, same]
    · exact Os.prepare_elsewhere.files other here

theorem mapTfile_unopened (notMapped : tf.mLocation = none)
    (refused : env.createOk store.os.openFds tf.home = false) :
    mapTfile env store index tf =
      (none, { store with ht := store.ht.setLocations index (some tf.home) none }) := by
  rw [mapTfile_opens notMapped, refused]
  rfl

theorem mapTfile_unmapped (notMapped : tf.mLocation = none)
    (opens : env.createOk store.os.openFds tf.home = true)
    (refused : ¬(0 < tf.tdef.size ∧ env.mmapOk tf.tdef.size.toNat = true)) :
    mapTfile env store index tf =
      (none,
        { ht := store.ht.setLocations index (some tf.home) none
          os :=
            { store.os.prepare env tf.home tf.tdef.size with
              openFds := store.os.openFds + 1 } }) := by
  rw [mapTfile_opens notMapped, if_pos opens, if_neg refused]

theorem openTfile_unmapped (below : chunk < numChunks)
    (found : lookupTfile store.ht hash = .ok (some (index, tf)))
    (notMapped : tf.mLocation = none) :
    openTfile env store hash chunk =
      (match (mapTfile env store index tf).1 with
      | none => .ok (none, (mapTfile env store index tf).2)
      | some mapping => do
          let location ← locateChunk mapping tf.tdef.size chunk
          .ok (some location, (mapTfile env store index tf).2)) := by
  cases mapped : (mapTfile env store index tf).1 <;>
    simp only [openTfile, if_neg (Int.not_le.mpr below), found, Result.ok_bind, notMapped,
      mapped]

/-- The system lets `open_tfile` map an entry without a mapping. -/
def Maps (env : Env) (store : Store) (tf : Tfile) : Prop :=
  env.createOk store.os.openFds tf.home = true ∧ 0 < tf.tdef.size ∧
    env.mmapOk tf.tdef.size.toNat = true

/-- An entry that could not be mapped has a path afterwards. -/
theorem mapTfile_refused (notMapped : tf.mLocation = none) (refused : ¬Maps env store tf) :
    (mapTfile env store index tf).1 = none ∧
      (mapTfile env store index tf).2.ht = store.ht.setLocations index (some tf.home) none := by
  cases opens : env.createOk store.os.openFds tf.home with
  | false => simp only [mapTfile_unopened notMapped opens, and_self]
  | true =>
      simp only [mapTfile_unmapped notMapped opens fun maps => refused ⟨opens, maps⟩, and_self]

theorem openTfile_large (large : numChunks ≤ chunk) :
    openTfile env store hash chunk = .ok (none, store) :=
  if_pos large

theorem openTfile_unknown (missing : lookupTfile store.ht hash = .ok none) :
    openTfile env store hash chunk = .ok (none, store) := by
  simp only [openTfile, missing, Result.ok_bind, ite_self]

/-- What `open_tfile` does with the entry of a hash, for an index that is not too
large and whose product fits. -/
theorem openTfile_entry (found : lookupTfile store.ht hash = .ok (some (index, tf)))
    (below : chunk < numChunks) (fits : ChunkFits tf.tdef.size chunk) :
    ∃ result after, openTfile env store hash chunk = .ok (result, after) ∧
      ((tf.mLocation = none ∧ ¬Maps env store tf ∧ result = none) ∨
        ((tf.mLocation = none → Maps env store tf) ∧
          ∃ mapping opened, lookupTfile after.ht hash = .ok (some (index, opened)) ∧
            opened.tdef = tf.tdef ∧ opened.mLocation = some mapping ∧
            result = some (chunkLocation mapping tf.tdef.size chunk))) := by
  have within : ¬(numChunks : Int) ≤ chunk := by omega
  cases isMapped : tf.mLocation with
  | some mapping =>
      refine ⟨_, store, ?_, .inr ⟨by simp, mapping, tf, found, rfl, isMapped, rfl⟩⟩
      simp only [openTfile, if_neg within, found, Result.ok_bind, isMapped, locateChunk,
        if_pos fits]
  | none =>
      rw [openTfile_unmapped below found isMapped]
      by_cases maps : Maps env store tf
      · have attached := lookupTfile_setLocations found (some tf.home)
          (some ⟨tf.home, store.os.nextAddr⟩)
        rw [mapTfile_success isMapped maps.1 maps.2.1 maps.2.2]
        simp only [locateChunk, if_pos fits, Result.ok_bind]
        exact ⟨_, _, rfl, .inr ⟨fun _ => maps, _, _, attached, rfl, rfl, rfl⟩⟩
      · rw [(mapTfile_refused isMapped maps).1]
        exact ⟨_, _, rfl, .inl ⟨rfl, maps, rfl⟩⟩

theorem openTfile_refused (found : lookupTfile store.ht hash = .ok (some (index, tf)))
    (below : chunk < numChunks) (notMapped : tf.mLocation = none)
    (refused : ¬Maps env store tf) :
    openTfile env store hash chunk = .ok (none, (mapTfile env store index tf).2) := by
  rw [openTfile_unmapped below found notMapped, (mapTfile_refused notMapped refused).1]

theorem openTfile_overflow (found : lookupTfile store.ht hash = .ok (some (index, tf)))
    (below : chunk < numChunks) (overflows : ¬ChunkFits tf.tdef.size chunk)
    (maps : tf.mLocation = none → Maps env store tf) :
    openTfile env store hash chunk = .error .signedOverflow := by
  have within : ¬(numChunks : Int) ≤ chunk := by omega
  cases isMapped : tf.mLocation with
  | some mapping =>
      simp only [openTfile, if_neg within, found, Result.ok_bind, isMapped, locateChunk,
        if_neg overflows, Result.error_bind]
  | none =>
      obtain ⟨opens, positive, accepts⟩ := maps isMapped
      rw [openTfile_unmapped below found isMapped, mapTfile_success isMapped opens positive accepts]
      simp only [locateChunk, if_neg overflows, Result.error_bind]

/-- `open_tfile` returns `-1`, or designates a range inside the mapping of the entry. -/
def OpensInside (env : Env) (store : Store) (hash : Digest) (chunk : Int) : Prop :=
  ∃ result after, openTfile env store hash chunk = .ok (result, after) ∧
    ∀ location size, result = some (location, size) → size = -1 ∨
      ∃ index tf, lookupTfile after.ht hash = .ok (some (index, tf)) ∧
        tf.mLocation = some location.mapping ∧
        0 ≤ location.offset ∧ 0 ≤ size ∧ location.offset + size ≤ tf.tdef.size

/-- The indexes below eight that designate a range inside a file of `size` bytes.  A
negative size passes when the computed length is `-1`. -/
def IndexInside (size chunk : Int) : Prop :=
  if 0 ≤ size then 0 ≤ chunk ∨ size < 8
  else if chunk = 7 then size = -1 ∨ size = -8
  else -16 < size ∧ size ≤ -8 ∧ -2 ^ 63 < chunk

theorem chunkLocation_inside_iff {mapping : Mapping} {size : Int} (below : chunk < numChunks)
    (lower : -2 ^ 63 ≤ size) (upper : size < 2 ^ 63) :
    (ChunkFits size chunk ∧
      ((chunkLocation mapping size chunk).2 = -1 ∨
        0 ≤ (chunkLocation mapping size chunk).1.offset ∧
        0 ≤ (chunkLocation mapping size chunk).2 ∧
        (chunkLocation mapping size chunk).1.offset + (chunkLocation mapping size chunk).2 ≤
          size)) ↔ IndexInside size chunk := by
  have up : 0 ≤ size → size.tdiv 8 = size / 8 := fun nonneg =>
    Int.tdiv_eq_ediv_of_nonneg nonneg
  have down : size < 0 → size.tdiv 8 = -(-size / 8) := by
    intro negative
    have flipped := Int.neg_tdiv (-size) 8
    rw [Int.neg_neg] at flipped
    rw [flipped, Int.tdiv_eq_ediv_of_nonneg (by omega)]
  simp only [numChunks] at below
  simp only [chunkLocation, ChunkFits, IndexInside, numChunks, Nat.cast_ofNat, Int.reduceSub]
  generalize size.tdiv 8 = quotient at up down
  by_cases last : chunk = 7
  · subst last
    simp only [if_true]
    split <;> omega
  · simp only [if_neg last]
    by_cases nonneg : 0 ≤ chunk
    · interval_cases chunk <;> (split <;> omega)
    · rcases Int.lt_trichotomy quotient 0 with negative | rfl | positive
      · -- The size is negative, and only a length of `-1` passes.
        have sized : ¬0 ≤ size := by omega
        rw [if_neg sized]
        by_cases minus : quotient = -1
        · subst minus
          omega
        · omega
      · rw [Int.mul_zero]
        split <;> omega
      · have before : chunk * quotient < 0 := Int.mul_neg_of_neg_of_pos (by omega) positive
        have sized : 0 ≤ size := by omega
        rw [if_pos sized]
        omega

theorem openTfile_entry_inside_iff
    (found : lookupTfile store.ht hash = .ok (some (index, tf))) (below : chunk < numChunks)
    (lower : -2 ^ 63 ≤ tf.tdef.size) (upper : tf.tdef.size < 2 ^ 63) :
    OpensInside env store hash chunk ↔
      (tf.mLocation = none ∧ ¬Maps env store tf) ∨ IndexInside tf.tdef.size chunk := by
  by_cases refused : tf.mLocation = none ∧ ¬Maps env store tf
  · refine iff_of_true ⟨none, _, openTfile_refused found below refused.1 refused.2, ?_⟩
      (.inl refused)
    simp
  have maps : tf.mLocation = none → Maps env store tf := fun notMapped =>
    not_not.mp fun unmapped => refused ⟨notMapped, unmapped⟩
  rw [or_iff_right refused]
  by_cases fits : ChunkFits tf.tdef.size chunk
  · obtain ⟨result, after, opened, ⟨notMapped, unmapped, _⟩ |
      ⟨_, mapping, entry, lookup, same, isMapped, rfl⟩⟩ :=
      @openTfile_entry env _ _ _ _ _ found below fits
    · exact absurd (maps notMapped) unmapped
    have range := @chunkLocation_inside_iff chunk mapping _ below lower upper
    rw [and_iff_right fits] at range
    rw [← range]
    constructor
    · rintro ⟨result', after', opened', inside⟩
      rw [opened] at opened'
      cases opened'
      rcases inside _ _ rfl with minus | ⟨place, slot, found', _, low, nonneg, high⟩
      · exact .inl minus
      · rw [lookup] at found'
        cases found'
        rw [same] at high
        exact .inr ⟨low, nonneg, high⟩
    · intro inside
      refine ⟨_, after, opened, ?_⟩
      rintro location size isLocation
      have pointed := Option.some.inj isLocation
      have there : mapping = location.mapping :=
        congrArg (fun place => place.1.mapping) pointed
      rw [pointed] at inside
      rcases inside with minus | ⟨low, nonneg, high⟩
      · exact .inl minus
      · exact .inr ⟨index, entry, lookup, there ▸ isMapped, low, nonneg, same ▸ high⟩
  · refine iff_of_false ?_ fun inside => fits
      ((@chunkLocation_inside_iff chunk ⟨[], 0⟩ _ below lower upper).mpr inside).1
    rintro ⟨result, after, opened, _⟩
    rw [openTfile_overflow found below fits maps] at opened
    simp at opened

/-- **`open_tfile` designates a range inside the mapping exactly for the indexes
`0..7`**, and where it fails. -/
theorem openTfile_inside_iff
    (offT : ∀ index tf, lookupTfile store.ht hash = .ok (some (index, tf)) →
      -2 ^ 63 ≤ tf.tdef.size ∧ tf.tdef.size < 2 ^ 63) :
    OpensInside env store hash chunk ↔
      numChunks ≤ chunk ∨ lookupTfile store.ht hash = .ok none ∨
        ∃ index tf, lookupTfile store.ht hash = .ok (some (index, tf)) ∧
          ((tf.mLocation = none ∧ ¬Maps env store tf) ∨ IndexInside tf.tdef.size chunk) := by
  rcases Int.lt_or_le chunk numChunks with below | above
  · have within : ¬(numChunks : Int) ≤ chunk := by omega
    cases found : lookupTfile store.ht hash with
    | error stop =>
        have stopped : openTfile env store hash chunk = .error stop := by
          simp only [openTfile, if_neg within, found, Result.error_bind]
        constructor
        · rintro ⟨result, after, opened, _⟩
          rw [stopped] at opened
          simp at opened
        · rintro (above | missing | ⟨index, tf, found', _⟩)
          · exact absurd above within
          · simp at missing
          · simp at found'
    | ok entry =>
        cases entry with
        | none => simp [OpensInside, @openTfile_unknown env store hash chunk found]
        | some entry =>
            obtain ⟨index, tf⟩ := entry
            obtain ⟨lower, upper⟩ := offT index tf found
            rw [openTfile_entry_inside_iff found below lower upper]
            constructor
            · intro allowed
              exact .inr (.inr ⟨index, tf, rfl, allowed⟩)
            · rintro (above | missing | ⟨place, slot, found', allowed⟩)
              · exact absurd above within
              · simp at missing
              · cases found'
                exact allowed
  · constructor
    · intro _
      exact .inl above
    · intro _
      refine ⟨none, store, openTfile_large above, ?_⟩
      simp

/-- Any chunk of a client's file. -/
theorem openTfile_inside_sample :
    OpensInside sampleEnv sampleServer heldDef.fHash 3 := by
  obtain ⟨index, found⟩ := sampleServer_copy.found
  refine (openTfile_inside_iff ?_).mpr (.inr (.inr ⟨index, _, found, .inr ?_⟩))
  · intro place tf lookup
    rw [found] at lookup
    cases lookup
    rw [heldDef_size]
    decide
  · rw [heldDef_size]
    exact .inl (by decide)

/-- Chunk `-1` begins before the mapping. -/
theorem openTfile_negative_outside :
    ∃ location after, openTfile sampleEnv sampleServer heldDef.fHash (-1) =
        .ok (some (location, 32), after) ∧ location.offset = -32 ∧
      ¬OpensInside sampleEnv sampleServer heldDef.fHash (-1) := by
  obtain ⟨index, found⟩ := sampleServer_copy.found
  obtain ⟨result, after, opened, outcome⟩ := @openTfile_entry sampleEnv sampleServer _ (-1) _ _
    found (by decide) (by rw [heldDef_size]; decide)
  rcases outcome with ⟨_, refused, _⟩ | ⟨_, mapping, entry, lookup, same, isMapped, rfl⟩
  · refine absurd ⟨sampleEnv_creates _ (by decide), ?_, rfl⟩ refused
    rw [heldDef_size]
    decide
  · have pointed : chunkLocation mapping heldDef.size (-1) = (⟨mapping, 256, -32⟩, 32) := by
      rw [heldDef_size]
      rfl
    rw [pointed] at opened
    refine ⟨⟨mapping, 256, -32⟩, after, opened, rfl, ?_⟩
    rintro ⟨result, after', opened', inside⟩
    rw [opened] at opened'
    cases opened'
    rcases inside _ _ rfl with minus | ⟨place, slot, _, _, low, _⟩
    · simp at minus
    · simp at low

end Grintorrent
