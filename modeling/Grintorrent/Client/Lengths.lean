import Grintorrent.Client.Entries
import Grintorrent.File.Reads
import Grintorrent.File.Saving

/-!
# The lengths of digests

The size of a definition is whatever a peer sent, and `mmap` refuses a negative one only
after `open_tfile` has assigned the path.  From then on `verify_tfile` reads the file in
chunks of that size.
-/

namespace Grintorrent

open Lib

/-- A message from a peer, as its handler reads it. -/
inductive PeerInput where
  | tfileDef (fuel : Nat) (newTfile : TfileDef)
  | fileData (dataRead : Bytes) (locals : VerifyLocals)
  | requestFileData (req : ChunkRequest) (locals : VerifyLocals) (connects : Bool)

namespace PeerInput

/-- The state after the handler, if it returns. -/
def next (env : Env) (store : Store) : PeerInput → Result Store
  | .tfileDef fuel newTfile => do
      let (ht, _) ← addHtable env.callocOk fuel store.ht newTfile
      .ok { store with ht }
  | .fileData dataRead locals => handleFileData env store dataRead locals
  | .requestFileData req locals connects => do
      let (_, store) ← handleRequest env store req locals connects
      .ok store

/-- The definitions that the message brings. -/
def received : PeerInput → List TfileDef
  | .tfileDef _ newTfile => [newTfile]
  | .fileData .. | .requestFileData .. => []

/-- Every call of `md5_hash` that `verify_tfile` makes for the message is sound. -/
def Sound (env : Env) (store : Store) : PeerInput → Prop
  | .tfileDef .. => True
  | .fileData dataRead locals =>
      VerifySound env store (ChunkPayload.decode dataRead).fileHash locals
  | .requestFileData req locals _ => VerifySound env store req.fileHash locals

/-- The size of the entry that the message is about fits. -/
def Fits (env : Env) (store : Store) : PeerInput → Prop
  | .tfileDef .. => True
  | .fileData dataRead _ => SizeFits env store (ChunkPayload.decode dataRead).fileHash
  | .requestFileData req _ _ => SizeFits env store req.fileHash

end PeerInput

/-- A client after messages, with the definitions that it has received.  Each message gets
its own answers from the system. -/
inductive InputRun (os : Os) : List TfileDef → Store → Prop where
  | init : InputRun os [] ⟨initHtable, os⟩
  | step {defs : List TfileDef} {store after : Store} {env : Env} {input : PeerInput} :
      InputRun os defs store → input.next env store = .ok after →
      InputRun os (input.received ++ defs) after

variable {env : Env} {store after : Store} {ht ht' : Htable} {hash : Digest} {tdef : TfileDef}
variable {dest : Option Location} {dataRead : Bytes} {chunkSize fuel : Nat}
variable {locals : VerifyLocals} {defs : List TfileDef} {os : Os} {place : Option Nat}

/-- Every definition in the table has been received. -/
def AllReceived (defs : List TfileDef) (ht : Htable) : Prop :=
  ∀ (index : Nat) (slot : Tfile), ht.table[index]? = some slot →
    slot.tdef = .zero ∨ slot.tdef ∈ defs

theorem AllReceived.modify (all : AllReceived defs ht) (change : Tfile → Tfile) {index : Nat}
    (known : ∀ slot, (change slot).tdef = slot.tdef ∨ (change slot).tdef ∈ defs)
    (table : ht'.table = ht.table.modify index change) : AllReceived defs ht' := by
  intro position slot lookup
  rw [table, List.getElem?_modify, Option.map_eq_map, Option.map_eq_some_iff] at lookup
  obtain ⟨old, isOld, rfl⟩ := lookup
  split
  next =>
      rcases known old with same | isKnown
      · rw [same]
        exact all _ _ isOld
      · exact .inr isKnown
  next => exact all _ _ isOld

theorem AllReceived.attached (all : AllReceived defs ht) (attached : Attached ht hash ht') :
    AllReceived defs ht' := by
  cases attached with
  | unchanged => exact all
  | attached fLocation mLocation found =>
      exact all.modify (fun slot => { slot with fLocation, mLocation }) (fun _ => .inl rfl) rfl

theorem AllReceived.mono (all : AllReceived defs ht) {more : List TfileDef}
    (subset : defs ⊆ more) : AllReceived more ht := by
  intro index slot lookup
  exact (all index slot lookup).imp_right fun member => subset member

theorem AllReceived.addHtable {callocOk : Nat → Bool} (all : AllReceived defs ht)
    (member : tdef ∈ defs)
    (completes : Grintorrent.addHtable callocOk fuel ht tdef = .ok (ht', place)) :
    AllReceived defs ht' := by
  obtain ⟨base, inserted, origin⟩ := addHtable_cases completes
  have before : AllReceived defs base := by
    intro index slot lookup
    rcases origin with ⟨_, sameTable, _⟩ | ⟨_, blank⟩
    · exact all index slot (sameTable ▸ lookup)
    · rw [blank, List.getElem?_replicate] at lookup
      split at lookup
      next =>
          rw [← Option.some.inj lookup]
          exact .inl rfl
      next => simp at lookup
  rcases Htable.insert_cases inserted with ⟨_, rfl, _⟩ | ⟨index, _, rfl, _⟩
  · exact before
  · exact before.modify (fun slot => { slot with tdef }) (fun _ => .inr member) rfl

/-- **One message** brings no definition but its own. -/
theorem PeerInput.next_received {input : PeerInput} (all : AllReceived defs store.ht)
    (completes : input.next env store = .ok after) :
    AllReceived (input.received ++ defs) after.ht := by
  have more := all.mono (List.subset_append_right input.received defs)
  cases input with
  | tfileDef fuel newTfile =>
      simp only [next, Result.bind_eq_ok] at completes
      obtain ⟨⟨ht, place⟩, adds, same⟩ := completes
      cases same
      exact more.addHtable (by simp [received]) adds
  | fileData dataRead locals => exact more.attached (handleFileData_attached completes)
  | requestFileData req locals connects =>
      simp only [next, Result.bind_eq_ok] at completes
      obtain ⟨⟨answer, store'⟩, handled, same⟩ := completes
      cases same
      exact more.attached (handleRequest_attached handled)

/-- **Every run** leaves received definitions in the table. -/
theorem InputRun.received (run : InputRun os defs store) : AllReceived defs store.ht := by
  induction run with
  | init =>
      intro index slot lookup
      rw [Htable.init_slot lookup]
      exact .inl rfl
  | step _ completes ih => exact PeerInput.next_received ih completes

theorem PeerInput.sound_iff (input : PeerInput) : input.Sound env store ↔ input.Fits env store := by
  cases input with
  | tfileDef fuel newTfile => exact Iff.rfl
  | fileData dataRead locals => exact verifySound_iff
  | requestFileData req locals connects => exact verifySound_iff

/-- Definitions of sizes that `md5_hash` can take fit wherever they are. -/
theorem InputRun.fits (run : InputRun os defs store)
    (digestible : ∀ tdef ∈ defs, Digestible tdef.size) : SizeFits env store hash := by
  rintro tf path content ⟨index, found⟩ _ _ _ _ _ _
  rcases run.received index tf (lookupTfile_entry found).1 with isZero | member
  · rw [isZero]
    exact .inl (Int.le_refl _)
  · exact digestible _ member

/-- **Lengths are never negative** exactly while they fit: in every run of messages, the
calls of `md5_hash` for the next one are sound if and only if the size of the entry that it
is about fits, and they are sound throughout if the sizes of all definitions received are
multiples of 65536 or not negative. -/
theorem input_sound_iff (run : InputRun os defs store) (env : Env) (input : PeerInput) :
    (input.Sound env store ↔ input.Fits env store) ∧
    ((∀ tdef ∈ defs, Digestible tdef.size) → input.Sound env store) := by
  refine ⟨input.sound_iff, fun digestible => input.sound_iff.mpr ?_⟩
  cases input with
  | tfileDef fuel newTfile => trivial
  | fileData dataRead locals => exact run.fits digestible
  | requestFileData req locals connects => exact run.fits digestible

/-- A `FILE_DATA` message with no bytes for chunk 0. -/
def emptyChunk (hash : Digest) : Bytes :=
  ({ fileHash := hash, chunkIndex := 0, chunkSize := 0 } : ChunkPayload).bytes

theorem decode_emptyChunk (hash : Digest) :
    ChunkPayload.decode (emptyChunk hash) =
      { fileHash := hash, chunkIndex := 0, chunkSize := 0 } := by
  have decoded := ChunkPayload.decode_append
    { fileHash := hash, chunkIndex := 0, chunkSize := 0 } []
  rwa [List.append_nil] at decoded

/-- After a definition with a negative size and such a message its entry has a path and no
mapping, and an empty file has been created. -/
theorem exists_located_run (nonzero : tdef.fHash ≠ 0) (negative : tdef.size < 0)
    (named : tdef.namePath ≠ []) :
    ∃ store, InputRun emptyOs [tdef] store ∧
      store.ht.Entry tdef.fHash ⟨tdef, some tdef.namePath, none⟩ ∧
      store.os.files tdef.namePath = some [] := by
  have found := lookupTfile_first nonzero
  set ht := initHtable.fill (homeIndex startingCapacity (words tdef.fHash)) tdef
  have adds : (PeerInput.tfileDef 1 tdef).next sampleEnv ⟨initHtable, emptyOs⟩ =
      .ok ⟨ht, emptyOs⟩ := by
    simp only [PeerInput.next, addHtable_init, Result.ok_bind]
    rfl
  have unlocated := @verifyTfile_unlocated sampleEnv ⟨ht, emptyOs⟩ tdef.fHash
    (homeIndex startingCapacity (words tdef.fHash)) ⟨tdef, none, none⟩ ⟨0, fun _ => 0⟩ found rfl
    rfl
  have opened := @openTfile_unmapped sampleEnv ⟨ht, emptyOs⟩ tdef.fHash 0
    (homeIndex startingCapacity (words tdef.fHash)) ⟨tdef, none, none⟩ (by decide) found rfl
  have unmapped := @mapTfile_unmapped sampleEnv ⟨ht, emptyOs⟩
    (homeIndex startingCapacity (words tdef.fHash)) ⟨tdef, none, none⟩ rfl
    (sampleEnv_creates _ named) (by
      simp only
      omega)
  rw [unmapped] at opened
  have empty : sampleEnv.sizedTo tdef.namePath tdef.size none = [] := by
    rw [Env.sizedTo, if_neg fun both => Int.not_le.mpr negative both.1]
    rfl
  have file := @Os.prepare_files sampleEnv emptyOs tdef.namePath tdef.size
  rw [show emptyOs.files tdef.namePath = none from rfl, empty] at file
  have noSize : (ntohl 0).toNat = 0 := by decide
  have first : (0 : BitVec 32).toInt = 0 := by decide
  have handled : (PeerInput.fileData (emptyChunk tdef.fHash) ⟨0, fun _ => 0⟩).next sampleEnv
      ⟨ht, emptyOs⟩ = .ok
        { ht := ht.setLocations (homeIndex startingCapacity (words tdef.fHash))
            (some tdef.namePath) none
          os := { emptyOs.prepare sampleEnv tdef.namePath tdef.size with openFds := 1 } } := by
    simp only [PeerInput.next, handleFileData, decode_emptyChunk, unlocated, Result.ok_bind,
      isChunkVerified_unverifiedFile, Bool.false_eq_true, if_false, first, opened, noSize,
      memcpyChunk, if_true]
    rfl
  refine ⟨_, .step (.step .init adds) handled, ⟨_, lookupTfile_setLocations found _ _⟩, file⟩

/-- A definition whose size is negative, but a multiple of 65536. -/
def negativeDef : TfileDef := { sampleDef with fHash := 2, size := -65536 }

/-- Its chunks are negative multiples of the block size, of which nothing is read. -/
theorem input_sound_negative :
    ∃ store, InputRun emptyOs [negativeDef] store ∧
      store.ht.Entry negativeDef.fHash ⟨negativeDef, some negativeDef.namePath, none⟩ ∧
      (PeerInput.fileData (emptyChunk negativeDef.fHash) ⟨0, fun _ => 0⟩).Sound sampleEnv
        store := by
  have nonzero : negativeDef.fHash ≠ 0 := by decide
  have negative : negativeDef.size < 0 := by decide
  obtain ⟨store, run, entry, _⟩ := exists_located_run nonzero negative (by decide)
  refine ⟨store, run, entry, (input_sound_iff run sampleEnv _).2 ?_⟩
  intro tdef member
  rw [List.mem_singleton.mp member]
  exact .inr ⟨-1, by decide⟩

/-- A definition of size `-1`. -/
def minusDef : TfileDef := { sampleDef with fHash := 2, size := -1 }

/-- The last chunk has the length `-1`: `read` is asked for almost `2 ^ 64` bytes, its `-1`
is taken for success, `MD5_Update` is given the same length, and `md5_hash` returns 0. -/
theorem input_sound_minus_fails :
    digestCalls [] 0 (-1) =
      ([.read (2 ^ 64 - 1) (-1), .update (2 ^ 64 - 1)], .ok 0) ∧
    ∃ store, InputRun emptyOs [minusDef] store ∧
      ¬(PeerInput.fileData (emptyChunk minusDef.fHash) ⟨0, fun _ => 0⟩).Sound sampleEnv
        store := by
  have nonzero : minusDef.fHash ≠ 0 := by decide
  have negative : minusDef.size < 0 := by decide
  obtain ⟨store, run, entry, file⟩ := exists_located_run nonzero negative (by decide)
  refine ⟨by decide, store, run, fun sound => ?_⟩
  have fits : SizeFits sampleEnv store minusDef.fHash := by
    have fits := (PeerInput.sound_iff _).mp sound
    simp only [PeerInput.Fits, decode_emptyChunk] at fits
    exact fits
  have digestible := fits _ _ _ entry rfl rfl rfl file (by decide) (by decide)
  rcases digestible with nonneg | ⟨factor, same⟩
  · exact absurd nonneg (by decide)
  · have isMinus : minusDef.size = -1 := rfl
    rw [isMinus] at same
    simp only [numChunks, blockReadSize] at same
    omega

end Grintorrent
