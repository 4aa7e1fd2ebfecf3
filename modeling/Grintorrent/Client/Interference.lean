import Grintorrent.Client.Download
import Grintorrent.Client.Entries
import Grintorrent.Lib.Runs

/-!
# Files of different hashes

Entries are found by their hash, but their files by a path: the one that an entry maps,
its `f_location`, or the name in its definition.  Several paths can lead to one file.
Handling a chunk, or saving, changes at most the file of the entry of its own hash, and
lets an entry use no other path than before.  So entries that start with different files
keep to them, and two entries with one name share a file.
-/

namespace Grintorrent

open Lib Relation

variable {env : Env} {store before between after start : Store} {hash other : Digest}
variable {index : Nat} {tf tf' : Tfile} {chunk : Int} {locals : VerifyLocals} {path : Path}

/-- The file that the entry maps is at this path, or `open_tfile` would open it there. -/
def Tfile.Uses (tf : Tfile) (path : Path) : Prop :=
  path = tf.home ∨ path = tf.fLocation.getD tf.tdef.namePath

theorem Tfile.uses_home (tf : Tfile) : tf.Uses tf.home := .inl rfl

/-- The file at the path is one that the entry uses, perhaps under another path. -/
def Tfile.Reaches (tf : Tfile) (os : Os) (path : Path) : Prop :=
  ∃ used, tf.Uses used ∧ os.resolve path = os.resolve used

theorem Tfile.reaches_home (tf : Tfile) (os : Os) : tf.Reaches os tf.home :=
  ⟨tf.home, tf.uses_home, rfl⟩

theorem Tfile.Reaches.of_uses {os os' : Os} (reaches : tf'.Reaches os' path)
    (uses : ∀ path, tf'.Uses path → tf.Uses path) (resolve : os'.resolve = os.resolve) :
    tf.Reaches os path := by
  obtain ⟨used, isUsed, same⟩ := reaches
  exact ⟨used, uses used isUsed, by rwa [resolve] at same⟩

/-- From one store to another, no entry but that of `hash` has changed, this one uses no
other path than before, and no file has changed but those that it used. -/
structure Confined (hash : Digest) (before after : Store) : Prop where
  resolve : after.os.resolve = before.os.resolve
  others : ∀ {other}, other ≠ hash →
    lookupTfile after.ht other = lookupTfile before.ht other
  own : ∀ {tf'}, after.ht.Entry hash tf' →
    ∃ tf, before.ht.Entry hash tf ∧ ∀ path, tf'.Uses path → tf.Uses path
  files : ∀ {path}, (∀ tf, before.ht.Entry hash tf → ¬tf.Reaches before.os path) →
    after.os.files path = before.os.files path

namespace Confined

theorem of_table (table : after.ht = before.ht) (resolve : after.os.resolve = before.os.resolve)
    (files : ∀ path, (∀ tf, before.ht.Entry hash tf → ¬tf.Reaches before.os path) →
      after.os.files path = before.os.files path) : Confined hash before after where
  resolve := resolve
  others _ := by rw [table]
  own entry := ⟨_, table ▸ entry, fun _ uses => uses⟩
  files unused := files _ unused

theorem refl (hash : Digest) (store : Store) : Confined hash store store :=
  of_table rfl rfl fun _ _ => rfl

theorem trans (first : Confined hash before between) (second : Confined hash between after) :
    Confined hash before after where
  resolve := second.resolve.trans first.resolve
  others different := (second.others different).trans (first.others different)
  own := by
    intro tf'' entry
    obtain ⟨tf', entry', uses'⟩ := second.own entry
    obtain ⟨tf, entry, uses⟩ := first.own entry'
    exact ⟨tf, entry, fun path used => uses path (uses' path used)⟩
  files := by
    intro path unused
    rw [second.files, first.files unused]
    intro tf' entry' reached
    obtain ⟨tf, entry, uses⟩ := first.own entry'
    exact unused tf entry (reached.of_uses uses first.resolve)

theorem of_setLocations {fLocation : Option Path} {mLocation : Option Mapping}
    (found : lookupTfile before.ht hash = .ok (some (index, tf)))
    (table : after.ht = before.ht.setLocations index fLocation mLocation)
    (paths : ∀ path, Tfile.Uses { tf with fLocation, mLocation } path → tf.Uses path)
    (frame : Os.Elsewhere tf.home before.os after.os) : Confined hash before after where
  resolve := frame.resolve
  others different := by rw [table, lookupTfile_setLocations_of_ne found different]
  own := by
    intro tf' entry
    rw [table] at entry
    obtain rfl := entry.unique ⟨_, lookupTfile_setLocations found fLocation mLocation⟩
    exact ⟨tf, ⟨_, found⟩, paths⟩
  files unused := frame.files _ fun same => unused tf ⟨_, found⟩ ⟨_, tf.uses_home, same⟩

end Confined

theorem verifyTfile_confined {chunks : VerifiedChunks}
    (returned : verifyTfile env store hash locals = .ok (chunks, after)) :
    Confined hash store after := by
  obtain ⟨files, table⟩ := verifyTfile_files returned
  have frame := elsewhere_of_leak (verifyTfile_store returned) []
  exact .of_table table frame.resolve fun path _ => congrFun files path

/-- Mapping an entry gives it its own path, and changes no file elsewhere. -/
theorem mapTfile_paths (notMapped : tf.mLocation = none) :
    ∃ mLocation,
      (mapTfile env store index tf).1 = mLocation ∧
      (mapTfile env store index tf).2.ht =
        store.ht.setLocations index (some tf.home) mLocation ∧
      (∀ mapping, mLocation = some mapping → mapping.file = tf.home) ∧
      Os.Elsewhere tf.home store.os (mapTfile env store index tf).2.os := by
  have prepared := @Os.prepare_elsewhere env store.os tf.home tf.tdef.size
  rw [mapTfile_opens notMapped]
  split
  next =>
      split
      next =>
          refine ⟨_, rfl, rfl, ?_, prepared.resolve, prepared.files⟩
          rintro mapping ⟨⟩
          rfl
      next => exact ⟨none, rfl, rfl, by simp, prepared.resolve, prepared.files⟩
  next => exact ⟨none, rfl, rfl, by simp, .refl _ _⟩

theorem openTfile_confined {result : Option (Location × Int)}
    (returned : openTfile env store hash chunk = .ok (result, after)) :
    Confined hash store after := by
  rcases openTfile_cases returned with ⟨_, rfl, _⟩ | ⟨index, tf, found, _, ⟨_, _, rfl, _⟩ |
    ⟨notMapped, rfl, _⟩⟩
  · exact .refl hash _
  · exact .refl hash _
  · obtain ⟨mLocation, _, table, file, frame⟩ := mapTfile_paths notMapped
    refine Confined.of_setLocations found table (fun path uses => ?_) frame
    left
    rcases uses with atHome | located
    · rw [atHome]
      cases mLocation with
      | none => rfl
      | some mapping => exact file mapping rfl
    · exact located

theorem openTfile_dest {dest : Location} {size : Int}
    (returned : openTfile env store hash chunk = .ok (some (dest, size), after)) :
    ∃ tf, store.ht.Entry hash tf ∧ dest.mapping.file = tf.home := by
  obtain ⟨index, tf, mapping, found, _, file, location, _⟩ := openTfile_some returned
  refine ⟨tf, ⟨index, found⟩, ?_⟩
  rw [(Prod.mk.inj location).1]
  exact file

theorem handleFileData_confined {dataRead : Bytes}
    (handled : handleFileData env store dataRead locals = .ok after) :
    Confined (ChunkPayload.decode dataRead).fileHash store after := by
  obtain ⟨chunks, verified, isVerified, outcome⟩ := handleFileData_cases handled
  have first := verifyTfile_confined isVerified
  rcases outcome with ⟨_, rfl⟩ | ⟨_, pointed, opened, isOpened, copied⟩
  · exact first
  have second := openTfile_confined isOpened
  cases pointed with
  | none =>
      rcases memcpyChunk_cases copied with ⟨_, rfl⟩ | ⟨_, _, _, isDest, _⟩
      · exact first.trans second
      · simp at isDest
  | some pointed =>
      obtain ⟨dest, size⟩ := pointed
      obtain ⟨tf, entry, file⟩ := openTfile_dest isOpened
      obtain ⟨table, frame⟩ := memcpyChunk_files copied
      refine first.trans { resolve := ?_, others := ?_, own := ?_, files := ?_ }
      · exact frame.resolve.trans second.resolve
      · intro other different
        rw [table]
        exact second.others different
      · intro tf' entry'
        rw [table] at entry'
        exact second.own entry'
      · intro path unused
        rw [frame.files path, second.files unused]
        intro same
        rw [second.resolve, file] at same
        exact unused tf entry ⟨_, tf.uses_home, same⟩

theorem saveTfile_confined {code : Int} {syncs unmaps : Bool}
    (returned : saveTfile store hash syncs unmaps = .ok (code, after)) :
    Confined hash store after := by
  rcases saveTfile_cases returned with rfl | ⟨index, tf, _, _, found, _, rfl⟩
  · exact .refl hash _
  · refine Confined.of_setLocations found rfl (fun path uses => ?_) (.refl _ _)
    rcases uses with atHome | located
    · exact .inr atHome
    · exact .inr located

/-! ## Runs -/

/-- What is done for a hash: a `FILE_DATA` message is handled, or `download_file` saves
the file. -/
inductive FileEvent where
  | fileData (message : FileData)
  | saved (hash : Digest) (syncs unmaps : Bool)

namespace FileEvent

/-- The hash that a handler reads in its buffer. -/
def fileHash : FileEvent → Digest
  | .fileData message =>
      (ChunkPayload.decode (splice 0 message.payload message.dataRead)).fileHash
  | .saved hash _ _ => hash

def call (env : Env) (store : Store) : FileEvent → Result Store
  | .fileData message => readFileData env store message
  | .saved hash syncs unmaps => do
      let (_, store) ← saveTfile store hash syncs unmaps
      .ok store

theorem confined {event : FileEvent} (returned : event.call env store = .ok after) :
    Confined event.fileHash store after := by
  cases event with
  | fileData message =>
      simp only [call, readFileData, Result.bind_eq_ok] at returned
      obtain ⟨dataRead, received, handled⟩ := returned
      simp only [receiveInto] at received
      split at received
      next =>
          cases received
          exact handleFileData_confined handled
      next => simp at received
  | saved hash syncs unmaps =>
      simp only [call, Result.bind_eq_ok] at returned
      obtain ⟨⟨code, saved⟩, isSaved, rest⟩ := returned
      cases rest
      exact saveTfile_confined isSaved

end FileEvent

/-- The entry of the hash, if there is one, shares no file with an entry of another
hash, whatever the paths are. -/
def Alone (store : Store) (hash : Digest) : Prop :=
  ∀ tf, store.ht.Entry hash tf → ∀ other, other ≠ hash → ∀ tf', store.ht.Entry other tf' →
    ∀ path, tf.Reaches store.os path → ¬tf'.Reaches store.os path

/-- Something is done for one of these hashes, whose entry was alone at the start. -/
def AloneStep (env : Env) (start : Store) (about : Digest → Prop) (store after : Store) : Prop :=
  ∃ event : FileEvent, about event.fileHash ∧ Alone start event.fileHash ∧
    event.call env store = .ok after

/-- Every entry is one of the start, and uses no other paths than it did then. -/
structure Inherits (start store : Store) : Prop where
  resolve : store.os.resolve = start.os.resolve
  entries : ∀ {hash tf'}, store.ht.Entry hash tf' →
    ∃ tf, start.ht.Entry hash tf ∧ ∀ path, tf'.Uses path → tf.Uses path

theorem Inherits.refl (start : Store) : Inherits start start where
  resolve := rfl
  entries entry := ⟨_, entry, fun _ used => used⟩

theorem Inherits.confined (inherits : Inherits start store)
    (confined : Confined hash store after) : Inherits start after where
  resolve := confined.resolve.trans inherits.resolve
  entries := by
    intro other tf'' entry
    by_cases same : other = hash
    · subst same
      obtain ⟨tf', entry', uses'⟩ := confined.own entry
      obtain ⟨tf, entry, uses⟩ := inherits.entries entry'
      exact ⟨tf, entry, fun path used => uses path (uses' path used)⟩
    · obtain ⟨index, found⟩ := entry
      exact inherits.entries ⟨index, (confined.others same).symm.trans found⟩

/-- An entry whose hash nothing is done for, and the content of its file. -/
def Spared (start : Store) (about : Digest → Prop) (store : Store) : Prop :=
  ∀ {other}, ¬about other →
    lookupTfile store.ht other = lookupTfile start.ht other ∧
    ∀ tf, start.ht.Entry other tf → store.os.files tf.home = start.os.files tf.home

/-- What is done for a hash whose entry was alone at the start changes no file of another
entry. -/
theorem Inherits.files (inherits : Inherits start store) {event : FileEvent}
    (alone : Alone start event.fileHash) (returned : event.call env store = .ok after)
    (different : other ≠ event.fileHash) (entry : store.ht.Entry other tf) :
    after.os.files tf.home = store.os.files tf.home := by
  apply (event.confined returned).files
  intro own ownEntry reached
  obtain ⟨first, firstEntry, firstUses⟩ := inherits.entries ownEntry
  obtain ⟨second, secondEntry, secondUses⟩ := inherits.entries entry
  exact alone first firstEntry other different second secondEntry tf.home
    (reached.of_uses firstUses inherits.resolve)
    ((tf.reaches_home store.os).of_uses secondUses inherits.resolve)

variable {about : Digest → Prop}

theorem inherits_run (run : ReflTransGen (AloneStep env start about) start store) :
    Inherits start store ∧ Spared start about store := by
  refine @invariant_run _ _ _ _ (fun store => Inherits start store ∧ Spared start about store) ?_
    run ⟨.refl start, fun _ => ⟨rfl, fun _ _ => rfl⟩⟩
  rintro store after ⟨inherits, spared⟩ ⟨event, isAbout, alone, returned⟩
  have confined := event.confined returned
  refine ⟨inherits.confined confined, ?_⟩
  intro other notAbout
  have different : other ≠ event.fileHash := fun same => notAbout (same ▸ isAbout)
  obtain ⟨table, files⟩ := spared notAbout
  constructor
  · rw [confined.others different, table]
  · intro tf entry
    have entry' : store.ht.Entry other tf := by
      obtain ⟨index, found⟩ := entry
      exact ⟨index, table.trans found⟩
    rw [inherits.files alone returned different entry', files tf entry]

/-- **Files of different hashes do not interfere where their entries have different
files**: in a run that handles messages for entries that were alone at the start, an entry
of another hash keeps its file, and so it does in the next step. -/
theorem files_stay_apart (run : ReflTransGen (AloneStep env start about) start store) :
    (∀ other tf, ¬about other → start.ht.Entry other tf →
        store.os.files tf.home = start.os.files tf.home) ∧
      ∀ (event : FileEvent) after, Alone start event.fileHash →
        event.call env store = .ok after → ∀ other tf, other ≠ event.fileHash →
          store.ht.Entry other tf → after.os.files tf.home = store.os.files tf.home := by
  obtain ⟨inherits, spared⟩ := inherits_run run
  constructor
  · intro other tf notAbout entry
    exact (spared notAbout).2 tf entry
  · intro event after alone returned other tf different entry
    exact inherits.files alone returned different entry

/-- Another definition of 256 bytes, with this name. -/
def twinDef (name : Bytes) : TfileDef where
  name := ⟨(resize nameLen name).toArray, by simp⟩
  fHash := 1
  cHashes := fun _ => 0
  size := 256

/-- The entry of the local file, and the one of the definition as it was received. -/
def localEntry : Tfile := ⟨heldDef, some samplePath, none⟩

def twinEntry (name : Bytes) : Tfile := ⟨twinDef name, none, none⟩

/-- The client that generated `heldDef` from its file has received the definition. -/
def twinStore (name : Bytes) : Store :=
  { sampleServer with ht := sampleServer.ht.fill 1 (twinDef name) }

theorem heldDef_home : homeIndex startingCapacity (words heldDef.fHash) = 52 := by
  rw [heldDef, definitionOf_fHash]
  change homeIndex startingCapacity (words (sampleMd5 sampleContent)) = 52
  rw [sampleContent, sampleMd5, if_pos rfl]
  decide

theorem lookupTfile_home {ht : Htable} {hash : Digest} {index : Nat} {slot : Tfile}
    (home : homeIndex ht.capacity (words hash) = index)
    (lookup : ht.table[index]? = some slot)
    (same : slot.tdef.fHash = hash) (nonzero : hash ≠ 0) :
    lookupTfile ht hash = .ok (some (index, slot)) := by
  have held := Tfile.key_eq_some.mpr ⟨same, nonzero⟩
  have ended : ht.probe hash = .occupied index := by
    simp only [Htable.probe, Lib.probe, home, lookup, held, if_true]
  simp only [lookupTfile, Htable.search_eq_some.mpr ended, Result.ok_bind, lookup]

theorem twinStore_table (name : Bytes) (position : Nat) :
    (twinStore name).ht.table[position]? =
      if position = 1 then some (twinEntry name)
      else if position = 52 then some localEntry
      else if position < startingCapacity then some .zero else none := by
  simp only [twinStore, sampleServer, sampleReceiver, heldDef_home, Htable.fill,
    Htable.setLocations, List.getElem?_modify, initHtable, List.getElem?_replicate]
  by_cases first : position = 1
  · subst first
    rfl
  · by_cases second : position = 52
    · subst second
      rfl
    · have notFirst : ¬1 = position := Ne.symm first
      have notSecond : ¬52 = position := Ne.symm second
      simp only [if_neg first, if_neg second, if_neg notFirst, if_neg notSecond,
        Option.map_eq_map, Option.map_id']

theorem twinStore_capacity (name : Bytes) : (twinStore name).ht.capacity = startingCapacity :=
  rfl

theorem twinStore_twin (name : Bytes) :
    lookupTfile (twinStore name).ht 1 = .ok (some (1, twinEntry name)) := by
  have home : homeIndex (twinStore name).ht.capacity (words 1) = 1 := by
    rw [twinStore_capacity]
    decide
  have lookup : (twinStore name).ht.table[1]? = some (twinEntry name) := by
    rw [twinStore_table, if_pos rfl]
  exact lookupTfile_home home lookup rfl (by decide)

theorem twinStore_local (name : Bytes) :
    lookupTfile (twinStore name).ht heldDef.fHash = .ok (some (52, localEntry)) := by
  have home : homeIndex (twinStore name).ht.capacity (words heldDef.fHash) = 52 := by
    rw [twinStore_capacity, heldDef_home]
  have lookup : (twinStore name).ht.table[52]? = some localEntry := by
    rw [twinStore_table, if_neg (by decide), if_pos rfl]
  exact lookupTfile_home home lookup rfl heldDef_ne_zero

theorem twinStore_entry {name : Bytes}
    (entry : (twinStore name).ht.Entry hash tf) :
    tf = twinEntry name ∨ tf = localEntry := by
  obtain ⟨index, found⟩ := entry
  obtain ⟨lookup, same, nonzero⟩ := lookupTfile_entry found
  rw [twinStore_table] at lookup
  split at lookup
  next => exact .inl (Option.some.inj lookup).symm
  next =>
      split at lookup
      next => exact .inr (Option.some.inj lookup).symm
      next =>
          split at lookup
          next =>
              obtain rfl := Option.some.inj lookup
              exact absurd same.symm nonzero
          next => simp at lookup

theorem namePath_twinDef {name : Bytes} (visible : name.all (fun byte => byte != 0) = true)
    (short : name.length < nameLen) : (twinDef name).namePath = name := by
  obtain ⟨rest, isRest⟩ := Nat.exists_eq_add_of_lt short
  have padded : resize nameLen name = name ++ 0 :: List.replicate rest 0 := by
    rw [resize, List.take_of_length_le short.le, ← List.replicate_succ]
    congr 2
    omega
  have bytes : (twinDef name).bytes = name ++ (0 :: List.replicate rest 0 ++
      (twinDef name).bytes.drop nameLen) := by
    rw [← List.append_assoc, ← padded]
    simp [TfileDef.bytes, twinDef, nameLen]
  rw [TfileDef.namePath, bytes, List.takeWhile_append_of_pos (List.all_eq_true.mp visible)]
  simp

/-- The first chunk of the other file, thirty-two ones. -/
def twinMessage : FileData where
  dataRead := List.replicate messageSize 0
  payload := chunkMessage 1 0 (List.replicate 32 1)
  locals := ⟨0, fun _ => 0⟩

theorem twinMessage_carries : Carries 1 256 0 (List.replicate 32 1) twinMessage := by
  have payload : twinMessage.payload = chunkMessage 1 0 (List.replicate 32 1) := rfl
  refine carries_chunkMessage List.length_replicate payload ?_ ?_
  · rw [List.length_replicate]
    decide
  · rw [payload, chunkMessage, List.length_append, ChunkPayload.length_bytes,
      List.length_replicate]
    decide

theorem fileHash_twinMessage : (FileEvent.fileData twinMessage).fileHash = 1 := by
  have whole : ChunkPayload.sizeOf ≤ twinMessage.payload.length := by
    rw [twinMessage_carries.length]
    exact Nat.le_add_right _ _
  simp only [FileEvent.fileHash, splice_zero, ChunkPayload.decode_prefix whole]
  exact twinMessage_carries.hash

theorem twinStore_files (name : Bytes) :
    (twinStore name).os.files = (sampleStore sampleContent).os.files := rfl

theorem twinStore_copy {name : Bytes} (visible : name.all (fun byte => byte != 0) = true)
    (short : name.length < nameLen) :
    Copy (twinStore name) (twinDef name) (twinEntry name)
      ((sampleStore sampleContent).os.files name) where
  found := ⟨1, twinStore_twin name⟩
  same := rfl
  file := by
    change (twinStore name).os.files (twinDef name).namePath = _
    rw [namePath_twinDef visible short, twinStore_files]
  sized := by
    intro bytes isFile
    simp only [sampleStore, Os.files] at isFile
    split at isFile
    next =>
        rw [← Option.some.inj isFile, length_sampleContent]
        rfl
    next => simp at isFile
  mapped := by simp [twinEntry]

theorem twinMessage_handled {name : Bytes} (named : name ≠ [])
    (visible : name.all (fun byte => byte != 0) = true) (short : name.length < nameLen) :
    ∃ after, (FileEvent.fileData twinMessage).call sampleEnv (twinStore name) = .ok after ∧
      after.os.resolve = sampleResolve ∧
      after.os.files name = some (splice 0 (List.replicate 32 1)
        (filled 256 ((sampleStore sampleContent).os.files name))) := by
  have unreported : report sampleEnv (twinEntry name)
      ((sampleStore sampleContent).os.files name) = unverifiedFile := by
    simp only [report]
    split
    next => rfl
    next => rw [if_pos ⟨rfl, rfl⟩]
  have home : (twinEntry name).home = name := namePath_twinDef visible short
  have serves : Serves sampleEnv (twinEntry name).home 256 1 :=
    { opens := fun _ _ => sampleEnv_creates _ (by rwa [home])
      maps := rfl }
  obtain ⟨after, handled, ⟨reported, _⟩ | ⟨_, opened, _, sameHome, copy⟩, frame, _⟩ :=
    (twinStore_copy visible short).handle serves (show 0 < 1 by decide) (fun _ => rfl) rfl
      (by decide) (by decide) twinMessage_carries
  · rw [unreported, isChunkVerified_unverifiedFile] at reported
    simp at reported
  · refine ⟨after, handled, frame.resolve, ?_⟩
    have written := copy.file
    rwa [sameHome, home] at written

theorem heldDef_ne_one : heldDef.fHash ≠ 1 := by
  intro same
  have home := heldDef_home
  rw [same] at home
  exact absurd home (by decide)

theorem twinStore_alone : Alone (twinStore [103]) 1 := by
  intro tf entry other different tf' entry' path reached reached'
  obtain rfl := entry.unique ⟨1, twinStore_twin [103]⟩
  have name := @namePath_twinDef [103] (by decide) (by decide)
  obtain ⟨used, isUsed, own⟩ := reached
  have isName : used = [103] := by
    rcases isUsed with isHome | isName
    · exact isHome.trans name
    · exact isName.trans name
  rcases twinStore_entry entry' with rfl | rfl
  · obtain ⟨index, found⟩ := entry'
    exact different (lookupTfile_entry found).2.1.symm
  · obtain ⟨used', isUsed', others⟩ := reached'
    have isLocal : used' = samplePath := by
      rcases isUsed' with isHome | isName
      · exact isHome
      · exact isName
    rw [isName] at own
    rw [isLocal, own] at others
    exact absurd others (by decide)

/-- The local file is not changed by a chunk for the file `g`. -/
theorem files_stay_apart_names :
    ∃ after, (FileEvent.fileData twinMessage).call sampleEnv (twinStore [103]) = .ok after ∧
      after.os.files samplePath = some sampleContent := by
  obtain ⟨after, handled, _⟩ := @twinMessage_handled [103] (by decide) (by decide) (by decide)
  have alone : Alone (twinStore [103]) (FileEvent.fileData twinMessage).fileHash := by
    rw [fileHash_twinMessage]
    exact twinStore_alone
  have run : ReflTransGen (AloneStep sampleEnv (twinStore [103]) (· = 1)) (twinStore [103])
      after := .single ⟨.fileData twinMessage, fileHash_twinMessage, alone, handled⟩
  refine ⟨after, handled, ?_⟩
  have kept := (files_stay_apart run).1 heldDef.fHash localEntry heldDef_ne_one
    ⟨52, twinStore_local [103]⟩
  exact kept.trans (sampleStore_file sampleContent)

/-- A definition with the name `./f` is not alone beside a local file `f`. -/
example : ¬Alone (twinStore [46, 47, 102]) 1 := by
  intro alone
  have name := @namePath_twinDef [46, 47, 102] (by decide) (by decide)
  refine alone _ ⟨1, twinStore_twin _⟩ heldDef.fHash heldDef_ne_one localEntry
    ⟨52, twinStore_local _⟩ samplePath ⟨[46, 47, 102], .inl name.symm, ?_⟩
    (localEntry.reaches_home _)
  decide

/-- With the name `f` of the local file, the definition shares that file: a sound message
for its first chunk overwrites the local file. -/
theorem local_file_overwritten :
    ∃ after, Carries 1 256 0 (List.replicate 32 1) twinMessage ∧
      (FileEvent.fileData twinMessage).fileHash ≠ heldDef.fHash ∧
      (twinStore [102]).ht.Entry heldDef.fHash localEntry ∧
      (FileEvent.fileData twinMessage).call sampleEnv (twinStore [102]) = .ok after ∧
      after.os.files localEntry.home ≠ (twinStore [102]).os.files localEntry.home := by
  obtain ⟨after, handled, _, file⟩ :=
    @twinMessage_handled [102] (by decide) (by decide) (by decide)
  refine ⟨after, twinMessage_carries, ?_, ⟨52, twinStore_local [102]⟩, handled, ?_⟩
  · rw [fileHash_twinMessage]
    exact heldDef_ne_one.symm
  · intro same
    have before : (sampleStore sampleContent).os.files [102] = some sampleContent :=
      sampleStore_file sampleContent
    have kept : after.os.files [102] = some sampleContent := same.trans before
    rw [file, before, filled, Option.getD_some, Option.some.injEq] at kept
    have first := congrArg (fun bytes => bytes[0]?) kept
    rw [sampleContent] at first
    exact absurd first (by decide)

end Grintorrent
