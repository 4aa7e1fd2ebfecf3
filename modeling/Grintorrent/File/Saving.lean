import Grintorrent.File.Entries
import Grintorrent.File.Failing
import Grintorrent.Htable.Growth
import Grintorrent.Lib.Runs

/-!
# Before and after `save_tfile`

While an entry is mapped, `verify_tfile` digests the mapping in one go; once `save_tfile`
has unmapped it, it reads the file in blocks.  A mapped entry has the path of its mapping
and a file there, which is an invariant of all runs in which nothing else touches that file.
The file has the recorded length as long as `ftruncate`, whose result `open_tfile` ignores,
is not refused, and then the two agree while the blocks of the file can be counted.
-/

namespace Grintorrent

open Lib Relation

/-- `add_tfile`. -/
def addTfile (callocOk : Nat → Bool) (fuel : Nat) (ht : Htable) (tfileDef : TfileDef) :
    Result (Htable × Option Nat) := do
  let (ht, place) ← addHtable callocOk fuel ht tfileDef
  match place with
  | none => .ok (ht, none)
  | some index => .ok (ht.setLocations index none none, some index)

/-- What happens to a table and its files. -/
inductive TfileEvent where
  | generated (fuel : Nat) (scratch : TfileDef) (filePath : Path) (name : Vector UInt8 nameLen)
  | added (fuel : Nat) (tfileDef : TfileDef)
  | opened (hash : Digest) (chunk : Int)
  /-- Bytes are copied into the mapping of an entry. -/
  | written (hash : Digest) (offset : Int) (data : Bytes)
  | saved (hash : Digest) (syncs unmaps : Bool)
  | verified (hash : Digest) (locals : VerifyLocals)
  /-- Another process runs. -/
  | disturbed (os : Os)

namespace TfileEvent

/-- The state after the event, if its call returns. -/
def next (env : Env) (store : Store) : TfileEvent → Result Store
  | .generated fuel scratch filePath name => do
      let (_, _, store) ← generateTfile env fuel store scratch filePath name
      .ok store
  | .added fuel tfileDef => do
      let (ht, _) ← addTfile env.callocOk fuel store.ht tfileDef
      .ok { store with ht }
  | .opened hash chunk => do
      let (_, store) ← openTfile env store hash chunk
      .ok store
  | .written hash offset data => do
      match ← lookupTfile store.ht hash with
      | none => .error .nullPointer
      | some (_, tf) =>
          match tf.mLocation with
          | none => .error .nullPointer
          | some mapping => do
              let os ← store.os.writeMapped env ⟨mapping, tf.tdef.size, offset⟩ data
              .ok { store with os }
  | .saved hash syncs unmaps => do
      let (_, store) ← saveTfile store hash syncs unmaps
      .ok store
  | .verified hash locals => do
      let (_, store) ← verifyTfile env store hash locals
      .ok store
  | .disturbed os => .ok { store with os }

/-- The event is a call for this hash. -/
def Concerns (hash : Digest) : TfileEvent → Prop
  | .opened other _ | .written other _ _ | .saved other _ _ | .verified other _ => other = hash
  | .generated .. | .added .. | .disturbed _ => False

/-- If the event is a call of `open_tfile` for this hash, the recorded length of the file is
not refused. -/
def Grants (env : Env) (store : Store) (hash : Digest) : TfileEvent → Prop
  | .opened other _ => other = hash → ∀ tf, store.ht.Entry hash tf →
      env.ftruncateOk tf.home tf.tdef.size.toNat = true
  | _ => True

end TfileEvent

variable {granted : Prop} {env : Env} {store after : Store} {ht ht' : Htable}
variable {hash other : Digest}
variable {index fuel : Nat} {tf : Tfile} {tdef : TfileDef} {callocOk : Nat → Bool}
variable {place : Option Nat} {content : Bytes} {path : Path} {locals : VerifyLocals}

/-- The file of the entry stays as it is. -/
def FileKept (hash : Digest) (store after : Store) : Prop :=
  ∀ tf, store.ht.Entry hash tf → after.os.files tf.home = store.os.files tf.home

/-- An event that completes, and that concerns the hash or leaves the file of its entry
alone.  Each event gets its own answers from the system; if `granted` holds, none of them
refuses the file its length. -/
def TfileStep (granted : Prop) (hash : Digest) (store after : Store) : Prop :=
  ∃ (env : Env) (event : TfileEvent), event.next env store = .ok after ∧
    (event.Concerns hash ∨ FileKept hash store after) ∧
    (granted → event.Grants env store hash)

/-! ## The invariant -/

/-- The table is well formed, and a mapped entry of the hash has the path of its mapping and
a file, which has the recorded length if that was not refused. -/
structure MappedFile (granted : Prop) (hash : Digest) (store : Store) : Prop where
  wf : store.ht.WF
  located : ∀ {tf mapping}, store.ht.Entry hash tf → tf.mLocation = some mapping →
    tf.fLocation = some mapping.file
  file : ∀ {tf mapping}, store.ht.Entry hash tf → tf.mLocation = some mapping →
    ∃ content, store.os.files mapping.file = some content ∧
      (granted → tf.tdef.size = content.length)

theorem Htable.WF.replicate {size capacity callocs : Nat} :
    Htable.WF ⟨capacity, size, List.replicate capacity .zero, callocs⟩ where
  length := by simp
  placed := Placed.of_vacant fun lookup => by
    obtain ⟨_, isZero⟩ := List.getElem?_eq_some_iff.mp lookup
    rw [← isZero, List.getElem_replicate, Tfile.key_zero]

/-- What `add_htable` leaves in the table: the slot it has filled, and of the others those
of the table before or of a new one. -/
theorem addHtable_slots (wf : ht.WF)
    (completes : addHtable callocOk fuel ht tdef = .ok (ht', place)) :
    ht'.WF ∧ ∀ (position : Nat) (slot : Tfile), ht'.table[position]? = some slot →
      place = some position ∨ ht.table[position]? = some slot ∨ slot = Tfile.zero := by
  obtain ⟨base, inserted, origin⟩ := addHtable_cases completes
  have base_wf : base.WF := by
    obtain ⟨capacity, size, table, callocs⟩ := base
    rcases origin with ⟨sameCapacity, sameTable, _⟩ | ⟨doubled, blank⟩
    · simp only at sameCapacity sameTable
      exact ⟨by simp only [sameCapacity, sameTable, wf.length], by
        simpa only [sameCapacity, sameTable] using wf.placed⟩
    · simp only at doubled blank
      rw [blank, doubled]
      exact .replicate
  have before : ∀ (position : Nat) (slot : Tfile), base.table[position]? = some slot →
      ht.table[position]? = some slot ∨ slot = Tfile.zero := by
    intro position slot lookup
    rcases origin with ⟨_, sameTable, _⟩ | ⟨_, blank⟩
    · exact .inl (sameTable ▸ lookup)
    · rw [blank, List.getElem?_replicate] at lookup
      split at lookup
      next => exact .inr (Option.some.inj lookup).symm
      next => simp at lookup
  refine ⟨base_wf.insert inserted, fun position slot lookup => ?_⟩
  rcases Htable.insert_cases inserted with ⟨_, rfl, _⟩ | ⟨filled, rfl, rfl, ended⟩
  · exact .inr (before position slot lookup)
  · obtain ⟨_, _, old, isOld, _⟩ := Htable.probe_vacant base_wf.length ended
    rw [Htable.fill_table isOld, List.getElem?_set] at lookup
    split at lookup
    next same => exact .inl (congrArg some same)
    next => exact .inr (before position slot lookup)

/-- An entry that `add_htable` made, or that is given no mapping there, does not count. -/
theorem MappedFile.add (inv : MappedFile granted hash store)
    (completes : addHtable callocOk fuel store.ht tdef = .ok (ht', place)) {os : Os}
    (files : os.files = store.os.files) {fLocation : Option Path} :
    MappedFile granted hash
      ⟨place.elim ht' fun index => ht'.setLocations index fLocation none, os⟩ := by
  obtain ⟨wf, slots⟩ := addHtable_slots inv.wf completes
  have kept : ∀ {tf mapping},
      (place.elim ht' fun index => ht'.setLocations index fLocation none).Entry hash tf →
      tf.mLocation = some mapping → store.ht.Entry hash tf := by
    rintro tf mapping ⟨position, found⟩ isMapped
    obtain ⟨lookup, sameHash, nonzero⟩ := lookupTfile_entry found
    subst sameHash
    have old : store.ht.table[position]? = some tf := by
      cases place with
      | none =>
          rcases slots position tf lookup with isPlace | same | isZero
          · simp at isPlace
          · exact same
          · exact absurd (isZero ▸ rfl) nonzero
      | some index =>
          simp only [Option.elim_some, Htable.setLocations, List.getElem?_modify] at lookup
          split at lookup
          next =>
              rw [Option.map_eq_map, Option.map_eq_some_iff] at lookup
              obtain ⟨slot, _, rfl⟩ := lookup
              simp at isMapped
          next elsewhere =>
              simp only [Option.map_eq_map, Option.map_id'] at lookup
              rcases slots position tf lookup with isPlace | same | isZero
              · exact absurd (Option.some.inj isPlace) elsewhere
              · exact same
              · exact absurd (isZero ▸ rfl) nonzero
    exact inv.wf.entry old nonzero
  exact
    { wf := by
        cases place with
        | none => exact wf
        | some index => exact wf.relocate index fLocation none
      located := fun entry isMapped => inv.located (kept entry isMapped) isMapped
      file := fun entry isMapped => by
        rw [files]
        exact inv.file (kept entry isMapped) isMapped }

/-- A call for another hash that leaves the files alone, or the file of the entry. -/
theorem MappedFile.frame (inv : MappedFile granted hash store) (wf : after.ht.WF)
    (same : lookupTfile after.ht hash = lookupTfile store.ht hash)
    (kept : FileKept hash store after) : MappedFile granted hash after := by
  have entries : ∀ {tf}, after.ht.Entry hash tf → store.ht.Entry hash tf := by
    rintro tf ⟨index, found⟩
    exact ⟨index, same ▸ found⟩
  refine ⟨wf, fun entry isMapped => inv.located (entries entry) isMapped, ?_⟩
  intro tf mapping entry isMapped
  obtain ⟨content, file, sized⟩ := inv.file (entries entry) isMapped
  have same := kept tf (entries entry)
  simp only [Tfile.home, isMapped] at same
  exact ⟨content, same.trans file, sized⟩

theorem MappedFile.of_unmapped (wf : store.ht.WF) (entry : store.ht.Entry hash tf)
    (notMapped : tf.mLocation = none) : MappedFile granted hash store := by
  have none : ∀ {tf' mapping}, store.ht.Entry hash tf' → tf'.mLocation ≠ some mapping := by
    intro tf' mapping entry'
    rw [entry'.unique entry, notMapped]
    simp
  exact ⟨wf, fun entry' isMapped => absurd isMapped (none entry'),
    fun entry' isMapped => absurd isMapped (none entry')⟩

/-- `open_tfile` maps an entry to a file that it has opened, and given the recorded length
unless that was refused. -/
theorem MappedFile.opened (inv : MappedFile granted hash store) {chunk : Int}
    {result : Option (Location × Int)}
    (returned : openTfile env store hash chunk = .ok (result, after))
    (grants : granted → ∀ tf, store.ht.Entry hash tf →
      env.ftruncateOk tf.home tf.tdef.size.toNat = true) :
    MappedFile granted hash after := by
  have wf := (openTfile_attached returned).wf inv.wf
  rcases openTfile_cases returned with ⟨_, rfl, _⟩ | ⟨index, tf, found, _, ⟨_, _, rfl, _⟩ |
    ⟨notMapped, rfl, _⟩⟩
  · exact inv
  · exact inv
  · by_cases maps : Maps env store tf
    · obtain ⟨opens, positive, accepted⟩ := maps
      rw [mapTfile_success notMapped opens positive accepted] at wf ⊢
      have entry := lookupTfile_setLocations found (some tf.home)
        (some ⟨tf.home, store.os.nextAddr⟩)
      refine ⟨wf, ?_, ?_⟩
      · intro tf' mapping entry' isMapped
        obtain rfl := Htable.Entry.unique entry' ⟨_, entry⟩
        cases isMapped
        rfl
      · intro tf' mapping entry' isMapped
        obtain rfl := Htable.Entry.unique entry' ⟨_, entry⟩
        cases isMapped
        refine ⟨_, @Os.prepare_files env store.os tf.home tf.tdef.size, fun isGranted => ?_⟩
        rw [Env.sizedTo, if_pos ⟨positive.le, grants isGranted _ ⟨_, found⟩⟩, length_resize]
        exact (Int.toNat_of_nonneg positive.le).symm
    · have table := (@mapTfile_refused env store index tf notMapped maps).2
      have entry := lookupTfile_setLocations found (some tf.home) none
      rw [← table] at entry
      exact .of_unmapped wf ⟨_, entry⟩ rfl

theorem MappedFile.saved (inv : MappedFile granted hash store) {code : Int} {syncs unmaps : Bool}
    (returned : saveTfile store hash syncs unmaps = .ok (code, after)) :
    MappedFile granted hash after := by
  have wf := (saveTfile_attached returned).wf inv.wf
  rcases saveTfile_cases returned with rfl | ⟨index, tf, _, _, found, _, rfl⟩
  · exact inv
  · exact .of_unmapped wf ⟨_, lookupTfile_setLocations found tf.fLocation none⟩ rfl

theorem MappedFile.written (inv : MappedFile granted hash store) {mapping : Mapping}
    {length offset : Int} {data : Bytes} {os : Os} (entry : store.ht.Entry hash tf)
    (isMapped : tf.mLocation = some mapping)
    (returned : store.os.writeMapped env ⟨mapping, length, offset⟩ data = .ok os) :
    MappedFile granted hash { store with os } := by
  refine ⟨inv.wf, fun entry' isMapped' => inv.located entry' isMapped', ?_⟩
  intro tf' mapping' entry' isMapped'
  obtain rfl := entry'.unique entry
  obtain rfl := Option.some.inj (isMapped.symm.trans isMapped')
  obtain ⟨content, file, sized⟩ := inv.file entry isMapped
  rcases Os.writeMapped_cases returned with ⟨_, rfl⟩ | ⟨content', offset', _, _, _, file', _,
    spliced, _⟩
  · exact ⟨content, file, sized⟩
  · obtain rfl := Option.some.inj (file.symm.trans file')
    refine ⟨_, spliced, fun isGranted => ?_⟩
    rw [length_splice_take]
    exact sized isGranted

theorem generateTfile_cases {scratch newTfile : TfileDef} {name : Vector UInt8 nameLen}
    {code : Int}
    (returned : generateTfile env fuel store scratch path name = .ok (code, newTfile, after)) :
    after.os.files = store.os.files ∧
      (after.ht = store.ht ∨
        ∃ ht index, addHtable env.callocOk fuel store.ht newTfile = .ok (ht, some index) ∧
          after.ht = ht.setLocations index (some path) none) := by
  cases generateTfile_generates returned with
  | unopened refused => exact ⟨rfl, .inl rfl⟩
  | small read small => exact ⟨rfl, .inl rfl⟩
  | known read admitted searched => exact ⟨rfl, .inl rfl⟩
  | stored read admitted counts searched added => exact ⟨rfl, .inr ⟨_, _, added, rfl⟩⟩

theorem MappedFile.generated (inv : MappedFile granted hash store) {scratch newTfile : TfileDef}
    {name : Vector UInt8 nameLen} {code : Int}
    (returned : generateTfile env fuel store scratch path name = .ok (code, newTfile, after)) :
    MappedFile granted hash after := by
  obtain ⟨files, unchanged | ⟨ht, index, adds, isHt⟩⟩ := generateTfile_cases returned
  · exact inv.frame (unchanged ▸ inv.wf) (by rw [unchanged]) fun tf _ => by rw [files]
  · have kept := @MappedFile.add _ _ _ _ _ _ _ _ inv adds after.os files (some path)
    rwa [Option.elim_some, ← isHt] at kept

theorem MappedFile.addTfile (inv : MappedFile granted hash store)
    (returned : Grintorrent.addTfile callocOk fuel store.ht tdef = .ok (ht', place)) :
    MappedFile granted hash { store with ht := ht' } := by
  simp only [Grintorrent.addTfile, Result.bind_eq_ok] at returned
  obtain ⟨⟨added, index⟩, adds, rest⟩ := returned
  have kept := @MappedFile.add _ _ _ _ _ _ _ _ inv adds store.os rfl none
  cases index with
  | none =>
      cases rest
      exact kept
  | some index =>
      cases rest
      exact kept

theorem MappedFile.elsewhere (inv : MappedFile granted hash store) (different : hash ≠ other)
    (attached : Attached store.ht other after.ht) (kept : FileKept hash store after) :
    MappedFile granted hash after :=
  inv.frame (attached.wf inv.wf) (attached.others different) kept

/-- **One event** keeps the invariant. -/
theorem TfileStep.invariant (inv : MappedFile granted hash store)
    (step : TfileStep granted hash store after) : MappedFile granted hash after := by
  obtain ⟨env, event, completes, concerns, grants⟩ := step
  cases event with
  | generated fuel scratch filePath name =>
      simp only [TfileEvent.next, Result.bind_eq_ok] at completes
      obtain ⟨⟨code, newTfile, store'⟩, returned, same⟩ := completes
      cases same
      exact inv.generated returned
  | added fuel tfileDef =>
      simp only [TfileEvent.next, Result.bind_eq_ok] at completes
      obtain ⟨⟨ht, place⟩, returned, same⟩ := completes
      cases same
      exact inv.addTfile returned
  | opened other chunk =>
      simp only [TfileEvent.next, Result.bind_eq_ok] at completes
      obtain ⟨⟨result, store'⟩, returned, same⟩ := completes
      cases same
      by_cases isHash : hash = other
      · subst isHash
        exact inv.opened returned fun isGranted => grants isGranted rfl
      · rcases concerns with isOther | kept
        · exact absurd isOther.symm isHash
        · exact inv.elsewhere isHash (openTfile_attached returned) kept
  | written other offset data =>
      simp only [TfileEvent.next, Result.bind_eq_ok] at completes
      obtain ⟨found, isFound, rest⟩ := completes
      cases found with
      | none => simp at rest
      | some found =>
          obtain ⟨index, tf⟩ := found
          simp only at rest
          split at rest
          next => simp at rest
          next mapping isMapped =>
              rw [Result.bind_eq_ok] at rest
              obtain ⟨os, written, same⟩ := rest
              cases same
              rcases concerns with rfl | kept
              · exact inv.written ⟨index, isFound⟩ isMapped written
              · exact inv.frame inv.wf rfl kept
  | saved other syncs unmaps =>
      simp only [TfileEvent.next, Result.bind_eq_ok] at completes
      obtain ⟨⟨code, store'⟩, returned, same⟩ := completes
      cases same
      by_cases isHash : hash = other
      · subst isHash
        exact inv.saved returned
      · refine inv.elsewhere isHash (saveTfile_attached returned) fun tf _ => ?_
        rcases saveTfile_cases returned with rfl | ⟨_, _, _, _, _, _, rfl⟩
        · rfl
        · rfl
  | verified other locals =>
      simp only [TfileEvent.next, Result.bind_eq_ok] at completes
      obtain ⟨⟨chunks, store'⟩, returned, same⟩ := completes
      cases same
      obtain ⟨files, table⟩ := verifyTfile_files returned
      exact inv.frame (table ▸ inv.wf) (by rw [table]) fun tf _ => by rw [files]
  | disturbed os =>
      cases completes
      rcases concerns with never | kept
      · exact never.elim
      · exact inv.frame inv.wf rfl kept

/-- **Every run** from an empty table keeps the invariant. -/
theorem mappedFile_run {os : Os}
    (run : ReflTransGen (TfileStep granted hash) ⟨initHtable, os⟩ store) :
    MappedFile granted hash store := by
  refine @invariant_run _ _ _ _ (MappedFile granted hash) (fun _ _ => TfileStep.invariant) run ?_
  have nothing : ∀ {tf}, ¬initHtable.Entry hash tf := by
    rintro tf ⟨index, found⟩
    simp [lookupTfile, Htable.search_init] at found
  exact ⟨Htable.init_wf, fun entry _ => absurd entry nothing,
    fun entry _ => absurd entry nothing⟩

/-! ## The two reports -/

/-- Whatever the local arrays hold, `verify_tfile` returns one bitmap before and after a
call of `save_tfile` that succeeds. -/
def SaveAgrees (env : Env) (store : Store) (hash : Digest) : Prop :=
  ∀ locals locals' syncs unmaps, ∃ chunks verified,
    verifyTfile env store hash locals = .ok (chunks, verified) ∧
    ∀ saved, saveTfile verified hash syncs unmaps = .ok (0, saved) →
      ∃ after, verifyTfile env saved hash locals' = .ok (chunks, after)

/-- The mapping of a file with this content can be read to the recorded size, the blocks of
the file can be counted, it has the recorded length at least, or the content that was
defined, and the bytes of the mapping and of the file do not differ in whether they match
as a whole, or all chunks match. -/
def ShowsAlike (env : Env) (os : Os) (tdef : TfileDef) (file : Path) (content : Bytes) : Prop :=
  let shown := os.shown env file tdef.size.toNat content
  tdef.size ≤ env.pageEnd content.length ∧ content.length < 2 ^ 44 ∧
    (tdef.size ≤ content.length ∨ env.md5 content = tdef.fHash) ∧
    ((env.md5 shown = tdef.fHash ↔ env.md5 content = tdef.fHash) ∨
      ∀ i, env.md5 (chunkOf shown i) = tdef.cHashes i)

/-- The mapping of an entry shows what its file contains.  Without a mapping, the blocks of
the file can be counted, and it has its recorded length at least, or the content that was
defined. -/
def SavesAlike (env : Env) (store : Store) (tf : Tfile) : Prop :=
  match tf.mLocation, tf.fLocation with
  | some mapping, _ => ∀ content, store.os.files mapping.file = some content →
      ShowsAlike env store.os tf.tdef mapping.file content
  | none, none => True
  | none, some path => ∀ content, store.os.files path = some content →
      content.length < 2 ^ 44 ∧
        (tf.tdef.size ≤ content.length ∨ env.md5 content = tf.tdef.fHash)

/-- With the recorded length only the blocks matter. -/
theorem showsAlike_of_length {os : Os} (length : tdef.size = content.length) :
    ShowsAlike env os tdef path content ↔ tdef.size < 2 ^ 44 := by
  have within := env.le_pageEnd content.length
  have shown : os.shown env path tdef.size.toNat content = content := by
    rw [length, Int.toNat_natCast, Os.shown_whole]
  simp only [ShowsAlike, shown, true_or, and_true]
  omega

theorem readReport_shown_iff {os : Os} {size : Nat} (sized : tdef.size = size) :
    (∀ locals, readReport env tdef content locals =
        .ok (verdict env tdef (os.shown env path size content))) ↔
      content.length < 2 ^ 44 ∧ (size ≤ content.length ∨ env.md5 content = tdef.fHash) ∧
        ((env.md5 (os.shown env path size content) = tdef.fHash ↔
            env.md5 content = tdef.fHash) ∨
          ∀ i, env.md5 (chunkOf (os.shown env path size content) i) = tdef.cHashes i) := by
  rcases Nat.lt_or_ge content.length (2 ^ 44) with counts | large
  swap
  · refine iff_of_false (fun same => ?_) fun alike => absurd alike.1 (Nat.not_lt.mpr large)
    have reported := same ⟨0, fun _ => 0⟩
    rw [readReport_overflow large] at reported
    simp at reported
  rw [and_iff_right counts]
  rcases Nat.lt_or_ge content.length size with short | long
  · by_cases whole : env.md5 content = tdef.fHash
    · have reported : ∀ locals, readReport env tdef content locals = .ok verifiedFile :=
        fun locals => by rw [readReport_eq counts sized, if_pos whole]
      have isVerdict := @verdict_eq_verifiedFile env tdef (os.shown env path size content)
      simp only [reported, Except.ok.injEq, forall_const, whole, or_true, true_and, iff_true,
        ← isVerdict]
      exact eq_comm
    · refine iff_of_false (fun same => ?_) fun alike => ?_
      · have independent := ((@readReport_independent_iff env size tdef content sized).mp
          ⟨_, same⟩).2
        exact independent.elim (Nat.not_le.mpr short) whole
      · exact alike.1.elim (Nat.not_le.mpr short) whole
  · -- The mapping shows the beginning of the file.
    have small : size < 2 ^ 44 := Nat.lt_of_le_of_lt long counts
    have shown : os.shown env path size content = resize size content := by
      rw [Os.shown, List.take_append_of_le_length long, resize, Nat.sub_eq_zero_of_le long,
        List.replicate_zero, List.append_nil]
    have resized := @readReport_resized_iff env size tdef content sized
    simp only [readReport_verdict sized (length_resize size content) small, ResizedAlike,
      if_neg (Nat.not_lt.mpr long), Nat.not_le.mpr small, false_or, and_iff_right counts]
      at resized
    rw [shown, and_iff_right (.inl long), ← resized]
    exact forall_congr' fun _ => eq_comm

theorem saveAgrees_mapped {mapping : Mapping} (inv : MappedFile granted hash store)
    (entry : store.ht.Entry hash tf) (isMapped : tf.mLocation = some mapping)
    (positive : 0 < tf.tdef.size) (file : store.os.files mapping.file = some content)
    (opens : env.openOk store.os.openFds mapping.file = true) :
    SaveAgrees env store hash ↔ ShowsAlike env store.os tf.tdef mapping.file content := by
  have located := inv.located entry isMapped
  obtain ⟨index, found⟩ := entry
  obtain ⟨size, sized⟩ := Int.eq_ofNat_of_zero_le positive.le
  by_cases page : tf.tdef.size ≤ env.pageEnd content.length
  swap
  · refine iff_of_false (fun agrees => ?_) fun alike => page alike.1
    obtain ⟨chunks, verified, returned, _⟩ :=
      agrees ⟨0, fun _ => 0⟩ ⟨0, fun _ => 0⟩ true true
    obtain ⟨_, file', _, inside⟩ := verifyTfile_mapped_page returned found isMapped
    cases file.symm.trans file'
    exact page inside
  have before : ∀ locals, verifyTfile env store hash locals =
      .ok (verdict env tf.tdef (store.os.shown env mapping.file size content), store) :=
    fun locals => verifyTfile_shown found isMapped file sized (by omega)
  have isSaved : saveTfile store hash true true =
      .ok (0, { store with ht := store.ht.setLocations index tf.fLocation none }) := by
    simp only [saveTfile, found, Result.ok_bind, isMapped, Bool.and_self, if_true]
  have after := fun locals => @verifyTfile_opened env
    { store with ht := store.ht.setLocations index tf.fLocation none } hash index
    { tf with mLocation := none } mapping.file content locals
    (lookupTfile_setLocations found tf.fLocation none) rfl located file opens
  have alike : ShowsAlike env store.os tf.tdef mapping.file content ↔
      ∀ locals, readReport env tf.tdef content locals =
        .ok (verdict env tf.tdef (store.os.shown env mapping.file size content)) := by
    rw [readReport_shown_iff sized, ShowsAlike, and_iff_right page, sized, Int.toNat_natCast,
      Int.ofNat_le]
  rw [alike]
  constructor
  · intro agrees locals
    obtain ⟨chunks, verified, returned, again⟩ := agrees locals locals true true
    rw [before] at returned
    cases returned
    obtain ⟨left, reported⟩ := again _ isSaved
    rw [after, Result.bind_eq_ok] at reported
    obtain ⟨chunks, read, same⟩ := reported
    cases same
    exact read
  · intro same locals locals' syncs unmaps
    refine ⟨_, _, before locals, fun saved succeeds => ?_⟩
    have flags : syncs = true ∧ unmaps = true := by
      by_contra fails
      rw [← Bool.and_eq_true, Bool.not_eq_true] at fails
      simp [saveTfile, found, isMapped, fails] at succeeds
    rw [flags.1, flags.2, isSaved] at succeeds
    cases succeeds
    exact ⟨_, by rw [after, same, Result.ok_bind]⟩

section Unmapped

variable {index : Nat} (found : lookupTfile store.ht hash = .ok (some (index, tf)))
  (notMapped : tf.mLocation = none)

include found notMapped

theorem saveTfile_unmapped (table : after.ht = store.ht) (syncs unmaps : Bool) :
    saveTfile after hash syncs unmaps = .ok (0, after) := by
  simp only [saveTfile, table, found, Result.ok_bind, notMapped]

variable (located : tf.fLocation = some path)
  (opens : ∀ descriptors ≤ store.os.openFds + 1, env.openOk descriptors path = true)

include located opens

theorem verifyTfile_located (kept : after = store ∨ after = store.leak)
    (locals : VerifyLocals) :
    (verifyTfile env after hash locals).map Prod.fst =
      pathReport env tf.tdef (store.os.files path) locals := by
  have few := (openFds_of_leak kept).2
  have table : after.ht = store.ht := by
    rcases kept with rfl | rfl <;> rfl
  have files : after.os.files = store.os.files := by
    rcases kept with rfl | rfl <;> rfl
  rw [verifyTfile_path (table ▸ found) notMapped located, if_pos (opens _ few), files]

theorem saveAgrees_unmapped :
    SaveAgrees env store hash ↔
      ∃ chunks, ∀ locals,
        pathReport env tf.tdef (store.os.files path) locals = .ok chunks := by
  have saves : ∀ {state : Store}, state = store ∨ state = store.leak → ∀ syncs unmaps,
      saveTfile state hash syncs unmaps = .ok (0, state) := by
    intro state kept
    apply saveTfile_unmapped found notMapped
    rcases kept with rfl | rfl <;> rfl
  constructor
  · intro agrees
    have pairs : ∀ locals locals', ∃ chunks,
        pathReport env tf.tdef (store.os.files path) locals = .ok chunks ∧
          pathReport env tf.tdef (store.os.files path) locals' = .ok chunks := by
      intro locals locals'
      obtain ⟨chunks, verified, returned, again⟩ := agrees locals locals' true true
      have kept := verifyTfile_store returned
      obtain ⟨after, returned'⟩ := again _ (saves kept true true)
      refine ⟨chunks, ?_, ?_⟩
      · rw [← verifyTfile_located found notMapped located opens (.inl rfl), returned]
        rfl
      · rw [← verifyTfile_located found notMapped located opens kept, returned']
        rfl
    obtain ⟨chunks, same, _⟩ := pairs ⟨0, fun _ => 0⟩ ⟨0, fun _ => 0⟩
    refine ⟨chunks, fun locals => ?_⟩
    obtain ⟨chunks', same', reported⟩ := pairs ⟨0, fun _ => 0⟩ locals
    rw [same] at same'
    rw [reported, Except.ok.inj same']
  · rintro ⟨chunks, same⟩ locals locals' syncs unmaps
    have returns : ∀ (state : Store) (locals : VerifyLocals),
        state = store ∨ state = store.leak →
        ∃ after, verifyTfile env state hash locals = .ok (chunks, after) := by
      intro state locals kept
      have report := verifyTfile_located found notMapped located opens kept locals
      rw [same] at report
      cases returned : verifyTfile env state hash locals with
      | error stop => simp [returned, Except.map] at report
      | ok result =>
          rw [returned] at report
          obtain ⟨chunks', after⟩ := result
          cases report
          exact ⟨after, rfl⟩
    obtain ⟨verified, returned⟩ := returns store locals (.inl rfl)
    have kept := verifyTfile_store returned
    refine ⟨chunks, verified, returned, fun saved succeeds => ?_⟩
    rw [saves kept] at succeeds
    cases succeeds
    exact returns verified locals' kept

end Unmapped

/-- What the two branches of `verify_tfile` need to agree, for any entry of positive size
in a store with the invariant. -/
theorem saveAgrees_iff (inv : MappedFile granted hash store) (entry : store.ht.Entry hash tf)
    (positive : 0 < tf.tdef.size)
    (opens : ∀ descriptors ≤ store.os.openFds + 1, ∀ path, tf.fLocation = some path →
      env.openOk descriptors path = true) :
    SaveAgrees env store hash ↔ SavesAlike env store tf := by
  unfold SavesAlike
  cases isMapped : tf.mLocation with
  | some mapping =>
      obtain ⟨content, file, _⟩ := inv.file entry isMapped
      have located := inv.located entry isMapped
      simp only [file, Option.some.injEq, forall_eq']
      exact saveAgrees_mapped inv entry isMapped positive file
        (opens _ (Nat.le_succ _) _ located)
  | none =>
      cases located : tf.fLocation with
      | none =>
          refine iff_of_true ?_ trivial
          obtain ⟨index, found⟩ := entry
          intro locals locals' syncs unmaps
          refine ⟨_, _, verifyTfile_unlocated found isMapped located, fun saved succeeds => ?_⟩
          rw [saveTfile_unmapped found isMapped rfl syncs unmaps] at succeeds
          cases succeeds
          exact ⟨_, verifyTfile_unlocated found isMapped located⟩
      | some path =>
          obtain ⟨index, found⟩ := entry
          rw [saveAgrees_unmapped found isMapped located fun descriptors few =>
            opens descriptors few path located]
          obtain ⟨size, sized⟩ := Int.eq_ofNat_of_zero_le positive.le
          cases file : store.os.files path with
          | none => exact iff_of_true ⟨unverifiedFile, fun _ => rfl⟩ (by simp [file])
          | some content =>
              have independent := @readReport_independent_iff env size tf.tdef content sized
              simp only [pathReport, independent, sized, file, Option.some.injEq, forall_eq',
                Int.ofNat_le]

/-- **Before and after `save_tfile`.**  In every run of the calls in which no other entry or
process touches the file of a hash, `verify_tfile` returns one bitmap before and after a
`save_tfile` that succeeds, exactly if the mapping shows what the file contains and the
blocks of the file can be counted.  Where no `ftruncate` of the file was refused, that is a
bound on the recorded size of a mapped entry. -/
theorem save_agrees_run_iff {os : Os}
    (run : ReflTransGen (TfileStep granted hash) ⟨initHtable, os⟩ store)
    (entry : store.ht.Entry hash tf) (positive : 0 < tf.tdef.size)
    (opens : ∀ descriptors ≤ store.os.openFds + 1, ∀ path, tf.fLocation = some path →
      env.openOk descriptors path = true) :
    (SaveAgrees env store hash ↔ SavesAlike env store tf) ∧
      (granted → tf.mLocation ≠ none → (SavesAlike env store tf ↔ tf.tdef.size < 2 ^ 44)) := by
  have inv := mappedFile_run run
  refine ⟨saveAgrees_iff inv entry positive opens, fun isGranted mapped => ?_⟩
  obtain ⟨mapping, isMapped⟩ := Option.ne_none_iff_exists'.mp mapped
  obtain ⟨content, file, length⟩ := inv.file entry isMapped
  simp only [SavesAlike, isMapped, file, Option.some.injEq, forall_eq',
    showsAlike_of_length (length isGranted)]

theorem exists_mapped_run (nonzero : tdef.fHash ≠ 0) (positive : 0 < tdef.size)
    (named : tdef.namePath ≠ []) :
    ∃ store tf mapping,
      ReflTransGen (TfileStep True tdef.fHash) ⟨initHtable, emptyOs⟩ store ∧
      store.ht.Entry tdef.fHash tf ∧ tf.tdef = tdef ∧ tf.mLocation = some mapping ∧
      mapping.file = tdef.namePath := by
  have found := lookupTfile_setLocations (lookupTfile_first nonzero) none none
  set ht := (initHtable.fill (homeIndex startingCapacity (words tdef.fHash))
    tdef).setLocations (homeIndex startingCapacity (words tdef.fHash)) none none
  have adds : (TfileEvent.added 1 tdef).next sampleEnv ⟨initHtable, emptyOs⟩ =
      .ok ⟨ht, emptyOs⟩ := by
    simp only [TfileEvent.next, addTfile, addHtable_init, Result.ok_bind]
    rfl
  have mapped := @mapTfile_success sampleEnv ⟨ht, emptyOs⟩ ⟨tdef, none, none⟩
    (homeIndex startingCapacity (words tdef.fHash)) rfl (sampleEnv_creates _ named) positive rfl
  have fits : ChunkFits tdef.size 0 := by simp [ChunkFits]
  have opened := @openTfile_unmapped sampleEnv ⟨ht, emptyOs⟩ tdef.fHash 0
    (homeIndex startingCapacity (words tdef.fHash)) ⟨tdef, none, none⟩ (by decide) found rfl
  rw [mapped] at opened
  simp only [locateChunk, if_pos fits, Result.ok_bind] at opened
  obtain ⟨mapping, result, after, isFile, table, opened⟩ : ∃ (mapping : Mapping)
      (result : Option (Location × Int)) (after : Store), mapping.file = tdef.namePath ∧
      after.ht = ht.setLocations (homeIndex startingCapacity (words tdef.fHash))
        (some tdef.namePath) (some mapping) ∧
      openTfile sampleEnv ⟨ht, emptyOs⟩ tdef.fHash 0 = .ok (result, after) :=
    ⟨_, _, _, rfl, rfl, opened⟩
  have opens : (TfileEvent.opened tdef.fHash 0).next sampleEnv ⟨ht, emptyOs⟩ = .ok after := by
    rw [TfileEvent.next, opened, Result.ok_bind]
  have entry := lookupTfile_setLocations found (some tdef.namePath) (some mapping)
  rw [← table] at entry
  exact ⟨after, _, mapping,
    .tail (.tail .refl ⟨sampleEnv, _, adds, .inr fun _ _ => rfl, fun _ => trivial⟩)
      ⟨sampleEnv, _, opens, .inl rfl, fun _ _ _ _ => rfl⟩, ⟨_, entry⟩, rfl, rfl, isFile⟩

/-- A definition whose blocks can be counted. -/
theorem save_agrees_run_sample :
    ∃ store tf, ReflTransGen (TfileStep True heldDef.fHash) ⟨initHtable, emptyOs⟩ store ∧
      store.ht.Entry heldDef.fHash tf ∧ tf.mLocation ≠ none ∧
      SaveAgrees sampleEnv store heldDef.fHash := by
  have positive : 0 < heldDef.size := by
    rw [heldDef_size]
    decide
  obtain ⟨store, tf, mapping, run, entry, same, isMapped, isFile⟩ :=
    exists_mapped_run heldDef_ne_zero positive heldDef_named
  have mapped : tf.mLocation ≠ none := by simp [isMapped]
  have located := (mappedFile_run run).located entry isMapped
  have opens : ∀ descriptors ≤ store.os.openFds + 1, ∀ path, tf.fLocation = some path →
      sampleEnv.openOk descriptors path = true := by
    intro descriptors _ path isPath
    rw [located, Option.some.injEq, isFile] at isPath
    exact sampleEnv_opens _ (isPath ▸ heldDef_named)
  obtain ⟨agrees, bound⟩ := save_agrees_run_iff run entry (same ▸ positive) opens
  refine ⟨store, tf, run, entry, mapped, agrees.mpr ((bound trivial mapped).mpr ?_)⟩
  rw [same, heldDef_size]
  decide

/-- A definition of sixteen tebibytes. -/
def hugeDef : TfileDef := { sampleDef with size := 2 ^ 44 }

/-- Its blocks are too many for the counter of `md5_hash`, which the digest of the mapping
does without. -/
theorem save_agrees_huge_fails :
    ∃ store tf, ReflTransGen (TfileStep True hugeDef.fHash) ⟨initHtable, emptyOs⟩ store ∧
      store.ht.Entry hugeDef.fHash tf ∧ tf.tdef = hugeDef ∧ hugeDef.namePath = samplePath ∧
      (∀ descriptors, sampleEnv.openOk descriptors samplePath = true) ∧
      ¬SaveAgrees sampleEnv store hugeDef.fHash := by
  have positive : 0 < hugeDef.size := by decide
  have nonzero : hugeDef.fHash ≠ 0 := by decide
  have isName : hugeDef.namePath = samplePath := by rfl
  have opens : ∀ descriptors, sampleEnv.openOk descriptors samplePath = true :=
    fun descriptors => sampleEnv_opens descriptors (by decide)
  obtain ⟨store, tf, mapping, run, entry, same, isMapped, isFile⟩ :=
    exists_mapped_run nonzero positive (isName ▸ by decide)
  refine ⟨store, tf, run, entry, same, isName, opens, fun agrees => ?_⟩
  have inv := mappedFile_run run
  obtain ⟨content, file, length⟩ := inv.file entry isMapped
  have counts := (saveAgrees_mapped inv entry isMapped (same ▸ positive) file
    (isFile ▸ isName ▸ opens _)).mp agrees
  rw [showsAlike_of_length (length trivial), same] at counts
  exact absurd counts (by decide)

end Grintorrent
