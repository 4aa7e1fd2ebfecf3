import Grintorrent.Client.Joining
import Grintorrent.Client.Seeding
import Grintorrent.Ui.Selection

/-!
# From joining to the file

A client joins another, reads its snapshot, and its user enters the name of a file that the
other lists.  The definition comes over the wire, the interface finds it by its name, and
`download_file` obtains the chunks from a peer that has the file.  Here the models of the
parts are put together, from `generate_tfile` at one client to the bytes at another.
-/

namespace Grintorrent

open Lib

/-- Definitions that are added do not change the entries, and the first of a hash becomes its
entry. -/
theorem TableMap.foldl_add (listed : List TfileDef) (map : TableMap) (hash : Digest) :
    (listed.map TableOp.add).foldl TableMap.step map hash =
      (map hash).or ((listed.find? fun tdef => tdef.fHash = hash).map
        fun tdef => ⟨tdef, none, none⟩) := by
  induction listed generalizing map with
  | nil => simp
  | cons tdef listed ih =>
      rw [List.map_cons, List.foldl_cons, ih, List.find?_cons]
      by_cases same : tdef.fHash = hash
      · subst same
        cases found : map tdef.fHash with
        | none => simp [TableMap.step, found]
        | some slot => simp [TableMap.step, found]
      · have other : hash ≠ tdef.fHash := fun equal => same equal.symm
        have unchanged : map.step (.add tdef) hash = map hash := by
          simp only [TableMap.step]
          split
          · rfl
          · rw [Function.update_of_ne other]
        rw [unchanged]
        simp [same]

theorem CalmRun.lookup_new {callocOk : Nat → Bool} {own : List TableOp} {listed : List TfileDef}
    {ht : Htable} {tdef : TfileDef} (run : CalmRun callocOk (own ++ listed.map .add) ht)
    (fresh : firstAdded own tdef.fHash = none)
    (found : (listed.find? fun other => other.fHash = tdef.fHash) = some tdef) :
    ∃ index, lookupTfile ht tdef.fHash = .ok (some (index, ⟨tdef, none, none⟩)) := by
  have refines := run.refines
  have unknown : TableMap.ofCalls own tdef.fHash = none := by
    rw [← TableMap.ofCalls_tdef, Option.map_eq_none_iff] at fresh
    exact fresh
  have entry : TableMap.ofCalls (own ++ listed.map .add) tdef.fHash =
      some ⟨tdef, none, none⟩ := by
    rw [TableMap.ofCalls, List.foldl_append, TableMap.foldl_add, ← TableMap.ofCalls, unknown,
      found]
    rfl
  obtain ⟨nonzero, index, holds⟩ := refines.stored entry
  refine ⟨index, ?_⟩
  rw [lookupTfile, refines.wf.search_of_holds holds nonzero, Result.ok_bind]
  simp only [holds.1]

/-- A snapshot of a client's table, as the messages that carry it. -/
structure Snapshot where
  calls : List TableOp
  callocOk : Nat → Bool
  sender : Htable
  listed : List TfileDef
  arrivals : List Arrival

/-- The worker of a client has read the snapshot: the other client has listed its table and
sent the listing, and its definitions have room in the table. -/
structure Snapshot.Read (snapshot : Snapshot) (env : Env) (fdData : ClientServer)
    (own : List TableOp) (store : Store) (run : WorkerRun) : Prop where
  senderRun : CalmRun snapshot.callocOk snapshot.calls snapshot.sender
  returned : listTfiles snapshot.sender = .ok snapshot.listed
  sizes : ∀ tdef ∈ snapshot.listed, tdef.size < 2 ^ 63
  carrying : Carrying snapshot.listed snapshot.arrivals
  ownRun : CalmRun env.callocOk own store.ht
  room : 2 * (store.ht.size + snapshot.listed.length) ≤ store.ht.capacity + 2
  calm : ∀ arrival ∈ snapshot.arrivals, arrival.LeavesTable
  read : ∃ codes stream peers dataRead,
    sendAll (snapshot.arrivals.map Arrival.transfer) [] = .ok (codes, stream) ∧
      dataRead.length = messageSize ∧
      readWorker env fdData (snapshot.arrivals.map Arrival.round) (store, peers) dataRead
        stream = .ok run

variable {env : Env} {fdData : ClientServer} {own : List TableOp} {store receiver : Store}
variable {run : WorkerRun} {snapshot : Snapshot} {tdef : TfileDef}

theorem Snapshot.Read.finalRun (read : snapshot.Read env fdData own store run) :
    CalmRun env.callocOk (own ++ snapshot.listed.map .add) run.store.ht := by
  obtain ⟨codes, stream, peers, dataRead, sent, buffer, worked⟩ := read.read
  exact (readWorker_snapshot read.senderRun read.returned read.sizes read.carrying sent
    read.ownRun read.room read.calm buffer worked).1

/-- What the client finds afterwards, it or the sender found before. -/
theorem Snapshot.Read.finds_of (read : snapshot.Read env fdData own store run)
    (found : run.store.ht.Finds tdef) : store.ht.Finds tdef ∨ snapshot.sender.Finds tdef := by
  rw [read.finalRun.finds, firstAdded_append, Option.or_eq_some_iff,
    find_listed read.senderRun read.returned] at found
  rcases found with before | ⟨_, sent, _⟩
  · exact .inl ((read.ownRun.finds tdef).mpr before)
  · exact .inr sent

/-- The definition is the one of the snapshot, new to the client, and has a name to ask for
it by, which no other definition has. -/
structure Snapshot.Offers (snapshot : Snapshot) (store : Store) (tdef : TfileDef) : Prop where
  sent : snapshot.sender.Finds tdef
  positive : 0 < tdef.size
  fresh : ∀ held, store.ht.Finds held → held.fHash ≠ tdef.fHash
  named : tdef.namePath ≠ []
  command : tdef.namePath ∉ quitCommands
  unique : ∀ other, store.ht.Finds other ∨ snapshot.sender.Finds other →
    other.namePath = tdef.namePath → other = tdef

/-- The client has an entry of the definition, and the interface takes its name for it. -/
theorem Snapshot.Read.selects (read : snapshot.Read env fdData own store run)
    (offers : snapshot.Offers store tdef) (table : receiver.ht = run.store.ht) :
    (∃ index, lookupTfile receiver.ht tdef.fHash = .ok (some (index, ⟨tdef, none, none⟩))) ∧
      (∃ listed, listTfiles receiver.ht = .ok listed ∧ tdef ∈ listed) ∧
      selectTfile receiver.ht tdef.namePath = .ok (some tdef) := by
  have finalRun := read.finalRun
  have found := (find_listed read.senderRun read.returned).mpr ⟨offers.sent, offers.positive⟩
  have fresh : firstAdded own tdef.fHash = none := by
    rw [Option.eq_none_iff_forall_ne_some]
    intro held first
    have isHash := Defs.fHash_of_firstAdded first
    rw [← isHash] at first
    exact offers.fresh held ((read.ownRun.finds held).mpr first) isHash
  obtain ⟨listed, lists, members⟩ := finalRun.listTfiles
  have member : tdef ∈ listed := by
    rw [members, firstAdded_append, fresh, Option.none_or, found]
    exact ⟨rfl, offers.positive⟩
  rw [table]
  refine ⟨finalRun.lookup_new fresh found, ⟨listed, lists, member⟩, ?_⟩
  obtain ⟨first, isFirst⟩ : ∃ first,
      listed.find? (fun other => other.namePath = tdef.namePath) = some first := by
    rw [← Option.isSome_iff_exists, List.find?_isSome]
    exact ⟨tdef, member, by simp⟩
  have same : first = tdef := by
    have isFound := ((members first).mp (List.mem_of_find?_eq_some isFirst)).1
    rw [← finalRun.finds] at isFound
    exact offers.unique first (read.finds_of isFound) (by simpa using List.find?_some isFirst)
  rw [selectTfile, lists, Result.ok_bind, isFirst, same]

/-- **A client that joins obtains the file.**  A definition was generated from a file, and a
client that knows it is joined by one to which it is new, and to whose user its name is no
command and the name of no other definition.  When the worker of that client has read the
snapshot, the interface lists the name of the file, and entering it starts the download of this
definition.  If a peer that has the complete file is listed and its answers are handled before
the next round, all messages are sound, the chunks fit the buffer, the socket is opened, and
the file can be opened, mapped and if need be created, the download returns after at most one
round of requests, and the file of that name is the original unless digests collide; what there
was of it before can be anything of the recorded length. -/
theorem join_obtains {maker : Env} {fuel most : Nat} {origin stored : Store} {scratch : TfileDef}
    {path : Path} {name : Vector UInt8 nameLen} {original : Bytes}
    {tempPort : BitVec 16} {padding : Vector UInt8 3} {first second : DownloadRound}
    {rounds : List DownloadRound} {seeder : Seeder} {fd : Fd}
    (generated : generateTfile maker fuel origin scratch path name = .ok (0, tdef, stored))
    (file : origin.os.files path = some original) (sameMd5 : maker.md5 = env.md5)
    (read : snapshot.Read env fdData own store run) (offers : snapshot.Offers store tdef)
    (table : receiver.ht = run.store.ht)
    (partly : ∀ bytes, receiver.os.files tdef.namePath = some bytes →
      bytes.length = original.length)
    (opens : ∀ descriptors ≤ receiver.os.openFds + 1 + most,
      env.createOk descriptors tdef.namePath = true)
    (maps : env.mmapOk original.length = true)
    (creates : Creates env tdef.namePath original.length (receiver.os.files tdef.namePath))
    (fits : ∀ i, ChunkPayload.sizeOf + chunkLen original.length i ≤ messageSize)
    (sound : ∀ round ∈ first :: second :: rounds,
      round.Sound tdef.fHash original.length tempPort)
    (brings : first.AtMost tdef.fHash tempPort most)
    (holds : seeder.Holds tdef original tempPort)
    (seeded : first.Seeded tdef.fHash tempPort seeder padding fd) (locals : VerifyLocals)
    (syncs unmaps : Bool) :
    (∃ names, uiListNetworkFiles receiver.ht = .ok names ∧ tdef.namePath ∈ names) ∧
      uiInputHandler env receiver locals (some tdef.namePath) =
        .ok ([.display "Starting download...", .startDownload tdef.fHash], receiver) ∧
      ∃ result, downloadFile env tdef.fHash (some tempPort) (first :: second :: rounds) syncs
          unmaps receiver = .ok result ∧
        result.requests.length ≤ 1 ∧
        ∃ bytes, result.store.os.files tdef.namePath = some bytes ∧
          (Distinguished env bytes original → bytes = original) := by
  obtain ⟨admitted, counts, definition⟩ := definitionOf_generated generated file
  have defined := definition.trans (definitionOf_congr sameMd5 name original)
  have size : tdef.size = original.length := by
    rw [defined]
    rfl
  obtain ⟨⟨index, found⟩, ⟨listed, lists, member⟩, selected⟩ := read.selects offers table
  have copy : Copy receiver tdef ⟨tdef, none, none⟩ (receiver.os.files tdef.namePath) := by
    refine ⟨⟨index, found⟩, rfl, rfl, fun present => ?_, by simp⟩
    rw [size, partly _ present]
  refine ⟨mem_uiListNetworkFiles lists member, ?_, ?_⟩
  · rw [handler_of_select offers.named offers.command selected, actOn,
      verifyTfile_unlocated found rfl rfl]
    rfl
  · have serviceable : Serviceable env tdef.namePath tdef original.length
        (receiver.os.openFds + 1 + most) :=
      ⟨⟨opens, maps⟩, size, Nat.lt_of_lt_of_le (by decide) admitted, counts⟩
    exact copy.downloadFile_seeds serviceable creates (Nat.le_refl _) defined admitted fits sound
      brings holds seeded syncs unmaps

theorem firstAdded_single {other : TfileDef} :
    firstAdded [.add tdef] other.fHash = some other ↔ other = tdef := by
  constructor
  · intro first
    by_cases same : tdef.fHash = other.fHash
    · simp only [firstAdded, List.findSome?_cons, if_pos same, Option.some.injEq] at first
      exact first.symm
    · simp [firstAdded, same] at first
  · rintro rfl
    simp [firstAdded]

theorem listTfiles_joined (nonzero : tdef.fHash ≠ 0) (positive : 0 < tdef.size) :
    listTfiles (joinedTable tdef) = .ok [tdef] := by
  have run : CalmRun (fun _ => true) [.add tdef] (joinedTable tdef) := .first nonzero
  obtain ⟨listed, returned, members⟩ := run.listTfiles
  have distinct := Htable.nodup_sized run.refines.wf run.refines.blank
  have isListed := returned
  rw [run.listTfiles_eq, Except.ok.injEq] at isListed
  rw [isListed] at distinct
  have perm : listed.Perm [tdef] := by
    rw [List.perm_ext_iff_of_nodup distinct (List.nodup_singleton _)]
    intro other
    rw [members, List.mem_singleton, firstAdded_single]
    refine ⟨fun listed => listed.1, ?_⟩
    rintro rfl
    exact ⟨rfl, positive⟩
  rw [returned, List.perm_singleton.mp perm]

/-- A client that knows the sample file only. -/
def heldSnapshot : Snapshot where
  calls := [.add heldDef]
  callocOk := fun _ => true
  sender := joinedTable heldDef
  listed := [heldDef]
  arrivals := [singleArrival heldDef]

theorem heldSnapshot_read :
    heldSnapshot.Read sampleEnv (.load 4 4) [] (sampleStore staleContent)
      (joinedRun heldDef staleContent) where
  senderRun := .first heldDef_ne_zero
  returned := listTfiles_joined heldDef_ne_zero (by rw [heldDef_size]; decide)
  sizes := by
    intro tdef member
    obtain rfl := List.mem_singleton.mp member
    rw [heldDef_size]
    decide
  carrying := singleArrivals_carrying [heldDef]
  ownRun := .init
  room := by decide
  calm := singleArrivals_calm [heldDef]
  read := by
    have worked := joinedRun_worked (by rw [heldDef_size]; decide)
      (by rw [heldDef_size]; decide) staleContent
    exact ⟨_, _, .init, _, sendAll_frames _ [], List.length_replicate,
      singleArrivals_read worked rfl⟩

theorem heldSnapshot_offers : heldSnapshot.Offers (sampleStore staleContent) heldDef := by
  have senderRun : CalmRun (fun _ => true) [.add heldDef] heldSnapshot.sender :=
    .first heldDef_ne_zero
  have nothing : ∀ other, ¬(sampleStore staleContent).ht.Finds other := by
    intro other found
    have first := (CalmRun.finds (@CalmRun.init fun _ => true) other).mp found
    simp [firstAdded] at first
  refine ⟨?_, by rw [heldDef_size]; decide, fun held found => absurd found (nothing held), ?_,
    ?_, ?_⟩
  · exact (senderRun.finds heldDef).mpr (firstAdded_single.mpr rfl)
  · rw [heldDef_namePath]
    decide
  · rw [heldDef_namePath]
    decide
  · rintro other (found | sent) _
    · exact absurd found (nothing other)
    · exact firstAdded_single.mp ((senderRun.finds other).mp sent)

/-- A new client with a stale copy of the sample file joins, and obtains the file. -/
theorem join_obtains_sample :
    ∃ result, downloadFile sampleEnv heldDef.fHash (some 9000) [sampleRound, sampleRound] true
        true (joinedRun heldDef staleContent).store = .ok result ∧
      result.requests.length ≤ 1 := by
  have partly : ∀ bytes, (joinedRun heldDef staleContent).store.os.files heldDef.namePath =
      some bytes → bytes.length = sampleContent.length := by
    intro bytes present
    rw [heldDef_namePath] at present
    obtain rfl := Option.some.inj ((sampleStore_file staleContent).symm.trans present)
    rw [length_staleContent, length_sampleContent]
  obtain ⟨_, _, result, returned, bound, _⟩ := join_obtains sampleServer_generated
    (sampleStore_file sampleContent) rfl heldSnapshot_read heldSnapshot_offers rfl partly
    (fun _ _ => sampleEnv_creates _ heldDef_named) rfl (fun _ => rfl) sampleContent_fits
    sampleRounds_pair (sampleRounds_atMost sampleRound (by simp)) sampleSeeder_holds
    (sampleRound_seeded (Vector.replicate 3 0)) ⟨0, heldDef.cHashes⟩ true true
  exact ⟨result, returned, bound⟩

end Grintorrent
