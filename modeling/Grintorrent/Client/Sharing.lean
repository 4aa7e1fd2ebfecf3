import Grintorrent.Client.Reading
import Grintorrent.Client.Stored
import Grintorrent.Lib.Runs

/-!
# What a client shares

A `TFILE_DEF` message is sent by a sharing worker, which was started with definitions of
its own: the one that `main` generated, one that was received, or the list of the table
when a connection was accepted.  Neither `main` nor `readWorker` looks at what
`generate_tfile` or `add_htable` returned, so a definition that the table refused is
shared like any other.

The calls of one thread are one step each, in any order with those of the others; a
sharing worker has `peers.lock` while it sends.
-/

namespace Grintorrent

open Lib Relation

/-- A client.  `listings` are the connections that `connectWorker` has added to the peer
list without having called `list_tfiles`, `snapshots` and `shares` the sharing workers
that have not started to send, and `sending` is what the one that has the lock has still
to send. -/
structure ClientState where
  store : Store
  peers : Peers
  listings : List Fd
  snapshots : List SendTfiles
  shares : List SendTfile
  sending : Option (List (Fd × TfileDef))

/-- What a client can do next. -/
inductive ClientEvent where
  /-- `main` connects to a peer. -/
  | connected (fd : Fd)
  /-- `connectWorker` as far as `add_peer`. -/
  | accepted (fd : Fd)
  /-- `connectWorker` from `list_tfiles` on. -/
  | listed (fd : Fd)
  /-- `main` with a file.  `scratch` is what `new_tfile` held before, and `fuel` are the
  nested steps granted to `add_htable`. -/
  | generated (fuel : Nat) (scratch : TfileDef) (filePath : Path) (name : Vector UInt8 nameLen)
  /-- `readWorker` with a message of this type in its buffer. -/
  | received (calls : Calls) (fdData : ClientServer) (type : UInt8) (dataRead : Bytes)
  /-- `download_file` from `save_tfile` on. -/
  | saved (hash : Digest) (syncs unmaps : Bool)
  /-- Anything that happens to the files: the copy of a `FILE_DATA` handler, a descriptor
  that `verify_tfile` leaves open, a program of the user. -/
  | disturbed (os : Os)
  /-- `share_tfiles_to_peer` takes the lock. -/
  | tfilesToPeer (data : SendTfiles)
  /-- `share_tfile_to_peers` takes the lock. -/
  | tfileToPeers (data : SendTfile)
  /-- The sharing worker that has the lock sends a definition. -/
  | sent (fd : Fd) (tdef : TfileDef)
  /-- It releases the lock. -/
  | finished

namespace ClientState

variable {env : Env} {client after : ClientState} {event : ClientEvent}

/-- A client before it does anything. -/
def init (os : Os) : ClientState where
  store := ⟨initHtable, os⟩
  peers := .init
  listings := []
  snapshots := []
  shares := []
  sending := none

/-- The event can happen next.  Adding a peer takes the lock as well. -/
def Possible (client : ClientState) : ClientEvent → Prop
  | .connected _ | .accepted _ => client.sending = none
  | .listed fd => fd ∈ client.listings
  | .tfilesToPeer data => client.sending = none ∧ data ∈ client.snapshots
  | .tfileToPeers data => client.sending = none ∧ data ∈ client.shares
  | .sent fd tdef => ∃ rest, client.sending = some ((fd, tdef) :: rest)
  | .finished => client.sending = some []
  | .generated .. | .received .. | .saved .. | .disturbed _ => True

/-- The client after the event, if its calls return. -/
def next (env : Env) (client : ClientState) : ClientEvent → Result ClientState
  | .connected fd => .ok { client with peers := client.peers.added fd }
  | .accepted fd =>
      .ok
        { client with
          peers := client.peers.added fd
          listings := fd :: client.listings }
  | .listed fd => do
      let tfileArr ← listTfiles client.store.ht
      .ok
        { client with
          listings := client.listings.erase fd
          snapshots := ⟨tfileArr, fd⟩ :: client.snapshots }
  | .generated fuel scratch filePath name => do
      let (_, newTfile, store) ← generateTfile env fuel client.store scratch filePath name
      .ok { client with store, shares := ⟨newTfile, noSenderPeer⟩ :: client.shares }
  | .received calls fdData type dataRead => do
      let handled ← handleMessage env calls client.store client.peers fdData type dataRead
      .ok
        { client with
          store := handled.store
          peers := handled.peers
          shares := handled.share.toList ++ client.shares }
  | .saved hash syncs unmaps => do
      let (_, store) ← saveTfile client.store hash syncs unmaps
      .ok { client with store }
  | .disturbed os => .ok { client with store := { client.store with os } }
  | .tfilesToPeer data =>
      .ok
        { client with
          snapshots := client.snapshots.erase data
          sending := some (data.tfileArr.map fun tdef => (data.peer, tdef)) }
  | .tfileToPeers data =>
      .ok
        { client with
          shares := client.shares.erase data
          sending := some ((client.peers.recipients data.sender).map fun fd =>
            (fd, data.tfile)) }
  | .sent _ _ => .ok { client with sending := client.sending.map List.tail }
  | .finished => .ok { client with sending := none }

/-- The client takes the step. -/
def Step (env : Env) (client after : ClientState) : Prop :=
  ∃ event, client.Possible event ∧ client.next env event = .ok after

/-- A definition that is received has a hash, under which the table holds no other one; a
file that is generated from can be read and is large enough, and its hash is new; and in
either case the array is not replaced. -/
def Sound (env : Env) (client : ClientState) : ClientEvent → Prop
  | .generated _ _ filePath _ =>
      client.store.ht.Stays env.callocOk ∧
      env.openOk client.store.os.openFds filePath = true ∧
      ∃ content, client.store.os.files filePath = some content ∧ 256 ≤ content.length ∧
        env.md5 content ≠ 0 ∧ ∀ tf, ¬client.store.ht.Entry (env.md5 content) tf
  | .received _ _ type dataRead =>
      type = tfileDef →
      client.store.ht.Stays env.callocOk ∧ (TfileDef.decode dataRead).fHash ≠ 0 ∧
        ∀ held, client.store.ht.Stored held →
          held.fHash = (TfileDef.decode dataRead).fHash → held = TfileDef.decode dataRead
  | _ => True

/-- The client takes a step that is sound. -/
def SoundStep (env : Env) (client after : ClientState) : Prop :=
  ∃ event, client.Possible event ∧ client.Sound env event ∧ client.next env event = .ok after

/-! ## The invariant -/

/-- The table holds every definition that a sharing worker has. -/
structure Truthful (client : ClientState) : Prop where
  regular : client.store.ht.Regular
  shares : ∀ {data}, data ∈ client.shares → client.store.ht.Stored data.tfile
  snapshots : ∀ {data}, data ∈ client.snapshots →
    ∀ tdef ∈ data.tfileArr, client.store.ht.Stored tdef
  sending : ∀ {messages}, client.sending = some messages →
    ∀ message ∈ messages, client.store.ht.Stored message.2

theorem truthful_init (os : Os) : (init os).Truthful where
  regular := Htable.regular_init
  shares := by simp [init]
  snapshots := by simp [init]
  sending := by simp [init]

theorem Truthful.store {store : Store} (truthful : client.Truthful)
    (keeps : client.store.ht.Keeps store.ht) : Truthful { client with store } where
  regular := keeps.regular
  shares member := keeps.stored (truthful.shares member)
  snapshots member tdef inList := keeps.stored (truthful.snapshots member tdef inList)
  sending isSending message inList := keeps.stored (truthful.sending isSending message inList)

/-- The peer list and the connections that have not been served do not matter. -/
theorem Truthful.peers (truthful : client.Truthful) (peers : Peers) (listings : List Fd) :
    Truthful { client with peers, listings } where
  regular := truthful.regular
  shares := truthful.shares
  snapshots := truthful.snapshots
  sending := truthful.sending

theorem Truthful.share {data : SendTfile} (truthful : client.Truthful)
    (isStored : client.store.ht.Stored data.tfile) :
    Truthful { client with shares := data :: client.shares } where
  regular := truthful.regular
  shares := by
    intro other member
    rcases List.mem_cons.mp member with new | old
    · rw [new]
      exact isStored
    · exact truthful.shares old
  snapshots := truthful.snapshots
  sending := truthful.sending

theorem fileDataCopy_attached {store stored : Store} {dataRead : Bytes} {locals : VerifyLocals}
    {copy : Option (Location × Bytes)}
    (returned : fileDataCopy env store dataRead locals = .ok (stored, copy)) :
    Attached store.ht (ChunkPayload.decode dataRead).fileHash stored.ht := by
  simp only [fileDataCopy, Result.bind_eq_ok] at returned
  obtain ⟨⟨chunks, verified⟩, isVerified, rest⟩ := returned
  rw [← (verifyTfile_files isVerified).2]
  simp only at rest
  split at rest
  next =>
      cases rest
      exact .unchanged
  next =>
      simp only [Result.bind_eq_ok] at rest
      obtain ⟨⟨pointed, opened⟩, isOpened, rest⟩ := rest
      cases pointed with
      | none =>
          simp only at rest
          split at rest
          next =>
              cases rest
              exact openTfile_attached isOpened
          next => simp at rest
      | some pointed =>
          cases rest
          exact openTfile_attached isOpened

theorem handleMessage_tfileDef {calls : Calls} {store : Store} {peers : Peers}
    {fdData : ClientServer} {dataRead : Bytes} {handled : Handled}
    (handles : handleMessage env calls store peers fdData tfileDef dataRead = .ok handled) :
    ∃ result, addHtable env.callocOk calls.fuel store.ht (TfileDef.decode dataRead) =
        .ok (handled.store.ht, result) ∧
      handled.peers = peers ∧ handled.share = some ⟨TfileDef.decode dataRead, fdData.serverFd⟩ := by
  simp only [handle_tfileDef, Result.bind_eq_ok] at handles
  obtain ⟨⟨ht, result⟩, added, rest⟩ := handles
  cases rest
  exact ⟨result, added, rfl, rfl⟩

theorem handleMessage_other {calls : Calls} {store : Store} {peers : Peers}
    {fdData : ClientServer} {type : UInt8} {dataRead : Bytes} {handled : Handled}
    (other : type ≠ tfileDef)
    (handles : handleMessage env calls store peers fdData type dataRead = .ok handled) :
    handled.share = none ∧ ∃ hash, Attached store.ht hash handled.store.ht := by
  unfold handleMessage at handles
  split at handles
  next =>
      split at handles
      next =>
          cases handles
          exact ⟨rfl, 0, .unchanged⟩
      next =>
          cases handles
          exact ⟨rfl, 0, .unchanged⟩
  next =>
      split at handles
      next =>
          simp only [Result.bind_eq_ok] at handles
          obtain ⟨⟨answer, answered⟩, isAnswered, rest⟩ := handles
          have attached := handleRequest_attached isAnswered
          cases answer with
          | chunk payload =>
              cases rest
              exact ⟨rfl, _, attached⟩
          | relay =>
              cases rest
              exact ⟨rfl, _, attached⟩
          | silent =>
              cases rest
              exact ⟨rfl, _, attached⟩
      next =>
          split at handles
          next =>
              simp only [Result.bind_eq_ok] at handles
              obtain ⟨⟨stored, copy⟩, isCopied, rest⟩ := handles
              cases rest
              exact ⟨rfl, _, fileDataCopy_attached isCopied⟩
          next =>
              cases handles
              exact ⟨rfl, 0, .unchanged⟩

theorem Truthful.generated {fuel : Nat} {scratch : TfileDef} {filePath : Path}
    {name : Vector UInt8 nameLen} (truthful : client.Truthful)
    (sound : client.Sound env (.generated fuel scratch filePath name))
    (completes : client.next env (.generated fuel scratch filePath name) = .ok after) :
    after.Truthful := by
  obtain ⟨stays, opens, content, file, admitted, nonzero, fresh⟩ := sound
  simp only [next, Result.bind_eq_ok] at completes
  obtain ⟨⟨code, newTfile, store⟩, generates, rest⟩ := completes
  cases rest
  have read := openRdonly_eq file opens
  cases generateTfile_generates generates with
  | unopened refused => simp [read] at refused
  | small read' small =>
      rw [read] at read'
      cases read'
      exact absurd admitted (Nat.not_le.mpr small)
  | known read' _ searched =>
      rw [read] at read'
      cases read'
      exact absurd (truthful.regular.search_fresh fresh searched) (by simp)
  | @stored content' ht index read' _ _ _ added =>
      rw [read] at read'
      cases read'
      have isHash : (definitionOf env name content).fHash ≠ 0 := nonzero
      have keeps := (truthful.regular.addHtable stays isHash added).1
      have entry := truthful.regular.addHtable_found stays isHash added
      have located := keeps.regular.attached (.attached (some filePath) none entry)
      have kept : client.store.ht.Keeps (ht.setLocations index (some filePath) none) :=
        ⟨located.regular, fun isStored => located.stored (keeps.stored isStored)⟩
      exact (truthful.store kept).share (located.stored ⟨_, ⟨index, entry⟩, rfl⟩)

theorem Truthful.received {calls : Calls} {fdData : ClientServer} {type : UInt8}
    {dataRead : Bytes} (truthful : client.Truthful)
    (sound : client.Sound env (.received calls fdData type dataRead))
    (completes : client.next env (.received calls fdData type dataRead) = .ok after) :
    after.Truthful := by
  simp only [next, Result.bind_eq_ok] at completes
  obtain ⟨handled, handles, rest⟩ := completes
  cases rest
  by_cases isDef : type = tfileDef
  · subst isDef
    obtain ⟨stays, nonzero, unique⟩ := sound rfl
    obtain ⟨result, added, _, share⟩ := handleMessage_tfileDef handles
    obtain ⟨keeps, isStored⟩ := truthful.regular.addHtable stays nonzero added
    rw [share]
    exact ((truthful.store keeps).peers handled.peers client.listings).share
      (isStored.mpr unique)
  · obtain ⟨noShare, hash, attached⟩ := handleMessage_other isDef handles
    rw [noShare]
    exact (truthful.store (truthful.regular.attached attached)).peers handled.peers
      client.listings

/-- **One sound step** keeps the client truthful. -/
theorem Truthful.step (truthful : client.Truthful) (possible : client.Possible event)
    (sound : client.Sound env event) (completes : client.next env event = .ok after) :
    after.Truthful := by
  cases event with
  | connected fd =>
      cases completes
      exact truthful.peers _ client.listings
  | accepted fd =>
      cases completes
      exact truthful.peers _ _
  | listed fd =>
      simp only [next, Result.bind_eq_ok] at completes
      obtain ⟨tfileArr, lists, rest⟩ := completes
      cases rest
      exact
        { truthful with
          snapshots := by
            intro data member
            rcases List.mem_cons.mp member with new | old
            · rw [new]
              exact fun tdef inList => truthful.regular.listTfiles lists inList
            · exact truthful.snapshots old }
  | generated fuel scratch filePath name => exact truthful.generated sound completes
  | received calls fdData type dataRead => exact truthful.received sound completes
  | saved hash syncs unmaps =>
      simp only [next, Result.bind_eq_ok] at completes
      obtain ⟨⟨code, store⟩, saves, rest⟩ := completes
      cases rest
      exact truthful.store (truthful.regular.attached (saveTfile_attached saves))
  | disturbed os =>
      cases completes
      exact truthful.store truthful.regular.keeps
  | tfilesToPeer data =>
      cases completes
      exact
        { truthful with
          snapshots := fun member => truthful.snapshots (List.mem_of_mem_erase member)
          sending := by
            rintro messages ⟨⟩ message inList
            obtain ⟨tdef, inArr, rfl⟩ := List.mem_map.mp inList
            exact truthful.snapshots possible.2 tdef inArr }
  | tfileToPeers data =>
      cases completes
      exact
        { truthful with
          shares := fun member => truthful.shares (List.mem_of_mem_erase member)
          sending := by
            rintro messages ⟨⟩ message inList
            obtain ⟨fd, _, rfl⟩ := List.mem_map.mp inList
            exact truthful.shares possible.2 }
  | sent fd tdef =>
      obtain ⟨rest, isSending⟩ := possible
      cases completes
      exact
        { truthful with
          sending := by
            intro messages remaining message inList
            simp only [isSending, Option.map_some, List.tail_cons, Option.some.injEq]
              at remaining
            exact truthful.sending isSending message
              (List.mem_cons_of_mem _ (remaining ▸ inList)) }
  | finished =>
      cases completes
      exact { truthful with sending := by simp }

theorem truthful_run {os : Os} (run : ReflTransGen (SoundStep env) (init os) client) :
    client.Truthful := by
  apply invariant_run _ run (truthful_init os)
  rintro client after truthful ⟨event, possible, sound, completes⟩
  exact truthful.step possible sound completes

/-- A definition without a hash, or whose hash has another one, is shared and not
stored. -/
theorem Truthful.received_iff {calls : Calls} {fdData : ClientServer} {dataRead : Bytes}
    (truthful : client.Truthful) (stays : client.store.ht.Stays env.callocOk)
    (completes : client.next env (.received calls fdData tfileDef dataRead) = .ok after) :
    (∀ data ∈ after.shares, after.store.ht.Stored data.tfile) ↔
      client.Sound env (.received calls fdData tfileDef dataRead) := by
  constructor
  · intro stored _
    simp only [next, Result.bind_eq_ok] at completes
    obtain ⟨handled, handles, rest⟩ := completes
    cases rest
    obtain ⟨result, added, _, share⟩ := handleMessage_tfileDef handles
    have isStored := stored ⟨TfileDef.decode dataRead, fdData.serverFd⟩ (by simp [share])
    have nonzero : (TfileDef.decode dataRead).fHash ≠ 0 :=
      fun zero => Htable.not_stored_zero zero isStored
    exact ⟨stays, nonzero, (truthful.regular.addHtable stays nonzero added).2.mp isStored⟩
  · intro sound data member
    exact (truthful.received sound completes).shares member

/-- **A client gossips what it stores, as long as its steps are sound**: in every run, a
definition that is sent is the one that the table holds at that time, and a message makes
the first exception exactly if it is not sound. -/
theorem sound_run_shares {os : Os} (run : ReflTransGen (SoundStep env) (init os) client) :
    (∀ fd tdef, client.Possible (.sent fd tdef) → client.store.ht.Stored tdef) ∧
      ∀ calls fdData dataRead after, client.store.ht.Stays env.callocOk →
        client.next env (.received calls fdData tfileDef dataRead) = .ok after →
        ((∀ data ∈ after.shares, after.store.ht.Stored data.tfile) ↔
          client.Sound env (.received calls fdData tfileDef dataRead)) := by
  have truthful := truthful_run run
  constructor
  · rintro fd tdef ⟨rest, isSending⟩
    exact truthful.sending isSending (fd, tdef) List.mem_cons_self
  · intro calls fdData dataRead after stays completes
    exact truthful.received_iff stays completes

/-- A definition as it is received, with this first letter of its name. -/
def letterBytes (letter : UInt8) : Bytes := letter :: List.replicate 183 1

/-- The definition in these bytes. -/
@[irreducible] def letterDef (letter : UInt8) : TfileDef := TfileDef.decode (letterBytes letter)

theorem letterDef_fHash (letter : UInt8) :
    (letterDef letter).fHash = 0x01010101010101010101010101010101 := by
  have bytes : slice 32 16 (letterBytes letter) = List.replicate 16 1 := rfl
  simp only [letterDef, TfileDef.decode, bytes]
  decide

theorem letterDef_ne_zero (letter : UInt8) : (letterDef letter).fHash ≠ 0 := by
  rw [letterDef_fHash]
  decide

theorem letterDef_injective {letter letter' : UInt8} (same : letterDef letter = letterDef letter') :
    letter = letter' := by
  have first : ∀ letter, (letterDef letter).name[0] = letter := by
    intro letter
    rw [letterDef, TfileDef.decode, Vector.getElem_ofFn]
    rfl
  rw [← first letter, same, first letter']

/-- It is received on descriptor 3. -/
def letterReceived (letter : UInt8) : ClientEvent :=
  .received sampleCalls (.load 3 3) tfileDef (letterBytes letter)

/-- The table with the first of them. -/
def letterTable (letter : UInt8) : Htable :=
  initHtable.fill (homeIndex startingCapacity (words (letterDef letter).fHash)) (letterDef letter)

theorem letterTable_entry (letter : UInt8) :
    lookupTfile (letterTable letter) (letterDef letter).fHash =
      .ok (some (homeIndex startingCapacity (words (letterDef letter).fHash),
        { Tfile.zero with tdef := letterDef letter })) :=
  lookupTfile_first (letterDef_ne_zero letter)

theorem letterTable_stored (letter : UInt8) : (letterTable letter).Stored (letterDef letter) :=
  ⟨_, ⟨_, letterTable_entry letter⟩, rfl⟩

theorem addHtable_letterTable (letter other : UInt8) :
    addHtable sampleEnv.callocOk 1 (letterTable letter) (letterDef other) =
      .ok (letterTable letter, none) := by
  have calm : ¬(letterTable letter).Grows := by
    change ¬256 < 1 * 2
    decide
  have sameHash : (letterDef other).fHash = (letterDef letter).fHash := by
    rw [letterDef_fHash, letterDef_fHash]
  obtain ⟨lookup, _, nonzero⟩ := lookupTfile_entry (letterTable_entry letter)
  have wf : (letterTable letter).WF :=
    Htable.init_wf.fill nonzero (Htable.probe_init (letterDef letter).fHash)
  have ended := wf.probe_of_key lookup (Tfile.key_eq_some.mpr ⟨rfl, nonzero⟩)
  simp only [addHtable, if_neg calm, Htable.insert, sameHash, ended]

/-- A client that has connected to a peer on descriptor 3 and accepted one on descriptor 4,
with this table and these workers. -/
def letterClient (ht : Htable) (shares : List SendTfile) : ClientState :=
  { init (sampleStore []).os with
    store := ⟨ht, (sampleStore []).os⟩
    peers := (Peers.init.added 3).added 4
    listings := [4]
    shares }

/-- The client before it has accepted the second one. -/
def letterConnected : ClientState :=
  { init (sampleStore []).os with peers := Peers.init.added 3 }

theorem letterClient_received {ht ht' : Htable} {result : Option Nat} {letter : UInt8}
    {shares : List SendTfile}
    (added : addHtable sampleEnv.callocOk 1 ht (letterDef letter) = .ok (ht', result)) :
    (letterClient ht shares).next sampleEnv (letterReceived letter) =
      .ok (letterClient ht' (⟨letterDef letter, 3⟩ :: shares)) := by
  rw [letterDef] at added
  simp only [letterReceived, next, handle_tfileDef, letterClient, sampleCalls, added,
    Result.ok_bind, letterDef]
  rfl

theorem letterClient_first (letter : UInt8) :
    (letterClient initHtable []).next sampleEnv (letterReceived letter) =
      .ok (letterClient (letterTable letter) [⟨letterDef letter, 3⟩]) :=
  letterClient_received (addHtable_init _ 0 _)

/-- The worker sends to the peer. -/
def letterSending (ht : Htable) (letter : UInt8) (shares : List SendTfile) : ClientState :=
  { letterClient ht shares with sending := some [(4, letterDef letter)] }

theorem letterClient_shares (ht : Htable) (letter : UInt8) (shares : List SendTfile) :
    (letterClient ht (⟨letterDef letter, 3⟩ :: shares)).next sampleEnv
        (.tfileToPeers ⟨letterDef letter, 3⟩) = .ok (letterSending ht letter shares) := by
  have recipients : Peers.recipients ((Peers.init.added 3).added 4) 3 = [4] := by decide
  simp only [next, letterClient, letterSending, List.erase_cons_head, recipients, List.map_cons,
    List.map_nil]

/-- A first definition is received and shared. -/
theorem sound_run_shares_first :
    (letterSending (letterTable 65) 65 []).store.ht.Stored (letterDef 65) := by
  have connected : SoundStep sampleEnv (init (sampleStore []).os) letterConnected :=
    ⟨.connected 3, rfl, trivial, rfl⟩
  have accepted : SoundStep sampleEnv letterConnected (letterClient initHtable []) :=
    ⟨.accepted 4, rfl, trivial, rfl⟩
  have received : SoundStep sampleEnv (letterClient initHtable [])
      (letterClient (letterTable 65) [⟨letterDef 65, 3⟩]) := by
    refine ⟨letterReceived 65, trivial, fun _ => ⟨?_, ?_, ?_⟩, letterClient_first 65⟩
    · intro grows
      exact absurd grows (by decide)
    · have nonzero := letterDef_ne_zero 65
      rwa [letterDef] at nonzero
    · rintro held ⟨tf, ⟨index, found⟩, _⟩
      simp [letterClient, lookupTfile, Htable.search_init] at found
  have shared : SoundStep sampleEnv (letterClient (letterTable 65) [⟨letterDef 65, 3⟩])
      (letterSending (letterTable 65) 65 []) :=
    ⟨.tfileToPeers ⟨letterDef 65, 3⟩, ⟨rfl, List.mem_cons_self⟩, trivial,
      letterClient_shares _ _ _⟩
  have run := (((ReflTransGen.single connected).tail accepted).tail received).tail shared
  exact (sound_run_shares run).1 4 (letterDef 65) ⟨[], rfl⟩

/-- A second definition under the same hash, with another name, is sent to the peer while
the table holds the first. -/
theorem second_definition_shared :
    ∃ client, ReflTransGen (Step sampleEnv) (init (sampleStore []).os) client ∧
      client.Possible (.sent 4 (letterDef 66)) ∧ ¬client.store.ht.Stored (letterDef 66) := by
  refine ⟨letterSending (letterTable 65) 66 [⟨letterDef 65, 3⟩], ?_, ⟨[], rfl⟩, ?_⟩
  · have connected : Step sampleEnv (init (sampleStore []).os) letterConnected :=
      ⟨.connected 3, rfl, rfl⟩
    have accepted : Step sampleEnv letterConnected (letterClient initHtable []) :=
      ⟨.accepted 4, rfl, rfl⟩
    have first : Step sampleEnv (letterClient initHtable [])
        (letterClient (letterTable 65) [⟨letterDef 65, 3⟩]) :=
      ⟨letterReceived 65, trivial, letterClient_first 65⟩
    have second : Step sampleEnv (letterClient (letterTable 65) [⟨letterDef 65, 3⟩])
        (letterClient (letterTable 65) [⟨letterDef 66, 3⟩, ⟨letterDef 65, 3⟩]) :=
      ⟨letterReceived 66, trivial, letterClient_received (addHtable_letterTable 65 66)⟩
    have shared : Step sampleEnv
        (letterClient (letterTable 65) [⟨letterDef 66, 3⟩, ⟨letterDef 65, 3⟩])
        (letterSending (letterTable 65) 66 [⟨letterDef 65, 3⟩]) :=
      ⟨.tfileToPeers ⟨letterDef 66, 3⟩, ⟨rfl, List.mem_cons_self⟩, letterClient_shares _ _ _⟩
    exact ((((ReflTransGen.single connected).tail accepted).tail first).tail second).tail shared
  · intro isStored
    have same := (letterTable_stored 65).unique isStored
      ((letterDef_fHash 66).trans (letterDef_fHash 65).symm)
    exact absurd (letterDef_injective same) (by decide)

end ClientState

end Grintorrent
