import Grintorrent.Client.Download
import Grintorrent.File.Descriptors
import Grintorrent.Lib.Runs

/-!
# A swarm that shares one file

Any number of clients that hold the same definition, each with its own copy, ask
each other for chunks and answer as soon as they have verified one, also while
their own copy is incomplete.  Requests and replies are in flight between them
and are handled in any order.

Authenticity of the replies and soundness of the copies depend on each other:
`SwarmInvariant` states both, and every step of a client preserves it, whatever the
system refuses.  What `verify_tfile` reports grows as long as it can open the file: each
of its calls for a file that is not mapped leaves a descriptor open, so a client that is
only asked can run out of them.
-/

namespace Grintorrent

open Lib Relation

section Client

variable {env : Env} {store after : Store} {tdef : TfileDef} {tf remapped : Tfile}
variable {content : Option Bytes} {size : Nat}

theorem Advances.remap {bytes : Bytes} (same : remapped.tdef = tf.tdef)
    (located : ¬(remapped.mLocation = none ∧ remapped.fLocation = none)) :
    Advances env tf (some bytes) remapped (some bytes) where
  kept := by
    intro i reported
    obtain ⟨_, ⟨⟩, _, verified⟩ := reported_iff.mp reported
    exact reported_iff.mpr ⟨bytes, rfl, located, same ▸ verified⟩
  bytes _ := rfl
  exists_of := id

/-- Whatever `open_tfile` returns, a copy whose file is there keeps its bytes. -/
theorem Copy.opened {bytes : Bytes} {chunk : Int} {result : Option (Location × Int)}
    (copy : Copy store tdef tf (some bytes)) (positive : 0 < tdef.size)
    (returned : openTfile env store tdef.fHash chunk = .ok (result, after)) :
    ∃ tf', Copy after tdef tf' (some bytes) ∧ tf'.home = tf.home ∧
      Advances env tf (some bytes) tf' (some bytes) := by
  rcases openTfile_cases returned with ⟨_, rfl, _⟩ | ⟨index, tf', found, _, ⟨_, _, rfl, _⟩ |
    ⟨notMapped, rfl, _⟩⟩
  · exact ⟨tf, copy, rfl, .refl env tf _⟩
  · exact ⟨tf, copy, rfl, .refl env tf _⟩
  · obtain ⟨_, known⟩ := copy.found
    rw [known] at found
    cases found
    refine ⟨_, copy.mapTfile positive known notMapped, ?_, .remap rfl (by simp)⟩
    rw [mapTfile_opens notMapped]
    split
    · split <;> rfl
    · rfl

/-- The strings whose digests `verify_tfile` compares for this hash do not
collide with those of the original. -/
def Uncollided (env : Env) (original : Bytes) (store : Store) (hash : Digest) : Prop :=
  ∀ index tf bytes, lookupTfile store.ht hash = .ok (some (index, tf)) →
    store.os.files tf.home = some bytes → Distinguished env bytes original

theorem Copy.uncollided {bytes original : Bytes} (copy : Copy store tdef tf (some bytes))
    (distinct : Distinguished env bytes original) :
    Uncollided env original store tdef.fHash := by
  intro index other content found file
  obtain ⟨_, known⟩ := copy.found
  rw [known] at found
  simp only [Except.ok.injEq, Option.some.injEq, Prod.mk.injEq] at found
  obtain ⟨_, rfl⟩ := found
  rw [copy.file, Option.some.injEq] at file
  exact file ▸ distinct

/-- **Serving a request**: the copy loses nothing, and a chunk that is sent is
that of the original. -/
theorem Copy.serve {original : Bytes} {name : Vector UInt8 nameLen} {req : ChunkRequest}
    {locals : VerifyLocals} {connects : Bool} {answer : Answer}
    (copy : Copy store tdef tf content) (defined : tdef = definitionOf env name original)
    (positive : 0 < original.length) (counts : original.length < 2 ^ 44)
    (uncollided : Uncollided env original store tdef.fHash)
    (asked : req.fileHash = tdef.fHash)
    (served : handleRequest env store req locals connects = .ok (answer, after)) :
    ∃ tf' content', Copy after tdef tf' content' ∧ tf'.home = tf.home ∧
      Advances env tf content tf' content' ∧
      ∀ payload, answer = .chunk payload → ∃ k : Fin numChunks,
        req.chunkIndex.toInt = k.val ∧
          payload = chunkMessage tdef.fHash k (chunkOf original k) := by
  have sized : tdef.size = original.length := by rw [defined, definitionOf_size]
  obtain ⟨chunks, verified, returned, outcome⟩ := handleRequest_cases served
  rw [asked] at returned outcome
  have copied : Copy verified tdef tf content := by
    rcases copy.verify_cases (by omega) returned with ⟨_, _, rfl | rfl⟩ | ⟨_, _, rfl⟩
    · exact copy
    · exact copy.leak
    · exact copy
  rcases outcome with ⟨_, rfl, rfl⟩ | ⟨_, _, rfl, rfl⟩ | ⟨reported, _, payload, isSent, rfl⟩
  · exact ⟨tf, content, copied, rfl, .refl env tf content, by simp⟩
  · exact ⟨tf, content, copied, rfl, .refl env tf content, by simp⟩
  · obtain ⟨isReport, _⟩ := copy.report_of_verify (by omega) returned reported
    obtain ⟨k, index⟩ := exists_chunk_of_verified reported
    rw [isReport, index] at reported
    obtain ⟨bytes, rfl, _, valid⟩ := reported_iff.mp reported
    have genuine : chunkOf bytes k = chunkOf original k := by
      obtain ⟨_, found⟩ := copy.found
      have distinct := uncollided _ _ _ found copy.file
      rw [copy.same, defined] at valid
      exact (verified_iff distinct k).mp valid
    rw [index] at isSent
    obtain ⟨result, opened, _⟩ := sendChunkMessage_cases isSent
    obtain ⟨tf', stored, home, advances⟩ := copied.opened (by omega) opened
    refine ⟨tf', some bytes, stored, home, advances, ?_⟩
    intro sent answered
    refine ⟨k, index, ?_⟩
    cases payload with
    | none => simp at answered
    | some payload =>
        cases answered
        rw [copied.send sized positive (by omega) isSent, genuine]

end Client

/-! ## The swarm -/

/-- The stores of the clients, the requests in flight with the client they are
sent to, and the `FILE_DATA` payloads in flight with the client they are sent to
and the request they answer. -/
structure Swarm (ι : Type) where
  stores : ι → Store
  requests : List (ι × ChunkRequest)
  replies : List (ι × ChunkRequest × Bytes)

variable {ι : Type}

/-- What a client puts in flight to relay a request to these peers. -/
def Answer.requests (peers : List ι) (req : ChunkRequest) : Answer → List (ι × ChunkRequest)
  | .relay => peers.map fun peer => (peer, req)
  | .chunk _ | .silent => []

/-- What a client puts in flight for the client at the return address. -/
def Answer.replies (dest : ι) (req : ChunkRequest) :
    Answer → List (ι × ChunkRequest × Bytes)
  | .chunk payload => [(dest, req, payload)]
  | .relay | .silent => []

/-- Every client has a copy, every request is for the hash, and every reply carries the
chunk of the original that its request asks for. -/
structure SwarmInvariant (tdef : TfileDef) (original : Bytes) (swarm : Swarm ι) : Prop where
  copies : ∀ client, ∃ tf content, Copy (swarm.stores client) tdef tf content
  asked : ∀ {client req}, (client, req) ∈ swarm.requests → req.fileHash = tdef.fHash
  authentic : ∀ {client req payload}, (client, req, payload) ∈ swarm.replies →
    req.fileHash = tdef.fHash ∧ ∃ k : Fin numChunks, req.chunkIndex.toInt = k.val ∧
      payload = chunkMessage tdef.fHash k (chunkOf original k)

/-- A reply in flight carries the chunk it was asked for, and its handler returns. -/
theorem SwarmInvariant.reply {env : Env} {tdef : TfileDef} {original : Bytes}
    {swarm : Swarm ι} {client : ι} {req : ChunkRequest} {payload : Bytes}
    (invariant : SwarmInvariant tdef original swarm)
    (sized : tdef.size = original.length) (positive : 0 < original.length)
    (counts : original.length < 2 ^ 44) (member : (client, req, payload) ∈ swarm.replies) :
    (ChunkPayload.decode payload).fileHash = req.fileHash ∧
      (ChunkPayload.decode payload).chunkIndex = req.chunkIndex ∧
      req.fileHash = tdef.fHash ∧
      (∃ k : Fin numChunks, req.chunkIndex.toInt = k.val ∧
        payload.drop ChunkPayload.sizeOf = chunkOf original k) ∧
      ∀ message : FileData, message.payload = payload →
        message.dataRead.length = messageSize → payload.length ≤ messageSize →
        (∀ tf content, Copy (swarm.stores client) tdef tf content →
          Serves env tf.home original.length ((swarm.stores client).os.openFds + 1) ∧
          Creates env tf.home original.length content) →
        ∃ after, readFileData env (swarm.stores client) message = .ok after := by
  obtain ⟨isHash, k, index, carried⟩ := invariant.authentic member
  have sameIndex : BitVec.ofNat 32 k.val = req.chunkIndex := by
    rw [← BitVec.ofInt_natCast, ← index, BitVec.ofInt_toInt]
  refine ⟨?_, ?_, isHash, ⟨k, index, ?_⟩, ?_⟩
  · rw [carried, chunkMessage, ChunkPayload.decode_append, isHash]
  · rw [carried, chunkMessage, ChunkPayload.decode_append, sameIndex]
  · rw [carried, chunkMessage, ← ChunkPayload.length_bytes, List.drop_left]
  · intro message isPayload buffer fits system
    obtain ⟨tf, content, copy⟩ := invariant.copies client
    obtain ⟨serves, creates⟩ := system tf content copy
    have carries : Carries tdef.fHash original.length k (chunkOf original k) message :=
      carries_chunkMessage buffer (isPayload.trans carried) (length_chunkOf original k)
        (isPayload ▸ fits)
    obtain ⟨after, returned, _⟩ :=
      copy.handle serves (Nat.lt_succ_self _) creates sized positive counts carries
    exact ⟨after, returned⟩

variable [DecidableEq ι]

/-- The steps of the clients for one hash.  Which peers a client has, which client
a return address leads to, whether connecting to it succeeds, what the buffers
hold and in which order messages arrive is left open. -/
inductive SwarmStep (env : ι → Env) (hash : Digest) (original : Bytes) :
    Swarm ι → Swarm ι → Prop where
  /-- A client sends a request of its own. -/
  | ask (swarm : Swarm ι) (req : ChunkRequest) (peers : List ι) :
      req.fileHash = hash →
      SwarmStep env hash original swarm
        { swarm with requests := swarm.requests ++ peers.map fun peer => (peer, req) }
  /-- A client answers or relays a request it received. -/
  | serve (swarm : Swarm ι) (client dest : ι) (peers : List ι) {req : ChunkRequest}
      {locals : VerifyLocals} {connects : Bool} {answer : Answer} {after : Store} :
      (client, req) ∈ swarm.requests →
      Uncollided (env client) original (swarm.stores client) hash →
      handleRequest (env client) (swarm.stores client) req locals connects =
        .ok (answer, after) →
      SwarmStep env hash original swarm
        { stores := Function.update swarm.stores client after
          requests := swarm.requests.erase (client, req) ++ answer.requests peers req
          replies := swarm.replies ++ answer.replies dest req }
  /-- A client handles a `FILE_DATA` message that fits its buffer. -/
  | handle (swarm : Swarm ι) {client : ι} {req : ChunkRequest} {message : FileData}
      {after : Store} :
      (client, req, message.payload) ∈ swarm.replies →
      message.dataRead.length = messageSize → message.payload.length ≤ messageSize →
      readFileData (env client) (swarm.stores client) message = .ok after →
      SwarmStep env hash original swarm
        { swarm with
          stores := Function.update swarm.stores client after
          replies := swarm.replies.erase (client, req, message.payload) }

/-- The copy of a store develops into that of another. -/
def StoreAdvances (env : Env) (tdef : TfileDef) (first second : Store) : Prop :=
  ∀ tf content, Copy first tdef tf content →
    ∃ tf' content', Copy second tdef tf' content' ∧ tf'.home = tf.home ∧
      Advances env tf content tf' content'

theorem StoreAdvances.refl (env : Env) (tdef : TfileDef) (store : Store) :
    StoreAdvances env tdef store store :=
  fun tf content copy => ⟨tf, content, copy, rfl, .refl env tf content⟩

theorem StoreAdvances.trans {env : Env} {tdef : TfileDef} {first second third : Store}
    (earlier : StoreAdvances env tdef first second)
    (later : StoreAdvances env tdef second third) : StoreAdvances env tdef first third := by
  intro tf content copy
  obtain ⟨middle, midContent, midCopy, midHome, started⟩ := earlier _ _ copy
  obtain ⟨tf', content', final, home, ended⟩ := later _ _ midCopy
  exact ⟨tf', content', final, home.trans midHome, started.trans ended⟩

theorem storeAdvances_update {env : ι → Env} {tdef : TfileDef} {stores : ι → Store}
    {client : ι} {after : Store}
    (advances : StoreAdvances (env client) tdef (stores client) after) (other : ι) :
    StoreAdvances (env other) tdef (stores other) (Function.update stores client after other) := by
  by_cases same : other = client
  · subst same
    rw [Function.update_self]
    exact advances
  · rw [Function.update_of_ne same]
    exact .refl _ _ _

section Integrity

variable {env : ι → Env} {tdef : TfileDef} {original : Bytes} {name : Vector UInt8 nameLen}
variable {swarm next : Swarm ι}

/-- **A step** loses no verified chunk of any client. -/
theorem SwarmStep.advances (defined : ∀ client, tdef = definitionOf (env client) name original)
    (admitted : 256 ≤ original.length) (counts : original.length < 2 ^ 44)
    (inv : SwarmInvariant tdef original swarm)
    (step : SwarmStep env tdef.fHash original swarm next) (client : ι) :
    StoreAdvances (env client) tdef (swarm.stores client) (next.stores client) := by
  cases step with
  | ask => exact .refl _ _ _
  | serve server dest peers member uncollided served =>
      apply storeAdvances_update
      intro tf content copy
      obtain ⟨final, finalContent, stored, home, advances, _⟩ := copy.serve (defined server)
        (by omega) counts uncollided (inv.asked member) served
      exact ⟨final, finalContent, stored, home, advances⟩
  | @handle receiver req message after member buffer fits handled =>
      apply storeAdvances_update
      intro tf content copy
      obtain ⟨_, k, _, payload⟩ := inv.authentic member
      have carries : Carries tdef.fHash original.length k (chunkOf original k) message :=
        carries_chunkMessage buffer payload (length_chunkOf original k) fits
      have sized : tdef.size = original.length := by
        rw [defined receiver, definitionOf_size]
      have outcome := copy.handled sized (chunkLen_pos admitted k) counts carries handled
      obtain ⟨final, finalContent, stored, home, advances, _⟩ :=
        outcome.advances copy sized (by omega) carries
      exact ⟨final, finalContent, stored, home, advances⟩

/-- **A step** preserves the invariant. -/
theorem SwarmStep.preserves (defined : ∀ client, tdef = definitionOf (env client) name original)
    (admitted : 256 ≤ original.length) (counts : original.length < 2 ^ 44)
    (inv : SwarmInvariant tdef original swarm)
    (step : SwarmStep env tdef.fHash original swarm next) :
    SwarmInvariant tdef original next where
  copies := by
    intro client
    obtain ⟨tf, content, copy⟩ := inv.copies client
    obtain ⟨tf', content', stored, _⟩ :=
      step.advances defined admitted counts inv client _ _ copy
    exact ⟨tf', content', stored⟩
  asked := by
    intro client req member
    cases step with
    | ask own peers isHash =>
        cases List.mem_append.mp member with
        | inl old => exact inv.asked old
        | inr new =>
            simp only [List.mem_map, Prod.mk.injEq] at new
            obtain ⟨_, _, _, rfl⟩ := new
            exact isHash
    | @serve server dest peers request _ _ answer _ requested uncollided served =>
        cases List.mem_append.mp member with
        | inl old => exact inv.asked (List.mem_of_mem_erase old)
        | inr new =>
            cases answer with
            | relay =>
                simp only [Answer.requests, List.mem_map, Prod.mk.injEq] at new
                obtain ⟨_, _, _, rfl⟩ := new
                exact inv.asked requested
            | chunk payload => simp [Answer.requests] at new
            | silent => simp [Answer.requests] at new
    | handle => exact inv.asked member
  authentic := by
    intro client req payload member
    cases step with
    | ask => exact inv.authentic member
    | @serve server dest peers request _ _ answer _ requested uncollided served =>
        cases List.mem_append.mp member with
        | inl old => exact inv.authentic old
        | inr new =>
            cases answer with
            | chunk sent =>
                simp only [Answer.replies, List.mem_singleton, Prod.mk.injEq] at new
                obtain ⟨rfl, rfl, rfl⟩ := new
                obtain ⟨tf, content, copy⟩ := inv.copies server
                obtain ⟨_, _, _, _, _, genuine⟩ := copy.serve (defined server) (by omega) counts
                  uncollided (inv.asked requested) served
                exact ⟨inv.asked requested, genuine _ rfl⟩
            | relay => simp [Answer.replies] at new
            | silent => simp [Answer.replies] at new
    | handle _ _ _ _ => exact inv.authentic (List.mem_of_mem_erase member)

/-- The file of the entry of a hash is mapped, or opens with as many descriptors as are
open. -/
def EntryOpens (env : Env) (store : Store) (hash : Digest) : Prop :=
  ∀ index tf, lookupTfile store.ht hash = .ok (some (index, tf)) → Opens env store tf

theorem Copy.entryOpens_iff {env : Env} {store : Store} {tf : Tfile} {content : Option Bytes}
    (copy : Copy store tdef tf content) :
    EntryOpens env store tdef.fHash ↔ Opens env store tf := by
  obtain ⟨index, found⟩ := copy.found
  constructor
  · intro opens
    exact opens index tf found
  · intro opens place slot found'
    rw [found] at found'
    cases found'
    exact opens

/-- `verify_tfile` returns in both states, and every chunk that it reports in the first it
reports in the second. -/
def VerifiedGrows (env : Env) (hash : Digest) (first second : Store) : Prop :=
  ∀ locals locals', ∃ chunks left chunks' left',
    verifyTfile env first hash locals = .ok (chunks, left) ∧
    verifyTfile env second hash locals' = .ok (chunks', left') ∧
    ∀ i : Fin numChunks, isChunkVerified chunks i.val = true →
      isChunkVerified chunks' i.val = true

/-- `verify_tfile` finds no chunk verified. -/
def NothingReported (env : Env) (hash : Digest) (store : Store) : Prop :=
  ∀ locals chunks left (i : Fin numChunks), verifyTfile env store hash locals = .ok (chunks, left) →
    isChunkVerified chunks i.val = false

/-- What is verified of a copy that advances grows exactly as long as its file opens. -/
theorem StoreAdvances.verifiedGrows_iff {env : Env} {first second : Store} {tf : Tfile}
    {content : Option Bytes} (advances : StoreAdvances env tdef first second)
    (copy : Copy first tdef tf content) (counts : tdef.size < 2 ^ 44) :
    VerifiedGrows env tdef.fHash first second ↔
      EntryOpens env second tdef.fHash ∨ NothingReported env tdef.fHash first := by
  obtain ⟨tf', content', copy', _, grows⟩ := advances _ _ copy
  rw [copy'.entryOpens_iff]
  constructor
  · intro growing
    by_cases opens : Opens env second tf'
    · exact .inl opens
    · refine .inr fun locals chunks left i returned => ?_
      obtain ⟨chunks₁, _, chunks₂, _, first, second, kept⟩ := growing locals locals
      rw [returned] at first
      cases first
      rw [copy'.verify_unopened opens] at second
      cases second
      by_contra reported
      have lost := kept i (Bool.not_eq_false _ ▸ reported)
      rw [isChunkVerified_unverifiedFile] at lost
      simp at lost
  · rintro (opens | nothing) locals locals'
    · obtain ⟨left', second, _⟩ := copy'.verified counts opens locals'
      by_cases opensFirst : Opens env first tf
      · obtain ⟨left, first, _⟩ := copy.verified counts opensFirst locals
        exact ⟨_, left, _, left', first, second, fun i reported => grows.kept reported⟩
      · refine ⟨_, _, _, left', copy.verify_unopened opensFirst, second, fun i reported => ?_⟩
        rw [isChunkVerified_unverifiedFile] at reported
        simp at reported
    · obtain ⟨chunks, left, first⟩ := copy.verify_returns counts locals
      obtain ⟨chunks', left', second⟩ := copy'.verify_returns counts locals'
      refine ⟨chunks, left, chunks', left', first, second, fun i reported => ?_⟩
      rw [nothing locals chunks left i first] at reported
      simp at reported

/-- **Swarm integrity.**  From any copies of the recorded length, or none, and in every
run, whatever the system refuses: a reply in flight carries the requested hash, the
requested index and the bytes of that chunk of the original, and its handler returns where
the file opens, maps and can be created.  What `verify_tfile` reports at a client in a
later state contains what it reported before if and only if the file of the client is
mapped or opens with the descriptors that are open then, or nothing was reported before. -/
theorem swarm_integrity_iff {maker : Env} {fuel : Nat} {origin stored : Store}
    {scratch : TfileDef} {path : Path} {start middle final : Swarm ι}
    (generated : generateTfile maker fuel origin scratch path name = .ok (0, tdef, stored))
    (file : origin.os.files path = some original)
    (sameMd5 : ∀ client, (env client).md5 = maker.md5)
    (copies : ∀ client, ∃ tf content, Copy (start.stores client) tdef tf content)
    (idle : start.requests = [] ∧ start.replies = [])
    (run : ReflTransGen (SwarmStep env tdef.fHash original) start middle)
    (more : ReflTransGen (SwarmStep env tdef.fHash original) middle final) :
    (∀ client req payload, (client, req, payload) ∈ final.replies →
      (ChunkPayload.decode payload).fileHash = req.fileHash ∧
      (ChunkPayload.decode payload).chunkIndex = req.chunkIndex ∧
      req.fileHash = tdef.fHash ∧
      (∃ k : Fin numChunks, req.chunkIndex.toInt = k.val ∧
        payload.drop ChunkPayload.sizeOf = chunkOf original k) ∧
      ∀ message : FileData, message.payload = payload →
        message.dataRead.length = messageSize → payload.length ≤ messageSize →
        (∀ tf content, Copy (final.stores client) tdef tf content →
          Serves (env client) tf.home original.length
            ((final.stores client).os.openFds + 1) ∧
          Creates (env client) tf.home original.length content) →
        ∃ after, readFileData (env client) (final.stores client) message = .ok after) ∧
    ∀ client,
      VerifiedGrows (env client) tdef.fHash (middle.stores client) (final.stores client) ↔
        EntryOpens (env client) (final.stores client) tdef.fHash ∨
          NothingReported (env client) tdef.fHash (middle.stores client) := by
  obtain ⟨b, isFile, admitted, counts, definition⟩ := generateTfile_definition generated
  obtain rfl : b = original := by
    rw [file, Option.some.injEq] at isFile
    exact isFile.symm
  have defined : ∀ client, tdef = definitionOf (env client) name b := by
    intro client
    rw [definition]
    simp only [definitionOf, sameMd5 client]
  have sized : tdef.size = b.length := by
    rw [definition, definitionOf_size]
  have initially : SwarmInvariant tdef b start :=
    { copies
      asked := by simp [idle.1]
      authentic := by simp [idle.2] }
  have midInvariant : SwarmInvariant tdef b middle :=
    invariant_run (fun _ _ inv step => step.preserves defined admitted counts inv) run initially
  have invariant : SwarmInvariant tdef b final :=
    invariant_run (fun _ _ inv step => step.preserves defined admitted counts inv) more
      midInvariant
  constructor
  · intro client req payload member
    exact invariant.reply sized (by omega) counts member
  · intro client
    have advances : StoreAdvances (env client) tdef (middle.stores client)
        (final.stores client) := by
      refine @order_run _ _ middle final (SwarmInvariant tdef b)
        (fun first second =>
          StoreAdvances (env client) tdef (first.stores client) (second.stores client))
        ?_ ?_ ?_ ?_ more midInvariant
      · exact fun _ => .refl _ _ _
      · exact fun first second => first.trans second
      · exact fun _ _ inv step => step.preserves defined admitted counts inv
      · exact fun _ _ inv step => step.advances defined admitted counts inv client
    obtain ⟨tf, content, copy⟩ := midInvariant.copies client
    exact advances.verifiedGrows_iff copy (by omega)

end Integrity

/-- A request for the first chunk of the sample file. -/
def sampleRequest : ChunkRequest where
  fileHash := heldDef.fHash
  chunkIndex := 0
  returnAddr := []
  returnAddrLen := 0
  ttl := 5

/-- Two clients: one generated the definition, the other received it. -/
def samplePair : Swarm Bool where
  stores server := if server then sampleServer else sampleReceiver staleContent
  requests := []
  replies := []

theorem samplePair_copies (client : Bool) :
    ∃ tf content, Copy (samplePair.stores client) heldDef tf content := by
  cases client with
  | true => exact ⟨_, _, sampleServer_copy⟩
  | false => exact ⟨_, _, sampleReceiver_copy length_staleContent⟩

theorem swarm_integrity_pair :
    ∃ final payload,
      ReflTransGen (SwarmStep (fun _ => sampleEnv) heldDef.fHash sampleContent) samplePair
        final ∧
      (false, sampleRequest, payload) ∈ final.replies ∧
      payload.drop ChunkPayload.sizeOf = chunkOf sampleContent 0 := by
  obtain ⟨chunks, verified, after, judged, reported, sent⟩ :=
    sampleServer_serves 0 ⟨0, fun _ => 0⟩
  have distinct : Distinguished sampleEnv sampleContent sampleContent :=
    ⟨fun _ => rfl, fun _ _ => rfl⟩
  have served : handleRequest sampleEnv sampleServer sampleRequest ⟨0, fun _ => 0⟩ true =
      .ok (.chunk (chunkMessage heldDef.fHash 0 (chunkOf sampleContent 0)), after) := by
    have index : sampleRequest.chunkIndex.toInt = (0 : Fin numChunks).val := by decide
    have isHash : sampleRequest.fileHash = heldDef.fHash := rfl
    simp only [handleRequest, isHash, judged, Result.ok_bind, index, reported, if_true, sent]
  let asked : Swarm Bool :=
    { samplePair with
      requests := samplePair.requests ++ [true].map fun peer => (peer, sampleRequest) }
  have server : asked.stores true = sampleServer := by simp [asked, samplePair]
  have first : SwarmStep (fun _ => sampleEnv) heldDef.fHash sampleContent samplePair asked :=
    .ask samplePair sampleRequest [true] rfl
  have uncollided : Uncollided sampleEnv sampleContent (asked.stores true) heldDef.fHash := by
    rw [server]
    exact sampleServer_copy.uncollided distinct
  rw [← server] at served
  have member : (true, sampleRequest) ∈ asked.requests := by simp [asked, samplePair]
  have run := ReflTransGen.refl.tail first |>.tail
    (.serve asked true false [] member uncollided served)
  have integrity := swarm_integrity_iff sampleServer_generated (sampleStore_file sampleContent)
    (fun _ => rfl) samplePair_copies ⟨rfl, rfl⟩ run .refl
  have sentOff : (false, sampleRequest, chunkMessage heldDef.fHash 0 (chunkOf sampleContent 0)) ∈
      asked.replies ++
        (Answer.chunk (chunkMessage heldDef.fHash 0 (chunkOf sampleContent 0))).replies false
          sampleRequest := by
    simp [Answer.replies]
  obtain ⟨_, _, _, ⟨k, index, carried⟩, _⟩ := integrity.1 _ _ _ sentOff
  have first : k = 0 := by
    have zero : sampleRequest.chunkIndex.toInt = 0 := by decide
    rw [zero] at index
    exact Fin.ext (by simpa using index.symm)
  exact ⟨_, _, run, sentOff, first ▸ carried⟩

/-- A request whose return address does not answer leaves a descriptor open. -/
theorem sampleServer_serves_limited :
    handleRequest limitedEnv sampleServer sampleRequest ⟨0, fun _ => 0⟩ false =
      .ok (.silent, sampleServer.leak) := by
  have isIndex : sampleRequest.chunkIndex.toInt = (0 : Fin numChunks).val := by decide
  have isHash : sampleRequest.fileHash = heldDef.fHash := rfl
  simp only [handleRequest, isHash, sampleServer_verify_limited, Result.ok_bind, isIndex,
    isChunkVerified_verifiedFile, if_true, Bool.false_eq_true, if_false]

/-- One descriptor is left for the files.  The server is asked for a chunk and cannot
connect to the return address; from then on its complete copy is not verified. -/
theorem swarm_verified_shrinks :
    generateTfile sampleEnv 1 (sampleStore sampleContent) .zero samplePath sampleName =
        .ok (0, heldDef, sampleServer) ∧
      ∃ final left left',
        ReflTransGen (SwarmStep (fun _ => limitedEnv) heldDef.fHash sampleContent) samplePair
          final ∧
        verifyTfile limitedEnv (samplePair.stores true) heldDef.fHash ⟨0, fun _ => 0⟩ =
          .ok (verifiedFile, left) ∧
        verifyTfile limitedEnv (final.stores true) heldDef.fHash ⟨0, fun _ => 0⟩ =
          .ok (unverifiedFile, left') ∧
        ¬VerifiedGrows limitedEnv heldDef.fHash (samplePair.stores true)
          (final.stores true) := by
  have distinct : Distinguished limitedEnv sampleContent sampleContent :=
    ⟨fun _ => rfl, fun _ _ => rfl⟩
  have asks : SwarmStep (fun _ => limitedEnv) heldDef.fHash sampleContent samplePair
      ⟨samplePair.stores, [(true, sampleRequest)], []⟩ :=
    .ask samplePair sampleRequest [true] rfl
  have serves := @SwarmStep.serve _ _ (fun _ => limitedEnv) heldDef.fHash sampleContent
    ⟨samplePair.stores, [(true, sampleRequest)], []⟩ true false [] _ _ _ _ _
    (List.mem_singleton_self _) (sampleServer_copy.uncollided distinct)
    sampleServer_serves_limited
  have run := (ReflTransGen.single asks).tail serves
  have final : Function.update samplePair.stores true sampleServer.leak true =
      sampleServer.leak := Function.update_self _ _ _
  have before := sampleServer_verify_limited ⟨0, fun _ => 0⟩
  have after := sampleServer_leak_verify_limited ⟨0, fun _ => 0⟩
  rw [← final] at after
  refine ⟨sampleServer_generated, _, _, _, run, before, after, fun grows => ?_⟩
  obtain ⟨_, _, _, _, first, second, kept⟩ := grows ⟨0, fun _ => 0⟩ ⟨0, fun _ => 0⟩
  cases before.symm.trans first
  cases after.symm.trans second
  have reported := kept 0 (isChunkVerified_verifiedFile 0)
  rw [isChunkVerified_unverifiedFile] at reported
  simp at reported

end Grintorrent
