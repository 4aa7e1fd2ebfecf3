import Grintorrent.Client.Interleaved

/-!
# Clients that exchange chunks

The chunks that arrive at a client are sent by the handlers of other clients.  These have
verified the chunk, but read it from the file later, and in between handlers of `FILE_DATA`
messages write to that file.  So a client sends the original's chunks because the ones that
it received are the original's, and these were sent by clients like it.  Here all handlers of
all clients are taken apart into their calls, and no chunk is assumed to be the original's.
-/

namespace Grintorrent

open Lib Relation

/-- `send_chunk_message` when `open_tfile` has returned a chunk to it. -/
structure OpenAnswer where
  fileHash : Digest
  chunkIndex : Int
  chunkPtr : Location
  chunkSize : Int
  deriving DecidableEq

namespace OpenAnswer

def hdr (answer : OpenAnswer) : ChunkPayload where
  fileHash := answer.fileHash
  chunkIndex := BitVec.ofInt 32 answer.chunkIndex
  chunkSize := htonl (BitVec.ofInt 32 answer.chunkSize)

/-- The payload that is allocated and filled, if there is memory for it. -/
def payload (env : Env) (os : Os) (answer : OpenAnswer) : Result (Option Bytes) :=
  if env.mallocOk (ChunkPayload.sizeOf + answer.chunkSize.toNat) then do
    let chunk ← os.readMapped env answer.chunkPtr.mapping answer.chunkPtr.offset answer.chunkSize
    .ok (some (answer.hdr.bytes ++ chunk))
  else .ok none

end OpenAnswer

/-- A client with its handlers: `workers` as before, the requests whose chunk was found
verified and whose return address was connected to, and the answers whose chunk is opened. -/
structure Host where
  workers : Workers
  found : List ChunkRequest
  answers : List OpenAnswer

/-- What the handlers of a client can do next. -/
inductive HostEvent where
  | works (event : WorkerEvent)
  /-- A handler with this request verifies the file and connects to the return address. -/
  | verifies (req : ChunkRequest) (locals : VerifyLocals) (connects : Bool)
  /-- Its `send_chunk_message` calls `open_tfile`. -/
  | opens (req : ChunkRequest)
  /-- It copies the chunk into a message, and sends it. -/
  | sends (answer : OpenAnswer)

namespace Host

/-- A client without any of these threads. -/
def start (store : Store) : Host where
  workers := .start store
  found := []
  answers := []

def store (host : Host) : Store := host.workers.store

def withStore (host : Host) (store : Store) : Host :=
  { host with workers := { host.workers with store } }

/-- The event can happen next. -/
def Possible (host : Host) : HostEvent → Prop
  | .works event => host.workers.Possible event
  | .verifies .. => True
  | .opens req => req ∈ host.found
  | .sends answer => answer ∈ host.answers

/-- The client after the event, and the message it has sent, if the calls return. -/
def next (env : Env) (host : Host) : HostEvent → Result (Host × Option Bytes)
  | .works event => do
      let workers ← host.workers.next env event
      .ok ({ host with workers }, none)
  | .verifies req locals connects => do
      let (chunks, store) ← verifyTfile env host.store req.fileHash locals
      let host := host.withStore store
      if isChunkVerified chunks req.chunkIndex.toInt then
        if connects then .ok ({ host with found := req :: host.found }, none)
        else .ok (host, none)
      else .ok (host, none)
  | .opens req => do
      let (opened, store) ← openTfile env host.store req.fileHash req.chunkIndex.toInt
      let host := { host.withStore store with found := host.found.erase req }
      match opened with
      | none => .ok (host, none)
      | some (chunkPtr, chunkSize) =>
          if chunkSize ≤ 0 then .ok (host, none)
          else
            let answer := ⟨req.fileHash, req.chunkIndex.toInt, chunkPtr, chunkSize⟩
            .ok ({ host with answers := answer :: host.answers }, none)
  | .sends answer => do
      let payload ← answer.payload env host.store.os
      .ok ({ host with answers := host.answers.erase answer }, payload)

/-- A mapping is released only while no handler is between `open_tfile` and its copy, to the
file or from it. -/
def Sound (host : Host) : HostEvent → Prop
  | .works event =>
      host.workers.Sound event ∧ ∀ hash, event = .saves hash true true →
        ∀ answer ∈ host.answers, answer.fileHash ≠ hash
  | _ => True

/-- Where the file is verified, the strings that are compared do not collide. -/
def Checked (env : Env) (original : Bytes) (hash : Digest) (host : Host) : HostEvent → Prop
  | .works (.verifies other _) => other = hash → Uncollided env original host.store hash
  | .verifies req _ _ => req.fileHash = hash → Uncollided env original host.store hash
  | _ => True

end Host

/-! ## All clients -/

/-- The clients, and all `FILE_DATA` payloads that they have sent. -/
structure Exchange (ι : Type) where
  hosts : ι → Host
  sent : List Bytes

/-- A `FILE_DATA` message for the hash that is received was sent before, by whichever client,
and it fits the buffer of the handler. -/
def Received (sent : List Bytes) (hash : Digest) : HostEvent → Prop
  | .works (.decides dataRead _) =>
      (ChunkPayload.decode dataRead).fileHash = hash →
        ∃ payload ∈ sent, ∃ buffer : Bytes, buffer.length = messageSize ∧
          payload.length ≤ messageSize ∧ dataRead = splice 0 payload buffer
  | _ => True

namespace Exchange

variable {ι : Type}

/-- No handler is at work, and nothing was sent. -/
def start (stores : ι → Store) : Exchange ι where
  hosts client := .start (stores client)
  sent := []

variable [DecidableEq ι]

/-- One client goes on, and sends a message if it has one to send. -/
def goes (exchange : Exchange ι) (client : ι) (host : Host) (payload : Option Bytes) :
    Exchange ι where
  hosts := Function.update exchange.hosts client host
  sent := payload.toList ++ exchange.sent

/-- A handler of one client goes on. -/
def Step (env : ι → Env) (hash : Digest) (original : Bytes) (exchange after : Exchange ι) :
    Prop :=
  ∃ client event host payload, (exchange.hosts client).Possible event ∧
    (exchange.hosts client).Sound event ∧
    (exchange.hosts client).Checked (env client) original hash event ∧
    Received exchange.sent hash event ∧
    (exchange.hosts client).next (env client) event = .ok (host, payload) ∧
    after = exchange.goes client host payload

variable {exchange : Exchange ι} {client : ι} {host : Host} {payload : Option Bytes}

@[simp] theorem goes_hosts_self : (exchange.goes client host payload).hosts client = host :=
  Function.update_self _ _ _

theorem goes_hosts_of_ne {other : ι} (different : other ≠ client) :
    (exchange.goes client host payload).hosts other = exchange.hosts other :=
  Function.update_of_ne different _ _

@[simp] theorem goes_goes {host' : Host} :
    (exchange.goes client host none).goes client host' payload =
      exchange.goes client host' payload := by
  simp only [goes, Function.update_idem, Option.toList_none, List.nil_append]

end Exchange

section Client

variable {env : Env} {tdef : TfileDef} {original bytes : Bytes} {home : Path}
variable {store before after : Store} {hash other : Digest} {mapping : Mapping}

namespace Host

variable {host final : Host} {event : HostEvent} {payload : Option Bytes}

/-- What a step that completes has done. -/
inductive Took (env : Env) (host : Host) : HostEvent → Host → Option Bytes → Prop where
  | works {event : WorkerEvent} {workers : Workers} :
      host.workers.next env event = .ok workers →
      Took env host (.works event) { host with workers } none
  | verifies {req : ChunkRequest} {locals : VerifyLocals} {connects : Bool}
      {chunks : VerifiedChunks} {store : Store} {found : List ChunkRequest} :
      verifyTfile env host.store req.fileHash locals = .ok (chunks, store) →
      found = host.found ∨
        isChunkVerified chunks req.chunkIndex.toInt = true ∧ found = req :: host.found →
      Took env host (.verifies req locals connects) { host.withStore store with found } none
  | opens {req : ChunkRequest} {opened : Option (Location × Int)} {store : Store}
      {answers : List OpenAnswer} :
      openTfile env host.store req.fileHash req.chunkIndex.toInt = .ok (opened, store) →
      answers = host.answers ∨
        (∃ chunkPtr chunkSize, opened = some (chunkPtr, chunkSize) ∧
          answers = ⟨req.fileHash, req.chunkIndex.toInt, chunkPtr, chunkSize⟩ :: host.answers) →
      Took env host (.opens req)
        { host.withStore store with found := host.found.erase req, answers } none
  | sends {answer : OpenAnswer} {payload : Option Bytes} :
      answer.payload env host.store.os = .ok payload →
      Took env host (.sends answer) { host with answers := host.answers.erase answer } payload

theorem took_of_next (completes : host.next env event = .ok (final, payload)) :
    Took env host event final payload := by
  cases event with
  | works event =>
      simp only [next, Result.bind_eq_ok] at completes
      obtain ⟨workers, moved, rest⟩ := completes
      cases rest
      exact .works moved
  | verifies req locals connects =>
      simp only [next, Result.bind_eq_ok] at completes
      obtain ⟨⟨chunks, store⟩, isVerified, rest⟩ := completes
      simp only at rest
      split at rest
      next reported =>
          split at rest <;> cases rest
          · exact .verifies isVerified (.inr ⟨reported, rfl⟩)
          · exact .verifies isVerified (.inl rfl)
      next =>
          cases rest
          exact .verifies isVerified (.inl rfl)
  | opens req =>
      simp only [next, Result.bind_eq_ok] at completes
      obtain ⟨⟨opened, store⟩, isOpened, rest⟩ := completes
      cases opened with
      | none =>
          cases rest
          exact .opens isOpened (.inl rfl)
      | some pointed =>
          obtain ⟨chunkPtr, chunkSize⟩ := pointed
          simp only at rest
          split at rest <;> cases rest
          · exact .opens isOpened (.inl rfl)
          · exact .opens isOpened (.inr ⟨_, _, rfl, rfl⟩)
  | sends answer =>
      simp only [next, Result.bind_eq_ok] at completes
      obtain ⟨payload, filled, rest⟩ := completes
      cases rest
      exact .sends filled

end Host

/-- The entry of the hash has this mapping. -/
def Mapped (store : Store) (hash : Digest) (mapping : Mapping) : Prop :=
  ∃ tf, store.ht.Entry hash tf ∧ tf.mLocation = some mapping

namespace Mapped

theorem of_table (mapped : Mapped before hash mapping) (table : after.ht = before.ht) :
    Mapped after hash mapping := by
  obtain ⟨tf, entry, isMapped⟩ := mapped
  exact ⟨tf, table ▸ entry, isMapped⟩

theorem attached (mapped : Mapped before hash mapping)
    (attached : Attached before.ht other after.ht) (different : hash ≠ other) :
    Mapped after hash mapping := by
  obtain ⟨tf, ⟨index, found⟩, isMapped⟩ := mapped
  exact ⟨tf, ⟨index, (attached.others different).trans found⟩, isMapped⟩

theorem opens {chunk : Int} {opened : Option (Location × Int)}
    (mapped : Mapped before hash mapping)
    (isOpened : openTfile env before other chunk = .ok (opened, after)) :
    Mapped after hash mapping := by
  by_cases same : hash = other
  · obtain ⟨tf, entry, isMapped⟩ := mapped
    obtain rfl := openTfile_mapped (same ▸ entry) isMapped isOpened
    exact ⟨tf, entry, isMapped⟩
  · exact mapped.attached (openTfile_attached isOpened) same

theorem saves {syncs unmaps : Bool} {code : Int} (mapped : Mapped before hash mapping)
    (isSaved : saveTfile before other syncs unmaps = .ok (code, after))
    (kept : syncs = true → unmaps = true → hash ≠ other) : Mapped after hash mapping := by
  by_cases releases : syncs = true ∧ unmaps = true
  · exact mapped.attached (saveTfile_attached isSaved) (kept releases.1 releases.2)
  · obtain rfl := Workers.saveTfile_failed releases isSaved
    exact mapped

theorem works {workers workers' : Workers} {event : WorkerEvent}
    (mapped : Mapped workers.store hash mapping) (took : Workers.Took env workers event workers')
    (kept : ∀ other, event = .saves other true true → hash ≠ other) :
    Mapped workers'.store hash mapping := by
  cases took with
  | skips isVerified | decides isVerified | verifies isVerified =>
      exact mapped.of_table (verifyTfile_files isVerified).2
  | misses isOpened | opens isOpened => exact mapped.opens isOpened
  | copies copied => exact mapped.of_table (memcpyChunk_files copied).1
  | starts | requests => exact mapped
  | @saves other syncs unmaps code store isSaved =>
      apply mapped.saves isSaved
      rintro rfl rfl
      exact kept other rfl

end Mapped

/-- The copy has this chunk of the original. -/
def HasChunk (tdef : TfileDef) (original : Bytes) (home : Path) (store : Store)
    (i : Fin numChunks) : Prop :=
  ∃ tf bytes, Copy store tdef tf (some bytes) ∧ tf.Only home ∧
    chunkOf bytes i = chunkOf original i

variable {i : Fin numChunks}

theorem HasChunk.restored (has : HasChunk tdef original home before i)
    (restored : Restored tdef original home before after) :
    HasChunk tdef original home after i := by
  obtain ⟨tf, bytes, copy, only, chunk⟩ := has
  obtain ⟨tf', content, copy', only', restores⟩ := restored tf _ copy only
  cases content with
  | none => exact absurd rfl (restores.exists_of (by simp))
  | some bytes' =>
      refine ⟨tf', bytes', copy', only', ?_⟩
      rcases restores.chunks i with same | isOriginal
      · exact same.trans chunk
      · exact isOriginal

theorem HasChunk.of_report {name : Vector UInt8 nameLen} {tf : Tfile} {content : Option Bytes}
    (copy : Copy store tdef tf content) (only : tf.Only home)
    (defined : tdef = definitionOf env name original)
    (uncollided : Uncollided env original store tdef.fHash)
    (reported : isChunkVerified (report env tf content) i.val = true) :
    HasChunk tdef original home store i := by
  obtain ⟨bytes, rfl, _, valid⟩ := reported_iff.mp reported
  obtain ⟨_, found⟩ := copy.found
  refine ⟨tf, bytes, copy, only, ?_⟩
  rw [copy.same, defined] at valid
  exact (verified_iff (uncollided _ _ _ found copy.file) i).mp valid

/-- The chunk that an answer has opened is the original's, and it can still be read. -/
structure OpenAnswer.Ready (tdef : TfileDef) (original : Bytes) (home : Path) (store : Store)
    (answer : OpenAnswer) (i : Fin numChunks) : Prop where
  index : answer.chunkIndex = i.val
  size : answer.chunkSize = chunkLen original.length i
  place : answer.chunkPtr.offset = chunkStart original.length i
  mapped : Mapped store tdef.fHash answer.chunkPtr.mapping
  chunk : HasChunk tdef original home store i

theorem OpenAnswer.Ready.payload {answer : OpenAnswer}
    (ready : answer.Ready tdef original home store i) (sized : tdef.size = original.length)
    (isHash : answer.fileHash = tdef.fHash) :
    answer.payload env store.os =
      .ok (if env.mallocOk (ChunkPayload.sizeOf + chunkLen original.length i) then
        some (chunkMessage tdef.fHash i (chunkOf original i)) else none) := by
  obtain ⟨tf, bytes, copy, _, chunk⟩ := ready.chunk
  obtain ⟨entry, ⟨index, found⟩, isMapped⟩ := ready.mapped
  obtain ⟨index', found'⟩ := copy.found
  rw [found', Except.ok.injEq, Option.some.injEq, Prod.mk.injEq] at found
  obtain ⟨_, rfl⟩ := found
  have length : bytes.length = original.length := by
    have recorded := copy.sized rfl
    omega
  have file : store.os.files answer.chunkPtr.mapping.file = some bytes := by
    rw [← copy.file]
    simp only [Tfile.home, isMapped]
  have read : slice (chunkStart original.length i) (chunkLen original.length i) bytes =
      chunkOf original i := by
    rw [← chunk, chunkOf, length]
  have inside : chunkStart original.length i + chunkLen original.length i ≤ bytes.length := by
    rw [length]
    exact chunk_inside original.length i
  rw [OpenAnswer.payload, ready.size, Int.toNat_natCast, ready.place]
  split
  next =>
      rw [Os.readMapped_slice file inside, Result.ok_bind, OpenAnswer.hdr, isHash, ready.index,
        ready.size, read, chunkMessage, length_chunkOf, BitVec.ofInt_natCast,
        BitVec.ofInt_natCast]
  next => rfl

theorem OpenAnswer.Ready.keeps {answer : OpenAnswer}
    (ready : answer.Ready tdef original home before i)
    (restored : Restored tdef original home before after)
    (mapped : Mapped after tdef.fHash answer.chunkPtr.mapping) :
    answer.Ready tdef original home after i where
  index := ready.index
  size := ready.size
  place := ready.place
  mapped := mapped
  chunk := ready.chunk.restored restored

/-- Another store for the workers, which has restored the copy and kept all mappings. -/
theorem Workers.Intact.withStore {workers : Workers}
    (intact : Workers.Intact env tdef original home workers)
    (restored : Restored tdef original home workers.store store)
    (apart : Apart store tdef.fHash home)
    (kept : ∀ {hash mapping}, Mapped workers.store hash mapping → Mapped store hash mapping) :
    Workers.Intact env tdef original home { workers with store } where
  copy := by
    obtain ⟨tf, content, copy, only⟩ := intact.copy
    obtain ⟨tf', content', copy', only', _⟩ := restored tf content copy only
    exact ⟨tf', content', copy', only'⟩
  creates := intact.creates_of restored
  apart := apart
  safe := fun handler member => kept (intact.safe handler member)
  decided := intact.decided
  opened := intact.opened
  saving := by
    intro member tf' content' copy'
    obtain ⟨tf, content, copy, only⟩ := intact.copy
    obtain rfl := intact.saving member tf content copy
    obtain ⟨_, _, found, _, restores⟩ := restored tf _ copy only
    obtain ⟨rfl, rfl⟩ := found.unique copy'
    apply restores.complete
    intro bytes present
    have before := copy.sized rfl
    have recorded := copy'.sized present
    omega

/-- A payload with the hash carries a chunk of the original. -/
structure Authentic (tdef : TfileDef) (original payload : Bytes) : Prop where
  whole : ChunkPayload.sizeOf ≤ payload.length
  chunk : (ChunkPayload.decode payload).fileHash = tdef.fHash →
    ∃ i, payload = chunkMessage tdef.fHash i (chunkOf original i)

theorem Authentic.genuine {payload buffer : Bytes} (authentic : Authentic tdef original payload)
    (length : buffer.length = messageSize) (fits : payload.length ≤ messageSize)
    (isHash : (ChunkPayload.decode (splice 0 payload buffer)).fileHash = tdef.fHash) :
    ∃ i, Genuine original i (splice 0 payload buffer) := by
  rw [splice_zero, ChunkPayload.decode_prefix authentic.whole] at isHash
  obtain ⟨i, rfl⟩ := authentic.chunk isHash
  have carries : Carries tdef.fHash original.length i (chunkOf original i)
      ⟨buffer, chunkMessage tdef.fHash i (chunkOf original i), ⟨0, fun _ => 0⟩⟩ :=
    carries_chunkMessage length rfl (length_chunkOf original i) fits
  exact ⟨i, carries.genuine⟩

/-- The workers are intact, every chunk that was found verified is in the copy, and every
chunk that is about to be sent is the original's. -/
structure Host.Intact (env : Env) (tdef : TfileDef) (original : Bytes) (home : Path)
    (host : Host) : Prop where
  workers : Workers.Intact env tdef original home host.workers
  found : ∀ req ∈ host.found, req.fileHash = tdef.fHash →
    ∃ i : Fin numChunks, req.chunkIndex.toInt = i.val ∧
      HasChunk tdef original home host.store i
  answers : ∀ answer ∈ host.answers, answer.fileHash = tdef.fHash →
    ∃ i, answer.Ready tdef original home host.store i

namespace Host

variable {host final : Host} {event : HostEvent} {payload : Option Bytes}
variable {name : Vector UInt8 nameLen}

/-- A chunk that arrives for the file is the original's. -/
def Honest (tdef : TfileDef) (original : Bytes) (event : HostEvent) : Prop :=
  ∀ dataRead locals, event = .works (.decides dataRead locals) →
    (ChunkPayload.decode dataRead).fileHash = tdef.fHash → ∃ i, Genuine original i dataRead

/-- From one state of a client to the next. -/
structure Goes (env : Env) (tdef : TfileDef) (original : Bytes) (home : Path)
    (host final : Host) (payload : Option Bytes) : Prop where
  intact : final.Intact env tdef original home
  restored : Restored tdef original home host.store final.store
  authentic : ∀ bytes, payload = some bytes → Authentic tdef original bytes

theorem Intact.works {event : WorkerEvent} {workers : Workers}
    (intact : host.Intact env tdef original home)
    (defined : tdef = definitionOf env name original) (admitted : minSize ≤ original.length)
    (counts : original.length < 2 ^ 44) (possible : host.Possible (.works event))
    (sound : host.Sound (.works event))
    (checked : host.Checked env original tdef.fHash (.works event))
    (honest : Honest tdef original (.works event))
    (completes : host.workers.next env event = .ok workers) :
    Goes env tdef original home host { host with workers } none := by
  have isHonest : host.workers.Honest env tdef original event := by
    cases event with
    | decides dataRead locals => exact honest dataRead locals rfl
    | verifies other locals =>
        rintro rfl
        exact checked rfl
    | _ => trivial
  obtain ⟨intact', restored⟩ := intact.workers.step defined admitted counts
    ⟨event, possible, sound.1, isHonest, completes⟩
  have took := Workers.took_of_next completes
  refine ⟨⟨intact', ?_, ?_⟩, restored, by simp⟩
  · intro req member isHash
    obtain ⟨i, index, has⟩ := intact.found req member isHash
    exact ⟨i, index, has.restored restored⟩
  · intro answer member isHash
    obtain ⟨i, ready⟩ := intact.answers answer member isHash
    refine ⟨i, ready.keeps restored (ready.mapped.works took ?_)⟩
    intro other saves
    exact isHash ▸ sound.2 other saves answer member

/-- A call for a request has restored the copy, and keeps the client intact. -/
theorem Intact.withStore {found : List ChunkRequest} {answers : List OpenAnswer}
    (intact : host.Intact env tdef original home)
    (restored : Restored tdef original home host.store store)
    (apart : Apart store tdef.fHash home)
    (kept : ∀ {hash mapping}, Mapped host.store hash mapping → Mapped store hash mapping)
    (fewer : ∀ req ∈ found, req ∈ host.found ∨ (req.fileHash = tdef.fHash →
      ∃ i : Fin numChunks, req.chunkIndex.toInt = i.val ∧ HasChunk tdef original home store i))
    (opened : ∀ answer ∈ answers, answer ∈ host.answers ∨ (answer.fileHash = tdef.fHash →
      ∃ i, answer.Ready tdef original home store i)) :
    Goes env tdef original home host { host.withStore store with found, answers } none := by
  refine ⟨⟨intact.workers.withStore restored apart kept, ?_, ?_⟩, restored, by simp⟩
  · intro req member isHash
    rcases fewer req member with old | new
    · obtain ⟨i, index, has⟩ := intact.found req old isHash
      exact ⟨i, index, has.restored restored⟩
    · exact new isHash
  · intro answer member isHash
    rcases opened answer member with old | new
    · obtain ⟨i, ready⟩ := intact.answers answer old isHash
      exact ⟨i, ready.keeps restored (kept ready.mapped)⟩
    · exact new isHash

theorem Intact.verifies {req : ChunkRequest} {locals : VerifyLocals} {chunks : VerifiedChunks}
    {connects : Bool} {found : List ChunkRequest} (intact : host.Intact env tdef original home)
    (defined : tdef = definitionOf env name original) (counts : original.length < 2 ^ 44)
    (checked : host.Checked env original tdef.fHash (.verifies req locals connects))
    (isVerified : verifyTfile env host.store req.fileHash locals = .ok (chunks, store))
    (grown : found = host.found ∨
      isChunkVerified chunks req.chunkIndex.toInt = true ∧ found = req :: host.found) :
    Goes env tdef original home host { host.withStore store with found } none := by
  have sized : tdef.size = original.length := by rw [defined, definitionOf_size]
  have table := (verifyTfile_files isVerified).2
  have restored : Restored tdef original home host.store store := verifyTfile_restored isVerified
  apply intact.withStore restored (intact.workers.apart.confined (verifyTfile_confined isVerified))
    (fun mapped => mapped.of_table table)
  · intro other member
    rcases grown with rfl | ⟨reported, rfl⟩
    · exact .inl member
    · rcases List.mem_cons.mp member with rfl | old
      · right
        intro isHash
        obtain ⟨tf, content, copy, only⟩ := intact.workers.copy
        obtain ⟨i, index⟩ := exists_chunk_of_verified reported
        rw [isHash] at isVerified
        obtain ⟨rfl, _⟩ := copy.report_of_verify (by omega) isVerified reported
        rw [index] at reported
        exact ⟨i, index, (HasChunk.of_report copy only defined (checked isHash)
          reported).restored restored⟩
      · exact .inl old
  · exact fun answer member => .inl member

theorem Intact.opens {req : ChunkRequest} {opened : Option (Location × Int)}
    {answers : List OpenAnswer} (intact : host.Intact env tdef original home)
    (sized : tdef.size = original.length) (positive : 0 < original.length)
    (possible : host.Possible (.opens req))
    (isOpened : openTfile env host.store req.fileHash req.chunkIndex.toInt = .ok (opened, store))
    (grown : answers = host.answers ∨ ∃ chunkPtr chunkSize, opened = some (chunkPtr, chunkSize) ∧
      answers = ⟨req.fileHash, req.chunkIndex.toInt, chunkPtr, chunkSize⟩ :: host.answers) :
    Goes env tdef original home host
      { host.withStore store with found := host.found.erase req, answers } none := by
  have confined := openTfile_confined isOpened
  have apart := intact.workers.apart.confined confined
  have kept : ∀ {hash mapping}, Mapped host.store hash mapping → Mapped store hash mapping :=
    fun mapped => mapped.opens isOpened
  have fewer : ∀ other ∈ host.found.erase req, other ∈ host.found ∨
      (other.fileHash = tdef.fHash → ∃ i : Fin numChunks, other.chunkIndex.toInt = i.val ∧
        HasChunk tdef original home store i) :=
    fun other member => .inl (List.mem_of_mem_erase member)
  by_cases own : req.fileHash = tdef.fHash
  · obtain ⟨i, index, has⟩ := intact.found req possible own
    have held := has
    obtain ⟨tf, bytes, copy, only, _⟩ := held
    rw [own, index] at isOpened
    have restored : Restored tdef original home host.store store :=
      openTfile_kept copy only (by omega) isOpened
    refine intact.withStore restored apart kept fewer ?_
    intro answer member
    rcases grown with rfl | ⟨chunkPtr, chunkSize, pointed, rfl⟩
    · exact .inl member
    · rcases List.mem_cons.mp member with rfl | old
      · right
        intro _
        subst pointed
        obtain ⟨_, found⟩ := copy.found
        obtain ⟨_, entry, mapping, found', _, _, location, _⟩ := openTfile_some isOpened
        rw [found, Except.ok.injEq, Option.some.injEq, Prod.mk.injEq] at found'
        obtain ⟨_, rfl⟩ := found'
        rw [copy.same, sized, chunkLocation_eq, Prod.mk.injEq] at location
        obtain ⟨place, length⟩ := location
        exact ⟨i, index, length, by rw [place], Workers.openTfile_current isOpened,
          has.restored restored⟩
      · exact .inl old
  · refine intact.withStore (intact.workers.apart.restored confined own) apart kept fewer ?_
    intro answer member
    rcases grown with rfl | ⟨chunkPtr, chunkSize, _, rfl⟩
    · exact .inl member
    · rcases List.mem_cons.mp member with rfl | old
      · exact .inr fun isHash => absurd isHash own
      · exact .inl old

theorem Intact.sends {answer : OpenAnswer} (intact : host.Intact env tdef original home)
    (sized : tdef.size = original.length) (possible : host.Possible (.sends answer))
    (filled : answer.payload env host.store.os = .ok payload) :
    Goes env tdef original home host
      { host with answers := host.answers.erase answer } payload := by
  refine ⟨⟨intact.workers, intact.found, ?_⟩, restored_congr rfl rfl, ?_⟩
  · exact fun other member => intact.answers other (List.mem_of_mem_erase member)
  · rintro bytes rfl
    have built : ∃ chunk, bytes = answer.hdr.bytes ++ chunk := by
      unfold OpenAnswer.payload at filled
      split at filled
      next =>
          obtain ⟨chunk, _, same⟩ := Result.bind_eq_ok.mp filled
          cases same
          exact ⟨chunk, rfl⟩
      next => simp at filled
    obtain ⟨chunk, rfl⟩ := built
    constructor
    · rw [List.length_append, ChunkPayload.length_bytes]
      exact Nat.le_add_right _ _
    · intro isHash
      rw [ChunkPayload.decode_append] at isHash
      obtain ⟨i, ready⟩ := intact.answers answer possible isHash
      rw [ready.payload sized isHash] at filled
      split at filled
      next => exact ⟨i, (Option.some.inj (Except.ok.inj filled)).symm⟩
      next => simp at filled

/-- **A step** of one client, when what arrives for the file is the original's. -/
theorem Intact.step (intact : host.Intact env tdef original home)
    (defined : tdef = definitionOf env name original) (admitted : minSize ≤ original.length)
    (counts : original.length < 2 ^ 44) (possible : host.Possible event)
    (sound : host.Sound event) (checked : host.Checked env original tdef.fHash event)
    (honest : Honest tdef original event) (took : Took env host event final payload) :
    Goes env tdef original home host final payload := by
  have sized : tdef.size = original.length := by rw [defined, definitionOf_size]
  cases took with
  | works completes =>
      exact intact.works defined admitted counts possible sound checked honest completes
  | verifies isVerified grown => exact intact.verifies defined counts checked isVerified grown
  | opens isOpened grown =>
      exact intact.opens sized (Nat.lt_of_lt_of_le (by decide) admitted) possible isOpened grown
  | sends filled => exact intact.sends sized possible filled

end Host

end Client

/-! ## Runs -/

namespace Exchange

variable {ι : Type} {env : ι → Env} {tdef : TfileDef} {original : Bytes}
variable {homes : ι → Path} {exchange after : Exchange ι} {name : Vector UInt8 nameLen}

/-- All clients are intact, and all that was sent for the file are chunks of the original. -/
structure Intact (env : ι → Env) (tdef : TfileDef) (original : Bytes) (homes : ι → Path)
    (exchange : Exchange ι) : Prop where
  hosts : ∀ client, (exchange.hosts client).Intact (env client) tdef original (homes client)
  sent : ∀ payload ∈ exchange.sent, Authentic tdef original payload

/-- From one state to a later one, all clients have restored their copies. -/
def AllRestored (tdef : TfileDef) (original : Bytes) (homes : ι → Path)
    (exchange after : Exchange ι) : Prop :=
  ∀ client, Restored tdef original (homes client) (exchange.hosts client).store
    (after.hosts client).store

/-- A message that arrives was sent by a client, so it carries a chunk of the original. -/
theorem Intact.honest {event : HostEvent} (intact : Intact env tdef original homes exchange)
    (received : Received exchange.sent tdef.fHash event) : Host.Honest tdef original event := by
  rintro dataRead locals rfl isHash
  obtain ⟨payload, member, buffer, length, fits, rfl⟩ := received isHash
  exact (intact.sent payload member).genuine length fits isHash

/-- A client holds the definition with one path, at which it can create the file, and no other
entry uses that file. -/
structure Joins (env : Env) (store : Store) (tdef : TfileDef) (original : Bytes) (home : Path) :
    Prop where
  copy : ∃ tf content, Copy store tdef tf content ∧ tf.Only home ∧
    Creates env home original.length content
  apart : Apart store tdef.fHash home

theorem intact_start {stores : ι → Store}
    (joins : ∀ client, Joins (env client) (stores client) tdef original (homes client)) :
    Intact env tdef original homes (start stores) where
  hosts client := by
    obtain ⟨tf, content, copy, only, creates⟩ := (joins client).copy
    have home := only.home_eq
    refine ⟨?_, by simp [start, Host.start], by simp [start, Host.start]⟩
    rw [← home] at only creates ⊢
    exact Workers.intact_start copy only creates (home ▸ (joins client).apart)
  sent := by simp [start]

variable [DecidableEq ι]

/-- **One step** of any client keeps all clients intact. -/
theorem Intact.step (intact : Intact env tdef original homes exchange)
    (defined : ∀ client, tdef = definitionOf (env client) name original)
    (admitted : minSize ≤ original.length) (counts : original.length < 2 ^ 44)
    (step : Step env tdef.fHash original exchange after) :
    Intact env tdef original homes after ∧ AllRestored tdef original homes exchange after := by
  obtain ⟨client, event, host, payload, possible, sound, checked, received, completes, rfl⟩ :=
    step
  have goes := (intact.hosts client).step (defined client) admitted counts possible sound
    checked (intact.honest received) (Host.took_of_next completes)
  refine ⟨⟨?_, ?_⟩, ?_⟩
  · intro other
    by_cases same : other = client
    · subst same
      rw [goes_hosts_self]
      exact goes.intact
    · rw [goes_hosts_of_ne same]
      exact intact.hosts other
  · intro bytes member
    rcases List.mem_append.mp member with new | old
    · exact goes.authentic bytes (Option.mem_toList.mp new)
    · exact intact.sent bytes old
  · intro other
    by_cases same : other = client
    · subst same
      rw [goes_hosts_self]
      exact goes.restored
    · rw [goes_hosts_of_ne same]
      exact restored_congr rfl rfl

theorem Intact.run (intact : Intact env tdef original homes exchange)
    (defined : ∀ client, tdef = definitionOf (env client) name original)
    (admitted : minSize ≤ original.length) (counts : original.length < 2 ^ 44)
    (run : ReflTransGen (Step env tdef.fHash original) exchange after) :
    Intact env tdef original homes after ∧ AllRestored tdef original homes exchange after := by
  induction run with
  | refl => exact ⟨intact, fun _ => restored_congr rfl rfl⟩
  | tail _ last ih =>
      obtain ⟨intact', restored⟩ := ih
      obtain ⟨intact'', restored'⟩ := intact'.step defined admitted counts last
      exact ⟨intact'', fun client => (restored client).trans (restored' client)⟩

/-- **Chunks that are exchanged are the original's.**  Any number of clients hold a generated
definition, each with its own copy, whatever it contains, or with none, at a path whose file no
other entry uses.  Their handlers of requests and of chunks and their downloads interleave call
by call, but no mapping is released under one of them; any requests arrive, the chunks that
arrive for the file are among those that the clients have sent and fit the buffer, and no
digests collide where it is verified.  In every such run every chunk that was sent for the file
is the original's; from each state to each later one every chunk of every copy stays as it is
or becomes the original's; and a file that `download_file` goes on to save is the original.  A
handler that has opened the file can go on, to write the chunk it has received or to send the
chunk it has found. -/
theorem exchange_restores {maker : Env} {fuel : Nat} {origin stored : Store}
    {scratch : TfileDef} {path : Path} {stores : ι → Store}
    (generated : generateTfile maker fuel origin scratch path name = .ok (0, tdef, stored))
    (file : origin.os.files path = some original)
    (sameMd5 : ∀ client, maker.md5 = (env client).md5)
    (joins : ∀ client, Joins (env client) (stores client) tdef original (homes client))
    (run : ReflTransGen (Step env tdef.fHash original) (start stores) exchange)
    (later : ReflTransGen (Step env tdef.fHash original) exchange after) :
    (∀ payload ∈ after.sent, (ChunkPayload.decode payload).fileHash = tdef.fHash →
      ∃ i, payload = chunkMessage tdef.fHash i (chunkOf original i)) ∧
    ∀ client,
      (∃ tf content tf' content', Copy (exchange.hosts client).store tdef tf content ∧
        Copy (after.hosts client).store tdef tf' content' ∧ tf.home = homes client ∧
        tf'.home = homes client ∧ Restores original tdef.size content content' ∧
        (⟨tdef.fHash, .saving⟩ ∈ (after.hosts client).workers.downloads →
          content' = some original)) ∧
      (∀ handler ∈ (after.hosts client).workers.opened, handler.fileHash = tdef.fHash →
        ∃ final, (after.hosts client).next (env client) (.works (.copies handler)) =
          .ok (final, none)) ∧
      ∀ answer ∈ (after.hosts client).answers, answer.fileHash = tdef.fHash →
        ∃ i final, (after.hosts client).next (env client) (.sends answer) =
          .ok (final, if (env client).mallocOk
              (ChunkPayload.sizeOf + chunkLen original.length i) then
            some (chunkMessage tdef.fHash i (chunkOf original i)) else none) := by
  obtain ⟨admitted, counts, definition⟩ := definitionOf_generated generated file
  have defined : ∀ client, tdef = definitionOf (env client) name original :=
    fun client => definition.trans (definitionOf_congr (sameMd5 client) name original)
  have sized : tdef.size = original.length := by
    rw [definition]
    rfl
  obtain ⟨intact, _⟩ := (intact_start joins).run defined admitted counts run
  obtain ⟨intact', restored⟩ := intact.run defined admitted counts later
  refine ⟨fun payload member => (intact'.sent payload member).chunk, fun client => ⟨?_, ?_, ?_⟩⟩
  · obtain ⟨tf, content, copy, only⟩ := (intact.hosts client).workers.copy
    obtain ⟨tf', content', copy', only', restores⟩ := restored client tf content copy only
    exact ⟨tf, content, tf', content', copy, copy', only.home_eq, only'.home_eq, restores,
      fun saving => (intact'.hosts client).workers.saving saving tf' content' copy'⟩
  · intro handler member own
    obtain ⟨tf, content, copy, _⟩ := (intact'.hosts client).workers.copy
    obtain ⟨i, bytes, store, _, _, _, copied, _⟩ :=
      (intact'.hosts client).workers.copies sized copy member own
    have written : memcpyChunk (env client) (after.hosts client).workers.store
        (some handler.dest) handler.dataRead
        (ntohl (ChunkPayload.decode handler.dataRead).chunkSize).toNat = .ok store := copied
    refine ⟨{ after.hosts client with
      workers := { (after.hosts client).workers with
        store, opened := (after.hosts client).workers.opened.erase handler } }, ?_⟩
    simp only [Host.next, Workers.next, written, Result.ok_bind]
  · intro answer member isHash
    obtain ⟨i, ready⟩ := (intact'.hosts client).answers answer member isHash
    refine ⟨i, { after.hosts client with
      answers := (after.hosts client).answers.erase answer }, ?_⟩
    simp only [Host.next, ready.payload sized isHash, Result.ok_bind]

/-! ## Handlers that are not interrupted -/

section Whole

variable {hash : Digest} {store final : Store} {client : ι}

/-- The message that an answer sends. -/
def payloadOf : Answer → Option Bytes
  | .chunk payload => some payload
  | .relay | .silent => none

/-- `send_chunk_message` in two steps. -/
theorem sendChunkMessage_steps {env : Env} {chunk : Int} {payload : Option Bytes}
    (isSent : sendChunkMessage env store hash chunk = .ok (payload, final)) :
    ∃ opened, openTfile env store hash chunk = .ok (opened, final) ∧
      ((opened = none ∧ payload = none) ∨ ∃ chunkPtr chunkSize,
        opened = some (chunkPtr, chunkSize) ∧ (chunkSize ≤ 0 ∧ payload = none ∨
          ¬chunkSize ≤ 0 ∧
            OpenAnswer.payload env final.os ⟨hash, chunk, chunkPtr, chunkSize⟩ =
              .ok payload)) := by
  simp only [sendChunkMessage, Result.bind_eq_ok] at isSent
  obtain ⟨⟨opened, store'⟩, isOpened, rest⟩ := isSent
  cases opened with
  | none =>
      cases rest
      exact ⟨none, isOpened, .inl ⟨rfl, rfl⟩⟩
  | some pointed =>
      obtain ⟨chunkPtr, chunkSize⟩ := pointed
      simp only at rest
      split at rest
      next empty =>
          cases rest
          exact ⟨_, isOpened, .inr ⟨_, _, rfl, .inl ⟨empty, rfl⟩⟩⟩
      next nonempty =>
          split at rest
          next allocates =>
              obtain ⟨bytes, read, same⟩ := Result.bind_eq_ok.mp rest
              cases same
              refine ⟨_, isOpened, .inr ⟨_, _, rfl, .inr ⟨nonempty, ?_⟩⟩⟩
              rw [OpenAnswer.payload, if_pos allocates, read]
              rfl
          next fails =>
              cases rest
              refine ⟨_, isOpened, .inr ⟨_, _, rfl, .inr ⟨nonempty, ?_⟩⟩⟩
              rw [OpenAnswer.payload, if_neg fails]

theorem step_verifies {req : ChunkRequest} {locals : VerifyLocals} {chunks : VerifiedChunks}
    (connects : Bool) (idle : exchange.hosts client = .start store)
    (uncollided : req.fileHash = hash → Uncollided (env client) original store hash)
    (isVerified : verifyTfile (env client) store req.fileHash locals = .ok (chunks, final)) :
    Step env hash original exchange (exchange.goes client
      { Host.start final with
        found := if isChunkVerified chunks req.chunkIndex.toInt && connects then [req] else [] }
      none) := by
  refine ⟨client, .verifies req locals connects, _, none, trivial, trivial, ?_, trivial, ?_, rfl⟩
  · rw [idle]
    exact uncollided
  · rw [idle]
    simp only [Host.next, Host.start, Host.store, Workers.start, isVerified, Result.ok_bind]
    cases isChunkVerified chunks req.chunkIndex.toInt <;> cases connects <;> rfl

theorem step_opens {req : ChunkRequest} {opened : Option (Location × Int)}
    (waiting : exchange.hosts client = { Host.start store with found := [req] })
    (isOpened : openTfile (env client) store req.fileHash req.chunkIndex.toInt =
      .ok (opened, final)) :
    Step env hash original exchange (exchange.goes client
      { Host.start final with
        answers := match opened with
          | none => []
          | some (chunkPtr, chunkSize) =>
              if chunkSize ≤ 0 then []
              else [⟨req.fileHash, req.chunkIndex.toInt, chunkPtr, chunkSize⟩] }
      none) := by
  refine ⟨client, .opens req, _, none, ?_, trivial, trivial, trivial, ?_, rfl⟩
  · rw [waiting]
    exact List.mem_singleton_self req
  · rw [waiting]
    simp only [Host.next, Host.start, Host.store, Workers.start, isOpened, Result.ok_bind,
      List.erase_cons_head]
    cases opened with
    | none => rfl
    | some pointed =>
        simp only
        split <;> rfl

theorem step_sends {answer : OpenAnswer} {payload : Option Bytes}
    (waiting : exchange.hosts client = { Host.start store with answers := [answer] })
    (filled : answer.payload (env client) store.os = .ok payload) :
    Step env hash original exchange (exchange.goes client (.start store) payload) := by
  refine ⟨client, .sends answer, _, payload, ?_, trivial, trivial, trivial, ?_, rfl⟩
  · rw [waiting]
    exact List.mem_singleton_self answer
  · rw [waiting]
    simp only [Host.next, Host.start, Host.store, Workers.start, filled, Result.ok_bind,
      List.erase_cons_head]

theorem serves {req : ChunkRequest} {locals : VerifyLocals} {connects : Bool} {answer : Answer}
    (idle : exchange.hosts client = .start store)
    (uncollided : req.fileHash = hash → Uncollided (env client) original store hash)
    (served : handleRequest (env client) store req locals connects = .ok (answer, final)) :
    ReflTransGen (Step env hash original) exchange
      (exchange.goes client (.start final) (payloadOf answer)) := by
  obtain ⟨chunks, verified, isVerified, outcome⟩ := handleRequest_cases served
  have verifies := step_verifies connects idle uncollided isVerified
  rcases outcome with ⟨missing, rfl, rfl⟩ | ⟨reported, rfl, rfl, rfl⟩ |
    ⟨reported, rfl, payload, isSent, rfl⟩
  · rw [missing] at verifies
    exact .single verifies
  · rw [reported] at verifies
    exact .single verifies
  · rw [reported] at verifies
    obtain ⟨opened, isOpened, outcome⟩ := sendChunkMessage_steps isSent
    have opens : Step env hash original (exchange.goes client _ none) _ :=
      step_opens goes_hosts_self isOpened
    rw [goes_goes] at opens
    have both := (ReflTransGen.single verifies).tail opens
    rcases outcome with ⟨rfl, rfl⟩ | ⟨chunkPtr, chunkSize, rfl, ⟨empty, rfl⟩ |
      ⟨nonempty, filled⟩⟩
    · exact both
    · simp only [if_pos empty] at both
      exact both
    · simp only [if_neg nonempty] at both
      have sends : Step env hash original (exchange.goes client _ none) _ :=
        step_sends goes_hosts_self filled
      rw [goes_goes] at sends
      cases payload with
      | none => exact both.tail sends
      | some bytes => exact both.tail sends

theorem step_works (event : WorkerEvent) {workers workers' : Workers}
    (waiting : exchange.hosts client = ⟨workers, [], []⟩) (possible : workers.Possible event)
    (sound : workers.Sound event)
    (checked : Host.Checked (env client) original hash ⟨workers, [], []⟩ (.works event))
    (received : Received exchange.sent hash (.works event))
    (completes : workers.next (env client) event = .ok workers') :
    Step env hash original exchange (exchange.goes client ⟨workers', [], []⟩ none) := by
  refine ⟨client, .works event, _, none, ?_, ?_, ?_, received, ?_, rfl⟩
  · rw [waiting]
    exact possible
  · rw [waiting]
    exact ⟨sound, fun _ _ answer member => absurd member List.not_mem_nil⟩
  · rw [waiting]
    exact checked
  · rw [waiting]
    simp only [Host.next, completes, Result.ok_bind]

theorem handles {message : FileData} (idle : exchange.hosts client = .start store)
    (member : message.payload ∈ exchange.sent) (buffer : message.dataRead.length = messageSize)
    (fits : message.payload.length ≤ messageSize)
    (handled : readFileData (env client) store message = .ok final) :
    ReflTransGen (Step env hash original) exchange
      (exchange.goes client (.start final) none) := by
  simp only [readFileData, receiveInto, Result.bind_eq_ok] at handled
  obtain ⟨dataRead, isReceived, handled⟩ := handled
  rw [if_pos (by omega), Except.ok.injEq] at isReceived
  have received : ∀ {locals}, Received exchange.sent hash (.works (.decides dataRead locals)) :=
    fun _ => ⟨message.payload, member, message.dataRead, buffer, fits, isReceived.symm⟩
  obtain ⟨chunks, verified, isVerified, outcome⟩ := handleFileData_cases handled
  rcases outcome with ⟨reported, rfl⟩ | ⟨unreported, pointed, opened, isOpened, copied⟩
  · apply ReflTransGen.single
    apply step_works (.decides dataRead message.locals) idle trivial trivial trivial received
    simp only [Workers.next, Workers.start, isVerified, Result.ok_bind, reported, if_true]
  · have decides : Step env hash original exchange
        (exchange.goes client ⟨⟨verified, [dataRead], [], []⟩, [], []⟩ none) := by
      apply step_works (.decides dataRead message.locals) idle trivial trivial trivial received
      simp only [Workers.next, Workers.start, isVerified, Result.ok_bind, unreported,
        Bool.false_eq_true, if_false]
    cases pointed with
    | none =>
        have nothing : (ChunkPayload.decode dataRead).claimedSize = 0 ∧ final = opened := by
          rcases memcpyChunk_cases copied with nothing | ⟨_, _, _, isDest, _⟩
          · exact nothing
          · simp at isDest
        have isOpen : Workers.next (env client) ⟨verified, [dataRead], [], []⟩
            (.opens dataRead) = .ok (.start final) := by
          simp only [Workers.next, Workers.start, isOpened, Result.ok_bind, List.erase_cons_head,
            if_pos nothing.1, nothing.2]
        have opens : Step env hash original
            (exchange.goes client ⟨⟨verified, [dataRead], [], []⟩, [], []⟩ none) _ :=
          step_works (.opens dataRead) goes_hosts_self (List.mem_singleton_self _) trivial
            trivial trivial isOpen
        rw [goes_goes] at opens
        exact (ReflTransGen.single decides).tail opens
    | some pointed =>
        obtain ⟨dest, size⟩ := pointed
        have isOpen : Workers.next (env client) ⟨verified, [dataRead], [], []⟩
            (.opens dataRead) = .ok ⟨opened, [], [⟨dataRead, dest⟩], []⟩ := by
          simp only [Workers.next, isOpened, Result.ok_bind, List.erase_cons_head]
        have opens : Step env hash original
            (exchange.goes client ⟨⟨verified, [dataRead], [], []⟩, [], []⟩ none) _ :=
          step_works (.opens dataRead) goes_hosts_self (List.mem_singleton_self _) trivial trivial
            trivial isOpen
        have isCopied : Workers.next (env client) ⟨opened, [], [⟨dataRead, dest⟩], []⟩
            (.copies ⟨dataRead, dest⟩) = .ok (.start final) := by
          have made : memcpyChunk (env client) opened (some dest) dataRead
              (ntohl (ChunkPayload.decode dataRead).chunkSize).toNat = .ok final := copied
          simp only [Workers.next, Workers.start, made, Result.ok_bind, List.erase_cons_head]
        have copies : Step env hash original
            (exchange.goes client ⟨⟨opened, [], [⟨dataRead, dest⟩], []⟩, [], []⟩ none) _ :=
          step_works (.copies ⟨dataRead, dest⟩) goes_hosts_self (List.mem_singleton_self _)
            trivial trivial trivial isCopied
        rw [goes_goes] at opens copies
        exact ((ReflTransGen.single decides).tail opens).tail copies

/-- Every client is idle with its store, and the replies in flight were sent. -/
def Covers (swarm : Swarm ι) (exchange : Exchange ι) : Prop :=
  (∀ client, exchange.hosts client = .start (swarm.stores client)) ∧
    ∀ reply ∈ swarm.replies, reply.2.2 ∈ exchange.sent

theorem Covers.goes {swarm : Swarm ι} (covers : Covers swarm exchange)
    {payload : Option Bytes} {requests : List (ι × ChunkRequest)}
    {replies : List (ι × ChunkRequest × Bytes)}
    (sent : ∀ reply ∈ replies, reply ∈ swarm.replies ∨ payload = some reply.2.2) :
    Covers ⟨Function.update swarm.stores client final, requests, replies⟩
      (exchange.goes client (.start final) payload) := by
  constructor
  · intro other
    by_cases same : other = client
    · subst same
      simp only [goes_hosts_self, Function.update_self]
    · simp only [goes_hosts_of_ne same, covers.1 other, Function.update_of_ne same]
  · intro reply member
    apply List.mem_append.mpr
    rcases sent reply member with old | rfl
    · exact .inr (covers.2 reply old)
    · exact .inl (by simp)

/-- **The swarm is a special case**: what its clients do in a run, each handler without being
interrupted, they can do here. -/
theorem swarm_run {swarm final : Swarm ι}
    (run : ReflTransGen (SwarmStep env hash original) swarm final)
    (covers : Covers swarm exchange) :
    ∃ after, ReflTransGen (Step env hash original) exchange after ∧ Covers final after := by
  refine @simulation_run _ _ _ _ _ _ Covers ?_ run _ covers
  intro swarm next exchange covers step
  cases step with
  | ask => exact ⟨exchange, .refl, covers⟩
  | @serve client dest peers req locals connects answer after requested uncollided served =>
      refine ⟨_, serves (covers.1 client) (fun _ => uncollided) served, covers.goes ?_⟩
      intro reply member
      rcases List.mem_append.mp member with old | new
      · exact .inl old
      · right
        cases answer with
        | chunk payload =>
            obtain rfl := List.mem_singleton.mp new
            rfl
        | relay | silent => exact absurd new List.not_mem_nil
  | @handle client req message after member buffer fits handled =>
      refine ⟨_, handles (covers.1 client) (covers.2 _ member) buffer fits handled,
        covers.goes ?_⟩
      exact fun reply member => .inl (List.mem_of_mem_erase member)

end Whole

/-- The paths of the sample file at its two clients: the one that generated the definition, and
one that received it. -/
def sampleHomes (server : Bool) : Path :=
  if server then samplePath else heldDef.namePath

def sampleStores (server : Bool) : Store :=
  if server then sampleServer else sampleReceiver staleContent

theorem sampleStores_joins (server : Bool) :
    Joins sampleEnv (sampleStores server) heldDef sampleContent (sampleHomes server) := by
  cases server with
  | true =>
      refine ⟨⟨_, _, sampleServer_copy, ?_, creates_some _ _ _ _⟩, ?_⟩
      · rintro path (atHome | located)
        · exact atHome
        · exact located
      · intro other tf different ⟨index, found⟩
        have same := lookupTfile_setLocations_of_ne (lookupTfile_first heldDef_ne_zero) different
          (some samplePath) none
        exact Workers.sampleReceiver_apart sampleContent samplePath other tf different
          ⟨index, same.symm.trans found⟩
  | false =>
      refine ⟨⟨_, _, sampleReceiver_copy length_staleContent, ?_, creates_some _ _ _ _⟩,
        Workers.sampleReceiver_apart _ _⟩
      rintro path (atHome | located)
      · exact atHome
      · exact located

/-- The server is asked for the first chunk, and sends it. -/
theorem exchange_restores_sample :
    ∃ (exchange : Exchange Bool) (payload : Bytes),
      ReflTransGen (Step (fun _ => sampleEnv) heldDef.fHash sampleContent) (start sampleStores)
        exchange ∧
      exchange.sent = [payload] ∧ (ChunkPayload.decode payload).fileHash = heldDef.fHash ∧
      ∃ i, payload = chunkMessage heldDef.fHash i (chunkOf sampleContent i) := by
  obtain ⟨chunks, verified, after, judged, reported, sent⟩ :=
    sampleServer_serves 0 ⟨0, fun _ => 0⟩
  have distinct : Distinguished sampleEnv sampleContent sampleContent :=
    ⟨fun _ => rfl, fun _ _ => rfl⟩
  have served : handleRequest sampleEnv sampleServer sampleRequest ⟨0, fun _ => 0⟩ true =
      .ok (.chunk (chunkMessage heldDef.fHash 0 (chunkOf sampleContent 0)), after) := by
    have index : sampleRequest.chunkIndex.toInt = (0 : Fin numChunks).val := by decide
    have isHash : sampleRequest.fileHash = heldDef.fHash := rfl
    simp only [handleRequest, isHash, judged, Result.ok_bind, index, reported, if_true, sent]
  have idle : (start sampleStores).hosts true = .start sampleServer := rfl
  have run := @serves _ (fun _ => sampleEnv) sampleContent _ _ heldDef.fHash _ _ true _ _ _ _ idle
    (fun _ => sampleServer_copy.uncollided distinct) served
  have isHash : (ChunkPayload.decode
      (chunkMessage heldDef.fHash 0 (chunkOf sampleContent 0))).fileHash = heldDef.fHash := by
    rw [chunkMessage, ChunkPayload.decode_append]
  obtain ⟨carry, _⟩ := exchange_restores sampleServer_generated (sampleStore_file sampleContent)
    (fun _ => rfl) sampleStores_joins run .refl
  exact ⟨_, _, run, rfl, isHash, carry _ (List.mem_singleton_self _) isHash⟩

end Exchange

end Grintorrent
