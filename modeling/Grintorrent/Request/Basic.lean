import Grintorrent.Client.Reading
import Grintorrent.Gossip.Basic

/-!
# Requests in the network

`download_file` sends a `REQUEST_FILE_DATA` message to all peers of a client.  A
`readWorker` that receives it answers it, by connecting to the return address, if its
client has the chunk verified, and relays it to its own peers if not.  All connections
exist when the request is sent.  A step is the delivery of one copy, in any order, or
anything else that a client does to its table and its files in between.
-/

namespace Grintorrent

open Lib

/-- `struct sockaddr_in`: the family `AF_INET`, the port in network order, the address,
and padding of zeros. -/
def sockaddrIn (sinPort : BitVec 16) (sAddr : BitVec 32) : Bytes :=
  leBytes 2 2 ++ (leBytes 2 sinPort.toNat).reverse ++ leBytes 4 sAddr.toNat ++
    List.replicate 8 0

/-- `INADDR_ANY`. -/
def inaddrAny : BitVec 32 := 0

namespace ChunkRequest

/-- The bytes of the record.  Those behind `ttl` have no defined value. -/
def bytes (req : ChunkRequest) (padding : Vector UInt8 3) : Bytes :=
  leBytes 16 req.fileHash.toNat ++ leBytes 4 req.chunkIndex.toNat ++ req.returnAddr ++
    leBytes 4 req.returnAddrLen.toNat ++ leBytes 1 req.ttl.toNat ++ padding.toList

/-- The request that `download_file` builds for a chunk. -/
def forDownload (fileHash : Digest) (i : Fin numChunks) (tempPort : BitVec 16) :
    ChunkRequest where
  fileHash := fileHash
  chunkIndex := BitVec.ofNat 32 i.val
  returnAddr := sockaddrIn tempPort inaddrAny
  returnAddrLen := 16
  ttl := 5

variable {fileHash : Digest} {i : Fin numChunks} {tempPort : BitVec 16}
variable {padding : Vector UInt8 3}

@[simp] theorem length_returnAddr :
    (forDownload fileHash i tempPort).returnAddr.length = 16 := by
  simp [forDownload, sockaddrIn]

@[simp] theorem length_bytes : ((forDownload fileHash i tempPort).bytes padding).length =
    sizeOf := by
  simp [bytes, sizeOf]

theorem decode_bytes {req : ChunkRequest} (address : req.returnAddr.length = 16)
    (rest : Bytes) : decode (req.bytes padding ++ rest) = req := by
  have hashBytes : slice 0 16 (req.bytes padding ++ rest) = leBytes 16 req.fileHash.toNat := by
    simp [slice, bytes]
  have indexBytes : slice 16 4 (req.bytes padding ++ rest) =
      leBytes 4 req.chunkIndex.toNat := by
    simp [slice, bytes]
  have addressBytes : slice 20 16 (req.bytes padding ++ rest) = req.returnAddr := by
    simp [slice, bytes, address, List.drop_append, List.take_append]
  have lenBytes : slice 36 4 (req.bytes padding ++ rest) =
      leBytes 4 req.returnAddrLen.toNat := by
    simp [slice, bytes, address, List.drop_append,
      List.drop_eq_nil_of_le]
  have ttlBytes : slice 40 1 (req.bytes padding ++ rest) = leBytes 1 req.ttl.toNat := by
    simp [slice, bytes, address, List.drop_append,
      List.drop_eq_nil_of_le]
  simp only [decode, hashBytes, indexBytes, addressBytes, lenBytes, ttlBytes]
  rw [leNat_leBytes (by simpa using req.fileHash.isLt),
    leNat_leBytes (by simpa using req.chunkIndex.isLt),
    leNat_leBytes (by simpa using req.returnAddrLen.isLt),
    leNat_leBytes (by simpa using req.ttl.isLt)]
  simp

end ChunkRequest

/-- The clients and their connections: the peer list of each, and the `int` that lies
behind the argument of the `readWorker` of each connection. -/
structure Peering (ι : Type) where
  env : ι → Env
  descriptors : Descriptors ι
  peers : ι → Peers
  behind : ι → ι → Fd

/-- What the `readWorker` of a connection loaded from its argument. -/
def Peering.argument {ι : Type} (net : Peering ι) (client peer : ι) : ClientServer :=
  .load (net.descriptors.fd client peer) (net.behind client peer)

/-- A copy of the request in flight: who sent it, on which descriptor, and the clients
that it left before, the latest first. -/
structure RequestCopy (ι : Type) where
  source : ι
  fd : Fd
  earlier : List ι
  bytes : Bytes
  deriving DecidableEq

namespace RequestCopy

variable {ι : Type}

/-- Over how many connections the copy has been sent. -/
def hops (copy : RequestCopy ι) : Nat := copy.earlier.length + 1

/-- The copy that the client sends on after this one. -/
def relayed (client : ι) (copy : RequestCopy ι) : Sent → Option (RequestCopy ι)
  | .request fd bytes => some ⟨client, fd, copy.source :: copy.earlier, bytes⟩
  | _ => none

end RequestCopy

/-- The stores of the clients and the copies in flight.  `received` records which client
received which copy, and `connects` which addresses the clients passed to
`socket_connect_addr`. -/
structure Relays (ι : Type) where
  stores : ι → Store
  flight : List (RequestCopy ι)
  received : List (ι × RequestCopy ι)
  connects : List (ι × Bytes × BitVec 32)

variable {ι : Type}

/-- The client has sent the request to all its peers. -/
def Relays.start (net : Peering ι) (stores : ι → Store) (origin : ι) (bytes : Bytes) :
    Relays ι where
  stores := stores
  flight := (net.peers origin).arr.map fun fd => ⟨origin, fd, [], bytes⟩
  received := []
  connects := []

/-- A client has handled a copy. -/
def Relays.deliver [DecidableEq ι] (state : Relays ι) (client : ι) (copy : RequestCopy ι)
    (handled : Handled) : Relays ι where
  stores := Function.update state.stores client handled.store
  flight := state.flight.erase copy ++ handled.sent.filterMap (copy.relayed client)
  received := (client, copy) :: state.received
  connects := (handled.connect.map fun addr => (client, addr)).toList ++ state.connects

/-- The copy reaches the client, whose `readWorker` finds it in front of what its buffer
held, and handles it. -/
structure Arrives (net : Peering ι) (state : Relays ι) (client : ι) (copy : RequestCopy ι)
    (calls : Calls) (rest : Bytes) (handled : Handled) : Prop where
  flying : copy ∈ state.flight
  fd : copy.fd = net.descriptors.fd copy.source client
  handles : handleMessage (net.env client) calls (state.stores client) (net.peers client)
    (net.argument client copy.source) requestFileData (copy.bytes ++ rest) = .ok handled

/-- A condition on the deliveries of a run: the state, the client and the copy. -/
abbrev DeliveryCondition (ι : Type) := Relays ι → ι → RequestCopy ι → Prop

/-- The steps of the network in which every delivery meets a condition. -/
inductive RequestStep [DecidableEq ι] (net : Peering ι) (meets : DeliveryCondition ι) :
    Relays ι → Relays ι → Prop where
  /-- A copy is delivered. -/
  | deliver {state : Relays ι} {client : ι} {copy : RequestCopy ι} {calls : Calls}
      {rest : Bytes} {handled : Handled} :
      Arrives net state client copy calls rest handled → meets state client copy →
      RequestStep net meets state (state.deliver client copy handled)
  /-- A client does something else. -/
  | other (state : Relays ι) (client : ι) (store : Store) :
      RequestStep net meets state
        { state with stores := Function.update state.stores client store }

namespace Arrives

variable {net : Peering ι} {state : Relays ι} {client : ι} {copy new : RequestCopy ι}
variable {calls : Calls} {rest : Bytes} {handled : Handled}

/-- The client has the chunk, and would answer a request for it. -/
def Holds (net : Peering ι) (state : Relays ι) (client : ι) (copy : RequestCopy ι) : Prop :=
  ∀ rest locals chunks verified,
    verifyTfile (net.env client) (state.stores client)
      (ChunkRequest.decode (copy.bytes ++ rest)).fileHash locals = .ok (chunks, verified) →
    isChunkVerified chunks (ChunkRequest.decode (copy.bytes ++ rest)).chunkIndex.toInt = true

/-- The copies that the client relays: one for each peer but the one that `readWorker`
takes for the sender. -/
def onward (net : Peering ι) (client : ι) (copy : RequestCopy ι) (rest : Bytes) :
    List (RequestCopy ι) :=
  ((net.peers client).recipients (net.argument client copy.source).clientFd).map fun fd =>
    ⟨client, fd, copy.source :: copy.earlier,
      slice 0 ChunkRequest.sizeOf (copy.bytes ++ rest)⟩

/-- Which copies a delivery puts in flight: none if the chunk is verified and the client
connects to the return address. -/
theorem relays (arrives : Arrives net state client copy calls rest handled) :
    (handled.connect ≠ none ∧ handled.sent.filterMap (copy.relayed client) = []) ∨
    (handled.connect = none ∧ ¬Holds net state client copy ∧
      handled.sent.filterMap (copy.relayed client) = onward net client copy rest) := by
  obtain ⟨chunks, verified, returned, ⟨_, connects, silent⟩ | ⟨unverified, stays, sent⟩⟩ :=
    handleMessage_request arrives.handles
  · left
    constructor
    · simp [connects]
    · apply List.filterMap_eq_nil_iff.mpr
      intro sent member
      cases sent with
      | request fd bytes => exact absurd member (silent fd bytes)
      | addrSelf => rfl
      | chunk => rfl
  · right
    have each : (copy.relayed client ∘ fun fd =>
        Sent.request fd (slice 0 ChunkRequest.sizeOf (copy.bytes ++ rest))) =
          some ∘ fun fd => ⟨client, fd, copy.source :: copy.earlier,
            slice 0 ChunkRequest.sizeOf (copy.bytes ++ rest)⟩ := rfl
    refine ⟨stays, ?_, ?_⟩
    · intro holds
      rw [holds rest calls.locals chunks verified returned] at unverified
      simp at unverified
    · rw [sent, List.filterMap_map, each, List.filterMap_eq_map]
      rfl

/-- The client passes the return address of the request to `socket_connect_addr`, or no
address. -/
theorem connect (arrives : Arrives net state client copy calls rest handled) :
    handled.connect = none ∨
    handled.connect = some ((ChunkRequest.decode (copy.bytes ++ rest)).returnAddr,
      (ChunkRequest.decode (copy.bytes ++ rest)).returnAddrLen) := by
  obtain ⟨_, _, _, ⟨_, connects, _⟩ | ⟨_, none, _⟩⟩ := handleMessage_request arrives.handles
  · exact .inr connects
  · exact .inl none

theorem unknown (flying : copy ∈ state.flight)
    (fd : copy.fd = net.descriptors.fd copy.source client)
    (missing : lookupTfile (state.stores client).ht
      (ChunkRequest.decode (copy.bytes ++ rest)).fileHash = .ok none) :
    Arrives net state client copy calls rest
      { store := state.stores client
        peers := net.peers client
        sent := ((net.peers client).recipients (net.argument client copy.source).clientFd).map
          fun fd => .request fd (slice 0 ChunkRequest.sizeOf (copy.bytes ++ rest)) } :=
  ⟨flying, fd, handleMessage_unknown missing⟩

end Arrives

/-- A request of `download_file` for a file that no client has an entry for. -/
def strangeRequest : Bytes :=
  (ChunkRequest.forDownload 1 0 9000).bytes (Vector.replicate 3 0)

/-- A request for the first chunk of the file that `sampleServer` holds. -/
def heldRequest : Bytes :=
  (ChunkRequest.forDownload heldDef.fHash 0 9000).bytes (Vector.replicate 3 0)

theorem decode_heldRequest (rest : Bytes) :
    ChunkRequest.decode (heldRequest ++ rest) = .forDownload heldDef.fHash 0 9000 :=
  ChunkRequest.decode_bytes ChunkRequest.length_returnAddr rest

/-- Two connected clients, with these `int`s behind the arguments of their readers. -/
def pairPeering (behind : Bool → Fd) : Peering Bool where
  env _ := sampleEnv
  descriptors := pairDescriptors
  peers client := ⟨100, 100, [pairDescriptors.fd client (!client)]⟩
  behind client _ := behind client

end Grintorrent
