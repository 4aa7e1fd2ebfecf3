import Grintorrent.Client.Peers
import Grintorrent.Gossip.Table
import Mathlib.Logic.Function.Basic

/-!
# Gossip of definitions

The clients of a network exchange the definitions of files as `TFILE_DEF` messages.
A client that accepts a connection runs `add_peer` and `list_tfiles` and starts
`share_tfiles_to_peer` on the list; a client that generates or receives a definition
runs `add_htable` and starts `share_tfile_to_peers`.  Each of these calls is one step,
and between the calls of a thread those of all others may come.  Both sharing workers
hold `peers.lock` while they send, so the peer list does not change during a step; a
message that a worker has still to write is, like one in a socket's buffer, a message
in flight.

Connections do not fail in this model, and a message may overtake another one.
-/

namespace Grintorrent

/-- A client.  `accepts` are the connections made to it that `connectWorker` has not
taken up, `listings` those it has added to the peer list without having called
`list_tfiles`; `snapshots` and `shares` are the sharing workers that have not run. -/
structure Node where
  peers : Peers
  defs : Defs
  accepts : List Fd
  listings : List Fd
  snapshots : List SendTfiles
  shares : List SendTfile
  deriving DecidableEq

namespace Node

/-- A client before it does anything. -/
def init : Node where
  peers := .init
  defs := []
  accepts := []
  listings := []
  snapshots := []
  shares := []

/-- No step of the client's own is pending. -/
def Idle (node : Node) : Prop :=
  node.accepts = [] ∧ node.listings = [] ∧ node.snapshots = [] ∧ node.shares = []

/-- `main` connects to a peer. -/
def connect (node : Node) (fd : Fd) : Node :=
  { node with peers := node.peers.added fd }

/-- A connection reaches the listening socket. -/
def knock (node : Node) (fd : Fd) : Node :=
  { node with accepts := fd :: node.accepts }

/-- `connectWorker` as far as `add_peer`. -/
def accept (node : Node) (fd : Fd) : Node :=
  { node with
    accepts := node.accepts.erase fd
    peers := node.peers.added fd
    listings := fd :: node.listings }

/-- `connectWorker` from `list_tfiles` on. -/
def listTfiles (node : Node) (fd : Fd) : Node :=
  { node with
    listings := node.listings.erase fd
    snapshots := ⟨node.defs.list, fd⟩ :: node.snapshots }

/-- `share_tfiles_to_peer`. -/
def shareTfilesToPeer (node : Node) (data : SendTfiles) : Node :=
  { node with snapshots := node.snapshots.erase data }

/-- `share_tfile_to_peers`. -/
def shareTfileToPeers (node : Node) (data : SendTfile) : Node :=
  { node with shares := node.shares.erase data }

/-- A definition is stored and the worker that shares it started: `main` with a
generated file, where the sender is `NO_SENDER_PEER`, and `readWorker` with a
`TFILE_DEF` message, where it is the connection of the message.  The worker is
started whether or not the table had an entry for the hash. -/
def store (node : Node) (sender : Fd) (tdef : TfileDef) : Node :=
  { node with
    defs := node.defs.add tdef
    shares := ⟨tdef, sender⟩ :: node.shares }

end Node

/-- The steps of `connectWorker` and of the sharing workers, with the definitions
they send and the descriptor each is written to. -/
inductive Works : Node → List (Fd × TfileDef) → Node → Prop where
  | accept (node : Node) {fd : Fd} :
      fd ∈ node.accepts → Works node [] (node.accept fd)
  | listTfiles (node : Node) {fd : Fd} :
      fd ∈ node.listings → Works node [] (node.listTfiles fd)
  | shareTfilesToPeer (node : Node) {data : SendTfiles} :
      data ∈ node.snapshots →
      Works node (data.tfileArr.map fun tdef => (data.peer, tdef))
        (node.shareTfilesToPeer data)
  | shareTfileToPeers (node : Node) {data : SendTfile} :
      data ∈ node.shares →
      Works node ((node.peers.recipients data.sender).map fun fd => (fd, data.tfile))
        (node.shareTfileToPeers data)

/-! ## The network -/

/-- The descriptors under which each client holds its connections.  Two clients have
at most one connection, and those of a client have different descriptors. -/
structure Descriptors (ι : Type) where
  fd : ι → ι → Fd
  injective : ∀ client, Function.Injective (fd client)
  nonneg : ∀ client peer, 0 ≤ fd client peer

namespace Descriptors

variable {ι : Type} (descriptors : Descriptors ι) {client peer other : ι}

theorem fd_inj : descriptors.fd client peer = descriptors.fd client other ↔ peer = other :=
  (descriptors.injective client).eq_iff

theorem fd_ne_noSenderPeer : descriptors.fd client peer ≠ noSenderPeer := by
  intro equal
  have nonneg := descriptors.nonneg client peer
  rw [equal] at nonneg
  exact absurd nonneg (by decide)

end Descriptors

/-- Two clients that hold their connection under descriptors 3 and 4. -/
def pairDescriptors : Descriptors Bool where
  fd _ peer := if peer then 4 else 3
  injective _ := by decide
  nonneg _ peer := by cases peer <;> decide

/-- A definition in flight: who sent it, on which of its descriptors. -/
structure Packet (ι : Type) where
  source : ι
  fd : Fd
  tdef : TfileDef
  deriving DecidableEq

/-- A definition that `readWorker` received. -/
structure Delivery (ι : Type) where
  source : ι
  target : ι
  tdef : TfileDef
  deriving DecidableEq

/-- The clients that have joined, the state of each, and the messages in flight.
`generated` and `delivered` record who generated and who received what so far; no
step reads them. -/
structure Network (ι : Type) where
  joined : List ι
  nodes : ι → Node
  flight : List (Packet ι)
  generated : List (ι × TfileDef)
  delivered : List (Delivery ι)

variable {ι : Type} [DecidableEq ι]

/-- The network of a first client. -/
def Network.init (root : ι) : Network ι where
  joined := [root]
  nodes _ := .init
  flight := []
  generated := []
  delivered := []

/-- Change the state of one client. -/
def Network.update (network : Network ι) (client : ι) (node : Node) : Network ι :=
  { network with nodes := Function.update network.nodes client node }

namespace Network

variable (network : Network ι) (client : ι) (node : Node)

@[simp] theorem update_generated :
    (network.update client node).generated = network.generated := rfl

@[simp] theorem update_delivered :
    (network.update client node).delivered = network.delivered := rfl

@[simp] theorem update_nodes_self : (network.update client node).nodes client = node :=
  Function.update_self ..

@[simp] theorem update_nodes_of_ne {other : ι} (different : other ≠ client) :
    (network.update client node).nodes other = network.nodes other :=
  Function.update_of_ne different ..

/-- A client whose table grows keeps every table at least as large. -/
theorem defs_subset_update {client : ι} {node : Node}
    (grown : (network.nodes client).defs ⊆ node.defs) (other : ι) :
    (network.nodes other).defs ⊆ ((network.update client node).nodes other).defs := by
  by_cases same : other = client
  · subst same
    simpa using grown
  · simp [same]

/-- A client connects to a peer and adds it to its list, before it does anything
else; the connection waits at the peer to be accepted. -/
def join (network : Network ι) (descriptors : Descriptors ι) (client peer : ι) : Network ι :=
  { (network.update client
      ((network.nodes client).connect (descriptors.fd client peer))).update peer
      ((network.nodes peer).knock (descriptors.fd peer client)) with
    joined := client :: network.joined }

variable (descriptors : Descriptors ι) {client} {peer other : ι}

@[simp] theorem join_nodes_client (different : client ≠ peer) :
    (network.join descriptors client peer).nodes client =
      (network.nodes client).connect (descriptors.fd client peer) := by
  simp [join, different]

@[simp] theorem join_nodes_peer :
    (network.join descriptors client peer).nodes peer =
      (network.nodes peer).knock (descriptors.fd peer client) := by
  simp [join]

@[simp] theorem join_nodes_of_ne (notClient : other ≠ client) (notPeer : other ≠ peer) :
    (network.join descriptors client peer).nodes other = network.nodes other := by
  simp [join, notClient, notPeer]

theorem join_defs (different : client ≠ peer) (other : ι) :
    ((network.join descriptors client peer).nodes other).defs = (network.nodes other).defs := by
  by_cases atClient : other = client
  · simp [atClient, different, Node.connect]
  · by_cases atPeer : other = peer
    · simp [atPeer, Node.knock]
    · simp [atClient, atPeer]

end Network

/-- The steps of the network. -/
inductive GossipStep (descriptors : Descriptors ι) : Network ι → Network ι → Prop where
  /-- A new client connects to one that has joined. -/
  | join (network : Network ι) {client peer : ι} :
      client ∉ network.joined → peer ∈ network.joined →
      GossipStep descriptors network (network.join descriptors client peer)
  /-- A step of the threads of a client that has joined. -/
  | work (network : Network ι) {client : ι} {sends : List (Fd × TfileDef)} {node : Node} :
      client ∈ network.joined → Works (network.nodes client) sends node →
      GossipStep descriptors network
        { network.update client node with
          flight := network.flight ++ sends.map fun send => ⟨client, send.1, send.2⟩ }
  /-- A client that has joined generates a definition. -/
  | generate (network : Network ι) {client : ι} {tdef : TfileDef} :
      client ∈ network.joined →
      GossipStep descriptors network
        { network.update client ((network.nodes client).store noSenderPeer tdef) with
          generated := (client, tdef) :: network.generated }
  /-- A definition arrives at a client that has joined. -/
  | deliver (network : Network ι) {source target : ι} {tdef : TfileDef} :
      target ∈ network.joined →
      ⟨source, descriptors.fd source target, tdef⟩ ∈ network.flight →
      GossipStep descriptors network
        { network.update target
            ((network.nodes target).store (descriptors.fd target source) tdef) with
          flight := network.flight.erase ⟨source, descriptors.fd source target, tdef⟩
          delivered := ⟨source, target, tdef⟩ :: network.delivered }

end Grintorrent
