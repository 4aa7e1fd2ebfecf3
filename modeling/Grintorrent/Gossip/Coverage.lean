import Grintorrent.Gossip.Basic
import Grintorrent.Lib.Runs

/-!
# No definition is lost while the tree grows

A client may join while definitions are on their way.  The invariant `Spread` says
that a client owes each definition in its table to each of its peers until the peer
has it: the definition is in flight to the peer, in a list that is still to be sent
to it, in a share that has not run and does not skip it, or `list_tfiles` is still to
run for the peer.  When nothing is pending no client owes anything, and the tables
agree along the connections of the tree.
-/

namespace Grintorrent

open Lib Relation

namespace Node

/-- The client has a connection with this descriptor, possibly not yet accepted. -/
def Knows (node : Node) (fd : Fd) : Prop := fd ∈ node.peers.arr ∨ fd ∈ node.accepts

/-- A pending step of the client sends the definition on this descriptor. -/
def Owes (node : Node) (fd : Fd) (tdef : TfileDef) : Prop :=
  fd ∈ node.accepts ∨ fd ∈ node.listings ∨
  (∃ data ∈ node.snapshots, data.peer = fd ∧ tdef ∈ data.tfileArr) ∨
  (∃ data ∈ node.shares, data.tfile = tdef ∧ data.sender ≠ fd)

/-- What the client's workers are to send is in its table. -/
structure Stocked (node : Node) : Prop where
  snapshots : ∀ data ∈ node.snapshots, data.tfileArr ⊆ node.defs
  shares : ∀ data ∈ node.shares, data.tfile ∈ node.defs

variable {node : Node} {fd sender : Fd} {tdef held : TfileDef}

theorem init_stocked : init.Stocked where
  snapshots := by simp [init]
  shares := by simp [init]

theorem Idle.not_owes (idle : node.Idle) : ¬node.Owes fd tdef := by
  obtain ⟨accepts, listings, snapshots, shares⟩ := idle
  simp [Owes, accepts, listings, snapshots, shares]

theorem connect_knows {peer : Fd} :
    (node.connect peer).Knows fd ↔ node.Knows fd ∨ fd = peer := by
  simp only [Knows, connect, Peers.added_arr, List.mem_append, List.mem_singleton]
  exact or_right_comm

theorem knock_knows {peer : Fd} :
    (node.knock peer).Knows fd ↔ node.Knows fd ∨ fd = peer := by
  simp only [Knows, knock, List.mem_cons]
  rw [or_comm (a := fd = peer), or_assoc]

theorem Owes.knock {peer : Fd} (owes : node.Owes fd tdef) :
    (node.knock peer).Owes fd tdef := by
  rcases owes with accepts | later
  · exact .inl (List.mem_cons_of_mem _ accepts)
  · exact .inr later

theorem Stocked.store (stocked : node.Stocked) (added : tdef ∈ (node.store sender tdef).defs) :
    (node.store sender tdef).Stocked where
  snapshots data member :=
    List.Subset.trans (stocked.snapshots data member) (Defs.subset_add ..)
  shares data member := by
    rcases List.mem_cons.mp member with rfl | before
    · exact added
    · exact Defs.subset_add _ _ (stocked.shares data before)

theorem Owes.store (owes : node.Owes fd tdef) : (node.store sender held).Owes fd tdef := by
  rcases owes with accepts | listings | snapshot | ⟨data, member, share⟩
  · exact .inl accepts
  · exact .inr (.inl listings)
  · exact .inr (.inr (.inl snapshot))
  · exact .inr (.inr (.inr ⟨data, List.mem_cons_of_mem _ member, share⟩))

theorem owes_store_self (other : sender ≠ fd) : (node.store sender tdef).Owes fd tdef :=
  .inr (.inr (.inr ⟨⟨tdef, sender⟩, List.mem_cons_self, rfl, other⟩))

end Node

namespace Works

variable {node after : Node} {sends : List (Fd × TfileDef)} {fd : Fd} {tdef : TfileDef}

theorem defs (works : Works node sends after) : after.defs = node.defs := by
  cases works <;> rfl

theorem knows_iff (works : Works node sends after) : after.Knows fd ↔ node.Knows fd := by
  cases works with
  | @accept accepted pending =>
      by_cases same : fd = accepted
      · simp [Node.Knows, Node.accept, same, pending]
      · simp [Node.Knows, Node.accept, same, List.mem_erase_of_ne same]
  | listTfiles _ => exact Iff.rfl
  | shareTfilesToPeer _ => exact Iff.rfl
  | shareTfileToPeers _ => exact Iff.rfl

theorem mem_defs (works : Works node sends after) (stocked : node.Stocked)
    (sent : (fd, tdef) ∈ sends) : tdef ∈ node.defs := by
  cases works with
  | accept _ => simp at sent
  | listTfiles _ => simp at sent
  | shareTfilesToPeer pending =>
      simp only [List.mem_map, Prod.mk.injEq] at sent
      obtain ⟨_, member, _, rfl⟩ := sent
      exact stocked.snapshots _ pending member
  | shareTfileToPeers pending =>
      simp only [List.mem_map, Prod.mk.injEq] at sent
      obtain ⟨_, _, _, rfl⟩ := sent
      exact stocked.shares _ pending

theorem stocked (works : Works node sends after) (stocked : node.Stocked) :
    after.Stocked := by
  cases works with
  | accept _ => exact ⟨stocked.snapshots, stocked.shares⟩
  | listTfiles _ =>
      refine ⟨?_, stocked.shares⟩
      intro data member
      rcases List.mem_cons.mp member with rfl | before
      · exact List.filter_subset_self _
      · exact stocked.snapshots data before
  | shareTfilesToPeer _ =>
      exact ⟨fun data member => stocked.snapshots data (List.mem_of_mem_erase member),
        stocked.shares⟩
  | shareTfileToPeers _ =>
      exact ⟨stocked.snapshots,
        fun data member => stocked.shares data (List.mem_of_mem_erase member)⟩

/-- A debt is passed on or paid.  A new peer is listed before `list_tfiles` runs, so
the list holds whatever the shares that ran before missed; a share that runs later
finds the peer listed. -/
theorem owes (works : Works node sends after) (knows : node.Knows fd)
    (held : tdef ∈ node.defs) (sized : 0 < tdef.size) (owes : node.Owes fd tdef) :
    after.Owes fd tdef ∨ (fd, tdef) ∈ sends := by
  cases works with
  | @accept accepted pending =>
      by_cases same : fd = accepted
      · exact .inl (.inr (.inl (same ▸ List.mem_cons_self)))
      · rcases owes with accepts | listings | later
        · exact .inl (.inl ((List.mem_erase_of_ne same).mpr accepts))
        · exact .inl (.inr (.inl (List.mem_cons_of_mem _ listings)))
        · exact .inl (.inr (.inr later))
  | @listTfiles listed pending =>
      by_cases same : fd = listed
      · refine .inl (.inr (.inr (.inl ⟨_, List.mem_cons_self, same.symm, ?_⟩)))
        exact Defs.mem_list.mpr ⟨held, sized⟩
      · rcases owes with accepts | listings | ⟨data, member, snapshot⟩ | share
        · exact .inl (.inl accepts)
        · exact .inl (.inr (.inl ((List.mem_erase_of_ne same).mpr listings)))
        · exact .inl (.inr (.inr (.inl ⟨data, List.mem_cons_of_mem _ member, snapshot⟩)))
        · exact .inl (.inr (.inr (.inr share)))
  | @shareTfilesToPeer sent pending =>
      rcases owes with accepts | listings | ⟨data, member, rfl, listed⟩ | share
      · exact .inl (.inl accepts)
      · exact .inl (.inr (.inl listings))
      · by_cases same : data = sent
        · subst same
          exact .inr (List.mem_map_of_mem listed)
        · refine .inl (.inr (.inr (.inl ⟨data, ?_, rfl, listed⟩)))
          exact (List.mem_erase_of_ne same).mpr member
      · exact .inl (.inr (.inr (.inr share)))
  | @shareTfileToPeers sent pending =>
      rcases owes with accepts | listings | snapshot | ⟨data, member, rfl, other⟩
      · exact .inl (.inl accepts)
      · exact .inl (.inr (.inl listings))
      · exact .inl (.inr (.inr (.inl snapshot)))
      · by_cases same : data = sent
        · subst same
          rcases knows with listed | accepts
          · refine .inr (List.mem_map.mpr ⟨fd, ?_, rfl⟩)
            exact Peers.mem_recipients.mpr ⟨listed, other.symm⟩
          · exact .inl (.inl accepts)
        · refine .inl (.inr (.inr (.inr ⟨data, ?_, rfl, other⟩)))
          exact (List.mem_erase_of_ne same).mpr member

end Works

variable {ι : Type}

/-- Each hash is generated at one client only, and sizes are positive. -/
structure GeneratedOnce (generated : List (ι × TfileDef)) : Prop where
  oneOrigin : ∀ {origin other : ι} {tdef held : TfileDef},
    (origin, tdef) ∈ generated → (other, held) ∈ generated →
    tdef.fHash = held.fHash → (origin, tdef) = (other, held)
  sized : ∀ {origin : ι} {tdef : TfileDef}, (origin, tdef) ∈ generated → 0 < tdef.size

theorem GeneratedOnce.tail {generated : List (ι × TfileDef)} {entry : ι × TfileDef}
    (once : GeneratedOnce (entry :: generated)) : GeneratedOnce generated where
  oneOrigin first second := once.oneOrigin (.tail _ first) (.tail _ second)
  sized member := once.sized (.tail _ member)

namespace Network

variable (descriptors : Descriptors ι) (network : Network ι)

/-- Both ends of the connection between two clients know it. -/
def Linked (client peer : ι) : Prop :=
  (network.nodes client).Knows (descriptors.fd client peer) ∧
  (network.nodes peer).Knows (descriptors.fd peer client)

/-- The peer has the definition, or it is in flight to the peer, or the client owes
it to the peer. -/
def Covered (client peer : ι) (tdef : TfileDef) : Prop :=
  tdef ∈ (network.nodes peer).defs ∨
  ⟨client, descriptors.fd client peer, tdef⟩ ∈ network.flight ∨
  (network.nodes client).Owes (descriptors.fd client peer) tdef

/-- No message is in flight and no accept, snapshot or share step is pending. -/
def Quiescent : Prop := network.flight = [] ∧ ∀ client, (network.nodes client).Idle

/-- The invariant: every definition in a table was generated, and whoever has it owes
it to each of its peers. -/
structure Spread (root : ι) : Prop where
  outside : ∀ {client : ι}, client ∉ network.joined → network.nodes client = .init
  known : ∀ {client : ι} {tdef : TfileDef}, tdef ∈ (network.nodes client).defs →
    ∃ origin, (origin, tdef) ∈ network.generated
  origin : ∀ {origin : ι} {tdef : TfileDef}, (origin, tdef) ∈ network.generated →
    origin ∈ network.joined ∧ tdef ∈ (network.nodes origin).defs
  stocked : ∀ client, (network.nodes client).Stocked
  flight : ∀ packet ∈ network.flight, packet.tdef ∈ (network.nodes packet.source).defs
  covered : ∀ {client peer : ι} {tdef : TfileDef},
    (network.nodes client).Knows (descriptors.fd client peer) →
    tdef ∈ (network.nodes client).defs → network.Covered descriptors client peer tdef
  connected : ∀ {client : ι}, client ∈ network.joined →
    ReflTransGen (network.Linked descriptors) root client

end Network

/-! ## The steps keep the invariant -/

/-- What was covered stays covered when tables, flight and debts only grow. -/
theorem Network.Covered.mono {descriptors : Descriptors ι} {network next : Network ι}
    {client peer : ι} {tdef : TfileDef}
    (covered : network.Covered descriptors client peer tdef)
    (defs : (network.nodes peer).defs ⊆ (next.nodes peer).defs)
    (flight : network.flight ⊆ next.flight)
    (owes : (network.nodes client).Owes (descriptors.fd client peer) tdef →
      (next.nodes client).Owes (descriptors.fd client peer) tdef) :
    next.Covered descriptors client peer tdef := by
  rcases covered with stored | flying | owed
  · exact .inl (defs stored)
  · exact .inr (.inl (flight flying))
  · exact .inr (.inr (owes owed))

theorem Node.Knows.join [DecidableEq ι] {descriptors : Descriptors ι} {network : Network ι}
    {client peer other : ι} {fd : Fd} (different : client ≠ peer)
    (before : (network.nodes other).Knows fd) :
    ((network.join descriptors client peer).nodes other).Knows fd := by
  by_cases atClient : other = client
  · subst atClient
    simpa [different, Node.connect_knows] using .inl before
  · by_cases atPeer : other = peer
    · subst atPeer
      simpa [Node.knock_knows] using .inl before
    · simpa [atClient, atPeer] using before

namespace Network.Spread

variable {descriptors : Descriptors ι} {network : Network ι} {root client : ι}
variable {tdef : TfileDef}

theorem init (descriptors : Descriptors ι) (root : ι) :
    (Network.init root).Spread descriptors root where
  outside _ := rfl
  known member := by simp [Network.init, Node.init] at member
  origin member := by simp [Network.init] at member
  stocked _ := Node.init_stocked
  flight := by simp [Network.init]
  covered _ member := by simp [Network.init, Node.init] at member
  connected member := by
    simp only [Network.init, List.mem_singleton] at member
    rw [member]

theorem mem_add (spread : network.Spread descriptors root)
    {generated : List (ι × TfileDef)} (once : GeneratedOnce generated)
    (later : network.generated ⊆ generated) {origin : ι}
    (made : (origin, tdef) ∈ generated) :
    tdef ∈ (network.nodes client).defs.add tdef := by
  apply Defs.mem_add_self
  intro held member same
  obtain ⟨other, before⟩ := spread.known member
  exact congrArg Prod.snd (once.oneOrigin (later before) made same)

variable [DecidableEq ι]
variable {node : Node} {flight : List (Packet ι)} {generated : List (ι × TfileDef)}
variable {delivered : List (Delivery ι)}

/-- What remains to be shown when one client makes a step that keeps its
connections and the definitions in its table. -/
theorem change (spread : network.Spread descriptors root) (joined : client ∈ network.joined)
    (grown : (network.nodes client).defs ⊆ node.defs)
    (knows : ∀ {fd : Fd}, node.Knows fd ↔ (network.nodes client).Knows fd)
    (stocked : node.Stocked)
    (known : ∀ tdef ∈ node.defs, ∃ origin, (origin, tdef) ∈ generated)
    (later : network.generated ⊆ generated)
    (origins : ∀ {origin : ι} {tdef : TfileDef}, (origin, tdef) ∈ generated →
      (origin, tdef) ∈ network.generated ∨ origin = client ∧ tdef ∈ node.defs)
    (flightStored : ∀ packet ∈ flight,
      packet.tdef ∈ ((network.update client node).nodes packet.source).defs)
    (covered : ∀ {other peer : ι} {tdef : TfileDef},
      (network.nodes other).Knows (descriptors.fd other peer) →
      tdef ∈ ((network.update client node).nodes other).defs →
      Covered descriptors { network.update client node with flight } other peer tdef) :
    Spread descriptors { network.update client node with flight, generated, delivered }
      root := by
  have defsSubset := network.defs_subset_update grown
  have knowsIff : ∀ {other : ι} {fd : Fd},
      ((network.update client node).nodes other).Knows fd ↔ (network.nodes other).Knows fd := by
    intro other fd
    by_cases same : other = client
    · subst same
      simpa using knows
    · simp [same]
  constructor
  case outside =>
      intro other absent
      have different : other ≠ client := fun same => absent (same ▸ joined)
      simpa [different] using spread.outside absent
  case known =>
      intro other tdef member
      by_cases same : other = client
      · subst same
        exact known tdef (by simpa using member)
      · obtain ⟨origin, made⟩ := spread.known (by simpa [same] using member)
        exact ⟨origin, later made⟩
  case origin =>
      intro origin tdef made
      rcases origins made with before | ⟨rfl, held⟩
      · obtain ⟨present, held⟩ := spread.origin before
        exact ⟨present, defsSubset _ held⟩
      · exact ⟨joined, by simpa using held⟩
  case stocked =>
      intro other
      by_cases same : other = client
      · subst same
        simpa using stocked
      · simpa [same] using spread.stocked other
  case flight => exact flightStored
  case covered =>
      intro other peer tdef known member
      exact covered (knowsIff.mp known) member
  case connected =>
      intro other member
      refine ReflTransGen.mono ?_ _ _ (spread.connected member)
      intro first second linked
      exact ⟨knowsIff.mpr linked.1, knowsIff.mpr linked.2⟩

theorem work (spread : network.Spread descriptors root) (once : GeneratedOnce network.generated)
    {sends : List (Fd × TfileDef)} (joined : client ∈ network.joined)
    (works : Works (network.nodes client) sends node) :
    Spread descriptors
      { network.update client node with
        flight := network.flight ++ sends.map fun send => ⟨client, send.1, send.2⟩ }
      root := by
  have defsEq : ∀ other, ((network.update client node).nodes other).defs =
      (network.nodes other).defs := by
    intro other
    by_cases same : other = client
    · subst same
      simp [works.defs]
    · simp [same]
  apply spread.change joined
  case grown => rw [works.defs]; exact List.Subset.refl _
  case knows => exact works.knows_iff
  case stocked => exact works.stocked (spread.stocked client)
  case known => rw [works.defs]; exact fun _ => spread.known
  case later => exact List.Subset.refl _
  case origins => exact .inl
  case flightStored =>
      intro packet member
      rw [defsEq]
      rcases List.mem_append.mp member with before | sent
      · exact spread.flight packet before
      · obtain ⟨send, sending, rfl⟩ := List.mem_map.mp sent
        exact works.mem_defs (spread.stocked client) sending
  case covered =>
      intro other peer tdef knows member
      rw [defsEq] at member
      rcases spread.covered knows member with stored | flying | owes
      · exact .inl ((defsEq peer).symm ▸ stored)
      · exact .inr (.inl (List.mem_append_left _ flying))
      · by_cases same : other = client
        · subst same
          obtain ⟨_, made⟩ := spread.known member
          rcases works.owes knows member (once.sized made) owes with later | sent
          · exact .inr (.inr (by simpa using later))
          · exact .inr (.inl (List.mem_append_right _ (List.mem_map.mpr ⟨_, sent, rfl⟩)))
        · exact .inr (.inr (by simpa [same] using owes))

/-- A client stores a definition: one it generates, or one that is on its way to it
from a client that has it. -/
theorem store (spread : network.Spread descriptors root) (once : GeneratedOnce generated)
    {sender : Fd} (joined : client ∈ network.joined)
    (later : network.generated ⊆ generated)
    (origins : ∀ entry ∈ generated, entry ∈ network.generated ∨ entry = (client, tdef))
    (made : ∃ origin, (origin, tdef) ∈ generated)
    (sent : ∀ {peer : ι}, sender = descriptors.fd client peer →
      tdef ∈ (network.nodes peer).defs)
    (flightSubset : flight ⊆ network.flight)
    (arrived : ∀ packet ∈ network.flight, packet ∈ flight ∨
      (packet.tdef = tdef ∧ packet.fd = descriptors.fd packet.source client)) :
    Spread descriptors
      { network.update client ((network.nodes client).store sender tdef) with
        flight, generated, delivered }
      root := by
  obtain ⟨origin, made⟩ := made
  have added : tdef ∈ ((network.nodes client).store sender tdef).defs :=
    spread.mem_add once later made
  have grown : (network.nodes client).defs ⊆
      ((network.nodes client).store sender tdef).defs := Defs.subset_add _ _
  have defsSubset := network.defs_subset_update grown
  apply spread.change joined
  case grown => exact grown
  case knows => exact Iff.rfl
  case stocked => exact (spread.stocked client).store added
  case known =>
      intro held member
      rcases Defs.mem_of_mem_add member with before | rfl
      · obtain ⟨first, madeBefore⟩ := spread.known before
        exact ⟨first, later madeBefore⟩
      · exact ⟨origin, made⟩
  case later => exact later
  case origins =>
      intro first held member
      rcases origins _ member with before | equal
      · exact .inl before
      · cases equal
        exact .inr ⟨rfl, added⟩
  case flightStored =>
      intro packet member
      exact defsSubset _ (spread.flight packet (flightSubset member))
  case covered =>
      intro other peer held knows member
      by_cases before : held ∈ (network.nodes other).defs
      · rcases spread.covered knows before with stored | flying | owes
        · exact .inl (defsSubset _ stored)
        · rcases arrived _ flying with still | ⟨rfl, arrives⟩
          · exact .inr (.inl still)
          · obtain rfl : peer = client := descriptors.fd_inj.mp arrives
            exact .inl (by simpa using added)
        · by_cases same : other = client
          · subst same
            exact .inr (.inr (by simpa using owes.store))
          · exact .inr (.inr (by simpa [same] using owes))
      · by_cases same : other = client
        · subst same
          have isNew := Defs.mem_of_mem_add (by simpa [Node.store] using member)
          obtain rfl : held = tdef := isNew.resolve_left before
          by_cases back : sender = descriptors.fd other peer
          · exact .inl (defsSubset _ (sent back))
          · exact .inr (.inr (by simpa using Node.owes_store_self back))
        · exact absurd (by simpa [same] using member) before

/-- A client joins: it has nothing to send, and its peer will list the table for it. -/
theorem join (spread : network.Spread descriptors root) {peer : ι}
    (absent : client ∉ network.joined) (present : peer ∈ network.joined) :
    (network.join descriptors client peer).Spread descriptors root := by
  have different : client ≠ peer := fun same => absent (same ▸ present)
  have empty := spread.outside absent
  have defsEq := network.join_defs descriptors different
  have linked : (network.join descriptors client peer).Linked descriptors peer client := by
    simp [Linked, different, Node.knock_knows, Node.connect_knows]
  constructor
  case outside =>
      intro other missing
      obtain ⟨notClient, before⟩ := not_or.mp (mt List.mem_cons.mpr missing)
      have notPeer : other ≠ peer := fun same => before (same ▸ present)
      simpa [notClient, notPeer] using spread.outside before
  case known =>
      intro other tdef member
      exact spread.known (defsEq other ▸ member)
  case origin =>
      intro origin tdef made
      obtain ⟨before, held⟩ := spread.origin made
      exact ⟨List.mem_cons_of_mem _ before, (defsEq origin).symm ▸ held⟩
  case stocked =>
      intro other
      have before := spread.stocked other
      by_cases atClient : other = client
      · subst atClient
        simpa [different] using ⟨before.snapshots, before.shares⟩
      · by_cases atPeer : other = peer
        · subst atPeer
          simpa using ⟨before.snapshots, before.shares⟩
        · simpa [atClient, atPeer] using before
  case flight =>
      intro packet member
      exact (defsEq packet.source).symm ▸ spread.flight packet member
  case covered =>
      intro other target tdef known member
      rw [defsEq] at member
      by_cases atClient : other = client
      · subst atClient
        simp [empty, Node.init] at member
      · by_cases atPeer : other = peer
        · subst atPeer
          rw [join_nodes_peer, Node.knock_knows] at known
          rcases known with before | new
          · refine (spread.covered before member).mono (by simp [defsEq])
              (List.Subset.refl _) ?_
            intro owes
            simpa using owes.knock
          · exact .inr (.inr (.inl (by simp [Node.knock, new])))
        · rw [join_nodes_of_ne _ _ atClient atPeer] at known
          refine (spread.covered known member).mono (by simp [defsEq])
            (List.Subset.refl _) ?_
          intro owes
          simpa [atClient, atPeer] using owes
  case connected =>
      have before : ∀ {other : ι}, other ∈ network.joined →
          ReflTransGen ((network.join descriptors client peer).Linked descriptors) root other := by
        intro other member
        refine ReflTransGen.mono ?_ _ _ (spread.connected member)
        intro first second linked
        exact ⟨linked.1.join different, linked.2.join different⟩
      intro other member
      rcases List.mem_cons.mp member with rfl | earlier
      · exact (before present).tail linked
      · exact before earlier

theorem step {next : Network ι} (spread : network.Spread descriptors root)
    (taken : GossipStep descriptors network next) (once : GeneratedOnce next.generated) :
    next.Spread descriptors root := by
  cases taken with
  | join absent present => exact spread.join absent present
  | work joined works => exact spread.work once joined works
  | @generate origin tdef joined =>
      apply spread.store once joined (List.subset_cons_self ..)
      case origins =>
          intro entry member
          exact (List.mem_cons.mp member).symm
      case made => exact ⟨origin, List.mem_cons_self⟩
      case sent => exact fun equal => absurd equal.symm descriptors.fd_ne_noSenderPeer
      case flightSubset => exact List.Subset.refl _
      case arrived => exact fun _ => .inl
  | @deliver source target tdef joined flying =>
      apply spread.store once joined (List.Subset.refl _)
      case origins => exact fun _ => .inl
      case made => exact spread.known (spread.flight _ flying)
      case sent =>
          intro peer back
          rw [← descriptors.fd_inj.mp back]
          exact spread.flight _ flying
      case flightSubset => exact List.erase_subset
      case arrived =>
          intro packet member
          by_cases same : packet = ⟨source, descriptors.fd source target, tdef⟩
          · subst same
            exact .inr ⟨rfl, rfl⟩
          · exact .inl ((List.mem_erase_of_ne same).mpr member)

end Network.Spread

theorem GeneratedOnce.before [DecidableEq ι] {descriptors : Descriptors ι}
    {network next : Network ι} (taken : GossipStep descriptors network next)
    (once : GeneratedOnce next.generated) : GeneratedOnce network.generated := by
  cases taken with
  | join absent present => exact once
  | work joined works => exact once
  | generate joined => exact once.tail
  | deliver joined flying => exact once

/-! ## Quiescence -/

namespace Network.Spread

variable {descriptors : Descriptors ι} {network : Network ι} {root client : ι}
variable {tdef : TfileDef}

/-- In a quiescent network a client's peers have what it has. -/
theorem mem_of_knows (spread : network.Spread descriptors root)
    (quiescent : network.Quiescent) {peer : ι}
    (knows : (network.nodes client).Knows (descriptors.fd client peer))
    (held : tdef ∈ (network.nodes client).defs) : tdef ∈ (network.nodes peer).defs := by
  rcases spread.covered knows held with stored | flying | owes
  · exact stored
  · simp [quiescent.1] at flying
  · exact absurd owes (quiescent.2 client).not_owes

/-- In a quiescent network every client that has joined has what the first one has. -/
theorem mem_iff_mem_root (spread : network.Spread descriptors root)
    (quiescent : network.Quiescent) (joined : client ∈ network.joined) :
    tdef ∈ (network.nodes client).defs ↔ tdef ∈ (network.nodes root).defs := by
  have path := spread.connected joined
  clear joined
  induction path with
  | refl => exact Iff.rfl
  | tail _ linked ih =>
      refine Iff.trans ?_ ih
      constructor
      · exact spread.mem_of_knows quiescent linked.2
      · exact spread.mem_of_knows quiescent linked.1

end Network.Spread

/-- **No definition is lost while the tree grows.**  Clients join at any time by
connecting to a client that has joined, and the steps of all clients and the
deliveries come in any order.  Whenever no message is in flight and no step is
pending, the table of every client that has joined holds every definition generated
by any client. -/
theorem no_definition_lost [DecidableEq ι] (descriptors : Descriptors ι) {root : ι}
    {final : Network ι}
    (run : ReflTransGen (GossipStep descriptors) (Network.init root) final)
    (once : GeneratedOnce final.generated) (quiescent : final.Quiescent)
    {client origin : ι} {tdef : TfileDef} (joined : client ∈ final.joined)
    (made : (origin, tdef) ∈ final.generated) : tdef ∈ (final.nodes client).defs := by
  have preserved : ∀ network next : Network ι,
      (GeneratedOnce network.generated → network.Spread descriptors root) →
      GossipStep descriptors network next →
      GeneratedOnce next.generated → next.Spread descriptors root := by
    intro network next before taken once
    exact (before (once.before taken)).step taken once
  have spread : final.Spread descriptors root :=
    invariant_run preserved run (fun _ => Network.Spread.init descriptors root) once
  obtain ⟨present, held⟩ := spread.origin made
  have atRoot := (spread.mem_iff_mem_root quiescent present).mp held
  exact (spread.mem_iff_mem_root quiescent joined).mpr atRoot

/-- A client generates a definition and shares it with nobody; then another one joins,
and is sent the list. -/
theorem pair_run :
    ∃ final : Network Bool,
      ReflTransGen (GossipStep pairDescriptors) (Network.init false) final ∧
      final.Quiescent ∧ final.joined = [true, false] ∧
      final.generated = [(false, sampleDef)] := by
  have generated := ReflTransGen.single
    (@GossipStep.generate _ _ pairDescriptors (Network.init false) false sampleDef
      (List.mem_singleton_self _))
  have shared := generated.tail (.work _ (List.mem_singleton_self _)
    (@Works.shareTfileToPeers _ ⟨sampleDef, noSenderPeer⟩ (List.mem_singleton_self _)))
  have joined := shared.tail (@GossipStep.join _ _ pairDescriptors _ true false
    (by decide) (by decide))
  have accepted := joined.tail (@GossipStep.work _ _ _ _ false _ _ (by decide)
    (@Works.accept _ 4 (List.mem_singleton_self _)))
  have listed := accepted.tail (@GossipStep.work _ _ _ _ false _ _ (by decide)
    (@Works.listTfiles _ 4 (List.mem_singleton_self _)))
  have sent := listed.tail (@GossipStep.work _ _ _ _ false _ _ (by decide)
    (@Works.shareTfilesToPeer _ ⟨[sampleDef], 4⟩ (List.mem_singleton_self _)))
  have delivered := sent.tail (@GossipStep.deliver _ _ _ _ false true sampleDef (by decide)
    (List.mem_singleton_self _))
  have forwarded := delivered.tail (@GossipStep.work _ _ _ _ true _ _ (by decide)
    (@Works.shareTfileToPeers _ ⟨sampleDef, 3⟩ (List.mem_singleton_self _)))
  refine ⟨_, forwarded, ⟨rfl, ?_⟩, rfl, rfl⟩
  intro client
  cases client with
  | false => exact ⟨rfl, rfl, rfl, rfl⟩
  | true => exact ⟨rfl, rfl, rfl, rfl⟩

/-- The client that joined has the definition. -/
theorem no_definition_lost_pair :
    ∃ final : Network Bool,
      ReflTransGen (GossipStep pairDescriptors) (Network.init false) final ∧
      final.Quiescent ∧ final.joined = [true, false] ∧
      sampleDef ∈ (final.nodes true).defs := by
  obtain ⟨final, run, quiescent, joined, generated⟩ := pair_run
  refine ⟨final, run, quiescent, joined, ?_⟩
  apply no_definition_lost pairDescriptors run
  case once =>
      rw [generated]
      constructor
      · intro origin other tdef held first second _
        exact (List.mem_singleton.mp first).trans (List.mem_singleton.mp second).symm
      · intro origin tdef made
        cases List.mem_singleton.mp made
        decide
  case quiescent => exact quiescent
  case joined => simp [joined]
  case made => exact generated ▸ List.mem_singleton_self (false, sampleDef)

end Grintorrent
