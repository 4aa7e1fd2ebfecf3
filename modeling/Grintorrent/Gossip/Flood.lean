import Grintorrent.Gossip.Basic
import Grintorrent.Lib.Runs
import Grintorrent.Lib.Trees

/-!
# Flooding a tree

`readWorker` forwards every definition it receives, whether or not the table had it,
to all peers but the one it came from.  Over a tree of connections this is enough: the
definition only moves away from the client at which it was injected.  The invariant
`Flooding` counts what each client has sent to a child in the tree: once for each time
it got the definition, less the shares that have not run.
-/

namespace Grintorrent

open Lib Relation

variable {ι : Type}

/-- The client's peer list holds exactly the connections of the graph, each once, and
no connection is being accepted. -/
structure Node.Settled (node : Node) (descriptors : Descriptors ι) (graph : SimpleGraph ι)
    (client : ι) : Prop where
  nodup : node.peers.arr.Nodup
  peers : ∀ fd, fd ∈ node.peers.arr ↔
    ∃ peer, graph.Adj client peer ∧ fd = descriptors.fd client peer
  accepts : node.accepts = []
  listings : node.listings = []
  snapshots : node.snapshots = []

namespace Network

variable (network : Network ι) (descriptors : Descriptors ι) (tdef : TfileDef)

/-- All clients have joined and are connected as the graph says. -/
structure Settled (graph : SimpleGraph ι) : Prop where
  joined : ∀ client, client ∈ network.joined
  nodes : ∀ client, (network.nodes client).Settled descriptors graph client

/-- The definition is nowhere on its way and has not been. -/
structure Unheard : Prop where
  flight : ∀ packet ∈ network.flight, packet.tdef ≠ tdef
  shares : ∀ client, ∀ data ∈ (network.nodes client).shares, data.tfile ≠ tdef
  generated : ∀ entry ∈ network.generated, entry.2 ≠ tdef
  delivered : ∀ delivery ∈ network.delivered, delivery.tdef ≠ tdef

/-- The clients at which the definition was injected, once for each time. -/
def injections : List ι :=
  (network.generated.filter fun entry => entry.2 = tdef).map Prod.fst

/-- The clients to which the definition was delivered, once for each time. -/
def receivers : List ι :=
  (network.delivered.filter fun delivery => delivery.tdef = tdef).map Delivery.target

/-- The shares of the definition that a client has still to run. -/
def pending (client : ι) : Nat :=
  (network.nodes client).shares.countP fun data => data.tfile = tdef

variable [DecidableEq ι]

/-- How often the definition was sent from one client to another. -/
def sent (source target : ι) : Nat :=
  network.flight.count ⟨source, descriptors.fd source target, tdef⟩ +
  network.delivered.count ⟨source, target, tdef⟩

/-- How often a client got the definition. -/
def got (client : ι) : Nat :=
  (network.injections tdef).count client + (network.receivers tdef).count client

/-- The invariant, for a definition injected at `origin`. -/
structure Flooding (graph : SimpleGraph ι) (origin : ι) : Prop where
  settled : network.Settled descriptors graph
  downward : ∀ {source target : ι}, 0 < network.sent descriptors tdef source target →
    Parent graph origin source target
  balanced : ∀ {source target : ι}, Parent graph origin source target →
    network.sent descriptors tdef source target + network.pending tdef source =
      network.got tdef source
  senders : ∀ {client : ι}, ∀ data ∈ (network.nodes client).shares, data.tfile = tdef →
    (client = origin ∧ data.sender = noSenderPeer) ∨
    ∃ parent, Parent graph origin parent client ∧
      data.sender = descriptors.fd client parent

end Network

/-! ## The steps keep the invariant -/

variable [DecidableEq ι]

theorem count_packets (fds : List Fd) (source client : ι) (fd : Fd) (shared tdef : TfileDef) :
    (fds.map fun fd => (⟨client, fd, shared⟩ : Packet ι)).count ⟨source, fd, tdef⟩ =
      if source = client ∧ shared = tdef then fds.count fd else 0 := by
  split
  next same =>
      obtain ⟨rfl, rfl⟩ := same
      refine List.count_map_of_injective fds (fun fd => (⟨source, fd, shared⟩ : Packet ι)) ?_ fd
      intro first second equal
      cases equal
      rfl
  next different =>
      apply List.count_eq_zero_of_not_mem
      intro member
      obtain ⟨_, _, equal⟩ := List.mem_map.mp member
      cases equal
      exact different ⟨rfl, rfl⟩

namespace Network

variable {network : Network ι} {descriptors : Descriptors ι} {graph : SimpleGraph ι}
variable {tdef : TfileDef} {origin client : ι} {node : Node}
variable {flight : List (Packet ι)} {generated : List (ι × TfileDef)}
variable {delivered : List (Delivery ι)}

/-- A step of one client that only touches its table and its shares. -/
theorem Settled.update (settled : network.Settled descriptors graph)
    (peers : node.peers = (network.nodes client).peers)
    (accepts : node.accepts = (network.nodes client).accepts)
    (listings : node.listings = (network.nodes client).listings)
    (snapshots : node.snapshots = (network.nodes client).snapshots) :
    Settled { network.update client node with flight, generated, delivered }
      descriptors graph := by
  refine ⟨settled.joined, ?_⟩
  intro other
  have before := settled.nodes other
  by_cases same : other = client
  · subst same
    simp only [update_nodes_self]
    constructor
    · exact peers ▸ before.nodup
    · exact peers ▸ before.peers
    · exact accepts ▸ before.accepts
    · exact listings ▸ before.listings
    · exact snapshots ▸ before.snapshots
  · simpa [same] using before

theorem Unheard.flooding (settled : network.Settled descriptors graph)
    (unheard : network.Unheard tdef) (origin : ι) :
    network.Flooding descriptors tdef graph origin := by
  have notSent : ∀ source target, network.sent descriptors tdef source target = 0 := by
    intro source target
    have flying : network.flight.count ⟨source, descriptors.fd source target, tdef⟩ = 0 :=
      List.count_eq_zero_of_not_mem fun member => unheard.flight _ member rfl
    have arrived : network.delivered.count ⟨source, target, tdef⟩ = 0 :=
      List.count_eq_zero_of_not_mem fun member => unheard.delivered _ member rfl
    rw [sent, flying, arrived]
  have notInjected : network.injections tdef = [] := by
    simpa [injections] using fun first second => unheard.generated (first, second)
  have notReceived : network.receivers tdef = [] := by
    simpa [receivers] using unheard.delivered
  constructor
  case settled => exact settled
  case downward =>
      intro source target positive
      simp [notSent] at positive
  case balanced =>
      intro source target _
      simpa [notSent, got, notInjected, notReceived, pending] using unheard.shares source
  case senders =>
      intro client data member same
      exact absurd same (unheard.shares client data member)

variable {stored : TfileDef} {sender : Fd} {other source target : ι}

theorem pending_store :
    (network.update client ((network.nodes client).store sender stored)).pending tdef other =
      network.pending tdef other + if other = client ∧ stored = tdef then 1 else 0 := by
  unfold pending
  by_cases same : other = client
  · subst same
    simp [Node.store, List.countP_cons]
  · simp [same]

theorem pending_share {data : SendTfile} (member : data ∈ (network.nodes client).shares) :
    (network.update client ((network.nodes client).shareTfileToPeers data)).pending tdef other +
      (if other = client ∧ data.tfile = tdef then 1 else 0) = network.pending tdef other := by
  unfold pending
  by_cases same : other = client
  · subst same
    simp only [update_nodes_self, Node.shareTfileToPeers, List.countP_erase, member,
      true_and, decide_eq_true_eq]
    split
    next equal =>
        have positive : 0 < (network.nodes other).shares.countP
            fun data => data.tfile = tdef :=
          List.countP_pos_iff.mpr ⟨data, member, by simpa using equal⟩
        omega
    next => rfl
  · simp [same]

theorem got_generate :
    got { network.update client node with
        generated := (client, stored) :: network.generated } tdef other =
      network.got tdef other + if other = client ∧ stored = tdef then 1 else 0 := by
  unfold got injections receivers
  by_cases same : stored = tdef
  · simp [same, List.count_cons, @eq_comm _ client other]
    omega
  · simp [same]

theorem got_deliver :
    got { network.update target node with
        flight, delivered := ⟨source, target, stored⟩ :: network.delivered } tdef other =
      network.got tdef other + if other = target ∧ stored = tdef then 1 else 0 := by
  unfold got injections receivers
  by_cases same : stored = tdef
  · simp [same, List.count_cons, @eq_comm _ target other]
    omega
  · simp [same]

theorem sent_deliver {first second : ι}
    (flying : ⟨source, descriptors.fd source target, stored⟩ ∈ network.flight) :
    sent { network.update client node with
        flight := network.flight.erase ⟨source, descriptors.fd source target, stored⟩
        delivered := ⟨source, target, stored⟩ :: network.delivered }
      descriptors tdef first second = network.sent descriptors tdef first second := by
  unfold sent
  rw [List.count_erase, List.count_cons]
  by_cases same : source = first ∧ target = second ∧ stored = tdef
  · obtain ⟨rfl, rfl, rfl⟩ := same
    have positive := List.count_pos_iff.mpr flying
    simp only [beq_self_eq_true, if_true]
    omega
  · have otherPacket : (⟨source, descriptors.fd source target, stored⟩ : Packet ι) ≠
        ⟨first, descriptors.fd first second, tdef⟩ := by
      intro equal
      simp only [Packet.mk.injEq] at equal
      obtain ⟨rfl, sameFd, rfl⟩ := equal
      exact same ⟨rfl, descriptors.fd_inj.mp sameFd, rfl⟩
    have otherDelivery : (⟨source, target, stored⟩ : Delivery ι) ≠ ⟨first, second, tdef⟩ := by
      intro equal
      simp only [Delivery.mk.injEq] at equal
      exact same equal
    simp [otherPacket, otherDelivery]

theorem sent_share {data : SendTfile} :
    sent { network.update client node with
        flight := network.flight ++
          (((network.nodes client).peers.recipients data.sender).map fun fd =>
            (fd, data.tfile)).map fun send => ⟨client, send.1, send.2⟩ }
      descriptors tdef source target =
      network.sent descriptors tdef source target +
        if source = client ∧ data.tfile = tdef then
          ((network.nodes client).peers.recipients data.sender).count
            (descriptors.fd source target)
        else 0 := by
  unfold sent
  rw [List.map_map, List.count_append]
  have packets := count_packets ((network.nodes client).peers.recipients data.sender) source
    client (descriptors.fd source target) data.tfile tdef
  simp only [Function.comp_def]
  rw [packets, Nat.add_right_comm]
  rfl

namespace Flooding

/-- A share of the definition goes to the children of the client. -/
theorem mem_recipients_iff (flooding : network.Flooding descriptors tdef graph origin)
    (tree : graph.IsTree) {data : SendTfile}
    (member : data ∈ (network.nodes client).shares) (same : data.tfile = tdef) :
    descriptors.fd client target ∈ (network.nodes client).peers.recipients data.sender ↔
      Parent graph origin client target := by
  have listed : descriptors.fd client target ∈ (network.nodes client).peers.arr ↔
      graph.Adj client target := by
    rw [(flooding.settled.nodes client).peers]
    simp [descriptors.fd_inj]
  rw [Peers.mem_recipients, listed]
  rcases flooding.senders data member same with ⟨rfl, sender⟩ | ⟨parent, below, sender⟩
  · rw [sender]
    constructor
    · exact fun reached => Parent.of_adj_root tree reached.1
    · exact fun reached => ⟨reached.1, descriptors.fd_ne_noSenderPeer⟩
  · rw [sender, Ne, descriptors.fd_inj]
    constructor
    · exact fun reached => below.of_adj_child tree reached.1 reached.2
    · exact fun reached => ⟨reached.1, fun back => below.asymm (back ▸ reached)⟩

theorem count_recipients (flooding : network.Flooding descriptors tdef graph origin)
    (tree : graph.IsTree) {data : SendTfile}
    (member : data ∈ (network.nodes client).shares) (same : data.tfile = tdef)
    (below : Parent graph origin client target) :
    ((network.nodes client).peers.recipients data.sender).count
      (descriptors.fd client target) = 1 := by
  apply List.count_eq_one_of_mem
  · exact (flooding.settled.nodes client).nodup.filter _
  · exact (flooding.mem_recipients_iff tree member same).mpr below

theorem share (flooding : network.Flooding descriptors tdef graph origin)
    (tree : graph.IsTree) {data : SendTfile}
    (member : data ∈ (network.nodes client).shares) :
    Flooding
      { network.update client ((network.nodes client).shareTfileToPeers data) with
        flight := network.flight ++
          (((network.nodes client).peers.recipients data.sender).map fun fd =>
            (fd, data.tfile)).map fun send => ⟨client, send.1, send.2⟩ }
      descriptors tdef graph origin := by
  constructor
  case settled => exact flooding.settled.update rfl rfl rfl rfl
  case downward =>
      intro source target positive
      rw [sent_share] at positive
      by_cases own : source = client ∧ data.tfile = tdef
      · obtain ⟨rfl, same⟩ := own
        rw [if_pos ⟨rfl, same⟩, Nat.add_pos_iff_pos_or_pos] at positive
        rcases positive with before | now
        · exact flooding.downward before
        · exact (flooding.mem_recipients_iff tree member same).mp (List.count_pos_iff.mp now)
      · rw [if_neg own] at positive
        exact flooding.downward positive
  case balanced =>
      intro source target below
      have before := flooding.balanced below
      rw [← pending_share member] at before
      rw [sent_share]
      change _ + (network.update client _).pending tdef source = network.got tdef source
      by_cases own : source = client ∧ data.tfile = tdef
      · obtain ⟨rfl, same⟩ := own
        have once := flooding.count_recipients tree member same below
        rw [if_pos ⟨rfl, same⟩] at before ⊢
        rw [once, Nat.add_right_comm, Nat.add_assoc]
        exact before
      · rw [if_neg own] at before ⊢
        exact before
  case senders =>
      intro other waiting waitingMember same
      apply flooding.senders waiting ?_ same
      by_cases atClient : other = client
      · subst atClient
        rw [update_nodes_self] at waitingMember
        exact List.mem_of_mem_erase waitingMember
      · rw [update_nodes_of_ne _ _ _ atClient] at waitingMember
        exact waitingMember

theorem store (flooding : network.Flooding descriptors tdef graph origin)
    (sentEq : ∀ source target,
      sent { network.update client node with flight, generated, delivered }
        descriptors tdef source target = network.sent descriptors tdef source target)
    (gotEq : ∀ other,
      got { network.update client node with flight, generated, delivered } tdef other =
        network.got tdef other + if other = client ∧ stored = tdef then 1 else 0)
    (stores : node = (network.nodes client).store sender stored)
    (source : stored = tdef → (client = origin ∧ sender = noSenderPeer) ∨
      ∃ parent, Parent graph origin parent client ∧
        sender = descriptors.fd client parent) :
    Flooding { network.update client node with flight, generated, delivered }
      descriptors tdef graph origin := by
  subst stores
  constructor
  case settled => exact flooding.settled.update rfl rfl rfl rfl
  case downward =>
      intro first second positive
      exact flooding.downward (sentEq first second ▸ positive)
  case balanced =>
      intro first second below
      rw [sentEq, gotEq, ← flooding.balanced below, Nat.add_assoc, ← pending_store]
      rfl
  case senders =>
      intro other data member same
      by_cases atClient : other = client
      · subst atClient
        rw [update_nodes_self] at member
        rcases List.mem_cons.mp member with rfl | before
        · exact source same
        · exact flooding.senders data before same
      · rw [update_nodes_of_ne _ _ _ atClient] at member
        exact flooding.senders data member same

theorem generate (flooding : network.Flooding descriptors tdef graph origin)
    (atOrigin : stored = tdef → client = origin) :
    Flooding
      { network.update client ((network.nodes client).store noSenderPeer stored) with
        generated := (client, stored) :: network.generated }
      descriptors tdef graph origin :=
  flooding.store (fun _ _ => rfl) (fun _ => got_generate) rfl
    fun same => .inl ⟨atOrigin same, rfl⟩

theorem deliver (flooding : network.Flooding descriptors tdef graph origin)
    (flying : ⟨source, descriptors.fd source target, stored⟩ ∈ network.flight) :
    Flooding
      { network.update target
          ((network.nodes target).store (descriptors.fd target source) stored) with
        flight := network.flight.erase ⟨source, descriptors.fd source target, stored⟩
        delivered := ⟨source, target, stored⟩ :: network.delivered }
      descriptors tdef graph origin := by
  refine flooding.store (fun _ _ => sent_deliver flying) (fun _ => got_deliver) rfl ?_
  intro same
  subst same
  have positive := List.count_pos_iff.mpr flying
  exact .inr ⟨source, flooding.downward (Nat.add_pos_left positive _), rfl⟩

/-- Every step keeps the invariant, as long as the definition is injected at the
origin only. -/
theorem step {next : Network ι} (flooding : network.Flooding descriptors tdef graph origin)
    (tree : graph.IsTree) (taken : GossipStep descriptors network next)
    (injected : ∀ client ∈ next.injections tdef, client = origin) :
    next.Flooding descriptors tdef graph origin := by
  cases taken with
  | join absent present => exact absurd (flooding.settled.joined _) absent
  | @work client sends node joined works =>
      have settled := flooding.settled.nodes client
      cases works with
      | accept pending => simp [settled.accepts] at pending
      | listTfiles pending => simp [settled.listings] at pending
      | shareTfilesToPeer pending => simp [settled.snapshots] at pending
      | shareTfileToPeers pending => exact flooding.share tree pending
  | @generate client stored joined =>
      apply flooding.generate
      intro same
      exact injected client (by simp [injections, same])
  | deliver joined flying => exact flooding.deliver flying

theorem parent_of_delivery (flooding : network.Flooding descriptors tdef graph origin)
    {delivery : Delivery ι} (member : delivery ∈ network.delivered)
    (same : delivery.tdef = tdef) : Parent graph origin delivery.source delivery.target := by
  subst same
  have positive := List.count_pos_iff.mpr member
  exact flooding.downward (Nat.add_pos_right _ positive)

theorem origin_not_mem_receivers (flooding : network.Flooding descriptors tdef graph origin) :
    origin ∉ network.receivers tdef := by
  intro member
  simp only [receivers, List.mem_map, List.mem_filter, decide_eq_true_eq] at member
  obtain ⟨delivery, ⟨logged, same⟩, atOrigin⟩ := member
  exact (flooding.parent_of_delivery logged same).ne_root atOrigin

/-- A client gets the definition as often as its parent has sent it. -/
theorem count_receivers_le (flooding : network.Flooding descriptors tdef graph origin)
    (tree : graph.IsTree) (below : Parent graph origin source target) :
    (network.receivers tdef).count target ≤ network.sent descriptors tdef source target := by
  have fromParent : (network.receivers tdef).count target =
      network.delivered.count ⟨source, target, tdef⟩ := by
    unfold receivers
    rw [List.count, List.countP_map, List.countP_filter, List.count]
    apply List.countP_congr
    intro delivery logged
    simp only [Function.comp_apply, beq_iff_eq, Bool.and_eq_true, decide_eq_true_eq]
    constructor
    · rintro ⟨rfl, same⟩
      obtain rfl := (flooding.parent_of_delivery logged same).unique tree below
      subst same
      rfl
    · rintro rfl
      exact ⟨rfl, rfl⟩
  rw [fromParent]
  exact Nat.le_add_left _ _

/-- From the origin outwards, every client gets the definition at most once. -/
theorem got_le_one (flooding : network.Flooding descriptors tdef graph origin)
    (tree : graph.IsTree) (injected : (network.injections tdef).Sublist [origin])
    (client : ι) : network.got tdef client ≤ 1 := by
  apply parent_induction graph origin (fun child parents => ?_) client
  have injections := injected.count_le child
  by_cases received : child ∈ network.receivers tdef
  · have away : child ≠ origin := fun same =>
      flooding.origin_not_mem_receivers (same ▸ received)
    simp only [receivers, List.mem_map, List.mem_filter, decide_eq_true_eq] at received
    obtain ⟨delivery, ⟨logged, same⟩, rfl⟩ := received
    have below := flooding.parent_of_delivery logged same
    have bound := parents _ below
    have balanced := flooding.balanced below
    have passed := flooding.count_receivers_le tree below
    rw [List.count_singleton, if_neg (by simpa using away.symm)] at injections
    unfold got at bound ⊢
    unfold got at balanced
    omega
  · have none := List.count_eq_zero_of_not_mem received
    have once : [origin].count child ≤ 1 := List.count_le_length
    unfold got
    omega

end Flooding

theorem injections_subset {next : Network ι} (taken : GossipStep descriptors network next) :
    network.injections tdef ⊆ next.injections tdef := by
  cases taken with
  | join absent present => exact List.Subset.refl _
  | work joined works => exact List.Subset.refl _
  | generate joined =>
      apply List.map_subset
      apply List.filter_subset
      exact List.subset_cons_self ..
  | deliver joined flying => exact List.Subset.refl _

end Network

/-- **Flooding delivers at most once.**  In a finite tree of clients with fixed
connections, let a definition be injected once, at `origin`, and let messages be
delivered and shares be run in any order.  No client is delivered the definition more
than once and the origin never is, so a run has at most `n - 1` deliveries of it for
`n` clients. -/
theorem flood_at_most_once [Fintype ι] {descriptors : Descriptors ι} {graph : SimpleGraph ι}
    (tree : graph.IsTree) {start final : Network ι} {tdef : TfileDef} {origin : ι}
    (settled : start.Settled descriptors graph) (unheard : start.Unheard tdef)
    (run : ReflTransGen (GossipStep descriptors) start final)
    (injected : (final.injections tdef).Sublist [origin]) :
    (final.receivers tdef).Nodup ∧ origin ∉ final.receivers tdef ∧
    (final.receivers tdef).length ≤ Fintype.card ι - 1 := by
  have preserved : ∀ network next : Network ι,
      ((∀ client ∈ network.injections tdef, client = origin) →
        network.Flooding descriptors tdef graph origin) →
      GossipStep descriptors network next →
      (∀ client ∈ next.injections tdef, client = origin) →
        next.Flooding descriptors tdef graph origin := by
    intro network next before taken injected
    refine (before ?_).step tree taken injected
    exact fun client member => injected client (Network.injections_subset taken member)
  have flooding : final.Flooding descriptors tdef graph origin := by
    refine invariant_run preserved run (fun _ => unheard.flooding settled origin) ?_
    exact fun client member => List.mem_singleton.mp (injected.subset member)
  have nodup : (final.receivers tdef).Nodup := by
    rw [List.nodup_iff_count_le_one]
    intro client
    exact (Nat.le_add_left _ _).trans (flooding.got_le_one tree injected client)
  have missing := flooding.origin_not_mem_receivers
  refine ⟨nodup, missing, ?_⟩
  have everyone := (List.nodup_cons.mpr ⟨missing, nodup⟩).length_le_card
  rw [List.length_cons] at everyone
  omega

/-- Two connected clients. -/
def pairNetwork : Network Bool where
  joined := [false, true]
  nodes client := Node.init.connect (pairDescriptors.fd client !client)
  flight := []
  generated := []
  delivered := []

theorem pairNetwork_settled : pairNetwork.Settled pairDescriptors ⊤ where
  joined client := by cases client <;> decide
  nodes client := by
    constructor
    case nodup => cases client <;> decide
    case peers =>
        intro fd
        cases client with
        | false => simp [pairNetwork, Node.connect, Node.init, Peers.init]
        | true => simp [pairNetwork, Node.connect, Node.init, Peers.init]
    all_goals rfl

theorem pairNetwork_unheard (tdef : TfileDef) : pairNetwork.Unheard tdef where
  flight := by simp [pairNetwork]
  shares := by simp [pairNetwork, Node.connect, Node.init]
  generated := by simp [pairNetwork]
  delivered := by simp [pairNetwork]

/-- One client injects a definition, the other receives it and has nobody to forward
it to. -/
theorem flood_at_most_once_pair :
    ∃ final : Network Bool,
      ReflTransGen (GossipStep pairDescriptors) pairNetwork final ∧
      final.injections sampleDef = [false] ∧ final.receivers sampleDef = [true] ∧
      (final.receivers sampleDef).length ≤ Fintype.card Bool - 1 := by
  have generated := ReflTransGen.single
    (@GossipStep.generate _ _ pairDescriptors pairNetwork false sampleDef (by decide))
  have shared := generated.tail (@GossipStep.work _ _ _ _ false _ _ (by decide)
    (@Works.shareTfileToPeers _ ⟨sampleDef, noSenderPeer⟩ (List.mem_singleton_self _)))
  have delivered := shared.tail (@GossipStep.deliver _ _ _ _ false true sampleDef (by decide)
    (List.mem_singleton_self _))
  have forwarded := delivered.tail (@GossipStep.work _ _ _ _ true _ _ (by decide)
    (@Works.shareTfileToPeers _ ⟨sampleDef, 3⟩ (List.mem_singleton_self _)))
  have tree : (⊤ : SimpleGraph Bool).IsTree :=
    ⟨SimpleGraph.connected_top, SimpleGraph.IsAcyclic.of_card_le_two (by simp)⟩
  refine ⟨_, forwarded, by simp [Network.injections, pairNetwork],
    by simp [Network.receivers, pairNetwork], ?_⟩
  have bounds := @flood_at_most_once _ _ _ _ _ tree _ _ sampleDef false pairNetwork_settled
    (pairNetwork_unheard sampleDef) forwarded (by simp [Network.injections, pairNetwork])
  exact bounds.2.2

end Grintorrent
