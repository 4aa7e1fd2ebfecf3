import Grintorrent.Gossip.Flood
import Grintorrent.Lib.Floods

/-!
# Flooding any network

Without a tree of connections nothing stops `readWorker` from forwarding a definition that
it has forwarded before.  Whatever the connections are, along each of them go exactly the
copies that did not come along it; `Passing` counts them for any number of injections.  In
a tree the definition is passed on until nothing is left to be done, and in any other
network it is on its way for ever.
-/

namespace Grintorrent

open Lib Relation

variable {ι : Type}

namespace Network

variable (network : Network ι) (descriptors : Descriptors ι) (tdef : TfileDef)

/-- The definition is not on its way any more. -/
structure Quiet : Prop where
  flight : ∀ packet ∈ network.flight, packet.tdef ≠ tdef
  shares : ∀ client, ∀ data ∈ (network.nodes client).shares, data.tfile ≠ tdef

/-- The shares that a client has still to run and that send the definition to this peer. -/
def awaiting (source target : ι) : Nat :=
  (network.nodes source).shares.countP fun data =>
    data.tfile = tdef ∧ data.sender ≠ descriptors.fd source target

variable [DecidableEq ι]

/-- The invariant, for any connections. -/
structure Passing (graph : SimpleGraph ι) : Prop where
  settled : network.Settled descriptors graph
  adj : ∀ {source target : ι}, 0 < network.sent descriptors tdef source target →
    graph.Adj source target
  flight : ∀ packet ∈ network.flight, packet.tdef = tdef →
    ∃ target, graph.Adj packet.source target ∧ packet.fd = descriptors.fd packet.source target
  balanced : ∀ {source target : ι}, graph.Adj source target →
    network.sent descriptors tdef source target +
        network.awaiting descriptors tdef source target +
        network.delivered.count ⟨target, source, tdef⟩ =
      network.got tdef source

end Network

namespace Network

variable {network : Network ι} {descriptors : Descriptors ι} {graph : SimpleGraph ι}
variable {tdef stored : TfileDef} {client other source target : ι} {sender : Fd} {node : Node}
variable {flight : List (Packet ι)} {generated : List (ι × TfileDef)}
variable {delivered : List (Delivery ι)}

/-- A share sends the definition once along each connection but the one it came from. -/
theorem Settled.count_recipients (settled : network.Settled descriptors graph)
    (adj : graph.Adj source target) (sender : Fd) :
    ((network.nodes source).peers.recipients sender).count (descriptors.fd source target) =
      if sender = descriptors.fd source target then 0 else 1 := by
  have node := settled.nodes source
  split
  next skipped =>
      apply List.count_eq_zero_of_not_mem
      rw [Peers.mem_recipients]
      exact fun reached => reached.2 skipped.symm
  next reached =>
      apply List.count_eq_one_of_mem
      · exact node.nodup.filter _
      · rw [Peers.mem_recipients, node.peers]
        exact ⟨⟨target, adj, rfl⟩, Ne.symm reached⟩

theorem Settled.adj_of_mem_recipients (settled : network.Settled descriptors graph) {fd : Fd}
    (member : fd ∈ (network.nodes source).peers.recipients sender) :
    ∃ target, graph.Adj source target ∧ fd = descriptors.fd source target :=
  ((settled.nodes source).peers fd).mp (Peers.mem_recipients.mp member).1

variable [DecidableEq ι]

theorem awaiting_store :
    (network.update client ((network.nodes client).store sender stored)).awaiting descriptors tdef
        source target =
      network.awaiting descriptors tdef source target +
        if source = client ∧ stored = tdef ∧ sender ≠ descriptors.fd source target then 1
        else 0 := by
  unfold awaiting
  by_cases same : source = client
  · subst same
    simp [Node.store, List.countP_cons]
  · simp [same]

theorem awaiting_share {data : SendTfile} (member : data ∈ (network.nodes client).shares) :
    (network.update client ((network.nodes client).shareTfileToPeers data)).awaiting descriptors
        tdef source target +
      (if source = client ∧ data.tfile = tdef ∧ data.sender ≠ descriptors.fd source target then 1
        else 0) =
      network.awaiting descriptors tdef source target := by
  unfold awaiting
  by_cases same : source = client
  · subst same
    simp only [update_nodes_self, Node.shareTfileToPeers, List.countP_erase, member, true_and,
      decide_eq_true_eq]
    split
    next sends =>
        have positive : 0 < (network.nodes source).shares.countP fun data =>
            data.tfile = tdef ∧ data.sender ≠ descriptors.fd source target :=
          List.countP_pos_iff.mpr ⟨data, member, by simpa using sends⟩
        omega
    next => rfl
  · simp [same]

theorem Unheard.passing (settled : network.Settled descriptors graph)
    (unheard : network.Unheard tdef) : network.Passing descriptors tdef graph := by
  have arrived : ∀ source target, network.delivered.count ⟨source, target, tdef⟩ = 0 :=
    fun source target =>
      List.count_eq_zero_of_not_mem fun member => unheard.delivered _ member rfl
  have notSent : ∀ source target, network.sent descriptors tdef source target = 0 := by
    intro source target
    rw [sent, arrived, List.count_eq_zero_of_not_mem fun member => unheard.flight _ member rfl]
  have notGot : ∀ client, network.got tdef client = 0 := by
    intro client
    have injections : network.injections tdef = [] := by
      simpa [injections] using fun first second => unheard.generated (first, second)
    have receivers : network.receivers tdef = [] := by
      simpa [receivers] using unheard.delivered
    simp [got, injections, receivers]
  constructor
  case settled => exact settled
  case adj =>
      intro source target positive
      simp [notSent] at positive
  case flight => exact fun packet member same => absurd same (unheard.flight packet member)
  case balanced =>
      intro source target _
      have nothing : network.awaiting descriptors tdef source target = 0 := by
        simpa [awaiting] using fun data member same =>
          absurd same (unheard.shares source data member)
      rw [notSent, arrived, notGot, nothing]

namespace Passing

variable (passing : network.Passing descriptors tdef graph)

include passing

theorem share {data : SendTfile} (member : data ∈ (network.nodes client).shares) :
    Passing
      { network.update client ((network.nodes client).shareTfileToPeers data) with
        flight := network.flight ++
          (((network.nodes client).peers.recipients data.sender).map fun fd =>
            (fd, data.tfile)).map fun send => ⟨client, send.1, send.2⟩ }
      descriptors tdef graph := by
  have settled := passing.settled
  constructor
  case settled => exact settled.update rfl rfl rfl rfl
  case adj =>
      intro source target positive
      rw [sent_share] at positive
      split at positive
      next own =>
          obtain ⟨rfl, _⟩ := own
          rcases Nat.add_pos_iff_pos_or_pos.mp positive with before | now
          · exact passing.adj before
          · obtain ⟨peer, adj, same⟩ :=
              settled.adj_of_mem_recipients (List.count_pos_iff.mp now)
            rwa [descriptors.fd_inj.mp same]
      next => exact passing.adj positive
  case flight =>
      intro packet flying same
      rcases List.mem_append.mp flying with before | now
      · exact passing.flight packet before same
      · simp only [List.map_map, List.mem_map, Function.comp_apply] at now
        obtain ⟨fd, reached, rfl⟩ := now
        exact settled.adj_of_mem_recipients reached
  case balanced =>
      intro source target adj
      have before := passing.balanced adj
      rw [← awaiting_share member] at before
      rw [sent_share]
      change _ + (network.update client _).awaiting descriptors tdef source target +
        network.delivered.count _ = network.got tdef source
      rw [← before]
      by_cases own : source = client ∧ data.tfile = tdef
      · obtain ⟨rfl, same⟩ := own
        rw [if_pos ⟨rfl, same⟩, settled.count_recipients adj]
        by_cases skipped : data.sender = descriptors.fd source target
        · simp [skipped]
        · simp [skipped, same]
          omega
      · have other : ¬(source = client ∧ data.tfile = tdef ∧
            data.sender ≠ descriptors.fd source target) :=
          fun owns => own ⟨owns.1, owns.2.1⟩
        rw [if_neg own, if_neg other]
        rfl

theorem generate :
    Passing
      { network.update client ((network.nodes client).store noSenderPeer stored) with
        generated := (client, stored) :: network.generated }
      descriptors tdef graph := by
  constructor
  case settled => exact passing.settled.update rfl rfl rfl rfl
  case adj => exact fun positive => passing.adj positive
  case flight => exact passing.flight
  case balanced =>
      intro source target adj
      have before := passing.balanced adj
      rw [got_generate, ← before]
      change network.sent descriptors tdef source target +
        (network.update client _).awaiting descriptors tdef source target + _ = _
      rw [awaiting_store]
      have others : noSenderPeer ≠ descriptors.fd source target :=
        descriptors.fd_ne_noSenderPeer.symm
      simp only [ne_eq, others, not_false_eq_true, and_true, update_delivered]
      omega

theorem deliver
    (flying : ⟨source, descriptors.fd source target, stored⟩ ∈ network.flight) :
    Passing
      { network.update target
          ((network.nodes target).store (descriptors.fd target source) stored) with
        flight := network.flight.erase ⟨source, descriptors.fd source target, stored⟩
        delivered := ⟨source, target, stored⟩ :: network.delivered }
      descriptors tdef graph := by
  constructor
  case settled => exact passing.settled.update rfl rfl rfl rfl
  case adj =>
      intro first second positive
      rw [sent_deliver flying] at positive
      exact passing.adj positive
  case flight =>
      exact fun packet member => passing.flight packet (List.mem_of_mem_erase member)
  case balanced =>
      intro first second adj
      have before := passing.balanced adj
      rw [got_deliver, sent_deliver flying, ← before]
      change _ + (network.update target _).awaiting descriptors tdef first second +
        (⟨source, target, stored⟩ :: network.delivered).count _ = _
      rw [awaiting_store, List.count_cons]
      by_cases same : first = target ∧ stored = tdef
      · obtain ⟨rfl, rfl⟩ := same
        -- The copy counts for the connection that it came along, and else for the share.
        by_cases back : source = second
        · simp [back]
          omega
        · have apart : descriptors.fd first source ≠ descriptors.fd first second :=
            fun equal => back (descriptors.fd_inj.mp equal)
          simp [back, apart]
          omega
      · have others : ¬(first = target ∧ stored = tdef ∧
            descriptors.fd target source ≠ descriptors.fd first second) :=
          fun stores => same ⟨stores.1, stores.2.1⟩
        have elsewhere : (⟨source, target, stored⟩ : Delivery ι) ≠ ⟨second, first, tdef⟩ := by
          intro equal
          simp only [Delivery.mk.injEq] at equal
          exact same ⟨equal.2.1.symm, equal.2.2⟩
        simp [others, elsewhere, same]

theorem step {next : Network ι} (taken : GossipStep descriptors network next) :
    next.Passing descriptors tdef graph := by
  cases taken with
  | join absent present => exact absurd (passing.settled.joined _) absent
  | @work client sends node joined works =>
      have settled := passing.settled.nodes client
      cases works with
      | accept pending => simp [settled.accepts] at pending
      | listTfiles pending => simp [settled.listings] at pending
      | shareTfilesToPeer pending => simp [settled.snapshots] at pending
      | shareTfileToPeers pending => exact passing.share pending
  | generate joined => exact passing.generate
  | deliver joined flying => exact passing.deliver flying

end Passing

theorem Passing.run {final : Network ι} (passing : network.Passing descriptors tdef graph)
    (run : ReflTransGen (GossipStep descriptors) network final) :
    final.Passing descriptors tdef graph :=
  @invariant_run _ _ _ _ (fun network => network.Passing descriptors tdef graph)
    (fun _ _ before taken => before.step taken) run passing

theorem injections_ne_nil {final : Network ι} (injected : network.injections tdef ≠ [])
    (run : ReflTransGen (GossipStep descriptors) network final) :
    final.injections tdef ≠ [] := by
  refine @invariant_run _ _ _ _ (fun network => network.injections tdef ≠ []) ?_ run injected
  intro network next injected taken empty
  exact injected (List.eq_nil_of_subset_nil (empty ▸ injections_subset taken))

/-! ## The flood as a flood of tokens -/

theorem count_receivers [Fintype ι] (network : Network ι) (tdef : TfileDef) (target : ι) :
    (network.receivers tdef).count target =
      ∑ source, network.delivered.count ⟨source, target, tdef⟩ := by
  unfold receivers
  induction network.delivered with
  | nil => simp
  | cons delivery delivered ih =>
      obtain ⟨source, target', stored⟩ := delivery
      simp only [List.count_cons, Finset.sum_add_distrib, ← ih, beq_iff_eq, Delivery.mk.injEq]
      by_cases same : target' = target ∧ stored = tdef
      · obtain ⟨rfl, rfl⟩ := same
        simp
      · by_cases isDef : stored = tdef
        · have elsewhere : target' ≠ target := fun isTarget => same ⟨isTarget, isDef⟩
          simp [isDef, elsewhere]
        · simp [isDef]

section Tokens

variable [Fintype ι]

theorem reached_eq_got (network : Network ι) (tdef : TfileDef) (client : ι) :
    reached (fun client => (network.injections tdef).count client)
        (fun source target => network.delivered.count ⟨source, target, tdef⟩) client =
      network.got tdef client := by
  rw [reached, got, count_receivers]

theorem sum_count (clients : List ι) : ∑ client, clients.count client = clients.length := by
  have all := Multiset.sum_count_eq_card (s := Finset.univ) (m := (clients : Multiset ι))
    fun client _ => Finset.mem_univ client
  simpa using all

/-- On its way, the definition is a flood of tokens. -/
theorem Passing.underWay (passing : network.Passing descriptors tdef graph) :
    UnderWay graph (fun client => (network.injections tdef).count client)
      (fun source target => network.delivered.count ⟨source, target, tdef⟩) where
  adj := by
    intro source target nonzero
    exact passing.adj (Nat.add_pos_right _ (Nat.pos_of_ne_zero nonzero))
  bounded := by
    intro source target adj
    have balanced := passing.balanced adj
    rw [reached_eq_got, ← balanced, sent]
    omega

theorem Passing.diedOut (passing : network.Passing descriptors tdef graph)
    (quiet : network.Quiet tdef) :
    DiedOut graph (fun client => (network.injections tdef).count client)
      (fun source target => network.delivered.count ⟨source, target, tdef⟩) where
  adj := passing.underWay.adj
  balanced := by
    intro source target adj
    have balanced := passing.balanced adj
    have landed : network.flight.count ⟨source, descriptors.fd source target, tdef⟩ = 0 :=
      List.count_eq_zero_of_not_mem fun member => quiet.flight _ member rfl
    have shared : network.awaiting descriptors tdef source target = 0 := by
      simpa [awaiting] using fun data member same => absurd same (quiet.shares source data member)
    rw [sent, landed, shared] at balanced
    rw [reached_eq_got, ← balanced]
    omega

/-- In a tree no client gets the definition more often than it was injected. -/
theorem Passing.got_le (passing : network.Passing descriptors tdef graph) (tree : graph.IsTree)
    (client : ι) : network.got tdef client ≤ (network.injections tdef).length := by
  rw [← reached_eq_got, ← sum_count]
  exact passing.underWay.reached_le tree client

/-- The deliveries that can still come, each with the share it starts, and the shares that
have not run. -/
def remaining (network : Network ι) (tdef : TfileDef) : Nat :=
  2 * (Fintype.card ι * (network.injections tdef).length - (network.receivers tdef).length) +
    ∑ client, network.pending tdef client

theorem Passing.length_receivers_le (passing : network.Passing descriptors tdef graph)
    (tree : graph.IsTree) :
    (network.receivers tdef).length ≤
      Fintype.card ι * (network.injections tdef).length := by
  rw [← sum_count, ← smul_eq_mul, ← Finset.card_univ]
  apply Finset.sum_le_card_nsmul
  intro client _
  exact (Nat.le_add_left _ _).trans (passing.got_le tree client)

theorem sum_update (weight : ι → Nat) (client : ι) :
    (∑ other, (weight other + if other = client then 1 else 0)) = ∑ other, weight other + 1 := by
  rw [Finset.sum_add_distrib]
  simp

/-- A share is one step of what is left. -/
theorem remaining_share {data : SendTfile} (member : data ∈ (network.nodes client).shares)
    (same : data.tfile = tdef) :
    remaining { network.update client ((network.nodes client).shareTfileToPeers data) with flight }
        tdef + 1 = network.remaining tdef := by
  have pendings : ∑ other, network.pending tdef other =
      ∑ other, (network.update client
        ((network.nodes client).shareTfileToPeers data)).pending tdef other + 1 := by
    rw [← sum_update _ client]
    apply Finset.sum_congr rfl
    intro other _
    rw [← pending_share member]
    simp [same]
  unfold remaining
  rw [pendings]
  rfl

/-- So is a delivery, if the share it starts counts half of it. -/
theorem remaining_deliver {next : Network ι}
    (taken : next =
      { network.update target ((network.nodes target).store sender tdef) with
        flight, delivered := ⟨source, target, tdef⟩ :: network.delivered })
    (bounded : (next.receivers tdef).length ≤
      Fintype.card ι * (next.injections tdef).length) :
    next.remaining tdef + 1 = network.remaining tdef := by
  have receivers : next.receivers tdef = target :: network.receivers tdef := by
    rw [taken]
    simp [Network.receivers]
  have injections : next.injections tdef = network.injections tdef := by
    rw [taken]
    rfl
  have pendings : ∑ other, next.pending tdef other = ∑ other, network.pending tdef other + 1 := by
    rw [← sum_update _ target]
    apply Finset.sum_congr rfl
    intro other _
    rw [taken]
    change (network.update target _).pending tdef other = _
    rw [pending_store]
    simp
  rw [receivers, injections, List.length_cons] at bounded
  unfold remaining
  rw [pendings, receivers, injections, List.length_cons]
  omega

/-- In a tree the definition can be passed on until nothing is left to be done. -/
theorem Passing.exists_quiet (passing : network.Passing descriptors tdef graph)
    (tree : graph.IsTree) :
    ∃ final, ReflTransGen (GossipStep descriptors) network final ∧
      final.injections tdef = network.injections tdef ∧ final.Quiet tdef := by
  induction left : network.remaining tdef using Nat.strong_induction_on generalizing network with
  | h left ih =>
      have goesOn : ∀ next, GossipStep descriptors network next →
          next.injections tdef = network.injections tdef →
          next.remaining tdef + 1 = network.remaining tdef →
          ∃ final, ReflTransGen (GossipStep descriptors) network final ∧
            final.injections tdef = network.injections tdef ∧ final.Quiet tdef := by
        intro next taken injections fewer
        obtain ⟨final, run, kept, quiet⟩ :=
          ih _ (by omega) (passing.step taken) rfl
        exact ⟨final, .head taken run, kept.trans injections, quiet⟩
      by_cases shares : ∃ client, ∃ data ∈ (network.nodes client).shares, data.tfile = tdef
      · obtain ⟨client, data, member, same⟩ := shares
        exact goesOn _ (.work network (passing.settled.joined client) (.shareTfileToPeers _ member))
          rfl (remaining_share member same)
      · by_cases flying : ∃ packet ∈ network.flight, packet.tdef = tdef
        · obtain ⟨⟨source, fd, stored⟩, member, same⟩ := flying
          obtain ⟨target, _, isFd⟩ := passing.flight _ member same
          simp only at same isFd
          subst same isFd
          have taken := GossipStep.deliver network (passing.settled.joined target) member
          refine goesOn _ taken rfl (remaining_deliver rfl ?_)
          exact (passing.step taken).length_receivers_le tree
        · push Not at shares flying
          exact ⟨network, .refl, rfl, flying, shares⟩

/-- What has died out was a tree, and each client has got each copy. -/
theorem Passing.isTree (passing : network.Passing descriptors tdef graph)
    (connected : graph.Connected) (injected : network.injections tdef ≠ [])
    (quiet : network.Quiet tdef) :
    graph.IsTree ∧ ∀ client, network.got tdef client = (network.injections tdef).length := by
  have some : ∑ client, (network.injections tdef).count client ≠ 0 := by
    rw [sum_count]
    exact fun empty => injected (List.eq_nil_of_length_eq_zero empty)
  obtain ⟨tree, all⟩ := (passing.diedOut quiet).isTree connected some
  refine ⟨tree, fun client => ?_⟩
  rw [← reached_eq_got, all, sum_count]

end Tokens

end Network

section Main

variable [Fintype ι] [DecidableEq ι] {descriptors : Descriptors ι} {graph : SimpleGraph ι}
variable {tdef : TfileDef} {start now : Network ι}

/-- **Flooding ends in trees only.**  In a finite connected network with fixed connections,
let a definition that nobody has heard of be injected, any number of times and at any
clients.  From each state of each run, one in which it is not on its way any more can be
reached if and only if the connections are a tree; in any other network a copy is in flight
or about to be sent for ever. -/
theorem flood_dies_out_iff (connected : graph.Connected)
    (settled : start.Settled descriptors graph) (unheard : start.Unheard tdef)
    (run : ReflTransGen (GossipStep descriptors) start now)
    (injected : now.injections tdef ≠ []) :
    (∃ final, ReflTransGen (GossipStep descriptors) now final ∧ final.Quiet tdef) ↔
      graph.IsTree := by
  have passing := (unheard.passing settled).run run
  constructor
  · rintro ⟨final, goesOn, quiet⟩
    have injected := Network.injections_ne_nil injected goesOn
    exact ((passing.run goesOn).isTree connected injected quiet).1
  · intro tree
    obtain ⟨final, goesOn, _, quiet⟩ := passing.exists_quiet tree
    exact ⟨final, goesOn, quiet⟩

/-- **How often a client gets a definition** that was injected any number of times, at any
clients: in a tree, at most once for each injection at any time of a run, and exactly once
for each when the definition is on its way no more. -/
theorem flood_counts (tree : graph.IsTree) (settled : start.Settled descriptors graph)
    (unheard : start.Unheard tdef) (run : ReflTransGen (GossipStep descriptors) start now)
    (client : ι) :
    now.got tdef client ≤ (now.injections tdef).length ∧
      (now.Quiet tdef → now.got tdef client = (now.injections tdef).length) := by
  have passing := (unheard.passing settled).run run
  have bound := passing.got_le tree client
  refine ⟨bound, fun quiet => ?_⟩
  by_cases injected : now.injections tdef = []
  · rw [injected] at bound ⊢
    exact Nat.le_zero.mp bound
  · exact (passing.isTree tree.connected injected quiet).2 client

end Main

/-- Three clients, each connected to the two others. -/
def triangleDescriptors : Descriptors (Fin 3) where
  fd _ peer := peer.val + 3
  injective _ := by decide
  nonneg _ peer := by fin_cases peer <;> decide

/-- A client of the triangle, with its connections. -/
def triangleNode (client : Fin 3) : Node :=
  (Node.init.connect (triangleDescriptors.fd client (client + 1))).connect
    (triangleDescriptors.fd client (client + 2))

@[inherit_doc triangleDescriptors] def triangleNetwork : Network (Fin 3) where
  joined := [0, 1, 2]
  nodes := triangleNode
  flight := []
  generated := []
  delivered := []

theorem triangleNetwork_settled : triangleNetwork.Settled triangleDescriptors ⊤ where
  joined client := by fin_cases client <;> decide
  nodes client := by
    constructor
    case nodup => fin_cases client <;> decide
    case peers =>
        intro fd
        have others : ∀ peer : Fin 3, client ≠ peer ↔ peer = client + 1 ∨ peer = client + 2 := by
          decide +revert
        simp [triangleNetwork, triangleNode, Node.connect, Node.init, Peers.init,
          SimpleGraph.top_adj, others]
    all_goals rfl

theorem triangleNetwork_unheard (tdef : TfileDef) : triangleNetwork.Unheard tdef where
  flight := by simp [triangleNetwork]
  shares := by simp [triangleNetwork, triangleNode, Node.connect, Node.init]
  generated := by simp [triangleNetwork]
  delivered := by simp [triangleNetwork]

theorem triangle_not_isTree : ¬(⊤ : SimpleGraph (Fin 3)).IsTree := by
  intro tree
  have edges := tree.card_edgeFinset
  revert edges
  decide

/-- In a triangle a definition is never heard of for the last time. -/
theorem flood_dies_out_triangle :
    ∃ now : Network (Fin 3),
      ReflTransGen (GossipStep triangleDescriptors) triangleNetwork now ∧
      now.injections sampleDef = [0] ∧
      ∀ final, ReflTransGen (GossipStep triangleDescriptors) now final →
        ¬final.Quiet sampleDef := by
  have generated := ReflTransGen.single
    (@GossipStep.generate _ _ triangleDescriptors triangleNetwork 0 sampleDef (by decide))
  refine ⟨_, generated, by simp [Network.injections, triangleNetwork], ?_⟩
  intro final run quiet
  have dies := @flood_dies_out_iff _ _ _ _ _ sampleDef _ _ SimpleGraph.connected_top
    triangleNetwork_settled (triangleNetwork_unheard sampleDef) generated
    (by simp [Network.injections, triangleNetwork])
  exact triangle_not_isTree (dies.mp ⟨final, run, quiet⟩)

/-- Two clients inject the same definition: after both shares have been delivered and run,
each has got it twice. -/
theorem flood_counts_pair :
    ∃ final : Network Bool,
      ReflTransGen (GossipStep pairDescriptors) pairNetwork final ∧
      final.injections sampleDef = [true, false] ∧
      ∀ client, final.got sampleDef client = 2 := by
  have generated := (ReflTransGen.single
    (@GossipStep.generate _ _ pairDescriptors pairNetwork false sampleDef (by decide))).tail
    (@GossipStep.generate _ _ pairDescriptors _ true sampleDef (by decide))
  have shared := (generated.tail (@GossipStep.work _ _ _ _ false _ _ (by decide)
    (@Works.shareTfileToPeers _ ⟨sampleDef, noSenderPeer⟩ (List.mem_singleton_self _)))).tail
    (@GossipStep.work _ _ _ _ true _ _ (by decide)
    (@Works.shareTfileToPeers _ ⟨sampleDef, noSenderPeer⟩ (List.mem_singleton_self _)))
  have delivered := (shared.tail (@GossipStep.deliver _ _ _ _ false true sampleDef (by decide)
    List.mem_cons_self)).tail (@GossipStep.deliver _ _ _ _ true false sampleDef (by decide)
    List.mem_cons_self)
  have forwarded := (delivered.tail (@GossipStep.work _ _ _ _ true _ _ (by decide)
    (@Works.shareTfileToPeers _ ⟨sampleDef, 3⟩ (List.mem_singleton_self _)))).tail
    (@GossipStep.work _ _ _ _ false _ _ (by decide)
    (@Works.shareTfileToPeers _ ⟨sampleDef, 4⟩ (List.mem_singleton_self _)))
  have tree : (⊤ : SimpleGraph Bool).IsTree :=
    ⟨SimpleGraph.connected_top, SimpleGraph.IsAcyclic.of_card_le_two (by simp)⟩
  refine ⟨_, forwarded, by simp [Network.injections, pairNetwork], ?_⟩
  intro client
  have counts := (@flood_counts _ _ _ _ _ sampleDef _ _ tree pairNetwork_settled
    (pairNetwork_unheard sampleDef) forwarded client).2
  rw [counts]
  · simp [Network.injections, pairNetwork]
  · constructor
    · decide
    · decide

end Grintorrent
