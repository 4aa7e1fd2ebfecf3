import Grintorrent.Gossip.Quiet
import Grintorrent.Lib.Onward
import Grintorrent.Request.Dying

/-!
# Which networks let a request die out

Whether a request dies out depends on what lies behind the arguments of the readers.  If
it is no descriptor of a peer, a client that lacks the chunk sends the request back, and
only a requester whose peers all hold it gets rid of it.  If it is the descriptor of the
connection, the request goes round the cycles of clients that lack the chunk.
-/

namespace Grintorrent

open Lib Relation

variable {ι : Type} {net : Peering ι} {graph : SimpleGraph ι} {lacks : ι → Prop}
variable {origin source client peer : ι} {fd : Fd} {length : Nat}

theorem Peering.Wired.connected (wired : net.Wired graph) : net.Connected := by
  intro client fd listed
  obtain ⟨peer, _, isPeer⟩ := (wired.peers client fd).mp listed
  exact ⟨peer, isPeer⟩

theorem Peering.Wired.first (wired : net.Wired graph) (adj : graph.Adj origin peer) :
    Walk net lacks origin origin (net.descriptors.fd origin peer) 1 :=
  .first ((wired.peers origin _).mpr ⟨peer, adj, rfl⟩)

/-- A client that lacks the chunk sends it on to a peer, unless the descriptor of the peer
lies behind the argument. -/
theorem Peering.Wired.relay (wired : net.Wired graph)
    (walk : Walk net lacks origin source (net.descriptors.fd source client) length)
    (isLacking : lacks client) (adj : graph.Adj client peer)
    (other : net.descriptors.fd client peer ≠ net.behind client source) :
    Walk net lacks origin client (net.descriptors.fd client peer) (length + 1) :=
  .relay walk isLacking
    (Peers.mem_recipients.mpr ⟨(wired.peers client _).mpr ⟨peer, adj, rfl⟩, other⟩)

/-- No descriptor of a peer lies behind an argument. -/
def EchoesAll (net : Peering ι) : Prop :=
  ∀ client source, net.behind client source ∉ (net.peers client).arr

/-- The request goes back and forth between the requester and a peer that lacks the
chunk. -/
theorem EchoesAll.bounces (echoes : EchoesAll net) (wired : net.Wired graph)
    (atOrigin : lacks origin) (adj : graph.Adj origin peer) (atPeer : lacks peer)
    (times : Nat) :
    Walk net lacks origin origin (net.descriptors.fd origin peer) (2 * times + 1) := by
  have notBehind : ∀ {client source peer : ι}, graph.Adj client peer →
      net.descriptors.fd client peer ≠ net.behind client source := by
    intro client source peer adj same
    apply echoes client source
    rw [← same]
    exact (wired.peers client _).mpr ⟨peer, adj, rfl⟩
  induction times with
  | zero => exact wired.first adj
  | succ times ih =>
      have there := wired.relay ih atPeer adj.symm (notBehind adj.symm)
      exact wired.relay there atOrigin adj (notBehind adj)

theorem Peering.Wired.mem_firstEdges (wired : net.Wired graph) {edge : ι × Fd} :
    edge ∈ firstEdges net origin ↔
      ∃ peer, graph.Adj origin peer ∧ edge = (origin, net.descriptors.fd origin peer) := by
  rw [firstEdges, List.mem_map]
  constructor
  · rintro ⟨fd, listed, rfl⟩
    obtain ⟨peer, adj, rfl⟩ := (wired.peers origin fd).mp listed
    exact ⟨peer, adj, rfl⟩
  · rintro ⟨peer, adj, rfl⟩
    exact ⟨_, (wired.peers origin _).mpr ⟨peer, adj, rfl⟩, rfl⟩

theorem Peering.Wired.within_one (wired : net.Wired graph)
    (holding : ∀ peer, graph.Adj origin peer → ¬lacks peer) :
    ∀ edge ∈ firstEdges net origin, Within (spreadOf net lacks) 1 edge := by
  intro edge member next spread
  obtain ⟨peer, adj, rfl⟩ := wired.mem_firstEdges.mp member
  rw [spreadOf_holding (holding peer adj)] at spread
  exact absurd spread List.not_mem_nil

/-- The walks of a requester that lacks the chunk are bounded only if it has no peer that
lacks it. -/
theorem EchoesAll.bounded_iff (echoes : EchoesAll net) (wired : net.Wired graph)
    (atOrigin : lacks origin) :
    (∃ bound, ∀ client fd length, Walk net lacks origin client fd length → length ≤ bound) ↔
      ∀ peer, graph.Adj origin peer → ¬lacks peer := by
  constructor
  · rintro ⟨bound, bounded⟩ peer adj atPeer
    have short := bounded _ _ _ (echoes.bounces wired atOrigin adj atPeer (bound + 1))
    omega
  · intro holding
    exact walks_bounded_iff.mpr ⟨1, wired.within_one holding⟩

/-- The connections on which the copies came that were received. -/
def Relays.receivedOn (net : Peering ι) (state : Relays ι) : List (ι × Fd) :=
  state.received.map fun entry => (entry.2.source, net.descriptors.fd entry.2.source entry.1)

section Received

variable {now : Relays ι}

theorem Peering.Wired.receivedOn_eq (wired : net.Wired graph)
    (accounted : (now.edges ++ now.receivedOn net).Perm (firstEdges net origin)) :
    now.receivedOn net =
        (now.received.map Prod.fst).map (fun peer => (origin, net.descriptors.fd origin peer)) ∧
      ∀ client ∈ now.received.map Prod.fst, graph.Adj origin client := by
  have came : ∀ entry ∈ now.received, entry.2.source = origin ∧ graph.Adj origin entry.1 := by
    intro entry member
    have first : (entry.2.source, net.descriptors.fd entry.2.source entry.1) ∈
        firstEdges net origin :=
      accounted.mem_iff.mp (List.mem_append_right _ (List.mem_map_of_mem member))
    obtain ⟨fd, listed, same⟩ := List.mem_map.mp first
    obtain ⟨isOrigin, isFd⟩ := Prod.mk.inj same
    obtain ⟨peer, adj, isPeer⟩ := (wired.peers origin fd).mp listed
    rw [← isOrigin] at isFd
    rw [← net.descriptors.fd_inj.mp (isPeer.symm.trans isFd)]
    exact ⟨isOrigin.symm, adj⟩
  constructor
  · rw [Relays.receivedOn, List.map_map]
    apply List.map_congr_left
    intro entry member
    rw [Function.comp_apply, (came entry member).1]
  · intro client member
    obtain ⟨entry, isEntry, rfl⟩ := List.mem_map.mp member
    exact (came entry isEntry).2

/-- Where no copy is left in flight, all peers have received one. -/
theorem Peering.Wired.silent_iff (wired : net.Wired graph)
    (accounted : (now.edges ++ now.receivedOn net).Perm (firstEdges net origin))
    (distinct : (now.edges ++ now.receivedOn net).Nodup) :
    now.flight = [] ↔ ∀ peer, graph.Adj origin peer → peer ∈ now.received.map Prod.fst := by
  obtain ⟨isList, _⟩ := wired.receivedOn_eq accounted
  constructor
  · intro silent peer adj
    have first := wired.mem_firstEdges.mpr ⟨peer, adj, rfl⟩
    rw [← accounted.mem_iff, Relays.edges, silent, List.map_nil, List.nil_append, isList] at first
    obtain ⟨client, member, same⟩ := List.mem_map.mp first
    rw [← net.descriptors.fd_inj.mp (Prod.mk.inj same).2]
    exact member
  · intro all
    by_contra flying
    obtain ⟨copy, member⟩ := List.exists_mem_of_ne_nil _ flying
    have onEdge : copy.edge ∈ now.edges := List.mem_map_of_mem member
    obtain ⟨peer, adj, isEdge⟩ :=
      wired.mem_firstEdges.mp (accounted.mem_iff.mp (List.mem_append_left _ onEdge))
    have received : copy.edge ∈ now.receivedOn net := by
      rw [isList, isEdge]
      exact List.mem_map_of_mem (all peer adj)
    exact List.disjoint_of_nodup_append distinct onEdge received

end Received

section Run

variable [DecidableEq ι] {tdef : TfileDef} {size : Nat} {i : Fin numChunks}
variable {tempPort : BitVec 16} {padding : Vector UInt8 3} {stores : ι → Store}
variable {now : Relays ι}

theorem OnItsWay.step_within_one {padding : Vector UInt8 3} {state next : Relays ι}
    (onWay : OnItsWay net tdef size i lacks tempPort padding state)
    (within : ∀ edge ∈ state.edges, Within (spreadOf net lacks) 1 edge)
    (step : SteadyStep net tdef size i lacks state next) :
    (next.edges ++ next.receivedOn net).Perm (state.edges ++ state.receivedOn net) := by
  cases step.1 with
  | @deliver client copy calls rest handled arrives =>
      have nothing : spreadOf net lacks copy.edge = [] :=
        List.eq_nil_iff_forall_not_mem.mpr (within _ (List.mem_map_of_mem arrives.flying))
      have left : (state.deliver client copy handled).edges =
          (state.flight.erase copy).map RequestCopy.edge := by
        rw [Relays.edges, Relays.deliver, List.map_append, onWay.relays arrives, nothing,
          List.append_nil]
      have received : (state.deliver client copy handled).receivedOn net =
          copy.edge :: state.receivedOn net := by
        rw [RequestCopy.edge, arrives.fd]
        rfl
      have flying : state.edges.Perm (copy.edge :: (state.flight.erase copy).map _) :=
        (List.perm_cons_erase arrives.flying).map _
      rw [left, received]
      exact List.perm_middle.trans (flying.symm.append_right _)
  | other => exact .refl _

/-- Each copy of the requester is in flight or was received, once. -/
theorem received_once (connected : net.Connected)
    (decide : AllDecide net tdef size i lacks stores)
    (within : ∀ edge ∈ firstEdges net origin, Within (spreadOf net lacks) 1 edge)
    (run : ReflTransGen (SteadyStep net tdef size i lacks)
      (.start net stores origin
        ((ChunkRequest.forDownload tdef.fHash i tempPort).bytes padding)) now) :
    (now.edges ++ now.receivedOn net).Perm (firstEdges net origin) := by
  have starts := @onItsWay_start _ _ _ origin _ _ _ tempPort padding _ connected decide
  rw [← @edges_start _ _ _ stores
    ((ChunkRequest.forDownload tdef.fHash i tempPort).bytes padding)] at within ⊢
  induction run with
  | refl => exact .of_eq (List.append_nil _)
  | tail before last ih =>
      obtain ⟨onWay, inside, _⟩ := starts.run connected within before
      exact (onWay.step_within_one inside last).trans ih

/-- **A request that is sent back dies out** only if all peers of the requester hold the
chunk, at any time of any run, and then no other client receives it, none of them more than
once, and each of them has received it exactly if no copy is in flight. -/
theorem echoed_request_dies_out_iff (wired : net.Wired graph) (echoes : EchoesAll net)
    (atOrigin : lacks origin) (decide : AllDecide net tdef size i lacks stores)
    (run : ReflTransGen (SteadyStep net tdef size i lacks)
      (.start net stores origin
        ((ChunkRequest.forDownload tdef.fHash i tempPort).bytes padding)) now) :
    (DiesOut net tdef size i lacks now ↔ ∀ peer, graph.Adj origin peer → ¬lacks peer) ∧
      ((∀ peer, graph.Adj origin peer → ¬lacks peer) →
        (now.received.map Prod.fst).Nodup ∧
          (∀ client ∈ now.received.map Prod.fst, graph.Adj origin client) ∧
          (now.flight = [] ↔
            ∀ peer, graph.Adj origin peer → peer ∈ now.received.map Prod.fst) ∧
          now.received.length ≤ (net.peers origin).arr.length ∧
          (now.flight = [] ↔ now.received.length = (net.peers origin).arr.length)) := by
  constructor
  · rw [diesOut_iff_walks wired.connected decide run, echoes.bounded_iff wired atOrigin]
  · intro holding
    have accounted := received_once wired.connected decide (wired.within_one holding) run
    have distinct : (now.edges ++ now.receivedOn net).Nodup := by
      rw [accounted.nodup_iff]
      exact (wired.nodup origin).map fun _ _ same => (Prod.mk.inj same).2
    have counted : now.flight.length + now.received.length = (net.peers origin).arr.length := by
      have same := accounted.length_eq
      rwa [firstEdges, List.length_append, List.length_map, Relays.receivedOn, List.length_map,
        Relays.edges, List.length_map] at same
    obtain ⟨isList, peers⟩ := wired.receivedOn_eq accounted
    refine ⟨?_, peers, wired.silent_iff accounted distinct, by omega, ?_⟩
    · have once := (List.nodup_append.mp distinct).2.1
      rw [isList] at once
      exact once.of_map
    · rw [List.eq_nil_iff_length_eq_zero]
      omega

end Run

/-- Zero lies behind the arguments of the readers, and the peer of the requester holds the
chunk. -/
theorem echoed_request_dies_out_iff_sample :
    DiesOut (pairPeering fun _ => 0) heldDef sampleContent.length 0 (fun client => client = false)
      (.start (pairPeering fun _ => 0) pairStores false
        ((ChunkRequest.forDownload heldDef.fHash 0 9000).bytes (Vector.replicate 3 0))) := by
  have echoes : EchoesAll (pairPeering fun _ => 0) := by
    intro client source
    decide +revert
  have dies := @echoed_request_dies_out_iff _ _ _ (fun client => client = false) false _ _ _ _
    9000 (Vector.replicate 3 0) _ _ (pairPeering_wired fun _ => 0) echoes rfl
    (pairStores_decide _) .refl
  apply dies.1.mpr
  rintro (_ | _) adj
  · exact absurd rfl adj
  · decide

/-! ## Requests that are not sent back -/

/-- The descriptor of each connection lies also behind the argument of its reader. -/
def SkipsAll (net : Peering ι) (graph : SimpleGraph ι) : Prop :=
  ∀ client source, graph.Adj client source →
    net.behind client source = net.descriptors.fd client source

/-- The connections between clients that lack the chunk. -/
def among (graph : SimpleGraph ι) (lacks : ι → Prop) : SimpleGraph ι where
  Adj client peer := graph.Adj client peer ∧ lacks client ∧ lacks peer
  symm := ⟨fun _ _ adj => ⟨adj.1.symm, adj.2.2, adj.2.1⟩⟩
  loopless := ⟨fun _ adj => graph.irrefl adj.1⟩

theorem Walk.sender (walk : Walk net lacks origin client fd length) (wired : net.Wired graph)
    (atOrigin : lacks origin) :
    lacks client ∧ ∃ peer, graph.Adj client peer ∧ fd = net.descriptors.fd client peer := by
  cases walk with
  | first listed => exact ⟨atOrigin, (wired.peers _ _).mp listed⟩
  | relay _ isLacking recipient =>
      exact ⟨isLacking, (wired.peers _ _).mp (Peers.mem_recipients.mp recipient).1⟩

theorem Walk.leads (walk : Walk net lacks origin source fd length) (wired : net.Wired graph)
    (atOrigin : lacks origin) (isFd : fd = net.descriptors.fd source client)
    (isLacking : lacks client) : (among graph lacks).Adj source client := by
  obtain ⟨atSource, peer, adj, isPeer⟩ := walk.sender wired atOrigin
  obtain rfl := net.descriptors.fd_inj.mp (isFd.symm.trans isPeer)
  exact ⟨adj, atSource, isLacking⟩

/-- A walk to a client that lacks the chunk does not turn back. -/
theorem Walk.onward (walk : Walk net lacks origin source fd length) (wired : net.Wired graph)
    (skips : SkipsAll net graph) (atOrigin : lacks origin)
    (isFd : fd = net.descriptors.fd source client) (isLacking : lacks client) :
    Onward (among graph lacks) origin source client length := by
  have leads := walk.leads wired atOrigin isFd isLacking
  induction walk generalizing client with
  | first => exact .first leads
  | @relay source middle fd length before atMiddle recipient ih =>
      have came := before.leads wired atOrigin rfl atMiddle
      refine .next (ih rfl atMiddle came) leads ?_
      rintro rfl
      apply (Peers.mem_recipients.mp recipient).2
      rw [isFd]
      exact (skips middle client came.1.symm).symm

theorem SkipsAll.walk (skips : SkipsAll net graph) (wired : net.Wired graph)
    (onward : Onward (among graph lacks) origin source client length) :
    Walk net lacks origin source (net.descriptors.fd source client) length := by
  induction onward with
  | first adj => exact wired.first adj.1
  | @next source middle client length before adj notBack ih =>
      refine wired.relay ih adj.2.1 adj.1 ?_
      have came : graph.Adj source middle := by
        cases before with
        | first adj => exact adj.1
        | next _ adj _ => exact adj.1
      rw [skips middle source came.symm]
      exact fun same => notBack (net.descriptors.fd_inj.mp same)

/-- The walks are bounded if and only if they reach no cycle of clients that lack the
chunk. -/
theorem SkipsAll.bounded_iff [Finite ι] (skips : SkipsAll net graph) (wired : net.Wired graph)
    (atOrigin : lacks origin) :
    (∃ bound, ∀ client fd length, Walk net lacks origin client fd length → length ≤ bound) ↔
      ∀ client, (among graph lacks).Reachable origin client →
        ∀ cycle : (among graph lacks).Walk client client, ¬cycle.IsCycle := by
  rw [← onward_bounded_iff]
  constructor
  · rintro ⟨bound, bounded⟩
    exact ⟨bound, fun source client length onward =>
      bounded _ _ _ (skips.walk wired onward)⟩
  · rintro ⟨bound, bounded⟩
    refine ⟨bound + 1, ?_⟩
    intro client fd length walk
    cases walk with
    | first => omega
    | relay before isLacking _ =>
        have short := bounded _ _ _ (before.onward wired skips atOrigin rfl isLacking)
        omega

section Run

variable [Finite ι] [DecidableEq ι] {tdef : TfileDef} {size : Nat} {i : Fin numChunks}
variable {tempPort : BitVec 16} {padding : Vector UInt8 3} {stores : ι → Store}
variable {now : Relays ι}

/-- **A request that is not sent back dies out** if and only if no cycle of clients that
lack the chunk is connected with the requester over such clients, at any time of any
run. -/
theorem skipping_request_dies_out_iff (wired : net.Wired graph) (skips : SkipsAll net graph)
    (atOrigin : lacks origin) (decide : AllDecide net tdef size i lacks stores)
    (run : ReflTransGen (SteadyStep net tdef size i lacks)
      (.start net stores origin
        ((ChunkRequest.forDownload tdef.fHash i tempPort).bytes padding)) now) :
    DiesOut net tdef size i lacks now ↔
      ∀ client, (among graph lacks).Reachable origin client →
        ∀ cycle : (among graph lacks).Walk client client, ¬cycle.IsCycle := by
  rw [diesOut_iff_walks wired.connected decide run, skips.bounded_iff wired atOrigin]

end Run

/-- Three clients, each connected with the others, whose readers skip the sender. -/
def trianglePeering : Peering (Fin 3) where
  env _ := sampleEnv
  descriptors := triangleDescriptors
  peers client := (triangleNode client).peers
  behind := triangleDescriptors.fd

theorem trianglePeering_wired : trianglePeering.Wired ⊤ where
  nodup client := (triangleNetwork_settled.nodes client).nodup
  peers client fd := (triangleNetwork_settled.nodes client).peers fd

theorem triangle_cycle :
    ∃ cycle : (among (⊤ : SimpleGraph (Fin 3)) fun _ => True).Walk 0 0, cycle.IsCycle := by
  have adj : ∀ client peer : Fin 3, client ≠ peer →
      (among (⊤ : SimpleGraph (Fin 3)) fun _ => True).Adj client peer :=
    fun client peer different => ⟨different, trivial, trivial⟩
  refine ⟨.cons (adj 0 1 (by decide)) (.cons (adj 1 2 (by decide))
    (.cons (adj 2 0 (by decide)) .nil)), ?_⟩
  apply (SimpleGraph.Walk.cons_isCycle_iff _ _).mpr
  constructor
  · simp [SimpleGraph.Walk.isPath_def]
  · simp

/-- None of them has an entry for the file: the request goes round for ever. -/
theorem skipping_request_dies_out_iff_triangle :
    ¬DiesOut trianglePeering heldDef 256 0 (fun _ => True)
      (.start trianglePeering (fun _ => sampleStore []) 0
        ((ChunkRequest.forDownload heldDef.fHash 0 9000).bytes (Vector.replicate 3 0))) := by
  have decide : AllDecide trianglePeering heldDef 256 0 (fun _ => True)
      fun _ => sampleStore [] := by
    intro client
    refine .inl ⟨trivial, ?_⟩
    simp only [lookupTfile, sampleStore, Htable.search_init, Result.ok_bind]
  have dies := @skipping_request_dies_out_iff _ _ _ _ 0 _ _ _ _ _ 9000 (Vector.replicate 3 0) _ _
    trianglePeering_wired (fun _ _ _ => rfl) trivial decide .refl
  obtain ⟨cycle, isCycle⟩ := triangle_cycle
  intro request
  exact dies.mp request 0 (SimpleGraph.Reachable.refl 0) cycle isCycle

end Grintorrent
