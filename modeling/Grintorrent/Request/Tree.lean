import Grintorrent.Lib.Runs
import Grintorrent.Lib.Trees
import Grintorrent.Request.Basic

/-!
# A request in a tree

The relay loop of `readWorker` skips the peer with the descriptor `client_fd`.  If that
is the connection on which the request came, then in a tree of connections a request only
moves away from the requester.  But `client_fd` is the `int` that lies behind the argument
of `readWorker`, and if it is another one the request is sent back.
-/

namespace Grintorrent

open Lib Relation

variable {ι : Type}

/-- The peer list of each client holds exactly its connections in the graph, each once. -/
structure Peering.Wired (net : Peering ι) (graph : SimpleGraph ι) : Prop where
  nodup : ∀ client, (net.peers client).arr.Nodup
  peers : ∀ client fd, fd ∈ (net.peers client).arr ↔
    ∃ peer, graph.Adj client peer ∧ fd = net.descriptors.fd client peer

/-- The descriptor of the connection lies also behind the argument of its reader. -/
def SkipsSender (net : Peering ι) : DeliveryCondition ι :=
  fun _ client copy => net.behind client copy.source = net.descriptors.fd client copy.source

/-- No copy goes back to the client from which its sender got it, no client has received
the request twice, and the requester has not received it. -/
structure NeverEchoed (net : Peering ι) (origin : ι) (state : Relays ι) : Prop where
  onward : ∀ copy ∈ state.flight, ∀ target,
    copy.fd = net.descriptors.fd copy.source target → copy.earlier.head? ≠ some target
  once : (state.received.map Prod.fst).Nodup
  notBack : origin ∉ state.received.map Prod.fst

namespace RequestCopy

/-- The connection on which a copy is sent. -/
def edge (copy : RequestCopy ι) : ι × Fd := (copy.source, copy.fd)

end RequestCopy

/-- The copies sent so far. -/
def Relays.copies (state : Relays ι) : List (RequestCopy ι) :=
  state.flight ++ state.received.map Prod.snd

/-- The invariant: every copy moves away from the requester, on a connection of its own,
and its sender is the requester or got it from its parent. -/
structure Outward (net : Peering ι) (graph : SimpleGraph ι) (origin : ι) (state : Relays ι) :
    Prop where
  flight : ∀ copy ∈ state.flight, ∃ target,
    copy.fd = net.descriptors.fd copy.source target ∧ Parent graph origin copy.source target
  received : ∀ entry ∈ state.received,
    entry.2.fd = net.descriptors.fd entry.2.source entry.1 ∧
      Parent graph origin entry.2.source entry.1
  nodup : (state.copies.map RequestCopy.edge).Nodup
  relayed : ∀ copy ∈ state.copies, (copy.source = origin ∧ copy.earlier = []) ∨
    ∃ parent, copy.earlier.head? = some parent ∧ Parent graph origin parent copy.source ∧
      copy.source ∈ state.received.map Prod.fst

variable {net : Peering ι} {graph : SimpleGraph ι} {origin : ι} {state next : Relays ι}

theorem outward_start (tree : graph.IsTree) (wired : net.Wired graph) (stores : ι → Store)
    (bytes : Bytes) : Outward net graph origin (.start net stores origin bytes) where
  flight := by
    intro copy member
    obtain ⟨fd, listed, rfl⟩ := List.mem_map.mp member
    obtain ⟨peer, adj, isPeer⟩ := (wired.peers origin fd).mp listed
    exact ⟨peer, isPeer, .of_adj_root tree adj⟩
  received := by simp [Relays.start]
  nodup := by
    simp only [Relays.copies, Relays.start, List.map_nil, List.append_nil, List.map_map]
    apply (wired.nodup origin).map
    intro first second same
    exact congrArg Prod.snd same
  relayed := by
    intro copy member
    simp only [Relays.copies, Relays.start, List.map_nil, List.append_nil] at member
    obtain ⟨fd, _, rfl⟩ := List.mem_map.mp member
    exact .inl ⟨rfl, rfl⟩

theorem Outward.neverEchoed (outward : Outward net graph origin state) (tree : graph.IsTree) :
    NeverEchoed net origin state where
  onward := by
    intro copy flying target isTarget back
    obtain ⟨peer, isPeer, below⟩ := outward.flight copy flying
    obtain rfl : target = peer := net.descriptors.fd_inj.mp (isTarget.symm.trans isPeer)
    rcases outward.relayed copy (List.mem_append_left _ flying) with
      ⟨_, first⟩ | ⟨parent, isParent, above, _⟩
    · simp [first] at back
    · rw [isParent, Option.some.injEq] at back
      exact below.asymm (back ▸ above)
  once := by
    have edges : (state.received.map fun entry => entry.2.edge).Nodup := by
      have nodup := outward.nodup
      rw [Relays.copies, List.map_append, List.map_map] at nodup
      exact nodup.of_append_right
    rw [List.nodup_iff_pairwise_ne, List.pairwise_map] at edges ⊢
    apply edges.imp_of_mem
    intro first second firstMember secondMember different same
    obtain ⟨firstFd, firstBelow⟩ := outward.received first firstMember
    obtain ⟨secondFd, secondBelow⟩ := outward.received second secondMember
    have parents := firstBelow.unique tree (same ▸ secondBelow)
    apply different
    rw [RequestCopy.edge, RequestCopy.edge, firstFd, secondFd, same, parents]
  notBack := by
    intro member
    obtain ⟨entry, isEntry, isOrigin⟩ := List.mem_map.mp member
    exact (outward.received entry isEntry).2.ne_root isOrigin

variable {client : ι} {copy : RequestCopy ι} {calls : Calls} {rest : Bytes}
variable {handled : Handled}

theorem Arrives.below (arrives : Arrives net state client copy calls rest handled)
    (outward : Outward net graph origin state) : Parent graph origin copy.source client := by
  obtain ⟨target, isTarget, below⟩ := outward.flight copy arrives.flying
  obtain rfl := net.descriptors.fd_inj.mp (arrives.fd.symm.trans isTarget)
  exact below

/-- The client has not sent anything before. -/
theorem Arrives.silent (arrives : Arrives net state client copy calls rest handled)
    (outward : Outward net graph origin state) (tree : graph.IsTree) :
    ∀ sent ∈ state.copies, sent.source ≠ client := by
  intro sent member atClient
  have below := arrives.below outward
  rcases outward.relayed sent member with ⟨isOrigin, _⟩ | ⟨_, _, _, heard⟩
  · exact below.ne_root (atClient.symm.trans isOrigin)
  · obtain ⟨entry, isEntry, isClient⟩ := List.mem_map.mp heard
    obtain ⟨entryFd, entryBelow⟩ := outward.received entry isEntry
    have target : entry.1 = client := isClient.trans atClient
    rw [target] at entryFd entryBelow
    have sameEdge : entry.2.edge = copy.edge := by
      have sameSource := entryBelow.unique tree below
      rw [RequestCopy.edge, RequestCopy.edge, entryFd, arrives.fd, sameSource]
    have nodup := outward.nodup
    rw [Relays.copies, List.map_append] at nodup
    apply (List.disjoint_of_nodup_append nodup) (List.mem_map_of_mem arrives.flying)
    rw [← sameEdge]
    exact List.mem_map_of_mem (List.mem_map_of_mem isEntry)

theorem copies_deliver [DecidableEq ι] (flying : copy ∈ state.flight) :
    (state.deliver client copy handled).copies.Perm
      (state.copies ++ handled.sent.filterMap (copy.relayed client)) := by
  apply List.perm_iff_count.mpr
  intro other
  have old := (List.perm_cons_erase flying).count_eq other
  simp only [Relays.copies, Relays.deliver, List.map_cons, List.count_append, List.count_cons]
    at old ⊢
  omega

/-- What a client relays to: the peers but the one it got the request from. -/
theorem mem_onward (wired : net.Wired graph)
    (skips : net.behind client copy.source = net.descriptors.fd client copy.source)
    {new : RequestCopy ι} (member : new ∈ Arrives.onward net client copy rest) :
    new.source = client ∧ new.earlier = copy.source :: copy.earlier ∧
      ∃ target, graph.Adj client target ∧ target ≠ copy.source ∧
        new.fd = net.descriptors.fd client target := by
  obtain ⟨fd, recipient, rfl⟩ := List.mem_map.mp member
  obtain ⟨listed, notSender⟩ := Peers.mem_recipients.mp recipient
  obtain ⟨target, adj, rfl⟩ := (wired.peers client fd).mp listed
  refine ⟨rfl, rfl, target, adj, ?_, rfl⟩
  intro back
  apply notSender
  rw [back]
  exact skips.symm

variable [DecidableEq ι]

theorem Outward.deliver (outward : Outward net graph origin state) (tree : graph.IsTree)
    (wired : net.Wired graph) (arrives : Arrives net state client copy calls rest handled)
    (skips : net.behind client copy.source = net.descriptors.fd client copy.source) :
    Outward net graph origin (state.deliver client copy handled) := by
  have below := arrives.below outward
  have relayed : handled.sent.filterMap (copy.relayed client) = [] ∨
      handled.sent.filterMap (copy.relayed client) = Arrives.onward net client copy rest := by
    rcases arrives.relays with ⟨_, none⟩ | ⟨_, _, onward⟩
    · exact .inl none
    · exact .inr onward
  have fresh : ∀ new ∈ handled.sent.filterMap (copy.relayed client),
      new ∈ Arrives.onward net client copy rest := by
    intro new member
    rcases relayed with none | onward
    · simp [none] at member
    · exact onward ▸ member
  constructor
  case flight =>
      intro other member
      rcases List.mem_append.mp member with old | new
      · exact outward.flight other (List.mem_of_mem_erase old)
      · obtain ⟨isClient, _, target, adj, away, isTarget⟩ := mem_onward wired skips (fresh _ new)
        rw [isClient]
        exact ⟨target, isTarget, below.of_adj_child tree adj away⟩
  case received =>
      intro entry member
      rcases List.mem_cons.mp member with rfl | old
      · exact ⟨arrives.fd, below⟩
      · exact outward.received entry old
  case nodup =>
      have perm := (@copies_deliver _ state client copy handled _ arrives.flying).map
        RequestCopy.edge
      rw [perm.nodup_iff, List.map_append]
      apply List.Nodup.append outward.nodup
      · rcases relayed with none | onward
        · simp [none]
        · rw [onward, Arrives.onward, List.map_map]
          apply ((wired.nodup client).filter _).map
          intro first second same
          exact congrArg Prod.snd same
      · intro edge before after
        obtain ⟨old, isOld, rfl⟩ := List.mem_map.mp before
        obtain ⟨new, isNew, same⟩ := List.mem_map.mp after
        apply arrives.silent outward tree old isOld
        rw [← (mem_onward wired skips (fresh _ isNew)).1]
        exact (congrArg Prod.fst same).symm
  case relayed =>
      intro other member
      rcases List.mem_append.mp ((copies_deliver arrives.flying).mem_iff.mp member) with
        old | new
      · rcases outward.relayed other old with first | ⟨parent, isParent, above, heard⟩
        · exact .inl first
        · exact .inr ⟨parent, isParent, above, List.mem_cons_of_mem _ heard⟩
      · obtain ⟨isClient, after, _⟩ := mem_onward wired skips (fresh _ new)
        rw [isClient, after]
        exact .inr ⟨copy.source, rfl, below, List.mem_cons_self⟩

theorem Outward.step (outward : Outward net graph origin state) (tree : graph.IsTree)
    (wired : net.Wired graph) (step : RequestStep net (SkipsSender net) state next) :
    Outward net graph origin next := by
  cases step with
  | deliver arrives skips => exact outward.deliver tree wired arrives skips
  | other client store =>
      exact ⟨outward.flight, outward.received, outward.nodup, outward.relayed⟩

/-- A client that relays the request without skipping the connection it came on sends it
back. -/
theorem Arrives.echoes (arrives : Arrives net state client copy calls rest handled)
    (outward : Outward net graph origin state) (wired : net.Wired graph)
    (relays : handled.connect = none)
    (other : net.behind client copy.source ≠ net.descriptors.fd client copy.source) :
    ¬NeverEchoed net origin (state.deliver client copy handled) := by
  intro never
  have adj := (arrives.below outward).1.symm
  have listed : net.descriptors.fd client copy.source ∈ (net.peers client).arr :=
    (wired.peers client _).mpr ⟨copy.source, adj, rfl⟩
  have recipient : net.descriptors.fd client copy.source ∈
      (net.peers client).recipients (net.argument client copy.source).clientFd :=
    Peers.mem_recipients.mpr ⟨listed, Ne.symm other⟩
  rcases arrives.relays with ⟨connects, _⟩ | ⟨_, _, onward⟩
  · exact connects relays
  · -- The new copy on the connection by which the request came.
    have sentBack : (⟨client, net.descriptors.fd client copy.source,
        copy.source :: copy.earlier, slice 0 ChunkRequest.sizeOf (copy.bytes ++ rest)⟩ :
          RequestCopy ι) ∈ (state.deliver client copy handled).flight := by
      apply List.mem_append_right
      rw [onward]
      exact List.mem_map_of_mem recipient
    exact never.onward _ sentBack copy.source rfl rfl

/-- **A request in a tree is never echoed** in a run in which the descriptor of each
connection on which it is delivered lies also behind the argument of the reader.  The
first relay for which this does not hold sends it back. -/
theorem request_never_echoed (tree : graph.IsTree) (wired : net.Wired graph)
    {stores : ι → Store} {bytes : Bytes}
    (run : ReflTransGen (RequestStep net (SkipsSender net))
      (.start net stores origin bytes) state) :
    NeverEchoed net origin state ∧
      ∀ client copy calls rest handled, Arrives net state client copy calls rest handled →
        handled.connect = none →
        (NeverEchoed net origin (state.deliver client copy handled) ↔
          net.behind client copy.source = net.descriptors.fd client copy.source) := by
  have outward := invariant_run
    (fun _ _ outward step => Outward.step outward tree wired step) run
    (outward_start tree wired stores bytes)
  constructor
  · exact outward.neverEchoed tree
  · intro client copy calls rest handled arrives relays
    constructor
    · intro never
      by_contra other
      exact arrives.echoes outward wired relays other never
    · intro skips
      exact (outward.deliver tree wired arrives skips).neverEchoed tree

theorem pairPeering_wired (behind : Bool → Fd) : (pairPeering behind).Wired ⊤ where
  nodup client := List.nodup_singleton _
  peers := by
    intro client fd
    cases client with
    | false => simp [pairPeering]
    | true => simp [pairPeering]

theorem pair_arrives (behind : Bool → Fd) :
    ∃ handled, Arrives (pairPeering behind)
      (.start (pairPeering behind) (fun _ => sampleStore []) false strangeRequest) true
      ⟨false, 4, [], strangeRequest⟩ sampleCalls [] handled ∧ handled.connect = none := by
  have missing : ∀ hash, lookupTfile (sampleStore []).ht hash = .ok none := by
    intro hash
    simp only [lookupTfile, sampleStore, Htable.search_init, Result.ok_bind]
  exact ⟨_, Arrives.unknown (List.mem_singleton_self _) rfl (missing _), rfl⟩

/-- The descriptor lies behind each argument: the peer receives the request and does not
send it back. -/
theorem request_never_echoed_pair :
    ∃ state : Relays Bool,
      state.received = [(true, ⟨false, 4, [], strangeRequest⟩)] ∧
      NeverEchoed (pairPeering fun client => pairDescriptors.fd client !client) false state := by
  obtain ⟨handled, arrives, _⟩ :=
    pair_arrives fun client => pairDescriptors.fd client !client
  have tree : (⊤ : SimpleGraph Bool).IsTree :=
    ⟨SimpleGraph.connected_top, SimpleGraph.IsAcyclic.of_card_le_two (by simp)⟩
  have run := ReflTransGen.single (@RequestStep.deliver _ _
    (pairPeering fun client => pairDescriptors.fd client !client)
    (SkipsSender (pairPeering fun client => pairDescriptors.fd client !client)) _ _ _ _ _ _
    arrives rfl)
  exact ⟨_, rfl, (request_never_echoed tree (pairPeering_wired _) run).1⟩

/-- Zero lies behind the argument: the peer, which lacks the chunk, sends the request back
to the requester. -/
theorem request_echoed :
    ∃ state, ReflTransGen (RequestStep (pairPeering fun _ => 0) fun _ _ _ => True)
        (.start (pairPeering fun _ => 0) (fun _ => sampleStore []) false strangeRequest) state ∧
      ¬NeverEchoed (pairPeering fun _ => 0) false state := by
  obtain ⟨handled, arrives, relays⟩ := pair_arrives fun _ => 0
  have tree : (⊤ : SimpleGraph Bool).IsTree :=
    ⟨SimpleGraph.connected_top, SimpleGraph.IsAcyclic.of_card_le_two (by simp)⟩
  have wired := pairPeering_wired fun _ => 0
  refine ⟨_, .single (.deliver arrives trivial), ?_⟩
  apply arrives.echoes (outward_start tree wired _ _) wired relays
  decide

end Grintorrent
