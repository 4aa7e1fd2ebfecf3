import Grintorrent.Lib.Runs
import Grintorrent.Request.Basic
import Mathlib.Algebra.BigOperators.Group.List.Lemmas
import Mathlib.Algebra.Order.BigOperators.Group.Finset

/-!
# How far a request travels

`download_file` sets the `ttl` of a request, and no `readWorker` reads it: a request is
relayed as long as it meets clients that lack the chunk.  So it is the clients that hold
the chunk, and not the request, that bound its way.
-/

namespace Grintorrent

open Relation

variable {ι : Type}

/-- A walk of so many connections from the requester over clients that lack the chunk,
which ends with a connection of the client.  None is left by the connection that its
`readWorker` takes for the one to the sender. -/
inductive Walk (net : Peering ι) (lacks : ι → Prop) (origin : ι) : ι → Fd → Nat → Prop where
  | first {fd : Fd} : fd ∈ (net.peers origin).arr → Walk net lacks origin origin fd 1
  | relay {source client : ι} {fd : Fd} {length : Nat} :
      Walk net lacks origin source (net.descriptors.fd source client) length →
      lacks client →
      fd ∈ (net.peers client).recipients (net.argument client source).clientFd →
      Walk net lacks origin client fd (length + 1)

/-- The client lacks the chunk only if it is one of these. -/
def HoldsOutside (net : Peering ι) (lacks : ι → Prop) : DeliveryCondition ι :=
  fun state client copy => lacks client ∨ Arrives.Holds net state client copy

/-- The deliveries that a copy can cause which is relayed so many times more, each time to
as many peers. -/
def cost (degree : Nat) : Nat → Nat
  | 0 => 1
  | left + 1 => 1 + degree * cost degree left

theorem cost_pos (degree left : Nat) : 0 < cost degree left := by
  cases left with
  | zero => exact Nat.one_pos
  | succ left =>
      rw [cost]
      omega

/-- The deliveries that the copies in flight can cause, if none is sent over more than
five connections. -/
def pendingCost (degree : Nat) (flight : List (RequestCopy ι)) : Nat :=
  (flight.map fun copy => cost degree (5 - copy.hops)).sum

@[simp] theorem pendingCost_append (degree : Nat) (first second : List (RequestCopy ι)) :
    pendingCost degree (first ++ second) =
      pendingCost degree first + pendingCost degree second := by
  simp [pendingCost]

theorem pendingCost_le {degree hops : Nat} {copies : List (RequestCopy ι)}
    (same : ∀ copy ∈ copies, copy.hops = hops) (few : copies.length ≤ degree) :
    pendingCost degree copies ≤ degree * cost degree (5 - hops) := by
  have each : (copies.map fun copy => cost degree (5 - copy.hops)) =
      List.replicate copies.length (cost degree (5 - hops)) := by
    apply List.eq_replicate_iff.mpr
    constructor
    · rw [List.length_map]
    · intro weight member
      obtain ⟨copy, isCopy, rfl⟩ := List.mem_map.mp member
      rw [same copy isCopy]
  rw [pendingCost, each, List.sum_replicate, smul_eq_mul]
  exact Nat.mul_le_mul_right _ few

/-- The invariant of a run: every copy followed a walk of at most five connections, and
the deliveries made and still to come do not exceed the bound. -/
structure Bounded (net : Peering ι) (lacks : ι → Prop) (origin : ι) (degree bound : Nat)
    (state : Relays ι) : Prop where
  flight : ∀ copy ∈ state.flight,
    Walk net lacks origin copy.source copy.fd copy.hops ∧ copy.hops ≤ 5
  received : ∀ entry ∈ state.received, entry.2.hops ≤ 5
  budget : state.received.length + pendingCost degree state.flight ≤ bound

variable {net : Peering ι} {lacks : ι → Prop} {origin : ι} {degree bound : Nat}
variable {state next : Relays ι}

theorem bounded_start (stores : ι → Store) (bytes : Lib.Bytes) :
    Bounded net lacks origin degree
      (pendingCost degree (Relays.start net stores origin bytes).flight)
      (Relays.start net stores origin bytes) where
  flight := by
    intro copy member
    obtain ⟨fd, listed, rfl⟩ := List.mem_map.mp member
    exact ⟨.first listed, by simp [RequestCopy.hops]⟩
  received := by simp [Relays.start]
  budget := by simp [Relays.start]

section Delivery

variable {client : ι} {copy : RequestCopy ι} {calls : Calls} {rest : Lib.Bytes}
variable {handled : Handled}

/-- The copies that a delivery puts in flight went one connection further, along a walk
that is not of length six. -/
theorem Bounded.onward (bounded : Bounded net lacks origin degree bound state)
    (short : ∀ client fd, ¬Walk net lacks origin client fd 6)
    (arrives : Arrives net state client copy calls rest handled)
    (meets : HoldsOutside net lacks state client copy) :
    ∀ new ∈ handled.sent.filterMap (copy.relayed client),
      Walk net lacks origin new.source new.fd new.hops ∧ new.hops = copy.hops + 1 ∧
        new.hops ≤ 5 := by
  obtain ⟨walk, near⟩ := bounded.flight copy arrives.flying
  rcases arrives.relays with ⟨_, none⟩ | ⟨_, notHolds, relays⟩
  · simp [none]
  · intro new member
    rw [relays] at member
    obtain ⟨fd, recipient, rfl⟩ := List.mem_map.mp member
    have further : Walk net lacks origin client fd (copy.hops + 1) :=
      .relay (arrives.fd ▸ walk) (meets.resolve_right notHolds) recipient
    have notSix : copy.hops ≠ 5 := by
      intro five
      rw [five] at further
      exact short client fd further
    refine ⟨further, rfl, ?_⟩
    change copy.hops + 1 ≤ 5
    omega

theorem Arrives.length_relays (arrives : Arrives net state client copy calls rest handled) :
    (handled.sent.filterMap (copy.relayed client)).length ≤ (net.peers client).arr.length := by
  rcases arrives.relays with ⟨_, none⟩ | ⟨_, _, relays⟩
  · simp [none]
  · rw [relays, Arrives.onward, List.length_map]
    exact List.length_filter_le _ _

/-- The delivery and all that the new copies can cause was counted for the old one. -/
theorem Bounded.pendingCost_relays (bounded : Bounded net lacks origin degree bound state)
    (short : ∀ client fd, ¬Walk net lacks origin client fd 6)
    (few : ∀ client, (net.peers client).arr.length ≤ degree)
    (arrives : Arrives net state client copy calls rest handled)
    (meets : HoldsOutside net lacks state client copy) :
    pendingCost degree (handled.sent.filterMap (copy.relayed client)) <
      cost degree (5 - copy.hops) := by
  have onward := bounded.onward short arrives meets
  rcases Nat.lt_or_ge copy.hops 5 with inner | last
  · have further := pendingCost_le (fun new member => (onward new member).2.1)
      (arrives.length_relays.trans (few client))
    have left : 5 - copy.hops = 5 - (copy.hops + 1) + 1 := by omega
    rw [left, cost]
    omega
  · have nothing : handled.sent.filterMap (copy.relayed client) = [] := by
      apply List.eq_nil_iff_forall_not_mem.mpr
      intro new member
      have further := (onward new member).2
      omega
    rw [nothing]
    exact cost_pos degree _

variable [DecidableEq ι]

theorem Bounded.deliver (bounded : Bounded net lacks origin degree bound state)
    (short : ∀ client fd, ¬Walk net lacks origin client fd 6)
    (few : ∀ client, (net.peers client).arr.length ≤ degree)
    (arrives : Arrives net state client copy calls rest handled)
    (meets : HoldsOutside net lacks state client copy) :
    Bounded net lacks origin degree bound (state.deliver client copy handled) where
  flight := by
    intro other member
    rcases List.mem_append.mp member with old | new
    · exact bounded.flight other (List.mem_of_mem_erase old)
    · have onward := bounded.onward short arrives meets other new
      exact ⟨onward.1, onward.2.2⟩
  received := by
    intro entry member
    rcases List.mem_cons.mp member with rfl | old
    · exact (bounded.flight copy arrives.flying).2
    · exact bounded.received entry old
  budget := by
    have spent : cost degree (5 - copy.hops) + pendingCost degree (state.flight.erase copy) =
        pendingCost degree state.flight :=
      List.sum_map_erase (fun copy => cost degree (5 - copy.hops)) arrives.flying
    have caused := bounded.pendingCost_relays short few arrives meets
    have before := bounded.budget
    simp only [Relays.deliver, List.length_cons, pendingCost_append]
    omega

end Delivery

variable [DecidableEq ι]

theorem Bounded.step (bounded : Bounded net lacks origin degree bound state)
    (short : ∀ client fd, ¬Walk net lacks origin client fd 6)
    (few : ∀ client, (net.peers client).arr.length ≤ degree)
    (step : RequestStep net (HoldsOutside net lacks) state next) :
    Bounded net lacks origin degree bound next := by
  cases step with
  | deliver arrives meets => exact bounded.deliver short few arrives meets
  | other client store => exact ⟨bounded.flight, bounded.received, bounded.budget⟩

/-- **How far a request travels.**  If no walk of six connections leads from the requester
over five clients that may lack the chunk, then in every run no copy is sent over more
than five connections, and only so many copies are ever received. -/
theorem hops_bounded [Fintype ι] (stores : ι → Store) (fileHash : Digest) (i : Fin numChunks)
    (tempPort : BitVec 16) (padding : Vector UInt8 3)
    (short : ∀ client fd, ¬Walk net lacks origin client fd 6) :
    ∃ bound, ∀ state,
      ReflTransGen (RequestStep net (HoldsOutside net lacks))
        (.start net stores origin
          ((ChunkRequest.forDownload fileHash i tempPort).bytes padding)) state →
      (∀ copy ∈ state.flight, copy.hops ≤ 5) ∧ (∀ entry ∈ state.received, entry.2.hops ≤ 5) ∧
        state.received.length ≤ bound := by
  have few : ∀ client, (net.peers client).arr.length ≤
      ∑ client, (net.peers client).arr.length :=
    fun client => Finset.single_le_sum
      (f := fun client => (net.peers client).arr.length) (fun _ _ => Nat.zero_le _)
      (Finset.mem_univ client)
  refine ⟨pendingCost (∑ client, (net.peers client).arr.length)
    (Relays.start net stores origin
      ((ChunkRequest.forDownload fileHash i tempPort).bytes padding)).flight, ?_⟩
  intro state run
  have bounded := Lib.invariant_run
    (fun _ _ bounded step => Bounded.step bounded short few step) run (bounded_start stores _)
  refine ⟨fun copy member => (bounded.flight copy member).2, bounded.received, ?_⟩
  exact le_of_add_le_left bounded.budget

/-- If only the requester lacks the chunk, every walk is a connection of its own. -/
theorem walk_pair {client : Bool} {fd : Fd} {length : Nat}
    (walk : Walk (pairPeering fun _ => 0) (fun client => client = false) false client fd length) :
    client = false ∧ fd = 4 := by
  cases walk with
  | first listed => exact ⟨rfl, List.mem_singleton.mp listed⟩
  | relay _ atRequester recipient =>
      subst atRequester
      exact ⟨rfl, List.mem_singleton.mp (Peers.mem_recipients.mp recipient).1⟩

/-- The peer of the requester has the chunk. -/
theorem hops_bounded_pair :
    ∃ bound, ∀ state,
      ReflTransGen (RequestStep (pairPeering fun _ => 0)
          (HoldsOutside (pairPeering fun _ => 0) fun client => client = false))
        (.start (pairPeering fun _ => 0) (fun _ => sampleServer) false
          ((ChunkRequest.forDownload heldDef.fHash 0 9000).bytes (Vector.replicate 3 0))) state →
      (∀ copy ∈ state.flight, copy.hops ≤ 5) ∧ (∀ entry ∈ state.received, entry.2.hops ≤ 5) ∧
        state.received.length ≤ bound := by
  apply hops_bounded
  intro client fd walk
  cases walk with
  | relay before atRequester _ =>
      subst atRequester
      obtain ⟨rfl, toItself⟩ := walk_pair before
      exact absurd toItself (by decide)

/-- Zero lies behind the arguments of the readers, and neither client has an entry for
the file: the request is sent back and forth over any number of connections. -/
theorem bouncing_hops (hops : Nat) :
    ∃ state client earlier,
      ReflTransGen (RequestStep (pairPeering fun _ => 0) fun _ _ _ => True)
        (.start (pairPeering fun _ => 0) (fun _ => sampleStore []) false strangeRequest) state ∧
      state.stores = (fun _ => sampleStore []) ∧
      state.flight = [⟨client, pairDescriptors.fd client (!client), earlier, strangeRequest⟩] ∧
      earlier.length = hops := by
  induction hops with
  | zero => exact ⟨_, false, [], .refl, rfl, rfl, rfl⟩
  | succ hops ih =>
      obtain ⟨state, client, earlier, run, stores, flight, length⟩ := ih
      have missing : ∀ hash, lookupTfile (state.stores (!client)).ht hash = .ok none := by
        intro hash
        simp only [stores, lookupTfile, sampleStore, Htable.search_init, Result.ok_bind]
      have arrives := @Arrives.unknown _ (pairPeering fun _ => 0) state (!client)
        ⟨client, pairDescriptors.fd client (!client), earlier, strangeRequest⟩ sampleCalls []
        (by rw [flight]; exact List.mem_singleton_self _) rfl (missing _)
      refine ⟨_, !client, client :: earlier, run.tail (.deliver arrives trivial), ?_, ?_, ?_⟩
      · simp only [Relays.deliver, stores]
        exact Function.update_eq_self _ _
      · have back : Peers.recipients ⟨100, 100, [pairDescriptors.fd (!client) (!!client)]⟩
            0 = [pairDescriptors.fd (!client) (!!client)] := by
          cases client <;> decide
        have carried : Lib.slice 0 ChunkRequest.sizeOf (strangeRequest ++ []) = strangeRequest := by
          rw [List.append_nil, strangeRequest, ← ChunkRequest.length_bytes, Lib.slice_zero_length]
        simp only [Relays.deliver, flight, List.erase_cons_head, List.nil_append, pairPeering,
          Peering.argument, ClientServer.load, back, carried]
        rfl
      · rw [List.length_cons, length]

/-- A request of `download_file` is sent over six connections. -/
theorem request_bounces :
    ∃ state, ReflTransGen (RequestStep (pairPeering fun _ => 0) fun _ _ _ => True)
        (.start (pairPeering fun _ => 0) (fun _ => sampleStore []) false strangeRequest) state ∧
      ∃ copy ∈ state.flight, copy.hops = 6 := by
  obtain ⟨state, client, earlier, run, _, flight, length⟩ := bouncing_hops 5
  refine ⟨state, run, _, by rw [flight]; exact List.mem_singleton_self _, ?_⟩
  rw [RequestCopy.hops, length]

end Grintorrent
