import Grintorrent.Client.Swarm
import Grintorrent.Lib.Spreading
import Grintorrent.Request.Hops
import Grintorrent.Request.Reply
import Grintorrent.Request.Tree

/-!
# Where a request dies out

Nothing but the clients that hold the chunk stops a request.  Each copy of it spreads to
those that the client relays, so while every client goes on to hold the chunk or to lack it,
the walks over clients that lack it say all: the request dies out if and only if these are
bounded, and if they are not, copies of it are sent for ever.
-/

namespace Grintorrent

open Lib Relation

section Client

variable {env : Env} {store : Store} {tdef : TfileDef} {size : Nat} {i : Fin numChunks}
variable {lacks : Prop} {tempPort : BitVec 16}

/-- The client has no entry for the file and lacks the chunk, or it has a copy in which
`verify_tfile` finds the chunk or not; if it holds the chunk, the file is mapped, or can be
opened and mapped at any time. -/
def Decides (env : Env) (tdef : TfileDef) (size : Nat) (i : Fin numChunks) (lacks : Prop)
    (store : Store) : Prop :=
  (lacks ∧ lookupTfile store.ht tdef.fHash = .ok none) ∨
    ∃ tf content, Copy store tdef tf content ∧ tdef.size = size ∧ 0 < size ∧ size < 2 ^ 44 ∧
      (isChunkVerified (report env tf content) i.val = true ↔ ¬lacks) ∧
      (¬lacks → tf.mLocation = none → ∀ limit, Serves env tf.home size limit)

/-- Such a client relays a request if it lacks the chunk, and goes on to lack it or to hold it. -/
theorem Decides.handlesRequest (decides : Decides env tdef size i lacks store)
    (locals : VerifyLocals) (connects : Bool) :
    ∃ answer after, handleRequest env store (.forDownload tdef.fHash i tempPort) locals
        connects = .ok (answer, after) ∧
      Decides env tdef size i lacks after ∧ (answer = .relay ↔ lacks) := by
  have isHash : (ChunkRequest.forDownload tdef.fHash i tempPort).fileHash = tdef.fHash := rfl
  have isIndex : (ChunkRequest.forDownload tdef.fHash i tempPort).chunkIndex.toInt = i.val :=
    chunkIndex_toInt i
  rcases decides with ⟨isLacking, unknown⟩ |
    ⟨tf, content, copy, sized, positive, counts, verdict, serves⟩
  · refine ⟨.relay, store, ?_, .inl ⟨isLacking, unknown⟩, by simp [isLacking]⟩
    simp only [handleRequest, isHash, verifyTfile_unknown unknown, Result.ok_bind,
      isChunkVerified_unverifiedFile, Bool.false_eq_true, if_false]
  by_cases isLacking : lacks
  · -- Whether or not the file opens, the chunk is not found.
    obtain ⟨chunks, verified, returned, missing, kept⟩ : ∃ chunks verified,
        verifyTfile env store tdef.fHash locals = .ok (chunks, verified) ∧
        isChunkVerified chunks i.val = false ∧ (verified = store ∨ verified = store.leak) := by
      by_cases opens : Opens env store tf
      · obtain ⟨verified, returned, _, kept⟩ := copy.verified (by omega) opens locals
        refine ⟨_, verified, returned, ?_, kept⟩
        rw [← Bool.not_eq_true, verdict, not_not]
        exact isLacking
      · exact ⟨_, store, copy.verify_unopened opens, isChunkVerified_unverifiedFile _, .inl rfl⟩
    refine ⟨.relay, verified, ?_, .inr ⟨tf, content, copy.of_leak kept, sized, positive, counts,
      verdict, serves⟩, by simp [isLacking]⟩
    simp only [handleRequest, isHash, isIndex, returned, Result.ok_bind, missing,
      Bool.false_eq_true, if_false]
  · have reported := verdict.mpr isLacking
    obtain ⟨verified, returned, copied, _⟩ := copy.verified (by omega)
      (fun notMapped => (serves isLacking notMapped _).reads (Nat.le_refl _)) locals
    cases connects with
    | false =>
        refine ⟨.silent, verified, ?_, .inr ⟨tf, content, copied, sized, positive, counts,
          verdict, serves⟩, by simp [isLacking]⟩
        simp only [handleRequest, isHash, isIndex, returned, Result.ok_bind, reported, if_true,
          Bool.false_eq_true, if_false]
    | true =>
        obtain ⟨bytes, rfl, _, _⟩ := reported_iff.mp reported
        have reachable : Reachable env verified tf := by
          intro notMapped
          have able := serves isLacking notMapped verified.os.openFds
          rw [copied.same, sized, copied.file]
          exact ⟨able.opens _ (Nat.le_refl _), able.maps, by simp⟩
        obtain ⟨opened, after, sent, home, isMapped, stored, _⟩ :=
          copied.send_eq reachable sized positive (by omega) i
        have kept := (Advances.remap (stored.same.trans copy.same.symm)
          fun unlocated => isMapped unlocated.1).kept reported
        have stays : Decides env tdef size i lacks after :=
          .inr ⟨opened, _, stored, sized, positive, counts, ⟨fun _ => isLacking, fun _ => kept⟩,
            fun _ notMapped => absurd notMapped isMapped⟩
        simp only [handleRequest, isHash, isIndex, returned, Result.ok_bind, reported, if_true,
          sent]
        split
        next => exact ⟨_, _, rfl, stays, by simp [isLacking]⟩
        next => exact ⟨_, _, rfl, stays, by simp [isLacking]⟩

theorem Decides.handles (decides : Decides env tdef size i lacks store) (calls : Calls)
    (peers : Peers) (fdData : ClientServer) (padding : Vector UInt8 3) (rest : Bytes) :
    ∃ handled, handleMessage env calls store peers fdData requestFileData
        ((ChunkRequest.forDownload tdef.fHash i tempPort).bytes padding ++ rest) = .ok handled ∧
      Decides env tdef size i lacks handled.store ∧ (handled.connect = none ↔ lacks) := by
  obtain ⟨answer, after, answered, stays, relays⟩ := @Decides.handlesRequest _ _ _ _ _ _ tempPort
    decides calls.locals (calls.connects
      (ChunkRequest.forDownload tdef.fHash i tempPort).returnAddr
      (ChunkRequest.forDownload tdef.fHash i tempPort).returnAddrLen)
  rw [handle_requestFileData]
  simp only [ChunkRequest.decode_bytes ChunkRequest.length_returnAddr, answered, Result.ok_bind]
  cases answer with
  | relay => exact ⟨_, rfl, stays, by simp [relays.mp rfl]⟩
  | chunk payload =>
      refine ⟨_, rfl, stays, ?_⟩
      rw [← relays]
      simp
  | silent =>
      refine ⟨_, rfl, stays, ?_⟩
      rw [← relays]
      simp

end Client

variable {ι : Type}

open Classical in
/-- What a copy on this connection spreads to: the connections on which the client at its
other end relays it. -/
noncomputable def spreadOf (net : Peering ι) (lacks : ι → Prop) (edge : ι × Fd) :
    List (ι × Fd) :=
  if reaches : ∃ client, edge.2 = net.descriptors.fd edge.1 client ∧ lacks client then
    ((net.peers reaches.choose).recipients (net.argument reaches.choose edge.1).clientFd).map
      fun fd => (reaches.choose, fd)
  else []

variable {net : Peering ι} {lacks : ι → Prop} {source client origin : ι} {fd : Fd}

theorem spreadOf_lacking (isLacking : lacks client) :
    spreadOf net lacks (source, net.descriptors.fd source client) =
      ((net.peers client).recipients (net.argument client source).clientFd).map
        fun fd => (client, fd) := by
  have reaches : ∃ other, net.descriptors.fd source client = net.descriptors.fd source other ∧
      lacks other := ⟨client, rfl, isLacking⟩
  have same : reaches.choose = client :=
    (net.descriptors.fd_inj.mp reaches.choose_spec.1).symm
  rw [spreadOf, dif_pos reaches, same]

theorem spreadOf_holding (isHolding : ¬lacks client) :
    spreadOf net lacks (source, net.descriptors.fd source client) = [] := by
  apply dif_neg
  rintro ⟨other, same, isLacking⟩
  obtain rfl := net.descriptors.fd_inj.mp same
  exact isHolding isLacking

theorem mem_spreadOf {edge : ι × Fd} (member : (client, fd) ∈ spreadOf net lacks edge) :
    edge.2 = net.descriptors.fd edge.1 client ∧ lacks client ∧
      fd ∈ (net.peers client).recipients (net.argument client edge.1).clientFd := by
  unfold spreadOf at member
  split at member
  next reaches =>
      obtain ⟨_, recipient, same⟩ := List.mem_map.mp member
      obtain ⟨rfl, rfl⟩ := Prod.mk.inj same
      exact ⟨reaches.choose_spec.1, reaches.choose_spec.2, recipient⟩
  next => exact absurd member List.not_mem_nil

/-- The connections on which the requester sends the request. -/
def firstEdges (net : Peering ι) (origin : ι) : List (ι × Fd) :=
  (net.peers origin).arr.map fun fd => (origin, fd)

/-- No walk is longer than the chains from the first connections. -/
theorem Walk.length_le {bound length : Nat}
    (within : ∀ edge ∈ firstEdges net origin, Within (spreadOf net lacks) bound edge)
    (walk : Walk net lacks origin client fd length) :
    length ≤ bound ∧ Within (spreadOf net lacks) (bound + 1 - length) (client, fd) := by
  induction walk with
  | first listed =>
      have own := within _ (List.mem_map_of_mem listed)
      cases bound with
      | zero => exact own.elim
      | succ bound => exact ⟨Nat.succ_le_succ (Nat.zero_le bound), own⟩
  | @relay source client fd length _ isLacking recipient ih =>
      obtain ⟨le, inside⟩ := ih
      obtain ⟨left, isLeft⟩ : ∃ left, bound + 1 - length = left + 1 := ⟨bound - length, by omega⟩
      rw [isLeft] at inside
      have next := inside (client, fd) (by
        rw [spreadOf_lacking isLacking]
        exact List.mem_map_of_mem recipient)
      cases left with
      | zero => exact next.elim
      | succ left =>
          have same : bound + 1 - (length + 1) = left + 1 := by omega
          rw [same]
          exact ⟨by omega, next⟩

theorem Walk.within {bound length : Nat} (left : Nat)
    (bounded : ∀ client fd length, Walk net lacks origin client fd length → length ≤ bound)
    (walk : Walk net lacks origin client fd length) (reaches : bound < length + left) :
    Within (spreadOf net lacks) left (client, fd) := by
  induction left generalizing client fd length with
  | zero =>
      have short := bounded client fd length walk
      omega
  | succ left ih =>
      rintro ⟨next, further⟩ member
      obtain ⟨isFd, isLacking, recipient⟩ := mem_spreadOf member
      simp only at isFd
      exact ih (.relay (isFd ▸ walk) isLacking recipient) (by omega)

theorem walks_bounded_iff :
    (∃ bound, ∀ client fd length, Walk net lacks origin client fd length → length ≤ bound) ↔
      ∃ bound, ∀ edge ∈ firstEdges net origin, Within (spreadOf net lacks) bound edge := by
  constructor
  · rintro ⟨bound, bounded⟩
    refine ⟨bound, ?_⟩
    intro edge member
    obtain ⟨fd, listed, rfl⟩ := List.mem_map.mp member
    exact Walk.within bound bounded (.first listed) (by omega)
  · rintro ⟨bound, within⟩
    exact ⟨bound, fun client fd length walk => (walk.length_le within).1⟩

/-! ## Runs -/

variable {tdef : TfileDef} {size : Nat}
variable {i : Fin numChunks} {tempPort : BitVec 16} {padding : Vector UInt8 3}
variable {state next now : Relays ι} {stores : ι → Store}

/-- Every client holds the chunk or lacks it as before. -/
def AllDecide (net : Peering ι) (tdef : TfileDef) (size : Nat) (i : Fin numChunks)
    (lacks : ι → Prop) (stores : ι → Store) : Prop :=
  ∀ client, Decides (net.env client) tdef size i (lacks client) (stores client)

/-- The connections on which copies are in flight. -/
def Relays.edges (state : Relays ι) : List (ι × Fd) := state.flight.map RequestCopy.edge

theorem edges_start (bytes : Bytes) :
    (Relays.start net stores origin bytes).edges = firstEdges net origin := by
  rw [Relays.edges, Relays.start, List.map_map]
  rfl

/-- What holds in every state: the clients decide as before, every copy is the request, and
it is on a connection. -/
structure OnItsWay (net : Peering ι) (tdef : TfileDef) (size : Nat) (i : Fin numChunks)
    (lacks : ι → Prop) (tempPort : BitVec 16) (padding : Vector UInt8 3) (state : Relays ι) :
    Prop where
  decide : AllDecide net tdef size i lacks state.stores
  carried : Carried tdef.fHash i tempPort padding state
  connected : ∀ copy ∈ state.flight, ∃ client, copy.fd = net.descriptors.fd copy.source client

/-- Every listed descriptor is the one of a connection. -/
def Peering.Connected (net : Peering ι) : Prop :=
  ∀ client, ∀ fd ∈ (net.peers client).arr, ∃ peer, fd = net.descriptors.fd client peer

theorem onItsWay_start (connected : net.Connected)
    (decide : AllDecide net tdef size i lacks stores) :
    OnItsWay net tdef size i lacks tempPort padding
      (.start net stores origin
        ((ChunkRequest.forDownload tdef.fHash i tempPort).bytes padding)) where
  decide := decide
  carried := carried_start
  connected := by
    intro copy member
    obtain ⟨fd, listed, rfl⟩ := List.mem_map.mp member
    exact connected origin fd listed

theorem OnItsWay.relays {copy : RequestCopy ι} {calls : Calls} {rest : Bytes}
    {handled : Handled} (onWay : OnItsWay net tdef size i lacks tempPort padding state)
    (arrives : Arrives net state client copy calls rest handled) :
    (handled.sent.filterMap (copy.relayed client)).map RequestCopy.edge =
      spreadOf net lacks copy.edge := by
  have bytes := onWay.carried.flight copy arrives.flying
  obtain ⟨handled', handles, _, relays⟩ := @Decides.handles _ _ _ _ _ _ tempPort
    (onWay.decide client) calls (net.peers client) (net.argument client copy.source) padding rest
  obtain rfl : handled' = handled := by
    have same := arrives.handles
    rw [bytes] at same
    exact Except.ok.inj (handles.symm.trans same)
  rw [RequestCopy.edge, arrives.fd]
  rcases arrives.relays with ⟨connects, none⟩ | ⟨connect, _, onward⟩
  · rw [none, spreadOf_holding fun isLacking => connects (relays.mpr isLacking)]
    rfl
  · rw [onward, spreadOf_lacking (relays.mp connect), Arrives.onward, List.map_map]
    rfl

variable [DecidableEq ι]

/-- A step of the network after which every client holds the chunk or lacks it as before. -/
def SteadyStep (net : Peering ι) (tdef : TfileDef) (size : Nat) (i : Fin numChunks)
    (lacks : ι → Prop) (state next : Relays ι) : Prop :=
  RequestStep net (fun _ _ _ => True) state next ∧
    AllDecide net tdef size i lacks next.stores

theorem OnItsWay.spreads {copy : RequestCopy ι} {calls : Calls} {rest : Bytes}
    {handled : Handled} (onWay : OnItsWay net tdef size i lacks tempPort padding state)
    (arrives : Arrives net state client copy calls rest handled) :
    Spreads (spreadOf net lacks) state.edges (state.deliver client copy handled).edges := by
  refine ⟨copy.edge, (state.flight.erase copy).map RequestCopy.edge,
    (List.perm_cons_erase arrives.flying).map _, ?_⟩
  rw [Relays.edges, Relays.deliver, List.map_append, onWay.relays arrives]

/-- **One step** leaves the copies in flight, or one of them spreads and is received. -/
theorem OnItsWay.step (onWay : OnItsWay net tdef size i lacks tempPort padding state)
    (connected : net.Connected) (step : SteadyStep net tdef size i lacks state next) :
    OnItsWay net tdef size i lacks tempPort padding next ∧
      (next.edges = state.edges ∧ next.received.length = state.received.length ∨
        Spreads (spreadOf net lacks) state.edges next.edges ∧
          next.received.length = state.received.length + 1) := by
  obtain ⟨step, decide⟩ := step
  have carried := onWay.carried.step step
  cases step with
  | @deliver client copy calls rest handled arrives =>
      refine ⟨⟨decide, carried, ?_⟩, .inr ⟨onWay.spreads arrives, rfl⟩⟩
      intro new member
      rcases List.mem_append.mp member with old | fresh
      · exact onWay.connected new (List.mem_of_mem_erase old)
      · rcases arrives.relays with ⟨_, none⟩ | ⟨_, _, onward⟩
        · simp [none] at fresh
        · rw [onward] at fresh
          obtain ⟨fd, recipient, rfl⟩ := List.mem_map.mp fresh
          exact connected client fd (Peers.mem_recipients.mp recipient).1
  | other client store => exact ⟨⟨decide, carried, onWay.connected⟩, .inl ⟨rfl, rfl⟩⟩

theorem OnItsWay.delivers (onWay : OnItsWay net tdef size i lacks tempPort padding state)
    (flying : state.flight ≠ []) :
    ∃ next, SteadyStep net tdef size i lacks state next ∧
      next.received.length = state.received.length + 1 := by
  obtain ⟨copy, member⟩ := List.exists_mem_of_ne_nil _ flying
  obtain ⟨client, fd⟩ := onWay.connected copy member
  let calls : Calls := ⟨0, ⟨0, fun _ => 0⟩, none, fun _ _ => true⟩
  obtain ⟨handled, handles, stays, _⟩ := @Decides.handles _ _ _ _ _ _ tempPort
    (onWay.decide client) calls (net.peers client) (net.argument client copy.source) padding []
  rw [← onWay.carried.flight copy member] at handles
  refine ⟨_, ⟨.deliver ⟨member, fd, handles⟩ trivial, ?_⟩, rfl⟩
  intro other
  by_cases same : other = client
  · subst same
    simp only [Relays.deliver, Function.update_self]
    exact stays
  · simp only [Relays.deliver, Function.update_of_ne same]
    exact onWay.decide other

/-- The deliveries made, and those that the copies in flight still cause. -/
theorem OnItsWay.run {bound : Nat}
    (onWay : OnItsWay net tdef size i lacks tempPort padding state) (connected : net.Connected)
    (within : ∀ edge ∈ state.edges, Within (spreadOf net lacks) bound edge)
    (run : ReflTransGen (SteadyStep net tdef size i lacks) state now) :
    OnItsWay net tdef size i lacks tempPort padding now ∧
      (∀ edge ∈ now.edges, Within (spreadOf net lacks) bound edge) ∧
      now.received.length + causedBy (spreadOf net lacks) bound now.edges =
        state.received.length + causedBy (spreadOf net lacks) bound state.edges := by
  induction run with
  | refl => exact ⟨onWay, within, rfl⟩
  | tail _ last ih =>
      obtain ⟨midway, inside, total⟩ := ih
      obtain ⟨onWay', ⟨edges, received⟩ | ⟨spreads, received⟩⟩ := midway.step connected last
      · rw [edges, received]
        exact ⟨onWay', inside, total⟩
      · have caused := spreads.causedBy inside
        exact ⟨onWay', spreads.within inside, by omega⟩

theorem OnItsWay.ends {bound : Nat}
    (onWay : OnItsWay net tdef size i lacks tempPort padding state) (connected : net.Connected)
    (within : ∀ edge ∈ state.edges, Within (spreadOf net lacks) bound edge) :
    ∃ final, ReflTransGen (SteadyStep net tdef size i lacks) state final ∧
      final.flight = [] := by
  induction left : causedBy (spreadOf net lacks) bound state.edges generalizing state with
  | zero =>
      refine ⟨state, .refl, ?_⟩
      by_contra flying
      obtain ⟨next, taken, received⟩ := onWay.delivers flying
      have total := (onWay.run connected within (.single taken)).2.2
      omega
  | succ left ih =>
      by_cases flying : state.flight = []
      · exact ⟨state, .refl, flying⟩
      · obtain ⟨next, taken, received⟩ := onWay.delivers flying
        obtain ⟨onWay', within', total⟩ := onWay.run connected within (.single taken)
        obtain ⟨final, run, silent⟩ := ih onWay' within' (by omega)
        exact ⟨final, .head taken run, silent⟩

theorem OnItsWay.goes_on (onWay : OnItsWay net tdef size i lacks tempPort padding state)
    (connected : net.Connected)
    (endless : ∃ edge ∈ state.edges, Endless (spreadOf net lacks) edge)
    (run : ReflTransGen (SteadyStep net tdef size i lacks) state now) :
    OnItsWay net tdef size i lacks tempPort padding now ∧
      ∃ edge ∈ now.edges, Endless (spreadOf net lacks) edge := by
  induction run with
  | refl => exact ⟨onWay, endless⟩
  | tail _ last ih =>
      obtain ⟨midway, chains⟩ := ih
      obtain ⟨onWay', ⟨edges, _⟩ | ⟨spreads, _⟩⟩ := midway.step connected last
      · exact ⟨onWay', edges ▸ chains⟩
      · exact ⟨onWay', spreads.endless chains⟩

/-- Steps lead to a state without a copy in flight. -/
def DiesOut (net : Peering ι) (tdef : TfileDef) (size : Nat) (i : Fin numChunks)
    (lacks : ι → Prop) (state : Relays ι) : Prop :=
  ∃ final, ReflTransGen (SteadyStep net tdef size i lacks) state final ∧ final.flight = []

/-- At any time of a run, the walks say whether the request can still die out. -/
theorem diesOut_iff_walks (connected : net.Connected)
    (decide : AllDecide net tdef size i lacks stores)
    (run : ReflTransGen (SteadyStep net tdef size i lacks)
      (.start net stores origin
        ((ChunkRequest.forDownload tdef.fHash i tempPort).bytes padding)) now) :
    DiesOut net tdef size i lacks now ↔
      ∃ bound, ∀ client fd length, Walk net lacks origin client fd length → length ≤ bound := by
  have starts := @onItsWay_start _ _ _ origin _ _ _ tempPort padding _ connected decide
  rw [walks_bounded_iff, ← @edges_start _ _ _ stores
    ((ChunkRequest.forDownload tdef.fHash i tempPort).bytes padding)]
  constructor
  · rintro ⟨final, further, silent⟩
    by_contra unbounded
    obtain ⟨_, edge, flying, _⟩ :=
      starts.goes_on connected (exists_endless unbounded) (run.trans further)
    simp [Relays.edges, silent] at flying
  · rintro ⟨bound, within⟩
    obtain ⟨onWay, left, _⟩ := starts.run connected within run
    exact onWay.ends connected left

/-- As many copies are received as the first ones cause, and fewer as long as one is in
flight. -/
theorem received_within {bound : Nat} (connected : net.Connected)
    (decide : AllDecide net tdef size i lacks stores)
    (within : ∀ edge ∈ firstEdges net origin, Within (spreadOf net lacks) bound edge)
    (run : ReflTransGen (SteadyStep net tdef size i lacks)
      (.start net stores origin
        ((ChunkRequest.forDownload tdef.fHash i tempPort).bytes padding)) now) :
    now.received.length ≤ causedBy (spreadOf net lacks) bound (firstEdges net origin) ∧
      (now.flight = [] ↔
        now.received.length = causedBy (spreadOf net lacks) bound (firstEdges net origin)) := by
  have starts := @onItsWay_start _ _ _ origin _ _ _ tempPort padding _ connected decide
  rw [← @edges_start _ _ _ stores
    ((ChunkRequest.forDownload tdef.fHash i tempPort).bytes padding)] at within ⊢
  obtain ⟨onWay, left, sum⟩ := starts.run connected within run
  have total := sum.trans (Nat.zero_add _)
  refine ⟨by omega, ?_, ?_⟩
  · intro silent
    rw [Relays.edges, silent] at total
    exact total
  · intro all
    by_contra flying
    obtain ⟨next, taken, received⟩ := onWay.delivers flying
    have further := (onWay.run connected left (.single taken)).2.2
    omega

/-- **Where a request dies out.**  While the clients go on to hold the chunk or to lack it,
then at any time of any run the request can still die out if and only if the walks over
clients that lack the chunk are bounded.  If they are, every run ends, when the same number
of copies has been received in all of them. -/
theorem request_dies_out_iff (connected : net.Connected)
    (decide : AllDecide net tdef size i lacks stores) :
    (∀ now, ReflTransGen (SteadyStep net tdef size i lacks)
        (.start net stores origin
          ((ChunkRequest.forDownload tdef.fHash i tempPort).bytes padding)) now →
      (DiesOut net tdef size i lacks now ↔ ∃ bound, ∀ client fd length,
        Walk net lacks origin client fd length → length ≤ bound)) ∧
    ((∃ bound, ∀ client fd length, Walk net lacks origin client fd length → length ≤ bound) →
      ∃ total, ∀ now, ReflTransGen (SteadyStep net tdef size i lacks)
          (.start net stores origin
            ((ChunkRequest.forDownload tdef.fHash i tempPort).bytes padding)) now →
        now.received.length ≤ total ∧ (now.flight = [] ↔ now.received.length = total)) := by
  constructor
  · intro now run
    exact diesOut_iff_walks connected decide run
  · intro bounded
    obtain ⟨bound, within⟩ := walks_bounded_iff.mp bounded
    exact ⟨_, fun now run => received_within connected decide within run⟩

/-- The client that holds the sample file, and one that has no entry for it. -/
def pairStores (client : Bool) : Store := if client then sampleServer else sampleStore []

theorem pairStores_decide (behind : Bool → Fd) :
    AllDecide (pairPeering behind) heldDef sampleContent.length 0 (fun client => client = false)
      pairStores := by
  rintro (_ | _)
  · refine .inl ⟨rfl, ?_⟩
    simp only [pairStores, Bool.false_eq_true, if_false, lookupTfile, sampleStore,
      Htable.search_init, Result.ok_bind]
  · refine .inr ⟨_, some sampleContent, sampleServer_copy, heldDef_sized, ?_,
      sampleContent_counts, ?_, fun _ _ _ => ⟨fun _ _ => sampleEnv_creates _ (by decide), rfl⟩⟩
    · rw [length_sampleContent]
      decide
    · refine iff_of_true ?_ (by decide)
      exact reported_iff.mpr ⟨_, rfl, by simp, .inl heldDef_digest⟩

theorem pairPeering_connected (behind : Bool → Fd) : (pairPeering behind).Connected := by
  intro client fd listed
  exact ⟨!client, List.mem_singleton.mp listed⟩

/-- The peer of the requester holds the chunk. -/
theorem request_dies_out_iff_sample :
    DiesOut (pairPeering fun _ => 0) heldDef sampleContent.length 0 (fun client => client = false)
      (.start (pairPeering fun _ => 0) pairStores false
        ((ChunkRequest.forDownload heldDef.fHash 0 9000).bytes (Vector.replicate 3 0))) := by
  apply ((request_dies_out_iff (pairPeering_connected _) (pairStores_decide _)).1 _ .refl).mpr
  refine ⟨1, ?_⟩
  intro client fd length walk
  cases walk with
  | first => exact Nat.le_refl 1
  | relay before atRequester _ =>
      subst atRequester
      obtain ⟨rfl, toItself⟩ := walk_pair before
      exact absurd toItself (by decide)

end Grintorrent
