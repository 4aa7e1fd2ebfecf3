import Grintorrent.Client.Download
import Grintorrent.Lib.Runs
import Grintorrent.Request.Basic

/-!
# Where a reply goes

`download_file` puts `INADDR_ANY` and the port it listens on into the return address of a
request, and the request is relayed with these bytes unchanged.  The client that holds the
chunk connects to that address from its own host, where `INADDR_ANY` stands for the host
itself.
-/

namespace Grintorrent

open Lib Relation

/-- A socket that listens on a port of a host. -/
structure Endpoint where
  host : BitVec 32
  port : BitVec 16
  deriving DecidableEq

/-- The socket that a connection from this host to the address reaches.  `INADDR_ANY` is
the connecting host. -/
def designated (host : BitVec 32) (returnAddr : Bytes) : Endpoint where
  host :=
    let sAddr := BitVec.ofNat 32 (leNat (slice 4 4 returnAddr))
    if sAddr = inaddrAny then host else sAddr
  port := BitVec.ofNat 16 (leNat (slice 2 2 returnAddr).reverse)

theorem designated_sockaddrIn (host : BitVec 32) (sinPort : BitVec 16) :
    designated host (sockaddrIn sinPort inaddrAny) = ⟨host, sinPort⟩ := by
  have portBytes : slice 2 2 (sockaddrIn sinPort inaddrAny) =
      (leBytes 2 sinPort.toNat).reverse := by
    simp [slice, sockaddrIn]
  have addrBytes : slice 4 4 (sockaddrIn sinPort inaddrAny) =
      leBytes 4 inaddrAny.toNat := by
    simp [slice, sockaddrIn, List.drop_append, List.drop_eq_nil_of_le]
  simp only [designated, portBytes, addrBytes, List.reverse_reverse]
  rw [leNat_leBytes (by decide), leNat_leBytes (by simpa using sinPort.isLt)]
  simp

variable {ι : Type} {net : Peering ι} {stores : ι → Store} {origin : ι}
variable {state next : Relays ι} {fileHash : Digest} {i : Fin numChunks}
variable {tempPort : BitVec 16} {padding : Vector UInt8 3}

/-- The invariant: the request is carried unchanged, and whoever connects does so to its
return address. -/
structure Carried (fileHash : Digest) (i : Fin numChunks) (tempPort : BitVec 16)
    (padding : Vector UInt8 3) (state : Relays ι) : Prop where
  flight : ∀ copy ∈ state.flight,
    copy.bytes = (ChunkRequest.forDownload fileHash i tempPort).bytes padding
  connects : ∀ entry ∈ state.connects, entry.2 = (sockaddrIn tempPort inaddrAny, 16)

theorem carried_start : Carried fileHash i tempPort padding
    (.start net stores origin
      ((ChunkRequest.forDownload fileHash i tempPort).bytes padding)) where
  flight := by
    intro copy member
    obtain ⟨fd, _, rfl⟩ := List.mem_map.mp member
    rfl
  connects := by simp [Relays.start]

variable [DecidableEq ι] {meets : DeliveryCondition ι}

theorem Carried.deliver {client : ι} {copy : RequestCopy ι} {calls : Calls} {rest : Bytes}
    {handled : Handled} (carried : Carried fileHash i tempPort padding state)
    (arrives : Arrives net state client copy calls rest handled) :
    Carried fileHash i tempPort padding (state.deliver client copy handled) where
  flight := by
    intro other member
    rcases List.mem_append.mp member with old | new
    · exact carried.flight other (List.mem_of_mem_erase old)
    · rcases arrives.relays with ⟨_, none⟩ | ⟨_, _, onward⟩
      · simp [none] at new
      · rw [onward] at new
        obtain ⟨fd, _, rfl⟩ := List.mem_map.mp new
        have whole : 0 + ChunkRequest.sizeOf ≤ copy.bytes.length := by
          rw [carried.flight copy arrives.flying, ChunkRequest.length_bytes, Nat.zero_add]
        change slice 0 ChunkRequest.sizeOf (copy.bytes ++ rest) = _
        rw [slice_append_left whole, carried.flight copy arrives.flying,
          ← ChunkRequest.length_bytes, slice_zero_length]
  connects := by
    intro entry member
    rcases List.mem_append.mp member with new | old
    · rcases arrives.connect with none | connects
      · simp [none] at new
      · rw [connects, Option.map_some, Option.mem_toList] at new
        rw [← Option.some.inj new, carried.flight copy arrives.flying,
          ChunkRequest.decode_bytes ChunkRequest.length_returnAddr]
        rfl
    · exact carried.connects entry old

theorem Carried.step (carried : Carried fileHash i tempPort padding state)
    (step : RequestStep net meets state next) : Carried fileHash i tempPort padding next := by
  cases step with
  | deliver arrives => exact carried.deliver arrives
  | other client store => exact ⟨carried.flight, carried.connects⟩

/-- **Where a reply goes.**  After relays over any path, the address that a holder passes
to `socket_connect_addr` designates the socket of the requester exactly if both run on the
same host. -/
theorem reply_reaches_iff (host : ι → BitVec 32)
    (run : ReflTransGen (RequestStep net meets)
      (.start net stores origin
        ((ChunkRequest.forDownload fileHash i tempPort).bytes padding)) state) :
    ∀ holder returnAddr returnAddrLen,
      (holder, returnAddr, returnAddrLen) ∈ state.connects →
      (designated (host holder) returnAddr = ⟨host origin, tempPort⟩ ↔
        host holder = host origin) := by
  have carried := invariant_run (fun _ _ carried step => Carried.step carried step) run
    carried_start
  intro holder returnAddr returnAddrLen member
  have address := carried.connects _ member
  rw [Prod.mk.injEq] at address
  rw [address.1, designated_sockaddrIn, Endpoint.mk.injEq, and_iff_left rfl]

theorem heldRequest_answered (rest : Bytes) :
    ∃ handled, Arrives (pairPeering fun _ => 0)
      (.start (pairPeering fun _ => 0) (fun _ => sampleServer) false heldRequest) true
      ⟨false, 4, [], heldRequest⟩ sampleCalls rest handled ∧
      handled.connect = some (sockaddrIn 9000 inaddrAny, 16) := by
  obtain ⟨chunks, verified, after, judged, reported, sent⟩ :=
    sampleServer_serves 0 sampleCalls.locals
  have req := decode_heldRequest rest
  have index : (ChunkRequest.forDownload heldDef.fHash 0 9000).chunkIndex.toInt =
      (0 : Fin numChunks).val := by decide
  have answered : handleRequest sampleEnv sampleServer (ChunkRequest.decode (heldRequest ++ rest))
      sampleCalls.locals true =
        .ok (.chunk (chunkMessage heldDef.fHash 0 (chunkOf sampleContent 0)), after) := by
    rw [req, handleRequest, index]
    simp only [ChunkRequest.forDownload, judged, Result.ok_bind, reported, if_true, sent]
  have handles : handleMessage sampleEnv sampleCalls sampleServer
      ((pairPeering fun _ => 0).peers true) ((pairPeering fun _ => 0).argument true false)
      requestFileData (heldRequest ++ rest) =
        .ok
          { store := after
            peers := (pairPeering fun _ => 0).peers true
            connect := some (sockaddrIn 9000 inaddrAny, 16)
            sent := [.chunk (sockaddrIn 9000 inaddrAny) 16
              (chunkMessage heldDef.fHash 0 (chunkOf sampleContent 0))] } := by
    have connects : sampleCalls.connects = fun _ _ => true := rfl
    simp only [handle_requestFileData, connects, answered, Result.ok_bind]
    rw [req]
    rfl
  exact ⟨_, ⟨List.mem_singleton_self _, rfl, handles⟩, rfl⟩

theorem heldRequest_run :
    ∃ state, ReflTransGen (RequestStep (pairPeering fun _ => 0) fun _ _ _ => True)
        (.start (pairPeering fun _ => 0) (fun _ => sampleServer) false heldRequest) state ∧
      (true, sockaddrIn 9000 inaddrAny, 16) ∈ state.connects := by
  obtain ⟨handled, arrives, connects⟩ := heldRequest_answered []
  refine ⟨_, .single (.deliver arrives trivial), ?_⟩
  apply List.mem_append_left
  rw [connects]
  exact List.mem_singleton_self _

/-- The two clients run on one host. -/
theorem reply_reaches_iff_local :
    ∃ state : Relays Bool, (true, sockaddrIn 9000 inaddrAny, 16) ∈ state.connects ∧
      designated 7 (sockaddrIn 9000 inaddrAny) = ⟨7, 9000⟩ := by
  obtain ⟨state, run, member⟩ := heldRequest_run
  exact ⟨state, member, (reply_reaches_iff (fun _ => 7) run _ _ _ member).mpr rfl⟩

/-- The holder of the chunk runs on host 2 and the requester on host 1: the reply goes to
port 9000 of host 2. -/
theorem reply_misses :
    ∃ state, ReflTransGen (RequestStep (pairPeering fun _ => 0) fun _ _ _ => True)
        (.start (pairPeering fun _ => 0) (fun _ => sampleServer) false heldRequest) state ∧
      (true, sockaddrIn 9000 inaddrAny, 16) ∈ state.connects ∧
      designated 2 (sockaddrIn 9000 inaddrAny) ≠ ⟨1, 9000⟩ := by
  obtain ⟨state, run, member⟩ := heldRequest_run
  exact ⟨state, run, member, by decide⟩

end Grintorrent
