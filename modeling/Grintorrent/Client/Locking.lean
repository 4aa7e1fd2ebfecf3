import Grintorrent.Request.Basic

/-!
# The lock of the peer list

`peers.lock` is a default mutex, so a thread that locks it while it holds it does not get
on.  The calls of `client.c` that take it are followed here on the path of one thread.
The other threads change the list between two of its locks, and a `send_message` may
return anything.
-/

namespace Grintorrent

/-- Why a thread does not get on with `peers.lock`. -/
inductive LockFault where
  /-- It locks the mutex while it holds it. -/
  | relocked
  /-- It unlocks the mutex while it does not hold it. -/
  | notHeld
  deriving DecidableEq

/-- What a thread sends to the peers. -/
inductive PeerMessage where
  | tfile (tfile : TfileDef)
  | request (req : ChunkRequest)

/-- What a thread meets: the list at each of its locks, and what each of its
`send_message` calls returns. -/
structure Meets where
  found : Nat → Peers
  rc : Nat → Int

/-- A thread: whether it holds the lock, the list as it saw it last, how often it has
locked, and what it has sent. -/
structure Locker where
  held : Bool
  peers : Peers
  locks : Nat
  sent : List (Fd × PeerMessage)

/-- A thread after a call, if the call does not fail on the lock. -/
abbrev Locking := Except LockFault Locker

namespace Locker

/-- A thread that has just started. -/
def init : Locker where
  held := false
  peers := .init
  locks := 0
  sent := []

variable (meets : Meets)

/-- `pthread_mutex_lock(&peers.lock)`. -/
def lock (thread : Locker) : Locking :=
  if thread.held then .error .relocked
  else
    .ok
      { thread with
        held := true
        peers := meets.found thread.locks
        locks := thread.locks + 1 }

/-- `pthread_mutex_unlock(&peers.lock)`. -/
def unlock (thread : Locker) : Locking :=
  if thread.held then .ok { thread with held := false } else .error .notHeld

/-- `send_message` to a peer. -/
def send (thread : Locker) (fd : Fd) (message : PeerMessage) : Int × Locker :=
  (meets.rc thread.sent.length, { thread with sent := thread.sent ++ [(fd, message)] })

/-- `add_peer`.  Whether the array is reallocated was decided on the list as it was before
the lock. -/
def addPeer (before : Peers) (peer : Fd) (thread : Locker) : Locking :=
  if before.arr.length ≥ before.capacity then do
    let thread ← thread.lock meets
    let peers :=
      { thread.peers with
        slots := thread.peers.capacity * 2
        arr := thread.peers.arr ++ [peer] }
    { thread with peers }.unlock
  else do
    let thread ← thread.lock meets
    { thread with peers := { thread.peers with arr := thread.peers.arr ++ [peer] } }.unlock

/-- `remove_peer`. -/
def removePeer (peer : Fd) (thread : Locker) : Locking := do
  let thread ← thread.lock meets
  { thread with peers := Grintorrent.removePeer thread.peers peer }.unlock

/-- `remove_peers`. -/
def removePeers : (peersToRemove : List Fd) → (thread : Locker) → Locking
  | [], thread => .ok thread
  | peer :: peersToRemove, thread => do
      let thread ← thread.removePeer meets peer
      removePeers peersToRemove thread

/-- The loop of `share_tfiles_to_peer`. -/
def shareLoop (peer : Fd) : (tfileArr : List TfileDef) → (thread : Locker) → Locking
  | [], thread => .ok thread
  | tfile :: tfileArr, thread => do
      let (rc, thread) := thread.send meets peer (.tfile tfile)
      let thread ← if rc ≠ 0 then thread.removePeer meets peer else .ok thread
      shareLoop peer tfileArr thread

/-- `share_tfiles_to_peer`. -/
def shareTfilesToPeer (data : SendTfiles) (thread : Locker) : Locking := do
  let thread ← thread.lock meets
  let thread ← shareLoop meets data.peer data.tfileArr thread
  thread.unlock

/-- The loop of `share_tfile_to_peers` from index `i` on, with the indexes that it puts in
`peers_to_remove`. -/
def sendTfile (data : SendTfile) :
    (arr : List Fd) → (i : Nat) → (thread : Locker) → List Fd × Locker
  | [], _, thread => ([], thread)
  | fd :: arr, i, thread =>
      if fd = data.sender then sendTfile data arr (i + 1) thread
      else
        let (rc, thread) := thread.send meets fd (.tfile data.tfile)
        let (peersToRemove, thread) := sendTfile data arr (i + 1) thread
        (if rc ≠ 0 then (i : Fd) :: peersToRemove else peersToRemove, thread)

/-- `share_tfile_to_peers`. -/
def shareTfileToPeers (data : SendTfile) (thread : Locker) : Locking := do
  let thread ← thread.lock meets
  let (peersToRemove, thread) := sendTfile meets data thread.peers.arr 0 thread
  let thread ← removePeers meets peersToRemove thread
  thread.unlock

/-- A message to each of these peers, whatever the calls return. -/
def sendAll (message : PeerMessage) : (fds : List Fd) → (thread : Locker) → Locker
  | [], thread => thread
  | fd :: fds, thread => sendAll message fds (thread.send meets fd message).2

/-- The relay of a request in `readWorker`. -/
def relayRequest (fdData : ClientServer) (req : ChunkRequest) (thread : Locker) :
    Locking := do
  let thread ← thread.lock meets
  (sendAll meets (.request req) (thread.peers.recipients fdData.clientFd) thread).unlock

/-- `download_file` asks all peers for a chunk. -/
def requestChunk (req : ChunkRequest) (thread : Locker) : Locking := do
  let thread ← thread.lock meets
  (sendAll meets (.request req) thread.peers.arr thread).unlock

/-- `download_file` asks for these chunks, as far as they are not verified. -/
def requestChunks (fileHash : Digest) (tempPort : BitVec 16) (chunks : VerifiedChunks) :
    (indexes : List (Fin numChunks)) → (thread : Locker) → Locking
  | [], thread => .ok thread
  | i :: indexes, thread => do
      let thread ←
        if !isChunkVerified chunks i.val then
          thread.requestChunk meets (.forDownload fileHash i tempPort)
        else .ok thread
      requestChunks fileHash tempPort chunks indexes thread

/-- The request loop of `download_file`, with what `verify_tfile` returns in each round.
The loop has not ended when they are used up. -/
def requestLoop (fileHash : Digest) (tempPort : BitVec 16) :
    (rounds : List VerifiedChunks) → (thread : Locker) → Locking
  | [], thread => .ok thread
  | chunks :: rounds, thread =>
      if chunks = verifiedFile then .ok thread
      else do
        let thread ←
          requestChunks meets fileHash tempPort chunks (List.finRange numChunks) thread
        requestLoop fileHash tempPort rounds thread

end Locker

/-- A call that takes `peers.lock`. -/
inductive PeersCall where
  | shareTfilesToPeer (data : SendTfiles)
  | shareTfileToPeers (data : SendTfile)
  | removePeers (peersToRemove : List Fd)
  | addPeer (before : Peers) (peer : Fd)
  | removePeer (peer : Fd)
  | relayRequest (fdData : ClientServer) (req : ChunkRequest)
  | requestLoop (fileHash : Digest) (tempPort : BitVec 16) (rounds : List VerifiedChunks)

/-- The thread after the call. -/
def PeersCall.run (meets : Meets) (thread : Locker) : (call : PeersCall) → Locking
  | .shareTfilesToPeer data => thread.shareTfilesToPeer meets data
  | .shareTfileToPeers data => thread.shareTfileToPeers meets data
  | .removePeers peersToRemove => thread.removePeers meets peersToRemove
  | .addPeer before peer => thread.addPeer meets before peer
  | .removePeer peer => thread.removePeer meets peer
  | .relayRequest fdData req => thread.relayRequest meets fdData req
  | .requestLoop fileHash tempPort rounds => thread.requestLoop meets fileHash tempPort rounds

namespace Locker

variable {meets : Meets} {thread : Locker} {peer : Fd}

/-- The thread does not hold the lock before the call, and not after it. -/
def Frees (call : Locker → Locking) : Prop :=
  ∀ thread : Locker, thread.held = false →
    ∃ after, call thread = .ok after ∧ after.held = false

theorem Frees.ok : Frees .ok := fun thread free => ⟨thread, rfl, free⟩

theorem Frees.andThen {first second : Locker → Locking} (frees : Frees first)
    (continues : Frees second) : Frees fun thread => first thread >>= second := by
  intro thread free
  obtain ⟨middle, isMiddle, free⟩ := frees thread free
  obtain ⟨after, isAfter, free⟩ := continues middle free
  refine ⟨after, ?_, free⟩
  simp only [isMiddle]
  exact isAfter

theorem Frees.choose {condition : Prop} [Decidable condition]
    {first second : Locker → Locking} (frees : Frees first) (otherwise : Frees second) :
    Frees fun thread => if condition then first thread else second thread := by
  by_cases holds : condition
  · simpa only [if_pos holds] using frees
  · simpa only [if_neg holds] using otherwise

/-- The thread once it has got the lock. -/
def entered (meets : Meets) (thread : Locker) : Locker :=
  { thread with
    held := true
    peers := meets.found thread.locks
    locks := thread.locks + 1 }

@[simp] theorem held_entered : (thread.entered meets).held = true := rfl

theorem lock_of_free (free : thread.held = false) :
    thread.lock meets = .ok (thread.entered meets) := by
  simp [lock, free, entered]

theorem lock_of_held (isHeld : thread.held = true) : thread.lock meets = .error .relocked := by
  simp [lock, isHeld]

theorem unlock_of_held (isHeld : thread.held = true) :
    thread.unlock = .ok { thread with held := false } := by
  simp [unlock, isHeld]

theorem frees_locked (inside : Locker → Locker)
    (keeps : ∀ thread, (inside thread).held = thread.held) :
    Frees fun thread => (do
      let thread ← thread.lock meets
      (inside thread).unlock) := by
  intro thread free
  simp only [lock_of_free free]
  exact ⟨_, unlock_of_held (by rw [keeps, held_entered]), rfl⟩

theorem frees_removePeer (peer : Fd) : Frees (removePeer meets peer) :=
  frees_locked
    (fun thread => { thread with peers := Grintorrent.removePeer thread.peers peer })
    fun _ => rfl

/-- With the lock, `remove_peer` does not get past its own lock. -/
theorem removePeer_of_held (isHeld : thread.held = true) :
    thread.removePeer meets peer = .error .relocked := by
  unfold removePeer
  rw [lock_of_held isHeld]
  rfl

theorem frees_removePeers (peersToRemove : List Fd) : Frees (removePeers meets peersToRemove) := by
  induction peersToRemove with
  | nil => exact .ok
  | cons peer peersToRemove ih => exact (frees_removePeer peer).andThen ih

/-- With the lock, `remove_peers` gets on only if there is no peer to remove. -/
theorem removePeers_of_held (isHeld : thread.held = true) (peersToRemove : List Fd) :
    thread.removePeers meets peersToRemove =
      if peersToRemove = [] then .ok thread else .error .relocked := by
  cases peersToRemove with
  | nil => rfl
  | cons peer peersToRemove =>
      simp only [removePeers, removePeer_of_held isHeld]
      rfl

theorem frees_addPeer (before : Peers) (peer : Fd) : Frees (addPeer meets before peer) :=
  .choose
    (frees_locked
      (fun thread =>
        { thread with
          peers :=
            { thread.peers with
              slots := thread.peers.capacity * 2
              arr := thread.peers.arr ++ [peer] } })
      fun _ => rfl)
    (frees_locked
      (fun thread =>
        { thread with peers := { thread.peers with arr := thread.peers.arr ++ [peer] } })
      fun _ => rfl)

@[simp] theorem held_send (fd : Fd) (message : PeerMessage) :
    (thread.send meets fd message).2.held = thread.held := rfl

@[simp] theorem length_sent_send (fd : Fd) (message : PeerMessage) :
    (thread.send meets fd message).2.sent.length = thread.sent.length + 1 := by
  simp [send]

@[simp] theorem held_sendAll (message : PeerMessage) (fds : List Fd) :
    (sendAll meets message fds thread).held = thread.held := by
  induction fds generalizing thread with
  | nil => rfl
  | cons fd fds ih => rw [sendAll, ih, held_send]

theorem frees_relayRequest (fdData : ClientServer) (req : ChunkRequest) :
    Frees (relayRequest meets fdData req) :=
  frees_locked
    (fun thread =>
      sendAll meets (.request req) (thread.peers.recipients fdData.clientFd) thread)
    fun _ => held_sendAll _ _

theorem frees_requestChunk (req : ChunkRequest) : Frees (requestChunk meets req) :=
  frees_locked (fun thread => sendAll meets (.request req) thread.peers.arr thread)
    fun _ => held_sendAll _ _

theorem frees_requestChunks (fileHash : Digest) (tempPort : BitVec 16)
    (chunks : VerifiedChunks) (indexes : List (Fin numChunks)) :
    Frees (requestChunks meets fileHash tempPort chunks indexes) := by
  induction indexes with
  | nil => exact .ok
  | cons i indexes ih =>
      have next : Frees fun thread =>
          if !isChunkVerified chunks i.val then
            thread.requestChunk meets (.forDownload fileHash i tempPort) >>=
              requestChunks meets fileHash tempPort chunks indexes
          else requestChunks meets fileHash tempPort chunks indexes thread :=
        .choose ((frees_requestChunk _).andThen ih) ih
      exact next

theorem frees_requestLoop (fileHash : Digest) (tempPort : BitVec 16)
    (rounds : List VerifiedChunks) : Frees (requestLoop meets fileHash tempPort rounds) := by
  induction rounds with
  | nil => exact .ok
  | cons chunks rounds ih =>
      exact .choose .ok ((frees_requestChunks fileHash tempPort chunks _).andThen ih)

/-! ## The sharing workers -/

/-- The next `count` calls of `send_message` succeed. -/
def SendsSucceed (meets : Meets) (thread : Locker) (count : Nat) : Prop :=
  ∀ j < count, meets.rc (thread.sent.length + j) = 0

theorem sendsSucceed_succ (fd : Fd) (message : PeerMessage) (count : Nat) :
    SendsSucceed meets thread (count + 1) ↔
      (thread.send meets fd message).1 = 0 ∧
      SendsSucceed meets (thread.send meets fd message).2 count := by
  constructor
  · intro succeed
    refine ⟨succeed 0 (by omega), ?_⟩
    intro j below
    have later := succeed (j + 1) (by omega)
    rwa [length_sent_send, Nat.add_right_comm, Nat.add_assoc]
  · rintro ⟨first, later⟩ j below
    cases j with
    | zero => exact first
    | succ j =>
        have succeeds := later j (by omega)
        rwa [length_sent_send, Nat.add_right_comm, Nat.add_assoc] at succeeds

/-- The loop of `share_tfiles_to_peer` gets to its end if no send fails, and else it stops
in `remove_peer`. -/
theorem shareLoop_of_held (isHeld : thread.held = true) (tfileArr : List TfileDef) :
    (SendsSucceed meets thread tfileArr.length ∧
      ∃ after, shareLoop meets peer tfileArr thread = .ok after ∧ after.held = true) ∨
    (¬SendsSucceed meets thread tfileArr.length ∧
      shareLoop meets peer tfileArr thread = .error .relocked) := by
  induction tfileArr generalizing thread with
  | nil => exact .inl ⟨fun j below => absurd below (by simp), thread, rfl, isHeld⟩
  | cons tfile tfileArr ih =>
      have first : SendsSucceed meets thread (tfileArr.length + 1) ↔ _ :=
        sendsSucceed_succ peer (.tfile tfile) tfileArr.length
      by_cases succeeds : (thread.send meets peer (.tfile tfile)).1 = 0
      · have goesOn : shareLoop meets peer (tfile :: tfileArr) thread =
            shareLoop meets peer tfileArr (thread.send meets peer (.tfile tfile)).2 := by
          simp only [shareLoop, ne_eq, succeeds, not_true_eq_false, if_false]
          rfl
        rw [goesOn, List.length_cons, first]
        have rest := @ih (thread.send meets peer (.tfile tfile)).2 isHeld
        simpa [succeeds] using rest
      · refine .inr ⟨?_, ?_⟩
        · rw [List.length_cons, first]
          exact fun succeed => succeeds succeed.1
        · simp only [shareLoop, ne_eq, succeeds, not_false_eq_true, if_true]
          rw [removePeer_of_held (by simpa using isHeld)]
          rfl

@[simp] theorem held_sendTfile (data : SendTfile) (arr : List Fd) (i : Nat) :
    (sendTfile meets data arr i thread).2.held = thread.held := by
  induction arr generalizing thread i with
  | nil => rfl
  | cons fd arr ih =>
      unfold sendTfile
      split
      next => exact ih (i + 1)
      next => exact (ih (i + 1)).trans (held_send fd _)

theorem sendTfile_eq_nil_iff (data : SendTfile) (arr : List Fd) (i : Nat) :
    (sendTfile meets data arr i thread).1 = [] ↔
      SendsSucceed meets thread (arr.filter fun fd => !(fd == data.sender)).length := by
  induction arr generalizing thread i with
  | nil => simp [sendTfile, SendsSucceed]
  | cons fd arr ih =>
      unfold sendTfile
      split
      next isSender => simpa [isSender] using ih (i + 1)
      next other =>
          have kept : (fd :: arr).filter (fun fd => !(fd == data.sender)) =
              fd :: arr.filter fun fd => !(fd == data.sender) := by
            simp [other]
          rw [kept, List.length_cons, sendsSucceed_succ fd (.tfile data.tfile),
            ← ih (i + 1)]
          by_cases succeeds : (thread.send meets fd (.tfile data.tfile)).1 = 0
          · simp [succeeds]
          · simp [succeeds]

end Locker

namespace PeersCall

variable {meets : Meets} {thread : Locker}

/-- No definition that the call sends fails to be sent. -/
def SendsSucceed (meets : Meets) (thread : Locker) : (call : PeersCall) → Prop
  | .shareTfilesToPeer data => thread.SendsSucceed meets data.tfileArr.length
  | .shareTfileToPeers data =>
      thread.SendsSucceed meets ((meets.found thread.locks).recipients data.sender).length
  | _ => True

/-- The call neither locks the mutex while the thread holds it nor ends with it held. -/
def LocksOnce (meets : Meets) (thread : Locker) (call : PeersCall) : Prop :=
  call.run meets thread ≠ .error .relocked ∧
  ∃ after, call.run meets thread = .ok after ∧ after.held = false

theorem locksOnce_of_ok {call : PeersCall} {after : Locker}
    (ended : call.run meets thread = .ok after) (released : after.held = false) :
    call.LocksOnce meets thread := by
  refine ⟨?_, after, ended, released⟩
  rw [ended]
  exact fun stopped => by cases stopped

theorem locksOnce_of_frees {call : PeersCall}
    (frees : Locker.Frees fun thread => call.run meets thread)
    (free : thread.held = false) : call.LocksOnce meets thread := by
  obtain ⟨after, ended, released⟩ := frees thread free
  exact locksOnce_of_ok ended released

theorem not_locksOnce {call : PeersCall} (stops : call.run meets thread = .error .relocked) :
    ¬call.LocksOnce meets thread :=
  fun locksOnce => locksOnce.1 stops

/-- `share_tfiles_to_peer` removes its peer with the lock in its hands when a send
fails. -/
theorem shareTfilesToPeer_locksOnce_iff (data : SendTfiles) (free : thread.held = false) :
    (shareTfilesToPeer data).LocksOnce meets thread ↔
      (shareTfilesToPeer data).SendsSucceed meets thread := by
  have runs : (shareTfilesToPeer data).run meets thread =
      Locker.shareLoop meets data.peer data.tfileArr (thread.entered meets) >>=
        Locker.unlock := by
    simp only [run, Locker.shareTfilesToPeer, Locker.lock_of_free free]
    rfl
  have same : thread.SendsSucceed meets data.tfileArr.length ↔
      (thread.entered meets).SendsSucceed meets data.tfileArr.length := Iff.rfl
  rcases @Locker.shareLoop_of_held meets (thread.entered meets) data.peer Locker.held_entered
    data.tfileArr with
    ⟨succeed, after, ended, isHeld⟩ | ⟨fails, stops⟩
  · rw [ended] at runs
    exact iff_of_true (locksOnce_of_ok (runs.trans (Locker.unlock_of_held isHeld)) rfl)
      (same.mpr succeed)
  · rw [stops] at runs
    exact iff_of_false (not_locksOnce runs) fun succeed => fails (same.mp succeed)

/-- `share_tfile_to_peers` removes the peers to which it could not send with the lock in
its hands. -/
theorem shareTfileToPeers_locksOnce_iff (data : SendTfile) (free : thread.held = false) :
    (shareTfileToPeers data).LocksOnce meets thread ↔
      (shareTfileToPeers data).SendsSucceed meets thread := by
  set sends := Locker.sendTfile meets data (thread.entered meets).peers.arr 0
    (thread.entered meets)
  have isHeld : sends.2.held = true := Locker.held_sendTfile data _ 0
  have nothing : sends.1 = [] ↔ (shareTfileToPeers data).SendsSucceed meets thread :=
    Locker.sendTfile_eq_nil_iff data _ 0
  have runs : (shareTfileToPeers data).run meets thread =
      Locker.removePeers meets sends.1 sends.2 >>= Locker.unlock := by
    simp only [run, Locker.shareTfileToPeers, Locker.lock_of_free free]
    rfl
  rw [Locker.removePeers_of_held isHeld] at runs
  rw [← nothing]
  by_cases empty : sends.1 = []
  · rw [if_pos empty] at runs
    exact iff_of_true (locksOnce_of_ok (runs.trans (Locker.unlock_of_held isHeld)) rfl) empty
  · rw [if_neg empty] at runs
    exact iff_of_false (not_locksOnce runs) empty

/-- **The lock is taken once.** A call of a thread without the lock locks it only while
it does not hold it, and ends without it, exactly if no definition that it shares fails to
be sent. -/
theorem locksOnce_iff (call : PeersCall) (free : thread.held = false) :
    call.LocksOnce meets thread ↔ call.SendsSucceed meets thread := by
  cases call with
  | shareTfilesToPeer data => exact shareTfilesToPeer_locksOnce_iff data free
  | shareTfileToPeers data => exact shareTfileToPeers_locksOnce_iff data free
  | removePeers peersToRemove =>
      exact iff_of_true (locksOnce_of_frees (Locker.frees_removePeers peersToRemove) free) trivial
  | addPeer before peer =>
      exact iff_of_true (locksOnce_of_frees (Locker.frees_addPeer before peer) free) trivial
  | removePeer peer =>
      exact iff_of_true (locksOnce_of_frees (Locker.frees_removePeer peer) free) trivial
  | relayRequest fdData req =>
      exact iff_of_true (locksOnce_of_frees (Locker.frees_relayRequest fdData req) free) trivial
  | requestLoop fileHash tempPort rounds =>
      exact iff_of_true
        (locksOnce_of_frees (Locker.frees_requestLoop fileHash tempPort rounds) free) trivial

/-- Three peers, none of which has gone away. -/
def threePeers (rc : Nat → Int) : Meets where
  found _ := { Peers.init with arr := [4, 5, 6] }
  rc := rc

/-- A definition received from one of three peers is shared with the two others. -/
theorem locksOnce_shared :
    Locker.init.held = false ∧
    (shareTfileToPeers ⟨.zero, 5⟩).LocksOnce (threePeers fun _ => 0) .init :=
  ⟨rfl, (locksOnce_iff _ rfl).mpr fun _ _ => rfl⟩

/-- The second of them has gone away: the worker locks the mutex that it holds. -/
theorem locksOnce_dead_fails :
    Locker.init.held = false ∧
    (shareTfileToPeers ⟨.zero, 5⟩).run (threePeers fun n => if n = 1 then -1 else 0) .init =
      .error .relocked ∧
    ¬(shareTfileToPeers ⟨.zero, 5⟩).LocksOnce
      (threePeers fun n => if n = 1 then -1 else 0) .init :=
  ⟨rfl, rfl, not_locksOnce rfl⟩

end PeersCall

end Grintorrent
