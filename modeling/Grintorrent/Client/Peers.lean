import Grintorrent.Types
import Grintorrent.Message.Senders

/-!
# The peer list

`peers_t` of `client.h` with `add_peer` and `remove_peer`, and the descriptors that
`share_tfile_to_peers` sends to.  `capacity` keeps its initial value when the array
is reallocated, as in the source, so the array never has more than `capacity * 2`
slots.  The records at the end are what the threads of a client are started with.
-/

namespace Grintorrent

/-- `NO_SENDER_PEER`. -/
def noSenderPeer : Fd := -1

/-- `peers_t`.  `arr` is the first `size` elements of the array and `slots` the
number of elements allocated for it. -/
structure Peers where
  capacity : Nat
  slots : Nat
  arr : List Fd
  deriving DecidableEq

namespace Peers

/-- The peer list when `main` starts. -/
def init : Peers where
  capacity := 100
  slots := 100
  arr := []

/-- The slots in which `add_peer` looks for the next one. -/
def slotsToAdd (peers : Peers) : Nat :=
  if peers.arr.length ≥ peers.capacity then peers.capacity * 2 else peers.slots

end Peers

/-- `add_peer`.  Memory is taken to be available. -/
def addPeer (peers : Peers) (peer : Fd) : Result Peers :=
  if peers.arr.length < peers.slotsToAdd then
    .ok { peers with slots := peers.slotsToAdd, arr := peers.arr ++ [peer] }
  else .error .outOfRange

namespace Peers

variable {peers after : Peers} {peer : Fd}

theorem addPeer_eq_ok :
    addPeer peers peer = .ok after ↔
      peers.arr.length < peers.slotsToAdd ∧
      after = { peers with slots := peers.slotsToAdd, arr := peers.arr ++ [peer] } := by
  unfold addPeer
  split
  next inside => simp [inside, eq_comm]
  next outside => simp [outside]

/-- The list that the run goes on with after `add_peer`.  A write past the
allocated slots has no defined result; among the runs considered is the one in
which the peer is listed all the same. -/
def added (peers : Peers) (peer : Fd) : Peers :=
  match addPeer peers peer with
  | .ok after => after
  | .error _ => { peers with slots := peers.slotsToAdd, arr := peers.arr ++ [peer] }

@[simp] theorem added_arr (peers : Peers) (peer : Fd) :
    (peers.added peer).arr = peers.arr ++ [peer] := by
  unfold added
  split
  next after completes =>
      rw [(addPeer_eq_ok.mp completes).2]
  next => rfl

end Peers

/-- `remove_peer`: the last element takes the place of the first match. -/
def removePeer (peers : Peers) (peer : Fd) : Peers :=
  if peer ∈ peers.arr then
    { peers with
      arr := (peers.arr.set (peers.arr.idxOf peer) (peers.arr.getLastD peer)).dropLast }
  else peers

namespace Peers

variable {peers : Peers} {peer sender fd : Fd}

/-- Putting the last element in the place of a match is erasing the match, up to
order. -/
theorem set_idxOf_perm {front : List Fd} (last : Fd) (member : peer ∈ front) :
    (front.set (front.idxOf peer) last).Perm (front.erase peer ++ [last]) := by
  induction front with
  | nil => simp at member
  | cons head front ih =>
      by_cases found : head = peer
      · subst found
        simpa using (List.perm_append_singleton last front).symm
      · have later : peer ∈ front := by
          simpa [Ne.symm found] using member
        rw [List.idxOf_cons_ne _ found, List.set_cons_succ,
          List.erase_cons_tail (by simpa using found)]
        exact (ih later).cons head

theorem removePeer_perm (peers : Peers) (peer : Fd) :
    (removePeer peers peer).arr.Perm (peers.arr.erase peer) := by
  unfold removePeer
  split
  next member =>
      rcases List.eq_nil_or_concat peers.arr with empty | ⟨front, last, split⟩
      · simp [empty] at member
      · rw [List.concat_eq_append] at split
        simp only [split, List.getLastD_concat]
        by_cases early : peer ∈ front
        · rw [List.idxOf_append_of_mem early,
            List.set_append_left _ _ (List.idxOf_lt_length_of_mem early),
            List.dropLast_concat, List.erase_append_left _ early]
          exact set_idxOf_perm last early
        · have atEnd : last = peer := by
            rw [split] at member
            simpa [early, eq_comm] using member
          rw [List.idxOf_append_of_notMem early, List.erase_append_right _ early, atEnd]
          simp
  next absent => rw [List.erase_of_not_mem absent]

@[simp] theorem removePeer_capacity (peers : Peers) (peer : Fd) :
    (removePeer peers peer).capacity = peers.capacity := by
  unfold removePeer
  split <;> rfl

@[simp] theorem removePeer_slots (peers : Peers) (peer : Fd) :
    (removePeer peers peer).slots = peers.slots := by
  unfold removePeer
  split <;> rfl

/-- The descriptors to which `share_tfile_to_peers` sends: all but the sender's. -/
def recipients (peers : Peers) (sender : Fd) : List Fd :=
  peers.arr.filter fun fd => !(fd == sender)

@[simp] theorem mem_recipients :
    fd ∈ peers.recipients sender ↔ fd ∈ peers.arr ∧ fd ≠ sender := by
  simp [recipients]

end Peers

/-- `send_tfile_t`: what `share_tfile_to_peers` was started with. -/
structure SendTfile where
  tfile : TfileDef
  sender : Fd
  deriving DecidableEq

/-- `send_tfiles_t`: what `share_tfiles_to_peer` was started with. -/
structure SendTfiles where
  tfileArr : List TfileDef
  peer : Fd
  deriving DecidableEq

/-- `client_server_t`. -/
structure ClientServer where
  serverFd : Fd
  clientFd : Fd
  deriving DecidableEq

/-- What `readWorker` loads from its argument.  `main` and `connectWorker` pass the
address of one `int`, which holds the descriptor of the connection; `behind` is
whatever `int` lies behind it in memory. -/
def ClientServer.load (fd behind : Fd) : ClientServer where
  serverFd := fd
  clientFd := behind

end Grintorrent
