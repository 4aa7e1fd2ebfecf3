import Grintorrent.Client.Peers
import Grintorrent.Lib.Runs

/-!
# The peer list and the connections

Connections are accepted by `connectWorker` or made by `main`, each with `add_peer`
and a `readWorker` of its own, and a `readWorker` that cannot read from its
connection calls `remove_peer` and ends.  Each of these calls is taken as one step, and
the steps of different connections come in any order: `remove_peer` holds `peers.lock`
throughout, `add_peer` all but its test of `size` against `max_size`, which comes before it
locks.  No descriptor of a connection is ever closed: a new one differs from all earlier ones.
-/

namespace Grintorrent

open Relation

/-- The connections of a client.  `readers` is what the `readWorker`s that have not
ended loaded from their arguments, and `opened` the descriptors of all connections so
far. -/
structure Links where
  peers : Result Peers
  readers : List ClientServer
  opened : List Fd

/-- What can happen to the connections. -/
inductive LinkEvent where
  /-- A connection is made, and `readWorker` started with a pointer to its descriptor,
  behind which another `int` lies. -/
  | opened (fd behind : Fd)
  /-- `accept` fails. -/
  | refused
  /-- A `readWorker` fails to read and ends. -/
  | ended (reader : ClientServer)

namespace Links

variable {links : Links} {event : LinkEvent} {fd behind : Fd} {reader : ClientServer}

/-- The connections when `main` starts. -/
def init : Links where
  peers := .ok .init
  readers := []
  opened := []

/-- The event can happen next. -/
def Possible (links : Links) : LinkEvent → Prop
  | .opened fd _ => 0 ≤ fd ∧ fd ∉ links.opened
  | .refused => True
  | .ended reader => reader ∈ links.readers

/-- The connections after the event.  `connectWorker` calls `remove_peer` with the
failed result of `accept`. -/
def next (links : Links) : LinkEvent → Links
  | .opened fd behind =>
      { peers := links.peers >>= fun peers => addPeer peers fd
        readers := .load fd behind :: links.readers
        opened := fd :: links.opened }
  | .refused =>
      { links with peers := links.peers.map fun peers => removePeer peers (-1) }
  | .ended reader =>
      { links with
        peers := links.peers.map fun peers => removePeer peers reader.clientFd
        readers := links.readers.erase reader }

/-- The peer list holds the descriptors of the connections whose `readWorker` has not
ended, each once. -/
def Live (links : Links) : Prop :=
  ∃ peers, links.peers = .ok peers ∧ peers.arr.Nodup ∧
    ∀ fd, fd ∈ peers.arr ↔ ∃ reader ∈ links.readers, reader.serverFd = fd

/-- No more than `2 * 100` connections, and a `readWorker` that ends has found the
descriptor of its connection in both fields of its argument. -/
def Sound (links : Links) : LinkEvent → Prop
  | .opened _ _ => links.readers.length < 200
  | .refused => True
  | .ended reader => reader.clientFd = reader.serverFd

/-- A possible event that is sound. -/
def SoundStep (links after : Links) : Prop :=
  ∃ event, links.Possible event ∧ links.Sound event ∧ after = links.next event

/-- The peer list lists the connections that are read from, in some order. -/
structure Listed (links : Links) (peers : Peers) : Prop where
  peers_eq : links.peers = .ok peers
  perm : peers.arr.Perm (links.readers.map ClientServer.serverFd)
  nodup : (links.readers.map ClientServer.serverFd).Nodup
  opened : ∀ reader ∈ links.readers, reader.serverFd ∈ links.opened
  nonneg : ∀ reader ∈ links.readers, 0 ≤ reader.serverFd
  capacity : peers.capacity = 100
  slots : 100 ≤ peers.slots

variable {peers : Peers}

theorem listed_init : Listed init .init where
  peers_eq := rfl
  perm := .nil
  nodup := .nil
  opened := by simp [init]
  nonneg := by simp [init]
  capacity := rfl
  slots := le_refl _

theorem Listed.mem_arr (listed : Listed links peers) :
    fd ∈ peers.arr ↔ ∃ reader ∈ links.readers, reader.serverFd = fd := by
  rw [listed.perm.mem_iff, List.mem_map]

theorem Listed.live (listed : Listed links peers) : links.Live :=
  ⟨peers, listed.peers_eq, listed.perm.nodup_iff.mpr listed.nodup, fun _ => listed.mem_arr⟩

theorem Listed.length_arr (listed : Listed links peers) :
    peers.arr.length = links.readers.length := by
  rw [listed.perm.length_eq, List.length_map]

theorem Listed.slotsToAdd (listed : Listed links peers) :
    peers.arr.length < peers.slotsToAdd ↔ links.readers.length < 200 := by
  have slots := listed.slots
  unfold Peers.slotsToAdd
  rw [listed.capacity, listed.length_arr]
  split
  next => rfl
  next few => omega

/-- `remove_peer` with the descriptor of no connection changes nothing. -/
theorem Listed.removePeer_absent (listed : Listed links peers)
    (absent : ∀ reader ∈ links.readers, reader.serverFd ≠ fd) :
    removePeer peers fd = peers := by
  unfold removePeer
  rw [if_neg]
  rw [listed.mem_arr]
  rintro ⟨reader, member, equal⟩
  exact absent reader member equal

theorem map_perm_cons (member : reader ∈ links.readers) :
    (links.readers.map ClientServer.serverFd).Perm
      (reader.serverFd :: (links.readers.erase reader).map ClientServer.serverFd) :=
  (List.perm_cons_erase member).map ClientServer.serverFd

theorem Listed.serverFd_notMem_erase (listed : Listed links peers)
    (member : reader ∈ links.readers) :
    reader.serverFd ∉ (links.readers.erase reader).map ClientServer.serverFd := by
  have nodup := (map_perm_cons member).nodup_iff.mp listed.nodup
  exact (List.nodup_cons.mp nodup).1

theorem Listed.opened_step (listed : Listed links peers)
    (possible : links.Possible (.opened fd behind)) (room : links.readers.length < 200) :
    Listed (links.next (.opened fd behind))
      { peers with slots := peers.slotsToAdd, arr := peers.arr ++ [fd] } where
  peers_eq := by
    simp only [next, listed.peers_eq, Result.ok_bind]
    exact Peers.addPeer_eq_ok.mpr ⟨listed.slotsToAdd.mpr room, rfl⟩
  perm := by
    apply (List.perm_append_singleton fd peers.arr).trans
    exact listed.perm.cons fd
  nodup := by
    apply List.nodup_cons.mpr
    constructor
    · intro member
      obtain ⟨reader, reads, equal⟩ := List.mem_map.mp member
      apply possible.2
      rw [show fd = reader.serverFd from equal.symm]
      exact listed.opened reader reads
    · exact listed.nodup
  opened := by
    intro reader member
    rcases List.mem_cons.mp member with new | old
    · rw [new]
      exact List.mem_cons_self
    · exact List.mem_cons_of_mem _ (listed.opened reader old)
  nonneg := by
    intro reader member
    rcases List.mem_cons.mp member with new | old
    · rw [new]
      exact possible.1
    · exact listed.nonneg reader old
  capacity := listed.capacity
  slots := by
    have slots := listed.slots
    have capacity := listed.capacity
    simp only [Peers.slotsToAdd]
    split <;> omega

theorem Listed.refused_step (listed : Listed links peers) :
    Listed (links.next .refused) peers where
  peers_eq := by
    simp only [next, listed.peers_eq, Except.map]
    rw [listed.removePeer_absent]
    intro reader member equal
    have nonneg := listed.nonneg reader member
    rw [equal] at nonneg
    exact absurd nonneg (by decide)
  perm := listed.perm
  nodup := listed.nodup
  opened := listed.opened
  nonneg := listed.nonneg
  capacity := listed.capacity
  slots := listed.slots

theorem Listed.ended_step (listed : Listed links peers) (member : reader ∈ links.readers)
    (same : reader.clientFd = reader.serverFd) :
    Listed (links.next (.ended reader)) (removePeer peers reader.clientFd) where
  peers_eq := by
    simp only [next, listed.peers_eq, Except.map]
  perm := by
    apply (Peers.removePeer_perm peers reader.clientFd).trans
    rw [same]
    have erased := (listed.perm.trans (map_perm_cons member)).erase reader.serverFd
    rwa [List.erase_cons_head] at erased
  nodup := by
    have nodup := (map_perm_cons member).nodup_iff.mp listed.nodup
    exact (List.nodup_cons.mp nodup).2
  opened := fun other remains => listed.opened other (List.mem_of_mem_erase remains)
  nonneg := fun other remains => listed.nonneg other (List.mem_of_mem_erase remains)
  capacity := by rw [Peers.removePeer_capacity, listed.capacity]
  slots := by rw [Peers.removePeer_slots]; exact listed.slots

theorem Listed.step (listed : Listed links peers) (possible : links.Possible event)
    (sound : links.Sound event) : ∃ after, Listed (links.next event) after := by
  cases event with
  | opened fd behind => exact ⟨_, listed.opened_step possible sound⟩
  | refused => exact ⟨_, listed.refused_step⟩
  | ended reader => exact ⟨_, listed.ended_step possible sound⟩

theorem listed_run (run : ReflTransGen SoundStep init links) :
    ∃ peers, Listed links peers := by
  refine @Lib.invariant_run _ _ _ _ (fun links => ∃ peers, Listed links peers) ?_ run
    ⟨_, listed_init⟩
  rintro links after ⟨peers, listed⟩ ⟨event, possible, sound, rfl⟩
  exact listed.step possible sound

/-- A connection beyond `2 * 100` is written outside the array. -/
theorem Listed.opened_full (listed : Listed links peers) (full : ¬links.readers.length < 200) :
    ¬(links.next (.opened fd behind)).Live := by
  rintro ⟨after, completes, -⟩
  simp only [next, listed.peers_eq, Result.ok_bind] at completes
  exact full (listed.slotsToAdd.mp (Peers.addPeer_eq_ok.mp completes).1)

/-- A `readWorker` that removes another descriptor leaves its own in the list. -/
theorem Listed.ended_other (listed : Listed links peers) (member : reader ∈ links.readers)
    (other : reader.clientFd ≠ reader.serverFd) :
    ¬(links.next (.ended reader)).Live := by
  rintro ⟨after, completes, -, lists⟩
  simp only [next, listed.peers_eq, Except.map, Except.ok.injEq] at completes
  have present : reader.serverFd ∈ peers.arr := listed.mem_arr.mpr ⟨reader, member, rfl⟩
  have stays : reader.serverFd ∈ after.arr := by
    rw [← completes, (Peers.removePeer_perm _ _).mem_iff]
    exact (List.mem_erase_of_ne (Ne.symm other)).mpr present
  obtain ⟨remaining, reads, equal⟩ := (lists _).mp stays
  apply listed.serverFd_notMem_erase member
  rw [← equal]
  exact List.mem_map_of_mem reads

theorem Listed.sound_of_live (listed : Listed links peers) (possible : links.Possible event)
    (live : (links.next event).Live) : links.Sound event := by
  cases event with
  | opened fd behind =>
      apply Classical.byContradiction
      intro full
      exact listed.opened_full full live
  | refused => trivial
  | ended reader =>
      apply Classical.byContradiction
      intro other
      exact listed.ended_other possible other live

/-- While the steps are sound the peer list holds the live connections, and the first
step that is not sound makes it wrong. -/
theorem sound_run_live (run : ReflTransGen SoundStep init links) :
    links.Live ∧
      ∀ event, links.Possible event → ((links.next event).Live ↔ links.Sound event) := by
  obtain ⟨peers, listed⟩ := listed_run run
  constructor
  · exact listed.live
  · intro event possible
    constructor
    · exact listed.sound_of_live possible
    · intro sound
      obtain ⟨after, listedAfter⟩ := listed.step possible sound
      exact listedAfter.live

/-- A connection under descriptor 4, with 4 again behind the argument, that ends. -/
theorem sound_run_live_once :
    ((init.next (.opened 4 4)).next (.ended ⟨4, 4⟩)).Live := by
  have accepted : ReflTransGen SoundStep init (init.next (.opened 4 4)) := by
    apply ReflTransGen.single
    exact ⟨.opened 4 4, ⟨by decide, by decide⟩, by show 0 < 200; decide, rfl⟩
  exact ((sound_run_live accepted).2 (.ended ⟨4, 4⟩) List.mem_cons_self).mpr rfl

/-- A connection is accepted under descriptor 4, zero lies behind the argument of its
`readWorker`, and the peer closes it: descriptor 4 stays in the list. -/
theorem stale_peer :
    init.Possible (.opened 4 0) ∧
      (init.next (.opened 4 0)).Possible (.ended ⟨4, 0⟩) ∧
      ¬((init.next (.opened 4 0)).next (.ended ⟨4, 0⟩)).Live := by
  refine ⟨⟨by decide, by decide⟩, List.mem_cons_self, ?_⟩
  rintro ⟨peers, completes, -, lists⟩
  have stays : (4 : Fd) ∈ peers.arr := by
    cases completes
    decide
  obtain ⟨reader, reads, -⟩ := (lists 4).mp stays
  exact absurd reads (by simp [next, init, ClientServer.load])

end Links

end Grintorrent
