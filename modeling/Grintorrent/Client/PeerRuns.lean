import Grintorrent.Client.Peers
import Mathlib.Data.Multiset.AddSub

/-!
# The peer list over runs

What the peer list is for is a multiset of descriptors: `add_peer` puts one in and
`remove_peer` takes one out.  The array keeps to it in whatever order its elements are,
as long as it has room.  `add_peer` never updates `capacity`, so there is room for two
hundred peers and no more.
-/

namespace Grintorrent

/-- A call that changes the peer list. -/
inductive PeersOp where
  | add (peer : Fd)
  | remove (peer : Fd)

namespace PeersOp

/-- Run the call. -/
def call (peers : Peers) : PeersOp → Result Peers
  | .add peer => addPeer peers peer
  | .remove peer => .ok (removePeer peers peer)

/-- The effect of the call on the peers that are present. -/
def apply (present : Multiset Fd) : PeersOp → Multiset Fd
  | .add peer => peer ::ₘ present
  | .remove peer => present.erase peer

end PeersOp

/-- The peers that were added and not removed. -/
def presentAfter (ops : List PeersOp) : Multiset Fd :=
  ops.foldl PeersOp.apply 0

@[simp] theorem presentAfter_snoc (ops : List PeersOp) (op : PeersOp) :
    presentAfter (ops ++ [op]) = op.apply (presentAfter ops) := by
  simp [presentAfter]

/-- At most two hundred peers are present at once. -/
def AtMost200 (ops : List PeersOp) : Prop :=
  ∀ earlier, earlier <+: ops → (presentAfter earlier).card ≤ 200

theorem card_presentAfter_le (ops : List PeersOp) : (presentAfter ops).card ≤ ops.length := by
  induction ops using List.reverseRecOn with
  | nil => simp [presentAfter]
  | append_singleton ops op ih =>
      rw [presentAfter_snoc, List.length_append, List.length_singleton]
      cases op with
      | add peer =>
          rw [PeersOp.apply, Multiset.card_cons]
          omega
      | remove peer => exact (Multiset.card_erase_le.trans ih).trans (Nat.le_succ _)

theorem card_presentAfter_add (fds : List Fd) :
    (presentAfter (fds.map PeersOp.add)).card = fds.length := by
  induction fds using List.reverseRecOn with
  | nil => rfl
  | append_singleton fds fd ih =>
      rw [List.map_append, List.map_singleton, presentAfter_snoc, PeersOp.apply,
        Multiset.card_cons, ih, List.length_append, List.length_singleton]

theorem AtMost200.of_length {ops : List PeersOp} (short : ops.length ≤ 200) : AtMost200 ops :=
  fun earlier isPrefix =>
    (card_presentAfter_le earlier).trans (isPrefix.length_le.trans short)

theorem AtMost200.init {ops : List PeersOp} {op : PeersOp} (few : AtMost200 (ops ++ [op])) :
    AtMost200 ops :=
  fun earlier isPrefix => few earlier (isPrefix.trans (List.prefix_append ops [op]))

namespace Peers

/-- The calls one after another. -/
def callAll (ops : List PeersOp) (peers : Peers) : Result Peers :=
  ops.foldlM PeersOp.call peers

variable {ops : List PeersOp} {op : PeersOp} {peers after : Peers} {present : Multiset Fd}

theorem callAll_append_eq_ok {later : List PeersOp} :
    peers.callAll (ops ++ later) = .ok after ↔
      ∃ before, peers.callAll ops = .ok before ∧ before.callAll later = .ok after := by
  rw [callAll, List.foldlM_append, Result.bind_eq_ok]
  rfl

@[simp] theorem callAll_singleton : peers.callAll [op] = op.call peers := by
  cases called : op.call peers <;> simp [callAll, called]

/-- What holds between the calls: the array has its first or its second length, and its
elements are the peers that are present. -/
structure Held (peers : Peers) (present : Multiset Fd) : Prop where
  capacity : peers.capacity = 100
  slots : peers.slots = 100 ∨ peers.slots = 200
  elements : (peers.arr : Multiset Fd) = present

namespace Held

theorem init : Held .init 0 where
  capacity := rfl
  slots := .inl rfl
  elements := rfl

theorem length (held : Held peers present) : peers.arr.length = present.card := by
  rw [← held.elements, Multiset.coe_card]

theorem inside_iff (held : Held peers present) :
    peers.arr.length < peers.slotsToAdd ↔ present.card < 200 := by
  have slots := held.slots
  unfold slotsToAdd
  rw [held.capacity, ← held.length]
  split <;> omega

/-- One completed call does to the array what it does to the peers that are present. -/
theorem call (held : Held peers present) (completes : op.call peers = .ok after) :
    Held after (op.apply present) := by
  cases op with
  | add peer =>
      obtain ⟨_, rfl⟩ := addPeer_eq_ok.mp completes
      refine ⟨held.capacity, ?_, ?_⟩
      · have slots := held.slots
        have capacity := held.capacity
        simp only [slotsToAdd]
        split <;> omega
      · have moved : ((peers.arr ++ [peer] : List Fd) : Multiset Fd) = ↑(peer :: peers.arr) :=
          Multiset.coe_eq_coe.mpr (List.perm_append_singleton peer peers.arr)
        simp only [PeersOp.apply, ← held.elements]
        exact moved
  | remove peer =>
      cases completes
      refine ⟨?_, ?_, ?_⟩
      · rw [removePeer_capacity, held.capacity]
      · rw [removePeer_slots]
        exact held.slots
      · have erased := Multiset.coe_eq_coe.mpr (removePeer_perm peers peer)
        rw [erased, ← Multiset.coe_erase, held.elements]
        rfl

/-- A call completes exactly if at most two hundred peers are present after it. -/
theorem completes_iff (held : Held peers present) (few : present.card ≤ 200) :
    (∃ after, op.call peers = .ok after) ↔ (op.apply present).card ≤ 200 := by
  cases op with
  | add peer =>
      have inside := held.inside_iff
      simp only [PeersOp.call, addPeer_eq_ok, exists_and_left, exists_eq, and_true, inside,
        PeersOp.apply, Multiset.card_cons]
      omega
  | remove peer =>
      have fewer := Multiset.card_erase_le (s := present) (a := peer)
      simp only [PeersOp.call, Except.ok.injEq, exists_eq', PeersOp.apply, true_iff]
      omega

end Held

/-- Calls that all complete leave the peers that are present in the array, two hundred at
most. -/
theorem held_of_callAll (completes : Peers.init.callAll ops = .ok after) :
    Held after (presentAfter ops) ∧ (presentAfter ops).card ≤ 200 := by
  induction ops using List.reverseRecOn generalizing after with
  | nil =>
      cases completes
      exact ⟨Held.init, by simp [presentAfter]⟩
  | append_singleton ops op ih =>
      obtain ⟨before, earlier, called⟩ := callAll_append_eq_ok.mp completes
      rw [callAll_singleton] at called
      obtain ⟨held, few⟩ := ih earlier
      rw [presentAfter_snoc]
      exact ⟨held.call called, (held.completes_iff few).mp ⟨after, called⟩⟩

theorem exists_callAll (few : AtMost200 ops) : ∃ after, Peers.init.callAll ops = .ok after := by
  induction ops using List.reverseRecOn with
  | nil => exact ⟨_, rfl⟩
  | append_singleton ops op ih =>
      obtain ⟨before, earlier⟩ := ih few.init
      obtain ⟨held, fewBefore⟩ := held_of_callAll earlier
      have fewAfter := few (ops ++ [op]) (List.prefix_refl _)
      rw [presentAfter_snoc] at fewAfter
      obtain ⟨after, called⟩ := (held.completes_iff fewBefore).mpr fewAfter
      refine ⟨after, callAll_append_eq_ok.mpr ⟨before, earlier, ?_⟩⟩
      rw [callAll_singleton]
      exact called

end Peers

/-- **The peer array overflows exactly at the two hundred and first peer.**  A sequence of
calls writes inside the array throughout exactly if at most two hundred peers are present
at once. -/
theorem peers_inside_iff (ops : List PeersOp) :
    (∃ after, Peers.init.callAll ops = .ok after) ↔ AtMost200 ops := by
  constructor
  · rintro ⟨after, completes⟩ earlier ⟨later, split⟩
    rw [← split] at completes
    obtain ⟨before, completed, _⟩ := Peers.callAll_append_eq_ok.mp completes
    exact (Peers.held_of_callAll completed).2
  · exact Peers.exists_callAll

/-- Two hundred and one peers, none of them removed. -/
def manyPeers : List PeersOp := (List.range 201).map fun number : Nat => .add (number + 4)

/-- The last of them is written behind the array. -/
theorem manyPeers_outside : Peers.init.callAll manyPeers = .error .outOfRange := by
  set fds := (List.range 200).map fun number : Nat => (number + 4 : Fd)
  have many : manyPeers = fds.map .add ++ [.add 204] := by
    rw [manyPeers, show 201 = 200 + 1 from rfl, List.range_succ, List.map_append, List.map_map]
    rfl
  have count : fds.length = 200 := by simp [fds]
  obtain ⟨before, completes⟩ := Peers.exists_callAll
    (.of_length (show (fds.map PeersOp.add).length ≤ 200 by simp [count]))
  have held := (Peers.held_of_callAll completes).1
  have full : ¬before.arr.length < before.slotsToAdd := by
    rw [held.inside_iff, card_presentAfter_add, count]
    omega
  rw [many, Peers.callAll, List.foldlM_append]
  rw [Peers.callAll] at completes
  simp [completes, PeersOp.call, addPeer, full]

/-- **The peer array refines a multiset.**  While at most two hundred peers are present,
all calls complete and the elements of the array are the peers that were added and not
removed. -/
theorem peers_refine_multiset (ops : List PeersOp) (few : AtMost200 ops) :
    ∃ after, Peers.init.callAll ops = .ok after ∧
      (after.arr : Multiset Fd) = presentAfter ops := by
  obtain ⟨after, completes⟩ := Peers.exists_callAll few
  exact ⟨after, completes, (Peers.held_of_callAll completes).1.elements⟩

/-- Descriptor 5 is added twice and removed once, descriptor 7 is not there to remove. -/
theorem peers_refine_multiset_pair :
    ∃ after, Peers.init.callAll [.add 5, .add 5, .remove 5, .remove 7] = .ok after ∧
      (after.arr : Multiset Fd) = {5} := by
  refine peers_refine_multiset [.add 5, .add 5, .remove 5, .remove 7] ?_
  have few : ∀ earlier ∈ [PeersOp.add 5, .add 5, .remove 5, .remove 7].inits,
      (presentAfter earlier).card ≤ 200 := by decide
  intro earlier isPrefix
  exact few earlier ((List.mem_inits _ _).mpr isPrefix)

end Grintorrent
