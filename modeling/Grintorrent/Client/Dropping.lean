import Grintorrent.Client.Locking
import Mathlib.Data.Finset.Card

/-!
# Dropping the peers that a definition could not be sent to

`share_tfile_to_peers` collects the peers whose send failed and gives them to
`remove_peers` when the loop is over.  What it collects are their indexes in the array,
and `remove_peers` takes them for descriptors.  The locks are left aside here.
-/

namespace Grintorrent

/-- `share_tfile_to_peers` without the locks. -/
def shareUnlocked (meets : Meets) (data : SendTfile) (thread : Locker) (peers : Peers) :
    Peers :=
  (Locker.sendTfile meets data peers.arr 0 thread).1.foldl removePeer peers

/-- What `send_message` returns for the peer at an index, if it is called for it.  The
thread has sent `sent` messages before. -/
def sendResult (meets : Meets) (data : SendTfile) (sent : Nat) (arr : List Fd) (i : Nat) :
    Option Int :=
  match arr[i]? with
  | none => none
  | some fd =>
      if fd = data.sender then none
      else some (meets.rc (sent + (arr.take i).countP fun before => before ≠ data.sender))

/-- The send to the peer at an index failed. -/
def FailedAt (meets : Meets) (data : SendTfile) (sent : Nat) (arr : List Fd) (i : Nat) :
    Prop :=
  ∃ rc, sendResult meets data sent arr i = some rc ∧ rc ≠ 0

/-- The peers left are those to which no send failed. -/
def DropsFailed (meets : Meets) (data : SendTfile) (thread : Locker) (peers : Peers) :
    Prop :=
  (shareUnlocked meets data thread peers).arr.Nodup ∧
    ∀ fd, fd ∈ (shareUnlocked meets data thread peers).arr ↔
      fd ∈ peers.arr ∧
        ¬∃ i, FailedAt meets data thread.sent.length peers.arr i ∧ peers.arr[i]? = some fd

section Dropping

variable {meets : Meets} {data : SendTfile} {sent i : Nat} {fd : Fd} {arr : List Fd}

theorem failedAt_zero :
    FailedAt meets data sent (fd :: arr) 0 ↔ fd ≠ data.sender ∧ meets.rc sent ≠ 0 := by
  by_cases isSender : fd = data.sender
  · simp [FailedAt, sendResult, isSender]
  · simp [FailedAt, sendResult, isSender]

theorem failedAt_succ :
    FailedAt meets data sent (fd :: arr) (i + 1) ↔
      FailedAt meets data (if fd = data.sender then sent else sent + 1) arr i := by
  by_cases isSender : fd = data.sender
  · simp [FailedAt, sendResult, isSender]
  · simp [FailedAt, sendResult, isSender, Nat.add_assoc, Nat.add_comm 1]

theorem FailedAt.lookup (failed : FailedAt meets data sent arr i) :
    ∃ fd, arr[i]? = some fd := by
  obtain ⟨rc, result, _⟩ := failed
  unfold sendResult at result
  split at result
  next => simp at result
  next fd lookup => exact ⟨fd, lookup⟩

theorem mem_sendTfile (meets : Meets) (data : SendTfile) (arr : List Fd) (start : Nat)
    (thread : Locker) (entry : Fd) :
    entry ∈ (Locker.sendTfile meets data arr start thread).1 ↔
      ∃ i : Nat, FailedAt meets data thread.sent.length arr i ∧ entry = (start + i : Nat) := by
  induction arr generalizing start thread with
  | nil => simp [Locker.sendTfile, FailedAt, sendResult]
  | cons fd arr ih =>
      have split : (∃ i : Nat, FailedAt meets data thread.sent.length (fd :: arr) i ∧
            entry = (start + i : Nat)) ↔
          (FailedAt meets data thread.sent.length (fd :: arr) 0 ∧ entry = (start : Nat)) ∨
          ∃ i : Nat, FailedAt meets data thread.sent.length (fd :: arr) (i + 1) ∧
            entry = (start + 1 + i : Nat) := by
        constructor
        · rintro ⟨i, failed, isEntry⟩
          cases i with
          | zero => exact .inl ⟨failed, isEntry⟩
          | succ i =>
              refine .inr ⟨i, failed, ?_⟩
              rw [isEntry, Nat.add_assoc, Nat.add_comm 1]
        · rintro (⟨failed, isEntry⟩ | ⟨i, failed, isEntry⟩)
          · exact ⟨0, failed, isEntry⟩
          · refine ⟨i + 1, failed, ?_⟩
            rw [isEntry, Nat.add_assoc, Nat.add_comm 1]
      rw [split]
      simp only [failedAt_zero, failedAt_succ]
      unfold Locker.sendTfile
      by_cases isSender : fd = data.sender
      · rw [if_pos isSender, ih]
        simp [isSender]
      · have counted : (thread.send meets fd (.tfile data.tfile)).2.sent.length =
            thread.sent.length + 1 := by
          simp [Locker.send]
        have rest := ih (start + 1) (thread.send meets fd (.tfile data.tfile)).2
        rw [counted] at rest
        simp only [if_neg isSender]
        rw [← rest]
        by_cases failed : (thread.send meets fd (.tfile data.tfile)).1 = 0
        · have succeeded : meets.rc thread.sent.length = 0 := failed
          simp [failed, succeeded]
        · have fails : meets.rc thread.sent.length ≠ 0 := failed
          simp [failed, fails, isSender]

/-- In a list of distinct descriptors, removing some leaves the others. -/
theorem mem_foldl_removePeer (fds : List Fd) {peers : Peers} (distinct : peers.arr.Nodup) :
    (fds.foldl removePeer peers).arr.Nodup ∧
      ∀ fd, fd ∈ (fds.foldl removePeer peers).arr ↔ fd ∈ peers.arr ∧ fd ∉ fds := by
  induction fds generalizing peers with
  | nil => simp [distinct]
  | cons gone fds ih =>
      have perm := Peers.removePeer_perm peers gone
      have stays : (removePeer peers gone).arr.Nodup :=
        perm.nodup_iff.mpr (distinct.erase gone)
      obtain ⟨nodup, member⟩ := ih stays
      refine ⟨nodup, fun fd => ?_⟩
      rw [List.foldl_cons, member, perm.mem_iff, distinct.mem_erase_iff, List.mem_cons]
      tauto

/-- Where distinct descriptors are each the index of a failed send, every failed index is
such a descriptor. -/
theorem failed_indexes_of_subset (distinct : arr.Nodup)
    (subset : ∀ fd, (∃ i, FailedAt meets data sent arr i ∧ arr[i]? = some fd) →
      ∃ i : Nat, FailedAt meets data sent arr i ∧ fd = (i : Fd)) :
    ∀ fd, (∃ i : Nat, FailedAt meets data sent arr i ∧ fd = (i : Fd)) →
      ∃ i, FailedAt meets data sent arr i ∧ arr[i]? = some fd := by
  classical
  set failed := (Finset.range arr.length).filter fun i => FailedAt meets data sent arr i
  have mem_failed : ∀ i, i ∈ failed ↔ FailedAt meets data sent arr i := by
    intro i
    rw [Finset.mem_filter, Finset.mem_range, and_iff_right_iff_imp]
    intro fails
    obtain ⟨fd, lookup⟩ := fails.lookup
    exact (List.getElem?_eq_some_iff.mp lookup).1
  set peersOf := failed.image fun i => arr[i]?
  set indexes := failed.image fun i : Nat => some (i : Fd)
  have inside : peersOf ⊆ indexes := by
    intro entry member
    obtain ⟨i, fails, rfl⟩ := Finset.mem_image.mp member
    obtain ⟨fd, lookup⟩ := ((mem_failed i).mp fails).lookup
    obtain ⟨j, alsoFails, isIndex⟩ := subset fd ⟨i, (mem_failed i).mp fails, lookup⟩
    rw [lookup, isIndex]
    exact Finset.mem_image_of_mem _ ((mem_failed j).mpr alsoFails)
  have peersCard : peersOf.card = failed.card := by
    apply Finset.card_image_of_injOn
    intro i fails j _ same
    obtain ⟨fd, lookup⟩ := ((mem_failed i).mp fails).lookup
    exact (List.getElem?_inj (List.getElem?_eq_some_iff.mp lookup).1 distinct).mp same
  have indexesCard : indexes.card ≤ failed.card := Finset.card_image_le
  have same := Finset.eq_of_subset_of_card_le inside (by omega)
  rintro fd ⟨i, fails, rfl⟩
  have member : some (i : Fd) ∈ indexes := Finset.mem_image_of_mem _ ((mem_failed i).mpr fails)
  rw [← same] at member
  obtain ⟨j, alsoFails, lookup⟩ := Finset.mem_image.mp member
  exact ⟨j, (mem_failed j).mp alsoFails, lookup⟩

end Dropping

/-- **Dropping the failed peers.**  From a list of distinct descriptors just the peers
are dropped to which a send failed exactly if their descriptors are, taken together, the
same numbers as their indexes. -/
theorem dropsFailed_iff (meets : Meets) (data : SendTfile) (thread : Locker) (peers : Peers)
    (distinct : peers.arr.Nodup) :
    DropsFailed meets data thread peers ↔
      ∀ fd : Fd,
        (∃ i, FailedAt meets data thread.sent.length peers.arr i ∧ peers.arr[i]? = some fd) ↔
          ∃ i : Nat, FailedAt meets data thread.sent.length peers.arr i ∧ fd = (i : Fd) := by
  obtain ⟨nodup, left⟩ :=
    mem_foldl_removePeer (Locker.sendTfile meets data peers.arr 0 thread).1 distinct
  have kept : ∀ fd, fd ∈ (shareUnlocked meets data thread peers).arr ↔ fd ∈ peers.arr ∧
      ¬∃ i : Nat, FailedAt meets data thread.sent.length peers.arr i ∧ fd = (i : Fd) := by
    intro fd
    rw [shareUnlocked, left, mem_sendTfile]
    simp only [Nat.zero_add]
  unfold DropsFailed
  rw [and_iff_right (show (shareUnlocked meets data thread peers).arr.Nodup from nodup)]
  simp only [kept]
  constructor
  · intro drops
    have subset : ∀ fd, (∃ i, FailedAt meets data thread.sent.length peers.arr i ∧
          peers.arr[i]? = some fd) →
        ∃ i : Nat, FailedAt meets data thread.sent.length peers.arr i ∧ fd = (i : Fd) := by
      rintro fd ⟨i, fails, lookup⟩
      by_contra other
      exact ((drops fd).mp ⟨List.mem_of_getElem? lookup, other⟩).2 ⟨i, fails, lookup⟩
    exact fun fd => ⟨subset fd, failed_indexes_of_subset distinct subset fd⟩
  · intro same fd
    rw [same]

/-- The first send of a thread fails, the others succeed. -/
def firstFails : Meets where
  found _ := .init
  rc number := if number = 0 then -1 else 0

/-- A definition of the client itself. -/
def ownTfile : SendTfile where
  tfile := .zero
  sender := noSenderPeer

/-- The peer on descriptor 0 is the first of the list. -/
theorem dropsFailed_first :
    DropsFailed firstFails ownTfile .init { Peers.init with arr := [0, 5] } := by
  refine (dropsFailed_iff firstFails ownTfile .init { Peers.init with arr := [0, 5] }
    (by decide)).mpr ?_
  have failed : ∀ i, FailedAt firstFails ownTfile 0 [0, 5] i ↔ i = 0 := by
    intro i
    constructor
    · rintro ⟨rc, result, fails⟩
      rcases i with _ | _ | i
      · rfl
      · cases result
        simp [firstFails, ownTfile, noSenderPeer] at fails
      · simp [sendResult] at result
    · rintro rfl
      exact ⟨-1, by rfl, by decide⟩
  intro fd
  simp [Locker.init, failed, eq_comm]

/-- The send to descriptor 5 fails, and descriptor 0 is removed, which is not there. -/
theorem dropsFailed_fails :
    (shareUnlocked firstFails ownTfile .init { Peers.init with arr := [5, 6] }).arr = [5, 6] ∧
      FailedAt firstFails ownTfile 0 [5, 6] 0 ∧
      ¬DropsFailed firstFails ownTfile .init { Peers.init with arr := [5, 6] } := by
  have failed : FailedAt firstFails ownTfile 0 [5, 6] 0 := ⟨-1, by rfl, by decide⟩
  refine ⟨by rfl, failed, ?_⟩
  rintro ⟨_, drops⟩
  exact ((drops 5).mp (by decide)).2 ⟨0, failed, rfl⟩

end Grintorrent
