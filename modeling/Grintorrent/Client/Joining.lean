import Grintorrent.Client.Worker
import Grintorrent.Gossip.Table

/-!
# Joining

A client that accepts a connection lists its table and `share_tfiles_to_peer` sends the
listing, one `TFILE_DEF` message for each definition.  What the worker at the other end
makes of the stream is the union of the two tables, where a definition that is there
already stays.
-/

namespace Grintorrent

open Lib

variable {env : Env} {fdData : ClientServer} {tdef : TfileDef} {padding : Vector UInt8 7}

/-- The `TFILE_DEF` message of a definition. -/
def tfileDefMessage (tdef : TfileDef) (padding : Vector UInt8 7) : Message where
  info := ⟨tfileDef, BitVec.ofNat 64 TfileDef.sizeOf⟩
  padding := padding
  data := some tdef.bytes
  sized := by
    change tdef.bytes.length = TfileDef.sizeOf
    exact tdef.length_bytes

theorem tfileDefMessage_size : (tfileDefMessage tdef padding).size = TfileDef.sizeOf := rfl

theorem tfileDefMessage_fits : (tfileDefMessage tdef padding).size ≤ messageSize := by
  rw [tfileDefMessage_size]
  decide

theorem tfileDefMessage_complete : Complete (tfileDefMessage tdef padding) := by
  refine ⟨fun _ => tfileDefMessage_size.ge, ?_, ?_⟩
  · intro isRequest
    exact absurd isRequest (show tfileDef ≠ requestFileData by decide)
  · intro isFileData
    exact absurd isFileData (show tfileDef ≠ fileData by decide)

theorem tfileDefMessage_handle (calls : Calls) (store : Store) (peers : Peers)
    (lower : -2 ^ 63 ≤ tdef.size) (upper : tdef.size < 2 ^ 63) :
    (tfileDefMessage tdef padding).handle env calls store peers fdData = (do
      let (ht, _) ← addHtable env.callocOk calls.fuel store.ht tdef
      .ok { store := { store with ht }, peers, share := some ⟨tdef, fdData.serverFd⟩ }) := by
  have other : tfileDef ≠ fileData := by decide
  have payload : (tfileDefMessage tdef padding).payload = tdef.bytes := rfl
  simp only [Message.handle, handleWhole, tfileDefMessage, if_neg other, handle_tfileDef]
  rw [← tfileDefMessage, payload, splice_zero, tdef.decode_bytes lower upper]

/-- The arrivals carry these definitions, in this order. -/
def Carrying : List TfileDef → List Arrival → Prop :=
  List.Forall₂ fun tdef arrival => ∃ padding, arrival.message = tfileDefMessage tdef padding

theorem Carrying.message {listed : List TfileDef} {arrivals : List Arrival}
    (carrying : Carrying listed arrivals) {arrival : Arrival} (member : arrival ∈ arrivals) :
    ∃ tdef padding, arrival.message = tfileDefMessage tdef padding := by
  induction carrying with
  | nil => simp at member
  | cons first _ ih =>
      rcases List.mem_cons.mp member with rfl | later
      · exact ⟨_, first⟩
      · exact ih later

/-- The definitions that were added last do not change what was first. -/
theorem firstAdded_append (own : List TableOp) (listed : List TfileDef) (hash : Digest) :
    firstAdded (own ++ listed.map .add) hash =
      (firstAdded own hash).or (listed.find? fun tdef => tdef.fHash = hash) := by
  rw [firstAdded, List.findSome?_append, ← firstAdded]
  congr 1
  induction listed with
  | nil => rfl
  | cons tdef listed ih =>
      rw [List.map_cons, List.findSome?_cons, List.find?_cons, ih]
      by_cases same : tdef.fHash = hash
      · simp [same]
      · simp [same]

/-- `size` grows by at most one with a definition, and the capacity stays. -/
theorem addHtable_size {callocOk : Nat → Bool} {fuel : Nat} {ht after : Htable}
    {result : Option Nat} (calm : ¬ht.Grows)
    (completes : addHtable callocOk fuel ht tdef = .ok (after, result)) :
    after.size ≤ ht.size + 1 ∧ after.capacity = ht.capacity := by
  rcases Htable.insert_cases (addHtable_of_not_grows calm completes) with
    ⟨_, rfl, _⟩ | ⟨index, _, rfl, _⟩
  · exact ⟨Nat.le_succ _, rfl⟩
  · exact ⟨Nat.le_refl _, rfl⟩

/-- The other threads leave the table alone. -/
def Arrival.LeavesTable (arrival : Arrival) : Prop :=
  ∀ left, (arrival.meets left).1.ht = left.1.ht

/-- **The messages of a snapshot** are added one after the other, and each of them is passed
on. -/
theorem workOn_snapshot {own : List TableOp} {listed : List TfileDef}
    {arrivals : List Arrival} {left : Store × Peers} {run : WorkerRun}
    (carrying : Carrying listed arrivals)
    (calm : ∀ arrival ∈ arrivals, arrival.LeavesTable)
    (ownRun : CalmRun env.callocOk own left.1.ht) (nonzero : ∀ tdef ∈ listed, tdef.fHash ≠ 0)
    (sizes : ∀ tdef ∈ listed, -2 ^ 63 ≤ tdef.size ∧ tdef.size < 2 ^ 63)
    (room : 2 * (left.1.ht.size + listed.length) ≤ left.1.ht.capacity + 2)
    (worked : workOn env fdData arrivals left = .ok run) :
    CalmRun env.callocOk (own ++ listed.map .add) run.store.ht ∧ run.ended = false ∧
      run.handled.map Handled.share = listed.map fun tdef => some ⟨tdef, fdData.serverFd⟩ := by
  induction carrying generalizing own left run with
  | nil =>
      cases worked
      exact ⟨by simpa using ownRun, rfl, rfl⟩
  | @cons tdef arrival listed arrivals message _ ih =>
      obtain ⟨padding, isMessage⟩ := message
      obtain ⟨lower, upper⟩ := sizes tdef List.mem_cons_self
      have table := calm arrival List.mem_cons_self left
      have grows : ¬left.1.ht.Grows := by
        rw [List.length_cons] at room
        simp only [Htable.Grows]
        omega
      simp only [workOn, isMessage, tfileDefMessage_handle _ _ _ lower upper, table,
        Result.bind_eq_ok] at worked
      obtain ⟨handled, ⟨⟨ht, result⟩, added, isHandled⟩, rest⟩ := worked
      cases isHandled
      simp only [Bool.false_eq_true, if_false, Result.bind_eq_ok] at rest
      obtain ⟨later, worked, isRun⟩ := rest
      cases isRun
      obtain ⟨grown, capacity⟩ := addHtable_size grows added
      have call : TableOp.call env.callocOk arrival.calls.fuel left.1.ht (.add tdef) =
          .ok (ht, result) := added
      have isCalm : (TableOp.add tdef).Calm left.1.ht :=
        ⟨nonzero tdef List.mem_cons_self, grows⟩
      obtain ⟨finalRun, notEnded, shares⟩ := ih
        (fun other member => calm other (List.mem_cons_of_mem _ member))
        (ownRun.call isCalm call)
        (fun other member => nonzero other (List.mem_cons_of_mem _ member))
        (fun other member => sizes other (List.mem_cons_of_mem _ member))
        (by rw [List.length_cons] at room; simp only [capacity]; omega) worked
      refine ⟨?_, notEnded, ?_⟩
      · rw [List.map_cons, List.append_cons]
        exact finalRun
      · simp only [WorkerRun.after, List.map_cons, shares]

/-! ## The union of two tables -/

theorem find_listed {calls : List TableOp} {callocOk : Nat → Bool} {sender : Htable}
    {listed : List TfileDef} (senderRun : CalmRun callocOk calls sender)
    (returned : listTfiles sender = .ok listed) :
    (listed.find? fun other => other.fHash = tdef.fHash) = some tdef ↔
      sender.Finds tdef ∧ 0 < tdef.size := by
  obtain ⟨defs, isListed, members⟩ := senderRun.listTfiles
  rw [returned] at isListed
  cases isListed
  rw [senderRun.finds, ← members]
  constructor
  · exact List.mem_of_find?_eq_some
  · intro member
    cases found : listed.find? fun other => other.fHash = tdef.fHash with
    | none => simpa using List.find?_eq_none.mp found tdef member
    | some other =>
        have same : other.fHash = tdef.fHash := by simpa using List.find?_some found
        have first := ((members other).mp (List.mem_of_find?_eq_some found)).1
        rw [same, ((members tdef).mp member).1] at first
        exact first.symm

/-- What is listed has a hash and a size that a message can carry. -/
theorem listed_proper {calls : List TableOp} {callocOk : Nat → Bool} {sender : Htable}
    {listed : List TfileDef} (senderRun : CalmRun callocOk calls sender)
    (returned : listTfiles sender = .ok listed) :
    (∀ tdef ∈ listed, tdef.fHash ≠ 0) ∧ ∀ tdef ∈ listed, -2 ^ 63 ≤ tdef.size := by
  obtain ⟨defs, isListed, members⟩ := senderRun.listTfiles
  rw [returned] at isListed
  cases isListed
  refine ⟨fun tdef member => ?_, fun tdef member => ?_⟩
  · obtain ⟨index, slot, searched, _⟩ :=
      (senderRun.finds tdef).mpr ((members tdef).mp member).1
    obtain ⟨_, _, nonzero⟩ := senderRun.refines.wf.holds_of_search searched
    exact nonzero
  · have positive := ((members tdef).mp member).2
    omega

/-- **The worker reads a snapshot from the stream**: its definitions are added behind those
that the client has added before, and each of them is passed on. -/
theorem readWorker_snapshot {calls own : List TableOp} {callocOk : Nat → Bool} {sender : Htable}
    {listed : List TfileDef} {arrivals : List Arrival} {store : Store} {peers : Peers}
    {dataRead stream : Bytes} {codes : List Int} {run : WorkerRun}
    (senderRun : CalmRun callocOk calls sender) (returned : listTfiles sender = .ok listed)
    (sizes : ∀ tdef ∈ listed, tdef.size < 2 ^ 63) (carrying : Carrying listed arrivals)
    (sent : sendAll (arrivals.map Arrival.transfer) [] = .ok (codes, stream))
    (ownRun : CalmRun env.callocOk own store.ht)
    (room : 2 * (store.ht.size + listed.length) ≤ store.ht.capacity + 2)
    (calm : ∀ arrival ∈ arrivals, arrival.LeavesTable)
    (buffer : dataRead.length = messageSize)
    (read : readWorker env fdData (arrivals.map Arrival.round) (store, peers) dataRead stream =
      .ok run) :
    CalmRun env.callocOk (own ++ listed.map .add) run.store.ht ∧ run.ended = false ∧
      run.handled.map Handled.share = listed.map fun tdef => some ⟨tdef, fdData.serverFd⟩ := by
  rw [sendAll_frames, List.nil_append, Except.ok.injEq, Prod.mk.injEq] at sent
  have isStream : arrivalFrames arrivals = stream := by
    rw [← sent.2, frames, List.flatMap_map]
    rfl
  have complete : ∀ arrival ∈ arrivals, Complete arrival.message := by
    intro arrival member
    obtain ⟨tdef, padding, isMessage⟩ := carrying.message member
    exact isMessage ▸ tfileDefMessage_complete
  have fits : ∀ arrival ∈ arrivals, arrival.message.size ≤ messageSize := by
    intro arrival member
    obtain ⟨tdef, padding, isMessage⟩ := carrying.message member
    exact isMessage ▸ tfileDefMessage_fits
  obtain ⟨remaining, _, refined⟩ := @readWorker_frames env fdData arrivals [] (store, peers)
    dataRead [] complete fits buffer
  rw [List.append_nil, List.append_nil, isStream, read] at refined
  obtain ⟨worked, isWorked, rest⟩ := Result.bind_eq_ok.mp refined.symm
  obtain ⟨nonzero, lower⟩ := listed_proper senderRun returned
  obtain ⟨finalRun, notEnded, shares⟩ := workOn_snapshot carrying calm ownRun nonzero
    (fun tdef member => ⟨lower tdef member, sizes tdef member⟩) room isWorked
  simp only [WorkerRun.goesOn, notEnded, Bool.false_eq_true, if_false, readWorker,
    Result.ok_bind, List.append_nil, Except.ok.injEq] at rest
  subst rest
  exact ⟨finalRun, rfl, shares⟩

/-- **Joining merges the tables.**  A client lists its table and sends the listing, and the
worker of another client reads it from the stream, however the bytes are split and whatever
the buffer held.  If the calls on the table complete and it has room, so that it does not
grow, then the worker has read every definition, has started a worker that passes it on for
each of them, and waits for more; and its client finds just the definitions that it found
before, and of those of positive size that the sender finds the ones whose hash was new to
it. -/
theorem snapshot_merges {calls own : List TableOp} {callocOk : Nat → Bool} {sender : Htable}
    {listed : List TfileDef} {arrivals : List Arrival} {store : Store} {peers : Peers}
    {dataRead stream : Bytes} {codes : List Int} {run : WorkerRun}
    (senderRun : CalmRun callocOk calls sender) (returned : listTfiles sender = .ok listed)
    (sizes : ∀ tdef ∈ listed, tdef.size < 2 ^ 63) (carrying : Carrying listed arrivals)
    (sent : sendAll (arrivals.map Arrival.transfer) [] = .ok (codes, stream))
    (ownRun : CalmRun env.callocOk own store.ht)
    (room : 2 * (store.ht.size + listed.length) ≤ store.ht.capacity + 2)
    (calm : ∀ arrival ∈ arrivals, arrival.LeavesTable)
    (buffer : dataRead.length = messageSize)
    (read : readWorker env fdData (arrivals.map Arrival.round) (store, peers) dataRead stream =
      .ok run) :
    run.ended = false ∧
      run.handled.map Handled.share = (listed.map fun tdef => some ⟨tdef, fdData.serverFd⟩) ∧
      ∀ tdef, run.store.ht.Finds tdef ↔ store.ht.Finds tdef ∨
        sender.Finds tdef ∧ 0 < tdef.size ∧
          ∀ held, store.ht.Finds held → held.fHash ≠ tdef.fHash := by
  obtain ⟨finalRun, notEnded, shares⟩ := readWorker_snapshot senderRun returned sizes carrying
    sent ownRun room calm buffer read
  refine ⟨notEnded, shares, ?_⟩
  intro tdef
  rw [finalRun.finds, ownRun.finds, firstAdded_append, Option.or_eq_some_iff,
    find_listed senderRun returned]
  constructor
  · rintro (first | ⟨fresh, found, positive⟩)
    · exact .inl first
    · refine .inr ⟨found, positive, ?_⟩
      intro held isHeld same
      rw [ownRun.finds, same, fresh] at isHeld
      simp at isHeld
  · rintro (first | ⟨found, positive, fresh⟩)
    · exact .inl first
    · refine .inr ⟨?_, found, positive⟩
      rw [Option.eq_none_iff_forall_ne_some]
      intro held first
      have isHash := Defs.fHash_of_firstAdded first
      rw [← isHash] at first
      exact fresh held ((ownRun.finds held).mpr first) isHash

/-- One definition, whose bytes arrive one by one. -/
def singleArrival (tdef : TfileDef) : Arrival where
  transfer :=
    { message := tfileDefMessage tdef (Vector.replicate 7 0)
      sent := Composition.single TfileDef.sizeOf (by decide)
      received := Composition.ones TfileDef.sizeOf }
  calls := sampleCalls
  meets := id

section Single

variable (defs : List TfileDef)

theorem singleArrivals_carrying : Carrying defs (defs.map singleArrival) := by
  induction defs with
  | nil => exact .nil
  | cons tdef defs ih => exact .cons ⟨_, rfl⟩ ih

theorem singleArrivals_complete :
    ∀ arrival ∈ defs.map singleArrival, Complete arrival.message := by
  intro arrival member
  obtain ⟨tdef, _, rfl⟩ := List.mem_map.mp member
  exact tfileDefMessage_complete

theorem singleArrivals_fits :
    ∀ arrival ∈ defs.map singleArrival, arrival.message.size ≤ messageSize := by
  intro arrival member
  obtain ⟨tdef, _, rfl⟩ := List.mem_map.mp member
  exact tfileDefMessage_fits

theorem singleArrivals_calm : ∀ arrival ∈ defs.map singleArrival, arrival.LeavesTable := by
  intro arrival member left
  obtain ⟨tdef, _, rfl⟩ := List.mem_map.mp member
  rfl

variable {defs} {store : Store} {run : WorkerRun}

theorem singleArrivals_read
    (worked : workOn sampleEnv (.load 4 4) (defs.map singleArrival) (store, .init) = .ok run)
    (goesOn : run.ended = false) :
    readWorker sampleEnv (.load 4 4) ((defs.map singleArrival).map Arrival.round)
        (store, .init) (List.replicate messageSize 7)
        (frames ((defs.map singleArrival).map Arrival.transfer)) = .ok run := by
  obtain ⟨_, length, read⟩ := @readWorker_frames sampleEnv (.load 4 4)
    (defs.map singleArrival) [] (store, .init) (List.replicate messageSize 7) []
    (singleArrivals_complete defs) (singleArrivals_fits defs) List.length_replicate
  have stream : arrivalFrames (defs.map singleArrival) =
      frames ((defs.map singleArrival).map Arrival.transfer) := by
    rw [frames, List.flatMap_map]
    rfl
  rw [worked, Result.ok_bind, List.append_nil, List.append_nil, stream] at read
  obtain ⟨final, peers, handled, ended⟩ := run
  obtain rfl : ended = false := goesOn
  simp only [WorkerRun.goesOn, Bool.false_eq_true, if_false, readWorker,
    Result.ok_bind, List.append_nil] at read
  exact read

variable {tdef : TfileDef} {ht : Htable} {place : Option Nat}

theorem singleArrivals_worked {later : WorkerRun} (lower : -2 ^ 63 ≤ tdef.size)
    (upper : tdef.size < 2 ^ 63)
    (added : addHtable sampleEnv.callocOk sampleCalls.fuel store.ht tdef = .ok (ht, place))
    (worked : workOn sampleEnv (.load 4 4) (defs.map singleArrival)
      ({ store with ht }, .init) = .ok later) :
    workOn sampleEnv (.load 4 4) ((tdef :: defs).map singleArrival) (store, .init) =
      .ok (later.after
        { store := { store with ht }, peers := .init, share := some ⟨tdef, 4⟩ }) := by
  have handles := @tfileDefMessage_handle sampleEnv (.load 4 4) tdef (Vector.replicate 7 0)
    sampleCalls store .init lower upper
  rw [added, Result.ok_bind] at handles
  rw [List.map_cons]
  simp only [workOn, singleArrival, Arrival.message, id_eq, handles, Result.ok_bind,
    Bool.false_eq_true, if_false, worked]
  rfl

end Single

/-- The table of a new client that has received a definition. -/
def joinedTable (tdef : TfileDef) : Htable :=
  initHtable.fill (homeIndex startingCapacity (words tdef.fHash)) tdef

/-- What the worker of a new client has done with it. -/
def joinedRun (tdef : TfileDef) (content : Bytes) : WorkerRun where
  store := { sampleStore content with ht := joinedTable tdef }
  peers := .init
  handled :=
    [{ store := { sampleStore content with ht := joinedTable tdef }
       peers := .init
       share := some ⟨tdef, 4⟩ }]
  ended := false

theorem joinedRun_worked (lower : -2 ^ 63 ≤ tdef.size) (upper : tdef.size < 2 ^ 63)
    (content : Bytes) :
    workOn sampleEnv (.load 4 4) ([tdef].map singleArrival) (sampleStore content, .init) =
      .ok (joinedRun tdef content) := by
  have added : addHtable sampleEnv.callocOk sampleCalls.fuel (sampleStore content).ht tdef =
      .ok (joinedTable tdef, _) := addHtable_init _ 0 tdef
  have waits : workOn sampleEnv (.load 4 4) ([].map singleArrival)
      ({ sampleStore content with ht := joinedTable tdef }, .init) =
        .ok ⟨{ sampleStore content with ht := joinedTable tdef }, .init, [], false⟩ := rfl
  exact singleArrivals_worked lower upper added waits

/-- The worker of a new client has read it, and its connection fails. -/
theorem readWorker_closes_sample :
    ∃ run, readWorker sampleEnv (.load 4 4)
        [(singleArrival sampleDef).round, ⟨⟨0, 0, [], []⟩, sampleCalls, id⟩]
        (sampleStore [], .init) (List.replicate messageSize 7)
        (singleArrival sampleDef).message.frame = .ok run ∧
      run.handled.length = 1 ∧ run.ended = true := by
  have closes := @readWorker_closes sampleEnv (.load 4 4) ([sampleDef].map singleArrival)
    ⟨⟨0, 0, [], []⟩, sampleCalls, id⟩ [] (sampleStore [], .init) (List.replicate messageSize 7) []
    (singleArrivals_complete _) (singleArrivals_fits _) List.length_replicate (by
      intro remaining _ info peeked
      simp [incomingMessageInfo, MessageInfo.sizeOf] at peeked)
  have stream : arrivalFrames ([sampleDef].map singleArrival) ++ [] =
      (singleArrival sampleDef).message.frame := by
    rw [List.append_nil, List.map_singleton, arrivalFrames, List.flatMap_cons, List.flatMap_nil,
      List.append_nil]
  rw [joinedRun_worked (by decide) (by decide), Result.ok_bind, stream] at closes
  refine ⟨_, closes, ?_, ?_⟩ <;> rfl

/-- A client that has the first of two definitions reads both, which are in one cluster. -/
theorem snapshot_merges_sample :
    ∃ run, readWorker sampleEnv (.load 4 4)
        (([sampleDef, otherDef].map singleArrival).map Arrival.round)
        ({ sampleStore [] with ht := joinedTable sampleDef }, .init)
        (List.replicate messageSize 7)
        (frames (([sampleDef, otherDef].map singleArrival).map Arrival.transfer)) = .ok run ∧
      run.store.ht.Finds sampleDef ∧ run.store.ht.Finds otherDef := by
  have ownRun := @CalmRun.first sampleDef (by decide)
  have listed : listTfiles pairTable = .ok [sampleDef, otherDef] := by rfl
  have sizes : ∀ tdef ∈ [sampleDef, otherDef], tdef.size < 2 ^ 63 := by decide
  have known : addHtable sampleEnv.callocOk sampleCalls.fuel (joinedTable sampleDef) sampleDef =
      .ok (joinedTable sampleDef, none) := by rfl
  have added : addHtable sampleEnv.callocOk sampleCalls.fuel (joinedTable sampleDef) otherDef =
      .ok (pairTable, some 2) := addHtable_pair
  have waits : workOn sampleEnv (.load 4 4) ([].map singleArrival)
      ({ sampleStore [] with ht := pairTable }, .init) =
        .ok ⟨{ sampleStore [] with ht := pairTable }, .init, [], false⟩ := rfl
  have second := @singleArrivals_worked [] { sampleStore [] with ht := joinedTable sampleDef }
    otherDef pairTable _ _ (by decide) (by decide) added waits
  have read := singleArrivals_read (@singleArrivals_worked [otherDef]
    { sampleStore [] with ht := joinedTable sampleDef } sampleDef _ _ _ (by decide) (by decide)
    known second) rfl
  obtain ⟨_, _, merged⟩ := @snapshot_merges sampleEnv (.load 4 4) _ [.add sampleDef] _ _ _ _
    { sampleStore [] with ht := joinedTable sampleDef } .init (List.replicate messageSize 7) _ _ _
    CalmRun.pair listed sizes (singleArrivals_carrying _) (sendAll_frames _ []) ownRun
    (by decide) (singleArrivals_calm _) List.length_replicate read
  have held : (joinedTable sampleDef).Finds sampleDef :=
    (ownRun.finds sampleDef).mpr (by rfl)
  refine ⟨_, read, (merged sampleDef).mpr (.inl held), (merged otherDef).mpr
    (.inr ⟨(CalmRun.pair.finds otherDef).mpr (by rfl), by decide, ?_⟩)⟩
  intro other found
  have first := (ownRun.finds other).mp found
  by_cases same : other = sampleDef
  · subst same
    decide
  · intro sameHash
    rw [sameHash] at first
    simp [firstAdded, otherDef, sampleDef] at first

end Grintorrent
