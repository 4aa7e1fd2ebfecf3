import Grintorrent.Message.Framing
import Mathlib.Order.Monotone.Defs

/-!
# Headers that arrive in pieces

A stream arrives in segments, and a call of `read` or `recv` returns as much of what it
asks for as has arrived, after waiting for a first byte if none has.  The payload is read
in a loop, but the header is peeked with one call.  If a segment ends inside a header, the
peek may see just the part in front of it, and `incoming_message_info` takes that for a
connection that failed.
-/

namespace Grintorrent

open Lib

/-- The number of bytes in the first segments. -/
def arrived (segments : List Nat) (count : Nat) : Nat := (segments.take count).sum

/-- The number of segments that must arrive before the byte at `offset` is there. -/
def segmentsUntil : (segments : List Nat) → (offset : Nat) → Nat
  | [], _ => 0
  | segment :: segments, offset =>
      if offset < segment then 1 else segmentsUntil segments (offset - segment) + 1

/-- The bytes from `offset` on that a call finds.  By the time of the call `clock call`
segments have arrived; if all their bytes were read before, the call waits for the next. -/
def bytesThere (segments : List Nat) (clock : Nat → Nat) (call offset : Nat) : Nat :=
  arrived segments (max (clock call) (segmentsUntil segments offset)) - offset

/-- What the calls of `read` return that read the `left` remaining bytes of a payload. -/
def payloadCounts (segments : List Nat) (clock : Nat → Nat) :
    (fuel call offset left : Nat) → List Nat
  | 0, _, _, _ => []
  | fuel + 1, call, offset, left =>
      if left = 0 then []
      else
        let count := min left (bytesThere segments clock call offset)
        count :: payloadCounts segments clock fuel (call + 1) (offset + count) (left - count)

/-- What the calls of one round of the read loop return, for a frame at `offset`. -/
def Message.roundAt (message : Message) (segments : List Nat) (clock : Nat → Nat)
    (call offset : Nat) : Reads where
  peek := (min MessageInfo.sizeOf (bytesThere segments clock call offset) : Nat)
  header := (min MessageInfo.sizeOf (bytesThere segments clock (call + 1) offset) : Nat)
  payload := counts (payloadCounts segments clock message.size (call + 2)
    (offset + MessageInfo.sizeOf) message.size)
  discarded := []

/-- The rounds of the read loop for these messages. -/
def roundsFrom (segments : List Nat) (clock : Nat → Nat) :
    (messages : List Message) → (call offset : Nat) → List Reads
  | [], _, _ => []
  | message :: messages, call, offset =>
      let reads := message.roundAt segments clock call offset
      reads :: roundsFrom segments clock messages (call + 2 + reads.payload.length)
        (offset + message.frame.length)

/-- The stream with the frames of these messages. -/
def framesOf (messages : List Message) : Bytes := messages.flatMap Message.frame

/-- Whenever the segments arrive, the read loop does not end with `FAILED`: if it comes to
an end, it has received every message. -/
def NeverFails (messages : List Message) (segments : List Nat) : Prop :=
  ∀ clock : Nat → Nat, Monotone clock →
    ∀ (dataRead left stream : Bytes) (received : List (MessageInfo × Bytes)),
      receiveLoop (roundsFrom segments clock messages 0 0) dataRead (framesOf messages) =
        .ok (received, left, stream) →
      received.length = messages.length

/-- No segment ends inside a header. -/
def HeadersWhole (segments : List Nat) : (messages : List Message) → (offset : Nat) → Prop
  | [], _ => True
  | message :: messages, offset =>
      (∀ count, ¬(offset < arrived segments count ∧
        arrived segments count < offset + MessageInfo.sizeOf)) ∧
      HeadersWhole segments messages (offset + message.frame.length)

section Arrival

variable {segments : List Nat} {clock : Nat → Nat} {call offset count : Nat}

theorem arrived_mono {later : Nat} (before : count ≤ later) :
    arrived segments count ≤ arrived segments later := by
  induction segments generalizing count later with
  | nil => simp [arrived]
  | cons segment segments ih =>
      cases count with
      | zero => simp [arrived]
      | succ count =>
          cases later with
          | zero => omega
          | succ later =>
              have rest := @ih count later (by omega)
              simp only [arrived, List.take_succ_cons, List.sum_cons] at rest ⊢
              omega

theorem lt_arrived_segmentsUntil (inside : offset < segments.sum) :
    offset < arrived segments (segmentsUntil segments offset) := by
  induction segments generalizing offset with
  | nil => simp at inside
  | cons segment segments ih =>
      rw [List.sum_cons] at inside
      unfold segmentsUntil
      split
      next first => simpa [arrived] using first
      next later =>
          have rest := @ih (offset - segment) (by omega)
          simp only [arrived, List.take_succ_cons, List.sum_cons] at rest ⊢
          omega

theorem arrived_le_of_lt_segmentsUntil (fewer : count < segmentsUntil segments offset) :
    arrived segments count ≤ offset := by
  induction segments generalizing offset count with
  | nil => simp [arrived]
  | cons segment segments ih =>
      unfold segmentsUntil at fewer
      split at fewer
      next =>
          obtain rfl : count = 0 := by omega
          simp [arrived]
      next later =>
          cases count with
          | zero => simp [arrived]
          | succ count =>
              have rest := @ih (offset - segment) count (by omega)
              simp only [arrived, List.take_succ_cons, List.sum_cons] at rest ⊢
              omega

theorem lt_arrived_max (inside : offset < segments.sum) :
    offset < arrived segments (max (clock call) (segmentsUntil segments offset)) :=
  Nat.lt_of_lt_of_le (lt_arrived_segmentsUntil inside) (arrived_mono (Nat.le_max_right _ _))

theorem bytesThere_mono (ticks : Monotone clock) :
    bytesThere segments clock call offset ≤ bytesThere segments clock (call + 1) offset := by
  have later := ticks (Nat.le_succ call)
  exact Nat.sub_le_sub_right (arrived_mono (max_le_max_right _ later)) offset

/-- A header that no segment end cuts is there as soon as its first byte is. -/
theorem bytesThere_of_whole (inside : offset < segments.sum)
    (whole : ∀ count, ¬(offset < arrived segments count ∧
      arrived segments count < offset + MessageInfo.sizeOf)) :
    MessageInfo.sizeOf ≤ bytesThere segments clock call offset := by
  have first := @lt_arrived_max segments clock call offset inside
  have uncut := whole (max (clock call) (segmentsUntil segments offset))
  unfold bytesThere
  omega

/-- When segments come as late as they can, a header that is there when it is peeked is
cut by no segment end. -/
theorem whole_of_bytesThere
    (there : MessageInfo.sizeOf ≤ bytesThere segments (fun _ => 0) call offset) :
    ∀ count, ¬(offset < arrived segments count ∧
      arrived segments count < offset + MessageInfo.sizeOf) := by
  rintro count ⟨beyond, cut⟩
  have enough : segmentsUntil segments offset ≤ count := by
    by_contra fewer
    have short := @arrived_le_of_lt_segmentsUntil segments offset count (by omega)
    omega
  have before := @arrived_mono segments _ _ enough
  rw [bytesThere, Nat.zero_max] at there
  omega

theorem payloadCounts_split {fuel left : Nat} (inside : offset + left ≤ segments.sum)
    (enough : left ≤ fuel) :
    (∀ count ∈ payloadCounts segments clock fuel call offset left, 0 < count) ∧
      (payloadCounts segments clock fuel call offset left).sum = left := by
  induction fuel generalizing call offset left with
  | zero =>
      obtain rfl : left = 0 := by omega
      simp [payloadCounts]
  | succ fuel ih =>
      unfold payloadCounts
      split
      next finished => simp [finished]
      next unfinished =>
          have first := @lt_arrived_max segments clock call offset (by omega)
          have positive : 0 < bytesThere segments clock call offset := by
            unfold bytesThere
            omega
          have rest := @ih (call + 1)
            (offset + min left (bytesThere segments clock call offset))
            (left - min left (bytesThere segments clock call offset)) (by omega) (by omega)
          constructor
          · intro count member
            rcases List.mem_cons.mp member with rfl | later
            · omega
            · exact rest.1 count later
          · rw [List.sum_cons, rest.2]
            omega

theorem Message.roundAt_eq (message : Message) (ticks : Monotone clock)
    (inside : offset + message.frame.length ≤ segments.sum)
    (there : MessageInfo.sizeOf ≤ bytesThere segments clock call offset) :
    ∃ split : Composition message.size,
      message.roundAt segments clock call offset = message.reads split := by
  have header := Nat.le_trans there (bytesThere_mono ticks)
  have length : message.frame.length = MessageInfo.sizeOf + message.size := by
    rw [frame, List.length_append, message.info.length_bytes, message.length_payload]
  obtain ⟨positive, total⟩ := @payloadCounts_split segments clock (call + 2)
    (offset + MessageInfo.sizeOf) message.size message.size (by omega) (Nat.le_refl _)
  refine ⟨⟨_, positive _, total⟩, ?_⟩
  rw [roundAt, Nat.min_eq_left there, Nat.min_eq_left header]
  rfl

theorem Message.roundAt_peek (message : Message) :
    (message.roundAt segments clock call offset).peek = MessageInfo.sizeOf ↔
      MessageInfo.sizeOf ≤ bytesThere segments clock call offset := by
  simp only [roundAt, Nat.cast_inj, min_eq_left_iff]

/-! ## The read loop -/

theorem framesOf_cons (message : Message) (messages : List Message) :
    framesOf (message :: messages) = message.frame ++ framesOf messages := by
  simp [framesOf]

/-- If every peek finds a header, each round reads the frame of its message. -/
theorem exists_transfers (ticks : Monotone clock) {messages : List Message}
    (inside : offset + (framesOf messages).length ≤ segments.sum)
    (peeks : ∀ reads ∈ roundsFrom segments clock messages call offset,
      reads.peek = MessageInfo.sizeOf) :
    ∃ transfers : List Transfer, transfers.map Transfer.message = messages ∧
      transfers.map (fun transfer => transfer.message.reads transfer.received) =
        roundsFrom segments clock messages call offset := by
  induction messages generalizing call offset with
  | nil => exact ⟨[], rfl, rfl⟩
  | cons message messages ih =>
      rw [framesOf_cons, List.length_append] at inside
      have there := message.roundAt_peek.mp (peeks _ List.mem_cons_self)
      obtain ⟨split, round⟩ := message.roundAt_eq ticks (by omega) there
      obtain ⟨transfers, theirs, rounds⟩ := @ih _ _ (by omega)
        fun reads member => peeks reads (List.mem_cons_of_mem _ member)
      refine ⟨⟨message, .ones _, split⟩ :: transfers, ?_, ?_⟩
      · rw [List.map_cons, theirs]
      · rw [List.map_cons, rounds, roundsFrom, round]

theorem receivePayload_overrun {size bytesRead : Nat} {split : List Nat} {data stream : Bytes}
    (total : bytesRead + split.sum = size) (inside : bytesRead ≤ data.length)
    (positive : ∀ count ∈ split, 0 < count) (long : data.length < size) :
    receivePayload size (counts split) data bytesRead stream = .error .outOfRange := by
  induction split generalizing bytesRead data stream with
  | nil =>
      rw [List.sum_nil] at total
      omega
  | cons count split ih =>
      have advances : 0 < count := positive count List.mem_cons_self
      rw [List.sum_cons] at total
      simp only [counts, List.map_cons, receivePayload, Int.toNat_natCast]
      rw [if_pos (by omega), if_neg (by omega)]
      split
      next => rfl
      next fits =>
          have short : (stream.take count).length ≤ count := List.length_take_le ..
          have length := @length_splice _ bytesRead (stream.take count) data (by omega)
          exact ih (by omega) (by omega)
            (fun other member => positive other (List.mem_cons_of_mem _ member)) (by omega)

theorem Message.receive_overrun (message : Message) (split : Composition message.size)
    (dataRead rest : Bytes) (long : dataRead.length < message.size) :
    receiveMessage (message.reads split) (message.frame ++ rest) (some dataRead)
        message.info.size.toNat =
      .error .outOfRange := by
  have outside := @receivePayload_overrun message.size 0 split.blocks dataRead
    ((message.frame ++ rest).drop MessageInfo.sizeOf) (by rw [split.blocks_sum]; omega)
    (Nat.zero_le _) (fun _ => split.blocks_pos) long
  simp only [receiveMessage, message.decode_frame, reads, Int.toNat_natCast, ne_eq,
    not_true_eq_false, if_false, Option.isNone_some, Bool.false_eq_true, Nat.min_self,
    Option.getD_some]
  rw [show message.info.size.toNat = message.size from rfl, outside, Result.error_bind]

theorem receiveLoop_length {transfers : List Transfer} {dataRead left stream : Bytes}
    {received : List (MessageInfo × Bytes)}
    (ended : receiveLoop (transfers.map fun transfer => transfer.message.reads transfer.received)
      dataRead (framesOf (transfers.map Transfer.message)) = .ok (received, left, stream)) :
    received.length = transfers.length := by
  induction transfers generalizing dataRead received with
  | nil =>
      cases ended
      rfl
  | cons transfer transfers ih =>
      rw [List.map_cons, List.map_cons, framesOf_cons] at ended
      rcases Nat.lt_or_ge dataRead.length transfer.message.size with long | fits
      · rw [transfer.message.receiveLoop_cons, transfer.message.receive_overrun _ _ _ long]
          at ended
        cases ended
      · rw [transfer.message.receiveLoop_frame _ _ fits, Result.bind_eq_ok] at ended
        obtain ⟨⟨others, _, _⟩, rest, same⟩ := ended
        cases same
        rw [List.length_cons, List.length_cons, ih rest]

/-- With a buffer for every payload the loop comes to an end, and it has received all
messages only if every peek found a header. -/
theorem receiveLoop_rounds (ticks : Monotone clock) {messages : List Message}
    (inside : offset + (framesOf messages).length ≤ segments.sum) (dataRead : Bytes)
    (fits : ∀ message ∈ messages, message.size ≤ dataRead.length) :
    ∃ received left stream,
      receiveLoop (roundsFrom segments clock messages call offset) dataRead (framesOf messages) =
        .ok (received, left, stream) ∧
      (received.length = messages.length →
        ∀ reads ∈ roundsFrom segments clock messages call offset,
          reads.peek = MessageInfo.sizeOf) := by
  induction messages generalizing call offset dataRead with
  | nil => exact ⟨[], dataRead, [], rfl, by simp [roundsFrom]⟩
  | cons message messages ih =>
      rw [framesOf_cons, List.length_append] at inside
      rw [framesOf_cons, roundsFrom]
      by_cases there : MessageInfo.sizeOf ≤ bytesThere segments clock call offset
      · obtain ⟨split, round⟩ := message.roundAt_eq ticks (by omega) there
        have holds := fits message List.mem_cons_self
        have length : (splice 0 message.payload dataRead).length = dataRead.length :=
          length_splice (by rw [message.length_payload]; omega)
        obtain ⟨received, left, stream, ended, peeks⟩ :=
          @ih (call + 2 + (message.reads split).payload.length)
            (offset + message.frame.length) (by omega) (splice 0 message.payload dataRead)
            fun other member => by
              rw [length]
              exact fits other (List.mem_cons_of_mem _ member)
        simp only [round, message.receiveLoop_frame _ _ holds, ended]
        refine ⟨_, _, _, rfl, fun all reads member => ?_⟩
        rcases List.mem_cons.mp member with rfl | later
        · rfl
        · exact peeks (by simpa using all) reads later
      · have short : (message.roundAt segments clock call offset).peek ≠ MessageInfo.sizeOf :=
          mt message.roundAt_peek.mp there
        simp only [receiveLoop, incomingMessageInfo, ne_eq, short, not_false_eq_true, if_true]
        exact ⟨_, _, _, rfl, fun none => by simp at none⟩

theorem peeks_of_headersWhole {messages : List Message}
    (inside : offset + (framesOf messages).length ≤ segments.sum)
    (whole : HeadersWhole segments messages offset) :
    ∀ reads ∈ roundsFrom segments clock messages call offset,
      reads.peek = MessageInfo.sizeOf := by
  induction messages generalizing call offset with
  | nil => simp [roundsFrom]
  | cons message messages ih =>
      rw [framesOf_cons, List.length_append] at inside
      have positive : 0 < message.frame.length := by
        rw [Message.frame, List.length_append, message.info.length_bytes]
        exact Nat.add_pos_left (by decide) _
      intro reads member
      rcases List.mem_cons.mp member with rfl | later
      · exact message.roundAt_peek.mpr (bytesThere_of_whole (by omega) whole.1)
      · exact ih (by omega) whole.2 reads later

/-- When segments come as late as they can, only whole headers are found by every peek. -/
theorem headersWhole_of_peeks {messages : List Message}
    (peeks : ∀ reads ∈ roundsFrom segments (fun _ => 0) messages call offset,
      reads.peek = MessageInfo.sizeOf) :
    HeadersWhole segments messages offset := by
  induction messages generalizing call offset with
  | nil => trivial
  | cons message messages ih =>
      have there := message.roundAt_peek.mp (peeks _ List.mem_cons_self)
      exact ⟨whole_of_bytesThere there,
        ih fun reads member => peeks reads (List.mem_cons_of_mem _ member)⟩

end Arrival

/-- **Split headers.**  For every sequence of frames and every segmentation of the stream,
the read loop never ends with `FAILED`, whenever the segments arrive, exactly if no segment
ends inside a header. -/
theorem neverFails_iff (messages : List Message)
    (segments : Composition (framesOf messages).length) :
    NeverFails messages segments.blocks ↔ HeadersWhole segments.blocks messages 0 := by
  have inside : 0 + (framesOf messages).length ≤ segments.blocks.sum := by
    rw [segments.blocks_sum, Nat.zero_add]
  constructor
  · intro never
    have late : Monotone fun _ : Nat => 0 := monotone_const
    -- A buffer for the longest payload, so that the loop stops at a header only.
    obtain ⟨longest, bound⟩ : ∃ longest, ∀ message ∈ messages, message.size ≤ longest :=
      ⟨(messages.map Message.size).sum, fun message member =>
        List.single_le_sum (by simp) _ (List.mem_map_of_mem member)⟩
    obtain ⟨received, left, stream, ended, peeks⟩ :=
      @receiveLoop_rounds _ _ 0 0 late _ inside (List.replicate longest 0)
        (by simpa using bound)
    exact headersWhole_of_peeks (peeks (never _ late _ _ _ _ ended))
  · intro whole clock ticks dataRead left stream received ended
    obtain ⟨transfers, theirs, rounds⟩ :=
      exists_transfers ticks inside (peeks_of_headersWhole inside whole)
    rw [← rounds, ← theirs] at ended
    rw [receiveLoop_length ended, ← theirs, List.length_map]

/-- A message without a payload. -/
def emptyMessage : Message where
  info := ⟨0xE, 0⟩
  padding := Vector.replicate 7 0
  data := some []
  sized := rfl

/-- Its header arrives in two halves, and the peek comes after the first. -/
theorem neverFails_halves_fail :
    ∃ segments : Composition (framesOf [emptyMessage]).length, segments.blocks = [8, 8] ∧
      receiveLoop (roundsFrom segments.blocks (fun _ => 0) [emptyMessage] 0 0) []
          (framesOf [emptyMessage]) =
        .ok ([], [], framesOf [emptyMessage]) ∧
      ¬NeverFails [emptyMessage] segments.blocks := by
  have ended : receiveLoop (roundsFrom [8, 8] (fun _ => 0) [emptyMessage] 0 0) []
      (framesOf [emptyMessage]) = .ok ([], [], framesOf [emptyMessage]) := by rfl
  refine ⟨⟨[8, 8], by decide, by rfl⟩, rfl, ended, fun never => ?_⟩
  have received := never _ monotone_const _ _ _ _ ended
  simp at received

end Grintorrent
