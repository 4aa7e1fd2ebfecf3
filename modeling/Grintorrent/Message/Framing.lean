import Grintorrent.Message.Basic
import Mathlib.Combinatorics.Enumerative.Composition

/-!
# Framing

However the kernel splits the transfers of the payloads, `send_message` puts the
frame of its message on the stream, and one round of the read loop takes exactly
one frame off it.  So the receiver never loses step with the sender, over any
number of messages, empty ones included.

The ways to split a transfer of `n` bytes into positive counts are the
compositions of `n`.
-/

namespace Grintorrent

open Lib

/-- A message as its sender passes it to `send_message`: the payload has exactly
the size the header says, and is `NULL` only if that is zero. -/
structure Message where
  info : MessageInfo
  padding : Vector UInt8 7
  data : Option Bytes
  sized : (data.getD []).length = info.size.toNat

namespace Message

/-- The number of payload bytes. -/
def size (message : Message) : Nat := message.info.size.toNat

/-- The payload bytes. -/
def payload (message : Message) : Bytes := message.data.getD []

/-- What the message looks like on the stream. -/
def frame (message : Message) : Bytes := message.info.bytes message.padding ++ message.payload

theorem length_payload (message : Message) : message.payload.length = message.size :=
  message.sized

end Message

theorem MessageInfo.length_bytes (info : MessageInfo) (padding : Vector UInt8 7) :
    (info.bytes padding).length = sizeOf := by
  simp [bytes, sizeOf]

theorem MessageInfo.decode_append (info : MessageInfo) (padding : Vector UInt8 7)
    (rest : Bytes) : decode (info.bytes padding ++ rest) = info := by
  have sizeBytes : slice 8 8 (info.bytes padding ++ rest) = leBytes 8 info.size.toNat := by
    have passed : padding.toList.length = 7 := by simp
    simp [slice, bytes, passed]
  simp only [decode, sizeBytes]
  rw [leNat_leBytes (by simpa using info.size.isLt), BitVec.ofNat_toNat, BitVec.setWidth_eq]
  rfl

/-- The counts of system calls that transferred these numbers of bytes. -/
def counts (split : List Nat) : List Int := split.map fun count : Nat => (count : Int)

section Loops

variable {size : Nat} {split : List Nat}

theorem sendPayload_split {data : Bytes} {bytesWritten : Nat} {stream : Bytes}
    (positive : ∀ count ∈ split, 0 < count) (total : bytesWritten + split.sum = size)
    (exact : data.length = size) :
    sendPayload size data (counts split) bytesWritten stream =
      .ok (success, stream ++ data.drop bytesWritten) := by
  induction split generalizing bytesWritten stream with
  | nil =>
      obtain rfl : bytesWritten = size := total
      have finished : data.drop bytesWritten = [] := List.drop_eq_nil_of_le exact.le
      simp [counts, sendPayload, finished]
  | cons count split ih =>
      have advances : 0 < count := positive count List.mem_cons_self
      rw [List.sum_cons] at total
      have written : slice bytesWritten count data ++ data.drop (bytesWritten + count) =
          data.drop bytesWritten := by
        rw [slice, ← List.drop_drop, List.take_append_drop]
      have rest := @ih (bytesWritten + count) (stream ++ slice bytesWritten count data)
        (fun other member => positive other (List.mem_cons_of_mem _ member)) (by omega)
      simp only [counts, List.map_cons, sendPayload, Int.toNat_natCast]
      rw [if_pos (by omega), if_neg (by omega), if_neg (by omega)]
      exact rest.trans (by rw [List.append_assoc, written])

/-- The first loop of `receive_message` stores the rest of the payload and leaves
what follows it on the stream. -/
theorem receivePayload_split {data front rest : Bytes} {bytesRead : Nat}
    (positive : ∀ count ∈ split, 0 < count) (total : bytesRead + split.sum = size)
    (exact : front.length = split.sum) (fits : size ≤ data.length) :
    receivePayload size (counts split) data bytesRead (front ++ rest) =
      .ok (some (splice bytesRead front data, size), rest) := by
  induction split generalizing data front bytesRead with
  | nil =>
      obtain rfl : front = [] := List.eq_nil_of_length_eq_zero exact
      obtain rfl : bytesRead = size := total
      simp [counts, receivePayload, splice_nil]
  | cons count split ih =>
      have advances : 0 < count := positive count List.mem_cons_self
      rw [List.sum_cons] at total exact
      have taken : (front ++ rest).take count = front.take count :=
        List.take_append_of_le_length (by omega)
      have dropped : (front ++ rest).drop count = front.drop count ++ rest :=
        List.drop_append_of_le_length (by omega)
      have length : (front.take count).length = count := by
        rw [List.length_take]
        omega
      have inside : bytesRead + (front.take count).length + (front.drop count).length ≤
          data.length := by
        rw [length, List.length_drop]
        omega
      have joined : splice (bytesRead + count) (front.drop count)
          (splice bytesRead (front.take count) data) = splice bytesRead front data := by
        have both := splice_splice inside
        rw [length, List.take_append_drop] at both
        exact both
      have others := @ih (splice bytesRead (front.take count) data) (front.drop count)
        (bytesRead + count)
        (fun other member => positive other (List.mem_cons_of_mem _ member)) (by omega)
        (by rw [List.length_drop]; omega)
        (by rw [length_splice (by omega)]; exact fits)
      simp only [counts, List.map_cons, receivePayload, Int.toNat_natCast, taken, dropped]
      rw [if_pos (by omega), if_neg (by omega), if_neg (by omega)]
      exact others.trans (by rw [joined])

end Loops

namespace Message

variable (message : Message)

/-- The header goes out whole, the payload in these parts. -/
def writes (split : Composition message.size) : Writes where
  header := MessageInfo.sizeOf
  payload := counts split.blocks

/-- The header is peeked and read whole, the payload in these parts. -/
def reads (split : Composition message.size) : Reads where
  peek := MessageInfo.sizeOf
  header := MessageInfo.sizeOf
  payload := counts split.blocks
  discarded := []

/-- **`send_message` puts the frame on the stream.** -/
theorem send_frame (split : Composition message.size) (stream : Bytes) :
    sendMessage (message.writes split) stream message.info message.padding message.data =
      .ok (success, stream ++ message.frame) := by
  have header : (message.info.bytes message.padding).take MessageInfo.sizeOf =
      message.info.bytes message.padding :=
    List.take_of_length_le (message.info.length_bytes message.padding).le
  have payload : message.payload = message.data.getD [] := rfl
  cases isNull : message.data with
  | none => simp [sendMessage, writes, header, frame, payload, isNull]
  | some data =>
      have length : data.length = message.size := by
        have sized := message.sized
        rw [isNull] at sized
        exact sized
      simp only [sendMessage, writes, Int.toNat_natCast, header, ne_eq, not_true_eq_false,
        if_false]
      rw [show message.info.size.toNat = message.size from rfl,
        sendPayload_split (fun _ => split.blocks_pos) (by rw [split.blocks_sum]; omega) length]
      rw [frame, payload, isNull, Option.getD_some, List.drop_zero, List.append_assoc]

theorem decode_frame (rest : Bytes) :
    MessageInfo.decode (message.frame ++ rest) = message.info := by
  rw [frame, List.append_assoc, MessageInfo.decode_append]

/-- **One round of the read loop takes one frame off the stream.** -/
theorem receive_frame (split : Composition message.size) (dataRead rest : Bytes)
    (holds : message.size ≤ dataRead.length) :
    receiveMessage (message.reads split) (message.frame ++ rest) (some dataRead)
        message.info.size.toNat =
      .ok (success, some (splice 0 message.payload dataRead), rest) := by
  have behind : (message.frame ++ rest).drop MessageInfo.sizeOf = message.payload ++ rest := by
    rw [frame, List.append_assoc, ← message.info.length_bytes message.padding, List.drop_left]
  have stored := @receivePayload_split message.size split.blocks dataRead message.payload rest 0
    (fun _ => split.blocks_pos) (by rw [split.blocks_sum]; omega)
    (by rw [split.blocks_sum]; exact message.length_payload) holds
  simp only [receiveMessage, message.decode_frame, reads, Int.toNat_natCast, behind, ne_eq,
    not_true_eq_false, if_false, Option.isNone_some, Bool.false_eq_true, Nat.min_self,
    Option.getD_some]
  rw [show message.info.size.toNat = message.size from rfl, stored, Result.ok_bind]
  simp

/-- A round whose peek and header are whole hands the message to `receive_message`. -/
theorem receiveLoop_cons (split : Composition message.size) (rounds : List Reads)
    (dataRead rest : Bytes) :
    receiveLoop (message.reads split :: rounds) dataRead (message.frame ++ rest) = (do
      let (code, data, stream) ←
        receiveMessage (message.reads split) (message.frame ++ rest) (some dataRead)
          message.info.size.toNat
      let dataRead := data.getD dataRead
      if code ≠ success then .ok ([], dataRead, stream)
      else do
        let (received, left, stream) ← receiveLoop rounds dataRead stream
        .ok ((message.info, dataRead.take message.info.size.toNat) :: received, left, stream)) := by
  have peeked : incomingMessageInfo (message.reads split).peek (message.frame ++ rest) =
      some message.info := by
    simp [incomingMessageInfo, reads, message.decode_frame]
  simp only [receiveLoop, peeked]

theorem receiveLoop_frame (split : Composition message.size) (rounds : List Reads)
    {dataRead : Bytes} (holds : message.size ≤ dataRead.length) (rest : Bytes) :
    receiveLoop (message.reads split :: rounds) dataRead (message.frame ++ rest) = (do
      let (received, left, stream) ←
        receiveLoop rounds (splice 0 message.payload dataRead) rest
      .ok ((message.info, message.payload) :: received, left, stream)) := by
  have delivered : (splice 0 message.payload dataRead).take message.info.size.toNat =
      message.payload := by
    rw [splice_zero, show message.info.size.toNat = message.size from rfl,
      ← message.length_payload, List.take_left]
  simp only [message.receiveLoop_cons, message.receive_frame split dataRead rest holds,
    Result.ok_bind, Option.getD_some, ne_eq, not_true_eq_false, if_false, delivered]

end Message

/-- A message with the way its payload is split on the way out and on the way
in. -/
structure Transfer where
  message : Message
  sent : Composition message.size
  received : Composition message.size

/-- Successive `send_message` calls: their return codes and the stream. -/
def sendAll : List Transfer → (stream : Bytes) → Result (List Int × Bytes)
  | [], stream => .ok ([], stream)
  | transfer :: transfers, stream => do
      let message := transfer.message
      let (code, stream) ← sendMessage (message.writes transfer.sent) stream message.info
        message.padding message.data
      let (codes, stream) ← sendAll transfers stream
      .ok (code :: codes, stream)

/-- The frames of a sequence of messages. -/
def frames (transfers : List Transfer) : Bytes :=
  transfers.flatMap fun transfer => transfer.message.frame

theorem frames_cons (transfer : Transfer) (transfers : List Transfer) :
    frames (transfer :: transfers) = transfer.message.frame ++ frames transfers := by
  simp [frames]

theorem sendAll_frames (transfers : List Transfer) (stream : Bytes) :
    sendAll transfers stream =
      .ok (transfers.map fun _ => success, stream ++ frames transfers) := by
  induction transfers generalizing stream with
  | nil => simp [sendAll, frames]
  | cons transfer transfers ih =>
      simp only [sendAll, transfer.message.send_frame, Result.ok_bind, ih, frames,
        List.flatMap_cons, List.map_cons, List.append_assoc]

/-- The read loop takes the frames off the stream one by one and stops in front of
what follows them. -/
theorem receiveLoop_frames (transfers : List Transfer) (dataRead rest : Bytes)
    (holds : ∀ transfer ∈ transfers, transfer.message.size ≤ dataRead.length) :
    ∃ left, left.length = dataRead.length ∧
      receiveLoop (transfers.map fun transfer => transfer.message.reads transfer.received)
          dataRead (frames transfers ++ rest) =
        .ok (transfers.map fun transfer =>
          (transfer.message.info, transfer.message.payload), left, rest) := by
  induction transfers generalizing dataRead with
  | nil => exact ⟨dataRead, rfl, rfl⟩
  | cons transfer transfers ih =>
      have fits : transfer.message.size ≤ dataRead.length := holds transfer List.mem_cons_self
      have inside : 0 + transfer.message.payload.length ≤ dataRead.length := by
        rw [transfer.message.length_payload]
        omega
      have length : (splice 0 transfer.message.payload dataRead).length = dataRead.length :=
        length_splice inside
      obtain ⟨left, sameLength, received⟩ :=
        ih (splice 0 transfer.message.payload dataRead) fun other member => by
          rw [length]
          exact holds other (List.mem_cons_of_mem _ member)
      refine ⟨left, sameLength.trans length, ?_⟩
      rw [frames_cons, List.append_assoc, List.map_cons,
        transfer.message.receiveLoop_frame transfer.received _ fits, received]
      rfl

/-- **Framing round trip.**  For every sequence of messages, every split of their
payload writes and payload reads, and every buffer that holds each payload: all
sends succeed, and the read loop delivers the same types, sizes and payloads in
order and leaves the stream empty. -/
theorem framing_round_trip (transfers : List Transfer) (dataRead : Bytes)
    (holds : ∀ transfer ∈ transfers, transfer.message.size ≤ dataRead.length) :
    ∃ stream left,
      sendAll transfers [] = .ok (transfers.map fun _ => success, stream) ∧
      receiveLoop (transfers.map fun transfer => transfer.message.reads transfer.received)
          dataRead stream =
        .ok (transfers.map fun transfer =>
          (transfer.message.info, transfer.message.payload), left, []) := by
  obtain ⟨left, _, received⟩ := receiveLoop_frames transfers dataRead [] holds
  rw [List.append_nil] at received
  exact ⟨frames transfers, left, sendAll_frames transfers [], received⟩

/-- A message of three bytes that is sent in one part and received in three, and
an empty one with no payload. -/
def sampleTransfers : List Transfer :=
  [{ message :=
      { info := ⟨0xB, 3⟩
        padding := Vector.replicate 7 0
        data := some [1, 2, 3]
        sized := rfl }
     sent := Composition.single 3 (by decide)
     received := Composition.ones 3 },
   { message :=
      { info := ⟨0xE, 0⟩
        padding := Vector.replicate 7 1
        data := none
        sized := rfl }
     sent := Composition.ones 0
     received := Composition.ones 0 }]

theorem framing_round_trip_sample :
    ∃ stream left,
      sendAll sampleTransfers [] = .ok ([success, success], stream) ∧
      receiveLoop (sampleTransfers.map fun transfer =>
          transfer.message.reads transfer.received) [0, 0, 0, 0] stream =
        .ok ([(⟨0xB, 3⟩, [1, 2, 3]), (⟨0xE, 0⟩, [])], left, []) :=
  framing_round_trip sampleTransfers [0, 0, 0, 0] (by decide)

end Grintorrent
