import Grintorrent.Types

/-!
# Messages on a stream (`message.c`)

A message is a `message_info_t` followed by as many bytes as it says.  The
functions below read and write one end of a byte stream; how many bytes each
system call transfers is up to the kernel, so the counts that the calls return
are a parameter, in the order of the calls.  A function that needs another call
when the counts are used up is still running.
-/

namespace Grintorrent

open Lib

/-- `FAILED`. -/
def failed : Int := -1

/-- `SUCCESS`. -/
def success : Int := 0

/-! The types of messages.  A `message_type_t` is a byte, which may have any other value
as well. -/

/-- `REQUEST_FILE_DATA`. -/
def requestFileData : UInt8 := 0xA

/-- `FILE_DATA`. -/
def fileData : UInt8 := 0xB

/-- `TFILE_DEF`. -/
def tfileDef : UInt8 := 0xC

/-- `REQUEST_ADDR_SELF`. -/
def requestAddrSelf : UInt8 := 0xE

/-- `message_info_t`. -/
structure MessageInfo where
  type : UInt8
  size : BitVec 64
  deriving DecidableEq

namespace MessageInfo

/-- `sizeof(message_info_t)`: the size is aligned to eight bytes. -/
def sizeOf : Nat := 16

/-- The bytes of the record.  Those between the two fields have no defined
value. -/
def bytes (info : MessageInfo) (padding : Vector UInt8 7) : Bytes :=
  info.type :: padding.toList ++ leBytes 8 info.size.toNat

/-- The record at the start of a buffer. -/
def decode (data : Bytes) : MessageInfo where
  type := data.headD 0
  size := BitVec.ofNat 64 (leNat (slice 8 8 data))

end MessageInfo

/-- The counts that the calls of one `send_message` return. -/
structure Writes where
  header : Int
  payload : List Int

/-- The loop of `send_message`, from `bytes_written` on: the return code and the
stream. -/
def sendPayload (size : Nat) (data : Bytes) :
    (counts : List Int) → (bytesWritten : Nat) → (stream : Bytes) → Result (Int × Bytes)
  | [], bytesWritten, stream =>
      if bytesWritten < size then .error .running else .ok (success, stream)
  | rc :: counts, bytesWritten, stream =>
      if bytesWritten < size then
        if rc ≤ 0 then .ok (failed, stream)
        else if data.length < bytesWritten + rc.toNat then .error .outOfRange
        else sendPayload size data counts (bytesWritten + rc.toNat)
          (stream ++ slice bytesWritten rc.toNat data)
      else .ok (success, stream)

/-- `send_message`.  `data` is `none` for `NULL`. -/
def sendMessage (writes : Writes) (stream : Bytes) (info : MessageInfo)
    (padding : Vector UInt8 7) (data : Option Bytes) : Result (Int × Bytes) :=
  let stream := stream ++ (info.bytes padding).take writes.header.toNat
  if writes.header ≠ MessageInfo.sizeOf then .ok (failed, stream)
  else
    match data with
    | none => .ok (success, stream)
    | some data => sendPayload info.size.toNat data writes.payload 0 stream

/-- The counts that the calls of one round of the receiver return: the peek, the
header, the payload, and the bytes discarded. -/
structure Reads where
  peek : Int
  header : Int
  payload : List Int
  discarded : List Int

/-- `incoming_message_info`: the record it fills, or `none` for `FAILED`.  The
bytes stay on the stream. -/
def incomingMessageInfo (result : Int) (stream : Bytes) : Option MessageInfo :=
  if result ≠ MessageInfo.sizeOf then none
  else some (MessageInfo.decode stream)

/-- The first loop of `receive_message`, from `bytes_read` on: the buffer with the
number of bytes read, or `none` for `FAILED`, and the stream. -/
def receivePayload (size : Nat) :
    (counts : List Int) → (data : Bytes) → (bytesRead : Nat) → (stream : Bytes) →
      Result (Option (Bytes × Nat) × Bytes)
  | [], data, bytesRead, stream =>
      if bytesRead < size then .error .running
      else .ok (some (data, bytesRead), stream)
  | rc :: counts, data, bytesRead, stream =>
      if bytesRead < size then
        if rc ≤ 0 then .ok (none, stream)
        else if data.length < bytesRead + rc.toNat then .error .outOfRange
        else receivePayload size counts (splice bytesRead (stream.take rc.toNat) data)
          (bytesRead + rc.toNat) (stream.drop rc.toNat)
      else .ok (some (data, bytesRead), stream)

/-- The second loop of `receive_message`, which discards the rest of a message:
the stream it leaves.  It goes on while `bytes_discarded <= extra_data`. -/
def discardExtra (extraData : Int) :
    (counts : List Int) → (bytesDiscarded : Int) → (stream : Bytes) → Result Bytes
  | [], bytesDiscarded, stream =>
      if bytesDiscarded ≤ extraData then .error .running else .ok stream
  | rc :: counts, bytesDiscarded, stream =>
      if bytesDiscarded ≤ extraData then
        discardExtra extraData counts (bytesDiscarded + rc) (stream.drop rc.toNat)
      else .ok stream

/-- `receive_message`: the return code, the buffer and the stream. -/
def receiveMessage (reads : Reads) (stream : Bytes) (data : Option Bytes) (size : Nat) :
    Result (Int × Option Bytes × Bytes) :=
  let size := if data.isNone then 0 else size
  let info := MessageInfo.decode stream
  let stream := stream.drop reads.header.toNat
  if reads.header ≠ MessageInfo.sizeOf then .ok (failed, data, stream)
  else do
    let size := min size info.size.toNat
    match ← receivePayload size reads.payload (data.getD []) 0 stream with
    | (none, stream) => .ok (failed, data, stream)
    | (some (buffer, bytesRead), stream) =>
        let data := data.map fun _ => buffer
        -- The difference of the `size_t` values becomes a `ssize_t`.
        let extraData := (info.size.toNat - bytesRead : Int).bmod (2 ^ 64)
        if extraData = 0 then .ok (success, data, stream)
        else do
          let stream ← discardExtra extraData reads.discarded 0 stream
          .ok (success, data, stream)

/-- The read loop of `readWorker`, one round for each entry of `rounds`: the
messages it hands to its handlers, each with the bytes in the buffer that belong
to it, then the buffer and the stream it leaves.  It ends early when one of the
two calls fails. -/
def receiveLoop :
    (rounds : List Reads) → (dataRead stream : Bytes) →
      Result (List (MessageInfo × Bytes) × Bytes × Bytes)
  | [], dataRead, stream => .ok ([], dataRead, stream)
  | reads :: rounds, dataRead, stream =>
      match incomingMessageInfo reads.peek stream with
      | none => .ok ([], dataRead, stream)
      | some info => do
          let (code, data, stream) ←
            receiveMessage reads stream (some dataRead) info.size.toNat
          let dataRead := data.getD dataRead
          if code ≠ success then .ok ([], dataRead, stream)
          else do
            let (rest, dataRead', stream) ← receiveLoop rounds dataRead stream
            .ok ((info, dataRead.take info.size.toNat) :: rest, dataRead', stream)

end Grintorrent
