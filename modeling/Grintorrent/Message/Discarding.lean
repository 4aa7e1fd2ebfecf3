import Grintorrent.Message.Framing

/-!
# Discarding the rest of a message

`receive_message` stores as many payload bytes as its caller asks for and discards the
others.  The discarding loop goes on while `bytes_discarded <= extra_data`.  When all is
discarded it calls `recv` again, for no bytes at all, and the call returns 0 each time.
-/

namespace Grintorrent

open Lib

/-- What the calls of `recv` with `MSG_TRUNC` return while the rest of a frame is
discarded: from one byte to as many as are asked for, and 0 when none is. -/
def Discards (extra : Nat) (discards : Nat → Nat) : Prop :=
  ∀ call, discards call ≤ extra - ((List.range call).map discards).sum ∧
    (((List.range call).map discards).sum < extra → 0 < discards call)

namespace Message

variable (message : Message)

/-- The number of payload bytes that `receive_message` stores. -/
def stored (data : Option Bytes) (size : Nat) : Nat :=
  if data.isNone then 0 else min size message.size

/-- The header is read whole, the payload bytes to be stored in these parts, and these
calls have discarded the others so far. -/
def readsPart {stored : Nat} (split : Composition stored) (discards : Nat → Nat)
    (calls : Nat) : Reads where
  peek := MessageInfo.sizeOf
  header := MessageInfo.sizeOf
  payload := counts split.blocks
  discarded := counts ((List.range calls).map discards)

/-- `receive_message` returns, has stored the first bytes of the payload, and has taken
just the frame off the stream, however the calls split it. -/
def ConsumesFrame (data : Option Bytes) (size : Nat) (rest : Bytes) : Prop :=
  ∀ (split : Composition (message.stored data size)) (discards : Nat → Nat),
    Discards (message.size - message.stored data size) discards →
    ∃ calls, receiveMessage (readsPart split discards calls) (message.frame ++ rest) data size =
      .ok (success,
        data.map (splice 0 (message.payload.take (message.stored data size))), rest)

end Message

/-- As long as no more was discarded than there was, the loop goes on. -/
theorem discardExtra_running {extraData : Int} {discarded : List Nat} {bytesDiscarded : Nat}
    (within : (bytesDiscarded + discarded.sum : Int) ≤ extraData) (stream : Bytes) :
    discardExtra extraData (counts discarded) bytesDiscarded stream = .error .running := by
  induction discarded generalizing bytesDiscarded stream with
  | nil =>
      simp only [List.sum_nil, Nat.cast_zero, add_zero] at within
      simp [counts, discardExtra, within]
  | cons count discarded ih =>
      rw [List.sum_cons] at within
      have goesOn : (bytesDiscarded : Int) ≤ extraData := by omega
      have rest := @ih (bytesDiscarded + count) (by push_cast at within ⊢; omega)
      simp only [counts, List.map_cons, discardExtra, if_pos goesOn]
      exact_mod_cast rest _

/-- A frame whose rest is too long for a `ssize_t` is taken for one without a rest. -/
theorem discardExtra_negative {extraData : Int} (negative : extraData < 0)
    (discarded : List Int) (stream : Bytes) :
    discardExtra extraData discarded 0 stream = .ok stream := by
  cases discarded with
  | nil => simp [discardExtra, Int.not_le.mpr negative]
  | cons rc discarded => simp [discardExtra, Int.not_le.mpr negative]

/-- `recv` never discards more than there is. -/
theorem Discards.sum_le {extra : Nat} {discards : Nat → Nat} (allowed : Discards extra discards)
    (calls : Nat) : ((List.range calls).map discards).sum ≤ extra := by
  induction calls with
  | zero => simp
  | succ calls ih =>
      have last := (allowed calls).1
      rw [List.range_succ, List.map_append, List.sum_append]
      simp only [List.map_cons, List.map_nil, List.sum_cons, List.sum_nil]
      omega

theorem discards_once (extra : Nat) :
    Discards extra fun call => if call = 0 then extra else 0 := by
  intro call
  cases call with
  | zero => simp
  | succ call =>
      rw [List.range_succ_eq_map]
      simp

namespace Message

variable {message : Message} {data : Option Bytes} {size : Nat}

theorem stored_le : message.stored data size ≤ message.size := by
  unfold stored
  split
  next => exact Nat.zero_le _
  next => exact Nat.min_le_right _ _

theorem stored_eq_iff :
    message.stored data size = message.size ↔
      message.size = 0 ∨ data.isSome ∧ message.size ≤ size := by
  cases data with
  | none => simp [stored, eq_comm]
  | some buffer =>
      simp only [stored, Option.isNone_some, Option.isSome_some, Bool.false_eq_true, if_false,
        true_and]
      omega

theorem receive_part (split : Composition (message.stored data size)) (discards : Nat → Nat)
    (calls : Nat) (rest : Bytes)
    (fits : ∀ buffer, data = some buffer → min size message.size ≤ buffer.length) :
    receiveMessage (readsPart split discards calls) (message.frame ++ rest) data size =
      let stored := message.stored data size
      let buffer := data.map (splice 0 (message.payload.take stored))
      let behind := message.payload.drop stored ++ rest
      let extraData := (message.size - stored : Int).bmod (2 ^ 64)
      if extraData = 0 then .ok (success, buffer, behind)
      else
        discardExtra extraData (counts ((List.range calls).map discards)) 0 behind >>=
          fun stream => .ok (success, buffer, stream) := by
  have payload : (message.frame ++ rest).drop MessageInfo.sizeOf =
      message.payload.take (message.stored data size) ++
        (message.payload.drop (message.stored data size) ++ rest) := by
    rw [frame, List.append_assoc, ← message.info.length_bytes message.padding, List.drop_left,
      ← List.append_assoc, List.take_append_drop]
  have length : (message.payload.take (message.stored data size)).length = split.blocks.sum := by
    rw [split.blocks_sum, List.length_take, message.length_payload]
    exact Nat.min_eq_left stored_le
  have inside : message.stored data size ≤ (data.getD []).length := by
    cases data with
    | none => simp [stored]
    | some buffer => simpa [stored] using fits buffer rfl
  have whole := @receivePayload_split _ split.blocks (data.getD []) _
    (message.payload.drop (message.stored data size) ++ rest) 0 (fun _ => split.blocks_pos)
    (by rw [split.blocks_sum]; omega) length inside
  have asked : min (if data.isNone then 0 else size) message.info.size.toNat =
      message.stored data size := by
    unfold stored
    split
    next => exact Nat.zero_min _
    next => rfl
  have buffers : (data.map fun _ =>
        splice 0 (message.payload.take (message.stored data size)) (data.getD [])) =
      data.map (splice 0 (message.payload.take (message.stored data size))) := by
    cases data with
    | none => rfl
    | some buffer => rfl
  simp only [receiveMessage, readsPart, message.decode_frame, Int.toNat_natCast, payload, ne_eq,
    not_true_eq_false, if_false, asked, whole, Result.ok_bind, buffers]
  rfl

/-- If it does not store all of the payload, `receive_message` does not stop behind the
frame. -/
theorem not_consumesFrame (part : message.stored data size < message.size) (rest : Bytes)
    (fits : ∀ buffer, data = some buffer → min size message.size ≤ buffer.length) :
    ¬message.ConsumesFrame data size rest := by
  intro consumes
  have allowed := discards_once (message.size - message.stored data size)
  obtain ⟨calls, returned⟩ := consumes (.ones _) _ allowed
  rw [receive_part _ _ _ _ fits] at returned
  set extra := message.size - message.stored data size with isExtra
  have small : message.size < 2 ^ 64 := message.info.size.isLt
  have difference : (message.size - message.stored data size : Int) = extra := by omega
  have behind : (message.payload.drop (message.stored data size) ++ rest).length =
      extra + rest.length := by
    rw [List.length_append, List.length_drop, message.length_payload]
  simp only [difference] at returned
  rcases Nat.lt_or_ge extra (2 ^ 63) with narrow | wide
  · -- After everything is discarded the loop goes on.
    have same : (extra : Int).bmod (2 ^ 64) = extra := by
      apply Int.bmod_eq_of_le <;> omega
    have running := @discardExtra_running extra
      ((List.range calls).map fun call => if call = 0 then extra else 0) 0
      (by have within := allowed.sum_le calls; omega)
      (message.payload.drop (message.stored data size) ++ rest)
    rw [same, if_neg (by omega)] at returned
    simp only [Nat.cast_zero] at running
    rw [running] at returned
    cases returned
  · -- Nothing is discarded.
    have negative : (extra : Int).bmod (2 ^ 64) < 0 := by
      rw [Int.bmod_def]
      omega
    rw [if_neg (by omega), discardExtra_negative negative] at returned
    simp only [Result.ok_bind, Except.ok.injEq, Prod.mk.injEq, true_and] at returned
    rw [returned] at behind
    omega

end Message

/-- **`receive_message` takes one frame exactly if it stores all of it.**  However its calls
are split, it returns, has stored what was asked for and stops behind the frame, exactly if
the payload is empty or the caller asks for all of it. -/
theorem consumesFrame_iff (message : Message) (data : Option Bytes) (size : Nat) (rest : Bytes)
    (fits : ∀ buffer, data = some buffer → min size message.size ≤ buffer.length) :
    message.ConsumesFrame data size rest ↔
      message.size = 0 ∨ data.isSome ∧ message.size ≤ size := by
  rw [← Message.stored_eq_iff]
  constructor
  · intro consumes
    by_contra part
    have le := @Message.stored_le message data size
    exact Message.not_consumesFrame (by omega) rest fits consumes
  · intro all split discards _
    refine ⟨0, ?_⟩
    rw [Message.receive_part _ _ _ _ fits, all, ← message.length_payload]
    simp

/-- A message of three bytes. -/
def threeBytes : Message where
  info := ⟨0xB, 3⟩
  padding := Vector.replicate 7 0
  data := some [4, 5, 6]
  sized := rfl

/-- It is taken when four bytes are asked for. -/
theorem consumesFrame_threeBytes : threeBytes.ConsumesFrame (some [0, 0, 0, 0]) 4 [7] := by
  refine (consumesFrame_iff threeBytes (some [0, 0, 0, 0]) 4 [7] ?_).mpr
    (.inr ⟨rfl, by decide⟩)
  rintro buffer same
  cases same
  decide

/-- Asked for one byte of it, `receive_message` discards the two others with its first call
and then calls `recv` for nothing without end. -/
theorem consumesFrame_one_fails :
    (∀ calls, receiveMessage
        (Message.readsPart (Composition.single 1 (by decide))
          (fun call => if call = 0 then 2 else 0) calls)
        (threeBytes.frame ++ [7]) (some [0]) 1 = .error .running) ∧
      ¬threeBytes.ConsumesFrame (some [0]) 1 [7] := by
  have fits : ∀ buffer : Bytes, some [0] = some buffer →
      min 1 threeBytes.size ≤ buffer.length := by
    rintro buffer same
    cases same
    decide
  refine ⟨fun calls => ?_, Message.not_consumesFrame (by decide) [7] fits⟩
  have received := @Message.receive_part threeBytes (some [0]) 1
    (Composition.single 1 (by decide)) (fun call => if call = 0 then 2 else 0) calls [7] fits
  have running := @discardExtra_running 2
    ((List.range calls).map fun call => if call = 0 then 2 else 0) 0
    (by have within := (discards_once 2).sum_le calls; omega) [5, 6, 7]
  refine received.trans ?_
  exact congrArg (fun left : Result Bytes => left >>= fun stream =>
    .ok (success, (some [0]).map (splice 0 (threeBytes.payload.take 1)), stream)) running

end Grintorrent
