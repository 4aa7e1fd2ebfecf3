import Mathlib.Data.List.Basic
import Mathlib.Tactic.Ring
import Mathlib.Tactic.IntervalCases

/-!
# Byte strings

Fixed-width little-endian numbers, ranges of a byte string, and overwriting a
range in place.  Nothing here refers to a particular format: the wire records
and the file contents are both read and written through these operations.
-/

namespace Grintorrent.Lib

/-- A byte string: a file's content, a buffer, or what a stream carries. -/
abbrev Bytes := List UInt8

/-- The bytes of a text of ASCII characters. -/
def asciiBytes (text : String) : Bytes :=
  text.toList.map fun char => UInt8.ofNat char.toNat

/-- The `width` low bytes of a number, least significant first. -/
def leBytes : (width : Nat) → Nat → Bytes
  | 0, _ => []
  | width + 1, value => UInt8.ofNat value :: leBytes width (value / 256)

/-- The number whose little-endian bytes are given. -/
def leNat : Bytes → Nat
  | [] => 0
  | byte :: rest => byte.toNat + 256 * leNat rest

@[simp] theorem length_leBytes (width value : Nat) :
    (leBytes width value).length = width := by
  induction width generalizing value with
  | zero => rfl
  | succ width ih => simp [leBytes, ih]

theorem leNat_leBytes_mod (width value : Nat) :
    leNat (leBytes width value) = value % 256 ^ width := by
  induction width generalizing value with
  | zero => simp [leBytes, leNat, Nat.mod_one]
  | succ width ih =>
      have split : value % 256 ^ (width + 1) =
          value % 256 + 256 * (value / 256 % 256 ^ width) := by
        rw [Nat.pow_succ', Nat.mod_mul]
      simp only [leBytes, leNat, ih, UInt8.toNat_ofNat', split]

theorem leNat_leBytes {width value : Nat} (fits : value < 256 ^ width) :
    leNat (leBytes width value) = value := by
  rw [leNat_leBytes_mod, Nat.mod_eq_of_lt fits]

theorem leNat_lt (bytes : Bytes) : leNat bytes < 256 ^ bytes.length := by
  induction bytes with
  | nil => simp [leNat]
  | cons byte rest ih =>
      have small := byte.toNat_lt
      simp only [leNat, List.length_cons, Nat.pow_succ']
      omega

theorem leBytes_leNat (bytes : Bytes) : leBytes bytes.length (leNat bytes) = bytes := by
  induction bytes with
  | nil => rfl
  | cons byte rest ih =>
      have small := byte.toNat_lt
      have low : UInt8.ofNat (byte.toNat + 256 * leNat rest) = byte := by
        apply UInt8.toNat_inj.mp
        rw [UInt8.toNat_ofNat']
        omega
      have high : (byte.toNat + 256 * leNat rest) / 256 = leNat rest := by omega
      simp only [leNat, List.length_cons, leBytes, low, high, ih]

theorem leNat_append (front back : Bytes) :
    leNat (front ++ back) = leNat front + 256 ^ front.length * leNat back := by
  induction front with
  | nil => simp [leNat]
  | cons byte rest ih =>
      simp only [List.cons_append, leNat, ih, List.length_cons, Nat.pow_succ]
      ring

theorem eq_of_leNat {left right : Bytes} (sameLength : left.length = right.length)
    (same : leNat left = leNat right) : left = right := by
  rw [← leBytes_leNat left, ← leBytes_leNat right, sameLength, same]

theorem leNat_ne_zero {bytes : Bytes} {byte : UInt8} (member : byte ∈ bytes)
    (nonzero : byte ≠ 0) : leNat bytes ≠ 0 := by
  induction bytes with
  | nil => simp at member
  | cons head rest ih =>
      simp only [leNat]
      rcases List.mem_cons.mp member with isHead | later
      · subst isHead
        have positive : byte.toNat ≠ 0 := fun zero => nonzero (UInt8.toNat_inj.mp zero)
        omega
      · have positive := ih later
        omega

theorem leNat_eq_zero_iff {bytes : Bytes} : leNat bytes = 0 ↔ ∀ byte ∈ bytes, byte = 0 := by
  constructor
  · intro zero byte member
    by_contra nonzero
    exact leNat_ne_zero member nonzero zero
  · intro zero
    induction bytes with
    | nil => rfl
    | cons head rest ih =>
        rw [leNat, zero head List.mem_cons_self, ih fun byte later =>
          zero byte (List.mem_cons_of_mem _ later)]
        rfl

section Ranges

variable {α : Type*}

/-- The `length` elements from position `offset` on, or fewer at the end. -/
def slice (offset length : Nat) (values : List α) : List α :=
  (values.drop offset).take length

/-- Overwrite the elements from `offset` on with `patch`. -/
def splice (offset : Nat) (patch values : List α) : List α :=
  values.take offset ++ patch ++ values.drop (offset + patch.length)

theorem length_slice {offset length : Nat} {values : List α}
    (inside : offset + length ≤ values.length) :
    (slice offset length values).length = length := by
  simp only [slice, List.length_take, List.length_drop]
  omega

theorem length_splice {offset : Nat} {patch values : List α}
    (inside : offset + patch.length ≤ values.length) :
    (splice offset patch values).length = values.length := by
  simp only [splice, List.length_append, List.length_take, List.length_drop]
  omega

theorem getElem?_slice (offset length : Nat) (values : List α) (position : Nat) :
    (slice offset length values)[position]? =
      if position < length then values[offset + position]? else none := by
  simp only [slice, List.getElem?_take, List.getElem?_drop]

theorem getElem?_splice {offset : Nat} {patch values : List α}
    (inside : offset + patch.length ≤ values.length) (position : Nat) :
    (splice offset patch values)[position]? =
      if offset ≤ position ∧ position < offset + patch.length then
        patch[position - offset]?
      else values[position]? := by
  have head : (values.take offset).length = offset := by
    simp only [List.length_take]
    omega
  rcases Nat.lt_or_ge position offset with before | after
  · rw [splice, List.append_assoc, List.getElem?_append_left (by omega),
      List.getElem?_take_of_lt before, if_neg (by omega)]
  rcases Nat.lt_or_ge position (offset + patch.length) with within | beyond
  · rw [splice, List.append_assoc, List.getElem?_append_right (by omega), head,
      List.getElem?_append_left (by omega), if_pos ⟨after, within⟩]
  · rw [splice, List.getElem?_append_right (by simp; omega), List.getElem?_drop,
      if_neg (by omega)]
    congr 1
    simp only [List.length_append, head]
    omega

/-- What was written is read back. -/
theorem slice_splice_self {offset : Nat} {patch values : List α}
    (inside : offset + patch.length ≤ values.length) :
    slice offset patch.length (splice offset patch values) = patch := by
  apply List.ext_getElem?
  intro position
  rw [getElem?_slice]
  split
  · rename_i within
    rw [getElem?_splice inside, if_pos (by omega)]
    congr 1
    omega
  · rename_i beyond
    exact (List.getElem?_eq_none (by omega)).symm

/-- A write leaves every disjoint range alone. -/
theorem slice_splice_of_disjoint {offset start length : Nat}
    {patch values : List α}
    (inside : offset + patch.length ≤ values.length)
    (disjoint : start + length ≤ offset ∨ offset + patch.length ≤ start) :
    slice start length (splice offset patch values) =
      slice start length values := by
  apply List.ext_getElem?
  intro position
  rw [getElem?_slice, getElem?_slice]
  split
  · rw [getElem?_splice inside, if_neg (by omega)]
  · rfl

theorem slice_append_slice (offset first second : Nat) (values : List α) :
    slice offset first values ++ slice (offset + first) second values =
      slice offset (first + second) values := by
  simp only [slice, List.take_add, List.drop_drop]

theorem slice_zero_length (values : List α) :
    slice 0 values.length values = values := by
  simp [slice]

theorem slice_take {offset length limit : Nat} (inside : offset + length ≤ limit)
    (values : List α) : slice offset length (values.take limit) = slice offset length values := by
  rw [slice, slice, List.drop_take, List.take_take, Nat.min_eq_left (by omega)]

theorem slice_append_left {offset length : Nat} {front : List α}
    (inside : offset + length ≤ front.length) (back : List α) :
    slice offset length (front ++ back) = slice offset length front := by
  have fits : length ≤ (front.drop offset).length := by
    rw [List.length_drop]
    omega
  rw [slice, slice, List.drop_append_of_le_length (by omega), List.take_append_of_le_length fits]

theorem slice_append_right {start : Nat} {front : List α} (exact : front.length = start)
    (offset length : Nat) (back : List α) :
    slice (start + offset) length (front ++ back) = slice offset length back := by
  rw [slice, slice, ← exact, List.drop_length_add_append]

theorem slice_front {length : Nat} {front : List α} (exact : front.length = length)
    (back : List α) : slice 0 length (front ++ back) = front := by
  rw [slice, List.drop_zero, List.take_left' exact]

theorem slice_flatMap {ι : Type*} {fields : ι → List α} {width : Nat}
    (widths : ∀ i, (fields i).length = width) (items : List ι) {place : Nat}
    (inside : place < items.length) (rest : List α) :
    slice (width * place) width (items.flatMap fields ++ rest) = fields items[place] := by
  induction items generalizing place with
  | nil => simp at inside
  | cons item items ih =>
      rw [List.flatMap_cons, List.append_assoc]
      cases place with
      | zero => exact slice_front (widths item) _
      | succ place =>
          rw [Nat.mul_succ, Nat.add_comm, slice_append_right (widths item)]
          exact ih (Nat.lt_of_succ_lt_succ inside)

theorem splice_nil (offset : Nat) (values : List α) : splice offset [] values = values := by
  simp [splice]

theorem splice_zero (patch values : List α) :
    splice 0 patch values = patch ++ values.drop patch.length := by
  simp [splice]

theorem length_splice_take (offset : Nat) (patch values : List α) :
    (splice offset (patch.take (values.length - offset)) values).length = values.length := by
  rcases Nat.le_total offset values.length with inside | outside
  · apply length_splice
    rw [List.length_take]
    omega
  · rw [Nat.sub_eq_zero_of_le outside, List.take_zero, splice_nil]

theorem getElem?_splice_take (offset : Nat) (patch values : List α) (position : Nat) :
    (splice offset (patch.take (values.length - offset)) values)[position]? =
      if offset ≤ position ∧ position < offset + patch.length ∧ position < values.length then
        patch[position - offset]?
      else values[position]? := by
  rcases Nat.le_total offset values.length with inside | outside
  · have length : (patch.take (values.length - offset)).length =
        min (values.length - offset) patch.length := List.length_take
    rw [getElem?_splice (by omega), length]
    by_cases within : offset ≤ position ∧ position < offset + patch.length ∧
        position < values.length
    · rw [if_pos within, if_pos (by omega), List.getElem?_take_of_lt (by omega)]
    · rw [if_neg within, if_neg (by omega)]
  · rw [Nat.sub_eq_zero_of_le outside, List.take_zero, splice_nil, if_neg (by omega)]

theorem splice_splice {offset : Nat} {first second values : List α}
    (inside : offset + first.length + second.length ≤ values.length) :
    splice (offset + first.length) second (splice offset first values) =
      splice offset (first ++ second) values := by
  have within : offset + first.length ≤ values.length := by omega
  have both : offset + (first ++ second).length ≤ values.length := by
    rw [List.length_append]
    omega
  have later : offset + first.length + second.length ≤ (splice offset first values).length := by
    rw [length_splice within]
    omega
  apply List.ext_getElem?
  intro position
  rw [getElem?_splice later, getElem?_splice within, getElem?_splice both, List.length_append]
  rcases Nat.lt_or_ge position (offset + first.length) with early | late
  · rw [if_neg (by omega)]
    rcases Nat.lt_or_ge position offset with before | after
    · rw [if_neg (by omega), if_neg (by omega)]
    · rw [if_pos (by omega), if_pos (by omega), List.getElem?_append_left (by omega)]
  · rcases Nat.lt_or_ge position (offset + first.length + second.length) with inner | beyond
    · rw [if_pos (by omega), if_pos (by omega), List.getElem?_append_right (by omega)]
      congr 1
      omega
    · rw [if_neg (by omega), if_neg (by omega), if_neg (by omega)]

/-- Two lists of one length that agree on a family of ranges covering every
position are equal. -/
theorem eq_of_slices {ι : Type*} {start length : ι → Nat}
    {left right : List α}
    (sameLength : left.length = right.length)
    (cover : ∀ position < left.length, ∃ index,
      start index ≤ position ∧ position < start index + length index)
    (agree : ∀ index, slice (start index) (length index) left =
      slice (start index) (length index) right) :
    left = right := by
  apply List.ext_getElem?
  intro position
  rcases Nat.lt_or_ge position left.length with inside | outside
  · obtain ⟨index, after, before⟩ := cover position inside
    have same := congrArg (fun values => values[position - start index]?) (agree index)
    simp only [getElem?_slice] at same
    rw [if_pos (by omega), if_pos (by omega)] at same
    rwa [Nat.add_sub_cancel' after] at same
  · rw [List.getElem?_eq_none outside, List.getElem?_eq_none (by omega)]

end Ranges

/-- Cut a byte string to `length` bytes, or extend it with zero bytes. -/
def resize (length : Nat) (bytes : Bytes) : Bytes :=
  bytes.take length ++ List.replicate (length - bytes.length) 0

@[simp] theorem length_resize (length : Nat) (bytes : Bytes) :
    (resize length bytes).length = length := by
  simp only [resize, List.length_append, List.length_take, List.length_replicate]
  omega

theorem resize_of_length {length : Nat} {bytes : Bytes}
    (exact : bytes.length = length) : resize length bytes = bytes := by
  simp [resize, ← exact]

end Grintorrent.Lib
