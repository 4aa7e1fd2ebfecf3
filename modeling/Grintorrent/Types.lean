import Grintorrent.Lib.Bytes
import Mathlib.Data.Fintype.Pi

/-!
# Data model

The records of `file.h`, and the ways in which a call can fail to return.

A 16-byte MD5 digest is read as one little-endian number, so that its first and
second eight bytes are its low and high 64-bit words.  `off_t` and `int` values
are integers; the places where their width matters say so.
-/

namespace Grintorrent

open Lib

/-- `unsigned char [MD5_DIGEST_LENGTH]`. -/
abbrev Digest := BitVec 128

/-- A path name, without its terminating NUL. -/
abbrev Path := Bytes

/-- `NUM_CHUNKS`. -/
abbrev numChunks : Nat := 8

instance : NeZero numChunks := ⟨by decide⟩

/-- `NAME_LEN`. -/
abbrev nameLen : Nat := 32

/-- `tfile_def_t`: the definition of a torrent file, as peers exchange it. -/
structure TfileDef where
  name : Vector UInt8 nameLen
  fHash : Digest
  cHashes : Fin numChunks → Digest
  size : Int
  deriving DecidableEq

/-- The all-zero record. -/
def TfileDef.zero : TfileDef where
  name := Vector.replicate nameLen 0
  fHash := 0
  cHashes := fun _ => 0
  size := 0

/-- A region returned by `mmap`: the file it shares its bytes with, and an
address that no other mapping ever had. -/
structure Mapping where
  file : Path
  addr : Nat
  deriving DecidableEq, Repr

/-- A pointer into a mapped region of this length. -/
structure Location where
  mapping : Mapping
  length : Int
  offset : Int
  deriving DecidableEq, Repr

/-- `tfile_t`: a definition with its location on disk and in memory. -/
structure Tfile where
  tdef : TfileDef
  fLocation : Option Path
  mLocation : Option Mapping
  deriving DecidableEq

/-- A slot as `calloc` returns it. -/
def Tfile.zero : Tfile where
  tdef := .zero
  fLocation := none
  mLocation := none

/-- `htable_t`.  `callocs` counts the arrays requested so far, and only selects
the allocator's answer to the next request. -/
structure Htable where
  capacity : Nat
  size : Nat
  table : List Tfile
  callocs : Nat
  deriving DecidableEq

/-- Why a call has not returned: it is still running after the steps granted to
it, or it did something that has no defined result. -/
inductive Stop where
  /-- The call has not returned within the steps granted to it. -/
  | running
  /-- An access outside an array or buffer. -/
  | outOfRange
  /-- An access through `NULL`. -/
  | nullPointer
  /-- A signed result that its type cannot represent. -/
  | signedOverflow
  /-- An access to a mapped region behind the last page of its file. -/
  | busError
  deriving DecidableEq, Repr

/-- The result of a C function that may fail to return. -/
abbrev Result (α : Type) := Except Stop α

namespace Result

variable {α β : Type}

theorem bind_eq_ok {first : Result α} {second : α → Result β} {result : β} :
    first >>= second = .ok result ↔
      ∃ value, first = .ok value ∧ second value = .ok result := by
  cases first with
  | error stop => simp [bind, Except.bind]
  | ok value => simp [bind, Except.bind]

@[simp] theorem ok_bind (value : α) (second : α → Result β) :
    (Except.ok value : Result α) >>= second = second value := rfl

@[simp] theorem error_bind (stop : Stop) (second : α → Result β) :
    (Except.error stop : Result α) >>= second = .error stop := rfl

@[simp] theorem pure_eq_ok (value : α) :
    (pure value : Result α) = .ok value := rfl

end Result

end Grintorrent
