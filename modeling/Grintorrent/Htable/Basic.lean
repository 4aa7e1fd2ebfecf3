import Grintorrent.Lib.Probing
import Grintorrent.Types

/-!
# The tfile table (`htable.c`)

Open addressing with linear probing.  A slot is vacant when both 64-bit halves
of its stored hash are zero.  The probe index starts at the low bits of the
first half and is advanced by `nextIndex`, which restarts at zero only after it
has already reached `capacity`; reading that index is an access outside the
array.

`add_htable` and `resize_htable` call each other, so they are defined together
over the number of nested steps granted to them.
-/

namespace Grintorrent

open Lib

/-- The two 64-bit words `add_htable` and `search_htable` read from a hash. -/
def words (hash : Digest) : BitVec 64 × BitVec 64 :=
  (hash.extractLsb' 0 64, hash.extractLsb' 64 64)

/-- The key of a slot, or `none` when `!test_hash1 && !test_hash2`. -/
def Tfile.key (slot : Tfile) : Option (BitVec 64 × BitVec 64) :=
  if words slot.tdef.fHash = (0, 0) then none else some (words slot.tdef.fHash)

/-- `hash1 & (uint64_t)(capacity - 1)`. -/
def homeIndex (capacity : Nat) (key : BitVec 64 × BitVec 64) : Nat :=
  (key.1 &&& BitVec.ofNat 64 (capacity - 1)).toNat

/-- `if (index >= capacity) index = 0; else index++;` -/
def nextIndex (capacity index : Nat) : Nat :=
  if capacity ≤ index then 0 else index + 1

/-- `STARTING_CAPACITY`. -/
def startingCapacity : Nat := 256

/-- `init_htable`. -/
def initHtable : Htable where
  capacity := startingCapacity
  size := 0
  table := List.replicate startingCapacity .zero
  callocs := 0

namespace Htable

/-- The probe loop shared by `add_htable` and `search_htable`.  An array whose
length is `capacity` is left after at most `capacity + 1` reads. -/
def probe (ht : Htable) (hash : Digest) : Probe :=
  Lib.probe Tfile.key (nextIndex ht.capacity) ht.table (words hash)
    (ht.capacity + 1) (homeIndex ht.capacity (words hash))

/-- `htable->table[index].tdef = tdef; htable->size++;` -/
def fill (ht : Htable) (index : Nat) (tdef : TfileDef) : Htable :=
  { ht with
    size := ht.size + 1
    table := ht.table.modify index fun slot => { slot with tdef } }

/-- Assign the two locations of a slot. -/
def setLocations (ht : Htable) (index : Nat)
    (fLocation : Option Path) (mLocation : Option Mapping) : Htable :=
  { ht with
    table := ht.table.modify index fun slot => { slot with fLocation, mLocation } }

/-- The part of `add_htable` after the growth test. -/
def insert (ht : Htable) (tdef : TfileDef) : Result (Htable × Option Nat) :=
  match ht.probe tdef.fHash with
  | .vacant index => .ok (ht.fill index tdef, some index)
  | .occupied _ => .ok (ht, none)
  | .outside _ => .error .outOfRange
  | .running => .error .running

/-- The growth test of `add_htable`. -/
def Grows (ht : Htable) : Prop := ht.capacity < ht.size * 2

instance (ht : Htable) : Decidable ht.Grows :=
  inferInstanceAs (Decidable (_ < _))

end Htable

/-- `search_htable`: the index of the slot, or `none` for `NULL`. -/
def searchHtable (ht : Htable) (hash : Digest) : Result (Option Nat) :=
  match ht.probe hash with
  | .vacant _ => .ok none
  | .occupied index => .ok (some index)
  | .outside _ => .error .outOfRange
  | .running => .error .running

/-- `*(uint16_t*)f_hash`, the word `resize_htable` tests. -/
def testHash (slot : Tfile) : BitVec 16 :=
  slot.tdef.fHash.extractLsb' 0 16

mutual

/-- `add_htable`: the index of the filled slot, or `none` for `NULL`.
`callocOk` is the allocator's answer to the request of each number. -/
def addHtable (callocOk : Nat → Bool) :
    (fuel : Nat) → Htable → TfileDef → Result (Htable × Option Nat)
  | 0, _, _ => .error .running
  | fuel + 1, ht, tdef =>
      if ht.Grows then do
        let (resized, _) ← resizeHtable callocOk fuel ht
        resized.insert tdef
      else ht.insert tdef

/-- `resize_htable`.  The new array is installed as `calloc` returned it. -/
def resizeHtable (callocOk : Nat → Bool) :
    (fuel : Nat) → Htable → Result (Htable × Int)
  | 0, _ => .error .running
  | fuel + 1, ht =>
      let requested := { ht with callocs := ht.callocs + 1 }
      if callocOk ht.callocs then do
        let rehashed ← rehash callocOk fuel requested 0
        .ok ({ rehashed with
          capacity := ht.capacity * 2
          table := List.replicate (ht.capacity * 2) .zero }, 1)
      else .ok (requested, -1)

/-- The loop of `resize_htable` from slot `index` on.  It passes the slots whose
test word is zero to `add_htable`, on the table that is being resized. -/
def rehash (callocOk : Nat → Bool) :
    (fuel : Nat) → Htable → (index : Nat) → Result Htable
  | 0, _, _ => .error .running
  | fuel + 1, ht, index =>
      if index < ht.capacity then
        match ht.table[index]? with
        | none => .error .outOfRange
        | some slot =>
            if testHash slot = 0 then do
              let (added, place) ← addHtable callocOk fuel ht slot.tdef
              match place, added.table[index]? with
              | none, _ => .error .nullPointer
              | some _, none => .error .outOfRange
              | some target, some source =>
                  rehash callocOk fuel
                    (added.setLocations target source.fLocation source.mLocation)
                    (index + 1)
            else rehash callocOk fuel ht (index + 1)
      else .ok ht

end

end Grintorrent
