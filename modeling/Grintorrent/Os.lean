import Grintorrent.Types
import Mathlib.Logic.Function.Basic

/-!
# The environment of a client

What the program takes from outside its own sources: OpenSSL's MD5, the kernel's
answers to `open`, `ftruncate` and `mmap`, the allocator's answers, and the files
themselves.

Several paths can lead to one file.  A mapping is shared (`MAP_SHARED`): reading it
reads the file and writing it writes the file.  It reaches to the end of the page
that the file ends in; what is written behind the end of the file stays in the page,
and an access past the page is a bus error.
-/

namespace Grintorrent

open Lib

/-- The functions and policies a client does not define itself. -/
structure Env where
  /-- `MD5_CTX`. -/
  Ctx : Type
  md5Init : Ctx
  md5Update : Ctx → Bytes → Ctx
  md5Final : Ctx → Digest
  /-- The one-shot `MD5`. -/
  md5 : Bytes → Digest
  /-- Digesting consecutive blocks is digesting their concatenation. -/
  md5_blocks : ∀ blocks : List Bytes,
    md5Final (blocks.foldl md5Update md5Init) = md5 blocks.flatten
  /-- Does `open` for reading succeed on this path while so many descriptors are open? -/
  openOk : Nat → Path → Bool
  /-- Does `open` with `O_CREAT | O_RDWR`? -/
  createOk : Nat → Path → Bool
  /-- What can be opened for reading and writing can be opened for reading. -/
  readable : ∀ {descriptors path}, createOk descriptors path = true →
    openOk descriptors path = true
  /-- Does `ftruncate` succeed for a file opened under this path and this size? -/
  ftruncateOk : Path → Nat → Bool
  /-- Does `mmap` succeed for a region of this many bytes? -/
  mmapOk : Nat → Bool
  /-- The bytes of a page of memory. -/
  pageSize : Nat
  pageSize_pos : 0 < pageSize
  /-- Does the table array request of this number succeed? -/
  callocOk : Nat → Bool
  /-- Does `malloc` succeed for this many bytes? -/
  mallocOk : Nat → Bool

/-- The end of the last page of a region or file of this many bytes. -/
def Env.pageEnd (env : Env) (length : Nat) : Nat :=
  (length + env.pageSize - 1) / env.pageSize * env.pageSize

theorem Env.le_pageEnd (env : Env) (length : Nat) : length ≤ env.pageEnd length := by
  have divided := Nat.lt_div_mul_add (a := length + env.pageSize - 1) env.pageSize_pos
  have positive := env.pageSize_pos
  unfold pageEnd
  omega

theorem Env.pageEnd_zero (env : Env) : env.pageEnd 0 = 0 := by
  have positive := env.pageSize_pos
  rw [pageEnd, Nat.zero_add, Nat.div_eq_of_lt (by omega), Nat.zero_mul]

/-- The operating system as one client sees it. -/
structure Os where
  /-- The file that a path leads to, which has one path of its own. -/
  resolve : Path → Path
  /-- The content of each regular file. -/
  contents : Path → Option Bytes
  /-- What the last page of a mapped file holds at each position behind its end. -/
  behind : Path → Nat → UInt8
  /-- Descriptors of files opened and not yet closed. -/
  openFds : Nat
  /-- The address the next mapping gets. -/
  nextAddr : Nat

namespace Os

variable (env : Env) (os : Os)

/-- The content of the file at a path. -/
def files (path : Path) : Option Bytes := os.contents (os.resolve path)

/-- The file at a path, with this content from now on. -/
def setFile (path : Path) (content : Bytes) : Os :=
  { os with contents := Function.update os.contents (os.resolve path) (some content) }

/-- `open(path, O_RDONLY)`, with the content the descriptor reads. -/
def openRdonly (path : Path) : Option (Bytes × Os) :=
  if env.openOk os.openFds path then
    (os.files path).map fun content => (content, { os with openFds := os.openFds + 1 })
  else none

/-- `open(path, O_CREAT | O_RDWR, ...)`. -/
def openCreate (path : Path) : Option Os :=
  if env.createOk os.openFds path then
    some { os.setFile path ((os.files path).getD []) with openFds := os.openFds + 1 }
  else none

/-- `close` of a descriptor that is open. -/
def close : Os := { os with openFds := os.openFds - 1 }

/-- `ftruncate` of an open file.  A negative length is refused. -/
def ftruncate (path : Path) (size : Int) : Os :=
  if 0 ≤ size ∧ env.ftruncateOk path size.toNat = true then
    { os.setFile path (resize size.toNat ((os.files path).getD [])) with
      behind := Function.update os.behind (os.resolve path) fun _ => 0 }
  else os

/-- `mmap` of a whole file.  An empty region is refused, and so is a negative
length, which the conversion to `size_t` makes larger than any address space. -/
def mmap (path : Path) (size : Int) : Option (Mapping × Os) :=
  if 0 < size ∧ env.mmapOk size.toNat = true then
    some (⟨path, os.nextAddr⟩, { os with nextAddr := os.nextAddr + 1 })
  else none

/-- What the last page of a file holds behind this content. -/
def lastPage (path : Path) (content : Bytes) : Bytes :=
  (List.range' content.length (env.pageEnd content.length - content.length)).map
    (os.behind (os.resolve path))

/-- What a mapping of this size shows of a file with this content. -/
def shown (path : Path) (size : Nat) (content : Bytes) : Bytes :=
  (content ++ os.lastPage env path content).take size

/-- Read `size` bytes of a mapped region. -/
def readMapped (mapping : Mapping) (offset size : Int) : Result Bytes :=
  match os.files mapping.file with
  | none => .error .busError
  | some content =>
      if 0 ≤ offset ∧ 0 ≤ size ∧ offset + size ≤ env.pageEnd content.length then
        .ok (slice offset.toNat size.toNat (content ++ os.lastPage env mapping.file content))
      else .error .busError

/-- Copy bytes to a place in a mapped region.  Behind its end the file does not change,
and behind the last page of the region there is no mapping. -/
def writeMapped (location : Location) (data : Bytes) : Result Os :=
  if data = [] then .ok os
  else if location.offset < 0 ∨
      env.pageEnd location.length.toNat < location.offset + data.length then
    .error .outOfRange
  else
    match os.files location.mapping.file with
    | none => .error .busError
    | some content =>
        if location.offset + data.length ≤ env.pageEnd content.length then
          let file := os.resolve location.mapping.file
          let offset := location.offset.toNat
          .ok
            { os.setFile location.mapping.file
                (splice offset (data.take (content.length - offset)) content) with
              behind := Function.update os.behind file fun position =>
                if content.length ≤ position ∧ offset ≤ position then
                  data.getD (position - offset) (os.behind file position)
                else os.behind file position }
        else .error .busError

/-- The file at this path is all that may differ. -/
structure Elsewhere (path : Path) (before after : Os) : Prop where
  resolve : after.resolve = before.resolve
  files : ∀ other, before.resolve other ≠ before.resolve path →
    after.files other = before.files other

variable {env os} {path other : Path} {content : Bytes} {before between after : Os}

@[simp] theorem files_setFile : (os.setFile path content).files path = some content :=
  Function.update_self _ _ _

theorem files_setFile_of_ne (different : os.resolve other ≠ os.resolve path) :
    (os.setFile path content).files other = os.files other :=
  Function.update_of_ne different _ _

theorem files_eq_of_resolve (same : os.resolve other = os.resolve path) :
    os.files other = os.files path := by
  rw [files, files, same]

theorem setFile_self (file : os.files path = some content) : os.setFile path content = os := by
  have same : Function.update os.contents (os.resolve path) (some content) = os.contents := by
    rw [← file]
    exact Function.update_eq_self _ _
  rw [setFile, same]

theorem elsewhere_setFile : Elsewhere path os (os.setFile path content) where
  resolve := rfl
  files _ different := files_setFile_of_ne different

namespace Elsewhere

theorem refl (path : Path) (os : Os) : Elsewhere path os os where
  resolve := rfl
  files _ _ := rfl

theorem trans (first : Elsewhere path before between) (second : Elsewhere path between after) :
    Elsewhere path before after where
  resolve := second.resolve.trans first.resolve
  files other different := by
    rw [second.files other (by rwa [first.resolve]), first.files other different]

end Elsewhere

theorem length_lastPage :
    (os.lastPage env path content).length = env.pageEnd content.length - content.length := by
  rw [lastPage, List.length_map, List.length_range']

theorem length_shown {size : Nat} (page : size ≤ env.pageEnd content.length) :
    (os.shown env path size content).length = size := by
  have within := env.le_pageEnd content.length
  apply List.length_take_of_le
  rw [List.length_append, length_lastPage]
  omega

theorem shown_whole : os.shown env path content.length content = content :=
  List.take_left

theorem readMapped_shown {mapping : Mapping} {offset length size : Nat}
    (file : os.files mapping.file = some content) (inside : offset + length ≤ size)
    (page : size ≤ env.pageEnd content.length) :
    os.readMapped env mapping offset length =
      .ok (slice offset length (os.shown env mapping.file size content)) := by
  simp only [readMapped, file]
  rw [if_pos (by omega), Int.toNat_natCast, Int.toNat_natCast, shown, slice_take inside]

theorem readMapped_slice {mapping : Mapping} {offset size : Nat}
    (file : os.files mapping.file = some content) (inside : offset + size ≤ content.length) :
    os.readMapped env mapping offset size = .ok (slice offset size content) := by
  rw [readMapped_shown file inside (env.le_pageEnd _), shown_whole]

theorem writeMapped_inside {mapping : Mapping} {data : Bytes} {length offset : Nat}
    (file : os.files mapping.file = some content)
    (inside : offset + data.length ≤ content.length)
    (within : offset + data.length ≤ length) :
    os.writeMapped env ⟨mapping, length, offset⟩ data =
      .ok (os.setFile mapping.file (splice offset data content)) := by
  by_cases nothing : data = []
  · simp only [writeMapped, nothing, if_true, splice_nil, setFile_self file]
  have region := env.le_pageEnd length
  have page := env.le_pageEnd content.length
  have whole : data.take (content.length - offset) = data := List.take_of_length_le (by omega)
  have same : (fun position =>
      if content.length ≤ position ∧ offset ≤ position then
        data.getD (position - offset) (os.behind (os.resolve mapping.file) position)
      else os.behind (os.resolve mapping.file) position) =
      os.behind (os.resolve mapping.file) := by
    funext position
    split
    next outside =>
        rw [List.getD_eq_getElem?_getD, List.getElem?_eq_none (by omega), Option.getD_none]
    next => rfl
  simp only [writeMapped, if_neg nothing, Int.toNat_natCast, file, whole, same,
    Function.update_eq_self]
  rw [if_neg (by omega), if_pos (by omega)]
  rfl

theorem writeMapped_made {mapping : Mapping} {data : Bytes} {length offset : Nat}
    (file : os.files mapping.file = some content)
    (region : offset + data.length ≤ env.pageEnd length)
    (page : offset + data.length ≤ env.pageEnd content.length) :
    ∃ after, os.writeMapped env ⟨mapping, length, offset⟩ data = .ok after := by
  by_cases nothing : data = []
  · exact ⟨os, by rw [writeMapped, if_pos nothing]⟩
  · simp only [writeMapped, if_neg nothing, Int.toNat_natCast, file]
    rw [if_neg (by omega), if_pos (by omega)]
    exact ⟨_, rfl⟩

/-- What a copy does that was made: it is one of no bytes, or it lies in the mapping and
changes the bytes of the file that it reaches. -/
theorem writeMapped_cases {location : Location} {data : Bytes}
    (written : os.writeMapped env location data = .ok after) :
    data = [] ∧ after = os ∨
      ∃ (content : Bytes) (offset : Nat), data ≠ [] ∧ location.offset = offset ∧
        offset + data.length ≤ env.pageEnd location.length.toNat ∧
        os.files location.mapping.file = some content ∧
        offset + data.length ≤ env.pageEnd content.length ∧
        after.files location.mapping.file =
          some (splice offset (data.take (content.length - offset)) content) ∧
        Elsewhere location.mapping.file os after ∧ after.openFds = os.openFds ∧
        after.nextAddr = os.nextAddr := by
  simp only [writeMapped] at written
  split at written
  next empty =>
      cases written
      exact .inl ⟨empty, rfl⟩
  next nonempty =>
      split at written
      next => simp at written
      next inside =>
          obtain ⟨positive, region⟩ := not_or.mp inside
          obtain ⟨offset, isOffset⟩ := Int.eq_ofNat_of_zero_le (Int.not_lt.mp positive)
          rw [isOffset, Int.toNat_natCast] at written
          split at written
          next => simp at written
          next content file =>
              split at written
              next within =>
                  cases written
                  exact .inr ⟨content, offset, nonempty, isOffset, by omega, file, by omega,
                    Function.update_self _ _ _,
                    ⟨rfl, fun _ different => Function.update_of_ne different _ _⟩, rfl, rfl⟩
              next => simp at written

end Os

/-- The table of a client together with the files it describes. -/
structure Store where
  ht : Htable
  os : Os

end Grintorrent
