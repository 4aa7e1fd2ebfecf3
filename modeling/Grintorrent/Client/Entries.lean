import Grintorrent.Client.FileData
import Grintorrent.File.Entries

/-!
# Entries

What the handlers of messages for one hash do to the table and to the files.  Each of them
attaches locations to the entry of that hash, if it does anything to the table, and changes
no file but the one that this entry maps or opens.
-/

namespace Grintorrent

open Lib

variable {env : Env} {store after : Store} {hash : Digest} {chunk : Int}
variable {locals : VerifyLocals}

/-- The copy changes no other file than the one that its destination lies in. -/
theorem memcpyChunk_files {dest : Location} {dataRead : Bytes} {size : Nat}
    (copied : memcpyChunk env store (some dest) dataRead size = .ok after) :
    after.ht = store.ht ∧ Os.Elsewhere dest.mapping.file store.os after.os := by
  rcases memcpyChunk_cases copied with ⟨_, rfl⟩ | ⟨location, os, _, isDest, _, written, rfl⟩
  · exact ⟨rfl, .refl _ _⟩
  obtain rfl := Option.some.inj isDest
  rcases Os.writeMapped_cases written with ⟨_, rfl⟩ | ⟨_, _, _, _, _, _, _, _, frame, _⟩
  · exact ⟨rfl, .refl _ _⟩
  · exact ⟨rfl, frame⟩

theorem handleFileData_attached {dataRead : Bytes}
    (handled : handleFileData env store dataRead locals = .ok after) :
    Attached store.ht (ChunkPayload.decode dataRead).fileHash after.ht := by
  obtain ⟨chunks, verified, isVerified, outcome⟩ := handleFileData_cases handled
  rw [← (verifyTfile_files isVerified).2]
  rcases outcome with ⟨_, rfl⟩ | ⟨_, pointed, opened, isOpened, copied⟩
  · exact .unchanged
  · have table : after.ht = opened.ht := by
      rcases memcpyChunk_cases copied with ⟨_, rfl⟩ | ⟨_, _, _, _, _, _, rfl⟩
      · rfl
      · rfl
    rw [table]
    exact openTfile_attached isOpened

theorem handleRequest_attached {req : ChunkRequest} {connects : Bool} {answer : Answer}
    (returned : handleRequest env store req locals connects = .ok (answer, after)) :
    Attached store.ht req.fileHash after.ht := by
  obtain ⟨chunks, verified, isVerified, outcome⟩ := handleRequest_cases returned
  rw [← (verifyTfile_files isVerified).2]
  rcases outcome with ⟨_, _, rfl⟩ | ⟨_, _, _, rfl⟩ | ⟨_, _, payload, isSent, _⟩
  · exact .unchanged
  · exact .unchanged
  · obtain ⟨_, isOpened, _⟩ := sendChunkMessage_cases isSent
    exact openTfile_attached isOpened

end Grintorrent
