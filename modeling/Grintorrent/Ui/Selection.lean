import Grintorrent.File.Basic
import Grintorrent.File.Verify
import Grintorrent.Htable.Listing

/-!
# Selecting a file by its name (`ui_adapter.c`)

The user interface shows the names of the files in the table and takes a name for the first
definition in the list that has it.  The table knows files by their hash, so two of them may
have one name, and then only the first can be selected.
-/

namespace Grintorrent

open Lib

/-- `":quit"` and `":q"`. -/
def quitCommands : List Bytes := [[58, 113, 117, 105, 116], [58, 113]]

/-- What `ui_input_handler` has done. -/
inductive UiAction where
  /-- `ui_exit`. -/
  | exit
  /-- `ui_display` of a message of the system. -/
  | display (message : String)
  /-- A thread is started that runs `download_file` for this hash. -/
  | startDownload (fHash : Digest)
  deriving DecidableEq

/-- `ui_list_network_files`: the names it returns.  Memory is taken to be available. -/
def uiListNetworkFiles (ht : Htable) : Result (List Path) := do
  let tfiles ← listTfiles ht
  .ok (tfiles.map TfileDef.namePath)

/-- The loop of `ui_input_handler`: the first definition in the list with this name. -/
def selectTfile (ht : Htable) (input : Bytes) : Result (Option TfileDef) := do
  let tfiles ← listTfiles ht
  .ok (tfiles.find? fun tdef => tdef.namePath = input)

/-- What `ui_input_handler` does with the definition it has found. -/
def actOn (env : Env) (store : Store) (locals : VerifyLocals) (fHash : Digest) :
    Result (List UiAction × Store) := do
  let (status, store) ← verifyTfile env store fHash locals
  if status = verifiedFile then .ok ([.display "File already downloaded!"], store)
  else .ok ([.display "Starting download...", .startDownload fHash], store)

/-- `ui_input_handler`.  It goes on after `ui_exit`. -/
def uiInputHandler (env : Env) (store : Store) (locals : VerifyLocals) :
    (input : Option Bytes) → Result (List UiAction × Store)
  | none => .ok ([], store)
  | some input =>
      if input = [] then .ok ([], store)
      else do
        let exits := if input ∈ quitCommands then [.exit] else []
        let (actions, store) ←
          match ← selectTfile store.ht input with
          | none => .ok ([.display "File not found in network"], store)
          | some tdef => actOn env store locals tdef.fHash
        .ok (exits ++ actions, store)

/-- The input is taken for the file of this hash: it is reported as downloaded exactly when
`verify_tfile` finds it complete, and its download is started otherwise. -/
def Selects (env : Env) (store : Store) (locals : VerifyLocals) (input : Bytes)
    (fHash : Digest) : Prop :=
  (∃ tdef, selectTfile store.ht input = .ok (some tdef) ∧ tdef.fHash = fHash) ∧
    uiInputHandler env store locals (some input) = actOn env store locals fHash

variable {env : Env} {store : Store} {locals : VerifyLocals} {listed : List TfileDef}
variable {tfile : TfileDef}

theorem mem_uiListNetworkFiles (lists : listTfiles store.ht = .ok listed)
    (member : tfile ∈ listed) :
    ∃ names, uiListNetworkFiles store.ht = .ok names ∧ tfile.namePath ∈ names := by
  refine ⟨listed.map TfileDef.namePath, ?_, List.mem_map_of_mem member⟩
  simp [uiListNetworkFiles, lists]

theorem actOn_ne_nothing (fHash : Digest) (after : Store) :
    actOn env store locals fHash ≠ .ok ([], after) := by
  intro acts
  obtain ⟨⟨status, verified⟩, _, acts⟩ := Result.bind_eq_ok.mp acts
  dsimp only at acts
  split at acts <;> cases acts

/-- A name that is listed and no command selects the first definition with this name. -/
theorem handler_of_select {first : TfileDef} (named : tfile.namePath ≠ [])
    (command : tfile.namePath ∉ quitCommands)
    (selected : selectTfile store.ht tfile.namePath = .ok (some first)) :
    uiInputHandler env store locals (some tfile.namePath) =
      actOn env store locals first.fHash := by
  simp only [uiInputHandler, if_neg named, if_neg command, selected, Result.ok_bind,
    List.nil_append]
  cases actOn env store locals first.fHash with
  | error stop => rfl
  | ok result => rfl

/-- **Selecting a file.**  The name of a listed file selects it exactly if the name is not
empty and the first definition in the list with this name has its hash. -/
theorem selects_iff (env : Env) (locals : VerifyLocals)
    (lists : listTfiles store.ht = .ok listed) (member : tfile ∈ listed)
    (command : tfile.namePath ∉ quitCommands) :
    Selects env store locals tfile.namePath tfile.fHash ↔
      tfile.namePath ≠ [] ∧
        ∀ front first back, listed = front ++ first :: back →
          first.namePath = tfile.namePath →
          (∀ other ∈ front, other.namePath ≠ tfile.namePath) →
          first.fHash = tfile.fHash := by
  obtain ⟨first, found⟩ : ∃ first,
      listed.find? (fun tdef => tdef.namePath = tfile.namePath) = some first := by
    rw [← Option.isSome_iff_exists, List.find?_isSome]
    exact ⟨tfile, member, by simp⟩
  have selected : selectTfile store.ht tfile.namePath = .ok (some first) := by
    simp [selectTfile, lists, found]
  constructor
  · rintro ⟨⟨other, selects, isFile⟩, acts⟩
    rw [selected] at selects
    cases selects
    refine ⟨?_, ?_⟩
    · intro empty
      simp only [uiInputHandler, empty, if_true] at acts
      exact actOn_ne_nothing _ _ acts.symm
    · intro front tdef back split name before
      have isFirst : listed.find? (fun tdef => tdef.namePath = tfile.namePath) = some tdef := by
        rw [List.find?_eq_some_iff_append]
        exact ⟨by simpa using name, front, back, split, by simpa using before⟩
      rw [found] at isFirst
      cases isFirst
      exact isFile
  · rintro ⟨named, every⟩
    obtain ⟨name, front, back, split, before⟩ := List.find?_eq_some_iff_append.mp found
    have same := every front first back split (by simpa using name) (by simpa using before)
    exact ⟨⟨first, selected, same⟩, same ▸ handler_of_select named command selected⟩

/-- A definition with the name `A`. -/
def namedDef (fHash : Digest) : TfileDef where
  name := ⟨(65 :: List.replicate 31 0).toArray, by simp⟩
  fHash := fHash
  cHashes := fun _ => 0
  size := 300

/-- The table after two definitions with this name were added. -/
def namedStore : Store where
  ht := (initHtable.fill 1 (namedDef 1)).fill 2 (namedDef 2)
  os := emptyOs

theorem namePath_namedDef (fHash : Digest) : (namedDef fHash).namePath = [65] := by
  simp [TfileDef.namePath, TfileDef.bytes, namedDef]

theorem listTfiles_namedStore : listTfiles namedStore.ht = .ok [namedDef 1, namedDef 2] := by
  rfl

theorem selectTfile_namedStore :
    selectTfile namedStore.ht [65] = .ok (some (namedDef 1)) := by
  simp [selectTfile, listTfiles_namedStore, namePath_namedDef]

/-- Nothing uninitialised. -/
def zeroLocals : VerifyLocals where
  testHash := 0
  cHashes := fun _ => 0

/-- The first of the two files is selected by its name. -/
theorem selects_first : Selects sampleEnv namedStore zeroLocals [65] 1 := by
  have command : (namedDef 1).namePath ∉ quitCommands := by
    rw [namePath_namedDef]
    decide
  have selects := (selects_iff sampleEnv zeroLocals listTfiles_namedStore List.mem_cons_self
    command).mpr ⟨by rw [namePath_namedDef]; decide, ?_⟩
  · rwa [namePath_namedDef] at selects
  · intro front first back split _ before
    cases front with
    | nil =>
        cases split
        rfl
    | cons other front =>
        obtain ⟨rfl, _⟩ := List.cons.inj split
        exact absurd rfl (before _ List.mem_cons_self)

/-- The second is not: its name starts the download of the first. -/
theorem selects_second_fails :
    CalmRun (fun _ => true) [.add (namedDef 1), .add (namedDef 2)] namedStore.ht ∧
      uiListNetworkFiles namedStore.ht = .ok [[65], [65]] ∧
      (∀ locals, uiInputHandler sampleEnv namedStore locals (some [65]) =
        .ok ([.display "Starting download...", .startDownload 1], namedStore)) ∧
      ∀ locals, ¬Selects sampleEnv namedStore locals [65] 2 := by
  refine ⟨?_, ?_, ?_, ?_⟩
  · have first : TableOp.call (fun _ => true) 1 initHtable (.add (namedDef 1)) =
        .ok (initHtable.fill 1 (namedDef 1), some 1) := by rfl
    have second : TableOp.call (fun _ => true) 1 (initHtable.fill 1 (namedDef 1))
        (.add (namedDef 2)) = .ok (namedStore.ht, some 2) := by rfl
    have run : CalmRun (fun _ => true) ([] ++ [.add (namedDef 1)] ++ [.add (namedDef 2)])
        namedStore.ht :=
      .call (.call .init ⟨by decide, by decide⟩ first) ⟨by decide, by decide⟩ second
    exact run
  · simp [uiListNetworkFiles, listTfiles_namedStore, namePath_namedDef]
  · intro locals
    have handles := @handler_of_select sampleEnv namedStore locals (namedDef 1) (namedDef 1)
    rw [namePath_namedDef] at handles
    rw [handles (by decide) (by decide) selectTfile_namedStore]
    have found : lookupTfile namedStore.ht 1 =
        .ok (some (1, ⟨namedDef 1, none, none⟩)) := by rfl
    rw [actOn, show (namedDef 1).fHash = 1 from rfl, verifyTfile_unlocated found rfl rfl]
    rfl
  · rintro locals ⟨⟨tdef, selected, isSecond⟩, _⟩
    rw [selectTfile_namedStore] at selected
    cases selected
    simp [namedDef] at isSecond

end Grintorrent
