import Grintorrent.Ui.Messages
import Grintorrent.Ui.Selection
import Mathlib.Data.List.DropRight

/-!
# The loop of the user interface (`ui.c`)

The thread of `ui_run` waits for a key, shows what is in the message list, and handles the
key, while other threads queue messages at any time.  `ui_exit` is called by the handler of
the input, which ends the loop, and by `main` when the loop has ended.
-/

namespace Grintorrent

open Lib Relation

/-- `isspace` in the C locale. -/
def isSpace (byte : UInt8) : Bool := byte == 32 || (9 ≤ byte && byte ≤ 13)

/-- The loop of `safe_trim`, with `end` at the last of this many characters. -/
def trimFrom (str : Bytes) : (length : Nat) → Bytes
  | 0 => []
  | length + 1 =>
      if (str[length]?).any isSpace then trimFrom str length else str.take (length + 1)

/-- `safe_trim`. -/
def safeTrim (str : Bytes) : Bytes := trimFrom str str.length

theorem trimFrom_eq (str : Bytes) {length : Nat} (inside : length ≤ str.length) :
    trimFrom str length = (str.take length).rdropWhile isSpace := by
  induction length with
  | zero => rfl
  | succ length ih =>
      have last : length < str.length := inside
      rw [trimFrom, List.getElem?_eq_getElem last, Option.any_some,
        List.take_succ_eq_append_getElem last, List.rdropWhile_concat]
      split
      · exact ih (Nat.le_of_lt last)
      · rfl

/-- What `safe_trim` leaves. -/
theorem safeTrim_eq (str : Bytes) : safeTrim str = str.rdropWhile isSpace := by
  rw [safeTrim, trimFrom_eq str (Nat.le_refl _), List.take_length]

theorem safeTrim_padded {line : Bytes} (blanks : Nat)
    (last : ∀ nonempty : line ≠ [], isSpace (line.getLast nonempty) = false) :
    safeTrim (line ++ List.replicate blanks 32) = line := by
  rw [safeTrim_eq]
  induction blanks with
  | zero =>
      rw [List.replicate_zero, List.append_nil, List.rdropWhile_eq_self_iff]
      intro nonempty
      simp [last nonempty]
  | succ blanks ih =>
      rw [List.replicate_succ', ← List.append_assoc, List.rdropWhile_concat_pos _ _ _ (by decide)]
      exact ih

/-- `KEY_BACKSPACE`. -/
def keyBackspace : Int := 263

/-- `KEY_ENTER`. -/
def keyEnter : Int := 343

/-- What `form_driver` is asked for: a request, or a character. -/
inductive FormRequest where
  | newLine
  | delPrev
  | nextField
  | clrField
  | key (ch : Int)
  deriving DecidableEq

/-- A `char` becomes an `int`. -/
def FormRequest.char (byte : UInt8) : FormRequest := .key byte.toBitVec.toInt

/-- A call that the thread of the user interface makes. -/
inductive UiCall where
  /-- `form_driver` for `display_form`. -/
  | display (request : FormRequest)
  /-- `form_driver` for `input_form`. -/
  | input (request : FormRequest)
  /-- `input_callback`. -/
  | handler (line : Bytes)
  /-- `ui_exit`. -/
  | exit
  deriving DecidableEq

/-- What is shown on the display form. -/
inductive Entry where
  /-- A message of the list. -/
  | message (text : Bytes × Bytes)
  /-- The files of the network. -/
  | files (names : List Path)

/-- The requests that show it. -/
def Entry.render : Entry → List FormRequest
  | .message text =>
      .newLine :: text.1.map .char ++ (asciiBytes ": ").map .char ++ text.2.map .char
  | .files names =>
      [.newLine, .newLine] ++ (asciiBytes "[ Network Files ]").map .char ++
        names.flatMap fun name => .newLine :: name.map .char

/-- The messages that `ui_input_handler` passes to `ui_display`. -/
def displayTexts (actions : List UiAction) : List (Bytes × Bytes) :=
  actions.filterMap fun
    | .display message => some (asciiBytes "system", asciiBytes message)
    | _ => none

/-- Where the thread stands. -/
inductive UiPhase where
  /-- At the head of the loop. -/
  | polling
  /-- It has read a key and takes messages out of the list. -/
  | draining (ch : Int)
  /-- It has shown the message at an address and frees its node. -/
  | showing (ch : Int) (top : Address)
  /-- The list was empty, and it handles the key. -/
  | handling (ch : Int)
  /-- `ui_input_handler` passes these messages to `ui_display`. -/
  | queueing (texts : List (Bytes × Bytes))
  /-- `ui_run` has returned to `main`. -/
  | returned
  /-- `main` has called `ui_exit`. -/
  | exited
  deriving DecidableEq

/-- The user interface, with the calls its thread has made.  `since` are the messages that
had been queued when the last key was read. -/
structure UiLoop where
  messages : MessageUi
  phase : UiPhase
  running : Bool
  calls : List UiCall
  since : List (Bytes × Bytes)

namespace UiLoop

/-- The user interface after `ui_init`. -/
def start : UiLoop where
  messages := .init
  phase := .polling
  running := true
  calls := []
  since := []

/-- `insert_m` of any thread, before it has the lock or under it. -/
inductive Queues : MessageUi → MessageUi → Prop where
  | alloc {ui : MessageUi} {newNode : Address} (name message : Bytes) :
      ui.list.heap newNode = none →
      Queues ui
        { ui with
          list := ui.list.write newNode (some { name, message, next := none })
          pending := newNode :: ui.pending }
  | insert {ui : MessageUi} {newNode : Address} {node : UiMessage} {list : MessageList} :
      newNode ∈ ui.pending → ui.list.heap newNode = some node →
      ui.list.insertM newNode = some list →
      Queues ui
        { ui with
          list
          pending := ui.pending.erase newNode
          inserted := ui.inserted ++ [node.text] }

theorem Queues.step {ui after : MessageUi} (queues : Queues ui after) :
    MessageUi.Step ui after := by
  cases queues with
  | alloc name message isFree => exact .alloc name message isFree
  | insert waits present inserts => exact .insert waits present inserts

/-- One step of the thread of the user interface, or of a thread that queues a message.
What the input field holds, and what the other threads have made of the table when a
callback reads it, is left open. -/
inductive Step (env : Env) : UiLoop → UiLoop → Prop where
  /-- Another thread. -/
  | other {ui : UiLoop} {messages : MessageUi} :
      Queues ui.messages messages → Step env ui { ui with messages }
  /-- `getch` returns a key. -/
  | key {ui : UiLoop} (ch : Int) :
      ui.phase = .polling → ui.running = true → ch ≠ -1 →
      Step env ui { ui with phase := .draining ch, since := ui.messages.inserted }
  /-- A message is shown. -/
  | shows {ui : UiLoop} {ch : Int} {top : Address} {node : UiMessage} {list : MessageList} :
      ui.phase = .draining ch → ui.messages.list.removeM = some (list, some top) →
      ui.messages.list.heap top = some node →
      Step env ui
        { ui with
          messages :=
            { ui.messages with
              list
              taken := top :: ui.messages.taken
              returned := ui.messages.returned ++ [node.text] }
          phase := .showing ch top
          calls := ui.calls ++ (Entry.message node.text).render.map .display }
  /-- Its node is freed. -/
  | frees {ui : UiLoop} {ch : Int} {top : Address} :
      ui.phase = .showing ch top →
      Step env ui
        { ui with
          messages :=
            { ui.messages with
              list := ui.messages.list.write top none
              taken := ui.messages.taken.erase top }
          phase := .draining ch }
  /-- The list is empty. -/
  | drained {ui : UiLoop} {ch : Int} {list : MessageList} :
      ui.phase = .draining ch → ui.messages.list.removeM = some (list, none) →
      Step env ui { ui with messages := { ui.messages with list }, phase := .handling ch }
  /-- The key deletes a character. -/
  | deletes {ui : UiLoop} {ch : Int} :
      ui.phase = .handling ch → ch = keyBackspace ∨ ch = 127 →
      Step env ui { ui with phase := .polling, calls := ui.calls ++ [.input .delPrev] }
  /-- The line is empty: the files of the network are shown. -/
  | lists {ui : UiLoop} {ch : Int} {raw : Bytes} {ht : Htable} {names : List Path} :
      ui.phase = .handling ch → ch = 10 ∨ ch = keyEnter → safeTrim raw = [] →
      uiListNetworkFiles ht = .ok names →
      Step env ui
        { ui with
          phase := .polling
          calls := ui.calls ++ .input .nextField :: (Entry.files names).render.map .display ++
            [.input .clrField] }
  /-- The line is passed to `ui_input_handler`. -/
  | enters {ui : UiLoop} {ch : Int} {raw : Bytes} {store after : Store}
      {locals : VerifyLocals} {actions : List UiAction} :
      ui.phase = .handling ch → ch = 10 ∨ ch = keyEnter → safeTrim raw ≠ [] →
      uiInputHandler env store locals (some (safeTrim raw)) = .ok (actions, after) →
      Step env ui
        { ui with
          phase := .queueing (displayTexts actions)
          running := ui.running && !decide (.exit ∈ actions)
          calls := ui.calls ++ [.input .nextField, .handler (safeTrim raw)] ++
            (if .exit ∈ actions then [.exit] else []) }
  /-- `ui_display` queues a message of the handler. -/
  | queues {ui : UiLoop} {text : Bytes × Bytes} {texts : List (Bytes × Bytes)}
      {newNode : Address} {list : MessageList} :
      ui.phase = .queueing (text :: texts) → ui.messages.list.heap newNode = none →
      (ui.messages.list.write newNode
        (some { name := text.1, message := text.2, next := none })).insertM newNode =
          some list →
      Step env ui
        { ui with
          messages :=
            { ui.messages with list, inserted := ui.messages.inserted ++ [text] }
          phase := .queueing texts }
  /-- The handler has returned; the field is cleared if the loop goes on. -/
  | handled {ui : UiLoop} :
      ui.phase = .queueing [] →
      Step env ui
        { ui with
          phase := .polling
          calls := ui.calls ++ if ui.running then [.input .clrField] else [] }
  /-- Any other key is a character of the line. -/
  | types {ui : UiLoop} {ch : Int} :
      ui.phase = .handling ch → ch ∉ [keyBackspace, 127, 10, keyEnter] →
      Step env ui { ui with phase := .polling, calls := ui.calls ++ [.input (.key ch)] }
  /-- The loop ends. -/
  | returns {ui : UiLoop} :
      ui.phase = .polling → ui.running = false → Step env ui { ui with phase := .returned }
  /-- `main` calls `ui_exit`. -/
  | exits {ui : UiLoop} :
      ui.phase = .returned →
      Step env ui { ui with phase := .exited, calls := ui.calls ++ [.exit] }

variable {env : Env} {ui after : UiLoop} {nodes : List Address} {entries : List Entry}

/-! ## What is shown -/

/-- The requests to the display form. -/
def displayed (calls : List UiCall) : List FormRequest :=
  calls.filterMap fun
    | .display request => some request
    | _ => none

@[simp] theorem displayed_append (front back : List UiCall) :
    displayed (front ++ back) = displayed front ++ displayed back :=
  List.filterMap_append

@[simp] theorem displayed_render (requests : List FormRequest) :
    displayed (requests.map .display) = requests := by
  simp [displayed, List.filterMap_map]

/-- The messages among the entries. -/
def messagesOf (entries : List Entry) : List (Bytes × Bytes) :=
  entries.filterMap fun
    | .message text => some text
    | .files _ => none

@[simp] theorem messagesOf_append (front back : List Entry) :
    messagesOf (front ++ back) = messagesOf front ++ messagesOf back :=
  List.filterMap_append

/-- The node that is shown belongs to the thread; the messages that were queued before the
key are in the list or have been shown, and have been shown when the key is handled. -/
def Since (ui : UiLoop) : Prop :=
  match ui.phase with
  | .draining _ => ui.since <+: ui.messages.inserted
  | .showing _ top => ui.since <+: ui.messages.inserted ∧ top ∈ ui.messages.taken
  | .handling _ => ui.since <+: ui.messages.returned
  | _ => True

/-- The display form shows these entries, and the list holds the nodes. -/
structure Shown (ui : UiLoop) (nodes : List Address) (entries : List Entry) : Prop where
  queued : MessageUi.Queued ui.messages nodes
  screen : displayed ui.calls = entries.flatMap Entry.render
  shown : messagesOf entries = ui.messages.returned
  since : ui.Since
  listings : ∀ names, .files names ∈ entries → ∃ ht, uiListNetworkFiles ht = .ok names

namespace Shown

theorem start : Shown .start [] [] where
  queued := .init
  screen := rfl
  shown := rfl
  since := trivial
  listings := by simp

theorem calls (shown : Shown ui nodes entries) {phase : UiPhase} {running : Bool}
    {more : List UiCall} (quiet : displayed more = [])
    (since : UiLoop.Since { ui with phase }) :
    Shown { ui with phase, running, calls := ui.calls ++ more } nodes entries where
  queued := shown.queued
  screen := by
    rw [displayed_append, quiet, List.append_nil]
    exact shown.screen
  shown := shown.shown
  since := since
  listings := shown.listings

theorem goes (shown : Shown ui nodes entries) {phase : UiPhase}
    (since : UiLoop.Since { ui with phase }) : Shown { ui with phase } nodes entries where
  queued := shown.queued
  screen := shown.screen
  shown := shown.shown
  since := since
  listings := shown.listings

theorem queue (shown : Shown ui nodes entries) {messages : MessageUi} {phase : UiPhase}
    {nodes' : List Address} (queued : MessageUi.Queued messages nodes')
    (more : ui.messages.inserted <+: messages.inserted)
    (taken : messages.taken = ui.messages.taken)
    (returned : messages.returned = ui.messages.returned)
    (since : UiLoop.Since { ui with phase }) :
    Shown { ui with messages, phase } nodes' entries where
  queued := queued
  screen := shown.screen
  shown := shown.shown.trans returned.symm
  since := by
    cases phase with
    | polling | queueing _ | returned | exited => exact trivial
    | draining ch => exact List.IsPrefix.trans since more
    | showing ch top => exact ⟨since.1.trans more, taken ▸ since.2⟩
    | handling ch =>
        simp only [UiLoop.Since, returned] at since ⊢
        exact since
  listings := shown.listings

theorem other (shown : Shown ui nodes entries) {messages : MessageUi}
    (queues : Queues ui.messages messages) :
    ∃ nodes, Shown { ui with messages } nodes entries := by
  cases queues with
  | alloc name message isFree =>
      exact ⟨nodes, shown.queue (shown.queued.alloc name message isFree) (List.prefix_refl _) rfl
        rfl shown.since⟩
  | insert waits present inserts =>
      exact ⟨_, shown.queue (shown.queued.insert waits present inserts)
        (List.prefix_append _ _) rfl rfl shown.since⟩

theorem queues (shown : Shown ui nodes entries) {text : Bytes × Bytes}
    {texts : List (Bytes × Bytes)} {newNode : Address} {list : MessageList}
    (isFree : ui.messages.list.heap newNode = none)
    (inserts : (ui.messages.list.write newNode
      (some { name := text.1, message := text.2, next := none })).insertM newNode = some list) :
    ∃ nodes, Shown
      { ui with
        messages := { ui.messages with list, inserted := ui.messages.inserted ++ [text] }
        phase := .queueing texts } nodes entries := by
  have allocated := shown.queued.alloc text.1 text.2 isFree
  have inserted := allocated.insert List.mem_cons_self (MessageList.write_self ..) inserts
  rw [List.erase_cons_head] at inserted
  exact ⟨_, shown.queue inserted (List.prefix_append _ _) rfl rfl trivial⟩

theorem shows (shown : Shown ui nodes entries) {ch : Int} {top : Address} {node : UiMessage}
    {list : MessageList} (stands : ui.phase = .draining ch)
    (removed : ui.messages.list.removeM = some (list, some top))
    (present : ui.messages.list.heap top = some node) :
    ∃ nodes, Shown
      { ui with
        messages :=
          { ui.messages with
            list
            taken := top :: ui.messages.taken
            returned := ui.messages.returned ++ [node.text] }
        phase := .showing ch top
        calls := ui.calls ++ (Entry.message node.text).render.map .display } nodes
      (entries ++ [.message node.text]) := by
  have since := shown.since
  simp only [UiLoop.Since, stands] at since
  obtain ⟨rest, _, queued⟩ := shown.queued.remove removed present
  refine ⟨rest, queued, ?_, ?_, ⟨since, List.mem_cons_self⟩, ?_⟩
  · rw [displayed_append, displayed_render, shown.screen, List.flatMap_append]
    simp
  · rw [messagesOf_append, shown.shown]
    rfl
  · intro names member
    exact shown.listings names (by simpa using member)

theorem frees (shown : Shown ui nodes entries) {ch : Int} {top : Address}
    (stands : ui.phase = .showing ch top) :
    Shown
      { ui with
        messages :=
          { ui.messages with
            list := ui.messages.list.write top none
            taken := ui.messages.taken.erase top }
        phase := .draining ch } nodes entries := by
  have since := shown.since
  simp only [UiLoop.Since, stands] at since
  exact ⟨shown.queued.free since.2, shown.screen, shown.shown, since.1, shown.listings⟩

/-- When the list is empty, everything that was queued has been shown. -/
theorem drained (shown : Shown ui nodes entries) {ch : Int} {list : MessageList}
    (stands : ui.phase = .draining ch)
    (removed : ui.messages.list.removeM = some (list, none)) :
    Shown { ui with messages := { ui.messages with list }, phase := .handling ch } nodes
      entries := by
  have since := shown.since
  simp only [UiLoop.Since, stands] at since
  rcases shown.queued.removes with ⟨rfl, nothing⟩ | ⟨_, _, _, _, _, takes, _⟩
  · rw [nothing] at removed
    cases removed
    refine ⟨shown.queued, shown.screen, shown.shown, ?_, shown.listings⟩
    have order := shown.queued.order
    rw [List.filterMap_nil, List.append_nil] at order
    rw [order] at since
    exact since
  · rw [takes] at removed
    cases removed

theorem lists (shown : Shown ui nodes entries) {ht : Htable} {names : List Path}
    (lists : uiListNetworkFiles ht = .ok names) :
    Shown
      { ui with
        phase := .polling
        calls := ui.calls ++ .input .nextField :: (Entry.files names).render.map .display ++
          [.input .clrField] } nodes (entries ++ [.files names]) where
  queued := shown.queued
  screen := by
    rw [List.append_assoc, displayed_append, List.cons_append, List.flatMap_append, shown.screen]
    congr 1
    have quiet : ∀ request calls, displayed (.input request :: calls) = displayed calls :=
      fun _ _ => rfl
    rw [quiet, displayed_append, displayed_render, quiet]
    simp [displayed]
  shown := by
    rw [messagesOf_append, shown.shown]
    exact List.append_nil _
  since := trivial
  listings := by
    intro other member
    rcases List.mem_append.mp member with old | new
    · exact shown.listings other old
    · cases List.mem_singleton.mp new
      exact ⟨ht, lists⟩

/-- **One step** of any thread. -/
theorem step (shown : Shown ui nodes entries) (steps : Step env ui after) :
    ∃ nodes entries, Shown after nodes entries := by
  cases steps with
  | other queues =>
      obtain ⟨nodes, shown⟩ := shown.other queues
      exact ⟨nodes, entries, shown⟩
  | key ch =>
      exact ⟨nodes, entries, shown.queued, shown.screen, shown.shown, List.prefix_refl _,
        shown.listings⟩
  | shows stands removed present =>
      obtain ⟨nodes, shown⟩ := shown.shows stands removed present
      exact ⟨nodes, _, shown⟩
  | frees stands => exact ⟨nodes, entries, shown.frees stands⟩
  | drained stands removed => exact ⟨nodes, entries, shown.drained stands removed⟩
  | deletes => exact ⟨nodes, entries, shown.calls rfl trivial⟩
  | lists _ _ _ lists => exact ⟨nodes, _, shown.lists lists⟩
  | enters =>
      refine ⟨nodes, entries, ?_⟩
      rw [List.append_assoc]
      apply shown.calls
      · rw [displayed_append]
        split <;> rfl
      · trivial
  | queues _ isFree inserts =>
      obtain ⟨nodes, shown⟩ := shown.queues isFree inserts
      exact ⟨nodes, entries, shown⟩
  | handled =>
      refine ⟨nodes, entries, ?_⟩
      apply shown.calls
      · split <;> rfl
      · trivial
  | types => exact ⟨nodes, entries, shown.calls rfl trivial⟩
  | returns => exact ⟨nodes, entries, shown.goes trivial⟩
  | exits => exact ⟨nodes, entries, shown.calls rfl trivial⟩

end Shown

theorem shown_run (run : ReflTransGen (Step env) start ui) :
    ∃ nodes entries, Shown ui nodes entries :=
  @invariant_run _ _ _ _ (fun ui => ∃ nodes entries, Shown ui nodes entries)
    (fun _ _ ⟨_, _, shown⟩ steps => shown.step steps) run ⟨[], [], Shown.start⟩

/-- **What is shown is what was queued.**  In every state of every run, with any threads that
queue messages at any time, the requests to the display form are those of a sequence of
entries, one after the other and each of them whole: messages, which are the first of those
queued and in their order, and listings of the table.  When a key is handled, every message
that had been queued when the key was read has been shown. -/
theorem uiRun_shows (run : ReflTransGen (Step env) start ui) :
    ∃ entries, displayed ui.calls = entries.flatMap Entry.render ∧
      messagesOf entries <+: ui.messages.inserted ∧
      (∀ ch, ui.phase = .handling ch → ui.since <+: messagesOf entries) ∧
      ∀ names, .files names ∈ entries → ∃ ht, uiListNetworkFiles ht = .ok names := by
  obtain ⟨nodes, entries, shown⟩ := shown_run run
  refine ⟨entries, shown.screen, ?_, ?_, shown.listings⟩
  · rw [shown.shown, shown.queued.order]
    exact List.prefix_append _ _
  · intro ch stands
    have since := shown.since
    simp only [UiLoop.Since, stands] at since
    rw [shown.shown]
    exact since

theorem sampleUi_run :
    ∃ ui, ReflTransGen (Step env) start ui ∧ ui.phase = .handling 10 ∧ ui.running = true ∧
      ui.since = [([97], [98])] ∧ ui.messages.list.tail = none ∧
      ui.messages.list.heap 2 = none := by
  have allocated := ReflTransGen.single (@Step.other env start _ (@Queues.alloc _ 1 [97] [98] rfl))
  have queued := allocated.tail
    (@Step.other env _ _ (@Queues.insert _ 1 _ _ List.mem_cons_self rfl rfl))
  have shows := (queued.tail (@Step.key env _ 10 rfl rfl (by decide))).tail
    (@Step.shows env _ 10 1 _ _ rfl rfl rfl)
  have drained := (shows.tail (@Step.frees env _ 10 1 rfl)).tail
    (@Step.drained env _ 10 _ rfl rfl)
  exact ⟨_, drained, rfl, rfl, rfl, rfl, rfl⟩

/-- It has been shown. -/
theorem uiRun_shows_sample :
    ∃ ui entries, ReflTransGen (Step sampleEnv) start ui ∧ ui.phase = .handling 10 ∧
      displayed ui.calls = entries.flatMap Entry.render ∧
      [([97], [98])] <+: messagesOf entries := by
  obtain ⟨ui, run, stands, _, since, _⟩ := @sampleUi_run sampleEnv
  obtain ⟨entries, screen, _, shown, _⟩ := uiRun_shows run
  exact ⟨ui, entries, run, stands, screen, since ▸ shown 10 stands⟩

/-! ## How the loop ends -/

/-- The handler of the input calls `ui_exit` for the two commands, and for no other line. -/
theorem exit_mem_iff {store left : Store} {locals : VerifyLocals} {line : Bytes}
    {actions : List UiAction} (named : line ≠ [])
    (returned : uiInputHandler env store locals (some line) = .ok (actions, left)) :
    .exit ∈ actions ↔ line ∈ quitCommands := by
  simp only [uiInputHandler, if_neg named, Result.bind_eq_ok] at returned
  obtain ⟨found, _, rest⟩ := returned
  have never : ∃ others, actions = (if line ∈ quitCommands then [.exit] else []) ++ others ∧
      .exit ∉ others := by
    cases found with
    | none =>
        cases rest
        exact ⟨_, rfl, by simp⟩
    | some tdef =>
        simp only [actOn, Result.bind_eq_ok] at rest
        obtain ⟨⟨others, _⟩, ⟨⟨status, verified⟩, _, acted⟩, same⟩ := rest
        cases same
        refine ⟨others, rfl, ?_⟩
        dsimp only at acted
        split at acted <;> cases acted <;> simp
  obtain ⟨others, rfl, never⟩ := never
  split
  next command => simp [command]
  next other => simp [never, other]

/-- As long as the loop runs nobody has called `ui_exit`.  It is ended by a command, and then
the calls that follow are those of `ui_exit`, by the handler and by `main`. -/
structure Ends (ui : UiLoop) : Prop where
  runs : ui.running = true →
    .exit ∉ ui.calls ∧ ui.phase ≠ .returned ∧ ui.phase ≠ .exited
  ended : ui.running = false →
    (∃ front, ∃ line ∈ quitCommands, .exit ∉ front ∧
      ui.calls = front ++ .handler line ::
        List.replicate (if ui.phase = .exited then 2 else 1) .exit) ∧
    (ui.phase = .polling ∨ (∃ texts, ui.phase = .queueing texts) ∨ ui.phase = .returned ∨
      ui.phase = .exited)

namespace Ends

theorem start : Ends .start where
  runs _ := ⟨by simp [UiLoop.start], by decide, by decide⟩
  ended stopped := by cases stopped

theorem goesOn (ends : Ends ui) (same : after.running = ui.running)
    (stands : (∃ ch, ui.phase = .handling ch) ∨ (∃ ch, ui.phase = .draining ch) ∨
      (∃ ch top, ui.phase = .showing ch top) ∨ ui.running = true)
    (quiet : .exit ∉ ui.calls → .exit ∉ after.calls)
    (goes : after.phase ≠ .returned ∧ after.phase ≠ .exited) : Ends after := by
  have running : ui.running = true := by
    by_contra stopped
    have phases := (ends.ended (Bool.eq_false_iff.mpr stopped)).2
    rcases stands with ⟨_, stands⟩ | ⟨_, stands⟩ | ⟨_, _, stands⟩ | running
    · simp [stands] at phases
    · simp [stands] at phases
    · simp [stands] at phases
    · exact stopped running
  refine ⟨fun _ => ⟨quiet (ends.runs running).1, goes⟩, ?_⟩
  intro stopped
  rw [same, running] at stopped
  cases stopped

theorem moves (ends : Ends ui) (running : after.running = ui.running)
    (calls : after.calls = ui.calls) (exited : after.phase = .exited ↔ ui.phase = .exited)
    (returned : ui.running = true → after.phase ≠ .returned)
    (stands : ui.running = false →
      after.phase = .polling ∨ (∃ texts, after.phase = .queueing texts) ∨
        after.phase = .returned ∨ after.phase = .exited) : Ends after where
  runs runs := by
    rw [running] at runs
    obtain ⟨never, _, notExited⟩ := ends.runs runs
    exact ⟨calls ▸ never, returned runs, fun isExited => notExited (exited.mp isExited)⟩
  ended stopped := by
    rw [running] at stopped
    obtain ⟨⟨front, line, command, never, isCalls⟩, _⟩ := ends.ended stopped
    refine ⟨⟨front, line, command, never, ?_⟩, stands stopped⟩
    rw [calls, isCalls]
    simp only [exited]

/-- The input is a command, or it is not. -/
theorem enters (ends : Ends ui) {ch : Int} {line : Bytes} {store left : Store}
    {locals : VerifyLocals} {actions : List UiAction} (stands : ui.phase = .handling ch)
    (named : line ≠ [])
    (returned : uiInputHandler env store locals (some line) = .ok (actions, left)) :
    Ends
      { ui with
        phase := .queueing (displayTexts actions)
        running := ui.running && !decide (.exit ∈ actions)
        calls := ui.calls ++ [.input .nextField, .handler line] ++
          (if .exit ∈ actions then [.exit] else []) } := by
  have running : ui.running = true := by
    by_contra stopped
    have phases := (ends.ended (Bool.eq_false_iff.mpr stopped)).2
    simp [stands] at phases
  have never := (ends.runs running).1
  have command := exit_mem_iff named returned
  by_cases exits : .exit ∈ actions
  · refine ⟨?_, fun _ => ⟨⟨ui.calls ++ [.input .nextField], line, command.mp exits, ?_, ?_⟩, ?_⟩⟩
    · intro runs
      simp [exits] at runs
    · simpa using never
    · simp [exits]
    · exact .inr (.inl ⟨_, rfl⟩)
  · refine ⟨fun _ => ⟨?_, by simp, by simp⟩, ?_⟩
    · simpa [exits] using never
    · intro stopped
      simp [exits, running] at stopped

/-- **One step** of any thread. -/
theorem step (ends : Ends ui) (steps : Step env ui after) : Ends after := by
  have quietRender : ∀ requests : List FormRequest,
      UiCall.exit ∉ requests.map UiCall.display := by simp
  cases steps with
  | other queues => exact ⟨ends.runs, ends.ended⟩
  | key ch stands running valid =>
      exact ends.goesOn rfl (.inr (.inr (.inr running))) id ⟨by simp, by simp⟩
  | shows stands =>
      refine ends.goesOn rfl (.inr (.inl ⟨_, stands⟩)) ?_ ⟨by simp, by simp⟩
      intro never member
      rcases List.mem_append.mp member with old | new
      · exact never old
      · exact quietRender _ new
  | frees stands =>
      exact ends.goesOn rfl (.inr (.inr (.inl ⟨_, _, stands⟩))) id ⟨by simp, by simp⟩
  | drained stands =>
      exact ends.goesOn rfl (.inr (.inl ⟨_, stands⟩)) id ⟨by simp, by simp⟩
  | deletes stands =>
      exact ends.goesOn rfl (.inl ⟨_, stands⟩) (by simp) ⟨by simp, by simp⟩
  | lists stands =>
      refine ends.goesOn rfl (.inl ⟨_, stands⟩) ?_ ⟨by simp, by simp⟩
      intro never
      simpa using never
  | enters stands _ named returned => exact ends.enters stands named returned
  | queues stands =>
      exact ends.moves rfl rfl (by simp [stands]) (by simp) fun _ => .inr (.inl ⟨_, rfl⟩)
  | handled stands =>
      by_cases running : ui.running = true
      · exact ends.goesOn rfl (.inr (.inr (.inr running))) (by simp [running])
          ⟨by simp, by simp⟩
      · refine ends.moves rfl ?_ (by simp [stands]) (by simp) fun _ => .inl rfl
        simp [running]
  | types stands =>
      exact ends.goesOn rfl (.inl ⟨_, stands⟩) (by simp) ⟨by simp, by simp⟩
  | returns stands stopped =>
      refine ends.moves rfl rfl (by simp [stands]) ?_ fun _ => .inr (.inr (.inl rfl))
      intro running
      rw [stopped] at running
      cases running
  | exits stands =>
      have stopped : ui.running = false := by
        by_contra running
        exact (ends.runs (by simpa using running)).2.1 stands
      refine ⟨fun running => ?_, fun _ => ?_⟩
      · rw [stopped] at running
        cases running
      · obtain ⟨⟨front, line, command, never, calls⟩, _⟩ := ends.ended stopped
        refine ⟨⟨front, line, command, never, ?_⟩, .inr (.inr (.inr rfl))⟩
        rw [calls]
        simp [stands, List.replicate]

end Ends

theorem ends_run (run : ReflTransGen (Step env) start ui) : Ends ui :=
  @invariant_run _ _ _ _ Ends (fun _ _ ends steps => ends.step steps) run Ends.start

/-- **The forms are freed twice.**  In every run `ui_exit` has not been called as long as the
loop is running; the loop is ended by a line that is one of the two commands, for which the
handler calls `ui_exit`; after that the thread asks nothing of the forms, and `main`, when it
has gone on, has called `ui_exit` once more. -/
theorem uiExit_twice (run : ReflTransGen (Step env) start ui) :
    (ui.running = true → .exit ∉ ui.calls ∧ ui.phase ≠ .exited) ∧
      (ui.running = false → ∃ front, ∃ line ∈ quitCommands, .exit ∉ front ∧
        ui.calls = front ++ .handler line ::
          List.replicate (if ui.phase = .exited then 2 else 1) .exit) := by
  have ends := ends_run run
  constructor
  · intro running
    obtain ⟨never, _, notExited⟩ := ends.runs running
    exact ⟨never, notExited⟩
  · intro stopped
    exact (ends.ended stopped).1

/-- A command ends the loop, and `main` has gone on. -/
theorem uiExit_twice_sample :
    ∃ ui, ReflTransGen (Step sampleEnv) start ui ∧ ui.phase = .exited ∧
      ui.calls.count .exit = 2 := by
  obtain ⟨ui, run, stands, running, _, isTail, isFree⟩ := @sampleUi_run sampleEnv
  have trimmed : safeTrim ([58, 113] ++ List.replicate 30 32) = [58, 113] :=
    safeTrim_padded 30 (by decide)
  have handles : uiInputHandler sampleEnv (sampleStore []) zeroLocals
      (some (safeTrim ([58, 113] ++ List.replicate 30 32))) =
        .ok ([.exit, .display "File not found in network"], sampleStore []) := by
    rw [trimmed]
    rfl
  have named : safeTrim ([58, 113] ++ List.replicate 30 32) ≠ [] := by
    rw [trimmed]
    decide
  have entered := run.tail (Step.enters stands (.inl rfl) named handles)
  have handled := (entered.tail (@Step.queues sampleEnv _ _ [] 2 _ rfl isFree
    (by unfold MessageList.insertM MessageList.write; rw [isTail]))).tail
    (@Step.handled sampleEnv _ rfl)
  have exited := (handled.tail (@Step.returns sampleEnv _ rfl (by simp))).tail
    (@Step.exits sampleEnv _ rfl)
  refine ⟨_, exited, rfl, ?_⟩
  obtain ⟨front, line, _, never, calls⟩ := (uiExit_twice exited).2 (by simp)
  rw [calls, List.count_append, List.count_eq_zero_of_not_mem never]
  simp

end UiLoop

end Grintorrent
