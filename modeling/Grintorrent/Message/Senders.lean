import Grintorrent.Message.Framing
import Grintorrent.Lib.Runs

/-!
# Concurrent senders

Several threads of a client send to the same peers: the two sharing workers, the
relay of requests and the request loop of a download.  Each of them takes
`peers.lock`, calls `send_message` any number of times and releases the lock.  A
step of the model is one of these three actions or a single `write`, so that the
scheduler may switch threads in the middle of a frame.

The invariant ties the lock to the streams: only the stream that the owner of the
lock is writing to ends in an unfinished frame.
-/

namespace Grintorrent

open Lib Relation

/-- A file descriptor of a peer, `peer_fd_t`. -/
abbrev Fd := Int

/-- One `send_message` call: the descriptor and the message. -/
abbrev Send := Fd × Message

/-- Where a thread is: whether it holds the lock, how many payload bytes of the
first message of `sends` are out once its header is, the calls left in its
critical section, and the critical sections after that. -/
structure Sender where
  locked : Bool
  written : Option Nat
  sends : List Send
  sections : List (List Send)

namespace Sender

/-- The calls that a thread has not completed. -/
def remaining (sender : Sender) : List Send := sender.sends ++ sender.sections.flatten

/-- The loop test of `send_message` after `bytesWritten` payload bytes: the call
goes on, or it returns and the next one comes. -/
def continueSend (sender : Sender) (bytesWritten : Nat) : Sender :=
  match sender.sends with
  | [] => sender
  | (_, message) :: sends =>
      if bytesWritten < message.size then { sender with written := some bytesWritten }
      else { sender with written := none, sends }

/-- What the thread has written of a frame that it has not finished. -/
def unfinished (sender : Sender) (fd : Fd) : Bytes :=
  match sender.written, sender.sends with
  | some bytesWritten, (dest, message) :: _ =>
      if dest = fd then
        message.info.bytes message.padding ++ message.payload.take bytesWritten
      else []
  | _, _ => []

end Sender

/-- The threads, the owner of `peers.lock`, and what was written to each
descriptor. -/
structure Senders (ι : Type) where
  threads : ι → Sender
  owner : Option ι
  streams : Fd → Bytes

variable {ι : Type} [DecidableEq ι]

/-- Every thread is about to enter its first critical section. -/
def Senders.start (programs : ι → List (List Send)) : Senders ι where
  threads thread := ⟨false, none, [], programs thread⟩
  owner := none
  streams _ := []

/-- The steps of a thread. -/
inductive SendStep : Senders ι → Senders ι → Prop where
  /-- `pthread_mutex_lock`. -/
  | lock (state : Senders ι) (thread : ι) {sends : List Send} {sections : List (List Send)} :
      state.owner = none →
      state.threads thread = ⟨false, none, [], sends :: sections⟩ →
      SendStep state
        { state with
          threads := Function.update state.threads thread ⟨true, none, sends, sections⟩
          owner := some thread }
  /-- The header of the next message is written. -/
  | header (state : Senders ι) (thread : ι) {fd : Fd} {message : Message}
      {sends : List Send} {sections : List (List Send)} :
      state.threads thread = ⟨true, none, (fd, message) :: sends, sections⟩ →
      SendStep state
        { state with
          threads := Function.update state.threads thread
            ((state.threads thread).continueSend 0)
          streams := Function.update state.streams fd
            (state.streams fd ++ message.info.bytes message.padding) }
  /-- A `write` of the payload transfers `rc` bytes. -/
  | payload (state : Senders ι) (thread : ι) {fd : Fd} {message : Message}
      {bytesWritten rc : Nat} {sends : List Send} {sections : List (List Send)} :
      state.threads thread = ⟨true, some bytesWritten, (fd, message) :: sends, sections⟩ →
      0 < rc → bytesWritten + rc ≤ message.size →
      SendStep state
        { state with
          threads := Function.update state.threads thread
            ((state.threads thread).continueSend (bytesWritten + rc))
          streams := Function.update state.streams fd
            (state.streams fd ++ slice bytesWritten rc message.payload) }
  /-- `pthread_mutex_unlock`. -/
  | unlock (state : Senders ι) (thread : ι) {sections : List (List Send)} :
      state.threads thread = ⟨true, none, [], sections⟩ →
      SendStep state
        { state with
          threads := Function.update state.threads thread ⟨false, none, [], sections⟩
          owner := none }

/-! ## The invariant -/

/-- The messages for one descriptor, in order. -/
def sentTo (fd : Fd) (sends : List Send) : List Message :=
  (sends.filter fun send => send.1 = fd).map Prod.snd

/-- The messages of one thread in a log of frames, in order. -/
def ownIn (thread : ι) (log : List (ι × Message)) : List Message :=
  (log.filter fun entry => entry.1 = thread).map Prod.snd

/-- The frames of a log. -/
def logFrames (log : List (ι × Message)) : Bytes := log.flatMap fun entry => entry.2.frame

/-- The unfinished frame on a descriptor is that of the owner of the lock. -/
def Senders.unfinished (state : Senders ι) (fd : Fd) : Bytes :=
  match state.owner with
  | none => []
  | some thread => (state.threads thread).unfinished fd

/-- `log` says which whole frames were written to each descriptor, and by which
thread. -/
structure SendersInvariant (programs : ι → List (List Send)) (state : Senders ι)
    (log : Fd → List (ι × Message)) : Prop where
  exclusive : ∀ {thread}, (state.threads thread).locked = true → state.owner = some thread
  owned : ∀ {thread}, state.owner = some thread → (state.threads thread).locked = true
  short : ∀ {thread bytesWritten}, (state.threads thread).written = some bytesWritten →
    ∃ fd message sends, (state.threads thread).sends = (fd, message) :: sends ∧
      bytesWritten < message.size
  streams : ∀ fd, state.streams fd = logFrames (log fd) ++ state.unfinished fd
  ordered : ∀ thread fd, sentTo fd (programs thread).flatten =
    ownIn thread (log fd) ++ sentTo fd (state.threads thread).remaining

omit [DecidableEq ι] in
theorem logFrames_snoc (log : List (ι × Message)) (entry : ι × Message) :
    logFrames (log ++ [entry]) = logFrames log ++ entry.2.frame := by
  simp [logFrames]

theorem ownIn_snoc_self (thread : ι) (log : List (ι × Message)) (message : Message) :
    ownIn thread (log ++ [(thread, message)]) = ownIn thread log ++ [message] := by
  simp [ownIn]

theorem ownIn_snoc_other {thread other : ι} (different : thread ≠ other)
    (log : List (ι × Message)) (message : Message) :
    ownIn other (log ++ [(thread, message)]) = ownIn other log := by
  simp [ownIn, different]

theorem sentTo_cons_self (fd : Fd) (message : Message) (sends : List Send) :
    sentTo fd ((fd, message) :: sends) = message :: sentTo fd sends := by
  simp [sentTo]

theorem sentTo_cons_other {fd dest : Fd} (different : dest ≠ fd) (message : Message)
    (sends : List Send) : sentTo fd ((dest, message) :: sends) = sentTo fd sends := by
  simp [sentTo, different]

theorem SendersInvariant.start (programs : ι → List (List Send)) :
    SendersInvariant programs (Senders.start programs) fun _ => [] where
  exclusive := by simp [Senders.start]
  owned := by simp [Senders.start]
  short := by simp [Senders.start]
  streams _ := rfl
  ordered thread fd := by simp [Senders.start, ownIn, Sender.remaining]

variable {programs : ι → List (List Send)} {state next : Senders ι}
variable {log : Fd → List (ι × Message)} {thread : ι}

/-- An unfinished frame is on the descriptor of the current call. -/
theorem Sender.unfinished_other {sender : Sender} {fd other : Fd} {message : Message}
    {sends : List Send} (current : sender.sends = (fd, message) :: sends)
    (different : fd ≠ other) : sender.unfinished other = [] := by
  unfold Sender.unfinished
  rw [current]
  cases sender.written with
  | none => rfl
  | some bytesWritten => simp [different]

theorem SendersInvariant.relock {sender : Sender} {owner : Option ι}
    (inv : SendersInvariant programs state log)
    (holds : owner = none ∧ sender.locked = false ∨ owner = some thread ∧ sender.locked = true)
    (sole : state.owner = none ∨ state.owner = some thread)
    (before : (state.threads thread).written = none) (after : sender.written = none)
    (same : sender.remaining = (state.threads thread).remaining) :
    SendersInvariant programs
      { state with threads := Function.update state.threads thread sender, owner } log where
  exclusive := by
    intro other locked
    by_cases isThread : other = thread
    · subst isThread
      simp only [Function.update_self] at locked
      rcases holds with ⟨_, free⟩ | ⟨isOwner, _⟩
      · rw [free] at locked
        simp at locked
      · exact isOwner
    · simp only [Function.update_of_ne isThread] at locked
      have isOwner := inv.exclusive locked
      rcases sole with free | isSole
      · rw [free] at isOwner
        simp at isOwner
      · rw [isSole, Option.some.injEq] at isOwner
        exact absurd isOwner.symm isThread
  owned := by
    intro other isOwner
    simp only at isOwner
    rcases holds with ⟨free, _⟩ | ⟨isThread, locked⟩
    · rw [free] at isOwner
      simp at isOwner
    · rw [isThread, Option.some.injEq] at isOwner
      subst isOwner
      simp only [Function.update_self, locked]
  short := by
    intro other bytesWritten writing
    by_cases isThread : other = thread
    · subst isThread
      simp [after] at writing
    · simp only [Function.update_of_ne isThread] at writing ⊢
      exact inv.short writing
  streams := by
    intro fd
    have finished : state.unfinished fd = [] := by
      rcases sole with free | isSole
      · simp only [Senders.unfinished, free]
      · simp only [Senders.unfinished, isSole, Sender.unfinished, before]
    have still : Senders.unfinished
        { state with threads := Function.update state.threads thread sender, owner } fd = [] := by
      rcases holds with ⟨free, _⟩ | ⟨isThread, _⟩
      · simp only [Senders.unfinished, free]
      · simp only [Senders.unfinished, isThread, Function.update_self, Sender.unfinished, after]
    rw [still, ← finished]
    exact inv.streams fd
  ordered := by
    intro other fd
    by_cases isThread : other = thread
    · subst isThread
      simp only [Function.update_self, same]
      exact inv.ordered other fd
    · simp only [Function.update_of_ne isThread]
      exact inv.ordered other fd

theorem SendersInvariant.advance {sender : Sender} {streams : Fd → Bytes}
    {log' : Fd → List (ι × Message)} (inv : SendersInvariant programs state log)
    (isOwner : state.owner = some thread) (locked : sender.locked = true)
    (short : ∀ {bytesWritten}, sender.written = some bytesWritten →
      ∃ fd message sends, sender.sends = (fd, message) :: sends ∧ bytesWritten < message.size)
    (written : ∀ fd, streams fd = logFrames (log' fd) ++ sender.unfinished fd)
    (ordered : ∀ fd, sentTo fd (programs thread).flatten =
      ownIn thread (log' fd) ++ sentTo fd sender.remaining)
    (others : ∀ other ≠ thread, ∀ fd, ownIn other (log' fd) = ownIn other (log fd)) :
    SendersInvariant programs
      { state with threads := Function.update state.threads thread sender, streams } log' where
  exclusive := by
    intro other isLocked
    by_cases isThread : other = thread
    · exact isThread ▸ isOwner
    · simp only [Function.update_of_ne isThread] at isLocked
      exact inv.exclusive isLocked
  owned := by
    intro other owns
    rw [isOwner, Option.some.injEq] at owns
    subst owns
    simp only [Function.update_self, locked]
  short := by
    intro other bytesWritten writing
    by_cases isThread : other = thread
    · subst isThread
      simp only [Function.update_self] at writing ⊢
      exact short writing
    · simp only [Function.update_of_ne isThread] at writing ⊢
      exact inv.short writing
  streams := by
    intro fd
    simp only [Senders.unfinished, isOwner, Function.update_self]
    exact written fd
  ordered := by
    intro other fd
    by_cases isThread : other = thread
    · subst isThread
      simp only [Function.update_self]
      exact ordered fd
    · simp only [Function.update_of_ne isThread, others other isThread fd]
      exact inv.ordered other fd

/-- **A write of the owner of the lock** extends the unfinished frame, or completes
it and adds it to the log. -/
theorem SendersInvariant.write {fd : Fd} {message : Message} {sends : List Send}
    {part : Bytes} {bytesWritten : Nat} (inv : SendersInvariant programs state log)
    (locked : (state.threads thread).locked = true)
    (current : (state.threads thread).sends = (fd, message) :: sends)
    (grows : (state.threads thread).unfinished fd ++ part =
      message.info.bytes message.padding ++ message.payload.take bytesWritten) :
    ∃ log', SendersInvariant programs
      { state with
        threads := Function.update state.threads thread
          ((state.threads thread).continueSend bytesWritten)
        streams := Function.update state.streams fd (state.streams fd ++ part) } log' := by
  have isOwner := inv.exclusive locked
  have before : ∀ dest, state.streams dest =
      logFrames (log dest) ++ (state.threads thread).unfinished dest := by
    intro dest
    rw [inv.streams dest]
    simp only [Senders.unfinished, isOwner]
  have after : state.streams fd ++ part = logFrames (log fd) ++
      (message.info.bytes message.padding ++ message.payload.take bytesWritten) := by
    rw [before fd, List.append_assoc, grows]
  by_cases more : bytesWritten < message.size
  · have continued : (state.threads thread).continueSend bytesWritten =
        { state.threads thread with written := some bytesWritten } := by
      simp only [Sender.continueSend, current, if_pos more]
    rw [continued]
    refine ⟨log, inv.advance isOwner locked ?_ ?_ (inv.ordered thread) fun _ _ _ => rfl⟩
    · rintro _ ⟨⟩
      exact ⟨fd, message, sends, current, more⟩
    · intro dest
      by_cases isDest : dest = fd
      · subst isDest
        rw [Function.update_self, after]
        simp only [Sender.unfinished, current, if_true]
      · rw [Function.update_of_ne isDest, before dest,
          Sender.unfinished_other current (Ne.symm isDest)]
        exact congrArg _ (@Sender.unfinished_other
          { state.threads thread with written := some bytesWritten } fd dest message sends
          current (Ne.symm isDest)).symm
  · have whole : message.payload.take bytesWritten = message.payload :=
      List.take_of_length_le (by rw [message.length_payload]; omega)
    have completed : (state.threads thread).continueSend bytesWritten =
        { state.threads thread with written := none, sends } := by
      simp only [Sender.continueSend, current, if_neg more]
    rw [completed]
    refine ⟨Function.update log fd (log fd ++ [(thread, message)]),
      inv.advance isOwner locked (by simp) ?_ ?_ ?_⟩
    · intro dest
      simp only [Sender.unfinished, List.append_nil]
      by_cases isDest : dest = fd
      · subst isDest
        rw [Function.update_self, Function.update_self, after, whole, logFrames_snoc]
        rfl
      · rw [Function.update_of_ne isDest, Function.update_of_ne isDest, before dest,
          Sender.unfinished_other current (Ne.symm isDest), List.append_nil]
    · intro dest
      have order := inv.ordered thread dest
      simp only [Sender.remaining, current, List.cons_append] at order ⊢
      by_cases isDest : dest = fd
      · subst isDest
        rw [Function.update_self, ownIn_snoc_self, order, sentTo_cons_self, List.append_assoc,
          List.singleton_append]
      · rw [Function.update_of_ne isDest, order, sentTo_cons_other (Ne.symm isDest)]
    · intro other isOther dest
      by_cases isDest : dest = fd
      · subst isDest
        rw [Function.update_self, ownIn_snoc_other (Ne.symm isOther)]
      · rw [Function.update_of_ne isDest]

/-- **Every step** preserves the invariant, for a log that it may extend. -/
theorem SendStep.preserves (inv : SendersInvariant programs state log)
    (step : SendStep state next) : ∃ log', SendersInvariant programs next log' := by
  cases step with
  | lock thread isFree ready =>
      refine ⟨log, inv.relock (.inr ⟨rfl, rfl⟩) (.inl isFree) (by rw [ready]) rfl ?_⟩
      rw [ready]
      simp [Sender.remaining]
  | header thread ready =>
      apply inv.write (by rw [ready]) (by rw [ready])
      simp only [ready, Sender.unfinished, List.nil_append, List.take_zero, List.append_nil]
  | payload thread ready positive inside =>
      apply inv.write (by rw [ready]) (by rw [ready])
      simp only [ready, Sender.unfinished, if_true, slice, List.append_assoc]
      rw [← List.take_add]
  | unlock thread ready =>
      have isOwner := inv.exclusive (show (state.threads thread).locked = true by rw [ready])
      refine ⟨log, inv.relock (.inl ⟨rfl, rfl⟩) (.inr isOwner) (by rw [ready]) rfl ?_⟩
      rw [ready]
      rfl

/-- The state after the current call of a thread has returned. -/
def Senders.returned (state : Senders ι) (thread : ι) (fd : Fd) (bytes : Bytes)
    (sends : List Send) (sections : List (List Send)) : Senders ι :=
  { state with
    threads := Function.update state.threads thread ⟨true, none, sends, sections⟩
    streams := Function.update state.streams fd (state.streams fd ++ bytes) }

section Alone

variable {fd : Fd} {message : Message} {sends : List Send} {sections : List (List Send)}

theorem run_payload {split : List Nat} {bytesWritten : Nat}
    (positive : ∀ count ∈ split, 0 < count)
    (total : bytesWritten + split.sum = message.size) (more : bytesWritten < message.size)
    (ready : state.threads thread =
      ⟨true, some bytesWritten, (fd, message) :: sends, sections⟩) :
    ReflTransGen SendStep state
      (state.returned thread fd (message.payload.drop bytesWritten) sends sections) := by
  induction split generalizing state bytesWritten with
  | nil =>
      rw [List.sum_nil] at total
      omega
  | cons count split ih =>
      have advances : 0 < count := positive count List.mem_cons_self
      rw [List.sum_cons] at total
      have step := SendStep.payload state thread ready advances (by omega)
      have joined : slice bytesWritten count message.payload ++
          message.payload.drop (bytesWritten + count) = message.payload.drop bytesWritten := by
        rw [slice, ← List.drop_drop, List.take_append_drop]
      by_cases last : bytesWritten + count < message.size
      · let between : Senders ι :=
          { state with
            threads := Function.update state.threads thread
              ⟨true, some (bytesWritten + count), (fd, message) :: sends, sections⟩
            streams := Function.update state.streams fd
              (state.streams fd ++ slice bytesWritten count message.payload) }
        have first : SendStep state between := by
          simpa only [ready, Sender.continueSend, if_pos last] using step
        have rest := @ih between (bytesWritten + count)
          (fun other member => positive other (List.mem_cons_of_mem _ member)) (by omega) last
          (Function.update_self _ _ _)
        have same : between.returned thread fd
            (message.payload.drop (bytesWritten + count)) sends sections =
              state.returned thread fd (message.payload.drop bytesWritten) sends sections := by
          simp only [Senders.returned, between, Function.update_idem, Function.update_self,
            List.append_assoc, joined]
        exact .head first (same ▸ rest)
      · have finished : message.payload.drop (bytesWritten + count) = [] :=
          List.drop_eq_nil_of_le (by rw [message.length_payload]; omega)
        rw [finished, List.append_nil] at joined
        refine .single ?_
        simpa only [Senders.returned, ready, Sender.continueSend, if_neg last, joined] using step

/-- **An uninterrupted call** writes to the stream what `send_message` does, for
every split of the payload. -/
theorem run_sendMessage {stream : Bytes} (split : Composition message.size)
    (ready : state.threads thread = ⟨true, none, (fd, message) :: sends, sections⟩)
    (sent : sendMessage (message.writes split) (state.streams fd) message.info message.padding
      message.data = .ok (success, stream)) :
    ReflTransGen SendStep state
      { state with
        threads := Function.update state.threads thread ⟨true, none, sends, sections⟩
        streams := Function.update state.streams fd stream } := by
  rw [message.send_frame, Except.ok.injEq, Prod.mk.injEq] at sent
  rw [← sent.2]
  have step := SendStep.header state thread ready
  by_cases more : 0 < message.size
  · let between : Senders ι :=
      { state with
        threads := Function.update state.threads thread
          ⟨true, some 0, (fd, message) :: sends, sections⟩
        streams := Function.update state.streams fd
          (state.streams fd ++ message.info.bytes message.padding) }
    have first : SendStep state between := by
      simpa only [ready, Sender.continueSend, if_pos more] using step
    have rest := @run_payload _ _ between thread fd message sends sections split.blocks 0
      (fun _ => split.blocks_pos) (by rw [split.blocks_sum]; omega) more
      (Function.update_self _ _ _)
    have same : between.returned thread fd (message.payload.drop 0) sends sections =
        { state with
          threads := Function.update state.threads thread ⟨true, none, sends, sections⟩
          streams := Function.update state.streams fd
            (state.streams fd ++ message.frame) } := by
      simp only [Senders.returned, between, Function.update_idem, Function.update_self,
        List.append_assoc, List.drop_zero, Message.frame]
    exact .head first (same ▸ rest)
  · have empty : message.payload = [] :=
      List.eq_nil_of_length_eq_zero (by rw [message.length_payload]; omega)
    refine .single ?_
    simpa only [ready, Sender.continueSend, if_neg more, Message.frame, empty,
      List.append_nil] using step

end Alone

/-! ## Frames -/

/-- An unfinished frame is a proper prefix of the next frame of its thread. -/
theorem SendersInvariant.unfinished_prefix (inv : SendersInvariant programs state log)
    (fd : Fd) :
    state.unfinished fd = [] ∨ ∃ thread message,
      state.unfinished fd <+: message.frame ∧
      (state.unfinished fd).length < message.frame.length ∧
      ownIn thread (log fd) ++ [message] <+: sentTo fd (programs thread).flatten := by
  cases isOwner : state.owner with
  | none => exact .inl (by simp only [Senders.unfinished, isOwner])
  | some thread =>
      simp only [Senders.unfinished, isOwner]
      cases writing : (state.threads thread).written with
      | none => exact .inl (by simp only [Sender.unfinished, writing])
      | some bytesWritten =>
          obtain ⟨dest, message, sends, current, short⟩ := inv.short writing
          by_cases isDest : dest = fd
          · subst isDest
            right
            refine ⟨thread, message, ?_, ?_, ?_⟩
            · simp only [Sender.unfinished, writing, current, if_true, Message.frame]
              exact (List.prefix_append_right_inj _).mpr (List.take_prefix _ _)
            · simp only [Sender.unfinished, writing, current, if_true, Message.frame,
                List.length_append, List.length_take, message.length_payload]
              omega
            · rw [inv.ordered thread dest, Sender.remaining, current, List.cons_append,
                sentTo_cons_self]
              exact (List.prefix_append_right_inj _).mpr ⟨_, rfl⟩
          · exact .inl (Sender.unfinished_other current isDest)

/-- **Frames of concurrent senders never mix.**  In every run, what was written to
a descriptor is a sequence of whole frames followed by a proper prefix of one
more.  The frames are a merge of the messages that the threads send to it: those
of each thread are its own first ones, in its own order, and all of them once it
has nothing left to send. -/
theorem frames_never_mix
    (run : ReflTransGen SendStep (Senders.start programs) state) (fd : Fd) :
    ∃ log : List (ι × Message), ∃ rest : Bytes,
      state.streams fd = logFrames log ++ rest ∧
      (∀ thread, ownIn thread log <+: sentTo fd (programs thread).flatten) ∧
      (rest = [] ∨ ∃ thread message, rest <+: message.frame ∧
        rest.length < message.frame.length ∧
        ownIn thread log ++ [message] <+: sentTo fd (programs thread).flatten) ∧
      ∀ thread, (state.threads thread).remaining = [] →
        ownIn thread log = sentTo fd (programs thread).flatten := by
  have reached : ∃ log, SendersInvariant programs state log := by
    refine @invariant_run _ SendStep _ state
      (fun state => ∃ log, SendersInvariant programs state log) ?_ run ⟨_, .start programs⟩
    rintro before after ⟨log, inv⟩ step
    exact step.preserves inv
  obtain ⟨log, inv⟩ := reached
  refine ⟨log fd, state.unfinished fd, inv.streams fd, ?_, inv.unfinished_prefix fd, ?_⟩
  · intro thread
    exact ⟨_, (inv.ordered thread fd).symm⟩
  · intro thread finished
    rw [inv.ordered thread fd, finished]
    simp [sentTo]

/-- A message of two bytes. -/
def sampleSend (first : Bool) : Message where
  info := ⟨0xC, 2⟩
  padding := Vector.replicate 7 0
  data := some (if first then [1, 2] else [3, 4])
  sized := by cases first <;> rfl

/-- Two threads with one message each for the same peer. -/
def samplePrograms (first : Bool) : List (List Send) := [[(4, sampleSend first)]]

/-- `thread` is at `sender`, `fd` has received `bytes` more, and the lock is with `owner`. -/
def Senders.movedTo (state : Senders ι) (thread : ι) (sender : Sender) (fd : Fd)
    (bytes : Bytes) (owner : Option ι) : Senders ι where
  threads := Function.update state.threads thread sender
  owner := owner
  streams := Function.update state.streams fd (state.streams fd ++ bytes)

@[simp] theorem Senders.movedTo_threads (state : Senders ι) (thread : ι) (sender : Sender)
    (fd : Fd) (bytes : Bytes) (owner : Option ι) :
    (state.movedTo thread sender fd bytes owner).threads thread = sender :=
  Function.update_self _ _ _

theorem Message.slice_payload {message : Message} (two : message.size = 2) :
    slice 0 1 message.payload ++ slice 1 1 message.payload = message.payload := by
  have length := message.length_payload
  rw [two] at length
  obtain ⟨first, second, payload⟩ := List.length_eq_two.mp length
  rw [payload]
  rfl

/-- A thread whose only message has two payload bytes sends it with one `write` for each. -/
theorem sends_split {thread : ι} {message : Message} (idle : state.owner = none)
    (waits : state.threads thread = ⟨false, none, [], [[(fd, message)]]⟩)
    (two : message.size = 2) :
    ReflTransGen SendStep state
      (state.movedTo thread ⟨false, none, [], []⟩ fd message.frame none) := by
  let head := message.info.bytes message.padding
  let moved (written : Option Nat) (sends : List Send) (bytes : Bytes) : Senders ι :=
    state.movedTo thread ⟨true, written, sends, []⟩ fd bytes (some thread)
  have lock : SendStep state (moved none [(fd, message)] []) := by
    have step := SendStep.lock state thread idle waits
    simpa only [moved, Senders.movedTo, List.append_nil, Function.update_eq_self] using step
  have header : SendStep (moved none [(fd, message)] []) (moved (some 0) [(fd, message)] head) := by
    have step := SendStep.header (moved none [(fd, message)] []) thread
      (Senders.movedTo_threads _ _ _ _ _ _)
    simpa only [moved, head, Senders.movedTo, Function.update_self, Function.update_idem,
      Sender.continueSend, two, Nat.zero_lt_two, if_true, List.append_nil] using step
  have first : SendStep (moved (some 0) [(fd, message)] head)
      (moved (some 1) [(fd, message)] (head ++ slice 0 1 message.payload)) := by
    have step := SendStep.payload (moved (some 0) [(fd, message)] head) thread
      (Senders.movedTo_threads _ _ _ _ _ _) Nat.one_pos (show 0 + 1 ≤ message.size by omega)
    simpa only [moved, Senders.movedTo, Function.update_self, Function.update_idem,
      Sender.continueSend, two, Nat.zero_add, Nat.one_lt_two, if_true, List.append_assoc] using step
  have second : SendStep (moved (some 1) [(fd, message)] (head ++ slice 0 1 message.payload))
      (moved none [] message.frame) := by
    have step := SendStep.payload
      (moved (some 1) [(fd, message)] (head ++ slice 0 1 message.payload)) thread
      (Senders.movedTo_threads _ _ _ _ _ _) Nat.one_pos (show 1 + 1 ≤ message.size by omega)
    simpa only [moved, head, Senders.movedTo, Function.update_self, Function.update_idem,
      Sender.continueSend, two, Nat.reduceAdd, Nat.lt_irrefl, if_false, List.append_assoc,
      Message.slice_payload two, Message.frame] using step
  have unlock : SendStep (moved none [] message.frame)
      (state.movedTo thread ⟨false, none, [], []⟩ fd message.frame none) := by
    have step := SendStep.unlock (moved none [] message.frame) thread
      (Senders.movedTo_threads _ _ _ _ _ _)
    simpa only [moved, Senders.movedTo, Function.update_idem] using step
  exact (((ReflTransGen.single lock).tail header).tail first).tail second |>.tail unlock

theorem frames_never_mix_sample :
    ∃ state, ReflTransGen SendStep (Senders.start samplePrograms) state ∧
      state.streams 4 = (sampleSend true).frame ++ (sampleSend false).frame ∧
      ∃ log rest, state.streams 4 = logFrames log ++ rest ∧
        ∀ thread, ownIn thread log = sentTo 4 (samplePrograms thread).flatten := by
  let between := (Senders.start samplePrograms).movedTo true ⟨false, none, [], []⟩ 4
    (sampleSend true).frame none
  have first : ReflTransGen SendStep (Senders.start samplePrograms) between :=
    sends_split rfl rfl rfl
  have second : ReflTransGen SendStep between
      (between.movedTo false ⟨false, none, [], []⟩ 4 (sampleSend false).frame none) :=
    sends_split rfl rfl rfl
  have run := first.trans second
  obtain ⟨log, rest, streams, _, _, finished⟩ := frames_never_mix run 4
  refine ⟨_, run, rfl, log, rest, streams, ?_⟩
  rintro (_ | _) <;> exact finished _ rfl

end Grintorrent
