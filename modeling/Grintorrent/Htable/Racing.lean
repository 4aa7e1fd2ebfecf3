import Grintorrent.Htable.Counting
import Grintorrent.Htable.Growth
import Grintorrent.Lib.Packing
import Grintorrent.Lib.Runs

/-!
# Calls that race over the table

No lock guards the table: every `readWorker` adds the definitions that it receives, while
other threads add and look up theirs.  A call is taken apart into the accesses it makes: it
reads one slot after another, stores its definition in the slot that it read vacant, and
reads and writes `size`.  The steps of any number of calls interleave in any way.

Two things can go wrong: the slot was filled by another call after it was read vacant, and
its entry is overwritten; or `size` was written by another call after it was read, and a
count is lost.  If neither happens, the calls have had the results and the effect of the
same calls made one after the other; if either does, they have not.
-/

namespace Grintorrent

open Lib Relation

/-- A call on the table. -/
inductive TableCall where
  | add (tdef : TfileDef)
  | search (hash : Digest)

namespace TableCall

/-- The hash that a call looks for. -/
def hash : TableCall → Digest
  | .add tdef => tdef.fHash
  | .search hash => hash

/-- What a call returns when it reads its hash in a slot. -/
def onEntry (index : Nat) : TableCall → Option Nat
  | .add _ => none
  | .search _ => some index

/-- A call made alone: `add_htable` behind its growth test, or `search_htable`. -/
def perform (ht : Htable) : TableCall → Result (Htable × Option Nat)
  | .add tdef => ht.insert tdef
  | .search hash => do
      let found ← searchHtable ht hash
      .ok (ht, found)

/-- A call does not add a definition with the zero hash. -/
def Keyed (call : TableCall) : Prop :=
  ∀ tdef, call = .add tdef → tdef.fHash ≠ 0

/-- A call that has stored a definition. -/
def stored : TableCall × Option Nat → Bool
  | (.add _, result) => result.isSome
  | (.search _, _) => false

end TableCall

/-- How far a call has come.  The locals of the call are those it still uses. -/
inductive CallPhase where
  | entering
  /-- The slot at `index` is read next. -/
  | probing (index : Nat)
  /-- The slot at `index` was read vacant, and `tdef` is stored there next. -/
  | filling (index : Nat) (tdef : TfileDef)
  /-- `size` is read next. -/
  | counting (index : Nat)
  /-- `size` was read, and one more is written next. -/
  | storing (index size : Nat)
  | returned (result : Option Nat)

/-- The result of a call, once it is settled. -/
def CallPhase.result? : CallPhase → Option (Option Nat)
  | .counting index | .storing index _ => some (some index)
  | .returned result => some result
  | _ => none

/-- The call has stored its definition and not counted it. -/
def CallPhase.Uncounted : CallPhase → Prop
  | .counting _ | .storing _ _ => True
  | _ => False

/-- `htable->table[index].tdef = tdef;` -/
def Htable.store (ht : Htable) (index : Nat) (tdef : TfileDef) : Htable :=
  { ht with table := ht.table.modify index fun slot => { slot with tdef } }

/-- The table with the calls of the threads on it.  The last four fields record what has
happened, and no call reads them: the settled calls in their order, the calls that have
written `size`, the entries overwritten and the counts lost. -/
structure Racing (ι : Type) where
  ht : Htable
  phase : ι → CallPhase
  order : List (ι × Option Nat)
  counted : List ι
  overwrites : Nat
  lostCounts : Nat

namespace Racing

variable {ι : Type}

/-- All calls are about to be made. -/
def start (ht : Htable) : Racing ι where
  ht
  phase := fun _ => .entering
  order := []
  counted := []
  overwrites := 0
  lostCounts := 0

variable [DecidableEq ι]

/-- The call of one thread goes on. -/
def moves (now : Racing ι) (thread : ι) (phase : CallPhase) : Racing ι :=
  { now with phase := Function.update now.phase thread phase }

/-- The result of a call is settled. -/
def settles (now : Racing ι) (thread : ι) (result : Option Nat) (phase : CallPhase) :
    Racing ι :=
  { now.moves thread phase with order := now.order ++ [(thread, result)] }

/-- The test of the slot that was read. -/
def probes (call : TableCall) (now : Racing ι) (thread : ι) (index : Nat) (slot : Tfile) :
    Racing ι :=
  match slot.key with
  | none =>
      match call with
      | .add tdef => now.moves thread (.filling index tdef)
      | .search _ => now.settles thread none (.returned none)
  | some key =>
      if key = words call.hash then
        now.settles thread (call.onEntry index) (.returned (call.onEntry index))
      else now.moves thread (.probing (nextIndex now.ht.capacity index))

/-- The definition is stored, whatever the slot holds by now. -/
def fills (now : Racing ι) (thread : ι) (index : Nat) (tdef : TfileDef) (slot : Tfile) :
    Racing ι :=
  { now.settles thread (some index) (.counting index) with
    ht := now.ht.store index tdef
    overwrites := now.overwrites + if slot.key.isSome then 1 else 0 }

/-- `size` is written, whatever it is by now. -/
def writes (now : Racing ι) (thread : ι) (index size : Nat) : Racing ι :=
  { now.moves thread (.returned (some index)) with
    ht := { now.ht with size := size + 1 }
    counted := now.counted ++ [thread]
    lostCounts := now.lostCounts + if now.ht.size = size then 0 else 1 }

/-- The next access of a thread.  There is none when its call has returned, when its index
has left the array, and when the call would have to grow the table. -/
def next (calls : ι → TableCall) (now : Racing ι) (thread : ι) : Option (Racing ι) :=
  match now.phase thread with
  | .entering =>
      match calls thread with
      | .add tdef =>
          if now.ht.Grows then none
          else some (now.moves thread
            (.probing (homeIndex now.ht.capacity (words tdef.fHash))))
      | .search hash =>
          some (now.moves thread (.probing (homeIndex now.ht.capacity (words hash))))
  | .probing index => (now.ht.table[index]?).map (now.probes (calls thread) thread index)
  | .filling index tdef => (now.ht.table[index]?).map (now.fills thread index tdef)
  | .counting index => some (now.moves thread (.storing index now.ht.size))
  | .storing index size => some (now.writes thread index size)
  | .returned _ => none

/-- One thread makes its next access. -/
def Step (calls : ι → TableCall) (now after : Racing ι) : Prop :=
  ∃ thread, now.next calls thread = some after

/-- The threads of the list make their accesses one after the other. -/
def runSchedule (calls : ι → TableCall) (now : Racing ι) (schedule : List ι) :
    Option (Racing ι) :=
  schedule.foldlM (next calls) now

theorem run_of_schedule {calls : ι → TableCall} {now after : Racing ι} {schedule : List ι}
    (ran : now.runSchedule calls schedule = some after) :
    ReflTransGen (Step calls) now after := by
  induction schedule generalizing now with
  | nil =>
      obtain rfl := Option.some.inj ran
      exact .refl
  | cons thread schedule ih =>
      rw [runSchedule, List.foldlM_cons] at ran
      obtain ⟨between, taken, rest⟩ := Option.bind_eq_some_iff.mp ran
      exact .head ⟨thread, taken⟩ (ih rest)

/-! ## What one step does -/

variable {calls : ι → TableCall} {now after : Racing ι} {thread : ι} {ht : Htable}

/-- The cases of a step. -/
inductive Took (calls : ι → TableCall) (now : Racing ι) (thread : ι) : Racing ι → Prop where
  | enters (phase : now.phase thread = .entering) :
      Took calls now thread (now.moves thread
        (.probing (homeIndex now.ht.capacity (words (calls thread).hash))))
  | passes {index : Nat} {slot : Tfile} {key : BitVec 64 × BitVec 64}
      (phase : now.phase thread = .probing index)
      (lookup : now.ht.table[index]? = some slot) (held : slot.key = some key)
      (different : key ≠ words (calls thread).hash) :
      Took calls now thread (now.moves thread (.probing (nextIndex now.ht.capacity index)))
  | finds {index : Nat} {slot : Tfile} (phase : now.phase thread = .probing index)
      (lookup : now.ht.table[index]? = some slot)
      (held : slot.key = some (words (calls thread).hash)) :
      Took calls now thread (now.settles thread ((calls thread).onEntry index)
        (.returned ((calls thread).onEntry index)))
  | misses {index : Nat} {slot : Tfile} {hash : Digest}
      (phase : now.phase thread = .probing index)
      (lookup : now.ht.table[index]? = some slot) (vacant : slot.key = none)
      (call : calls thread = .search hash) :
      Took calls now thread (now.settles thread none (.returned none))
  | aims {index : Nat} {slot : Tfile} {tdef : TfileDef}
      (phase : now.phase thread = .probing index)
      (lookup : now.ht.table[index]? = some slot) (vacant : slot.key = none)
      (call : calls thread = .add tdef) :
      Took calls now thread (now.moves thread (.filling index tdef))
  | fills {index : Nat} {slot : Tfile} {tdef : TfileDef}
      (phase : now.phase thread = .filling index tdef)
      (lookup : now.ht.table[index]? = some slot) :
      Took calls now thread (now.fills thread index tdef slot)
  | counts {index : Nat} (phase : now.phase thread = .counting index) :
      Took calls now thread (now.moves thread (.storing index now.ht.size))
  | writes {index size : Nat} (phase : now.phase thread = .storing index size) :
      Took calls now thread (now.writes thread index size)

theorem took_of_next (taken : now.next calls thread = some after) :
    Took calls now thread after := by
  unfold next at taken
  split at taken
  next phase =>
    have home : after = now.moves thread
        (.probing (homeIndex now.ht.capacity (words (calls thread).hash))) := by
      split at taken
      next call =>
        rw [call]
        split at taken
        · exact nomatch taken
        · exact (Option.some.inj taken).symm
      next call =>
        rw [call]
        exact (Option.some.inj taken).symm
    rw [home]
    exact .enters phase
  next index phase =>
    obtain ⟨slot, lookup, rfl⟩ := Option.map_eq_some_iff.mp taken
    unfold probes
    split
    next vacant =>
      split
      next tdef call => exact .aims phase lookup vacant call
      next call => exact .misses phase lookup vacant call
    next key held =>
      split
      next same => exact .finds phase lookup (same ▸ held)
      next different => exact .passes phase lookup held different
  next index tdef phase =>
    obtain ⟨slot, lookup, rfl⟩ := Option.map_eq_some_iff.mp taken
    exact .fills phase lookup
  next index phase =>
    obtain rfl := Option.some.inj taken
    exact .counts phase
  next index size phase =>
    obtain rfl := Option.some.inj taken
    exact .writes phase
  next => exact nomatch taken

theorem Took.table (took : Took calls now thread after) :
    after.ht.capacity = now.ht.capacity ∧
      (after.ht.table = now.ht.table ∧ after.overwrites = now.overwrites ∨
        ∃ index tdef slot, now.phase thread = .filling index tdef ∧
          now.ht.table[index]? = some slot ∧ after = now.fills thread index tdef slot) := by
  cases took with
  | fills phase lookup => exact ⟨rfl, .inr ⟨_, _, _, phase, lookup, rfl⟩⟩
  | _ => exact ⟨rfl, .inl ⟨rfl, rfl⟩⟩

/-- What is known of a call from how far it has come: that the slots behind it were walked
over, and which call it is. -/
def Along (walked : Digest → Nat → Prop) (call : TableCall) : CallPhase → Prop
  | .probing index => walked call.hash index
  | .filling index tdef => call = .add tdef ∧ walked tdef.fHash index
  | .counting _ | .storing _ _ => ∃ tdef, call = .add tdef
  | _ => True

theorem Along.mono {walked walked' : Digest → Nat → Prop} {call : TableCall}
    {phase : CallPhase} (along : Along walked call phase)
    (kept : ∀ {hash index}, walked hash index → walked' hash index) :
    Along walked' call phase := by
  cases phase with
  | probing index => exact kept along
  | filling index tdef => exact ⟨along.1, kept along.2⟩
  | counting index | storing index size => exact along
  | entering | returned result => trivial

/-- A step takes one call onward, and leaves what the others have walked over as far as it
leaves the table. -/
theorem Took.along {walked walked' : Digest → Nat → Prop}
    (took : Took calls now thread after)
    (along : ∀ other, Along walked (calls other) (now.phase other))
    (begins : ∀ hash, walked hash (homeIndex now.ht.capacity (words hash)))
    (onward : ∀ {hash index slot key}, walked hash index →
      now.ht.table[index]? = some slot → slot.key = some key → key ≠ words hash →
      walked hash (nextIndex now.ht.capacity index))
    (kept : ∀ {hash index}, walked hash index → walked' hash index) (other : ι) :
    Along walked' (calls other) (after.phase other) := by
  have moved : ∀ phase, Along walked (calls thread) phase →
      Along walked' (calls other) (Function.update now.phase thread phase other) := by
    intro phase own
    refine Along.mono ?_ kept
    by_cases same : other = thread
    · subst same
      rwa [Function.update_self]
    · rw [Function.update_of_ne same]
      exact along other
  have own := along thread
  cases took with
  | enters phase => exact moved _ (begins _)
  | passes phase lookup held different =>
      rw [phase] at own
      exact moved _ (onward own lookup held different)
  | finds phase lookup held => exact moved _ trivial
  | misses phase lookup vacant call => exact moved _ trivial
  | aims phase lookup vacant call =>
      rw [phase] at own
      refine moved _ ⟨call, ?_⟩
      rwa [Along, call] at own
  | fills phase lookup =>
      rw [phase] at own
      exact moved _ ⟨_, own.1⟩
  | counts phase =>
      rw [phase] at own
      exact moved _ own
  | writes phase => exact moved _ trivial

end Racing

/-- A walk for the hash has come to `index`, over occupied slots only. -/
def Htable.Reached (ht : Htable) (hash : Digest) (index : Nat) : Prop :=
  homeIndex ht.capacity (words hash) ≤ index ∧
    Occupied Tfile.key ht.table (homeIndex ht.capacity (words hash)) index

section Store

variable {ht : Htable} {tdef : TfileDef} {index : Nat} {slot : Tfile}

theorem Htable.store_table (lookup : ht.table[index]? = some slot) (tdef : TfileDef) :
    (ht.store index tdef).table = ht.table.set index { slot with tdef } :=
  fill_table lookup tdef

theorem Htable.entries_store (lookup : ht.table[index]? = some slot)
    (nonzero : tdef.fHash ≠ 0) :
    (ht.store index tdef).entries + (if slot.key.isSome then 1 else 0) = ht.entries + 1 := by
  obtain ⟨inside, old⟩ := List.getElem?_eq_some_iff.mp lookup
  have held : ({ slot with tdef } : Tfile).key = some (words tdef.fHash) :=
    Tfile.key_of_ne_zero nonzero
  rw [Htable.entries, Htable.store_table lookup, List.countP_set inside, old, Htable.entries]
  have counted : slot.key.isSome → 0 < ht.table.countP fun slot => slot.key.isSome :=
    fun present => List.countP_pos_iff.mpr ⟨slot, List.mem_of_getElem? lookup, present⟩
  cases present : slot.key.isSome with
  | true =>
      have positive := counted present
      simp only [held, Option.isSome_some, if_true]
      omega
  | false => simp [held]

end Store

namespace Racing

variable {ι : Type} {calls : ι → TableCall} {now after : Racing ι} {thread : ι} {ht : Htable}

/-- What holds of the table in every state, whatever was overwritten. -/
structure Walks (calls : ι → TableCall) (now : Racing ι) : Prop where
  length : now.ht.table.length = now.ht.capacity
  packed : Packed Tfile.key (homeIndex now.ht.capacity) now.ht.table
  along : ∀ thread, Along now.ht.Reached (calls thread) (now.phase thread)

theorem walks_start (wf : ht.WF) : Walks calls (start ht) where
  length := wf.length
  packed := wf.placed.packed
  along _ := trivial

/-- **A search** on the table as it is finds a hash exactly if some slot holds it. -/
theorem Walks.search_iff (walks : Walks calls now) (hash : Digest) :
    (∃ index, searchHtable now.ht hash = .ok (some index)) ↔
      hash ≠ 0 ∧ ∃ index slot, now.ht.Holds index hash slot := by
  have enough : now.ht.table.length < now.ht.capacity + 1 := by
    have length := walks.length
    omega
  have found : (∃ index, now.ht.probe hash = .occupied index) ↔ ∃ (index : Nat) (slot : Tfile),
      now.ht.table[index]? = some slot ∧ slot.key = some (words hash) :=
    walks.packed.probe_occupied_iff (nextIndex_ascending walks.length) enough
  constructor
  · rintro ⟨index, searched⟩
    obtain ⟨position, slot, lookup, held⟩ := found.mp ⟨index, Htable.search_eq_some.mp searched⟩
    obtain ⟨same, nonzero⟩ := Tfile.key_eq_some.mp held
    exact ⟨nonzero, position, slot, lookup, same⟩
  · rintro ⟨nonzero, position, slot, lookup, same⟩
    obtain ⟨index, ended⟩ := found.mpr
      ⟨position, slot, lookup, Tfile.key_eq_some.mpr ⟨same, nonzero⟩⟩
    exact ⟨index, Htable.search_eq_some.mpr ended⟩

/-- From one state to a later one: unless an entry is overwritten, every entry stays where
it is. -/
structure Keeps (now after : Racing ι) : Prop where
  capacity : after.ht.capacity = now.ht.capacity
  grows : now.overwrites ≤ after.overwrites
  entry : now.overwrites = after.overwrites → ∀ {index : Nat} {slot : Tfile},
    now.ht.table[index]? = some slot → slot.key ≠ none → after.ht.table[index]? = some slot

namespace Keeps

theorem refl (now : Racing ι) : Keeps now now where
  capacity := rfl
  grows := Nat.le_refl _
  entry _ _ _ lookup _ := lookup

theorem trans {third : Racing ι} (first : Keeps now after) (second : Keeps after third) :
    Keeps now third where
  capacity := second.capacity.trans first.capacity
  grows := first.grows.trans second.grows
  entry same _ _ lookup held := by
    have before := first.grows
    have behind := second.grows
    exact second.entry (by omega) (first.entry (by omega) lookup held) held

/-- What is found is found later in the same slot, unless an entry is overwritten. -/
theorem search (keeps : Keeps now after) (same : now.overwrites = after.overwrites)
    (length : now.ht.table.length = now.ht.capacity)
    (length' : after.ht.table.length = after.ht.capacity) {hash : Digest} {index : Nat}
    (searched : searchHtable now.ht hash = .ok (some index)) :
    searchHtable after.ht hash = .ok (some index) := by
  obtain ⟨reached, passed, slot, lookup, held⟩ :=
    (probe_inside (nextIndex_ascending length) _).2 index (Htable.search_eq_some.mp searched)
  have lookup' := keeps.entry same lookup (by simp [held])
  have inside := (List.getElem?_eq_some_iff.mp lookup').1
  rw [Htable.search_eq_some, Htable.probe, keeps.capacity]
  refine probe_eq_occupied ?_ (by rw [← keeps.capacity]; omega) reached ?_ lookup' held
  · rw [← keeps.capacity]
    exact nextIndex_ascending length'
  · intro position after before
    obtain ⟨between, other, found, holds, different⟩ := passed position after before
    exact ⟨between, other, keeps.entry same found (by simp [holds]), holds, different⟩

end Keeps

variable [DecidableEq ι]

theorem Walks.step (walks : Walks calls now) (keyed : ∀ thread, (calls thread).Keyed)
    (took : Took calls now thread after) : Walks calls after := by
  have begins : ∀ hash, now.ht.Reached hash (homeIndex now.ht.capacity (words hash)) :=
    fun hash => ⟨Nat.le_refl _, .refl _ _ _⟩
  have onward : ∀ {hash index slot key}, now.ht.Reached hash index →
      now.ht.table[index]? = some slot → slot.key = some key → key ≠ words hash →
      now.ht.Reached hash (nextIndex now.ht.capacity index) := by
    intro hash index slot key reached lookup held _
    have inside := (List.getElem?_eq_some_iff.mp lookup).1
    rw [nextIndex_ascending walks.length index inside]
    exact ⟨Nat.le_succ_of_le reached.1, reached.2.snoc lookup held⟩
  obtain ⟨capacity, ⟨table, _⟩ | ⟨index, tdef, slot, phase, lookup, rfl⟩⟩ := took.table
  · have kept : ∀ {hash index}, now.ht.Reached hash index → after.ht.Reached hash index := by
      intro hash index reached
      rwa [Htable.Reached, capacity, table]
    refine ⟨?_, ?_, took.along walks.along begins onward kept⟩
    · rw [table, capacity, walks.length]
    · rw [table, capacity]
      exact walks.packed
  · have own := walks.along thread
    rw [phase] at own
    obtain ⟨call, reached⟩ := own
    have held : ({ slot with tdef } : Tfile).key = some (words tdef.fHash) :=
      Tfile.key_of_ne_zero (keyed thread tdef call)
    have stored := Htable.store_table lookup tdef
    refine ⟨?_, ?_, took.along walks.along begins onward ?_⟩
    · exact (congrArg List.length stored).trans ((List.length_set).trans walks.length)
    · change Packed Tfile.key (homeIndex now.ht.capacity) (now.ht.store index tdef).table
      rw [stored]
      exact walks.packed.set held reached.1 reached.2
    · intro hash position walked
      refine ⟨walked.1, ?_⟩
      change Occupied Tfile.key (now.ht.store index tdef).table _ _
      rw [stored]
      exact walked.2.set held

theorem Walks.run (wf : ht.WF) (keyed : ∀ thread, (calls thread).Keyed)
    (run : ReflTransGen (Step calls) (start ht) now) : Walks calls now :=
  @invariant_run _ _ _ _ (Walks calls)
    (fun _ _ walks ⟨_, taken⟩ => walks.step keyed (took_of_next taken)) run (walks_start wf)

theorem Took.keeps (took : Took calls now thread after) : Keeps now after := by
  obtain ⟨capacity, ⟨table, overwrites⟩ | ⟨index, tdef, slot, _, lookup, rfl⟩⟩ := took.table
  · refine ⟨capacity, overwrites.ge, fun _ _ _ found _ => ?_⟩
    rw [table, found]
  · refine ⟨capacity, Nat.le_add_right _ _, fun same position other found held => ?_⟩
    -- Nothing was overwritten, so the slot that was filled was vacant.
    have vacant : slot.key = none := by
      cases present : slot.key with
      | none => rfl
      | some key => simp [Racing.fills, present] at same
    have apart : index ≠ position := by
      rintro rfl
      obtain rfl := Option.some.inj (lookup.symm.trans found)
      exact held vacant
    change (now.ht.store index tdef).table[position]? = some other
    rw [Htable.store_table lookup, List.getElem?_set_ne apart, found]

theorem keeps_run (run : ReflTransGen (Step calls) now after) : Keeps now after :=
  @order_run _ _ _ _ (fun _ => True) Keeps Keeps.refl Keeps.trans (fun _ _ _ _ => trivial)
    (fun _ _ _ ⟨_, taken⟩ => (took_of_next taken).keeps) run trivial

/-- A call of `add_htable` that is settled leaves its hash in the table, as long as nothing
is overwritten. -/
def Added (calls : ι → TableCall) (now : Racing ι) : Prop :=
  now.overwrites = 0 → ∀ {thread : ι} {tdef : TfileDef} {result : Option Nat},
    calls thread = .add tdef → (now.phase thread).result? = some result →
    ∃ index slot, now.ht.Holds index tdef.fHash slot

theorem Took.phase_of_ne {other : ι} (took : Took calls now thread after)
    (different : other ≠ thread) : after.phase other = now.phase other := by
  cases took <;> exact Function.update_of_ne different _ _

theorem Added.step (added : Added calls now) (walks : Walks calls now)
    (keyed : ∀ thread, (calls thread).Keyed) (took : Took calls now thread after) :
    Added calls after := by
  intro clean other tdef result call settled
  have keeps := took.keeps
  have before : now.overwrites = 0 := Nat.le_zero.mp (clean ▸ keeps.grows)
  have nonzero := keyed other tdef call
  have stays : (∃ index slot, now.ht.Holds index tdef.fHash slot) →
      ∃ index slot, after.ht.Holds index tdef.fHash slot := by
    rintro ⟨index, slot, lookup, held⟩
    refine ⟨index, slot, keeps.entry (before.trans clean.symm) lookup ?_, held⟩
    rw [Tfile.key_of_ne_zero (held ▸ nonzero)]
    exact Option.some_ne_none _
  by_cases same : other = thread
  · subst same
    have along := walks.along other
    cases took with
    | enters phase => simp [moves, CallPhase.result?] at settled
    | passes phase lookup held different => simp [moves, CallPhase.result?] at settled
    | finds phase lookup held =>
        rw [call] at held
        exact stays ⟨_, _, lookup, (Tfile.key_eq_some.mp held).1⟩
    | misses phase lookup vacant search => exact nomatch call.symm.trans search
    | aims phase lookup vacant add => simp [moves, CallPhase.result?] at settled
    | @fills index slot filled phase lookup =>
        rw [phase] at along
        obtain rfl := TableCall.add.inj (call.symm.trans along.1)
        have inside := (List.getElem?_eq_some_iff.mp lookup).1
        refine ⟨index, { slot with tdef }, ?_, rfl⟩
        change (now.ht.store index tdef).table[index]? = _
        rw [Htable.store_table lookup, List.getElem?_set_self inside]
    | counts phase => exact stays (added before call (by rw [phase]; rfl))
    | writes phase => exact stays (added before call (by rw [phase]; rfl))
  · rw [took.phase_of_ne same] at settled
    exact stays (added before call settled)

theorem Added.run (wf : ht.WF) (keyed : ∀ thread, (calls thread).Keyed)
    (run : ReflTransGen (Step calls) (start ht) now) : Added calls now :=
  (@invariant_run _ _ _ _ (fun state => Walks calls state ∧ Added calls state)
    (fun _ _ ⟨walks, added⟩ ⟨_, taken⟩ =>
      ⟨walks.step keyed (took_of_next taken), added.step walks keyed (took_of_next taken)⟩)
    run ⟨walks_start wf, fun _ _ _ _ _ settled => nomatch settled⟩).2

/-- **Lookups while calls race.**  In every state of every run of any number of calls, and
whatever was overwritten: a search finds a hash exactly if some slot holds it.  As long as
nothing is overwritten, what is found is found later in the same slot, and a definition is
found from the moment on at which its `add_htable` has stored it or found it there. -/
theorem racing_lookup (wf : ht.WF) (keyed : ∀ thread, (calls thread).Keyed)
    (run : ReflTransGen (Step calls) (start ht) now)
    (later : ReflTransGen (Step calls) now after) :
    (∀ hash, (∃ index, searchHtable now.ht hash = .ok (some index)) ↔
        hash ≠ 0 ∧ ∃ index slot, now.ht.Holds index hash slot) ∧
      (now.overwrites = after.overwrites → ∀ hash index,
        searchHtable now.ht hash = .ok (some index) →
          searchHtable after.ht hash = .ok (some index)) ∧
      (now.overwrites = 0 → ∀ thread tdef result, calls thread = .add tdef →
        (now.phase thread).result? = some result →
          ∃ index, searchHtable now.ht tdef.fHash = .ok (some index)) := by
  have walks := Walks.run wf keyed run
  have walks' := Walks.run wf keyed (run.trans later)
  refine ⟨walks.search_iff, ?_, ?_⟩
  · intro same hash index searched
    exact (keeps_run later).search same walks.length walks'.length searched
  · intro clean thread tdef result call settled
    have held := Added.run wf keyed run clean call settled
    exact (walks.search_iff _).mpr ⟨keyed thread tdef call, held⟩

/-- One thread adds a definition and another looks it up. -/
def pairCalls : Bool → TableCall
  | true => .add sampleDef
  | false => .search sampleDef.fHash

theorem pairCalls_keyed (thread : Bool) : (pairCalls thread).Keyed := by
  intro tdef call
  cases thread with
  | true =>
      obtain rfl := TableCall.add.inj call
      decide
  | false => exact nomatch call

/-- The lookup begins before the definition is stored, and reads the slot after that. -/
theorem pairCalls_runs : ∃ now after : Racing Bool,
    (start initHtable).runSchedule pairCalls [true, false, true, true] = some now ∧
      now.runSchedule pairCalls [false, true, true] = some after ∧ now.overwrites = 0 ∧
      after.overwrites = 0 ∧ after.lostCounts = 0 ∧
      (now.phase true).result? = some (some 1) ∧ after.phase true = .returned (some 1) ∧
      after.phase false = .returned (some 1) :=
  ⟨_, _, rfl, rfl, rfl, rfl, rfl, rfl, rfl, rfl⟩

theorem racing_lookup_sample :
    ∃ (now after : Racing Bool) (index : Nat),
      searchHtable now.ht sampleDef.fHash = .ok (some index) ∧
        searchHtable after.ht sampleDef.fHash = .ok (some index) := by
  obtain ⟨now, after, ran, later, clean, clean', _, settled, _⟩ := pairCalls_runs
  obtain ⟨_, stays, added⟩ := racing_lookup Htable.init_wf pairCalls_keyed
    (run_of_schedule ran) (run_of_schedule later)
  obtain ⟨index, searched⟩ := added clean true sampleDef _ rfl settled
  exact ⟨now, after, index, searched, stays (clean.trans clean'.symm) _ _ searched⟩

end Racing

end Grintorrent
