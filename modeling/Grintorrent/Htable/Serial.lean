import Grintorrent.Htable.Racing
import Mathlib.Data.Set.Card

/-!
# When racing calls are as good as serial ones

The calls that have returned are compared with the same calls made one after the other, in
an order in which a call that had returned before another was made comes first.  There is
such an order, with the same results and the same table, exactly if no entry was
overwritten and no count was lost.
-/

namespace Grintorrent

open Lib Relation

/-- The calls of a history are made on the table one after the other. -/
abbrev Performs (ht : Htable) (call : TableCall) (result : Option Nat) (after : Htable) :
    Prop :=
  call.perform ht = .ok (after, result)

namespace Racing

variable {ι : Type} {calls : ι → TableCall} {now after : Racing ι} {thread : ι} {ht : Htable}

/-- The settled calls in their order, with their results. -/
def history (calls : ι → TableCall) (now : Racing ι) : List (TableCall × Option Nat) :=
  now.order.map fun settled => (calls settled.1, settled.2)

/-- The result of a thread's call, or `NULL` while there is none. -/
def result (now : Racing ι) (thread : ι) : Option Nat :=
  ((now.phase thread).result?).getD none

/-- All calls have returned. -/
def Done (now : Racing ι) : Prop :=
  ∀ thread, ∃ result, now.phase thread = .returned result

/-- An order of the threads in which their calls, made one after the other, have the results
and the effect that they had.  A call that had returned when another was yet to be made
comes before it. -/
structure Linearizes [DecidableEq ι] (calls : ι → TableCall) (ht : Htable) (now : Racing ι)
    (order : List ι) : Prop where
  nodup : order.Nodup
  complete : ∀ thread, thread ∈ order
  sequential : Sequential Performs ht
    (order.map fun thread => (calls thread, now.result thread)) now.ht
  respects : ∀ between, ReflTransGen (Step calls) (start ht) between →
    ReflTransGen (Step calls) between now → ∀ earlier later,
      (∃ result, between.phase earlier = .returned result) →
        between.phase later = .entering → [earlier, later].Sublist order

/-- The call has added its definition and counted it. -/
def Counted (call : TableCall) (phase : CallPhase) : Prop :=
  ∃ tdef index, call = .add tdef ∧ phase = .returned (some index)

/-- The records are those of the calls as far as they have come. -/
structure Logged (calls : ι → TableCall) (now : Racing ι) : Prop where
  settled : ∀ {thread result},
    (thread, result) ∈ now.order ↔ (now.phase thread).result? = some result
  nodup : (now.order.map Prod.fst).Nodup
  counted : ∀ {thread}, thread ∈ now.counted ↔ Counted (calls thread) (now.phase thread)
  nodup_counted : now.counted.Nodup

theorem logged_start : Logged calls (start ht) where
  settled := by simp [start, CallPhase.result?]
  nodup := .nil
  counted := by simp [start, Counted]
  nodup_counted := .nil

variable [DecidableEq ι]

/-- A step leaves the order, or it settles its call and puts it last. -/
theorem Took.order (took : Took calls now thread after) :
    after.order = now.order ∧
        (after.phase thread).result? = (now.phase thread).result? ∨
      ∃ result, (now.phase thread).result? = none ∧
        (after.phase thread).result? = some result ∧
        after.order = now.order ++ [(thread, result)] := by
  cases took with
  | enters phase | passes phase | aims phase | counts phase | writes phase =>
      refine .inl ⟨rfl, ?_⟩
      simp [moves, Racing.writes, phase, CallPhase.result?]
  | finds phase | misses phase | fills phase =>
      refine .inr ⟨_, by rw [phase]; rfl, ?_, rfl⟩
      simp [settles, moves, Racing.fills, CallPhase.result?]

theorem Took.counted (took : Took calls now thread after)
    (along : Along now.ht.Reached (calls thread) (now.phase thread)) :
    after.counted = now.counted ∧
        (Counted (calls thread) (after.phase thread) ↔
          Counted (calls thread) (now.phase thread)) ∨
      ¬Counted (calls thread) (now.phase thread) ∧
        Counted (calls thread) (after.phase thread) ∧
        after.counted = now.counted ++ [thread] := by
  cases took with
  | enters phase | passes phase | aims phase | counts phase | misses phase | fills phase =>
      refine .inl ⟨rfl, ?_⟩
      simp [moves, settles, Racing.fills, phase, Counted]
  | finds phase =>
      refine .inl ⟨rfl, ?_⟩
      cases calls thread <;> simp [moves, settles, phase, Counted, TableCall.onEntry]
  | @writes index size phase =>
      rw [phase] at along
      obtain ⟨tdef, call⟩ := along
      refine .inr ⟨by simp [phase, Counted], ⟨tdef, index, call, ?_⟩, rfl⟩
      exact Function.update_self _ _ _

theorem Logged.step (logged : Logged calls now) (walks : Walks calls now)
    (took : Took calls now thread after) : Logged calls after := by
  have others : ∀ {other}, other ≠ thread → after.phase other = now.phase other :=
    fun different => took.phase_of_ne different
  have order : (∀ {other result}, (other, result) ∈ after.order ↔
      (after.phase other).result? = some result) ∧ (after.order.map Prod.fst).Nodup := by
    rcases took.order with ⟨same, result⟩ | ⟨result, before, behind, order⟩
    · refine ⟨fun {other value} => ?_, same ▸ logged.nodup⟩
      rw [same, logged.settled]
      by_cases own : other = thread
      · rw [own, result]
      · rw [others own]
    · have fresh : ∀ {value}, (thread, value) ∉ now.order := by
        intro value member
        rw [logged.settled, before] at member
        exact nomatch member
      refine ⟨fun {other value} => ?_, ?_⟩
      · rw [order, List.mem_append, List.mem_singleton, Prod.mk.injEq]
        by_cases own : other = thread
        · subst own
          simp [fresh, behind, eq_comm]
        · rw [others own, logged.settled]
          simp [own]
      · rw [order, List.map_append]
        refine List.nodup_append.mpr ⟨logged.nodup, List.nodup_singleton _, ?_⟩
        rintro _ member _ own rfl
        obtain ⟨⟨_, value⟩, settled, rfl⟩ := List.mem_map.mp member
        obtain rfl := List.mem_singleton.mp own
        exact fresh settled
  have counted : (∀ {other}, other ∈ after.counted ↔
      Counted (calls other) (after.phase other)) ∧ after.counted.Nodup := by
    rcases took.counted (walks.along thread) with ⟨same, result⟩ | ⟨before, behind, counted⟩
    · refine ⟨fun {other} => ?_, same ▸ logged.nodup_counted⟩
      rw [same, logged.counted]
      by_cases own : other = thread
      · rw [own, result]
      · rw [others own]
    · have fresh : thread ∉ now.counted := fun member => before (logged.counted.mp member)
      refine ⟨fun {other} => ?_, ?_⟩
      · rw [counted, List.mem_append, List.mem_singleton]
        by_cases own : other = thread
        · simp [own, behind]
        · rw [others own, logged.counted]
          simp [own]
      · rw [counted]
        refine List.nodup_append.mpr ⟨logged.nodup_counted, List.nodup_singleton _, ?_⟩
        rintro _ member _ own rfl
        obtain rfl := List.mem_singleton.mp own
        exact fresh member
  exact ⟨order.1, order.2, counted.1, counted.2⟩

omit [DecidableEq ι] in
theorem history_snoc {result : Option Nat} (order : after.order = now.order ++ [(thread, result)]) :
    history calls after = history calls now ++ [(calls thread, result)] := by
  rw [history, order, List.map_append]
  rfl

omit [DecidableEq ι] in
theorem countP_history_snoc {result : Option Nat}
    (order : after.order = now.order ++ [(thread, result)]) :
    (history calls after).countP TableCall.stored =
      (history calls now).countP TableCall.stored +
        if TableCall.stored (calls thread, result) then 1 else 0 := by
  rw [history_snoc order, List.countP_append, List.countP_singleton]

/-- A call that reads its hash in a slot stores nothing. -/
theorem stored_onEntry (call : TableCall) (index : Nat) :
    TableCall.stored (call, call.onEntry index) = false := by
  cases call <;> rfl

/-- The entries are those of the start and those stored since, without the overwritten. -/
def Entered (calls : ι → TableCall) (ht : Htable) (now : Racing ι) : Prop :=
  now.ht.entries + now.overwrites =
    ht.entries + (history calls now).countP TableCall.stored

theorem Entered.step (entered : Entered calls ht now) (walks : Walks calls now)
    (keyed : ∀ thread, (calls thread).Keyed) (took : Took calls now thread after) :
    Entered calls ht after := by
  cases took with
  | enters phase | passes phase | aims phase | counts phase | writes phase => exact entered
  | finds phase lookup held =>
      rw [Entered, countP_history_snoc rfl, stored_onEntry]
      exact entered
  | misses phase lookup vacant call =>
      rw [Entered, countP_history_snoc rfl, call]
      exact entered
  | @fills index slot tdef phase lookup =>
      have along := walks.along thread
      rw [phase] at along
      obtain ⟨call, _⟩ := along
      have entries := Htable.entries_store lookup (keyed thread tdef call)
      rw [Entered, countP_history_snoc rfl, call]
      change (now.ht.store index tdef).entries + (now.overwrites + _) = _ + (_ + 1)
      rw [Entered] at entered
      omega

/-- `size` counts the calls that have written it, and falls short once a count is lost. -/
structure Sized (ht : Htable) (now : Racing ι) : Prop where
  exact : now.lostCounts = 0 → now.ht.size = ht.size + now.counted.length
  short : now.ht.size + min now.lostCounts 1 ≤ ht.size + now.counted.length
  pending : ∀ {thread index size}, now.phase thread = .storing index size →
    size + min now.lostCounts 1 ≤ ht.size + now.counted.length

omit [DecidableEq ι] in
theorem sized_start : Sized ht (start ht : Racing ι) where
  exact _ := rfl
  short := Nat.le_refl _
  pending phase := nomatch phase

theorem Sized.moves (sized : Sized ht now) {phase : CallPhase}
    (reads : ∀ {index size}, phase = .storing index size → size = now.ht.size)
    (same : after.phase = Function.update now.phase thread phase)
    (size : after.ht.size = now.ht.size) (counted : after.counted = now.counted)
    (lost : after.lostCounts = now.lostCounts) : Sized ht after where
  exact := by
    rw [lost, size, counted]
    exact sized.exact
  short := by
    rw [lost, size, counted]
    exact sized.short
  pending := by
    intro other index value storing
    rw [lost, counted]
    rw [same] at storing
    by_cases own : other = thread
    · subst own
      rw [Function.update_self] at storing
      rw [reads storing]
      exact sized.short
    · rw [Function.update_of_ne own] at storing
      exact sized.pending storing

theorem Sized.writes (sized : Sized ht now) {index size : Nat}
    (phase : now.phase thread = .storing index size) :
    Sized ht (now.writes thread index size) := by
  have own := sized.pending phase
  have short := sized.short
  have exact := sized.exact
  refine ⟨?_, ?_, ?_⟩
  all_goals simp only [Racing.writes, List.length_append, List.length_singleton]
  · intro none
    split at none
    · have before := exact (by omega)
      omega
    · omega
  · split <;> omega
  · intro other index' value storing
    have waiting : now.phase other = .storing index' value := by
      change Function.update now.phase thread _ other = _ at storing
      by_cases same : other = thread
      · subst same
        rw [Function.update_self] at storing
        exact nomatch storing
      · rwa [Function.update_of_ne same] at storing
    have theirs := sized.pending waiting
    split <;> omega

theorem Sized.step (sized : Sized ht now) (took : Took calls now thread after) :
    Sized ht after := by
  cases took with
  | writes phase => exact sized.writes phase
  | counts phase =>
      refine sized.moves ?_ rfl rfl rfl rfl
      intro index size storing
      cases storing
      rfl
  | enters phase | passes phase | aims phase | finds phase | misses phase | fills phase =>
      refine sized.moves ?_ rfl rfl rfl rfl
      intro index size storing
      exact nomatch storing

end Racing

/-- A walk for the hash has come to `index`, over entries of other hashes only. -/
def Htable.Walked (ht : Htable) (hash : Digest) (index : Nat) : Prop :=
  homeIndex ht.capacity (words hash) ≤ index ∧
    Passed Tfile.key ht.table (words hash) (homeIndex ht.capacity (words hash)) index

namespace Htable.Walked

variable {ht : Htable} {hash : Digest} {index : Nat} {slot : Tfile}

theorem probe_vacant (walked : ht.Walked hash index) (length : ht.table.length = ht.capacity)
    (lookup : ht.table[index]? = some slot) (vacant : slot.key = none) :
    ht.probe hash = .vacant index := by
  have inside := (List.getElem?_eq_some_iff.mp lookup).1
  exact probe_eq_vacant (nextIndex_ascending length) (by omega) walked.1 walked.2 lookup vacant

theorem probe_occupied (walked : ht.Walked hash index)
    (length : ht.table.length = ht.capacity) (lookup : ht.table[index]? = some slot)
    (held : slot.key = some (words hash)) : ht.probe hash = .occupied index := by
  have inside := (List.getElem?_eq_some_iff.mp lookup).1
  exact probe_eq_occupied (nextIndex_ascending length) (by omega) walked.1 walked.2 lookup held

end Htable.Walked

theorem TableCall.perform_occupied {ht : Htable} {call : TableCall} {index : Nat}
    (ended : ht.probe call.hash = .occupied index) :
    call.perform ht = .ok (ht, call.onEntry index) := by
  cases call with
  | add tdef =>
      rw [TableCall.hash] at ended
      simp only [TableCall.perform, Htable.insert, ended, TableCall.onEntry]
  | search hash =>
      rw [TableCall.hash] at ended
      rw [TableCall.perform, Htable.search_eq_some.mpr ended]
      rfl

theorem TableCall.perform_search_vacant {ht : Htable} {hash : Digest} {index : Nat}
    (ended : ht.probe hash = .vacant index) :
    (TableCall.search hash).perform ht = .ok (ht, none) := by
  rw [TableCall.perform, Htable.search_eq_none.mpr ⟨index, ended⟩]
  rfl

theorem TableCall.perform_add_vacant {ht : Htable} {tdef : TfileDef} {index : Nat}
    (ended : ht.probe tdef.fHash = .vacant index) :
    (TableCall.add tdef).perform ht = .ok (ht.fill index tdef, some index) := by
  simp only [TableCall.perform, Htable.insert, ended]

namespace Racing

variable {ι : Type} {calls : ι → TableCall} {now after : Racing ι} {thread : ι} {ht : Htable}

/-- The table as the settled calls leave it when they are made one after the other. -/
def settledTable (calls : ι → TableCall) (ht : Htable) (now : Racing ι) : Htable :=
  { now.ht with size := ht.size + (history calls now).countP TableCall.stored }

/-- What holds while nothing is overwritten. -/
structure Serial (calls : ι → TableCall) (ht : Htable) (now : Racing ι) : Prop where
  wf : now.ht.WF
  along : ∀ thread, Along now.ht.Walked (calls thread) (now.phase thread)
  sequential : Sequential Performs ht (history calls now) (settledTable calls ht now)

theorem serial_start (wf : ht.WF) : Serial calls ht (start ht) where
  wf := wf
  along _ := trivial
  sequential := .nil

variable [DecidableEq ι]

theorem Serial.along_step (serial : Serial calls ht now)
    (took : Took calls now thread after) (same : now.overwrites = after.overwrites)
    (other : ι) : Along after.ht.Walked (calls other) (after.phase other) := by
  have length := serial.wf.length
  refine took.along serial.along ?_ ?_ ?_ other
  · exact fun hash => ⟨Nat.le_refl _, .refl _ _ _ _⟩
  · intro hash index slot key walked lookup held different
    have inside := (List.getElem?_eq_some_iff.mp lookup).1
    rw [nextIndex_ascending length index inside]
    exact ⟨Nat.le_succ_of_le walked.1, walked.2.snoc lookup held different⟩
  · intro hash index walked
    have keeps := took.keeps
    refine ⟨keeps.capacity ▸ walked.1, ?_⟩
    intro position after before
    rw [keeps.capacity] at after
    obtain ⟨slot, key, lookup, held, different⟩ := walked.2 position after before
    exact ⟨slot, key, keeps.entry same lookup (by simp [held]), held, different⟩

/-- A definition is stored where a call made now would store it. -/
theorem Serial.probe_of_filling (serial : Serial calls ht now) {index : Nat}
    {tdef : TfileDef} {slot : Tfile} (phase : now.phase thread = .filling index tdef)
    (lookup : now.ht.table[index]? = some slot)
    (same : now.overwrites = (now.fills thread index tdef slot).overwrites) :
    calls thread = .add tdef ∧ now.ht.probe tdef.fHash = .vacant index := by
  have own := serial.along thread
  rw [phase] at own
  obtain ⟨call, walked⟩ := own
  refine ⟨call, walked.probe_vacant serial.wf.length lookup ?_⟩
  cases present : slot.key with
  | none => rfl
  | some key => simp [Racing.fills, present] at same

/-- A step that overwrites nothing: if it settles a call, then that call, made now, has the
same result and the same effect. -/
theorem Serial.step (serial : Serial calls ht now) (keyed : ∀ thread, (calls thread).Keyed)
    (took : Took calls now thread after) (same : now.overwrites = after.overwrites) :
    Serial calls ht after := by
  have length := serial.wf.length
  have own := serial.along thread
  have along := serial.along_step took same
  cases took with
  | enters phase | passes phase | aims phase | counts phase =>
      exact ⟨serial.wf, along, serial.sequential⟩
  | writes phase => exact ⟨⟨length, serial.wf.placed⟩, along, serial.sequential⟩
  | finds phase lookup held =>
      rw [phase] at own
      refine ⟨serial.wf, along, ?_⟩
      rw [history_snoc rfl, settledTable, countP_history_snoc rfl, stored_onEntry]
      exact .snoc serial.sequential
        (TableCall.perform_occupied (own.probe_occupied length lookup held))
  | misses phase lookup vacant call =>
      rw [phase, call] at own
      refine ⟨serial.wf, along, ?_⟩
      rw [history_snoc rfl, settledTable, countP_history_snoc rfl, call]
      exact .snoc serial.sequential
        (TableCall.perform_search_vacant (own.probe_vacant length lookup vacant))
  | @fills index slot tdef phase lookup =>
      obtain ⟨call, ended⟩ := serial.probe_of_filling phase lookup same
      have wf := serial.wf.fill (keyed thread tdef call) ended
      refine ⟨⟨wf.length, wf.placed⟩, along, ?_⟩
      rw [history_snoc rfl, settledTable, countP_history_snoc rfl, call]
      exact .snoc serial.sequential (TableCall.perform_add_vacant ended)

/-- What every state of a run records, and what holds as long as nothing is overwritten. -/
structure Raced (calls : ι → TableCall) (ht : Htable) (now : Racing ι) : Prop where
  walks : Walks calls now
  logged : Logged calls now
  entered : Entered calls ht now
  sized : Sized ht now
  serial : now.overwrites = 0 → Serial calls ht now

theorem Raced.step (raced : Raced calls ht now) (keyed : ∀ thread, (calls thread).Keyed)
    (took : Took calls now thread after) : Raced calls ht after where
  walks := raced.walks.step keyed took
  logged := raced.logged.step raced.walks took
  entered := raced.entered.step raced.walks keyed took
  sized := raced.sized.step took
  serial none := by
    have grows := took.keeps.grows
    have before : now.overwrites = 0 := by omega
    exact (raced.serial before).step keyed took (before.trans none.symm)

theorem Raced.run (wf : ht.WF) (keyed : ∀ thread, (calls thread).Keyed)
    (run : ReflTransGen (Step calls) (start ht) now) : Raced calls ht now :=
  @invariant_run _ _ _ _ (Raced calls ht)
    (fun _ _ raced ⟨_, taken⟩ => raced.step keyed (took_of_next taken)) run
    ⟨walks_start wf, logged_start, rfl, sized_start, fun _ => serial_start wf⟩

/-! ## Serial orders -/

theorem order_run_prefix (run : ReflTransGen (Step calls) now after) :
    now.order <+: after.order :=
  @order_run _ _ _ _ (fun _ => True) (fun state next => state.order <+: next.order)
    (fun _ => List.prefix_rfl) List.IsPrefix.trans (fun _ _ _ _ => trivial)
    (fun state next _ ⟨_, taken⟩ => by
      rcases (took_of_next taken).order with ⟨same, _⟩ | ⟨result, _, _, order⟩
      · rw [same]
      · rw [order]
        exact List.prefix_append _ _)
    run trivial

omit [DecidableEq ι] in
theorem Logged.of_done (logged : Logged calls now) (done : now.Done) :
    (∀ thread, (thread, now.result thread) ∈ now.order) ∧
      history calls now =
        (now.order.map Prod.fst).map fun thread => (calls thread, now.result thread) := by
  have settled : ∀ thread, (thread, now.result thread) ∈ now.order := by
    intro thread
    obtain ⟨result, returned⟩ := done thread
    rw [logged.settled, Racing.result, returned]
    rfl
  refine ⟨settled, ?_⟩
  rw [history, List.map_map]
  apply List.map_congr_left
  rintro ⟨thread, result⟩ member
  rw [logged.settled] at member
  rw [Function.comp_apply, Racing.result, member]
  rfl

omit [DecidableEq ι] in
/-- Whose definitions are stored: they are counted, or they are about to be. -/
theorem Logged.stored_iff (logged : Logged calls now)
    (along : Along now.ht.Reached (calls thread) (now.phase thread)) :
    (∃ result, (thread, result) ∈ now.order ∧ TableCall.stored (calls thread, result)) ↔
      thread ∈ now.counted ∨ (now.phase thread).Uncounted := by
  simp only [logged.settled, logged.counted, Counted]
  cases phase : now.phase thread with
  | entering | probing index | filling index tdef =>
      simp [CallPhase.result?, CallPhase.Uncounted]
  | counting index | storing index size =>
      rw [phase] at along
      obtain ⟨tdef, call⟩ := along
      simp [CallPhase.result?, CallPhase.Uncounted, call, TableCall.stored]
  | returned result =>
      cases call : calls thread <;> cases result <;>
        simp [CallPhase.result?, CallPhase.Uncounted, TableCall.stored]

theorem Logged.countP_stored (logged : Logged calls now) (walks : Walks calls now) :
    (history calls now).countP TableCall.stored =
      now.counted.length + {thread | (now.phase thread).Uncounted}.ncard := by
  let stores : ι × Option Nat → Bool := fun settled =>
    TableCall.stored (calls settled.1, settled.2)
  let threads := (now.order.filter stores).map Prod.fst
  have nodup : threads.Nodup := logged.nodup.sublist (List.filter_sublist.map _)
  have member : ∀ thread, thread ∈ threads ↔
      thread ∈ now.counted ∨ (now.phase thread).Uncounted := by
    intro thread
    rw [← logged.stored_iff (walks.along thread), List.mem_map]
    constructor
    · rintro ⟨⟨other, result⟩, kept, rfl⟩
      exact ⟨result, List.mem_filter.mp kept⟩
    · rintro ⟨result, kept⟩
      exact ⟨(thread, result), List.mem_filter.mpr kept, rfl⟩
  have apart : ∀ thread, thread ∈ now.counted → ¬(now.phase thread).Uncounted := by
    intro thread isCounted uncounted
    obtain ⟨_, _, _, returned⟩ := logged.counted.mp isCounted
    rw [returned] at uncounted
    exact uncounted
  have first : (threads.filter (· ∈ now.counted)).Perm now.counted := by
    rw [List.perm_ext_iff_of_nodup (nodup.filter _) logged.nodup_counted]
    intro thread
    rw [List.mem_filter, member, decide_eq_true_eq]
    exact ⟨And.right, fun isCounted => ⟨.inl isCounted, isCounted⟩⟩
  have second : {thread | (now.phase thread).Uncounted} =
      ↑(threads.filter (· ∉ now.counted)).toFinset := by
    ext thread
    rw [Finset.mem_coe, List.mem_toFinset, List.mem_filter, member, decide_eq_true_eq]
    constructor
    · exact fun uncounted => ⟨.inr uncounted, fun isCounted => apart thread isCounted uncounted⟩
    · rintro ⟨isCounted | uncounted, other⟩
      · exact absurd isCounted other
      · exact uncounted
  have whole : threads.length = (history calls now).countP TableCall.stored := by
    rw [List.length_map, ← List.countP_eq_length_filter, history, List.countP_map]
    rfl
  have split := List.length_eq_length_filter_add (l := threads) (· ∈ now.counted)
  rw [← whole, second, Set.ncard_coe_finset, List.toFinset_card_of_nodup (nodup.filter _),
    ← first.length_eq, split]
  simp

theorem Logged.length_counted (logged : Logged calls now) (walks : Walks calls now)
    (done : now.Done) :
    now.counted.length = (history calls now).countP TableCall.stored := by
  have none : {thread | (now.phase thread).Uncounted} = ∅ := by
    apply Set.eq_empty_of_forall_notMem
    intro thread uncounted
    obtain ⟨result, returned⟩ := done thread
    rw [Set.mem_ofPred_eq, returned] at uncounted
    exact uncounted
  rw [logged.countP_stored walks, none, Set.ncard_empty, Nat.add_zero]

theorem performs_cases {call : TableCall} {result : Option Nat} {final : Htable}
    (length : ht.table.length = ht.capacity) (performs : Performs ht call result final) :
    final = ht ∧ TableCall.stored (call, result) = false ∨
      ∃ tdef index slot, call = .add tdef ∧ result = some index ∧
        final = ht.fill index tdef ∧ ht.table[index]? = some slot ∧ slot.key = none := by
  cases call with
  | add tdef =>
      rcases Htable.insert_cases performs with ⟨rfl, rfl, _⟩ | ⟨index, rfl, rfl, ended⟩
      · exact .inl ⟨rfl, rfl⟩
      · obtain ⟨_, _, slot, lookup, vacant⟩ := Htable.probe_vacant length ended
        exact .inr ⟨tdef, index, slot, rfl, rfl, rfl, lookup, vacant⟩
  | search hash =>
      obtain ⟨found, _, returned⟩ := Result.bind_eq_ok.mp performs
      cases returned
      exact .inl ⟨rfl, rfl⟩

/-- What calls that are made one after the other add to the entries and to `size`. -/
theorem sequential_counts {history : List (TableCall × Option Nat)} {final : Htable}
    (wf : ht.WF) (keyed : ∀ performed ∈ history, performed.1.Keyed)
    (sequential : Sequential Performs ht history final) :
    final.entries = ht.entries + history.countP TableCall.stored ∧
      final.size = ht.size + history.countP TableCall.stored := by
  have preserved : ∀ {state call result next}, state.table.length = state.capacity →
      call.Keyed → Performs state call result next → next.table.length = next.capacity := by
    intro state call result next length _ performs
    rcases performs_cases length performs with ⟨rfl, _⟩ | ⟨_, _, _, _, _, rfl, _⟩
    · exact length
    · simpa [Htable.fill] using length
  constructor
  · refine (sequential.measure @preserved ?_ keyed wf.length).2
    intro state call result next length proper performs
    rcases performs_cases length performs with
      ⟨rfl, stored⟩ | ⟨tdef, index, slot, rfl, rfl, rfl, lookup, vacant⟩
    · rw [stored]
      rfl
    · exact entries_fill lookup vacant (proper tdef rfl)
  · refine (sequential.measure @preserved ?_ keyed wf.length).2
    intro state call result next length _ performs
    rcases performs_cases length performs with
      ⟨rfl, stored⟩ | ⟨tdef, index, slot, rfl, rfl, rfl, _, _⟩
    · rw [stored]
      rfl
    · rfl

/-- **Serial orders.**  When all calls have returned, whatever the interleaving was, there is
an order in which the same calls, made one after the other on the table of the start, have
the same results and leave the same table, and in which calls that did not overlap keep
their order, if and only if no entry was overwritten and no count of `size` was lost. -/
theorem linearizes_iff (wf : ht.WF) (keyed : ∀ thread, (calls thread).Keyed)
    (run : ReflTransGen (Step calls) (start ht) now) (done : now.Done) :
    (∃ order, Linearizes calls ht now order) ↔ now.overwrites = 0 ∧ now.lostCounts = 0 := by
  have raced := Raced.run wf keyed run
  obtain ⟨every, results⟩ := raced.logged.of_done done
  have counted := raced.logged.length_counted raced.walks done
  have complete : ∀ thread, thread ∈ now.order.map Prod.fst :=
    fun thread => List.mem_map.mpr ⟨_, every thread, rfl⟩
  constructor
  · rintro ⟨order, linearizes⟩
    have perm : order.Perm (now.order.map Prod.fst) := by
      rw [List.perm_ext_iff_of_nodup linearizes.nodup raced.logged.nodup]
      exact fun thread => ⟨fun _ => complete thread, fun _ => linearizes.complete thread⟩
    obtain ⟨entries, size⟩ := sequential_counts wf (by
      intro performed member
      obtain ⟨thread, _, rfl⟩ := List.mem_map.mp member
      exact keyed thread) linearizes.sequential
    have same : (order.map fun thread => (calls thread, now.result thread)).countP
        TableCall.stored = (history calls now).countP TableCall.stored := by
      rw [results]
      exact (perm.map _).countP_eq _
    have entered := raced.entered
    have short := raced.sized.short
    rw [Entered] at entered
    omega
  · rintro ⟨clean, exact⟩
    have serial := raced.serial clean
    have size := raced.sized.exact exact
    refine ⟨now.order.map Prod.fst, raced.logged.nodup, complete, ?_, ?_⟩
    · have table : settledTable calls ht now = now.ht := by
        rw [settledTable, ← counted, ← size]
      rw [← results, ← table]
      exact serial.sequential
    · intro between before behind earlier later ⟨result, returned⟩ entering
      have logged := (Raced.run wf keyed before).logged
      obtain ⟨rest, order⟩ := order_run_prefix behind
      have first : earlier ∈ between.order.map Prod.fst := by
        refine List.mem_map.mpr ⟨(earlier, result), ?_, rfl⟩
        rw [logged.settled, returned]
        rfl
      have second : later ∈ rest.map Prod.fst := by
        have member := every later
        rw [← order, List.mem_append] at member
        rcases member with early | late
        · rw [logged.settled, entering] at early
          exact nomatch early
        · exact List.mem_map.mpr ⟨_, late, rfl⟩
      rw [← order, List.map_append]
      exact (List.singleton_sublist.mpr first).append (List.singleton_sublist.mpr second)

theorem linearizes_iff_sample :
    ∃ (now : Racing Bool) (order : List Bool), Linearizes pairCalls initHtable now order := by
  obtain ⟨now, after, ran, later, _, clean, exact, _, adds, searches⟩ := pairCalls_runs
  have done : after.Done := fun thread => by
    cases thread with
    | true => exact ⟨_, adds⟩
    | false => exact ⟨_, searches⟩
  obtain ⟨order, linearizes⟩ := (linearizes_iff Htable.init_wf pairCalls_keyed
    (run_of_schedule ran |>.trans (run_of_schedule later)) done).mpr ⟨clean, exact⟩
  exact ⟨after, order, linearizes⟩

/-- Two definitions whose hashes have the same home. -/
def rivalCalls : Bool → TableCall
  | true => .add sampleDef
  | false => .add { sampleDef with fHash := 0x101 }

/-- Both calls read the slot vacant, and the definition that is stored first is lost. -/
example : ((start initHtable).runSchedule rivalCalls
    [true, false, true, false, true, false, true, true, false, false]).map
      (fun now => (now.overwrites, now.ht.size, searchHtable now.ht sampleDef.fHash)) =
    some (1, 2, .ok none) := by
  rfl

end Racing

end Grintorrent
