import Mathlib.Data.List.Basic
import Mathlib.Data.List.Count

/-!
# Linear probing

A probe run over an array of slots, for any slot type whose slots are vacant or
hold a key, and any rule for the index that follows.  The run reads one slot
after another until it meets a vacant slot, the key it looks for, or an index
outside the array.

`Placed` is the invariant of open addressing: keys are pairwise distinct, and
no vacant slot separates an entry from the home index of its key.  Under it, a
run that ends inside the array decides membership.
-/

namespace Grintorrent.Lib

/-- How a probe run ends. -/
inductive Probe where
  | vacant (index : Nat)
  | occupied (index : Nat)
  | outside (index : Nat)
  | running
  deriving DecidableEq, Repr

section Probing

variable {σ κ : Type*}

/-- Slots `start` to `stop - 1` all hold keys other than `key`. -/
def Passed (keyOf : σ → Option κ) (slots : List σ) (key : κ)
    (start stop : Nat) : Prop :=
  ∀ position, start ≤ position → position < stop →
    ∃ slot other, slots[position]? = some slot ∧ keyOf slot = some other ∧ other ≠ key

/-- The successor rule walks upwards while it is inside the array. -/
def Ascending (next : Nat → Nat) (slots : List σ) : Prop :=
  ∀ index < slots.length, next index = index + 1

variable {keyOf : σ → Option κ} {next : Nat → Nat} {slots : List σ} {key : κ}
variable {fuel index stop : Nat}

theorem Passed.refl (keyOf : σ → Option κ) (slots : List σ) (key : κ) (start : Nat) :
    Passed keyOf slots key start start := by
  intro position after before
  omega

theorem Passed.cons {slot : σ} {other : κ}
    (lookup : slots[index]? = some slot) (held : keyOf slot = some other)
    (different : other ≠ key) (rest : Passed keyOf slots key (index + 1) stop) :
    Passed keyOf slots key index stop := by
  intro position after before
  rcases Nat.eq_or_lt_of_le after with rfl | later
  · exact ⟨slot, other, lookup, held, different⟩
  · exact rest position later before

/-- Keys are pairwise distinct and every entry is reachable from its key's home
index without crossing a vacant slot. -/
structure Placed (keyOf : σ → Option κ) (home : κ → Nat) (slots : List σ) : Prop where
  distinct : ∀ {left right : Nat} {slot other : σ} {key : κ},
    slots[left]? = some slot → slots[right]? = some other →
    keyOf slot = some key → keyOf other = some key → left = right
  home_le : ∀ {index : Nat} {slot : σ} {key : κ},
    slots[index]? = some slot → keyOf slot = some key → home key ≤ index
  filled : ∀ {index position : Nat} {slot : σ} {key : κ},
    slots[index]? = some slot → keyOf slot = some key →
    home key ≤ position → position < index →
    ∃ between other, slots[position]? = some between ∧ keyOf between = some other

variable {home : κ → Nat}

theorem Placed.of_vacant
    (vacant : ∀ {index : Nat} {slot : σ}, slots[index]? = some slot → keyOf slot = none) :
    Placed keyOf home slots where
  distinct lookup _ held _ := by simp [vacant lookup] at held
  home_le lookup held := by simp [vacant lookup] at held
  filled lookup held := by simp [vacant lookup] at held

/-- Every slot between a key's home and its entry holds another key. -/
theorem Placed.passed (placed : Placed keyOf home slots) {slot : σ}
    (lookup : slots[stop]? = some slot) (held : keyOf slot = some key) :
    Passed keyOf slots key (home key) stop := by
  intro position after before
  obtain ⟨between, other, found, holds⟩ := placed.filled lookup held after before
  refine ⟨between, other, found, holds, ?_⟩
  rintro rfl
  have same := placed.distinct found lookup holds held
  omega

/-- Filling the vacant slot at which a run for a new key ended keeps the
invariant. -/
theorem Placed.set (placed : Placed keyOf home slots)
    {filledSlot : σ} (holds : keyOf filledSlot = some key)
    (inside : stop < slots.length)
    (fresh : ∀ {index : Nat} {slot : σ}, slots[index]? = some slot →
      keyOf slot ≠ some key)
    (reached : home key ≤ stop)
    (passed : Passed keyOf slots key (home key) stop) :
    Placed keyOf home (slots.set stop filledSlot) where
  distinct := by
    intro left right slot other found leftLookup rightLookup leftHeld rightHeld
    rw [List.getElem?_set] at leftLookup rightLookup
    split at leftLookup <;> split at rightLookup
    · omega
    · rename_i isStop notStop
      simp only [Option.some.injEq] at leftLookup
      subst leftLookup
      rw [holds, Option.some.injEq] at leftHeld
      exact absurd (leftHeld ▸ rightHeld) (fresh rightLookup)
    · rename_i notStop isStop
      simp only [Option.some.injEq] at rightLookup
      subst rightLookup
      rw [holds, Option.some.injEq] at rightHeld
      exact absurd (rightHeld ▸ leftHeld) (fresh leftLookup)
    · exact placed.distinct leftLookup rightLookup leftHeld rightHeld
  home_le := by
    intro index slot found lookup held
    rw [List.getElem?_set] at lookup
    split at lookup
    · rename_i isStop
      simp only [Option.some.injEq] at lookup
      subst lookup
      rw [holds, Option.some.injEq] at held
      subst held
      omega
    · exact placed.home_le lookup held
  filled := by
    intro index position slot found lookup held after before
    rw [List.getElem?_set] at lookup
    by_cases isStop : stop = position
    · subst isStop
      exact ⟨filledSlot, key, by simp [inside], holds⟩
    · rw [List.getElem?_set_ne isStop]
      split at lookup
      · rename_i sameIndex
        simp only [Option.some.injEq] at lookup
        subst lookup
        rw [holds, Option.some.injEq] at held
        subst held
        obtain ⟨between, other, between?, holdsOther, _⟩ :=
          passed position after (by omega)
        exact ⟨between, other, between?, holdsOther⟩
      · exact placed.filled lookup held after before

theorem Placed.set_sameKey (placed : Placed keyOf home slots)
    {old changed : σ} (lookup : slots[index]? = some old)
    (sameKey : keyOf changed = keyOf old) :
    Placed keyOf home (slots.set index changed) := by
  have inside : index < slots.length := (List.getElem?_eq_some_iff.mp lookup).1
  have view : ∀ {position : Nat} {slot : σ},
      (slots.set index changed)[position]? = some slot →
      ∃ before, slots[position]? = some before ∧ keyOf slot = keyOf before := by
    intro position slot found
    rw [List.getElem?_set] at found
    split at found
    · rename_i same
      subst same
      simp only [Option.some.injEq] at found
      subst found
      exact ⟨old, lookup, sameKey⟩
    · exact ⟨slot, found, rfl⟩
  refine ⟨?_, ?_, ?_⟩
  · intro left right slot other found leftLookup rightLookup leftHeld rightHeld
    obtain ⟨leftOld, leftBefore, leftKey⟩ := view leftLookup
    obtain ⟨rightOld, rightBefore, rightKey⟩ := view rightLookup
    exact placed.distinct leftBefore rightBefore (leftKey ▸ leftHeld) (rightKey ▸ rightHeld)
  · intro position slot found slotLookup held
    obtain ⟨before, beforeLookup, keyEq⟩ := view slotLookup
    exact placed.home_le beforeLookup (keyEq ▸ held)
  · intro position between slot found slotLookup held after earlier
    obtain ⟨before, beforeLookup, keyEq⟩ := view slotLookup
    obtain ⟨middle, other, middleLookup, holds⟩ :=
      placed.filled beforeLookup (keyEq ▸ held) after earlier
    by_cases same : index = between
    · subst same
      rw [lookup, Option.some.injEq] at middleLookup
      subst middleLookup
      exact ⟨changed, other, by simp [inside], sameKey.trans holds⟩
    · exact ⟨middle, other, by rw [List.getElem?_set_ne same]; exact middleLookup, holds⟩

/-- The slots from `start` on all hold keys. -/
def Full (keyOf : σ → Option κ) (slots : List σ) (start : Nat) : Prop :=
  ∀ (position : Nat) (slot : σ), slots[position]? = some slot → start ≤ position →
    (keyOf slot).isSome

theorem Full.mono {start later : Nat} (full : Full keyOf slots start) (before : start ≤ later) :
    Full keyOf slots later :=
  fun position slot lookup after => full position slot lookup (Nat.le_trans before after)

/-- A full end of the array begins behind a vacant slot, or is the whole array. -/
theorem Full.cluster {start : Nat} (full : Full keyOf slots start) :
    ∃ first ≤ start, Full keyOf slots first ∧
      ∀ {position : Nat} {slot : σ}, position + 1 = first → slots[position]? = some slot →
        keyOf slot = none := by
  induction start with
  | zero => exact ⟨0, Nat.le_refl _, full, fun before => by omega⟩
  | succ start ih =>
      by_cases held : ∀ {slot : σ}, slots[start]? = some slot → (keyOf slot).isSome
      · have longer : Full keyOf slots start := by
          intro position slot lookup after
          rcases Nat.eq_or_lt_of_le after with rfl | later
          · exact held lookup
          · exact full position slot lookup later
        obtain ⟨first, before, cluster, vacant⟩ := ih longer
        exact ⟨first, by omega, cluster, vacant⟩
      · refine ⟨start + 1, Nat.le_refl _, full, ?_⟩
        intro position slot same lookup
        obtain rfl : position = start := by omega
        cases key : keyOf slot with
        | none => rfl
        | some other =>
            refine absurd ?_ held
            intro slot' lookup'
            obtain rfl := Option.some.inj (lookup.symm.trans lookup')
            simp [key]

/-- The entries whose home index is at least `start`. -/
def crowd (keyOf : σ → Option κ) (home : κ → Nat) (slots : List σ) (start : Nat) : Nat :=
  slots.countP fun slot => (keyOf slot).any fun key => start ≤ home key

/-- Entries lie at or behind their home index, so a crowd that needs all slots from
`start` on fills them. -/
theorem Placed.full_of_crowd (placed : Placed keyOf home slots) {start : Nat}
    (crowded : slots.length ≤ start + crowd keyOf home slots start) :
    Full keyOf slots start := by
  have front : (slots.take start).countP (fun slot => (keyOf slot).any fun key =>
      start ≤ home key) = 0 := by
    rw [List.countP_eq_zero]
    intro slot member
    obtain ⟨position, lookup⟩ := List.getElem?_of_mem member
    rw [List.getElem?_take] at lookup
    split at lookup
    next early =>
        cases held : keyOf slot with
        | none => simp
        | some other =>
            have homeLe := placed.home_le lookup held
            simp only [Option.any_some, decide_eq_true_eq]
            omega
    next => simp at lookup
  have split := List.take_append_drop start slots
  have total : crowd keyOf home slots start =
      (slots.drop start).countP fun slot => (keyOf slot).any fun key => start ≤ home key := by
    rw [crowd, ← split, List.countP_append, split, front, Nat.zero_add]
  have all := List.countP_le_length (p := fun slot => (keyOf slot).any fun key =>
    start ≤ home key) (l := slots.drop start)
  have every := List.countP_eq_length.mp
    (show (slots.drop start).countP (fun slot => (keyOf slot).any fun key => start ≤ home key) =
      (slots.drop start).length by rw [List.length_drop] at all ⊢; omega)
  intro position slot lookup after
  have member : slot ∈ slots.drop start := by
    rw [List.mem_iff_getElem?]
    exact ⟨position - start, by rw [List.getElem?_drop, Nat.add_sub_cancel' after, lookup]⟩
  have held := every slot member
  cases key : keyOf slot with
  | none => simp [key] at held
  | some other => rfl

/-- A full end of the array is crowded: the entries of its cluster are all at home
in it. -/
theorem Placed.crowd_of_full (placed : Placed keyOf home slots) {start : Nat}
    (full : Full keyOf slots start) :
    ∃ first ≤ start, slots.length ≤ first + crowd keyOf home slots first := by
  obtain ⟨first, before, cluster, vacant⟩ := full.cluster
  refine ⟨first, before, ?_⟩
  have atHome : ∀ slot ∈ slots.drop first,
      ((keyOf slot).any fun key => decide (first ≤ home key)) = true := by
    intro slot member
    obtain ⟨offset, lookup⟩ := List.getElem?_of_mem member
    rw [List.getElem?_drop] at lookup
    obtain ⟨key, held⟩ := Option.isSome_iff_exists.mp
      (cluster _ slot lookup (Nat.le_add_right _ _))
    rw [held, Option.any_some, decide_eq_true_eq]
    by_contra away
    -- An entry from in front of the cluster would have passed the vacant slot.
    obtain ⟨between, other, lookup', held'⟩ :=
      placed.filled lookup held (show home key ≤ first - 1 by omega) (by omega)
    rw [vacant (by omega) lookup'] at held'
    simp at held'
  have behind : (slots.drop first).countP (fun slot => (keyOf slot).any fun key =>
      decide (first ≤ home key)) = slots.length - first := by
    rw [List.countP_eq_length.mpr atHome, List.length_drop]
  have part : (slots.drop first).countP (fun slot => (keyOf slot).any fun key =>
      decide (first ≤ home key)) ≤ crowd keyOf home slots first :=
    (List.drop_sublist first slots).countP_le
  omega

/-! ## Probe runs -/

variable [DecidableEq κ]

/-- Probe for `key` from `index` on, examining at most `fuel` slots. -/
def probe (keyOf : σ → Option κ) (next : Nat → Nat) (slots : List σ) (key : κ) :
    (fuel index : Nat) → Probe
  | 0, _ => .running
  | fuel + 1, index =>
      match slots[index]? with
      | none => .outside index
      | some slot =>
          match keyOf slot with
          | none => .vacant index
          | some other =>
              if other = key then .occupied index
              else probe keyOf next slots key fuel (next index)

theorem key_of_probe (ended : probe keyOf next slots key fuel index = .occupied stop) :
    ∃ slot, slots[stop]? = some slot ∧ keyOf slot = some key := by
  induction fuel generalizing index with
  | zero => simp [probe] at ended
  | succ fuel ih =>
      simp only [probe] at ended
      split at ended
      next => simp at ended
      next slot lookup =>
          split at ended
          next => simp at ended
          next other held =>
              split at ended
              next same =>
                  obtain rfl := Probe.occupied.inj ended
                  exact ⟨slot, lookup, same ▸ held⟩
              next => exact ih ended

theorem probe_step {slot : σ} {other : κ}
    (lookup : slots[index]? = some slot) (held : keyOf slot = some other)
    (different : other ≠ key) :
    probe keyOf next slots key (fuel + 1) index =
      probe keyOf next slots key fuel (next index) := by
  simp [probe, lookup, held, different]

theorem probe_congr {others : List σ} (sameKeys : slots.map keyOf = others.map keyOf) :
    probe keyOf next slots key fuel index = probe keyOf next others key fuel index := by
  induction fuel generalizing index with
  | zero => rfl
  | succ fuel ih =>
      have same := congrArg (fun keys => keys[index]?) sameKeys
      simp only [List.getElem?_map] at same
      cases lookup : slots[index]? with
      | none =>
          cases other : others[index]? with
          | none => simp only [probe, lookup, other]
          | some slot => simp [lookup, other] at same
      | some slot =>
          cases other : others[index]? with
          | none => simp [lookup, other] at same
          | some slot' =>
              simp only [lookup, other, Option.map_some, Option.some.injEq] at same
              simp only [probe, lookup, other, same, ih]

/-- A run inside the array stops at a vacant slot, or at the key, after passing
only slots with other keys. -/
theorem probe_inside (ascending : Ascending next slots)
    (start : Nat) :
    (∀ stop, probe keyOf next slots key fuel start = .vacant stop →
      start ≤ stop ∧ Passed keyOf slots key start stop ∧
        ∃ slot, slots[stop]? = some slot ∧ keyOf slot = none) ∧
    (∀ stop, probe keyOf next slots key fuel start = .occupied stop →
      start ≤ stop ∧ Passed keyOf slots key start stop ∧
        ∃ slot, slots[stop]? = some slot ∧ keyOf slot = some key) := by
  induction fuel generalizing start with
  | zero => simp [probe]
  | succ fuel ih =>
      cases lookup : slots[start]? with
      | none => simp [probe, lookup]
      | some slot =>
          cases held : keyOf slot with
          | none =>
              constructor
              · intro stop ended
                simp only [probe, lookup, held, Probe.vacant.injEq] at ended
                subst ended
                exact ⟨Nat.le_refl _, .refl keyOf slots key _, slot, lookup, held⟩
              · intro stop ended
                simp [probe, lookup, held] at ended
          | some other =>
              by_cases same : other = key
              · constructor
                · intro stop ended
                  simp [probe, lookup, held, same] at ended
                · intro stop ended
                  simp only [probe, lookup, held, same, if_true,
                    Probe.occupied.injEq] at ended
                  subst ended
                  exact ⟨Nat.le_refl _, .refl keyOf slots key _, slot, lookup, same ▸ held⟩
              · have inside : start < slots.length :=
                  (List.getElem?_eq_some_iff.mp lookup).1
                rw [probe_step lookup held same, ascending start inside]
                obtain ⟨vacant, occupied⟩ := ih (start + 1)
                constructor
                · intro stop ended
                  obtain ⟨after, passed, last⟩ := vacant stop ended
                  exact ⟨by omega, passed.cons lookup held same, last⟩
                · intro stop ended
                  obtain ⟨after, passed, last⟩ := occupied stop ended
                  exact ⟨by omega, passed.cons lookup held same, last⟩

theorem probe_of_passed (ascending : Ascending next slots)
    (enough : stop - index < fuel) (before : index ≤ stop)
    (passed : Passed keyOf slots key index stop) :
    ∃ left, 0 < left ∧ probe keyOf next slots key fuel index =
      probe keyOf next slots key left stop := by
  induction fuel generalizing index with
  | zero => omega
  | succ fuel ih =>
      rcases Nat.eq_or_lt_of_le before with rfl | earlier
      · exact ⟨fuel + 1, by omega, rfl⟩
      · obtain ⟨slot, other, lookup, held, different⟩ := passed index (Nat.le_refl _) earlier
        have inside : index < slots.length := (List.getElem?_eq_some_iff.mp lookup).1
        rw [probe_step lookup held different, ascending index inside]
        exact ih (by omega) earlier fun position after => passed position (by omega)

theorem probe_eq_occupied (ascending : Ascending next slots)
    (enough : stop - index < fuel) (before : index ≤ stop)
    (passed : Passed keyOf slots key index stop) {slot : σ}
    (lookup : slots[stop]? = some slot) (held : keyOf slot = some key) :
    probe keyOf next slots key fuel index = .occupied stop := by
  obtain ⟨left, positive, reached⟩ := probe_of_passed ascending enough before passed
  rw [reached]
  cases left with
  | zero => omega
  | succ left => simp [probe, lookup, held]

/-- A run in which the array is read upwards cannot outlast the slots above its
start: it ends, at the latest, outside the array. -/
theorem probe_ne_running (ascending : Ascending next slots)
    (positive : 0 < fuel) (enough : slots.length < fuel + index) :
    probe keyOf next slots key fuel index ≠ .running := by
  induction fuel generalizing index with
  | zero => omega
  | succ fuel ih =>
      cases lookup : slots[index]? with
      | none => simp [probe, lookup]
      | some slot =>
          have inside : index < slots.length := (List.getElem?_eq_some_iff.mp lookup).1
          cases held : keyOf slot with
          | none => simp [probe, lookup, held]
          | some other =>
              by_cases same : other = key
              · simp [probe, lookup, held, same]
              · rw [probe_step lookup held same, ascending index inside]
                exact ih (by omega) (by omega)

theorem Placed.probe_eq (placed : Placed keyOf home slots)
    (ascending : Ascending next slots) {slot : σ}
    (lookup : slots[stop]? = some slot) (held : keyOf slot = some key)
    (enough : stop - home key < fuel) :
    probe keyOf next slots key fuel (home key) = .occupied stop :=
  probe_eq_occupied ascending enough (placed.home_le lookup held)
    (placed.passed lookup held) lookup held

/-- The indices that a probe run reads, in order. -/
def visited (keyOf : σ → Option κ) (next : Nat → Nat) (slots : List σ) (key : κ) :
    (fuel index : Nat) → List Nat
  | 0, _ => []
  | fuel + 1, index =>
      index ::
        match slots[index]? with
        | none => []
        | some slot =>
            match keyOf slot with
            | none => []
            | some other =>
                if other = key then [] else visited keyOf next slots key fuel (next index)

theorem visited_inside_iff :
    (∀ position ∈ visited keyOf next slots key fuel index, position < slots.length) ↔
      ∀ stop, probe keyOf next slots key fuel index ≠ .outside stop := by
  induction fuel generalizing index with
  | zero => simp [visited, probe]
  | succ fuel ih =>
      cases lookup : slots[index]? with
      | none =>
          have outside : slots.length ≤ index := List.getElem?_eq_none_iff.mp lookup
          simp [visited, probe, outside]
      | some slot =>
          have inside : index < slots.length := (List.getElem?_eq_some_iff.mp lookup).1
          cases held : keyOf slot with
          | none =>
              simp only [visited, probe, lookup, held]
              simp [inside]
          | some other =>
              by_cases same : other = key
              · simp only [visited, probe, lookup, held, if_pos same]
                simp [inside]
              · simp only [visited, probe, lookup, held, if_neg same, List.forall_mem_cons,
                  inside, true_and]
                exact ih

/-- A run ends outside the array only after passing every slot from its start on. -/
theorem passed_of_outside (ascending : Ascending next slots) (before : index ≤ slots.length)
    (ended : probe keyOf next slots key fuel index = .outside stop) :
    Passed keyOf slots key index slots.length := by
  induction fuel generalizing index with
  | zero => simp [probe] at ended
  | succ fuel ih =>
      cases lookup : slots[index]? with
      | none =>
          have outside : slots.length ≤ index := List.getElem?_eq_none_iff.mp lookup
          have same : index = slots.length := by omega
          rw [same]
          exact .refl keyOf slots key _
      | some slot =>
          have inside : index < slots.length := (List.getElem?_eq_some_iff.mp lookup).1
          cases held : keyOf slot with
          | none => simp [probe, lookup, held] at ended
          | some other =>
              by_cases same : other = key
              · simp [probe, lookup, held, same] at ended
              · rw [probe_step lookup held same, ascending index inside] at ended
                exact (ih (by omega) ended).cons lookup held same

/-- A run for a key without an entry leaves the array exactly if no slot is vacant from
its start on. -/
theorem probe_outside_iff (ascending : Ascending next slots) (before : index ≤ slots.length)
    (enough : slots.length - index < fuel)
    (absent : ∀ {position : Nat} {slot : σ}, slots[position]? = some slot →
      keyOf slot ≠ some key) :
    (∃ stop, probe keyOf next slots key fuel index = .outside stop) ↔
      Full keyOf slots index := by
  constructor
  · rintro ⟨stop, ended⟩ position slot lookup after
    have inside := (List.getElem?_eq_some_iff.mp lookup).1
    obtain ⟨slot', other, lookup', held, _⟩ :=
      passed_of_outside ascending before ended position after inside
    obtain rfl := Option.some.inj (lookup.symm.trans lookup')
    simp [held]
  · intro full
    have passed : Passed keyOf slots key index slots.length := by
      intro position after inside
      have lookup := List.getElem?_eq_getElem inside
      obtain ⟨other, held⟩ := Option.isSome_iff_exists.mp (full _ _ lookup after)
      refine ⟨_, other, lookup, held, ?_⟩
      rintro rfl
      exact absent lookup held
    obtain ⟨left, positive, reached⟩ := probe_of_passed ascending enough before passed
    refine ⟨slots.length, ?_⟩
    rw [reached]
    cases left with
    | zero => omega
    | succ left => simp [probe]

/-- **Leaving the array.**  A run from the home index of a key reads inside the array
exactly if the key has an entry, or if no end of the array that contains the home index
is crowded. -/
theorem Placed.visited_inside_iff (placed : Placed keyOf home slots)
    (ascending : Ascending next slots) (before : home key ≤ slots.length)
    (enough : slots.length < fuel) :
    (∀ position ∈ visited keyOf next slots key fuel (home key), position < slots.length) ↔
      (∃ (position : Nat) (slot : σ), slots[position]? = some slot ∧ keyOf slot = some key) ∨
        ∀ first ≤ home key, first + crowd keyOf home slots first < slots.length := by
  rw [Lib.visited_inside_iff]
  by_cases present : ∃ (position : Nat) (slot : σ), slots[position]? = some slot ∧
      keyOf slot = some key
  · obtain ⟨position, slot, lookup, held⟩ := present
    have inside := (List.getElem?_eq_some_iff.mp lookup).1
    refine ⟨fun _ => .inl ⟨position, slot, lookup, held⟩, fun _ stop ended => ?_⟩
    rw [placed.probe_eq ascending lookup held (by omega)] at ended
    simp at ended
  · have absent : ∀ {position : Nat} {slot : σ}, slots[position]? = some slot →
        keyOf slot ≠ some key := fun lookup held => present ⟨_, _, lookup, held⟩
    have leaves := probe_outside_iff ascending before (show slots.length - home key < fuel by
      omega) absent
    rw [or_iff_right present, ← not_exists, leaves]
    constructor
    · intro vacant first early
      by_contra crowded
      exact vacant ((placed.full_of_crowd (Nat.le_of_not_lt crowded)).mono early)
    · intro roomy full
      obtain ⟨first, early, crowded⟩ := placed.crowd_of_full full
      have room := roomy first early
      omega

/-! ## Runs around a cycle -/

/-- The successor rule leads around the array. -/
def Cyclic (next : Nat → Nat) (slots : List σ) : Prop :=
  ∀ index < slots.length, next index = (index + 1) % slots.length

/-- A run that ended in the array. -/
def Probe.Ended (result : Probe) : Prop :=
  (∃ index, result = .vacant index) ∨ ∃ index, result = .occupied index

/-- A run that ended in the array is the same over more slots and with more fuel. -/
theorem probe_append {more : List σ} {extra : Nat}
    (ended : (probe keyOf next slots key fuel index).Ended) :
    probe keyOf next (slots ++ more) key (fuel + extra) index =
      probe keyOf next slots key fuel index := by
  induction fuel generalizing index with
  | zero => simp [probe, Probe.Ended] at ended
  | succ fuel ih =>
      rw [show fuel + 1 + extra = fuel + extra + 1 by omega]
      cases lookup : slots[index]? with
      | none => simp [probe, lookup, Probe.Ended] at ended
      | some slot =>
          have inside : index < slots.length := (List.getElem?_eq_some_iff.mp lookup).1
          have kept : (slots ++ more)[index]? = some slot := by
            rw [List.getElem?_append_left inside, lookup]
          cases held : keyOf slot with
          | none => simp [probe, lookup, kept, held]
          | some other =>
              by_cases same : other = key
              · simp [probe, lookup, kept, held, same]
              · rw [probe_step lookup held same] at ended ⊢
                rw [probe_step kept held same]
                exact ih ended

theorem Cyclic.run_stops (cyclic : Cyclic next slots) {offset : Nat} {slot : σ}
    (inside : index < slots.length)
    (lookup : slots[(index + offset) % slots.length]? = some slot)
    (vacant : keyOf slot = none) :
    (visited keyOf next slots key fuel index).length ≤ offset + 1 ∧
      (offset < fuel → (probe keyOf next slots key fuel index).Ended) := by
  induction offset generalizing fuel index with
  | zero =>
      rw [Nat.add_zero, Nat.mod_eq_of_lt inside] at lookup
      cases fuel with
      | zero => simp [visited]
      | succ fuel => simp [visited, probe, lookup, vacant, Probe.Ended]
  | succ offset ih =>
      cases fuel with
      | zero => simp [visited]
      | succ fuel =>
          have first := List.getElem?_eq_getElem inside
          cases held : keyOf slots[index] with
          | none => simp [visited, probe, first, held, Probe.Ended]
          | some other =>
              by_cases same : other = key
              · simp [visited, probe, first, held, same, Probe.Ended]
              · have onward : (index + (offset + 1)) % slots.length =
                    ((index + 1) % slots.length + offset) % slots.length := by
                  rw [Nat.mod_add_mod]
                  congr 1
                  omega
                rw [onward] at lookup
                have rest := @ih fuel _ (Nat.mod_lt _ (by omega)) lookup
                rw [probe_step first held same, cyclic index inside]
                simp only [visited, first, held, if_neg same, cyclic index inside,
                  List.length_cons]
                exact ⟨by omega, fun enough => rest.2 (by omega)⟩

/-- A run around an array with a vacant slot examines at most all of its slots. -/
theorem Cyclic.run_ends (cyclic : Cyclic next slots) {position : Nat} {slot : σ}
    (inside : index < slots.length) (lookup : slots[position]? = some slot)
    (vacant : keyOf slot = none) :
    (visited keyOf next slots key fuel index).length ≤ slots.length ∧
      (slots.length ≤ fuel → (probe keyOf next slots key fuel index).Ended) := by
  have present : position < slots.length := (List.getElem?_eq_some_iff.mp lookup).1
  -- The vacant slot lies `offset` steps ahead, around the end of the array if need be.
  obtain ⟨offset, short, ahead⟩ : ∃ offset < slots.length,
      (index + offset) % slots.length = position := by
    rcases Nat.lt_or_ge position index with behind | ahead
    · refine ⟨position + slots.length - index, by omega, ?_⟩
      rw [show index + (position + slots.length - index) = position + slots.length by omega,
        Nat.add_mod_right, Nat.mod_eq_of_lt present]
    · refine ⟨position - index, by omega, ?_⟩
      rw [show index + (position - index) = position by omega, Nat.mod_eq_of_lt present]
  rw [← ahead] at lookup
  obtain ⟨few, ends⟩ := @Cyclic.run_stops _ _ _ _ _ key fuel _ _ cyclic _ _ inside lookup vacant
  exact ⟨by omega, fun enough => ends (by omega)⟩

end Probing

end Grintorrent.Lib
