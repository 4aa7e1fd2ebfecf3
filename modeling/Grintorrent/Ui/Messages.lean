import Grintorrent.Lib.Bytes
import Grintorrent.Lib.Chains
import Grintorrent.Lib.Runs

/-!
# The message list of the user interface (`ui.c`)

Any thread may queue a message with `insert_m`; the thread of `ui_run` takes them out with
`remove_m`, shows them and frees the nodes.  A node is allocated before the lock is taken,
so at any time any number of nodes wait to be linked in.  What stands under the lock is one
step.
-/

namespace Grintorrent

open Lib Relation

/-- The address of a node that is not `NULL`. -/
abbrev Address := Nat

/-- `struct ui_message`. -/
structure UiMessage where
  name : Bytes
  message : Bytes
  next : Option Address
  deriving DecidableEq

/-- What `ui_run` shows of a message. -/
def UiMessage.text (node : UiMessage) : Bytes × Bytes := (node.name, node.message)

/-- The nodes allocated, and the variables `head` and `tail`. -/
structure MessageList where
  heap : Address → Option UiMessage
  head : Option Address
  tail : Option Address

namespace MessageList

/-- The text of the node at an address. -/
def textAt (list : MessageList) (address : Address) : Option (Bytes × Bytes) :=
  (list.heap address).map UiMessage.text

/-- Write the node at an address, or free it. -/
def write (list : MessageList) (address : Address) (content : Option UiMessage) :
    MessageList :=
  { list with heap := Function.update list.heap address content }

/-- What `insert_m` does under the lock, unless it follows a pointer to no node. -/
def insertM (list : MessageList) (newNode : Address) : Option MessageList :=
  match list.tail with
  | none => some { list with head := some newNode, tail := some newNode }
  | some tail => do
      let node ← list.heap tail
      some
        { list.write tail (some { node with next := some newNode }) with
          tail := some newNode }

/-- `remove_m`, unless it follows a pointer to no node. -/
def removeM (list : MessageList) : Option (MessageList × Option Address) :=
  match list.head with
  | none => some (list, none)
  | some top => do
      let node ← list.heap top
      some
        ({ list with
            head := node.next
            tail := if node.next = none then none else list.tail },
          some top)

variable {list : MessageList} {address newNode : Address} {content : Option UiMessage}

@[simp] theorem write_self (list : MessageList) (address : Address)
    (content : Option UiMessage) : (list.write address content).heap address = content :=
  Function.update_self ..

theorem write_of_ne (other : address ≠ newNode) :
    (list.write newNode content).heap address = list.heap address :=
  Function.update_of_ne other ..

theorem textAt_write {nodes : List Address} (absent : newNode ∉ nodes) :
    nodes.filterMap (list.write newNode content).textAt = nodes.filterMap list.textAt := by
  apply List.filterMap_congr
  intro address member
  simp only [textAt, write_of_ne (ne_of_mem_of_not_mem member absent)]

theorem textAt_link {node : UiMessage} (present : list.heap address = some node)
    (next : Option Address) :
    (list.write address (some { node with next })).textAt = list.textAt := by
  funext other
  by_cases same : other = address
  · subst same
    simp only [textAt, write_self, present]
    rfl
  · simp only [textAt, write_of_ne same]

end MessageList

/-- The list with all threads that use it: the nodes of `insert_m` calls that have not
had the lock yet, the nodes that `remove_m` returned and nobody has freed, and the messages
linked in and returned so far. -/
structure MessageUi where
  list : MessageList
  pending : List Address
  taken : List Address
  inserted : List (Bytes × Bytes)
  returned : List (Bytes × Bytes)

namespace MessageUi

/-- The user interface when it starts. -/
def init : MessageUi where
  list := { heap := fun _ => none, head := none, tail := none }
  pending := []
  taken := []
  inserted := []
  returned := []

/-- One step of some thread. -/
inductive Step : MessageUi → MessageUi → Prop where
  /-- `insert_m` before it takes the lock: any free address is allocated. -/
  | alloc {ui : MessageUi} {newNode : Address} (name message : Bytes) :
      ui.list.heap newNode = none →
      Step ui
        { ui with
          list := ui.list.write newNode (some { name, message, next := none })
          pending := newNode :: ui.pending }
  /-- `insert_m` under the lock. -/
  | insert {ui : MessageUi} {newNode : Address} {node : UiMessage} {list : MessageList} :
      newNode ∈ ui.pending → ui.list.heap newNode = some node →
      ui.list.insertM newNode = some list →
      Step ui
        { ui with
          list
          pending := ui.pending.erase newNode
          inserted := ui.inserted ++ [node.text] }
  /-- `remove_m` on an empty list. -/
  | removeNone {ui : MessageUi} {list : MessageList} :
      ui.list.removeM = some (list, none) → Step ui { ui with list }
  /-- `remove_m` returns a node. -/
  | remove {ui : MessageUi} {top : Address} {node : UiMessage} {list : MessageList} :
      ui.list.removeM = some (list, some top) → ui.list.heap top = some node →
      Step ui
        { ui with
          list
          taken := top :: ui.taken
          returned := ui.returned ++ [node.text] }
  /-- `ui_run` frees a node that it has shown. -/
  | free {ui : MessageUi} {top : Address} :
      top ∈ ui.taken →
      Step ui
        { ui with
          list := ui.list.write top none
          taken := ui.taken.erase top }

/-- The queue is what `head` reaches, up to `tail`; every node has one owner; what has been
linked in and not returned is in the queue. -/
structure Queued (ui : MessageUi) (nodes : List Address) : Prop where
  chain : Chain UiMessage.next ui.list.heap ui.list.head nodes
  tail : ui.list.tail = nodes.getLast?
  owned : (nodes ++ (ui.pending ++ ui.taken)).Nodup
  allocated : ∀ address ∈ nodes ++ (ui.pending ++ ui.taken),
    ∃ node, ui.list.heap address = some node
  ends : ∀ address ∈ ui.pending, ∀ node, ui.list.heap address = some node → node.next = none
  order : ui.inserted = ui.returned ++ nodes.filterMap ui.list.textAt

theorem Queued.init : Queued .init [] where
  chain := .nil
  tail := rfl
  owned := List.nodup_nil
  allocated := by simp [MessageUi.init]
  ends := by simp [MessageUi.init]
  order := rfl

namespace Queued

variable {ui : MessageUi} {nodes : List Address} {newNode top : Address} {node : UiMessage}
variable {list : MessageList}

theorem alloc (queued : Queued ui nodes) (name message : Bytes)
    (isFree : ui.list.heap newNode = none) :
    Queued
      { ui with
        list := ui.list.write newNode (some { name, message, next := none })
        pending := newNode :: ui.pending } nodes := by
  have fresh : newNode ∉ nodes ++ (ui.pending ++ ui.taken) := by
    intro member
    obtain ⟨node, present⟩ := queued.allocated newNode member
    simp [isFree] at present
  have absent : newNode ∉ nodes := fun member => fresh (List.mem_append_left _ member)
  have moved : (nodes ++ (newNode :: ui.pending ++ ui.taken)).Perm
      (newNode :: (nodes ++ (ui.pending ++ ui.taken))) := List.perm_middle
  refine ⟨queued.chain.update absent _, queued.tail, ?_, ?_, ?_, ?_⟩
  · exact moved.nodup_iff.mpr (List.nodup_cons.mpr ⟨fresh, queued.owned⟩)
  · intro address member
    rcases List.mem_cons.mp (moved.mem_iff.mp member) with rfl | old
    · exact ⟨_, MessageList.write_self ..⟩
    · obtain ⟨node, present⟩ := queued.allocated address old
      have other : address ≠ newNode := ne_of_mem_of_not_mem old fresh
      exact ⟨node, (MessageList.write_of_ne other).trans present⟩
  · intro address member node present
    by_cases same : address = newNode
    · subst same
      simp only [MessageList.write_self, Option.some.injEq] at present
      rw [← present]
    · simp only [MessageList.write_of_ne same] at present
      exact queued.ends address (List.mem_of_ne_of_mem same member) node present
  · rw [MessageList.textAt_write absent]
    exact queued.order

/-- Of the nodes in the queue and those that wait or were returned, none is both. -/
theorem apart (queued : Queued ui nodes) {address : Address}
    (member : address ∈ ui.pending ++ ui.taken) : address ∉ nodes :=
  fun other => List.disjoint_of_nodup_append queued.owned other member

/-- What `insert_m` does to the queue: it follows no pointer to a node that is not there,
and changes no node but the last. -/
theorem linked (queued : Queued ui nodes) (waits : newNode ∈ ui.pending)
    (present : ui.list.heap newNode = some node) :
    ∃ list, ui.list.insertM newNode = some list ∧
      Chain UiMessage.next list.heap list.head (nodes ++ [newNode]) ∧
      list.tail = some newNode ∧ list.textAt = ui.list.textAt ∧
      (∀ address ∉ nodes, list.heap address = ui.list.heap address) ∧
      ∀ address node, ui.list.heap address = some node →
        ∃ node, list.heap address = some node := by
  have absent := queued.apart (List.mem_append_left _ waits)
  have ends := queued.ends newNode waits node present
  have chain := queued.chain
  have tail := queued.tail
  rcases List.eq_nil_or_concat' nodes with rfl | ⟨front, last, rfl⟩
  · have inserts : ui.list.insertM newNode =
        some { ui.list with head := some newNode, tail := some newNode } := by
      unfold MessageList.insertM
      rw [tail]
      rfl
    refine ⟨_, inserts, .cons present ?_, rfl, rfl, fun _ _ => rfl,
      fun _ node present => ⟨node, present⟩⟩
    rw [ends]
    exact .nil
  · rw [List.getLast?_concat] at tail
    obtain ⟨lastNode, isLast⟩ := chain.allocated (List.mem_append_right front List.mem_cons_self)
    have inserts : ui.list.insertM newNode =
        some
          { ui.list.write last (some { lastNode with next := some newNode }) with
            tail := some newNode } := by
      unfold MessageList.insertM
      rw [tail]
      simp [isLast]
    refine ⟨_, inserts, ?_, rfl, MessageList.textAt_link isLast _, ?_, ?_⟩
    · rw [List.append_assoc]
      exact chain.snoc absent present ends rfl
    · intro address outside
      exact MessageList.write_of_ne fun same => outside (by simp [same])
    · intro address node present
      by_cases same : address = last
      · subst same
        exact ⟨_, MessageList.write_self ..⟩
      · exact ⟨node, (MessageList.write_of_ne same).trans present⟩

theorem insert (queued : Queued ui nodes) (waits : newNode ∈ ui.pending)
    (present : ui.list.heap newNode = some node)
    (inserts : ui.list.insertM newNode = some list) :
    Queued
      { ui with
        list
        pending := ui.pending.erase newNode
        inserted := ui.inserted ++ [node.text] } (nodes ++ [newNode]) := by
  obtain ⟨_, inserts', chain, tail, texts, kept, allocated⟩ := queued.linked waits present
  obtain rfl := Option.some.inj (inserts'.symm.trans inserts)
  have moved : (nodes ++ [newNode] ++ (ui.pending.erase newNode ++ ui.taken)).Perm
      (nodes ++ (ui.pending ++ ui.taken)) := by
    rw [List.append_assoc]
    exact ((List.perm_cons_erase waits).symm.append_right ui.taken).append_left nodes
  refine ⟨chain, ?_, moved.nodup_iff.mpr queued.owned, ?_, ?_, ?_⟩
  · simpa using tail
  · intro address member
    obtain ⟨node, present⟩ := queued.allocated address (moved.mem_iff.mp member)
    exact allocated address node present
  · intro address member node present
    have waits := List.mem_of_mem_erase member
    have same := kept address (queued.apart (List.mem_append_left _ waits))
    exact queued.ends address waits node (same.symm.trans present)
  · have text : ui.list.textAt newNode = some node.text := by
      simp [MessageList.textAt, present]
    simp only [texts, List.filterMap_append, List.filterMap_cons, text, List.filterMap_nil,
      queued.order, List.append_assoc]

/-- `remove_m` follows no pointer to a node that is not there, and takes the first node of
the queue. -/
theorem removes (queued : Queued ui nodes) :
    (nodes = [] ∧ ui.list.removeM = some (ui.list, none)) ∨
      ∃ top node rest, nodes = top :: rest ∧ ui.list.heap top = some node ∧
        ui.list.removeM =
          some
            ({ ui.list with
                head := node.next
                tail := if node.next = none then none else ui.list.tail },
              some top) ∧
        Chain UiMessage.next ui.list.heap node.next rest := by
  have chain := queued.chain
  unfold MessageList.removeM
  cases isHead : ui.list.head with
  | none =>
      rw [isHead] at chain
      cases chain
      exact .inl ⟨rfl, rfl⟩
  | some top =>
      rw [isHead] at chain
      cases chain with
      | cons present rest =>
          refine .inr ⟨top, _, _, rfl, present, ?_, rest⟩
          simp [present]

theorem remove (queued : Queued ui nodes) (removed : ui.list.removeM = some (list, some top))
    (present : ui.list.heap top = some node) :
    ∃ rest, nodes = top :: rest ∧
      Queued
        { ui with
          list
          taken := top :: ui.taken
          returned := ui.returned ++ [node.text] } rest := by
  rcases queued.removes with ⟨_, nothing⟩ | ⟨first, node', rest, rfl, isFirst, takes, chain⟩
  · rw [nothing] at removed
    cases removed
  · rw [takes] at removed
    cases removed
    obtain rfl := Option.some.inj (isFirst.symm.trans present)
    have moved : (rest ++ (ui.pending ++ top :: ui.taken)).Perm
        (top :: rest ++ (ui.pending ++ ui.taken)) := by
      rw [← List.append_assoc, ← List.append_assoc]
      exact List.perm_middle
    refine ⟨rest, rfl, chain, ?_, moved.nodup_iff.mpr queued.owned, ?_, queued.ends, ?_⟩
    · have tail := queued.tail
      have head := chain.head
      cases rest with
      | nil =>
          rw [List.head?_nil] at head
          simp [head]
      | cons second rest => simpa [head] using tail
    · exact fun address member => queued.allocated address (moved.mem_iff.mp member)
    · have text : ui.list.textAt top = some node'.text := by
        simp [MessageList.textAt, present]
      have order := queued.order
      rw [List.filterMap_cons, text] at order
      show ui.inserted = ui.returned ++ [node'.text] ++ rest.filterMap ui.list.textAt
      rw [order, List.append_assoc]
      rfl

theorem free (queued : Queued ui nodes) (held : top ∈ ui.taken) :
    Queued { ui with list := ui.list.write top none, taken := ui.taken.erase top } nodes := by
  have absent := queued.apart (List.mem_append_right ui.pending held)
  have owners := queued.owned
  rw [List.nodup_append'] at owners
  obtain ⟨_, others, _⟩ := owners
  have fewer : (nodes ++ (ui.pending ++ ui.taken.erase top)).Sublist
      (nodes ++ (ui.pending ++ ui.taken)) :=
    (List.erase_sublist.append_left ui.pending).append_left nodes
  have gone : top ∉ nodes ++ (ui.pending ++ ui.taken.erase top) := by
    have one := (List.nodup_append'.mp others).2.1
    have elsewhere : top ∉ ui.pending :=
      fun member => List.disjoint_of_nodup_append others member held
    simp only [List.mem_append, absent, elsewhere, one.mem_erase_iff, ne_eq, not_true_eq_false,
      false_and, or_self, not_false_eq_true]
  refine ⟨queued.chain.update absent _, queued.tail, fewer.nodup queued.owned, ?_, ?_, ?_⟩
  · intro address member
    obtain ⟨node, present⟩ := queued.allocated address (fewer.subset member)
    have other := ne_of_mem_of_not_mem member gone
    exact ⟨node, (MessageList.write_of_ne other).trans present⟩
  · intro address member node present
    have other : address ≠ top :=
      ne_of_mem_of_not_mem (List.mem_append_right nodes (List.mem_append_left _ member)) gone
    exact queued.ends address member node ((MessageList.write_of_ne other).symm.trans present)
  · rw [MessageList.textAt_write absent]
    exact queued.order

theorem step {after : MessageUi} (queued : Queued ui nodes) (steps : Step ui after) :
    ∃ nodes, Queued after nodes := by
  cases steps with
  | alloc name message isFree => exact ⟨_, queued.alloc name message isFree⟩
  | insert waits present inserts => exact ⟨_, queued.insert waits present inserts⟩
  | removeNone removed =>
      rcases queued.removes with ⟨_, nothing⟩ | ⟨_, _, _, _, _, takes, _⟩
      · rw [nothing] at removed
        cases removed
        exact ⟨_, queued⟩
      · rw [takes] at removed
        cases removed
  | remove removed present =>
      obtain ⟨rest, _, after⟩ := queued.remove removed present
      exact ⟨rest, after⟩
  | free held => exact ⟨_, queued.free held⟩

end Queued

/-- After any run the queue is what `head` reaches. -/
theorem queued_run {ui : MessageUi} (run : ReflTransGen Step init ui) :
    ∃ nodes, Queued ui nodes :=
  @invariant_run _ _ _ _ (fun ui => ∃ nodes, Queued ui nodes)
    (fun _ _ ⟨_, queued⟩ steps => queued.step steps) run ⟨[], Queued.init⟩

/-- **The message list is a queue.**  After any interleaving of `insert_m` and `remove_m`
calls of any number of threads, `head` is `NULL` exactly when `tail` is, the links lead
from `head` without a cycle to `tail`, the messages returned are the first of those
inserted and the list holds the others in their order, and the next call follows no pointer
to a node that is not there. -/
theorem messages_fifo {ui : MessageUi} (run : ReflTransGen Step init ui) :
    (ui.list.head = none ↔ ui.list.tail = none) ∧
      (∃ nodes, Chain UiMessage.next ui.list.heap ui.list.head nodes ∧ nodes.Nodup ∧
        ui.list.tail = nodes.getLast? ∧
        ui.inserted = ui.returned ++ nodes.filterMap ui.list.textAt ∧
        (nodes.filterMap ui.list.textAt).length = nodes.length) ∧
      ui.returned <+: ui.inserted ∧
      (∀ newNode ∈ ui.pending, ∃ list, ui.list.insertM newNode = some list) ∧
      ∃ list top, ui.list.removeM = some (list, top) := by
  obtain ⟨nodes, queued⟩ := queued_run run
  refine ⟨?_, ⟨nodes, queued.chain, queued.chain.nodup, queued.tail, queued.order, ?_⟩,
    ⟨_, queued.order.symm⟩, ?_, ?_⟩
  · rw [queued.chain.head, queued.tail]
    simp
  · have texts : ∀ address ∈ nodes, (ui.list.textAt address).isSome := by
      intro address member
      obtain ⟨node, present⟩ := queued.chain.allocated member
      simp [MessageList.textAt, present]
    exact List.filterMap_length_eq_length.mpr texts
  · intro newNode waits
    obtain ⟨node, present⟩ :=
      queued.allocated newNode (List.mem_append_right nodes (List.mem_append_left _ waits))
    obtain ⟨list, inserts, _⟩ := queued.linked waits present
    exact ⟨list, inserts⟩
  · rcases queued.removes with ⟨_, nothing⟩ | ⟨top, node, _, _, _, takes, _⟩
    · exact ⟨_, _, nothing⟩
    · exact ⟨_, _, takes⟩

/-- Two threads allocate their nodes, the second gets the lock first, and its message is
taken out. -/
theorem messages_fifo_pair :
    ∃ ui, ReflTransGen Step init ui ∧ ui.inserted = [([98], []), ([97], [])] ∧
      ui.returned = [([98], [])] ∧ ui.list.head = some 1 ∧
      (ui.list.head = none ↔ ui.list.tail = none) := by
  have allocated := (ReflTransGen.single (@Step.alloc init 1 [97] [] rfl)).tail
    (@Step.alloc _ 2 [98] [] rfl)
  have inserted := (allocated.tail (@Step.insert _ 2 _ _ List.mem_cons_self rfl rfl)).tail
    (@Step.insert _ 1 _ _ List.mem_cons_self rfl rfl)
  have run := inserted.tail (@Step.remove _ 2 _ _ rfl rfl)
  exact ⟨_, run, rfl, rfl, rfl, (messages_fifo run).1⟩

end MessageUi

end Grintorrent
