import Grintorrent.Client.Links
import Mathlib.Data.Finset.Card

/-!
# Sockets and descriptors (`socket.h`)

Each function of `socket.h` opens one socket or returns `-1` with the descriptors as they
were.  What the client makes of them is another matter: of all the sockets that it opens it
closes only the one that `download_file` listens on.  A connection that has failed stays
open, and so does each connection on which a chunk was sent.
-/

namespace Grintorrent

open Relation

/-- The open descriptors of a process, which are numbers below `limit`. -/
structure FdTable where
  opened : List Fd
  limit : Nat

namespace FdTable

/-- The lowest number that is not in use. -/
def lowest (table : FdTable) : Fd :=
  (((List.range (table.opened.length + 1)).map Int.ofNat).find?
    fun fd => fd ∉ table.opened).getD (-1)

/-- A system call that opens a descriptor, if the system `grants` it. -/
def allocate (table : FdTable) (grants : Bool) : Fd × FdTable :=
  if grants ∧ table.lowest < table.limit then
    (table.lowest, { table with opened := table.lowest :: table.opened })
  else (-1, table)

/-- `close`. -/
def close (table : FdTable) (fd : Fd) : FdTable :=
  { table with opened := table.opened.erase fd }

variable {table after : FdTable} {grants : Bool} {fd : Fd}

theorem lowest_spec (table : FdTable) : 0 ≤ table.lowest ∧ table.lowest ∉ table.opened := by
  have found : ∃ fd ∈ (List.range (table.opened.length + 1)).map Int.ofNat,
      fd ∉ table.opened := by
    by_contra every
    have subset : ((List.range (table.opened.length + 1)).map Int.ofNat).toFinset ⊆
        table.opened.toFinset := by
      intro fd member
      rw [List.mem_toFinset] at member ⊢
      by_contra absent
      exact every ⟨fd, member, absent⟩
    have cards := Finset.card_le_card subset
    rw [List.toFinset_card_of_nodup (List.nodup_range.map Int.ofNat_injective), List.length_map,
      List.length_range] at cards
    have few := List.toFinset_card_le table.opened
    omega
  have isSome : (((List.range (table.opened.length + 1)).map Int.ofNat).find?
      fun fd => fd ∉ table.opened).isSome := by
    obtain ⟨fd, member, absent⟩ := found
    exact List.find?_isSome.mpr ⟨fd, member, by simpa using absent⟩
  obtain ⟨fd, isFirst⟩ := Option.isSome_iff_exists.mp isSome
  have isLowest : table.lowest = fd := by rw [lowest, isFirst, Option.getD_some]
  obtain ⟨number, _, rfl⟩ := List.mem_map.mp (List.mem_of_find?_eq_some isFirst)
  rw [isLowest]
  exact ⟨Int.natCast_nonneg number, by simpa using List.find?_some isFirst⟩

/-- What a call that opens a descriptor does: nothing, or it opens one that was not open. -/
def Opens (table : FdTable) (fd : Fd) (after : FdTable) : Prop :=
  (fd = -1 ∧ after = table) ∨
    0 ≤ fd ∧ fd ∉ table.opened ∧ fd < table.limit ∧
      after = { table with opened := fd :: table.opened }

theorem opens_allocate (table : FdTable) (grants : Bool) :
    table.Opens (table.allocate grants).1 (table.allocate grants).2 := by
  obtain ⟨nonneg, fresh⟩ := table.lowest_spec
  unfold allocate
  split
  next granted => exact .inr ⟨nonneg, fresh, granted.2, rfl⟩
  next => exact .inl ⟨rfl, rfl⟩

end FdTable

/-- The calls that are made on a new socket: when one of them fails it is closed. -/
def openSocket (table : FdTable) (grants : Bool) (succeeds : List Bool) : Fd × FdTable :=
  let (fd, opened) := table.allocate grants
  if fd = -1 then (-1, table)
  else if succeeds.all id then (fd, opened)
  else (-1, opened.close fd)

/-- `socket_connect`.  `resolves` is the outcome of `gethostbyname`. -/
def socketConnect (table : FdTable) (resolves grants connects : Bool) : Fd × FdTable :=
  if resolves then openSocket table grants [connects] else (-1, table)

/-- `socket_connect_addr`. -/
def socketConnectAddr (table : FdTable) (grants connects : Bool) : Fd × FdTable :=
  openSocket table grants [connects]

/-- `server_socket_open`, with the outcomes of `bind` and `getsockname`. -/
def serverSocketOpen (table : FdTable) (grants binds names : Bool) : Fd × FdTable :=
  openSocket table grants [binds, names]

/-- `server_socket_accept`. -/
def serverSocketAccept (table : FdTable) (accepts : Bool) : Fd × FdTable :=
  table.allocate accepts

section SocketH

variable {table : FdTable}

/-- `socket.h` does not leak. -/
theorem opens_openSocket (table : FdTable) (grants : Bool) (succeeds : List Bool) :
    table.Opens (openSocket table grants succeeds).1 (openSocket table grants succeeds).2 := by
  have opens := table.opens_allocate grants
  unfold openSocket
  generalize table.allocate grants = result at opens
  obtain ⟨fd, opened⟩ := result
  dsimp only at opens ⊢
  split
  next => exact .inl ⟨rfl, rfl⟩
  next opensOne =>
    rcases opens with ⟨failed, _⟩ | ⟨nonneg, fresh, below, rfl⟩
    · exact absurd failed opensOne
    · split
      next => exact .inr ⟨nonneg, fresh, below, rfl⟩
      next =>
        refine .inl ⟨rfl, ?_⟩
        rw [FdTable.close, List.erase_cons_head]

theorem opens_socketConnect (table : FdTable) (resolves grants connects : Bool) :
    table.Opens (socketConnect table resolves grants connects).1
      (socketConnect table resolves grants connects).2 := by
  unfold socketConnect
  split
  · exact opens_openSocket table grants [connects]
  · exact .inl ⟨rfl, rfl⟩

end SocketH

/-! ## The sockets of a client -/

/-- The descriptors of a client, by what they were opened for.  `acceptors` is what its
`connectWorker`s were started with, which never end. -/
structure Sockets where
  table : FdTable
  server : Fd
  downloads : List Fd
  acceptors : List Fd
  links : Links
  answered : List Fd
  files : List Fd

/-- What can happen next.  The Booleans are the outcomes of the system calls. -/
inductive SocketEvent where
  /-- `download_file` opens its port and starts a `connectWorker` for it. -/
  | downloads (grants binds names : Bool)
  /-- `download_file` closes its socket and returns. -/
  | returns (fd : Fd)
  /-- A `connectWorker` calls `accept`. -/
  | accepts (listener : Fd) (accepts : Bool) (behind : Fd)
  /-- A `readWorker` connects to the return address of a request. -/
  | answers (grants connects : Bool)
  /-- A `readWorker` fails to read and ends. -/
  | ends (reader : ClientServer)
  /-- A file is opened, for as long as it takes or for good. -/
  | opensFile (grants : Bool)
  | closesFile (fd : Fd)

namespace Sockets

/-- A socket that connections arrive at. -/
def Listening (now : Sockets) (fd : Fd) : Prop := fd = now.server ∨ fd ∈ now.downloads

instance (now : Sockets) (fd : Fd) : Decidable (now.Listening fd) :=
  inferInstanceAs (Decidable (_ ∨ _))

/-- The event can happen. -/
def Possible (now : Sockets) : SocketEvent → Prop
  | .downloads _ _ _ => True
  | .returns fd => fd ∈ now.downloads
  | .accepts listener _ _ => listener ∈ now.acceptors
  | .answers _ _ => True
  | .ends reader => reader ∈ now.links.readers
  | .opensFile _ => True
  | .closesFile fd => fd ∈ now.files

/-- The loop of `connectWorker`.  `accept` fails on a descriptor that is not, or not any
more, that of a listening socket. -/
def connects (now : Sockets) (listener : Fd) (accepts : Bool) (behind : Fd) : Sockets :=
  let (fd, table) := serverSocketAccept now.table (accepts && decide (now.Listening listener))
  if fd = -1 then { now with links := now.links.next .refused }
  else { now with table, links := now.links.next (.opened fd behind) }

/-- The client after the event. -/
def next (now : Sockets) : SocketEvent → Sockets
  | .downloads grants binds names =>
      let (fd, table) := serverSocketOpen now.table grants binds names
      if fd = -1 then now
      else { now with
        table
        downloads := fd :: now.downloads
        acceptors := fd :: now.acceptors }
  | .returns fd =>
      { now with table := now.table.close fd, downloads := now.downloads.erase fd }
  | .accepts listener accepts behind => now.connects listener accepts behind
  | .answers grants connects =>
      let (fd, table) := socketConnectAddr now.table grants connects
      if fd = -1 then now else { now with table, answered := fd :: now.answered }
  | .ends reader => { now with links := now.links.next (.ended reader) }
  | .opensFile grants =>
      let (fd, table) := now.table.allocate grants
      if fd = -1 then now else { now with table, files := fd :: now.files }
  | .closesFile fd => { now with table := now.table.close fd, files := now.files.erase fd }

def Step (now after : Sockets) : Prop :=
  ∃ event, now.Possible event ∧ after = now.next event

/-- The descriptors of a process that starts. -/
def boot (limit : Nat) : FdTable where
  opened := [0, 1, 2]
  limit

/-- The client when `main` has opened its server socket. -/
def listens (server : Fd) (table : FdTable) : Sockets where
  table
  server
  downloads := []
  acceptors := [server]
  links := .init
  answered := []
  files := []

/-- The start of `main`: the server socket is opened, and a peer given on the command line is
connected to.  When either fails the client exits. -/
inductive Started (limit : Nat) : Sockets → Prop where
  | alone {grants binds names : Bool} {server : Fd} {table : FdTable} :
      serverSocketOpen (boot limit) grants binds names = (server, table) → server ≠ -1 →
      Started limit (listens server table)
  | joins {grants binds names resolves granted connects : Bool} {server fd behind : Fd}
      {table joined : FdTable} :
      serverSocketOpen (boot limit) grants binds names = (server, table) → server ≠ -1 →
      socketConnect table resolves granted connects = (fd, joined) → fd ≠ -1 →
      Started limit { listens server joined with links := Links.init.next (.opened fd behind) }

end Sockets

/-- The open descriptors are these, each of them once. -/
structure Accounts (limit : Nat) (table : FdTable) (owned : List Fd) : Prop where
  limit_eq : table.limit = limit
  perm : table.opened.Perm owned
  nodup : table.opened.Nodup
  within : ∀ fd ∈ table.opened, 0 ≤ fd ∧ fd < limit

namespace Accounts

variable {limit : Nat} {table after : FdTable} {owned other : List Fd} {fd : Fd}

theorem congr (accounts : Accounts limit table owned) (same : owned.Perm other) :
    Accounts limit table other where
  limit_eq := accounts.limit_eq
  perm := accounts.perm.trans same
  nodup := accounts.nodup
  within := accounts.within

theorem opens (accounts : Accounts limit table owned) (opened : table.Opens fd after)
    (succeeded : fd ≠ -1) : Accounts limit after (fd :: owned) ∧ 0 ≤ fd ∧ fd ∉ owned := by
  rcases opened with ⟨failed, _⟩ | ⟨nonneg, fresh, below, rfl⟩
  · exact absurd failed succeeded
  · refine ⟨⟨accounts.limit_eq, accounts.perm.cons fd, ?_, ?_⟩, nonneg, ?_⟩
    · exact List.nodup_cons.mpr ⟨fresh, accounts.nodup⟩
    · intro other member
      rcases List.mem_cons.mp member with rfl | old
      · rw [accounts.limit_eq] at below
        exact ⟨nonneg, below⟩
      · exact accounts.within other old
    · rwa [← accounts.perm.mem_iff]

theorem close (accounts : Accounts limit table (fd :: owned)) :
    Accounts limit (table.close fd) owned where
  limit_eq := accounts.limit_eq
  perm := by
    have erased := accounts.perm.erase fd
    rwa [List.erase_cons_head] at erased
  nodup := accounts.nodup.erase fd
  within := fun other member => accounts.within other (List.mem_of_mem_erase member)

theorem nodup_owned (accounts : Accounts limit table owned) : owned.Nodup :=
  accounts.perm.nodup_iff.mp accounts.nodup

theorem length_le (accounts : Accounts limit table owned) : owned.length ≤ limit := by
  have subset : owned.toFinset ⊆ ((List.range limit).map Int.ofNat).toFinset := by
    intro fd member
    rw [List.mem_toFinset, ← accounts.perm.mem_iff] at member
    obtain ⟨nonneg, below⟩ := accounts.within fd member
    rw [List.mem_toFinset, List.mem_map]
    exact ⟨fd.toNat, List.mem_range.mpr ((Int.toNat_lt nonneg).mpr below),
      Int.toNat_of_nonneg nonneg⟩
  have cards := Finset.card_le_card subset
  rw [List.toFinset_card_of_nodup accounts.nodup_owned,
    List.toFinset_card_of_nodup (List.nodup_range.map Int.ofNat_injective), List.length_map,
    List.length_range] at cards
  exact cards

theorem boot (enough : 3 ≤ limit) : Accounts limit (Sockets.boot limit) [0, 1, 2] where
  limit_eq := rfl
  perm := .refl _
  nodup := (by decide : ([0, 1, 2] : List Fd).Nodup)
  within := by
    have small : ∀ fd ∈ ([0, 1, 2] : List Fd), 0 ≤ fd ∧ fd < 3 := by decide
    intro fd member
    obtain ⟨nonneg, below⟩ := small fd member
    exact ⟨nonneg, below.trans_le (Int.ofNat_le.mpr enough)⟩

end Accounts

namespace Links

variable {links after : Links} {event : LinkEvent}

/-- An event that can happen, sound or not. -/
def PossibleStep (links after : Links) : Prop :=
  ∃ event, links.Possible event ∧ after = links.next event

/-- The peers are descriptors of connections, each of them once. -/
def Opened (links : Links) : Prop :=
  ∀ peers, links.peers = .ok peers → peers.arr.Nodup ∧ ∀ fd ∈ peers.arr, fd ∈ links.opened

theorem opened_init : init.Opened := by
  intro peers same
  cases same
  exact ⟨.nil, by simp [Peers.init]⟩

/-- `remove_peer` keeps the list one of connections, whatever it is called with. -/
theorem Opened.removes {fd : Fd} {readers : List ClientServer} (opened : links.Opened) :
    Opened { links with
      peers := links.peers.map fun peers => removePeer peers fd
      readers } := by
  intro peers same
  cases found : links.peers with
  | error stop =>
      rw [found] at same
      cases same
  | ok before =>
      rw [found] at same
      cases same
      obtain ⟨nodup, every⟩ := opened before found
      have perm := Peers.removePeer_perm before fd
      refine ⟨perm.nodup_iff.mpr (nodup.erase fd), fun peer member => every peer ?_⟩
      exact List.mem_of_mem_erase (perm.mem_iff.mp member)

theorem Opened.step (opened : links.Opened) (possible : links.Possible event) :
    (links.next event).Opened := by
  cases event with
  | opened fd behind =>
      intro peers same
      obtain ⟨before, found, added⟩ := Result.bind_eq_ok.mp same
      obtain ⟨_, rfl⟩ := Peers.addPeer_eq_ok.mp added
      obtain ⟨nodup, every⟩ := opened before found
      have fresh : fd ∉ before.arr := fun member => possible.2 (every fd member)
      refine ⟨?_, ?_⟩
      · exact (List.perm_append_singleton fd before.arr).nodup_iff.mpr
          (List.nodup_cons.mpr ⟨fresh, nodup⟩)
      · intro peer member
        rcases List.mem_append.mp member with old | new
        · exact List.mem_cons_of_mem _ (every peer old)
        · exact List.mem_singleton.mp new ▸ List.mem_cons_self
  | refused => exact opened.removes
  | ended reader => exact opened.removes

theorem Opened.run (run : ReflTransGen PossibleStep init links) : links.Opened :=
  @Lib.invariant_run _ _ _ _ Opened
    (fun _ _ opened ⟨_, possible, same⟩ => same ▸ opened.step possible) run opened_init

end Links

namespace Sockets

variable {limit : Nat} {first now after : Sockets} {event : SocketEvent}

/-- What the open descriptors are for. -/
def owned (now : Sockets) : List Fd :=
  now.server :: (now.downloads ++ (now.links.opened ++ (now.answered ++ now.files))) ++ [0, 1, 2]

/-- What holds in every state: each open descriptor has one purpose, and the connections are
those of a run in which a new one differs from all earlier ones. -/
structure Accounted (limit : Nat) (now : Sockets) : Prop where
  accounts : Accounts limit now.table now.owned
  links : ReflTransGen Links.PossibleStep .init now.links

theorem Accounted.opens {fd : Fd} {table : FdTable} (accounted : Accounted limit now)
    (opened : now.table.Opens fd table) (succeeded : fd ≠ -1)
    (same : after.owned.Perm (fd :: now.owned)) (isTable : after.table = table)
    (links : after.links = now.links) : Accounted limit after where
  accounts := by
    rw [isTable]
    exact (accounted.accounts.opens opened succeeded).1.congr same.symm
  links := by
    rw [links]
    exact accounted.links

theorem Accounted.closes {fd : Fd} (accounted : Accounted limit now)
    (same : now.owned.Perm (fd :: after.owned)) (isTable : after.table = now.table.close fd)
    (links : after.links = now.links) : Accounted limit after where
  accounts := by
    rw [isTable]
    exact (accounted.accounts.congr same).close
  links := by
    rw [links]
    exact accounted.links

theorem Accounted.happens {link : LinkEvent} (accounted : Accounted limit now)
    (possible : now.links.Possible link) (same : (now.links.next link).opened = now.links.opened) :
    Accounted limit { now with links := now.links.next link } where
  accounts := by
    have owned : owned { now with links := now.links.next link } = now.owned := by
      simp only [Sockets.owned, same]
    rw [owned]
    exact accounted.accounts
  links := accounted.links.tail ⟨link, possible, rfl⟩

theorem Accounted.linked {fd behind : Fd} {table : FdTable} (accounted : Accounted limit now)
    (opened : now.table.Opens fd table) (succeeded : fd ≠ -1) :
    Accounted limit { now with table, links := now.links.next (.opened fd behind) } := by
  obtain ⟨accounts, nonneg, fresh⟩ := accounted.accounts.opens opened succeeded
  have isNew : fd ∉ now.links.opened := by
    intro member
    apply fresh
    simp [owned, member]
  have possible : now.links.Possible (.opened fd behind) := ⟨nonneg, isNew⟩
  refine ⟨accounts.congr ?_, accounted.links.tail ⟨_, possible, rfl⟩⟩
  apply List.perm_iff_count.mpr
  intro other
  simp only [owned, Links.next, List.count_append, List.count_cons]
  omega

theorem Accounted.step (accounted : Accounted limit now) (possible : now.Possible event) :
    Accounted limit (now.next event) := by
  cases event with
  | downloads grants binds names =>
      have opens : now.table.Opens (serverSocketOpen now.table grants binds names).1
          (serverSocketOpen now.table grants binds names).2 := opens_openSocket _ _ _
      simp only [next]
      split
      · exact accounted
      · refine accounted.opens opens ‹_› ?_ rfl rfl
        exact .swap _ _ _
  | returns fd =>
      refine accounted.closes ?_ rfl rfl
      apply List.perm_iff_count.mpr
      intro other
      have counts := (List.perm_cons_erase possible).count_eq other
      simp only [owned, next, List.count_append, List.count_cons] at counts ⊢
      omega
  | accepts listener accepts behind =>
      change Accounted limit (now.connects listener accepts behind)
      have opens : now.table.Opens _ _ :=
        now.table.opens_allocate (accepts && decide (now.Listening listener))
      unfold Sockets.connects
      cases allocated : serverSocketAccept now.table
          (accepts && decide (now.Listening listener)) with
      | mk fd table =>
          rw [serverSocketAccept] at allocated
          rw [allocated] at opens
          dsimp only
          split
          · exact accounted.happens (show now.links.Possible .refused from trivial) rfl
          · exact accounted.linked opens ‹_›
  | answers grants connects =>
      have opens : now.table.Opens (socketConnectAddr now.table grants connects).1
          (socketConnectAddr now.table grants connects).2 := opens_openSocket _ _ _
      simp only [next]
      split
      · exact accounted
      · refine accounted.opens opens ‹_› ?_ rfl rfl
        apply List.perm_iff_count.mpr
        intro other
        simp only [owned, List.count_append, List.count_cons]
        omega
  | ends reader =>
      exact accounted.happens (show now.links.Possible (.ended reader) from possible) rfl
  | opensFile grants =>
      have opens := now.table.opens_allocate grants
      simp only [next]
      split
      · exact accounted
      · refine accounted.opens opens ‹_› ?_ rfl rfl
        apply List.perm_iff_count.mpr
        intro other
        simp only [owned, List.count_append, List.count_cons]
        omega
  | closesFile fd =>
      refine accounted.closes ?_ rfl rfl
      apply List.perm_iff_count.mpr
      intro other
      have counts := (List.perm_cons_erase possible).count_eq other
      simp only [owned, next, List.count_append, List.count_cons] at counts ⊢
      omega

theorem between_three {number : Int} (nonneg : 0 ≤ number) (below : number < 3) :
    number = 0 ∨ number = 1 ∨ number = 2 := by
  omega

theorem Started.accounted (started : Started limit first) : Accounted limit first := by
  have listening : ∀ {grants binds names : Bool} {server : Fd} {table : FdTable},
      serverSocketOpen (boot limit) grants binds names = (server, table) → server ≠ -1 →
        Accounted limit (listens server table) := by
    intro grants binds names server table opened succeeded
    have opens : (boot limit).Opens (serverSocketOpen (boot limit) grants binds names).1
        (serverSocketOpen (boot limit) grants binds names).2 := opens_openSocket _ _ _
    rw [opened] at opens
    -- Four descriptors are open, so the limit is not below three.
    have enough : 3 ≤ limit := by
      rcases opens with ⟨failed, _⟩ | ⟨nonneg, fresh, below, _⟩
      · exact absurd failed succeeded
      · by_contra small
        apply fresh
        have few : (boot limit).limit < 3 := Nat.lt_of_not_le small
        have tiny : server < 3 := below.trans (Int.ofNat_lt.mpr few)
        simp only [boot, List.mem_cons, List.not_mem_nil, or_false]
        exact between_three nonneg tiny
    exact ⟨((Accounts.boot enough).opens opens succeeded).1, .refl⟩
  cases started with
  | alone opened succeeded => exact listening opened succeeded
  | @joins _ _ _ resolves granted connects _ _ _ table _ opened succeeded connected linked =>
      have opens := opens_socketConnect table resolves granted connects
      rw [connected] at opens
      exact (listening opened succeeded).linked opens linked

theorem Accounted.run (started : Started limit first)
    (run : ReflTransGen Step first now) : Accounted limit now :=
  @Lib.invariant_run _ _ _ _ (Accounted limit)
    (fun _ _ accounted ⟨_, possible, same⟩ => same ▸ accounted.step possible) run
    started.accounted

/-- **What a client's descriptors are for.**  In every state of every run, whatever the
system calls return: the open descriptors are the first three, the server socket, one for
each `download_file` that has not returned, one for each connection that was ever accepted or
made, one for each that a chunk was to be sent on, and the open files.  So the connections
and the answers of the whole life of a client are no more than the limit allows; the
descriptor of a new connection differs from those of all earlier ones; and every peer in the
list is an open descriptor and listed once. -/
theorem sockets_accounted (started : Started limit first)
    (run : ReflTransGen Step first now) :
    now.table.opened.length = 4 + now.downloads.length + now.links.opened.length +
        now.answered.length + now.files.length ∧
      now.links.opened.length + now.answered.length + 4 ≤ limit ∧
      ReflTransGen Links.PossibleStep .init now.links ∧
      ∀ peers, now.links.peers = .ok peers → peers.arr.Nodup ∧
        ∀ fd ∈ peers.arr, fd ∈ now.table.opened := by
  have accounted := Accounted.run started run
  have length := accounted.accounts.perm.length_eq
  have few := accounted.accounts.length_le
  simp only [owned, List.length_append, List.length_cons, List.length_nil] at length few
  refine ⟨by omega, by omega, accounted.links, ?_⟩
  intro peers same
  obtain ⟨nodup, every⟩ := Links.Opened.run accounted.links peers same
  refine ⟨nodup, fun fd member => ?_⟩
  rw [accounted.accounts.perm.mem_iff]
  simp [owned, every fd member]

/-- A client that has started. -/
def sampleSockets : Sockets := listens 3 ⟨[3, 0, 1, 2], 8⟩

/-- A connection is accepted and a chunk sent: both sockets stay open. -/
theorem sockets_accounted_sample :
    ∃ now, ReflTransGen Step sampleSockets now ∧ now.table.opened.length = 6 := by
  have started : Started 8 sampleSockets :=
    @Started.alone 8 true true true 3 _ rfl (by decide)
  have accepts : ReflTransGen Step sampleSockets (sampleSockets.next (.accepts 3 true 0)) :=
    .single ⟨.accepts 3 true 0, List.mem_singleton_self 3, rfl⟩
  have run := accepts.tail ⟨.answers true true, trivial, rfl⟩
  refine ⟨_, run, ?_⟩
  rw [(sockets_accounted started run).1]
  rfl

end Sockets

end Grintorrent
