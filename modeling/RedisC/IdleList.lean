/-
The event loop on the level of its pointers.

Each `Conn` is an object of its own and holds a node of the timer list; the table
`fd2conn` points to the objects.  A node of the list is known by the object that it
is part of, so that `container_of` is the argument of `ListPtr.conn`, and the list
starts and ends at the field `idle_list` of `g_data`.  `malloc` leaves the node of a
new object as it was.
-/

import RedisC.Lib.CircularList
import RedisC.EventLoop

namespace RedisC

open Fallible CircularList PartialMap

/-! ### The list -/

structure DList (α : Type) where
  prev : α
  next : α
  deriving DecidableEq, Repr

section

variable {α : Type} [DecidableEq α]

def setPrev (mem : α → DList α) (node value : α) : α → DList α :=
  Function.update mem node { mem node with prev := value }

def setNext (mem : α → DList α) (node value : α) : α → DList α :=
  Function.update mem node { mem node with next := value }

def dlistInit (mem : α → DList α) (node : α) : α → DList α :=
  setPrev (setNext mem node node) node node

def dlistIsEmpty (mem : α → DList α) (node : α) : Bool := node == (mem node).next

def dlistDetach (mem : α → DList α) (node : α) : α → DList α :=
  let prev := (mem node).prev
  let next := (mem node).next
  let mem := setNext mem prev next
  setPrev mem next prev

def dlistInsertBefore (mem : α → DList α) (target toBeInserted : α) : α → DList α :=
  let prev := (mem target).prev
  let mem := setNext mem prev toBeInserted
  let mem := setPrev mem toBeInserted prev
  let mem := setNext mem toBeInserted target
  setPrev mem target toBeInserted

end

/-! ### The loop -/

/-- `&g_data.idle_list` or `&conn->idle_list` -/
inductive ListPtr
  | idleList
  | conn (conn : Ptr)
  deriving DecidableEq, Repr

/-- A `Conn` with its descriptor. -/
structure Client where
  fd : Nat
  link : Link := {}

/-- `conns` has the objects that are not freed. -/
structure Loop (σ : Type) where
  db : σ
  idle : ListPtr → DList ListPtr
  conns : Ptr → Option Client := fun _ => none
  fd2conn : List (Option Ptr) := []

variable {σ : Type}

def Loop.start (db : σ) (mem : ListPtr → DList ListPtr) : Loop σ where
  db := db
  idle := dlistInit mem .idleList

def connPut (fd2conn : List (Option Ptr)) (fd : Nat) (conn : Ptr) : List (Option Ptr) :=
  let fd2conn := if fd2conn.length ≤ fd
    then fd2conn ++ List.replicate (fd + 1 - fd2conn.length) none else fd2conn
  fd2conn.set fd (some conn)

namespace Loop

/-- `accept` and `malloc` can fail. -/
def acceptNewConn (loop : Loop σ) (accepted : Option Nat) (allocated : Option Ptr)
    (now : UInt64) : Int × Loop σ :=
  match accepted, allocated with
  | some fd, some conn =>
      (0, { loop with
        conns := Function.update loop.conns conn
          (some { fd := fd, link := { conn := { idleStart := now } } })
        idle := dlistInsertBefore loop.idle .idleList (.conn conn)
        fd2conn := connPut loop.fd2conn fd conn })
  | _, _ => (-1, loop)

def connDone (loop : Loop σ) (conn : Ptr) : Except Fault (Loop σ) :=
  match loop.conns conn with
  | none => .error .nullDeref
  | some client =>
      if client.fd < loop.fd2conn.length then
        .ok { loop with
          fd2conn := loop.fd2conn.set client.fd none
          idle := dlistDetach loop.idle (.conn conn)
          conns := Function.update loop.conns conn none }
      else
        .error .outOfBounds

/-- The first loop of `process_timers`; each round takes a connection out of the table. -/
def closeIdle (nowUs : UInt64) : Nat → Loop σ → Except Fault (Loop σ)
  | 0, _ => .error .outOfFuel
  | fuel + 1, loop =>
      if dlistIsEmpty loop.idle .idleList then .ok loop
      else
        match (loop.idle .idleList).next with
        | .idleList => .error .nullDeref
        | .conn next =>
            match loop.conns next with
            | none => .error .nullDeref
            | some client =>
                if client.link.conn.idleStart + idleTimeoutUs ≥ nowUs then .ok loop -- not ready
                else do
                  let loop ← loop.connDone next
                  closeIdle nowUs fuel loop

section

variable (service : Service σ)

def connectionIo (loop : Loop σ) (conn : Ptr) (now : UInt64) (reads : List ReadResult)
    (writes : List WriteResult) : Except Fault (Loop σ) :=
  match loop.conns conn with
  | none => .error .nullDeref
  | some client => do
      let idle := dlistDetach loop.idle (.conn conn)
      let idle := dlistInsertBefore idle .idleList (.conn conn)
      let w ← RedisC.connectionIo service.doRequest (client.link.attach loop.db reads writes) now
      pure { loop with
        db := w.db
        idle := idle
        conns := Function.update loop.conns conn (some { client with link := w.link }) }

def processTimers (loop : Loop σ) (now : UInt64) : Except Fault (Loop σ) := do
  let loop ← closeIdle (now + 1000) (loop.fd2conn.length + 1) loop
  let db ← service.expire loop.db now
  pure { loop with db := db }

end

end Loop

/-! ### The links of the list -/

section

variable {α : Type} [DecidableEq α] {mem : α → DList α} {sentinel node : α}

def Threaded (mem : α → DList α) (sentinel : α) (nodes : List α) : Prop :=
  Ring (fun node => (mem node).prev) (fun node => (mem node).next) sentinel nodes

private theorem setPrev_prev (mem : α → DList α) (node value : α) :
    (fun other => (setPrev mem node value other).prev) =
      Function.update (fun other => (mem other).prev) node value := by
  funext other
  by_cases same : other = node
  · rw [same, Function.update_self, setPrev, Function.update_self]
  · rw [Function.update_of_ne same, setPrev, Function.update_of_ne same]

private theorem setPrev_next (mem : α → DList α) (node value : α) :
    (fun other => (setPrev mem node value other).next) = fun other => (mem other).next := by
  funext other
  by_cases same : other = node
  · rw [same, setPrev, Function.update_self]
  · rw [setPrev, Function.update_of_ne same]

private theorem setNext_next (mem : α → DList α) (node value : α) :
    (fun other => (setNext mem node value other).next) =
      Function.update (fun other => (mem other).next) node value := by
  funext other
  by_cases same : other = node
  · rw [same, Function.update_self, setNext, Function.update_self]
  · rw [Function.update_of_ne same, setNext, Function.update_of_ne same]

private theorem setNext_prev (mem : α → DList α) (node value : α) :
    (fun other => (setNext mem node value other).prev) = fun other => (mem other).prev := by
  funext other
  by_cases same : other = node
  · rw [same, setNext, Function.update_self]
  · rw [setNext, Function.update_of_ne same]

private theorem dlistInit_threaded (mem : α → DList α) (node : α) :
    Threaded (dlistInit mem node) node [] := by
  unfold Threaded dlistInit
  simp only [setPrev_prev, setPrev_next, setNext_next]
  exact ring_nil (Function.update_self _ _ _) (Function.update_self _ _ _)

private theorem dlistDetach_threaded {front back : List α}
    (threaded : Threaded mem sentinel (front ++ node :: back)) :
    Threaded (dlistDetach mem node) sentinel (front ++ back) := by
  unfold Threaded dlistDetach
  simp only [setPrev_prev, setPrev_next, setNext_next, setNext_prev]
  exact Ring.detach threaded

private theorem dlistInsertBefore_threaded {nodes : List α} (threaded : Threaded mem sentinel nodes)
    (new : node ∉ sentinel :: nodes) :
    Threaded (dlistInsertBefore mem sentinel node) sentinel (nodes ++ [node]) := by
  unfold Threaded dlistInsertBefore
  simp only [setPrev_prev, setPrev_next, setNext_next, setNext_prev]
  exact Ring.insertBefore threaded new

end

/-! ### The table and the objects -/

/-- The entry of the table; a descriptor behind its end has none. -/
def Loop.slot (loop : Loop σ) (fd : Nat) : Option Ptr := loop.fd2conn[fd]?.join

def Loop.fdOf (loop : Loop σ) (conn : Ptr) : Nat := ((loop.conns conn).map Client.fd).getD 0

/-- The list, the table and the objects that are not freed belong together. -/
structure Loop.Wired (loop : Loop σ) (ptrs : List Ptr) : Prop where
  threaded : Threaded loop.idle .idleList (ptrs.map .conn)
  live : ∀ conn, conn ∈ ptrs ↔ (loop.conns conn).isSome = true
  placed : ∀ conn client, loop.conns conn = some client → loop.slot client.fd = some conn
  filled : ∀ fd conn, loop.slot fd = some conn →
    ∃ client, loop.conns conn = some client ∧ client.fd = fd

variable {loop : Loop σ} {ptrs : List Ptr} {conn : Ptr} {client : Client}

theorem fdOf_of_conns (alive : loop.conns conn = some client) : loop.fdOf conn = client.fd := by
  rw [Loop.fdOf, alive]
  rfl

private theorem slot_append_none (fd2conn : List (Option Ptr)) (more fd : Nat) :
    (fd2conn ++ List.replicate more none)[fd]?.join = fd2conn[fd]?.join := by
  by_cases inside : fd < fd2conn.length
  · rw [List.getElem?_append_left inside]
  · have behind : fd2conn.length ≤ fd := Nat.le_of_not_lt inside
    rw [List.getElem?_append_right behind, List.getElem?_eq_none behind, List.getElem?_replicate]
    split
    · rfl
    · rfl

theorem connPut_slot (fd2conn : List (Option Ptr)) (fd other : Nat) (conn : Ptr) :
    (connPut fd2conn fd conn)[other]?.join =
      if other = fd then some conn else fd2conn[other]?.join := by
  have roomy : ∀ {slots : List (Option Ptr)}, fd < slots.length →
      (∀ i : Nat, slots[i]?.join = fd2conn[i]?.join) →
      (slots.set fd (some conn))[other]?.join =
        if other = fd then some conn else fd2conn[other]?.join := by
    intro slots room same
    rw [List.getElem?_set]
    by_cases here : other = fd
    · rw [if_pos here.symm, if_pos room, if_pos here]
      rfl
    · rw [if_neg fun equal => here equal.symm, if_neg here, same]
  unfold connPut
  by_cases short : fd2conn.length ≤ fd
  · rw [if_pos short]
    apply roomy
    · rw [List.length_append, List.length_replicate]
      omega
    · exact slot_append_none fd2conn _
  · rw [if_neg short]
    exact roomy (Nat.lt_of_not_le short) fun _ => rfl

theorem set_none_slot (fd2conn : List (Option Ptr)) (fd other : Nat) :
    (fd2conn.set fd none)[other]?.join = if other = fd then none else fd2conn[other]?.join := by
  rw [List.getElem?_set]
  by_cases here : other = fd
  · rw [if_pos here.symm, if_pos here]
    split
    · rfl
    · rfl
  · rw [if_neg fun equal => here equal.symm, if_neg here]

namespace Loop.Wired

theorem start (db : σ) (mem : ListPtr → DList ListPtr) : (Loop.start db mem).Wired [] := by
  constructor
  · exact dlistInit_threaded mem .idleList
  · intro conn
    simp [Loop.start]
  · intro conn client contrary
    cases contrary
  · intro fd conn contrary
    cases contrary

theorem withDb (wired : loop.Wired ptrs) (db : σ) : { loop with db := db }.Wired ptrs :=
  ⟨wired.threaded, wired.live, wired.placed, wired.filled⟩

theorem nodup (wired : loop.Wired ptrs) : ptrs.Nodup :=
  (List.nodup_cons.mp wired.threaded.nodup).2.of_map

theorem mem (wired : loop.Wired ptrs) (alive : loop.conns conn = some client) : conn ∈ ptrs := by
  rw [wired.live, alive]
  rfl

theorem client_of_mem (wired : loop.Wired ptrs) (member : conn ∈ ptrs) :
    ∃ client, loop.conns conn = some client :=
  Option.isSome_iff_exists.mp ((wired.live conn).mp member)

theorem slot_fdOf (wired : loop.Wired ptrs) (member : conn ∈ ptrs) :
    loop.slot (loop.fdOf conn) = some conn := by
  obtain ⟨client, clientIs⟩ := wired.client_of_mem member
  rw [fdOf_of_conns clientIs]
  exact wired.placed conn client clientIs

theorem fdOf_injective (wired : loop.Wired ptrs) {other : Ptr} (member : conn ∈ ptrs)
    (otherMember : other ∈ ptrs) (same : loop.fdOf conn = loop.fdOf other) : conn = other := by
  have slot := wired.slot_fdOf member
  rw [same, wired.slot_fdOf otherMember] at slot
  exact (Option.some.inj slot).symm

theorem slot_lt {loop : Loop σ} {fd : Nat} (found : loop.slot fd = some conn) :
    fd < loop.fd2conn.length := by
  by_contra outside
  rw [Loop.slot, List.getElem?_eq_none (Nat.le_of_not_lt outside)] at found
  cases found

theorem detached (wired : loop.Wired ptrs) (member : conn ∈ ptrs) :
    Threaded (dlistDetach loop.idle (.conn conn)) .idleList ((ptrs.erase conn).map .conn) := by
  have threaded := wired.threaded
  obtain ⟨front, back, -, splits, erased⟩ := List.exists_erase_eq member
  rw [erased, List.map_append]
  rw [splits, List.map_append, List.map_cons] at threaded
  exact dlistDetach_threaded threaded

theorem appended {idle : ListPtr → DList ListPtr}
    (threaded : Threaded idle .idleList (ptrs.map .conn)) (new : conn ∉ ptrs) :
    Threaded (dlistInsertBefore idle .idleList (.conn conn)) .idleList
      ((ptrs ++ [conn]).map .conn) := by
  rw [List.map_append]
  apply dlistInsertBefore_threaded threaded
  intro member
  rcases List.mem_cons.mp member with atSentinel | inside
  · cases atSentinel
  · obtain ⟨other, listed, same⟩ := List.mem_map.mp inside
    cases same
    exact new listed

theorem connDone_spec (wired : loop.Wired ptrs) (alive : loop.conns conn = some client) :
    ∃ after, loop.connDone conn = .ok after ∧ after.Wired (ptrs.erase conn) ∧
      after.conns = Function.update loop.conns conn none ∧ after.db = loop.db ∧
      after.fd2conn = loop.fd2conn.set client.fd none := by
  have placed := wired.placed conn client alive
  have inside : client.fd < loop.fd2conn.length := slot_lt placed
  unfold Loop.connDone
  rw [alive]
  simp only [if_pos inside]
  refine ⟨_, rfl, ⟨wired.detached (wired.mem alive), ?_, ?_, ?_⟩, rfl, rfl, rfl⟩
  · intro other
    rw [wired.nodup.mem_erase_iff, wired.live]
    by_cases same : other = conn
    · simp [same]
    · simp [same]
  · intro other peer present
    rcases update_eq_some present with ⟨_, contrary⟩ | ⟨apart, before⟩
    · cases contrary
    · have otherPlaced := wired.placed other peer before
      have otherFd : peer.fd ≠ client.fd := by
        intro same
        rw [same, placed] at otherPlaced
        exact apart (Option.some.inj otherPlaced).symm
      rw [Loop.slot, set_none_slot, if_neg otherFd]
      exact otherPlaced
  · intro fd other found
    rw [Loop.slot, set_none_slot] at found
    split at found
    · cases found
    · rename_i otherFd
      obtain ⟨peer, present, fdIs⟩ := wired.filled fd other found
      have apart : other ≠ conn := by
        intro same
        rw [same, alive] at present
        cases present
        exact otherFd fdIs.symm
      exact ⟨peer, (Function.update_of_ne apart _ _).trans present, fdIs⟩

theorem acceptNewConn_spec (wired : loop.Wired ptrs) {fd : Nat} (free : loop.slot fd = none)
    (new : loop.conns conn = none) (now : UInt64) :
    (loop.acceptNewConn (some fd) (some conn) now).2.Wired (ptrs ++ [conn]) := by
  have unlisted : conn ∉ ptrs := by
    rw [wired.live, new]
    exact Bool.false_ne_true
  refine ⟨appended wired.threaded unlisted, ?_, ?_, ?_⟩
  · intro other
    rw [List.mem_append, List.mem_singleton, wired.live]
    by_cases same : other = conn
    · simp [Loop.acceptNewConn, same]
    · simp [Loop.acceptNewConn, same]
  · intro other peer present
    change (connPut loop.fd2conn fd conn)[peer.fd]?.join = some other
    rw [connPut_slot]
    rcases update_eq_some present with ⟨same, isNew⟩ | ⟨_, before⟩
    · cases isNew
      rw [if_pos rfl, same]
    · have otherPlaced := wired.placed other peer before
      have otherFd : peer.fd ≠ fd := by
        intro same
        rw [same, free] at otherPlaced
        cases otherPlaced
      rw [if_neg otherFd]
      exact otherPlaced
  · intro other peer found
    change (connPut loop.fd2conn fd conn)[other]?.join = some peer at found
    rw [connPut_slot] at found
    split at found
    · rename_i same
      cases found
      exact ⟨_, Function.update_self _ _ _, same.symm⟩
    · obtain ⟨old, present, fdIs⟩ := wired.filled other peer found
      have apart : peer ≠ conn := by
        intro same
        rw [same, new] at present
        cases present
      exact ⟨old, (Function.update_of_ne apart _ _).trans present, fdIs⟩

theorem moved (wired : loop.Wired ptrs) (alive : loop.conns conn = some client) (db : σ)
    (link : Link) :
    { loop with
      db := db
      idle := dlistInsertBefore (dlistDetach loop.idle (.conn conn)) .idleList (.conn conn)
      conns := Function.update loop.conns conn (some { client with link := link }) }.Wired
      (ptrs.erase conn ++ [conn]) := by
  have member := wired.mem alive
  have outside : conn ∉ ptrs.erase conn := fun inside =>
    (wired.nodup.mem_erase_iff.mp inside).1 rfl
  refine ⟨appended (wired.detached member) outside, ?_, ?_, ?_⟩
  · intro other
    rw [List.mem_append, List.mem_singleton, wired.nodup.mem_erase_iff, wired.live]
    by_cases same : other = conn
    · simp [same]
    · simp [same]
  · intro other peer present
    rcases update_eq_some present with ⟨same, isMoved⟩ | ⟨_, before⟩
    · cases isMoved
      rw [same]
      exact wired.placed conn client alive
    · exact wired.placed other peer before
  · intro fd other found
    obtain ⟨peer, present, fdIs⟩ := wired.filled fd other found
    by_cases same : other = conn
    · rw [same, alive] at present
      cases present
      rw [same]
      exact ⟨_, Function.update_self _ _ _, fdIs⟩
    · exact ⟨peer, (Function.update_of_ne same _ _).trans present, fdIs⟩

end Loop.Wired

end RedisC
