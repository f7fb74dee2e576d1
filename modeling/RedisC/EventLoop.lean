/-
The event loop over all connections.

A run is any order of `connection_io` on live connections, `process_timers` and
`accept_new_conn`; `poll` and the kernel choose the order and the results of the
system calls.  What the loop does to the database is a parameter, so that what is
proved about the connections holds whatever the requests do.

`idleList` has the descriptors of the connections in the order of the timer list.
-/

import RedisC.Lib.LabelledRun
import RedisC.Lib.PartialMap
import RedisC.ConnectionInvariant
import RedisC.Keyspace

namespace RedisC

open Fallible LabelledRun PartialMap

/-- A connection and its history. -/
structure Link where
  conn : Conn := {}
  received : Bytes := []
  sent : Bytes := []
  calls : List (List Bytes × Bytes) := []
  past : List (Point × Conn) := []

/-- What the loop does to the database. -/
structure Service (σ : Type) where
  doRequest : σ → List Bytes → Except Fault (σ × Bytes)
  expire : σ → UInt64 → Except Fault σ

structure Server (σ : Type) where
  db : σ
  fd2conn : Nat → Option Link := fun _ => none
  idleList : List Nat := []

inductive Event
  | io (fd : Nat) (now : UInt64) (reads : List ReadResult) (writes : List WriteResult)
  | timers (now : UInt64)
  | accept (fd : Nat) (now : UInt64)

variable {σ : Type}

def Link.attach (link : Link) (db : σ) (reads : List ReadResult) (writes : List WriteResult) :
    World σ where
  db := db
  conn := link.conn
  reads := reads
  writes := writes
  received := link.received
  sent := link.sent
  calls := link.calls
  past := link.past

def World.link (w : World σ) : Link where
  conn := w.conn
  received := w.received
  sent := w.sent
  calls := w.calls
  past := w.past

def connDone (server : Server σ) (fd : Nat) : Server σ :=
  { server with
    fd2conn := Function.update server.fd2conn fd none
    idleList := server.idleList.erase fd }

def acceptNewConn (server : Server σ) (fd : Nat) (now : UInt64) : Server σ :=
  { server with
    fd2conn := Function.update server.fd2conn fd (some { conn := { idleStart := now } })
    idleList := server.idleList ++ [fd] }

/-- `connection_io` moves the connection to the end of the idle list. -/
def connMoved (server : Server σ) (fd : Nat) (w : World σ) : Server σ where
  db := w.db
  fd2conn := Function.update server.fd2conn fd (some w.link)
  idleList := server.idleList.erase fd ++ [fd]

def idleTimeoutUs : UInt64 := UInt64.ofNat (kIdleTimeoutMs * 1000)

/-- The loop over the idle list, from its front. -/
def closeIdle (nowUs : UInt64) : List Nat → Server σ → Except Fault (Server σ)
  | [], server => .ok server
  | fd :: rest, server =>
      match server.fd2conn fd with
      | none => .error .nullDeref
      | some link =>
          if link.conn.idleStart + idleTimeoutUs ≥ nowUs then .ok server -- not ready
          else closeIdle nowUs rest (connDone server fd)

section

variable (service : Service σ)

def processTimers (server : Server σ) (now : UInt64) : Except Fault (Server σ) := do
  let server ← closeIdle (now + 1000) server.idleList server
  let db ← service.expire server.db now
  pure { server with db := db }

/-- `connection_io` and, when the connection has ended, `conn_done`. -/
def processConn (server : Server σ) (fd : Nat) (link : Link) (now : UInt64)
    (reads : List ReadResult) (writes : List WriteResult) : Except Fault (Server σ) := do
  let w ← connectionIo service.doRequest (link.attach server.db reads writes) now
  pure (if w.conn.state = .ended then connDone (connMoved server fd w) fd
    else connMoved server fd w)

def Event.exec (server : Server σ) : Event → Except Fault (Server σ)
  | .io fd now reads writes =>
      match server.fd2conn fd with
      | none => .error .nullDeref
      | some link => processConn service server fd link now reads writes
  | .timers now => processTimers service server now
  | .accept fd now => .ok (acceptNewConn server fd now)

/-- `poll` reports live connections only, and `accept` returns a descriptor that is not
in use. -/
def Event.Enabled (server : Server σ) : Event → Prop
  | .io fd _ _ _ => (server.fd2conn fd).isSome = true
  | .timers _ => True
  | .accept fd _ => server.fd2conn fd = none

/-- One event whose handling returns. -/
def ServerStep (server : Server σ) (event : Event) (after : Server σ) : Prop :=
  event.Enabled server ∧ event.exec service server = .ok after

end

/-! ### The database of the server -/

/-- The keyspace and the addresses that the allocator returns, in order. -/
structure Db where
  g : GData := {}
  supply : Nat → Alloc

def redis (strtod : Strtod) : Service Db where
  doRequest := fun db cmd => do
    let (g, out) ← doRequest strtod db.g (db.supply 0) cmd []
    pure ({ g := g, supply := fun i => db.supply (i + 1) }, out)
  expire := fun db now => do
    let g ← processTtlTimers db.g now
    pure { db with g := g }

/-! ### What one event can do -/

section

variable {service : Service σ} {server after : Server σ}

/-- A connection between two events; the database and the scripts play no part. -/
def Link.Ready (link : Link) : Prop := RedisC.Ready (link.attach () [] [])

theorem Link.Ready.attach {link : Link} (ready : link.Ready) (db : σ)
    (reads : List ReadResult) (writes : List WriteResult) :
    RedisC.Ready (link.attach db reads writes) :=
  ⟨⟨ready.sound.bounded, ready.sound.requests, ready.sound.replies, ready.sound.past⟩,
    ready.room, ready.live⟩

theorem IoDone.ready {before after : World σ} (done : IoDone before after)
    (live : after.conn.state ≠ .ended) : after.link.Ready :=
  ⟨⟨done.sound.bounded, done.sound.requests, done.sound.replies, done.sound.past⟩,
    done.room live, live⟩

private theorem link_new_ready (now : UInt64) : Link.Ready { conn := { idleStart := now } } := by
  refine ⟨⟨⟨Nat.le_refl 0, Nat.zero_le _, fun _ => ⟨rfl, rfl⟩, fun contrary => ?_⟩,
    ⟨[], .nil, rfl⟩, rfl, fun _ member => ?_⟩, Nat.zero_lt_succ _, fun contrary => ?_⟩
  · cases contrary
  · cases member
  · cases contrary

/-- Where a live connection comes from: it was there, it is new, or `connection_io` has
just returned. -/
inductive Origin (service : Service σ) (server : Server σ) (event : Event) (fd : Nat)
    (link : Link) : Prop
  | kept (before : server.fd2conn fd = some link)
  | opened (now : UInt64) (new : link = { conn := { idleStart := now } })
  | served {now : UInt64} {reads : List ReadResult} {writes : List WriteResult} {old : Link}
      {w : World σ} (isIo : event = .io fd now reads writes)
      (before : server.fd2conn fd = some old)
      (returned : connectionIo service.doRequest (old.attach server.db reads writes) now = .ok w)
      (stays : w.conn.state ≠ .ended) (linkIs : link = w.link)

theorem closeIdle_kept {nowUs : UInt64} {fds : List Nat} {fd : Nat} {link : Link}
    (closed : closeIdle nowUs fds server = .ok after) (live : after.fd2conn fd = some link) :
    server.fd2conn fd = some link := by
  induction fds generalizing server with
  | nil =>
      cases closed
      exact live
  | cons first rest ih =>
      rw [closeIdle] at closed
      split at closed
      · cases closed
      · split at closed
        · cases closed
          exact live
        · rcases update_eq_some (ih closed) with ⟨_, contrary⟩ | ⟨_, before⟩
          · cases contrary
          · exact before

/-- `connection_io` has returned, and the connection is moved or done. -/
theorem processConn_eq_ok {fd : Nat} {link : Link} {now : UInt64} {reads : List ReadResult}
    {writes : List WriteResult}
    (returned : processConn service server fd link now reads writes = .ok after) :
    ∃ w, connectionIo service.doRequest (link.attach server.db reads writes) now = .ok w ∧
      (w.conn.state = .ended → after = connDone (connMoved server fd w) fd) ∧
      (w.conn.state ≠ .ended → after = connMoved server fd w) := by
  rcases bind_eq_ok returned with ⟨w, ioReturned, rest⟩
  cases rest
  exact ⟨w, ioReturned, fun ended => if_pos ended, fun stays => if_neg stays⟩

theorem ServerStep.origin {event : Event} (step : ServerStep service server event after)
    {fd : Nat} {link : Link} (live : after.fd2conn fd = some link) :
    Origin service server event fd link := by
  rcases step with ⟨_, executed⟩
  cases event with
  | io ioFd now reads writes =>
      rw [Event.exec] at executed
      split at executed
      · cases executed
      · rename_i old before
        rcases processConn_eq_ok executed with ⟨w, returned, whenEnded, whenStays⟩
        by_cases ended : w.conn.state = .ended
        · rw [whenEnded ended] at live
          rcases update_eq_some live with ⟨_, contrary⟩ | ⟨apart, later⟩
          · cases contrary
          · rcases update_eq_some later with ⟨same, _⟩ | ⟨_, kept⟩
            · exact absurd same apart
            · exact .kept kept
        · rw [whenStays ended] at live
          rcases update_eq_some live with ⟨same, linkIs⟩ | ⟨_, kept⟩
          · subst same
            exact .served rfl before returned ended (Option.some.inj linkIs).symm
          · exact .kept kept
  | timers now =>
      rcases bind_eq_ok executed with ⟨closed, closedEq, rest⟩
      rcases bind_eq_ok rest with ⟨db, _, final⟩
      cases final
      exact .kept (closeIdle_kept closedEq live)
  | accept newFd now =>
      cases executed
      rcases update_eq_some live with ⟨_, linkIs⟩ | ⟨_, kept⟩
      · exact .opened now (Option.some.inj linkIs).symm
      · exact .kept kept

/-! ### What every event keeps -/

structure Server.Good (server : Server σ) : Prop where
  ready : ∀ fd link, server.fd2conn fd = some link → link.Ready
  idle : ∀ fd ∈ server.idleList, (server.fd2conn fd).isSome = true
  nodup : server.idleList.Nodup

theorem Server.Good.update (good : server.Good) {fd : Nat} {value : Option Link}
    (ready : ∀ link, value = some link → link.Ready) (other : Nat) (link : Link)
    (live : Function.update server.fd2conn fd value other = some link) : link.Ready := by
  rcases update_eq_some live with ⟨_, linkIs⟩ | ⟨_, before⟩
  · exact ready link linkIs
  · exact good.ready other link before

theorem Server.Good.connDone (good : server.Good) (fd : Nat) : (connDone server fd).Good := by
  refine ⟨good.update fun _ contrary => ?_, ?_, good.nodup.erase fd⟩
  · cases contrary
  · intro other member
    rcases good.nodup.mem_erase_iff.mp member with ⟨apart, inside⟩
    change (Function.update server.fd2conn fd none other).isSome = true
    rw [Function.update_of_ne apart]
    exact good.idle other inside

theorem Server.Good.connMoved (good : server.Good) (fd : Nat) {w : World σ}
    (ready : w.link.Ready) : (connMoved server fd w).Good := by
  have apart : ∀ other, other ∈ server.idleList.erase fd → other ≠ fd ∧ other ∈ server.idleList :=
    fun other => good.nodup.mem_erase_iff.mp
  refine ⟨good.update fun other linkIs => ?_, ?_, ?_⟩
  · rw [← Option.some.inj linkIs]
    exact ready
  · intro other member
    change (Function.update server.fd2conn fd (some w.link) other).isSome = true
    rcases List.mem_append.mp member with before | last
    · rw [Function.update_of_ne (apart other before).1]
      exact good.idle other (apart other before).2
    · rw [List.mem_singleton.mp last, Function.update_self]
      rfl
  · rw [RedisC.connMoved, List.nodup_append_comm, List.singleton_append, List.nodup_cons]
    exact ⟨fun member => (apart fd member).1 rfl, good.nodup.erase fd⟩

private theorem connDone_connMoved (nodup : server.idleList.Nodup) (fd : Nat) (w : World σ) :
    connDone (connMoved server fd w) fd = connDone { server with db := w.db } fd := by
  have gone : fd ∉ server.idleList.erase fd := fun member => (nodup.mem_erase_iff.mp member).1 rfl
  unfold connDone connMoved
  simp only [Function.update_idem, List.erase_append_right _ gone, List.erase_cons_head,
    List.append_nil]

theorem Server.Good.withDb (good : server.Good) (db : σ) : { server with db := db }.Good :=
  ⟨good.ready, good.idle, good.nodup⟩

theorem Server.Good.acceptNewConn (good : server.Good) {fd : Nat} (new : server.fd2conn fd = none)
    (now : UInt64) : (acceptNewConn server fd now).Good := by
  have unlisted : fd ∉ server.idleList := by
    intro member
    have live := good.idle fd member
    rw [new] at live
    cases live
  refine ⟨good.update fun other linkIs => ?_, ?_, ?_⟩
  · rw [← Option.some.inj linkIs]
    exact link_new_ready now
  · intro other member
    change (Function.update server.fd2conn fd _ other).isSome = true
    by_cases same : other = fd
    · rw [same, Function.update_self]
      rfl
    · rw [Function.update_of_ne same]
      rcases List.mem_append.mp member with before | last
      · exact good.idle other before
      · exact absurd (List.mem_singleton.mp last) same
  · rw [RedisC.acceptNewConn, List.nodup_append_comm, List.singleton_append, List.nodup_cons]
    exact ⟨unlisted, good.nodup⟩

theorem closeIdle_spec {nowUs : UInt64} {fds : List Nat} (good : server.Good)
    (all : server.idleList = fds) :
    Meets (fun _ => False) Server.Good (closeIdle nowUs fds server) := by
  induction fds generalizing server with
  | nil => exact good
  | cons fd rest ih =>
      have live := good.idle fd (by rw [all]; exact List.mem_cons_self)
      rcases Option.isSome_iff_exists.mp live with ⟨link, linkIs⟩
      rw [closeIdle]
      simp only [linkIs]
      split
      · exact good
      · apply ih (good.connDone fd)
        rw [RedisC.connDone, all, List.erase_cons_head]

/-- The faults of the database are the only ones. -/
def Service.Faults (service : Service σ) (fault : Fault) : Prop :=
  RequestFault service.doRequest fault ∨ ∃ db now, service.expire db now = .error fault

theorem processConn_spec (good : server.Good) {fd : Nat} {link : Link}
    (live : server.fd2conn fd = some link) (now : UInt64) (reads : List ReadResult)
    (writes : List WriteResult) :
    Meets service.Faults Server.Good (processConn service server fd link now reads writes) := by
  have attached := (good.ready fd link live).attach server.db reads writes
  unfold processConn
  apply ((connectionIo_spec attached now).widen fun _ => .inl).bind
  intro w done
  by_cases ended : w.conn.state = .ended
  · rw [if_pos ended, connDone_connMoved good.nodup]
    exact (good.withDb w.db).connDone fd
  · rw [if_neg ended]
    exact good.connMoved fd (done.ready ended)

theorem Event.exec_spec {event : Event} (good : server.Good) (enabled : event.Enabled server) :
    Meets service.Faults Server.Good (event.exec service server) := by
  cases event with
  | io fd now reads writes =>
      rcases Option.isSome_iff_exists.mp enabled with ⟨link, live⟩
      rw [Event.exec]
      simp only [live]
      exact processConn_spec good live now reads writes
  | timers now =>
      apply ((closeIdle_spec good rfl).widen fun _ => False.elim).bind
      intro closed closedGood
      cases expired : service.expire closed.db now with
      | error fault => exact .inr ⟨closed.db, now, expired⟩
      | ok db => exact closedGood.withDb db
  | accept fd now => exact good.acceptNewConn enabled now

theorem Server.good_start (db : σ) : ({ db := db } : Server σ).Good := by
  refine ⟨fun _ _ live => ?_, fun _ member => ?_, List.nodup_nil⟩
  · cases live
  · cases member

theorem ServerStep.good (service : Service σ) (server : Server σ) (event : Event)
    (after : Server σ) (good : server.Good) (step : ServerStep service server event after) :
    after.Good :=
  (Event.exec_spec good step.1).of_ok step.2

end

end RedisC
