/-
The loop of `main`, and the server that its pointers stand for.

What is proved about requests and replies speaks of a table of connections and a
list of descriptors.  The objects, the table of pointers and the linked list keep in
step with these: each function of the loop on the pointers does to the table and the
list what its counterpart does, and stops with the same faults.  A round of `main`
is then a run of events, in which `poll` has only been given connections that are
still there when their turn comes.
-/

import RedisC.IdleRuns
import RedisC.ConnectionRuns

namespace RedisC

open Fallible LabelledRun

/-! ### The loop of `main` -/

/-- `POLLIN` or `POLLOUT`, each together with `POLLERR`. -/
inductive Interest
  | pollIn
  | pollOut
  deriving DecidableEq, Repr

structure PollFd where
  fd : Nat
  events : Interest
  deriving DecidableEq, Repr

/-- A connection that waits for a request is polled for input, all others for output. -/
def interest (conn : Conn) : Interest := if conn.state = .req then .pollIn else .pollOut

/-- What the clock and the system calls give to a connection that `poll` reports.  All its
writes return: none of them is to a peer that has gone and ends the process by `SIGPIPE`. -/
structure Wake where
  now : UInt64
  reads : List ReadResult
  writes : List WriteResult

structure Incoming where
  accepted : Option Nat
  allocated : Option Ptr
  now : UInt64

/-- What one round is given.  `ready` has the descriptors with `revents`, and `incoming` is
there if the listening descriptor has some. -/
structure Polled where
  ready : Nat → Option Wake
  timersAt : UInt64
  incoming : Option Incoming

namespace Loop

section

variable {σ : Type} (service : Service σ)

/-- The arguments of `poll` behind the first, which is the listening descriptor. -/
def pollArgs (loop : Loop σ) : List (Option Ptr) → Except Fault (List PollFd)
  | [] => .ok []
  | none :: slots => loop.pollArgs slots
  | some conn :: slots =>
      match loop.conns conn with
      | none => .error .nullDeref
      | some client => do
          let args ← loop.pollArgs slots
          pure ({ fd := client.fd, events := interest client.link.conn } :: args)

/-- `connection_io` and, when the connection has ended, `conn_done`. -/
def serve (loop : Loop σ) (fd : Nat) (wake : Wake) : Except Fault (Loop σ) :=
  match loop.fd2conn[fd]? with
  | none => .error .outOfBounds
  | some none => .error .nullDeref
  | some (some conn) => do
      let loop ← loop.connectionIo service conn wake.now wake.reads wake.writes
      match loop.conns conn with
      | none => .error .nullDeref
      | some client => if client.link.conn.state = .ended then loop.connDone conn else pure loop

def serveAll (ready : Nat → Option Wake) : List PollFd → Loop σ → Except Fault (Loop σ)
  | [], loop => .ok loop
  | arg :: args, loop =>
      match ready arg.fd with
      | none => serveAll ready args loop
      | some wake => do
          let loop ← loop.serve service arg.fd wake
          serveAll ready args loop

/-- A round up to the call of `accept_new_conn`. -/
def turn (loop : Loop σ) (polled : Polled) : Except Fault (Loop σ) := do
  let args ← loop.pollArgs loop.fd2conn
  let loop ← serveAll service polled.ready args loop
  loop.processTimers service polled.timersAt

def round (loop : Loop σ) (polled : Polled) : Except Fault (Loop σ) := do
  let loop ← loop.turn service polled
  match polled.incoming with
  | none => pure loop
  | some incoming =>
      pure (loop.acceptNewConn incoming.accepted incoming.allocated incoming.now).2

end

end Loop

/-! ### The server without pointers -/

section

variable {σ : Type} {loop after : Loop σ} {ptrs : List Ptr} {conn : Ptr} {client : Client}

def Loop.linkAt (loop : Loop σ) (fd : Nat) : Option Link :=
  (loop.slot fd).bind fun conn => (loop.conns conn).map Client.link

def Loop.server (loop : Loop σ) (ptrs : List Ptr) : Server σ where
  db := loop.db
  fd2conn := loop.linkAt
  idleList := ptrs.map loop.fdOf

def Loop.StandsFor (loop : Loop σ) (server : Server σ) : Prop :=
  ∃ ptrs, loop.Wired ptrs ∧ loop.server ptrs = server

theorem Loop.start_standsFor (db : σ) (mem : ListPtr → DList ListPtr) :
    (Loop.start db mem).StandsFor { db := db } :=
  ⟨[], Loop.Wired.start db mem, rfl⟩

namespace Loop.Wired

theorem linkAt_fd (wired : loop.Wired ptrs) (alive : loop.conns conn = some client) :
    loop.linkAt client.fd = some client.link := by
  rw [Loop.linkAt, wired.placed conn client alive, Option.bind_some, alive]
  rfl

theorem linkAt_isSome (wired : loop.Wired ptrs) (fd : Nat) :
    (loop.linkAt fd).isSome = (loop.slot fd).isSome := by
  unfold Loop.linkAt
  cases found : loop.slot fd with
  | none => rfl
  | some conn =>
      obtain ⟨client, clientIs, -⟩ := wired.filled fd conn found
      rw [Option.bind_some, clientIs]
      rfl

theorem linkAt_eq_update (wired : loop.Wired ptrs) {fd : Nat}
    (own : ∀ client, loop.conns conn = some client → client.fd = fd)
    (slots : ∀ other, other ≠ fd → after.slot other = loop.slot other)
    (conns : ∀ peer, peer ≠ conn → after.conns peer = loop.conns peer) :
    after.linkAt = Function.update loop.linkAt fd (after.linkAt fd) := by
  funext other
  by_cases same : other = fd
  · rw [same, Function.update_self]
  · rw [Function.update_of_ne same, Loop.linkAt, Loop.linkAt, slots other same]
    cases found : loop.slot other with
    | none => rfl
    | some peer =>
        obtain ⟨client, clientIs, fdIs⟩ := wired.filled other peer found
        have apart : peer ≠ conn := by
          intro equal
          rw [equal] at clientIs
          exact same (fdIs.symm.trans (own client clientIs))
        rw [Option.bind_some, Option.bind_some, conns peer apart]

theorem map_fdOf_erase (wired : loop.Wired ptrs) (alive : loop.conns conn = some client)
    (conns : ∀ peer, peer ≠ conn → after.conns peer = loop.conns peer) :
    (ptrs.erase conn).map after.fdOf = (ptrs.map loop.fdOf).erase client.fd := by
  have kept : (ptrs.erase conn).map after.fdOf = (ptrs.erase conn).map loop.fdOf := by
    apply List.map_congr_left
    intro peer member
    rw [Loop.fdOf, Loop.fdOf, conns peer (wired.nodup.mem_erase_iff.mp member).1]
  have fdIs := fdOf_of_conns alive
  have member := wired.mem alive
  obtain ⟨front, back, outside, splits, erased⟩ := List.exists_erase_eq member
  have fdOutside : client.fd ∉ front.map loop.fdOf := by
    intro listed
    obtain ⟨peer, peerMember, peerFd⟩ := List.mem_map.mp listed
    have inPtrs : peer ∈ ptrs := by
      rw [splits]
      exact List.mem_append_left _ peerMember
    exact outside (wired.fdOf_injective member inPtrs (fdIs.trans peerFd.symm) ▸ peerMember)
  rw [kept, erased, splits, List.map_append, List.map_append, List.map_cons, fdIs,
    List.erase_append_right _ fdOutside, List.erase_cons_head]

/-! ### Each function keeps in step -/

theorem connDone_server (wired : loop.Wired ptrs) (alive : loop.conns conn = some client) :
    ∃ after, loop.connDone conn = .ok after ∧ after.Wired (ptrs.erase conn) ∧
      after.server (ptrs.erase conn) = RedisC.connDone (loop.server ptrs) client.fd := by
  obtain ⟨after, returned, afterWired, conns, db, table⟩ := wired.connDone_spec alive
  have others : ∀ peer, peer ≠ conn → after.conns peer = loop.conns peer := by
    intro peer apart
    rw [conns, Function.update_of_ne apart]
  have slots : ∀ other, after.slot other = if other = client.fd then none else loop.slot other := by
    intro other
    rw [Loop.slot, table, set_none_slot]
    rfl
  have links : after.linkAt = Function.update loop.linkAt client.fd none := by
    have updated := wired.linkAt_eq_update
      (fun own ownIs => by rw [alive] at ownIs; cases ownIs; rfl)
      (fun other apart => (slots other).trans (if_neg apart)) others
    have gone : after.linkAt client.fd = none := by
      rw [Loop.linkAt, slots, if_pos rfl]
      rfl
    rw [gone] at updated
    exact updated
  refine ⟨after, returned, afterWired, ?_⟩
  unfold Loop.server RedisC.connDone
  rw [db, links, wired.map_fdOf_erase alive others]

theorem acceptNewConn_server (wired : loop.Wired ptrs) {fd : Nat} (free : loop.slot fd = none)
    (new : loop.conns conn = none) (now : UInt64) :
    (loop.acceptNewConn (some fd) (some conn) now).2.server (ptrs ++ [conn]) =
      RedisC.acceptNewConn (loop.server ptrs) fd now := by
  have accepted := wired.acceptNewConn_spec free new now
  generalize afterIs : (loop.acceptNewConn (some fd) (some conn) now).2 = after at accepted ⊢
  have others : ∀ peer, peer ≠ conn → after.conns peer = loop.conns peer := by
    intro peer apart
    rw [← afterIs]
    exact Function.update_of_ne apart _ _
  have alive : after.conns conn = some { fd := fd, link := { conn := { idleStart := now } } } := by
    rw [← afterIs]
    exact Function.update_self _ _ _
  have slots : ∀ other, other ≠ fd → after.slot other = loop.slot other := by
    intro other apart
    rw [← afterIs]
    exact (connPut_slot _ _ _ _).trans (if_neg apart)
  have links := wired.linkAt_eq_update (fun own ownIs => by rw [new] at ownIs; cases ownIs)
    slots others
  rw [accepted.linkAt_fd alive] at links
  have kept : ptrs.map after.fdOf = ptrs.map loop.fdOf := by
    apply List.map_congr_left
    intro peer member
    have apart : peer ≠ conn := by
      intro same
      obtain ⟨client, clientIs⟩ := wired.client_of_mem member
      rw [same, new] at clientIs
      cases clientIs
    rw [Loop.fdOf, Loop.fdOf, others peer apart]
  have db : after.db = loop.db := by
    rw [← afterIs]
    rfl
  unfold Loop.server RedisC.acceptNewConn
  rw [db, links, List.map_append, kept, List.map_singleton, fdOf_of_conns alive]

theorem moved_server (wired : loop.Wired ptrs) (alive : loop.conns conn = some client)
    (w : World σ) :
    { loop with
      db := w.db
      idle := dlistInsertBefore (dlistDetach loop.idle (.conn conn)) .idleList (.conn conn)
      conns := Function.update loop.conns conn (some { client with link := w.link }) }.server
      (ptrs.erase conn ++ [conn]) = connMoved (loop.server ptrs) client.fd w := by
  have moved := wired.moved alive w.db w.link
  generalize afterIs : { loop with
    db := w.db
    idle := dlistInsertBefore (dlistDetach loop.idle (.conn conn)) .idleList (.conn conn)
    conns := Function.update loop.conns conn (some { client with link := w.link }) } = after
    at moved ⊢
  have others : ∀ peer, peer ≠ conn → after.conns peer = loop.conns peer := by
    intro peer apart
    rw [← afterIs]
    exact Function.update_of_ne apart _ _
  have stays : after.conns conn = some { client with link := w.link } := by
    rw [← afterIs]
    exact Function.update_self _ _ _
  have links := wired.linkAt_eq_update (fun own ownIs => by rw [alive] at ownIs; cases ownIs; rfl)
    (fun other _ => by rw [← afterIs]; rfl) others
  rw [moved.linkAt_fd stays] at links
  have db : after.db = w.db := by
    rw [← afterIs]
  unfold Loop.server connMoved
  rw [db, links, List.map_append, wired.map_fdOf_erase alive others, List.map_singleton,
    fdOf_of_conns stays]

theorem connectionIo_agrees (wired : loop.Wired ptrs) (alive : loop.conns conn = some client)
    (service : Service σ) (now : UInt64) (reads : List ReadResult) (writes : List WriteResult) :
    Agrees
      (fun after w => after.conns conn = some { client with link := w.link } ∧
        after.Wired (ptrs.erase conn ++ [conn]) ∧
        after.server (ptrs.erase conn ++ [conn]) = connMoved (loop.server ptrs) client.fd w)
      (loop.connectionIo service conn now reads writes)
      (RedisC.connectionIo service.doRequest (client.link.attach loop.db reads writes) now) := by
  unfold Loop.connectionIo
  simp only [alive]
  cases RedisC.connectionIo service.doRequest (client.link.attach loop.db reads writes) now with
  | error fault => exact rfl
  | ok w =>
      exact ⟨Function.update_self _ _ _, wired.moved alive w.db w.link,
        wired.moved_server alive w⟩

theorem closeIdle_agrees (wired : loop.Wired ptrs) (nowUs : UInt64) {fuel : Nat}
    (enough : ptrs.length < fuel) :
    Agrees Loop.StandsFor (Loop.closeIdle nowUs fuel loop)
      (RedisC.closeIdle nowUs (ptrs.map loop.fdOf) (loop.server ptrs)) := by
  obtain ⟨fuel, rfl⟩ := Nat.exists_eq_add_one_of_ne_zero (Nat.ne_zero_of_lt enough)
  induction ptrs generalizing loop fuel with
  | nil =>
      rw [wired.closeIdle_nil]
      exact ⟨[], wired, rfl⟩
  | cons first rest ih =>
      obtain ⟨client, clientIs⟩ := wired.client_of_mem List.mem_cons_self
      have fdIs := fdOf_of_conns clientIs
      have linkIs : (loop.server (first :: rest)).fd2conn client.fd = some client.link :=
        wired.linkAt_fd clientIs
      rw [wired.closeIdle_cons, List.map_cons, fdIs, RedisC.closeIdle, overdue,
        idleStart_of_conns clientIs]
      simp only [linkIs, decide_eq_true_eq]
      by_cases late : client.link.conn.idleStart + idleTimeoutUs < nowUs
      · obtain ⟨closed, returned, closedWired, serverIs⟩ := wired.connDone_server clientIs
        rw [List.erase_cons_head] at closedWired serverIs
        have fds : rest.map closed.fdOf = rest.map loop.fdOf := by
          have lists := congrArg Server.idleList serverIs
          change rest.map closed.fdOf = ((first :: rest).map loop.fdOf).erase client.fd at lists
          rw [lists, List.map_cons, fdIs, List.erase_cons_head]
        have fewer : rest.length < fuel := Nat.lt_of_succ_lt_succ enough
        obtain ⟨fuel, rfl⟩ := Nat.exists_eq_add_one_of_ne_zero (Nat.ne_zero_of_lt fewer)
        rw [if_pos late, if_neg (UInt64.not_le.mpr late), returned, ok_bind, ← serverIs, ← fds]
        exact ih closedWired fuel fewer
      · rw [if_neg late, if_pos (UInt64.not_lt.mp late)]
        exact ⟨first :: rest, wired, rfl⟩

theorem processTimers_agrees (wired : loop.Wired ptrs) (service : Service σ) (now : UInt64) :
    Agrees Loop.StandsFor (loop.processTimers service now)
      (RedisC.processTimers service (loop.server ptrs) now) := by
  apply (wired.closeIdle_agrees (now + 1000) (Nat.lt_succ_of_le wired.length_le)).bind
  intro closed server closedStands
  obtain ⟨kept, closedWired, rfl⟩ := closedStands
  change Agrees _ (service.expire closed.db now >>= _) (service.expire closed.db now >>= _)
  cases service.expire closed.db now with
  | error fault => exact rfl
  | ok db => exact ⟨kept, closedWired.withDb db, rfl⟩

theorem serve_agrees (wired : loop.Wired ptrs) (service : Service σ) {fd : Nat} (wake : Wake)
    (live : ((loop.server ptrs).fd2conn fd).isSome = true) :
    Agrees Loop.StandsFor (loop.serve service fd wake)
      ((Event.io fd wake.now wake.reads wake.writes).exec service (loop.server ptrs)) := by
  change (loop.linkAt fd).isSome = true at live
  rw [wired.linkAt_isSome] at live
  obtain ⟨conn, found⟩ := Option.isSome_iff_exists.mp live
  obtain ⟨client, clientIs, rfl⟩ := wired.filled fd conn found
  have slotIs : loop.fd2conn[client.fd]? = some (some conn) := Option.join_eq_some_iff.mp found
  have linkIs : (loop.server ptrs).fd2conn client.fd = some client.link := wired.linkAt_fd clientIs
  unfold Loop.serve Event.exec processConn
  simp only [slotIs, linkIs]
  apply (wired.connectionIo_agrees clientIs service wake.now wake.reads wake.writes).bind
  intro moved w both
  obtain ⟨movedIs, movedWired, serverIs⟩ := both
  simp only [movedIs]
  rw [← serverIs]
  by_cases ended : w.conn.state = .ended
  · obtain ⟨closed, returned, closedWired, closedIs⟩ := movedWired.connDone_server movedIs
    have isEnded : w.link.conn.state = .ended := ended
    rw [if_pos isEnded, if_pos ended, returned]
    exact ⟨_, closedWired, closedIs⟩
  · have notEnded : w.link.conn.state ≠ .ended := ended
    rw [if_neg notEnded, if_neg ended]
    exact ⟨_, movedWired, rfl⟩

/-! ### One round -/

theorem pollArgs_spec (wired : loop.Wired ptrs) {front slots : List (Option Ptr)}
    (table : loop.fd2conn = front ++ slots) :
    ∃ args, loop.pollArgs slots = .ok args ∧ (args.map PollFd.fd).Nodup ∧
      (∀ arg ∈ args, front.length ≤ arg.fd ∧
        ∃ link, loop.linkAt arg.fd = some link ∧ arg.events = interest link.conn) ∧
      ∀ fd, front.length ≤ fd → (loop.linkAt fd).isSome = true → ∃ arg ∈ args, arg.fd = fd := by
  induction slots generalizing front with
  | nil =>
      refine ⟨[], rfl, List.nodup_nil, fun arg member => ?_, fun fd behind live => ?_⟩
      · cases member
      · rw [wired.linkAt_isSome] at live
        obtain ⟨conn, found⟩ := Option.isSome_iff_exists.mp live
        have inside := slot_lt found
        rw [table, List.append_nil] at inside
        exact absurd inside (Nat.not_lt.mpr behind)
  | cons slot slots ih =>
      have next : loop.fd2conn = (front ++ [slot]) ++ slots := by
        rw [table, List.append_assoc, List.singleton_append]
      have slotIs : loop.slot front.length = slot := by
        rw [Loop.slot, table, List.getElem?_append_right (Nat.le_refl _), Nat.sub_self]
        rfl
      obtain ⟨args, argsIs, nodup, sound, complete⟩ := ih next
      rw [List.length_append, List.length_singleton] at sound complete
      cases slot with
      | none =>
          refine ⟨args, argsIs, nodup, fun arg member => ?_, fun fd behind live => ?_⟩
          · obtain ⟨behind, rest⟩ := sound arg member
            exact ⟨Nat.le_of_succ_le behind, rest⟩
          · apply complete fd _ live
            rcases Nat.eq_or_lt_of_le behind with here | later
            · rw [wired.linkAt_isSome, ← here, slotIs] at live
              cases live
            · exact later
      | some conn =>
          obtain ⟨client, clientIs, fdIs⟩ := wired.filled _ _ slotIs
          have first : loop.pollArgs (some conn :: slots) =
              .ok ({ fd := client.fd, events := interest client.link.conn } :: args) := by
            rw [Loop.pollArgs]
            simp only [clientIs, argsIs, ok_bind, pure_eq_ok]
          refine ⟨_, first, ?_, fun arg member => ?_, fun fd behind live => ?_⟩
          · rw [List.map_cons, List.nodup_cons]
            refine ⟨fun listed => ?_, nodup⟩
            obtain ⟨arg, member, same⟩ := List.mem_map.mp listed
            have behind := (sound arg member).1
            rw [same, fdIs] at behind
            exact Nat.not_succ_le_self _ behind
          · rcases List.mem_cons.mp member with rfl | later
            · exact ⟨Nat.le_of_eq fdIs.symm, client.link, wired.linkAt_fd clientIs, rfl⟩
            · obtain ⟨behind, rest⟩ := sound arg later
              exact ⟨Nat.le_of_succ_le behind, rest⟩
          · rcases Nat.eq_or_lt_of_le behind with here | later
            · exact ⟨_, List.mem_cons_self, fdIs.trans here⟩
            · obtain ⟨arg, member, same⟩ := complete fd later live
              exact ⟨arg, List.mem_cons_of_mem _ member, same⟩

end Loop.Wired

variable {service : Service σ} {server : Server σ}

private theorem exec_io_others {fd other : Nat} {now : UInt64} {reads : List ReadResult}
    {writes : List WriteResult} {final : Server σ}
    (executed : (Event.io fd now reads writes).exec service server = .ok final)
    (apart : other ≠ fd) : final.fd2conn other = server.fd2conn other := by
  rw [Event.exec] at executed
  split at executed
  · cases executed
  · obtain ⟨w, -, whenEnded, whenStays⟩ := processConn_eq_ok executed
    by_cases ended : w.conn.state = .ended
    · rw [whenEnded ended, connDone, connMoved]
      simp only [Function.update_of_ne apart]
    · rw [whenStays ended, connMoved]
      simp only [Function.update_of_ne apart]

def wakes (ready : Nat → Option Wake) (args : List PollFd) : List Event :=
  args.filterMap fun arg => (ready arg.fd).map fun wake =>
    .io arg.fd wake.now wake.reads wake.writes

def Loop.Follows (service : Service σ) (server : Server σ) (events : List Event)
    (after : Loop σ) : Prop :=
  ∃ final, Runs (ServerStep service) server events final ∧ after.StandsFor final ∧ final.Good

theorem Loop.Follows.cons {middle : Server σ} {event : Event} {events : List Event}
    (step : ServerStep service server event middle)
    (rest : Loop.Follows service middle events after) :
    Loop.Follows service server (event :: events) after := by
  obtain ⟨final, run, standsFor, good⟩ := rest
  exact ⟨final, .cons step run, standsFor, good⟩

def StopsIn (service : Service σ) (server : Server σ) (events : List Event) (fault : Fault) :
    Prop :=
  ∃ done event rest middle, events = done ++ event :: rest ∧
    Runs (ServerStep service) server done middle ∧ event.Enabled middle ∧
    event.exec service middle = .error fault

theorem StopsIn.cons {middle : Server σ} {event : Event} {events : List Event} {fault : Fault}
    (step : ServerStep service server event middle)
    (stops : StopsIn service middle events fault) :
    StopsIn service server (event :: events) fault := by
  obtain ⟨done, last, rest, final, split, run, enabled, stopped⟩ := stops
  refine ⟨event :: done, last, rest, final, ?_, .cons step run, enabled, stopped⟩
  rw [split, List.cons_append]

theorem StopsIn.later {middle : Server σ} {events more : List Event} {fault : Fault}
    (run : Runs (ServerStep service) server events middle)
    (stops : StopsIn service middle more fault) :
    StopsIn service server (events ++ more) fault := by
  obtain ⟨done, last, rest, final, split, later, enabled, stopped⟩ := stops
  refine ⟨events ++ done, last, rest, final, ?_, run.append later, enabled, stopped⟩
  rw [split, List.append_assoc]

theorem StopsIn.append {events : List Event} {fault : Fault}
    (stops : StopsIn service server events fault) (more : List Event) :
    StopsIn service server (events ++ more) fault := by
  obtain ⟨done, last, rest, final, split, run, enabled, stopped⟩ := stops
  refine ⟨done, last, rest ++ more, final, ?_, run, enabled, stopped⟩
  rw [split, List.append_assoc, List.cons_append]

theorem Event.exec_stops {event : Event} (good : server.Good) (enabled : event.Enabled server)
    (rest : List Event) :
    Meets (StopsIn service server (event :: rest)) Server.Good (event.exec service server) := by
  have met := @Event.exec_spec σ service server event good enabled
  cases executed : event.exec service server with
  | error fault => exact ⟨[], event, rest, server, rfl, .nil server, enabled, executed⟩
  | ok after => exact met.of_ok executed

theorem StopsIn.faults {events : List Event} {fault : Fault} (good : server.Good)
    (stops : StopsIn service server events fault) : service.Faults fault := by
  obtain ⟨done, event, rest, middle, -, run, enabled, stopped⟩ := stops
  have middleGood := run.invariant (ServerStep.good service) good
  exact (Event.exec_spec middleGood enabled).of_error stopped

/-- No connection is closed before its turn comes. -/
theorem Loop.serveAll_spec {ready : Nat → Option Wake} {args : List PollFd}
    (standsFor : loop.StandsFor server) (good : server.Good) (nodup : (args.map PollFd.fd).Nodup)
    (live : ∀ arg ∈ args, (server.fd2conn arg.fd).isSome = true) :
    Meets (StopsIn service server (wakes ready args))
      (Loop.Follows service server (wakes ready args))
      (Loop.serveAll service ready args loop) := by
  induction args generalizing loop server with
  | nil => exact ⟨server, .nil server, standsFor, good⟩
  | cons arg args ih =>
      rw [List.map_cons, List.nodup_cons] at nodup
      have here := live arg List.mem_cons_self
      have others := fun later member => live later (List.mem_cons_of_mem arg member)
      rw [Loop.serveAll, wakes]
      cases woken : ready arg.fd with
      | none =>
          rw [List.filterMap_cons_none (by rw [woken]; rfl)]
          exact ih standsFor good nodup.2 others
      | some wake =>
          rw [List.filterMap_cons_some (by rw [woken]; rfl)]
          obtain ⟨ptrs, wired, rfl⟩ := standsFor
          have agrees := wired.serve_agrees service wake here
          have enabled : (Event.io arg.fd wake.now wake.reads wake.writes).Enabled
              (loop.server ptrs) := here
          apply (agrees.meets (Event.exec_stops good enabled _)).bind
          intro after served
          obtain ⟨middle, executed, middleStands, middleGood⟩ := served
          have step : ServerStep service (loop.server ptrs) _ middle := ⟨enabled, executed⟩
          apply Meets.mono ((ih middleStands middleGood nodup.2 fun later member => ?_).widen
            fun fault stops => stops.cons step)
          · exact fun final rest => rest.cons step
          · have apart : later.fd ≠ arg.fd := by
              intro same
              exact nodup.1 (List.mem_map.mpr ⟨later, member, same⟩)
            rw [exec_io_others executed apart]
            exact others later member

theorem Loop.Follows.append {events more : List Event} {final : Loop σ}
    (first : Loop.Follows service server events after)
    (rest : ∀ middle, after.StandsFor middle → middle.Good →
      Loop.Follows service middle more final) :
    Loop.Follows service server (events ++ more) final := by
  obtain ⟨middle, run, standsFor, good⟩ := first
  obtain ⟨last, more, lastStands, lastGood⟩ := rest middle standsFor good
  exact ⟨last, run.append more, lastStands, lastGood⟩

theorem Loop.turn_spec (standsFor : loop.StandsFor server) (good : server.Good)
    (polled : Polled) :
    ∃ args, loop.pollArgs loop.fd2conn = .ok args ∧
      Meets (StopsIn service server (wakes polled.ready args ++ [.timers polled.timersAt]))
        (Loop.Follows service server (wakes polled.ready args ++ [.timers polled.timersAt]))
        (loop.turn service polled) := by
  obtain ⟨ptrs, wired, rfl⟩ := standsFor
  obtain ⟨args, argsAre, nodup, sound, -⟩ := wired.pollArgs_spec (List.nil_append _).symm
  refine ⟨args, argsAre, ?_⟩
  rw [Loop.turn, argsAre, ok_bind]
  have live : ∀ arg ∈ args, ((loop.server ptrs).fd2conn arg.fd).isSome = true := by
    intro arg member
    obtain ⟨-, link, linkIs, -⟩ := sound arg member
    exact Option.isSome_iff_exists.mpr ⟨link, linkIs⟩
  apply ((Loop.serveAll_spec ⟨ptrs, wired, rfl⟩ good nodup live).widen
    fun _ stops => stops.append _).bind
  intro served follows
  obtain ⟨middle, run, ⟨kept, servedWired, rfl⟩, middleGood⟩ := follows
  have timed := (@Event.exec_stops σ service _ (.timers polled.timersAt) middleGood trivial
    []).widen fun _ => StopsIn.later run
  apply ((servedWired.processTimers_agrees service polled.timersAt).meets timed).mono
  intro final timersDone
  obtain ⟨last, executed, lastStands, lastGood⟩ := timersDone
  exact ⟨last, run.append (.cons ⟨trivial, executed⟩ (.nil last)), lastStands, lastGood⟩

/-- The event of a connection that is accepted, if `accept` and `malloc` have not failed. -/
def Incoming.events (incoming : Incoming) : List Event :=
  match incoming.accepted, incoming.allocated with
  | some fd, some _ => [.accept fd incoming.now]
  | _, _ => []

def Polled.events (polled : Polled) (args : List PollFd) : List Event :=
  wakes polled.ready args ++ [.timers polled.timersAt] ++
    polled.incoming.toList.flatMap Incoming.events

/-- `accept` returns a descriptor that is not open then and `malloc` an address that is not
in use. -/
def Polled.Fresh (service : Service σ) (loop : Loop σ) (polled : Polled) : Prop :=
  ∀ served, loop.turn service polled = .ok served → ∀ incoming ∈ polled.incoming,
    (LoopEvent.accept incoming.accepted incoming.allocated incoming.now).Enabled served

theorem Loop.accept_follows (standsFor : loop.StandsFor server) (good : server.Good)
    {incoming : Incoming}
    (enabled : (LoopEvent.accept incoming.accepted incoming.allocated incoming.now).Enabled
      loop) :
    Loop.Follows service server incoming.events
      (loop.acceptNewConn incoming.accepted incoming.allocated incoming.now).2 := by
  obtain ⟨accepted, allocated, now⟩ := incoming
  obtain ⟨free, new⟩ := enabled
  cases accepted with
  | none => exact ⟨server, .nil server, standsFor, good⟩
  | some fd =>
      cases allocated with
      | none => exact ⟨server, .nil server, standsFor, good⟩
      | some conn =>
          obtain ⟨ptrs, wired, rfl⟩ := standsFor
          have isFree := free fd rfl
          have isNew := new conn rfl
          have closed : (loop.server ptrs).fd2conn fd = none := by
            change (loop.slot fd).bind _ = none
            rw [isFree]
            rfl
          have step : ServerStep service (loop.server ptrs) (.accept fd now)
              (RedisC.acceptNewConn (loop.server ptrs) fd now) := ⟨closed, rfl⟩
          exact ⟨_, .cons step (.nil _), ⟨_, wired.acceptNewConn_spec isFree isNew now,
            wired.acceptNewConn_server isFree isNew now⟩, good.acceptNewConn closed now⟩

/-- A round is a run of events of the server, one for each connection that `poll` reports,
one for the timers and one for a new connection, and it stops only in one of them. -/
theorem Loop.round_spec (standsFor : loop.StandsFor server) (good : server.Good)
    {polled : Polled} (fresh : polled.Fresh service loop) :
    ∃ args, loop.pollArgs loop.fd2conn = .ok args ∧
      Meets (StopsIn service server (polled.events args))
        (Loop.Follows service server (polled.events args)) (loop.round service polled) := by
  obtain ⟨args, argsAre, turned⟩ := @Loop.turn_spec σ loop service server standsFor good polled
  refine ⟨args, argsAre, ?_⟩
  unfold Loop.round Polled.events
  cases returned : loop.turn service polled with
  | error fault => exact (turned.of_error returned).append _
  | ok served =>
      have follows := turned.of_ok returned
      rw [ok_bind]
      cases incomingIs : polled.incoming with
      | none =>
          rw [Option.toList_none, List.flatMap_nil, List.append_nil]
          exact follows
      | some incoming =>
          rw [Option.toList_some, List.flatMap_singleton]
          exact follows.append fun middle middleStands middleGood =>
            Loop.accept_follows middleStands middleGood
              (fresh served returned incoming incomingIs)

/-! ### Whole runs -/

/-- One round of `main` that returns. -/
def RoundStep (service : Service σ) (loop : Loop σ) (polled : Polled) (after : Loop σ) : Prop :=
  polled.Fresh service loop ∧ loop.round service polled = .ok after

def Loop.eventsOf (service : Service σ) : Loop σ → List Polled → List Event
  | _, [] => []
  | loop, polled :: rest =>
      match loop.pollArgs loop.fd2conn, loop.round service polled with
      | .ok args, .ok after => polled.events args ++ Loop.eventsOf service after rest
      | _, _ => []

theorem Loop.rounds_follow (standsFor : loop.StandsFor server) (good : server.Good)
    {trace : List Polled} {after : Loop σ} (run : Runs (RoundStep service) loop trace after) :
    Loop.Follows service server (loop.eventsOf service trace) after := by
  induction run generalizing server with
  | nil state => exact ⟨server, .nil server, standsFor, good⟩
  | cons head tail ih =>
      obtain ⟨fresh, returned⟩ := head
      obtain ⟨args, argsAre, rounded⟩ := Loop.round_spec standsFor good fresh
      rw [Loop.eventsOf, argsAre, returned]
      exact (rounded.of_ok returned).append fun middle middleStands middleGood =>
        ih middleStands middleGood

theorem Loop.start_follows {db : σ} {mem : ListPtr → DList ListPtr} {trace : List Polled}
    (run : Runs (RoundStep service) (Loop.start db mem) trace loop) :
    Loop.Follows service { db := db } ((Loop.start db mem).eventsOf service trace) loop :=
  Loop.rounds_follow (Loop.start_standsFor db mem) (Server.good_start db) run

/-- Whatever `poll` reports in each round, the pointers stand for a server that is reached
by the events of the rounds, and the next round, if all its writes return, only stops with a
fault of the database. -/
theorem rounds_follow_server (service : Service σ) (db : σ) (mem : ListPtr → DList ListPtr)
    {trace : List Polled} {loop : Loop σ}
    (run : Runs (RoundStep service) (Loop.start db mem) trace loop) :
    (∃ server, Runs (ServerStep service) { db := db }
        ((Loop.start db mem).eventsOf service trace) server ∧ loop.StandsFor server) ∧
      ∀ polled : Polled, polled.Fresh service loop →
        Meets service.Faults (fun _ => True) (loop.round service polled) := by
  obtain ⟨server, events, standsFor, good⟩ := Loop.start_follows run
  refine ⟨⟨server, events, standsFor⟩, fun polled fresh => ?_⟩
  obtain ⟨args, -, rounded⟩ := Loop.round_spec standsFor good fresh
  exact (rounded.widen fun _ stops => stops.faults good).mono fun _ _ => trivial

/-- In each round `poll` is given exactly the live connections, each once, and for input
exactly if a request is awaited. -/
theorem rounds_poll_live_connections (service : Service σ) (db : σ)
    (mem : ListPtr → DList ListPtr) {trace : List Polled} {loop : Loop σ}
    (run : Runs (RoundStep service) (Loop.start db mem) trace loop) :
    ∃ args, loop.pollArgs loop.fd2conn = .ok args ∧ (args.map PollFd.fd).Nodup ∧
      (∀ arg ∈ args, ∃ link, loop.linkAt arg.fd = some link ∧ arg.events = interest link.conn) ∧
      ∀ fd, (loop.linkAt fd).isSome = true → ∃ arg ∈ args, arg.fd = fd := by
  obtain ⟨server, -, ⟨ptrs, wired, -⟩, -⟩ := Loop.start_follows run
  obtain ⟨args, argsAre, nodup, sound, complete⟩ := wired.pollArgs_spec (List.nil_append _).symm
  exact ⟨args, argsAre, nodup, fun arg member => (sound arg member).2,
    fun fd live => complete fd (Nat.zero_le fd) live⟩

instance Polled.decidableFresh (service : Service σ) (loop : Loop σ) (polled : Polled) :
    Decidable (polled.Fresh service loop) :=
  match turned : loop.turn service polled, incomingIs : polled.incoming with
  | .error _, _ => .isTrue fun served returned => by
      rw [turned] at returned
      cases returned
  | .ok _, none => .isTrue fun _ _ incoming member => by
      rw [incomingIs] at member
      cases member
  | .ok served, some incoming =>
      decidable_of_iff
        ((LoopEvent.accept incoming.accepted incoming.allocated incoming.now).Enabled served)
        (by
          unfold Polled.Fresh
          rw [turned, incomingIs]
          constructor
          · intro enabled other same arrived member
            cases same
            cases member
            exact enabled
          · intro fresh
            exact fresh served rfl incoming rfl)

def roundNext (service : Service σ) : Loop σ → Polled → Option (Loop σ) :=
  guarded (fun loop polled => polled.Fresh service loop) fun loop polled =>
    loop.round service polled

theorem roundNext_sound (service : Service σ) (loop : Loop σ) (polled : Polled) (after : Loop σ)
    (stepped : roundNext service loop polled = some after) :
    RoundStep service loop polled after :=
  guarded_sound loop polled after stepped

end

def mainStart : Loop Db :=
  Loop.start { supply := fun i => ⟨UInt64.ofNat (i + 1), UInt64.ofNat (i + 1)⟩ }
    fun _ => ⟨.idleList, .idleList⟩

def fourRounds : List Polled :=
  [⟨fun _ => none, 0, some ⟨some 4, some 9, 1⟩⟩, ⟨fun _ => none, 2, some ⟨some 2, some 8, 3⟩⟩,
    ⟨fun fd => if fd = 4 then some ⟨4, [.data pipelined], [.wrote 100, .again]⟩
      else some ⟨5, [.data []], []⟩, 6, none⟩,
    ⟨fun _ => some ⟨7, [], [.wrote 1]⟩, 8, none⟩]

theorem rounds_follow_server_fourRounds :
    ∃ loop server, Runs (RoundStep (redis strtodOne)) mainStart fourRounds loop ∧
      Runs (ServerStep (redis strtodOne)) redisStart
        (mainStart.eventsOf (redis strtodOne) fourRounds) server ∧ loop.StandsFor server := by
  have followed : (follow (roundNext (redis strtodOne)) mainStart fourRounds).isSome = true := by
    decide +kernel
  obtain ⟨loop, run⟩ := runs_of_follow (roundNext_sound (redis strtodOne)) followed
  obtain ⟨⟨server, events, standsFor⟩, -⟩ := rounds_follow_server (redis strtodOne) _ _ run
  exact ⟨loop, server, run, events, standsFor⟩

theorem rounds_poll_live_connections_fourRounds :
    ∃ loop args, Runs (RoundStep (redis strtodOne)) mainStart fourRounds loop ∧
      loop.pollArgs loop.fd2conn = .ok args ∧ (args.map PollFd.fd).Nodup := by
  have followed : (follow (roundNext (redis strtodOne)) mainStart fourRounds).isSome = true := by
    decide +kernel
  obtain ⟨loop, run⟩ := runs_of_follow (roundNext_sound (redis strtodOne)) followed
  obtain ⟨args, argsAre, nodup, -⟩ := rounds_poll_live_connections (redis strtodOne) _ _ run
  exact ⟨loop, args, run, argsAre, nodup⟩

end RedisC
