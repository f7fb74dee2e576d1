/-
Connections over whole runs of the event loop.

The stream law and the bounds hold in every state that is reached.  That no
complete request is left in `rbuf` while the connection waits for input does not:
`connection_io` in `STATE_RES` sends what is left of the reply and goes back to
`STATE_REQ` without looking at `rbuf`.
-/

import RedisC.ConnectionScripts
import RedisC.EventLoop
import RedisC.KeyspaceRefinement

namespace RedisC

open Fallible LabelledRun

variable {σ : Type} {service : Service σ} {db : σ} {events : List Event} {server : Server σ}

theorem server_good (run : Runs (ServerStep service) { db := db } events server) : server.Good :=
  run.invariant (ServerStep.good service) (Server.good_start db)

/-! ### Runs that are followed -/

instance Event.decidableEnabled (server : Server σ) :
    (event : Event) → Decidable (event.Enabled server)
  | .io fd _ _ _ => inferInstanceAs (Decidable ((server.fd2conn fd).isSome = true))
  | .timers _ => .isTrue trivial
  | .accept fd _ =>
      decidable_of_iff ((server.fd2conn fd).isNone = true) Option.isNone_iff_eq_none

def serverNext (service : Service σ) : Server σ → Event → Option (Server σ) :=
  guarded Event.Enabled (Event.exec service)

theorem serverNext_sound (service : Service σ) (server : Server σ) (event : Event)
    (after : Server σ) (stepped : serverNext service server event = some after) :
    ServerStep service server event after :=
  guarded_sound server event after stepped

def redisStart : Server Db where
  db := { supply := fun i => ⟨UInt64.ofNat (i + 1), UInt64.ofNat (i + 1)⟩ }

def pipelined : Bytes :=
  frame (encodeReq [ascii "set", [97], [98]]) ++ frame (encodeReq [ascii "get", [97]])

def piecemeal : List Event :=
  [.accept 5 0, .io 5 1 [.data (pipelined.take 7), .intr, .data (pipelined.drop 7)]
      [.wrote 2, .again],
    .timers 2, .io 5 3 [] [.intr, .wrote 1, .wrote 100],
    .io 5 4 [.data (pipelined.take 3)] [.wrote 100]]

/-! ### The stream law -/

/-- Of every live connection: the bytes received are the frames of the requests
executed, each once and in order, followed by `rbuf`, and the bytes sent followed by
the rest of `wbuf` are the frames of their replies.  A further call of `connection_io`
records as received what `read` brings, as sent no more than `write` takes, and the calls by
which the database has changed. -/
theorem connections_obey_stream_law (service : Service σ) (db : σ) {events : List Event}
    {server : Server σ} (run : Runs (ServerStep service) { db := db } events server) {fd : Nat}
    {link : Link} (live : server.fd2conn fd = some link) :
    link.conn.state ≠ .ended ∧
      (∃ bodies, List.Forall₂ Requested bodies link.calls ∧
        link.received = frames bodies ++ link.conn.rbuf ∧
        link.sent ++ link.conn.unsent =
          frames (link.calls.map fun call => packReply call.2)) ∧
      ∀ now reads writes, Meets (RequestFault service.doRequest)
        (Serves service.doRequest (link.attach server.db reads writes))
        (connectionIo service.doRequest (link.attach server.db reads writes) now) := by
  have ready := (server_good run).ready fd link live
  rcases ready.sound.requests with ⟨bodies, executed, received⟩
  refine ⟨ready.live, ⟨bodies, executed, received, ready.sound.replies⟩, ?_⟩
  intro now reads writes
  apply ((connectionIo_spec (ready.attach server.db reads writes) now).and_of_ok
    (connectionIo_serves _ now)).mono
  intro w both
  exact both.2

def piecemealCalls : List (List Bytes × Bytes) :=
  [([ascii "set", [97], [98]], Value.nil.encode), ([ascii "get", [97]], (Value.str [98]).encode)]

theorem stream_law_piecemeal :
    ∃ server link bodies, Runs (ServerStep (redis strtodOne)) redisStart piecemeal server ∧
      server.fd2conn 5 = some link ∧ link.calls = piecemealCalls ∧
      List.Forall₂ Requested bodies piecemealCalls ∧
      link.received = frames bodies ++ link.conn.rbuf ∧
      link.received = pipelined ++ pipelined.take 3 ∧
      link.sent ++ link.conn.unsent =
        frames (piecemealCalls.map fun call => packReply call.2) ∧
      Meets (RequestFault (redis strtodOne).doRequest)
        (Serves (redis strtodOne).doRequest
          (link.attach server.db [.data (pipelined.drop 3)] [.wrote 100]))
        (connectionIo (redis strtodOne).doRequest
          (link.attach server.db [.data (pipelined.drop 3)] [.wrote 100]) 5) := by
  have followed : ((follow (serverNext (redis strtodOne)) redisStart piecemeal).any
      fun server => (server.fd2conn 5).any fun link =>
        link.calls = piecemealCalls ∧ link.received = pipelined ++ pipelined.take 3) = true := by
    decide +kernel
  rcases (Option.any_eq_true _ _).mp followed with ⟨server, serverIs, found⟩
  rcases (Option.any_eq_true _ _).mp found with ⟨link, linkIs, recorded⟩
  rcases of_decide_eq_true recorded with ⟨callsAre, receivedIs⟩
  have run := runs_of_follow_eq (serverNext_sound (redis strtodOne)) serverIs
  rcases connections_obey_stream_law (redis strtodOne) _ run linkIs with
    ⟨_, ⟨bodies, executed, received, replies⟩, later⟩
  rw [callsAre] at executed replies
  exact ⟨server, link, bodies, run, linkIs, callsAre, executed, received, receivedIs, replies,
    later 5 _ _⟩

/-! ### Bounds and assertions -/

/-- In every state that is reached the buffers are within bounds, a call of
`connection_io` observes the connection only as the code relies on, and an event fails
only where the database does. -/
theorem connections_stay_within_bounds (service : Service σ) (db : σ) {events : List Event}
    {server : Server σ} (run : Runs (ServerStep service) { db := db } events server) :
    (∀ fd link, server.fd2conn fd = some link →
      (link.conn.state = .req ∨ link.conn.state = .res) ∧ link.conn.Bounded ∧
        link.conn.rbuf.length < 4 + kMaxMsg ∧
        (∀ observed ∈ link.past, observed.2.Bounded ∧ observed.1.Allows observed.2) ∧
        ∀ now reads writes, Meets (RequestFault service.doRequest)
          (fun w => w.conn.Bounded ∧
            ∀ observed ∈ w.past, observed.2.Bounded ∧ observed.1.Allows observed.2)
          (connectionIo service.doRequest (link.attach server.db reads writes) now)) ∧
      ∀ event : Event, event.Enabled server →
        Meets service.Faults (fun _ => True) (event.exec service server) := by
  have good := server_good run
  constructor
  · intro fd link live
    have ready := good.ready fd link live
    refine ⟨?_, ready.sound.bounded, ready.room, ready.sound.past, ?_⟩
    · cases state : link.conn.state with
      | req => exact .inl rfl
      | res => exact .inr rfl
      | ended => exact absurd state ready.live
    · intro now reads writes
      apply (connectionIo_spec (ready.attach server.db reads writes) now).mono
      intro w done
      exact ⟨done.sound.bounded, done.sound.past⟩
  · intro event enabled
    exact (Event.exec_spec good enabled).mono fun _ _ => trivial

theorem within_bounds_piecemeal :
    ∃ server link, Runs (ServerStep (redis strtodOne)) redisStart piecemeal server ∧
      server.fd2conn 5 = some link ∧ link.past.map Prod.fst =
        [.fill, .filled, .fill, .filled, .pack, .packed, .flushed, .flushed, .flushed, .flushed,
          .fill, .filled, .pack, .packed, .flushed, .fill] ∧
      link.conn.Bounded ∧
      (∀ observed ∈ link.past, observed.2.Bounded ∧ observed.1.Allows observed.2) ∧
      Meets (redis strtodOne).Faults (fun _ => True)
        ((Event.io 5 5 [.data (pipelined.drop 3)] [.wrote 100]).exec (redis strtodOne)
          server) := by
  have followed : ((follow (serverNext (redis strtodOne)) redisStart piecemeal).any
      fun server => (server.fd2conn 5).any fun link => link.past.map Prod.fst =
        [.fill, .filled, .fill, .filled, .pack, .packed, .flushed, .flushed, .flushed, .flushed,
          .fill, .filled, .pack, .packed, .flushed, .fill]) = true := by
    decide +kernel
  rcases (Option.any_eq_true _ _).mp followed with ⟨server, serverIs, found⟩
  rcases (Option.any_eq_true _ _).mp found with ⟨link, linkIs, observedAt⟩
  have run := runs_of_follow_eq (serverNext_sound (redis strtodOne)) serverIs
  rcases connections_stay_within_bounds (redis strtodOne) _ run with ⟨bounds, exec⟩
  rcases bounds 5 link linkIs with ⟨_, bounded, _, past, _⟩
  have enabled : (Event.io 5 5 [.data (pipelined.drop 3)] [.wrote 100]).Enabled server := by
    change (server.fd2conn 5).isSome = true
    rw [linkIs]
    rfl
  exact ⟨server, link, run, linkIs, of_decide_eq_true observedAt, bounded, past,
    exec _ enabled⟩

/-! ### Requests that wait in `rbuf` -/

/-- No complete request waits in `rbuf` while the connection is polled for input. -/
def Server.NoneStranded (server : Server σ) : Prop :=
  ∀ fd link, server.fd2conn fd = some link → link.conn.state = .req →
    Incomplete link.conn.rbuf

/-- The event does not finish a reply with a complete request behind it: a connection in
`STATE_RES` whose `wbuf` is drained by the results of `write` has none in `rbuf`. -/
def Event.Avoids (server : Server σ) : Event → Prop
  | .io fd _ _ writes => ∀ link ∈ server.fd2conn fd, link.conn.state = .res →
      drains link.conn.unsent.length writes = true → Incomplete link.conn.rbuf
  | _ => True

theorem ServerStep.noneStranded {event : Event} {after : Server σ} (good : server.Good)
    (none : server.NoneStranded) (step : ServerStep service server event after)
    (avoids : event.Avoids server) : after.NoneStranded := by
  intro fd link live state
  cases step.origin live with
  | kept before => exact none fd link before state
  | opened now new =>
      rw [new]
      exact .inl (Nat.zero_lt_succ _)
  | served isIo before returned stays linkIs =>
      rename_i now reads writes old w
      subst isIo linkIs
      have ready := (good.ready fd old before).attach server.db reads writes
      have done := (connectionIo_spec ready now).of_ok returned
      cases oldState : old.conn.state with
      | req => exact done.handled oldState (none fd old before oldState) state
      | res =>
          rcases done.flushed oldState with ⟨same, drained⟩
          change Incomplete w.conn.rbuf
          rw [same]
          exact avoids old before oldState (drained.mp state)
      | ended => exact absurd oldState ready.live

/-- An event that does not avoid it strands a request. -/
theorem ServerStep.avoids {event : Event} {after : Server σ} (good : server.Good)
    (step : ServerStep service server event after) (none : after.NoneStranded) :
    event.Avoids server := by
  cases event with
  | timers now => trivial
  | accept fd now => trivial
  | io fd now reads writes =>
      intro old before oldState drained
      have executed := step.2
      have foundOld : server.fd2conn fd = some old := before
      rw [Event.exec, foundOld] at executed
      rcases processConn_eq_ok executed with ⟨w, returned, _, whenStays⟩
      have ready := (good.ready fd old before).attach server.db reads writes
      have done := (connectionIo_spec ready now).of_ok returned
      rcases done.flushed oldState with ⟨same, flushed⟩
      have state : w.conn.state = .req := flushed.mpr drained
      have stays : w.conn.state ≠ .ended := by
        rw [state]
        decide
      have live : after.fd2conn fd = some w.link := by
        rw [whenStays stays]
        exact Function.update_self ..
      have incomplete : Incomplete w.conn.rbuf := none fd w.link live state
      rw [same] at incomplete
      exact incomplete

structure Server.Clear (server : Server σ) : Prop where
  good : server.Good
  none : server.NoneStranded

theorem Server.Clear.step (service : Service σ) (before : Server σ) (event : Event)
    (after : Server σ) (clear : before.Clear)
    (step : ServerStep service before event after ∧ event.Avoids before) : after.Clear :=
  ⟨ServerStep.good service before event after clear.good step.1,
    step.1.noneStranded clear.good clear.none step.2⟩

/-- A run of events that all avoid it leaves no request stranded, and from its last state
an event leaves none exactly if it avoids it too. -/
theorem no_request_stranded (service : Service σ) (db : σ) {events : List Event}
    {server : Server σ}
    (run : Runs (fun before event after =>
      ServerStep service before event after ∧ event.Avoids before) { db := db } events server) :
    server.NoneStranded ∧
      ∀ event after, ServerStep service server event after →
        (after.NoneStranded ↔ event.Avoids server) := by
  have start : ({ db := db } : Server σ).Clear := by
    refine ⟨Server.good_start db, fun fd link live => ?_⟩
    cases live
  have clear := run.invariant (Server.Clear.step service) start
  refine ⟨clear.none, fun event after step => ⟨step.avoids clear.good, ?_⟩⟩
  exact step.noneStranded clear.good clear.none

instance (rbuf : Bytes) : Decidable (Incomplete rbuf) :=
  inferInstanceAs (Decidable (_ ∨ _))

instance Event.decidableAvoids (server : Server σ) :
    (event : Event) → Decidable (event.Avoids server)
  | .io fd _ _ writes => inferInstanceAs (Decidable (∀ link ∈ server.fd2conn fd,
      link.conn.state = .res → drains link.conn.unsent.length writes = true →
        Incomplete link.conn.rbuf))
  | .timers _ => .isTrue trivial
  | .accept _ _ => .isTrue trivial

def avoidingNext (service : Service σ) (server : Server σ) (event : Event) : Option (Server σ) :=
  if event.Avoids server then serverNext service server event else none

theorem avoidingNext_sound (service : Service σ) (server : Server σ) (event : Event)
    (after : Server σ) (stepped : avoidingNext service server event = some after) :
    ServerStep service server event after ∧ event.Avoids server := by
  unfold avoidingNext at stepped
  split at stepped
  · rename_i avoids
    exact ⟨serverNext_sound service server event after stepped, avoids⟩
  · cases stepped

def atOnce : List Event :=
  [.accept 5 0, .io 5 1 [.data pipelined] [.wrote 3, .wrote 100, .wrote 100]]

theorem no_request_stranded_at_once :
    ∃ server, Runs (fun before event after =>
        ServerStep (redis strtodOne) before event after ∧ event.Avoids before) redisStart atOnce
        server ∧ server.NoneStranded := by
  have followed : (follow (avoidingNext (redis strtodOne)) redisStart atOnce).isSome = true := by
    decide +kernel
  rcases runs_of_follow (avoidingNext_sound (redis strtodOne)) followed with ⟨server, run⟩
  exact ⟨server, run, (no_request_stranded (redis strtodOne) _ run).1⟩

def replyWaits : List Event :=
  [.accept 5 0, .io 5 1 [.data pipelined] [.again], .io 5 2 [] [.wrote 100]]

theorem request_stranded_behind_waiting_reply :
    ∃ server, Runs (ServerStep (redis strtodOne)) redisStart replyWaits server ∧
      ¬server.NoneStranded := by
  have followed : ((follow (serverNext (redis strtodOne)) redisStart replyWaits).any
      fun server => (server.fd2conn 5).any fun link =>
        decide (link.conn.state = .req ∧ ¬Incomplete link.conn.rbuf)) = true := by
    decide +kernel
  rcases (Option.any_eq_true _ _).mp followed with ⟨server, serverIs, found⟩
  rcases (Option.any_eq_true _ _).mp found with ⟨link, linkIs, stranded⟩
  have both := of_decide_eq_true stranded
  refine ⟨server, runs_of_follow_eq (serverNext_sound (redis strtodOne)) serverIs, ?_⟩
  intro none
  exact both.2 (none 5 link linkIs both.1)

end RedisC
