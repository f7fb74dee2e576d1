/-
All connections are served from one sequential history.

The event loop handles one request at a time, so the requests of all connections
and the expiries have one order.  In this order the database answers as if there
were no connections at all, and each connection sees the part of the history that is
its own since it was accepted.
-/

import RedisC.MainLoop
import RedisC.StoredSizes

namespace RedisC

open Fallible LabelledRun PartialMap

variable {σ : Type}

/-! ### Where a fault comes from -/

section

variable {doRequest other : σ → List Bytes → Except Fault (σ × Bytes)} {w after : World σ}


def Leads (doRequest : σ → List Bytes → Except Fault (σ × Bytes)) (w : World σ) (db : σ) :
    Prop :=
  ∃ after, Serves doRequest w after ∧ after.db = db

def Alike (doRequest other : σ → List Bytes → Except Fault (σ × Bytes)) (w : World σ) : Prop :=
  ∀ db cmd, Leads doRequest w db → doRequest db cmd = other db cmd

theorem Alike.later (alike : Alike doRequest other w) (served : Serves doRequest w after) :
    Alike doRequest other after := by
  intro db cmd leads
  obtain ⟨last, later, dbIs⟩ := leads
  exact alike db cmd ⟨last, served.trans later, dbIs⟩

private theorem execute_alike (alike : Alike doRequest other w) (body : Bytes) :
    execute doRequest w body = execute other w body := by
  have same : ∀ cmd, doRequest w.db cmd = other w.db cmd :=
    fun cmd => alike w.db cmd ⟨w, Silent.refl.serves, rfl⟩
  unfold execute
  simp only [same]

private theorem tryOneRequest_alike (alike : Alike doRequest other w) :
    tryOneRequest doRequest w = tryOneRequest other w := by
  unfold tryOneRequest
  simp only [execute_alike alike]

/-- Two loops are the same if their first parts are and so are the rests. -/
private theorem bind_congr_of_meets {α β : Type} {run : Except Fault α} {post : α → Prop}
    {next nextToo : α → Except Fault β} (met : Meets (fun _ => True) post run)
    (same : ∀ value, post value → next value = nextToo value) :
    (run >>= next) = (run >>= nextToo) := by
  cases run with
  | error fault => rfl
  | ok value => exact same value met

private theorem requestLoop_alike (fuel : Nat) (alike : Alike doRequest other w) :
    requestLoop doRequest fuel w = requestLoop other fuel w := by
  induction fuel generalizing w with
  | zero => rfl
  | succ fuel ih =>
      rw [requestLoop, requestLoop, ← tryOneRequest_alike alike]
      apply bind_congr_of_meets (tryOneRequest_serves w)
      intro result served
      obtain ⟨more, middle⟩ := result
      cases more with
      | false => rfl
      | true => exact ih (alike.later served)

private theorem filled_alike {bytes : Bytes}
    (alike : Alike doRequest other (observe .filled (receive w bytes))) :
    filled doRequest w bytes = filled other w bytes := by
  unfold filled
  dsimp only
  rw [requestLoop_alike _ alike]

private theorem tryFillBuffer_alike (alike : Alike doRequest other w) :
    tryFillBuffer doRequest w = tryFillBuffer other w := by
  have took := arriving_sysRead (rbufCap - w.conn.rbuf.length) w.reads
  change (if _ then afterRead doRequest (observe .fill w)
      (sysRead (rbufCap - w.conn.rbuf.length) w.reads) else _) =
    if _ then afterRead other (observe .fill w)
      (sysRead (rbufCap - w.conn.rbuf.length) w.reads) else _
  generalize sysRead (rbufCap - w.conn.rbuf.length) w.reads = got at took
  obtain ⟨result, reads⟩ := got
  cases result with
  | again => rfl
  | intr => rfl
  | error => rfl
  | data bytes =>
      cases bytes with
      | nil => rfl
      | cons byte bytes =>
          by_cases room : (observe .fill w).conn.rbuf.length < rbufCap
          · rw [if_pos room, if_pos room]
            exact filled_alike (alike.later (filling_serves took))
          · rw [if_neg room, if_neg room]

private theorem stateReqLoop_alike (fuel : Nat) (alike : Alike doRequest other w) :
    stateReqLoop doRequest fuel w = stateReqLoop other fuel w := by
  induction fuel generalizing w with
  | zero => rfl
  | succ fuel ih =>
      rw [stateReqLoop, stateReqLoop, ← tryFillBuffer_alike alike]
      apply bind_congr_of_meets (tryFillBuffer_serves w)
      intro result served
      obtain ⟨more, middle⟩ := result
      cases more with
      | false => rfl
      | true => exact ih (alike.later served)

private theorem connectionIo_alike (alike : Alike doRequest other w) (now : UInt64) :
    connectionIo doRequest w now = connectionIo other w now := by
  unfold connectionIo
  split
  · exact stateReqLoop_alike _ (alike.later (wake_serves w now))
  · rfl
  · rfl

/-- `connection_io` stops only if a request does, on a database that the connection leads
to. -/
private theorem connectionIo_blames (ready : Ready w) (now : UInt64) :
    Meets (fun fault => ∃ db cmd, Leads doRequest w db ∧ doRequest db cmd = .error fault)
      (IoDone w) (connectionIo doRequest w now) := by
  classical
  -- nothing is known of the requests on other databases, so let them all return
  have alike : Alike doRequest (fun db cmd =>
      if Leads doRequest w db then doRequest db cmd else .ok (db, [])) w := by
    intro db cmd leads
    exact (if_pos leads).symm
  rw [connectionIo_alike alike now]
  apply (connectionIo_spec ready now).widen
  intro fault stopped
  obtain ⟨db, cmd, refused⟩ := stopped
  dsimp only at refused
  split at refused
  · rename_i leads
    exact ⟨db, cmd, leads, refused⟩
  · cases refused

end

/-! ### The history of the server -/

/-- What happens in the server, as the database sees it. -/
inductive Action
  | opened (fd : Nat)
  | call (fd : Nat) (cmd : List Bytes) (out : Bytes)
  | expire (now : UInt64)
  deriving DecidableEq, Repr

def Action.isCall : Action → Bool
  | .call _ _ _ => true
  | _ => false

def ServiceStep (service : Service σ) (db : σ) : Action → σ → Prop
  | .opened _, after => after = db
  | .call _ cmd out, after => service.doRequest db cmd = .ok (after, out)
  | .expire now, after => service.expire db now = .ok after

/-- The calls that `connection_io` has made for `fd`, when it returns. -/
def callsMade (fd : Nat) (before : Link) : Except Fault (World σ) → List Action
  | .ok w => (w.calls.drop before.calls.length).map fun call => .call fd call.1 call.2
  | .error _ => []

def Event.actions (service : Service σ) (server : Server σ) : Event → List Action
  | .io fd now reads writes =>
      match server.fd2conn fd with
      | none => []
      | some link =>
          callsMade fd link
            (connectionIo service.doRequest (link.attach server.db reads writes) now)
  | .timers now => [.expire now]
  | .accept fd _ => [.opened fd]

/-- What a run does to the database, in the order of its events. -/
def history (service : Service σ) : Server σ → List Event → List Action
  | _, [] => []
  | server, event :: rest =>
      event.actions service server ++
        match event.exec service server with
        | .ok after => history service after rest
        | .error _ => []

def Action.Framed : Action → Prop
  | .call _ cmd out => ∃ body, Requested body (cmd, out)
  | _ => True

/-- The calls of `fd` after one more action. -/
def record (fd : Nat) (calls : List (List Bytes × Bytes)) : Action → List (List Bytes × Bytes)
  | .opened other => if other = fd then [] else calls
  | .call other cmd out => if other = fd then calls ++ [(cmd, out)] else calls
  | .expire _ => calls

/-- The calls of `fd` since it was last accepted. -/
def session (fd : Nat) (actions : List Action) : List (List Bytes × Bytes) :=
  actions.foldl (record fd) []

def Server.Recorded (server : Server σ) (actions : List Action) : Prop :=
  ∀ fd link, server.fd2conn fd = some link → link.calls = session fd actions

section

variable {service : Service σ} {server after : Server σ} {earlier : List Action}

theorem session_append (fd : Nat) (actions more : List Action) :
    session fd (actions ++ more) = more.foldl (record fd) (session fd actions) :=
  List.foldl_append

private theorem record_calls (fd : Nat) (made calls : List (List Bytes × Bytes)) :
    (made.map fun call => Action.call fd call.1 call.2).foldl (record fd) calls =
      calls ++ made := by
  induction made generalizing calls with
  | nil => exact (List.append_nil calls).symm
  | cons call made ih =>
      rw [List.map_cons, List.foldl_cons, record, if_pos rfl, ih, List.append_assoc]
      rfl

private theorem record_others {fd other : Nat} (apart : other ≠ fd)
    (made calls : List (List Bytes × Bytes)) :
    (made.map fun call => Action.call other call.1 call.2).foldl (record fd) calls = calls := by
  induction made generalizing calls with
  | nil => rfl
  | cons call made ih => rw [List.map_cons, List.foldl_cons, record, if_neg apart, ih]

private theorem runs_of_calls (fd : Nat) {made : List (List Bytes × Bytes)} {db last : σ}
    (run : Runs (CallStep service.doRequest) db made last) :
    Runs (ServiceStep service) db (made.map fun call => Action.call fd call.1 call.2) last := by
  induction run with
  | nil state => exact .nil _
  | cons head tail ih => exact .cons head ih

private theorem closeIdle_db {nowUs : UInt64} {fds : List Nat}
    (closed : closeIdle nowUs fds server = .ok after) : after.db = server.db := by
  induction fds generalizing server with
  | nil =>
      cases closed
      rfl
  | cons fd rest ih =>
      rw [closeIdle] at closed
      split at closed
      · cases closed
      · split at closed
        · cases closed
          rfl
        · rw [ih closed]
          rfl

private theorem framed_of_forall₂ {bodies : List Bytes} {made : List (List Bytes × Bytes)}
    (framed : List.Forall₂ Requested bodies made) (fd : Nat) :
    ∀ action ∈ made.map fun call => Action.call fd call.1 call.2, action.Framed := by
  induction framed with
  | nil =>
      intro action member
      cases member
  | cons first rest ih =>
      intro action member
      rcases List.mem_cons.mp member with isFirst | later
      · rw [isFirst]
        exact ⟨_, first⟩
      · exact ih action later

/-- One event: its actions lead the database from one state to the other and extend the
sessions. -/
theorem ServerStep.acts {event : Event} (step : ServerStep service server event after)
    (recorded : server.Recorded earlier) :
    Runs (ServiceStep service) server.db (event.actions service server) after.db ∧
      after.Recorded (earlier ++ event.actions service server) ∧
      ∀ action ∈ event.actions service server, action.Framed := by
  obtain ⟨-, executed⟩ := step
  cases event with
  | io fd now reads writes =>
      rw [Event.exec] at executed
      rw [Event.actions]
      cases before : server.fd2conn fd with
      | none =>
          rw [before] at executed
          cases executed
      | some old =>
          rw [before] at executed
          obtain ⟨w, returned, whenEnded, whenStays⟩ := processConn_eq_ok executed
          obtain ⟨bodies, made, served⟩ := (connectionIo_serves _ now).of_ok returned
          have calls : w.calls = old.calls ++ made := served.calls
          have actionsAre : callsMade fd old (connectionIo service.doRequest
              (old.attach server.db reads writes) now) =
              made.map fun call => Action.call fd call.1 call.2 := by
            rw [returned, callsMade, calls, List.drop_left]
          dsimp only
          rw [actionsAre]
          have callsOld : old.calls = session fd earlier := recorded fd old before
          have sessionNew : ∀ other, session other (earlier ++
              made.map fun call => Action.call fd call.1 call.2) =
              if other = fd then w.calls else session other earlier := by
            intro other
            rw [session_append]
            by_cases same : other = fd
            · rw [if_pos same, same, record_calls, calls, ← callsOld]
            · rw [if_neg same, record_others (Ne.symm same)]
          refine ⟨?_, ?_, framed_of_forall₂ served.framed fd⟩
          · have dbIs : after.db = w.db := by
              by_cases ended : w.conn.state = .ended
              · rw [whenEnded ended]
                rfl
              · rw [whenStays ended]
                rfl
            rw [dbIs]
            exact runs_of_calls fd served.run
          · intro other link live
            rw [sessionNew]
            by_cases ended : w.conn.state = .ended
            · rw [whenEnded ended] at live
              rcases update_eq_some live with ⟨_, contrary⟩ | ⟨apart, later⟩
              · cases contrary
              · rcases update_eq_some later with ⟨same, _⟩ | ⟨_, kept⟩
                · exact absurd same apart
                · rw [if_neg apart]
                  exact recorded other link kept
            · rw [whenStays ended] at live
              rcases update_eq_some live with ⟨same, linkIs⟩ | ⟨apart, kept⟩
              · rw [if_pos same, ← Option.some.inj linkIs]
                rfl
              · rw [if_neg apart]
                exact recorded other link kept
  | timers now =>
      obtain ⟨closed, closedEq, rest⟩ := bind_eq_ok executed
      obtain ⟨db, expired, final⟩ := bind_eq_ok rest
      cases final
      refine ⟨?_, ?_, ?_⟩
      · rw [closeIdle_db closedEq] at expired
        exact .cons expired (.nil _)
      · intro fd link live
        rw [session_append]
        exact recorded fd link (closeIdle_kept closedEq live)
      · intro action member
        rw [List.mem_singleton.mp member]
        trivial
  | accept fd now =>
      cases executed
      refine ⟨.cons rfl (.nil _), ?_, ?_⟩
      · intro other link live
        rw [Event.actions, session_append, List.foldl_cons, List.foldl_nil, record]
        rcases update_eq_some live with ⟨same, linkIs⟩ | ⟨apart, kept⟩
        · rw [if_pos same.symm, ← Option.some.inj linkIs]
        · rw [if_neg (Ne.symm apart)]
          exact recorded other link kept
      · intro action member
        rw [List.mem_singleton.mp member]
        trivial

theorem server_history {trace : List Event} (run : Runs (ServerStep service) server trace after)
    (recorded : server.Recorded earlier) :
    Runs (ServiceStep service) server.db (history service server trace) after.db ∧
      after.Recorded (earlier ++ history service server trace) ∧
      ∀ action ∈ history service server trace, action.Framed := by
  induction run generalizing earlier with
  | nil state =>
      refine ⟨.nil _, ?_, ?_⟩
      · rw [history, List.append_nil]
        exact recorded
      · intro action member
        cases member
  | cons head tail ih =>
      obtain ⟨first, recordedNext, framed⟩ := head.acts recorded
      obtain ⟨rest, recordedLast, framedLater⟩ := ih recordedNext
      rw [history, head.2]
      refine ⟨first.append rest, ?_, ?_⟩
      · rw [List.append_assoc] at recordedLast
        exact recordedLast
      · intro action member
        rcases List.mem_append.mp member with early | late
        · exact framed action early
        · exact framedLater action late

theorem Server.recorded_start (db : σ) : ({ db := db } : Server σ).Recorded [] := by
  intro fd link live
  cases live

/-- The bytes of a live connection, by what it has called. -/
def Link.Speaks (link : Link) (calls : List (List Bytes × Bytes)) : Prop :=
  (∃ bodies, List.Forall₂ Requested bodies calls ∧
      link.received = frames bodies ++ link.conn.rbuf) ∧
    link.sent ++ link.conn.unsent = frames (calls.map fun call => packReply call.2)

theorem Server.Recorded.speaks {db : σ} {trace : List Event}
    (run : Runs (ServerStep service) { db := db } trace server) {actions : List Action}
    (recorded : server.Recorded actions) {fd : Nat} {link : Link}
    (live : server.fd2conn fd = some link) : link.Speaks (session fd actions) := by
  have ready := (server_good run).ready fd link live
  rw [← recorded fd link live]
  exact ⟨ready.sound.requests, ready.sound.replies⟩

end

/-- All connections are served from one sequential history of the database, in the order of
the events: the bytes of each connection are the requests and the replies of its session. -/
theorem server_serializable (service : Service σ) {db : σ} {trace : List Event}
    {server : Server σ} (run : Runs (ServerStep service) { db := db } trace server) :
    Runs (ServiceStep service) db (history service { db := db } trace) server.db ∧
      ∀ fd link, server.fd2conn fd = some link →
        link.Speaks (session fd (history service { db := db } trace)) := by
  obtain ⟨actions, recorded, -⟩ := server_history run (Server.recorded_start db)
  exact ⟨actions, fun fd link live => recorded.speaks run live⟩

def twoClients : List Event :=
  [.accept 5 0, .accept 6 0, .io 5 1 [.data (pipelined.take 7)] [],
    .io 6 2 [.data (frame (encodeReq [ascii "get", [97]]))] [.wrote 100],
    .io 5 3 [.data (pipelined.drop 7)] [.wrote 100, .wrote 100], .timers 4,
    .io 5 5 [.data []] [], .accept 5 6, .io 5 7 [.data pipelined] [.wrote 100]]

theorem server_serializable_twoClients :
    ∃ server, Runs (ServerStep (redis strtodOne)) redisStart twoClients server ∧
      Runs (ServiceStep (redis strtodOne)) redisStart.db
        (history (redis strtodOne) redisStart twoClients) server.db ∧
      ∀ fd link, server.fd2conn fd = some link →
        link.Speaks (session fd (history (redis strtodOne) redisStart twoClients)) := by
  have followed : (follow (serverNext (redis strtodOne)) redisStart twoClients).isSome = true := by
    decide +kernel
  obtain ⟨server, run⟩ := runs_of_follow (serverNext_sound (redis strtodOne)) followed
  exact ⟨server, run, server_serializable (redis strtodOne) run⟩

/-! ### What stops an event -/

/-- The actions that an event may have done when it stops: requests in the bytes that are
there or arrive, in order. -/
def Event.Began (server : Server σ) (actions : List Action) : Event → Prop
  | .io fd _ reads _ => ∃ link bodies made more, server.fd2conn fd = some link ∧
      List.Forall₂ Requested bodies made ∧
      link.conn.rbuf ++ arriving reads = frames bodies ++ more ∧
      actions = made.map fun call => .call fd call.1 call.2
  | _ => actions = []

theorem Event.Began.framed {server : Server σ} {event : Event} {actions : List Action}
    (began : event.Began server actions) : ∀ action ∈ actions, action.Framed := by
  cases event with
  | io fd now reads writes =>
      obtain ⟨link, bodies, made, more, -, framed, -, actionsAre⟩ := began
      rw [actionsAre]
      exact framed_of_forall₂ framed fd
  | timers now =>
      rw [show actions = [] from began]
      intro action member
      cases member
  | accept fd now =>
      rw [show actions = [] from began]
      intro action member
      cases member

theorem Event.exec_blames {service : Service σ} {server : Server σ} (good : server.Good)
    {event : Event} (enabled : event.Enabled server) :
    Meets (fun fault => ∃ actions last, event.Began server actions ∧
        Runs (ServiceStep service) server.db actions last ∧
        ((∃ cmd, service.doRequest last cmd = .error fault) ∨
          ∃ now, service.expire last now = .error fault))
      (fun _ => True) (event.exec service server) := by
  cases event with
  | io fd now reads writes =>
      obtain ⟨link, live⟩ := Option.isSome_iff_exists.mp enabled
      rw [Event.exec]
      simp only [live]
      have attached := (good.ready fd link live).attach server.db reads writes
      refine Meets.bind ((connectionIo_blames attached now).widen ?_) (fun _ _ => trivial)
      intro fault stopped
      obtain ⟨db, cmd, ⟨after, ⟨bodies, made, served⟩, dbIs⟩, refused⟩ := stopped
      have actions := runs_of_calls fd served.run
      rw [dbIs] at actions
      exact ⟨_, db, ⟨link, bodies, made, _, live, served.framed, served.taken, rfl⟩, actions,
        .inl ⟨cmd, refused⟩⟩
  | timers now =>
      have closes : Meets (fun _ => False) Server.Good
          (closeIdle (now + 1000) server.idleList server) := closeIdle_spec good rfl
      obtain ⟨closed, closedEq, -⟩ := closes.returns
      change Meets _ _ (closeIdle (now + 1000) server.idleList server >>= _)
      rw [closedEq, ok_bind]
      cases expired : service.expire closed.db now with
      | error fault =>
          rw [closeIdle_db closedEq] at expired
          exact ⟨[], server.db, rfl, .nil _, .inr ⟨now, expired⟩⟩
      | ok db => trivial
  | accept fd now => trivial

/-! ### The dictionary behind the server -/

/-- The server with an allocator that never returns an address that is in use.  A run in
which it would have to is stopped. -/
def redisSupplied (strtod : Strtod) (refusal : Fault) : Service Db where
  doRequest := fun db cmd =>
    if (db.supply 0).Unused db.g then (redis strtod).doRequest db cmd else .error refusal
  expire := (redis strtod).expire

/-- A sequential dictionary without expiry. -/
def DictStep (strtod : Strtod) (dict : Dict) : Action → Dict → Prop
  | .call _ cmd out, after => ∃ value, out = Value.encode value ∧
      (Reference.request strtod dict cmd).2.Admits dict value ∧
      after = (Reference.request strtod dict cmd).1
  | .opened _, after => after = dict
  | .expire _, after => after = dict

structure Db.Plain (db : Db) (dict : Dict) : Prop where
  represents : ∃ ents, db.g.Represents ents dict (fun _ => none)
  short : EachRecord (fun record => record.val.length ≤ kMaxMsg) dict

section

variable {strtod : Strtod} {refusal : Fault} {db after : Db} {dict : Dict}

theorem processTtlTimers_of_undated {g : GData} {ents : List Ptr}
    (represents : g.Represents ents dict (fun _ => none)) (now : UInt64) :
    processTtlTimers g now = .ok g := by
  have empty : g.timers.heap = [] := by
    cases heapIs : g.timers.heap with
    | nil => rfl
    | cons first others =>
        have inHeap : first ∈ g.timers.heap := by
          rw [heapIs]
          exact List.mem_cons_self
        cases (represents.ref_mem inHeap).2
  rw [processTtlTimers, expireLoop, empty]

private theorem dueRequest_none (cmd : List Bytes) :
    dueRequest (fun _ => none) cmd = fun _ => none := by
  unfold dueRequest
  split
  · split
    · rfl
    · split
      · exact Function.update_eq_self _ _
      · rfl
  · rfl

theorem Db.Plain.step {action : Action} (plain : db.Plain dict)
    (step : ServiceStep (redisSupplied strtod refusal) db action after) (framed : action.Framed) :
    ∃ dictNew, DictStep strtod dict action dictNew ∧ after.Plain dictNew := by
  obtain ⟨ents, represents⟩ := plain.represents
  cases action with
  | opened fd =>
      rw [show after = db from step]
      exact ⟨dict, rfl, plain⟩
  | call fd cmd out =>
      change (if _ then _ else _) = _ at step
      split at step
      · rename_i unused
        obtain ⟨⟨g, reply⟩, returned, final⟩ := bind_eq_ok step
        cases final
        obtain ⟨body, requested⟩ := framed
        obtain ⟨value, admitted, ⟨entsNew, representsNew⟩, written⟩ :=
          (doRequest_keeps_due strtod represents (unused.fresh represents) cmd).of_ok returned
        rw [dueRequest_none] at representsNew
        refine ⟨_, ⟨value, written, admitted, rfl⟩, ⟨entsNew, representsNew⟩, ?_⟩
        intro key record found
        exact shortValues_kept strtod dict body cmd key record requested.short requested.parsed
          plain.short (request_origin found)
      · cases step
  | expire now =>
      obtain ⟨g, expired, final⟩ := bind_eq_ok step
      cases final
      rw [processTtlTimers_of_undated represents now] at expired
      cases expired
      exact ⟨dict, rfl, plain⟩

theorem Db.Plain.history {history : List Action}
    (run : Runs (ServiceStep (redisSupplied strtod refusal)) db history after)
    (plain : db.Plain dict) (framed : ∀ action ∈ history, action.Framed) :
    ∃ dictNew, Runs (DictStep strtod) dict history dictNew ∧ after.Plain dictNew := by
  induction run generalizing dict with
  | nil state => exact ⟨dict, .nil _, plain⟩
  | cons head tail ih =>
      obtain ⟨middle, step, plainMiddle⟩ := plain.step head (framed _ List.mem_cons_self)
      obtain ⟨last, rest, plainLast⟩ :=
        ih plainMiddle fun action member => framed action (List.mem_cons_of_mem _ member)
      exact ⟨last, .cons step rest, plainLast⟩

/-- What stops a request of a plain database. -/
theorem Db.Plain.stops (plain : db.Plain dict) {cmd : List Bytes} {fault : Fault}
    (refused : (redisSupplied strtod refusal).doRequest db cmd = .error fault) :
    fault = refusal ∨ fault = .spin ∨ ∃ key record, dict key = some record ∧ record.Huge := by
  obtain ⟨ents, represents⟩ := plain.represents
  change (if _ then _ else _) = _ at refused
  split at refused
  · rename_i unused
    have met := doRequest_keeps_due strtod represents (unused.fresh represents) cmd
    cases executed : doRequest strtod db.g (db.supply 0) cmd [] with
    | ok result =>
        change (doRequest strtod db.g (db.supply 0) cmd [] >>= _) = _ at refused
        rw [executed] at refused
        cases refused
    | error stopped =>
        change (doRequest strtod db.g (db.supply 0) cmd [] >>= _) = _ at refused
        rw [executed] at refused met
        cases refused
        cases met with
        | spin => exact .inr (.inl rfl)
        | longValue isGet found long => exact absurd (plain.short _ _ found) (Nat.not_le.mpr long)
        | hugeSet isZquery found huge => exact .inr (.inr ⟨_, _, found, huge⟩)
  · cases refused
    exact .inl rfl

theorem Db.plain_start (supply : Nat → Alloc) :
    ({ supply := supply } : Db).Plain (fun _ => none) :=
  ⟨⟨[], GData.Represents.empty⟩, eachRecord_empty _⟩

def Record.Few (count : Nat) (record : Record) : Prop :=
  ∃ names : List Bytes, (∀ name, (record.members name).isSome = true → name ∈ names) ∧
    names.length ≤ count

theorem Record.Few.of_subset {count : Nat} {old record : Record} (few : old.Few count)
    (fewer : ∀ name, (record.members name).isSome = true → (old.members name).isSome = true) :
    record.Few count := by
  obtain ⟨names, covers, length⟩ := few
  exact ⟨names, fun name present => covers name (fewer name present), length⟩

theorem Record.Few.succ {count : Nat} {record : Record} (few : record.Few count) :
    record.Few (count + 1) := by
  obtain ⟨names, covers, length⟩ := few
  exact ⟨names, covers, Nat.le_succ_of_le length⟩

theorem Record.few_new (count : Nat) (type : EntryType) :
    ({ type := type } : Record).Few count := by
  refine ⟨[], fun name present => ?_, Nat.zero_le _⟩
  cases present

theorem Record.Few.addMember {count : Nat} {old : Record} (few : old.Few count) (name : Bytes)
    (score : Score) : (Reference.addMember old name score).Few (count + 1) := by
  obtain ⟨names, covers, length⟩ := few
  refine ⟨name :: names, fun other present => ?_, Nat.succ_le_succ length⟩
  by_cases same : other = name
  · rw [same]
    exact List.mem_cons_self
  · change (Function.update old.members name _ other).isSome = true at present
    rw [Function.update_of_ne same] at present
    exact List.mem_cons_of_mem _ (covers other present)

/-- A request adds at most one member, and nothing else adds one. -/
theorem DictStep.few {action : Action} {dictNew : Dict} (step : DictStep strtod dict action dictNew)
    {count : Nat} (few : EachRecord (Record.Few count) dict) :
    EachRecord (Record.Few (count + if action.isCall then 1 else 0)) dictNew := by
  cases action with
  | opened fd =>
      rw [show dictNew = dict from step]
      exact few
  | expire now =>
      rw [show dictNew = dict from step]
      exact few
  | call fd cmd out =>
      obtain ⟨value, -, -, dictIs⟩ := step
      intro key record found
      change record.Few (count + 1)
      rw [dictIs] at found
      cases request_origin found with
      | kept _ was => exact (few key record was).succ
      | set isSet source is =>
          rename_i word val old
          have fewOld : old.Few count := by
            rcases source with was | ⟨-, new⟩
            · exact few key old was
            · rw [new]
              exact Record.few_new count _
          rw [is]
          exact (fewOld.of_subset fun _ present => present).succ
      | zadd isZadd parsed source is =>
          rename_i word scoreText name score old
          have fewOld : old.Few count := by
            rcases source with ⟨was, -⟩ | ⟨-, new⟩
            · exact few key old was
            · rw [new]
              exact Record.few_new count _
          rw [is]
          exact fewOld.addMember name score
      | zrem isZrem was type is =>
          rename_i word name old
          rw [is]
          apply Record.Few.succ
          refine (few key old was).of_subset ?_
          intro other present
          change (Function.update old.members name none other).isSome = true at present
          by_cases same : other = name
          · rw [same, Function.update_self] at present
            cases present
          · rw [Function.update_of_ne same] at present
            exact present

theorem few_of_runs {actions : List Action} {dictNew : Dict}
    (run : Runs (DictStep strtod) dict actions dictNew) {count : Nat}
    (few : EachRecord (Record.Few count) dict) :
    EachRecord (Record.Few (count + actions.countP Action.isCall)) dictNew := by
  induction run generalizing count with
  | nil state => exact few
  | cons head tail ih =>
      have later := ih (head.few few)
      rw [Nat.add_right_comm, Nat.add_assoc, ← List.countP_cons] at later
      exact later

theorem Record.Huge.le {record : Record} (huge : record.Huge) {count : Nat}
    (few : record.Few count) : 2 ^ 32 ≤ count := by
  obtain ⟨names, covers, length⟩ := few
  exact (huge names covers).trans length

end

section

variable {strtod : Strtod} {refusal : Fault} {supply : Nat → Alloc} {trace : List Event}
  {server : Server Db}

theorem dictionary_of_run
    (run : Runs (ServerStep (redisSupplied strtod refusal)) { db := { supply := supply } } trace
      server) :
    ∃ dict, server.db.Plain dict ∧
      Runs (DictStep strtod) (fun _ => none)
        (history (redisSupplied strtod refusal) { db := { supply := supply } } trace) dict := by
  obtain ⟨actions, -, framed⟩ := server_history run (Server.recorded_start _)
  obtain ⟨dict, reference, plain⟩ := (Db.plain_start supply).history actions framed
  exact ⟨dict, plain, reference⟩

/-- By the time that one of the events ends or stops, `2 ^ 32` requests have been executed. -/
def Overrun (service : Service σ) (server : Server σ) (events : List Event) : Prop :=
  ∃ done event rest middle actions, events = done ++ event :: rest ∧
    Runs (ServerStep service) server done middle ∧ event.Began middle actions ∧
    2 ^ 32 ≤ (history service server done ++ actions).countP Action.isCall

theorem StopsIn.reason {events : List Event} {fault : Fault}
    (run : Runs (ServerStep (redisSupplied strtod refusal)) { db := { supply := supply } } trace
      server) (stops : StopsIn (redisSupplied strtod refusal) server events fault) :
    fault = refusal ∨ fault = .spin ∨
      Overrun (redisSupplied strtod refusal) { db := { supply := supply } } (trace ++ events) := by
  obtain ⟨done, event, rest, middle, split, more, enabled, stopped⟩ := stops
  have whole := run.append more
  obtain ⟨dict, plain, reference⟩ := dictionary_of_run whole
  obtain ⟨actions, last, began, later, blamed⟩ :=
    (Event.exec_blames (server_good whole) enabled).of_error stopped
  obtain ⟨dictLast, further, plainLast⟩ := plain.history later began.framed
  rcases blamed with ⟨cmd, refused⟩ | ⟨now, refused⟩
  · rcases plainLast.stops refused with isRefusal | isSpin | ⟨key, record, found, huge⟩
    · exact .inl isRefusal
    · exact .inr (.inl isSpin)
    · have few := few_of_runs (reference.append further) (eachRecord_empty (Record.Few 0))
      have many := huge.le (few key record found)
      rw [Nat.zero_add] at many
      refine .inr (.inr ⟨trace ++ done, event, rest, middle, actions, ?_, whole, began, many⟩)
      rw [split, List.append_assoc]
  · obtain ⟨ents, represents⟩ := plainLast.represents
    change (processTtlTimers last.g now >>= _) = _ at refused
    rw [processTtlTimers_of_undated represents now] at refused
    cases refused

end

/-! ### `main` -/

/-- The whole server is a sequential dictionary: the bytes of every connection that `main`
has, in any round, are the requests and the replies of a session of one dictionary that takes
the requests of all connections one by one. -/
theorem main_serves_dictionary (strtod : Strtod) (refusal : Fault) {supply : Nat → Alloc}
    {mem : ListPtr → DList ListPtr} {trace : List Polled} {loop : Loop Db}
    (run : Runs (RoundStep (redisSupplied strtod refusal)) (Loop.start { supply := supply } mem)
      trace loop) :
    ∃ dict actions, actions = history (redisSupplied strtod refusal)
        { db := { supply := supply } }
        ((Loop.start { supply := supply } mem).eventsOf (redisSupplied strtod refusal) trace) ∧
      Runs (DictStep strtod) (fun _ => none) actions dict ∧ loop.db.g.Holds dict ∧
      ∀ fd link, loop.linkAt fd = some link → link.Speaks (session fd actions) := by
  obtain ⟨server, events, ⟨ptrs, -, same⟩, -⟩ := Loop.start_follows run
  obtain ⟨dict, plain, reference⟩ := dictionary_of_run events
  obtain ⟨ents, represents⟩ := plain.represents
  obtain ⟨-, recorded, -⟩ := server_history events (Server.recorded_start _)
  have sameDb : loop.db = server.db := congrArg Server.db same
  have sameLinks : loop.linkAt = server.fd2conn := congrArg Server.fd2conn same
  refine ⟨dict, _, rfl, reference, ?_, ?_⟩
  · rw [sameDb]
    exact ⟨ents, _, represents⟩
  · intro fd link live
    rw [sameLinks] at live
    exact recorded.speaks events live

theorem main_serves_dictionary_fourRounds :
    ∃ loop dict actions,
      Runs (RoundStep (redisSupplied strtodOne .spin)) mainStart fourRounds loop ∧
      Runs (DictStep strtodOne) (fun _ => none) actions dict ∧
      ∀ fd link, loop.linkAt fd = some link → link.Speaks (session fd actions) := by
  have followed : (follow (roundNext (redisSupplied strtodOne .spin)) mainStart
      fourRounds).isSome = true := by
    decide +kernel
  obtain ⟨loop, run⟩ := runs_of_follow (roundNext_sound _) followed
  obtain ⟨dict, actions, -, reference, -, sessions⟩ := main_serves_dictionary strtodOne .spin run
  exact ⟨loop, dict, actions, run, reference, sessions⟩

/-- Whatever the clients send and whenever they do, a round of `main` returns if its writes
do, unless a call of the map spins or there have been more requests than a sorted set can
count. -/
theorem main_stops_only_in_map (strtod : Strtod) (refusal : Fault) {supply : Nat → Alloc}
    {mem : ListPtr → DList ListPtr} {trace : List Polled} {loop : Loop Db}
    (run : Runs (RoundStep (redisSupplied strtod refusal)) (Loop.start { supply := supply } mem)
      trace loop) {polled : Polled} (fresh : polled.Fresh (redisSupplied strtod refusal) loop) :
    ∃ args, loop.pollArgs loop.fd2conn = .ok args ∧
      Meets (fun fault => fault = refusal ∨ fault = .spin ∨
          Overrun (redisSupplied strtod refusal) { db := { supply := supply } }
            ((Loop.start { supply := supply } mem).eventsOf (redisSupplied strtod refusal) trace ++
              polled.events args))
        (fun _ => True) (loop.round (redisSupplied strtod refusal) polled) := by
  obtain ⟨server, events, standsFor, good⟩ := Loop.start_follows run
  obtain ⟨args, argsAre, rounded⟩ := Loop.round_spec standsFor good fresh
  refine ⟨args, argsAre, ?_⟩
  exact (rounded.widen fun fault stops => stops.reason events).mono fun _ _ => trivial

def fifthRound : Polled :=
  ⟨fun fd => if fd = 4 then some ⟨9, [], [.wrote 1000]⟩ else none, 10, none⟩

theorem main_stops_only_in_map_fourRounds :
    ∃ loop after, Runs (RoundStep (redisSupplied strtodOne .outOfBounds)) mainStart fourRounds
        loop ∧
      loop.pollArgs loop.fd2conn = .ok [⟨4, .pollOut⟩] ∧
      loop.round (redisSupplied strtodOne .outOfBounds) fifthRound = .ok after ∧
      Meets (fun fault => fault = .outOfBounds ∨ fault = .spin ∨
          Overrun (redisSupplied strtodOne .outOfBounds) redisStart
            (mainStart.eventsOf (redisSupplied strtodOne .outOfBounds) fourRounds ++
              [.io 4 9 [] [.wrote 1000], .timers 10]))
        (fun _ => True)
        (loop.round (redisSupplied strtodOne .outOfBounds) fifthRound) := by
  have followed : ((follow (roundNext (redisSupplied strtodOne .outOfBounds)) mainStart
      fourRounds).any fun loop =>
        (loop.pollArgs loop.fd2conn).toOption = some [⟨4, .pollOut⟩] ∧
        (loop.round (redisSupplied strtodOne .outOfBounds) fifthRound).toOption.isSome = true) =
      true := by
    decide +kernel
  obtain ⟨loop, reached, ends⟩ := (Option.any_eq_true _ _).mp followed
  obtain ⟨polled, returned⟩ := of_decide_eq_true ends
  have run := runs_of_follow_eq (roundNext_sound _) reached
  have argsAre := eq_ok_of_toOption polled
  obtain ⟨after, afterIs⟩ := Option.isSome_iff_exists.mp returned
  have fresh : fifthRound.Fresh (redisSupplied strtodOne .outOfBounds) loop := by
    intro served _ incoming member
    cases member
  obtain ⟨args, argsFound, rounded⟩ := main_stops_only_in_map strtodOne .outOfBounds run fresh
  rw [argsAre] at argsFound
  cases argsFound
  exact ⟨loop, after, run, argsAre, eq_ok_of_toOption afterIs, rounded⟩

end RedisC
