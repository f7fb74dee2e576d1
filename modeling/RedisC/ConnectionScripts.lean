/-
What a connection records of the results of `read` and `write`.

`received`, `sent` and `calls` are history.  A call of `connection_io` adds to the
first what the results of `read` bring, to the second no more than the results of
`write` take, and to the third the calls of `do_request` by which the database has
changed.
-/

import RedisC.ConnectionInvariant
import RedisC.Lib.LabelledRun

namespace RedisC

open Fallible LabelledRun

variable {σ : Type}
variable {doRequest : σ → List Bytes → Except Fault (σ × Bytes)} {w after : World σ}

/-! ### The scripts -/

def CallStep (doRequest : σ → List Bytes → Except Fault (σ × Bytes)) (db : σ)
    (call : List Bytes × Bytes) (after : σ) : Prop :=
  doRequest db call.1 = .ok (after, call.2)

def arriving : List ReadResult → Bytes
  | [] => []
  | .data bytes :: rest => bytes ++ arriving rest
  | _ :: rest => arriving rest

def ReadResult.bytes : ReadResult → Bytes
  | .data bytes => bytes
  | _ => []

theorem arriving_sysRead (cap : Nat) (reads : List ReadResult) :
    arriving reads = (sysRead cap reads).1.bytes ++ arriving (sysRead cap reads).2 := by
  induction reads with
  | nil => rfl
  | cons result rest ih =>
      cases result with
      | data bytes =>
          rw [sysRead]
          split
          · rfl
          · change _ = bytes.take cap ++ (bytes.drop cap ++ arriving rest)
            rw [← List.append_assoc, List.take_append_drop]
            rfl
      | again => rfl
      | intr => exact ih
      | error => rfl

/-- How many bytes the results of `write` take, if there are as many. -/
def accepting : List WriteResult → Nat
  | [] => 0
  | .wrote n :: rest => n + accepting rest
  | _ :: rest => accepting rest

def WriteResult.count : WriteResult → Nat
  | .wrote n => n
  | _ => 0

private theorem accepting_sysWrite (remaining : Nat) (writes : List WriteResult) :
    (sysWrite remaining writes).1.count + accepting (sysWrite remaining writes).2 ≤
      accepting writes := by
  induction writes with
  | nil => exact Nat.le_refl _
  | cons result rest ih =>
      cases result with
      | wrote n => exact Nat.add_le_add_right (Nat.min_le_left n remaining) _
      | again => exact Nat.le_of_eq (Nat.zero_add _)
      | intr => exact ih
      | error => exact Nat.le_of_eq (Nat.zero_add _)

/-! ### What is recorded -/

/-- The bytes of `sent` are only added to, and only as many as `write` has taken. -/
structure Sends (before after : World σ) : Prop where
  grows : before.sent <+: after.sent
  counted : after.sent.length + accepting after.writes ≤
    before.sent.length + accepting before.writes

/-- The database has changed by the calls that are new in the history, and their frames have
been taken off the bytes that are there or still arrive.  The bytes that have arrived are those
that are new in `received`. -/
structure Served (doRequest : σ → List Bytes → Except Fault (σ × Bytes))
    (before after : World σ) (bodies : List Bytes) (made : List (List Bytes × Bytes)) :
    Prop where
  calls : after.calls = before.calls ++ made
  run : Runs (CallStep doRequest) before.db made after.db
  framed : List.Forall₂ Requested bodies made
  taken : before.conn.rbuf ++ arriving before.reads =
    frames bodies ++ (after.conn.rbuf ++ arriving after.reads)
  received : before.received ++ arriving before.reads = after.received ++ arriving after.reads
  sends : Sends before after

def Serves (doRequest : σ → List Bytes → Except Fault (σ × Bytes)) (before after : World σ) :
    Prop :=
  ∃ bodies made, Served doRequest before after bodies made

theorem Sends.refl : Sends w w := ⟨List.prefix_rfl, Nat.le_refl _⟩

theorem Sends.trans {middle : World σ} (first : Sends w middle) (second : Sends middle after) :
    Sends w after :=
  ⟨first.grows.trans second.grows, second.counted.trans first.counted⟩

private theorem frames_append_frames (bodies more : List Bytes) :
    frames (bodies ++ more) = frames bodies ++ frames more := by
  rw [frames, List.map_append, List.flatten_append]
  rfl

theorem Serves.trans {middle : World σ} (first : Serves doRequest w middle)
    (second : Serves doRequest middle after) : Serves doRequest w after := by
  obtain ⟨bodies, made, served⟩ := first
  obtain ⟨bodiesLater, more, later⟩ := second
  refine ⟨bodies ++ bodiesLater, made ++ more, ?_, served.run.append later.run,
    List.rel_append served.framed later.framed, ?_, served.received.trans later.received,
    served.sends.trans later.sends⟩
  · rw [later.calls, served.calls, List.append_assoc]
  · rw [served.taken, later.taken, frames_append_frames, List.append_assoc]

structure Silent (before after : World σ) : Prop where
  db : after.db = before.db
  calls : after.calls = before.calls
  rbuf : after.conn.rbuf = before.conn.rbuf
  reads : after.reads = before.reads
  received : after.received = before.received
  sends : Sends before after

theorem Silent.refl : Silent w w := ⟨rfl, rfl, rfl, rfl, rfl, .refl⟩

theorem Silent.withConn {conn : Conn} {past : List (Point × Conn)}
    (same : conn.rbuf = w.conn.rbuf) : Silent w { w with conn := conn, past := past } :=
  ⟨rfl, rfl, same, rfl, rfl, List.prefix_rfl, Nat.le_refl _⟩

theorem Silent.trans {middle : World σ} (first : Silent w middle) (second : Silent middle after) :
    Silent w after :=
  ⟨second.db.trans first.db, second.calls.trans first.calls, second.rbuf.trans first.rbuf,
    second.reads.trans first.reads, second.received.trans first.received,
    first.sends.trans second.sends⟩

theorem Silent.serves (silent : Silent w after) : Serves doRequest w after := by
  refine ⟨[], [], ?_, ?_, .nil, ?_, ?_, silent.sends⟩
  · rw [silent.calls, List.append_nil]
  · rw [silent.db]
    exact .nil _
  · rw [silent.rbuf, silent.reads]
    rfl
  · rw [silent.received, silent.reads]

/-! ### The functions of the connection -/

theorem wake_serves (w : World σ) (now : UInt64) : Serves doRequest w (wake w now) := by
  have woken : Silent w (wake w now) := .withConn rfl
  exact woken.serves

private theorem ended_serves (w : World σ) : Serves doRequest w (setState .ended w) := by
  have ended : Silent w (setState .ended w) := .withConn rfl
  exact ended.serves

private theorem flushed_silent {writes : List WriteResult} {n : Nat}
    (took : n + accepting writes ≤ accepting w.writes) :
    Meets (fun _ => True) (fun result => Silent w result.2)
      (flushed { w with writes := writes } n) := by
  have sends : ∀ conn, Sends w { w with
      writes := writes, sent := w.sent ++ w.conn.unsent.take n, conn := conn } := by
    intro conn
    refine ⟨List.prefix_append _ _, ?_⟩
    have short := List.length_take_le n w.conn.unsent
    change (w.sent ++ w.conn.unsent.take n).length + accepting writes ≤ _
    rw [List.length_append]
    omega
  unfold flushed
  dsimp only
  split
  · split
    · exact ⟨rfl, rfl, rfl, rfl, rfl, sends _⟩
    · exact ⟨rfl, rfl, rfl, rfl, rfl, sends _⟩
  · trivial

private theorem tryFlushBuffer_silent (w : World σ) :
    Meets (fun _ => True) (fun result => Silent w result.2) (tryFlushBuffer w) := by
  have took := accepting_sysWrite (w.conn.wbuf.length - w.conn.wbufSent) w.writes
  have fewer : ∀ writes conn, accepting writes ≤ accepting w.writes →
      conn.rbuf = w.conn.rbuf → Silent w { w with writes := writes, conn := conn } := by
    intro writes conn less sameRbuf
    exact ⟨rfl, rfl, sameRbuf, rfl, rfl, List.prefix_rfl, Nat.add_le_add_left less _⟩
  unfold tryFlushBuffer
  split
  · rename_i writes result
    rw [result] at took
    exact fewer writes _ ((Nat.le_add_left _ _).trans took) rfl
  · rename_i n writes result
    rw [result] at took
    exact flushed_silent took
  · rename_i stopped writes _ _ result
    rw [result] at took
    exact fewer writes _ ((Nat.le_add_left _ _).trans took) rfl

private theorem stateResLoop_silent (fuel : Nat) (w : World σ) :
    Meets (fun _ => True) (Silent w) (stateResLoop fuel w) := by
  induction fuel generalizing w with
  | zero => trivial
  | succ fuel ih =>
      rw [stateResLoop]
      apply (tryFlushBuffer_silent w).bind
      intro result silent
      obtain ⟨more, middle⟩ := result
      have observed : Silent w (observe .flushed middle) := silent.trans (.withConn rfl)
      cases more with
      | false => exact observed
      | true =>
          apply (ih (observe .flushed middle)).mono
          intro last later
          exact observed.trans later

private theorem execute_serves {body rest : Bytes} (split : w.conn.rbuf = frame body ++ rest)
    (short : body.length ≤ kMaxMsg) :
    Meets (fun _ => True) (fun result => Serves doRequest w result.2)
      (execute doRequest w body) := by
  unfold execute
  cases parsed : parseReq body with
  | error fault => trivial
  | ok result =>
      obtain ⟨code, cmd⟩ := result
      rw [ok_bind]
      dsimp only
      split
      · exact ended_serves w
      · rename_i accepted
        cases executed : doRequest w.db cmd with
        | error fault => trivial
        | ok result =>
            obtain ⟨db, out⟩ := result
            apply (stateResLoop_silent _ _).bind
            intro last silent
            have rbufIs : last.conn.rbuf = rest := by
              rw [silent.rbuf]
              change w.conn.rbuf.drop (4 + body.length) = rest
              rw [split, ← length_frame, List.drop_left]
            refine ⟨[body], [(cmd, out)], silent.calls, ?_,
              .cons ⟨short, not_not.mp accepted ▸ parsed⟩ .nil, ?_, ?_, silent.sends.grows,
              silent.sends.counted⟩
            · rw [show last.db = db from silent.db]
              exact .cons executed (.nil _)
            · rw [rbufIs, show last.reads = w.reads from silent.reads, split, List.append_assoc,
                frames, List.map_singleton, List.flatten_singleton]
            · rw [show last.received = w.received from silent.received,
                show last.reads = w.reads from silent.reads]

theorem tryOneRequest_serves (w : World σ) :
    Meets (fun _ => True) (fun result => Serves doRequest w result.2)
      (tryOneRequest doRequest w) := by
  have nothing : Serves doRequest w w := Silent.refl.serves
  unfold tryOneRequest
  by_cases tiny : w.conn.rbuf.length < 4
  · rw [if_pos tiny]
    exact nothing
  · obtain ⟨len, loaded, -, word⟩ := loadU32_frameLen (Nat.le_of_not_lt tiny)
    rw [if_neg tiny, loaded, ok_bind]
    split
    · exact ended_serves w
    · rename_i notLong
      split
      · exact nothing
      · rename_i complete
        obtain ⟨bodyLoaded, length, split⟩ := frame_of_complete word (Nat.le_of_not_lt complete)
        rw [bodyLoaded, ok_bind]
        exact execute_serves split (length.trans_le (Nat.le_of_not_lt notLong))

private theorem requestLoop_serves (fuel : Nat) (w : World σ) :
    Meets (fun _ => True) (Serves doRequest w) (requestLoop doRequest fuel w) := by
  induction fuel generalizing w with
  | zero => trivial
  | succ fuel ih =>
      rw [requestLoop]
      apply (tryOneRequest_serves w).bind
      intro result first
      obtain ⟨more, middle⟩ := result
      cases more with
      | false => exact first
      | true =>
          apply (ih middle).mono
          intro last later
          exact first.trans later

theorem filling_serves {reads : List ReadResult} {bytes : Bytes}
    (took : arriving w.reads = bytes ++ arriving reads) :
    Serves doRequest w
      (observe .filled (receive { observe .fill w with reads := reads } bytes)) := by
  refine ⟨[], [], (List.append_nil _).symm, .nil _, .nil, ?_, ?_, List.prefix_rfl,
    Nat.le_refl _⟩
  · change _ = w.conn.rbuf ++ bytes ++ arriving reads
    rw [took, List.append_assoc]
  · change _ = w.received ++ bytes ++ arriving reads
    rw [took, List.append_assoc]

theorem tryFillBuffer_serves (w : World σ) :
    Meets (fun _ => True) (fun result => Serves doRequest w result.2)
      (tryFillBuffer doRequest w) := by
  have took := arriving_sysRead (rbufCap - w.conn.rbuf.length) w.reads
  have silently : ∀ reads conn past, arriving w.reads = arriving reads →
      conn.rbuf = w.conn.rbuf →
      Serves doRequest w { w with reads := reads, conn := conn, past := past } := by
    intro reads conn past same sameRbuf
    refine ⟨[], [], (List.append_nil _).symm, .nil _, .nil, ?_, ?_, List.prefix_rfl,
      Nat.le_refl _⟩
    · change _ = conn.rbuf ++ arriving reads
      rw [sameRbuf, same]
    · change _ = w.received ++ arriving reads
      rw [same]
  unfold tryFillBuffer
  dsimp only
  split
  · change Meets _ _ (afterRead doRequest (observe .fill w)
      (sysRead (rbufCap - w.conn.rbuf.length) w.reads))
    generalize sysRead (rbufCap - w.conn.rbuf.length) w.reads = got at took
    obtain ⟨result, reads⟩ := got
    cases result with
    | again => exact silently _ _ _ took rfl
    | intr => exact silently _ _ _ took rfl
    | error => exact silently _ _ _ took rfl
    | data bytes =>
        cases bytes with
        | nil => exact silently _ _ _ took rfl
        | cons byte bytes =>
            change Meets _ _ (filled doRequest _ _)
            unfold filled
            dsimp only
            split
            · apply (requestLoop_serves _ _).bind
              intro last served
              exact (filling_serves took).trans served
            · trivial
  · trivial

private theorem stateReqLoop_serves (fuel : Nat) (w : World σ) :
    Meets (fun _ => True) (Serves doRequest w) (stateReqLoop doRequest fuel w) := by
  induction fuel generalizing w with
  | zero => trivial
  | succ fuel ih =>
      rw [stateReqLoop]
      apply (tryFillBuffer_serves w).bind
      intro result first
      obtain ⟨more, middle⟩ := result
      cases more with
      | false => exact first
      | true =>
          apply (ih middle).mono
          intro last later
          exact first.trans later

/-- Whatever arrives on a connection, the database changes by the calls that it records. -/
theorem connectionIo_serves (w : World σ) (now : UInt64) :
    Meets (fun _ => True) (Serves doRequest w) (connectionIo doRequest w now) := by
  unfold connectionIo
  split
  · apply (stateReqLoop_serves _ _).mono
    intro last served
    exact (wake_serves w now).trans served
  · apply (stateResLoop_silent _ _).mono
    intro last silent
    exact (wake_serves w now).trans silent.serves
  · trivial

end RedisC
