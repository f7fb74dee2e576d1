/-
What every function of the connection keeps.

`World.Sound` has three parts: the bounds of the buffers, the points of the code
at which the connection was observed, and the stream law.  The stream law says
that the bytes received are the frames of the requests executed followed by
`rbuf`, and that the bytes sent followed by the rest of `wbuf` are the frames of
their replies.
-/

import RedisC.Connection

namespace RedisC

open Fallible LittleEndian

variable {σ : Type} {w : World σ}

structure Conn.Bounded (conn : Conn) : Prop where
  sent : conn.wbufSent ≤ conn.wbuf.length
  size : conn.wbuf.length ≤ kMaxMsg
  idle : conn.state = .req → conn.wbuf = [] ∧ conn.wbufSent = 0
  busy : conn.state = .res → conn.wbufSent < conn.wbuf.length

/-- What the code relies on at the points where the connection is observed. -/
def Point.Allows : Point → Conn → Prop
  | .fill, conn => conn.state = .req ∧ conn.rbuf.length < rbufCap
  | .filled, conn => conn.rbuf.length ≤ rbufCap
  | .pack, conn => conn.wbuf = [] ∧ conn.wbufSent = 0
  | .packed, conn => conn.state = .res
  | .flushed, _ => True

/-- `body` is the frame of the request that was executed by `call`. -/
structure Requested (body : Bytes) (call : List Bytes × Bytes) : Prop where
  short : body.length ≤ kMaxMsg
  parsed : parseReq body = .ok (0, call.1)

def frames (bodies : List Bytes) : Bytes := (bodies.map frame).flatten

structure World.Sound (w : World σ) : Prop where
  bounded : w.conn.Bounded
  requests : ∃ bodies, List.Forall₂ Requested bodies w.calls ∧
    w.received = frames bodies ++ w.conn.rbuf
  replies : w.sent ++ w.conn.unsent = frames (w.calls.map fun call => packReply call.2)
  past : ∀ observed ∈ w.past, observed.2.Bounded ∧ observed.1.Allows observed.2

theorem World.Sound.observe (sound : w.Sound) (point : Point) (allowed : point.Allows w.conn) :
    (observe point w).Sound := by
  refine ⟨sound.bounded, sound.requests, sound.replies, ?_⟩
  intro observed member
  rcases List.mem_append.mp member with before | now
  · exact sound.past observed before
  · rw [List.mem_singleton.mp now]
    exact ⟨sound.bounded, allowed⟩

/-- The scripts and the state `ended` play no part in it. -/
theorem World.Sound.withWrites (sound : w.Sound) (writes : List WriteResult) :
    ({ w with writes := writes } : World σ).Sound :=
  ⟨sound.bounded, sound.requests, sound.replies, sound.past⟩

theorem World.Sound.withReads (sound : w.Sound) (reads : List ReadResult) :
    ({ w with reads := reads } : World σ).Sound :=
  ⟨sound.bounded, sound.requests, sound.replies, sound.past⟩

theorem World.Sound.ended (sound : w.Sound) : (setState .ended w).Sound := by
  refine ⟨⟨sound.bounded.sent, sound.bounded.size, ?_, ?_⟩, sound.requests, sound.replies,
    sound.past⟩
  · intro contrary
    cases contrary
  · intro contrary
    cases contrary

/-! ### Writing -/

/-- The results in `writes` take all of the `remaining` bytes. -/
def drains : Nat → List WriteResult → Bool
  | _, [] => false
  | remaining, .intr :: rest => drains remaining rest
  | remaining, .wrote n :: rest =>
      if remaining ≤ n then true else drains (remaining - n) rest
  | _, _ :: _ => false

inductive Written (remaining : Nat) (writes : List WriteResult) :
    WriteResult × List WriteResult → Prop
  | wrote {n : Nat} {rest : List WriteResult} (bounded : n ≤ remaining)
      (shorter : rest.length < writes.length)
      (rests : drains remaining writes =
        if remaining ≤ n then true else drains (remaining - n) rest) :
      Written remaining writes (.wrote n, rest)
  | stopped {result : WriteResult} {rest : List WriteResult} (none : ∀ n, result ≠ .wrote n)
      (blocked : drains remaining writes = false) : Written remaining writes (result, rest)

theorem sysWrite_spec (remaining : Nat) (writes : List WriteResult) :
    Written remaining writes (sysWrite remaining writes) := by
  induction writes with
  | nil =>
      apply Written.stopped _ rfl
      intro n contrary
      cases contrary
  | cons result rest ih =>
      cases result with
      | wrote n =>
          apply Written.wrote (Nat.min_le_right n remaining) (Nat.lt_succ_self _)
          rw [drains]
          by_cases enough : remaining ≤ n
          · rw [if_pos enough, if_pos (Nat.le_min.mpr ⟨enough, Nat.le_refl _⟩)]
          · have less : min n remaining = n := Nat.min_eq_left (by omega)
            rw [if_neg enough, less, if_neg enough]
      | again =>
          apply Written.stopped _ rfl
          intro n contrary
          cases contrary
      | error =>
          apply Written.stopped _ rfl
          intro n contrary
          cases contrary
      | intr =>
          rw [sysWrite]
          generalize sysWrite remaining rest = got at ih
          cases ih with
          | wrote bounded shorter rests =>
              exact .wrote bounded (Nat.lt_succ_of_lt shorter) rests
          | stopped none blocked => exact .stopped none blocked

structure SameInput (before after : World σ) : Prop where
  rbuf : after.conn.rbuf = before.conn.rbuf
  reads : after.reads = before.reads

structure FlushRound (before : World σ) (more : Bool) (after : World σ) : Prop where
  sound : after.Sound
  same : SameInput before after
  again : more = true → after.conn.state = .res ∧ after.writes.length < before.writes.length ∧
    drains after.conn.unsent.length after.writes =
      drains before.conn.unsent.length before.writes
  last : more = false →
    (after.conn.state = .req ↔ drains before.conn.unsent.length before.writes = true)

theorem length_unsent (conn : Conn) : conn.unsent.length = conn.wbuf.length - conn.wbufSent :=
  List.length_drop

private theorem unsent_split (w : World σ) (n : Nat) :
    w.sent ++ w.conn.unsent.take n ++ w.conn.wbuf.drop (w.conn.wbufSent + n) =
      w.sent ++ w.conn.unsent := by
  rw [← List.drop_drop, List.append_assoc]
  exact congrArg (w.sent ++ ·) (List.take_append_drop n w.conn.unsent)

/-- `write` has taken some of the bytes, and some are left. -/
private theorem flushed_part (sound : w.Sound) (state : w.conn.state = .res) {n : Nat}
    (part : n < w.conn.unsent.length) :
    Meets (fun _ => False)
      (fun result => result.1 = true ∧ result.2.Sound ∧ SameInput w result.2 ∧
        result.2.writes = w.writes ∧ result.2.conn.state = .res ∧
        result.2.conn.unsent.length = w.conn.unsent.length - n)
      (flushed w n) := by
  rw [length_unsent] at part
  have within : w.conn.wbufSent + n ≤ w.conn.wbuf.length := by omega
  have left : w.conn.wbufSent + n ≠ w.conn.wbuf.length := by omega
  unfold flushed
  simp only [if_pos within, if_neg left]
  refine ⟨rfl, ⟨⟨within, sound.bounded.size, ?_, ?_⟩, sound.requests, ?_, sound.past⟩,
    ⟨rfl, rfl⟩, rfl, state, ?_⟩
  · intro contrary
    rw [state] at contrary
    cases contrary
  · intro _
    exact Nat.lt_of_le_of_ne within left
  · rw [← sound.replies, ← unsent_split w n]
    rfl
  · rw [length_unsent, length_unsent]
    change w.conn.wbuf.length - (w.conn.wbufSent + n) = _
    omega

/-- `write` has taken the rest: the connection is ready for the next request. -/
private theorem flushed_all (sound : w.Sound) (state : w.conn.state = .res) {n : Nat}
    (all : n = w.conn.unsent.length) :
    Meets (fun _ => False)
      (fun result => result.1 = false ∧ result.2.Sound ∧ SameInput w result.2 ∧
        result.2.conn.state = .req)
      (flushed w n) := by
  have busy := sound.bounded.busy state
  rw [length_unsent] at all
  have reached : w.conn.wbufSent + n = w.conn.wbuf.length := by omega
  unfold flushed
  simp only [if_pos (Nat.le_of_eq reached), if_pos reached]
  refine ⟨rfl, ⟨⟨Nat.le_refl 0, Nat.zero_le _, ?_, ?_⟩, sound.requests, ?_, sound.past⟩,
    ⟨rfl, rfl⟩, rfl⟩
  · intro _
    exact ⟨rfl, rfl⟩
  · intro contrary
    cases contrary
  · rw [← sound.replies, ← unsent_split w n, reached, List.drop_length]
    rfl

theorem FlushRound.stop {before after : World σ} (sound : after.Sound)
    (same : SameInput before after) (waiting : after.conn.state ≠ .req)
    (blocked : drains before.conn.unsent.length before.writes = false) :
    FlushRound before false after := by
  refine ⟨sound, same, fun contrary => ?_, fun _ => ?_⟩
  · cases contrary
  · rw [blocked]
    constructor
    · intro contrary
      exact absurd contrary waiting
    · intro contrary
      cases contrary

theorem tryFlushBuffer_spec (sound : w.Sound) (state : w.conn.state = .res) :
    Meets (fun _ => False) (fun result => FlushRound w result.1 result.2) (tryFlushBuffer w) := by
  have notReq : w.conn.state ≠ .req := by
    rw [state]
    decide
  have ended : (setState .ended w).conn.state ≠ .req := by
    intro contrary
    cases contrary
  unfold tryFlushBuffer
  rw [← length_unsent]
  have got := sysWrite_spec w.conn.unsent.length w.writes
  generalize sysWrite w.conn.unsent.length w.writes = result at got
  cases got with
  | stopped none blocked =>
      rename_i result rest
      cases result with
      | wrote n => exact absurd rfl (none n)
      | again => exact .stop (sound.withWrites rest) ⟨rfl, rfl⟩ notReq blocked
      | intr => exact .stop (sound.withWrites rest).ended ⟨rfl, rfl⟩ ended blocked
      | error => exact .stop (sound.withWrites rest).ended ⟨rfl, rfl⟩ ended blocked
  | wrote bounded shorter rests =>
      rename_i n rest
      by_cases part : n < w.conn.unsent.length
      · apply (flushed_part (sound.withWrites rest) state part).mono
        intro result partly
        rcases partly with ⟨more, afterSound, same, writes, afterState, left⟩
        refine ⟨afterSound, ⟨same.rbuf, same.reads⟩, fun _ => ⟨afterState, ?_, ?_⟩,
          fun contrary => ?_⟩
        · rw [writes]
          exact shorter
        · rw [left, writes, rests, if_neg (Nat.not_le.mpr part)]
        · rw [more] at contrary
          cases contrary
      · have all : n = w.conn.unsent.length := by omega
        apply (flushed_all (sound.withWrites rest) state all).mono
        intro result wholly
        rcases wholly with ⟨more, afterSound, same, afterState⟩
        refine ⟨afterSound, ⟨same.rbuf, same.reads⟩, fun contrary => ?_, fun _ => ?_⟩
        · rw [more] at contrary
          cases contrary
        · rw [rests, if_pos (Nat.le_of_eq all.symm), afterState]
          exact ⟨fun _ => rfl, fun _ => rfl⟩

/-- `state_res` has returned: all is sent exactly if the script drains `wbuf`. -/
structure Flushed (before after : World σ) : Prop where
  sound : after.Sound
  same : SameInput before after
  drained : after.conn.state = .req ↔ drains before.conn.unsent.length before.writes = true

theorem stateResLoop_spec (sound : w.Sound) (state : w.conn.state = .res) {fuel : Nat}
    (enough : w.writes.length < fuel) :
    Meets (fun _ => False) (Flushed w) (stateResLoop fuel w) := by
  induction fuel generalizing w with
  | zero => exact absurd enough (Nat.not_lt_zero _)
  | succ fuel ih =>
      rw [stateResLoop]
      apply (tryFlushBuffer_spec sound state).bind
      intro result round
      rcases result with ⟨more, after⟩
      have afterSound := round.sound.observe .flushed trivial
      cases more with
      | false => exact ⟨afterSound, ⟨round.same.rbuf, round.same.reads⟩, round.last rfl⟩
      | true =>
          rcases round.again rfl with ⟨afterState, shorter, sameDrains⟩
          have fewer : (observe .flushed after).writes.length < fuel := by
            change after.writes.length < fuel
            simp only at shorter
            omega
          apply (ih afterSound afterState fewer).mono
          intro last rest
          have same := rest.same
          refine ⟨rest.sound, ⟨same.rbuf.trans round.same.rbuf, same.reads.trans round.same.reads⟩,
            ?_⟩
          rw [rest.drained, ← sameDrains]
          rfl

theorem stateRes_spec (sound : w.Sound) (state : w.conn.state = .res) :
    Meets (fun _ => False) (Flushed w) (stateRes w) :=
  stateResLoop_spec sound state (Nat.lt_succ_self _)

/-! ### Requests -/

def frameLen (rbuf : Bytes) : Nat := ofBytes (rbuf.take 4)

/-- `rbuf` does not hold a complete request. -/
def Incomplete (rbuf : Bytes) : Prop := rbuf.length < 4 ∨ rbuf.length < 4 + frameLen rbuf

theorem length_frame (body : Bytes) : (frame body).length = 4 + body.length := by
  rw [frame, List.length_append, length_bytesU32]

private theorem frames_append (bodies : List Bytes) (body : Bytes) :
    frames (bodies ++ [body]) = frames bodies ++ frame body := by
  simp [frames]

private theorem length_packReply (out : Bytes) : 4 + (packReply out).length ≤ kMaxMsg := by
  unfold packReply
  split
  · decide
  · omega

theorem loadU32_frameLen {rbuf : Bytes} (enough : 4 ≤ rbuf.length) :
    ∃ len, loadU32 rbuf 0 = .ok len ∧ len.toNat = frameLen rbuf ∧
      rbuf.take 4 = bytesU32 len := by
  have inside : 0 + 4 ≤ rbuf.length := by omega
  rcases loadU32_ok inside with ⟨len, loaded, word⟩
  rw [List.drop_zero] at word
  refine ⟨len, loaded, ?_, word⟩
  rw [frameLen, word, bytesU32, ofBytes_toBytes (Nat.lt_of_lt_of_eq len.toNat_lt (by decide))]

/-- A complete request is a frame at the start of `rbuf`. -/
theorem frame_of_complete {rbuf : Bytes} {len : UInt32} (word : rbuf.take 4 = bytesU32 len)
    (complete : 4 + len.toNat ≤ rbuf.length) :
    loadBytes rbuf 4 len.toNat = .ok ((rbuf.drop 4).take len.toNat) ∧
      ((rbuf.drop 4).take len.toNat).length = len.toNat ∧
      rbuf = frame ((rbuf.drop 4).take len.toNat) ++ rbuf.drop (4 + len.toNat) := by
  have length : ((rbuf.drop 4).take len.toNat).length = len.toNat := by
    rw [List.length_take, List.length_drop]
    omega
  refine ⟨loadBytes_ok complete, length, ?_⟩
  rw [frame, length, UInt32.ofNat_toNat, ← word, List.append_assoc, ← List.drop_drop,
    List.take_append_drop, List.take_append_drop]

/-- The request moves from `rbuf` to the calls, and its reply into the empty `wbuf`. -/
theorem World.Sound.pack (sound : w.Sound) (state : w.conn.state = .req) {body rest : Bytes}
    {call : List Bytes × Bytes} (split : w.conn.rbuf = frame body ++ rest)
    (requested : Requested body call) (db : σ) :
    (pack { w with db := db, calls := w.calls ++ [call] } body.length call.2).Sound ∧
      (pack { w with db := db, calls := w.calls ++ [call] } body.length call.2).conn.rbuf =
        rest := by
  rcases sound.bounded.idle state with ⟨empty, sentNone⟩
  rcases sound.requests with ⟨bodies, executed, received⟩
  have size := length_frame (packReply call.2)
  have fits := length_packReply call.2
  have dropped : w.conn.rbuf.drop (4 + body.length) = rest := by
    rw [split, ← length_frame, List.drop_left]
  have sentAll : w.sent = frames (w.calls.map fun call => packReply call.2) := by
    rw [← sound.replies, Conn.unsent, empty, List.drop_nil, List.append_nil]
  refine ⟨⟨⟨?_, ?_, ?_, ?_⟩, ⟨bodies ++ [body], ?_, ?_⟩, ?_, sound.past⟩, dropped⟩
  · change w.conn.wbufSent ≤ _
    rw [sentNone]
    exact Nat.zero_le _
  · exact Nat.le_trans (Nat.le_of_eq size) fits
  · intro contrary
    cases contrary
  · intro _
    change w.conn.wbufSent < (frame (packReply call.2)).length
    rw [sentNone, size]
    omega
  · exact List.rel_append executed (.cons requested .nil)
  · change w.received = frames (bodies ++ [body]) ++ w.conn.rbuf.drop (4 + body.length)
    rw [dropped, frames_append, received, split, List.append_assoc]
  · change w.sent ++ (frame (packReply call.2)).drop w.conn.wbufSent =
      frames ((w.calls ++ [call]).map fun call => packReply call.2)
    rw [sentNone, List.drop_zero, sentAll, List.map_append, List.map_singleton, frames_append]

theorem respond_spec (sound : w.Sound) (state : w.conn.state = .req) {body rest : Bytes}
    {call : List Bytes × Bytes} (split : w.conn.rbuf = frame body ++ rest)
    (requested : Requested body call) (db : σ) :
    Meets (fun _ => False)
      (fun after => after.Sound ∧ after.conn.rbuf = rest ∧ after.reads = w.reads)
      (respond { w with db := db, calls := w.calls ++ [call] } body.length call.2) := by
  have observed := sound.observe .pack (sound.bounded.idle state)
  rcases observed.pack state split requested db with ⟨packed, rbufIs⟩
  apply (stateRes_spec (packed.observe .packed rfl) rfl).mono
  intro after flushed
  exact ⟨flushed.sound, flushed.same.rbuf.trans rbufIs, flushed.same.reads⟩

section

variable {doRequest : σ → List Bytes → Except Fault (σ × Bytes)}

def RequestFault (doRequest : σ → List Bytes → Except Fault (σ × Bytes)) (fault : Fault) :
    Prop :=
  ∃ db cmd, doRequest db cmd = .error fault

structure RequestRound (before : World σ) (more : Bool) (after : World σ) : Prop where
  sound : after.Sound
  reads : after.reads = before.reads
  again : more = true → after.conn.state = .req ∧
    after.conn.rbuf.length < before.conn.rbuf.length
  waits : more = false → after.conn.state = .req → Incomplete after.conn.rbuf
  room : before.conn.rbuf.length ≤ rbufCap → after.conn.state ≠ .ended →
    after.conn.rbuf.length < rbufCap

theorem RequestRound.reject (sound : w.Sound) : RequestRound w false (setState .ended w) := by
  refine ⟨sound.ended, rfl, fun contrary => ?_, fun _ contrary => ?_, fun _ contrary => ?_⟩
  · cases contrary
  · cases contrary
  · exact absurd rfl contrary

theorem execute_spec (sound : w.Sound) (state : w.conn.state = .req) {body rest : Bytes}
    (split : w.conn.rbuf = frame body ++ rest) (short : body.length ≤ kMaxMsg) :
    Meets (RequestFault doRequest) (fun result => RequestRound w result.1 result.2)
      (execute doRequest w body) := by
  have fewer : rest.length < w.conn.rbuf.length := by
    rw [split, List.length_append, length_frame]
    omega
  rcases (parseReq_returns body).returns with ⟨⟨code, cmd⟩, parsed, _⟩
  unfold execute
  rw [parsed, ok_bind]
  by_cases accepted : code = 0
  · simp only [accepted, ne_eq, not_true_eq_false, if_false]
    cases executed : doRequest w.db cmd with
    | error fault => exact ⟨w.db, cmd, executed⟩
    | ok result =>
        rcases result with ⟨db, out⟩
        have requested : Requested body (cmd, out) := ⟨short, accepted ▸ parsed⟩
        apply ((respond_spec sound state split requested db).widen fun _ => False.elim).bind
        intro after responded
        rcases responded with ⟨afterSound, rbufIs, readsAre⟩
        refine ⟨afterSound, readsAre, fun more => ⟨beq_iff_eq.mp more, ?_⟩, fun waits stateIs => ?_,
          fun room _ => ?_⟩
        · rw [rbufIs]
          exact fewer
        · rw [stateIs] at waits
          cases waits
        · rw [rbufIs]
          omega
  · simp only [ne_eq, accepted, not_false_eq_true, if_true]
    exact .reject sound

theorem tryOneRequest_spec (sound : w.Sound) (state : w.conn.state = .req) :
    Meets (RequestFault doRequest) (fun result => RequestRound w result.1 result.2)
      (tryOneRequest doRequest w) := by
  have wait : Incomplete w.conn.rbuf → (w.conn.rbuf.length < rbufCap) →
      RequestRound w false w := by
    intro incomplete room
    refine ⟨sound, rfl, fun contrary => ?_, fun _ _ => incomplete, fun _ _ => room⟩
    cases contrary
  unfold tryOneRequest
  by_cases tiny : w.conn.rbuf.length < 4
  · rw [if_pos tiny]
    apply wait (.inl tiny)
    unfold rbufCap
    omega
  · rcases loadU32_frameLen (Nat.le_of_not_lt tiny) with ⟨len, loaded, lenIs, word⟩
    rw [if_neg tiny, loaded, ok_bind]
    by_cases long : len.toNat > kMaxMsg
    · rw [if_pos long]
      exact .reject sound
    · rw [if_neg long]
      by_cases part : 4 + len.toNat > w.conn.rbuf.length
      · rw [if_pos part]
        apply wait
        · rw [lenIs] at part
          exact .inr part
        · unfold rbufCap
          omega
      · rcases frame_of_complete word (Nat.le_of_not_lt part) with ⟨bodyLoaded, length, split⟩
        rw [if_neg part, bodyLoaded, ok_bind]
        exact execute_spec sound state split (by omega)

/-- `rbuf` is drained of complete requests, unless the connection waits or ends. -/
structure Drained (before after : World σ) : Prop where
  sound : after.Sound
  reads : after.reads = before.reads
  incomplete : after.conn.state = .req → Incomplete after.conn.rbuf
  room : after.conn.state ≠ .ended → after.conn.rbuf.length < rbufCap

theorem requestLoop_spec (sound : w.Sound) (state : w.conn.state = .req)
    (fits : w.conn.rbuf.length ≤ rbufCap) {fuel : Nat} (enough : w.conn.rbuf.length < fuel) :
    Meets (RequestFault doRequest) (Drained w) (requestLoop doRequest fuel w) := by
  induction fuel generalizing w with
  | zero => exact absurd enough (Nat.not_lt_zero _)
  | succ fuel ih =>
      rw [requestLoop]
      apply (tryOneRequest_spec sound state).bind
      intro result round
      rcases result with ⟨more, after⟩
      cases more with
      | false => exact ⟨round.sound, round.reads, round.waits rfl, round.room fits⟩
      | true =>
          rcases round.again rfl with ⟨afterState, shorter⟩
          have afterSound : after.Sound := round.sound
          simp only at afterState shorter
          apply (ih afterSound afterState (by omega) (by omega)).mono
          intro last drained
          exact ⟨drained.sound, drained.reads.trans round.reads, drained.incomplete, drained.room⟩

/-! ### Reading -/

inductive Got (cap : Nat) (reads : List ReadResult) : ReadResult × List ReadResult → Prop
  | data {bytes : Bytes} {rest : List ReadResult} (bounded : bytes.length ≤ cap)
      (less : 0 < cap → readWork rest < readWork reads) : Got cap reads (.data bytes, rest)
  | stopped {result : ReadResult} {rest : List ReadResult}
      (none : ∀ bytes, result ≠ .data bytes) : Got cap reads (result, rest)

theorem sysRead_spec (cap : Nat) (reads : List ReadResult) :
    Got cap reads (sysRead cap reads) := by
  induction reads with
  | nil =>
      apply Got.stopped
      intro bytes contrary
      cases contrary
  | cons result rest ih =>
      cases result with
      | data bytes =>
          rw [sysRead]
          split
          · rename_i short
            apply Got.data short
            intro _
            rw [readWork]
            omega
          · apply Got.data
            · rw [List.length_take]
              exact Nat.min_le_left _ _
            · intro positive
              rw [readWork, readWork, List.length_drop]
              omega
      | again =>
          apply Got.stopped
          intro bytes contrary
          cases contrary
      | error =>
          apply Got.stopped
          intro bytes contrary
          cases contrary
      | intr =>
          rw [sysRead]
          generalize sysRead cap rest = got at ih
          cases ih with
          | data bounded less =>
              apply Got.data bounded
              intro positive
              have before := less positive
              have more : readWork (.intr :: rest) = 1 + readWork rest := rfl
              omega
          | stopped none => exact .stopped none

structure FillRound (before : World σ) (more : Bool) (after : World σ) : Prop where
  sound : after.Sound
  again : more = true → after.conn.state = .req ∧ readWork after.reads < readWork before.reads
  incomplete : after.conn.state = .req → more = true ∨ Incomplete before.conn.rbuf →
    Incomplete after.conn.rbuf
  room : after.conn.state ≠ .ended → after.conn.rbuf.length < rbufCap

theorem FillRound.close {before after : World σ} (sound : after.Sound) :
    FillRound before false (setState .ended after) := by
  refine ⟨sound.ended, fun contrary => ?_, fun contrary => ?_, fun contrary => ?_⟩
  · cases contrary
  · cases contrary
  · exact absurd rfl contrary

theorem filled_spec (sound : w.Sound) (state : w.conn.state = .req) {bytes : Bytes}
    (fits : w.conn.rbuf.length + bytes.length ≤ rbufCap) :
    Meets (RequestFault doRequest)
      (fun result => ∃ start : World σ, start.reads = w.reads ∧ Drained start result.2 ∧
        result.1 = (result.2.conn.state == .req))
      (filled doRequest w bytes) := by
  have fuller : (receive w bytes).Sound := by
    rcases sound.requests with ⟨bodies, executed, received⟩
    refine ⟨⟨sound.bounded.sent, sound.bounded.size, sound.bounded.idle, sound.bounded.busy⟩,
      ⟨bodies, executed, ?_⟩, sound.replies, sound.past⟩
    change w.received ++ bytes = frames bodies ++ (w.conn.rbuf ++ bytes)
    rw [received, List.append_assoc]
  have within : (observe .filled (receive w bytes)).conn.rbuf.length ≤ rbufCap := by
    change (w.conn.rbuf ++ bytes).length ≤ rbufCap
    rw [List.length_append]
    exact fits
  have observed := fuller.observe .filled within
  unfold filled
  simp only [if_pos within]
  apply (requestLoop_spec observed state within (Nat.lt_succ_self _)).bind
  intro after drained
  exact ⟨observe .filled (receive w bytes), rfl, drained, rfl⟩

theorem tryFillBuffer_spec (sound : w.Sound) (state : w.conn.state = .req)
    (room : w.conn.rbuf.length < rbufCap) :
    Meets (RequestFault doRequest) (fun result => FillRound w result.1 result.2)
      (tryFillBuffer doRequest w) := by
  have observed := sound.observe .fill ⟨state, room⟩
  change Meets _ _ (if w.conn.rbuf.length < rbufCap then
    afterRead doRequest (observe .fill w) (sysRead (rbufCap - w.conn.rbuf.length) w.reads) else _)
  rw [if_pos room]
  have got := sysRead_spec (rbufCap - w.conn.rbuf.length) w.reads
  generalize sysRead (rbufCap - w.conn.rbuf.length) w.reads = result at got
  cases got with
  | stopped none =>
      rename_i result rest
      cases result with
      | data bytes => exact absurd rfl (none bytes)
      | again =>
          refine ⟨observed.withReads rest, fun contrary => ?_, fun _ either => ?_, fun _ => room⟩
          · cases contrary
          · rcases either with contrary | incomplete
            · cases contrary
            · exact incomplete
      | intr => exact .close (observed.withReads rest)
      | error => exact .close (observed.withReads rest)
  | data bounded less =>
      rename_i bytes rest
      cases bytes with
      | nil => exact .close (observed.withReads rest)
      | cons byte bytes =>
          have fits : w.conn.rbuf.length + (byte :: bytes).length ≤ rbufCap := by omega
          apply (filled_spec (observed.withReads rest) state fits).mono
          intro result filled
          rcases result with ⟨more, after⟩
          rcases filled with ⟨start, startReads, drained, moreIs⟩
          simp only at moreIs
          refine ⟨drained.sound, fun again => ⟨?_, ?_⟩, fun stateIs _ => drained.incomplete stateIs,
            drained.room⟩
          · rw [moreIs] at again
            exact beq_iff_eq.mp again
          · rw [drained.reads, startReads]
            exact less (by omega)

structure Handled (before after : World σ) : Prop where
  sound : after.Sound
  incomplete : Incomplete before.conn.rbuf → after.conn.state = .req →
    Incomplete after.conn.rbuf
  room : after.conn.state ≠ .ended → after.conn.rbuf.length < rbufCap

theorem stateReqLoop_spec (sound : w.Sound) (state : w.conn.state = .req)
    (room : w.conn.rbuf.length < rbufCap) {fuel : Nat} (enough : readWork w.reads < fuel) :
    Meets (RequestFault doRequest) (Handled w) (stateReqLoop doRequest fuel w) := by
  induction fuel generalizing w with
  | zero => exact absurd enough (Nat.not_lt_zero _)
  | succ fuel ih =>
      rw [stateReqLoop]
      apply (tryFillBuffer_spec sound state room).bind
      intro result round
      rcases result with ⟨more, after⟩
      have afterSound : after.Sound := round.sound
      cases more with
      | false =>
          exact ⟨afterSound, fun incomplete stateIs => round.incomplete stateIs (.inr incomplete),
            round.room⟩
      | true =>
          rcases round.again rfl with ⟨afterState, less⟩
          simp only at afterState less
          have afterRoom : after.conn.rbuf.length < rbufCap := round.room (by
            rw [afterState]
            decide)
          have drained : Incomplete after.conn.rbuf := round.incomplete afterState (.inl rfl)
          apply (ih afterSound afterState afterRoom (by omega)).mono
          intro last handled
          exact ⟨handled.sound, fun _ => handled.incomplete drained, handled.room⟩

structure Ready (w : World σ) : Prop where
  sound : w.Sound
  room : w.conn.rbuf.length < rbufCap
  live : w.conn.state ≠ .ended

structure IoDone (before after : World σ) : Prop where
  sound : after.Sound
  room : after.conn.state ≠ .ended → after.conn.rbuf.length < rbufCap
  handled : before.conn.state = .req → Incomplete before.conn.rbuf →
    after.conn.state = .req → Incomplete after.conn.rbuf
  flushed : before.conn.state = .res → after.conn.rbuf = before.conn.rbuf ∧
    (after.conn.state = .req ↔ drains before.conn.unsent.length before.writes = true)

theorem connectionIo_spec (ready : Ready w) (now : UInt64) :
    Meets (RequestFault doRequest) (IoDone w) (connectionIo doRequest w now) := by
  have sound := ready.sound
  have started : (wake w now).Sound :=
    ⟨⟨sound.bounded.sent, sound.bounded.size, sound.bounded.idle, sound.bounded.busy⟩,
      sound.requests, sound.replies, sound.past⟩
  unfold connectionIo
  cases state : w.conn.state with
  | req =>
      apply (stateReqLoop_spec started state ready.room (Nat.lt_succ_self _)).mono
      intro after handled
      refine ⟨handled.sound, handled.room, fun _ => handled.incomplete, fun contrary => ?_⟩
      rw [state] at contrary
      cases contrary
  | res =>
      apply ((stateRes_spec started state).widen fun _ => False.elim).mono
      intro after flushed
      refine ⟨flushed.sound, fun _ => ?_, fun contrary => ?_, fun _ => ⟨flushed.same.rbuf,
        flushed.drained⟩⟩
      · rw [flushed.same.rbuf]
        exact ready.room
      · rw [state] at contrary
        cases contrary
  | ended => exact absurd state ready.live

end

end RedisC
