/-
The request encoder of the client, against the decoder of the server.

`send_req` adds up the length of the request in 32 bits, fills a buffer on its
stack and hands it to `write_all`.  It never tests the number of arguments.  It
need not: each of them takes four bytes, so a request that fits the buffer has
fewer than `K_MAX_ARGS`, and the server takes it out of its own buffer as it was
put in.
-/

import RedisC.ConnectionInvariant

namespace RedisC

open Fallible

/-! ### The client -/

/-- The result of `send_req`, with what each call of `write` was given and what the
socket has taken. -/
structure Sending where
  code : Int := 0
  asked : List Bytes := []
  sent : Bytes := []
  deriving DecidableEq, Repr

/-- `write` takes its results from a script; a script that has run out is an error. -/
def writeAll : List WriteResult → Bytes → Sending → Sending
  | _, [], sending => { sending with code := 0 }
  | .wrote (n + 1) :: rest, byte :: buf, sending =>
      writeAll rest ((byte :: buf).drop (n + 1))
        { sending with
          asked := sending.asked ++ [byte :: buf]
          sent := sending.sent ++ (byte :: buf).take (n + 1) }
  | _, byte :: buf, sending =>
      { sending with code := -1, asked := sending.asked ++ [byte :: buf] }

/-- The length of the request, added up in a `uint32_t`. -/
def sendLen (cmd : List Bytes) : UInt32 :=
  cmd.foldl (fun len s => len + UInt32.ofNat (4 + s.length)) 4

/-- The loop that writes the strings from `curr_pos` on. -/
def packArgs : List Bytes → Nat → Bytes → Except Fault Bytes
  | [], _, wbuf => .ok wbuf
  | s :: rest, currPos, wbuf => do
      let wbuf ← storeBytes wbuf currPos (bytesU32 (UInt32.ofNat s.length))
      let wbuf ← storeBytes wbuf (currPos + 4) s
      packArgs rest (currPos + (4 + s.length)) wbuf

def sendReq (writes : List WriteResult) (cmd : List Bytes) : Except Fault Sending :=
  let len := sendLen cmd
  if len.toNat > kMaxMsg then .ok { code := -1 }
  else do
    let wbuf := List.replicate (4 + kMaxMsg) 0
    let wbuf ← storeBytes wbuf 0 (bytesU32 len)
    let wbuf ← storeBytes wbuf 4 (bytesU32 (UInt32.ofNat cmd.length))
    let wbuf ← packArgs cmd 8 wbuf
    pure (writeAll writes (wbuf.take (4 + len.toNat)) {})

/-! ### What is sent -/

def reqSize (cmd : List Bytes) : Nat := 4 + (cmd.map fun s => 4 + s.length).sum

private theorem length_encodeArgs (cmd : List Bytes) :
    (encodeArgs cmd).length = (cmd.map fun s => 4 + s.length).sum := by
  induction cmd with
  | nil => rfl
  | cons s rest ih =>
      rw [length_encodeArgs_cons, ih, List.map_cons, List.sum_cons]
      omega

theorem length_encodeReq (cmd : List Bytes) : (encodeReq cmd).length = reqSize cmd := by
  rw [encodeReq, List.length_append, length_bytesU32, length_encodeArgs, reqSize]

private theorem sendLen_from (cmd : List Bytes) (len : UInt32) :
    cmd.foldl (fun len s => len + UInt32.ofNat (4 + s.length)) len =
      len + UInt32.ofNat (cmd.map fun s => 4 + s.length).sum := by
  induction cmd generalizing len with
  | nil => exact (UInt32.add_zero len).symm
  | cons s rest ih =>
      rw [List.foldl_cons, ih, List.map_cons, List.sum_cons, UInt32.add_assoc,
        ← UInt32.ofNat_add]

theorem sendLen_eq (cmd : List Bytes) : sendLen cmd = UInt32.ofNat (reqSize cmd) := by
  rw [sendLen, sendLen_from, reqSize, UInt32.ofNat_add]
  rfl

private theorem packArgs_eq (cmd : List Bytes) {done tail : Bytes}
    (room : (encodeArgs cmd).length ≤ tail.length) :
    packArgs cmd done.length (done ++ tail) =
      .ok ((done ++ encodeArgs cmd) ++ tail.drop (encodeArgs cmd).length) := by
  induction cmd generalizing done tail with
  | nil =>
      rw [packArgs, encodeArgs, List.append_nil]
      rfl
  | cons s rest ih =>
      rw [length_encodeArgs_cons] at room
      have word := length_bytesU32 (UInt32.ofNat s.length)
      have placed : done.length + 4 = (done ++ bytesU32 (UInt32.ofNat s.length)).length := by
        rw [List.length_append, word]
      have next : done.length + (4 + s.length) =
          (done ++ bytesU32 (UInt32.ofNat s.length) ++ s).length := by
        rw [List.length_append, ← placed]
        omega
      have left : (tail.drop 4).length = tail.length - 4 := List.length_drop
      have leftAfter : ((tail.drop 4).drop s.length).length = tail.length - 4 - s.length := by
        rw [List.length_drop, left]
      rw [packArgs, storeBytes_append (by omega), ok_bind, word, placed,
        storeBytes_append (by omega), ok_bind, next, ih (by omega), length_encodeArgs_cons,
        encodeArgs, List.drop_drop, List.drop_drop]
      simp only [List.append_assoc]

/-- The buffer that `write_all` is given is the frame of the request. -/
theorem sendReq_eq (writes : List WriteResult) {cmd : List Bytes} (fits : reqSize cmd ≤ kMaxMsg) :
    sendReq writes cmd = .ok (writeAll writes (frame (encodeReq cmd)) {}) := by
  have lenIs : (sendLen cmd).toNat = reqSize cmd := by
    rw [sendLen_eq]
    exact UInt32.toNat_ofNat_of_lt' (Nat.lt_of_le_of_lt fits (by decide))
  have args := length_encodeArgs cmd
  have size : reqSize cmd = 4 + (encodeArgs cmd).length := by
    rw [args, reqSize]
  have frameLength := length_frame (encodeReq cmd)
  rw [length_encodeReq] at frameLength
  have frameIs : frame (encodeReq cmd) = bytesU32 (sendLen cmd) ++
      bytesU32 (UInt32.ofNat cmd.length) ++ encodeArgs cmd := by
    rw [frame, length_encodeReq, ← sendLen_eq, encodeReq, List.append_assoc]
  have zeros : ((List.replicate (4 + kMaxMsg) 0).drop 4 : Bytes).length = kMaxMsg := by
    rw [List.length_drop, List.length_replicate]
    omega
  have zerosAfter : (((List.replicate (4 + kMaxMsg) 0).drop 4).drop 4 : Bytes).length =
      kMaxMsg - 4 := by
    rw [List.length_drop, zeros]
  have first := @storeBytes_append [] (List.replicate (4 + kMaxMsg) 0) (bytesU32 (sendLen cmd))
    (by rw [length_bytesU32, List.length_replicate]; omega)
  have second := @storeBytes_append (bytesU32 (sendLen cmd))
    ((List.replicate (4 + kMaxMsg) 0).drop 4) (bytesU32 (UInt32.ofNat cmd.length))
    (by rw [length_bytesU32, zeros]; omega)
  have third := @packArgs_eq cmd (bytesU32 (sendLen cmd) ++ bytesU32 (UInt32.ofNat cmd.length))
    (((List.replicate (4 + kMaxMsg) 0).drop 4).drop 4) (by omega)
  rw [List.nil_append, List.nil_append, List.length_nil, length_bytesU32] at first
  rw [length_bytesU32, length_bytesU32] at second
  rw [List.length_append, length_bytesU32, length_bytesU32, ← frameIs] at third
  unfold sendReq
  rw [if_neg (by omega)]
  simp only [first, second, third, ok_bind, lenIs, List.take_left' frameLength]
  rfl

/-- What `write_all` leaves behind when it was given `buf`. -/
structure Wrote (buf : Bytes) (start after : Sending) (part : Bytes) (later : List Bytes) :
    Prop where
  sent : after.sent = start.sent ++ part
  front : part <+: buf
  asked : after.asked = start.asked ++ later
  first : buf ≠ [] → later.head? = some buf
  code : after.code = 0 ∧ part = buf ∨ after.code = -1 ∧ part ≠ buf

/-- Whatever `write` does, the bytes that were sent are the first ones of the buffer. -/
theorem writeAll_spec (writes : List WriteResult) (buf : Bytes) (start : Sending) :
    ∃ part later, Wrote buf start (writeAll writes buf start) part later := by
  induction writes, buf, start using writeAll.induct with
  | case1 writes start =>
      rw [writeAll]
      exact ⟨[], [], (List.append_nil _).symm, List.prefix_rfl, (List.append_nil _).symm,
        fun contrary => absurd rfl contrary, .inl ⟨rfl, rfl⟩⟩
  | case2 n rest byte buf start ih =>
      obtain ⟨part, later, wrote⟩ := ih
      rw [writeAll]
      have whole := List.take_append_drop (n + 1) (byte :: buf)
      refine ⟨(byte :: buf).take (n + 1) ++ part, (byte :: buf) :: later, ?_, ?_, ?_, fun _ => rfl,
        ?_⟩
      · rw [wrote.sent, List.append_assoc]
      · have longer := (List.prefix_append_right_inj ((byte :: buf).take (n + 1))).mpr wrote.front
        rw [whole] at longer
        exact longer
      · rw [wrote.asked, List.append_assoc]
        rfl
      · rcases wrote.code with ⟨zero, all⟩ | ⟨failed, part⟩
        · refine .inl ⟨zero, ?_⟩
          rw [all, whole]
        · exact .inr ⟨failed, fun all => part (List.append_cancel_left (all.trans whole.symm))⟩
  | case3 writes byte buf start stopped =>
      rw [writeAll]
      · exact ⟨[], [byte :: buf], (List.append_nil _).symm, List.nil_prefix, rfl, fun _ => rfl,
          .inr ⟨rfl, (List.cons_ne_nil _ _).symm⟩⟩
      · exact stopped

/-! ### The server -/

section

variable {σ : Type} {w : World σ}

/-- What the flushing of a reply leaves alone. -/
structure OnlySends (before after : World σ) : Prop where
  rbuf : after.conn.rbuf = before.conn.rbuf
  calls : after.calls = before.calls
  db : after.db = before.db

private theorem tryFlushBuffer_only (within : w.conn.wbufSent ≤ w.conn.wbuf.length) :
    Meets (fun _ => False)
      (fun result => OnlySends w result.2 ∧ (result.1 = true →
        result.2.conn.wbufSent ≤ result.2.conn.wbuf.length ∧
          result.2.writes.length < w.writes.length))
      (tryFlushBuffer w) := by
  unfold tryFlushBuffer
  have got := sysWrite_spec (w.conn.wbuf.length - w.conn.wbufSent) w.writes
  generalize sysWrite (w.conn.wbuf.length - w.conn.wbufSent) w.writes = result at got
  cases got with
  | wrote bounded shorter rests =>
      rename_i n rest
      have fits : w.conn.wbufSent + n ≤ w.conn.wbuf.length := by omega
      unfold flushed
      simp only [if_pos fits]
      split
      · exact ⟨⟨rfl, rfl, rfl⟩, fun contrary => Bool.noConfusion contrary⟩
      · exact ⟨⟨rfl, rfl, rfl⟩, fun _ => ⟨fits, shorter⟩⟩
  | stopped none blocked =>
      rename_i result rest
      cases result with
      | wrote n => exact absurd rfl (none n)
      | again => exact ⟨⟨rfl, rfl, rfl⟩, fun contrary => Bool.noConfusion contrary⟩
      | intr => exact ⟨⟨rfl, rfl, rfl⟩, fun contrary => Bool.noConfusion contrary⟩
      | error => exact ⟨⟨rfl, rfl, rfl⟩, fun contrary => Bool.noConfusion contrary⟩

private theorem stateResLoop_only (within : w.conn.wbufSent ≤ w.conn.wbuf.length) {fuel : Nat}
    (enough : w.writes.length < fuel) :
    Meets (fun _ => False) (OnlySends w) (stateResLoop fuel w) := by
  induction fuel generalizing w with
  | zero => exact absurd enough (Nat.not_lt_zero _)
  | succ fuel ih =>
      rw [stateResLoop]
      apply (tryFlushBuffer_only within).bind
      intro result round
      rcases result with ⟨more, after⟩
      rcases round with ⟨only, again⟩
      cases more with
      | false => exact ⟨only.rbuf, only.calls, only.db⟩
      | true =>
          obtain ⟨withinAfter, fewer⟩ := again rfl
          have left : (observe .flushed after).writes.length < fuel :=
            Nat.lt_of_lt_of_le fewer (Nat.le_of_lt_succ enough)
          have next : (observe .flushed after).conn.wbufSent ≤
              (observe .flushed after).conn.wbuf.length := withinAfter
          apply (ih next left).mono
          intro last later
          exact ⟨later.rbuf.trans only.rbuf, later.calls.trans only.calls, later.db.trans only.db⟩

variable {doRequest : σ → List Bytes → Except Fault (σ × Bytes)}

private theorem tryOneRequest_frame {body rest : Bytes} (short : body.length ≤ kMaxMsg)
    (split : w.conn.rbuf = frame body ++ rest) :
    tryOneRequest doRequest w = execute doRequest w body := by
  have lenIs : (UInt32.ofNat body.length).toNat = body.length :=
    UInt32.toNat_ofNat_of_lt' (Nat.lt_of_le_of_lt short (by decide))
  have size : w.conn.rbuf.length = 4 + body.length + rest.length := by
    rw [split, List.length_append, length_frame]
  have lenRead : loadU32 w.conn.rbuf 0 = .ok (UInt32.ofNat body.length) := by
    rw [split, frame, List.append_assoc]
    exact loadU32_append [] _ _
  have bodyRead := loadBytes_append (bytesU32 (UInt32.ofNat body.length)) body rest
  rw [length_bytesU32, ← List.append_assoc, ← frame, ← split] at bodyRead
  unfold tryOneRequest
  rw [if_neg (by omega), lenRead, ok_bind, lenIs, if_neg (by omega), if_neg (by omega), bodyRead,
    ok_bind]

private theorem count_le_reqSize (cmd : List Bytes) : 4 + 4 * cmd.length ≤ reqSize cmd := by
  unfold reqSize
  induction cmd with
  | nil => exact Nat.le_refl _
  | cons s rest ih =>
      rw [List.map_cons, List.sum_cons, List.length_cons]
      omega

private theorem length_le_reqSize {cmd : List Bytes} {s : Bytes} (member : s ∈ cmd) :
    s.length ≤ reqSize cmd := by
  unfold reqSize
  induction member with
  | head rest =>
      rw [List.map_cons, List.sum_cons]
      omega
  | tail first _ ih =>
      rw [List.map_cons, List.sum_cons]
      omega

theorem parseReq_encodeReq {cmd : List Bytes} (fits : reqSize cmd ≤ kMaxMsg) :
    parseReq (encodeReq cmd) = .ok (0, cmd) := by
  have count := count_le_reqSize cmd
  have limits : kMaxMsg = 4 * kMaxArgs := rfl
  have small : (encodeReq cmd).length < 2 ^ 32 := by
    rw [length_encodeReq]
    exact Nat.lt_of_le_of_lt fits (by decide)
  apply (parseReq_eq_ok_iff small _).mpr
  constructor
  · omega
  · constructor
    · intro s member
      exact Nat.lt_of_le_of_lt (Nat.le_trans (length_le_reqSize member) fits) (by decide)
    · rfl

/-- The reply is packed behind the request and sent as far as the socket allows. -/
private theorem respond_only {len : Nat} {out : Bytes} (idle : w.conn.wbufSent = 0) :
    Meets (fun _ => False)
      (fun after => after.conn.rbuf = w.conn.rbuf.drop (4 + len) ∧ after.calls = w.calls ∧
        after.db = w.db)
      (respond w len out) := by
  have within : (pack (observe .pack w) len out).conn.wbufSent ≤
      (pack (observe .pack w) len out).conn.wbuf.length := by
    change w.conn.wbufSent ≤ _
    rw [idle]
    exact Nat.zero_le _
  apply (@stateResLoop_only _ (observe .packed (pack (observe .pack w) len out)) within _
    (Nat.lt_succ_self _)).mono
  intro after only
  exact ⟨only.rbuf, only.calls, only.db⟩

/-- The request is executed, its reply is packed and no other byte is taken. -/
private theorem tryOneRequest_executes {cmd : List Bytes} {rest : Bytes}
    (fits : reqSize cmd ≤ kMaxMsg)
    (idle : w.conn.wbufSent = 0) (split : w.conn.rbuf = frame (encodeReq cmd) ++ rest) :
    (∀ fault, doRequest w.db cmd = .error fault → tryOneRequest doRequest w = .error fault) ∧
      ∀ db out, doRequest w.db cmd = .ok (db, out) →
        ∃ more after, tryOneRequest doRequest w = .ok (more, after) ∧
          after.calls = w.calls ++ [(cmd, out)] ∧ after.db = db ∧ after.conn.rbuf = rest := by
  have short : (encodeReq cmd).length ≤ kMaxMsg := by
    rw [length_encodeReq]
    exact fits
  rw [tryOneRequest_frame short split, execute, parseReq_encodeReq fits]
  constructor
  · intro fault stopped
    simp [stopped]
  · intro db out returned
    obtain ⟨after, responded, taken, calls, sameDb⟩ :=
      (@respond_only _ { w with db := db, calls := w.calls ++ [(cmd, out)] }
        (encodeReq cmd).length out idle).returns
    refine ⟨after.conn.state == .req, after, ?_, calls, sameDb, ?_⟩
    · simp [returned, responded]
    · rw [taken]
      change w.conn.rbuf.drop _ = rest
      rw [split, ← length_frame, List.drop_left]

end

/-- A request of at most `K_MAX_MSG` bytes is written as one frame, which the server takes
out of its buffer as the same list of strings, whatever stands behind it.  A longer one is
refused before anything is written. -/
theorem sendReq_agrees_with_server (writes : List WriteResult) (cmd : List Bytes)
    (counted : reqSize cmd < 2 ^ 32) :
    ∃ sending, sendReq writes cmd = .ok sending ∧
      (sending.code = -1 ∧ sending.asked = [] ↔ kMaxMsg < reqSize cmd) ∧
      (reqSize cmd ≤ kMaxMsg →
        sending.asked.head? = some (frame (encodeReq cmd)) ∧
        sending.sent <+: frame (encodeReq cmd) ∧
        (sending.code = 0 ∧ sending.sent = frame (encodeReq cmd) ∨
          sending.code = -1 ∧ sending.sent ≠ frame (encodeReq cmd)) ∧
        ∀ (σ : Type) (doRequest : σ → List Bytes → Except Fault (σ × Bytes)) (w : World σ)
          (rest : Bytes), w.conn.wbufSent = 0 → w.conn.rbuf = frame (encodeReq cmd) ++ rest →
          (∀ fault, doRequest w.db cmd = .error fault →
            tryOneRequest doRequest w = .error fault) ∧
          ∀ db out, doRequest w.db cmd = .ok (db, out) →
            ∃ more after, tryOneRequest doRequest w = .ok (more, after) ∧
              after.calls = w.calls ++ [(cmd, out)] ∧ after.db = db ∧
              after.conn.rbuf = rest) := by
  by_cases fits : reqSize cmd ≤ kMaxMsg
  · obtain ⟨part, later, wrote⟩ := writeAll_spec writes (frame (encodeReq cmd)) {}
    have sentIs : (writeAll writes (frame (encodeReq cmd)) {}).sent = part := wrote.sent
    have askedIs : (writeAll writes (frame (encodeReq cmd)) {}).asked = later := wrote.asked
    have some : frame (encodeReq cmd) ≠ [] := by
      apply List.ne_nil_of_length_pos
      rw [length_frame]
      omega
    have asked := wrote.first some
    refine ⟨_, sendReq_eq writes fits, ?_, fun _ => ?_⟩
    · rw [askedIs]
      constructor
      · intro refused
        rw [refused.2] at asked
        cases asked
      · intro long
        omega
    · rw [askedIs, sentIs]
      refine ⟨asked, wrote.front, wrote.code, ?_⟩
      intro σ doRequest w rest idle split
      exact tryOneRequest_executes fits idle split
  · have long : kMaxMsg < reqSize cmd := Nat.lt_of_not_le fits
    have lenIs : (sendLen cmd).toNat = reqSize cmd := by
      rw [sendLen_eq]
      exact UInt32.toNat_ofNat_of_lt' counted
    refine ⟨{ code := -1 }, ?_, ?_, fun short => absurd short fits⟩
    · rw [← lenIs] at long
      exact if_pos long
    · exact ⟨fun _ => long, fun _ => ⟨rfl, rfl⟩⟩

/-- The command `get k` is written in two parts, and the server leaves what follows. -/
theorem sendReq_agrees_with_server_get :
    let cmd : List Bytes := [[103, 101, 116], [107]]
    let w : World Unit := { db := (), conn := { rbuf := frame (encodeReq cmd) ++ [7] } }
    (∃ sending, sendReq [.wrote 5, .wrote 15] cmd = .ok sending ∧ sending.code = 0 ∧
        sending.sent = frame (encodeReq cmd)) ∧
      ∃ more after, tryOneRequest (fun db _ => .ok (db, outNil [])) w = .ok (more, after) ∧
        after.calls = [(cmd, outNil [])] ∧ after.conn.rbuf = [7] := by
  intro cmd w
  obtain ⟨sending, returned, refused, taken⟩ :=
    sendReq_agrees_with_server [.wrote 5, .wrote 15] cmd (by decide)
  obtain ⟨-, -, -, server⟩ := taken (by decide)
  have wrote : sendReq [.wrote 5, .wrote 15] cmd = .ok
      { code := 0, asked := [frame (encodeReq cmd), (frame (encodeReq cmd)).drop 5],
        sent := frame (encodeReq cmd) } :=
    sendReq_eq [.wrote 5, .wrote 15] (by decide)
  rw [wrote] at returned
  cases returned
  constructor
  · exact ⟨_, wrote, rfl, rfl⟩
  · obtain ⟨more, after, ran, calls, -, rbuf⟩ :=
      (server Unit (fun db _ => .ok (db, outNil [])) w [7] rfl rfl).2 () (outNil []) rfl
    exact ⟨more, after, ran, calls, rbuf⟩

end RedisC
