/-
The client and the server together.

`read_res` reads a length and as many bytes, in whatever pieces the socket brings
them, and hands the bytes to `on_response`.  What the server has sent to a client is
the frame of its answer, so the client prints the answer, and prints nothing of an
answer that it has not got whole.  The answer is that of a dictionary that has taken
the requests of all other clients before and after.
-/

import RedisC.Serial
import RedisC.SendReq

namespace RedisC

open Fallible LabelledRun

/-! ### Reading a reply -/

/-- What `read_full` leaves behind.  `failed` says that `errno` has been set. -/
structure Reading where
  code : Int := 0
  buf : Bytes := []
  reads : List ReadResult := []
  failed : Bool := false
  deriving DecidableEq, Repr

/-- `read` takes its results from a script; a script that has run out is the end of the
stream.  Bytes beyond those asked for stay for the next call. -/
def readFull : List ReadResult → Nat → Bytes → Reading
  | reads, 0, buf => { buf := buf, reads := reads }
  | [], _ + 1, buf => { code := -1, buf := buf }
  | .data [] :: rest, _ + 1, buf => { code := -1, buf := buf, reads := rest }
  | .data (byte :: bytes) :: rest, n + 1, buf =>
      if bytes.length ≤ n then readFull rest (n - bytes.length) (buf ++ byte :: bytes)
      else
        { buf := buf ++ (byte :: bytes).take (n + 1)
          reads := .data ((byte :: bytes).drop (n + 1)) :: rest }
  | _ :: rest, _ + 1, buf => { code := -1, buf := buf, reads := rest, failed := true }

/-- What `read_res` returns, prints and complains of, and what is left of the stream. -/
structure Answer where
  rv : Int32
  visits : List Visit := []
  complaint : Option String := none
  reads : List ReadResult := []
  deriving DecidableEq, Repr

def readRes (reads : List ReadResult) : Except Fault Answer :=
  let header := readFull reads 4 []
  if header.code ≠ 0 then
    .ok {
      rv := -1
      complaint := some (if header.failed then "read() error" else "EOF")
      reads := header.reads }
  else do
    let len ← loadU32 header.buf 0
    if len.toNat > kMaxMsg then
      pure { rv := -1, complaint := some "too long", reads := header.reads }
    else
      let body := readFull header.reads len.toNat []
      if body.code ≠ 0 then
        pure { rv := -1, complaint := some "read() error", reads := body.reads }
      else do
        let (rv, visits) ← onResponse body.buf
        if 0 < rv ∧ rv.toUInt32 ≠ len then
          pure {
            rv := -1
            visits := visits
            complaint := some "bad response"
            reads := body.reads }
        else pure { rv := rv, visits := visits, reads := body.reads }

/-- `main` of the client after `connect`: the reply is read only if the request was sent. -/
def client (writes : List WriteResult) (reads : List ReadResult) (cmd : List Bytes) :
    Except Fault (Sending × Option Answer) := do
  let sending ← sendReq writes cmd
  if sending.code ≠ 0 then pure (sending, none)
  else do
    let answer ← readRes reads
    pure (sending, some answer)

/-! ### Streams in pieces -/

/-- The stream brings `bytes`, in pieces that are not empty, and then `later`. -/
def Brings (bytes : Bytes) (later reads : List ReadResult) : Prop :=
  ∃ pieces : List Bytes, (∀ piece ∈ pieces, piece ≠ []) ∧ pieces.flatten = bytes ∧
    reads = pieces.map ReadResult.data ++ later

private theorem readFull_zero (reads : List ReadResult) (buf : Bytes) :
    readFull reads 0 buf = { buf := buf, reads := reads } := by
  rw [readFull]

private theorem readFull_brings {wanted more : Bytes} {later reads : List ReadResult}
    (brings : Brings (wanted ++ more) later reads) (buf : Bytes) :
    ∃ rest, readFull reads wanted.length buf = { buf := buf ++ wanted, reads := rest } ∧
      Brings more later rest := by
  obtain ⟨pieces, nonempty, flat, rfl⟩ := brings
  induction pieces generalizing wanted buf with
  | nil =>
      obtain ⟨noneWanted, noMore⟩ := List.append_eq_nil_iff.mp flat.symm
      subst noneWanted noMore
      refine ⟨_, ?_, [], nonempty, rfl, rfl⟩
      rw [List.append_nil]
      exact readFull_zero _ buf
  | cons piece pieces ih =>
      cases wanted with
      | nil =>
          refine ⟨_, ?_, piece :: pieces, nonempty, flat, rfl⟩
          rw [List.append_nil]
          exact readFull_zero _ buf
      | cons first wanted =>
          cases piece with
          | nil => exact absurd rfl (nonempty [] List.mem_cons_self)
          | cons byte bytes =>
              have others := fun piece member => nonempty piece (List.mem_cons_of_mem _ member)
              change byte :: (bytes ++ pieces.flatten) = first :: (wanted ++ more) at flat
              obtain ⟨rfl, tail⟩ := List.cons.inj flat
              rw [List.map_cons, List.cons_append, List.length_cons, readFull]
              by_cases short : bytes.length ≤ wanted.length
              · -- the piece is used up
                rw [if_pos short]
                have front : bytes <+: wanted :=
                  List.prefix_of_prefix_length_le ⟨_, tail⟩ ⟨_, rfl⟩ short
                obtain ⟨rest, restIs⟩ := front
                have flatRest : pieces.flatten = rest ++ more := by
                  rw [← restIs, List.append_assoc] at tail
                  exact List.append_cancel_left tail
                obtain ⟨left, readRest, bringsMore⟩ := ih (buf ++ byte :: bytes) others flatRest
                refine ⟨left, ?_, bringsMore⟩
                have lengthRest : wanted.length - bytes.length = rest.length := by
                  rw [← restIs, List.length_append, Nat.add_sub_cancel_left]
                rw [lengthRest, readRest, List.append_assoc, ← restIs]
                rfl
              · -- the piece has bytes of what comes next
                rw [if_neg short]
                have front : wanted <+: bytes :=
                  List.prefix_of_prefix_length_le ⟨_, rfl⟩ ⟨_, tail⟩ (by omega)
                obtain ⟨rest, restIs⟩ := front
                have flatMore : rest ++ pieces.flatten = more := by
                  rw [← restIs, List.append_assoc] at tail
                  exact List.append_cancel_left tail
                have someLeft : rest ≠ [] := by
                  intro empty
                  rw [← restIs, empty, List.append_nil] at short
                  exact short (Nat.le_refl _)
                refine ⟨.data rest :: (pieces.map ReadResult.data ++ later), ?_,
                  rest :: pieces, ?_, flatMore, rfl⟩
                · rw [← restIs, List.take_succ_cons, List.drop_succ_cons, List.take_left,
                    List.drop_left]
                · intro piece member
                  rcases List.mem_cons.mp member with isRest | inPieces
                  · rw [isRest]
                    exact someLeft
                  · exact others piece inPieces

private theorem readFull_short {got : Bytes} {reads : List ReadResult}
    (brings : Brings got [] reads)
    {n : Nat} (short : got.length < n) (buf : Bytes) :
    (readFull reads n buf).code = -1 ∧ (readFull reads n buf).failed = false := by
  obtain ⟨pieces, nonempty, flat, rfl⟩ := brings
  induction pieces generalizing got n buf with
  | nil =>
      cases n with
      | zero => exact absurd short (Nat.not_lt_zero _)
      | succ n => exact ⟨rfl, rfl⟩
  | cons piece pieces ih =>
      cases n with
      | zero => exact absurd short (Nat.not_lt_zero _)
      | succ n =>
          cases piece with
          | nil => exact absurd rfl (nonempty [] List.mem_cons_self)
          | cons byte bytes =>
              have others := fun piece member => nonempty piece (List.mem_cons_of_mem _ member)
              have lengths : bytes.length + 1 + pieces.flatten.length = got.length := by
                rw [← flat, List.flatten_cons, List.length_append, List.length_cons]
              rw [List.map_cons, List.cons_append, readFull, if_pos (by omega)]
              exact ih (show pieces.flatten.length < n - bytes.length by omega) _ others rfl

private theorem loadU32_bytesU32 (value : UInt32) : loadU32 (bytesU32 value) 0 = .ok value := by
  have whole := loadU32_append [] value []
  rw [List.append_nil] at whole
  exact whole

private theorem readRes_frame {value : Value} (exact : value.Exact)
    (fits : value.encode.length ≤ kMaxMsg)
    {more : Bytes} {later reads : List ReadResult}
    (brings : Brings (frame value.encode ++ more) later reads) :
    ∃ rest, readRes reads = .ok
        { rv := Int32.ofNat value.encode.length, visits := value.visits, reads := rest } ∧
      Brings more later rest := by
  have small : value.encode.length < 2 ^ 31 := Nat.lt_of_le_of_lt fits (by decide)
  have lenIs : (UInt32.ofNat value.encode.length).toNat = value.encode.length :=
    UInt32.toNat_ofNat_of_lt' (Nat.lt_of_lt_of_le small (by decide))
  rw [frame, List.append_assoc] at brings
  obtain ⟨body, headerIs, bringsBody⟩ := readFull_brings brings []
  rw [length_bytesU32, List.nil_append] at headerIs
  obtain ⟨rest, bodyIs, bringsMore⟩ := readFull_brings bringsBody []
  rw [List.nil_append] at bodyIs
  refine ⟨rest, ?_, bringsMore⟩
  unfold readRes
  simp only [headerIs, ne_eq, not_true_eq_false, if_false, loadU32_bytesU32, ok_bind, lenIs,
    gt_iff_lt, Nat.not_lt.mpr fits, bodyIs, onResponse_encode exact small]
  rw [if_neg]
  · rfl
  · intro both
    exact both.2 rfl

private theorem readRes_cut {body got : Bytes} (fits : body.length ≤ kMaxMsg)
    (front : got <+: frame body)
    (cut : got ≠ frame body) {reads : List ReadResult} (brings : Brings got [] reads) :
    ∃ rest, readRes reads = .ok
      { rv := -1
        complaint := some (if got.length < 4 then "EOF" else "read() error")
        reads := rest } := by
  have lenIs : (UInt32.ofNat body.length).toNat = body.length :=
    UInt32.toNat_ofNat_of_lt' (Nat.lt_of_le_of_lt fits (by decide))
  unfold readRes
  by_cases tiny : got.length < 4
  · obtain ⟨code, failed⟩ := readFull_short brings tiny []
    simp only [code, failed, tiny]
    exact ⟨_, rfl⟩
  · have word : bytesU32 (UInt32.ofNat body.length) <+: frame body := ⟨body, rfl⟩
    have longer : (bytesU32 (UInt32.ofNat body.length)).length ≤ got.length := by
      rw [length_bytesU32]
      exact Nat.not_lt.mp tiny
    obtain ⟨part, rfl⟩ := List.prefix_of_prefix_length_le word front longer
    obtain ⟨tail, tailIs⟩ := front
    obtain ⟨rest, headerIs, bringsPart⟩ := readFull_brings brings []
    rw [length_bytesU32, List.nil_append] at headerIs
    have bodyIs : part ++ tail = body := by
      rw [frame, List.append_assoc] at tailIs
      exact List.append_cancel_left tailIs
    have someLeft : tail ≠ [] := by
      intro empty
      rw [empty, List.append_nil] at tailIs
      exact cut tailIs
    have short : part.length < body.length := by
      rw [← bodyIs, List.length_append]
      exact Nat.lt_add_of_pos_right (List.length_pos_iff.mpr someLeft)
    obtain ⟨code, failed⟩ := readFull_short bringsPart short []
    simp only [headerIs, ne_eq, not_true_eq_false, if_false, loadU32_bytesU32, ok_bind, lenIs,
      gt_iff_lt, Nat.not_lt.mpr fits, code, tiny]
    exact ⟨_, rfl⟩

/-! ### The first request of a connection -/

section

variable {σ : Type} {service : Service σ} {server after : Server σ}

def Link.Prompt (link : Link) : Prop :=
  link.calls = [] → link.conn.state = .req ∧ Incomplete link.conn.rbuf

theorem Link.Ready.calls_of_res {link : Link} (ready : link.Ready)
    (state : link.conn.state = .res) : link.calls ≠ [] := by
  intro none
  have busy := ready.sound.bounded.busy state
  have replies : link.sent ++ link.conn.unsent =
      frames (link.calls.map fun call => packReply call.2) := ready.sound.replies
  rw [none] at replies
  have unsent := (List.append_eq_nil_iff.mp replies).2
  have length := length_unsent link.conn
  rw [unsent] at length
  change link.conn.wbufSent < link.conn.wbuf.length at busy
  rw [List.length_nil] at length
  omega

theorem ServerStep.prompt {event : Event} (good : server.Good)
    (prompt : ∀ fd link, server.fd2conn fd = some link → link.Prompt)
    (step : ServerStep service server event after) :
    ∀ fd link, after.fd2conn fd = some link → link.Prompt := by
  intro fd link live none
  have ready := (ServerStep.good service server event after good step).ready fd link live
  cases step.origin live with
  | kept before => exact prompt fd link before none
  | opened now new =>
      rw [new]
      exact ⟨rfl, .inl (Nat.zero_lt_succ _)⟩
  | served isIo before returned stays linkIs =>
      rename_i now reads writes old w
      obtain ⟨bodies, made, served⟩ := (connectionIo_serves _ now).of_ok returned
      have calls : link.calls = old.calls ++ made := by
        rw [linkIs]
        exact served.calls
      rw [none] at calls
      obtain ⟨noneBefore, -⟩ := List.append_eq_nil_iff.mp calls.symm
      obtain ⟨oldState, oldIncomplete⟩ := prompt fd old before noneBefore
      have attached := (good.ready fd old before).attach server.db reads writes
      have done := (connectionIo_spec attached now).of_ok returned
      have state : link.conn.state = .req := by
        cases stateIs : link.conn.state with
        | req => rfl
        | res => exact absurd none (ready.calls_of_res stateIs)
        | ended => exact absurd stateIs ready.live
      refine ⟨state, ?_⟩
      rw [linkIs] at state ⊢
      exact done.handled oldState oldIncomplete state

private theorem server_prompt {db : σ} {trace : List Event}
    (run : Runs (ServerStep service) { db := db } trace server) {fd : Nat} {link : Link}
    (live : server.fd2conn fd = some link) : link.Prompt := by
  have start : ({ db := db } : Server σ).Good ∧
      ∀ fd link, ({ db := db } : Server σ).fd2conn fd = some link → link.Prompt := by
    refine ⟨Server.good_start db, fun fd link live => ?_⟩
    cases live
  have preserved : ∀ (before : Server σ) (event : Event) (after : Server σ),
      (before.Good ∧ ∀ fd link, before.fd2conn fd = some link → link.Prompt) →
      ServerStep service before event after →
        after.Good ∧ ∀ fd link, after.fd2conn fd = some link → link.Prompt := by
    intro before event after holds step
    exact ⟨ServerStep.good service before event after holds.1 step,
      step.prompt holds.1 holds.2⟩
  exact (run.invariant preserved start).2 fd link live

private theorem frame_append_inj {body other rest more : Bytes} (small : body.length < 2 ^ 32)
    (smallToo : other.length < 2 ^ 32) (same : frame body ++ rest = frame other ++ more) :
    body = other ∧ rest = more := by
  rw [frame, frame, List.append_assoc, List.append_assoc] at same
  obtain ⟨words, tails⟩ := List.append_inj same (by simp)
  have lengths := congrArg UInt32.toNat (bytesU32_inj words)
  rw [UInt32.toNat_ofNat_of_lt' small, UInt32.toNat_ofNat_of_lt' smallToo] at lengths
  exact List.append_inj tails lengths

/-- A connection on which one request has come, and nothing else, has executed it. -/
theorem Link.Speaks.one {link : Link} {calls : List (List Bytes × Bytes)}
    (speaks : link.Speaks calls) (prompt : link.Prompt) (made : link.calls = calls)
    {cmd : List Bytes} (fits : reqSize cmd ≤ kMaxMsg)
    (received : link.received = frame (encodeReq cmd)) :
    ∃ out, calls = [(cmd, out)] ∧ link.sent ++ link.conn.unsent = frame (packReply out) := by
  have size := length_encodeReq cmd
  have small : (encodeReq cmd).length < 2 ^ 32 := by
    rw [size]
    exact Nat.lt_of_le_of_lt fits (by decide)
  obtain ⟨⟨bodies, framed, split⟩, replies⟩ := speaks
  rw [received] at split
  cases framed with
  | nil =>
      obtain ⟨-, incomplete⟩ := prompt made
      have rbufIs : link.conn.rbuf = frame (encodeReq cmd) := split.symm
      have whole := length_frame (encodeReq cmd)
      have frameLenIs : frameLen link.conn.rbuf = (encodeReq cmd).length := by
        have enough : 4 ≤ link.conn.rbuf.length := by
          rw [rbufIs]
          omega
        obtain ⟨len, -, lenIs, word⟩ := loadU32_frameLen enough
        rw [rbufIs, frame, take_bytesU32] at word
        rw [← lenIs, ← bytesU32_inj word, UInt32.toNat_ofNat_of_lt' small]
      rw [Incomplete, frameLenIs, rbufIs] at incomplete
      omega
  | cons first rest =>
      rename_i body call bodies calls
      change frame (encodeReq cmd) = frame body ++ frames bodies ++ _ at split
      rw [List.append_assoc, ← List.append_nil (frame (encodeReq cmd))] at split
      have short : body.length < 2 ^ 32 := Nat.lt_of_le_of_lt first.short (by decide)
      obtain ⟨bodyIs, nothing⟩ := frame_append_inj small short split
      have parsed := first.parsed
      rw [← bodyIs, parseReq_encodeReq fits] at parsed
      obtain ⟨-, cmdIs⟩ := Prod.mk.inj (Except.ok.inj parsed)
      obtain ⟨noFrames, -⟩ := List.append_eq_nil_iff.mp nothing.symm
      cases rest with
      | nil =>
          refine ⟨call.2, ?_, ?_⟩
          · rw [cmdIs]
          · rw [replies]
            exact List.append_nil _
      | cons second others =>
          have length := congrArg List.length noFrames
          rw [frames, List.map_cons, List.flatten_cons, List.length_append, length_frame,
            List.length_nil] at length
          omega

end

/-! ### One client among others -/

private theorem exists_call_of_session {fd : Nat} {actions : List Action} {cmd : List Bytes}
    {out : Bytes} (member : (cmd, out) ∈ session fd actions) :
    ∃ before after, actions = before ++ .call fd cmd out :: after := by
  induction actions using List.reverseRecOn with
  | nil => cases member
  | append_singleton earlier last ih =>
      have kept : (cmd, out) ∈ session fd earlier →
          ∃ before after, earlier ++ [last] = before ++ .call fd cmd out :: after := by
        intro early
        obtain ⟨before, after, split⟩ := ih early
        refine ⟨before, after ++ [last], ?_⟩
        rw [split, List.append_assoc, List.cons_append]
      rw [session_append, List.foldl_cons, List.foldl_nil] at member
      cases last with
      | opened other =>
          rw [record] at member
          split at member
          · cases member
          · exact kept member
      | expire now => exact kept member
      | call other otherCmd otherOut =>
          rw [record] at member
          split at member
          · rename_i same
            rcases List.mem_append.mp member with early | isLast
            · exact kept early
            · obtain ⟨rfl, rfl⟩ := Prod.mk.inj (List.mem_singleton.mp isLast)
              exact ⟨earlier, [], by rw [same]⟩
          · exact kept member

private theorem fits_of_sent {writes : List WriteResult} {cmd : List Bytes} {sending : Sending}
    (counted : reqSize cmd < 2 ^ 32) (sends : sendReq writes cmd = .ok sending)
    (sent : sending.code = 0) :
    reqSize cmd ≤ kMaxMsg ∧ sending.sent = frame (encodeReq cmd) := by
  have lenIs : (sendLen cmd).toNat = reqSize cmd := by
    rw [sendLen_eq]
    exact UInt32.toNat_ofNat_of_lt' counted
  have fits : reqSize cmd ≤ kMaxMsg := by
    by_contra long
    rw [sendReq, if_pos (by omega)] at sends
    rw [← Except.ok.inj sends] at sent
    cases sent
  refine ⟨fits, ?_⟩
  rw [sendReq_eq writes fits] at sends
  obtain ⟨part, later, wrote⟩ := writeAll_spec writes (frame (encodeReq cmd)) {}
  rw [Except.ok.inj sends] at wrote
  rcases wrote.code with ⟨-, whole⟩ | ⟨failed, -⟩
  · rw [wrote.sent, whole]
    rfl
  · rw [sent] at failed
    cases failed

/-- The client that has sent a request prints the answer of the dictionary that all
connections share, once the server has sent it, and prints nothing before.  The bytes pass the
sockets in any pieces, in both directions. -/
theorem client_prints_answer (strtod : Strtod) (refusal : Fault) {supply : Nat → Alloc}
    {mem : ListPtr → DList ListPtr} {trace : List Polled} {loop : Loop Db}
    (run : Runs (RoundStep (redisSupplied strtod refusal)) (Loop.start { supply := supply } mem)
      trace loop) {fd : Nat} {link : Link} (live : loop.linkAt fd = some link)
    {writes : List WriteResult} {cmd : List Bytes} {sending : Sending}
    (counted : reqSize cmd < 2 ^ 32) (sends : sendReq writes cmd = .ok sending)
    (sent : sending.code = 0) (arrived : link.received = sending.sent)
    {reads : List ReadResult} (brings : Brings link.sent [] reads) :
    ∃ before after dict value,
      history (redisSupplied strtod refusal) { db := { supply := supply } }
          ((Loop.start { supply := supply } mem).eventsOf (redisSupplied strtod refusal) trace) =
        before ++ .call fd cmd value.encode :: after ∧
      Runs (DictStep strtod) (fun _ => none) before dict ∧
      (Reference.request strtod dict cmd).2.Admits dict value ∧
      ∃ answer, client writes reads cmd = .ok (sending, some answer) ∧
        if link.conn.unsent = [] then
          answer.rv = Int32.ofNat value.packed.encode.length ∧
            answer.visits = value.packed.visits ∧ answer.complaint = none
        else answer.rv = -1 ∧ answer.visits = [] := by
  obtain ⟨fits, sentIs⟩ := fits_of_sent counted sends sent
  obtain ⟨server, events, ⟨ptrs, -, same⟩, -⟩ := Loop.start_follows run
  obtain ⟨lastDict, -, reference⟩ := dictionary_of_run events
  obtain ⟨-, recorded, -⟩ := server_history events (Server.recorded_start _)
  have sameLinks : loop.linkAt = server.fd2conn := congrArg Server.fd2conn same
  rw [sameLinks] at live
  have made := recorded fd link live
  rw [sentIs] at arrived
  obtain ⟨out, session, replies⟩ :=
    (recorded.speaks events live).one (server_prompt events live) made fits arrived
  obtain ⟨before, after, split⟩ := exists_call_of_session (session ▸ List.mem_singleton.mpr rfl)
  rw [List.nil_append] at split
  rw [split] at reference
  obtain ⟨dict, early, late⟩ := reference.split
  cases late with
  | cons step rest =>
      obtain ⟨value, outIs, admitted, -⟩ := step
      rw [outIs] at split
      rw [outIs, packReply_encode] at replies
      have packedFits : value.packed.encode.length ≤ kMaxMsg :=
        (length_packed value).trans (Nat.sub_le _ _)
      refine ⟨before, after, dict, value, split, early, admitted, ?_⟩
      rw [client, sends, ok_bind, if_neg (not_not.mpr sent)]
      by_cases flushed : link.conn.unsent = []
      · rw [flushed, List.append_nil] at replies
        rw [replies, ← List.append_nil (frame _)] at brings
        obtain ⟨left, answered, -⟩ := readRes_frame (exact_packed value) packedFits brings
        rw [answered]
        refine ⟨_, rfl, ?_⟩
        rw [if_pos flushed]
        exact ⟨rfl, rfl, rfl⟩
      · have front : link.sent <+: frame value.packed.encode := ⟨_, replies⟩
        have cut : link.sent ≠ frame value.packed.encode := by
          intro whole
          rw [← whole] at replies
          exact flushed (List.append_right_eq_self.mp replies)
        obtain ⟨left, answered⟩ := readRes_cut packedFits front cut brings
        rw [answered]
        refine ⟨_, rfl, ?_⟩
        rw [if_neg flushed]
        exact ⟨rfl, rfl⟩

def getA : List Bytes := [ascii "get", [97]]

def askedInPieces : List Polled :=
  [⟨fun _ => none, 0, some ⟨some 2, some 8, 1⟩⟩,
    ⟨fun _ => some ⟨2, [.data (frame (encodeReq [ascii "set", [97], [98]]))], [.wrote 9]⟩, 3,
      some ⟨some 4, some 9, 4⟩⟩,
    ⟨fun fd => if fd = 4 then some ⟨5, [.data ((frame (encodeReq getA)).take 6)], []⟩ else none, 6,
      none⟩,
    ⟨fun fd => if fd = 4 then some ⟨7, [.data ((frame (encodeReq getA)).drop 6)],
      [.wrote 3, .wrote 7]⟩ else none, 8, none⟩]

theorem client_prints_answer_inPieces :
    ∃ loop link sending,
      Runs (RoundStep (redisSupplied strtodOne .spin)) mainStart askedInPieces loop ∧
      loop.linkAt 4 = some link ∧ link.conn.unsent = [] ∧
      sendReq [.wrote 4, .wrote 100] getA = .ok sending ∧ link.received = sending.sent ∧
      ∃ value answer,
        client [.wrote 4, .wrote 100] [.data (link.sent.take 1), .data (link.sent.drop 1)] getA =
          .ok (sending, some answer) ∧ answer.visits = Value.visits value := by
  have followed : ((follow (roundNext (redisSupplied strtodOne .spin)) mainStart
      askedInPieces).any fun loop => (loop.linkAt 4).any fun link =>
        link.conn.unsent == [] && link.received == frame (encodeReq getA) &&
          decide (1 < link.sent.length)) = true := by
    decide +kernel
  obtain ⟨loop, loopIs, found⟩ := (Option.any_eq_true _ _).mp followed
  obtain ⟨link, live, checked⟩ := (Option.any_eq_true _ _).mp found
  obtain ⟨both, long⟩ := Bool.and_eq_true_iff.mp checked
  obtain ⟨flushed, received⟩ := Bool.and_eq_true_iff.mp both
  have run := runs_of_follow_eq (roundNext_sound _) loopIs
  have sends : sendReq [.wrote 4, .wrote 100] getA = .ok
      { code := 0, asked := [frame (encodeReq getA), (frame (encodeReq getA)).drop 4],
        sent := frame (encodeReq getA) } := by
    decide +kernel
  have brings : Brings link.sent [] [.data (link.sent.take 1), .data (link.sent.drop 1)] := by
    have enough := of_decide_eq_true long
    refine ⟨[link.sent.take 1, link.sent.drop 1], ?_, ?_, rfl⟩
    · intro piece member
      apply List.ne_nil_of_length_pos
      rcases List.mem_cons.mp member with rfl | isSecond
      · rw [List.length_take]
        omega
      · rw [List.mem_singleton.mp isSecond, List.length_drop]
        omega
    · rw [List.flatten_cons, List.flatten_singleton, List.take_append_drop]
  obtain ⟨-, -, -, value, -, -, -, answer, asked, answered⟩ := client_prints_answer strtodOne .spin
    run live (by decide) sends rfl (beq_iff_eq.mp received) brings
  rw [if_pos (beq_iff_eq.mp flushed)] at answered
  exact ⟨loop, link, _, run, live, beq_iff_eq.mp flushed, sends, beq_iff_eq.mp received,
    value.packed, answer, asked, answered.2.1⟩

end RedisC
