/-
The state machine of one client connection.

`read` and `write` take their results from two scripts, in order; a script that
has run out gives `EAGAIN`.  A `write` to a peer that has closed its end may raise
`SIGPIPE`, which the program does not ignore: such a call never returns, and the
scripts have no result for it.  `received`, `sent`, `calls` and `past` are history:
the bytes that have passed the socket, the calls of `do_request` with the strings
they have written, and the connection as it was at certain points of the code.

The buffers are lists of `rbuf_size` and `wbuf_size` bytes.  The requests are
executed by a parameter `doRequest` on a database of any type.
-/

import RedisC.ParseReq
import RedisC.Utils

namespace RedisC

inductive ConnState
  | req
  | res
  | ended
  deriving DecidableEq, Repr

structure Conn where
  state : ConnState := .req
  rbuf : Bytes := []
  wbuf : Bytes := []
  wbufSent : Nat := 0
  idleStart : UInt64 := 0
  deriving DecidableEq, Repr

/-- `sizeof(conn->rbuf)` -/
def rbufCap : Nat := 4 + kMaxMsg

inductive ReadResult
  | data (bytes : Bytes)
  | again
  | intr
  | error
  deriving DecidableEq, Repr

/-- What a `write` gives that returns; see above for the one that is killed by `SIGPIPE`. -/
inductive WriteResult
  | wrote (n : Nat)
  | again
  | intr
  | error
  deriving DecidableEq, Repr

/-- Where the connection is observed: before and after a read, before and after a reply
is packed, and after a write. -/
inductive Point
  | fill
  | filled
  | pack
  | packed
  | flushed
  deriving DecidableEq, Repr

structure World (σ : Type) where
  db : σ
  conn : Conn := {}
  reads : List ReadResult := []
  writes : List WriteResult := []
  received : Bytes := []
  sent : Bytes := []
  calls : List (List Bytes × Bytes) := []
  past : List (Point × Conn) := []

variable {σ : Type}

def observe (point : Point) (w : World σ) : World σ :=
  { w with past := w.past ++ [(point, w.conn)] }

def setState (state : ConnState) (w : World σ) : World σ :=
  { w with conn := { w.conn with state := state } }

/-- `read`, called again while it is interrupted.  Bytes beyond `cap` stay for the next
call; no bytes at all are the end of the stream. -/
def sysRead (cap : Nat) : List ReadResult → ReadResult × List ReadResult
  | [] => (.again, [])
  | .intr :: rest => sysRead cap rest
  | .data bytes :: rest =>
      if bytes.length ≤ cap then (.data bytes, rest)
      else (.data (bytes.take cap), .data (bytes.drop cap) :: rest)
  | result :: rest => (result, rest)

/-- `write`, called again while it is interrupted. -/
def sysWrite (remaining : Nat) : List WriteResult → WriteResult × List WriteResult
  | [] => (.again, [])
  | .intr :: rest => sysWrite remaining rest
  | .wrote n :: rest => (.wrote (min n remaining), rest)
  | result :: rest => (result, rest)

/-! ### Writing -/

/-- The bytes of `wbuf` that are still to be sent. -/
def Conn.unsent (conn : Conn) : Bytes := conn.wbuf.drop conn.wbufSent

/-- After `write` has taken `n` bytes. -/
def flushed (w : World σ) (n : Nat) : Except Fault (Bool × World σ) :=
  let w := { w with
    sent := w.sent ++ w.conn.unsent.take n
    conn := { w.conn with wbufSent := w.conn.wbufSent + n } }
  if w.conn.wbufSent ≤ w.conn.wbuf.length then
    if w.conn.wbufSent = w.conn.wbuf.length then
      .ok (false, { w with
        conn := { w.conn with state := .req, wbufSent := 0, wbuf := [] } })
    else
      .ok (true, w)
  else
    .error (.assertion .tryFlushBuffer)

def tryFlushBuffer (w : World σ) : Except Fault (Bool × World σ) :=
  match sysWrite (w.conn.wbuf.length - w.conn.wbufSent) w.writes with
  | (.again, writes) => .ok (false, { w with writes := writes })
  | (.wrote n, writes) => flushed { w with writes := writes } n
  | (_, writes) => .ok (false, setState .ended { w with writes := writes })

/-- `while (try_flush_buffer(conn))`; a round that asks for another uses up a result. -/
def stateResLoop : Nat → World σ → Except Fault (World σ)
  | 0, _ => .error .outOfFuel
  | fuel + 1, w => do
      let (more, w) ← tryFlushBuffer w
      let w := observe .flushed w
      if more then stateResLoop fuel w else pure w

def stateRes (w : World σ) : Except Fault (World σ) := stateResLoop (w.writes.length + 1) w

/-! ### Requests -/

/-- A reply that does not fit is replaced. -/
def packReply (out : Bytes) : Bytes :=
  if 4 + out.length > kMaxMsg then outErr [] err2Big "response is too big" else out

def frame (body : Bytes) : Bytes := bytesU32 (UInt32.ofNat body.length) ++ body

/-- Pack the reply into `wbuf` and remove the request of `len` bytes from `rbuf`. -/
def pack (w : World σ) (len : Nat) (out : Bytes) : World σ :=
  { w with
    conn := { w.conn with
      wbuf := frame (packReply out)
      rbuf := w.conn.rbuf.drop (4 + len)
      state := .res } }

def respond (w : World σ) (len : Nat) (out : Bytes) : Except Fault (World σ) :=
  stateRes (observe .packed (pack (observe .pack w) len out))

/-- The idle time of the connection starts again. -/
def wake (w : World σ) (now : UInt64) : World σ :=
  { w with conn := { w.conn with idleStart := now } }

/-- Bytes are appended to `rbuf`. -/
def receive (w : World σ) (bytes : Bytes) : World σ :=
  { w with
    received := w.received ++ bytes
    conn := { w.conn with rbuf := w.conn.rbuf ++ bytes } }

section

variable (doRequest : σ → List Bytes → Except Fault (σ × Bytes))

/-- Execute a complete request and write its reply. -/
def execute (w : World σ) (body : Bytes) : Except Fault (Bool × World σ) := do
  let (code, cmd) ← parseReq body
  if code ≠ 0 then pure (false, setState .ended w)
  else do
    let (db, out) ← doRequest w.db cmd
    let w ← respond { w with db := db, calls := w.calls ++ [(cmd, out)] } body.length out
    pure (w.conn.state == .req, w)

def tryOneRequest (w : World σ) : Except Fault (Bool × World σ) :=
  if w.conn.rbuf.length < 4 then .ok (false, w)
  else do
    let len ← loadU32 w.conn.rbuf 0
    if len.toNat > kMaxMsg then pure (false, setState .ended w)
    else if 4 + len.toNat > w.conn.rbuf.length then pure (false, w)
    else do
      let body ← loadBytes w.conn.rbuf 4 len.toNat
      execute doRequest w body

/-- `while (try_one_request(conn))`; each request takes bytes out of `rbuf`. -/
def requestLoop : Nat → World σ → Except Fault (World σ)
  | 0, _ => .error .outOfFuel
  | fuel + 1, w => do
      let (more, w) ← tryOneRequest doRequest w
      if more then requestLoop fuel w else pure w

/-! ### Reading -/

/-- After `read` has returned bytes. -/
def filled (w : World σ) (bytes : Bytes) : Except Fault (Bool × World σ) :=
  let w := observe .filled (receive w bytes)
  if w.conn.rbuf.length ≤ rbufCap then do
    let w ← requestLoop doRequest (w.conn.rbuf.length + 1) w
    pure (w.conn.state == .req, w)
  else
    .error (.assertion .tryFillBuffer)

def afterRead (w : World σ) : ReadResult × List ReadResult → Except Fault (Bool × World σ)
  | (.again, reads) => .ok (false, { w with reads := reads })
  | (.data [], reads) => .ok (false, setState .ended { w with reads := reads })
  | (.data bytes, reads) => filled doRequest { w with reads := reads } bytes
  | (_, reads) => .ok (false, setState .ended { w with reads := reads })

def tryFillBuffer (w : World σ) : Except Fault (Bool × World σ) :=
  let w := observe .fill w
  if w.conn.rbuf.length < rbufCap then
    afterRead doRequest w (sysRead (rbufCap - w.conn.rbuf.length) w.reads)
  else
    .error (.assertion .tryFillBuffer)

/-- An upper bound for the number of reads that return something. -/
def readWork : List ReadResult → Nat
  | [] => 0
  | .data bytes :: rest => bytes.length + 1 + readWork rest
  | _ :: rest => 1 + readWork rest

def stateReqLoop : Nat → World σ → Except Fault (World σ)
  | 0, _ => .error .outOfFuel
  | fuel + 1, w => do
      let (more, w) ← tryFillBuffer doRequest w
      if more then stateReqLoop fuel w else pure w

def stateReq (w : World σ) : Except Fault (World σ) :=
  stateReqLoop doRequest (readWork w.reads + 1) w

/-- The timer list of the server is updated by the caller. -/
def connectionIo (w : World σ) (now : UInt64) : Except Fault (World σ) :=
  match w.conn.state with
  | .req => stateReq doRequest (wake w now)
  | .res => stateRes (wake w now)
  | .ended => .error (.assertion .connectionIo)

end

end RedisC
