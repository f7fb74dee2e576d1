/-
The timer list over whole runs.

A run is any order of `accept_new_conn`, `connection_io`, `conn_done` and
`process_timers`.  Each of the first two puts a connection at the end of the list
with the reading of the clock, so while the clock does not go back the list is
sorted by `idle_start`, and the loop of `process_timers`, which stops at the first
connection that is not due, closes all that are.
-/

import RedisC.IdleList
import RedisC.KeyspaceRefinement

namespace RedisC

open Fallible LabelledRun

/-! ### What a connection does to its own timer -/

section

variable {σ : Type} {w : World σ} {doRequest : σ → List Bytes → Except Fault (σ × Bytes)}

/-- The connection that is returned, if any, has the `idle_start` of `w`. -/
def KeepsStart {α : Type} (w : World σ) (world : α → World σ) (run : Except Fault α) : Prop :=
  Meets (fun _ => True) (fun result => (world result).conn.idleStart = w.conn.idleStart) run

/-- A round that asks for another one is followed by the rest of the loop. -/
theorem KeepsStart.again {round : Except Fault (Bool × World σ)}
    {loop : World σ → Except Fault (World σ)} (first : KeepsStart w Prod.snd round)
    (rest : ∀ after, KeepsStart after id (loop after)) :
    KeepsStart w id (do
      let (more, w) ← round
      if more then loop w else pure w) := by
  apply Meets.bind first
  intro result same
  rcases result with ⟨more, after⟩
  cases more with
  | false => exact same
  | true =>
      apply Meets.mono (rest after)
      intro last later
      exact later.trans same

private theorem flushed_keepsStart (n : Nat) : KeepsStart w Prod.snd (flushed w n) := by
  unfold flushed KeepsStart
  simp only
  split
  · split
    · rfl
    · rfl
  · trivial

private theorem tryFlushBuffer_keepsStart : KeepsStart w Prod.snd (tryFlushBuffer w) := by
  unfold tryFlushBuffer
  split
  · rfl
  · rename_i n writes wrote
    exact @flushed_keepsStart σ { w with writes := writes } n
  · rfl

private theorem stateResLoop_keepsStart (fuel : Nat) : KeepsStart w id (stateResLoop fuel w) := by
  induction fuel generalizing w with
  | zero => trivial
  | succ fuel ih =>
      rw [stateResLoop]
      apply Meets.bind tryFlushBuffer_keepsStart
      intro result same
      rcases result with ⟨more, after⟩
      cases more with
      | false => exact same
      | true =>
          apply Meets.mono ih
          intro last later
          exact later.trans same

private theorem execute_keepsStart (body : Bytes) :
    KeepsStart w Prod.snd (execute doRequest w body) := by
  unfold execute
  apply Meets.bind (parseReq_returns body |>.widen fun _ => False.elim)
  intro parsed _
  rcases parsed with ⟨code, cmd⟩
  simp only
  split
  · rfl
  · cases doRequest w.db cmd with
    | error fault => trivial
    | ok result =>
        apply Meets.bind (stateResLoop_keepsStart _)
        intro after same
        exact same

private theorem tryOneRequest_keepsStart : KeepsStart w Prod.snd (tryOneRequest doRequest w) := by
  unfold tryOneRequest
  split
  · rfl
  · cases loadU32 w.conn.rbuf 0 with
    | error fault => trivial
    | ok len =>
        simp only [ok_bind]
        split
        · rfl
        · split
          · rfl
          · cases loadBytes w.conn.rbuf 4 len.toNat with
            | error fault => trivial
            | ok body => exact execute_keepsStart body

private theorem requestLoop_keepsStart (fuel : Nat) :
    KeepsStart w id (requestLoop doRequest fuel w) := by
  induction fuel generalizing w with
  | zero => trivial
  | succ fuel ih =>
      rw [requestLoop]
      exact tryOneRequest_keepsStart.again fun _ => ih

private theorem filled_keepsStart (bytes : Bytes) :
    KeepsStart w Prod.snd (filled doRequest w bytes) := by
  unfold filled
  simp only
  split
  · apply Meets.bind (requestLoop_keepsStart _)
    intro after same
    exact same
  · trivial

private theorem tryFillBuffer_keepsStart : KeepsStart w Prod.snd (tryFillBuffer doRequest w) := by
  unfold tryFillBuffer
  simp only
  split
  · unfold afterRead
    split
    · rfl
    · rfl
    · rename_i bytes reads _ _
      exact @filled_keepsStart σ { observe .fill w with reads := reads } doRequest bytes
    · rfl
  · trivial

private theorem stateReqLoop_keepsStart (fuel : Nat) :
    KeepsStart w id (stateReqLoop doRequest fuel w) := by
  induction fuel generalizing w with
  | zero => trivial
  | succ fuel ih =>
      rw [stateReqLoop]
      exact tryFillBuffer_keepsStart.again fun _ => ih

private theorem connectionIo_idleStart (now : UInt64) :
    Meets (fun _ => True) (fun after => after.conn.idleStart = now)
      (connectionIo doRequest w now) := by
  unfold connectionIo
  split
  · exact stateReqLoop_keepsStart _
  · exact stateResLoop_keepsStart _
  · trivial

end

/-! ### The list in order -/

section

variable {σ : Type} {loop : Loop σ} {ptrs : List Ptr} {conn : Ptr} {client : Client}

def Loop.idleStart (loop : Loop σ) (conn : Ptr) : UInt64 :=
  match loop.conns conn with
  | none => 0
  | some client => client.link.conn.idleStart

theorem idleStart_of_conns (alive : loop.conns conn = some client) :
    loop.idleStart conn = client.link.conn.idleStart := by
  rw [Loop.idleStart, alive]

private theorem idleStart_congr {other : Loop σ} (same : other.conns conn = loop.conns conn) :
    other.idleStart conn = loop.idleStart conn := by
  rw [Loop.idleStart, Loop.idleStart, same]

structure Loop.Queued (loop : Loop σ) (ptrs : List Ptr) (readings : List UInt64) : Prop where
  wired : loop.Wired ptrs
  sorted : ptrs.Pairwise fun left right => loop.idleStart left ≤ loop.idleStart right
  dated : ∀ conn ∈ ptrs, loop.idleStart conn ∈ readings

theorem Loop.Queued.subset {readings : List UInt64} (queued : loop.Queued ptrs readings)
    {after : Loop σ} {kept : List Ptr} (wired : after.Wired kept) (fewer : kept.Sublist ptrs)
    (same : ∀ conn ∈ kept, after.conns conn = loop.conns conn) : after.Queued kept readings := by
  refine ⟨wired, ?_, ?_⟩
  · apply (queued.sorted.sublist fewer).imp_of_mem
    intro left right leftMember rightMember before
    rw [idleStart_congr (same left leftMember), idleStart_congr (same right rightMember)]
    exact before
  · intro conn member
    rw [idleStart_congr (same conn member)]
    exact queued.dated conn (fewer.subset member)

/-- A connection has got the last reading and stands at the end of the list. -/
theorem Loop.Queued.append {readings : List UInt64} (queued : loop.Queued ptrs readings)
    {after : Loop σ} {kept : List Ptr} {now : UInt64} (wired : after.Wired (kept ++ [conn]))
    (fewer : kept.Sublist ptrs) (same : ∀ other ∈ kept, after.conns other = loop.conns other)
    (start : after.idleStart conn = now) (latest : ∀ reading ∈ readings, reading ≤ now) :
    after.Queued (kept ++ [conn]) (readings ++ [now]) := by
  have start_of_kept : ∀ other ∈ kept, after.idleStart other = loop.idleStart other :=
    fun other member => idleStart_congr (same other member)
  have dated_of_kept : ∀ other ∈ kept, after.idleStart other ∈ readings := by
    intro other member
    rw [start_of_kept other member]
    exact queued.dated other (fewer.subset member)
  refine ⟨wired, ?_, ?_⟩
  · apply List.pairwise_append.mpr
    refine ⟨?_, List.pairwise_singleton _ _, ?_⟩
    · apply (queued.sorted.sublist fewer).imp_of_mem
      intro left right leftMember rightMember before
      rw [start_of_kept left leftMember, start_of_kept right rightMember]
      exact before
    · intro other member last lastIs
      rw [List.mem_singleton.mp lastIs, start]
      exact latest _ (dated_of_kept other member)
  · intro other member
    rcases List.mem_append.mp member with before | last
    · exact List.mem_append_left _ (dated_of_kept other before)
    · rw [List.mem_singleton.mp last, start]
      exact List.mem_append_right _ List.mem_cons_self

/-! ### Closing -/

/-- The connection has been idle for too long, in the arithmetic of the code. -/
def overdue (nowUs : UInt64) (starts : Ptr → UInt64) (conn : Ptr) : Bool :=
  decide (starts conn + idleTimeoutUs < nowUs)

theorem Loop.Wired.next_idleList (wired : loop.Wired ptrs) :
    (loop.idle .idleList).next = (ptrs.map ListPtr.conn).headD .idleList :=
  wired.threaded.next_sentinel

theorem Loop.Wired.dlistIsEmpty_eq (wired : loop.Wired ptrs) :
    dlistIsEmpty loop.idle .idleList = ptrs.isEmpty := by
  rw [dlistIsEmpty, wired.next_idleList]
  cases ptrs with
  | nil => rfl
  | cons first rest => rfl

theorem Loop.Wired.closeIdle_nil (wired : loop.Wired []) (nowUs : UInt64) (fuel : Nat) :
    Loop.closeIdle nowUs (fuel + 1) loop = .ok loop := by
  have empty : dlistIsEmpty loop.idle .idleList = true := wired.dlistIsEmpty_eq
  rw [Loop.closeIdle, if_pos empty]

theorem Loop.Wired.closeIdle_cons {first : Ptr} {rest : List Ptr}
    (wired : loop.Wired (first :: rest)) (nowUs : UInt64) (fuel : Nat) :
    Loop.closeIdle nowUs (fuel + 1) loop =
      if overdue nowUs loop.idleStart first then do
        let loop ← loop.connDone first
        Loop.closeIdle nowUs fuel loop
      else
        .ok loop := by
  have next : (loop.idle .idleList).next = .conn first := wired.next_idleList
  have busy : dlistIsEmpty loop.idle .idleList = false := wired.dlistIsEmpty_eq
  obtain ⟨client, clientIs⟩ := wired.client_of_mem List.mem_cons_self
  rw [Loop.closeIdle]
  simp only [busy, Bool.false_eq_true, if_false, next, clientIs, overdue,
    idleStart_of_conns clientIs, ge_iff_le, decide_eq_true_eq]
  by_cases late : client.link.conn.idleStart + idleTimeoutUs < nowUs
  · rw [if_pos late, if_neg (UInt64.not_le.mpr late)]
  · rw [if_neg late, if_pos (UInt64.not_lt.mp late)]

/-- The loop closes the connections at the front of the list that are due. -/
theorem Loop.Wired.closeIdle_spec {nowUs : UInt64} {starts : Ptr → UInt64}
    (wired : loop.Wired ptrs) (startsAre : ∀ conn ∈ ptrs, loop.idleStart conn = starts conn)
    {fuel : Nat} (enough : ptrs.length < fuel) :
    ∃ after, Loop.closeIdle nowUs fuel loop = .ok after ∧
      after.Wired (ptrs.dropWhile (overdue nowUs starts)) ∧ after.db = loop.db ∧
      ∀ conn, after.conns conn =
        if conn ∈ ptrs.takeWhile (overdue nowUs starts) then none else loop.conns conn := by
  obtain ⟨fuel, rfl⟩ := Nat.exists_eq_add_one_of_ne_zero (Nat.ne_zero_of_lt enough)
  induction ptrs generalizing loop fuel with
  | nil =>
      refine ⟨loop, wired.closeIdle_nil nowUs fuel, wired, rfl, fun conn => ?_⟩
      rw [List.takeWhile_nil, if_neg List.not_mem_nil]
  | cons first rest ih =>
      have dueIs : overdue nowUs loop.idleStart first = overdue nowUs starts first := by
        rw [overdue, overdue, startsAre first List.mem_cons_self]
      rw [wired.closeIdle_cons, dueIs]
      by_cases late : overdue nowUs starts first = true
      · obtain ⟨client, clientIs⟩ := wired.client_of_mem List.mem_cons_self
        obtain ⟨closed, returned, closedWired, conns, db, -⟩ := wired.connDone_spec clientIs
        rw [List.erase_cons_head] at closedWired
        have outside : first ∉ rest := (List.nodup_cons.mp wired.nodup).1
        have fewer : rest.length < fuel := Nat.lt_of_succ_lt_succ enough
        obtain ⟨fuel, rfl⟩ := Nat.exists_eq_add_one_of_ne_zero (Nat.ne_zero_of_lt fewer)
        have closedStarts : ∀ conn ∈ rest, closed.idleStart conn = starts conn := by
          intro conn member
          have apart : conn ≠ first := fun same => outside (same ▸ member)
          rw [← startsAre conn (List.mem_cons_of_mem _ member)]
          apply idleStart_congr
          rw [conns, Function.update_of_ne apart]
        obtain ⟨after, closedRest, afterWired, afterDb, afterConns⟩ :=
          ih closedWired closedStarts fuel fewer
        rw [if_pos late, returned, ok_bind, List.takeWhile_cons_of_pos late,
          List.dropWhile_cons_of_pos late]
        refine ⟨after, closedRest, afterWired, afterDb.trans db, fun conn => ?_⟩
        rw [afterConns, conns]
        by_cases same : conn = first
        · rw [same, Function.update_self, if_pos List.mem_cons_self, ite_self]
        · rw [Function.update_of_ne same]
          apply ite_congr
          · rw [List.mem_cons, or_iff_right same]
          · exact fun _ => rfl
          · exact fun _ => rfl
      · rw [if_neg late, List.takeWhile_cons_of_neg late, List.dropWhile_cons_of_neg late]
        refine ⟨loop, rfl, wired, rfl, fun conn => ?_⟩
        rw [if_neg List.not_mem_nil]

private theorem mem_takeWhile_iff {α : Type} {test : α → Bool} {items : List α}
    (sorted : items.Pairwise fun left right => test right = true → test left = true) (item : α) :
    item ∈ items.takeWhile test ↔ item ∈ items ∧ test item = true := by
  induction items with
  | nil => simp
  | cons first rest ih =>
      rw [List.pairwise_cons] at sorted
      by_cases passes : test first = true
      · rw [List.takeWhile_cons_of_pos passes, List.mem_cons, List.mem_cons, ih sorted.2]
        constructor
        · intro either
          rcases either with rfl | both
          · exact ⟨.inl rfl, passes⟩
          · exact ⟨.inr both.1, both.2⟩
        · intro both
          rcases both.1 with same | later
          · exact .inl same
          · exact .inr ⟨later, both.2⟩
      · rw [List.takeWhile_cons_of_neg passes]
        constructor
        · intro contrary
          cases contrary
        · intro both
          rcases List.mem_cons.mp both.1 with same | later
          · exact absurd (same ▸ both.2) passes
          · exact absurd (sorted.1 item later both.2) passes

theorem Loop.Wired.length_le (wired : loop.Wired ptrs) : ptrs.length ≤ loop.fd2conn.length := by
  have nodup : (ptrs.map loop.fdOf).Nodup := by
    apply List.Nodup.map_on _ wired.nodup
    intro left leftMember right rightMember same
    exact wired.fdOf_injective leftMember rightMember same
  have inside : ptrs.map loop.fdOf ⊆ List.range loop.fd2conn.length := by
    intro fd member
    obtain ⟨conn, connMember, fdIs⟩ := List.mem_map.mp member
    rw [List.mem_range, ← fdIs]
    exact Loop.Wired.slot_lt (wired.slot_fdOf connMember)
  have bound := (List.Nodup.subperm nodup inside).length_le
  rw [List.length_map, List.length_range] at bound
  exact bound

theorem idleDeadline_toNat {start now : UInt64} (early : start ≤ now)
    (range : now.toNat + kIdleTimeoutMs * 1000 < 2 ^ 64) :
    (start + idleTimeoutUs).toNat = start.toNat + kIdleTimeoutMs * 1000 := by
  have timeout : idleTimeoutUs.toNat = kIdleTimeoutMs * 1000 := rfl
  have before := UInt64.le_iff_toNat_le.mp early
  rw [UInt64.toNat_add, timeout]
  generalize kIdleTimeoutMs * 1000 = timeoutUs at range
  exact Nat.mod_eq_of_lt (by omega)

theorem slack_toNat {now : UInt64} (range : now.toNat + kIdleTimeoutMs * 1000 < 2 ^ 64) :
    (now + 1000).toNat = now.toNat + 1000 := by
  have slack : (1000 : UInt64).toNat = 1000 := rfl
  have large : 1000 < kIdleTimeoutMs * 1000 := by decide
  rw [UInt64.toNat_add, slack]
  generalize kIdleTimeoutMs * 1000 = timeoutUs at range large
  exact Nat.mod_eq_of_lt (by omega)

private theorem overdue_iff {starts : Ptr → UInt64} {now : UInt64} (early : starts conn ≤ now)
    (range : now.toNat + kIdleTimeoutMs * 1000 < 2 ^ 64) :
    overdue (now + 1000) starts conn = true ↔
      (starts conn).toNat + kIdleTimeoutMs * 1000 < now.toNat + 1000 := by
  rw [overdue, decide_eq_true_eq, UInt64.lt_iff_toNat_lt, idleDeadline_toNat early range,
    slack_toNat range]

/-- The loop closes the connections that have been idle for too long, and no other. -/
theorem Loop.Queued.closeIdle_spec {readings : List UInt64} (queued : loop.Queued ptrs readings)
    {now : UInt64} (latest : ∀ reading ∈ readings, reading ≤ now)
    (range : now.toNat + kIdleTimeoutMs * 1000 < 2 ^ 64) :
    ∃ after, Loop.closeIdle (now + 1000) (loop.fd2conn.length + 1) loop = .ok after ∧
      after.db = loop.db ∧
      ∀ conn, after.conns conn =
        if conn ∈ ptrs ∧ (loop.idleStart conn).toNat + kIdleTimeoutMs * 1000 < now.toNat + 1000
        then none else loop.conns conn := by
  have early : ∀ conn ∈ ptrs, loop.idleStart conn ≤ now :=
    fun conn member => latest _ (queued.dated conn member)
  have sorted : ptrs.Pairwise fun left right =>
      overdue (now + 1000) loop.idleStart right = true →
        overdue (now + 1000) loop.idleStart left = true := by
    apply queued.sorted.imp_of_mem
    intro left right leftMember rightMember before late
    have order := UInt64.le_iff_toNat_le.mp before
    have lateNat := (overdue_iff (early right rightMember) range).mp late
    apply (overdue_iff (early left leftMember) range).mpr
    exact Nat.lt_of_le_of_lt (Nat.add_le_add_right order _) lateNat
  obtain ⟨after, returned, -, db, conns⟩ := @Loop.Wired.closeIdle_spec _ _ _ (now + 1000)
    loop.idleStart queued.wired (fun _ _ => rfl) _ (Nat.lt_succ_of_le queued.wired.length_le)
  refine ⟨after, returned, db, fun conn => ?_⟩
  rw [conns]
  apply ite_congr
  · rw [mem_takeWhile_iff sorted]
    apply propext
    apply and_congr_right
    intro member
    exact overdue_iff (early conn member) range
  · exact fun _ => rfl
  · exact fun _ => rfl

/-! ### Events -/

/-- `accept` and `io` are given the results of the system calls and of `malloc`. -/
inductive LoopEvent
  | accept (accepted : Option Nat) (allocated : Option Ptr) (now : UInt64)
  | io (conn : Ptr) (now : UInt64) (reads : List ReadResult) (writes : List WriteResult)
  | done (conn : Ptr)
  | timers (now : UInt64)

def LoopEvent.reading : LoopEvent → Option UInt64
  | .accept _ _ now => some now
  | .io _ now _ _ => some now
  | .done _ => none
  | .timers now => some now

def readings (trace : List LoopEvent) : List UInt64 := trace.filterMap LoopEvent.reading

def LoopEvent.exec (service : Service σ) (loop : Loop σ) : LoopEvent → Except Fault (Loop σ)
  | .accept accepted allocated now => .ok (loop.acceptNewConn accepted allocated now).2
  | .io conn now reads writes => loop.connectionIo service conn now reads writes
  | .done conn => loop.connDone conn
  | .timers now => loop.processTimers service now

/-- `accept` returns a descriptor that is not open and `malloc` an address that is not in
use, and `connection_io` and `conn_done` are called on live connections. -/
def LoopEvent.Enabled (loop : Loop σ) : LoopEvent → Prop
  | .accept accepted allocated _ =>
      (∀ fd ∈ accepted, loop.slot fd = none) ∧ ∀ conn ∈ allocated, loop.conns conn = none
  | .io conn _ _ _ => (loop.conns conn).isSome = true
  | .done conn => (loop.conns conn).isSome = true
  | .timers _ => True

def LoopStep (service : Service σ) (loop : Loop σ) (event : LoopEvent) (after : Loop σ) : Prop :=
  event.Enabled loop ∧ event.exec service loop = .ok after

theorem Loop.Queued.mono {before later : List UInt64} (queued : loop.Queued ptrs before)
    (more : before ⊆ later) : loop.Queued ptrs later :=
  ⟨queued.wired, queued.sorted, fun conn member => more (queued.dated conn member)⟩

theorem Loop.Queued.withDb {past : List UInt64} (queued : loop.Queued ptrs past) (db : σ) :
    { loop with db := db }.Queued ptrs past :=
  ⟨queued.wired.withDb db, queued.sorted, queued.dated⟩

theorem Loop.Queued.accept {past : List UInt64} (queued : loop.Queued ptrs past)
    {accepted : Option Nat} {allocated : Option Ptr} {now : UInt64}
    (enabled : LoopEvent.Enabled loop (.accept accepted allocated now))
    (latest : ∀ reading ∈ past, reading ≤ now) :
    ∃ ptrsAfter, (loop.acceptNewConn accepted allocated now).2.Queued ptrsAfter
      (past ++ [now]) := by
  rcases enabled with ⟨free, new⟩
  have unchanged : loop.Queued ptrs (past ++ [now]) :=
    queued.mono fun _ member => List.mem_append_left _ member
  cases accepted with
  | none => exact ⟨ptrs, unchanged⟩
  | some fd =>
      cases allocated with
      | none => exact ⟨ptrs, unchanged⟩
      | some conn =>
          have unused := new conn rfl
          have wired := queued.wired.acceptNewConn_spec (free fd rfl) unused now
          refine ⟨ptrs ++ [conn], queued.append wired (List.Sublist.refl _) ?_ ?_ latest⟩
          · intro other member
            have apart : other ≠ conn := by
              intro same
              have alive := (queued.wired.live other).mp member
              rw [same, unused] at alive
              cases alive
            exact Function.update_of_ne apart _ _
          · unfold Loop.idleStart Loop.acceptNewConn
            simp only [Function.update_self]

theorem Loop.Queued.io {past : List UInt64} (queued : loop.Queued ptrs past)
    {service : Service σ} {after : Loop σ} {now : UInt64} {reads : List ReadResult}
    {writes : List WriteResult}
    (returned : loop.connectionIo service conn now reads writes = .ok after)
    (latest : ∀ reading ∈ past, reading ≤ now) :
    ∃ ptrsAfter, after.Queued ptrsAfter (past ++ [now]) := by
  unfold Loop.connectionIo at returned
  split at returned
  · cases returned
  · rename_i client alive
    obtain ⟨w, ioReturned, final⟩ := bind_eq_ok returned
    cases final
    have wired := queued.wired.moved alive w.db w.link
    refine ⟨ptrs.erase conn ++ [conn], queued.append wired List.erase_sublist ?_ ?_ latest⟩
    · intro other member
      exact Function.update_of_ne (queued.wired.nodup.mem_erase_iff.mp member).1 _ _
    · unfold Loop.idleStart
      simp only [Function.update_self]
      exact (connectionIo_idleStart now).of_ok ioReturned

theorem Loop.Queued.done {past : List UInt64} (queued : loop.Queued ptrs past) {after : Loop σ}
    (returned : loop.connDone conn = .ok after) : ∃ ptrsAfter, after.Queued ptrsAfter past := by
  cases alive : loop.conns conn with
  | none =>
      rw [Loop.connDone, alive] at returned
      cases returned
  | some client =>
      obtain ⟨closed, closedIs, wired, conns, -, -⟩ := queued.wired.connDone_spec alive
      rw [closedIs] at returned
      cases returned
      refine ⟨ptrs.erase conn, queued.subset wired List.erase_sublist fun other member => ?_⟩
      rw [conns, Function.update_of_ne (queued.wired.nodup.mem_erase_iff.mp member).1]

theorem Loop.Queued.timers {past : List UInt64} (queued : loop.Queued ptrs past)
    {service : Service σ} {after : Loop σ} {now : UInt64}
    (returned : loop.processTimers service now = .ok after) :
    ∃ ptrsAfter, after.Queued ptrsAfter past := by
  obtain ⟨closed, closedIs, rest⟩ := bind_eq_ok returned
  obtain ⟨db, -, final⟩ := bind_eq_ok rest
  cases final
  obtain ⟨shut, shutIs, wired, -, conns⟩ := @Loop.Wired.closeIdle_spec _ _ _ (now + 1000)
    loop.idleStart queued.wired (fun _ _ => rfl) _ (Nat.lt_succ_of_le queued.wired.length_le)
  rw [shutIs] at closedIs
  cases closedIs
  have split := List.takeWhile_append_dropWhile (p := overdue (now + 1000) loop.idleStart)
    (l := ptrs)
  have kept := queued.subset wired (List.dropWhile_sublist _) (by
    intro conn member
    have nodup := queued.wired.nodup
    rw [← split] at nodup
    rw [conns, if_neg fun taken => (List.nodup_append.mp nodup).2.2 conn taken conn member rfl])
  exact ⟨_, kept.withDb db⟩

/-- Every event keeps the list in order, as long as the clock does not go back. -/
theorem LoopStep.queued {service : Service σ} {after : Loop σ} {event : LoopEvent}
    {past : List UInt64} (step : LoopStep service loop event after)
    (queued : loop.Queued ptrs past)
    (latest : ∀ now ∈ event.reading.toList, ∀ reading ∈ past, reading ≤ now) :
    ∃ ptrsAfter, after.Queued ptrsAfter (past ++ event.reading.toList) := by
  rcases step with ⟨enabled, executed⟩
  cases event with
  | accept accepted allocated now =>
      cases executed
      exact queued.accept enabled (latest now List.mem_cons_self)
  | io conn now reads writes => exact queued.io executed (latest now List.mem_cons_self)
  | done conn =>
      obtain ⟨ptrsAfter, after⟩ := queued.done executed
      exact ⟨ptrsAfter, after.mono fun _ member => List.mem_append_left _ member⟩
  | timers now =>
      obtain ⟨ptrsAfter, after⟩ := queued.timers executed
      exact ⟨ptrsAfter, after.mono fun _ member => List.mem_append_left _ member⟩

theorem Loop.Queued.start (db : σ) (mem : ListPtr → DList ListPtr) :
    (Loop.start db mem).Queued [] [] :=
  ⟨Loop.Wired.start db mem, .nil, fun _ member => by cases member⟩

private theorem readings_concat (past : List LoopEvent) (event : LoopEvent) :
    readings (past ++ [event]) = readings past ++ event.reading.toList := by
  rw [readings, List.filterMap_append]
  cases event with
  | accept accepted allocated now => rfl
  | io conn now reads writes => rfl
  | done conn => rfl
  | timers now => rfl

private theorem loop_runs_queued {service : Service σ} {db : σ} {mem : ListPtr → DList ListPtr}
    {trace : List LoopEvent} (run : Runs (LoopStep service) (Loop.start db mem) trace loop)
    (ordered : (readings trace).Pairwise (· ≤ ·)) : ∃ ptrs, loop.Queued ptrs (readings trace) := by
  have preserved : ∀ (past : List LoopEvent) (before : Loop σ) event after,
      ((readings past).Pairwise (· ≤ ·) → ∃ ptrs, before.Queued ptrs (readings past)) →
      LoopStep service before event after →
      (readings (past ++ [event])).Pairwise (· ≤ ·) →
        ∃ ptrs, after.Queued ptrs (readings (past ++ [event])) := by
    intro past before event after queued step
    rw [readings_concat]
    intro all
    obtain ⟨pastOrdered, -, latest⟩ := List.pairwise_append.mp all
    obtain ⟨ptrs, before⟩ := queued pastOrdered
    exact step.queued before fun now isNow reading member => latest reading member now isNow
  exact run.history preserved (fun _ => ⟨[], Loop.Queued.start db mem⟩) ordered

/-- After every run in which the clock does not go back: the list, followed from
`g_data.idle_list` in either direction, has exactly the connections of the table, each
once, sorted by `idle_start`, and comes back; the table has each connection at its
descriptor and nothing else; and `process_timers` closes exactly the connections that
have been idle for `K_IDLE_TIMEOUT_MS`, with the slack of a millisecond. -/
theorem idle_list_in_order (service : Service σ) (db : σ) (mem : ListPtr → DList ListPtr)
    {trace : List LoopEvent} {loop : Loop σ}
    (run : Runs (LoopStep service) (Loop.start db mem) trace loop)
    (ordered : (readings trace).Pairwise (· ≤ ·)) :
    ∃ ptrs : List Ptr,
      List.iterate (fun node => (loop.idle node).next) (loop.idle .idleList).next
        (ptrs.length + 1) = ptrs.map .conn ++ [.idleList] ∧
      List.iterate (fun node => (loop.idle node).prev) (loop.idle .idleList).prev
        (ptrs.length + 1) = ptrs.reverse.map .conn ++ [.idleList] ∧
      ptrs.Nodup ∧
      (∀ conn, conn ∈ ptrs ↔ some conn ∈ loop.fd2conn) ∧
      (∀ conn ∈ ptrs, ∃ client, loop.conns conn = some client ∧
        loop.fd2conn[client.fd]? = some (some conn)) ∧
      (∀ fd conn, loop.fd2conn[fd]? = some (some conn) →
        ∃ client, loop.conns conn = some client ∧ client.fd = fd) ∧
      ptrs.Pairwise (fun left right => loop.idleStart left ≤ loop.idleStart right) ∧
      ∀ now : UInt64, (∀ reading ∈ readings trace, reading ≤ now) →
        now.toNat + kIdleTimeoutMs * 1000 < 2 ^ 64 →
        ∃ closed : Loop σ,
          loop.processTimers service now = (do
            let db ← service.expire closed.db now
            pure { closed with db := db }) ∧
          closed.db = loop.db ∧
          ∀ conn, closed.conns conn =
            if conn ∈ ptrs ∧
                (loop.idleStart conn).toNat + kIdleTimeoutMs * 1000 < now.toNat + 1000
            then none else loop.conns conn := by
  obtain ⟨ptrs, queued⟩ := loop_runs_queued run ordered
  have wired := queued.wired
  have forward := wired.threaded.forward
  have backward := wired.threaded.backward
  have slot_iff : ∀ fd conn, loop.slot fd = some conn ↔ loop.fd2conn[fd]? = some (some conn) := by
    intro fd conn
    exact Option.join_eq_some_iff
  rw [List.length_map] at forward backward
  refine ⟨ptrs, forward, ?_, wired.nodup, ?_, ?_, ?_, queued.sorted, ?_⟩
  · rw [List.map_reverse]
    exact backward
  · intro conn
    constructor
    · intro member
      obtain ⟨client, clientIs⟩ := wired.client_of_mem member
      exact List.mem_of_getElem? ((slot_iff _ _).mp (wired.placed conn client clientIs))
    · intro listed
      obtain ⟨fd, found⟩ := List.getElem?_of_mem listed
      obtain ⟨client, clientIs, -⟩ := wired.filled fd conn ((slot_iff _ _).mpr found)
      exact wired.mem clientIs
  · intro conn member
    obtain ⟨client, clientIs⟩ := wired.client_of_mem member
    exact ⟨client, clientIs, (slot_iff _ _).mp (wired.placed conn client clientIs)⟩
  · intro fd conn found
    exact wired.filled fd conn ((slot_iff _ _).mpr found)
  · intro now latest range
    obtain ⟨closed, returned, sameDb, conns⟩ := queued.closeIdle_spec latest range
    refine ⟨closed, ?_, sameDb, conns⟩
    rw [Loop.processTimers, returned, ok_bind]

-- Over the option and not over the addresses, of which there are finitely many.
instance LoopEvent.decidableEnabled (loop : Loop σ) :
    (event : LoopEvent) → Decidable (event.Enabled loop)
  | .accept accepted allocated _ =>
      decidable_of_iff
        ((accepted.all fun fd => (loop.slot fd).isNone) = true ∧
          (allocated.all fun conn => (loop.conns conn).isNone) = true)
        (by simp [LoopEvent.Enabled, Option.all_eq_true])
  | .io conn _ _ _ => inferInstanceAs (Decidable ((loop.conns conn).isSome = true))
  | .done conn => inferInstanceAs (Decidable ((loop.conns conn).isSome = true))
  | .timers _ => .isTrue trivial

def loopNext (service : Service σ) : Loop σ → LoopEvent → Option (Loop σ) :=
  guarded (fun loop event => event.Enabled loop) (fun loop event => event.exec service loop)

theorem loopNext_sound (service : Service σ) (loop : Loop σ) (event : LoopEvent) (after : Loop σ)
    (stepped : loopNext service loop event = some after) : LoopStep service loop event after :=
  guarded_sound loop event after stepped

end

def wakeFirst : List LoopEvent :=
  [.accept (some 5) (some 1) 0, .accept (some 7) (some 2) 10, .accept none none 10,
    .io 1 20 [.again] []]

theorem idle_list_in_order_wake_first :
    ∃ loop : Loop Db, ∃ ptrs : List Ptr,
      Runs (LoopStep (redis strtodOne))
        (Loop.start { supply := fun i => ⟨UInt64.ofNat (i + 1), UInt64.ofNat (i + 1)⟩ }
          fun _ => ⟨.idleList, .idleList⟩) wakeFirst loop ∧
      (∀ conn, conn ∈ ptrs ↔ conn = 1 ∨ conn = 2) ∧
      List.iterate (fun node => (loop.idle node).next) (loop.idle .idleList).next
        (ptrs.length + 1) = ptrs.map .conn ++ [.idleList] ∧
      ∃ closed : Loop Db,
        loop.processTimers (redis strtodOne) 4999015 = (do
          let db ← (redis strtodOne).expire closed.db 4999015
          pure { closed with db := db }) ∧
        (closed.conns 1).isSome = true ∧ closed.conns 2 = none := by
  have followed : ((follow (loopNext (redis strtodOne))
      (Loop.start { supply := fun i => ⟨UInt64.ofNat (i + 1), UInt64.ofNat (i + 1)⟩ }
        fun _ => ⟨.idleList, .idleList⟩) wakeFirst).any fun loop =>
      decide (loop.fd2conn = [none, none, none, none, none, some 1, none, some 2] ∧
        (loop.conns 1).isSome = true ∧ loop.idleStart 1 = 20 ∧ loop.idleStart 2 = 10)) = true := by
    decide +kernel
  obtain ⟨loop, loopIs, found⟩ := (Option.any_eq_true _ _).mp followed
  obtain ⟨table, alive, start, startSecond⟩ := of_decide_eq_true found
  have run := runs_of_follow_eq (loopNext_sound (redis strtodOne)) loopIs
  obtain ⟨ptrs, forward, -, -, listed, -, -, -, closes⟩ :=
    idle_list_in_order (redis strtodOne) _ _ run (by decide)
  obtain ⟨closed, returned, -, conns⟩ :=
    closes 4999015 (List.forall_iff_forall_mem.mp (by decide)) (by decide)
  have members : ∀ conn, conn ∈ ptrs ↔ conn = 1 ∨ conn = 2 := by
    intro conn
    rw [listed, table]
    simp
  refine ⟨loop, ptrs, run, members, forward, closed, returned, ?_, ?_⟩
  · rw [conns, if_neg, alive]
    rw [start]
    exact fun due => absurd due.2 (by decide)
  · rw [conns, if_pos]
    rw [startSecond]
    exact ⟨(members 2).mpr (.inr rfl), by decide⟩

end RedisC
