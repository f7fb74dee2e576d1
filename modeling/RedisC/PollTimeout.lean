/-
The timeout of `poll`.

`next_timer_ms` takes the nearest of all deadlines: that of the first connection of
the timer list, which is sorted, or that of the root of the heap.  The milliseconds
until then go from 64 bits to 32 and then to an `int`.  While they fit, `poll` wakes
up no later than the deadline, and the slack of `process_timers` makes up for the
rounding; when they do not, `poll` gets a negative number or one that is too small.
-/

import RedisC.ExpiryRuns
import RedisC.IdleRuns

namespace RedisC

open Fallible LabelledRun

/-- The deadline of the first connection of the list, or the largest number. -/
def idleTimerUs (loop : Loop GData) : Except Fault UInt64 :=
  if dlistIsEmpty loop.idle .idleList then .ok 0xFFFFFFFFFFFFFFFF
  else
    match (loop.idle .idleList).next with
    | .idleList => .error .nullDeref
    | .conn next =>
        match loop.conns next with
        | none => .error .nullDeref
        | some client => .ok (client.link.conn.idleStart + idleTimeoutUs)

/-- The nearest deadline, or the largest number if there is none. -/
def nextTimerUs (loop : Loop GData) : Except Fault UInt64 := do
  let nextUs ← idleTimerUs loop
  match loop.db.timers.heap with
  | [] => pure nextUs
  | first :: _ => pure (if first.val < nextUs then first.val else nextUs)

def nextTimerMs (loop : Loop GData) (nowUs : UInt64) : Except Fault UInt32 := do
  let nextUs ← nextTimerUs loop
  if nextUs = 0xFFFFFFFFFFFFFFFF then pure 10000 -- no timer
  else if nextUs ≤ nowUs then pure 0 -- missed
  else pure ((nextUs - nowUs) / 1000).toUInt32

/-- `(int)next_timer_ms()` -/
def timeoutMs (loop : Loop GData) (nowUs : UInt64) : Except Fault Int32 := do
  let ms ← nextTimerMs loop nowUs
  pure ms.toInt32

/-! ### The nearest deadline -/

/-- A deadline of a connection or of a key, on a clock without end. -/
def Loop.Timer (loop : Loop GData) (deadline : Nat) : Prop :=
  (∃ conn client, loop.conns conn = some client ∧
    deadline = client.link.conn.idleStart.toNat + kIdleTimeoutMs * 1000) ∨
  ∃ item ∈ loop.db.timers.heap, deadline = item.val.toNat

section

variable {loop : Loop GData} {ptrs : List Ptr} {past : List UInt64} {now : UInt64}

theorem idleTimerUs_spec (queued : loop.Queued ptrs past)
    (latest : ∀ reading ∈ past, reading ≤ now)
    (range : now.toNat + kIdleTimeoutMs * 1000 < 2 ^ 64) :
    ∃ nextUs, idleTimerUs loop = .ok nextUs ∧
      (∀ conn client, loop.conns conn = some client →
        nextUs.toNat ≤ client.link.conn.idleStart.toNat + kIdleTimeoutMs * 1000) ∧
      (nextUs = 0xFFFFFFFFFFFFFFFF ∨ loop.Timer nextUs.toNat) := by
  have wired := queued.wired
  unfold idleTimerUs
  cases ptrs with
  | nil =>
      refine ⟨_, if_pos wired.dlistIsEmpty_eq, ?_, .inl rfl⟩
      intro conn client alive
      cases wired.mem alive
  | cons first rest =>
      have busy : dlistIsEmpty loop.idle .idleList = false := wired.dlistIsEmpty_eq
      obtain ⟨client, clientIs⟩ := wired.client_of_mem List.mem_cons_self
      have start := idleStart_of_conns clientIs
      have early : client.link.conn.idleStart ≤ now := by
        rw [← start]
        exact latest _ (queued.dated first List.mem_cons_self)
      have deadline := idleDeadline_toNat early range
      have isNext : (loop.idle .idleList).next = .conn first := wired.next_idleList
      simp only [busy, Bool.false_eq_true, if_false, isNext, clientIs]
      refine ⟨_, rfl, ?_, .inr (.inl ⟨first, client, clientIs, deadline⟩)⟩
      intro conn other alive
      rw [deadline]
      apply Nat.add_le_add_right
      rw [← start, ← idleStart_of_conns alive, ← UInt64.le_iff_toNat_le]
      rcases List.mem_cons.mp (wired.mem alive) with rfl | later
      · exact UInt64.le_refl _
      · exact (List.pairwise_cons.mp queued.sorted).1 conn later

private theorem nearest_unique {next : Nat}
    (nearest : IsLeast {deadline | loop.Timer deadline} next)
    (finite : next < 2 ^ 64 - 1) {nextUs : UInt64}
    (lower : ∀ deadline, loop.Timer deadline → nextUs.toNat ≤ deadline)
    (attained : nextUs = 0xFFFFFFFFFFFFFFFF ∨ loop.Timer nextUs.toNat) : nextUs.toNat = next := by
  have below := lower next nearest.1
  rcases attained with none | timer
  · rw [none] at below
    change 2 ^ 64 - 1 ≤ next at below
    omega
  · exact Nat.le_antisymm below (nearest.2 timer)

theorem nextTimerUs_spec (queued : loop.Queued ptrs past) (linked : loop.db.timers.Linked)
    (latest : ∀ reading ∈ past, reading ≤ now)
    (range : now.toNat + kIdleTimeoutMs * 1000 < 2 ^ 64) {next : Nat}
    (nearest : IsLeast {deadline | loop.Timer deadline} next) (finite : next < 2 ^ 64 - 1) :
    ∃ nextUs, nextTimerUs loop = .ok nextUs ∧ nextUs.toNat = next := by
  obtain ⟨idleUs, idleIs, idleLower, idleAttained⟩ := idleTimerUs_spec queued latest range
  unfold nextTimerUs
  rw [idleIs, ok_bind]
  split
  · rename_i heapIs
    refine ⟨_, rfl, nearest_unique nearest finite ?_ idleAttained⟩
    intro deadline timer
    rcases timer with ⟨conn, client, alive, rfl⟩ | ⟨item, member, -⟩
    · exact idleLower conn client alive
    · rw [heapIs] at member
      cases member
  · rename_i first others heapIs
    have inHeap : first ∈ loop.db.timers.heap := by
      rw [heapIs]
      exact List.mem_cons_self
    have least : ∀ item ∈ loop.db.timers.heap, first.val.toNat ≤ item.val.toNat :=
      fun item member => UInt64.le_iff_toNat_le.mp (linked.first_le heapIs member)
    by_cases earlier : first.val < idleUs
    · rw [if_pos earlier]
      have before := UInt64.lt_iff_toNat_lt.mp earlier
      refine ⟨_, rfl, nearest_unique nearest finite ?_ (.inr (.inr ⟨first, inHeap, rfl⟩))⟩
      intro deadline timer
      rcases timer with ⟨conn, client, alive, rfl⟩ | ⟨item, member, rfl⟩
      · exact Nat.le_trans (Nat.le_of_lt before) (idleLower conn client alive)
      · exact least item member
    · rw [if_neg earlier]
      have before := UInt64.le_iff_toNat_le.mp (UInt64.not_lt.mp earlier)
      refine ⟨_, rfl, nearest_unique nearest finite ?_ idleAttained⟩
      intro deadline timer
      rcases timer with ⟨conn, client, alive, rfl⟩ | ⟨item, member, rfl⟩
      · exact idleLower conn client alive
      · exact Nat.le_trans before (least item member)

/-! ### The timeout -/

private theorem toInt32_toInt (value : UInt32) :
    value.toInt32.toInt =
      if value.toNat < 2 ^ 31 then (value.toNat : Int) else (value.toNat : Int) - 2 ^ 32 := by
  rw [Int32.toInt, UInt32.toBitVec_toInt32, BitVec.toInt_eq_toNat_cond]
  have double : 2 * value.toBitVec.toNat < 2 ^ 32 ↔ value.toNat < 2 ^ 31 := by
    change 2 * value.toNat < 2 ^ 32 ↔ _
    omega
  apply ite_congr (propext double)
  · exact fun _ => rfl
  · exact fun _ => rfl

def waitMs (next : Nat) (now : UInt64) : Nat := (next - now.toNat) / 1000

private theorem nextTimerMs_eq {next : Nat} {nextUs : UInt64}
    (nextIs : nextTimerUs loop = .ok nextUs)
    (same : nextUs.toNat = next) (finite : next < 2 ^ 64 - 1) :
    ∃ ms : UInt32, nextTimerMs loop now = .ok ms ∧ ms.toNat = waitMs next now % 2 ^ 32 := by
  have some : nextUs ≠ 0xFFFFFFFFFFFFFFFF := by
    intro none
    rw [none] at same
    change 2 ^ 64 - 1 = next at same
    omega
  have unit : (1000 : UInt64).toNat = 1000 := rfl
  unfold nextTimerMs waitMs
  rw [nextIs, ok_bind, if_neg some]
  by_cases missed : nextUs ≤ now
  · have before := UInt64.le_iff_toNat_le.mp missed
    rw [if_pos missed, Nat.sub_eq_zero_of_le (by omega)]
    exact ⟨0, rfl, rfl⟩
  · have later := UInt64.le_of_lt (UInt64.not_le.mp missed)
    rw [if_neg missed]
    refine ⟨_, rfl, ?_⟩
    rw [UInt64.toNat_toUInt32, UInt64.toNat_div, UInt64.toNat_sub_of_le _ _ later, unit, same]

/-- `poll` is given the milliseconds, cut to 32 bits and read as a signed number. -/
private theorem timeoutMs_eq {next : Nat} {nextUs : UInt64} (nextIs : nextTimerUs loop = .ok nextUs)
    (same : nextUs.toNat = next) (finite : next < 2 ^ 64 - 1) :
    ∃ timeout : Int32, timeoutMs loop now = .ok timeout ∧
      timeout.toInt = if waitMs next now % 2 ^ 32 < 2 ^ 31
        then ((waitMs next now % 2 ^ 32 : Nat) : Int)
        else ((waitMs next now % 2 ^ 32 : Nat) : Int) - 2 ^ 32 := by
  obtain ⟨ms, msIs, value⟩ := @nextTimerMs_eq loop now next nextUs nextIs same finite
  refine ⟨ms.toInt32, ?_, ?_⟩
  · rw [timeoutMs, msIs, ok_bind]
    rfl
  · rw [toInt32_toInt, value]

/-! ### Timers that fire -/

/-- A connection is closed or a key is removed. -/
def Loop.Fired (loop after : Loop GData) : Prop :=
  (∃ conn, (loop.conns conn).isSome = true ∧ after.conns conn = none) ∨
  ∃ ent ∈ loop.db.owners, ent ∉ after.db.owners

def keyspace (doRequest : GData → List Bytes → Except Fault (GData × Bytes)) : Service GData where
  doRequest := doRequest
  expire := processTtlTimers

variable {doRequest : GData → List Bytes → Except Fault (GData × Bytes)}

/-- A timer that is due fires. -/
private theorem timer_fires (queued : loop.Queued ptrs past) (valid : loop.db.Valid)
    (latest : ∀ reading ∈ past, reading ≤ now)
    (range : now.toNat + kIdleTimeoutMs * 1000 < 2 ^ 64) {deadline : Nat}
    (timer : loop.Timer deadline) (due : deadline < now.toNat + 1000) :
    Meets (loop.db.ExpirySpins now) loop.Fired
      (loop.processTimers (keyspace doRequest) now) := by
  obtain ⟨closed, closedIs, sameDb, conns⟩ := queued.closeIdle_spec latest range
  obtain ⟨ents, dict, dueKeys, represents⟩ := valid
  rw [Loop.processTimers, closedIs, ok_bind, sameDb]
  apply (processTtlTimers_sweeps represents now).bind
  intro db sweeps
  rcases timer with ⟨conn, client, alive, rfl⟩ | ⟨item, member, rfl⟩
  · left
    refine ⟨conn, by rw [alive]; rfl, ?_⟩
    change closed.conns conn = none
    rw [conns, if_pos]
    rw [idleStart_of_conns alive]
    exact ⟨queued.wired.mem alive, due⟩
  · right
    obtain ⟨gone, -, inside, count, afterRepresents⟩ := sweeps
    have early : item.val < now + 1000 := by
      rw [UInt64.lt_iff_toNat_lt, slack_toNat range]
      exact due
    have some : 0 < dueCount (now + 1000) loop.db.timers.heap :=
      List.countP_pos_iff.mpr ⟨item, member, decide_eq_true early⟩
    have removes : 0 < gone.length := by
      rw [count]
      exact Nat.lt_min.mpr ⟨some, Nat.succ_pos _⟩
    obtain ⟨ent, entMember⟩ := List.exists_mem_of_length_pos removes
    refine ⟨ent, represents.keyed.nodes_perm.mem_iff.mpr (inside entMember), fun stays => ?_⟩
    have kept := (List.mem_filter.mp (afterRepresents.keyed.nodes_perm.mem_iff.mp stays)).2
    exact of_decide_eq_true kept entMember

private theorem processTtlTimers_none_due {g : GData}
    (none : ∀ item ∈ g.timers.heap, now + 1000 ≤ item.val) : processTtlTimers g now = .ok g := by
  rw [processTtlTimers, expireLoop]
  split
  · rfl
  · rename_i first others heapIs
    have late := none first (by rw [heapIs]; exact List.mem_cons_self)
    exact if_neg (UInt64.not_lt.mpr late)

/-- When no timer is due, nothing happens. -/
private theorem no_timer_fires (queued : loop.Queued ptrs past)
    (latest : ∀ reading ∈ past, reading ≤ now)
    (range : now.toNat + kIdleTimeoutMs * 1000 < 2 ^ 64)
    (none : ∀ deadline, loop.Timer deadline → now.toNat + 1000 ≤ deadline) :
    ¬Meets (loop.db.ExpirySpins now) loop.Fired
      (loop.processTimers (keyspace doRequest) now) := by
  obtain ⟨closed, closedIs, sameDb, conns⟩ := queued.closeIdle_spec latest range
  have sameConns : ∀ conn, closed.conns conn = loop.conns conn := by
    intro conn
    rw [conns, if_neg]
    intro due
    obtain ⟨client, alive⟩ := queued.wired.client_of_mem due.1
    have late := none _ (.inl ⟨conn, client, alive, rfl⟩)
    rw [idleStart_of_conns alive] at due
    exact absurd due.2 (Nat.not_lt.mpr late)
  have quiet : processTtlTimers loop.db now = .ok loop.db := by
    apply processTtlTimers_none_due
    intro item member
    rw [UInt64.le_iff_toNat_le, slack_toNat range]
    exact none _ (.inr ⟨item, member, rfl⟩)
  have expires : (keyspace doRequest).expire closed.db now = .ok loop.db := by
    rw [sameDb]
    exact quiet
  rw [Loop.processTimers, closedIs, ok_bind, expires, ok_bind]
  intro fired
  rcases fired with ⟨conn, alive, gone⟩ | ⟨ent, member, gone⟩
  · change closed.conns conn = Option.none at gone
    rw [← sameConns, gone] at alive
    cases alive
  · exact gone member

/-! ### A timeout that is right -/

/-- The timeout at `now` is not negative and does not pass the nearest deadline, and after
it a timer fires, if the calls of `hm_pop` return. -/
def Loop.WakesInTime (loop : Loop GData)
    (doRequest : GData → List Bytes → Except Fault (GData × Bytes)) (now : UInt64) (next : Nat) :
    Prop :=
  ∃ timeout : Int32, timeoutMs loop now = .ok timeout ∧ 0 ≤ timeout.toInt ∧
    now.toNat + 1000 * timeout.toInt ≤ max now.toNat next ∧
    ∀ later : UInt64, now.toNat + 1000 * timeout.toInt ≤ later.toNat →
      later.toNat + kIdleTimeoutMs * 1000 < 2 ^ 64 →
      Meets (loop.db.ExpirySpins later) loop.Fired
        (loop.processTimers (keyspace doRequest) later)

private theorem readings_le {later : UInt64} (latest : ∀ reading ∈ past, reading ≤ now)
    (after : now.toNat ≤ later.toNat) : ∀ reading ∈ past, reading ≤ later :=
  fun reading member => UInt64.le_trans (latest reading member) (UInt64.le_iff_toNat_le.mpr after)

private theorem wakes_of_near (queued : loop.Queued ptrs past) (valid : loop.db.Valid)
    (latest : ∀ reading ∈ past, reading ≤ now) {next : Nat} (timer : loop.Timer next)
    (near : next < now.toNat + 1000 * 2 ^ 31) {timeout : Int32}
    (timeoutIs : timeoutMs loop now = .ok timeout)
    (value : timeout.toInt = if waitMs next now % 2 ^ 32 < 2 ^ 31
      then ((waitMs next now % 2 ^ 32 : Nat) : Int)
      else ((waitMs next now % 2 ^ 32 : Nat) : Int) - 2 ^ 32) :
    loop.WakesInTime doRequest now next := by
  have wait : waitMs next now = (next - now.toNat) / 1000 := rfl
  have fits : waitMs next now % 2 ^ 32 = waitMs next now := Nat.mod_eq_of_lt (by omega)
  rw [fits, if_pos (by omega)] at value
  refine ⟨timeout, timeoutIs, by omega, by omega, fun later after => ?_⟩
  have order : now.toNat ≤ later.toNat := by omega
  have due : next < later.toNat + 1000 := by omega
  intro range
  exact timer_fires queued valid (readings_le latest order) range timer due

/-- Milliseconds that do not fit are passed on as a negative number, or as a smaller one, and
`poll` wakes up when no timer is due. -/
private theorem near_of_wakes (queued : loop.Queued ptrs past)
    (latest : ∀ reading ∈ past, reading ≤ now) {next : Nat} (finite : next < 2 ^ 64 - 1)
    (lower : ∀ deadline, loop.Timer deadline → next ≤ deadline) {timeout : Int32}
    (timeoutIs : timeoutMs loop now = .ok timeout)
    (value : timeout.toInt = if waitMs next now % 2 ^ 32 < 2 ^ 31
      then ((waitMs next now % 2 ^ 32 : Nat) : Int)
      else ((waitMs next now % 2 ^ 32 : Nat) : Int) - 2 ^ 32)
    (wakes : loop.WakesInTime doRequest now next) : next < now.toNat + 1000 * 2 ^ 31 := by
  have wait : waitMs next now = (next - now.toNat) / 1000 := rfl
  have idleUs : kIdleTimeoutMs * 1000 = 5000000 := rfl
  obtain ⟨given, givenIs, nonneg, -, fires⟩ := wakes
  rw [timeoutIs] at givenIs
  cases givenIs
  by_contra far
  have small : waitMs next now % 2 ^ 32 < 2 ^ 31 := by
    by_contra large
    rw [if_neg large] at value
    omega
  rw [if_pos small] at value
  have wokenAt : now.toNat + 1000 * (waitMs next now % 2 ^ 32) + 5000000 < 2 ^ 64 := by omega
  have laterIs : (UInt64.ofNat (now.toNat + 1000 * (waitMs next now % 2 ^ 32))).toNat =
      now.toNat + 1000 * (waitMs next now % 2 ^ 32) :=
    UInt64.toNat_ofNat_of_lt' (Nat.lt_of_le_of_lt (Nat.le_add_right _ _) wokenAt)
  have laterRange : (UInt64.ofNat (now.toNat + 1000 * (waitMs next now % 2 ^ 32))).toNat +
      kIdleTimeoutMs * 1000 < 2 ^ 64 := by
    rw [laterIs, idleUs]
    exact wokenAt
  apply no_timer_fires queued (readings_le latest _) laterRange _ (fires _ (by omega) laterRange)
  · omega
  · intro deadline timer
    have after := lower deadline timer
    omega

end

/-! ### Runs -/

/-- An event of the loop with the calls that it makes on the keyspace, or a call alone. -/
inductive TimedEvent
  | loop (event : LoopEvent) (calls : List KeyCall)
  | call (call : KeyCall)

def TimedEvent.readings : TimedEvent → List UInt64
  | .loop event _ => event.reading.toList
  | .call _ => []

/-- `doRequest` is any function that handles the requests of the event; what it has done to
the keyspace are the calls. -/
def TimedStep (strtod : Strtod) (before : Loop GData) (event : TimedEvent) (after : Loop GData) :
    Prop :=
  match event with
  | .loop event calls =>
      (∃ doRequest, LoopStep (keyspace doRequest) before event after) ∧
        Runs (KeyStep strtod) before.db calls after.db
  | .call call => ∃ db, KeyStep strtod before.db call db ∧ after = { before with db := db }

theorem TimedStep.keeps {strtod : Strtod} {before after : Loop GData} {event : TimedEvent}
    {past : List UInt64} {ptrs : List Ptr} (queued : before.Queued ptrs past)
    (valid : before.db.Valid)
    (latest : ∀ now ∈ event.readings, ∀ reading ∈ past, reading ≤ now)
    (step : TimedStep strtod before event after) :
    (∃ ptrsAfter, after.Queued ptrsAfter (past ++ event.readings)) ∧ after.db.Valid := by
  cases event with
  | loop event calls =>
      obtain ⟨⟨doRequest, loopStep⟩, calls⟩ := step
      exact ⟨loopStep.queued queued latest, calls.invariant (KeyStep.valid strtod) valid⟩
  | call call =>
      obtain ⟨db, called, rfl⟩ := step
      constructor
      · refine ⟨ptrs, ?_⟩
        rw [TimedEvent.readings, List.append_nil]
        exact queued.withDb db
      · exact KeyStep.valid strtod before.db call db valid called

private theorem timed_runs_keep {strtod : Strtod} {mem : ListPtr → DList ListPtr}
    {trace : List TimedEvent} {loop : Loop GData}
    (run : Runs (TimedStep strtod) (Loop.start {} mem) trace loop)
    (ordered : (trace.flatMap TimedEvent.readings).Pairwise (· ≤ ·)) :
    (∃ ptrs, loop.Queued ptrs (trace.flatMap TimedEvent.readings)) ∧ loop.db.Valid := by
  have preserved : ∀ (past : List TimedEvent) (before : Loop GData) event after,
      ((past.flatMap TimedEvent.readings).Pairwise (· ≤ ·) →
        (∃ ptrs, before.Queued ptrs (past.flatMap TimedEvent.readings)) ∧ before.db.Valid) →
      TimedStep strtod before event after →
      ((past ++ [event]).flatMap TimedEvent.readings).Pairwise (· ≤ ·) →
        (∃ ptrs, after.Queued ptrs ((past ++ [event]).flatMap TimedEvent.readings)) ∧
          after.db.Valid := by
    intro past before event after kept step
    rw [List.flatMap_append, List.flatMap_singleton]
    intro all
    obtain ⟨pastOrdered, -, latest⟩ := List.pairwise_append.mp all
    obtain ⟨⟨ptrs, queued⟩, valid⟩ := kept pastOrdered
    exact step.keeps queued valid fun now isNow reading member => latest reading member now isNow
  have start : ({} : GData).Valid := ⟨[], _, _, GData.Represents.empty⟩
  exact run.history preserved (fun _ => ⟨⟨[], Loop.Queued.start _ mem⟩, start⟩) ordered

/-- In every state that is reached, and at every reading of the clock from then on, the
timeout of `poll` is right exactly if the nearest deadline is less than `2 ^ 31`
milliseconds away. -/
theorem poll_wakes_in_time_iff (strtod : Strtod) (mem : ListPtr → DList ListPtr)
    {trace : List TimedEvent} {loop : Loop GData}
    (run : Runs (TimedStep strtod) (Loop.start {} mem) trace loop)
    (ordered : (trace.flatMap TimedEvent.readings).Pairwise (· ≤ ·)) {now : UInt64}
    (latest : ∀ reading ∈ trace.flatMap TimedEvent.readings, reading ≤ now)
    (range : now.toNat + kIdleTimeoutMs * 1000 < 2 ^ 64)
    (doRequest : GData → List Bytes → Except Fault (GData × Bytes)) {next : Nat}
    (nearest : IsLeast {deadline | loop.Timer deadline} next) (finite : next < 2 ^ 64 - 1) :
    loop.WakesInTime doRequest now next ↔ next < now.toNat + 1000 * 2 ^ 31 := by
  obtain ⟨⟨ptrs, queued⟩, valid⟩ := timed_runs_keep run ordered
  have linked : loop.db.timers.Linked := by
    obtain ⟨ents, dict, due, represents⟩ := valid
    exact represents.linked
  obtain ⟨nextUs, nextIs, same⟩ := nextTimerUs_spec queued linked latest range nearest finite
  obtain ⟨timeout, timeoutIs, value⟩ := @timeoutMs_eq loop now next nextUs nextIs same finite
  constructor
  · exact near_of_wakes queued latest finite (fun _ timer => nearest.2 timer) timeoutIs value
  · intro near
    exact wakes_of_near queued valid latest nearest.1 near timeoutIs value

private theorem timed_runs_of_calls {strtod : Strtod} {g after : GData} {calls : List KeyCall}
    (run : Runs (KeyStep strtod) g calls after) (loop : Loop GData) :
    Runs (TimedStep strtod) { loop with db := g } (calls.map .call) { loop with db := after } := by
  induction run with
  | nil g => exact .nil _
  | cons head tail ih => exact .cons ⟨_, head, rfl⟩ ih

def oneTimer (ttlMs : String) : List KeyCall :=
  [.request ⟨1, 1⟩ [ascii "set", [97], [120]], .expire 100 [97] (ascii ttlMs)]

def emptyLoop : Loop GData := Loop.start {} fun _ => ⟨.idleList, .idleList⟩

private theorem nearest_of_conns {loop : Loop GData} {item : HeapItem}
    (noConns : ∀ conn, loop.conns conn = none) (heapIs : loop.db.timers.heap = [item]) :
    IsLeast {deadline | loop.Timer deadline} item.val.toNat := by
  constructor
  · exact .inr ⟨item, by rw [heapIs]; exact List.mem_cons_self, rfl⟩
  · intro next timer
    rcases timer with ⟨conn, client, alive, -⟩ | ⟨other, member, rfl⟩
    · rw [noConns] at alive
      cases alive
    · rw [heapIs] at member
      rw [List.mem_singleton.mp member]

theorem poll_wakes_in_time_for_key :
    ∃ loop, Runs (TimedStep strtodOne) emptyLoop ((oneTimer "7").map .call) loop ∧
      IsLeast {deadline | loop.Timer deadline} 7100 ∧
      loop.WakesInTime (fun g _ => .ok (g, outNil [])) 200 7100 ∧
      ∃ after, loop.processTimers (keyspace fun g _ => .ok (g, outNil [])) 6200 = .ok after ∧
        loop.Fired after := by
  have followed : ((follow (keyNext strtodOne) {} (oneTimer "7")).any fun g =>
      g.timers.heap = [{ val := 7100, ref := 1 }] ∧ (Loop.processTimers
        (keyspace fun g _ => .ok (g, outNil [])) { emptyLoop with db := g }
        6200).toOption.isSome = true) = true := by
    decide +kernel
  obtain ⟨g, gIs, found⟩ := (Option.any_eq_true _ _).mp followed
  obtain ⟨heapIs, returns⟩ := of_decide_eq_true found
  obtain ⟨after, afterIs⟩ := Option.isSome_iff_exists.mp returns
  have expired := eq_ok_of_toOption afterIs
  have run := timed_runs_of_calls (runs_of_follow_eq (keyNext_sound strtodOne) gIs) emptyLoop
  have nearest : IsLeast {deadline | Loop.Timer { emptyLoop with db := g } deadline} 7100 :=
    @nearest_of_conns { emptyLoop with db := g } _ (fun _ => rfl) heapIs
  have readings : ((oneTimer "7").map TimedEvent.call).flatMap TimedEvent.readings = [] := rfl
  have wakes : Loop.WakesInTime { emptyLoop with db := g } (fun g _ => .ok (g, outNil [])) 200
      7100 :=
    (poll_wakes_in_time_iff strtodOne _ run (by rw [readings]; exact .nil)
      (by rw [readings]; exact fun _ member => nomatch member) (by decide) _ nearest
      (by decide)).mpr (by decide)
  obtain ⟨timeout, timeoutIs, nonneg, early, fires⟩ := wakes
  have bound : 200 + 1000 * timeout.toInt ≤ 7100 := early
  have woken : 200 + 1000 * timeout.toInt ≤ 6200 := by omega
  have fired := (fires 6200 woken (by decide)).of_ok expired
  exact ⟨_, run, nearest, ⟨timeout, timeoutIs, nonneg, early, fires⟩, after, expired, fired⟩

theorem poll_timeout_negative :
    ∃ loop, Runs (TimedStep strtodOne) emptyLoop
        ((oneTimer "2147483648").map .call) loop ∧
      IsLeast {deadline | loop.Timer deadline} 2147483648100 ∧
      timeoutMs loop 100 = .ok (-2147483648) ∧
      ∀ doRequest, ¬loop.WakesInTime doRequest 100 2147483648100 := by
  have followed : ((follow (keyNext strtodOne) {} (oneTimer "2147483648")).any fun g =>
      decide (g.timers.heap = [{ val := 2147483648100, ref := 1 }])) = true := by
    decide +kernel
  obtain ⟨g, gIs, found⟩ := (Option.any_eq_true _ _).mp followed
  have heapIs := of_decide_eq_true found
  have run := timed_runs_of_calls (runs_of_follow_eq (keyNext_sound strtodOne) gIs) emptyLoop
  have nearest : IsLeast {deadline | Loop.Timer { emptyLoop with db := g } deadline}
      2147483648100 :=
    @nearest_of_conns { emptyLoop with db := g } _ (fun _ => rfl) heapIs
  have given : timeoutMs { emptyLoop with db := g } 100 = .ok (-2147483648) := by
    rw [timeoutMs, nextTimerMs, nextTimerUs]
    simp only [heapIs]
    rfl
  refine ⟨_, run, nearest, given, ?_⟩
  intro doRequest wakes
  obtain ⟨timeout, timeoutIs, nonneg, -⟩ := wakes
  rw [given] at timeoutIs
  cases timeoutIs
  exact absurd nonneg (by decide)

end RedisC
