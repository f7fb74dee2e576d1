/-
The thread pool that destroys large sorted sets.

A worker holds the mutex from `pthread_mutex_lock` to its next wait or unlock, so
this section is one step, and so is the section of `thread_pool_queue`.  The
scheduler chooses who moves, which waiting worker a signal wakes, and when a
wait ends without one.
-/

import RedisC.Lib.Fallible
import RedisC.Lib.LabelledRun
import RedisC.Machine

namespace RedisC

open Fallible LabelledRun

structure Work where
  f : Ptr
  arg : Ptr
  deriving DecidableEq, Repr

/-- Where a worker is: before `pthread_mutex_lock`, blocked in `pthread_cond_wait`,
about to return from it, or in `w.f(w.arg)`. -/
inductive Worker
  | ready
  | waiting
  | woken
  | running (w : Work)
  deriving DecidableEq, Repr

/-- The worker is awake and about to check the queue. -/
def Worker.checking : Worker → Bool
  | .ready => true
  | .waiting => false
  | .woken => true
  | .running _ => false

def Worker.job : Worker → Option Work
  | .ready => none
  | .waiting => none
  | .woken => none
  | .running w => some w

structure ThreadPool where
  threads : List Worker := []
  queue : List Work := []

def threadPoolInit (numOfThreads : Nat) : Except Fault ThreadPool :=
  if numOfThreads > 0 then
    .ok { threads := List.replicate numOfThreads .ready }
  else
    .error (.assertion .threadPoolInit)

/-- `pthread_cond_signal`; `woken` is the worker that the signal wakes, if any waits. -/
def condSignal (threads : List Worker) : Option Nat → List Worker
  | none => threads
  | some i => threads.set i .woken

def threadPoolQueue (tp : ThreadPool) (w : Work) (woken : Option Nat) : ThreadPool where
  threads := condSignal tp.threads woken
  queue := tp.queue ++ [w]

/-- The section of the worker `i` under the mutex, from the test of the queue: it
waits, or it takes the job at the front. -/
def workerSection (tp : ThreadPool) (i : Nat) : Except Fault (ThreadPool × Option Work) :=
  if tp.queue.isEmpty then
    .ok ({ tp with threads := tp.threads.set i .waiting }, none)
  else
    match tp.queue with
    -- `front` of an empty deque
    | [] => .error .outOfBounds
    | w :: rest => .ok ({ threads := tp.threads.set i (.running w), queue := rest }, some w)

/-- A move of the program or of the scheduler. -/
inductive PoolEvent
  | queued (w : Work) (woken : Option Nat)
  | checked (i : Nat) (taken : Option Work)
  | finished (i : Nat) (w : Work)
  | spurious (i : Nat)
  deriving DecidableEq, Repr

/-- A signal wakes a waiting worker if there is one. -/
def Signals (threads : List Worker) : Option Nat → Prop
  | none => .waiting ∉ threads
  | some i => threads[i]? = some .waiting

def PoolStep (tp : ThreadPool) (event : PoolEvent) (after : ThreadPool) : Prop :=
  match event with
  | .queued w woken => Signals tp.threads woken ∧ after = threadPoolQueue tp w woken
  | .checked i taken =>
      (∃ worker, tp.threads[i]? = some worker ∧ worker.checking = true) ∧
        workerSection tp i = .ok (after, taken)
  | .finished i w =>
      tp.threads[i]? = some (.running w) ∧
        after = { tp with threads := tp.threads.set i .ready }
  | .spurious i =>
      tp.threads[i]? = some .waiting ∧
        after = { tp with threads := tp.threads.set i .woken }

def PoolEvent.job : PoolEvent → Option Work
  | .queued w _ => some w
  | .checked _ _ => none
  | .finished _ _ => none
  | .spurious _ => none

def PoolEvent.taken : PoolEvent → Option Work
  | .queued _ _ => none
  | .checked _ taken => taken
  | .finished _ _ => none
  | .spurious _ => none

def PoolEvent.done : PoolEvent → Option Work
  | .queued _ _ => none
  | .checked _ _ => none
  | .finished _ w => some w
  | .spurious _ => none

def ThreadPool.running (tp : ThreadPool) : List Work :=
  tp.threads.filterMap Worker.job

/-- The workers that are awake and about to check the queue. -/
def ThreadPool.checking (tp : ThreadPool) : Nat :=
  tp.threads.countP Worker.checking

/-! ### One step -/

/-- What holds after the events of a trace. -/
structure PoolHistory (trace : List PoolEvent) (tp : ThreadPool) : Prop where
  fifo : trace.filterMap PoolEvent.job = trace.filterMap PoolEvent.taken ++ tp.queue
  once : (trace.filterMap PoolEvent.taken).Perm
    (trace.filterMap PoolEvent.done ++ tp.running)
  wakeful : .waiting ∉ tp.threads ∨ tp.queue.length ≤ tp.checking

section Exchange

variable {threads : List Worker} {i : Nat} {old : Worker}

/-- A worker that changes its state is exchanged in the collection of the workers. -/
private theorem threads_exchange (found : threads[i]? = some old) (new : Worker) :
    (old :: threads.set i new).Perm (new :: threads) := by
  obtain ⟨inside, atIndex⟩ := List.getElem?_eq_some_iff.mp found
  have restored : (old :: threads.eraseIdx i).Perm threads := by
    rw [← atIndex]
    exact List.getElem_cons_eraseIdx_perm inside
  have replaced := (List.set_perm_cons_eraseIdx inside new).cons old
  exact replaced.trans ((List.Perm.swap new old _).trans (restored.cons new))

private theorem checking_exchange (found : threads[i]? = some old) (new : Worker) :
    (threads.set i new).countP Worker.checking + (if old.checking then 1 else 0) =
      threads.countP Worker.checking + (if new.checking then 1 else 0) := by
  have counted := (threads_exchange found new).countP_eq Worker.checking
  rw [List.countP_cons, List.countP_cons] at counted
  exact counted

private theorem running_exchange (found : threads[i]? = some old) (new : Worker) :
    (old.job.toList ++ (threads.set i new).filterMap Worker.job).Perm
      (new.job.toList ++ threads.filterMap Worker.job) := by
  have mapped := (threads_exchange found new).filterMap Worker.job
  rw [List.filterMap_cons, List.filterMap_cons] at mapped
  cases old with
  | running w => cases new <;> exact mapped
  | _ => cases new <;> exact mapped

private theorem awake_job {worker : Worker} (awake : worker.checking = true) :
    worker.job = none := by
  cases worker with
  | running w => cases awake
  | _ => rfl

private theorem waiting_exchange {new : Worker}
    (awake : new ≠ .waiting) (none : .waiting ∉ threads) : .waiting ∉ threads.set i new := by
  intro member
  rcases List.mem_or_eq_of_mem_set member with was | same
  · exact none was
  · exact awake same.symm

end Exchange

variable {trace : List PoolEvent} {tp after : ThreadPool}

/-- A worker waits when the queue is empty and otherwise takes the job at its front. -/
theorem workerSection_spec (tp : ThreadPool) (i : Nat) :
    Meets (fun _ => False)
      (fun result : ThreadPool × Option Work =>
        (tp.queue = [] ∧ result.2 = none ∧
          result.1 = ⟨tp.threads.set i .waiting, []⟩) ∨
        ∃ w rest, tp.queue = w :: rest ∧ result.2 = some w ∧
          result.1 = ⟨tp.threads.set i (.running w), rest⟩)
      (workerSection tp i) := by
  obtain ⟨threads, queue⟩ := tp
  unfold workerSection
  cases queue with
  | nil => exact .inl ⟨rfl, rfl, rfl⟩
  | cons w rest => exact .inr ⟨w, rest, rfl, rfl, rfl⟩

/-- Two lists with the same history differ by what the last event appends. -/
private theorem filterMap_snoc (field : PoolEvent → Option Work) (event : PoolEvent) :
    (trace ++ [event]).filterMap field = trace.filterMap field ++ (field event).toList := by
  rw [List.filterMap_append]
  cases got : field event with
  | none => rw [List.filterMap_cons_none got]; rfl
  | some w => rw [List.filterMap_cons_some got]; rfl

theorem PoolHistory.queued (history : PoolHistory trace tp) {w : Work} {woken : Option Nat}
    (signals : Signals tp.threads woken) :
    PoolHistory (trace ++ [.queued w woken]) (threadPoolQueue tp w woken) := by
  refine ⟨?_, ?_, ?_⟩
  · rw [filterMap_snoc, filterMap_snoc, history.fifo]
    simp only [PoolEvent.job, PoolEvent.taken, threadPoolQueue, Option.toList_some,
      Option.toList_none, List.append_nil, List.append_assoc]
  · rw [filterMap_snoc, filterMap_snoc]
    simp only [PoolEvent.taken, PoolEvent.done, Option.toList_none, List.append_nil]
    refine history.once.trans (List.Perm.append_left _ ?_)
    cases woken with
    | none => exact List.Perm.refl _
    | some i => exact (running_exchange signals .woken).symm
  · cases woken with
    | none => exact .inl signals
    | some i =>
        rcases history.wakeful with nobody | enough
        · exact absurd (List.mem_of_getElem? signals) nobody
        · right
          have counted := checking_exchange signals .woken
          change (tp.queue ++ [w]).length ≤ (tp.threads.set i .woken).countP _
          rw [List.length_append, List.length_singleton]
          change _ + 0 = tp.checking + 1 at counted
          omega

/-- Going to sleep loses no wake-up, since no job is left in the queue. -/
theorem PoolHistory.slept (history : PoolHistory trace tp) {i : Nat} {worker : Worker}
    (found : tp.threads[i]? = some worker) (awake : worker.checking = true)
    (drained : tp.queue = []) :
    PoolHistory (trace ++ [.checked i none]) ⟨tp.threads.set i .waiting, []⟩ := by
  refine ⟨?_, ?_, .inr (Nat.zero_le _)⟩
  · rw [filterMap_snoc, filterMap_snoc, history.fifo, drained]
    simp only [PoolEvent.job, PoolEvent.taken, Option.toList_none, List.append_nil]
  · rw [filterMap_snoc, filterMap_snoc]
    simp only [PoolEvent.taken, PoolEvent.done, Option.toList_none, List.append_nil]
    have exchanged := running_exchange found .waiting
    rw [awake_job awake] at exchanged
    exact history.once.trans (exchanged.symm.append_left _)

theorem PoolHistory.took (history : PoolHistory trace tp) {i : Nat} {worker : Worker}
    (found : tp.threads[i]? = some worker) (awake : worker.checking = true)
    {w : Work} {rest : List Work} (front : tp.queue = w :: rest) :
    PoolHistory (trace ++ [.checked i (some w)]) ⟨tp.threads.set i (.running w), rest⟩ := by
  refine ⟨?_, ?_, ?_⟩
  · rw [filterMap_snoc, filterMap_snoc, history.fifo, front]
    simp only [PoolEvent.job, PoolEvent.taken, Option.toList_none, Option.toList_some,
      List.append_nil, List.append_assoc, List.singleton_append]
  · rw [filterMap_snoc, filterMap_snoc]
    simp only [PoolEvent.taken, PoolEvent.done, Option.toList_none, Option.toList_some,
      List.append_nil]
    have exchanged := running_exchange found (.running w)
    rw [awake_job awake] at exchanged
    have placed : (tp.running ++ [w]).Perm
        ((⟨tp.threads.set i (.running w), rest⟩ : ThreadPool).running) :=
      (List.perm_append_comm).trans exchanged.symm
    have counted := history.once.append_right [w]
    rw [List.append_assoc] at counted
    exact counted.trans (placed.append_left _)
  · rcases history.wakeful with nobody | enough
    · exact .inl (waiting_exchange (fun same => by cases same) nobody)
    · right
      have counted := checking_exchange found (.running w)
      rw [if_pos awake] at counted
      change _ + 1 = tp.checking + 0 at counted
      rw [front, List.length_cons] at enough
      change rest.length ≤ (tp.threads.set i (.running w)).countP _
      omega

/-- A worker that has nothing to do with the queue leaves it as it is, and if it ends
up awake it only adds to those who will check it. -/
theorem PoolHistory.woke (history : PoolHistory trace tp) {i : Nat} {old new : Worker}
    {event : PoolEvent} (found : tp.threads[i]? = some old) (away : old.checking = false)
    (awake : new.checking = true) (noJob : event.job = none) (noTaken : event.taken = none)
    (released : event.done = old.job) :
    PoolHistory (trace ++ [event]) ⟨tp.threads.set i new, tp.queue⟩ := by
  refine ⟨?_, ?_, ?_⟩
  · rw [filterMap_snoc, filterMap_snoc, history.fifo, noJob, noTaken]
    simp only [Option.toList_none, List.append_nil]
  · rw [filterMap_snoc, filterMap_snoc, noTaken, released, List.append_assoc]
    have exchanged := running_exchange found new
    rw [awake_job awake] at exchanged
    rw [Option.toList_none, List.append_nil]
    exact history.once.trans (exchanged.symm.append_left _)
  · rcases history.wakeful with nobody | enough
    · refine .inl (waiting_exchange ?_ nobody)
      intro same
      rw [same] at awake
      cases awake
    · right
      have counted := checking_exchange found new
      rw [if_pos awake, away] at counted
      change _ + 0 = tp.checking + 1 at counted
      change tp.queue.length ≤ (tp.threads.set i new).countP _
      omega

theorem PoolHistory.step {event : PoolEvent} (history : PoolHistory trace tp)
    (step : PoolStep tp event after) : PoolHistory (trace ++ [event]) after := by
  cases event with
  | queued w woken =>
      obtain ⟨signals, rfl⟩ := step
      exact history.queued signals
  | checked i taken =>
      obtain ⟨⟨worker, found, awake⟩, returned⟩ := step
      rcases (workerSection_spec tp i).of_ok returned with slept | took
      · obtain ⟨drained, none, same⟩ := slept
        dsimp only at none same
        subst none same
        exact history.slept found awake drained
      · obtain ⟨w, rest, front, some, same⟩ := took
        dsimp only at some same
        subst some same
        exact history.took found awake front
  | finished i w =>
      obtain ⟨found, rfl⟩ := step
      exact history.woke found rfl rfl rfl rfl rfl
  | spurious i =>
      obtain ⟨found, rfl⟩ := step
      exact history.woke found rfl rfl rfl rfl rfl

/-! ### Every interleaving -/

theorem threadPoolInit_spec (numOfThreads : Nat) :
    Meets (· = .assertion .threadPoolInit)
      (fun tp => 0 < tp.threads.length ∧ PoolHistory [] tp) (threadPoolInit numOfThreads) := by
  unfold threadPoolInit
  split
  · rename_i positive
    refine ⟨?_, rfl, ?_, .inr (Nat.zero_le _)⟩
    · rw [List.length_replicate]
      exact positive
    · have noJobs : (List.replicate numOfThreads Worker.ready).filterMap Worker.job = [] := by
        rw [List.filterMap_eq_nil_iff]
        intro worker member
        rw [List.eq_of_mem_replicate member]
        rfl
      rw [ThreadPool.running, noJobs]
      exact List.Perm.refl _
  · rfl

/-- The pool of any number of workers, after any interleaving of the sections: the jobs
have been taken in the order in which they were queued, each once, no worker takes
from an empty queue, and a worker sleeps only while enough others are about to
check the queue. -/
theorem threadPool_keeps_jobs {numOfThreads : Nat} {start : ThreadPool}
    (started : threadPoolInit numOfThreads = .ok start)
    (run : Runs PoolStep start trace tp) :
    trace.filterMap PoolEvent.job = trace.filterMap PoolEvent.taken ++ tp.queue ∧
    (trace.filterMap PoolEvent.taken).Perm
      (trace.filterMap PoolEvent.done ++ tp.running) ∧
    (∀ i, Meets (fun _ => False)
      (fun result : ThreadPool × Option Work => result.2 = tp.queue.head?)
      (workerSection tp i)) ∧
    (.waiting ∉ tp.threads ∨ tp.queue.length ≤ tp.checking) := by
  have initial := ((threadPoolInit_spec numOfThreads).of_ok started).2
  have history := run.history (fun _ _ _ _ past step => past.step step) initial
  refine ⟨history.fifo, history.once, ?_, history.wakeful⟩
  intro i
  refine (workerSection_spec tp i).mono ?_
  intro result either
  rcases either with slept | took
  · rw [slept.1, slept.2.1]
    rfl
  · obtain ⟨w, rest, front, taken, _⟩ := took
    rw [front, taken]
    rfl

/-- Two workers; the first one sleeps, is signalled, and finds that the second one has
taken the job. -/
def stolenJob : List PoolEvent :=
  [.checked 0 none, .queued ⟨1, 2⟩ (some 0), .checked 1 (some ⟨1, 2⟩), .checked 0 none,
    .finished 1 ⟨1, 2⟩]

theorem threadPool_keeps_jobs_stolen :
    Runs PoolStep ⟨[.ready, .ready], []⟩ stolenJob ⟨[.waiting, .ready], []⟩ ∧
      stolenJob.filterMap PoolEvent.job = stolenJob.filterMap PoolEvent.taken ++ [] := by
  have run : Runs PoolStep ⟨[.ready, .ready], []⟩ stolenJob ⟨[.waiting, .ready], []⟩ := by
    refine .cons ⟨⟨.ready, rfl, rfl⟩, rfl⟩ ?_
    refine .cons ⟨rfl, rfl⟩ ?_
    refine .cons ⟨⟨.ready, rfl, rfl⟩, rfl⟩ ?_
    refine .cons ⟨⟨.woken, rfl, rfl⟩, rfl⟩ ?_
    exact .cons ⟨rfl, rfl⟩ (.nil _)
  have started : threadPoolInit 2 = .ok ⟨[.ready, .ready], []⟩ := rfl
  exact ⟨run, (threadPool_keeps_jobs started run).1⟩

theorem PoolStep.threads_length {event : PoolEvent} (step : PoolStep tp event after) :
    after.threads.length = tp.threads.length := by
  cases event with
  | queued w woken =>
      obtain ⟨_, rfl⟩ := step
      cases woken with
      | none => rfl
      | some i => exact List.length_set
  | checked i taken =>
      obtain ⟨_, returned⟩ := step
      rcases (workerSection_spec tp i).of_ok returned with slept | took
      · have same : after = _ := slept.2.2
        rw [same, List.length_set]
      · obtain ⟨w, rest, _, _, isRest⟩ := took
        have same : after = _ := isRest
        rw [same, List.length_set]
  | finished i w =>
      obtain ⟨_, rfl⟩ := step
      exact List.length_set
  | spurious i =>
      obtain ⟨_, rfl⟩ := step
      exact List.length_set

/-- While a job is in the queue, not every worker sleeps. -/
theorem threadPool_queue_served {numOfThreads : Nat} {start : ThreadPool}
    (started : threadPoolInit numOfThreads = .ok start)
    (run : Runs PoolStep start trace tp) (pending : tp.queue ≠ []) :
    ∃ worker ∈ tp.threads, worker ≠ .waiting := by
  obtain ⟨positive, initial⟩ := (threadPoolInit_spec numOfThreads).of_ok started
  have history := run.history (fun _ _ _ _ past step => past.step step) initial
  have kept : ∀ (before : ThreadPool) event after, 0 < before.threads.length →
      PoolStep before event after → 0 < after.threads.length := by
    intro before event after some step
    rw [step.threads_length]
    exact some
  have staffed := run.invariant kept positive
  rcases history.wakeful with nobody | enough
  · obtain ⟨worker, member⟩ := List.exists_mem_of_length_pos staffed
    exact ⟨worker, member, fun same => nobody (same ▸ member)⟩
  · have awake : 0 < tp.checking := Nat.lt_of_lt_of_le (List.length_pos_iff.mpr pending) enough
    obtain ⟨worker, member, isAwake⟩ := List.countP_pos_iff.mp awake
    refine ⟨worker, member, ?_⟩
    intro same
    rw [same] at isAwake
    cases isAwake

/-! ### The jobs get done -/

/-- A step of a worker, as opposed to one of the producer or of the scheduler. -/
def PoolEvent.byWorker : PoolEvent → Bool
  | .queued _ _ => false
  | .checked _ _ => true
  | .finished _ _ => true
  | .spurious _ => false

def PoolEvent.isSpurious : PoolEvent → Bool
  | .queued _ _ => false
  | .checked _ _ => false
  | .finished _ _ => false
  | .spurious _ => true

/-- How often a worker may still move before it waits, if it gets no job. -/
def Worker.movesLeft : Worker → Nat
  | .ready => 1
  | .waiting => 0
  | .woken => 1
  | .running _ => 2

/-- A job in the queue is worth three moves: it is taken and finished, and its worker looks
at the queue once more. -/
def ThreadPool.movesLeft (tp : ThreadPool) : Nat :=
  3 * tp.queue.length + (tp.threads.map Worker.movesLeft).sum

private theorem movesLeft_exchange {threads : List Worker} {i : Nat} {old : Worker}
    (found : threads[i]? = some old) (new : Worker) :
    old.movesLeft + ((threads.set i new).map Worker.movesLeft).sum =
      new.movesLeft + (threads.map Worker.movesLeft).sum := by
  have mapped := ((threads_exchange found new).map Worker.movesLeft).sum_eq
  rw [List.map_cons, List.map_cons, List.sum_cons, List.sum_cons] at mapped
  exact mapped

private theorem checking_movesLeft {worker : Worker} (awake : worker.checking = true) :
    worker.movesLeft = 1 := by
  cases worker with
  | ready => rfl
  | waiting => cases awake
  | woken => rfl
  | running w => cases awake

/-- A worker uses up moves; a new job brings at most four and a spurious wake-up one. -/
theorem PoolStep.movesLeft_le {event : PoolEvent} (step : PoolStep tp event after) :
    after.movesLeft + (if event.byWorker then 1 else 0) ≤
      tp.movesLeft + 4 * event.job.toList.length + (if event.isSpurious then 1 else 0) := by
  cases event with
  | queued w woken =>
      obtain ⟨signals, rfl⟩ := step
      have grown : (tp.queue ++ [w]).length = tp.queue.length + 1 := by
        rw [List.length_append, List.length_singleton]
      change 3 * (tp.queue ++ [w]).length +
        ((condSignal tp.threads woken).map Worker.movesLeft).sum + 0 ≤
          3 * tp.queue.length + (tp.threads.map Worker.movesLeft).sum + 4 * 1 + 0
      cases woken with
      | none =>
          rw [condSignal]
          omega
      | some i =>
          have moved := movesLeft_exchange signals .woken
          change 0 + _ = 1 + _ at moved
          rw [condSignal]
          omega
  | checked i taken =>
      obtain ⟨⟨worker, found, awake⟩, returned⟩ := step
      have worth := checking_movesLeft awake
      change after.movesLeft + 1 ≤ tp.movesLeft + 4 * 0 + 0
      unfold ThreadPool.movesLeft
      rcases (workerSection_spec tp i).of_ok returned with slept | took
      · obtain ⟨drained, _, same⟩ := slept
        dsimp only at same
        subst same
        have moved := movesLeft_exchange found .waiting
        change _ = 0 + _ at moved
        simp only [drained, List.length_nil]
        omega
      · obtain ⟨w, rest, front, _, same⟩ := took
        dsimp only at same
        subst same
        have moved := movesLeft_exchange found (.running w)
        change _ = 2 + _ at moved
        dsimp only
        rw [front, List.length_cons]
        omega
  | finished i w =>
      obtain ⟨found, rfl⟩ := step
      have moved := movesLeft_exchange found .ready
      change 2 + _ = 1 + _ at moved
      change 3 * tp.queue.length + ((tp.threads.set i .ready).map Worker.movesLeft).sum + 1 ≤
        3 * tp.queue.length + (tp.threads.map Worker.movesLeft).sum + 4 * 0 + 0
      omega
  | spurious i =>
      obtain ⟨found, rfl⟩ := step
      have moved := movesLeft_exchange found .woken
      change 0 + _ = 1 + _ at moved
      change 3 * tp.queue.length + ((tp.threads.set i .woken).map Worker.movesLeft).sum + 0 ≤
        3 * tp.queue.length + (tp.threads.map Worker.movesLeft).sum + 4 * 0 + 1
      omega

private theorem pool_moves_bounded {start : ThreadPool} (run : Runs PoolStep start trace tp) :
    tp.movesLeft + trace.countP PoolEvent.byWorker ≤
      start.movesLeft + 4 * (trace.filterMap PoolEvent.job).length +
        trace.countP PoolEvent.isSpurious := by
  have grows : ∀ (past : List PoolEvent) (before : ThreadPool) event after,
      before.movesLeft + past.countP PoolEvent.byWorker ≤
          start.movesLeft + 4 * (past.filterMap PoolEvent.job).length +
            past.countP PoolEvent.isSpurious →
      PoolStep before event after →
      after.movesLeft + (past ++ [event]).countP PoolEvent.byWorker ≤
          start.movesLeft + 4 * ((past ++ [event]).filterMap PoolEvent.job).length +
            (past ++ [event]).countP PoolEvent.isSpurious := by
    intro past before event after bounded step
    have moved := step.movesLeft_le
    rw [filterMap_snoc, List.length_append, List.countP_append, List.countP_append,
      List.countP_singleton, List.countP_singleton]
    omega
  exact run.history grows (Nat.le_refl start.movesLeft)

private theorem threadPoolInit_movesLeft {numOfThreads : Nat} {start : ThreadPool}
    (started : threadPoolInit numOfThreads = .ok start) : start.movesLeft = numOfThreads := by
  unfold threadPoolInit at started
  split at started
  · cases started
    rw [ThreadPool.movesLeft, List.map_replicate, List.sum_replicate, smul_eq_mul]
    change 3 * 0 + numOfThreads * 1 = numOfThreads
    omega
  · cases started

private theorem worker_moves {worker : Worker} (member : worker ∈ tp.threads)
    (awake : worker ≠ .waiting) :
    ∃ event after, PoolStep tp event after ∧ event.byWorker = true := by
  obtain ⟨i, found⟩ := List.mem_iff_getElem?.mp member
  have checks : worker.checking = true → ∃ event after, PoolStep tp event after ∧
      event.byWorker = true := by
    intro checking
    obtain ⟨⟨after, taken⟩, returned, _⟩ := (workerSection_spec tp i).returns
    exact ⟨.checked i taken, after, ⟨⟨worker, found, checking⟩, returned⟩, rfl⟩
  cases worker with
  | ready => exact checks rfl
  | waiting => exact absurd rfl awake
  | woken => exact checks rfl
  | running w => exact ⟨.finished i w, _, ⟨found, rfl⟩, rfl⟩

/-- Whatever the interleaving, the workers make at most four moves for each job, one for each
spurious wake-up and one for each worker, and when none of them can move any more,
every job that was queued has been run to its end. -/
theorem threadPool_finishes_jobs {numOfThreads : Nat} {start : ThreadPool}
    (started : threadPoolInit numOfThreads = .ok start)
    (run : Runs PoolStep start trace tp) :
    trace.countP PoolEvent.byWorker ≤
      numOfThreads + 4 * (trace.filterMap PoolEvent.job).length +
        trace.countP PoolEvent.isSpurious ∧
    ((∀ event after, PoolStep tp event after → event.byWorker = false) →
      (trace.filterMap PoolEvent.done).Perm (trace.filterMap PoolEvent.job)) := by
  have bounded := pool_moves_bounded run
  rw [threadPoolInit_movesLeft started] at bounded
  refine ⟨by omega, ?_⟩
  intro stuck
  have asleep : ∀ worker ∈ tp.threads, worker = .waiting := by
    intro worker member
    by_contra awake
    obtain ⟨event, after, step, byWorker⟩ := worker_moves member awake
    rw [stuck event after step] at byWorker
    cases byWorker
  have initial := ((threadPoolInit_spec numOfThreads).of_ok started).2
  have history := run.history (fun _ _ _ _ past step => past.step step) initial
  have drained : tp.queue = [] := by
    by_contra pending
    obtain ⟨worker, member, awake⟩ := threadPool_queue_served started run pending
    exact awake (asleep worker member)
  have idle : tp.running = [] := by
    rw [ThreadPool.running, List.filterMap_eq_nil_iff]
    intro worker member
    rw [asleep worker member]
    rfl
  have queued := history.fifo
  have taken := history.once
  rw [drained, List.append_nil] at queued
  rw [idle, List.append_nil] at taken
  rw [queued]
  exact taken.symm

theorem threadPool_finishes_jobs_stolen :
    (stolenJob.filterMap PoolEvent.done).Perm (stolenJob.filterMap PoolEvent.job) ∧
      stolenJob.countP PoolEvent.byWorker ≤ 2 + 4 * 1 + 0 := by
  have started : threadPoolInit 2 = .ok ⟨[.ready, .ready], []⟩ := rfl
  have run : Runs PoolStep ⟨[.ready, .ready], []⟩ (stolenJob ++ [.checked 1 none])
      ⟨[.waiting, .waiting], []⟩ := by
    refine .cons ⟨⟨.ready, rfl, rfl⟩, rfl⟩ ?_
    refine .cons ⟨rfl, rfl⟩ ?_
    refine .cons ⟨⟨.ready, rfl, rfl⟩, rfl⟩ ?_
    refine .cons ⟨⟨.woken, rfl, rfl⟩, rfl⟩ ?_
    refine .cons ⟨rfl, rfl⟩ ?_
    exact .cons ⟨⟨.ready, rfl, rfl⟩, rfl⟩ (.nil _)
  have finishes := threadPool_finishes_jobs started run
  refine ⟨finishes.2 ?_, by decide⟩
  intro event after step
  cases event with
  | queued w woken => rfl
  | checked i taken =>
      obtain ⟨⟨worker, found, awake⟩, _⟩ := step
      have waits : worker = .waiting := by
        have member := List.mem_of_getElem? found
        rcases List.mem_cons.mp member with first | second
        · exact first
        · exact List.mem_singleton.mp second
      rw [waits] at awake
      cases awake
  | finished i w =>
      have member := List.mem_of_getElem? step.1
      rcases List.mem_cons.mp member with first | second
      · cases first
      · cases List.mem_singleton.mp second
  | spurious i => rfl

end RedisC
