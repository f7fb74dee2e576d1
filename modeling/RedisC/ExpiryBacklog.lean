/-
How long a backlog of keys that are due can last.

One call of `process_timers` removes at most `k_max_works + 1` keys, the earliest
first.  Requests, `do_ttl` and a `do_expire` with a later deadline add nothing to
the keys that are due before a given time.  So each call that has reached that
time takes its full share of them until none is left, whatever comes in between.
-/

import RedisC.ExpiryRuns

namespace RedisC

open Fallible LabelledRun

def GData.overdue (g : GData) (cut : UInt64) : List Bytes :=
  (g.timers.heap.filter fun item => decide (item.val < cut)).map fun item =>
    (g.entry item.ref).key

def KeyCall.SetsFrom (cut : UInt64) : KeyCall → Prop
  | .expire now _ ttlMs =>
      ∀ deadline ∈ (str2int ttlMs).bind fun ttlMs => expireAt ttlMs now, cut ≤ deadline
  | _ => True

/-- A call of `process_timers` for which what is due before `cut` is due. -/
def KeyCall.reaches (cut : UInt64) : KeyCall → Bool
  | .timers now => decide (cut ≤ now + 1000)
  | _ => false

/-! ### Keys and items -/

section

variable {g : GData} {ents : List Ptr} {dict : Dict} {due : Bytes → Option UInt64}
  {cut : UInt64}

private theorem length_overdue (g : GData) (cut : UInt64) :
    (g.overdue cut).length = dueCount cut g.timers.heap := by
  rw [GData.overdue, List.length_map, dueCount, List.countP_eq_length_filter]

theorem GData.Represents.mem_overdue (represents : g.Represents ents dict due) (key : Bytes) :
    key ∈ g.overdue cut ↔ ∃ deadline, due key = some deadline ∧ deadline < cut := by
  unfold GData.overdue
  rw [List.mem_map]
  constructor
  · intro found
    obtain ⟨item, member, rfl⟩ := found
    obtain ⟨inHeap, early⟩ := List.mem_filter.mp member
    exact ⟨item.val, (represents.ref_mem inHeap).2, of_decide_eq_true early⟩
  · intro found
    obtain ⟨deadline, dueIs, early⟩ := found
    have present : ∃ ent ∈ ents, (g.entry ent).key = key := by
      by_contra missing
      have absent := represents.absent key fun ent member keyIs => missing ⟨ent, member, keyIs⟩
      rw [absent.2] at dueIs
      cases dueIs
    obtain ⟨ent, member, keyIs⟩ := present
    have dated := represents.dated ent member
    rw [keyIs, dueIs] at dated
    obtain ⟨item, inHeap, refIs, valIs⟩ := represents.linked.deadline_eq_some_iff.mp dated
    refine ⟨item, List.mem_filter.mpr ⟨inHeap, decide_eq_true ?_⟩, ?_⟩
    · rw [valIs]
      exact early
    · rw [refIs]
      exact keyIs

theorem GData.Represents.nodup_overdue (represents : g.Represents ents dict due) :
    (g.overdue cut).Nodup := by
  unfold GData.overdue
  apply List.Nodup.map_on
  · intro first firstMember second secondMember sameKey
    have firstIn := (List.mem_filter.mp firstMember).1
    have secondIn := (List.mem_filter.mp secondMember).1
    have sameRef := represents.eq_of_key (represents.ref_mem secondIn).1
      (represents.ref_mem firstIn).1 sameKey
    have firstIs := (represents.linked.mem_iff first).mp firstIn
    have secondIs := (represents.linked.mem_iff second).mp secondIn
    rw [sameRef, secondIs, Option.some.injEq] at firstIs
    cases first
    cases second
    cases sameRef
    cases firstIs
    rfl
  · exact represents.linked.nodup.filter _

theorem GData.Represents.overdue_subset (represents : g.Represents ents dict due)
    {after : GData} {entsNew : List Ptr} {dictNew : Dict} {dueNew : Bytes → Option UInt64}
    (afterRepresents : after.Represents entsNew dictNew dueNew)
    (kept : ∀ key deadline, dueNew key = some deadline → deadline < cut →
      due key = some deadline) :
    after.overdue cut ⊆ g.overdue cut := by
  intro key member
  obtain ⟨deadline, dueIs, early⟩ := (afterRepresents.mem_overdue key).mp member
  exact (represents.mem_overdue key).mpr ⟨deadline, kept key deadline dueIs early, early⟩

/-! ### One call -/

theorem KeyEffect.keeps_late {strtod : Strtod} {call : KeyCall} {dictNew : Dict}
    {dueNew : Bytes → Option UInt64} (effect : KeyEffect strtod dict due call dictNew dueNew)
    (later : call.SetsFrom cut) (key : Bytes) (deadline : UInt64)
    (dueIs : dueNew key = some deadline) (early : deadline < cut) : due key = some deadline := by
  cases effect with
  | request alloc cmd =>
      by_cases touched : (KeyCall.request alloc cmd).Touches key
      · obtain ⟨word, rfl, isDel⟩ := touched
        dsimp only [dueRequest] at dueIs
        by_cases isGet : cmdIs word "get" = true
        · rw [if_pos isGet] at dueIs
          exact dueIs
        · rw [if_neg isGet, if_pos isDel, Function.update_self] at dueIs
          cases dueIs
      · rw [dueRequest_of_untouched touched] at dueIs
        exact dueIs
  | expire now other ttlText =>
      by_cases same : key = other
      · subst same
        unfold dueAfter at dueIs
        cases parsed : str2int ttlText with
        | none =>
            rw [parsed] at dueIs
            exact dueIs
        | some ttlMs =>
            rw [parsed] at dueIs
            cases found : dict key with
            | none =>
                rw [found] at dueIs
                exact dueIs
            | some record =>
                rw [found] at dueIs
                dsimp only at dueIs
                rw [Function.update_self] at dueIs
                have late : cut ≤ deadline := by
                  apply later
                  rw [parsed]
                  exact dueIs
                exact absurd early (UInt64.not_lt.mpr late)
      · rw [dueAfter_of_ne same] at dueIs
        exact dueIs
  | ttl now other => exact dueIs
  | timers now gone =>
      unfold without at dueIs
      split at dueIs
      · cases dueIs
      · exact dueIs

theorem GData.Represents.count_split (represents : g.Represents ents dict due)
    {after : GData} (afterLinked : after.timers.Linked) {nowUs : UInt64} {gone : List Ptr}
    (swept : Swept g nowUs gone after) :
    dueCount cut g.timers.heap = dueCount cut after.timers.heap +
      dueCount cut (g.timers.heap.filter fun item => item.ref ∈ gone) ∧
    (g.timers.heap.filter fun item => item.ref ∈ gone).length = gone.length := by
  have left := heap_perm_of_deadline represents.linked afterLinked swept.deadline
  have apart := List.filter_append_perm (fun item : HeapItem => decide (item.ref ∈ gone))
    g.timers.heap
  constructor
  · unfold dueCount
    rw [left.countP_eq, ← apart.countP_eq, List.countP_append, Nat.add_comm]
    congr 2
    apply List.filter_congr
    intro item _
    rw [decide_not]
  · have refs :
        ((g.timers.heap.filter fun item => item.ref ∈ gone).map HeapItem.ref).Perm gone := by
      apply (List.perm_ext_iff_of_nodup _ swept.nodup).mpr
      · intro ent
        rw [List.mem_map]
        constructor
        · rintro ⟨item, member, rfl⟩
          exact of_decide_eq_true (List.mem_filter.mp member).2
        · intro member
          obtain ⟨deadline, deadlineIs, -⟩ := swept.wasDue ent member
          obtain ⟨item, inHeap, refIs, -⟩ :=
            represents.linked.deadline_eq_some_iff.mp deadlineIs
          refine ⟨item, List.mem_filter.mpr ⟨inHeap, decide_eq_true ?_⟩, refIs⟩
          rw [refIs]
          exact member
      · exact represents.linked.distinct.sublist (List.filter_sublist.map _)
    rw [← refs.length_eq, List.length_map]

/-- A call that has reached `cut` takes its full share of what is due before, or all of it. -/
private theorem processTtlTimers_overdue (represents : g.Represents ents dict due) {now : UInt64}
    (reached : cut ≤ now + 1000) {after : GData} (returned : processTtlTimers g now = .ok after) :
    (after.overdue cut).length ≤ (g.overdue cut).length - 2001 := by
  obtain ⟨gone, swept, inside, count, afterRepresents⟩ :=
    (processTtlTimers_sweeps represents now).of_ok returned
  obtain ⟨split, removed⟩ :=
    @GData.Represents.count_split _ _ _ _ cut represents _ afterRepresents.linked _ _ swept
  rw [length_overdue, length_overdue]
  by_cases none : dueCount cut after.timers.heap = 0
  · omega
  · obtain ⟨item, inHeap, early⟩ := List.countP_pos_iff.mp (Nat.pos_of_ne_zero none)
    have itemIs := (afterRepresents.linked.mem_iff item).mp inHeap
    -- What is removed comes before what is left, so all of it is due before `cut`.
    have all : dueCount cut (g.timers.heap.filter fun item => item.ref ∈ gone) = gone.length := by
      rw [← removed, dueCount]
      apply List.countP_eq_length.mpr
      intro other member
      obtain ⟨otherIn, inGone⟩ := List.mem_filter.mp member
      obtain ⟨deadline, deadlineIs, -, lowest⟩ :=
        swept.wasDue other.ref (of_decide_eq_true inGone)
      rw [(represents.linked.mem_iff other).mp otherIn, Option.some.injEq] at deadlineIs
      rw [deadlineIs]
      exact decide_eq_true
        (UInt64.lt_of_le_of_lt (lowest item.ref item.val itemIs) (of_decide_eq_true early))
    have more : dueCount cut g.timers.heap ≤ dueCount (now + 1000) g.timers.heap := by
      apply List.countP_mono_left
      intro other _ before
      exact decide_eq_true (UInt64.lt_of_lt_of_le (of_decide_eq_true before) reached)
    change gone.length = min _ 2001 at count
    omega

end

theorem KeyStep.overdue {strtod : Strtod} {g after : GData} {call : KeyCall} {cut : UInt64}
    (valid : g.Valid) (step : KeyStep strtod g call after) (later : call.SetsFrom cut) :
    after.overdue cut ⊆ g.overdue cut ∧
      (after.overdue cut).length ≤
        (g.overdue cut).length - if call.reaches cut then 2001 else 0 := by
  obtain ⟨ents, dict, due, represents⟩ := valid
  obtain ⟨entsNew, dictNew, dueNew, afterRepresents, effect⟩ := step.effect represents
  have subset := represents.overdue_subset afterRepresents (effect.keeps_late later)
  refine ⟨subset, ?_⟩
  cases reached : call.reaches cut with
  | false =>
      exact (List.subperm_of_subset afterRepresents.nodup_overdue subset).length_le
  | true =>
      cases call with
      | timers now =>
          exact processTtlTimers_overdue represents (of_decide_eq_true reached) step.2
      | request alloc cmd => cases reached
      | expire now key ttlMs => cases reached
      | ttl now key => cases reached

/-! ### Whole runs -/

structure GData.Backlog (g : GData) (cut : UInt64) (past : List KeyCall) (after : GData) :
    Prop where
  valid : after.Valid
  subset : after.overdue cut ⊆ g.overdue cut
  few : (after.overdue cut).length ≤
    (g.overdue cut).length - 2001 * past.countP (KeyCall.reaches cut)

theorem GData.Backlog.step {strtod : Strtod} {g : GData} {cut : UInt64} (past : List KeyCall)
    (state : GData) (call : KeyCall) (after : GData) (backlog : g.Backlog cut past state)
    (step : KeyStep strtod state call after ∧ call.SetsFrom cut) :
    g.Backlog cut (past ++ [call]) after := by
  obtain ⟨subset, fewer⟩ := step.1.overdue backlog.valid step.2
  have few := backlog.few
  refine ⟨step.1.valid strtod _ _ _ backlog.valid, List.Subset.trans subset backlog.subset, ?_⟩
  rw [List.countP_append, List.countP_singleton, Nat.mul_add]
  by_cases reached : call.reaches cut = true
  · rw [if_pos reached] at fewer ⊢
    exact fewer.trans ((Nat.sub_le_sub_right few 2001).trans_eq (Nat.sub_sub _ _ _))
  · rw [if_neg reached] at fewer ⊢
    exact fewer.trans few

/-- From every state that is reached, whatever the calls are and in whatever order they
come: as long as none sets a deadline before `cut`, each `process_timers` that has reached
`cut` removes 2001 of the keys that are due before `cut`, or all that are left.  After
enough of them no key that is there has such a deadline. -/
theorem expiry_backlog_shrinks (strtod : Strtod) {past trace : List KeyCall} {g after : GData}
    (reached : Runs (KeyStep strtod) {} past g) (run : Runs (KeyStep strtod) g trace after)
    {cut : UInt64} (later : ∀ call ∈ trace, call.SetsFrom cut) :
    after.overdue cut ⊆ g.overdue cut ∧
      (after.overdue cut).length ≤
        (g.overdue cut).length - 2001 * trace.countP (KeyCall.reaches cut) ∧
      ((g.overdue cut).length ≤ 2001 * trace.countP (KeyCall.reaches cut) →
        ∀ key deadline, after.DueAt key deadline → cut ≤ deadline) := by
  have start : g.Backlog cut [] g := ⟨key_runs_valid reached, List.Subset.refl _, Nat.le_refl _⟩
  have backlog := (run.restrict later).history GData.Backlog.step start
  have few := backlog.few
  refine ⟨backlog.subset, few, ?_⟩
  intro enough key deadline dueAt
  obtain ⟨ents, dict, due, represents, -, dueIs⟩ := dueAt
  by_contra early
  have listed := (represents.mem_overdue key).mpr ⟨deadline, dueIs, UInt64.not_le.mp early⟩
  have some := List.length_pos_of_mem listed
  omega

instance KeyCall.decidableSetsFrom (cut : UInt64) :
    (call : KeyCall) → Decidable (call.SetsFrom cut)
  | .request _ _ => .isTrue trivial
  | .expire now _ ttlMs =>
      Option.decidableForallMem ((str2int ttlMs).bind fun ttlMs => expireAt ttlMs now)
  | .ttl _ _ => .isTrue trivial
  | .timers _ => .isTrue trivial

/-- The key `a` gets a later deadline, `c` is read, and the time is reached. -/
def reachedLater : List KeyCall :=
  [.expire 4000 [97] (ascii "9"), .request ⟨4, 3⟩ [ascii "get", [99]], .timers 5500,
    .ttl 5600 [97]]

theorem expiry_backlog_shrinks_two :
    ∃ g after, Runs (KeyStep strtodOne) {} threeDeadlines g ∧
      Runs (KeyStep strtodOne) g reachedLater after ∧ (g.overdue 6000).length = 2 ∧
      ∀ key deadline, after.DueAt key deadline → 6000 ≤ deadline := by
  have followed : ((follow (keyNext strtodOne) {} threeDeadlines).any fun g =>
      decide ((g.overdue 6000).length = 2) &&
        (follow (keyNext strtodOne) g reachedLater).isSome) = true := by
    decide +kernel
  obtain ⟨g, gIs, both⟩ := (Option.any_eq_true _ _).mp followed
  obtain ⟨counted, followedLater⟩ := Bool.and_eq_true_iff.mp both
  have reached := runs_of_follow_eq (keyNext_sound strtodOne) gIs
  obtain ⟨after, run⟩ := runs_of_follow (keyNext_sound strtodOne) followedLater
  have two := of_decide_eq_true counted
  have later : ∀ call ∈ reachedLater, call.SetsFrom 6000 := by decide +kernel
  have rounds : reachedLater.countP (KeyCall.reaches 6000) = 1 := by decide +kernel
  refine ⟨g, after, reached, run, two, ?_⟩
  exact (expiry_backlog_shrinks strtodOne reached run later).2.2 (by rw [two, rounds]; decide)

end RedisC
