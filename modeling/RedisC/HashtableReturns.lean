/-
When the operations of the map return.

The migration loop reads the bucket at `resizing_pos`, and nothing ever moves
`resizing_pos` on.  So the loop ends exactly when that one bucket can satisfy
it: it holds the whole quota, or it holds every node that is left.  With any
other distribution the loop repeats its test on the empty bucket forever.
-/

import RedisC.Lib.LabelledRun
import RedisC.HashtableInvariant

namespace RedisC

open Fallible LabelledRun

variable {α : Type} {hmap : HMap α}

/-- A bucket with `load` of the `size` nodes of `ht_from` lets the loop end. -/
def BucketDrains (load size : Nat) : Prop :=
  kResizingWork ≤ load ∨ load = size

instance (load size : Nat) : Decidable (BucketDrains load size) :=
  inferInstanceAs (Decidable (_ ∨ _))

def HMap.FromDrains (hmap : HMap α) : Prop :=
  BucketDrains (hmap.htFrom.chain hmap.resizingPos).length hmap.htFrom.size

/-- The condition on the map before a call under which the call returns.  An
insertion that starts a resize is judged on the table it is about to retire. -/
def HmCall.Drains (hmap : HMap α) : HmCall α → Prop
  | .insert node =>
      (hmap.htFrom.table ≠ none → hmap.FromDrains) ∧
      (hmap.htFrom.table = none →
        kMaxLoadFactor ≤ (hmap.htTo.size + 1) / (hmap.htTo.mask + 1) →
        BucketDrains (hmap.firstBucketLoad node) (hmap.htTo.size + 1))
  | .lookup _ _ => hmap.htFrom.table ≠ none → hmap.FromDrains
  | .pop _ _ => hmap.htFrom.table ≠ none → hmap.FromDrains

def HmCall.Fresh (hmap : HMap α) : HmCall α → Prop
  | .insert node => ∀ other ∈ hmap.nodes, other.owner ≠ node.owner
  | .lookup _ _ => True
  | .pop _ _ => True

def HmCall.Returns (hmap : HMap α) (call : HmCall α) : Prop :=
  ∃ fuel after answer, call.exec fuel hmap = .ok (after, answer)

def HmStep (before : HMap α) (label : HmCall α × Option (HNode α))
    (after : HMap α) : Prop :=
  label.1.Fresh before ∧
    ∃ fuel, label.1.exec fuel before = .ok (after, label.2)

/-! ### The migration loop -/

/-- Unless the bucket drains, no amount of fuel lets the loop end. -/
theorem HMap.WellFormed.hmHelpResizingLoop_spins (wellFormed : hmap.WellFormed)
    (resizing : hmap.htFrom.table ≠ none) {workDone : Nat}
    (short : workDone + (hmap.htFrom.chain hmap.resizingPos).length < kResizingWork)
    (others : (hmap.htFrom.chain hmap.resizingPos).length < hmap.htFrom.size)
    (fuel : Nat) :
    hmHelpResizingLoop fuel workDone hmap = .error .spin := by
  induction fuel generalizing workDone hmap with
  | zero => rfl
  | succ fuel ih =>
      obtain ⟨buckets, live⟩ := wellFormed.htFrom.live_of_table resizing
      have continues : workDone < kResizingWork ∧ hmap.htFrom.size > 0 := by omega
      unfold hmHelpResizingLoop
      rw [if_pos continues, live.deref_head]
      cases head : hmap.htFrom.chain hmap.resizingPos with
      | nil => exact ih wellFormed resizing short others
      | cons node rest =>
          obtain ⟨moved, movedEq, form, present, chain, size, _⟩ :=
            (wellFormed.hmMigrateOne_spec resizing head).returns
          rw [head, List.length_cons] at short others
          simp only [List.head?_cons, movedEq, ok_bind]
          apply ih form present
          · rw [chain]
            omega
          · rw [chain]
            omega

/-- A bucket that drains is empty, or the quota is met, after as many rounds as
the bucket has nodes. -/
theorem HMap.WellFormed.hmHelpResizingLoop_returns (wellFormed : hmap.WellFormed)
    (resizing : hmap.htFrom.table ≠ none) {workDone : Nat}
    (drains : kResizingWork ≤ workDone + (hmap.htFrom.chain hmap.resizingPos).length ∨
      (hmap.htFrom.chain hmap.resizingPos).length = hmap.htFrom.size) :
    ∃ fuel after, hmHelpResizingLoop fuel workDone hmap = .ok after := by
  generalize chainIs : hmap.htFrom.chain hmap.resizingPos = chain at drains
  induction chain generalizing workDone hmap with
  | nil =>
      have stops : ¬(workDone < kResizingWork ∧ hmap.htFrom.size > 0) := by
        rw [List.length_nil] at drains
        omega
      exact ⟨1, hmap, if_neg stops⟩
  | cons node rest ih =>
      by_cases continues : workDone < kResizingWork ∧ hmap.htFrom.size > 0
      · obtain ⟨moved, movedEq, form, present, movedChain, size, _⟩ :=
          (wellFormed.hmMigrateOne_spec resizing chainIs).returns
        have movedDrains : kResizingWork ≤ workDone + 1 + rest.length ∨
            rest.length = moved.htFrom.size := by
          rw [List.length_cons] at drains
          omega
        obtain ⟨fuel, after, afterEq⟩ := ih form present movedChain movedDrains
        obtain ⟨buckets, live⟩ := wellFormed.htFrom.live_of_table resizing
        refine ⟨fuel + 1, after, ?_⟩
        unfold hmHelpResizingLoop
        rw [if_pos continues, live.deref_head, chainIs]
        simp only [List.head?_cons, movedEq, ok_bind]
        exact afterEq
      · exact ⟨1, hmap, if_neg continues⟩

theorem HMap.WellFormed.hmHelpResizing_returns_iff (wellFormed : hmap.WellFormed) :
    (∃ fuel after, hmHelpResizing fuel hmap = .ok after) ↔
      (hmap.htFrom.table ≠ none → hmap.FromDrains) := by
  constructor
  · intro result resizing
    rcases result with ⟨fuel, after, returned⟩
    by_contra stuck
    obtain ⟨buckets, live⟩ := wellFormed.htFrom.live_of_table resizing
    have bound : (hmap.htFrom.chain hmap.resizingPos).length ≤ hmap.htFrom.size := by
      have atBucket := live.bucket_exists hmap.resizingPos
        (by rw [wellFormed.first]; exact Nat.zero_le _)
      rw [live.size]
      exact (List.sublist_flatten_of_mem (List.mem_of_getElem? atBucket)).length_le
    unfold HMap.FromDrains BucketDrains at stuck
    have spins : hmHelpResizingLoop fuel 0 hmap = .error .spin :=
      wellFormed.hmHelpResizingLoop_spins resizing (by omega) (by omega) fuel
    unfold hmHelpResizing at returned
    rw [live.table] at returned
    dsimp only at returned
    rw [spins] at returned
    cases returned
  · intro drains
    cases present : hmap.htFrom.table with
    | none =>
        refine ⟨0, hmap, ?_⟩
        unfold hmHelpResizing
        rw [present]
    | some table =>
        have resizing : hmap.htFrom.table ≠ none := by
          rw [present]
          exact Option.some_ne_none _
        have drained : kResizingWork ≤ 0 + (hmap.htFrom.chain hmap.resizingPos).length ∨
            (hmap.htFrom.chain hmap.resizingPos).length = hmap.htFrom.size := by
          rw [Nat.zero_add]
          exact drains resizing
        obtain ⟨fuel, moved, movedEq⟩ :=
          wellFormed.hmHelpResizingLoop_returns resizing drained
        by_cases emptied : moved.htFrom.size = 0
        · refine ⟨fuel, { moved with htFrom := {} }, ?_⟩
          unfold hmHelpResizing
          rw [present]
          simp only [movedEq, ok_bind, if_pos emptied, pure_eq_ok]
        · refine ⟨fuel, moved, ?_⟩
          unfold hmHelpResizing
          rw [present]
          simp only [movedEq, ok_bind, if_neg emptied, pure_eq_ok]

/-! ### Calls and sequences of calls -/

/-- Once `hm_help_resizing` has returned, so does the rest of a lookup. -/
theorem HMap.WellFormed.hmLookup_returns_iff (wellFormed : hmap.WellFormed)
    (fuel : Nat) (hcode : UInt64) (cmp : HNode α → Bool) :
    (∃ result, hmLookup fuel hmap hcode cmp = .ok result) ↔
      ∃ helped, hmHelpResizing fuel hmap = .ok helped := by
  constructor
  · exact returns_of_bind
  · intro ensured
    rcases ensured with ⟨helped, helpedEq⟩
    have form := ((wellFormed.hmHelpResizing_spec fuel).of_ok helpedEq).wellFormed
    obtain ⟨toSlot, toEq, _⟩ := (form.htTo.hLookup_spec hcode cmp).returns
    obtain ⟨fromSlot, fromEq, _⟩ := (form.htFrom.hLookup_spec hcode cmp).returns
    unfold hmLookup
    rw [helpedEq, ok_bind, toEq, ok_bind]
    cases toSlot with
    | some slot => exact ⟨_, rfl⟩
    | none =>
        simp only [fromEq, ok_bind]
        cases fromSlot with
        | some slot => exact ⟨_, rfl⟩
        | none => exact ⟨_, rfl⟩

theorem HMap.WellFormed.hmPop_returns_iff (wellFormed : hmap.WellFormed)
    (fuel : Nat) (hcode : UInt64) (cmp : HNode α → Bool) :
    (∃ result, hmPop fuel hmap hcode cmp = .ok result) ↔
      ∃ helped, hmHelpResizing fuel hmap = .ok helped := by
  constructor
  · exact returns_of_bind
  · intro ensured
    rcases ensured with ⟨helped, helpedEq⟩
    have form := ((wellFormed.hmHelpResizing_spec fuel).of_ok helpedEq).wellFormed
    obtain ⟨toSlot, toEq, toFound⟩ := (form.htTo.hLookup_spec hcode cmp).returns
    obtain ⟨fromSlot, fromEq, fromFound⟩ := (form.htFrom.hLookup_spec hcode cmp).returns
    unfold hmPop
    rw [helpedEq, ok_bind, toEq, ok_bind]
    cases toSlot with
    | some slot =>
        obtain ⟨node, atSlot, _⟩ := toFound
        obtain ⟨detached, detachedEq, _⟩ := (form.htTo.hDetach_spec atSlot).returns
        simp only [detachedEq, ok_bind]
        exact ⟨_, rfl⟩
    | none =>
        simp only [fromEq, ok_bind]
        cases fromSlot with
        | some slot =>
            obtain ⟨node, atSlot, _⟩ := fromFound
            obtain ⟨detached, detachedEq, _⟩ := (form.htFrom.hDetach_spec atSlot).returns
            simp only [detachedEq, ok_bind]
            exact ⟨_, rfl⟩
        | none => exact ⟨_, rfl⟩

theorem HMap.WellFormed.hmInsert_returns_iff (wellFormed : hmap.WellFormed)
    (node : HNode α) :
    (∃ fuel after, hmInsert fuel hmap node = .ok after) ↔
      (HmCall.insert node).Drains hmap := by
  obtain ⟨grown, grownEq, inserted⟩ := (wellFormed.hmInsertNode_spec node).returns
  have same : (∃ fuel after, hmInsert fuel hmap node = .ok after) ↔
      ∃ fuel after, hmHelpResizing fuel grown = .ok after := by
    unfold hmInsert
    simp only [grownEq, ok_bind]
  rw [same, inserted.wellFormed.hmHelpResizing_returns_iff]
  rcases inserted.grown with ⟨resizing, fromSame, _⟩ | ⟨idle, stillIdle, light, _⟩ |
      ⟨idle, heavy, started, _, size, load, _⟩
  · have firstSame : grown.resizingPos = hmap.resizingPos := by
      rw [inserted.wellFormed.first, wellFormed.first]
    unfold HmCall.Drains HMap.FromDrains
    rw [fromSame, firstSame]
    exact ⟨fun drains => ⟨drains, fun absent => absurd absent resizing⟩, And.left⟩
  · rw [stillIdle]
    refine ⟨fun _ => ⟨?_, ?_⟩, fun _ absent => absurd rfl absent⟩
    · intro resizing
      rw [idle] at resizing
      exact absurd rfl resizing
    · intro _ heavy
      exact absurd heavy (Nat.not_le_of_lt light)
  · constructor
    · intro drains
      refine ⟨fun resizing => ?_, fun _ _ => ?_⟩
      · rw [idle] at resizing
        exact absurd rfl resizing
      · have drained := drains started
        rw [HMap.FromDrains, load, size] at drained
        exact drained
    · intro drains _
      rw [HMap.FromDrains, load, size]
      refine drains.2 ?_ heavy
      rw [idle]

theorem HMap.WellFormed.returns_iff_drains (wellFormed : hmap.WellFormed)
    (call : HmCall α) : call.Returns hmap ↔ call.Drains hmap := by
  cases call with
  | insert node =>
      rw [← wellFormed.hmInsert_returns_iff node]
      unfold HmCall.Returns HmCall.exec
      constructor
      · intro ensured
        rcases ensured with ⟨fuel, after, answer, returned⟩
        obtain ⟨grown, grownEq, _⟩ := bind_eq_ok returned
        exact ⟨fuel, grown, grownEq⟩
      · intro ensured
        rcases ensured with ⟨fuel, after, returned⟩
        refine ⟨fuel, after, none, ?_⟩
        simp only [returned, ok_bind, pure_eq_ok]
  | lookup hcode cmp =>
      change (∃ fuel after answer, hmLookup fuel hmap hcode cmp = .ok (after, answer)) ↔ _
      simp only [HmCall.Drains, ← wellFormed.hmHelpResizing_returns_iff,
        ← wellFormed.hmLookup_returns_iff _ hcode cmp, Prod.exists]
  | pop hcode cmp =>
      change (∃ fuel after answer, hmPop fuel hmap hcode cmp = .ok (after, answer)) ↔ _
      simp only [HmCall.Drains, ← wellFormed.hmHelpResizing_returns_iff,
        ← wellFormed.hmPop_returns_iff _ hcode cmp, Prod.exists]

theorem HmStep.wellFormed {before after : HMap α}
    {label : HmCall α × Option (HNode α)} (wellFormed : before.WellFormed)
    (step : HmStep before label after) : after.WellFormed := by
  obtain ⟨call, answer⟩ := label
  obtain ⟨_, fuel, returned⟩ := step
  cases call with
  | insert node =>
      obtain ⟨grown, grownEq, same⟩ := bind_eq_ok returned
      cases same
      exact ((wellFormed.hmInsert_spec fuel node).of_ok grownEq).1
  | lookup hcode cmp =>
      exact ((wellFormed.hmLookup_spec fuel hcode cmp).of_ok returned).1.wellFormed
  | pop hcode cmp =>
      exact ((wellFormed.hmPop_spec fuel hcode cmp).of_ok returned).1

def HmNext (before : HMap α) (call : HmCall α) (after : HMap α) : Prop :=
  ∃ answer, HmStep before (call, answer) after

/-! ### The fuel does not matter -/

private theorem hmHelpResizingLoop_more {fuel workDone : Nat} {after : HMap α}
    (returned : hmHelpResizingLoop fuel workDone hmap = .ok after) (extra : Nat) :
    hmHelpResizingLoop (fuel + extra) workDone hmap = .ok after := by
  induction fuel generalizing workDone hmap with
  | zero => cases returned
  | succ fuel ih =>
      rw [Nat.add_right_comm]
      unfold hmHelpResizingLoop at returned ⊢
      split
      · rename_i continues
        rw [if_pos continues] at returned
        split
        · rename_i emptyBucket
          rw [emptyBucket] at returned
          exact ih returned
        · rename_i node headNode
          rw [headNode] at returned
          obtain ⟨moved, movedEq, rest⟩ := bind_eq_ok returned
          rw [movedEq, ok_bind]
          exact ih rest
      · rename_i stops
        rw [if_neg stops] at returned
        exact returned

private theorem hmHelpResizing_more {fuel : Nat} {after : HMap α}
    (returned : hmHelpResizing fuel hmap = .ok after) (extra : Nat) :
    hmHelpResizing (fuel + extra) hmap = .ok after := by
  unfold hmHelpResizing at returned ⊢
  split
  · rename_i absent
    rw [absent] at returned
    exact returned
  · rename_i table present
    rw [present] at returned
    obtain ⟨moved, movedEq, rest⟩ := bind_eq_ok returned
    rw [hmHelpResizingLoop_more movedEq extra, ok_bind]
    exact rest

theorem HmCall.exec_more {fuel : Nat} {call : HmCall α}
    {result : HMap α × Option (HNode α)}
    (returned : call.exec fuel hmap = .ok result) (extra : Nat) :
    call.exec (fuel + extra) hmap = .ok result := by
  cases call with
  | insert node =>
      obtain ⟨inserted, insertedEq, rest⟩ := bind_eq_ok returned
      obtain ⟨grown, grownEq, helped⟩ := bind_eq_ok insertedEq
      have again : hmInsert (fuel + extra) hmap node = .ok inserted := by
        unfold hmInsert
        rw [grownEq, ok_bind]
        exact hmHelpResizing_more helped extra
      change (hmInsert (fuel + extra) hmap node >>= _) = _
      rw [again, ok_bind]
      exact rest
  | lookup hcode cmp =>
      obtain ⟨helped, helpedEq, rest⟩ := bind_eq_ok returned
      change hmLookup (fuel + extra) hmap hcode cmp = _
      unfold hmLookup
      rw [hmHelpResizing_more helpedEq extra, ok_bind]
      exact rest
  | pop hcode cmp =>
      obtain ⟨helped, helpedEq, rest⟩ := bind_eq_ok returned
      change hmPop (fuel + extra) hmap hcode cmp = _
      unfold hmPop
      rw [hmHelpResizing_more helpedEq extra, ok_bind]
      exact rest

theorem HmStep.unique {before after other : HMap α} {call : HmCall α}
    {answer otherAnswer : Option (HNode α)}
    (step : HmStep before (call, answer) after)
    (stepOther : HmStep before (call, otherAnswer) other) :
    (after, answer) = (other, otherAnswer) := by
  obtain ⟨_, fuel, returned⟩ := step
  obtain ⟨_, fuelOther, returnedOther⟩ := stepOther
  have longer := HmCall.exec_more returned fuelOther
  have longerOther := HmCall.exec_more returnedOther fuel
  rw [Nat.add_comm] at longerOther
  exact Except.ok.inj (longer.symm.trans longerOther)

/-- The sequence of calls returns exactly when every call finds the map in a
state that drains. -/
theorem HMap.WellFormed.calls_return_iff (wellFormed : hmap.WellFormed)
    (calls : List (HmCall α)) (fresh : Along HmNext HmCall.Fresh hmap calls) :
    (∃ trace last, Runs HmStep hmap trace last ∧ trace.map Prod.fst = calls) ↔
      Along HmNext HmCall.Drains hmap calls := by
  induction calls generalizing hmap with
  | nil => exact ⟨fun _ => trivial, fun _ => ⟨[], hmap, .nil hmap, rfl⟩⟩
  | cons call rest ih =>
      obtain ⟨callFresh, restFresh⟩ := fresh
      constructor
      · intro ensured
        rcases ensured with ⟨trace, last, run, calls⟩
        cases run with
        | nil => cases calls
        | @cons _ middle _ label labels head tail =>
            obtain ⟨called, answer⟩ := label
            obtain ⟨rfl, restCalls⟩ := List.cons.inj calls
            have headReturns : called.Returns hmap := by
              obtain ⟨_, fuel, returned⟩ := head
              exact ⟨fuel, middle, answer, returned⟩
            refine ⟨(wellFormed.returns_iff_drains called).mp headReturns, ?_⟩
            intro after ensured
            rcases ensured with ⟨otherAnswer, step⟩
            cases head.unique step
            have form := head.wellFormed wellFormed
            exact (ih form (restFresh middle ⟨answer, head⟩)).mp
              ⟨labels, last, tail, restCalls⟩
      · intro ensured
        rcases ensured with ⟨callDrains, restDrains⟩
        obtain ⟨fuel, after, answer, returned⟩ :=
          (wellFormed.returns_iff_drains call).mpr callDrains
        have step : HmStep hmap (call, answer) after := ⟨callFresh, fuel, returned⟩
        have form := step.wellFormed wellFormed
        obtain ⟨trace, last, run, calls⟩ :=
          (ih form (restFresh after ⟨answer, step⟩)).mpr (restDrains after ⟨answer, step⟩)
        refine ⟨(call, answer) :: trace, last, .cons step run, ?_⟩
        rw [List.map_cons, calls]

/-- From the empty map, a sequence of calls returns call after call exactly
when the bucket under `resizing_pos` drains at every call of the sequence. -/
theorem hmap_calls_return_iff_drain (calls : List (HmCall α))
    (fresh : Along HmNext HmCall.Fresh {} calls) :
    (∃ trace last, Runs HmStep {} trace last ∧ trace.map Prod.fst = calls) ↔
      Along HmNext HmCall.Drains {} calls :=
  HMap.wellFormed_empty.calls_return_iff calls fresh

private theorem along_fresh {trace : List (HmCall α × Option (HNode α))} {last : HMap α}
    (run : Runs HmStep hmap trace last) :
    Along HmNext HmCall.Fresh hmap (trace.map Prod.fst) := by
  induction run with
  | nil state => trivial
  | cons head tail ih =>
      refine ⟨head.1, ?_⟩
      rintro after ⟨answer, other⟩
      cases head.unique other
      exact ih

def inserts (nodes : List (HNode α)) : List (HmCall α × Option (HNode α)) :=
  nodes.map fun node => (.insert node, none)

theorem HMap.WellFormed.runs_inserts (wellFormed : hmap.WellFormed) {nodes : List (HNode α)}
    (distinct : ((nodes ++ hmap.nodes).map HNode.owner).Nodup) {fuel : Nat} {last : HMap α}
    (inserted : nodes.foldlM (hmInsert fuel) hmap = .ok last) :
    Runs HmStep hmap (inserts nodes) last := by
  induction nodes generalizing hmap with
  | nil =>
      cases inserted
      exact .nil _
  | cons node rest ih =>
      rw [List.foldlM_cons] at inserted
      obtain ⟨after, returned, restInserted⟩ := bind_eq_ok inserted
      obtain ⟨form, perm⟩ := (wellFormed.hmInsert_spec fuel node).of_ok returned
      have moved : ((rest ++ after.nodes).map HNode.owner).Perm
          (((node :: rest) ++ hmap.nodes).map HNode.owner) :=
        ((perm.append_left rest).trans List.perm_middle).map HNode.owner
      have restDistinct := moved.nodup_iff.mpr distinct
      rw [List.cons_append, List.map_cons, List.nodup_cons] at distinct
      have fresh : (HmCall.insert node).Fresh hmap := by
        intro other member same
        apply distinct.1
        rw [← same]
        exact List.mem_map_of_mem (List.mem_append_right rest member)
      have step : HmStep hmap (.insert node, none) after := by
        refine ⟨fresh, fuel, ?_⟩
        change (hmInsert fuel hmap node >>= _) = _
        rw [returned, ok_bind, pure_eq_ok]
      exact .cons step (ih form restDistinct restInserted)

def spaced (stride count : Nat) : List (HNode Nat) :=
  (List.range count).map fun i => ⟨i, (stride * i).toUInt64⟩

theorem runs_spaced {stride count fuel : Nat} {last : HMap Nat}
    (inserted : (spaced stride count).foldlM (hmInsert fuel) {} = .ok last) :
    Runs HmStep {} (inserts (spaced stride count)) last := by
  refine HMap.wellFormed_empty.runs_inserts ?_ inserted
  have owners : (spaced stride count ++ []).map HNode.owner = List.range count := by
    rw [List.append_nil, spaced, List.map_map]
    exact List.map_id _
  change ((spaced stride count ++ []).map HNode.owner).Nodup
  rw [owners]
  exact List.nodup_range

/-- The last of 256 insertions into the first bucket starts a resize to 64 buckets, moves
128 nodes and leaves the others in `ht_from`. -/
private theorem spaced_resizing :
    ((spaced 64 256).foldlM (hmInsert hmFuel) {}).toOption.any
      (fun hmap => hmap.htTo.mask == 63 && hmap.htFrom.mask == 31 &&
        hmap.htFrom.size == 128) = true := by
  decide +kernel

theorem exists_resizing :
    ∃ hmap : HMap Nat, Runs HmStep {} (inserts (spaced 64 256)) hmap ∧
      hmap.htTo.mask = 63 ∧ hmap.htFrom.mask = 31 ∧ hmap.htFrom.size = 128 := by
  obtain ⟨hmap, filled, fields⟩ := (Option.any_eq_true _ _).mp spaced_resizing
  simp only [Bool.and_eq_true, beq_iff_eq] at fields
  obtain ⟨⟨toMask, fromMask⟩, fromSize⟩ := fields
  exact ⟨hmap, runs_spaced (eq_ok_of_toOption filled), toMask, fromMask, fromSize⟩

theorem hmap_calls_return_iff_drain_resizing :
    ∃ hmap : HMap Nat, Runs HmStep {} (inserts (spaced 64 256)) hmap ∧
      hmap.htFrom.size = 128 ∧
      Along HmNext HmCall.Fresh {} ((inserts (spaced 64 256)).map Prod.fst) ∧
      Along HmNext HmCall.Drains {} ((inserts (spaced 64 256)).map Prod.fst) := by
  obtain ⟨hmap, run, -, -, fromSize⟩ := exists_resizing
  have fresh := along_fresh run
  exact ⟨hmap, run, fromSize, fresh,
    (hmap_calls_return_iff_drain _ fresh).mp ⟨_, hmap, run, rfl⟩⟩

/-- Thirty-one nodes with the hash codes 0 to 30 fill four buckets; the next
insertion starts a resize, empties bucket 0 and then never returns. -/
theorem hmap_insert_spins_after_31 :
    ∃ (hmap : HMap Nat) (trace : List (HmCall Nat × Option (HNode Nat))),
      Runs HmStep {} trace hmap ∧ (HmCall.insert ⟨31, 31⟩).Fresh hmap ∧
        ¬(HmCall.insert ⟨31, 31⟩).Returns hmap := by
  have filled : ((spaced 1 31).foldlM (hmInsert hmFuel) {}).toOption.any
      (fun hmap => hmap.nodes.all (fun other => other.owner ≠ 31) &&
        hmap.htFrom.table.isNone && hmap.htTo.size == 31 && hmap.htTo.mask == 3 &&
        hmap.firstBucketLoad ⟨31, 31⟩ == 8) = true := by
    decide +kernel
  obtain ⟨hmap, inserted, fields⟩ := (Option.any_eq_true _ _).mp filled
  simp only [Bool.and_eq_true, beq_iff_eq, List.all_eq_true, decide_eq_true_eq,
    Option.isNone_iff_eq_none] at fields
  obtain ⟨⟨⟨⟨fresh, idle⟩, size⟩, mask⟩, load⟩ := fields
  have run := runs_spaced (eq_ok_of_toOption inserted)
  have wellFormed : hmap.WellFormed :=
    run.invariant (fun _ _ _ form step => step.wellFormed form) HMap.wellFormed_empty
  refine ⟨hmap, _, run, fresh, ?_⟩
  rw [wellFormed.returns_iff_drains]
  intro drains
  have drained := drains.2 idle
  rw [size, mask, load] at drained
  exact absurd (drained (by decide)) (by decide)

/-! ### The fuel that is always enough -/

theorem HMap.WellFormed.hmHelpResizingLoop_quota (wellFormed : hmap.WellFormed)
    (resizing : hmap.htFrom.table ≠ none) {fuel workDone : Nat} {after : HMap α}
    (returned : hmHelpResizingLoop fuel workDone hmap = .ok after) :
    hmHelpResizingLoop (kResizingWork - workDone + 1) workDone hmap = .ok after := by
  induction fuel generalizing workDone hmap with
  | zero => cases returned
  | succ fuel ih =>
      by_cases continues : workDone < kResizingWork ∧ hmap.htFrom.size > 0
      · cases head : hmap.htFrom.chain hmap.resizingPos with
        | nil =>
            have spins := wellFormed.hmHelpResizingLoop_spins resizing
              (by rw [head]; exact continues.1) (by rw [head]; exact continues.2)
              (fuel + 1)
            rw [spins] at returned
            cases returned
        | cons node rest =>
            obtain ⟨moved, movedEq, form, present, _⟩ :=
              (wellFormed.hmMigrateOne_spec resizing head).returns
            obtain ⟨buckets, live⟩ := wellFormed.htFrom.live_of_table resizing
            unfold hmHelpResizingLoop at returned ⊢
            rw [if_pos continues, live.deref_head, head] at returned ⊢
            simp only [List.head?_cons, movedEq, ok_bind] at returned ⊢
            have rounds : kResizingWork - workDone =
                kResizingWork - (workDone + 1) + 1 := by omega
            rw [rounds]
            exact ih form present returned
      · unfold hmHelpResizingLoop at returned ⊢
        rw [if_neg continues] at returned ⊢
        exact returned

theorem HMap.WellFormed.hmHelpResizing_hmFuel (wellFormed : hmap.WellFormed)
    {fuel : Nat} {after : HMap α}
    (returned : hmHelpResizing fuel hmap = .ok after) :
    hmHelpResizing hmFuel hmap = .ok after := by
  unfold hmHelpResizing at returned ⊢
  split
  · rename_i absent
    rw [absent] at returned
    exact returned
  · rename_i table present
    have resizing : hmap.htFrom.table ≠ none := by
      rw [present]
      exact Option.some_ne_none _
    rw [present] at returned
    obtain ⟨moved, movedEq, rest⟩ := bind_eq_ok returned
    have bounded : hmHelpResizingLoop hmFuel 0 hmap = .ok moved :=
      wellFormed.hmHelpResizingLoop_quota resizing movedEq
    rw [bounded, ok_bind]
    exact rest

/-- A call that returns at all returns the same with `hmFuel`. -/
theorem HMap.WellFormed.exec_hmFuel (wellFormed : hmap.WellFormed)
    {call : HmCall α} {fuel : Nat} {result : HMap α × Option (HNode α)}
    (returned : call.exec fuel hmap = .ok result) :
    call.exec hmFuel hmap = .ok result := by
  cases call with
  | insert node =>
      obtain ⟨inserted, insertedEq, rest⟩ := bind_eq_ok returned
      obtain ⟨grown, grownEq, helped⟩ := bind_eq_ok insertedEq
      have form := ((wellFormed.hmInsertNode_spec node).of_ok grownEq).wellFormed
      have again : hmInsert hmFuel hmap node = .ok inserted := by
        unfold hmInsert
        rw [grownEq, ok_bind]
        exact form.hmHelpResizing_hmFuel helped
      change (hmInsert hmFuel hmap node >>= _) = _
      rw [again, ok_bind]
      exact rest
  | lookup hcode cmp =>
      obtain ⟨helped, helpedEq, rest⟩ := bind_eq_ok returned
      change hmLookup hmFuel hmap hcode cmp = _
      unfold hmLookup
      rw [wellFormed.hmHelpResizing_hmFuel helpedEq, ok_bind]
      exact rest
  | pop hcode cmp =>
      obtain ⟨helped, helpedEq, rest⟩ := bind_eq_ok returned
      change hmPop hmFuel hmap hcode cmp = _
      unfold hmPop
      rw [wellFormed.hmHelpResizing_hmFuel helpedEq, ok_bind]
      exact rest

/-- The call never returns, however many iterations it makes. -/
def HmCall.Diverges (call : HmCall α) (hmap : HMap α) : Prop :=
  ∀ fuel result, call.exec fuel hmap ≠ .ok result

theorem HMap.WellFormed.diverges (wellFormed : hmap.WellFormed) {call : HmCall α} {fault : Fault}
    (stopped : call.exec hmFuel hmap = .error fault) : call.Diverges hmap := by
  intro fuel result returned
  rw [wellFormed.exec_hmFuel returned] at stopped
  cases stopped

end RedisC
