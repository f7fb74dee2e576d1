/-
The resize keeps pace with the insertions.

While `ht_from` is in use an insertion goes into `ht_to` unchecked, but every
call that returns also moves a full quota of nodes.  So each unchecked insertion
is paid by `kResizingWork` moved nodes, and the nodes of the old table bound the
insertions until it is empty.
-/

import RedisC.HashtableReturns

namespace RedisC

open Fallible LabelledRun

variable {α : Type} {hmap : HMap α}

/-- The nodes that `ht_to` may still receive are paid for, up to `slack`: a node in
`ht_from` has one unit more than its move costs. -/
structure HMap.Paced (slack : Nat) (hmap : HMap α) : Prop where
  idle : hmap.htFrom.table = none →
    hmap.htTo.size < kMaxLoadFactor * (hmap.htTo.mask + 1)
  doubled : hmap.htFrom.table ≠ none →
    hmap.htTo.mask + 1 = 2 * (hmap.htFrom.mask + 1)
  paid : hmap.htFrom.table ≠ none →
    (kResizingWork + 1) * hmap.htFrom.size + kResizingWork * hmap.htTo.size ≤
      (kResizingWork + 1) * (kMaxLoadFactor * (hmap.htFrom.mask + 1)) + slack

theorem HMap.paced_empty : ({} : HMap α).Paced 0 := by
  refine ⟨fun _ => ?_, fun present => absurd rfl present, fun present => absurd rfl present⟩
  change 0 < 8 * (0 + 1)
  decide

theorem HMap.Paced.light (paced : hmap.Paced 0) :
    hmap.htTo.size < kMaxLoadFactor * (hmap.htTo.mask + 1) := by
  by_cases absent : hmap.htFrom.table = none
  · exact paced.idle absent
  · have doubled := paced.doubled absent
    have paid := paced.paid absent
    unfold kMaxLoadFactor kResizingWork at *
    omega

theorem HMap.Paced.lend (paced : hmap.Paced 0) : hmap.Paced kResizingWork :=
  ⟨paced.idle, paced.doubled,
    fun present => Nat.le_trans (paced.paid present) (Nat.le_add_right _ _)⟩

/-! ### One call -/

theorem HMap.WellFormed.hmSize_eq (wellFormed : hmap.WellFormed) :
    hmSize hmap = hmap.nodes.length := by
  rw [hmSize, HMap.nodes, List.length_append, ← wellFormed.htTo.size_eq,
    ← wellFormed.htFrom.size_eq]

theorem HMap.Helped.hmSize_eq {after : HMap α} (wellFormed : hmap.WellFormed)
    (helped : hmap.Helped after) : hmSize after = hmSize hmap := by
  rw [wellFormed.hmSize_eq, helped.wellFormed.hmSize_eq]
  exact helped.perm.length_eq

/-- One unchecked insertion is paid by the quota of the same call. -/
theorem HMap.Helped.paced {after : HMap α} (wellFormed : hmap.WellFormed)
    (helped : hmap.Helped after) (paced : hmap.Paced kResizingWork) : after.Paced 0 := by
  have counted := helped.hmSize_eq wellFormed
  unfold hmSize at counted
  rcases helped.done with emptied | moved
  · rw [emptied] at counted
    have fromEmpty : ({} : HTable α).size = 0 := rfl
    refine ⟨fun _ => ?_, fun present => ?_, fun present => ?_⟩
    · rw [helped.toMask]
      by_cases absent : hmap.htFrom.table = none
      · have light := paced.idle absent
        rw [wellFormed.htFrom.eq_empty absent] at counted
        omega
      · have doubled := paced.doubled absent
        have paid := paced.paid absent
        unfold kMaxLoadFactor kResizingWork at *
        omega
    · rw [emptied] at present
      exact absurd rfl present
    · rw [emptied] at present
      exact absurd rfl present
  · obtain ⟨resizing, sameMask, remaining, quota⟩ := moved
    have present : after.htFrom.table ≠ none := by
      intro absent
      rw [helped.wellFormed.htFrom.eq_empty absent] at remaining
      exact absurd remaining (Nat.lt_irrefl 0)
    refine ⟨fun absent => absurd absent present, fun _ => ?_, fun _ => ?_⟩
    · rw [helped.toMask, sameMask]
      exact paced.doubled resizing
    · have paid := paced.paid resizing
      rw [sameMask]
      unfold kResizingWork at *
      omega

theorem HMap.Inserted.paced {after : HMap α} {node : HNode α}
    (inserted : hmap.Inserted node after) (paced : hmap.Paced 0) :
    after.Paced kResizingWork := by
  rcases inserted.grown with during | below | starts
  · obtain ⟨resizing, sameFrom, sameMask, size⟩ := during
    refine ⟨fun absent => ?_, fun _ => ?_, fun _ => ?_⟩
    · rw [sameFrom] at absent
      exact absurd absent resizing
    · rw [sameFrom, sameMask]
      exact paced.doubled resizing
    · have paid := paced.paid resizing
      rw [sameFrom, size]
      unfold kResizingWork at *
      omega
  · obtain ⟨_, noFrom, _, _, light⟩ := below
    have absent : after.htFrom.table = none := by rw [noFrom]
    refine ⟨fun _ => ?_, fun present => absurd absent present,
      fun present => absurd absent present⟩
    exact (Nat.div_lt_iff_lt_mul (Nat.succ_pos _)).mp light
  · obtain ⟨wasIdle, _, resizing, fromMask, fromSize, _, toSize, toMask⟩ := starts
    have light := paced.idle (by rw [wasIdle])
    refine ⟨fun absent => absurd absent resizing, fun _ => ?_, fun _ => ?_⟩
    · rw [toMask, fromMask, Nat.mul_comm]
    · rw [toSize, fromMask, fromSize]
      unfold kMaxLoadFactor kResizingWork at *
      omega

theorem HMap.Paced.shrink {after : HMap α} (paced : hmap.Paced 0)
    (toMask : after.htTo.mask = hmap.htTo.mask) (toSize : after.htTo.size ≤ hmap.htTo.size)
    (fromTable : after.htFrom.table = none ↔ hmap.htFrom.table = none)
    (fromMask : after.htFrom.mask = hmap.htFrom.mask)
    (fromSize : after.htFrom.size ≤ hmap.htFrom.size) : after.Paced 0 := by
  refine ⟨fun absent => ?_, fun present => ?_, fun present => ?_⟩
  · have light := paced.idle (fromTable.mp absent)
    rw [toMask]
    omega
  · rw [toMask, fromMask]
    exact paced.doubled (fun absent => present (fromTable.mpr absent))
  · have paid := paced.paid (fun absent => present (fromTable.mpr absent))
    rw [fromMask]
    unfold kResizingWork at *
    omega

theorem HMap.WellFormed.hmPop_paced (wellFormed : hmap.WellFormed) (paced : hmap.Paced 0)
    {fuel : Nat} {hcode : UInt64} {cmp : HNode α → Bool} {after : HMap α}
    {answer : Option (HNode α)} (returned : hmPop fuel hmap hcode cmp = .ok (after, answer)) :
    after.Paced 0 := by
  unfold hmPop at returned
  obtain ⟨helpedMap, helpedEq, rest⟩ := bind_eq_ok returned
  have helped := (wellFormed.hmHelpResizing_spec fuel).of_ok helpedEq
  have afterHelp := helped.paced wellFormed paced.lend
  have form := helped.wellFormed
  obtain ⟨inTo, soughtTo, rest⟩ := bind_eq_ok rest
  have foundTo := (form.htTo.hLookup_spec hcode cmp).of_ok soughtTo
  cases inTo with
  | some slot =>
      obtain ⟨⟨node, htTo⟩, detached, same⟩ := bind_eq_ok rest
      cases same
      obtain ⟨_, atSlot, _⟩ := foundTo
      obtain ⟨_, _, _, mask, size, _⟩ := (form.htTo.hDetach_spec atSlot).of_ok detached
      exact afterHelp.shrink mask size Iff.rfl rfl le_rfl
  | none =>
      obtain ⟨inFrom, soughtFrom, rest⟩ := bind_eq_ok rest
      have foundFrom := (form.htFrom.hLookup_spec hcode cmp).of_ok soughtFrom
      cases inFrom with
      | some slot =>
          obtain ⟨⟨node, htFrom⟩, detached, same⟩ := bind_eq_ok rest
          cases same
          obtain ⟨_, atSlot, _⟩ := foundFrom
          obtain ⟨_, ⟨buckets, live⟩, was, mask, size, _⟩ :=
            (form.htFrom.hDetach_spec atSlot).of_ok detached
          have present : htFrom.table ≠ none := by
            rw [live.table]
            exact Option.some_ne_none _
          exact afterHelp.shrink rfl le_rfl
            ⟨fun absent => absurd absent present, fun absent => absurd absent was⟩ mask size
      | none =>
          cases rest
          exact afterHelp

theorem HmStep.paced {before after : HMap α} {label : HmCall α × Option (HNode α)}
    (wellFormed : before.WellFormed) (paced : before.Paced 0)
    (step : HmStep before label after) : after.Paced 0 := by
  obtain ⟨call, answer⟩ := label
  obtain ⟨_, fuel, returned⟩ := step
  cases call with
  | insert node =>
      obtain ⟨grown, grownEq, same⟩ := bind_eq_ok returned
      cases same
      obtain ⟨middle, middleEq, helpedEq⟩ := bind_eq_ok grownEq
      have inserted := (wellFormed.hmInsertNode_spec node).of_ok middleEq
      have helped := (inserted.wellFormed.hmHelpResizing_spec fuel).of_ok helpedEq
      exact helped.paced inserted.wellFormed (inserted.paced paced)
  | lookup hcode cmp =>
      have helped := ((wellFormed.hmLookup_spec fuel hcode cmp).of_ok returned).1
      exact helped.paced wellFormed paced.lend
  | pop hcode cmp => exact wellFormed.hmPop_paced paced returned

/-! ### Every run -/

/-- In every state between two calls that return, `ht_to` is below its load factor
and is twice as large as the table it replaces. -/
theorem hmap_resizing_keeps_pace {trace : List (HmCall α × Option (HNode α))}
    (run : Runs HmStep {} trace hmap) :
    (hmap.htTo.table = none ∨
      hmap.htTo.size < kMaxLoadFactor * (hmap.htTo.mask + 1)) ∧
    ∀ old, hmap.htFrom.table = some old →
      ∃ new, hmap.htTo.table = some new ∧ new.length = 2 * old.length := by
  have preserved : ∀ (before : HMap α) label after, (before.WellFormed ∧ before.Paced 0) →
      HmStep before label after → (after.WellFormed ∧ after.Paced 0) :=
    fun _ _ _ both step => ⟨step.wellFormed both.1, step.paced both.1 both.2⟩
  obtain ⟨form, paced⟩ := run.invariant preserved ⟨HMap.wellFormed_empty, HMap.paced_empty⟩
  refine ⟨.inr paced.light, ?_⟩
  intro old oldIs
  have resizing : hmap.htFrom.table ≠ none := by
    rw [oldIs]
    exact Option.some_ne_none _
  obtain ⟨buckets, fromLive⟩ := form.htFrom.live_of_table resizing
  obtain ⟨new, toLive⟩ := form.htTo.live_of_table (form.paired resizing)
  have same : buckets = old := Option.some.inj (fromLive.table.symm.trans oldIs)
  subst same
  refine ⟨new, toLive.table, ?_⟩
  rw [toLive.length, fromLive.length]
  exact paced.doubled resizing

theorem hmap_resizing_keeps_pace_resizing :
    ∃ (hmap : HMap Nat) (old new : List (List (HNode Nat))),
      Runs HmStep {} (inserts (spaced 64 256)) hmap ∧
      hmap.htFrom.table = some old ∧ hmap.htFrom.size = 128 ∧
      hmap.htTo.table = some new ∧ new.length = 2 * old.length ∧
      hmap.htTo.size < kMaxLoadFactor * (63 + 1) := by
  obtain ⟨hmap, run, toMask, -, fromSize⟩ := exists_resizing
  obtain ⟨light, doubled⟩ := hmap_resizing_keeps_pace run
  have form : hmap.WellFormed :=
    run.invariant (fun _ _ _ form step => step.wellFormed form) HMap.wellFormed_empty
  cases old : hmap.htFrom.table with
  | none =>
      rw [form.htFrom.eq_empty old] at fromSize
      cases fromSize
  | some table =>
      obtain ⟨new, newIs, twice⟩ := doubled table old
      rcases light with absent | light
      · rw [newIs] at absent
        cases absent
      · rw [toMask] at light
        exact ⟨hmap, table, new, run, old, fromSize, newIs, twice, light⟩

end RedisC
