/-
The bucket arrays of a map: `calloc` in `h_init`, `free` in `hm_help_resizing` and
`hm_destroy`.

The functions of the map are given again with the addresses of their two arrays and
the arrays that are live.  An access to an array that is not live and a second `free`
are faults.  Without the addresses they are the functions of the map, so they stop
only where those do; and between two calls a map owns the arrays of its tables and no
others, until `hm_destroy` gives them back.
-/

import RedisC.Lib.Allocator
import RedisC.HashtableRefinement

namespace RedisC

open Fallible Allocator LabelledRun

variable {α : Type}

/-- A map in the memory; `live` has the arrays of other maps as well. -/
structure MapMem (α : Type) where
  hmap : HMap α := {}
  /-- `ht_to.table` -/
  toArr : Option Ptr := none
  /-- `ht_from.table` -/
  fromArr : Option Ptr := none
  live : Finset Ptr := ∅

abbrev ArrayResult (β : Type) := Except (MemFault Fault Ptr) β

/-! ### The functions of the map -/

def touch (live : Finset Ptr) : Option Ptr → ArrayResult Unit
  | none => .error (.program .nullDeref)
  | some array => use live array

/-- `free` takes a null pointer as well. -/
def freeArray (live : Finset Ptr) : Option Ptr → ArrayResult (Finset Ptr)
  | none => .ok live
  | some array => release live array

/-- The access of `h_lookup`, which returns at once if there is no table. -/
def touchTable (live : Finset Ptr) (htable : HTable α) (array : Option Ptr) :
    ArrayResult Unit :=
  match htable.table with
  | none => .ok ()
  | some _ => touch live array

namespace MapMem

def hmHelpResizingLoop : Nat → Nat → MapMem α → ArrayResult (MapMem α)
  | 0, _, _ => .error (.program .spin)
  | fuel + 1, workDone, m =>
      if workDone < kResizingWork ∧ m.hmap.htFrom.size > 0 then do
        touch m.live m.fromArr
        match m.hmap.htFrom.deref ⟨m.hmap.resizingPos, 0⟩ with
        -- bucket empty: `continue`
        | none => hmHelpResizingLoop fuel workDone m
        | some _ => do
            touch m.live m.toArr
            let hmap ← program (hmMigrateOne m.hmap)
            hmHelpResizingLoop fuel (workDone + 1) { m with hmap := hmap }
      else
        .ok m

def hmHelpResizing (fuel : Nat) (m : MapMem α) : ArrayResult (MapMem α) :=
  match m.hmap.htFrom.table with
  | none => .ok m
  | some _ => do
      let m ← hmHelpResizingLoop fuel 0 m
      if m.hmap.htFrom.size = 0 then do
        -- resizing finished: the only array that is given back before `hm_destroy`
        let live ← freeArray m.live m.fromArr
        pure { m with hmap := { m.hmap with htFrom := {} }, fromArr := none, live := live }
      else
        pure m

def hmLookup (fuel : Nat) (m : MapMem α) (hcode : UInt64) (cmp : HNode α → Bool) :
    ArrayResult (MapMem α × Option (HNode α)) := do
  let m ← m.hmHelpResizing fuel
  touchTable m.live m.hmap.htTo m.toArr
  match ← program (hLookup m.hmap.htTo hcode cmp) with
  | some slot => pure (m, m.hmap.htTo.deref slot)
  | none =>
      touchTable m.live m.hmap.htFrom m.fromArr
      match ← program (hLookup m.hmap.htFrom hcode cmp) with
      | some slot => pure (m, m.hmap.htFrom.deref slot)
      | none => pure (m, none)

/-- `array` is what `calloc` returns. -/
def hmStartResizing (m : MapMem α) (array : Ptr) : ArrayResult (MapMem α) :=
  match m.hmap.htFrom.table with
  | some _ => .error (.program (.assertion .hmStartResizing))
  | none => do
      let htTo ← program (hInit ((m.hmap.htTo.mask + 1) * 2))
      pure {
        hmap := { htTo := htTo, htFrom := m.hmap.htTo, resizingPos := 0 }
        toArr := some array
        fromArr := m.toArr
        live := allocate m.live [array] }

/-- `if (!hmap->ht_to.table) h_init(&hmap->ht_to, 4)` -/
def hmInitTo (m : MapMem α) (array : Ptr) : ArrayResult (MapMem α) :=
  match m.hmap.htTo.table with
  | none => do
      let htTo ← program (hInit 4)
      pure { m with
        hmap := { m.hmap with htTo := htTo }
        toArr := some array
        live := allocate m.live [array] }
  | some _ => .ok m

/-- The part of `hm_insert` before it calls `hm_help_resizing`; `first` and `second` are
what `calloc` returns, should it be called. -/
def hmInsertNode (m : MapMem α) (node : HNode α) (first second : Ptr) :
    ArrayResult (MapMem α) := do
  let m ← m.hmInitTo first
  touch m.live m.toArr
  let htTo ← program (hInsert m.hmap.htTo node)
  let m := { m with hmap := { m.hmap with htTo := htTo } }
  match m.hmap.htFrom.table with
  | some _ => pure m
  | none =>
      let loadFactor := m.hmap.htTo.size / (m.hmap.htTo.mask + 1)
      if loadFactor ≥ kMaxLoadFactor then m.hmStartResizing second else pure m

def hmInsert (fuel : Nat) (m : MapMem α) (node : HNode α) (first second : Ptr) :
    ArrayResult (MapMem α) := do
  let m ← m.hmInsertNode node first second
  m.hmHelpResizing fuel

def hmPop (fuel : Nat) (m : MapMem α) (hcode : UInt64) (cmp : HNode α → Bool) :
    ArrayResult (MapMem α × Option (HNode α)) := do
  let m ← m.hmHelpResizing fuel
  touchTable m.live m.hmap.htTo m.toArr
  match ← program (hLookup m.hmap.htTo hcode cmp) with
  | some slot =>
      let (node, htTo) ← program (hDetach m.hmap.htTo slot)
      pure ({ m with hmap := { m.hmap with htTo := htTo } }, some node)
  | none =>
      touchTable m.live m.hmap.htFrom m.fromArr
      match ← program (hLookup m.hmap.htFrom hcode cmp) with
      | some slot =>
          let (node, htFrom) ← program (hDetach m.hmap.htFrom slot)
          pure ({ m with hmap := { m.hmap with htFrom := htFrom } }, some node)
      | none => pure (m, none)

def hmDestroy (m : MapMem α) : ArrayResult (MapMem α) := do
  let live ← freeArray m.live m.toArr
  let live ← freeArray live m.fromArr
  pure { live := live }

end MapMem

/-! ### What a map owns -/

structure MapMem.Owned (m : MapMem α) (others : Multiset Ptr) : Prop where
  wellFormed : m.hmap.WellFormed
  toTable : m.toArr = none ↔ m.hmap.htTo.table = none
  fromTable : m.fromArr = none ↔ m.hmap.htFrom.table = none
  held : m.live.val =
    (m.toArr.toList : Multiset Ptr) + ((m.fromArr.toList : Multiset Ptr) + others)

def Shadows (others : Multiset Ptr) (run : ArrayResult (MapMem α))
    (shadow : Except Fault (HMap α)) : Prop :=
  Agrees (fun after hmap => after.hmap = hmap ∧ after.Owned others) run (program shadow)

section

variable {m : MapMem α} {others : Multiset Ptr}

theorem HTable.Live.present {htable : HTable α} {buckets : List (List (HNode α))}
    (live : htable.Live buckets) : htable.table ≠ none := by
  rw [live.table]
  exact Option.some_ne_none buckets

private theorem touch_of_held {live : Finset Ptr} {array : Option Ptr} {rest : Multiset Ptr}
    (isArray : array ≠ none) (held : live.val = (array.toList : Multiset Ptr) + rest) :
    touch live array = .ok () := by
  cases array with
  | none => exact absurd rfl isArray
  | some array => exact use_of_held held

private theorem touchTable_of_touch {live : Finset Ptr} {htable : HTable α} {array : Option Ptr}
    (touches : htable.table ≠ none → touch live array = .ok ()) :
    touchTable live htable array = .ok () := by
  unfold touchTable
  cases present : htable.table with
  | none => rfl
  | some table =>
      apply touches
      rw [present]
      exact Option.some_ne_none table

theorem MapMem.Owned.touch_to (owned : m.Owned others) (present : m.hmap.htTo.table ≠ none) :
    touch m.live m.toArr = .ok () :=
  touch_of_held (mt owned.toTable.mp present) owned.held

theorem MapMem.Owned.touch_from (owned : m.Owned others)
    (present : m.hmap.htFrom.table ≠ none) : touch m.live m.fromArr = .ok () := by
  have held := owned.held
  rw [add_left_comm] at held
  exact touch_of_held (mt owned.fromTable.mp present) held

private theorem freeArray_of_held {live : Finset Ptr} {array : Option Ptr} {rest : Multiset Ptr}
    (held : live.val = (array.toList : Multiset Ptr) + rest) :
    ∃ after, freeArray live array = .ok after ∧ after.val = rest := by
  cases array with
  | none =>
      rw [Option.toList_none, Multiset.coe_nil, zero_add] at held
      exact ⟨live, rfl, held⟩
  | some array => exact release_of_held held

theorem MapMem.hmHelpResizingLoop_eq (fromLive : touch m.live m.fromArr = .ok ())
    (toLive : touch m.live m.toArr = .ok ()) (fuel workDone : Nat) (hmap : HMap α) :
    MapMem.hmHelpResizingLoop fuel workDone { m with hmap := hmap } =
      program (RedisC.hmHelpResizingLoop fuel workDone hmap) >>=
        fun hmap => .ok { m with hmap := hmap } := by
  induction fuel generalizing workDone hmap with
  | zero => rfl
  | succ fuel ih =>
      unfold MapMem.hmHelpResizingLoop RedisC.hmHelpResizingLoop
      by_cases working : workDone < kResizingWork ∧ hmap.htFrom.size > 0
      · rw [if_pos working, if_pos working]
        simp only [fromLive, ok_bind]
        cases hmap.htFrom.deref ⟨hmap.resizingPos, 0⟩ with
        | none => exact ih workDone hmap
        | some node =>
            simp only [toLive, ok_bind, program_bind]
            cases hmMigrateOne hmap with
            | error fault => rfl
            | ok moved => exact ih (workDone + 1) moved
      · rw [if_neg working, if_neg working]
        rfl

theorem MapMem.Owned.hmHelpResizing_shadows (owned : m.Owned others) (fuel : Nat) :
    Shadows others (m.hmHelpResizing fuel) (RedisC.hmHelpResizing fuel m.hmap) := by
  unfold MapMem.hmHelpResizing RedisC.hmHelpResizing
  cases present : m.hmap.htFrom.table with
  | none => exact ⟨rfl, owned⟩
  | some table =>
      have resizing : m.hmap.htFrom.table ≠ none := by
        rw [present]
        exact Option.some_ne_none table
      have both := owned.wellFormed.paired resizing
      have migrates := owned.wellFormed.hmHelpResizingLoop_spec resizing fuel 0
      have loop := MapMem.hmHelpResizingLoop_eq (owned.touch_from resizing)
        (owned.touch_to both) fuel 0 m.hmap
      dsimp only
      rw [loop]
      cases looped : RedisC.hmHelpResizingLoop fuel 0 m.hmap with
      | error fault => exact rfl
      | ok hmap =>
          have migrated := migrates.of_ok looped
          have toStays := migrated.wellFormed.paired migrated.resizing
          have toArr : m.toArr = none ↔ hmap.htTo.table = none :=
            iff_of_false (mt owned.toTable.mp both) toStays
          by_cases done : hmap.htFrom.size = 0
          · have held := owned.held
            rw [add_left_comm] at held
            obtain ⟨live, freed, liveIs⟩ := freeArray_of_held held
            simp only [program_ok, ok_bind, if_pos done, freed, pure_eq_ok]
            refine ⟨rfl, ⟨?_, toArr, ⟨fun _ => rfl, fun _ => rfl⟩, ?_⟩⟩
            · exact ⟨migrated.wellFormed.htTo, .inl rfl, fun contrary => absurd rfl contrary,
                migrated.wellFormed.first⟩
            · rw [Option.toList_none, Multiset.coe_nil, zero_add]
              exact liveIs
          · simp only [program_ok, ok_bind, if_neg done, pure_eq_ok]
            refine ⟨rfl, ⟨migrated.wellFormed, toArr, ?_, owned.held⟩⟩
            exact iff_of_false (mt owned.fromTable.mp resizing) migrated.resizing

def ShadowsWith (others : Multiset Ptr) (run : ArrayResult (MapMem α × Option (HNode α)))
    (shadow : Except Fault (HMap α × Option (HNode α))) : Prop :=
  Agrees (fun after result => after.1.hmap = result.1 ∧ after.2 = result.2 ∧ after.1.Owned others)
    run (program shadow)

theorem MapMem.Owned.hmLookup_shadows (owned : m.Owned others) (fuel : Nat) (hcode : UInt64)
    (cmp : HNode α → Bool) :
    ShadowsWith others (m.hmLookup fuel hcode cmp) (RedisC.hmLookup fuel m.hmap hcode cmp) := by
  unfold ShadowsWith MapMem.hmLookup RedisC.hmLookup
  rw [program_bind]
  refine (owned.hmHelpResizing_shadows fuel).bind ?_
  rintro after hmap ⟨rfl, afterOwned⟩
  rw [touchTable_of_touch afterOwned.touch_to, ok_bind, program_bind]
  cases hLookup after.hmap.htTo hcode cmp with
  | error fault => exact rfl
  | ok found =>
      cases found with
      | some slot => exact ⟨rfl, rfl, afterOwned⟩
      | none =>
          simp only [program_ok, ok_bind, touchTable_of_touch afterOwned.touch_from]
          cases hLookup after.hmap.htFrom hcode cmp with
          | error fault => exact rfl
          | ok found =>
              cases found with
              | some slot => exact ⟨rfl, rfl, afterOwned⟩
              | none => exact ⟨rfl, rfl, afterOwned⟩

private theorem allocate_one {live : Finset Ptr} {array : Ptr} (new : array ∉ live) :
    (allocate live [array]).val = ([array] : Multiset Ptr) + live.val :=
  allocate_val (List.nodup_singleton array) fun _ member => List.mem_singleton.mp member ▸ new

theorem MapMem.Owned.set_to (owned : m.Owned others) (present : m.hmap.htTo.table ≠ none)
    {htTo : HTable α} {buckets : List (List (HNode α))} (live : htTo.Live buckets) :
    ({ m with hmap := { m.hmap with htTo := htTo } } : MapMem α).Owned others := by
  refine ⟨⟨.inr ⟨buckets, live⟩, owned.wellFormed.htFrom, fun _ => live.present,
    owned.wellFormed.first⟩, ?_, owned.fromTable, owned.held⟩
  exact iff_of_false (mt owned.toTable.mp present) live.present

theorem MapMem.Owned.set_from (owned : m.Owned others) (present : m.hmap.htFrom.table ≠ none)
    {htFrom : HTable α} {buckets : List (List (HNode α))} (live : htFrom.Live buckets) :
    ({ m with hmap := { m.hmap with htFrom := htFrom } } : MapMem α).Owned others := by
  refine ⟨⟨owned.wellFormed.htTo, .inr ⟨buckets, live⟩,
    fun _ => owned.wellFormed.paired present, owned.wellFormed.first⟩, owned.toTable, ?_,
    owned.held⟩
  exact iff_of_false (mt owned.fromTable.mp present) live.present

theorem MapMem.Owned.hmPop_shadows (owned : m.Owned others) (fuel : Nat) (hcode : UInt64)
    (cmp : HNode α → Bool) :
    ShadowsWith others (m.hmPop fuel hcode cmp) (RedisC.hmPop fuel m.hmap hcode cmp) := by
  unfold ShadowsWith MapMem.hmPop RedisC.hmPop
  rw [program_bind]
  refine (owned.hmHelpResizing_shadows fuel).bind ?_
  rintro after hmap ⟨rfl, afterOwned⟩
  have toForm := afterOwned.wellFormed.htTo
  have fromForm := afterOwned.wellFormed.htFrom
  rw [touchTable_of_touch afterOwned.touch_to, ok_bind, program_bind]
  obtain ⟨found, searched, matched⟩ := (toForm.hLookup_spec hcode cmp).returns
  rw [searched]
  cases found with
  | some slot =>
      obtain ⟨node, atSlot, -⟩ := matched
      obtain ⟨result, detached, -, ⟨buckets, live⟩, present, -⟩ :=
        (toForm.hDetach_spec atSlot).returns
      simp only [program_ok, ok_bind, detached]
      exact ⟨rfl, rfl, afterOwned.set_to present live⟩
  | none =>
      obtain ⟨found, searched, matched⟩ := (fromForm.hLookup_spec hcode cmp).returns
      simp only [program_ok, ok_bind, touchTable_of_touch afterOwned.touch_from, searched]
      cases found with
      | some slot =>
          obtain ⟨node, atSlot, -⟩ := matched
          obtain ⟨result, detached, -, ⟨buckets, live⟩, present, -⟩ :=
            (fromForm.hDetach_spec atSlot).returns
          simp only [ok_bind, detached]
          exact ⟨rfl, rfl, afterOwned.set_from present live⟩
      | none => exact ⟨rfl, rfl, afterOwned⟩

theorem MapMem.Owned.hmInitTo_agrees (owned : m.Owned others) {first second : Ptr}
    (firstNew : first ∉ m.live) (secondNew : second ∉ m.live) (different : second ≠ first) :
    Agrees (fun after htTo => after.hmap = { m.hmap with htTo := htTo } ∧
        after.Owned others ∧ (∃ buckets, htTo.Live buckets) ∧ second ∉ after.live)
      (m.hmInitTo first) (program (RedisC.hmInitTo m.hmap)) := by
  have spec := owned.wellFormed.hmInitTo_spec
  unfold MapMem.hmInitTo
  unfold RedisC.hmInitTo at spec ⊢
  cases present : m.hmap.htTo.table with
  | some table =>
      exact ⟨rfl, owned, owned.wellFormed.htTo.live_of_table
        (by rw [present]; exact Option.some_ne_none table), secondNew⟩
  | none =>
      rw [present] at spec
      have held := owned.held
      rw [owned.toTable.mpr present, Option.toList_none, Multiset.coe_nil, zero_add] at held
      have allocated := allocate_one firstNew
      obtain ⟨htTo, initial, ⟨buckets, live⟩, -⟩ := spec.returns
      simp only [initial, program_ok, ok_bind]
      refine ⟨rfl, ⟨⟨.inr ⟨buckets, live⟩, owned.wellFormed.htFrom, fun _ => live.present,
        owned.wellFormed.first⟩, ?_, owned.fromTable, ?_⟩, ⟨buckets, live⟩, ?_⟩
      · exact iff_of_false (Option.some_ne_none first) live.present
      · rw [allocated, held]
        rfl
      · rw [← Finset.mem_val, allocated, Multiset.mem_add]
        rintro (contrary | contrary)
        · exact different (List.mem_singleton.mp contrary)
        · exact secondNew contrary

/-- `hm_start_resizing` keeps the array of the old table. -/
theorem MapMem.Owned.hmStartResizing_shadows (owned : m.Owned others)
    (idle : m.hmap.htFrom.table = none) (present : m.hmap.htTo.table ≠ none) {array : Ptr}
    (new : array ∉ m.live) :
    Shadows others (m.hmStartResizing array) (RedisC.hmStartResizing m.hmap) := by
  have spec := owned.wellFormed.hmStartResizing_spec idle present
  have held := owned.held
  rw [owned.fromTable.mpr idle, Option.toList_none, Multiset.coe_nil, zero_add] at held
  unfold MapMem.hmStartResizing
  unfold RedisC.hmStartResizing at spec ⊢
  simp only [idle] at spec ⊢
  cases initial : (hInit ((m.hmap.htTo.mask + 1) * 2) : Except Fault (HTable α)) with
  | error fault => exact rfl
  | ok htTo =>
      rw [initial] at spec
      have form := spec.1
      refine ⟨rfl, ⟨form, ?_, owned.toTable, ?_⟩⟩
      · exact iff_of_false (Option.some_ne_none array) (form.paired present)
      · change (allocate m.live [array]).val = _
        rw [allocate_one new, held]
        rfl

theorem MapMem.Owned.hmInsertNode_shadows (owned : m.Owned others) (node : HNode α)
    {first second : Ptr} (firstNew : first ∉ m.live) (secondNew : second ∉ m.live)
    (different : second ≠ first) :
    Shadows others (m.hmInsertNode node first second) (RedisC.hmInsertNode m.hmap node) := by
  unfold Shadows MapMem.hmInsertNode RedisC.hmInsertNode
  rw [program_bind]
  refine (owned.hmInitTo_agrees firstNew secondNew different).bind ?_
  rintro after htTo ⟨mapIs, afterOwned, ⟨buckets, live⟩, new⟩
  have toIs : after.hmap.htTo = htTo := by rw [mapIs]
  have present : after.hmap.htTo.table ≠ none := toIs ▸ live.present
  obtain ⟨grown, inserted, grownLive, -⟩ := (live.hInsert_spec node).returns
  have grownOwned := afterOwned.set_to present grownLive
  have fromIs : after.hmap.htFrom = m.hmap.htFrom := by rw [mapIs]
  have posIs : after.hmap.resizingPos = m.hmap.resizingPos := by rw [mapIs]
  rw [afterOwned.touch_to present, ok_bind, program_bind, toIs, inserted]
  simp only [program_ok, ok_bind, fromIs, posIs]
  simp only [fromIs, posIs] at grownOwned
  cases idle : m.hmap.htFrom.table with
  | some table => exact ⟨rfl, grownOwned⟩
  | none =>
      dsimp only
      by_cases loaded : grown.size / (grown.mask + 1) ≥ kMaxLoadFactor
      · rw [if_pos loaded, if_pos loaded]
        exact grownOwned.hmStartResizing_shadows idle grownLive.present new
      · rw [if_neg loaded, if_neg loaded]
        exact ⟨rfl, grownOwned⟩

theorem MapMem.Owned.hmInsert_shadows (owned : m.Owned others) (fuel : Nat) (node : HNode α)
    {first second : Ptr} (firstNew : first ∉ m.live) (secondNew : second ∉ m.live)
    (different : second ≠ first) :
    Shadows others (m.hmInsert fuel node first second)
      (RedisC.hmInsert fuel m.hmap node) := by
  unfold Shadows MapMem.hmInsert RedisC.hmInsert
  rw [program_bind]
  refine (owned.hmInsertNode_shadows node firstNew secondNew different).bind ?_
  rintro after hmap ⟨rfl, afterOwned⟩
  exact afterOwned.hmHelpResizing_shadows fuel

theorem MapMem.Owned.hmDestroy_eq {others : Finset Ptr} (owned : m.Owned others.val) :
    m.hmDestroy = .ok { live := others } := by
  obtain ⟨live, toFreed, liveIs⟩ := freeArray_of_held owned.held
  obtain ⟨rest, fromFreed, restIs⟩ := freeArray_of_held liveIs
  unfold MapMem.hmDestroy
  rw [toFreed, ok_bind, fromFreed, ok_bind, Finset.val_inj.mp restIs]
  rfl

end

/-! ### Runs -/

/-- `first` and `second` are what `calloc` would return; only `hm_insert` calls it. -/
inductive ArrayCall (α : Type)
  | run (call : HmCall α) (first second : Ptr)
  | destroy

def ArrayCall.exec (fuel : Nat) (m : MapMem α) :
    ArrayCall α → ArrayResult (MapMem α × Option (HNode α))
  | .run (.insert node) first second => do
      let m ← m.hmInsert fuel node first second
      pure (m, none)
  | .run (.lookup hcode cmp) _ _ => m.hmLookup fuel hcode cmp
  | .run (.pop hcode cmp) _ _ => m.hmPop fuel hcode cmp
  | .destroy => do
      let m ← m.hmDestroy
      pure (m, none)

def ArrayCall.bare (fuel : Nat) (hmap : HMap α) :
    ArrayCall α → Except Fault (HMap α × Option (HNode α))
  | .run call _ _ => call.exec fuel hmap
  | .destroy => .ok ({}, none)

/-- The node is in no chain, and `calloc` returns memory that is not in use. -/
def ArrayCall.Allowed (m : MapMem α) : ArrayCall α → Prop
  | .run call first second =>
      call.Fresh m.hmap ∧ first ∉ m.live ∧ second ∉ m.live ∧ second ≠ first
  | .destroy => True

def ArrayStep (before : MapMem α) (label : ArrayCall α × Option (HNode α))
    (after : MapMem α) : Prop :=
  label.1.Allowed before ∧ ∃ fuel, label.1.exec fuel before = .ok (after, label.2)

def BareStep (before : HMap α) : ArrayCall α × Option (HNode α) → HMap α → Prop
  | (.run call _ _, answer), after => HmStep before (call, answer) after
  | (.destroy, answer), after => after = {} ∧ answer = none

section

variable {m : MapMem α} {others : Finset Ptr}

theorem MapMem.Owned.start (others : Finset Ptr) :
    ({ live := others } : MapMem α).Owned others.val := by
  refine ⟨HMap.wellFormed_empty, ⟨fun _ => rfl, fun _ => rfl⟩, ⟨fun _ => rfl, fun _ => rfl⟩, ?_⟩
  rw [Option.toList_none, Multiset.coe_nil, zero_add, zero_add]

theorem MapMem.Owned.exec_shadows (owned : m.Owned others.val) (fuel : Nat)
    {call : ArrayCall α} (allowed : call.Allowed m) :
    ShadowsWith others.val (call.exec fuel m) (call.bare fuel m.hmap) := by
  cases call with
  | destroy =>
      unfold ShadowsWith ArrayCall.exec
      dsimp only
      rw [owned.hmDestroy_eq]
      exact ⟨rfl, rfl, MapMem.Owned.start others⟩
  | run call first second =>
      obtain ⟨-, firstNew, secondNew, different⟩ := allowed
      cases call with
      | lookup hcode cmp => exact owned.hmLookup_shadows fuel hcode cmp
      | pop hcode cmp => exact owned.hmPop_shadows fuel hcode cmp
      | insert node =>
          unfold ShadowsWith ArrayCall.bare HmCall.exec
          rw [program_bind]
          refine (owned.hmInsert_shadows fuel node firstNew secondNew different).bind ?_
          intro after hmap related
          exact ⟨related.1, rfl, related.2⟩

theorem ArrayStep.shadows {after : MapMem α} {label : ArrayCall α × Option (HNode α)}
    (owned : m.Owned others.val) (step : ArrayStep m label after) :
    BareStep m.hmap label after.hmap ∧ after.Owned others.val := by
  rcases label with ⟨call, answer⟩
  obtain ⟨allowed, fuel, executed⟩ := step
  have shadows := owned.exec_shadows fuel allowed
  unfold ShadowsWith at shadows
  rw [executed] at shadows
  cases bare : call.bare fuel m.hmap with
  | error fault =>
      rw [bare] at shadows
      exact shadows.elim
  | ok result =>
      rw [bare] at shadows
      obtain ⟨mapIs, answerIs, afterOwned⟩ := shadows
      refine ⟨?_, afterOwned⟩
      dsimp only at mapIs answerIs
      rw [mapIs, answerIs]
      cases call with
      | destroy =>
          cases bare
          exact ⟨rfl, rfl⟩
      | run call first second => exact ⟨allowed.1, fuel, bare⟩

theorem MapMem.Owned.bare_faults (owned : m.Owned others.val) {fuel : Nat}
    {call : ArrayCall α} {fault : Fault} (stopped : call.bare fuel m.hmap = .error fault) :
    fault = .spin := by
  cases call with
  | destroy => cases stopped
  | run call first second => exact owned.wellFormed.exec_faults call fuel fault stopped

/-- However the calls on a map follow one another, beside the arrays of other maps: the
calls do what they do without the arrays, and the map owns one array for each of its
tables.  A further call returns what it returns without the arrays or stops in the
spinning loop; it neither touches an array that was given back nor gives one back twice.
`hm_destroy` leaves the arrays of the others. -/
theorem hmap_owns_its_arrays {trace : List (ArrayCall α × Option (HNode α))}
    (run : Runs ArrayStep { live := others } trace m) :
    Runs BareStep {} trace m.hmap ∧
    m.live.val =
      (m.toArr.toList : Multiset Ptr) + ((m.fromArr.toList : Multiset Ptr) + others.val) ∧
    (m.toArr = none ↔ m.hmap.htTo.table = none) ∧
    (m.fromArr = none ↔ m.hmap.htFrom.table = none) ∧
    (∀ (call : ArrayCall α) (fuel : Nat), call.Allowed m →
      ShadowsWith others.val (call.exec fuel m) (call.bare fuel m.hmap) ∧
      ∀ fault, call.exec fuel m = .error fault → fault = .program .spin) ∧
    m.hmDestroy = .ok { live := others } := by
  have matched : ∀ (before : MapMem α) (hmap : HMap α) label (after : MapMem α),
      before.hmap = hmap ∧ before.Owned others.val → ArrayStep before label after →
        ∃ next, BareStep hmap label next ∧ after.hmap = next ∧ after.Owned others.val := by
    rintro before hmap label after ⟨rfl, owned⟩ step
    have shadows := step.shadows owned
    exact ⟨after.hmap, shadows.1, rfl, shadows.2⟩
  obtain ⟨hmap, bareRun, rfl, owned⟩ :=
    run.simulate matched ⟨rfl, MapMem.Owned.start others⟩
  refine ⟨bareRun, owned.held, owned.toTable, owned.fromTable, ?_, owned.hmDestroy_eq⟩
  intro call fuel allowed
  have shadows := owned.exec_shadows fuel allowed
  refine ⟨shadows, ?_⟩
  intro fault stopped
  unfold ShadowsWith at shadows
  rw [stopped] at shadows
  cases bare : call.bare fuel m.hmap with
  | ok result =>
      rw [bare] at shadows
      exact shadows.elim
  | error bareFault =>
      rw [bare] at shadows
      rw [← owned.bare_faults bare]
      exact shadows

end

instance ArrayCall.decidableAllowed [DecidableEq α] (m : MapMem α) :
    (call : ArrayCall α) → Decidable (call.Allowed m)
  | .run (.insert node) first second =>
      inferInstanceAs (Decidable ((∀ other ∈ m.hmap.nodes, other.owner ≠ node.owner) ∧
        first ∉ m.live ∧ second ∉ m.live ∧ second ≠ first))
  | .run (.lookup _ _) first second =>
      inferInstanceAs (Decidable (True ∧ first ∉ m.live ∧ second ∉ m.live ∧ second ≠ first))
  | .run (.pop _ _) first second =>
      inferInstanceAs (Decidable (True ∧ first ∉ m.live ∧ second ∉ m.live ∧ second ≠ first))
  | .destroy => .isTrue trivial

def arrayNext [DecidableEq α] :
    MapMem α → ArrayCall α × Option (HNode α) → Option (MapMem α) :=
  answered (fun m label => label.1.Allowed m) Prod.snd fun m label => label.1.exec hmFuel m

theorem arrayNext_sound [DecidableEq α] (m : MapMem α)
    (label : ArrayCall α × Option (HNode α)) (after : MapMem α)
    (stepped : arrayNext m label = some after) : ArrayStep m label after := by
  obtain ⟨allowed, executed⟩ := answered_sound m label after stepped
  exact ⟨allowed, hmFuel, executed⟩

/-- Thirty-two nodes of the first bucket: the last insertion takes a second array, moves
every node and gives the first array back. -/
def fillFirst : List (ArrayCall Nat × Option (HNode Nat)) :=
  (List.range 32).map fun i =>
    (.run (.insert ⟨i, (4 * i).toUInt64⟩) (100 + 2 * i).toUInt64 (101 + 2 * i).toUInt64, none)

theorem hmap_owns_its_arrays_fillFirst :
    ∃ m : MapMem Nat, Runs ArrayStep { live := {7} } fillFirst m ∧
      m.toArr = some 163 ∧ m.fromArr = none ∧ m.live.val = {163, 7} ∧
      m.hmDestroy = .ok { live := {7} } := by
  have followed : (follow arrayNext { live := {7} } fillFirst).any
      (fun m => m.toArr == some 163 && m.fromArr == none) = true := by
    decide +kernel
  obtain ⟨m, reached, arrays⟩ := (Option.any_eq_true _ _).mp followed
  simp only [Bool.and_eq_true, beq_iff_eq] at arrays
  obtain ⟨toIs, fromIs⟩ := arrays
  have run := runs_of_follow_eq arrayNext_sound reached
  obtain ⟨-, held, -, -, -, destroyed⟩ := hmap_owns_its_arrays run
  rw [toIs, fromIs] at held
  exact ⟨m, run, toIs, fromIs, held, destroyed⟩

end RedisC
