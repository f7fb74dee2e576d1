/-
`entry_set_ttl` on the deadlines of the entries.

Each of its three cases changes one slot of the heap, or the last one moves into
it, and hands the rest to `heap_update`.  On the deadlines, a TTL of zero or more
sets one of them, a negative one removes it, and no other deadline changes.
-/

import RedisC.HeapInvariant

namespace RedisC

open Fallible HeapOrder

variable {timers : Timers} {ent : Ptr}

def ttlDeadline (ttlMs : Int) (now : UInt64) : UInt64 := now + UInt64.ofNat ttlMs.toNat * 1000

structure Timers.SetTo (timers : Timers) (ent : Ptr) (value : Option UInt64)
    (after : Timers) : Prop where
  linked : after.Linked
  deadline : after.deadline = Function.update timers.deadline ent value

/-- A heap in which `ent` has an item for `value`, or none, and the others are as they were. -/
private theorem setTo_of_items {after : Timers} {value : Option UInt64} (linked : timers.Linked)
    (afterLinked : after.Linked)
    (items : ∀ item, item ∈ after.heap ↔
      (item.ref = ent ∧ value = some item.val) ∨ (item ∈ timers.heap ∧ item.ref ≠ ent)) :
    timers.SetTo ent value after := by
  refine ⟨afterLinked, ?_⟩
  funext other
  apply Option.ext
  intro val
  rw [afterLinked.deadline_eq_some_iff]
  by_cases same : other = ent
  · subst same
    rw [Function.update_self]
    constructor
    · intro listed
      rcases listed with ⟨item, member, refIs, rfl⟩
      rcases (items item).mp member with new | old
      · exact new.2
      · exact absurd refIs old.2
    · intro valueIs
      exact ⟨⟨val, other⟩, (items _).mpr (.inl ⟨rfl, valueIs⟩), rfl, rfl⟩
  · rw [Function.update_of_ne same, linked.deadline_eq_some_iff]
    constructor
    · intro listed
      rcases listed with ⟨item, member, refIs, valIs⟩
      rcases (items item).mp member with new | old
      · exact absurd (refIs.symm.trans new.1) same
      · exact ⟨item, old.1, refIs, valIs⟩
    · intro listed
      rcases listed with ⟨item, member, refIs, valIs⟩
      refine ⟨item, (items item).mpr (.inr ⟨member, ?_⟩), refIs, valIs⟩
      rw [refIs]
      exact same

/-- `heap_update` at the one slot where `heap` differs from the heap as it was. -/
private theorem heapUpdate_setTo (linked : timers.Linked) {heap : List HeapItem} {pos : Nat}
    {value : UInt64} (inside : pos < heap.length) (distinct : (heap.map HeapItem.ref).Nodup)
    (loose : Loose (vals heap) heap.length pos)
    (elsewhere : ∀ i, i < heap.length → i ≠ pos → heap[i]? = timers.heap[i]?)
    (refs : timers.heap.map HeapItem.ref ⊆ heap.map HeapItem.ref)
    (items : ∀ item, item ∈ heap ↔
      (item.ref = ent ∧ some value = some item.val) ∨
        (item ∈ timers.heap ∧ item.ref ≠ ent)) :
    Meets (fun _ => False) (timers.SetTo ent (some value))
      (heapUpdate { timers with heap := heap } pos heap.length) := by
  refine (@heapUpdate_spec { timers with heap := heap } pos inside distinct loose).mono ?_
  intro after repaired
  apply setTo_of_items linked
  · apply repaired.linked
    · intro i other apart atI
      have before := (List.getElem?_eq_some_iff.mp atI).1
      exact linked.indexed i other ((elsewhere i before apart).symm.trans atI)
    · intro other outside
      exact linked.absent other fun member => outside (refs member)
  · intro item
    rw [repaired.perm.mem_iff]
    exact items item

theorem Timers.Linked.ref_eq_iff (linked : timers.Linked) {pos i : Nat}
    {item other : HeapItem} (found : timers.heap[pos]? = some item)
    (otherFound : timers.heap[i]? = some other) : other.ref = item.ref ↔ i = pos := by
  constructor
  · exact index_unique linked.distinct otherFound found
  · intro same
    subst same
    rw [found, Option.some.injEq] at otherFound
    rw [otherFound]

private theorem refs_set {heap : List HeapItem} {pos : Nat} {item : HeapItem}
    (found : heap[pos]? = some item) (value : UInt64) :
    (heap.set pos { item with val := value }).map HeapItem.ref = heap.map HeapItem.ref := by
  apply List.ext_getElem?
  intro i
  rw [List.getElem?_map, List.getElem?_map]
  by_cases same : i = pos
  · subst same
    rw [List.getElem?_set_self (List.getElem?_eq_some_iff.mp found).1, found]
    rfl
  · rw [List.getElem?_set_ne (Ne.symm same)]

theorem Timers.Linked.mem_renewed (linked : timers.Linked) {pos : Nat} {item : HeapItem}
    (found : timers.heap[pos]? = some item) (refIs : item.ref = ent) (value : UInt64)
    (other : HeapItem) :
    other ∈ timers.heap.set pos { item with val := value } ↔
      (other.ref = ent ∧ some value = some other.val) ∨
        (other ∈ timers.heap ∧ other.ref ≠ ent) := by
  have inside := (List.getElem?_eq_some_iff.mp found).1
  rw [List.mem_iff_getElem?]
  constructor
  · intro listed
    rcases listed with ⟨i, atI⟩
    by_cases same : i = pos
    · subst same
      rw [List.getElem?_set_self inside, Option.some.injEq] at atI
      subst atI
      exact .inl ⟨refIs, rfl⟩
    · rw [List.getElem?_set_ne (Ne.symm same)] at atI
      right
      refine ⟨List.mem_of_getElem? atI, fun refSame => same ?_⟩
      exact (linked.ref_eq_iff found atI).mp (refSame.trans refIs.symm)
  · intro either
    rcases either with ⟨refSame, valIs⟩ | ⟨member, apart⟩
    · refine ⟨pos, ?_⟩
      rw [List.getElem?_set_self inside, refIs, Option.some.inj valIs, ← refSame]
    · rcases List.mem_iff_getElem?.mp member with ⟨i, atI⟩
      refine ⟨i, ?_⟩
      rw [List.getElem?_set_ne, atI]
      intro same
      subst same
      rw [found, Option.some.injEq] at atI
      exact apart (atI ▸ refIs)

private theorem heapUpdate_renew (linked : timers.Linked) {pos : Nat} {item : HeapItem}
    (found : timers.heap[pos]? = some item) (refIs : item.ref = ent) (value : UInt64) :
    Meets (fun _ => False) (timers.SetTo ent (some value))
      (heapUpdate { timers with heap := timers.heap.set pos { item with val := value } } pos
        (timers.heap.set pos { item with val := value }).length) := by
  have inside := (List.getElem?_eq_some_iff.mp found).1
  have refs := refs_set found value
  have length : (timers.heap.set pos { item with val := value }).length = timers.heap.length :=
    List.length_set
  have loose : Loose (vals (timers.heap.set pos { item with val := value }))
      (timers.heap.set pos { item with val := value }).length pos := by
    refine (linked.ordered.loose pos).congr (Nat.le_of_eq length) ?_
    intro index _ apart
    rw [vals_set inside, Function.update_of_ne apart]
  apply heapUpdate_setTo linked
  · rw [length]
    exact inside
  · rw [refs]
    exact linked.distinct
  · exact loose
  · intro i _ apart
    exact List.getElem?_set_ne (Ne.symm apart)
  · rw [refs]
    exact List.Subset.refl _
  · exact linked.mem_renewed found refIs value

theorem Timers.Linked.not_mem_of_none (linked : timers.Linked)
    (index : timers.heapIdx ent = none) : ent ∉ timers.heap.map HeapItem.ref := by
  intro present
  rcases List.mem_map.mp present with ⟨item, member, rfl⟩
  rcases List.mem_iff_getElem?.mp member with ⟨i, found⟩
  rw [linked.indexed i item found] at index
  cases index

private theorem heapUpdate_push (linked : timers.Linked) (index : timers.heapIdx ent = none)
    (value : UInt64) :
    Meets (fun _ => False) (timers.SetTo ent (some value))
      (heapUpdate { timers with heap := timers.heap ++ [{ val := value, ref := ent }] }
        ((timers.heap ++ [({ val := value, ref := ent } : HeapItem)]).length - 1)
        (timers.heap ++ [({ val := value, ref := ent } : HeapItem)]).length) := by
  have notMember := linked.not_mem_of_none index
  have length : (timers.heap ++ [({ val := value, ref := ent } : HeapItem)]).length =
      timers.heap.length + 1 := by
    rw [List.length_append, List.length_singleton]
  have last : (timers.heap ++ [({ val := value, ref := ent } : HeapItem)]).length - 1 =
      timers.heap.length := by
    omega
  rw [last]
  have elsewhere : ∀ i, i < timers.heap.length →
      (timers.heap ++ [({ val := value, ref := ent } : HeapItem)])[i]? = timers.heap[i]? :=
    fun _ inside => List.getElem?_append_left inside
  have refs : (timers.heap ++ [({ val := value, ref := ent } : HeapItem)]).map HeapItem.ref =
      timers.heap.map HeapItem.ref ++ [ent] := List.map_append
  have distinct : (timers.heap.map HeapItem.ref ++ [ent]).Nodup := by
    rw [List.nodup_append_comm, List.singleton_append, List.nodup_cons]
    exact ⟨notMember, linked.distinct⟩
  have loose : Loose (vals (timers.heap ++ [({ val := value, ref := ent } : HeapItem)]))
      (timers.heap ++ [({ val := value, ref := ent } : HeapItem)]).length
      timers.heap.length := by
    constructor
    · intro i positive inside apart _
      have less := parent_lt positive
      unfold vals
      rw [elsewhere i (by omega), elsewhere (parent i) (by omega)]
      exact linked.ordered i positive (by omega)
    · intro _ child positive inside above
      have less := parent_lt positive
      omega
  apply heapUpdate_setTo linked
  · omega
  · rw [refs]
    exact distinct
  · exact loose
  · intro i inside apart
    exact elsewhere i (by omega)
  · intro other member
    rw [refs]
    exact List.mem_append_left _ member
  · intro other
    rw [List.mem_append, List.mem_singleton]
    constructor
    · intro either
      rcases either with old | rfl
      · right
        refine ⟨old, fun same => notMember ?_⟩
        rw [← same]
        exact List.mem_map_of_mem old
      · exact .inl ⟨rfl, rfl⟩
    · intro either
      rcases either with ⟨refIs, valIs⟩ | ⟨old, _⟩
      · right
        rw [← refIs, Option.some.inj valIs]
      · exact .inl old

/-! ### Erasing -/

private theorem erase_perm {heap : List HeapItem} {pos : Nat} {item last : HeapItem}
    (found : heap[pos]? = some item) (lastIs : heap.getLast? = some last) :
    (item :: (heap.set pos last).dropLast).Perm heap := by
  rcases List.getLast?_eq_some_iff.mp lastIs with ⟨front, rfl⟩
  have inside := (List.getElem?_eq_some_iff.mp found).1
  rw [List.length_append, List.length_singleton] at inside
  by_cases atEnd : pos = front.length
  · subst atEnd
    rw [List.getElem?_concat_length, Option.some.injEq] at found
    subst found
    rw [List.set_append_right _ _ (Nat.le_refl _), Nat.sub_self, List.set_cons_zero,
      List.dropLast_concat]
    exact (List.perm_append_singleton last front).symm
  · have before : pos < front.length := by omega
    rw [List.getElem?_append_left before] at found
    rw [List.set_append_left _ _ before, List.dropLast_concat]
    have split := List.set_perm_cons_eraseIdx before last
    have whole := List.getElem_cons_eraseIdx_perm before
    have itemIs := (List.getElem?_eq_some_iff.mp found).2
    rw [itemIs] at whole
    have swapped := (split.cons item).trans (List.Perm.swap last item _)
    exact swapped.trans
      ((whole.cons last).trans (List.perm_append_singleton last front).symm)

private theorem erase_getElem? {heap : List HeapItem} {pos i : Nat} {last : HeapItem}
    (inside : i < (heap.set pos last).dropLast.length) (apart : i ≠ pos) :
    (heap.set pos last).dropLast[i]? = heap[i]? := by
  rw [List.length_dropLast] at inside
  rw [List.getElem?_dropLast, if_pos inside, List.getElem?_set_ne (Ne.symm apart)]

/-- The heap without `item`; the index of its entry is still there. -/
structure Erased (timers : Timers) (item : HeapItem) (after : Timers) : Prop where
  perm : (item :: after.heap).Perm timers.heap
  ordered : Ordered (vals after.heap) after.heap.length
  indexed : ∀ i other, after.heap[i]? = some other → after.heapIdx other.ref = some i
  others : ∀ other, other ∉ after.heap.map HeapItem.ref →
    after.heapIdx other = timers.heapIdx other

theorem heapErase_spec (linked : timers.Linked) {pos : Nat} {item : HeapItem}
    (found : timers.heap[pos]? = some item) :
    Meets (fun _ => False) (Erased timers item) (heapErase timers pos) := by
  have inside := (List.getElem?_eq_some_iff.mp found).1
  have nonempty : timers.heap ≠ [] := List.ne_nil_of_length_pos (by omega)
  have lastIs := List.getLast?_eq_some_getLast nonempty
  generalize timers.heap.getLast nonempty = last at lastIs
  have perm := erase_perm found lastIs
  have elsewhere : ∀ i, i < (timers.heap.set pos last).dropLast.length → i ≠ pos →
      (timers.heap.set pos last).dropLast[i]? = timers.heap[i]? :=
    fun i before apart => erase_getElem? before apart
  have length : (timers.heap.set pos last).dropLast.length = timers.heap.length - 1 := by
    rw [List.length_dropLast, List.length_set]
  unfold heapErase
  rw [found, lastIs]
  simp only []
  generalize startIs : ({ timers with
    heap := (timers.heap.set pos last).dropLast } : Timers) = start
  have heapIs : (timers.heap.set pos last).dropLast = start.heap := by
    rw [← startIs]
  have idxIs : start.heapIdx = timers.heapIdx := by
    rw [← startIs]
  rw [heapIs] at perm elsewhere length ⊢
  have distinct : (item.ref :: start.heap.map HeapItem.ref).Nodup :=
    (perm.map HeapItem.ref).nodup_iff.mpr linked.distinct
  rw [List.nodup_cons] at distinct
  have sameVals : ∀ index, index < start.heap.length → index ≠ pos →
      vals start.heap index = vals timers.heap index := by
    intro index before apart
    unfold vals
    rw [elsewhere index before apart]
  have indexed : ∀ i other, i ≠ pos → start.heap[i]? = some other →
      start.heapIdx other.ref = some i := by
    intro i other apart atI
    have before := (List.getElem?_eq_some_iff.mp atI).1
    rw [elsewhere i before apart] at atI
    rw [idxIs]
    exact linked.indexed i other atI
  by_cases within : pos < start.heap.length
  · rw [if_pos within]
    have loose : Loose (vals start.heap) start.heap.length pos :=
      (linked.ordered.loose pos).congr (by omega) sameVals
    refine (heapUpdate_spec within distinct.2 loose).mono ?_
    intro after repaired
    refine ⟨(repaired.perm.cons item).trans perm, repaired.ordered,
      repaired.indexed indexed, ?_⟩
    intro other outside
    rw [repaired.others other ?_, idxIs]
    exact fun member => outside ((repaired.perm.map HeapItem.ref).mem_iff.mpr member)
  · rw [if_neg within]
    refine ⟨perm, ?_, ?_, fun _ _ => by rw [idxIs]⟩
    · intro index positive before
      have less := parent_lt positive
      rw [sameVals index before (by omega), sameVals (parent index) (by omega) (by omega)]
      exact linked.ordered index positive (by omega)
    · intro i other atI
      have before := (List.getElem?_eq_some_iff.mp atI).1
      exact indexed i other (by omega) atI

theorem Erased.setTo {after : Timers} {item : HeapItem} (erased : Erased timers item after)
    (linked : timers.Linked) (refIs : item.ref = ent) :
    timers.SetTo ent none
      { after with heapIdx := Function.update after.heapIdx ent none } := by
  have refs := erased.perm.map HeapItem.ref
  rw [List.map_cons, refIs] at refs
  have distinct : (ent :: after.heap.map HeapItem.ref).Nodup :=
    refs.nodup_iff.mpr linked.distinct
  rw [List.nodup_cons] at distinct
  have kept : ∀ other ∈ after.heap, other.ref ≠ ent := by
    intro other member same
    exact distinct.1 (same ▸ List.mem_map_of_mem member)
  have afterLinked :
      ({ after with heapIdx := Function.update after.heapIdx ent none } : Timers).Linked := by
    refine ⟨erased.ordered, ?_, ?_⟩
    · intro i other atI
      have apart := kept other (List.mem_of_getElem? atI)
      simp only [Function.update_of_ne apart]
      exact erased.indexed i other atI
    · intro other outside
      by_cases same : other = ent
      · subst same
        exact Function.update_self ..
      · simp only [Function.update_of_ne same]
        rw [erased.others other outside]
        apply linked.absent
        intro member
        rcases List.mem_cons.mp (refs.mem_iff.mpr member) with contrary | inside
        · exact same contrary
        · exact outside inside
  apply setTo_of_items linked afterLinked
  intro other
  constructor
  · intro member
    exact .inr ⟨erased.perm.mem_iff.mp (List.mem_cons_of_mem _ member), kept other member⟩
  · intro either
    rcases either with ⟨_, contrary⟩ | ⟨member, apart⟩
    · cases contrary
    · rcases List.mem_cons.mp (erased.perm.mem_iff.mpr member) with rfl | inside
      · exact absurd refIs apart
      · exact inside

/-- `entry_set_ttl` sets or removes one deadline and no other. -/
theorem entrySetTtl_spec (linked : timers.Linked) (ent : Ptr) (ttlMs : Int) (now : UInt64) :
    Meets (fun _ => False)
      (timers.SetTo ent (if ttlMs < 0 then none else some (ttlDeadline ttlMs now)))
      (entrySetTtl timers ent ttlMs now) := by
  unfold entrySetTtl
  cases index : timers.heapIdx ent with
  | none =>
      by_cases negative : ttlMs < 0
      · rw [if_pos negative]
        simp only [if_pos negative]
        refine ⟨linked, ?_⟩
        have noDeadline : timers.deadline ent = none := by
          rw [Timers.deadline, index]
        rw [← noDeadline, Function.update_eq_self]
      · rw [if_neg negative]
        simp only [if_neg negative]
        exact heapUpdate_push linked index (ttlDeadline ttlMs now)
  | some pos =>
      rcases linked.listed index with ⟨item, found, refIs⟩
      by_cases negative : ttlMs < 0
      · rw [if_pos negative]
        simp only [if_pos negative]
        refine (heapErase_spec linked found).bind ?_
        intro after erased
        exact erased.setTo linked refIs
      · rw [if_neg negative]
        have read : itemAt timers.heap pos = .ok item := by
          rw [itemAt, found]
        simp only [if_neg negative, read, ok_bind]
        exact heapUpdate_renew linked found refIs (ttlDeadline ttlMs now)

end RedisC
