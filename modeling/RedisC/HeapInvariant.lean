/-
The heap is in order and every entry knows the index of its item.

A repair keeps the displaced item out of the array until it fits.  `Sifting`
relates the array with the hole to the array before the repair: nothing is lost
and whatever has been moved has its new index written.  The order of the array
is a matter of the values alone and comes from the rules for heaps.
-/

import RedisC.Lib.Fallible
import RedisC.Lib.HeapOrder
import RedisC.Heap

namespace RedisC

open Fallible HeapOrder

def vals (heap : List HeapItem) (i : Nat) : Nat :=
  match heap[i]? with
  | none => 0
  | some item => item.val.toNat

theorem vals_of_getElem? {heap : List HeapItem} {i : Nat} {item : HeapItem}
    (found : heap[i]? = some item) : vals heap i = item.val.toNat := by
  rw [vals, found]

theorem vals_set {heap : List HeapItem} {pos : Nat} (inside : pos < heap.length)
    (item : HeapItem) :
    vals (heap.set pos item) = Function.update (vals heap) pos item.val.toNat := by
  funext i
  by_cases same : i = pos
  · subst same
    rw [Function.update_self, vals_of_getElem? (List.getElem?_set_self inside)]
  · rw [Function.update_of_ne same, vals, vals, List.getElem?_set_ne (Ne.symm same)]

private theorem itemAt_ok {heap : List HeapItem} {i : Nat} (inside : i < heap.length) :
    ∃ item, heap[i]? = some item ∧ itemAt heap i = .ok item := by
  have found := List.getElem?_eq_getElem inside
  exact ⟨_, found, by rw [itemAt, found]⟩

@[simp] theorem place_heap (timers : Timers) (pos : Nat) (item : HeapItem) :
    (place timers pos item).heap = timers.heap.set pos item := rfl

private theorem place_heapIdx_self (timers : Timers) (pos : Nat) (item : HeapItem) :
    (place timers pos item).heapIdx item.ref = some pos := Function.update_self ..

private theorem place_heapIdx_ne (timers : Timers) (pos : Nat) {item : HeapItem} {ent : Ptr}
    (apart : ent ≠ item.ref) : (place timers pos item).heapIdx ent = timers.heapIdx ent :=
  Function.update_of_ne apart ..

theorem index_unique {heap : List HeapItem} (distinct : (heap.map HeapItem.ref).Nodup)
    {i j : Nat} {item other : HeapItem} (atI : heap[i]? = some item)
    (atJ : heap[j]? = some other) (same : item.ref = other.ref) : i = j := by
  have inside : i < (heap.map HeapItem.ref).length := by
    rw [List.length_map]
    exact (List.getElem?_eq_some_iff.mp atI).1
  apply (List.getElem?_inj inside distinct).mp
  rw [List.getElem?_map, List.getElem?_map, atI, atJ, Option.map_some, Option.map_some, same]

/-- The index field of an item at `i` after a repair around `origin`: written unless
the item was at `i` before and not at `origin`. -/
def Settled (start : Timers) (origin : Nat) (heapIdx : Ptr → Option Nat) (i : Nat)
    (item : HeapItem) : Prop :=
  heapIdx item.ref =
    if i ≠ origin ∧ start.heap[i]? = some item then start.heapIdx item.ref else some i

structure Sifting (start : Timers) (origin : Nat) (item : HeapItem) (timers : Timers)
    (pos : Nat) : Prop where
  inside : pos < timers.heap.length
  perm : (timers.heap.set pos item).Perm start.heap
  settled : ∀ i other, i ≠ pos → timers.heap[i]? = some other →
    Settled start origin timers.heapIdx i other
  others : ∀ ent, ent ∉ start.heap.map HeapItem.ref → timers.heapIdx ent = start.heapIdx ent

structure Repaired (start : Timers) (origin : Nat) (after : Timers) : Prop where
  perm : after.heap.Perm start.heap
  ordered : Ordered (vals after.heap) after.heap.length
  settled : ∀ i other, after.heap[i]? = some other →
    Settled start origin after.heapIdx i other
  others : ∀ ent, ent ∉ start.heap.map HeapItem.ref → after.heapIdx ent = start.heapIdx ent

section Sift

variable {start timers : Timers} {origin pos : Nat} {item : HeapItem}

theorem Sifting.distinct (sifting : Sifting start origin item timers pos)
    (distinct : (start.heap.map HeapItem.ref).Nodup) :
    ((timers.heap.set pos item).map HeapItem.ref).Nodup :=
  (sifting.perm.map HeapItem.ref).nodup_iff.mpr distinct

theorem Sifting.ref_ne (sifting : Sifting start origin item timers pos)
    (distinct : (start.heap.map HeapItem.ref).Nodup) {i : Nat} {other : HeapItem}
    (apart : i ≠ pos) (found : timers.heap[i]? = some other) : other.ref ≠ item.ref := by
  intro same
  have inSet : (timers.heap.set pos item)[i]? = some other := by
    rw [List.getElem?_set_ne (Ne.symm apart), found]
  exact apart (index_unique (sifting.distinct distinct) inSet
    (List.getElem?_set_self sifting.inside) same)

theorem Sifting.move (sifting : Sifting start origin item timers pos)
    (distinct : (start.heap.map HeapItem.ref).Nodup) {source : Nat} {moved : HeapItem}
    (apart : source ≠ pos) (found : timers.heap[source]? = some moved)
    (unmoved : start.heap[source]? = some moved) :
    Sifting start origin item (place timers pos moved) source := by
  have inside := sifting.inside
  have sourceInside := (List.getElem?_eq_some_iff.mp found).1
  have inSet : ∀ i, i ≠ pos → (timers.heap.set pos item)[i]? = timers.heap[i]? :=
    fun i notPos => List.getElem?_set_ne (Ne.symm notPos)
  refine ⟨?_, ?_, ?_, ?_⟩
  · rw [place_heap, List.length_set]
    exact sourceInside
  · -- the hole and the source change places
    have swapped : ((timers.heap.set pos moved).set source item).Perm
        (timers.heap.set pos item) := by
      have posIn : pos < (timers.heap.set pos item).length := by
        rw [List.length_set]
        exact inside
      have sourceIn : source < (timers.heap.set pos item).length := by
        rw [List.length_set]
        exact sourceInside
      have exchange := List.set_set_perm posIn sourceIn
      rw [List.set_set, List.getElem_set_self, List.getElem_set_ne (Ne.symm apart)] at exchange
      have atSource := (List.getElem?_eq_some_iff.mp found).2
      rw [atSource] at exchange
      exact exchange
    exact swapped.trans sifting.perm
  · intro i other notSource atI
    rw [place_heap] at atI
    by_cases atHole : i = pos
    · subst atHole
      rw [List.getElem?_set_self inside] at atI
      cases atI
      have elsewhere : ¬(i ≠ origin ∧ start.heap[i]? = some moved) :=
        fun both => apart (index_unique distinct unmoved both.2 rfl)
      unfold Settled
      rw [if_neg elsewhere, place_heapIdx_self]
    · rw [List.getElem?_set_ne (Ne.symm atHole)] at atI
      have refs : other.ref ≠ moved.ref := by
        intro same
        have iInSet := (inSet i atHole).trans atI
        have sourceInSet := (inSet source apart).trans found
        exact notSource (index_unique (sifting.distinct distinct) iInSet sourceInSet same)
      have settled := sifting.settled i other atHole atI
      unfold Settled at settled ⊢
      rw [place_heapIdx_ne timers pos refs]
      exact settled
  · intro ent absent
    have member : moved.ref ∈ start.heap.map HeapItem.ref :=
      List.mem_map_of_mem (List.mem_of_getElem? unmoved)
    have apart : ent ≠ moved.ref := by
      intro same
      rw [same] at absent
      exact absent member
    rw [place_heapIdx_ne timers pos apart]
    exact sifting.others ent absent

theorem Sifting.finish (sifting : Sifting start origin item timers pos)
    (distinct : (start.heap.map HeapItem.ref).Nodup) (taken : start.heap[origin]? = some item)
    (ordered : Ordered (Function.update (vals timers.heap) pos item.val.toNat)
      timers.heap.length) :
    Repaired start origin (place timers pos item) := by
  have inside := sifting.inside
  refine ⟨sifting.perm, ?_, ?_, ?_⟩
  · rw [place_heap, vals_set inside, List.length_set]
    exact ordered
  · intro i other atI
    rw [place_heap] at atI
    by_cases atHole : i = pos
    · subst atHole
      rw [List.getElem?_set_self inside] at atI
      cases atI
      have elsewhere : ¬(i ≠ origin ∧ start.heap[i]? = some item) :=
        fun both => both.1 (index_unique distinct both.2 taken rfl)
      unfold Settled
      rw [if_neg elsewhere, place_heapIdx_self]
    · rw [List.getElem?_set_ne (Ne.symm atHole)] at atI
      have settled := sifting.settled i other atHole atI
      unfold Settled at settled ⊢
      rw [place_heapIdx_ne timers pos (sifting.ref_ne distinct atHole atI)]
      exact settled
  · intro ent absent
    have member : item.ref ∈ start.heap.map HeapItem.ref :=
      List.mem_map_of_mem (List.mem_of_getElem? taken)
    have apart : ent ≠ item.ref := by
      intro same
      rw [same] at absent
      exact absent member
    rw [place_heapIdx_ne timers pos apart]
    exact sifting.others ent absent

end Sift

theorem Sifting.begin (timers : Timers) {pos : Nat} {item : HeapItem}
    (found : timers.heap[pos]? = some item) : Sifting timers pos item timers pos := by
  have inside := (List.getElem?_eq_some_iff.mp found).1
  refine ⟨inside, ?_, ?_, fun _ _ => rfl⟩
  · have same := (List.getElem?_eq_some_iff.mp found).2
    rw [← same, List.set_getElem_self]
  · intro i other apart atI
    unfold Settled
    rw [if_pos ⟨apart, atI⟩]

theorem heapBubbleUpLoop_spec {start timers : Timers} {origin pos fuel : Nat}
    {item : HeapItem} (sifting : Sifting start origin item timers pos)
    (distinct : (start.heap.map HeapItem.ref).Nodup) (taken : start.heap[origin]? = some item)
    (order : UpOrder (vals timers.heap) timers.heap.length pos item.val.toNat)
    (ahead : ∀ i, i < pos → timers.heap[i]? = start.heap[i]?) (enough : pos < fuel) :
    Meets (fun _ => False) (Repaired start origin)
      (heapBubbleUpLoop item fuel timers pos) := by
  induction fuel generalizing timers pos with
  | zero => omega
  | succ fuel ih =>
      have inside := sifting.inside
      unfold heapBubbleUpLoop
      by_cases positive : pos > 0
      · have less := parent_lt positive
        rcases itemAt_ok (Nat.lt_trans less inside) with ⟨up, found, read⟩
        rw [if_pos positive]
        have upIs : itemAt timers.heap (heapParent pos) = .ok up := read
        have upVal := vals_of_getElem? found
        rw [upIs, ok_bind]
        by_cases before : up.val > item.val
        · rw [if_pos before]
          have lower : item.val.toNat < vals timers.heap (parent pos) := by
            rw [upVal]
            exact UInt64.lt_iff_toNat_lt.mp before
          have unmoved := (ahead (parent pos) less).symm.trans found
          apply ih (sifting.move distinct (Nat.ne_of_lt less) found unmoved)
          · have next := order.move positive inside lower
            rw [upVal, ← vals_set inside] at next
            rw [place_heap, List.length_set]
            exact next
          · intro i below
            have parentLess : heapParent pos < pos := less
            rw [place_heap, List.getElem?_set_ne (by omega)]
            exact ahead i (by omega)
          · have parentLess : heapParent pos < pos := less
            omega
        · rw [if_neg before]
          apply sifting.finish distinct taken
          apply order.finish
          intro _
          rw [upVal]
          exact Nat.le_of_not_lt fun less => before (UInt64.lt_iff_toNat_lt.mpr less)
      · rw [if_neg positive]
        apply sifting.finish distinct taken
        apply order.finish
        intro contrary
        exact absurd contrary positive

theorem heapPick_spec {heap : List HeapItem} {len : Nat} (bounded : len ≤ heap.length)
    (i : Nat) (least : Option Nat) (val : UInt64) :
    ∃ result, heapPick heap len i least val = .ok result ∧
      ((i < len ∧ vals heap i < val.toNat ∧ result.1 = some i ∧
          result.2.toNat = vals heap i) ∨
        ((i < len → val.toNat ≤ vals heap i) ∧ result = (least, val))) := by
  unfold heapPick
  by_cases inside : i < len
  · rcases itemAt_ok (Nat.lt_of_lt_of_le inside bounded) with ⟨item, found, read⟩
    rw [if_pos inside, read, ok_bind, vals_of_getElem? found]
    by_cases smaller : item.val < val
    · rw [if_pos smaller]
      exact ⟨_, rfl, .inl ⟨inside, UInt64.lt_iff_toNat_lt.mp smaller, rfl, rfl⟩⟩
    · rw [if_neg smaller]
      refine ⟨_, rfl, .inr ⟨fun _ => ?_, rfl⟩⟩
      exact Nat.le_of_not_lt fun less => smaller (UInt64.lt_iff_toNat_lt.mpr less)
  · rw [if_neg inside]
    exact ⟨_, rfl, .inr ⟨fun contrary => absurd contrary inside, rfl⟩⟩

structure LeastChild (heap : List HeapItem) (len pos : Nat) (val : UInt64)
    (found : Option Nat) : Prop where
  none : found = none → ∀ child, 0 < child → child < len → parent child = pos →
    val.toNat ≤ vals heap child
  some : ∀ child, found = some child → 0 < child ∧ child < len ∧ parent child = pos ∧
    vals heap child < val.toNat ∧
    ∀ other, 0 < other → other < len → parent other = pos → vals heap child ≤ vals heap other

private theorem heapPick_children {heap : List HeapItem} {len : Nat} (bounded : len ≤ heap.length)
    (pos : Nat) (val : UInt64) :
    ∃ first second, heapPick heap len (heapLeftChild pos) none val = .ok first ∧
      heapPick heap len (heapRightChild pos) first.1 first.2 = .ok second ∧
      LeastChild heap len pos val second.1 := by
  rcases heapPick_spec bounded (heapLeftChild pos) none val with ⟨first, firstIs, firstCase⟩
  rcases heapPick_spec bounded (heapRightChild pos) first.1 first.2 with
    ⟨second, secondIs, secondCase⟩
  refine ⟨first, second, firstIs, secondIs, ?_, ?_⟩
  · intro absent child positive inside above
    rcases secondCase with ⟨_, _, isRight, _⟩ | ⟨rightBound, rfl⟩
    · rw [isRight] at absent
      cases absent
    · rcases firstCase with ⟨_, _, isLeft, _⟩ | ⟨leftBound, rfl⟩
      · rw [isLeft] at absent
        cases absent
      · rcases child_cases positive above with rfl | rfl
        · exact leftBound inside
        · exact rightBound inside
  · intro child isChild
    have leftParent : parent (heapLeftChild pos) = pos := parent_left pos
    have rightParent : parent (heapRightChild pos) = pos := parent_right pos
    rcases secondCase with ⟨rightInside, rightLess, isRight, _⟩ | ⟨rightBound, rfl⟩
    · rw [isRight] at isChild
      cases isChild
      refine ⟨by unfold heapRightChild; omega, rightInside, rightParent, ?_, ?_⟩
      · rcases firstCase with ⟨_, leftLess, _, leftVal⟩ | ⟨_, rfl⟩
        · omega
        · exact rightLess
      · intro other positive inside above
        rcases child_cases positive above with rfl | rfl
        · rcases firstCase with ⟨_, leftLess, _, leftVal⟩ | ⟨leftBound, rfl⟩
          · have leftVal' : first.2.toNat = vals heap (left pos) := leftVal
            omega
          · exact Nat.le_trans (Nat.le_of_lt rightLess) (leftBound inside)
        · exact Nat.le_refl _
    · rcases firstCase with ⟨leftInside, leftLess, isLeft, leftVal⟩ | ⟨_, rfl⟩
      · rw [isLeft] at isChild
        cases isChild
        refine ⟨by unfold heapLeftChild; omega, leftInside, leftParent, leftLess, ?_⟩
        intro other positive inside above
        rcases child_cases positive above with rfl | rfl
        · exact Nat.le_refl _
        · rw [← leftVal]
          exact rightBound inside
      · cases isChild

theorem heapBubbleDownLoop_spec {start timers : Timers} {origin pos fuel : Nat}
    {item : HeapItem} (sifting : Sifting start origin item timers pos)
    (distinct : (start.heap.map HeapItem.ref).Nodup) (taken : start.heap[origin]? = some item)
    (order : DownOrder (vals timers.heap) timers.heap.length pos item.val.toNat)
    (ahead : ∀ i, pos < i → timers.heap[i]? = start.heap[i]?)
    (enough : timers.heap.length < fuel + pos) :
    Meets (fun _ => False) (Repaired start origin)
      (heapBubbleDownLoop item timers.heap.length fuel timers pos) := by
  induction fuel generalizing timers pos with
  | zero =>
      have inside := sifting.inside
      omega
  | succ fuel ih =>
      have inside := sifting.inside
      rcases heapPick_children (Nat.le_refl timers.heap.length) pos item.val with
        ⟨first, second, firstIs, secondIs, least⟩
      unfold heapBubbleDownLoop
      rw [firstIs, ok_bind]
      simp only [secondIs, ok_bind]
      rcases second with ⟨_ | child, secondVal⟩
      · apply sifting.finish distinct taken
        apply order.finish
        exact least.none rfl
      · rcases least.some child rfl with ⟨positive, childInside, above, before, leastOf⟩
        have less := parent_lt positive
        rcases itemAt_ok childInside with ⟨down, found, read⟩
        have downVal := vals_of_getElem? found
        have unmoved := (ahead child (by omega)).symm.trans found
        simp only [read, ok_bind]
        have next := ih (sifting.move distinct (by omega) found unmoved) ?_ ?_ ?_
        · rw [place_heap, List.length_set] at next
          exact next
        · have moved := order.move positive childInside above before leastOf
          rw [downVal, ← vals_set inside] at moved
          rw [place_heap, List.length_set]
          exact moved
        · intro i below
          rw [place_heap, List.getElem?_set_ne (by omega)]
          exact ahead i (by omega)
        · rw [place_heap, List.length_set]
          omega

/-- `heap_update` repairs the heap around one changed slot. -/
theorem heapUpdate_spec {timers : Timers} {pos : Nat} (inside : pos < timers.heap.length)
    (distinct : (timers.heap.map HeapItem.ref).Nodup)
    (loose : Loose (vals timers.heap) timers.heap.length pos) :
    Meets (fun _ => False) (Repaired timers pos)
      (heapUpdate timers pos timers.heap.length) := by
  rcases itemAt_ok inside with ⟨item, found, read⟩
  have itemVal := vals_of_getElem? found
  have sifting := Sifting.begin timers found
  have down : (0 < pos → vals timers.heap (parent pos) ≤ item.val.toNat) →
      Meets (fun _ => False) (Repaired timers pos)
        (heapBubbleDown timers pos timers.heap.length) := by
    intro above
    unfold heapBubbleDown
    rw [read, ok_bind]
    exact heapBubbleDownLoop_spec sifting distinct found ⟨loose, above⟩ (fun _ _ => rfl)
      (by omega)
  unfold heapUpdate
  by_cases positive : pos > 0
  · have less := parent_lt positive
    rcases itemAt_ok (Nat.lt_trans less inside) with ⟨up, upFound, upRead⟩
    have upIs : itemAt timers.heap (heapParent pos) = .ok up := upRead
    have upVal := vals_of_getElem? upFound
    rw [if_pos positive, upIs, ok_bind, read, ok_bind]
    by_cases before : up.val > item.val
    · rw [if_pos before]
      unfold heapBubbleUp
      rw [read, ok_bind]
      have lower := UInt64.lt_iff_toNat_lt.mp before
      refine heapBubbleUpLoop_spec sifting distinct found ⟨loose, ?_⟩ (fun _ _ => rfl)
        (by omega)
      intro child childPositive childInside above
      have across := loose.across positive child childPositive childInside above
      omega
    · rw [if_neg before]
      apply down
      intro _
      rw [upVal]
      exact Nat.le_of_not_lt fun contrary => before (UInt64.lt_iff_toNat_lt.mpr contrary)
  · rw [if_neg positive]
    apply down
    intro contrary
    exact absurd contrary positive

/-- The item at `up` is not after the one at `down`, where the array has both. -/
def InOrder (heap : List HeapItem) (up down : Nat) : Prop :=
  ∀ above below, heap[up]? = some above → heap[down]? = some below → above.val ≤ below.val

theorem InOrder.vals_le {heap : List HeapItem} {up down : Nat}
    (pair : InOrder heap up down) (upInside : up < heap.length)
    (downInside : down < heap.length) : vals heap up ≤ vals heap down := by
  have upFound := List.getElem?_eq_getElem upInside
  have downFound := List.getElem?_eq_getElem downInside
  rw [vals_of_getElem? upFound, vals_of_getElem? downFound]
  exact UInt64.le_iff_toNat_le.mp (pair _ _ upFound downFound)

theorem InOrder.of_vals {heap : List HeapItem} {up down : Nat}
    (least : vals heap up ≤ vals heap down) : InOrder heap up down := by
  intro above below upFound downFound
  rw [vals_of_getElem? upFound, vals_of_getElem? downFound] at least
  exact UInt64.le_iff_toNat_le.mpr least

/-- An item is settled by the index it had: written if it was at the origin or has
moved, and not touched otherwise. -/
theorem Repaired.heapIdx_eq {start after : Timers} {origin before i : Nat}
    {item : HeapItem} (repaired : Repaired start origin after)
    (distinct : (start.heap.map HeapItem.ref).Nodup)
    (was : start.heap[before]? = some item) (now : after.heap[i]? = some item) :
    after.heapIdx item.ref =
      if before = origin ∨ i ≠ before then some i else start.heapIdx item.ref := by
  have settled := repaired.settled i item now
  unfold Settled at settled
  rw [settled]
  by_cases stayed : i = before
  · subst stayed
    by_cases atOrigin : i = origin
    · rw [if_neg (fun both => both.1 atOrigin), if_pos (.inl atOrigin)]
    · rw [if_pos ⟨atOrigin, was⟩, if_neg]
      intro either
      rcases either with same | moved
      · exact atOrigin same
      · exact moved rfl
  · rw [if_neg, if_pos (.inr stayed)]
    intro both
    exact stayed (index_unique distinct both.2 was rfl)

/-- `heap_update` returns a heap of the same items, and the index fields follow the
items that it touched. -/
theorem heapUpdate_repairs (timers : Timers) (pos : Nat)
    (inside : pos < timers.heap.length)
    (distinct : (timers.heap.map HeapItem.ref).Nodup)
    (elsewhere : ∀ child, 0 < child → child ≠ pos → heapParent child ≠ pos →
      InOrder timers.heap (heapParent child) child)
    (across : 0 < pos → ∀ child, child = heapLeftChild pos ∨ child = heapRightChild pos →
      InOrder timers.heap (heapParent pos) child) :
    ∃ after, heapUpdate timers pos timers.heap.length = .ok after ∧
      after.heap.Perm timers.heap ∧
      (∀ child, 0 < child → InOrder after.heap (heapParent child) child) ∧
      ∀ before i item, timers.heap[before]? = some item → after.heap[i]? = some item →
        after.heapIdx item.ref =
          if before = pos ∨ i ≠ before then some i else timers.heapIdx item.ref := by
  have loose : Loose (vals timers.heap) timers.heap.length pos := by
    constructor
    · intro index positive bounded away awayUp
      have less := parent_lt positive
      exact (elsewhere index positive away awayUp).vals_le (Nat.lt_trans less bounded) bounded
    · intro positive child childPositive bounded above
      have less := parent_lt positive
      have side := child_cases childPositive above
      exact (across positive child side).vals_le (Nat.lt_trans less inside) bounded
  rcases (heapUpdate_spec inside distinct loose).returns with ⟨after, run, repaired⟩
  refine ⟨after, run, repaired.perm, ?_, ?_⟩
  · intro child positive above below upFound downFound
    have bounded := (List.getElem?_eq_some_iff.mp downFound).1
    have least := repaired.ordered child positive bounded
    exact InOrder.of_vals least above below upFound downFound
  · intro before i item was now
    exact repaired.heapIdx_eq distinct was now

/-- Three timers of which the root has just been given the last deadline. -/
theorem heapUpdate_repairs_root :
    ∃ after, heapUpdate ⟨[⟨9, 0⟩, ⟨4, 1⟩, ⟨5, 2⟩], fun ent => some ent.toNat⟩ 0 3 = .ok after ∧
      after.heap.Perm [⟨9, 0⟩, ⟨4, 1⟩, ⟨5, 2⟩] ∧
      (∀ child, 0 < child → InOrder after.heap (heapParent child) child) ∧
      ∀ before i item, ([⟨9, 0⟩, ⟨4, 1⟩, ⟨5, 2⟩] : List HeapItem)[before]? = some item →
        after.heap[i]? = some item →
        after.heapIdx item.ref =
          if before = 0 ∨ i ≠ before then some i else some item.ref.toNat := by
  apply heapUpdate_repairs ⟨[⟨9, 0⟩, ⟨4, 1⟩, ⟨5, 2⟩], fun ent => some ent.toNat⟩ 0
  · decide
  · decide
  · intro child positive _ away above below _ found
    have bounded : child < 3 := (List.getElem?_eq_some_iff.mp found).1
    unfold heapParent at away
    omega
  · intro contrary
    exact absurd contrary (Nat.lt_irrefl 0)

/-! ### The timers of the entries -/

structure Timers.Linked (timers : Timers) : Prop where
  ordered : Ordered (vals timers.heap) timers.heap.length
  indexed : ∀ i item, timers.heap[i]? = some item → timers.heapIdx item.ref = some i
  absent : ∀ ent, ent ∉ timers.heap.map HeapItem.ref → timers.heapIdx ent = none

def Timers.deadline (timers : Timers) (ent : Ptr) : Option UInt64 :=
  match timers.heapIdx ent with
  | none => none
  | some i => timers.heap[i]?.map HeapItem.val

section Timers

variable {timers : Timers}

theorem Timers.linked_empty : ({} : Timers).Linked := by
  refine ⟨?_, ?_, fun _ _ => rfl⟩
  · intro index _ inside
    exact absurd inside (Nat.not_lt_zero index)
  · intro i item found
    cases found

theorem Timers.Linked.distinct (linked : timers.Linked) :
    (timers.heap.map HeapItem.ref).Nodup := by
  rw [List.nodup_iff_getElem?_ne_getElem?]
  intro i j less inside same
  rw [List.length_map] at inside
  rcases itemAt_ok (Nat.lt_trans less inside) with ⟨item, found, _⟩
  rcases itemAt_ok inside with ⟨other, otherFound, _⟩
  rw [List.getElem?_map, List.getElem?_map, found, otherFound, Option.map_some,
    Option.map_some, Option.some.injEq] at same
  have first := linked.indexed i item found
  rw [same, linked.indexed j other otherFound, Option.some.injEq] at first
  omega

/-- An index other than `-1` refers to the item that refers back. -/
theorem Timers.Linked.listed (linked : timers.Linked) {ent : Ptr} {i : Nat}
    (index : timers.heapIdx ent = some i) :
    ∃ item, timers.heap[i]? = some item ∧ item.ref = ent := by
  by_cases present : ent ∈ timers.heap.map HeapItem.ref
  · rcases List.mem_map.mp present with ⟨item, member, rfl⟩
    rcases List.mem_iff_getElem?.mp member with ⟨j, found⟩
    have indexed := linked.indexed j item found
    rw [index, Option.some.injEq] at indexed
    subst indexed
    exact ⟨item, found, rfl⟩
  · rw [linked.absent ent present] at index
    cases index

theorem Timers.Linked.deadline_eq_some_iff (linked : timers.Linked) {ent : Ptr}
    {val : UInt64} :
    timers.deadline ent = some val ↔
      ∃ item ∈ timers.heap, item.ref = ent ∧ item.val = val := by
  unfold Timers.deadline
  constructor
  · intro given
    cases index : timers.heapIdx ent with
    | none =>
        rw [index] at given
        cases given
    | some i =>
        rcases linked.listed index with ⟨item, found, refIs⟩
        simp only [index, found, Option.map_some, Option.some.injEq] at given
        exact ⟨item, List.mem_of_getElem? found, refIs, given⟩
  · intro listed
    rcases listed with ⟨item, member, rfl, rfl⟩
    rcases List.mem_iff_getElem?.mp member with ⟨i, found⟩
    simp only [linked.indexed i item found, found, Option.map_some]

/-- After a repair the indexes are right if they were right away from the slot. -/
theorem Repaired.indexed {start after : Timers} {pos : Nat}
    (repaired : Repaired start pos after)
    (before : ∀ i item, i ≠ pos → start.heap[i]? = some item →
      start.heapIdx item.ref = some i) :
    ∀ i item, after.heap[i]? = some item → after.heapIdx item.ref = some i := by
  intro i item found
  have settled := repaired.settled i item found
  unfold Settled at settled
  by_cases unmoved : i ≠ pos ∧ start.heap[i]? = some item
  · rw [if_pos unmoved, before i item unmoved.1 unmoved.2] at settled
    exact settled
  · rw [if_neg unmoved] at settled
    exact settled

theorem Repaired.linked {start after : Timers} {pos : Nat}
    (repaired : Repaired start pos after)
    (before : ∀ i item, i ≠ pos → start.heap[i]? = some item →
      start.heapIdx item.ref = some i)
    (absent : ∀ ent, ent ∉ start.heap.map HeapItem.ref → start.heapIdx ent = none) :
    after.Linked := by
  refine ⟨repaired.ordered, repaired.indexed before, ?_⟩
  intro ent outside
  have refs := repaired.perm.map HeapItem.ref
  have outsideStart : ent ∉ start.heap.map HeapItem.ref :=
    fun member => outside (refs.mem_iff.mpr member)
  rw [repaired.others ent outsideStart, absent ent outsideStart]

end Timers

end RedisC
