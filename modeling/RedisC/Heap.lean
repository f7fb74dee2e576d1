/-
The timer heap of the TTLs.

An item of the heap holds a deadline and a pointer to the `heap_idx` field of an
entry, which the heap keeps equal to the index of the item.  The field belongs
to the entry at the address `ref`; `heapIdx` is the column of these fields and
`none` stands for `(size_t)-1`.
-/

import RedisC.Machine

namespace RedisC

structure HeapItem where
  val : UInt64 := 0
  ref : Ptr
  deriving DecidableEq, Repr

structure Timers where
  heap : List HeapItem := []
  heapIdx : Ptr → Option Nat := fun _ => none

def heapParent (i : Nat) : Nat := (i + 1) / 2 - 1
def heapLeftChild (i : Nat) : Nat := i * 2 + 1
def heapRightChild (i : Nat) : Nat := i * 2 + 2

def itemAt (heap : List HeapItem) (i : Nat) : Except Fault HeapItem :=
  match heap[i]? with
  | none => .error .outOfBounds
  | some item => .ok item

/-- `ptr[pos] = item; *(ptr[pos].ref) = pos` -/
def place (timers : Timers) (pos : Nat) (item : HeapItem) : Timers where
  heap := timers.heap.set pos item
  heapIdx := Function.update timers.heapIdx item.ref (some pos)

def heapBubbleUpLoop (item : HeapItem) : Nat → Timers → Nat → Except Fault Timers
  | 0, _, _ => .error .outOfFuel
  | fuel + 1, timers, pos =>
      if pos > 0 then do
        let up ← itemAt timers.heap (heapParent pos)
        if up.val > item.val then
          heapBubbleUpLoop item fuel (place timers pos up) (heapParent pos)
        else
          pure (place timers pos item)
      else
        .ok (place timers pos item)

/-- Each loop moves the hole to another level, so `len` rounds are enough. -/
def heapBubbleUp (timers : Timers) (pos : Nat) : Except Fault Timers := do
  let item ← itemAt timers.heap pos
  heapBubbleUpLoop item (timers.heap.length + 1) timers pos

/-- One comparison of the search for the smallest one: `i` replaces `least` when it
is inside and its value is smaller than `val`. -/
def heapPick (heap : List HeapItem) (len i : Nat) (least : Option Nat) (val : UInt64) :
    Except Fault (Option Nat × UInt64) :=
  if i < len then do
    let item ← itemAt heap i
    if item.val < val then pure (some i, item.val) else pure (least, val)
  else
    .ok (least, val)

def heapBubbleDownLoop (item : HeapItem) (len : Nat) :
    Nat → Timers → Nat → Except Fault Timers
  | 0, _, _ => .error .outOfFuel
  | fuel + 1, timers, pos => do
      let (minPos, minVal) ← heapPick timers.heap len (heapLeftChild pos) none item.val
      -- the source does not write `min_val` again here, and does not read it either
      match ← heapPick timers.heap len (heapRightChild pos) minPos minVal with
      | (none, _) => pure (place timers pos item)
      | (some child, _) =>
          let down ← itemAt timers.heap child
          heapBubbleDownLoop item len fuel (place timers pos down) child

def heapBubbleDown (timers : Timers) (pos len : Nat) : Except Fault Timers := do
  let item ← itemAt timers.heap pos
  heapBubbleDownLoop item len (len + 1) timers pos

def heapUpdate (timers : Timers) (pos len : Nat) : Except Fault Timers :=
  if pos > 0 then do
    let up ← itemAt timers.heap (heapParent pos)
    let item ← itemAt timers.heap pos
    if up.val > item.val then heapBubbleUp timers pos else heapBubbleDown timers pos len
  else
    heapBubbleDown timers pos len

/-- Erase the item at `pos` by moving the last one into its place. -/
def heapErase (timers : Timers) (pos : Nat) : Except Fault Timers :=
  match timers.heap[pos]?, timers.heap.getLast? with
  | some _, some last =>
      let heap := (timers.heap.set pos last).dropLast
      if pos < heap.length then
        heapUpdate { timers with heap := heap } pos heap.length
      else
        .ok { timers with heap := heap }
  | _, _ => .error .outOfBounds

/-- Set the TTL of the entry at `ent`, or remove it when `ttl_ms` is negative; `now`
is the reading of the monotonic clock. -/
def entrySetTtl (timers : Timers) (ent : Ptr) (ttlMs : Int) (now : UInt64) :
    Except Fault Timers :=
  let val := now + UInt64.ofNat ttlMs.toNat * 1000
  match timers.heapIdx ent with
  | some pos =>
      if ttlMs < 0 then do
        let timers ← heapErase timers pos
        pure { timers with heapIdx := Function.update timers.heapIdx ent none }
      else do
        let item ← itemAt timers.heap pos
        let heap := timers.heap.set pos { item with val := val }
        heapUpdate { timers with heap := heap } pos heap.length
  | none =>
      if ttlMs < 0 then .ok timers
      else
        let heap := timers.heap ++ [{ val := val, ref := ent }]
        heapUpdate { timers with heap := heap } (heap.length - 1) heap.length

end RedisC
