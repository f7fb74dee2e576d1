/-
The intrusive AVL tree, on the level of its pointers.

The memory gives the `AVLNode` at every address.  An update such as
`node->left = value` is a new memory, and a nullable pointer is an `Option`.
Loops carry fuel; `avlFuel` is the number of addresses, so a loop that visits
no address twice ends within it.
-/

import RedisC.Machine

namespace RedisC

structure AVLNode where
  depth : UInt32 := 0
  count : UInt32 := 0
  left : Option Ptr := none
  right : Option Ptr := none
  parent : Option Ptr := none
  deriving DecidableEq, Repr

abbrev AvlMem := Ptr → AVLNode

def avlFuel : Nat := 2 ^ 64

def modify (mem : AvlMem) (target : Ptr) (change : AVLNode → AVLNode) : AvlMem :=
  fun address => if address = target then change (mem address) else mem address

def setLeft (mem : AvlMem) (node : Ptr) (value : Option Ptr) : AvlMem :=
  modify mem node fun fields => { fields with left := value }

def setRight (mem : AvlMem) (node : Ptr) (value : Option Ptr) : AvlMem :=
  modify mem node fun fields => { fields with right := value }

def setParent (mem : AvlMem) (node : Ptr) (value : Option Ptr) : AvlMem :=
  modify mem node fun fields => { fields with parent := value }

/-- `if (child) child->parent = value` -/
def setParentOf (mem : AvlMem) (child value : Option Ptr) : AvlMem :=
  match child with
  | none => mem
  | some node => setParent mem node value

/-- `(parent->left == old ? parent->left : parent->right) = value` -/
def replaceChild (mem : AvlMem) (parent old : Ptr) (value : Option Ptr) : AvlMem :=
  if (mem parent).left = some old then setLeft mem parent value
  else setRight mem parent value

def avlInit (mem : AvlMem) (node : Ptr) : AvlMem :=
  modify mem node fun _ =>
    { depth := 1, count := 1, left := none, right := none, parent := none }

def avlDepth (mem : AvlMem) : Option Ptr → UInt32
  | none => 0
  | some node => (mem node).depth

def avlCount (mem : AvlMem) : Option Ptr → UInt32
  | none => 0
  | some node => (mem node).count

def max32 (lhs rhs : UInt32) : UInt32 := if lhs < rhs then rhs else lhs

def avlUpdate (mem : AvlMem) (node : Ptr) : AvlMem :=
  modify mem node fun fields =>
    { fields with
      depth := 1 + max32 (avlDepth mem fields.left) (avlDepth mem fields.right)
      count := 1 + avlCount mem fields.left + avlCount mem fields.right }

def rotateLeft (mem : AvlMem) (node : Ptr) : AvlMem × Ptr :=
  match (mem node).right with
  | none => (mem, node)
  | some newNode =>
      let mem := setParentOf mem (mem newNode).left (some node)
      let mem := setRight mem node (mem newNode).left
      let mem := setLeft mem newNode (some node)
      let mem := setParent mem newNode (mem node).parent
      let mem := setParent mem node (some newNode)
      let mem := avlUpdate mem node
      let mem := avlUpdate mem newNode
      (mem, newNode)

def rotateRight (mem : AvlMem) (node : Ptr) : AvlMem × Ptr :=
  match (mem node).left with
  | none => (mem, node)
  | some newNode =>
      let mem := setParentOf mem (mem newNode).right (some node)
      let mem := setLeft mem node (mem newNode).right
      let mem := setRight mem newNode (some node)
      let mem := setParent mem newNode (mem node).parent
      let mem := setParent mem node (some newNode)
      let mem := avlUpdate mem node
      let mem := avlUpdate mem newNode
      (mem, newNode)

def avlFixLeft (mem : AvlMem) (root : Ptr) : Except Fault (AvlMem × Ptr) :=
  match (mem root).left with
  | none => .error .nullDeref
  | some left =>
      if avlDepth mem (mem left).left < avlDepth mem (mem left).right then
        let (mem, left) := rotateLeft mem left
        let mem := setLeft mem root (some left)
        .ok (rotateRight mem root)
      else
        .ok (rotateRight mem root)

def avlFixRight (mem : AvlMem) (root : Ptr) : Except Fault (AvlMem × Ptr) :=
  match (mem root).right with
  | none => .error .nullDeref
  | some right =>
      if avlDepth mem (mem right).right < avlDepth mem (mem right).left then
        let (mem, right) := rotateRight mem right
        let mem := setRight mem root (some right)
        .ok (rotateLeft mem root)
      else
        .ok (rotateLeft mem root)

/-- The choice between the two repairs in the body of `avl_rebalance`. -/
def avlFix (mem : AvlMem) (node : Ptr) : Except Fault (AvlMem × Ptr) :=
  let l := avlDepth mem (mem node).left
  let r := avlDepth mem (mem node).right
  if l = r + 2 then avlFixLeft mem node
  else if l + 2 = r then avlFixRight mem node
  else .ok (mem, node)

/-- Rebalance from the affected node up to the root, which is returned. -/
def avlRebalance : Nat → AvlMem → Ptr → Except Fault (AvlMem × Ptr)
  | 0, _, _ => .error .outOfFuel
  | fuel + 1, mem, node =>
      let mem := avlUpdate mem node
      match (mem node).parent with
      | none => avlFix mem node
      | some parent => do
          -- `from`, the slot of the parent, is taken before the rotation
          let isLeft := (mem parent).left = some node
          let (mem, node) ← avlFix mem node
          let mem :=
            if isLeft then setLeft mem parent (some node)
            else setRight mem parent (some node)
          match (mem node).parent with
          | none => .error .nullDeref
          | some next => avlRebalance fuel mem next

/-- `while (victim->left) victim = victim->left` -/
def leftmost : Nat → AvlMem → Ptr → Except Fault Ptr
  | 0, _, _ => .error .outOfFuel
  | fuel + 1, mem, victim =>
      match (mem victim).left with
      | none => .ok victim
      | some left => leftmost fuel mem left

/-- `*victim = *node`, with the parent links of the children that come along. -/
def takeLinks (mem : AvlMem) (victim node : Ptr) : AvlMem :=
  let mem := modify mem victim fun _ => mem node
  let mem := setParentOf mem (mem victim).left (some victim)
  setParentOf mem (mem victim).right (some victim)

/-- Delete a node; the result is the new root. -/
def avlDelete : Nat → AvlMem → Ptr → Except Fault (AvlMem × Option Ptr)
  | 0, _, _ => .error .outOfFuel
  | fuel + 1, mem, node =>
      match (mem node).right with
      | none =>
          -- no right subtree: the left subtree takes the place of the node
          let mem := setParentOf mem (mem node).left (mem node).parent
          match (mem node).parent with
          | some parent => do
              let mem := replaceChild mem parent node (mem node).left
              let (mem, root) ← avlRebalance avlFuel mem parent
              pure (mem, some root)
          | none => .ok (mem, (mem node).left)
      | some right => do
          let victim ← leftmost avlFuel mem right
          let (mem, root) ← avlDelete fuel mem victim
          -- the victim, now free, takes the place of the node
          let mem := takeLinks mem victim node
          match (mem node).parent with
          | some parent =>
              let mem := replaceChild mem parent node (some victim)
              pure (mem, root)
          | none => pure (mem, some victim)

/-- The loop of `avl_offset`, with `pos` over the integers; `pos` is relative to the
starting node. -/
def avlOffsetLoop (mem : AvlMem) (offset : Int) :
    Nat → Ptr → Int → Except Fault (Option Ptr)
  | 0, _, _ => .error .outOfFuel
  | fuel + 1, node, pos =>
      if offset = pos then .ok (some node)
      else if pos < offset ∧ pos + (avlCount mem (mem node).right).toNat ≥ offset then
        match (mem node).right with
        | none => .error .nullDeref
        | some right =>
            avlOffsetLoop mem offset fuel right
              (pos + (avlCount mem (mem right).left + 1).toNat)
      else if pos > offset ∧ pos - (avlCount mem (mem node).left).toNat ≤ offset then
        match (mem node).left with
        | none => .error .nullDeref
        | some left =>
            avlOffsetLoop mem offset fuel left
              (pos - (avlCount mem (mem left).right + 1).toNat)
      else
        match (mem node).parent with
        | none => .ok none
        | some parent =>
            if (mem parent).right = some node then
              avlOffsetLoop mem offset fuel parent
                (pos - (avlCount mem (mem node).left + 1).toNat)
            else
              avlOffsetLoop mem offset fuel parent
                (pos + (avlCount mem (mem node).right + 1).toNat)

def avlOffset (mem : AvlMem) (node : Ptr) (offset : Int) : Except Fault (Option Ptr) :=
  avlOffsetLoop mem offset avlFuel node 0

/-- A `uint32_t` operand in an `int64_t` sum. -/
def widen (value : UInt32) : Int64 := Int64.ofNat value.toNat

/-- The same loop in the arithmetic of the machine, where `pos` and `offset` are
`int64_t` and the counts are `uint32_t`. -/
def avlOffsetLoop64 (mem : AvlMem) (offset : Int64) :
    Nat → Ptr → Int64 → Except Fault (Option Ptr)
  | 0, _, _ => .error .outOfFuel
  | fuel + 1, node, pos =>
      if offset = pos then .ok (some node)
      else if pos < offset ∧ pos + widen (avlCount mem (mem node).right) ≥ offset then
        match (mem node).right with
        | none => .error .nullDeref
        | some right =>
            avlOffsetLoop64 mem offset fuel right
              (pos + widen (avlCount mem (mem right).left + 1))
      else if pos > offset ∧ pos - widen (avlCount mem (mem node).left) ≤ offset then
        match (mem node).left with
        | none => .error .nullDeref
        | some left =>
            avlOffsetLoop64 mem offset fuel left
              (pos - widen (avlCount mem (mem left).right + 1))
      else
        match (mem node).parent with
        | none => .ok none
        | some parent =>
            if (mem parent).right = some node then
              avlOffsetLoop64 mem offset fuel parent
                (pos - widen (avlCount mem (mem node).left + 1))
            else
              avlOffsetLoop64 mem offset fuel parent
                (pos + widen (avlCount mem (mem node).right + 1))

def avlOffset64 (mem : AvlMem) (node : Ptr) (offset : Int64) : Except Fault (Option Ptr) :=
  avlOffsetLoop64 mem offset avlFuel node 0

end RedisC
