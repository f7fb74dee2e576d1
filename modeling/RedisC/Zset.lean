/-
The sorted set: one set of nodes under two indexes.

A `ZNode` embeds an `AVLNode` and an `HNode`, so the AVL tree and the hash map
of a `ZSet` both link the same nodes.  A node is known by its address.  The
nodes of one sorted set are reached from no other, so each set carries its own
part of the memory; `malloc` is the choice of an address that no node of the
set has.

Scores are the doubles that `str2double` lets through, that is all but NaN.
They are compared as C compares doubles, which takes `-0` and `+0` as equal.
-/

import RedisC.Avl
import RedisC.Hashtable
import RedisC.Utils

namespace RedisC

structure Score where
  value : Double
  number : value.isNaN = false
  deriving DecidableEq, Repr

instance : Inhabited Score := ⟨⟨⟨0⟩, rfl⟩⟩

def Score.one : Score := ⟨⟨0x3FF0000000000000⟩, rfl⟩

/-- The place of a score among the doubles: `-0` and `+0` share the place 0. -/
def Score.rank (score : Score) : Int :=
  if score.value.bits.toNat < 2 ^ 63 then score.value.magnitude
  else -score.value.magnitude

/-- The first difference within `n` bytes. -/
def memcmp (lhs rhs : Bytes) : Nat → Int
  | 0 => 0
  | n + 1 =>
      match lhs, rhs with
      | l :: lhs, r :: rhs =>
          if l = r then memcmp lhs rhs n else (l.toNat : Int) - r.toNat
      | _, _ => 0

/-- The result is a `uint32_t`, whatever the two lengths are. -/
def min32 (lhs rhs : Nat) : Nat := (if lhs < rhs then lhs else rhs) % 2 ^ 32

structure ZNode where
  score : Score := default
  name : Bytes := []
  deriving DecidableEq, Repr

structure ZSet where
  tree : Option Ptr := none
  hmap : HMap Ptr := {}
  avl : AvlMem := fun _ => {}
  znode : Ptr → ZNode := fun _ => {}

/-- `zless` on a node and a `(score, name)` tuple. -/
def zlessTuple (lhs : ZNode) (score : Score) (name : Bytes) : Bool :=
  if lhs.score.rank ≠ score.rank then decide (lhs.score.rank < score.rank)
  else
    let rv := memcmp lhs.name name (min32 lhs.name.length name.length)
    if rv ≠ 0 then decide (rv < 0)
    else decide (lhs.name.length < name.length)

def zless (lhs rhs : ZNode) : Bool := zlessTuple lhs rhs.score rhs.name

def hcmp (zset : ZSet) (name : Bytes) (node : HNode Ptr) : Bool :=
  if node.hcode ≠ strHash name then false
  else if (zset.znode node.owner).name.length ≠ name.length then false
  else decide (0 = memcmp (zset.znode node.owner).name name name.length)

/-- The loop of `tree_add`: go down to a vacant slot and rebalance from there. -/
def treeAddLoop (zset : ZSet) (node : Ptr) : Nat → Ptr → Except Fault (AvlMem × Ptr)
  | 0, _ => .error .outOfFuel
  | fuel + 1, curr =>
      if zless (zset.znode node) (zset.znode curr) then
        match (zset.avl curr).left with
        | none =>
            let avl := setLeft zset.avl curr (some node)
            avlRebalance avlFuel (setParent avl node (some curr)) node
        | some next => treeAddLoop zset node fuel next
      else
        match (zset.avl curr).right with
        | none =>
            let avl := setRight zset.avl curr (some node)
            avlRebalance avlFuel (setParent avl node (some curr)) node
        | some next => treeAddLoop zset node fuel next

def treeAdd (zset : ZSet) (node : Ptr) : Except Fault ZSet :=
  match zset.tree with
  | none => .ok { zset with tree := some node }
  | some curr => do
      let (avl, root) ← treeAddLoop zset node avlFuel curr
      pure { zset with avl := avl, tree := some root }

/-- `node` is the address that `malloc` returns. -/
def znodeNew (zset : ZSet) (node : Ptr) (name : Bytes) (score : Score) : ZSet × HNode Ptr :=
  ({ zset with
      avl := avlInit zset.avl node
      znode := Function.update zset.znode node { score := score, name := name } },
    { owner := node, hcode := strHash name })

def zsetUpdate (zset : ZSet) (node : Ptr) (score : Score) : Except Fault ZSet :=
  if (zset.znode node).score.rank = score.rank then .ok zset
  else do
    let (avl, tree) ← avlDelete avlFuel zset.avl node
    let zset := { zset with
      avl := avlInit avl node
      tree := tree
      znode := Function.update zset.znode node { zset.znode node with score := score } }
    treeAdd zset node

/-- The search moves nodes of the map, so it returns a new set as well. -/
def zsetLookup (zset : ZSet) (name : Bytes) : Except Fault (ZSet × Option Ptr) :=
  match zset.tree with
  | none => .ok (zset, none)
  | some _ => do
      let (hmap, found) ← hmLookup hmFuel zset.hmap (strHash name) (hcmp zset name)
      pure ({ zset with hmap := hmap }, found.map HNode.owner)

/-- `fresh` is the address for a new node, should one be needed. -/
def zsetAdd (zset : ZSet) (fresh : Ptr) (name : Bytes) (score : Score) :
    Except Fault (ZSet × Bool) := do
  match ← zsetLookup zset name with
  | (zset, some node) =>
      let zset ← zsetUpdate zset node score
      pure (zset, false)
  | (zset, none) =>
      let (zset, node) := znodeNew zset fresh name score
      let hmap ← hmInsert hmFuel zset.hmap node
      let zset ← treeAdd { zset with hmap := hmap } fresh
      pure (zset, true)

/-- The loop of `zset_query`: the least node that is not less than the tuple. -/
def zsetSeek (zset : ZSet) (score : Score) (name : Bytes) :
    Nat → Option Ptr → Option Ptr → Except Fault (Option Ptr)
  | 0, _, _ => .error .outOfFuel
  | _ + 1, found, none => .ok found
  | fuel + 1, found, some curr =>
      if zlessTuple (zset.znode curr) score name then
        zsetSeek zset score name fuel found (zset.avl curr).right
      else
        zsetSeek zset score name fuel (some curr) (zset.avl curr).left

def zsetQuery (zset : ZSet) (score : Score) (name : Bytes) (offset : Int) :
    Except Fault (Option Ptr) := do
  match ← zsetSeek zset score name avlFuel none zset.tree with
  | none => pure none
  | some found => avlOffset zset.avl found offset

def zsetPop (zset : ZSet) (name : Bytes) : Except Fault (ZSet × Option Ptr) :=
  match zset.tree with
  | none => .ok (zset, none)
  | some _ => do
      match ← hmPop hmFuel zset.hmap (strHash name) (hcmp zset name) with
      | (hmap, none) => pure ({ zset with hmap := hmap }, none)
      | (hmap, some found) =>
          let (avl, tree) ← avlDelete avlFuel zset.avl found.owner
          pure ({ zset with hmap := hmap, avl := avl, tree := tree }, some found.owner)

end RedisC
