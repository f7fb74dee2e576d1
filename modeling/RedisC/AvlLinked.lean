/-
Trees in memory.

`Linked mem parent tree` says that `tree` is stored in `mem` below `parent`,
with right links and right `depth` and `count` fields.  `PathLinked` is the
same for the nodes above a focus, whose `depth` and `count` may be stale.  The
fields are `uint32_t`: a tree of nodes at distinct addresses is far too low to
overflow `depth`, and `count` holds the number of nodes modulo `2 ^ 32`.
-/

import RedisC.Lib.BalancedTree
import RedisC.Lib.Fallible
import RedisC.Avl

namespace RedisC

open BalancedTree Fallible

variable {mem : AvlMem} {parent : Option Ptr}

def rootPtr : BinaryTree Ptr → Option Ptr
  | .nil => none
  | .node node _ _ => some node

@[simp] theorem rootPtr_node (node : Ptr) (left right : BinaryTree Ptr) :
    rootPtr (.node node left right) = some node := rfl

structure Wired (mem : AvlMem) (parent : Option Ptr) (node : Ptr)
    (left right : Option Ptr) : Prop where
  parent : (mem node).parent = parent
  left : (mem node).left = left
  right : (mem node).right = right

structure Measured (mem : AvlMem) (node : Ptr) (left right : BinaryTree Ptr) : Prop where
  depth : (mem node).depth = UInt32.ofNat (max left.height right.height + 1)
  count : (mem node).count = UInt32.ofNat (left.numNodes + right.numNodes + 1)

def Linked (mem : AvlMem) : Option Ptr → BinaryTree Ptr → Prop
  | _, .nil => True
  | parent, .node node left right =>
      Wired mem parent node (rootPtr left) (rootPtr right) ∧
        Measured mem node left right ∧
        Linked mem (some node) left ∧ Linked mem (some node) right

def outer : List (Frame Ptr) → Option Ptr
  | [] => none
  | frame :: _ => some frame.value

def PathLinked (mem : AvlMem) : List (Frame Ptr) → Option Ptr → Prop
  | [], _ => True
  | .goneLeft node right :: rest, child =>
      Wired mem (outer rest) node child (rootPtr right) ∧
        Linked mem (some node) right ∧ PathLinked mem rest (some node)
  | .goneRight left node :: rest, child =>
      Wired mem (outer rest) node (rootPtr left) child ∧
        Linked mem (some node) left ∧ PathLinked mem rest (some node)

/-! ### Single updates -/

section Updates

variable (mem : AvlMem) {node other : Ptr}

theorem modify_same (node : Ptr) (change : AVLNode → AVLNode) :
    modify mem node change node = change (mem node) := if_pos rfl

theorem modify_ne (change : AVLNode → AVLNode) (apart : other ≠ node) :
    modify mem node change other = mem other := if_neg apart

private theorem setParentOf_ne {child : Option Ptr} (value : Option Ptr)
    (apart : child ≠ some other) : setParentOf mem child value other = mem other := by
  cases child with
  | none => rfl
  | some target =>
      unfold setParentOf setParent
      exact modify_ne mem _ (fun same => apart (congrArg some same.symm))

private theorem setParentOf_some (node : Ptr) (value : Option Ptr) :
    setParentOf mem (some node) value node = { mem node with parent := value } := by
  unfold setParentOf setParent
  exact modify_same mem node _

end Updates

/-! ### Frames: parts of the memory that do not matter -/

theorem rootPtr_mem {tree : BinaryTree Ptr} {node : Ptr}
    (root : rootPtr tree = some node) : node ∈ inorder tree := by
  cases tree with
  | nil => cases root
  | node value left right =>
      cases root
      exact List.mem_append_right _ List.mem_cons_self

theorem Linked.congr {memNew : AvlMem} {tree : BinaryTree Ptr}
    (linked : Linked mem parent tree)
    (same : ∀ node ∈ inorder tree, memNew node = mem node) :
    Linked memNew parent tree := by
  induction tree generalizing parent with
  | nil => trivial
  | node value left right leftIh rightIh =>
      obtain ⟨wired, measured, leftLinked, rightLinked⟩ := linked
      have here : memNew value = mem value :=
        same value (List.mem_append_right _ List.mem_cons_self)
      refine ⟨⟨?_, ?_, ?_⟩, ⟨?_, ?_⟩, ?_, ?_⟩
      · rw [here, wired.parent]
      · rw [here, wired.left]
      · rw [here, wired.right]
      · rw [here, measured.depth]
      · rw [here, measured.count]
      · exact leftIh leftLinked
          (fun node member => same node (List.mem_append_left _ member))
      · exact rightIh rightLinked
          (fun node member => same node
            (List.mem_append_right _ (List.mem_cons_of_mem _ member)))

theorem Wired.congr {memNew : AvlMem} {node : Ptr} {left right : Option Ptr}
    (wired : Wired mem parent node left right) (same : memNew node = mem node) :
    Wired memNew parent node left right := by
  refine ⟨?_, ?_, ?_⟩
  · rw [same, wired.parent]
  · rw [same, wired.left]
  · rw [same, wired.right]

def pathNodes (context : List (Frame Ptr)) : List Ptr :=
  before context ++ after context

theorem frame_value_mem (frame : Frame Ptr) (rest : List (Frame Ptr)) :
    frame.value ∈ pathNodes (frame :: rest) := by
  cases frame <;> simp [pathNodes, before, after, Frame.value]

theorem frame_aside_mem {frame : Frame Ptr} {rest : List (Frame Ptr)} {node : Ptr}
    (member : node ∈ inorder frame.aside) : node ∈ pathNodes (frame :: rest) := by
  cases frame with
  | goneLeft value right =>
      have inRight : node ∈ inorder right := member
      simp [pathNodes, before, after, inRight]
  | goneRight left value =>
      have inLeft : node ∈ inorder left := member
      simp [pathNodes, before, after, inLeft]

private theorem frame_rest_mem {frame : Frame Ptr} {rest : List (Frame Ptr)} {node : Ptr}
    (member : node ∈ pathNodes rest) : node ∈ pathNodes (frame :: rest) := by
  rcases List.mem_append.mp member with inBefore | inAfter
  · cases frame <;> simp [pathNodes, before, after, inBefore]
  · cases frame <;> simp [pathNodes, before, after, inAfter]

theorem PathLinked.congr {memNew : AvlMem} {context : List (Frame Ptr)}
    {child : Option Ptr} (linked : PathLinked mem context child)
    (same : ∀ node ∈ pathNodes context, memNew node = mem node) :
    PathLinked memNew context child := by
  induction context generalizing child with
  | nil => trivial
  | cons frame rest ih =>
      have here := same frame.value (frame_value_mem frame rest)
      have beside : ∀ node ∈ inorder frame.aside, memNew node = mem node :=
        fun node member => same node (frame_aside_mem member)
      have above : ∀ node ∈ pathNodes rest, memNew node = mem node :=
        fun node member => same node (frame_rest_mem member)
      cases frame with
      | goneLeft value right =>
          exact ⟨linked.1.congr here, linked.2.1.congr beside, ih linked.2.2 above⟩
      | goneRight left value =>
          exact ⟨linked.1.congr here, linked.2.1.congr beside, ih linked.2.2 above⟩

def PathMeasured (mem : AvlMem) : List (Frame Ptr) → Nat → Nat → Prop
  | [], _, _ => True
  | frame :: rest, height, count =>
      (mem frame.value).depth = UInt32.ofNat (max height frame.aside.height + 1) ∧
        (mem frame.value).count = UInt32.ofNat (count + frame.aside.numNodes + 1) ∧
        PathMeasured mem rest (max height frame.aside.height + 1)
          (count + frame.aside.numNodes + 1)

theorem PathMeasured.congr {memNew : AvlMem} {context : List (Frame Ptr)}
    {height count : Nat} (measured : PathMeasured mem context height count)
    (same : ∀ node ∈ pathNodes context,
      (memNew node).depth = (mem node).depth ∧ (memNew node).count = (mem node).count) :
    PathMeasured memNew context height count := by
  induction context generalizing height count with
  | nil => trivial
  | cons frame rest ih =>
      obtain ⟨depth, counted, restMeasured⟩ := measured
      have here := same frame.value (frame_value_mem frame rest)
      refine ⟨here.1.trans depth, here.2.trans counted, ih restMeasured ?_⟩
      exact fun node member => same node (frame_rest_mem member)

theorem linked_plug_iff {context : List (Frame Ptr)} {tree : BinaryTree Ptr} :
    Linked mem none (plug context tree) ↔
      Linked mem (outer context) tree ∧ PathLinked mem context (rootPtr tree) ∧
        PathMeasured mem context tree.height tree.numNodes := by
  induction context generalizing tree with
  | nil => exact ⟨fun linked => ⟨linked, trivial, trivial⟩, fun linked => linked.1⟩
  | cons frame rest ih =>
      rw [plug, ih]
      cases frame with
      | goneLeft value right =>
          constructor
          · intro linked
            rcases linked with ⟨⟨wired, measured, focus, aside⟩, path, pathMeasured⟩
            exact ⟨focus, ⟨wired, aside, path⟩, measured.depth, measured.count, pathMeasured⟩
          · intro linked
            rcases linked with ⟨focus, ⟨wired, aside, path⟩, depth, counted, pathMeasured⟩
            exact ⟨⟨wired, ⟨depth, counted⟩, focus, aside⟩, path, pathMeasured⟩
      | goneRight left value =>
          have heights : max left.height tree.height = max tree.height left.height :=
            Nat.max_comm _ _
          have counts : left.numNodes + tree.numNodes = tree.numNodes + left.numNodes :=
            Nat.add_comm _ _
          simp only [Frame.put, BinaryTree.height, BinaryTree.numNodes, heights, counts]
          constructor
          · intro linked
            rcases linked with ⟨⟨wired, measured, aside, focus⟩, path, pathMeasured⟩
            refine ⟨focus, ⟨wired, aside, path⟩, ?_, ?_, pathMeasured⟩
            · rw [Frame.aside, ← heights]
              exact measured.depth
            · rw [Frame.aside, ← counts]
              exact measured.count
          · intro linked
            rcases linked with ⟨focus, ⟨wired, aside, path⟩, depth, counted, pathMeasured⟩
            rw [Frame.aside, ← heights] at depth
            rw [Frame.aside, ← counts] at counted
            exact ⟨⟨wired, ⟨depth, counted⟩, aside, focus⟩, path, pathMeasured⟩

/-! ### The measured fields -/

/-- Low enough for the comparisons of `uint32_t` depths to be exact. -/
def Shallow (tree : BinaryTree Ptr) : Prop := tree.height < 2 ^ 31

theorem avlDepth_rootPtr {tree : BinaryTree Ptr} (linked : Linked mem parent tree) :
    avlDepth mem (rootPtr tree) = UInt32.ofNat tree.height := by
  cases tree with
  | nil => rfl
  | node value left right => exact linked.2.1.depth

theorem avlCount_rootPtr {tree : BinaryTree Ptr} (linked : Linked mem parent tree) :
    avlCount mem (rootPtr tree) = UInt32.ofNat tree.numNodes := by
  cases tree with
  | nil => rfl
  | node value left right => exact linked.2.1.count

theorem toNat_ofNat_shallow {height : Nat} (low : height < 2 ^ 31 + 2) :
    (UInt32.ofNat height).toNat = height :=
  UInt32.toNat_ofNat_of_lt' (Nat.lt_of_lt_of_le low (by decide))

theorem max32_ofNat {lhs rhs : Nat} (lhsLow : lhs < 2 ^ 31) (rhsLow : rhs < 2 ^ 31) :
    max32 (UInt32.ofNat lhs) (UInt32.ofNat rhs) = UInt32.ofNat (max lhs rhs) := by
  have order : UInt32.ofNat lhs < UInt32.ofNat rhs ↔ lhs < rhs := by
    rw [UInt32.lt_iff_toNat_lt, toNat_ofNat_shallow (by omega),
      toNat_ofNat_shallow (by omega)]
  unfold max32
  by_cases less : lhs < rhs
  · rw [if_pos (order.mpr less), Nat.max_eq_right (Nat.le_of_lt less)]
  · rw [if_neg (fun claimed => less (order.mp claimed)),
      Nat.max_eq_left (Nat.le_of_not_lt less)]

theorem avlUpdate_ne {node other : Ptr} (apart : other ≠ node) :
    avlUpdate mem node other = mem other := modify_ne mem _ apart

/-- `avl_update` completes a node whose subtrees are stored below it. -/
theorem avlUpdate_linked {node : Ptr} {left right : BinaryTree Ptr}
    (wired : Wired mem parent node (rootPtr left) (rootPtr right))
    (leftLinked : Linked mem (some node) left) (rightLinked : Linked mem (some node) right)
    (notLeft : node ∉ inorder left) (notRight : node ∉ inorder right)
    (leftShallow : Shallow left) (rightShallow : Shallow right) :
    Linked (avlUpdate mem node) parent (.node node left right) := by
  have updated : avlUpdate mem node node =
      { mem node with
        depth := 1 + max32 (avlDepth mem (mem node).left) (avlDepth mem (mem node).right)
        count := 1 + avlCount mem (mem node).left + avlCount mem (mem node).right } :=
    modify_same mem node _
  refine ⟨⟨?_, ?_, ?_⟩, ⟨?_, ?_⟩, ?_, ?_⟩
  · rw [updated]
    exact wired.parent
  · rw [updated]
    exact wired.left
  · rw [updated]
    exact wired.right
  · rw [updated]
    simp only [wired.left, wired.right, avlDepth_rootPtr leftLinked,
      avlDepth_rootPtr rightLinked, max32_ofNat leftShallow rightShallow]
    rw [UInt32.ofNat_add, UInt32.add_comm]
    rfl
  · rw [updated]
    simp only [wired.left, wired.right, avlCount_rootPtr leftLinked,
      avlCount_rootPtr rightLinked]
    rw [UInt32.ofNat_add, UInt32.ofNat_add, UInt32.add_assoc, UInt32.add_comm]
    rfl
  · refine leftLinked.congr (fun other member => avlUpdate_ne ?_)
    intro same
    subst same
    exact notLeft member
  · refine rightLinked.congr (fun other member => avlUpdate_ne ?_)
    intro same
    subst same
    exact notRight member

/-- `if (child) child->parent = value` moves a stored tree below `value`. -/
theorem Linked.reparent {tree : BinaryTree Ptr} (linked : Linked mem parent tree)
    (distinct : (inorder tree).Nodup) (value : Option Ptr) :
    Linked (setParentOf mem (rootPtr tree) value) value tree := by
  cases tree with
  | nil => trivial
  | node root left right =>
      obtain ⟨wired, measured, leftLinked, rightLinked⟩ := linked
      rw [inorder, List.nodup_middle, List.nodup_cons] at distinct
      have notLeft : root ∉ inorder left :=
        fun member => distinct.1 (List.mem_append_left _ member)
      have notRight : root ∉ inorder right :=
        fun member => distinct.1 (List.mem_append_right _ member)
      have atRoot := setParentOf_some mem root value
      refine ⟨⟨?_, ?_, ?_⟩, ⟨?_, ?_⟩, ?_, ?_⟩
      · rw [rootPtr, atRoot]
      · rw [rootPtr, atRoot]
        exact wired.left
      · rw [rootPtr, atRoot]
        exact wired.right
      · rw [rootPtr, atRoot]
        exact measured.depth
      · rw [rootPtr, atRoot]
        exact measured.count
      · refine leftLinked.congr (fun node member => setParentOf_ne mem value ?_)
        intro contrary
        cases contrary
        exact notLeft member
      · refine rightLinked.congr (fun node member => setParentOf_ne mem value ?_)
        intro contrary
        cases contrary
        exact notRight member

theorem setParentOf_rootPtr_ne {tree : BinaryTree Ptr} {node : Ptr}
    (apart : node ∉ inorder tree) (value : Option Ptr) :
    setParentOf mem (rootPtr tree) value node = mem node :=
  setParentOf_ne mem value (fun root => apart (rootPtr_mem root))

/-! ### Addresses bound the height -/

theorem length_le_of_nodup {nodes : List Ptr} (distinct : nodes.Nodup) :
    nodes.length ≤ 2 ^ 64 := by
  have distinctNat : (nodes.map UInt64.toNat).Nodup :=
    List.Nodup.map (fun _ _ => UInt64.toNat_inj.mp) distinct
  have inside : nodes.map UInt64.toNat ⊆ List.range (2 ^ 64) := by
    intro address member
    obtain ⟨node, _, rfl⟩ := List.mem_map.mp member
    exact List.mem_range.mpr node.toNat_lt
  have bound := (List.subperm_of_subset distinctNat inside).length_le
  rw [List.length_map, List.length_range] at bound
  exact bound

theorem height_lt_of_balanced {tree : BinaryTree Ptr} (balanced : Balanced tree)
    (distinct : (inorder tree).Nodup) : tree.height < 130 := by
  have many := two_pow_height_le balanced
  have few := length_le_of_nodup distinct
  rw [length_inorder] at few
  have bound : 2 ^ (tree.height / 2) < 2 ^ 65 := by omega
  have half := (Nat.pow_lt_pow_iff_right (by decide)).mp bound
  omega

end RedisC
