/-
The rotations of the code are the rotations of trees.

Each rotation rewires two nodes and the subtree between them, then measures
both nodes again.  Nothing outside the rotated tree is written.
-/

import RedisC.AvlLinked

namespace RedisC

open BalancedTree Fallible

variable {mem : AvlMem} {parent : Option Ptr}

/-- A memory in which `tree` is stored and that differs from `mem` only there. -/
structure Stores (mem : AvlMem) (parent : Option Ptr) (tree : BinaryTree Ptr)
    (result : AvlMem × Ptr) : Prop where
  root : rootPtr tree = some result.2
  linked : Linked result.1 parent tree
  frame : ∀ node, node ∉ inorder tree → result.1 node = mem node

structure Apart (node pivot : Ptr) (first second third : BinaryTree Ptr) : Prop where
  nodes : node ≠ pivot
  nodeFirst : node ∉ inorder first
  nodeSecond : node ∉ inorder second
  nodeThird : node ∉ inorder third
  pivotFirst : pivot ∉ inorder first
  pivotSecond : pivot ∉ inorder second
  pivotThird : pivot ∉ inorder third
  firstSecond : ∀ other ∈ inorder first, other ∉ inorder second
  secondThird : ∀ other ∈ inorder third, other ∉ inorder second
  second : (inorder second).Nodup

private theorem apart_of_nodup {node pivot : Ptr} {first second third : BinaryTree Ptr}
    (distinct : (inorder first ++ pivot :: (inorder second ++ node :: inorder third)).Nodup) :
    Apart node pivot first second third := by
  simp only [List.nodup_append, List.nodup_cons, List.mem_append, List.mem_cons] at distinct
  constructor <;> grind

theorem ne_of_mem_of_not_mem {tree : BinaryTree Ptr} {other node : Ptr}
    (member : other ∈ inorder tree) (away : node ∉ inorder tree) : other ≠ node := by
  intro same
  subst same
  exact away member

/-- The memory of a rotation when all links are written and nothing is measured
yet: `middle` hangs below `node`, and only the two nodes differ besides. -/
structure Relinked (mem links : AvlMem) (node pivot : Ptr) (middle : BinaryTree Ptr) :
    Prop where
  moved : Linked links (some node) middle
  others : ∀ other, other ≠ node → other ≠ pivot → other ∉ inorder middle →
    links other = mem other

theorem Relinked.keeps {links : AvlMem} {node pivot : Ptr} {middle tree : BinaryTree Ptr}
    (relinked : Relinked mem links node pivot middle) (linked : Linked mem parent tree)
    (notNode : node ∉ inorder tree) (notPivot : pivot ∉ inorder tree)
    (notMiddle : ∀ other ∈ inorder tree, other ∉ inorder middle) :
    Linked links parent tree :=
  linked.congr fun other member =>
    relinked.others other (ne_of_mem_of_not_mem member notNode)
      (ne_of_mem_of_not_mem member notPivot) (notMiddle other member)

/-- `middle` moved below `node`, and then only `node` and `pivot` written. -/
private theorem relinked_of_writes {moved links : AvlMem} {node pivot : Ptr}
    {middle : BinaryTree Ptr} (movedIs : setParentOf mem (rootPtr middle) (some node) = moved)
    (middleLinked : Linked mem (some pivot) middle) (distinct : (inorder middle).Nodup)
    (notNode : node ∉ inorder middle) (notPivot : pivot ∉ inorder middle)
    (written : ∀ other, other ≠ node → other ≠ pivot → links other = moved other) :
    Relinked mem links node pivot middle := by
  constructor
  · have movedLinked := middleLinked.reparent distinct (some node)
    rw [movedIs] at movedLinked
    exact movedLinked.congr fun other member =>
      written other (ne_of_mem_of_not_mem member notNode)
        (ne_of_mem_of_not_mem member notPivot)
  · intro other apartNode apartPivot away
    rw [written other apartNode apartPivot, ← movedIs]
    exact setParentOf_rootPtr_ne away _

theorem rotateRight_spec {node pivot : Ptr} {outside middle right : BinaryTree Ptr}
    (wired : Wired mem parent node (some pivot) (rootPtr right))
    (pivotWired : Wired mem (some node) pivot (rootPtr outside) (rootPtr middle))
    (outsideLinked : Linked mem (some pivot) outside)
    (middleLinked : Linked mem (some pivot) middle)
    (rightLinked : Linked mem (some node) right)
    (distinct : (inorder (.node node (.node pivot outside middle) right)).Nodup)
    (outsideShallow : Shallow outside) (middleShallow : Shallow middle)
    (rightShallow : Shallow right) (newShallow : Shallow (.node node middle right)) :
    Stores mem parent (.node pivot outside (.node node middle right))
      (rotateRight mem node) := by
  have apart : Apart node pivot outside middle right := by
    apply apart_of_nodup
    simpa only [inorder, List.append_assoc, List.cons_append] using distinct
  unfold rotateRight
  simp only [wired.left, pivotWired.right]
  generalize movedIs : setParentOf mem (rootPtr middle) (some node) = moved
  have movedNode : moved node = mem node := by
    rw [← movedIs]
    exact setParentOf_rootPtr_ne apart.nodeSecond _
  have movedPivot : moved pivot = mem pivot := by
    rw [← movedIs]
    exact setParentOf_rootPtr_ne apart.pivotSecond _
  generalize linksIs : setParent _ node (some pivot) = links
  have linksNode : links node =
      { mem node with left := rootPtr middle, parent := some pivot } := by
    simp [← linksIs, setParent, setRight, setLeft, modify, apart.nodes, movedNode,
      movedPivot, pivotWired.right]
  have linksPivot : links pivot =
      { mem pivot with right := some node, parent := parent } := by
    simp [← linksIs, setParent, setRight, setLeft, modify, apart.nodes,
      apart.nodes.symm, movedNode, movedPivot, wired.parent]
  have relinked : Relinked mem links node pivot middle := by
    refine relinked_of_writes movedIs middleLinked apart.second apart.nodeSecond
      apart.pivotSecond ?_
    intro other notNode notPivot
    simp [← linksIs, setParent, setRight, setLeft, modify, notNode, notPivot]
  have lower : Linked (avlUpdate links node) (some pivot) (.node node middle right) := by
    refine avlUpdate_linked ⟨by rw [linksNode], by rw [linksNode], ?_⟩ relinked.moved
      (relinked.keeps rightLinked apart.nodeThird apart.pivotThird apart.secondThird)
      apart.nodeSecond apart.nodeThird middleShallow rightShallow
    rw [linksNode]
    exact wired.right
  have pivotKept : avlUpdate links node pivot = links pivot := avlUpdate_ne apart.nodes.symm
  have outsideNow : Linked (avlUpdate links node) (some pivot) outside :=
    (relinked.keeps outsideLinked apart.nodeFirst apart.pivotFirst apart.firstSecond).congr
      fun other member => avlUpdate_ne (ne_of_mem_of_not_mem member apart.nodeFirst)
  have pivotAway : pivot ∉ inorder (.node node middle right) := by
    simp [inorder, apart.pivotSecond, apart.pivotThird, apart.nodes.symm]
  refine ⟨rfl, ?_, ?_⟩
  · refine avlUpdate_linked ⟨?_, ?_, ?_⟩ outsideNow lower apart.pivotFirst pivotAway
      outsideShallow newShallow
    · rw [pivotKept, linksPivot]
    · rw [pivotKept, linksPivot]
      exact pivotWired.left
    · rw [pivotKept, linksPivot]
      rfl
  · intro other away
    simp only [inorder, List.mem_append, List.mem_cons, not_or] at away
    obtain ⟨_, notPivot, notMiddle, notNode, _⟩ := away
    exact (avlUpdate_ne notPivot).trans
      ((avlUpdate_ne notNode).trans (relinked.others other notNode notPivot notMiddle))

theorem rotateLeft_spec {node pivot : Ptr} {left middle outside : BinaryTree Ptr}
    (wired : Wired mem parent node (rootPtr left) (some pivot))
    (pivotWired : Wired mem (some node) pivot (rootPtr middle) (rootPtr outside))
    (leftLinked : Linked mem (some node) left)
    (middleLinked : Linked mem (some pivot) middle)
    (outsideLinked : Linked mem (some pivot) outside)
    (distinct : (inorder (.node node left (.node pivot middle outside))).Nodup)
    (leftShallow : Shallow left) (middleShallow : Shallow middle)
    (outsideShallow : Shallow outside) (newShallow : Shallow (.node node left middle)) :
    Stores mem parent (.node pivot (.node node left middle) outside)
      (rotateLeft mem node) := by
  have apart : Apart pivot node left middle outside := by
    apply apart_of_nodup
    simpa only [inorder, List.append_assoc, List.cons_append] using distinct
  unfold rotateLeft
  simp only [wired.right, pivotWired.left]
  generalize movedIs : setParentOf mem (rootPtr middle) (some node) = moved
  have movedNode : moved node = mem node := by
    rw [← movedIs]
    exact setParentOf_rootPtr_ne apart.pivotSecond _
  have movedPivot : moved pivot = mem pivot := by
    rw [← movedIs]
    exact setParentOf_rootPtr_ne apart.nodeSecond _
  generalize linksIs : setParent _ node (some pivot) = links
  have linksNode : links node =
      { mem node with right := rootPtr middle, parent := some pivot } := by
    simp [← linksIs, setParent, setRight, setLeft, modify, apart.nodes.symm, movedNode,
      movedPivot, pivotWired.left]
  have linksPivot : links pivot =
      { mem pivot with left := some node, parent := parent } := by
    simp [← linksIs, setParent, setRight, setLeft, modify, apart.nodes,
      apart.nodes.symm, movedNode, movedPivot, wired.parent]
  have relinked : Relinked mem links node pivot middle := by
    refine relinked_of_writes movedIs middleLinked apart.second apart.pivotSecond
      apart.nodeSecond ?_
    intro other notNode notPivot
    simp [← linksIs, setParent, setRight, setLeft, modify, notNode, notPivot]
  have lower : Linked (avlUpdate links node) (some pivot) (.node node left middle) := by
    refine avlUpdate_linked ⟨by rw [linksNode], ?_, by rw [linksNode]⟩
      (relinked.keeps leftLinked apart.pivotFirst apart.nodeFirst apart.firstSecond)
      relinked.moved apart.pivotFirst apart.pivotSecond leftShallow middleShallow
    rw [linksNode]
    exact wired.left
  have pivotKept : avlUpdate links node pivot = links pivot := avlUpdate_ne apart.nodes
  have outsideNow : Linked (avlUpdate links node) (some pivot) outside :=
    (relinked.keeps outsideLinked apart.pivotThird apart.nodeThird apart.secondThird).congr
      fun other member => avlUpdate_ne (ne_of_mem_of_not_mem member apart.pivotThird)
  have pivotAway : pivot ∉ inorder (.node node left middle) := by
    simp [inorder, apart.nodeFirst, apart.nodeSecond, apart.nodes]
  refine ⟨rfl, ?_, ?_⟩
  · refine avlUpdate_linked ⟨?_, ?_, ?_⟩ lower outsideNow pivotAway apart.nodeThird
      newShallow outsideShallow
    · rw [pivotKept, linksPivot]
    · rw [pivotKept, linksPivot]
      rfl
    · rw [pivotKept, linksPivot]
      exact pivotWired.right
  · intro other away
    simp only [inorder, List.mem_append, List.mem_cons, not_or] at away
    obtain ⟨⟨_, notNode, notMiddle⟩, notPivot, _⟩ := away
    exact (avlUpdate_ne notPivot).trans
      ((avlUpdate_ne notNode).trans (relinked.others other notNode notPivot notMiddle))

end RedisC
