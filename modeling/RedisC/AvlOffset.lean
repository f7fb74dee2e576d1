/-
`avl_offset` is rank arithmetic.

The walk climbs while the target is outside the subtree of the node and then
only descends.  Ranks are read off the `count` fields, which are exact as long
as the tree has fewer than `2 ^ 32` nodes; the `depth` fields play no part.
-/

import RedisC.AvlEdits

namespace RedisC

open BalancedTree Fallible

variable {mem : AvlMem} {parent : Option Ptr}

def Counted (mem : AvlMem) : Option Ptr → BinaryTree Ptr → Prop
  | _, .nil => True
  | parent, .node node left right =>
      Wired mem parent node (rootPtr left) (rootPtr right) ∧
        (mem node).count = UInt32.ofNat (left.numNodes + right.numNodes + 1) ∧
        Counted mem (some node) left ∧ Counted mem (some node) right

theorem Linked.counted {tree : BinaryTree Ptr} (linked : Linked mem parent tree) :
    Counted mem parent tree := by
  induction tree generalizing parent with
  | nil => trivial
  | node value left right leftIh rightIh =>
      obtain ⟨wired, measured, leftLinked, rightLinked⟩ := linked
      exact ⟨wired, measured.count, leftIh leftLinked, rightIh rightLinked⟩

theorem Counted.focus {context : List (Frame Ptr)} {tree : BinaryTree Ptr}
    (counted : Counted mem none (plug context tree)) : Counted mem (outer context) tree := by
  induction context generalizing tree with
  | nil => exact counted
  | cons frame rest ih =>
      have above := ih counted
      cases frame with
      | goneLeft value right => exact above.2.2.1
      | goneRight left value => exact above.2.2.2

private theorem avlCount_toNat {tree : BinaryTree Ptr} (counted : Counted mem parent tree)
    (few : tree.numNodes < 2 ^ 32) : (avlCount mem (rootPtr tree)).toNat = tree.numNodes := by
  cases tree with
  | nil => rfl
  | node value left right =>
      have field : (mem value).count = UInt32.ofNat (left.numNodes + right.numNodes + 1) :=
        counted.2.1
      rw [rootPtr, avlCount, field]
      exact UInt32.toNat_ofNat_of_lt' few

theorem avlCount_succ_toNat {tree : BinaryTree Ptr} (counted : Counted mem parent tree)
    (few : tree.numNodes + 1 < 2 ^ 32) :
    (avlCount mem (rootPtr tree) + 1).toNat = tree.numNodes + 1 := by
  have one : (1 : UInt32).toNat = 1 := rfl
  rw [UInt32.toNat_add, avlCount_toNat counted (by omega), one, Nat.mod_eq_of_lt few]

private theorem avlOffsetLoop_inside {tree : BinaryTree Ptr} {node : Ptr} {fuel target : Nat}
    {offset pos : Int} {left right : BinaryTree Ptr} (shape : tree = .node node left right)
    (counted : Counted mem parent tree) (few : tree.numNodes < 2 ^ 32)
    (rank : (target : Int) = left.numNodes + (offset - pos))
    (inside : target < tree.numNodes) (enough : tree.height ≤ fuel) :
    avlOffsetLoop mem offset fuel node pos = .ok (inorder tree)[target]? := by
  induction tree generalizing parent node fuel target pos left right with
  | nil => cases shape
  | node value lower upper lowerIh upperIh =>
      cases shape
      obtain ⟨wired, _, lowerCounted, upperCounted⟩ := counted
      rw [BinaryTree.height] at enough
      rw [BinaryTree.numNodes] at few inside
      obtain ⟨fuel, rfl⟩ : ∃ rest, fuel = rest + 1 := ⟨fuel - 1, by omega⟩
      have lowerCount := avlCount_toNat lowerCounted (by omega)
      have upperCount := avlCount_toNat upperCounted (by omega)
      have lowerLength := length_inorder lower
      rw [avlOffsetLoop, wired.left, wired.right, lowerCount, upperCount, inorder]
      rcases Nat.lt_trichotomy target lower.numNodes with less | here | greater
      · rw [if_neg (by omega), if_neg (by omega), if_pos (by omega)]
        cases lower with
        | nil =>
            simp only [BinaryTree.numNodes] at less
            omega
        | node next inner outer =>
            have counted := lowerCounted
            obtain ⟨nextWired, _, _, outerCounted⟩ := lowerCounted
            simp only [BinaryTree.numNodes] at few rank less
            have step := avlCount_succ_toNat outerCounted (by omega)
            simp only [rootPtr_node, nextWired.right, step]
            rw [lowerIh rfl counted (by simp only [BinaryTree.numNodes]; omega)
              (show (target : Int) = _ by omega) (by simp only [BinaryTree.numNodes]; omega)
              (show _ ≤ fuel by omega)]
            rw [List.getElem?_append_left (by rw [lowerLength, BinaryTree.numNodes]; omega)]
      · rw [if_pos (by omega), here, ← lowerLength]
        simp
      · rw [if_neg (by omega), if_pos (by omega)]
        cases upper with
        | nil =>
            simp only [BinaryTree.numNodes] at inside
            omega
        | node next inner outer =>
            have counted := upperCounted
            obtain ⟨nextWired, _, innerCounted, _⟩ := upperCounted
            simp only [BinaryTree.numNodes] at few inside
            have step := avlCount_succ_toNat innerCounted (by omega)
            simp only [rootPtr_node, nextWired.left, step]
            obtain ⟨rest, rfl⟩ : ∃ rest, target = lower.numNodes + 1 + rest :=
              ⟨target - (lower.numNodes + 1), by omega⟩
            rw [upperIh rfl counted (by simp only [BinaryTree.numNodes]; omega)
              (show (rest : Int) = _ by omega) (by simp only [BinaryTree.numNodes]; omega)
              (show _ ≤ fuel by omega)]
            rw [List.getElem?_append_right (by omega), lowerLength]
            have index : lower.numNodes + 1 + rest - lower.numNodes = rest + 1 := by omega
            rw [index, List.getElem?_cons_succ]

/-- The node at a rank of the in-order sequence, if there is one. -/
def nodeAtRank (nodes : List Ptr) (rank : Int) : Option Ptr :=
  if 0 ≤ rank then nodes[rank.toNat]? else none

private theorem nodeAtRank_inside {front focus back : List Ptr} {target : Nat}
    (inside : target < focus.length) :
    nodeAtRank (front ++ focus ++ back) (front.length + target) = focus[target]? := by
  unfold nodeAtRank
  rw [if_pos (by omega)]
  have index : ((front.length : Int) + target).toNat = front.length + target := by omega
  rw [index, List.append_assoc, List.getElem?_append_right (by omega),
    Nat.add_sub_cancel_left, List.getElem?_append_left inside]

theorem nodeAtRank_outside {nodes : List Ptr} {rank : Int}
    (outside : rank < 0 ∨ nodes.length ≤ rank) : nodeAtRank nodes rank = none := by
  unfold nodeAtRank
  split
  · exact List.getElem?_eq_none (by omega)
  · rfl

private theorem avlOffsetLoop_focus {context : List (Frame Ptr)} {node : Ptr}
    {left right : BinaryTree Ptr} {fuel : Nat} {offset pos : Int}
    (counted : Counted mem none (plug context (.node node left right)))
    (few : (plug context (.node node left right)).numNodes < 2 ^ 32)
    (inside : 0 ≤ left.numNodes + (offset - pos) ∧
      left.numNodes + (offset - pos) < left.numNodes + right.numNodes + 1)
    (enough : context.length + (plug context (.node node left right)).height < fuel) :
    avlOffsetLoop mem offset fuel node pos =
      .ok (nodeAtRank (inorder (plug context (.node node left right)))
        ((before context).length + (left.numNodes + (offset - pos)))) := by
  obtain ⟨target, rank⟩ := Int.eq_ofNat_of_zero_le inside.1
  have size := length_le_numNodes_plug context (.node node left right)
  have low := height_le_height_plug context (.node node left right)
  have reached : target < (BinaryTree.node node left right).numNodes := by
    rw [BinaryTree.numNodes]
    omega
  rw [avlOffsetLoop_inside rfl counted.focus (by omega) rank.symm reached (by omega),
    inorder_plug, rank, nodeAtRank_inside]
  rw [length_inorder]
  exact reached

/-- One round of the loop when the target is outside the subtree of the node. -/
private theorem avlOffsetLoop_outside {node : Ptr} {left right : BinaryTree Ptr} {fuel : Nat}
    {offset pos : Int} (counted : Counted mem parent (.node node left right))
    (few : left.numNodes + right.numNodes + 1 < 2 ^ 32)
    (outside : left.numNodes + (offset - pos) < 0 ∨
      left.numNodes + right.numNodes + 1 ≤ left.numNodes + (offset - pos)) :
    avlOffsetLoop mem offset (fuel + 1) node pos =
      match parent with
      | none => .ok none
      | some above =>
          if (mem above).right = some node then
            avlOffsetLoop mem offset fuel above (pos - (left.numNodes + 1))
          else avlOffsetLoop mem offset fuel above (pos + (right.numNodes + 1)) := by
  obtain ⟨wired, _, leftCounted, rightCounted⟩ := counted
  have leftCount := avlCount_toNat leftCounted (by omega)
  have rightCount := avlCount_toNat rightCounted (by omega)
  rw [avlOffsetLoop, wired.left, wired.right, wired.parent, leftCount, rightCount,
    avlCount_succ_toNat leftCounted (by omega), avlCount_succ_toNat rightCounted (by omega),
    if_neg (by omega), if_neg (by omega), if_neg (by omega)]
  rfl

theorem avlOffsetLoop_spec {context : List (Frame Ptr)} {node : Ptr}
    {left right : BinaryTree Ptr} {fuel : Nat} {offset pos : Int}
    (counted : Counted mem none (plug context (.node node left right)))
    (distinct : (inorder (plug context (.node node left right))).Nodup)
    (few : (plug context (.node node left right)).numNodes < 2 ^ 32)
    (enough : context.length + (plug context (.node node left right)).height < fuel) :
    avlOffsetLoop mem offset fuel node pos =
      .ok (nodeAtRank (inorder (plug context (.node node left right)))
        ((before context).length + (left.numNodes + (offset - pos)))) := by
  induction context generalizing node left right fuel pos with
  | nil =>
      by_cases inside : 0 ≤ left.numNodes + (offset - pos) ∧
          left.numNodes + (offset - pos) < left.numNodes + right.numNodes + 1
      · exact avlOffsetLoop_focus counted few inside enough
      · obtain ⟨fuel, rfl⟩ : ∃ rest, fuel = rest + 1 := ⟨fuel - 1, by omega⟩
        simp only [plug, BinaryTree.numNodes] at few
        rw [avlOffsetLoop_outside counted few (by omega)]
        simp only [plug, before, List.length_nil]
        rw [nodeAtRank_outside]
        rw [length_inorder, BinaryTree.numNodes]
        omega
  | cons frame rest ih =>
      by_cases inside : 0 ≤ left.numNodes + (offset - pos) ∧
          left.numNodes + (offset - pos) < left.numNodes + right.numNodes + 1
      · exact avlOffsetLoop_focus counted few inside enough
      · obtain ⟨fuel, rfl⟩ : ∃ rest, fuel = rest + 1 := ⟨fuel - 1, by omega⟩
        have size := length_le_numNodes_plug (frame :: rest) (.node node left right)
        simp only [BinaryTree.numNodes] at size
        rw [avlOffsetLoop_outside counted.focus (by omega) (by omega)]
        have apart := frameApart_of_nodup distinct
        have nodeMem : node ∈ inorder (.node node left right) :=
          List.mem_append_right _ List.mem_cons_self
        rw [List.length_cons, plug] at enough
        have whole : Counted mem none (plug rest (frame.put (.node node left right))) :=
          counted
        have above := whole.focus
        cases frame with
        | goneLeft value aside =>
            have notRight : ¬(mem value).right = some node := by
              intro isRight
              rw [above.1.right] at isRight
              exact apart.asideFocus node (rootPtr_mem isRight) nodeMem
            have less : rest.length +
                (plug rest (.node value (.node node left right) aside)).height < fuel :=
              Nat.lt_of_add_lt_add_right (show _ + 1 < fuel + 1 by
                simp only [Frame.put] at enough
                omega)
            have rank : (before rest).length +
                ((BinaryTree.node node left right).numNodes +
                  (offset - (pos + (right.numNodes + 1)))) =
                (before rest).length + (left.numNodes + (offset - pos)) := by
              simp only [BinaryTree.numNodes]
              omega
            simp only [outer, Frame.value, if_neg notRight]
            rw [ih counted distinct few less, rank]
            rfl
        | goneRight aside value =>
            have isRight : (mem value).right = some node := above.1.right
            have less : rest.length +
                (plug rest (.node value aside (.node node left right))).height < fuel :=
              Nat.lt_of_add_lt_add_right (show _ + 1 < fuel + 1 by
                simp only [Frame.put] at enough
                omega)
            have rank : (before rest).length +
                (aside.numNodes + (offset - (pos - (left.numNodes + 1)))) =
                (before (.goneRight aside value :: rest)).length +
                  (left.numNodes + (offset - pos)) := by
              simp only [before, List.length_append, List.length_cons, List.length_nil,
                length_inorder]
              omega
            simp only [outer, Frame.value, if_pos isRight]
            rw [ih counted distinct few less, rank]
            rfl

/-- From the node at index `index` of the in-order sequence, `offset` places on. -/
theorem avlOffset_spec {tree : BinaryTree Ptr} {node : Ptr} {index : Nat} {offset : Int}
    (counted : Counted mem none tree) (distinct : (inorder tree).Nodup)
    (few : tree.numNodes < 2 ^ 32) (found : (inorder tree)[index]? = some node) :
    avlOffset mem node offset = .ok (nodeAtRank (inorder tree) (index + offset)) := by
  have member := List.mem_of_getElem? found
  obtain ⟨context, left, right, rfl⟩ := exists_plug_of_mem member
  have place : (inorder (plug context (.node node left right)))[(before context).length +
      left.numNodes]? = some node := by
    rw [inorder_plug, inorder, List.append_assoc, List.append_assoc,
      List.getElem?_append_right (by omega), Nat.add_sub_cancel_left,
      List.getElem?_append_right (Nat.le_of_eq (length_inorder left)),
      length_inorder, Nat.sub_self]
    rfl
  have inside : index < (inorder (plug context (.node node left right))).length :=
    (List.getElem?_eq_some_iff.mp found).1
  have indexIs : index = (before context).length + left.numNodes :=
    (List.getElem?_inj inside distinct).mp (found.trans place.symm)
  have size := length_le_numNodes_plug context (.node node left right)
  have low := BinaryTree.height_le_numNodes (plug context (.node node left right))
  have enough : context.length + (plug context (.node node left right)).height < avlFuel := by
    unfold avlFuel
    omega
  rw [avlOffset, avlOffsetLoop_spec counted distinct few enough, indexIs]
  congr 2
  omega

end RedisC
