/-
What `avl.h` promises, for every tree and every node.

A deletion takes one node out of the in-order sequence and an insertion puts one
node next to the node whose slot it takes; the result is a balanced tree with
right links and right fields.  `avl_offset` is rank arithmetic.  The source
computes it in `int64_t`, which gives the same as the integers: the position is
the distance of two nodes of one tree, and there are fewer than `2 ^ 32` nodes.
-/

import RedisC.AvlOffset

namespace RedisC

open BalancedTree Fallible

variable {mem : AvlMem} {root : Option Ptr} {nodes : List Ptr} {node : Ptr}

/-! ### Deletion -/

def threeNodes : AvlMem := fun address =>
  if address = 2 then { depth := 2, count := 3, left := some 1, right := some 3 }
  else { depth := 1, count := 1, parent := some 2 }

private theorem threeNodes_stored : AvlTree threeNodes (some 2) [1, 2, 3] := by
  refine ⟨.node 2 (.node 1 .nil .nil) (.node 3 .nil .nil), rfl, ?_, ?_, rfl⟩
  · exact ⟨⟨rfl, rfl, rfl⟩, ⟨rfl, rfl⟩, ⟨⟨rfl, rfl, rfl⟩, ⟨rfl, rfl⟩, trivial, trivial⟩,
      ⟨rfl, rfl, rfl⟩, ⟨rfl, rfl⟩, trivial, trivial⟩
  · simp [BalancedTree.Balanced]

theorem avlDelete_removes (stored : AvlTree mem root nodes) (distinct : nodes.Nodup)
    (member : node ∈ nodes) :
    ∃ memNew rootNew, avlDelete avlFuel mem node = .ok (memNew, rootNew) ∧
      AvlTree memNew rootNew (nodes.erase node) ∧
      (nodes = [node] → rootNew = none) ∧
      ∀ other, other ∉ nodes → memNew other = mem other := by
  obtain ⟨front, back, -, rfl, remaining⟩ := List.exists_erase_eq member
  obtain ⟨⟨memNew, rootNew⟩, returned, reshaped⟩ := (stored.delete distinct).returns
  refine ⟨memNew, rootNew, returned, ?_, ?_, reshaped.frame⟩
  · rw [remaining]
    exact reshaped.tree
  · intro alone
    have gone : front ++ back = [] := by
      rw [← remaining, alone, List.erase_cons_head]
    have empty := reshaped.tree
    rw [gone] at empty
    exact empty.root_eq_none

theorem avlDelete_removes_root :
    AvlTree threeNodes (some 2) [1, 2, 3] ∧
      ∃ memNew rootNew, avlDelete avlFuel threeNodes 2 = .ok (memNew, rootNew) ∧
        AvlTree memNew rootNew [1, 3] := by
  obtain ⟨memNew, rootNew, returned, tree, _⟩ :=
    avlDelete_removes threeNodes_stored (by decide) (show 2 ∈ _ by decide)
  exact ⟨threeNodes_stored, memNew, rootNew, returned, tree⟩

/-! ### Insertion -/

theorem avlRebalance_hung (frame : Frame Ptr) (rest : List (Frame Ptr))
    (linked : Linked mem none (plug (frame :: rest) .nil))
    (balanced : BalancedTree.Balanced (plug (frame :: rest) (.nil : BinaryTree Ptr)))
    (distinct : (inorder (plug (frame :: rest) .nil)).Nodup)
    (fresh : node ∉ inorder (plug (frame :: rest) .nil)) :
    ∃ memNew rootNew,
      avlRebalance avlFuel
        (setParent (setChild (avlInit mem node) frame (some node)) node (some frame.value))
        node = .ok (memNew, rootNew) ∧
      AvlTree memNew (some rootNew)
        (before (frame :: rest) ++ node :: after (frame :: rest)) := by
  have nodesAre : inorder (plug (frame :: rest) .nil) =
      before (frame :: rest) ++ after (frame :: rest) := by
    rw [inorder_plug, inorder, List.append_nil]
  have apart : ∀ other ∈ inorder (plug (frame :: rest) .nil),
      avlInit mem node other = mem other := by
    intro other member
    apply avlInit_ne
    intro same
    rw [same] at member
    exact fresh member
  have leaf : Wired (avlInit mem node) none node none none := by
    constructor <;> rw [avlInit_same]
  obtain ⟨hung, path⟩ := hang_spec (linked.congr apart) distinct fresh leaf
  have placed : (before (frame :: rest) ++ node :: after (frame :: rest)).Nodup := by
    rw [List.nodup_middle, List.nodup_cons, ← nodesAre]
    exact ⟨fresh, distinct⟩
  obtain ⟨⟨memNew, rootNew⟩, returned, reshaped⟩ :=
    (avlRebalance_insert hung path placed balanced).returns
  exact ⟨memNew, rootNew, returned, reshaped.tree⟩

theorem eq_nil_of_rootPtr {tree : BinaryTree Ptr} (empty : rootPtr tree = none) : tree = .nil := by
  cases tree with
  | nil => rfl
  | node value left right => cases empty

theorem avlRebalance_inserts {above : Ptr} {front back : List Ptr}
    (stored : AvlTree mem root (front ++ above :: back))
    (distinct : (front ++ above :: back).Nodup) (fresh : node ∉ front ++ above :: back) :
    ((mem above).left = none → ∃ memNew rootNew,
      avlRebalance avlFuel
        (setParent (setLeft (avlInit mem node) above (some node)) node (some above)) node =
          .ok (memNew, rootNew) ∧
      AvlTree memNew (some rootNew) (front ++ node :: above :: back)) ∧
    ((mem above).right = none → ∃ memNew rootNew,
      avlRebalance avlFuel
        (setParent (setRight (avlInit mem node) above (some node)) node (some above)) node =
          .ok (memNew, rootNew) ∧
      AvlTree memNew (some rootNew) (front ++ above :: node :: back)) := by
  obtain ⟨tree, _, linked, balanced, nodesAre⟩ := stored
  have member : above ∈ inorder tree := by
    rw [nodesAre]
    exact List.mem_append_right _ List.mem_cons_self
  obtain ⟨context, left, right, rfl⟩ := exists_plug_of_mem member
  have apart := distinct
  rw [List.nodup_middle, List.nodup_cons, List.mem_append, not_or] at apart
  obtain ⟨frontIs, backIs⟩ := sides_of_inorder_eq nodesAre apart.1.1 apart.1.2
  rw [← nodesAre] at distinct fresh
  obtain ⟨⟨wired, _⟩, _, _⟩ := linked_plug_iff.mp linked
  constructor
  · intro vacant
    rw [wired.left] at vacant
    have leftIs := eq_nil_of_rootPtr vacant
    subst leftIs
    obtain ⟨memNew, rootNew, returned, tree⟩ :=
      avlRebalance_hung (.goneLeft above right) context linked balanced distinct fresh
    refine ⟨memNew, rootNew, returned, ?_⟩
    rw [← frontIs, ← backIs]
    simp only [before, after, inorder, List.append_nil, List.cons_append] at tree ⊢
    exact tree
  · intro vacant
    rw [wired.right] at vacant
    have rightIs := eq_nil_of_rootPtr vacant
    subst rightIs
    obtain ⟨memNew, rootNew, returned, tree⟩ :=
      avlRebalance_hung (.goneRight left above) context linked balanced distinct fresh
    refine ⟨memNew, rootNew, returned, ?_⟩
    rw [← frontIs, ← backIs]
    simp only [before, after, inorder, List.append_assoc, List.nil_append, List.cons_append]
      at tree ⊢
    exact tree

theorem avlRebalance_inserts_last :
    AvlTree threeNodes (some 2) [1, 2, 3] ∧ (threeNodes 3).right = none ∧
      ∃ memNew rootNew,
        avlRebalance avlFuel
          (setParent (setRight (avlInit threeNodes 4) 3 (some 4)) 4 (some 3)) 4 =
            .ok (memNew, rootNew) ∧
        AvlTree memNew (some rootNew) [1, 2, 3, 4] := by
  have stored : AvlTree threeNodes (some 2) ([1, 2] ++ 3 :: []) := threeNodes_stored
  have fresh : (4 : Ptr) ∉ [1, 2] ++ 3 :: [] := by decide
  obtain ⟨_, atRight⟩ := avlRebalance_inserts stored (by decide) fresh
  obtain ⟨memNew, rootNew, returned, tree⟩ := atRight rfl
  exact ⟨threeNodes_stored, rfl, memNew, rootNew, returned, tree⟩

/-! ### Offsets in `int64_t` -/

theorem toInt_widen (value : UInt32) : (widen value).toInt = value.toNat := by
  have small := value.toNat_lt
  exact Int64.toInt_ofNat_of_lt (by omega)

private theorem toInt_add_widen {pos : Int64} (low : -2 ^ 33 ≤ pos.toInt)
    (high : pos.toInt ≤ 2 ^ 33)
    (value : UInt32) : (pos + widen value).toInt = pos.toInt + value.toNat := by
  have small := value.toNat_lt
  rw [Int64.toInt_add, toInt_widen]
  exact Int.bmod_eq_of_le (by omega) (by omega)

theorem toInt_sub_widen {pos : Int64} (low : -2 ^ 33 ≤ pos.toInt) (high : pos.toInt ≤ 2 ^ 33)
    (value : UInt32) : (pos - widen value).toInt = pos.toInt - value.toNat := by
  have small := value.toNat_lt
  rw [Int64.toInt_sub, toInt_widen]
  exact Int.bmod_eq_of_le (by omega) (by omega)

/-- Where the walk is: at a node of the tree, `pos` places after the start. -/
def OnWalk (tree : BinaryTree Ptr) (start : Nat) (node : Ptr) (pos : Int) : Prop :=
  ∃ context left right, tree = plug context (.node node left right) ∧
    pos = ((before context).length + left.numNodes : Int) - start

section Walk

variable {tree : BinaryTree Ptr} {start : Nat} {pos : Int}

theorem OnWalk.bounded (onWalk : OnWalk tree start node pos) (few : tree.numNodes < 2 ^ 32)
    (inside : start < tree.numNodes) : -2 ^ 33 ≤ pos ∧ pos ≤ 2 ^ 33 := by
  obtain ⟨context, left, right, rfl, posIs⟩ := onWalk
  have total := length_inorder (plug context (.node node left right))
  rw [inorder_plug, inorder] at total
  simp only [List.length_append, List.length_cons, length_inorder] at total
  omega

theorem OnWalk.goRight (onWalk : OnWalk tree start node pos) (counted : Counted mem none tree)
    (few : tree.numNodes < 2 ^ 32) {next : Ptr} (isRight : (mem node).right = some next) :
    OnWalk tree start next (pos + (avlCount mem (mem next).left + 1).toNat) := by
  obtain ⟨context, left, right, rfl, posIs⟩ := onWalk
  have size := length_le_numNodes_plug context (.node node left right)
  obtain ⟨wired, _, _, rightCounted⟩ := counted.focus
  rw [wired.right] at isRight
  cases right with
  | nil => cases isRight
  | node value lower upper =>
      cases isRight
      obtain ⟨nextWired, _, lowerCounted, _⟩ := rightCounted
      simp only [BinaryTree.numNodes] at size
      refine ⟨.goneRight left node :: context, lower, upper, rfl, ?_⟩
      rw [nextWired.left, avlCount_succ_toNat lowerCounted (by omega)]
      simp only [before, List.length_append, List.length_cons, List.length_nil, length_inorder]
      omega

theorem OnWalk.goLeft (onWalk : OnWalk tree start node pos) (counted : Counted mem none tree)
    (few : tree.numNodes < 2 ^ 32) {next : Ptr} (isLeft : (mem node).left = some next) :
    OnWalk tree start next (pos - (avlCount mem (mem next).right + 1).toNat) := by
  obtain ⟨context, left, right, rfl, posIs⟩ := onWalk
  have size := length_le_numNodes_plug context (.node node left right)
  obtain ⟨wired, _, leftCounted, _⟩ := counted.focus
  rw [wired.left] at isLeft
  cases left with
  | nil => cases isLeft
  | node value lower upper =>
      cases isLeft
      obtain ⟨nextWired, _, _, upperCounted⟩ := leftCounted
      simp only [BinaryTree.numNodes] at size posIs
      refine ⟨.goneLeft node right :: context, lower, upper, rfl, ?_⟩
      rw [nextWired.right, avlCount_succ_toNat upperCounted (by omega)]
      simp only [before]
      omega

theorem OnWalk.goUp (onWalk : OnWalk tree start node pos) (counted : Counted mem none tree)
    (distinct : (inorder tree).Nodup) (few : tree.numNodes < 2 ^ 32) {above : Ptr}
    (isParent : (mem node).parent = some above) :
    OnWalk tree start above
      (if (mem above).right = some node then pos - (avlCount mem (mem node).left + 1).toNat
      else pos + (avlCount mem (mem node).right + 1).toNat) := by
  obtain ⟨context, left, right, rfl, posIs⟩ := onWalk
  have size := length_le_numNodes_plug context (.node node left right)
  simp only [BinaryTree.numNodes] at size
  obtain ⟨wired, _, leftCounted, rightCounted⟩ := counted.focus
  rw [wired.parent] at isParent
  rw [wired.left, wired.right, avlCount_succ_toNat leftCounted (by omega),
    avlCount_succ_toNat rightCounted (by omega)]
  cases context with
  | nil => cases isParent
  | cons frame rest =>
      cases isParent
      have whole : Counted mem none (plug rest (frame.put (.node node left right))) := counted
      have aboveCounted := whole.focus
      have apart := frameApart_of_nodup distinct
      have nodeMem : node ∈ inorder (.node node left right) :=
        List.mem_append_right _ List.mem_cons_self
      cases frame with
      | goneLeft value aside =>
          have notRight : ¬(mem value).right = some node := by
            intro isRight
            rw [aboveCounted.1.right] at isRight
            exact apart.asideFocus node (rootPtr_mem isRight) nodeMem
          change OnWalk _ _ value (if (mem value).right = some node then _ else _)
          rw [if_neg notRight]
          refine ⟨rest, .node node left right, aside, rfl, ?_⟩
          simp only [before, BinaryTree.numNodes] at posIs ⊢
          omega
      | goneRight aside value =>
          have isRight : (mem value).right = some node := aboveCounted.1.right
          change OnWalk _ _ value (if (mem value).right = some node then _ else _)
          rw [if_pos isRight]
          refine ⟨rest, aside, .node node left right, rfl, ?_⟩
          simp only [before, List.length_append, List.length_cons, List.length_nil,
            length_inorder] at posIs
          omega

private theorem avlOffsetLoop64_eq (counted : Counted mem none tree)
    (distinct : (inorder tree).Nodup)
    (few : tree.numNodes < 2 ^ 32) (inside : start < tree.numNodes) (offset : Int64)
    (fuel : Nat) {place : Int64} (onWalk : OnWalk tree start node place.toInt) :
    avlOffsetLoop64 mem offset fuel node place =
      avlOffsetLoop mem offset.toInt fuel node place.toInt := by
  induction fuel generalizing node place with
  | zero => rfl
  | succ fuel ih =>
      obtain ⟨low, high⟩ := onWalk.bounded few inside
      have add := toInt_add_widen low high
      have sub := toInt_sub_widen low high
      rw [avlOffsetLoop64, avlOffsetLoop]
      simp only [← Int64.toInt_inj, gt_iff_lt, ge_iff_le, Int64.lt_iff_toInt_lt,
        Int64.le_iff_toInt_le, add, sub]
      split
      · rfl
      · split
        · cases isRight : (mem node).right with
          | none => rfl
          | some next =>
              have there := onWalk.goRight counted few isRight
              rw [← add] at there
              simp only [ih there, add]
        · split
          · cases isLeft : (mem node).left with
            | none => rfl
            | some next =>
                have there := onWalk.goLeft counted few isLeft
                rw [← sub] at there
                simp only [ih there, sub]
          · cases isParent : (mem node).parent with
            | none => rfl
            | some above =>
                have there := onWalk.goUp counted distinct few isParent
                simp only
                split
                · rename_i isRight
                  rw [if_pos isRight, ← sub] at there
                  rw [ih there, sub]
                · rename_i notRight
                  rw [if_neg notRight, ← add] at there
                  rw [ih there, add]

theorem avlOffset64_eq (counted : Counted mem none tree) (distinct : (inorder tree).Nodup)
    (few : tree.numNodes < 2 ^ 32) (member : node ∈ inorder tree) (offset : Int64) :
    avlOffset64 mem node offset = avlOffset mem node offset.toInt := by
  obtain ⟨context, left, right, rfl⟩ := exists_plug_of_mem member
  have size := length_le_numNodes_plug context (.node node left right)
  have total := length_inorder (plug context (.node node left right))
  rw [inorder_plug, inorder] at total
  simp only [List.length_append, List.length_cons, length_inorder] at total
  have here : OnWalk (plug context (.node node left right))
      ((before context).length + left.numNodes) node (0 : Int64).toInt := by
    refine ⟨context, left, right, rfl, ?_⟩
    rw [Int64.toInt_zero]
    omega
  exact avlOffsetLoop64_eq counted distinct few (by omega) offset avlFuel here

end Walk

/-- Every offset, also one far outside the tree, from the node at `index`. -/
theorem avlOffset64_is_rank {tree : BinaryTree Ptr} {index : Nat}
    (counted : Counted mem none tree) (distinct : (inorder tree).Nodup)
    (few : tree.numNodes < 2 ^ 32) (found : (inorder tree)[index]? = some node)
    (offset : Int64) :
    avlOffset64 mem node offset =
      .ok (if 0 ≤ (index : Int) + offset.toInt ∧ (index : Int) + offset.toInt < tree.numNodes
        then (inorder tree)[((index : Int) + offset.toInt).toNat]? else none) := by
  rw [avlOffset64_eq counted distinct few (List.mem_of_getElem? found) offset,
    avlOffset_spec counted distinct few found]
  unfold nodeAtRank
  rw [← length_inorder]
  split
  · rename_i positive
    split
    · rfl
    · rename_i outside
      rw [List.getElem?_eq_none (by omega)]
  · rename_i negative
    rw [if_neg (by omega)]

theorem avlOffset64_is_rank_past_the_end :
    avlOffset64 threeNodes 1 2 = .ok (some 3) ∧
      avlOffset64 threeNodes 1 9223372036854775807 = .ok none := by
  obtain ⟨tree, _, linked, _, nodesAre⟩ := threeNodes_stored
  have distinct : (inorder tree).Nodup := by
    rw [nodesAre]
    decide
  have three : tree.numNodes = 3 := by
    rw [← length_inorder, nodesAre]
    rfl
  have found : (inorder tree)[0]? = some 1 := by
    rw [nodesAre]
    rfl
  have few : tree.numNodes < 2 ^ 32 := by
    rw [three]
    decide
  have rank := avlOffset64_is_rank linked.counted distinct few found
  rw [three, nodesAre] at rank
  exact ⟨(rank 2).trans rfl, (rank 9223372036854775807).trans rfl⟩

end RedisC
