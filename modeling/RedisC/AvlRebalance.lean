/-
`avl_rebalance` is the repair of the tree along the path to the root.

One round of the loop measures the focus, repairs it and writes its root into
the slot of the parent; the invariant is that the subtrees of the focus are
stored, measured and balanced and that everything above is at least linked.
-/

import RedisC.AvlRotate

namespace RedisC

open BalancedTree Fallible

variable {mem : AvlMem} {parent : Option Ptr}

theorem Stores.of_agree {memNew : AvlMem} {tree : BinaryTree Ptr} {result : AvlMem × Ptr}
    (stores : Stores memNew parent tree result)
    (agree : ∀ node, node ∉ inorder tree → memNew node = mem node) :
    Stores mem parent tree result :=
  ⟨stores.root, stores.linked, fun node away =>
    (stores.frame node away).trans (agree node away)⟩

private theorem depth_lt_iff {first second : BinaryTree Ptr} {above : Option Ptr}
    (firstLinked : Linked mem parent first) (secondLinked : Linked mem above second)
    (firstLow : first.height < 200) (secondLow : second.height < 200) :
    avlDepth mem (rootPtr first) < avlDepth mem (rootPtr second) ↔
      first.height < second.height := by
  rw [avlDepth_rootPtr firstLinked, avlDepth_rootPtr secondLinked, UInt32.lt_iff_toNat_lt,
    toNat_ofNat_shallow (by omega), toNat_ofNat_shallow (by omega)]

private theorem depth_eq_add_two_iff {first second : BinaryTree Ptr} {above : Option Ptr}
    (firstLinked : Linked mem parent first) (secondLinked : Linked mem above second)
    (firstLow : first.height < 200) (secondLow : second.height < 200) :
    avlDepth mem (rootPtr first) = avlDepth mem (rootPtr second) + 2 ↔
      first.height = second.height + 2 := by
  rw [avlDepth_rootPtr firstLinked, avlDepth_rootPtr secondLinked, ← UInt32.toNat_inj,
    UInt32.toNat_add, toNat_ofNat_shallow (by omega), toNat_ofNat_shallow (by omega)]
  have two : (2 : UInt32).toNat = 2 := rfl
  rw [two, Nat.mod_eq_of_lt (by omega)]

theorem Stores.below_write {node : Ptr} {tree : BinaryTree Ptr} {result : AvlMem × Ptr}
    (stores : Stores mem parent tree result) (change : AVLNode → AVLNode)
    (away : node ∉ inorder tree) :
    Linked (modify result.1 node change) parent tree :=
  stores.linked.congr fun _ member =>
    modify_ne result.1 change (ne_of_mem_of_not_mem member away)

/-- After the rotation of its left subtree a node is linked to the new root of it. -/
theorem Stores.wired_left {node : Ptr} {tree : BinaryTree Ptr} {result : AvlMem × Ptr}
    {old right : Option Ptr} (stores : Stores mem (some node) tree result)
    (away : node ∉ inorder tree) (wired : Wired mem parent node old right) :
    Wired (setLeft result.1 node (some result.2)) parent node (rootPtr tree) right := by
  have kept := stores.frame node away
  unfold setLeft
  refine ⟨?_, ?_, ?_⟩
  · rw [modify_same, kept]
    exact wired.parent
  · rw [modify_same]
    exact stores.root.symm
  · rw [modify_same, kept]
    exact wired.right

theorem Stores.wired_right {node : Ptr} {tree : BinaryTree Ptr} {result : AvlMem × Ptr}
    {old left : Option Ptr} (stores : Stores mem (some node) tree result)
    (away : node ∉ inorder tree) (wired : Wired mem parent node left old) :
    Wired (setRight result.1 node (some result.2)) parent node left (rootPtr tree) := by
  have kept := stores.frame node away
  unfold setRight
  refine ⟨?_, ?_, ?_⟩
  · rw [modify_same, kept]
    exact wired.parent
  · rw [modify_same, kept]
    exact wired.left
  · rw [modify_same]
    exact stores.root.symm

/-- A subtree beside a stored one is still stored after a write to a node of neither. -/
theorem Stores.beside_write {node : Ptr} {tree beside : BinaryTree Ptr}
    {result : AvlMem × Ptr} {above : Option Ptr}
    (stores : Stores mem parent tree result) (change : AVLNode → AVLNode)
    (linked : Linked mem above beside) (away : node ∉ inorder beside)
    (disjoint : ∀ other ∈ inorder beside, other ∉ inorder tree) :
    Linked (modify result.1 node change) above beside :=
  linked.congr fun other member =>
    (modify_ne result.1 change (ne_of_mem_of_not_mem member away)).trans
      (stores.frame other (disjoint other member))

theorem rotateTwice_right_spec {node pivot top : Ptr} {outside low high right : BinaryTree Ptr}
    (linked : Linked mem parent (.node node (.node pivot outside (.node top low high)) right))
    (distinct :
      (inorder (.node node (.node pivot outside (.node top low high)) right)).Nodup)
    (leftLow : outside.height < 200 ∧ low.height < 200 ∧ high.height < 200)
    (rightLow : right.height < 200) :
    Stores mem parent (.node top (.node pivot outside low) (.node node high right))
      (rotateRight (setLeft (rotateLeft mem pivot).1 node (some (rotateLeft mem pivot).2))
        node) := by
  obtain ⟨wired, _, ⟨pivotWired, _, outsideLinked, topWired, _, lowLinked, highLinked⟩,
    rightLinked⟩ := linked
  have distinctLeft : (inorder (.node pivot outside (.node top low high))).Nodup := by
    rw [inorder] at distinct
    exact distinct.of_append_left
  have first : Stores mem (some node) (.node top (.node pivot outside low) high)
      (rotateLeft mem pivot) := by
    apply rotateLeft_spec pivotWired topWired outsideLinked lowLinked highLinked distinctLeft
    all_goals
      simp only [Shallow, BinaryTree.height]
      omega
  have turned : (inorder (.node node (.node top (.node pivot outside low) high) right)).Nodup := by
    simpa only [inorder, List.append_assoc, List.cons_append] using distinct
  have turnedParts := turned
  rw [inorder, List.nodup_middle, List.nodup_cons, List.mem_append, not_or,
    List.nodup_append] at turnedParts
  obtain ⟨⟨notLeft, notRight⟩, _, _, disjoint⟩ := turnedParts
  have rightNow := first.beside_write (fun fields =>
      { fields with left := some (rotateLeft mem pivot).2 }) rightLinked notRight
    (fun other inRight inLeft => disjoint other inLeft other inRight rfl)
  obtain ⟨topNow, _, lowerNow, highNow⟩ := first.below_write (fun fields =>
      { fields with left := some (rotateLeft mem pivot).2 }) notLeft
  have second := rotateRight_spec (first.wired_left notLeft wired) topNow lowerNow highNow
    rightNow turned (by simp only [Shallow, BinaryTree.height]; omega)
    (by simp only [Shallow]; omega) (by simp only [Shallow]; omega)
    (by simp only [Shallow, BinaryTree.height]; omega)
  refine second.of_agree (fun other away => ?_)
  simp only [inorder, List.mem_append, List.mem_cons, not_or] at away
  have apart : other ≠ node := away.2.2.2.1
  refine (modify_ne _ _ apart).trans (first.frame other ?_)
  simp only [inorder, List.mem_append, List.mem_cons, not_or]
  exact ⟨away.1, away.2.1, away.2.2.1⟩

theorem rotateTwice_left_spec {node pivot top : Ptr} {left low high outside : BinaryTree Ptr}
    (linked : Linked mem parent (.node node left (.node pivot (.node top low high) outside)))
    (distinct :
      (inorder (.node node left (.node pivot (.node top low high) outside))).Nodup)
    (leftLow : left.height < 200)
    (rightLow : outside.height < 200 ∧ low.height < 200 ∧ high.height < 200) :
    Stores mem parent (.node top (.node node left low) (.node pivot high outside))
      (rotateLeft (setRight (rotateRight mem pivot).1 node (some (rotateRight mem pivot).2))
        node) := by
  obtain ⟨wired, _, leftLinked, pivotWired, _, ⟨topWired, _, lowLinked, highLinked⟩,
    outsideLinked⟩ := linked
  have distinctRight : (inorder (.node pivot (.node top low high) outside)).Nodup := by
    rw [inorder] at distinct
    exact distinct.of_append_right.of_cons
  have first : Stores mem (some node) (.node top low (.node pivot high outside))
      (rotateRight mem pivot) := by
    apply rotateRight_spec pivotWired topWired lowLinked highLinked outsideLinked distinctRight
    all_goals
      simp only [Shallow, BinaryTree.height]
      omega
  have turned : (inorder (.node node left (.node top low (.node pivot high outside)))).Nodup := by
    simpa only [inorder, List.append_assoc, List.cons_append] using distinct
  have turnedParts := turned
  rw [inorder, List.nodup_middle, List.nodup_cons, List.mem_append, not_or,
    List.nodup_append] at turnedParts
  obtain ⟨⟨notLeft, notRight⟩, _, _, disjoint⟩ := turnedParts
  have leftNow := first.beside_write (fun fields =>
      { fields with right := some (rotateRight mem pivot).2 }) leftLinked notLeft
    (fun other inLeft inRight => disjoint other inLeft other inRight rfl)
  obtain ⟨topNow, _, lowNow, lowerNow⟩ := first.below_write (fun fields =>
      { fields with right := some (rotateRight mem pivot).2 }) notRight
  have second := rotateLeft_spec (first.wired_right notRight wired) topNow leftNow lowNow
    lowerNow turned (by simp only [Shallow]; omega) (by simp only [Shallow]; omega)
    (by simp only [Shallow, BinaryTree.height]; omega)
    (by simp only [Shallow, BinaryTree.height]; omega)
  refine second.of_agree (fun other away => ?_)
  simp only [inorder, List.mem_append, List.mem_cons, not_or] at away
  have apart : other ≠ node := away.1.2.1
  refine (modify_ne _ _ apart).trans (first.frame other ?_)
  simp only [inorder, List.mem_append, List.mem_cons, not_or]
  exact ⟨away.1.2.2, away.2⟩

theorem avlFixLeft_spec {node : Ptr} {left right : BinaryTree Ptr}
    (linked : Linked mem parent (.node node left right))
    (distinct : (inorder (.node node left right)).Nodup)
    (leftLow : left.height < 200) (rightLow : right.height < 200)
    (deep : left.height = right.height + 2) :
    Meets (fun _ => False) (Stores mem parent (fixLeft node left right))
      (avlFixLeft mem node) := by
  cases left with
  | nil =>
      simp only [BinaryTree.height] at deep
      omega
  | node pivot outside middle =>
      have ⟨wired, _, ⟨pivotWired, _, outsideLinked, middleLinked⟩, rightLinked⟩ := linked
      simp only [BinaryTree.height] at leftLow
      have order := depth_lt_iff outsideLinked middleLinked (by omega) (by omega)
      have leftIs : (mem node).left = some pivot := wired.left
      unfold avlFixLeft
      simp only [leftIs, pivotWired.left, pivotWired.right, order]
      by_cases zigzag : outside.height < middle.height
      · rw [if_pos zigzag, meets_ok, fixLeft, leanLeft, if_pos zigzag]
        cases middle with
        | nil =>
            simp only [BinaryTree.height] at zigzag
            omega
        | node top low high =>
            simp only [BinaryTree.height] at leftLow
            exact rotateTwice_right_spec linked distinct
              ⟨by omega, by omega, by omega⟩ rightLow
      · rw [if_neg zigzag, meets_ok, fixLeft, leanLeft, if_neg zigzag]
        apply rotateRight_spec wired pivotWired outsideLinked middleLinked rightLinked distinct
        all_goals
          simp only [Shallow, BinaryTree.height]
          omega

theorem avlFixRight_spec {node : Ptr} {left right : BinaryTree Ptr}
    (linked : Linked mem parent (.node node left right))
    (distinct : (inorder (.node node left right)).Nodup)
    (leftLow : left.height < 200) (rightLow : right.height < 200)
    (deep : left.height + 2 = right.height) :
    Meets (fun _ => False) (Stores mem parent (fixRight node left right))
      (avlFixRight mem node) := by
  cases right with
  | nil =>
      simp only [BinaryTree.height] at deep
      omega
  | node pivot middle outside =>
      have ⟨wired, _, leftLinked, pivotWired, _, middleLinked, outsideLinked⟩ := linked
      simp only [BinaryTree.height] at rightLow
      have order := depth_lt_iff outsideLinked middleLinked (by omega) (by omega)
      have rightIs : (mem node).right = some pivot := wired.right
      unfold avlFixRight
      simp only [rightIs, pivotWired.left, pivotWired.right, order]
      by_cases zigzag : outside.height < middle.height
      · rw [if_pos zigzag, meets_ok, fixRight, leanRight, if_pos zigzag]
        cases middle with
        | nil =>
            simp only [BinaryTree.height] at zigzag
            omega
        | node top low high =>
            simp only [BinaryTree.height] at rightLow
            exact rotateTwice_left_spec linked distinct leftLow
              ⟨by omega, by omega, by omega⟩
      · rw [if_neg zigzag, meets_ok, fixRight, leanRight, if_neg zigzag]
        apply rotateLeft_spec wired pivotWired leftLinked middleLinked outsideLinked distinct
        all_goals
          simp only [Shallow, BinaryTree.height]
          omega

/-- The choice of the repair, made on the `depth` fields, is the one made on heights. -/
theorem avlFix_spec {node : Ptr} {left right : BinaryTree Ptr}
    (linked : Linked mem parent (.node node left right))
    (distinct : (inorder (.node node left right)).Nodup)
    (leftLow : left.height < 200) (rightLow : right.height < 200) :
    Meets (fun _ => False) (Stores mem parent (fix node left right)) (avlFix mem node) := by
  have ⟨wired, _, leftLinked, rightLinked⟩ := linked
  have leftDeep := depth_eq_add_two_iff leftLinked rightLinked leftLow rightLow
  have rightDeep := depth_eq_add_two_iff rightLinked leftLinked rightLow leftLow
  unfold avlFix fix
  simp only [wired.left, wired.right, leftDeep, eq_comm (a := _ + (2 : UInt32)), rightDeep,
    eq_comm (a := left.height + 2)]
  split
  · rename_i deep
    exact avlFixLeft_spec linked distinct leftLow rightLow deep
  · split
    · rename_i deep
      exact avlFixRight_spec linked distinct leftLow rightLow deep.symm
    · exact ⟨rfl, linked, fun _ _ => rfl⟩

/-! ### The loop -/

structure FrameApart (value : Ptr) (focus aside : BinaryTree Ptr) (rest : List Ptr) : Prop where
  valueFocus : value ∉ inorder focus
  valueAside : value ∉ inorder aside
  valueRest : value ∉ rest
  asideFocus : ∀ other ∈ inorder aside, other ∉ inorder focus
  restFocus : ∀ other ∈ rest, other ∉ inorder focus
  focus : (inorder focus).Nodup
  aside : (inorder aside).Nodup

theorem frameApart_of_nodup {frame : Frame Ptr} {rest : List (Frame Ptr)}
    {focus : BinaryTree Ptr} (distinct : (inorder (plug (frame :: rest) focus)).Nodup) :
    FrameApart frame.value focus frame.aside (pathNodes rest) := by
  rw [inorder_plug] at distinct
  cases frame with
  | goneLeft value right =>
      simp only [before, after, pathNodes, Frame.value, Frame.aside, List.nodup_append,
        List.nodup_cons, List.mem_append, List.mem_cons, List.cons_append] at distinct ⊢
      constructor <;> grind
  | goneRight left value =>
      simp only [before, after, pathNodes, Frame.value, Frame.aside, List.nodup_append,
        List.nodup_cons, List.mem_append, List.mem_cons] at distinct ⊢
      constructor <;> grind

theorem mem_plug_iff {context : List (Frame Ptr)} {tree : BinaryTree Ptr} {node : Ptr} :
    node ∈ inorder (plug context tree) ↔ node ∈ inorder tree ∨ node ∈ pathNodes context := by
  rw [inorder_plug, pathNodes, List.mem_append, List.mem_append, List.mem_append]
  tauto

theorem not_mem_focus_of_nodup {context : List (Frame Ptr)} {focus : BinaryTree Ptr}
    (distinct : (inorder (plug context focus)).Nodup) :
    ∀ other ∈ pathNodes context, other ∉ inorder focus := by
  intro other onPath inside
  rw [inorder_plug, List.nodup_append, List.nodup_append] at distinct
  obtain ⟨⟨_, _, beforeApart⟩, _, afterApart⟩ := distinct
  rcases List.mem_append.mp onPath with isBefore | isAfter
  · exact beforeApart other isBefore other inside rfl
  · exact afterApart other (List.mem_append_right _ inside) other isAfter rfl

theorem avlUpdate_fix_spec {node : Ptr} {left right : BinaryTree Ptr}
    (wired : Wired mem parent node (rootPtr left) (rootPtr right))
    (leftLinked : Linked mem (some node) left) (rightLinked : Linked mem (some node) right)
    (distinct : (inorder (.node node left right)).Nodup)
    (leftBalanced : Balanced left) (rightBalanced : Balanced right) :
    (avlUpdate mem node node).parent = parent ∧
      Meets (fun _ => False) (Stores mem parent (fix node left right))
        (avlFix (avlUpdate mem node) node) := by
  have parts := distinct
  rw [inorder, List.nodup_middle, List.nodup_cons, List.mem_append, not_or,
    List.nodup_append] at parts
  obtain ⟨⟨notLeft, notRight⟩, distinctLeft, distinctRight, _⟩ := parts
  have leftLow := height_lt_of_balanced leftBalanced distinctLeft
  have rightLow := height_lt_of_balanced rightBalanced distinctRight
  have measured := avlUpdate_linked wired leftLinked rightLinked notLeft notRight
    (by unfold Shallow; omega) (by unfold Shallow; omega)
  refine ⟨measured.1.parent, (avlFix_spec measured distinct (by omega) (by omega)).mono ?_⟩
  intro result stores
  refine stores.of_agree (fun other away => avlUpdate_ne ?_)
  intro same
  subst same
  rw [inorder_fix] at away
  exact away (List.mem_append_right _ List.mem_cons_self)

theorem Stores.parent_of_root {node : Ptr} {tree : BinaryTree Ptr} {result : AvlMem × Ptr}
    (stores : Stores mem parent tree result) (change : AVLNode → AVLNode)
    (away : node ∉ inorder tree) :
    (modify result.1 node change result.2).parent = parent := by
  have linked := stores.below_write change away
  have root := stores.root
  cases tree with
  | nil => cases root
  | node value left right =>
      cases root
      exact linked.1.parent

structure WrittenBack (mem : AvlMem) (frame : Frame Ptr) (rest : List (Frame Ptr))
    (tree : BinaryTree Ptr) (after : AvlMem) (root : Ptr) : Prop where
  parent : (after root).parent = some frame.value
  below : Linked after (some frame.value) tree
  beside : Linked mem (some frame.value) frame.aside →
    Linked after (some frame.value) frame.aside
  path : ∀ other ∈ pathNodes rest, after other = mem other
  elsewhere : ∀ other, other ∉ inorder tree → other ∉ pathNodes (frame :: rest) →
    after other = mem other

theorem Stores.writtenBack {frame : Frame Ptr} {rest : List (Frame Ptr)}
    {focus tree : BinaryTree Ptr} {result : AvlMem × Ptr}
    (stores : Stores mem (some frame.value) tree result)
    (apart : FrameApart frame.value focus frame.aside (pathNodes rest))
    (sameNodes : inorder tree = inorder focus) (change : AVLNode → AVLNode) :
    WrittenBack mem frame rest tree (modify result.1 frame.value change) result.2 := by
  have away : frame.value ∉ inorder tree := by
    rw [sameNodes]
    exact apart.valueFocus
  have kept : ∀ other, other ≠ frame.value → other ∉ inorder tree →
      modify result.1 frame.value change other = mem other :=
    fun other notValue outside =>
      (modify_ne result.1 change notValue).trans (stores.frame other outside)
  refine ⟨stores.parent_of_root change away, stores.below_write change away, ?_, ?_, ?_⟩
  · intro asideLinked
    apply stores.beside_write change asideLinked apart.valueAside
    rw [sameNodes]
    exact apart.asideFocus
  · intro other member
    apply kept other
    · intro same
      subst same
      exact apart.valueRest member
    · rw [sameNodes]
      exact apart.restFocus other member
  · intro other outside offPath
    apply kept other _ outside
    intro same
    subst same
    exact offPath (frame_value_mem frame rest)

/-- `avl_rebalance` climbs: the loop returns the root of the repaired tree. -/
theorem avlRebalance_spec {context : List (Frame Ptr)} {node : Ptr}
    {left right : BinaryTree Ptr} {old fuel : Nat}
    (wired : Wired mem (outer context) node (rootPtr left) (rootPtr right))
    (leftLinked : Linked mem (some node) left) (rightLinked : Linked mem (some node) right)
    (path : PathLinked mem context (some node))
    (distinct : (inorder (plug context (.node node left right))).Nodup)
    (leftBalanced : Balanced left) (rightBalanced : Balanced right)
    (leftClose : left.height ≤ right.height + 2)
    (rightClose : right.height ≤ left.height + 2)
    (contextBalanced : ContextBalanced context old)
    (low : old ≤ (fix node left right).height + 1)
    (high : (fix node left right).height ≤ old + 1)
    (enough : context.length < fuel) :
    Meets (fun _ => False) (Stores mem none (climb context node left right))
      (avlRebalance fuel mem node) := by
  induction context generalizing mem node left right old fuel with
  | nil =>
      obtain ⟨fuel, rfl⟩ : ∃ rest, fuel = rest + 1 := ⟨fuel - 1, by simp at enough; omega⟩
      obtain ⟨parentIs, fixed⟩ := avlUpdate_fix_spec wired leftLinked rightLinked distinct
        leftBalanced rightBalanced
      have noParent : (avlUpdate mem node node).parent = none := parentIs
      simp only [avlRebalance, noParent]
      exact fixed
  | cons frame rest ih =>
      rw [List.length_cons] at enough
      obtain ⟨fuel, rfl⟩ : ∃ rest, fuel = rest + 1 := ⟨fuel - 1, by omega⟩
      have apart := frameApart_of_nodup distinct
      obtain ⟨parentIs, fixed⟩ := avlUpdate_fix_spec wired leftLinked rightLinked apart.focus
        leftBalanced rightBalanced
      have fixedBalanced := (fix_balanced node leftBalanced rightBalanced
        leftClose rightClose).1
      have nodeMem : node ∈ inorder (.node node left right) :=
        List.mem_append_right _ List.mem_cons_self
      have unmeasured : avlUpdate mem node frame.value = mem frame.value := by
        apply avlUpdate_ne
        intro same
        subst same
        exact apart.valueFocus nodeMem
      have sameNodes := inorder_fix node left right
      have away : frame.value ∉ inorder (fix node left right) := by
        rw [sameNodes]
        exact apart.valueFocus
      have parentSome : (avlUpdate mem node node).parent = some frame.value := parentIs
      obtain ⟨asideLow, focusLow, asideBalanced, restBalanced⟩ := contextBalanced
      simp only [avlRebalance, parentSome, unmeasured]
      refine fixed.bind ?_
      intro result stores
      rcases result with ⟨memFixed, root⟩
      have written := stores.writtenBack apart sameNodes
      have elsewhere : ∀ change : AVLNode → AVLNode, ∀ other,
          other ∉ inorder (climb (frame :: rest) node left right) →
          modify memFixed frame.value change other = mem other := by
        intro change other outside
        rw [inorder_climb, mem_plug_iff, not_or, ← sameNodes] at outside
        exact (written change).elsewhere other outside.1 outside.2
      cases frame with
      | goneLeft value aside =>
          obtain ⟨valueWired, asideLinked, restPath⟩ := path
          have isLeft : (mem (Frame.goneLeft value aside).value).left = some node :=
            valueWired.left
          rw [if_pos isLeft]
          have next : (setLeft memFixed value (some root) root).parent = some value :=
            (written _).parent
          have valueNow : Wired (setLeft memFixed value (some root)) (outer rest) value
              (rootPtr (fix node left right)) (rootPtr aside) :=
            stores.wired_left away valueWired
          simp only [Frame.aside] at asideLow focusLow asideBalanced restBalanced
          obtain ⟨_, upper, lower, exactly⟩ := fix_balanced value fixedBalanced asideBalanced
            (by omega) (by omega)
          have climbed := ih valueNow (written _).below ((written _).beside asideLinked)
            (restPath.congr (written _).path)
            (by simpa only [plug, Frame.put, inorder_plug, inorder, sameNodes] using distinct)
            fixedBalanced asideBalanced (by omega) (by omega) restBalanced (by omega)
            (by omega) (show rest.length < fuel by omega)
          simp only [Frame.value, next]
          exact climbed.mono (fun result above => above.of_agree (elsewhere _))
      | goneRight aside value =>
          obtain ⟨valueWired, asideLinked, restPath⟩ := path
          have isRight : ¬(mem (Frame.goneRight aside value).value).left = some node := by
            intro isLeft
            have rootIs : rootPtr aside = some node := valueWired.left.symm.trans isLeft
            exact apart.asideFocus node (rootPtr_mem rootIs) nodeMem
          rw [if_neg isRight]
          have next : (setRight memFixed value (some root) root).parent = some value :=
            (written _).parent
          have valueNow : Wired (setRight memFixed value (some root)) (outer rest) value
              (rootPtr aside) (rootPtr (fix node left right)) :=
            stores.wired_right away valueWired
          simp only [Frame.aside] at asideLow focusLow asideBalanced restBalanced
          obtain ⟨_, upper, lower, exactly⟩ := fix_balanced value asideBalanced fixedBalanced
            (by omega) (by omega)
          have climbed := ih valueNow ((written _).beside asideLinked) (written _).below
            (restPath.congr (written _).path)
            (by simpa only [plug, Frame.put, inorder_plug, inorder, sameNodes] using distinct)
            asideBalanced fixedBalanced (by omega) (by omega) restBalanced (by omega)
            (by omega) (show rest.length < fuel by omega)
          simp only [Frame.value, next]
          exact climbed.mono (fun result above => above.of_agree (elsewhere _))

end RedisC
