/-
Insertion into a vacant slot and `avl_delete`, for every tree and every node.

Both change one slot of the path and rebalance from there.  A node with a right
subtree is deleted by deleting its successor, which then takes over the links of
the node; on the tree this renames the node in place.
-/

import RedisC.AvlRebalance

namespace RedisC

open BalancedTree Fallible

variable {mem : AvlMem} {parent : Option Ptr}

/-- `nodes`, in this order, are the nodes of a balanced tree stored below `root`. -/
def AvlTree (mem : AvlMem) (root : Option Ptr) (nodes : List Ptr) : Prop :=
  ∃ tree, rootPtr tree = root ∧ Linked mem none tree ∧ Balanced tree ∧ inorder tree = nodes

/-- The tree now holds `new`, and nothing outside `old` was written. -/
structure Reshaped (mem : AvlMem) (old new : List Ptr) (memNew : AvlMem)
    (root : Option Ptr) : Prop where
  tree : AvlTree memNew root new
  frame : ∀ node, node ∉ old → memNew node = mem node

theorem AvlTree.eq_nil {nodes : List Ptr} (stored : AvlTree mem none nodes) : nodes = [] := by
  obtain ⟨tree, root, _, _, rfl⟩ := stored
  cases tree with
  | nil => rfl
  | node value left right => cases root

theorem AvlTree.root_eq_none {root : Option Ptr} (stored : AvlTree mem root []) : root = none := by
  obtain ⟨tree, rootIs, _, _, empty⟩ := stored
  cases tree with
  | nil => exact rootIs.symm
  | node value left right =>
      rw [inorder] at empty
      exact absurd empty (List.append_ne_nil_of_right_ne_nil _ (List.cons_ne_nil _ _))

theorem Stores.reshaped {tree : BinaryTree Ptr} {nodes : List Ptr} {result : AvlMem × Ptr}
    (stores : Stores mem none tree result) (balanced : Balanced tree)
    (same : inorder tree = nodes) : Reshaped mem nodes nodes result.1 (some result.2) := by
  refine ⟨⟨tree, stores.root, stores.linked, balanced, same⟩, ?_⟩
  intro node away
  apply stores.frame
  rw [same]
  exact away

/-! ### The slot of a frame -/

def setChild (mem : AvlMem) (frame : Frame Ptr) (child : Option Ptr) : AvlMem :=
  match frame with
  | .goneLeft value _ => setLeft mem value child
  | .goneRight _ value => setRight mem value child

private theorem setChild_ne (frame : Frame Ptr) (child : Option Ptr) {other : Ptr}
    (apart : other ≠ frame.value) : setChild mem frame child other = mem other := by
  cases frame with
  | goneLeft value right =>
      unfold setChild setLeft
      exact modify_ne mem _ apart
  | goneRight left value =>
      unfold setChild setRight
      exact modify_ne mem _ apart

private theorem setChild_measures (frame : Frame Ptr) (child : Option Ptr) (other : Ptr) :
    (setChild mem frame child other).depth = (mem other).depth ∧
      (setChild mem frame child other).count = (mem other).count := by
  by_cases same : other = frame.value
  · subst same
    cases frame with
    | goneLeft value right =>
        simp [setChild, setLeft, Frame.value, modify_same]
    | goneRight left value =>
        simp [setChild, setRight, Frame.value, modify_same]
  · rw [setChild_ne frame child same]
    exact ⟨rfl, rfl⟩

theorem PathLinked.setChild {frame : Frame Ptr} {rest : List (Frame Ptr)}
    {old : Option Ptr} (path : PathLinked mem (frame :: rest) old) (child : Option Ptr)
    (notAside : frame.value ∉ inorder frame.aside) (notRest : frame.value ∉ pathNodes rest) :
    PathLinked (setChild mem frame child) (frame :: rest) child := by
  have asideKept : ∀ node ∈ inorder frame.aside,
      RedisC.setChild mem frame child node = mem node :=
    fun node member => setChild_ne frame child (ne_of_mem_of_not_mem member notAside)
  have restKept : ∀ node ∈ pathNodes rest,
      RedisC.setChild mem frame child node = mem node := by
    intro node member
    apply setChild_ne
    intro same
    subst same
    exact notRest member
  cases frame with
  | goneLeft value right =>
      obtain ⟨wired, asideLinked, restPath⟩ := path
      refine ⟨⟨?_, ?_, ?_⟩, asideLinked.congr asideKept, restPath.congr restKept⟩
      · simpa [RedisC.setChild, setLeft, modify_same] using wired.parent
      · simp [RedisC.setChild, setLeft, modify_same]
      · simpa [RedisC.setChild, setLeft, modify_same] using wired.right
  | goneRight left value =>
      obtain ⟨wired, asideLinked, restPath⟩ := path
      refine ⟨⟨?_, ?_, ?_⟩, asideLinked.congr asideKept, restPath.congr restKept⟩
      · simpa [RedisC.setChild, setRight, modify_same] using wired.parent
      · simpa [RedisC.setChild, setRight, modify_same] using wired.left
      · simp [RedisC.setChild, setRight, modify_same]

private theorem replaceChild_eq {frame : Frame Ptr} {rest : List (Frame Ptr)} {node : Ptr}
    (path : PathLinked mem (frame :: rest) (some node)) (away : node ∉ inorder frame.aside)
    (child : Option Ptr) :
    replaceChild mem frame.value node child = setChild mem frame child := by
  unfold replaceChild
  cases frame with
  | goneLeft value right => exact if_pos path.1.left
  | goneRight left value =>
      refine if_neg (fun isLeft => away (rootPtr_mem ?_))
      exact path.1.left.symm.trans isLeft

/-! ### Insertion -/

theorem avlInit_same (mem : AvlMem) (node : Ptr) :
    avlInit mem node node = { depth := 1, count := 1 } := modify_same mem node _

theorem avlInit_ne (mem : AvlMem) {node other : Ptr} (apart : other ≠ node) :
    avlInit mem node other = mem other := modify_ne mem _ apart

theorem hang_spec {node : Ptr} {frame : Frame Ptr} {rest : List (Frame Ptr)}
    (linked : Linked mem none (plug (frame :: rest) .nil))
    (distinct : (inorder (plug (frame :: rest) .nil)).Nodup)
    (away : node ∉ inorder (plug (frame :: rest) .nil))
    (leaf : Wired mem none node none none) :
    let hung := setParent (setChild mem frame (some node)) node (some frame.value)
    Wired hung (some frame.value) node none none ∧
      PathLinked hung (frame :: rest) (some node) := by
  obtain ⟨_, path, _⟩ := linked_plug_iff.mp linked
  have apart := frameApart_of_nodup distinct
  have notPath : node ∉ pathNodes (frame :: rest) :=
    fun member => away (mem_plug_iff.mpr (.inr member))
  have notValue : node ≠ frame.value := by
    intro same
    subst same
    exact notPath (frame_value_mem frame rest)
  have slotted := path.setChild (some node) apart.valueAside apart.valueRest
  have kept : setChild mem frame (some node) node = mem node := setChild_ne frame _ notValue
  refine ⟨⟨?_, ?_, ?_⟩, ?_⟩
  · unfold setParent
    rw [modify_same]
  · unfold setParent
    rw [modify_same, kept]
    exact leaf.left
  · unfold setParent
    rw [modify_same, kept]
    exact leaf.right
  · refine slotted.congr (fun other member => modify_ne _ _ ?_)
    intro same
    subst same
    exact notPath member

theorem avlRebalance_insert {context : List (Frame Ptr)} {node : Ptr}
    (fresh : Wired mem (outer context) node none none)
    (path : PathLinked mem context (some node))
    (distinct : (before context ++ node :: after context).Nodup)
    (balanced : Balanced (plug context (.nil : BinaryTree Ptr))) :
    Meets (fun _ => False)
      (fun result => Reshaped mem (before context ++ node :: after context)
        (before context ++ node :: after context) result.1 (some result.2))
      (avlRebalance avlFuel mem node) := by
  have contextBalanced := ((balanced_plug_iff context .nil).mp balanced).2
  have nodes : inorder (plug context (.node node .nil .nil)) =
      before context ++ node :: after context := by
    rw [inorder_plug]
    simp only [inorder, List.nil_append, List.append_assoc, List.cons_append]
  have leaf : (fix node .nil .nil).height = 1 := rfl
  have placed : (inorder (plug context (.node node .nil .nil))).Nodup := by
    rw [nodes]
    exact distinct
  have low : (BinaryTree.nil : BinaryTree Ptr).height ≤ (fix node .nil .nil).height + 1 :=
    Nat.zero_le _
  have high : (fix node .nil .nil).height ≤ (BinaryTree.nil : BinaryTree Ptr).height + 1 :=
    Nat.le_refl _
  have empty : Linked mem (some node) .nil := trivial
  have enough : context.length < avlFuel := by
    have counted := length_le_numNodes_plug context (.node node .nil .nil)
    have few := length_le_of_nodup placed
    rw [length_inorder] at few
    simp only [BinaryTree.numNodes] at counted
    unfold avlFuel
    omega
  refine (avlRebalance_spec fresh empty empty path placed trivial trivial
    (by simp) (by simp) contextBalanced low high enough).mono ?_
  intro result stores
  refine stores.reshaped ?_ ((inorder_climb _ _ _ _).trans nodes)
  exact balanced_climb trivial trivial (by simp) (by simp) contextBalanced low high

/-! ### Deletion -/

theorem leftmost_spec {tree : BinaryTree Ptr} {root : Ptr} {fuel : Nat}
    (linked : Linked mem parent tree) (rootIs : rootPtr tree = some root)
    (enough : tree.height ≤ fuel) :
    ∃ context victim right, tree = plug context (.node victim .nil right) ∧
      before context = [] ∧ right.height < tree.height ∧
      leftmost fuel mem root = .ok victim := by
  induction tree generalizing parent root fuel with
  | nil => cases rootIs
  | node value left right leftIh _ =>
      cases rootIs
      obtain ⟨wired, _, leftLinked, _⟩ := linked
      rw [BinaryTree.height] at enough
      obtain ⟨fuel, rfl⟩ : ∃ rest, fuel = rest + 1 := ⟨fuel - 1, by omega⟩
      cases left with
      | nil =>
          have noLeft : (mem value).left = none := wired.left
          refine ⟨[], value, right, rfl, rfl, ?_, ?_⟩
          · rw [BinaryTree.height]
            omega
          · simp only [leftmost, noLeft]
      | node next lower upper =>
          have goLeft : (mem value).left = some next := wired.left
          obtain ⟨context, victim, rest, same, first, lower, found⟩ :=
            leftIh leftLinked rfl (show _ ≤ fuel by omega)
          refine ⟨context ++ [.goneLeft value right], victim, rest, ?_, ?_, ?_, ?_⟩
          · rw [plug_append, ← same]
            rfl
          · rw [before_append, first]
            rfl
          · rw [BinaryTree.height]
            omega
          · simp only [leftmost, goLeft]
            exact found

private theorem context_length_lt {frame : Frame Ptr} {rest : List (Frame Ptr)}
    {focus : BinaryTree Ptr} (distinct : (inorder (plug (frame :: rest) focus)).Nodup) :
    rest.length < avlFuel := by
  have counted := length_le_numNodes_plug (frame :: rest) focus
  have few := length_le_of_nodup distinct
  rw [length_inorder] at few
  rw [List.length_cons] at counted
  unfold avlFuel
  omega

private theorem avlRebalance_above {frame : Frame Ptr} {rest : List (Frame Ptr)}
    {focus : BinaryTree Ptr} {old : Nat} (linked : Linked mem (some frame.value) focus)
    (path : PathLinked mem (frame :: rest) (rootPtr focus))
    (distinct : (inorder (plug (frame :: rest) focus)).Nodup) (balanced : Balanced focus)
    (contextBalanced : ContextBalanced (frame :: rest) old)
    (low : old ≤ focus.height + 1) (high : focus.height ≤ old + 1) :
    Meets (fun _ => False)
      (fun result => Reshaped mem (inorder (plug (frame :: rest) focus))
        (inorder (plug (frame :: rest) focus)) result.1 (some result.2))
      (avlRebalance avlFuel mem frame.value) := by
  have enough := context_length_lt distinct
  obtain ⟨asideLow, focusLow, asideBalanced, restBalanced⟩ := contextBalanced
  cases frame with
  | goneLeft value aside =>
      obtain ⟨wired, asideLinked, restPath⟩ := path
      simp only [Frame.aside] at asideLow focusLow asideBalanced restBalanced
      obtain ⟨_, upper, lower, exactly⟩ := fix_balanced value balanced asideBalanced
        (by omega) (by omega)
      refine (avlRebalance_spec wired linked asideLinked restPath distinct balanced
        asideBalanced (by omega) (by omega) restBalanced (by omega) (by omega)
        enough).mono ?_
      intro result stores
      refine stores.reshaped ?_ (inorder_climb rest value focus aside)
      exact balanced_climb balanced asideBalanced (by omega) (by omega) restBalanced
        (by omega) (by omega)
  | goneRight aside value =>
      obtain ⟨wired, asideLinked, restPath⟩ := path
      simp only [Frame.aside] at asideLow focusLow asideBalanced restBalanced
      obtain ⟨_, upper, lower, exactly⟩ := fix_balanced value asideBalanced balanced
        (by omega) (by omega)
      refine (avlRebalance_spec wired asideLinked linked restPath distinct asideBalanced
        balanced (by omega) (by omega) restBalanced (by omega) (by omega)
        enough).mono ?_
      intro result stores
      refine stores.reshaped ?_ (inorder_climb rest value aside focus)
      exact balanced_climb asideBalanced balanced (by omega) (by omega) restBalanced
        (by omega) (by omega)

/-- The left subtree takes the place of a node without a right subtree. -/
private theorem avlDelete_splice {context : List (Frame Ptr)} {node : Ptr} {left : BinaryTree Ptr}
    {fuel : Nat} (linked : Linked mem none (plug context (.node node left .nil)))
    (balanced : Balanced (plug context (.node node left .nil)))
    (distinct : (inorder (plug context (.node node left .nil))).Nodup)
    (enough : 0 < fuel) :
    Meets (fun _ => False)
      (fun result => Reshaped mem (inorder (plug context (.node node left .nil)))
        (before context ++ inorder left ++ after context) result.1 result.2)
      (avlDelete fuel mem node) := by
  obtain ⟨fuel, rfl⟩ : ∃ rest, fuel = rest + 1 := ⟨fuel - 1, by omega⟩
  obtain ⟨⟨wired, _, leftLinked, _⟩, path, _⟩ := linked_plug_iff.mp linked
  obtain ⟨⟨_, _, leftBalanced, _⟩, contextBalanced⟩ := (balanced_plug_iff _ _).mp balanced
  have noRight : (mem node).right = none := wired.right
  have parts : (before context ++ node :: (inorder left ++ after context)).Nodup := by
    rw [inorder_plug, inorder, inorder] at distinct
    refine (List.Perm.nodup_iff ?_).mp distinct
    simp only [List.append_assoc, List.cons_append, List.nil_append]
    exact List.Perm.append_left _ List.perm_middle
  rw [List.nodup_middle, List.nodup_cons, List.mem_append, List.mem_append] at parts
  obtain ⟨notMember, spliced⟩ := parts
  have notLeft : node ∉ inorder left := fun member => notMember (.inr (.inl member))
  have distinctLeft : (inorder left).Nodup := spliced.of_append_right.of_append_left
  have nodeKept : setParentOf mem (rootPtr left) (outer context) node = mem node :=
    setParentOf_rootPtr_ne notLeft (outer context)
  have leftNow := leftLinked.reparent distinctLeft (outer context)
  simp only [avlDelete, noRight, wired.left, wired.parent, nodeKept]
  cases context with
  | nil =>
      refine ⟨⟨left, rfl, leftNow, leftBalanced, ?_⟩, ?_⟩
      · simp only [before, after, List.nil_append, List.append_nil]
      · intro other away
        apply setParentOf_rootPtr_ne
        exact fun member => away (List.mem_append_left _ member)
  | cons frame rest =>
      have apart := frameApart_of_nodup distinct
      have pathApart := not_mem_focus_of_nodup distinct
      have notAside : node ∉ inorder frame.aside := fun member =>
        pathApart node (frame_aside_mem member)
          (List.mem_append_right _ List.mem_cons_self)
      have pathNow : PathLinked (setParentOf mem (rootPtr left) (some frame.value))
          (frame :: rest) (some node) :=
        path.congr fun other member => setParentOf_rootPtr_ne
          (fun inLeft => pathApart other member (List.mem_append_left _ inLeft)) _
      have nodes : inorder (plug (frame :: rest) left) =
          before (frame :: rest) ++ inorder left ++ after (frame :: rest) :=
        inorder_plug _ _
      have notInLeft : frame.value ∉ inorder left :=
        fun member => apart.valueFocus (List.mem_append_left _ member)
      simp only [outer, replaceChild_eq pathNow notAside]
      have leftPlaced : Linked
          (setChild (setParentOf mem (rootPtr left) (some frame.value)) frame (rootPtr left))
          (some frame.value) left :=
        leftNow.congr fun other member => setChild_ne frame _
          (ne_of_mem_of_not_mem member notInLeft)
      have placed : (inorder (plug (frame :: rest) left)).Nodup := by
        rw [nodes, List.append_assoc]
        exact spliced
      have height : (BinaryTree.node node left .nil).height = left.height + 1 := by simp
      have rebalanced := avlRebalance_above leftPlaced
        (pathNow.setChild (rootPtr left) apart.valueAside apart.valueRest) placed
        leftBalanced contextBalanced (by omega) (by omega)
      refine rebalanced.bind ?_
      intro result reshaped
      rcases result with ⟨memNew, root⟩
      rw [nodes] at reshaped
      refine ⟨reshaped.tree, ?_⟩
      intro other away
      rw [mem_plug_iff, not_or] at away
      have notValue : other ≠ frame.value := by
        intro same
        subst same
        exact away.2 (frame_value_mem frame rest)
      have notInside : other ∉ inorder left :=
        fun member => away.1 (List.mem_append_left _ member)
      rw [reshaped.frame other ?_, setChild_ne frame _ notValue,
        setParentOf_rootPtr_ne notInside]
      rw [← nodes, mem_plug_iff, not_or]
      exact ⟨notInside, away.2⟩

theorem takeLinks_spec {node victim : Ptr} {left right : BinaryTree Ptr}
    (linked : Linked mem parent (.node node left right))
    (distinct : (inorder (.node node left right)).Nodup)
    (away : victim ∉ inorder (.node node left right)) :
    Linked (takeLinks mem victim node) parent (.node victim left right) ∧
      ∀ other, other ≠ victim → other ∉ inorder left → other ∉ inorder right →
        takeLinks mem victim node other = mem other := by
  obtain ⟨wired, measured, leftLinked, rightLinked⟩ := linked
  rw [inorder, List.mem_append, List.mem_cons, not_or, not_or] at away
  obtain ⟨notLeft, _, notRight⟩ := away
  rw [inorder, List.nodup_middle, List.nodup_cons, List.nodup_append] at distinct
  obtain ⟨_, distinctLeft, distinctRight, disjoint⟩ := distinct
  generalize copiedIs : modify mem victim (fun _ => mem node) = copied
  have copiedVictim : copied victim = mem node := by
    rw [← copiedIs, modify_same]
  have copiedElse : ∀ other, other ≠ victim → copied other = mem other := by
    intro other apart
    rw [← copiedIs, modify_ne mem _ apart]
  have victimKept : setParentOf copied (rootPtr left) (some victim) victim = mem node :=
    (setParentOf_rootPtr_ne notLeft _).trans copiedVictim
  have taken : takeLinks mem victim node =
      setParentOf (setParentOf copied (rootPtr left) (some victim)) (rootPtr right)
        (some victim) := by
    simp only [takeLinks, copiedIs, copiedVictim, wired.left, victimKept, wired.right]
  have takenVictim : takeLinks mem victim node victim = mem node := by
    rw [taken, setParentOf_rootPtr_ne notRight, victimKept]
  have leftMoved : Linked (setParentOf copied (rootPtr left) (some victim)) (some victim)
      left := by
    apply Linked.reparent _ distinctLeft
    · exact some node
    · exact leftLinked.congr fun other member =>
        copiedElse other (ne_of_mem_of_not_mem member notLeft)
  have rightCopied : Linked (setParentOf copied (rootPtr left) (some victim)) (some node)
      right := by
    refine rightLinked.congr (fun other member => ?_)
    have notInLeft : other ∉ inorder left :=
      fun inLeft => disjoint other inLeft other member rfl
    rw [setParentOf_rootPtr_ne notInLeft]
    exact copiedElse other (ne_of_mem_of_not_mem member notRight)
  refine ⟨⟨⟨?_, ?_, ?_⟩, ⟨?_, ?_⟩, ?_, ?_⟩, ?_⟩
  · rw [takenVictim, wired.parent]
  · rw [takenVictim, wired.left]
  · rw [takenVictim, wired.right]
  · rw [takenVictim, measured.depth]
  · rw [takenVictim, measured.count]
  · rw [taken]
    refine leftMoved.congr (fun other member => setParentOf_rootPtr_ne ?_ _)
    exact fun inRight => disjoint other member other inRight rfl
  · rw [taken]
    exact rightCopied.reparent distinctRight (some victim)
  · intro other notVictim notInLeft notInRight
    rw [taken, setParentOf_rootPtr_ne notInRight, setParentOf_rootPtr_ne notInLeft]
    exact copiedElse other notVictim

private theorem focus_nodup {context : List (Frame Ptr)} {focus : BinaryTree Ptr}
    (distinct : (inorder (plug context focus)).Nodup) : (inorder focus).Nodup := by
  rw [inorder_plug] at distinct
  exact distinct.of_append_left.of_append_right

private theorem rootPtr_plug_cons (frame : Frame Ptr) (rest : List (Frame Ptr))
    (tree other : BinaryTree Ptr) :
    rootPtr (plug (frame :: rest) tree) = rootPtr (plug (frame :: rest) other) := by
  induction rest generalizing frame tree other with
  | nil => cases frame <;> rfl
  | cons next rest ih => exact ih next (frame.put tree) (frame.put other)

def placeVictim (mem : AvlMem) (victim node : Ptr) (root : Option Ptr) :
    AvlMem × Option Ptr :=
  match (mem node).parent with
  | some parent => (replaceChild mem parent node (some victim), root)
  | none => (mem, some victim)

theorem placeVictim_spec {context : List (Frame Ptr)} {node victim : Ptr}
    {left right : BinaryTree Ptr} {root : Option Ptr} {result : AvlMem × Option Ptr}
    (linked : Linked mem none (plug context (.node node left right)))
    (distinct : (inorder (plug context (.node node left right))).Nodup)
    (away : victim ∉ inorder (plug context (.node node left right)))
    (rootIs : rootPtr (plug context (.node node left right)) = root)
    (placed : placeVictim (takeLinks mem victim node) victim node root = result) :
    Linked result.1 none (plug context (.node victim left right)) ∧
      rootPtr (plug context (.node victim left right)) = result.2 ∧
      ∀ other, other ≠ victim →
        other ∉ inorder (plug context (.node node left right)) →
        result.1 other = mem other := by
  obtain ⟨focusLinked, path, measured⟩ := linked_plug_iff.mp linked
  have pathApart := not_mem_focus_of_nodup distinct
  have notFocus : victim ∉ inorder (.node node left right) :=
    fun member => away (mem_plug_iff.mpr (.inl member))
  have notPath : victim ∉ pathNodes context :=
    fun member => away (mem_plug_iff.mpr (.inr member))
  have focusDistinct := focus_nodup distinct
  obtain ⟨taken, kept⟩ := takeLinks_spec focusLinked focusDistinct notFocus
  have leftSub : ∀ other, other ∉ inorder (.node node left right) →
      other ∉ inorder left ∧ other ∉ inorder right := by
    intro other outside
    rw [inorder, List.mem_append, List.mem_cons, not_or, not_or] at outside
    exact ⟨outside.1, outside.2.2⟩
  have nodeMem : node ∈ inorder (.node node left right) :=
    List.mem_append_right _ List.mem_cons_self
  have nodeKept : takeLinks mem victim node node = mem node := by
    rw [inorder, List.nodup_middle, List.nodup_cons, List.mem_append, not_or] at focusDistinct
    exact kept node (ne_of_mem_of_not_mem nodeMem notFocus) focusDistinct.1.1
      focusDistinct.1.2
  have pathKept : ∀ other ∈ pathNodes context, takeLinks mem victim node other = mem other := by
    intro other onPath
    obtain ⟨notLeft, notRight⟩ := leftSub other (pathApart other onPath)
    refine kept other ?_ notLeft notRight
    intro same
    subst same
    exact notPath onPath
  have pathNow := path.congr pathKept
  have parentIs : (takeLinks mem victim node node).parent = outer context := by
    rw [nodeKept]
    exact focusLinked.1.parent
  subst placed
  unfold placeVictim
  rw [parentIs]
  cases context with
  | nil =>
      refine ⟨taken, rfl, ?_⟩
      intro other notVictim outside
      obtain ⟨notLeft, notRight⟩ := leftSub other outside
      exact kept other notVictim notLeft notRight
  | cons frame rest =>
      have apart := frameApart_of_nodup distinct
      have notAside : node ∉ inorder frame.aside :=
        fun member => pathApart node (frame_aside_mem member) nodeMem
      have victimNotValue : frame.value ∉ inorder (.node victim left right) := by
        obtain ⟨notLeft, notRight⟩ := leftSub _ apart.valueFocus
        simp only [inorder, List.mem_append, List.mem_cons, not_or]
        refine ⟨notLeft, ?_, notRight⟩
        intro same
        exact notPath (same ▸ frame_value_mem frame rest)
      simp only [outer, replaceChild_eq pathNow notAside]
      refine ⟨linked_plug_iff.mpr ⟨?_, ?_, ?_⟩, ?_, ?_⟩
      · exact taken.congr fun other member => setChild_ne frame _
          (ne_of_mem_of_not_mem member victimNotValue)
      · exact pathNow.setChild (some victim) apart.valueAside apart.valueRest
      · refine PathMeasured.congr measured (fun other onPath => ?_)
        rw [← pathKept other onPath]
        exact setChild_measures frame (some victim) other
      · rw [← rootIs]
        exact rootPtr_plug_cons frame rest _ _
      · intro other notVictim outside
        rw [mem_plug_iff, not_or] at outside
        obtain ⟨notLeft, notRight⟩ := leftSub other outside.1
        rw [setChild_ne frame _ ?_]
        · exact kept other notVictim notLeft notRight
        · intro same
          subst same
          exact outside.2 (frame_value_mem frame rest)

/-- A node that occurs once splits the in-order sequence in one way only. -/
theorem sides_of_inorder_eq {context : List (Frame Ptr)} {node : Ptr}
    {left right : BinaryTree Ptr} {front back : List Ptr}
    (nodes : inorder (plug context (.node node left right)) = front ++ node :: back)
    (notFront : node ∉ front) (notBack : node ∉ back) :
    before context ++ inorder left = front ∧ inorder right ++ after context = back := by
  rw [inorder_plug, inorder] at nodes
  simp only [List.append_assoc, List.cons_append] at nodes
  rw [← List.append_assoc] at nodes
  have split := (List.append_cons_inj_of_notMem notFront notBack).mp nodes.symm
  exact ⟨split.1.symm, split.2.2.symm⟩

private theorem placed_reshaped {memNew : AvlMem} {root : Option Ptr} {node victim : Ptr}
    {front back : List Ptr}
    (reshaped : Reshaped mem (front ++ node :: victim :: back) (front ++ node :: back)
      memNew root)
    (distinct : (front ++ node :: victim :: back).Nodup) :
    Reshaped mem (front ++ node :: victim :: back) (front ++ victim :: back)
      (placeVictim (takeLinks memNew victim node) victim node root).1
      (placeVictim (takeLinks memNew victim node) victim node root).2 := by
  obtain ⟨⟨tree, rootIs, linked, balanced, nodes⟩, frame⟩ := reshaped
  have nodeMem : node ∈ inorder tree := by
    rw [nodes]
    exact List.mem_append_right _ List.mem_cons_self
  obtain ⟨context, left, right, rfl⟩ := exists_plug_of_mem nodeMem
  have apart : node ∉ front ∧ node ∉ back ∧ victim ∉ front ++ node :: back ∧
      (front ++ node :: back).Nodup := by
    simp only [List.nodup_append, List.nodup_cons, List.mem_append, List.mem_cons]
      at distinct ⊢
    grind
  obtain ⟨notFront, notBack, notVictim, remaining⟩ := apart
  rw [← nodes] at notVictim remaining
  obtain ⟨placed, placedRoot, kept⟩ := placeVictim_spec linked remaining notVictim rootIs rfl
  have sides := sides_of_inorder_eq nodes notFront notBack
  refine ⟨⟨_, placedRoot, placed, ?_, ?_⟩, ?_⟩
  · rw [balanced_plug_iff] at balanced ⊢
    exact balanced
  · rw [inorder_plug, inorder, ← sides.1, ← sides.2]
    simp only [List.append_assoc, List.cons_append]
  · intro other away
    rw [kept other ?_ ?_, frame other away]
    · intro same
      subst same
      exact away (by simp)
    · rw [nodes]
      intro member
      apply away
      rcases List.mem_append.mp member with inFront | inBack
      · exact List.mem_append_left _ inFront
      · rcases List.mem_cons.mp inBack with rfl | inside
        · exact List.mem_append_right _ List.mem_cons_self
        · exact List.mem_append_right _
            (List.mem_cons_of_mem _ (List.mem_cons_of_mem _ inside))

/-- Deletion of any node of any balanced tree. -/
theorem avlDelete_spec {context : List (Frame Ptr)} {node : Ptr}
    {left right : BinaryTree Ptr} {fuel : Nat}
    (linked : Linked mem none (plug context (.node node left right)))
    (balanced : Balanced (plug context (.node node left right)))
    (distinct : (inorder (plug context (.node node left right))).Nodup)
    (enough : right.height < fuel) :
    Meets (fun _ => False)
      (fun result => Reshaped mem (inorder (plug context (.node node left right)))
        (before context ++ (inorder left ++ inorder right) ++ after context)
        result.1 result.2)
      (avlDelete fuel mem node) := by
  induction fuel generalizing context node left right with
  | zero => omega
  | succ fuel ih =>
      cases right with
      | nil =>
          have spliced := avlDelete_splice linked balanced distinct (Nat.succ_pos fuel)
          rw [inorder, List.append_nil]
          exact spliced
      | node next lower upper =>
          obtain ⟨⟨wired, _, _, rightLinked⟩, _, _⟩ := linked_plug_iff.mp linked
          have rightIs : (mem node).right = some next := wired.right
          obtain ⟨_, _, _, rightBalanced⟩ := ((balanced_plug_iff _ _).mp balanced).1
          have rightLow := height_lt_of_balanced rightBalanced
            (focus_nodup distinct).of_append_right.of_cons
          obtain ⟨spine, victim, rest, same, first, shorter, found⟩ :=
            leftmost_spec rightLinked rfl (show _ ≤ avlFuel by unfold avlFuel; omega)
          have refocus : plug context (.node node left (.node next lower upper)) =
              plug (spine ++ .goneRight left node :: context) (.node victim .nil rest) := by
            rw [plug_append, ← same]
            rfl
          have nodesAre : inorder
              (plug (spine ++ .goneRight left node :: context) (.node victim .nil rest)) =
              before context ++ inorder left ++ node ::
                (victim :: (inorder rest ++ after spine ++ after context)) := by
            rw [inorder_plug, before_append, after_append, first]
            simp only [before, after, inorder, List.append_assoc, List.nil_append,
              List.cons_append]
          have withoutVictim :
              before (spine ++ .goneRight left node :: context) ++
                (inorder .nil ++ inorder rest) ++
                after (spine ++ .goneRight left node :: context) =
              before context ++ inorder left ++ node ::
                (inorder rest ++ after spine ++ after context) := by
            rw [before_append, after_append, first]
            simp only [before, after, inorder, List.append_assoc, List.nil_append,
              List.cons_append]
          have rightNodes : inorder (.node next lower upper) =
              victim :: (inorder rest ++ after spine) := by
            rw [same, inorder_plug, first]
            simp only [inorder, List.nil_append, List.cons_append]
          rw [refocus] at linked balanced distinct ⊢
          have deleted := ih linked balanced distinct (by omega)
          simp only [avlDelete, rightIs, found, ok_bind]
          refine deleted.bind ?_
          intro result reshaped
          rcases result with ⟨memNew, root⟩
          rw [withoutVictim] at reshaped
          rw [nodesAre] at reshaped distinct ⊢
          have final : before context ++ (inorder left ++ inorder (.node next lower upper)) ++
              after context = before context ++ inorder left ++
                victim :: (inorder rest ++ after spine ++ after context) := by
            rw [rightNodes]
            simp only [List.append_assoc, List.cons_append]
          rw [final]
          have placed := placed_reshaped reshaped distinct
          unfold placeVictim at placed
          split <;> rename_i parentIs
          · rw [parentIs] at placed
            exact placed
          · rw [parentIs] at placed
            exact placed

theorem AvlTree.delete {root : Option Ptr} {node : Ptr} {front back : List Ptr}
    (stored : AvlTree mem root (front ++ node :: back))
    (distinct : (front ++ node :: back).Nodup) :
    Meets (fun _ => False)
      (fun result => Reshaped mem (front ++ node :: back) (front ++ back) result.1 result.2)
      (avlDelete avlFuel mem node) := by
  obtain ⟨tree, _, linked, balanced, nodes⟩ := stored
  have nodeMem : node ∈ inorder tree := by
    rw [nodes]
    exact List.mem_append_right _ List.mem_cons_self
  obtain ⟨context, left, right, rfl⟩ := exists_plug_of_mem nodeMem
  have apart := distinct
  rw [List.nodup_middle, List.nodup_cons, List.mem_append, not_or] at apart
  obtain ⟨frontIs, backIs⟩ := sides_of_inorder_eq nodes apart.1.1 apart.1.2
  rw [← nodes] at distinct
  obtain ⟨_, _, _, rightBalanced⟩ := ((balanced_plug_iff _ _).mp balanced).1
  have rightLow := height_lt_of_balanced rightBalanced
    (focus_nodup distinct).of_append_right.of_cons
  have deleted := avlDelete_spec linked balanced distinct
    (show right.height < avlFuel by unfold avlFuel; omega)
  have remaining : before context ++ (inorder left ++ inorder right) ++ after context =
      front ++ back := by
    rw [← frontIs, ← backIs]
    simp only [List.append_assoc]
  rw [nodes, remaining] at deleted
  exact deleted

end RedisC
