/-
A container of numbers over the tree, which a multiset describes.

The nodes of a container are blocks that `new` has given out.  A container is
known by its root; the memory is that of the whole program, where the blocks of
other containers live too.  Two assertions of `avl_verify` are assignments.  On a
tree that is in order they write what is there, and what they assert is then only
that the new value is not zero.

A container does what the multiset does, in every order of calls, and passes its
verification as long as its size fits in 32 bits.
-/

import RedisC.AvlContract
import RedisC.Lib.Allocator
import RedisC.Lib.LabelledRun

namespace RedisC.TestAvl

open BalancedTree Fallible Allocator LabelledRun

/-- The assertions of `avl_verify`, of `container_verify` and of the tests. -/
inductive Check
  | parent
  | count
  | balance
  | depth
  | leftParent
  | leftOrder
  | rightParent
  | rightOrder
  | size
  | contents
  | removed
  | absent
  | offset
  | pastEnds
  deriving DecidableEq, Repr

inductive TestFault
  | avl (fault : Fault)
  | check (site : Check)
  deriving DecidableEq, Repr

abbrev Result (α : Type) := Except (MemFault TestFault Ptr) α

def avlCall {α : Type} : Except Fault α → Result α
  | .ok value => .ok value
  | .error fault => .error (.program (.avl fault))

def check (site : Check) (condition : Prop) [Decidable condition] : Result Unit :=
  if condition then .ok () else .error (.program (.check site))

/-- `val` is that of the `Data` around a node, `calls` counts the calls of `new`. -/
structure Memory where
  avl : AvlMem := fun _ => {}
  val : Ptr → UInt32 := fun _ => 0
  live : Finset Ptr := ∅
  calls : Nat := 0

structure Container where
  root : Option Ptr := none
  deriving DecidableEq, Repr

/-! ### The container -/

def addLoop (memory : Memory) (data : Ptr) (val : UInt32) :
    Nat → Ptr → Except Fault (AvlMem × Ptr)
  | 0, _ => .error .outOfFuel
  | fuel + 1, curr =>
      if val < memory.val curr then
        match (memory.avl curr).left with
        | none =>
            let avl := setLeft memory.avl curr (some data)
            avlRebalance avlFuel (setParent avl data (some curr)) data
        | some next => addLoop memory data val fuel next
      else
        match (memory.avl curr).right with
        | none =>
            let avl := setRight memory.avl curr (some data)
            avlRebalance avlFuel (setParent avl data (some curr)) data
        | some next => addLoop memory data val fuel next

/-- The memory with a new `Data` at the address that `new` returns. -/
def newData (memory : Memory) (data : Ptr) (val : UInt32) : Memory :=
  { avl := avlInit memory.avl data
    val := Function.update memory.val data val
    live := allocate memory.live [data]
    calls := memory.calls + 1 }

def add (memory : Memory) (c : Container) (data : Ptr) (val : UInt32) :
    Result (Memory × Container) :=
  let memory := newData memory data val
  match c.root with
  | none => .ok (memory, { root := some data })
  | some curr => do
      let (avl, root) ← avlCall (addLoop memory data val avlFuel curr)
      pure ({ memory with avl := avl }, { root := some root })

def delSeek (memory : Memory) (val : UInt32) : Nat → Option Ptr → Except Fault (Option Ptr)
  | 0, _ => .error .outOfFuel
  | _ + 1, none => .ok none
  | fuel + 1, some curr =>
      if val = memory.val curr then .ok (some curr)
      else
        delSeek memory val fuel
          (if val < memory.val curr then (memory.avl curr).left else (memory.avl curr).right)

/-- `avl_delete` and `delete` of one node. -/
def deleteNode (memory : Memory) (node : Ptr) : Result (Memory × Container) := do
  let (avl, root) ← avlCall (avlDelete avlFuel memory.avl node)
  let live ← release memory.live node
  pure ({ memory with avl := avl, live := live }, { root := root })

def del (memory : Memory) (c : Container) (val : UInt32) :
    Result ((Memory × Container) × Bool) := do
  match ← avlCall (delSeek memory val avlFuel c.root) with
  | none => pure ((memory, c), false)
  | some curr =>
      let after ← deleteNode memory curr
      pure (after, true)

def disposeLoop : Nat → Memory → Container → Result (Memory × Container)
  | 0, _, _ => .error (.program (.avl .outOfFuel))
  | fuel + 1, memory, c =>
      match c.root with
      | none => .ok (memory, c)
      | some node => do
          let (memory, c) ← deleteNode memory node
          disposeLoop fuel memory c

def dispose (memory : Memory) (c : Container) : Result (Memory × Container) :=
  disposeLoop (avlFuel + 1) memory c

/-! ### Verification -/

def checkChild (mem : AvlMem) (node : Ptr) (parentSite orderSite : Check)
    (inOrder : Ptr → Prop) [DecidablePred inOrder] : Option Ptr → Result Unit
  | none => .ok ()
  | some child => do
      check parentSite ((mem child).parent = some node)
      check orderSite (inOrder child)

/-- What `avl_verify` asserts of a node after it has verified the subtrees.
`assert(node->count = …)` and `assert(node->depth = …)` assign, and so the memory is
returned. -/
def verifyNode (val : Ptr → UInt32) (mem : AvlMem) (node : Ptr) : Result AvlMem := do
  let count := 1 + avlCount mem (mem node).left + avlCount mem (mem node).right
  let mem := modify mem node fun fields => { fields with count := count }
  check .count (count ≠ 0)
  let l := avlDepth mem (mem node).left
  let r := avlDepth mem (mem node).right
  check .balance (l = r ∨ l = r + 1 ∨ l + 1 = r)
  let depth := 1 + max32 l r
  let mem := modify mem node fun fields => { fields with depth := depth }
  check .depth (depth ≠ 0)
  checkChild mem node .leftParent .leftOrder (fun child => val child ≤ val node) (mem node).left
  checkChild mem node .rightParent .rightOrder (fun child => val child ≥ val node) (mem node).right
  pure mem

def avlVerify (val : Ptr → UInt32) : Nat → AvlMem → Option Ptr → Option Ptr → Result AvlMem
  | 0, _, _, _ => .error (.program (.avl .outOfFuel))
  | _ + 1, mem, _, none => .ok mem
  | fuel + 1, mem, parent, some node => do
      check .parent ((mem node).parent = parent)
      let mem ← avlVerify val fuel mem (some node) (mem node).left
      let mem ← avlVerify val fuel mem (some node) (mem node).right
      verifyNode val mem node

def extract (memory : Memory) : Nat → Option Ptr → Multiset UInt32 → Result (Multiset UInt32)
  | 0, _, _ => .error (.program (.avl .outOfFuel))
  | _ + 1, none, extracted => .ok extracted
  | fuel + 1, some node, extracted => do
      let extracted ← extract memory fuel (memory.avl node).left extracted
      extract memory fuel (memory.avl node).right (memory.val node ::ₘ extracted)

def containerVerify (memory : Memory) (c : Container) (ref : Multiset UInt32) :
    Result Memory := do
  let avl ← avlVerify memory.val avlFuel memory.avl none c.root
  let memory := { memory with avl := avl }
  check .size ((avlCount memory.avl c.root).toNat = ref.card)
  let extracted ← extract memory avlFuel c.root 0
  check .contents (extracted = ref)
  pure memory

/-! ### What a container holds -/

/-- `nodes` are those of the container, in order; `others` are the other blocks. -/
structure Holds (memory : Memory) (c : Container) (nodes : List Ptr) (others : Multiset Ptr) :
    Prop where
  tree : AvlTree memory.avl c.root nodes
  sorted : nodes.Pairwise fun lower upper => memory.val lower ≤ memory.val upper
  owned : memory.live.val = nodes + others

/-- The container holds the numbers of `ref`. -/
def Stands (memory : Memory) (c : Container) (ref : Multiset UInt32) (others : Multiset Ptr) :
    Prop :=
  ∃ nodes, Holds memory c nodes others ∧ (nodes.map memory.val : Multiset UInt32) = ref

section

variable {memory : Memory} {c : Container} {nodes : List Ptr} {others : Multiset Ptr}
  {ref : Multiset UInt32} {data : Ptr} {val : UInt32}

theorem Holds.distinct (holds : Holds memory c nodes others) : nodes.Nodup := by
  have distinct := memory.live.nodup
  rw [holds.owned, Multiset.nodup_add] at distinct
  exact Multiset.coe_nodup.mp distinct.1

theorem Holds.apart (holds : Holds memory c nodes others) (fresh : data ∉ memory.live)
    {other : Ptr} (member : other ∈ nodes) : other ≠ data := by
  intro same
  apply fresh
  rw [← Finset.mem_val, holds.owned, ← same]
  exact Multiset.mem_add.mpr (.inl (Multiset.mem_coe.mpr member))

theorem stands_empty (memory : Memory) : Stands memory {} 0 memory.live.val := by
  refine ⟨[], ⟨⟨.nil, rfl, trivial, trivial, rfl⟩, .nil, ?_⟩, rfl⟩
  exact (zero_add _).symm

theorem Stands.card_live (stands : Stands memory c ref others) :
    memory.live.card = ref.card + others.card := by
  obtain ⟨nodes, holds, rfl⟩ := stands
  rw [Finset.card_def, holds.owned, Multiset.card_add, Multiset.coe_card, Multiset.coe_card,
    List.length_map]

private theorem avlCall_meets {α : Type} {run : Except Fault α} {post : α → Prop}
    {allowed : MemFault TestFault Ptr → Prop} (met : Meets (fun _ => False) post run) :
    Meets allowed post (avlCall run) := by
  obtain ⟨value, returned, holds⟩ := met.returns
  rw [returned]
  exact holds

/-! ### Insertion and deletion -/

/-- The slot that `add` descends to, and the rebalancing it starts there. -/
private theorem addLoop_eq (memory : Memory) (data : Ptr) (val : UInt32) {focus : BinaryTree Ptr}
    {parent : Option Ptr} {curr : Ptr} (context : List (Frame Ptr)) {fuel : Nat}
    (linked : Linked memory.avl parent focus)
    (rootIs : rootPtr focus = some curr) (enough : focus.height ≤ fuel) :
    ∃ frame rest,
      slot (fun other => decide (val < memory.val other)) focus context = frame :: rest ∧
      addLoop memory data val fuel curr =
        avlRebalance avlFuel
          (setParent (setChild memory.avl frame (some data)) data (some frame.value)) data := by
  induction focus generalizing parent context curr fuel with
  | nil => cases rootIs
  | node value left right leftIh rightIh =>
      cases rootIs
      obtain ⟨wired, _, leftLinked, rightLinked⟩ := linked
      rw [BinaryTree.height] at enough
      obtain ⟨fuel, rfl⟩ : ∃ rest, fuel = rest + 1 := ⟨fuel - 1, by omega⟩
      rw [slot, addLoop]
      by_cases less : val < memory.val value
      · rw [if_pos (decide_eq_true less), if_pos less, wired.left]
        cases left with
        | nil => exact ⟨_, _, rfl, rfl⟩
        | node next lower upper =>
            exact leftIh (.goneLeft value right :: context) leftLinked rfl (by omega)
      · rw [if_neg (by simpa using less), if_neg less, wired.right]
        cases right with
        | nil => exact ⟨_, _, rfl, rfl⟩
        | node next lower upper =>
            exact rightIh (.goneRight left value :: context) rightLinked rfl (by omega)

private theorem sorted_insert {values : Ptr → UInt32} {front back : List Ptr} {node : Ptr}
    (sorted : (front ++ back).Pairwise fun lower upper => values lower ≤ values upper)
    (low : ∀ other ∈ front, values other ≤ values node)
    (high : ∀ other ∈ back, values node ≤ values other) :
    (front ++ node :: back).Pairwise fun lower upper => values lower ≤ values upper := by
  rw [List.pairwise_append] at sorted ⊢
  obtain ⟨frontSorted, backSorted, across⟩ := sorted
  refine ⟨frontSorted, List.pairwise_cons.mpr ⟨high, backSorted⟩, ?_⟩
  intro lower lowerMember upper upperMember
  rcases List.mem_cons.mp upperMember with rfl | later
  · exact low lower lowerMember
  · exact across lower lowerMember upper later

private theorem newData_val_ne {other : Ptr} (apart : other ≠ data) :
    (newData memory data val).val other = memory.val other :=
  Function.update_of_ne apart _ _

private theorem newData_val_self : (newData memory data val).val data = val :=
  Function.update_self _ _ _

private theorem newData_leaf : (newData memory data val).avl data = { depth := 1, count := 1 } :=
  avlInit_same memory.avl data

theorem Holds.stands_of_split (holds : Holds memory c nodes others) (fresh : data ∉ memory.live)
    (front back : List Ptr) {after : Memory} {root : Container} (split : nodes = front ++ back)
    (tree : AvlTree after.avl root.root (front ++ data :: back))
    (valIs : after.val = (newData memory data val).val)
    (liveIs : after.live = allocate memory.live [data])
    (low : ∀ other ∈ front, ¬val < memory.val other)
    (high : ∀ other ∈ back, val < memory.val other) :
    Stands after root (val ::ₘ (nodes.map memory.val : Multiset UInt32)) others := by
  have same : ∀ other ∈ nodes, after.val other = memory.val other := by
    intro other member
    rw [valIs]
    exact newData_val_ne (holds.apart fresh member)
  have dataIs : after.val data = val := by
    rw [valIs, newData_val_self]
  refine ⟨front ++ data :: back, ⟨tree, ?_, ?_⟩, ?_⟩
  · have sorted := holds.sorted
    rw [split] at sorted same
    apply sorted_insert
    · refine sorted.imp_of_mem fun firstMember secondMember ordered => ?_
      rw [same _ firstMember, same _ secondMember]
      exact ordered
    · intro other member
      rw [dataIs, same other (List.mem_append_left _ member)]
      exact UInt32.not_lt.mp (low other member)
    · intro other member
      rw [dataIs, same other (List.mem_append_right _ member)]
      exact UInt32.le_of_lt (high other member)
  · have unused : ∀ block ∈ [data], block ∉ memory.live := by
      intro block member
      rw [List.mem_singleton.mp member]
      exact fresh
    rw [liveIs, allocate_val (List.nodup_singleton data) unused, holds.owned, split, ← add_assoc]
    congr 1
    have placed : (front ++ data :: back).Perm (data :: (front ++ back)) := List.perm_middle
    exact Multiset.coe_eq_coe.mpr placed.symm
  · have shuffled : ((front ++ data :: back).map after.val).Perm (val :: nodes.map memory.val) := by
      rw [split]
      refine (List.perm_middle.map _).trans ?_
      rw [List.map_cons, dataIs, ← split]
      exact .cons _ (.of_eq (List.map_congr_left same))
    exact Multiset.coe_eq_coe.mpr shuffled

/-- The loop of `add` puts the node where the numbers that are greater begin. -/
theorem Holds.addLoop_spec (holds : Holds memory c nodes others) (fresh : data ∉ memory.live)
    {curr : Ptr} (rootIs : c.root = some curr) (val : UInt32) :
    Meets (fun _ => False)
      (fun result : AvlMem × Ptr => ∃ front back, nodes = front ++ back ∧
        AvlTree result.1 (some result.2) (front ++ data :: back) ∧
        (∀ other ∈ front, ¬val < memory.val other) ∧ ∀ other ∈ back, val < memory.val other)
      (addLoop (newData memory data val) data val avlFuel curr) := by
  obtain ⟨tree, treeRoot, linked, balanced, nodesAre⟩ := holds.tree
  rw [rootIs] at treeRoot
  have distinct := holds.distinct
  have sorted := holds.sorted
  have apart := fun other => @Holds.apart _ _ _ _ _ holds fresh other
  rw [← nodesAre] at distinct sorted apart
  have low := height_lt_of_balanced balanced distinct
  have kept : Linked (newData memory data val).avl none tree :=
    linked.congr fun other member => avlInit_ne memory.avl (apart other member)
  have sameVal : ∀ other ∈ inorder tree, (newData memory data val).val other =
      memory.val other := fun other member => newData_val_ne (apart other member)
  obtain ⟨frame, rest, slotIs, loopIs⟩ := addLoop_eq _ data val [] kept treeRoot
    (show _ ≤ avlFuel by unfold avlFuel; omega)
  have upward : (inorder tree).Pairwise fun lower upper =>
      decide (val < (newData memory data val).val lower) = true →
        decide (val < (newData memory data val).val upper) = true := by
    refine sorted.imp_of_mem fun lowerMember upperMember ordered less => ?_
    rw [sameVal _ lowerMember] at less
    rw [sameVal _ upperMember]
    exact decide_eq_true (UInt32.lt_of_lt_of_le (of_decide_eq_true less) ordered)
  obtain ⟨front, back, split, lower, upper, frontIs, backIs⟩ := slot_sides upward []
  have same : plug (frame :: rest) .nil = tree := by
    rw [← slotIs, plug_slot]
    rfl
  have away : data ∉ inorder tree := fun member => apart data member rfl
  rw [← same] at linked balanced distinct away
  obtain ⟨avl, root, returned, stored⟩ :=
    avlRebalance_hung frame rest linked balanced distinct away
  rw [← slotIs, frontIs, backIs, before, after, List.nil_append, List.append_nil] at stored
  rw [split] at sameVal
  apply meets_of_eq_ok (loopIs.trans returned)
  refine ⟨front, back, nodesAre.symm.trans split, stored, ?_, ?_⟩
  · intro other member
    have order := of_decide_eq_false (lower other member)
    rw [sameVal other (List.mem_append_left _ member)] at order
    exact order
  · intro other member
    have order := of_decide_eq_true (upper other member)
    rw [sameVal other (List.mem_append_right _ member)] at order
    exact order

theorem add_spec (stands : Stands memory c ref others) (fresh : data ∉ memory.live)
    (val : UInt32) :
    Meets (fun _ => False)
      (fun result : Memory × Container => Stands result.1 result.2 (val ::ₘ ref) others)
      (add memory c data val) := by
  obtain ⟨nodes, holds, rfl⟩ := stands
  unfold add
  cases rootIs : c.root with
  | none =>
      have stored := holds.tree
      rw [rootIs] at stored
      have empty := stored.eq_nil
      subst empty
      refine holds.stands_of_split fresh [] [] rfl ?_ rfl rfl ?_ ?_
      · refine ⟨.node data .nil .nil, rfl, ⟨?_, ?_, trivial, trivial⟩, ?_, rfl⟩
        · exact ⟨congrArg AVLNode.parent newData_leaf, congrArg AVLNode.left newData_leaf,
            congrArg AVLNode.right newData_leaf⟩
        · exact ⟨congrArg AVLNode.depth newData_leaf, congrArg AVLNode.count newData_leaf⟩
        · exact ⟨Nat.zero_le _, Nat.zero_le _, trivial, trivial⟩
      · exact fun other member => absurd member List.not_mem_nil
      · exact fun other member => absurd member List.not_mem_nil
  | some curr =>
      refine (avlCall_meets (holds.addLoop_spec fresh rootIs val)).bind ?_
      intro result placed
      obtain ⟨front, back, split, stored, lower, upper⟩ := placed
      exact holds.stands_of_split fresh front back split stored rfl rfl lower upper

/-- The search of `del` finds a node with the number if there is one. -/
theorem delSeek_spec {focus : BinaryTree Ptr} {parent : Option Ptr} {fuel : Nat}
    (linked : Linked memory.avl parent focus) (enough : focus.height < fuel)
    (sorted : (inorder focus).Pairwise fun lower upper => memory.val lower ≤ memory.val upper)
    (val : UInt32) :
    Meets (fun _ => False)
      (fun found : Option Ptr =>
        (∀ node ∈ found, node ∈ inorder focus ∧ memory.val node = val) ∧
        (found = none → ∀ node ∈ inorder focus, memory.val node ≠ val))
      (delSeek memory val fuel (rootPtr focus)) := by
  induction focus generalizing parent fuel with
  | nil =>
      obtain ⟨fuel, rfl⟩ : ∃ rest, fuel = rest + 1 := ⟨fuel - 1, by omega⟩
      refine ⟨fun node member => (Option.not_mem_none node member).elim, fun _ node member => ?_⟩
      exact absurd member List.not_mem_nil
  | node curr left right leftIh rightIh =>
      obtain ⟨wired, _, leftLinked, rightLinked⟩ := linked
      rw [BinaryTree.height] at enough
      obtain ⟨fuel, rfl⟩ : ∃ rest, fuel = rest + 1 := ⟨fuel - 1, by omega⟩
      rw [inorder, List.pairwise_append, List.pairwise_cons] at sorted
      obtain ⟨leftSorted, ⟨above, rightSorted⟩, across⟩ := sorted
      rw [rootPtr, delSeek, wired.left, wired.right]
      by_cases equal : val = memory.val curr
      · rw [if_pos equal]
        refine ⟨fun node member => ?_, fun contrary => absurd contrary (Option.some_ne_none curr)⟩
        rw [← Option.some.inj member]
        exact ⟨List.mem_append_right _ List.mem_cons_self, equal.symm⟩
      · rw [if_neg equal]
        by_cases less : val < memory.val curr
        · rw [if_pos less]
          refine (leftIh leftLinked (by omega) leftSorted).mono ?_
          rintro found ⟨present, missing⟩
          refine ⟨fun node member => ?_, fun none node member => ?_⟩
          · exact ⟨List.mem_append_left _ (present node member).1, (present node member).2⟩
          · rcases List.mem_append.mp member with inLeft | inRest
            · exact missing none node inLeft
            · rcases List.mem_cons.mp inRest with rfl | inRight
              · exact Ne.symm equal
              · have order := UInt32.lt_of_lt_of_le less (above node inRight)
                exact (UInt32.ne_of_lt order).symm
        · rw [if_neg less]
          have greater : memory.val curr < val :=
            UInt32.lt_of_le_of_ne (UInt32.not_lt.mp less) (Ne.symm equal)
          refine (rightIh rightLinked (by omega) rightSorted).mono ?_
          rintro found ⟨present, missing⟩
          refine ⟨fun node member => ?_, fun none node member => ?_⟩
          · exact ⟨List.mem_append_right _ (List.mem_cons_of_mem _ (present node member).1),
              (present node member).2⟩
          · rcases List.mem_append.mp member with inLeft | inRest
            · have order := UInt32.lt_of_le_of_lt
                (across node inLeft curr List.mem_cons_self) greater
              exact UInt32.ne_of_lt order
            · rcases List.mem_cons.mp inRest with rfl | inRight
              · exact Ne.symm equal
              · exact missing none node inRight

theorem Holds.deleteNode_spec {front back : List Ptr} {node : Ptr}
    (holds : Holds memory c (front ++ node :: back) others) :
    Meets (fun _ => False)
      (fun result : Memory × Container => result.1.val = memory.val ∧
        Holds result.1 result.2 (front ++ back) others)
      (deleteNode memory node) := by
  unfold deleteNode
  refine (avlCall_meets (holds.tree.delete holds.distinct)).bind ?_
  intro result reshaped
  have held : memory.live.val = {node} + ((front ++ back : List Ptr) + others) := by
    rw [holds.owned, ← add_assoc]
    congr 1
    have moved : (front ++ node :: back).Perm (node :: (front ++ back)) := List.perm_middle
    exact Multiset.coe_eq_coe.mpr moved
  obtain ⟨live, released, liveIs⟩ : ∃ live, (release memory.live node : Result (Finset Ptr)) =
      .ok live ∧ live.val = (front ++ back : List Ptr) + others := release_of_held held
  dsimp only
  rw [released]
  refine ⟨rfl, reshaped.tree, ?_, liveIs⟩
  exact holds.sorted.sublist (List.sublist_cons_self node back |>.append_left front)

theorem del_spec (stands : Stands memory c ref others) (val : UInt32) :
    Meets (fun _ => False)
      (fun result : (Memory × Container) × Bool =>
        result.2 = decide (val ∈ ref) ∧ Stands result.1.1 result.1.2 (ref.erase val) others)
      (del memory c val) := by
  obtain ⟨nodes, holds, rfl⟩ := stands
  obtain ⟨tree, treeRoot, linked, balanced, nodesAre⟩ := holds.tree
  have distinct := holds.distinct
  have sorted := holds.sorted
  rw [← nodesAre] at distinct sorted
  have low := height_lt_of_balanced balanced distinct
  have sought := delSeek_spec linked (show _ < avlFuel by unfold avlFuel; omega) sorted val
  rw [treeRoot, nodesAre] at sought
  unfold del
  refine (avlCall_meets sought).bind ?_
  rintro found ⟨present, missing⟩
  cases found with
  | none =>
      have absent : val ∉ (nodes.map memory.val : Multiset UInt32) := by
        intro member
        obtain ⟨node, nodeMember, valIs⟩ := List.mem_map.mp (Multiset.mem_coe.mp member)
        exact missing rfl node nodeMember valIs
      refine ⟨(decide_eq_false absent).symm, nodes, holds, ?_⟩
      exact (Multiset.erase_of_notMem absent).symm
  | some node =>
      obtain ⟨member, rfl⟩ := present node rfl
      obtain ⟨front, back, rfl⟩ := List.append_of_mem member
      refine holds.deleteNode_spec.bind ?_
      rintro ⟨memoryNew, cNew⟩ ⟨sameVal, holdsNew⟩
      have moved : ((front ++ node :: back).map memory.val).Perm
          (memory.val node :: (front ++ back).map memory.val) := List.perm_middle.map memory.val
      have inside : memory.val node ∈ ((front ++ node :: back).map memory.val :
          Multiset UInt32) := Multiset.mem_coe.mpr (List.mem_map_of_mem member)
      refine ⟨(decide_eq_true inside).symm, front ++ back, holdsNew, ?_⟩
      change (List.map memoryNew.val (front ++ back) : Multiset UInt32) = _
      rw [sameVal, Multiset.coe_eq_coe.mpr moved, ← Multiset.cons_coe, Multiset.erase_cons_head]

/-- `dispose` gives back the blocks of the container and no others. -/
theorem disposeLoop_spec {fuel : Nat} (holds : Holds memory c nodes others)
    (enough : nodes.length < fuel) :
    Meets (fun _ => False)
      (fun result : Memory × Container => result.2.root = none ∧ result.1.live.val = others)
      (disposeLoop fuel memory c) := by
  induction fuel generalizing memory c nodes with
  | zero => omega
  | succ fuel ih =>
      rw [disposeLoop]
      cases rootIs : c.root with
      | none =>
          have stored := holds.tree
          rw [rootIs] at stored
          have owned := holds.owned
          rw [stored.eq_nil] at owned
          exact ⟨rootIs, owned.trans (zero_add others)⟩
      | some node =>
          obtain ⟨tree, treeRoot, _, _, nodesAre⟩ := holds.tree
          have member : node ∈ nodes := by
            rw [← nodesAre]
            exact rootPtr_mem (treeRoot.trans rootIs)
          obtain ⟨front, back, rfl⟩ := List.append_of_mem member
          refine holds.deleteNode_spec.bind ?_
          rintro ⟨memoryNew, cNew⟩ ⟨-, holdsNew⟩
          apply ih holdsNew
          rw [List.length_append, List.length_cons] at enough
          rw [List.length_append]
          omega

theorem dispose_spec (stands : Stands memory c ref others) :
    Meets (fun _ => False)
      (fun result : Memory × Container => result.2.root = none ∧ result.1.live.val = others)
      (dispose memory c) := by
  obtain ⟨nodes, holds, -⟩ := stands
  apply disposeLoop_spec holds
  have few := length_le_of_nodup holds.distinct
  unfold avlFuel
  omega

/-! ### Verification of a tree in order -/

theorem check_of (site : Check) {condition : Prop} [Decidable condition] (holds : condition) :
    check site condition = .ok () := if_pos holds

private theorem modify_of_same {mem : AvlMem} {node : Ptr} {change : AVLNode → AVLNode}
    (same : change (mem node) = mem node) : modify mem node change = mem := by
  funext other
  by_cases here : other = node
  · rw [here, modify_same, same]
  · exact modify_ne mem change here

/-- The sum that `avl_verify` assigns is the count that is there. -/
private theorem countSum_eq {mem : AvlMem} {parent : Option Ptr} {node : Ptr}
    {left right : BinaryTree Ptr} (linked : Linked mem parent (.node node left right)) :
    1 + avlCount mem (mem node).left + avlCount mem (mem node).right = (mem node).count := by
  obtain ⟨wired, measured, leftLinked, rightLinked⟩ := linked
  rw [wired.left, wired.right, avlCount_rootPtr leftLinked, avlCount_rootPtr rightLinked,
    measured.count, UInt32.ofNat_add, UInt32.ofNat_add, UInt32.add_assoc, UInt32.add_comm]
  rfl

private theorem depthSum_eq {mem : AvlMem} {parent : Option Ptr} {node : Ptr}
    {left right : BinaryTree Ptr} (linked : Linked mem parent (.node node left right))
    (leftLow : left.height < 2 ^ 31) (rightLow : right.height < 2 ^ 31) :
    1 + max32 (avlDepth mem (mem node).left) (avlDepth mem (mem node).right) =
      (mem node).depth := by
  obtain ⟨wired, measured, leftLinked, rightLinked⟩ := linked
  rw [wired.left, wired.right, avlDepth_rootPtr leftLinked, avlDepth_rootPtr rightLinked,
    max32_ofNat leftLow rightLow, measured.depth, UInt32.ofNat_add, UInt32.add_comm]
  rfl

private theorem balance_holds {left right : Nat} (low : left ≤ right + 1)
    (high : right ≤ left + 1) :
    UInt32.ofNat left = UInt32.ofNat right ∨ UInt32.ofNat left = UInt32.ofNat right + 1 ∨
      UInt32.ofNat left + 1 = UInt32.ofNat right := by
  have one : (1 : UInt32) = UInt32.ofNat 1 := rfl
  rw [one, ← UInt32.ofNat_add, ← UInt32.ofNat_add]
  obtain same | more | less : left = right ∨ left = right + 1 ∨ left + 1 = right := by omega
  · exact .inl (congrArg _ same)
  · exact .inr (.inl (congrArg _ more))
  · exact .inr (.inr (congrArg _ less))

private theorem checkChild_of {mem : AvlMem} {node : Ptr} {child : BinaryTree Ptr}
    (parentSite orderSite : Check) {inOrder : Ptr → Prop} [DecidablePred inOrder]
    (linked : Linked mem (some node) child) (ordered : ∀ other ∈ inorder child, inOrder other) :
    checkChild mem node parentSite orderSite inOrder (rootPtr child) = .ok () := by
  cases child with
  | nil => rfl
  | node top lower upper =>
      rw [rootPtr, checkChild, check_of parentSite linked.1.parent]
      exact check_of orderSite (ordered top (List.mem_append_right _ List.mem_cons_self))

theorem verifyNode_spec {mem : AvlMem} {parent : Option Ptr} {values : Ptr → UInt32} {node : Ptr}
    {left right : BinaryTree Ptr} (linked : Linked mem parent (.node node left right))
    (balanced : BalancedTree.Balanced (.node node left right))
    (low : max left.height right.height < 2 ^ 31)
    (lower : ∀ other ∈ inorder left, values other ≤ values node)
    (upper : ∀ other ∈ inorder right, values other ≥ values node) :
    Meets (fun fault => fault = .program (.check .count) ∧
        2 ^ 32 ≤ left.numNodes + right.numNodes + 1)
      (· = mem) (verifyNode values mem node) := by
  have countIs := countSum_eq linked
  have depthIs := depthSum_eq linked (by omega) (by omega)
  have sameCount : (modify mem node fun fields =>
      { fields with count := (mem node).count }) = mem := modify_of_same rfl
  have sameDepth : (modify mem node fun fields =>
      { fields with depth := (mem node).depth }) = mem := modify_of_same rfl
  obtain ⟨wired, measured, leftLinked, rightLinked⟩ := linked
  obtain ⟨leftShort, rightShort, -, -⟩ := balanced
  have deep : (mem node).depth ≠ 0 := by
    rw [measured.depth]
    intro zero
    have wrapped := congrArg UInt32.toNat zero
    rw [toNat_ofNat_shallow (by omega)] at wrapped
    cases wrapped
  unfold verifyNode
  simp only [countIs, sameCount, depthIs, sameDepth]
  by_cases zero : (mem node).count = 0
  · rw [check, if_neg (not_not_intro zero)]
    refine ⟨rfl, ?_⟩
    by_contra few
    rw [measured.count] at zero
    have wrapped := congrArg UInt32.toNat zero
    rw [UInt32.toNat_ofNat_of_lt' (Nat.not_le.mp few)] at wrapped
    cases wrapped
  · rw [check_of .count zero, ok_bind, wired.left, wired.right, avlDepth_rootPtr leftLinked,
      avlDepth_rootPtr rightLinked, check_of .balance (balance_holds leftShort rightShort), ok_bind,
      check_of .depth deep, ok_bind, checkChild_of _ _ leftLinked lower, ok_bind,
      checkChild_of _ _ rightLinked upper, ok_bind]
    rfl

/-- The verification leaves the memory as it is; it can fail only where a count wraps. -/
theorem avlVerify_spec {mem : AvlMem} {parent : Option Ptr} {values : Ptr → UInt32} {fuel : Nat}
    {tree : BinaryTree Ptr} (linked : Linked mem parent tree)
    (balanced : BalancedTree.Balanced tree) (low : tree.height < 2 ^ 31)
    (enough : tree.height < fuel)
    (sorted : (inorder tree).Pairwise fun lower upper => values lower ≤ values upper) :
    Meets (fun fault => fault = .program (.check .count) ∧ 2 ^ 32 ≤ tree.numNodes) (· = mem)
      (avlVerify values fuel mem parent (rootPtr tree)) := by
  induction tree generalizing parent fuel with
  | nil =>
      obtain ⟨fuel, rfl⟩ : ∃ rest, fuel = rest + 1 := ⟨fuel - 1, by omega⟩
      rfl
  | node node left right leftIh rightIh =>
      have whole := linked
      have even := balanced
      obtain ⟨wired, -, leftLinked, rightLinked⟩ := linked
      obtain ⟨-, -, leftBalanced, rightBalanced⟩ := balanced
      rw [BinaryTree.height] at low enough
      obtain ⟨fuel, rfl⟩ : ∃ rest, fuel = rest + 1 := ⟨fuel - 1, by omega⟩
      rw [inorder, List.pairwise_append, List.pairwise_cons] at sorted
      obtain ⟨leftSorted, ⟨above, rightSorted⟩, across⟩ := sorted
      rw [rootPtr, avlVerify, check_of .parent wired.parent, ok_bind, wired.left]
      refine ((leftIh leftLinked leftBalanced (by omega) (by omega) leftSorted).widen ?_).bind ?_
      · rintro fault ⟨rfl, many⟩
        exact ⟨rfl, many.trans (by rw [BinaryTree.numNodes]; omega)⟩
      intro memLeft sameLeft
      subst sameLeft
      rw [wired.right]
      refine ((rightIh rightLinked rightBalanced (by omega) (by omega)
        rightSorted).widen ?_).bind ?_
      · rintro fault ⟨rfl, many⟩
        exact ⟨rfl, many.trans (by rw [BinaryTree.numNodes]; omega)⟩
      intro memRight sameRight
      subst sameRight
      refine (verifyNode_spec whole even (by omega) ?_ above).widen ?_
      · exact fun other member => across other member node List.mem_cons_self
      · rintro fault ⟨rfl, many⟩
        exact ⟨rfl, many⟩

private theorem extract_eq {focus : BinaryTree Ptr} {parent : Option Ptr} {fuel : Nat}
    (linked : Linked memory.avl parent focus) (enough : focus.height < fuel)
    (extracted : Multiset UInt32) :
    extract memory fuel (rootPtr focus) extracted =
      .ok ((inorder focus).map memory.val + extracted) := by
  induction focus generalizing parent fuel extracted with
  | nil =>
      obtain ⟨fuel, rfl⟩ : ∃ rest, fuel = rest + 1 := ⟨fuel - 1, by omega⟩
      rw [rootPtr, extract, inorder, List.map_nil, Multiset.coe_nil, zero_add]
  | node node left right leftIh rightIh =>
      obtain ⟨wired, -, leftLinked, rightLinked⟩ := linked
      rw [BinaryTree.height] at enough
      obtain ⟨fuel, rfl⟩ : ∃ rest, fuel = rest + 1 := ⟨fuel - 1, by omega⟩
      rw [rootPtr, extract, wired.left, wired.right, leftIh leftLinked (by omega), ok_bind,
        rightIh rightLinked (by omega), inorder, List.map_append, List.map_cons,
        ← Multiset.coe_add, ← Multiset.cons_coe, ← Multiset.singleton_add,
        ← Multiset.singleton_add]
      congr 1
      abel

/-- The verification passes for the numbers that are there and for no others, and then
changes nothing, unless they are too many for 32 bits. -/
theorem containerVerify_spec (stands : Stands memory c ref others) (claimed : Multiset UInt32) :
    Meets (fun _ => claimed = ref → 2 ^ 32 ≤ ref.card)
      (fun after => after = memory ∧ claimed = ref ∧ ref.card < 2 ^ 32)
      (containerVerify memory c claimed) := by
  obtain ⟨nodes, holds, refIs⟩ := stands
  obtain ⟨tree, treeRoot, linked, balanced, nodesAre⟩ := holds.tree
  have distinct := holds.distinct
  have sorted := holds.sorted
  rw [← nodesAre] at distinct sorted refIs
  have low := height_lt_of_balanced balanced distinct
  have cardIs : ref.card = tree.numNodes := by
    rw [← refIs, Multiset.coe_card, List.length_map, length_inorder]
  have countIs : (avlCount memory.avl c.root).toNat = ref.card % 2 ^ 32 := by
    rw [← treeRoot, avlCount_rootPtr linked, cardIs]
    exact UInt32.toNat_ofNat
  unfold containerVerify
  rw [← treeRoot] at countIs ⊢
  refine ((avlVerify_spec linked balanced (by omega) (show _ < avlFuel by unfold avlFuel; omega)
    sorted).widen ?_).bind ?_
  · rintro fault ⟨-, many⟩ -
    rw [cardIs]
    exact many
  intro avl same
  subst same
  dsimp only
  by_cases size : (avlCount memory.avl (rootPtr tree)).toNat = claimed.card
  · rw [check_of .size size, ok_bind, extract_eq linked (show _ < avlFuel by unfold avlFuel; omega),
      ok_bind, add_zero, refIs]
    by_cases contents : ref = claimed
    · rw [check_of .contents contents, ok_bind]
      refine ⟨rfl, contents.symm, ?_⟩
      rw [contents, ← size]
      exact UInt32.toNat_lt _
    · rw [check, if_neg contents]
      exact fun same => absurd same.symm contents
  · rw [check, if_neg size]
    intro same
    by_contra few
    rw [countIs, same, Nat.mod_eq_of_lt (Nat.not_le.mp few)] at size
    exact size rfl

theorem containerVerify_eq (stands : Stands memory c ref others) (few : ref.card < 2 ^ 32) :
    containerVerify memory c ref = .ok memory := by
  obtain ⟨after, returned, same, -⟩ := ((containerVerify_spec stands ref).widen
    fun _ wrapped => Nat.not_le.mpr few (wrapped rfl)).returns
  rw [returned, same]

end

/-! ### Whole runs of one container -/

inductive Call
  | add (data : Ptr) (val : UInt32)
  | del (val : UInt32) (found : Bool)
  | verify (ref : Multiset UInt32)
  | dispose

def Call.exec (state : Memory × Container) : Call → Result ((Memory × Container) × Bool)
  | .add data val => do
      let after ← TestAvl.add state.1 state.2 data val
      pure (after, true)
  | .del val _ => TestAvl.del state.1 state.2 val
  | .verify ref => do
      let memory ← containerVerify state.1 state.2 ref
      pure ((memory, state.2), true)
  | .dispose => do
      let after ← TestAvl.dispose state.1 state.2
      pure (after, true)

def Call.answer : Call → Bool
  | .del _ found => found
  | _ => true

def Call.Fresh (state : Memory × Container) : Call → Prop
  | .add data _ => data ∉ state.1.live
  | _ => True

def CallStep (state : Memory × Container) (call : Call) (after : Memory × Container) : Prop :=
  call.Fresh state ∧ call.exec state = .ok (after, call.answer)

def refAfter (ref : Multiset UInt32) : Call → Multiset UInt32
  | .add _ val => val ::ₘ ref
  | .del val _ => ref.erase val
  | .verify _ => ref
  | .dispose => 0

/-- The next calls answer as the multiset does, and the blocks are those of its numbers. -/
structure ActsAs (memory : Memory) (c : Container) (ref : Multiset UInt32) (others : Finset Ptr) :
    Prop where
  add : ∀ data val, data ∉ memory.live → ∃ after, TestAvl.add memory c data val = .ok after
  del : ∀ val, ∃ after, TestAvl.del memory c val = .ok (after, decide (val ∈ ref))
  verify : ∀ claimed after, containerVerify memory c claimed = .ok after ↔
    after = memory ∧ claimed = ref ∧ ref.card < 2 ^ 32
  dispose : ∃ after, TestAvl.dispose memory c = .ok after ∧ after.2 = {} ∧ after.1.live = others
  live : others ⊆ memory.live ∧ memory.live.card = others.card + ref.card

theorem Stands.actsAs {memory : Memory} {c : Container} {ref : Multiset UInt32}
    {others : Finset Ptr} (stands : Stands memory c ref others.val) :
    ActsAs memory c ref others := by
  constructor
  · intro data val fresh
    obtain ⟨after, returned, -⟩ := (add_spec stands fresh val).returns
    exact ⟨after, returned⟩
  · intro val
    obtain ⟨⟨after, found⟩, returned, rfl, -⟩ := (del_spec stands val).returns
    exact ⟨after, returned⟩
  · intro claimed after
    constructor
    · exact (containerVerify_spec stands claimed).of_ok
    · rintro ⟨rfl, rfl, few⟩
      exact containerVerify_eq stands few
  · obtain ⟨after, returned, rootIs, liveIs⟩ := (dispose_spec stands).returns
    refine ⟨after, returned, ?_, Finset.val_injective liveIs⟩
    rcases after with ⟨memory, root⟩
    exact congrArg Container.mk rootIs
  · refine ⟨?_, ?_⟩
    · obtain ⟨nodes, holds, -⟩ := stands
      intro block member
      rw [← Finset.mem_val, holds.owned]
      exact Multiset.mem_add.mpr (.inr member)
    · rw [stands.card_live, Nat.add_comm, Finset.card_def]

theorem CallStep.stands {others : Multiset Ptr} (past : List Call) (state : Memory × Container)
    (call : Call) (after : Memory × Container)
    (stands : Stands state.1 state.2 (past.foldl refAfter 0) others)
    (step : CallStep state call after) :
    Stands after.1 after.2 ((past ++ [call]).foldl refAfter 0) others := by
  obtain ⟨fresh, executed⟩ := step
  rw [List.foldl_append, List.foldl_cons, List.foldl_nil]
  cases call with
  | add data val =>
      obtain ⟨result, returned, final⟩ := bind_eq_ok executed
      cases final
      exact (add_spec stands fresh val).of_ok returned
  | del val found => exact ((del_spec stands val).of_ok executed).2
  | verify ref =>
      obtain ⟨memory, returned, final⟩ := bind_eq_ok executed
      cases final
      obtain ⟨rfl, -, -⟩ := (containerVerify_spec stands ref).of_ok returned
      exact stands
  | dispose =>
      obtain ⟨⟨memory, c⟩, returned, final⟩ := bind_eq_ok executed
      cases final
      obtain ⟨rootIs, liveIs⟩ := (dispose_spec stands).of_ok returned
      have empty : c = {} := congrArg Container.mk rootIs
      have restarted := stands_empty memory
      rw [liveIs] at restarted
      rw [empty]
      exact restarted

/-- In every order of calls, beside any other blocks, a container is a multiset: `del`
finds what the multiset has, and `container_verify` passes for this multiset alone and
changes nothing, as long as its size fits in 32 bits.  No call stops at an assertion
of its own, frees a block that is not its own or leaks one. -/
theorem container_refines_multiset {memory : Memory} {trace : List Call}
    {state : Memory × Container} (run : Runs CallStep (memory, {}) trace state) :
    ActsAs state.1 state.2 (trace.foldl refAfter 0) memory.live :=
  (run.history CallStep.stands (stands_empty memory)).actsAs

instance Call.decidableFresh (state : Memory × Container) :
    (call : Call) → Decidable (call.Fresh state)
  | .add data _ => inferInstanceAs (Decidable (data ∉ state.1.live))
  | .del _ _ => .isTrue trivial
  | .verify _ => .isTrue trivial
  | .dispose => .isTrue trivial

def callNext : Memory × Container → Call → Option (Memory × Container) :=
  answered Call.Fresh Call.answer fun state call => call.exec state

theorem callNext_sound (state : Memory × Container) (call : Call) (after : Memory × Container)
    (stepped : callNext state call = some after) : CallStep state call after :=
  answered_sound state call after stepped

/-- Five and seven twice, one of them removed; the address of the first is used again. -/
def fiveAndSeven : List Call :=
  [.add 1 5, .del 5 true, .add 2 7, .add 1 7, .add 4 5, .verify {5, 7, 7}, .del 7 true,
    .del 8 false]

theorem container_refines_multiset_fiveAndSeven :
    ∃ state, Runs CallStep ({ live := {3} }, {}) fiveAndSeven state ∧
      containerVerify state.1 state.2 {5, 7} = .ok state.1 ∧
      ∃ after, TestAvl.dispose state.1 state.2 = .ok after ∧ after.1.live = {3} := by
  have followed : (follow callNext ({ live := {3} }, {}) fiveAndSeven).isSome = true := by
    decide +kernel
  obtain ⟨state, run⟩ := runs_of_follow callNext_sound followed
  have actsAs := container_refines_multiset run
  have refIs : fiveAndSeven.foldl refAfter 0 = {5, 7} := by decide +kernel
  rw [refIs] at actsAs
  obtain ⟨after, returned, -, liveIs⟩ := actsAs.dispose
  exact ⟨state, run, (actsAs.verify _ _).mpr ⟨rfl, rfl, by decide⟩, after, returned, liveIs⟩

end RedisC.TestAvl
