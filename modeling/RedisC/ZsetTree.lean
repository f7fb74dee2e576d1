/-
The order of the tree index and the insertion into it.

`zless` is the lexicographic order of the score, the bytes and the length, as
long as no name reaches `2 ^ 32` bytes: `min` is computed in 32 bits.  Where
`tree_add` puts the node decides the order only; that the result is a balanced
tree of the old nodes and the new one holds whatever the comparisons say.
-/

import RedisC.AvlOffset
import RedisC.Zset

namespace RedisC

open BalancedTree Fallible

/-! ### The order of tuples -/

/-- The tuples are ordered by the score, then by the bytes of the name; a proper
initial part of a name comes first. -/
def tupleKey (score : Score) (name : Bytes) : ℤ ×ₗ List ℕ :=
  toLex (score.rank, name.map UInt8.toNat)

def ZNode.key (node : ZNode) : ℤ ×ₗ List ℕ := tupleKey node.score node.name

private theorem bytes_toNat_injective : Function.Injective fun name :
    Bytes => name.map UInt8.toNat :=
  List.map_injective_iff.mpr fun _ _ => UInt8.toNat_inj.mp

private theorem memcmp_lt_iff (lhs rhs : Bytes) :
    (if memcmp lhs rhs (min lhs.length rhs.length) ≠ 0 then
      decide (memcmp lhs rhs (min lhs.length rhs.length) < 0)
    else decide (lhs.length < rhs.length)) = true ↔
      lhs.map UInt8.toNat < rhs.map UInt8.toNat := by
  induction lhs generalizing rhs with
  | nil =>
      cases rhs with
      | nil => simp [memcmp]
      | cons r rhs => simp [memcmp]
  | cons l lhs ih =>
      cases rhs with
      | nil => simp [memcmp]
      | cons r rhs =>
          simp only [List.length_cons, List.map_cons, List.cons_lt_cons_iff,
            Nat.add_min_add_right, memcmp]
          by_cases same : l = r
          · subst same
            simpa using ih rhs
          · have apart : l.toNat ≠ r.toNat := fun equal => same (UInt8.toNat_inj.mp equal)
            have difference : (l.toNat : Int) - r.toNat ≠ 0 := by omega
            simp only [if_neg same, if_pos difference, decide_eq_true_eq, apart, false_and,
              or_false]
            omega

private theorem min32_eq {lhs rhs : Nat} (short : lhs < 2 ^ 32) : min32 lhs rhs = min lhs rhs := by
  unfold min32
  split <;> omega

theorem zlessTuple_iff {node : ZNode} {score : Score} {name : Bytes}
    (short : node.name.length < 2 ^ 32) :
    zlessTuple node score name = true ↔ node.key < tupleKey score name := by
  unfold zlessTuple ZNode.key tupleKey
  rw [Prod.Lex.toLex_lt_toLex, min32_eq short]
  by_cases same : node.score.rank = score.rank
  · rw [if_neg (not_not.mpr same)]
    have names := memcmp_lt_iff node.name name
    simp only [same, Int.lt_irrefl, true_and, false_or]
    exact names
  · rw [if_pos same]
    simp only [same, false_and, or_false, decide_eq_true_eq]

theorem zless_iff {node other : ZNode} (short : node.name.length < 2 ^ 32) :
    zless node other = true ↔ node.key < other.key := zlessTuple_iff short

theorem key_ne_of_name_ne {node other : ZNode} (apart : node.name ≠ other.name) :
    node.key ≠ other.key := by
  intro same
  have pairs := toLex.injective same
  exact apart (bytes_toNat_injective (congrArg Prod.snd pairs))

/-! ### Descents -/

section Descents

variable {zset : ZSet} {node curr : Ptr} {nodes : List Ptr}

/-- The slot that `tree_add` descends to, and the rebalancing it starts there. -/
private theorem treeAddLoop_eq (node : Ptr) {focus : BinaryTree Ptr} {parent : Option Ptr}
    (context : List (Frame Ptr)) {fuel : Nat} (linked : Linked zset.avl parent focus)
    (rootIs : rootPtr focus = some curr) (enough : focus.height ≤ fuel) :
    ∃ frame rest,
      slot (fun other => zless (zset.znode node) (zset.znode other)) focus context =
        frame :: rest ∧
      treeAddLoop zset node fuel curr =
        avlRebalance avlFuel
          (setParent (setChild zset.avl frame (some node)) node (some frame.value)) node := by
  induction focus generalizing parent context curr fuel with
  | nil => cases rootIs
  | node value left right leftIh rightIh =>
      cases rootIs
      obtain ⟨wired, _, leftLinked, rightLinked⟩ := linked
      rw [BinaryTree.height] at enough
      obtain ⟨fuel, rfl⟩ : ∃ rest, fuel = rest + 1 := ⟨fuel - 1, by omega⟩
      rw [slot, treeAddLoop]
      cases direction : zless (zset.znode node) (zset.znode value) with
      | true =>
          rw [if_pos rfl, if_pos rfl, wired.left]
          cases left with
          | nil => exact ⟨_, _, rfl, rfl⟩
          | node next lower upper =>
              exact leftIh (.goneLeft value right :: context) leftLinked rfl (by omega)
      | false =>
          rw [if_neg (by decide), if_neg (by decide), wired.right]
          cases right with
          | nil => exact ⟨_, _, rfl, rfl⟩
          | node next lower upper =>
              exact rightIh (.goneRight left value :: context) rightLinked rfl (by omega)

structure TreeAdded (zset : ZSet) (node : Ptr) (nodes front back : List Ptr)
    (after : ZSet) : Prop where
  split : nodes = front ++ back
  tree : AvlTree after.avl after.tree (front ++ node :: back)
  hmap : after.hmap = zset.hmap
  znode : after.znode = zset.znode
  cut : (nodes.Pairwise fun lower upper =>
      zless (zset.znode node) (zset.znode lower) = true →
        zless (zset.znode node) (zset.znode upper) = true) →
    (∀ other ∈ front, zless (zset.znode node) (zset.znode other) = false) ∧
      ∀ other ∈ back, zless (zset.znode node) (zset.znode other) = true

theorem treeAdd_spec (stored : AvlTree zset.avl zset.tree nodes) (distinct : nodes.Nodup)
    (away : node ∉ nodes) (leaf : zset.avl node = { depth := 1, count := 1 }) :
    Meets (fun _ => False) (fun after => ∃ front back, TreeAdded zset node nodes front back after)
      (treeAdd zset node) := by
  have wired : Wired zset.avl none node none none :=
    ⟨congrArg AVLNode.parent leaf, congrArg AVLNode.left leaf, congrArg AVLNode.right leaf⟩
  unfold treeAdd
  cases rootIs : zset.tree with
  | none =>
      rw [rootIs] at stored
      cases stored.eq_nil
      refine ⟨[], [], rfl, ⟨.node node .nil .nil, rfl, ?_, ?_, rfl⟩, rfl, rfl, ?_⟩
      · exact ⟨wired, ⟨congrArg AVLNode.depth leaf, congrArg AVLNode.count leaf⟩,
          trivial, trivial⟩
      · exact ⟨Nat.zero_le _, Nat.zero_le _, trivial, trivial⟩
      · intro _
        exact ⟨fun _ member => absurd member List.not_mem_nil,
          fun _ member => absurd member List.not_mem_nil⟩
  | some curr =>
      obtain ⟨tree, treeRoot, linked, balanced, rfl⟩ := stored
      rw [rootIs] at treeRoot
      have low := height_lt_of_balanced balanced distinct
      obtain ⟨frame, rest, slotIs, loopIs⟩ := treeAddLoop_eq node [] linked treeRoot
        (show _ ≤ avlFuel by unfold avlFuel; omega)
      have same : plug (frame :: rest) .nil = tree := by
        rw [← slotIs, plug_slot]
        rfl
      have nodesAre : inorder tree = before (frame :: rest) ++ after (frame :: rest) := by
        rw [← same, inorder_plug, inorder, List.append_nil]
      rw [← same] at linked balanced
      have distinctPlug : (inorder (plug (frame :: rest) .nil)).Nodup := by
        rw [same]
        exact distinct
      have awayPlug : node ∉ inorder (plug (frame :: rest) .nil) := by
        rw [same]
        exact away
      obtain ⟨hung, path⟩ := hang_spec linked distinctPlug awayPlug wired
      have placed : (before (frame :: rest) ++ node :: after (frame :: rest)).Nodup := by
        rw [List.nodup_middle, List.nodup_cons, ← nodesAre]
        exact ⟨away, distinct⟩
      simp only [loopIs]
      refine (avlRebalance_insert hung path placed balanced).bind ?_
      intro result reshaped
      rcases result with ⟨avl, root⟩
      refine ⟨before (frame :: rest), after (frame :: rest), nodesAre, reshaped.tree,
        rfl, rfl, ?_⟩
      intro upward
      obtain ⟨front, back, _, low, high, frontIs, backIs⟩ := slot_sides upward []
      rw [slotIs] at frontIs backIs
      rw [frontIs, backIs, before, after, List.nil_append, List.append_nil]
      exact ⟨low, high⟩

/-- The search of `zset_query` ends, at a node of the tree if at any. -/
theorem zsetSeek_spec {focus : BinaryTree Ptr} {parent : Option Ptr} {score : Score}
    {name : Bytes} {fuel : Nat} (linked : Linked zset.avl parent focus)
    (enough : focus.height < fuel) (found : Option Ptr) :
    Meets (fun _ => False)
      (fun result => result = found ∨ ∃ node ∈ inorder focus, result = some node)
      (zsetSeek zset score name fuel found (rootPtr focus)) := by
  induction focus generalizing parent found fuel with
  | nil =>
      obtain ⟨fuel, rfl⟩ : ∃ rest, fuel = rest + 1 := ⟨fuel - 1, by omega⟩
      exact .inl rfl
  | node value left right leftIh rightIh =>
      obtain ⟨wired, _, leftLinked, rightLinked⟩ := linked
      rw [BinaryTree.height] at enough
      obtain ⟨fuel, rfl⟩ : ∃ rest, fuel = rest + 1 := ⟨fuel - 1, by omega⟩
      rw [rootPtr, zsetSeek, wired.left, wired.right]
      split
      · refine (rightIh rightLinked (by omega) found).mono ?_
        intro result either
        rcases either with kept | ⟨node, member, resultIs⟩
        · exact .inl kept
        · exact .inr ⟨node, List.mem_append_right _ (List.mem_cons_of_mem _ member), resultIs⟩
      · refine (leftIh leftLinked (by omega) (some value)).mono ?_
        intro result either
        rcases either with kept | ⟨node, member, resultIs⟩
        · exact .inr ⟨value, List.mem_append_right _ List.mem_cons_self, kept⟩
        · exact .inr ⟨node, List.mem_append_left _ member, resultIs⟩

end Descents

end RedisC
