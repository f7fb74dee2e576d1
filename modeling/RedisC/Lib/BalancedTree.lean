/-
Height-balanced binary trees and their repair along a path to the root.

A tree that has changed in one place is a focus inside a context of frames, the
innermost frame first.  `climb` repairs the focus, puts it back into the next
frame and goes on to the root.  It keeps the in-order sequence, and it restores
the balance whenever the height of the focus is at most one away from the
height the context was balanced for.  That one condition covers insertions and
deletions alike.
-/

import Mathlib

namespace BalancedTree

open BinaryTree

variable {β : Type*}

def inorder : BinaryTree β → List β
  | .nil => []
  | .node value left right => inorder left ++ value :: inorder right

/-- At every node the heights of the two subtrees differ by at most one. -/
def Balanced : BinaryTree β → Prop
  | .nil => True
  | .node _ left right =>
      left.height ≤ right.height + 1 ∧ right.height ≤ left.height + 1 ∧
        Balanced left ∧ Balanced right

theorem length_inorder (tree : BinaryTree β) :
    (inorder tree).length = tree.numNodes := by
  induction tree with
  | nil => rfl
  | node value left right leftIh rightIh =>
      rw [inorder, List.length_append, List.length_cons, leftIh, rightIh, numNodes]
      omega

/-- A balanced tree has exponentially many nodes in half its height. -/
theorem two_pow_height_le {tree : BinaryTree β} (balanced : Balanced tree) :
    2 ^ (tree.height / 2) ≤ tree.numNodes + 1 := by
  induction tree with
  | nil => simp
  | node value left right leftIh rightIh =>
      obtain ⟨leftLow, rightLow, leftBalanced, rightBalanced⟩ := balanced
      have leftMany := leftIh leftBalanced
      have rightMany := rightIh rightBalanced
      rw [height, numNodes]
      rcases Nat.le_total left.height right.height with leftShort | rightShort
      · have half : (max left.height right.height + 1) / 2 ≤ left.height / 2 + 1 := by omega
        have power := Nat.pow_le_pow_right (n := 2) (by decide) half
        have monotone := Nat.pow_le_pow_right (n := 2) (by decide)
          (Nat.div_le_div_right (c := 2) leftShort)
        rw [Nat.pow_succ] at power
        omega
      · have half : (max left.height right.height + 1) / 2 ≤ right.height / 2 + 1 := by omega
        have power := Nat.pow_le_pow_right (n := 2) (by decide) half
        have monotone := Nat.pow_le_pow_right (n := 2) (by decide)
          (Nat.div_le_div_right (c := 2) rightShort)
        rw [Nat.pow_succ] at power
        omega

/-! ### Contexts -/

/-- One step of the path from the root: the node and the subtree left aside. -/
inductive Frame (β : Type*)
  | goneLeft (value : β) (right : BinaryTree β)
  | goneRight (left : BinaryTree β) (value : β)

def Frame.value : Frame β → β
  | .goneLeft value _ => value
  | .goneRight _ value => value

def Frame.aside : Frame β → BinaryTree β
  | .goneLeft _ right => right
  | .goneRight left _ => left

def Frame.put : Frame β → BinaryTree β → BinaryTree β
  | .goneLeft value right, tree => .node value tree right
  | .goneRight left value, tree => .node value left tree

def plug : List (Frame β) → BinaryTree β → BinaryTree β
  | [], tree => tree
  | frame :: rest, tree => plug rest (frame.put tree)

/-- The values before and after the focus in the in-order sequence. -/
def before : List (Frame β) → List β
  | [] => []
  | .goneLeft _ _ :: rest => before rest
  | .goneRight left value :: rest => before rest ++ (inorder left ++ [value])

def after : List (Frame β) → List β
  | [] => []
  | .goneLeft value right :: rest => value :: inorder right ++ after rest
  | .goneRight _ _ :: rest => after rest

theorem inorder_plug (context : List (Frame β)) (tree : BinaryTree β) :
    inorder (plug context tree) = before context ++ inorder tree ++ after context := by
  induction context generalizing tree with
  | nil => simp only [plug, before, after, List.nil_append, List.append_nil]
  | cons frame rest ih =>
      rw [plug, ih]
      cases frame with
      | goneLeft value right =>
          simp only [Frame.put, inorder, before, after, List.append_assoc, List.cons_append]
      | goneRight left value =>
          simp only [Frame.put, inorder, before, after, List.append_assoc, List.cons_append,
            List.nil_append]

theorem plug_append (inner outer : List (Frame β)) (tree : BinaryTree β) :
    plug (inner ++ outer) tree = plug outer (plug inner tree) := by
  induction inner generalizing tree with
  | nil => rfl
  | cons frame rest ih => exact ih (frame.put tree)

theorem before_append (inner outer : List (Frame β)) :
    before (inner ++ outer) = before outer ++ before inner := by
  induction inner with
  | nil => rw [List.nil_append, before, List.append_nil]
  | cons frame rest ih =>
      cases frame with
      | goneLeft value right => rw [List.cons_append, before, before, ih]
      | goneRight left value => rw [List.cons_append, before, before, ih, List.append_assoc]

theorem after_append (inner outer : List (Frame β)) :
    after (inner ++ outer) = after inner ++ after outer := by
  induction inner with
  | nil => rfl
  | cons frame rest ih =>
      cases frame with
      | goneLeft value right => rw [List.cons_append, after, after, ih, List.append_assoc]
      | goneRight left value => rw [List.cons_append, after, after, ih]

theorem exists_plug_of_mem {tree : BinaryTree β} {value : β}
    (member : value ∈ inorder tree) :
    ∃ context left right, tree = plug context (.node value left right) := by
  induction tree with
  | nil => cases member
  | node root left right leftIh rightIh =>
      rw [inorder, List.mem_append, List.mem_cons] at member
      rcases member with inLeft | rfl | inRight
      · obtain ⟨context, innerLeft, innerRight, same⟩ := leftIh inLeft
        refine ⟨context ++ [.goneLeft root right], innerLeft, innerRight, ?_⟩
        rw [plug_append, ← same]
        rfl
      · exact ⟨[], left, right, rfl⟩
      · obtain ⟨context, innerLeft, innerRight, same⟩ := rightIh inRight
        refine ⟨context ++ [.goneRight left root], innerLeft, innerRight, ?_⟩
        rw [plug_append, ← same]
        rfl

theorem length_le_numNodes_plug (context : List (Frame β)) (tree : BinaryTree β) :
    context.length + tree.numNodes ≤ (plug context tree).numNodes := by
  induction context generalizing tree with
  | nil => exact Nat.le_of_eq (Nat.zero_add _)
  | cons frame rest ih =>
      have grown := ih (frame.put tree)
      have counted : tree.numNodes + 1 ≤ (frame.put tree).numNodes := by
        cases frame with
        | goneLeft value right =>
            simp only [Frame.put, numNodes]
            omega
        | goneRight left value =>
            simp only [Frame.put, numNodes]
            omega
      rw [List.length_cons, plug]
      omega

theorem height_le_height_plug (context : List (Frame β)) (tree : BinaryTree β) :
    tree.height ≤ (plug context tree).height := by
  induction context generalizing tree with
  | nil => exact Nat.le_refl _
  | cons frame rest ih =>
      refine Nat.le_trans ?_ (ih (frame.put tree))
      cases frame with
      | goneLeft value right =>
          simp only [Frame.put, height]
          omega
      | goneRight left value =>
          simp only [Frame.put, height]
          omega

/-! ### Searches -/

/-- The vacant slot that a search reaches, as a context. -/
def slot (goLeft : β → Bool) : BinaryTree β → List (Frame β) → List (Frame β)
  | .nil, context => context
  | .node value left right, context =>
      if goLeft value then slot goLeft left (.goneLeft value right :: context)
      else slot goLeft right (.goneRight left value :: context)

theorem plug_slot (goLeft : β → Bool) (tree : BinaryTree β) (context : List (Frame β)) :
    plug (slot goLeft tree context) .nil = plug context tree := by
  induction tree generalizing context with
  | nil => rfl
  | node value left right leftIh rightIh =>
      rw [slot]
      split
      · exact leftIh _
      · exact rightIh _

/-- A search for a cut of the in-order sequence ends at the cut. -/
theorem slot_sides {goLeft : β → Bool} {tree : BinaryTree β}
    (upward : (inorder tree).Pairwise fun lower upper =>
      goLeft lower = true → goLeft upper = true) (context : List (Frame β)) :
    ∃ front back, inorder tree = front ++ back ∧
      (∀ value ∈ front, goLeft value = false) ∧ (∀ value ∈ back, goLeft value = true) ∧
      before (slot goLeft tree context) = before context ++ front ∧
      after (slot goLeft tree context) = back ++ after context := by
  induction tree generalizing context with
  | nil =>
      refine ⟨[], [], rfl, ?_, ?_, ?_, rfl⟩
      · exact fun value member => absurd member List.not_mem_nil
      · exact fun value member => absurd member List.not_mem_nil
      · exact (List.append_nil _).symm
  | node value left right leftIh rightIh =>
      rw [inorder, List.pairwise_append, List.pairwise_cons] at upward
      obtain ⟨leftUpward, ⟨rightAbove, rightUpward⟩, across⟩ := upward
      rw [slot]
      cases direction : goLeft value with
      | true =>
          obtain ⟨front, back, nodes, low, high, beforeIs, afterIs⟩ :=
            leftIh leftUpward (.goneLeft value right :: context)
          refine ⟨front, back ++ value :: inorder right, ?_, low, ?_, beforeIs, ?_⟩
          · rw [inorder, nodes, List.append_assoc]
          · intro other member
            rcases List.mem_append.mp member with inBack | inRest
            · exact high other inBack
            · rcases List.mem_cons.mp inRest with rfl | inRight
              · exact direction
              · exact rightAbove other inRight direction
          · rw [if_pos rfl, afterIs, after, List.append_assoc]
      | false =>
          obtain ⟨front, back, nodes, low, high, beforeIs, afterIs⟩ :=
            rightIh rightUpward (.goneRight left value :: context)
          refine ⟨inorder left ++ value :: front, back, ?_, ?_, high, ?_, afterIs⟩
          · rw [inorder, nodes, List.append_assoc, List.cons_append]
          · intro other member
            rcases List.mem_append.mp member with inLeft | inRest
            · cases other_direction : goLeft other with
              | false => rfl
              | true =>
                  have carried := across other inLeft value List.mem_cons_self other_direction
                  rw [direction] at carried
                  cases carried
            · rcases List.mem_cons.mp inRest with rfl | inFront
              · exact direction
              · exact low other inFront
          · rw [if_neg (by decide), beforeIs, before]
            simp only [List.append_assoc, List.cons_append, List.nil_append]

/-! ### Rotations -/

def rotateLeft : BinaryTree β → BinaryTree β
  | .node value left (.node pivot middle right) =>
      .node pivot (.node value left middle) right
  | tree => tree

def rotateRight : BinaryTree β → BinaryTree β
  | .node value (.node pivot left middle) right =>
      .node pivot left (.node value middle right)
  | tree => tree

theorem inorder_rotateLeft (tree : BinaryTree β) :
    inorder (rotateLeft tree) = inorder tree := by
  unfold rotateLeft
  split
  · simp only [inorder, List.append_assoc, List.cons_append]
  · rfl

theorem inorder_rotateRight (tree : BinaryTree β) :
    inorder (rotateRight tree) = inorder tree := by
  unfold rotateRight
  split
  · simp only [inorder, List.append_assoc, List.cons_append]
  · rfl

/-- Turn a tree that leans to the right, so that it leans to the left. -/
def leanLeft : BinaryTree β → BinaryTree β
  | .nil => .nil
  | .node value left right =>
      if left.height < right.height then rotateLeft (.node value left right)
      else .node value left right

def leanRight : BinaryTree β → BinaryTree β
  | .nil => .nil
  | .node value left right =>
      if right.height < left.height then rotateRight (.node value left right)
      else .node value left right

def fixLeft (value : β) (left right : BinaryTree β) : BinaryTree β :=
  rotateRight (.node value (leanLeft left) right)

def fixRight (value : β) (left right : BinaryTree β) : BinaryTree β :=
  rotateLeft (.node value left (leanRight right))

theorem inorder_leanLeft (tree : BinaryTree β) :
    inorder (leanLeft tree) = inorder tree := by
  unfold leanLeft
  split
  · rfl
  · split
    · exact inorder_rotateLeft _
    · rfl

theorem inorder_leanRight (tree : BinaryTree β) :
    inorder (leanRight tree) = inorder tree := by
  unfold leanRight
  split
  · rfl
  · split
    · exact inorder_rotateRight _
    · rfl

/-- Repair the root of a tree whose subtrees are balanced. -/
def fix (value : β) (left right : BinaryTree β) : BinaryTree β :=
  if left.height = right.height + 2 then fixLeft value left right
  else if left.height + 2 = right.height then fixRight value left right
  else .node value left right

theorem inorder_fix (value : β) (left right : BinaryTree β) :
    inorder (fix value left right) = inorder (.node value left right) := by
  unfold fix fixLeft fixRight
  split
  · rw [inorder_rotateRight, inorder, inorder, inorder_leanLeft]
  · split
    · rw [inorder_rotateLeft, inorder, inorder, inorder_leanRight]
    · rfl

theorem fixLeft_balanced (value : β) {left right : BinaryTree β}
    (leftBalanced : Balanced left) (rightBalanced : Balanced right)
    (deep : left.height = right.height + 2) :
    Balanced (fixLeft value left right) ∧
      (fixLeft value left right).height ≤ left.height + 1 ∧
      left.height ≤ (fixLeft value left right).height := by
  cases left with
  | nil =>
      simp only [height] at deep
      omega
  | node pivot outer inner =>
      obtain ⟨outerLow, innerLow, outerBalanced, innerBalanced⟩ := leftBalanced
      simp only [height] at deep
      simp only [fixLeft, leanLeft]
      by_cases zigzag : outer.height < inner.height
      · rw [if_pos zigzag]
        cases inner with
        | nil =>
            simp only [height] at zigzag
            omega
        | node top low high =>
            obtain ⟨lowClose, highClose, lowBalanced, highBalanced⟩ := innerBalanced
            simp only [height] at outerLow innerLow deep zigzag
            simp only [rotateLeft, rotateRight, Balanced, height]
            refine ⟨⟨by omega, by omega, ⟨by omega, by omega, outerBalanced, lowBalanced⟩,
              ⟨by omega, by omega, highBalanced, rightBalanced⟩⟩, by omega, by omega⟩
      · rw [if_neg zigzag]
        simp only [rotateRight, Balanced, height]
        refine ⟨⟨by omega, by omega, outerBalanced,
          ⟨by omega, by omega, innerBalanced, rightBalanced⟩⟩, by omega, by omega⟩

theorem fixRight_balanced (value : β) {left right : BinaryTree β}
    (leftBalanced : Balanced left) (rightBalanced : Balanced right)
    (deep : left.height + 2 = right.height) :
    Balanced (fixRight value left right) ∧
      (fixRight value left right).height ≤ right.height + 1 ∧
      right.height ≤ (fixRight value left right).height := by
  cases right with
  | nil =>
      simp only [height] at deep
      omega
  | node pivot inner outer =>
      obtain ⟨innerLow, outerLow, innerBalanced, outerBalanced⟩ := rightBalanced
      simp only [height] at deep
      simp only [fixRight, leanRight]
      by_cases zigzag : outer.height < inner.height
      · rw [if_pos zigzag]
        cases inner with
        | nil =>
            simp only [height] at zigzag
            omega
        | node top low high =>
            obtain ⟨lowClose, highClose, lowBalanced, highBalanced⟩ := innerBalanced
            simp only [height] at outerLow innerLow deep zigzag
            simp only [rotateLeft, rotateRight, Balanced, height]
            refine ⟨⟨by omega, by omega, ⟨by omega, by omega, leftBalanced, lowBalanced⟩,
              ⟨by omega, by omega, highBalanced, outerBalanced⟩⟩, by omega, by omega⟩
      · rw [if_neg zigzag]
        simp only [rotateLeft, Balanced, height]
        refine ⟨⟨by omega, by omega, ⟨by omega, by omega, leftBalanced, innerBalanced⟩,
          outerBalanced⟩, by omega, by omega⟩

/-- The repaired root is balanced, and lower than before by at most one. -/
theorem fix_balanced (value : β) {left right : BinaryTree β}
    (leftBalanced : Balanced left) (rightBalanced : Balanced right)
    (leftClose : left.height ≤ right.height + 2)
    (rightClose : right.height ≤ left.height + 2) :
    Balanced (fix value left right) ∧
      (fix value left right).height ≤ max left.height right.height + 1 ∧
      (max left.height right.height ≤ (fix value left right).height) ∧
      (left.height ≤ right.height + 1 → right.height ≤ left.height + 1 →
        (fix value left right).height = max left.height right.height + 1) := by
  unfold fix
  split
  · rename_i deep
    obtain ⟨balanced, upper, lower⟩ :=
      fixLeft_balanced value leftBalanced rightBalanced deep
    exact ⟨balanced, by omega, by omega, fun close => by omega⟩
  · split
    · rename_i deep
      obtain ⟨balanced, upper, lower⟩ :=
        fixRight_balanced value leftBalanced rightBalanced deep
      exact ⟨balanced, by omega, by omega, fun _ close => by omega⟩
    · refine ⟨⟨by omega, by omega, leftBalanced, rightBalanced⟩, ?_, ?_, ?_⟩
      · exact Nat.le_refl _
      · exact Nat.le_succ _
      · exact fun _ _ => rfl

/-! ### Repair on the way to the root -/

/-- Repair the focus and every node of the path above it. -/
def climb : List (Frame β) → β → BinaryTree β → BinaryTree β → BinaryTree β
  | [], value, left, right => fix value left right
  | .goneLeft parent aside :: rest, value, left, right =>
      climb rest parent (fix value left right) aside
  | .goneRight aside parent :: rest, value, left, right =>
      climb rest parent aside (fix value left right)

theorem inorder_climb (context : List (Frame β)) (value : β) (left right : BinaryTree β) :
    inorder (climb context value left right) =
      inorder (plug context (.node value left right)) := by
  induction context generalizing value left right with
  | nil => exact inorder_fix value left right
  | cons frame rest ih =>
      cases frame with
      | goneLeft parent aside =>
          rw [climb, ih, inorder_plug, inorder_plug]
          simp only [before, after, inorder, inorder_fix, List.append_assoc,
            List.cons_append]
      | goneRight aside parent =>
          rw [climb, ih, inorder_plug, inorder_plug]
          simp only [before, after, inorder, inorder_fix, List.append_assoc,
            List.cons_append, List.nil_append]

/-- The context is balanced around a focus of the given height. -/
def ContextBalanced : List (Frame β) → Nat → Prop
  | [], _ => True
  | frame :: rest, focus =>
      frame.aside.height ≤ focus + 1 ∧ focus ≤ frame.aside.height + 1 ∧
        Balanced frame.aside ∧
        ContextBalanced rest (max focus frame.aside.height + 1)

theorem balanced_plug_iff (context : List (Frame β)) (tree : BinaryTree β) :
    Balanced (plug context tree) ↔
      Balanced tree ∧ ContextBalanced context tree.height := by
  induction context generalizing tree with
  | nil => exact ⟨fun balanced => ⟨balanced, trivial⟩, And.left⟩
  | cons frame rest ih =>
      rw [plug, ih]
      cases frame with
      | goneLeft value right =>
          simp only [Frame.put, Frame.aside, Balanced, ContextBalanced, height]
          tauto
      | goneRight left value =>
          simp only [Frame.put, Frame.aside, Balanced, ContextBalanced, height,
            Nat.max_comm left.height]
          tauto

/-- The one rule for insertions and deletions: a focus whose repaired height is
within one of what its context was balanced for ends in a balanced tree. -/
theorem balanced_climb {context : List (Frame β)} {value : β}
    {left right : BinaryTree β} {old : Nat}
    (leftBalanced : Balanced left) (rightBalanced : Balanced right)
    (leftClose : left.height ≤ right.height + 2)
    (rightClose : right.height ≤ left.height + 2)
    (context_balanced : ContextBalanced context old)
    (low : old ≤ (fix value left right).height + 1)
    (high : (fix value left right).height ≤ old + 1) :
    Balanced (climb context value left right) := by
  induction context generalizing value left right old with
  | nil => exact (fix_balanced value leftBalanced rightBalanced leftClose rightClose).1
  | cons frame rest ih =>
      obtain ⟨asideLow, focusLow, asideBalanced, restBalanced⟩ := context_balanced
      have fixed := (fix_balanced value leftBalanced rightBalanced
        leftClose rightClose).1
      cases frame with
      | goneLeft parent aside =>
          simp only [Frame.aside] at asideLow focusLow asideBalanced restBalanced
          obtain ⟨_, upper, lower, exactly⟩ := fix_balanced parent
            fixed asideBalanced (by omega) (by omega)
          exact ih fixed asideBalanced (by omega) (by omega) restBalanced
            (by omega) (by omega)
      | goneRight aside parent =>
          simp only [Frame.aside] at asideLow focusLow asideBalanced restBalanced
          obtain ⟨_, upper, lower, exactly⟩ := fix_balanced parent
            asideBalanced fixed (by omega) (by omega)
          exact ih asideBalanced fixed (by omega) (by omega) restBalanced
            (by omega) (by omega)

end BalancedTree
