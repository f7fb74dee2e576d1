/-
Binary heaps on an array, repaired around a hole.

`key i` is the key at index `i` and `count` the number of items.  A repair takes
one item out, moves items into the hole until the item fits and puts it back.
`UpOrder` and `DownOrder` say what is in order around the hole while it moves
towards the root or away from it; `Loose` is where both start.
-/

import Mathlib

namespace HeapOrder

variable {κ : Type*} [LinearOrder κ] {key : Nat → κ} {count hole : Nat} {item : κ}

def parent (index : Nat) : Nat := (index + 1) / 2 - 1

def left (index : Nat) : Nat := index * 2 + 1

def right (index : Nat) : Nat := index * 2 + 2

theorem parent_lt {index : Nat} (positive : 0 < index) : parent index < index := by
  unfold parent
  omega

theorem child_cases {child index : Nat} (positive : 0 < child) (above : parent child = index) :
    child = left index ∨ child = right index := by
  unfold parent at above
  unfold left right
  omega

theorem parent_left (index : Nat) : parent (left index) = index := by
  unfold parent left
  omega

theorem parent_right (index : Nat) : parent (right index) = index := by
  unfold parent right
  omega

def Ordered (key : Nat → κ) (count : Nat) : Prop :=
  ∀ index, 0 < index → index < count → key (parent index) ≤ key index

theorem Ordered.least (ordered : Ordered key count) {index : Nat} (inside : index < count) :
    key 0 ≤ key index := by
  induction index using Nat.strongRecOn with
  | ind index ih =>
      rcases Nat.eq_zero_or_pos index with rfl | positive
      · exact le_rfl
      · have less := parent_lt positive
        exact le_trans (ih (parent index) less (by omega)) (ordered index positive inside)

/-- The pairs that do not touch the hole are in order, and so are its parent and
its children. -/
structure Loose (key : Nat → κ) (count hole : Nat) : Prop where
  elsewhere : ∀ index, 0 < index → index < count → index ≠ hole → parent index ≠ hole →
    key (parent index) ≤ key index
  across : 0 < hole → ∀ child, 0 < child → child < count → parent child = hole →
    key (parent hole) ≤ key child

/-- The item may go up: it is not after the children of the hole. -/
structure UpOrder (key : Nat → κ) (count hole : Nat) (item : κ) : Prop
    extends Loose key count hole where
  below : ∀ child, 0 < child → child < count → parent child = hole → item ≤ key child

/-- The item may go down: it is not before the parent of the hole. -/
structure DownOrder (key : Nat → κ) (count hole : Nat) (item : κ) : Prop
    extends Loose key count hole where
  above : 0 < hole → key (parent hole) ≤ item

theorem Ordered.loose (ordered : Ordered key count) (hole : Nat) :
    Loose key count hole := by
  constructor
  · intro index positive inside _ _
    exact ordered index positive inside
  · intro holePositive child positive inside above
    have upper := ordered hole holePositive (by have := parent_lt positive; omega)
    have lower := ordered child positive inside
    rw [above] at lower
    exact le_trans upper lower

/-- Neither the key at the hole nor those behind the end matter. -/
theorem Loose.congr {keyNew : Nat → κ} {countNew : Nat} (loose : Loose key count hole)
    (shorter : countNew ≤ count)
    (same : ∀ index, index < countNew → index ≠ hole → keyNew index = key index) :
    Loose keyNew countNew hole := by
  constructor
  · intro index positive inside apart parentApart
    have less := parent_lt positive
    rw [same index inside apart, same (parent index) (by omega) parentApart]
    exact loose.elsewhere index positive (by omega) apart parentApart
  · intro holePositive child positive inside above
    have less := parent_lt positive
    have holeLess := parent_lt holePositive
    rw [same child inside (by omega), same (parent hole) (by omega) (by omega)]
    exact loose.across holePositive child positive (by omega) above

/-! ### Up -/

theorem UpOrder.finish (order : UpOrder key count hole item)
    (stop : 0 < hole → key (parent hole) ≤ item) :
    Ordered (Function.update key hole item) count := by
  intro index positive inside
  have less := parent_lt positive
  by_cases atHole : index = hole
  · subst atHole
    rw [Function.update_self, Function.update_of_ne (by omega)]
    exact stop positive
  · rw [Function.update_of_ne atHole]
    by_cases belowHole : parent index = hole
    · rw [belowHole, Function.update_self]
      exact order.below index positive inside belowHole
    · rw [Function.update_of_ne belowHole]
      exact order.elsewhere index positive inside atHole belowHole

theorem UpOrder.move (order : UpOrder key count hole item) (positive : 0 < hole)
    (inside : hole < count) (before : item < key (parent hole)) :
    UpOrder (Function.update key hole (key (parent hole))) count (parent hole) item := by
  have less := parent_lt positive
  have upper : 0 < parent hole → key (parent (parent hole)) ≤ key (parent hole) := by
    intro parentPositive
    have parentLess := parent_lt parentPositive
    exact order.elsewhere (parent hole) parentPositive (by omega) (by omega) (by omega)
  have sibling : ∀ child, 0 < child → child < count → parent child = parent hole →
      child ≠ hole → key (parent hole) ≤ key child := by
    intro child childPositive childInside above apart
    have ordered := order.elsewhere child childPositive childInside apart (by omega)
    rw [above] at ordered
    exact ordered
  refine ⟨⟨?_, ?_⟩, ?_⟩
  · intro index indexPositive indexInside apart parentApart
    by_cases atHole : index = hole
    · exact absurd (congrArg parent atHole) parentApart
    · rw [Function.update_of_ne atHole]
      by_cases belowHole : parent index = hole
      · rw [belowHole, Function.update_self]
        exact order.across positive index indexPositive indexInside belowHole
      · rw [Function.update_of_ne belowHole]
        exact order.elsewhere index indexPositive indexInside atHole belowHole
  · intro parentPositive child childPositive childInside above
    have parentLess := parent_lt parentPositive
    rw [Function.update_of_ne (by omega)]
    by_cases atHole : child = hole
    · rw [atHole, Function.update_self]
      exact upper parentPositive
    · rw [Function.update_of_ne atHole]
      exact le_trans (upper parentPositive)
        (sibling child childPositive childInside above atHole)
  · intro child childPositive childInside above
    by_cases atHole : child = hole
    · rw [atHole, Function.update_self]
      exact le_of_lt before
    · rw [Function.update_of_ne atHole]
      exact le_trans (le_of_lt before)
        (sibling child childPositive childInside above atHole)

/-! ### Down -/

theorem DownOrder.finish (order : DownOrder key count hole item)
    (stop : ∀ child, 0 < child → child < count → parent child = hole → item ≤ key child) :
    Ordered (Function.update key hole item) count :=
  UpOrder.finish ⟨order.toLoose, stop⟩ order.above

/-- Move a child into the hole that is before the item and not after its sibling. -/
theorem DownOrder.move (order : DownOrder key count hole item) {child : Nat}
    (positive : 0 < child) (inside : child < count) (above : parent child = hole)
    (before : key child < item)
    (least : ∀ other, 0 < other → other < count → parent other = hole →
      key child ≤ key other) :
    DownOrder (Function.update key hole (key child)) count child item := by
  have less := parent_lt positive
  refine ⟨⟨?_, ?_⟩, ?_⟩
  · intro index indexPositive indexInside apart parentApart
    have indexLess := parent_lt indexPositive
    by_cases atHole : index = hole
    · subst atHole
      rw [Function.update_self, Function.update_of_ne (by omega)]
      exact order.across indexPositive child positive inside above
    · rw [Function.update_of_ne atHole]
      by_cases belowHole : parent index = hole
      · rw [belowHole, Function.update_self]
        exact least index indexPositive indexInside belowHole
      · rw [Function.update_of_ne belowHole]
        exact order.elsewhere index indexPositive indexInside atHole belowHole
  · intro _ grandchild grandPositive grandInside grandAbove
    have grandLess := parent_lt grandPositive
    rw [above, Function.update_self, Function.update_of_ne (by omega)]
    have ordered := order.elsewhere grandchild grandPositive grandInside (by omega) (by omega)
    rw [grandAbove] at ordered
    exact ordered
  · intro _
    rw [above, Function.update_self]
    exact le_of_lt before

end HeapOrder
