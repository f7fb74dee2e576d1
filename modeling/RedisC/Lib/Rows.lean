/-
Rows of items: a list of lists, one row of which is replaced at a time.

Chained hash tables and adjacency lists have this shape.  The lemmas say what
replacing one row does to the items of all rows together, up to order.
-/

import Mathlib

namespace Rows

variable {β : Type*}

theorem flatten_set_perm {rows : List (List β)} {index : Nat}
    {row : List β} (atIndex : rows[index]? = some row) (replacement : List β) :
    ((rows.set index replacement).flatten ++ row).Perm
      (rows.flatten ++ replacement) := by
  induction rows generalizing index with
  | nil => simp at atIndex
  | cons head tail ih =>
      cases index with
      | zero =>
          have same : head = row := by simpa using atIndex
          subst same
          simp only [List.set_cons_zero, List.flatten_cons]
          rw [List.append_assoc]
          exact List.perm_append_comm.trans
            (List.perm_append_comm.append_right replacement)
      | succ index =>
          have tailAt : tail[index]? = some row := by simpa using atIndex
          simp only [List.set_cons_succ, List.flatten_cons, List.append_assoc]
          exact (ih tailAt).append_left head

/-- Putting an item in front of a row adds exactly that item. -/
theorem flatten_set_cons {rows : List (List β)} {index : Nat}
    {row : List β} (atIndex : rows[index]? = some row) (item : β) :
    (rows.set index (item :: row)).flatten.Perm (item :: rows.flatten) := by
  have replaced := flatten_set_perm atIndex (item :: row)
  have moved : (rows.flatten ++ item :: row).Perm
      ((item :: rows.flatten) ++ row) := List.perm_middle
  exact (List.perm_append_right_iff row).mp (replaced.trans moved)

theorem flatten_set_eraseIdx {rows : List (List β)} {index place : Nat}
    {row : List β} {item : β} (atIndex : rows[index]? = some row)
    (atPlace : row[place]? = some item) :
    (item :: (rows.set index (row.eraseIdx place)).flatten).Perm
      rows.flatten := by
  have replaced := flatten_set_perm atIndex (row.eraseIdx place)
  have inRow : place < row.length :=
    (List.getElem?_eq_some_iff.mp atPlace).1
  have split : (item :: row.eraseIdx place).Perm row := by
    have found : row[place] = item := (List.getElem?_eq_some_iff.mp atPlace).2
    rw [← found]
    exact List.getElem_cons_eraseIdx_perm inRow
  have balanced :
      ((item :: (rows.set index (row.eraseIdx place)).flatten) ++
          row.eraseIdx place).Perm (rows.flatten ++ row.eraseIdx place) := by
    refine List.Perm.trans ?_ replaced
    refine List.Perm.trans List.perm_middle.symm ?_
    exact split.append_left _
  exact (List.perm_append_right_iff _).mp balanced

theorem mem_flatten_iff {rows : List (List β)} {item : β} :
    item ∈ rows.flatten ↔ ∃ (index : Nat) (row : List β), rows[index]? = some row ∧ item ∈ row := by
  rw [List.mem_flatten]
  constructor
  · intro listed
    rcases listed with ⟨row, rowMember, member⟩
    obtain ⟨index, atIndex⟩ := List.mem_iff_getElem?.mp rowMember
    exact ⟨index, row, atIndex, member⟩
  · intro listed
    rcases listed with ⟨index, row, atIndex, member⟩
    exact ⟨row, List.mem_of_getElem? atIndex, member⟩

end Rows
