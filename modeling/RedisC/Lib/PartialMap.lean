/-
Partial maps: functions to an optional value, changed at one key at a time.
-/

import Mathlib

namespace PartialMap

variable {α β : Type} [DecidableEq α] {table : α → Option β} {key other : α}

/-- What an updated map holds is the new value or was there before. -/
theorem update_eq_some {value : Option β} {found : β}
    (present : Function.update table key value other = some found) :
    (other = key ∧ value = some found) ∨ (other ≠ key ∧ table other = some found) := by
  by_cases same : other = key
  · rw [same, Function.update_self] at present
    exact .inl ⟨same, present⟩
  · rw [Function.update_of_ne same] at present
    exact .inr ⟨same, present⟩

theorem update_some_eq_some {value found : β}
    (present : Function.update table key (some value) other = some found) :
    (other = key ∧ found = value) ∨ (other ≠ key ∧ table other = some found) := by
  rcases update_eq_some present with new | kept
  · exact .inl ⟨new.1, (Option.some.inj new.2).symm⟩
  · exact .inr kept

theorem eq_some_of_update_none {found : β}
    (present : Function.update table key none other = some found) : table other = some found := by
  rcases update_eq_some present with new | kept
  · cases new.2
  · exact kept.2

end PartialMap
