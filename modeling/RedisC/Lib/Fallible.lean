/-
Reasoning about computations that may stop with a fault.

`Meets allowed post run` says that `run` either returns a value with `post` or
stops with a fault of the kind `allowed`.  With `allowed` everywhere false it
is total correctness.  A caller uses the specification of what it calls through
`Meets.bind` and never unfolds it.  `Agrees related run shadow` compares two
computations: they stop with the same fault or return related values.
-/

import Mathlib

namespace Fallible

universe u

variable {ε : Type*} {α β : Type u}

@[simp] theorem ok_bind (value : α) (next : α → Except ε β) :
    (Except.ok value >>= next) = next value := rfl

@[simp] theorem error_bind (fault : ε) (next : α → Except ε β) :
    ((Except.error fault : Except ε α) >>= next) = .error fault := rfl

@[simp] theorem pure_eq_ok (value : α) :
    (pure value : Except ε α) = .ok value := rfl

theorem bind_eq_ok {run : Except ε α} {next : α → Except ε β} {result : β}
    (returned : (run >>= next) = .ok result) :
    ∃ value, run = .ok value ∧ next value = .ok result := by
  cases run with
  | error fault => cases returned
  | ok value => exact ⟨value, rfl, returned⟩

theorem returns_of_bind {run : Except ε α} {next : α → Except ε β}
    (returns : ∃ result, (run >>= next) = .ok result) : ∃ value, run = .ok value := by
  obtain ⟨result, returned⟩ := returns
  obtain ⟨value, first, _⟩ := bind_eq_ok returned
  exact ⟨value, first⟩

theorem eq_ok_of_toOption {run : Except ε α} {value : α} (returned : run.toOption = some value) :
    run = .ok value := by
  cases run with
  | error fault => cases returned
  | ok result =>
      cases returned
      rfl

def Meets (allowed : ε → Prop) (post : α → Prop) : Except ε α → Prop
  | .ok value => post value
  | .error fault => allowed fault

variable {allowed : ε → Prop} {post : α → Prop}

@[simp] theorem meets_ok (value : α) :
    Meets allowed post (.ok value) ↔ post value := Iff.rfl

@[simp] theorem meets_error (fault : ε) :
    Meets allowed post (.error fault : Except ε α) ↔ allowed fault := Iff.rfl

theorem Meets.bind {run : Except ε α} {next : α → Except ε β}
    {final : β → Prop} (first : Meets allowed post run)
    (rest : ∀ value, post value → Meets allowed final (next value)) :
    Meets allowed final (run >>= next) := by
  cases run with
  | error fault => exact first
  | ok value => exact rest value first

theorem Meets.mono {run : Except ε α} {weaker : α → Prop}
    (met : Meets allowed post run) (implied : ∀ value, post value → weaker value) :
    Meets allowed weaker run := by
  cases run with
  | error fault => exact met
  | ok value => exact implied value met

theorem Meets.widen {run : Except ε α} {wider : ε → Prop}
    (met : Meets allowed post run) (implied : ∀ fault, allowed fault → wider fault) :
    Meets wider post run := by
  cases run with
  | error fault => exact implied fault met
  | ok value => exact met

theorem Meets.and_of_ok {run : Except ε α} {other : α → Prop}
    (met : Meets allowed post run) (whenOk : Meets (fun _ => True) other run) :
    Meets allowed (fun value => post value ∧ other value) run := by
  cases run with
  | error fault => exact met
  | ok value => exact ⟨met, whenOk⟩

theorem Meets.of_ok {run : Except ε α} {value : α}
    (met : Meets allowed post run) (returned : run = .ok value) : post value := by
  rw [returned] at met
  exact met

theorem Meets.of_error {run : Except ε α} {fault : ε}
    (met : Meets allowed post run) (stopped : run = .error fault) :
    allowed fault := by
  rw [stopped] at met
  exact met

/-- A computation that is allowed no fault returns. -/
theorem Meets.returns {run : Except ε α}
    (met : Meets (fun _ => False) post run) :
    ∃ value, run = .ok value ∧ post value := by
  cases run with
  | error fault => exact met.elim
  | ok value => exact ⟨value, rfl, met⟩

theorem meets_of_eq_ok {run : Except ε α} {value : α}
    (returned : run = .ok value) (holds : post value) : Meets allowed post run := by
  rw [returned]
  exact holds

theorem Meets.foldlM {ι : Type*} {body : α → ι → Except ε α} {values : List ι} {start : α}
    (first : post start)
    (step : ∀ state, ∀ value ∈ values, post state → Meets allowed post (body state value)) :
    Meets allowed post (values.foldlM body start) := by
  induction values generalizing start with
  | nil => exact first
  | cons value rest ih =>
      rw [List.foldlM_cons]
      refine (step start value List.mem_cons_self first).bind ?_
      intro state kept
      exact ih kept fun later other member => step later other (List.mem_cons_of_mem _ member)

/-! ### Two computations -/

def Agrees (related : α → β → Prop) : Except ε α → Except ε β → Prop
  | .ok value, .ok shadow => related value shadow
  | .error fault, .error shadowFault => fault = shadowFault
  | _, _ => False

variable {γ δ : Type u} {related : α → β → Prop} {run : Except ε α} {shadowRun : Except ε β}

theorem Agrees.bind {final : γ → δ → Prop} {next : α → Except ε γ} {shadowNext : β → Except ε δ}
    (first : Agrees related run shadowRun)
    (rest : ∀ value shadow, related value shadow →
      Agrees final (next value) (shadowNext shadow)) :
    Agrees final (run >>= next) (shadowRun >>= shadowNext) := by
  cases run with
  | error fault =>
      cases shadowRun with
      | error shadowFault => exact first
      | ok shadow => exact first.elim
  | ok value =>
      cases shadowRun with
      | error shadowFault => exact first.elim
      | ok shadow => exact rest value shadow first

/-- What is proved of the one computation carries over to the other. -/
theorem Agrees.meets (agrees : Agrees related run shadowRun) {final : β → Prop}
    (met : Meets allowed final shadowRun) :
    Meets allowed (fun value => ∃ shadow, shadowRun = .ok shadow ∧ related value shadow ∧
      final shadow) run := by
  cases run with
  | error fault =>
      cases shadowRun with
      | error shadowFault =>
          cases agrees
          exact met
      | ok shadow => exact agrees.elim
  | ok value =>
      cases shadowRun with
      | error shadowFault => exact agrees.elim
      | ok shadow => exact ⟨shadow, rfl, agrees, met⟩

end Fallible
