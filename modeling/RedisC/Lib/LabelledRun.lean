/-
Finite runs of a labelled step relation.

A run records one label for each step, so the inputs and the answers of a
system are read off the labels.  The rules below are the only inductions
over runs that a development needs: an invariant kept by one step, of the state
or of the state and its past, holds at the end of every run, and a relation kept
by one step carries every run over to an abstract system with the same labels.
-/

import Mathlib

namespace LabelledRun

variable {σ τ ε : Type*}

inductive Runs (step : σ → ε → σ → Prop) : σ → List ε → σ → Prop
  | nil (state : σ) : Runs step state [] state
  | cons {first middle last : σ} {label : ε} {labels : List ε}
      (head : step first label middle) (tail : Runs step middle labels last) :
      Runs step first (label :: labels) last

variable {step : σ → ε → σ → Prop} {abstractStep : τ → ε → τ → Prop}

theorem Runs.invariant {holds : σ → Prop}
    (preserved : ∀ state label next,
      holds state → step state label next → holds next)
    {first last : σ} {labels : List ε} (run : Runs step first labels last)
    (start : holds first) : holds last := by
  induction run with
  | nil state => exact start
  | cons head tail ih => exact ih (preserved _ _ _ start head)

theorem Runs.history_from {holds : List ε → σ → Prop}
    (preserved : ∀ past state label next,
      holds past state → step state label next → holds (past ++ [label]) next)
    {first last : σ} {past labels : List ε} (run : Runs step first labels last)
    (start : holds past first) : holds (past ++ labels) last := by
  induction run generalizing past with
  | nil state =>
      rw [List.append_nil]
      exact start
  | cons head tail ih =>
      have rest := ih (preserved _ _ _ _ start head)
      rw [List.append_assoc] at rest
      exact rest

/-- An invariant that speaks of the labels taken so far. -/
theorem Runs.history {holds : List ε → σ → Prop}
    (preserved : ∀ past state label next,
      holds past state → step state label next → holds (past ++ [label]) next)
    {first last : σ} {labels : List ε} (run : Runs step first labels last)
    (start : holds [] first) : holds labels last :=
  run.history_from preserved start

/-- A forward simulation: the abstract system takes the same labels. -/
theorem Runs.simulate {related : σ → τ → Prop}
    (matched : ∀ state shadow label next,
      related state shadow → step state label next →
        ∃ nextShadow, abstractStep shadow label nextShadow ∧
          related next nextShadow)
    {first last : σ} {labels : List ε} (run : Runs step first labels last)
    {shadow : τ} (start : related first shadow) :
    ∃ lastShadow, Runs abstractStep shadow labels lastShadow ∧
      related last lastShadow := by
  induction run generalizing shadow with
  | nil state => exact ⟨shadow, .nil shadow, start⟩
  | cons head tail ih =>
      obtain ⟨middleShadow, headShadow, middleRelated⟩ :=
        matched _ _ _ _ start head
      obtain ⟨lastShadow, tailShadow, lastRelated⟩ := ih middleRelated
      exact ⟨lastShadow, .cons headShadow tailShadow, lastRelated⟩

theorem Runs.append {first middle last : σ} {labels more : List ε}
    (run : Runs step first labels middle) (rest : Runs step middle more last) :
    Runs step first (labels ++ more) last := by
  induction run with
  | nil state => exact rest
  | cons head tail ih => exact .cons head (ih rest)

theorem Runs.split {first last : σ} {labels more : List ε}
    (run : Runs step first (labels ++ more) last) :
    ∃ middle, Runs step first labels middle ∧ Runs step middle more last := by
  induction labels generalizing first with
  | nil => exact ⟨first, .nil first, run⟩
  | cons label labels ih =>
      cases run with
      | cons head tail =>
          obtain ⟨middle, early, late⟩ := ih tail
          exact ⟨middle, .cons head early, late⟩

/-- A condition on the labels can be moved into the step relation. -/
theorem Runs.restrict {condition : ε → Prop} {first last : σ} {labels : List ε}
    (run : Runs step first labels last)
    (all : ∀ label ∈ labels, condition label) :
    Runs (fun state label next => step state label next ∧ condition label)
      first labels last := by
  induction run with
  | nil state => exact .nil state
  | cons head tail ih =>
      have headHolds := all _ List.mem_cons_self
      have tailHolds := fun label member => all label (List.mem_cons_of_mem _ member)
      exact .cons ⟨head, headHolds⟩ (ih tailHolds)

def follow (next : σ → ε → Option σ) : σ → List ε → Option σ
  | state, [] => some state
  | state, label :: labels =>
      match next state label with
      | none => none
      | some after => follow next after labels

theorem runs_of_follow_eq {next : σ → ε → Option σ}
    (sound : ∀ state label after, next state label = some after → step state label after)
    {labels : List ε} {first last : σ} (reached : follow next first labels = some last) :
    Runs step first labels last := by
  induction labels generalizing first with
  | nil =>
      cases reached
      exact .nil _
  | cons label labels ih =>
      rw [follow] at reached
      cases stepped : next first label with
      | none =>
          rw [stepped] at reached
          cases reached
      | some after =>
          rw [stepped] at reached
          exact .cons (sound _ _ _ stepped) (ih reached)

theorem runs_of_follow {next : σ → ε → Option σ}
    (sound : ∀ state label after, next state label = some after → step state label after)
    {labels : List ε} {first : σ} (reached : (follow next first labels).isSome = true) :
    ∃ last, Runs step first labels last := by
  rcases Option.isSome_iff_exists.mp reached with ⟨last, lastIs⟩
  exact ⟨last, runs_of_follow_eq sound lastIs⟩

/-- A fallible step that is taken only where it is allowed. -/
def guarded {φ : Type*} (allowed : σ → ε → Prop) [∀ state label, Decidable (allowed state label)]
    (exec : σ → ε → Except φ σ) (state : σ) (label : ε) : Option σ :=
  if allowed state label then (exec state label).toOption else none

theorem guarded_sound {φ : Type*} {allowed : σ → ε → Prop}
    [∀ state label, Decidable (allowed state label)] {exec : σ → ε → Except φ σ}
    (state : σ) (label : ε) (after : σ)
    (stepped : guarded allowed exec state label = some after) :
    allowed state label ∧ exec state label = .ok after := by
  unfold guarded at stepped
  split at stepped
  · rename_i isAllowed
    refine ⟨isAllowed, ?_⟩
    cases executed : exec state label with
    | error fault =>
        rw [executed] at stepped
        cases stepped
    | ok result =>
        rw [executed] at stepped
        cases stepped
        rfl
  · cases stepped

/-- A fallible step that is taken only where it is allowed and gives the label's answer. -/
def answered {φ α : Type*} [DecidableEq α] (allowed : σ → ε → Prop)
    [∀ state label, Decidable (allowed state label)] (answer : ε → α)
    (exec : σ → ε → Except φ (σ × α)) (state : σ) (label : ε) : Option σ :=
  match exec state label with
  | .error _ => none
  | .ok (after, given) =>
      if allowed state label ∧ given = answer label then some after else none

theorem answered_sound {φ α : Type*} [DecidableEq α] {allowed : σ → ε → Prop}
    [∀ state label, Decidable (allowed state label)] {answer : ε → α}
    {exec : σ → ε → Except φ (σ × α)} (state : σ) (label : ε) (after : σ)
    (stepped : answered allowed answer exec state label = some after) :
    allowed state label ∧ exec state label = .ok (after, answer label) := by
  unfold answered at stepped
  split at stepped
  · cases stepped
  · rename_i result given returned
    split at stepped
    · rename_i both
      cases stepped
      exact ⟨both.1, both.2 ▸ returned⟩
    · cases stepped

/-- `condition` holds of every input in the state in which it is taken. -/
def Along {ι : Type*} (next : σ → ι → σ → Prop) (condition : σ → ι → Prop) :
    σ → List ι → Prop
  | _, [] => True
  | state, input :: rest =>
      condition state input ∧
        ∀ after, next state input after → Along next condition after rest

end LabelledRun
