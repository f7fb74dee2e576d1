/-
The map is a multiset of nodes.

Nodes may lie in either table at any moment and every call moves some of them,
so the abstract state is the multiset of the nodes of both tables.  One call of
the map is one step of the multiset with the same answer.
-/

import RedisC.HashtableReturns

namespace RedisC

open Fallible LabelledRun

variable {α : Type} {hmap : HMap α}

def HmCall.Hashed : HmCall α → Prop
  | .insert _ => True
  | .lookup hcode cmp => ∀ node, cmp node = true → node.hcode = hcode
  | .pop hcode cmp => ∀ node, cmp node = true → node.hcode = hcode

def Finds (nodes : Multiset (HNode α)) (cmp : HNode α → Bool) :
    Option (HNode α) → Prop
  | some node => node ∈ nodes ∧ cmp node = true
  | none => ∀ node ∈ nodes, cmp node = false

/-- One call on the abstract multiset of the nodes inserted and not yet popped. -/
def MultisetStep (before : Multiset (HNode α))
    (label : HmCall α × Option (HNode α)) (after : Multiset (HNode α)) : Prop :=
  match label with
  | (.insert node, answer) => answer = none ∧ after = node ::ₘ before
  | (.lookup _ cmp, answer) => Finds before cmp answer ∧ after = before
  | (.pop _ cmp, none) => Finds before cmp none ∧ after = before
  | (.pop _ cmp, some node) => Finds before cmp (some node) ∧ before = node ::ₘ after

structure HMap.Represents (hmap : HMap α) (nodes : Multiset (HNode α)) : Prop where
  wellFormed : hmap.WellFormed
  nodes_eq : (hmap.nodes : Multiset (HNode α)) = nodes
  distinct : (hmap.nodes.map HNode.owner).Nodup

theorem Answers.finds {nodes : List (HNode α)} {hcode : UInt64}
    {cmp : HNode α → Bool} {answer : Option (HNode α)}
    (answers : Answers nodes hcode cmp answer)
    (hashed : ∀ node, cmp node = true → node.hcode = hcode) :
    Finds (nodes : Multiset (HNode α)) cmp answer := by
  cases answer with
  | some node => exact answers.sound node rfl
  | none =>
      intro node member
      cases compared : cmp node with
      | false => rfl
      | true =>
          have missed := answers.complete rfl node member (hashed node compared)
          rw [compared] at missed
          cases missed

theorem HMap.Represents.step {nodes : Multiset (HNode α)} {after : HMap α}
    {label : HmCall α × Option (HNode α)} (represents : hmap.Represents nodes)
    (step : HmStep hmap label after) (hashed : label.1.Hashed) :
    ∃ nextNodes, MultisetStep nodes label nextNodes ∧ after.Represents nextNodes := by
  obtain ⟨call, answer⟩ := label
  obtain ⟨fresh, fuel, returned⟩ := step
  have form := represents.wellFormed
  cases call with
  | insert node =>
      obtain ⟨inserted, insertedEq, same⟩ := bind_eq_ok returned
      cases same
      obtain ⟨insertedForm, perm⟩ := (form.hmInsert_spec fuel node).of_ok insertedEq
      refine ⟨node ::ₘ nodes, ⟨rfl, rfl⟩, insertedForm, ?_, ?_⟩
      · rw [← represents.nodes_eq, Multiset.cons_coe, Multiset.coe_eq_coe]
        exact perm
      · rw [(perm.map HNode.owner).nodup_iff, List.map_cons, List.nodup_cons]
        refine ⟨?_, represents.distinct⟩
        intro member
        obtain ⟨other, present, same⟩ := List.mem_map.mp member
        exact fresh other present same
  | lookup hcode cmp =>
      obtain ⟨helped, answers⟩ := (form.hmLookup_spec fuel hcode cmp).of_ok returned
      refine ⟨nodes, ⟨?_, rfl⟩, helped.wellFormed, ?_, ?_⟩
      · rw [← represents.nodes_eq]
        exact answers.finds hashed
      · rw [← represents.nodes_eq, Multiset.coe_eq_coe]
        exact helped.perm
      · rw [(helped.perm.map HNode.owner).nodup_iff]
        exact represents.distinct
  | pop hcode cmp =>
      obtain ⟨afterForm, answers, removes⟩ :=
        (form.hmPop_spec fuel hcode cmp).of_ok returned
      have finds := answers.finds hashed
      rw [represents.nodes_eq] at finds
      cases answer with
      | none =>
          refine ⟨nodes, ⟨finds, rfl⟩, afterForm, ?_, ?_⟩
          · rw [← represents.nodes_eq, Multiset.coe_eq_coe]
            exact removes
          · rw [(removes.map HNode.owner).nodup_iff]
            exact represents.distinct
      | some node =>
          refine ⟨after.nodes, ⟨finds, ?_⟩, afterForm, rfl, ?_⟩
          · rw [← represents.nodes_eq, Multiset.cons_coe, Multiset.coe_eq_coe]
            exact removes.symm
          · have distinct := represents.distinct
            rw [← (removes.map HNode.owner).nodup_iff, List.map_cons] at distinct
            exact (List.nodup_cons.mp distinct).2

theorem HMap.WellFormed.exec_faults (wellFormed : hmap.WellFormed)
    (call : HmCall α) (fuel : Nat) (fault : Fault)
    (stopped : call.exec fuel hmap = .error fault) : fault = .spin := by
  cases call with
  | insert node =>
      have met : Meets (· = .spin) (fun _ => True) (HmCall.exec fuel hmap (.insert node)) :=
        (wellFormed.hmInsert_spec fuel node).bind (fun _ _ => trivial)
      exact met.of_error stopped
  | lookup hcode cmp => exact (wellFormed.hmLookup_spec fuel hcode cmp).of_error stopped
  | pop hcode cmp => exact (wellFormed.hmPop_spec fuel hcode cmp).of_error stopped

theorem HMap.represents_empty : ({} : HMap α).Represents 0 :=
  ⟨HMap.wellFormed_empty, rfl, List.nodup_nil⟩

/-- Every run of calls that return is a run of the multiset with the same
answers.  The map then holds exactly the nodes of the multiset, its fields are
true, and the only way a further call can fail is the spinning loop: in
particular no assertion fails. -/
theorem hmap_refines_multiset {trace : List (HmCall α × Option (HNode α))}
    (run : Runs HmStep {} trace hmap) (hashed : ∀ label ∈ trace, label.1.Hashed) :
    (∃ nodes : Multiset (HNode α), Runs MultisetStep 0 trace nodes ∧
      (hmap.nodes : Multiset (HNode α)) = nodes ∧ hmSize hmap = nodes.card) ∧
    (hmap.nodes.map HNode.owner).Nodup ∧
    hmap.htTo.WellFormed ∧ hmap.htFrom.WellFormed ∧
    ∀ (call : HmCall α) (fuel : Nat) (fault : Fault),
      call.exec fuel hmap = .error fault → fault = .spin := by
  obtain ⟨nodes, abstractRun, represents⟩ :=
    (run.restrict hashed).simulate
      (fun _ _ _ _ related step => related.step step.1 step.2) HMap.represents_empty
  have form := represents.wellFormed
  refine ⟨⟨nodes, abstractRun, represents.nodes_eq, ?_⟩, represents.distinct,
    form.htTo, form.htFrom, form.exec_faults⟩
  rw [← represents.nodes_eq, Multiset.coe_card, hmSize, HMap.nodes, List.length_append,
    ← form.htTo.size_eq, ← form.htFrom.size_eq]

def popTwoHundredth : HmCall Nat × Option (HNode Nat) :=
  (.pop 12800 fun node => node.owner == 200 && node.hcode == 12800, some ⟨200, 12800⟩)

theorem popTwoHundredth_returns :
    (((spaced 64 256).foldlM (hmInsert hmFuel) {}).toOption.bind fun hmap =>
      (popTwoHundredth.1.exec hmFuel hmap).toOption).any
      (fun result => result.2 == popTwoHundredth.2 && hmSize result.1 == 255) = true := by
  decide +kernel

theorem hmap_refines_multiset_resizing :
    ∃ hmap : HMap Nat, Runs HmStep {} (inserts (spaced 64 256) ++ [popTwoHundredth]) hmap ∧
      ∃ nodes : Multiset (HNode Nat),
        Runs MultisetStep 0 (inserts (spaced 64 256) ++ [popTwoHundredth]) nodes ∧
        (hmap.nodes : Multiset (HNode Nat)) = nodes ∧ nodes.card = 255 := by
  obtain ⟨⟨hmap, answer⟩, returned, fields⟩ := (Option.any_eq_true _ _).mp popTwoHundredth_returns
  simp only [Bool.and_eq_true, beq_iff_eq] at fields
  obtain ⟨answerIs, size⟩ := fields
  obtain ⟨middle, filled, popped⟩ := Option.bind_eq_some_iff.mp returned
  have filling := runs_spaced (eq_ok_of_toOption filled)
  have popping : HmStep middle popTwoHundredth hmap := by
    refine ⟨trivial, hmFuel, ?_⟩
    rw [← answerIs]
    exact eq_ok_of_toOption popped
  have run := filling.append (.cons popping (.nil hmap))
  have hashed : ∀ label ∈ inserts (spaced 64 256) ++ [popTwoHundredth], label.1.Hashed := by
    intro label member
    rcases List.mem_append.mp member with inserted | last
    · obtain ⟨node, -, rfl⟩ := List.mem_map.mp inserted
      trivial
    · rw [List.mem_singleton.mp last]
      intro node compared
      rw [Bool.and_eq_true, beq_iff_eq, beq_iff_eq] at compared
      exact compared.2
  obtain ⟨⟨nodes, abstractRun, nodesAre, card⟩, -⟩ := hmap_refines_multiset run hashed
  exact ⟨hmap, run, nodes, abstractRun, nodesAre, card.symm.trans size⟩

end RedisC
