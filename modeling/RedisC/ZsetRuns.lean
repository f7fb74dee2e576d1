/-
Sorted sets over whole runs of calls.

After any calls that return, the tree and the map hold the same nodes, and what
a search finds is what was last given to the name.
-/

import RedisC.Lib.LabelledRun
import RedisC.ZsetInvariant

namespace RedisC

open BalancedTree Fallible LabelledRun

inductive ZCall
  | add (fresh : Ptr) (name : Bytes) (score : Score)
  | pop (name : Bytes)
  | lookup (name : Bytes)

inductive ZAnswer
  | added (isNew : Bool)
  | node (found : Option Ptr)
  deriving DecidableEq

def ZCall.name : ZCall → Bytes
  | .add _ name _ => name
  | .pop name => name
  | .lookup name => name

def ZCall.exec (zset : ZSet) : ZCall → Except Fault (ZSet × ZAnswer)
  | .add fresh name score => do
      let (zset, isNew) ← zsetAdd zset fresh name score
      pure (zset, .added isNew)
  | .pop name => do
      let (zset, found) ← zsetPop zset name
      pure (zset, .node found)
  | .lookup name => do
      let (zset, found) ← zsetLookup zset name
      pure (zset, .node found)

def ZCall.Fresh (zset : ZSet) : ZCall → Prop
  | .add fresh _ _ => ∀ node ∈ zset.hmap.nodes, node.owner ≠ fresh
  | _ => True

def ZStep (zset : ZSet) (label : ZCall × ZAnswer) (after : ZSet) : Prop :=
  label.1.Fresh zset ∧ label.1.exec zset = .ok (after, label.2)

/-- The score last given to each name since its last removal. -/
def lastGiven (trace : List (ZCall × ZAnswer)) : Bytes → Option Score :=
  trace.foldl (fun given label =>
    match label.1 with
    | .add _ name score => Function.update given name (some score)
    | .pop name => Function.update given name none
    | .lookup _ => given) (fun _ => none)

/-- Scores up to the difference between `-0` and `+0`. -/
def SameRank (lhs rhs : Option Score) : Prop := lhs.map Score.rank = rhs.map Score.rank

private theorem sameRank_keepScore (old : Option Score) (score : Score) :
    SameRank (some (keepScore old score)) (some score) := by
  unfold SameRank keepScore
  cases old with
  | none => rfl
  | some old =>
      simp only [Option.map_some, Option.some.injEq]
      split
      · assumption
      · rfl

private theorem sameRank_update {members given : Bytes → Option Score} {lhs rhs : Option Score}
    (same : ∀ name, SameRank (members name) (given name)) (name : Bytes)
    (here : SameRank lhs rhs) (other : Bytes) :
    SameRank (Function.update members name lhs other)
      (Function.update given name rhs other) := by
  by_cases hit : other = name
  · subst hit
    rw [Function.update_self, Function.update_self]
    exact here
  · rw [Function.update_of_ne hit, Function.update_of_ne hit]
    exact same other

theorem SameRank.isSome_eq {lhs rhs : Option Score} (same : SameRank lhs rhs) :
    lhs.isSome = rhs.isSome := by
  have mapped := congrArg Option.isSome same
  rw [Option.isSome_map, Option.isSome_map] at mapped
  exact mapped

structure ZSet.After (trace : List (ZCall × ZAnswer)) (zset : ZSet) (nodes : List Ptr)
    (members : Bytes → Option Score) : Prop where
  represents : zset.Represents nodes members
  given : ∀ name, SameRank (members name) (lastGiven trace name)
  sorted : (∀ label ∈ trace, label.1.name.length < 2 ^ 32) → zset.Sorted nodes

private theorem lastGiven_append (trace : List (ZCall × ZAnswer)) (label : ZCall × ZAnswer) :
    lastGiven (trace ++ [label]) =
      match label.1 with
      | .add _ name score => Function.update (lastGiven trace) name (some score)
      | .pop name => Function.update (lastGiven trace) name none
      | .lookup _ => lastGiven trace := by
  unfold lastGiven
  rw [List.foldl_append]
  rfl

def ZSet.Reached (trace : List (ZCall × ZAnswer)) (zset : ZSet) : Prop :=
  ∃ nodes members, zset.After trace nodes members

theorem ZSet.Reached.step (trace : List (ZCall × ZAnswer)) (zset : ZSet)
    (label : ZCall × ZAnswer) (after : ZSet) (reached : zset.Reached trace)
    (step : ZStep zset label after) : after.Reached (trace ++ [label]) := by
  obtain ⟨nodes, members, past⟩ := reached
  obtain ⟨call, answer⟩ := label
  obtain ⟨fresh, returned⟩ := step
  have represents := past.represents
  have allShort : (∀ label ∈ trace ++ [(call, answer)], label.1.name.length < 2 ^ 32) →
      call.name.length < 2 ^ 32 ∧ zset.Sorted nodes := by
    intro short
    refine ⟨short _ (List.mem_append_right _ List.mem_cons_self), past.sorted ?_⟩
    exact fun label member => short label (List.mem_append_left _ member)
  cases call with
  | add address name score =>
      have away : address ∉ nodes := by
        intro member
        obtain ⟨node, inMap, owner⟩ := represents.holds.keyed.exists_node member
        exact fresh node inMap owner
      obtain ⟨⟨added, isNew⟩, addedEq, rest⟩ := bind_eq_ok returned
      cases rest
      obtain ⟨nodesNew, result⟩ := (represents.zsetAdd_spec away name score).of_ok addedEq
      refine ⟨nodesNew, _, result.represents, ?_, ?_⟩
      · rw [lastGiven_append]
        exact sameRank_update past.given name (sameRank_keepScore (members name) score)
      · exact fun short => result.sorted (allShort short).1 (allShort short).2
  | pop name =>
      obtain ⟨⟨popped, found⟩, poppedEq, rest⟩ := bind_eq_ok returned
      cases rest
      obtain ⟨nodesNew, result⟩ := (represents.zsetPop_spec name).of_ok poppedEq
      refine ⟨nodesNew, _, result.represents, ?_, ?_⟩
      · rw [lastGiven_append]
        exact sameRank_update past.given name rfl
      · exact fun short => result.sorted (allShort short).2
  | lookup name =>
      obtain ⟨⟨searched, found⟩, searchedEq, rest⟩ := bind_eq_ok returned
      cases rest
      obtain ⟨⟨hmap, searchedIs⟩, holds, _⟩ :=
        (represents.holds.zsetLookup_spec name).of_ok searchedEq
      simp only at searchedIs holds
      subst searchedIs
      refine ⟨nodes, members, ⟨holds, represents.scores⟩, ?_, ?_⟩
      · rw [lastGiven_append]
        exact past.given
      · intro short
        exact ⟨(allShort short).2.short, (allShort short).2.ordered⟩

theorem ZSet.after_nil : ZSet.After [] {} [] (fun _ => none) := by
  refine ⟨⟨ZSet.Holds.empty, ?_⟩, fun _ => rfl, fun _ => ⟨?_, List.Pairwise.nil⟩⟩
  · intro name score
    refine ⟨fun found => (by cases found), ?_⟩
    intro ensured
    rcases ensured with ⟨node, member, _⟩
    cases member
  · intro node member
    cases member

/-- After every run of calls that return: the tree is a balanced search tree of
exactly the nodes of the map, and each operation answers by the score last given
to its name.  A further call fails only where a call of the map spins. -/
theorem zset_runs_keep_indexes_in_step {trace : List (ZCall × ZAnswer)} {zset : ZSet}
    (run : Runs ZStep {} trace zset) :
    ∃ nodes : List Ptr,
      AvlTree zset.avl zset.tree nodes ∧
      (zset.hmap.nodes.map HNode.owner).Perm nodes ∧ nodes.Nodup ∧
      (nodes.map fun node => (zset.znode node).name).Nodup ∧
      ((∀ label ∈ trace, label.1.name.length < 2 ^ 32) → Ordered zset.znode nodes) ∧
      (∀ name, Meets (· = .spin)
        (fun result : ZSet × Option Ptr =>
          SameRank (result.2.map fun node => (zset.znode node).score)
            (lastGiven trace name) ∧
          ∀ node, result.2 = some node → node ∈ nodes ∧ (zset.znode node).name = name)
        (zsetLookup zset name)) ∧
      (∀ fresh name score, fresh ∉ nodes → Meets (· = .spin)
        (fun result : ZSet × Bool => result.2 = (lastGiven trace name).isNone)
        (zsetAdd zset fresh name score)) ∧
      ∀ name, Meets (· = .spin)
        (fun result : ZSet × Option Ptr =>
          result.2.isSome = (lastGiven trace name).isSome ∧
          ∀ node, result.2 = some node → node ∈ nodes ∧ (zset.znode node).name = name ∧
            AvlTree result.1.avl result.1.tree (nodes.erase node))
        (zsetPop zset name) := by
  obtain ⟨nodes, members, past⟩ : zset.Reached trace :=
    Runs.history ZSet.Reached.step run ⟨[], _, ZSet.after_nil⟩
  have holds := past.represents.holds
  refine ⟨nodes, holds.tree, holds.keyed.nodes_perm, holds.keyed.nodup, holds.keyed.distinct,
    fun short => (past.sorted short).ordered, ?_, ?_, ?_⟩
  · intro name
    refine (holds.zsetLookup_spec name).mono ?_
    intro result ensured
    rcases result with ⟨searched, found⟩
    rcases ensured with ⟨_, _, sought⟩
    refine ⟨?_, ?_⟩
    · have given := past.given name
      rw [past.represents.scores.sought sought] at given
      exact given
    · intro node same
      subst same
      exact sought
  · intro fresh name score away
    refine (past.represents.zsetAdd_spec away name score).mono ?_
    intro result ensured
    rcases result with ⟨added, isNew⟩
    rcases ensured with ⟨nodesNew, result⟩
    have answer := result.answer
    rw [← Option.not_isSome, (past.given name).isSome_eq, Option.not_isSome] at answer
    exact answer
  · intro name
    refine (past.represents.zsetPop_spec name).mono ?_
    intro result ensured
    rcases result with ⟨popped, found⟩
    rcases ensured with ⟨nodesNew, result⟩
    have given := (past.given name).isSome_eq
    rw [past.represents.scores.sought result.sought, Option.isSome_map] at given
    refine ⟨given, ?_⟩
    intro node same
    subst same
    obtain ⟨member, nameIs⟩ := result.sought
    have stored := result.represents.holds.tree
    rw [result.remaining] at stored
    exact ⟨member, nameIs, stored⟩

instance ZCall.decidableFresh (zset : ZSet) : (call : ZCall) → Decidable (call.Fresh zset)
  | .add fresh _ _ =>
      inferInstanceAs (Decidable (∀ node ∈ zset.hmap.nodes, node.owner ≠ fresh))
  | .pop _ => .isTrue trivial
  | .lookup _ => .isTrue trivial

def addUpdatePop : List (ZCall × ZAnswer) :=
  [(.add 1 [97] default, .added true), (.add 2 [98] default, .added true),
    (.add 3 [97] Score.one, .added false), (.pop [98], .node (some 2))]

theorem zset_runs_add_update_pop :
    ∃ zset, Runs ZStep {} addUpdatePop zset ∧
      ∃ nodes, AvlTree zset.avl zset.tree nodes ∧ nodes.Nodup := by
  have followed :
      (follow (answered (fun zset (label : ZCall × ZAnswer) => label.1.Fresh zset) Prod.snd
        (fun zset label => label.1.exec zset)) {} addUpdatePop).isSome = true := by
    decide +kernel
  obtain ⟨zset, run⟩ := runs_of_follow answered_sound followed
  obtain ⟨nodes, tree, _, nodup, _⟩ := zset_runs_keep_indexes_in_step run
  exact ⟨zset, run, nodes, tree, nodup⟩

end RedisC
