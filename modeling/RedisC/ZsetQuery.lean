/-
The walk of `do_zquery` over a sorted set.

Whatever it walks over, the walk writes an array whose count is the number of
the elements that follow.  On a set of fewer than `2 ^ 32` members it returns:
each step goes one place on in the order of the set.
-/

import RedisC.AvlOffset
import RedisC.Keyspace
import RedisC.ZsetInvariant

namespace RedisC

open BalancedTree Fallible

variable {zset : ZSet} {nodes : List Ptr}

def ZNode.shown (znode : ZNode) : List Value := [.str znode.name, .dbl znode.score.value]

theorem outStr_outDouble (znode : ZNode) (out : Bytes) :
    outDouble (outStr out znode.name) znode.score.value =
      out ++ Value.encodeAll znode.shown := by
  rw [outDouble_eq, outStr_eq, List.append_assoc, ZNode.shown, Value.encodeAll,
    Value.encodeAll, Value.encodeAll, List.append_nil]

structure Counts (out : Bytes) (n : UInt32) (elements : List Value)
    (result : Bytes × UInt32) : Prop where
  written : result.1 = out ++ Value.encodeAll elements
  counted : result.2 = n + UInt32.ofNat elements.length

private theorem zqueryLoop_counts (zset : ZSet) (limit : Int) (fuel : Nat) (curr : Option Ptr)
    (n : UInt32) (out : Bytes) :
    Meets (fun _ => True) (fun result => ∃ elements, Counts out n elements result)
      (zqueryLoop zset limit fuel curr n out) := by
  induction fuel generalizing curr n out with
  | zero => trivial
  | succ fuel ih =>
      cases curr with
      | none => exact ⟨[], (List.append_nil out).symm, (UInt32.add_zero n).symm⟩
      | some znode =>
          rw [zqueryLoop]
          split
          · simp only [outStr_outDouble]
            cases avlOffset zset.avl znode 1 with
            | error fault => trivial
            | ok next =>
                apply (ih next (n + 2) (out ++ Value.encodeAll (zset.znode znode).shown)).mono
                intro result counts
                rcases counts with ⟨elements, written, counted⟩
                refine ⟨(zset.znode znode).shown ++ elements, ?_, ?_⟩
                · rw [written, encodeAll_append, List.append_assoc]
                · rw [counted, List.length_append, UInt32.ofNat_add, ← UInt32.add_assoc]
                  rfl
          · exact ⟨[], (List.append_nil out).symm, (UInt32.add_zero n).symm⟩

theorem Counts.outUpdateArr_eq {elements : List Value} {result : Bytes × UInt32}
    (counts : Counts (outArr [] 0) 0 elements result) :
    outUpdateArr result.1 result.2 = .ok (Value.arr elements).encode := by
  rw [counts.written, counts.counted, outArr_eq, List.nil_append, RedisC.outUpdateArr_eq,
    UInt32.zero_add, Value.encode]

theorem outArr_zero : outArr [] 0 = (Value.arr []).encode := by
  rw [outArr_eq, Value.encode, Value.encodeAll, List.append_nil]
  rfl

theorem zqueryEntry_writes (zset : ZSet) (score : Score) (name : Bytes) (offset limit : Int) :
    Meets (fun _ => True) (fun result => ∃ elements, result = (Value.arr elements).encode)
      (zqueryEntry zset score name offset limit []) := by
  unfold zqueryEntry
  split
  · exact ⟨[], outArr_zero⟩
  · cases zsetQuery zset score name offset with
    | error fault => trivial
    | ok znode =>
        apply (zqueryLoop_counts zset limit avlFuel znode 0 (outArr [] 0)).bind
        intro result counts
        rcases counts with ⟨elements, counts⟩
        exact meets_of_eq_ok counts.outUpdateArr_eq ⟨elements, rfl⟩

/-! ### The walk returns -/

theorem AvlTree.avlOffset_eq {mem : AvlMem} {root : Option Ptr}
    (stored : AvlTree mem root nodes) (nodup : nodes.Nodup) (few : nodes.length < 2 ^ 32)
    {node : Ptr} {index : Nat} (found : nodes[index]? = some node) (offset : Int) :
    avlOffset mem node offset = .ok (nodeAtRank nodes (index + offset)) := by
  rcases stored with ⟨tree, _, linked, _, inorderIs⟩
  subst inorderIs
  rw [length_inorder] at few
  exact avlOffset_spec linked.counted nodup few found

private theorem mem_of_nodeAtRank {rank : Int} {node : Ptr}
    (found : nodeAtRank nodes rank = some node) :
    node ∈ nodes := by
  unfold nodeAtRank at found
  split at found
  · exact List.mem_of_getElem? found
  · cases found

/-- The fuel lasts for a walk down any tree of fewer than `2 ^ 32` nodes. -/
theorem height_lt_avlFuel {tree : BinaryTree Ptr} (inorderIs : inorder tree = nodes)
    (few : nodes.length < 2 ^ 32) : tree.height < avlFuel := by
  have low := BinaryTree.height_le_numNodes tree
  rw [← inorderIs, length_inorder] at few
  unfold avlFuel
  omega

theorem ZSet.Holds.zsetQuery_spec (holds : zset.Holds nodes) (few : nodes.length < 2 ^ 32)
    (score : Score) (name : Bytes) (offset : Int) :
    Meets (fun _ => False) (fun result => ∀ node, result = some node → node ∈ nodes)
      (zsetQuery zset score name offset) := by
  have nodup := holds.keyed.nodup
  have stored := holds.tree
  rcases stored with ⟨tree, rootIs, linked, _, inorderIs⟩
  unfold zsetQuery
  rw [← rootIs]
  have enough := height_lt_avlFuel inorderIs few
  apply (zsetSeek_spec linked enough none).bind
  intro found seek
  cases found with
  | none =>
      intro node contrary
      cases contrary
  | some start =>
      have member : start ∈ nodes := by
        rcases seek with contrary | ⟨node, inside, same⟩
        · cases contrary
        · rw [← inorderIs, Option.some.inj same]
          exact inside
      rcases List.mem_iff_getElem?.mp member with ⟨index, atIndex⟩
      simp only [holds.tree.avlOffset_eq nodup few atIndex offset]
      intro node found
      exact mem_of_nodeAtRank found

theorem ZSet.Holds.zqueryLoop_returns (holds : zset.Holds nodes) (few : nodes.length < 2 ^ 32)
    (limit : Int) {fuel index : Nat} (within : index ≤ nodes.length)
    (enough : nodes.length < fuel + index) (n : UInt32) (out : Bytes) :
    Meets (fun _ => False) (fun _ => True)
      (zqueryLoop zset limit fuel nodes[index]? n out) := by
  induction fuel generalizing index n out with
  | zero => omega
  | succ fuel ih =>
      cases found : nodes[index]? with
      | none => trivial
      | some znode =>
          have inside := (List.getElem?_eq_some_iff.mp found).1
          rw [zqueryLoop]
          split
          · have next : nodeAtRank nodes (index + 1) = nodes[index + 1]? := by
              unfold nodeAtRank
              rw [if_pos (by omega)]
              rfl
            rw [holds.tree.avlOffset_eq holds.keyed.nodup few found 1, next]
            exact ih inside (by omega) (n + 2) _
          · trivial

theorem ZSet.Holds.zqueryEntry_returns (holds : zset.Holds nodes)
    (few : nodes.length < 2 ^ 32) (score : Score) (name : Bytes) (offset limit : Int) :
    Meets (fun _ => False) (fun _ => True) (zqueryEntry zset score name offset limit []) := by
  unfold zqueryEntry
  split
  · trivial
  · apply (holds.zsetQuery_spec few score name offset).bind
    intro start member
    have started : ∃ index ≤ nodes.length, start = nodes[index]? := by
      cases start with
      | none => exact ⟨nodes.length, Nat.le_refl _, (List.getElem?_eq_none (Nat.le_refl _)).symm⟩
      | some node =>
          rcases List.mem_iff_getElem?.mp (member node rfl) with ⟨index, found⟩
          exact ⟨index, Nat.le_of_lt (List.getElem?_eq_some_iff.mp found).1, found.symm⟩
    rcases started with ⟨index, within, startIs⟩
    have enough : nodes.length < avlFuel + index := by
      unfold avlFuel
      omega
    have walked := (holds.zqueryLoop_returns few limit within enough 0 (outArr [] 0)).and_of_ok
      (zqueryLoop_counts zset limit avlFuel nodes[index]? 0 (outArr [] 0))
    rw [startIs]
    apply walked.bind
    intro result counts
    rcases counts.2 with ⟨elements, counts⟩
    exact meets_of_eq_ok counts.outUpdateArr_eq trivial

end RedisC
