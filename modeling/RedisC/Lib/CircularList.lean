/-
Circular doubly linked lists with a sentinel.

`Ring prev next sentinel nodes` says that the two functions link the sentinel and
the nodes, in this order, into one cycle.  A node is taken out, or put in front of
the sentinel, by the usual assignments to its neighbours; that the neighbours can be
the same, or the sentinel itself, is dealt with here once.
-/

import Mathlib

namespace CircularList

variable {α : Type*} {prev next : α → α} {sentinel node : α} {nodes : List α}

def Joined (prev next : α → α) (first second : α) : Prop :=
  next first = second ∧ prev second = first

structure Ring (prev next : α → α) (sentinel : α) (nodes : List α) : Prop where
  chain : (sentinel :: (nodes ++ [sentinel])).IsChain (Joined prev next)
  nodup : (sentinel :: nodes).Nodup

theorem ring_nil (same : next sentinel = sentinel) (samePrev : prev sentinel = sentinel) :
    Ring prev next sentinel [] :=
  ⟨List.isChain_pair.mpr ⟨same, samePrev⟩, List.nodup_singleton _⟩

/-! ### Traversal -/

theorem iterate_of_chain {follow : α → α} {first : α} {rest : List α}
    (chain : (first :: rest).IsChain fun left right => follow left = right) :
    List.iterate follow (follow first) rest.length = rest := by
  induction rest generalizing first with
  | nil => rfl
  | cons second rest ih =>
      rw [List.isChain_cons_cons] at chain
      rw [List.length_cons, List.iterate, chain.1, ih chain.2]

/-- Following `next` from the sentinel, one meets the nodes and then the sentinel. -/
theorem Ring.forward (ring : Ring prev next sentinel nodes) :
    List.iterate next (next sentinel) (nodes.length + 1) = nodes ++ [sentinel] := by
  have walked := iterate_of_chain (ring.chain.imp fun _ _ joined => joined.1)
  rw [List.length_append, List.length_singleton] at walked
  exact walked

theorem Ring.backward (ring : Ring prev next sentinel nodes) :
    List.iterate prev (prev sentinel) (nodes.length + 1) = nodes.reverse ++ [sentinel] := by
  have reversed : (sentinel :: (nodes.reverse ++ [sentinel])).IsChain
      fun left right => prev left = right := by
    have turned : sentinel :: (nodes.reverse ++ [sentinel]) =
        (sentinel :: (nodes ++ [sentinel])).reverse := by simp
    rw [turned, List.isChain_reverse]
    exact ring.chain.imp fun _ _ joined => joined.2
  have walked := iterate_of_chain reversed
  rw [List.length_append, List.length_reverse, List.length_singleton] at walked
  exact walked

theorem Ring.next_sentinel (ring : Ring prev next sentinel nodes) :
    next sentinel = nodes.headD sentinel := by
  cases nodes with
  | nil => exact (List.isChain_pair.mp ring.chain).1
  | cons first rest => exact (List.isChain_cons_cons.mp ring.chain).1.1

/-! ### Edits -/

/-- A chain uses `next` at all members but the last, and `prev` at all but the first. -/
theorem chain_congr {prev' next' : α → α} {items : List α}
    (chain : items.IsChain (Joined prev next))
    (sameNext : ∀ item ∈ items.dropLast, next' item = next item)
    (samePrev : ∀ item ∈ items.tail, prev' item = prev item) :
    items.IsChain (Joined prev' next') := by
  induction chain with
  | nil => exact .nil
  | singleton item => exact .singleton item
  | cons_cons joined tail ih =>
      rename_i first second rest
      apply List.IsChain.cons_cons
      · constructor
        · rw [sameNext first List.mem_cons_self]
          exact joined.1
        · rw [samePrev second List.mem_cons_self]
          exact joined.2
      · apply ih
        · intro item member
          exact sameNext item (List.mem_cons_of_mem _ member)
        · intro item member
          exact samePrev item (List.mem_cons_of_mem _ member)

/-- Two chains are linked to one.  The functions are changed only where the chains meet. -/
theorem chain_link [DecidableEq α] {front back : List α} {last first : α}
    (frontChain : (front ++ [last]).IsChain (Joined prev next))
    (backChain : (first :: back).IsChain (Joined prev next))
    (lastOnce : last ∉ front ∧ last ∉ (first :: back).dropLast)
    (firstOnce : first ∉ back ∧ first ∉ (front ++ [last]).tail) :
    (front ++ last :: first :: back).IsChain
      (Joined (Function.update prev first last) (Function.update next last first)) := by
  have apart : ∀ {items : List α} {skipped : α}, skipped ∉ items →
      ∀ item ∈ items, item ≠ skipped := by
    intro items skipped outside item member same
    rw [same] at member
    exact outside member
  rw [List.isChain_append_cons_cons]
  constructor
  · apply chain_congr frontChain
    · intro item member
      rw [List.dropLast_concat] at member
      exact Function.update_of_ne (apart lastOnce.1 item member) _ _
    · intro item member
      exact Function.update_of_ne (apart firstOnce.2 item member) _ _
  · constructor
    · exact ⟨Function.update_self _ _ _, Function.update_self _ _ _⟩
    · apply chain_congr backChain
      · intro item member
        exact Function.update_of_ne (apart lastOnce.2 item member) _ _
      · intro item member
        exact Function.update_of_ne (apart firstOnce.1 item member) _ _

/-- What stands before a place of the ring, and what stands behind it. -/
theorem exists_neighbours (sentinel : α) (front back : List α) :
    ∃ before last first after, sentinel :: front = before ++ [last] ∧
      back ++ [sentinel] = first :: after := by
  obtain ⟨first, after, behind⟩ :=
    List.exists_cons_of_ne_nil (List.append_ne_nil_of_right_ne_nil back
      (List.cons_ne_nil sentinel []))
  exact ⟨_, _, first, after, (List.dropLast_append_getLast (List.cons_ne_nil _ _)).symm, behind⟩

/-- The neighbours of a place of the ring are met once, but for the sentinel. -/
theorem neighbours_once {front back before after : List α} {last first : α}
    (nodup : (sentinel :: (front ++ back)).Nodup) (ahead : sentinel :: front = before ++ [last])
    (behind : back ++ [sentinel] = first :: after) :
    (last ∉ before ∧ last ∉ (first :: after).dropLast) ∧
      first ∉ after ∧ first ∉ (before ++ [last]).tail := by
  have parts := List.nodup_append.mp (show ((sentinel :: front) ++ back).Nodup from nodup)
  have sentinelOnce : sentinel ∉ front ++ back := (List.nodup_cons.mp nodup).1
  have lastMember : last ∈ sentinel :: front := by
    rw [ahead]
    exact List.mem_append_right _ List.mem_cons_self
  have firstMember : first ∈ back ++ [sentinel] := by
    rw [behind]
    exact List.mem_cons_self
  constructor
  · constructor
    · have aheadNodup := parts.1
      rw [ahead] at aheadNodup
      intro member
      exact (List.nodup_append.mp aheadNodup).2.2 last member last List.mem_cons_self rfl
    · rw [← behind, List.dropLast_concat]
      intro member
      exact parts.2.2 last lastMember last member rfl
  · constructor
    · have behindNodup : (back ++ [sentinel]).Nodup := by
        rw [List.nodup_append_comm]
        exact List.nodup_cons.mpr
          ⟨fun member => sentinelOnce (List.mem_append_right _ member), parts.2.1⟩
      rw [behind] at behindNodup
      exact (List.nodup_cons.mp behindNodup).1
    · rw [← ahead, List.tail_cons]
      intro member
      rcases List.mem_append.mp firstMember with inside | atSentinel
      · exact parts.2.2 first (List.mem_cons_of_mem _ member) first inside rfl
      · rw [List.mem_singleton.mp atSentinel] at member
        exact sentinelOnce (List.mem_append_left _ member)

/-- The neighbours of a node are joined, and the node is out. -/
theorem Ring.detach [DecidableEq α] {front back : List α}
    (ring : Ring prev next sentinel (front ++ node :: back)) :
    Ring (Function.update prev (next node) (prev node))
      (Function.update next (prev node) (next node)) sentinel (front ++ back) := by
  obtain ⟨before, last, first, after, ahead, behind⟩ := exists_neighbours sentinel front back
  have fewer : (sentinel :: (front ++ back)).Nodup :=
    ring.nodup.sublist (((List.sublist_cons_self node back).append_left front).cons_cons sentinel)
  have once := neighbours_once fewer ahead behind
  have whole : sentinel :: (front ++ node :: back ++ [sentinel]) =
      before ++ last :: node :: first :: after := by
    calc sentinel :: (front ++ node :: back ++ [sentinel])
        = (sentinel :: front) ++ node :: (back ++ [sentinel]) := by simp
      _ = before ++ last :: node :: first :: after := by simp [ahead, behind]
  have remaining : sentinel :: (front ++ back ++ [sentinel]) =
      before ++ last :: first :: after := by
    calc sentinel :: (front ++ back ++ [sentinel])
        = (sentinel :: front) ++ (back ++ [sentinel]) := by simp
      _ = before ++ last :: first :: after := by simp [ahead, behind]
  have chain := ring.chain
  rw [whole, List.isChain_append_cons_cons, List.isChain_cons_cons] at chain
  obtain ⟨frontChain, lastNode, nodeFirst, backChain⟩ := chain
  constructor
  · rw [remaining, nodeFirst.1, lastNode.2]
    exact chain_link frontChain backChain once.1 once.2
  · exact fewer

theorem Ring.insertBefore [DecidableEq α] (ring : Ring prev next sentinel nodes)
    (new : node ∉ sentinel :: nodes) :
    Ring (Function.update (Function.update prev node (prev sentinel)) sentinel node)
      (Function.update (Function.update next (prev sentinel) node) node sentinel) sentinel
      (nodes ++ [node]) := by
  obtain ⟨before, last, first, after, ahead, behind⟩ := exists_neighbours sentinel nodes []
  have once := neighbours_once (by rw [List.append_nil]; exact ring.nodup) ahead behind
  obtain ⟨rfl, rfl⟩ := List.cons.inj behind
  have split : sentinel :: (nodes ++ [sentinel]) = before ++ [last, sentinel] := by
    rw [← List.cons_append, ahead, List.append_assoc]
    rfl
  have longer : sentinel :: (nodes ++ [node] ++ [sentinel]) =
      before ++ [last] ++ [node, sentinel] := by
    rw [← ahead, List.append_assoc]
    rfl
  have extended : before ++ [last, node] = sentinel :: (nodes ++ [node]) := by
    rw [← List.cons_append, ahead, List.append_assoc]
    rfl
  obtain ⟨apart, unlisted⟩ := not_or.mp (fun either => new (List.mem_cons.mpr either))
  have chain := ring.chain
  rw [split, List.isChain_append_cons_cons] at chain
  obtain ⟨frontChain, lastSentinel, -⟩ := chain
  have withNode := chain_link frontChain (List.isChain_singleton node)
    ⟨once.1.1, List.not_mem_nil⟩
    ⟨List.not_mem_nil, by rw [← ahead]; exact unlisted⟩
  constructor
  · rw [longer, lastSentinel.2]
    apply chain_link
    · rw [List.append_assoc]
      exact withNode
    · exact List.isChain_singleton sentinel
    · rw [← ahead]
      exact ⟨new, List.not_mem_nil⟩
    · refine ⟨List.not_mem_nil, ?_⟩
      rw [List.append_assoc]
      change sentinel ∉ (before ++ [last, node]).tail
      rw [extended, List.tail_cons]
      intro member
      rcases List.mem_append.mp member with old | atNode
      · exact (List.nodup_cons.mp ring.nodup).1 old
      · exact apart (List.mem_singleton.mp atNode).symm
  · rw [← List.cons_append, List.nodup_append_comm]
    exact List.nodup_cons.mpr ⟨new, ring.nodup⟩

end CircularList
