/-
A map whose nodes have pairwise distinct keys.

The server uses the map in one way only: the hash code of a node is the hash of
a key kept in the object that owns the node, and no two objects have the same
key.  `Keyed hmap owners` states this for the objects `owners`; where in the two
tables they lie does not matter any more.
-/

import RedisC.HashtableInvariant

namespace RedisC

open Fallible

section

variable {α κ : Type} {key : α → κ} {hash : κ → UInt64} {hmap : HMap α} {owners : List α}

structure Keyed (key : α → κ) (hash : κ → UInt64) (hmap : HMap α) (owners : List α) :
    Prop where
  wellFormed : hmap.WellFormed
  nodes_perm : (hmap.nodes.map HNode.owner).Perm owners
  hashed : ∀ node ∈ hmap.nodes, node.hcode = hash (key node.owner)
  distinct : (owners.map key).Nodup

theorem Keyed.empty (key : α → κ) (hash : κ → UInt64) : Keyed key hash {} [] :=
  ⟨HMap.wellFormed_empty, List.Perm.refl _, fun _ member => absurd member List.not_mem_nil,
    List.nodup_nil⟩

theorem Keyed.size (keyed : Keyed key hash hmap owners) : hmSize hmap = owners.length := by
  rw [← keyed.nodes_perm.length_eq, List.length_map, hmSize, HMap.nodes, List.length_append,
    ← keyed.wellFormed.htTo.size_eq, ← keyed.wellFormed.htFrom.size_eq]

theorem Keyed.nodup (keyed : Keyed key hash hmap owners) : owners.Nodup :=
  List.Nodup.of_map key keyed.distinct

theorem Keyed.owner_mem (keyed : Keyed key hash hmap owners) {node : HNode α}
    (member : node ∈ hmap.nodes) : node.owner ∈ owners :=
  keyed.nodes_perm.mem_iff.mp (List.mem_map_of_mem member)

theorem Keyed.exists_node (keyed : Keyed key hash hmap owners) {owner : α}
    (member : owner ∈ owners) : ∃ node ∈ hmap.nodes, node.owner = owner :=
  List.mem_map.mp (keyed.nodes_perm.mem_iff.mpr member)

theorem Keyed.congr {keyNew : α → κ} (keyed : Keyed key hash hmap owners)
    (same : ∀ owner ∈ owners, keyNew owner = key owner) : Keyed keyNew hash hmap owners := by
  refine ⟨keyed.wellFormed, keyed.nodes_perm, ?_, ?_⟩
  · intro node member
    rw [keyed.hashed node member, same node.owner (keyed.owner_mem member)]
  · rw [List.map_congr_left same]
    exact keyed.distinct

theorem Keyed.of_perm {others : List α} (keyed : Keyed key hash hmap owners)
    (perm : owners.Perm others) : Keyed key hash hmap others :=
  ⟨keyed.wellFormed, keyed.nodes_perm.trans perm, keyed.hashed,
    (perm.map key).nodup_iff.mp keyed.distinct⟩

def Sought (owners : List α) (wanted : α → Prop) : Option α → Prop
  | some owner => owner ∈ owners ∧ wanted owner
  | none => ∀ owner ∈ owners, ¬wanted owner

/-- `cmp` decides `wanted` on the nodes of the map, and wanted nodes have the hash
code that is searched for. -/
structure Decides (hmap : HMap α) (hcode : UInt64) (cmp : HNode α → Bool)
    (wanted : α → Prop) : Prop where
  iff : ∀ node ∈ hmap.nodes, cmp node = true ↔ wanted node.owner
  hcode : ∀ node ∈ hmap.nodes, wanted node.owner → node.hcode = hcode

theorem Answers.sought (keyed : Keyed key hash hmap owners) {hcode : UInt64}
    {cmp : HNode α → Bool} {wanted : α → Prop} (decides : Decides hmap hcode cmp wanted)
    {answer : Option (HNode α)} (answers : Answers hmap.nodes hcode cmp answer) :
    Sought owners wanted (answer.map HNode.owner) := by
  cases answer with
  | some node =>
      obtain ⟨member, compared⟩ := answers.sound node rfl
      exact ⟨keyed.owner_mem member, (decides.iff node member).mp compared⟩
  | none =>
      intro owner member isWanted
      obtain ⟨node, inMap, rfl⟩ := keyed.exists_node member
      have missed := answers.complete rfl node inMap (decides.hcode node inMap isWanted)
      rw [(decides.iff node inMap).mpr isWanted] at missed
      cases missed

theorem Keyed.hmLookup_spec (keyed : Keyed key hash hmap owners) {hcode : UInt64}
    {cmp : HNode α → Bool} {wanted : α → Prop} (decides : Decides hmap hcode cmp wanted)
    (fuel : Nat) :
    Meets (· = .spin)
      (fun result : HMap α × Option (HNode α) =>
        Keyed key hash result.1 owners ∧ Sought owners wanted (result.2.map HNode.owner))
      (hmLookup fuel hmap hcode cmp) := by
  refine (keyed.wellFormed.hmLookup_spec fuel hcode cmp).mono ?_
  intro result listed
  rcases result with ⟨after, answer⟩
  rcases listed with ⟨helped, answers⟩
  refine ⟨⟨helped.wellFormed, ?_, ?_, keyed.distinct⟩, answers.sought keyed decides⟩
  · exact (helped.perm.map HNode.owner).trans keyed.nodes_perm
  · exact fun node member => keyed.hashed node (helped.perm.mem_iff.mp member)

theorem Keyed.hmInsert_spec (keyed : Keyed key hash hmap owners) (node : HNode α)
    (hashed : node.hcode = hash (key node.owner))
    (fresh : ∀ owner ∈ owners, key owner ≠ key node.owner) (fuel : Nat) :
    Meets (· = .spin) (fun after => Keyed key hash after (node.owner :: owners))
      (hmInsert fuel hmap node) := by
  refine (keyed.wellFormed.hmInsert_spec fuel node).mono ?_
  intro after listed
  rcases listed with ⟨form, perm⟩
  refine ⟨form, ?_, ?_, ?_⟩
  · exact (perm.map HNode.owner).trans (keyed.nodes_perm.cons _)
  · intro other member
    rcases List.mem_cons.mp (perm.mem_iff.mp member) with rfl | old
    · exact hashed
    · exact keyed.hashed other old
  · rw [List.map_cons, List.nodup_cons]
    refine ⟨?_, keyed.distinct⟩
    intro member
    obtain ⟨owner, present, same⟩ := List.mem_map.mp member
    exact fresh owner present same

theorem Keyed.hmPop_spec [DecidableEq α] (keyed : Keyed key hash hmap owners)
    {hcode : UInt64} {cmp : HNode α → Bool} {wanted : α → Prop}
    (decides : Decides hmap hcode cmp wanted) (fuel : Nat) :
    Meets (· = .spin)
      (fun result : HMap α × Option (HNode α) =>
        Sought owners wanted (result.2.map HNode.owner) ∧
          match result.2 with
          | none => Keyed key hash result.1 owners
          | some node => Keyed key hash result.1 (owners.erase node.owner))
      (hmPop fuel hmap hcode cmp) := by
  refine (keyed.wellFormed.hmPop_spec fuel hcode cmp).mono ?_
  intro result listed
  rcases result with ⟨after, answer⟩
  rcases listed with ⟨form, answers, removes⟩
  refine ⟨answers.sought keyed decides, ?_⟩
  cases answer with
  | none =>
      have perm : after.nodes.Perm hmap.nodes := removes
      refine ⟨form, (perm.map HNode.owner).trans keyed.nodes_perm, ?_, keyed.distinct⟩
      exact fun node member => keyed.hashed node (perm.mem_iff.mp member)
  | some found =>
      have perm : (found :: after.nodes).Perm hmap.nodes := removes
      have owned : (found.owner :: after.nodes.map HNode.owner).Perm owners :=
        (perm.map HNode.owner).trans keyed.nodes_perm
      refine ⟨form, ?_, ?_, ?_⟩
      · have erased := owned.erase found.owner
        rw [List.erase_cons_head] at erased
        exact erased
      · exact fun node member =>
          keyed.hashed node (perm.mem_iff.mp (List.mem_cons_of_mem _ member))
      · exact keyed.distinct.sublist (List.erase_sublist.map key)

end

end RedisC
