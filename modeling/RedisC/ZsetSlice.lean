/-
The slice of a sorted set that `do_zquery` writes.

In a set whose nodes increase, the search of `zset_query` ends at the node whose
rank is the number of the tuples less than the one sought.  From there
`avl_offset` jumps, and each round of the output loop writes one tuple, counts
two elements and goes one place on, until the limit or the end of the set.
-/

import RedisC.KeyspaceRefinement

namespace RedisC

open BalancedTree Fallible

variable {zset : ZSet} {nodes : List Ptr}

/-- The number of tuples strictly less than `(score, name)`. -/
def lowerRank (znode : Ptr → ZNode) (nodes : List Ptr) (score : Score) (name : Bytes) : Nat :=
  nodes.countP fun node => decide ((znode node).key < tupleKey score name)

/-! ### The search -/

def Downward (less : Ptr → Bool) (nodes : List Ptr) : Prop :=
  nodes.Pairwise fun lower upper => less upper = true → less lower = true

private theorem zsetSeek_eq {focus : BinaryTree Ptr} {parent : Option Ptr} {score : Score}
    {name : Bytes} {fuel : Nat} (linked : Linked zset.avl parent focus)
    (downward : Downward (fun node => zlessTuple (zset.znode node) score name) (inorder focus))
    (enough : focus.height < fuel) (found : Option Ptr) :
    zsetSeek zset score name fuel found (rootPtr focus) =
      .ok (((inorder focus).find? fun node => !zlessTuple (zset.znode node) score name).or
        found) := by
  induction focus generalizing parent found fuel with
  | nil =>
      obtain ⟨fuel, rfl⟩ : ∃ rest, fuel = rest + 1 := ⟨fuel - 1, by omega⟩
      rfl
  | node value left right leftIh rightIh =>
      obtain ⟨wired, _, leftLinked, rightLinked⟩ := linked
      rw [BinaryTree.height] at enough
      obtain ⟨fuel, rfl⟩ : ∃ rest, fuel = rest + 1 := ⟨fuel - 1, by omega⟩
      rw [inorder, Downward, List.pairwise_append, List.pairwise_cons] at downward
      obtain ⟨leftDown, ⟨_, rightDown⟩, across⟩ := downward
      rw [rootPtr, zsetSeek, wired.left, wired.right, inorder, List.find?_append]
      cases less : zlessTuple (zset.znode value) score name with
      | true =>
          have noneLeft : (inorder left).find?
              (fun node => !zlessTuple (zset.znode node) score name) = none := by
            rw [List.find?_eq_none]
            intro node member
            rw [across node member value List.mem_cons_self less]
            decide
          rw [if_pos rfl, rightIh rightLinked rightDown (by omega), noneLeft, Option.none_or,
            List.find?_cons_of_neg (by rw [less]; decide)]
      | false =>
          rw [if_neg (by decide), leftIh leftLinked leftDown (by omega),
            List.find?_cons_of_pos (by rw [less]; rfl), Option.or_assoc, Option.some_or]

private theorem find?_eq_getElem?_countP {less : Ptr → Bool} (downward : Downward less nodes) :
    nodes.find? (fun node => !less node) = nodes[nodes.countP less]? := by
  induction nodes with
  | nil => rfl
  | cons node rest ih =>
      rw [Downward, List.pairwise_cons] at downward
      obtain ⟨first, restDown⟩ := downward
      cases isLess : less node with
      | true =>
          rw [List.find?_cons_of_neg (by rw [isLess]; decide), List.countP_cons_of_pos isLess,
            List.getElem?_cons_succ]
          exact ih restDown
      | false =>
          have none : rest.countP less = 0 := by
            rw [List.countP_eq_zero]
            intro other member otherLess
            rw [first other member otherLess] at isLess
            cases isLess
          rw [List.find?_cons_of_pos (by rw [isLess]; rfl),
            List.countP_cons_of_neg (by rw [isLess]; decide), none, List.getElem?_cons_zero]

section Sorted

variable (holds : zset.Holds nodes) (sorted : zset.Sorted nodes)
include sorted

theorem ZSet.Sorted.zlessTuple_eq (score : Score) (name : Bytes) :
    ∀ node ∈ nodes, zlessTuple (zset.znode node) score name =
      decide ((zset.znode node).key < tupleKey score name) := by
  intro node member
  rw [Bool.eq_iff_iff, decide_eq_true_eq]
  exact zlessTuple_iff (sorted.short node member)

theorem ZSet.Sorted.downward (score : Score) (name : Bytes) :
    Downward (fun node => zlessTuple (zset.znode node) score name) nodes := by
  have ordered := sorted.ordered
  unfold Ordered at ordered
  apply List.Pairwise.imp_of_mem _ ordered
  intro lower upper lowerMem upperMem below upperLess
  rw [zlessTuple_iff (sorted.short upper upperMem)] at upperLess
  rw [zlessTuple_iff (sorted.short lower lowerMem)]
  exact lt_trans below upperLess

theorem ZSet.Sorted.lowerRank_eq (score : Score) (name : Bytes) :
    nodes.countP (fun node => zlessTuple (zset.znode node) score name) =
      lowerRank zset.znode nodes score name := by
  apply List.countP_congr
  intro node member
  rw [sorted.zlessTuple_eq score name node member]

include holds

theorem ZSet.Sorted.zsetQuery_eq (few : nodes.length < 2 ^ 32) (score : Score) (name : Bytes)
    (offset : Int) :
    zsetQuery zset score name offset =
      .ok (if lowerRank zset.znode nodes score name < nodes.length then
        nodeAtRank nodes (lowerRank zset.znode nodes score name + offset) else none) := by
  have stored := holds.tree
  obtain ⟨tree, rootIs, linked, _, inorderIs⟩ := stored
  have downward := sorted.downward score name
  have found := find?_eq_getElem?_countP downward
  rw [sorted.lowerRank_eq] at found
  have enough := height_lt_avlFuel inorderIs few
  rw [← inorderIs] at downward
  unfold zsetQuery
  rw [← rootIs, zsetSeek_eq linked downward enough none, inorderIs, found, Option.or_none,
    ok_bind]
  by_cases inside : lowerRank zset.znode nodes score name < nodes.length
  · have atRank := List.getElem?_eq_getElem inside
    rw [if_pos inside, atRank]
    exact holds.tree.avlOffset_eq holds.keyed.nodup few atRank offset
  · rw [if_neg inside, List.getElem?_eq_none (by omega)]
    rfl

end Sorted

/-! ### The output loop -/

def shownAll (znode : Ptr → ZNode) (part : List Ptr) : List Value :=
  part.flatMap fun node => (znode node).shown

theorem shownAll_cons (znode : Ptr → ZNode) (node : Ptr) (part : List Ptr) :
    shownAll znode (node :: part) = (znode node).shown ++ shownAll znode part := rfl

theorem length_shownAll (znode : Ptr → ZNode) (part : List Ptr) :
    (shownAll znode part).length = 2 * part.length := by
  induction part with
  | nil => rfl
  | cons node rest ih =>
      have two : (znode node).shown.length = 2 := rfl
      rw [shownAll_cons, List.length_append, List.length_cons, ih, two]
      omega

/-- How many tuples are written when `n` elements are there and `limit` are wanted. -/
def roundsLeft (limit : Int) (n : Nat) : Nat := ((limit - n + 1) / 2).toNat

private theorem zqueryLoop_eq (holds : zset.Holds nodes) (few : nodes.length < 2 ^ 32) (limit : Int)
    {fuel index : Nat} (within : index ≤ nodes.length) (enough : nodes.length < fuel + index)
    {n : UInt32} (room : n.toNat + 2 * (nodes.length - index) < 2 ^ 32) (out : Bytes) :
    zqueryLoop zset limit fuel nodes[index]? n out =
      .ok (out ++ Value.encodeAll
          (shownAll zset.znode ((nodes.drop index).take (roundsLeft limit n.toNat))),
        n + UInt32.ofNat (2 * ((nodes.drop index).take (roundsLeft limit n.toNat)).length)) := by
  induction fuel generalizing index n out with
  | zero => omega
  | succ fuel ih =>
      cases found : nodes[index]? with
      | none =>
          have past : nodes.length ≤ index := List.getElem?_eq_none_iff.mp found
          rw [zqueryLoop, List.drop_eq_nil_of_le past, List.take_nil]
          simp [shownAll, Value.encodeAll]
      | some znode =>
          obtain ⟨inside, nodeIs⟩ := List.getElem?_eq_some_iff.mp found
          rw [zqueryLoop]
          split
          · rename_i below
            have next : nodeAtRank nodes (index + 1) = nodes[index + 1]? := by
              unfold nodeAtRank
              rw [if_pos (by omega)]
              rfl
            have nIs : (n + 2).toNat = n.toNat + 2 := by
              rw [UInt32.toNat_add]
              exact Nat.mod_eq_of_lt (by have : (2 : UInt32).toNat = 2 := rfl; omega)
            have rounds : roundsLeft limit n.toNat = roundsLeft limit (n + 2).toNat + 1 := by
              unfold roundsLeft
              rw [nIs]
              omega
            rw [holds.tree.avlOffset_eq holds.keyed.nodup few found 1, next, ok_bind,
              ih inside (by omega) (by rw [nIs]; omega), outStr_outDouble, rounds,
              List.drop_eq_getElem_cons inside, nodeIs, List.take_succ_cons]
            generalize (nodes.drop (index + 1)).take (roundsLeft limit (n + 2).toNat) = part
            have two : (2 : UInt32) = UInt32.ofNat 2 := rfl
            rw [shownAll_cons, encodeAll_append, List.append_assoc, List.length_cons,
              Nat.mul_succ, Nat.add_comm _ 2, UInt32.ofNat_add, UInt32.add_assoc, two]
          · rename_i above
            have rounds : roundsLeft limit n.toNat = 0 := by
              unfold roundsLeft
              omega
            rw [rounds, List.take_zero]
            simp [shownAll, Value.encodeAll]

theorem ZSet.Sorted.zqueryEntry_eq (holds : zset.Holds nodes) (sorted : zset.Sorted nodes)
    (few : nodes.length < 2 ^ 31) (score : Score) (name : Bytes) (offset : Int) {limit : Int}
    (positive : 0 < limit) (first : Nat)
    (start : (if lowerRank zset.znode nodes score name < nodes.length then
      nodeAtRank nodes (lowerRank zset.znode nodes score name + offset) else none) =
        nodes[first]?) (within : first ≤ nodes.length) :
    zqueryEntry zset score name offset limit [] =
      .ok (Value.arr (shownAll zset.znode ((nodes.drop first).take
        (roundsLeft limit 0)))).encode := by
  have enough : nodes.length < avlFuel + first := by
    unfold avlFuel
    omega
  have zero : (0 : UInt32).toNat = 0 := rfl
  have walked := zqueryLoop_eq holds (by omega) limit within enough (n := 0) (by omega)
    (outArr [] 0)
  rw [zero] at walked
  have counts : Counts (outArr [] 0) 0
      (shownAll zset.znode ((nodes.drop first).take (roundsLeft limit 0)))
      (outArr [] 0 ++ Value.encodeAll
          (shownAll zset.znode ((nodes.drop first).take (roundsLeft limit 0))),
        0 + UInt32.ofNat (2 * ((nodes.drop first).take (roundsLeft limit 0)).length)) := by
    constructor
    · rfl
    · rw [length_shownAll]
  unfold zqueryEntry
  rw [if_neg (by omega), sorted.zsetQuery_eq holds (by omega), start, ok_bind, walked, ok_bind]
  exact counts.outUpdateArr_eq

/-- What `do_zquery` should write: `rank` is the place of the tuple in the order. -/
structure Slice (zset : ZSet) (nodes : List Ptr) (rank : Nat) (offset limit : Int)
    (reply : Bytes) : Prop where
  inside : 0 < limit → rank < nodes.length → 0 ≤ rank + offset → rank + offset < nodes.length →
    ∃ first m : Nat, (first : Int) = rank + offset ∧
      (m : Int) = min ((limit + 1) / 2) (nodes.length - first) ∧
      ((nodes.drop first).take m).length = m ∧ 2 * m < 2 ^ 32 ∧
      reply = arrHeader (UInt32.ofNat (2 * m)) ++ Value.encodeAll
        (shownAll zset.znode ((nodes.drop first).take m))
  outside : ¬(0 < limit ∧ rank < nodes.length ∧ 0 ≤ rank + offset ∧
    rank + offset < nodes.length) → reply = arrHeader 0

theorem ZSet.Sorted.zqueryEntry_slice (holds : zset.Holds nodes) (sorted : zset.Sorted nodes)
    (few : nodes.length < 2 ^ 31) (score : Score) (name : Bytes) (offset limit : Int) :
    Meets (fun _ => False)
      (Slice zset nodes (lowerRank zset.znode nodes score name) offset limit)
      (zqueryEntry zset score name offset limit []) := by
  have empty : (Value.arr []).encode = arrHeader 0 := by
    rw [Value.encode, Value.encodeAll, List.append_nil]
    rfl
  by_cases positive : 0 < limit
  · have written := sorted.zqueryEntry_eq holds few score name offset positive
    generalize lowerRank zset.znode nodes score name = rank at written ⊢
    by_cases reached : rank < nodes.length ∧ 0 ≤ rank + offset ∧ rank + offset < nodes.length
    · obtain ⟨below, low, high⟩ := reached
      obtain ⟨first, firstIs⟩ := Int.eq_ofNat_of_zero_le low
      have start : nodeAtRank nodes (rank + offset) = nodes[first]? := by
        rw [firstIs]
        exact if_pos (Int.natCast_nonneg first)
      have returned := written first ((if_pos below).trans start) (by omega)
      have length : (nodes.drop first).length = nodes.length - first := List.length_drop
      rw [List.take_eq_take_min, length] at returned
      apply meets_of_eq_ok returned
      constructor
      · intro _ _ _ _
        have full : ((nodes.drop first).take
            (min (roundsLeft limit 0) (nodes.length - first))).length =
              min (roundsLeft limit 0) (nodes.length - first) := by
          rw [List.length_take, length]
          omega
        refine ⟨first, min (roundsLeft limit 0) (nodes.length - first), firstIs.symm, ?_, full,
          by omega, ?_⟩
        · unfold roundsLeft
          omega
        · rw [Value.encode, length_shownAll, full]
      · intro contrary
        exact absurd ⟨positive, below, low, high⟩ contrary
    · have start : (if rank < nodes.length then nodeAtRank nodes (rank + offset) else none) =
          nodes[nodes.length]? := by
        rw [List.getElem?_eq_none (Nat.le_refl _)]
        split
        · exact nodeAtRank_outside (by omega)
        · rfl
      have returned := written nodes.length start (Nat.le_refl _)
      rw [List.drop_length, List.take_nil] at returned
      apply meets_of_eq_ok returned
      constructor
      · intro _ below low high
        exact absurd ⟨below, low, high⟩ reached
      · intro _
        exact empty
  · unfold zqueryEntry
    rw [if_pos (by omega), outArr_zero]
    constructor
    · intro contrary
      exact absurd contrary positive
    · intro _
      exact empty

/-- `do_zquery` on a sorted set, whatever the other keys hold: once the search for the key
has returned, it returns too, with the slice. -/
theorem doZquery_writes_slice (strtod : Strtod) {g after : GData} {ents : List Ptr}
    {dict : Dict} {due : Bytes → Option UInt64} (represents : g.Represents ents dict due)
    {ent : Ptr} (member : ent ∈ ents) (isZset : (g.entry ent).type = .zset)
    (zsetIs : (g.entry ent).zset = some zset) (holds : zset.Holds nodes)
    (sorted : zset.Sorted nodes) (few : nodes.length < 2 ^ 31)
    {scoreArg offsetArg limitArg : Bytes} {score : Score} {offset limit : Int}
    (scoreIs : str2double strtod scoreArg = some score) (name : Bytes)
    (offsetIs : str2int offsetArg = some offset) (limitIs : str2int limitArg = some limit)
    {found : Option Ptr} (looked : dbLookup g (g.entry ent).key = .ok (after, found)) :
    ∃ reply,
      doZquery strtod g (g.entry ent).key scoreArg name offsetArg limitArg [] =
        .ok (after, reply) ∧
      Slice zset nodes (lowerRank zset.znode nodes score name) offset limit reply := by
  obtain ⟨-, same, sought⟩ := (represents.dbLookup_spec (g.entry ent).key).of_ok looked
  dsimp only at same sought
  have foundIs : found = some ent := by
    cases found with
    | none => exact absurd rfl (sought ent member)
    | some other => rw [represents.eq_of_key member sought.1 sought.2]
  obtain ⟨reply, written, slice⟩ :=
    (sorted.zqueryEntry_slice holds few score name offset limit).returns
  refine ⟨reply, ?_, slice⟩
  unfold doZquery expectZset
  simp only [scoreIs, offsetIs, limitIs, looked, foundIs, ok_bind, same, isZset, zsetIs,
    pure_eq_ok, written]

def mapOf (key : Ptr → Bytes) (owners : List Ptr) : Except Fault (HMap Ptr) :=
  owners.foldlM (fun hmap owner => hmInsert hmFuel hmap ⟨owner, strHash (key owner)⟩) {}

private theorem keyed_of_mapOf {key : Ptr → Bytes} {owners : List Ptr} {hmap : HMap Ptr}
    (distinct : (owners.map key).Nodup) (returned : mapOf key owners = .ok hmap) :
    Keyed key strHash hmap owners := by
  have each : ∀ (rest done : List Ptr) (before : HMap Ptr), Keyed key strHash before done →
      ((rest ++ done).map key).Nodup → ∀ after,
      rest.foldlM (fun hmap owner => hmInsert hmFuel hmap ⟨owner, strHash (key owner)⟩) before =
        .ok after → Keyed key strHash after (rest ++ done) := by
    intro rest
    induction rest with
    | nil =>
        intro done before keyed _ after returned
        cases returned
        exact keyed
    | cons owner rest ih =>
        intro done before keyed distinct after returned
        rw [List.foldlM_cons] at returned
        obtain ⟨middle, inserted, returned⟩ := bind_eq_ok returned
        have moved : (rest ++ owner :: done).Perm (owner :: (rest ++ done)) := List.perm_middle
        have fresh : ∀ other ∈ done, key other ≠ key owner := by
          intro other member same
          rw [List.cons_append, List.map_cons, List.nodup_cons, ← same] at distinct
          exact distinct.1 (List.mem_map_of_mem (List.mem_append_right rest member))
        have keyedNow := (keyed.hmInsert_spec ⟨owner, strHash (key owner)⟩ rfl fresh
          hmFuel).of_ok inserted
        exact (ih (owner :: done) middle keyedNow ((moved.map key).nodup_iff.mpr distinct) after
          returned).of_perm moved
  have keyed := each owners [] {} (Keyed.empty key strHash)
    (by rw [List.append_nil]; exact distinct) hmap returned
  rw [List.append_nil] at keyed
  exact keyed

def memberName (node : Ptr) : Bytes :=
  if node = 1 then ascii "a" else if node = 2 then ascii "ab"
  else if node = 3 then ascii "b" else ascii "c"

/-- A set with the members `a`, `ab`, `b` and `c`, all of score 1. -/
def fourMembers : ZSet where
  tree := some 2
  hmap := (mapOf memberName [1, 2, 3, 4]).toOption.getD {}
  avl := fun node =>
    if node = 2 then { depth := 3, count := 4, left := some 1, right := some 3 }
    else if node = 3 then { depth := 2, count := 2, right := some 4, parent := some 2 }
    else { depth := 1, count := 1, parent := if node = 1 then some 2 else some 3 }
  znode := fun node => { score := Score.one, name := memberName node }

def fourMembersDb : GData where
  db := (mapOf (fun _ => ascii "z") [1]).toOption.getD {}
  entry := fun _ =>
    { hcode := strHash (ascii "z"), key := ascii "z", type := .zset, zset := some fourMembers }

private theorem fourMembers_holds : fourMembers.Holds [1, 2, 3, 4] := by
  have returned : mapOf memberName [1, 2, 3, 4] = .ok fourMembers.hmap := rfl
  refine ⟨keyed_of_mapOf (by decide) returned,
    .node 2 (.node 1 .nil .nil) (.node 3 .nil (.node 4 .nil .nil)), rfl, ?_, ?_, rfl⟩
  · exact ⟨⟨rfl, rfl, rfl⟩, ⟨rfl, rfl⟩, ⟨⟨rfl, rfl, rfl⟩, ⟨rfl, rfl⟩, trivial, trivial⟩,
      ⟨⟨rfl, rfl, rfl⟩, ⟨rfl, rfl⟩, trivial, ⟨⟨rfl, rfl, rfl⟩, ⟨rfl, rfl⟩, trivial, trivial⟩⟩⟩
  · simp [BalancedTree.Balanced, BinaryTree.height]

private theorem fourMembers_sorted : fourMembers.Sorted [1, 2, 3, 4] := by
  have short : ShortNames fourMembers.znode [1, 2, 3, 4] := by
    intro node _
    change (memberName node).length < 2 ^ 32
    unfold memberName
    split_ifs <;> decide
  refine ⟨short, ?_⟩
  have ordered : [1, 2, 3, 4].Pairwise fun lower upper : Ptr =>
      zlessTuple (fourMembers.znode lower) (fourMembers.znode upper).score
        (fourMembers.znode upper).name = true := by
    decide +kernel
  apply List.Pairwise.imp_of_mem _ ordered
  intro lower upper lowerMem _ less
  exact (zlessTuple_iff (short lower lowerMem)).mp less

private theorem scores_of_distinct {znode : Ptr → ZNode}
    (distinct : (nodes.map fun node => (znode node).name).Nodup) :
    Scores znode nodes fun name =>
      (nodes.find? fun node => (znode node).name == name).map fun node => (znode node).score := by
  intro name score
  rw [Option.map_eq_some_iff]
  constructor
  · rintro ⟨node, found, scoreIs⟩
    exact ⟨node, List.mem_of_find?_eq_some found, by simpa using List.find?_some found, scoreIs⟩
  · rintro ⟨node, member, nameIs, scoreIs⟩
    cases found : nodes.find? fun node => (znode node).name == name with
    | none =>
        have none := List.find?_eq_none.mp found node member
        rw [nameIs, beq_self_eq_true] at none
        exact absurd rfl none
    | some other =>
        have otherName : (znode other).name = name := by simpa using List.find?_some found
        have same : other = node := eq_of_name_eq distinct (List.mem_of_find?_eq_some found) member
          (otherName.trans nameIs.symm)
        exact ⟨node, by rw [same], scoreIs⟩

def fourMembersRecord : Record where
  type := .zset
  members := fun name =>
    ([1, 2, 3, 4].find? fun node => (fourMembers.znode node).name == name).map
      fun node => (fourMembers.znode node).score

private theorem fourMembersDb_represents :
    ∃ dict, fourMembersDb.Represents [1] dict (fun _ => none) := by
  have returned : mapOf (fun _ => ascii "z") [1] = .ok fourMembersDb.db := rfl
  refine ⟨Function.update (fun _ => none) (ascii "z") (some fourMembersRecord),
    keyed_of_mapOf (List.nodup_singleton _) returned, fun _ _ => rfl, ?_, ?_,
    Timers.linked_empty, fun _ _ => rfl, fun _ _ => rfl⟩
  · intro ent _
    refine ⟨fourMembersRecord, Function.update_self .., rfl, rfl, fun _ => ?_⟩
    exact ⟨fourMembers, [1, 2, 3, 4], rfl, fourMembers_holds,
      scores_of_distinct fourMembers_holds.keyed.distinct⟩
  · intro key missing
    have apart : key ≠ ascii "z" := fun same => missing 1 List.mem_cons_self same.symm
    exact ⟨Function.update_of_ne apart .., rfl⟩

/-- From the first tuple not less than `(1, "")`, one place on, and two tuples for the limit
of three elements. -/
theorem doZquery_writes_slice_fourMembers :
    ∃ after reply,
      doZquery strtodOne fourMembersDb (ascii "z") (ascii "1") [] (ascii "1") (ascii "3") [] =
        .ok (after, reply) ∧
      Slice fourMembers [1, 2, 3, 4] 0 1 3 reply ∧
      reply = arrHeader 4 ++ Value.encodeAll [.str (ascii "ab"), .dbl Score.one.value,
        .str (ascii "b"), .dbl Score.one.value] := by
  obtain ⟨dict, represents⟩ := fourMembersDb_represents
  have returns : (dbLookup fourMembersDb (ascii "z")).toOption.isSome = true := by
    decide +kernel
  obtain ⟨⟨after, found⟩, lookedIs⟩ := Option.isSome_iff_exists.mp returns
  have looked := eq_ok_of_toOption lookedIs
  have scoreIs : str2double strtodOne (ascii "1") = some Score.one := by decide +kernel
  have offsetIs : str2int (ascii "1") = some 1 := by decide +kernel
  have limitIs : str2int (ascii "3") = some 3 := by decide +kernel
  have few : [1, 2, 3, 4].length < 2 ^ 31 := by decide
  obtain ⟨reply, written, slice⟩ := doZquery_writes_slice strtodOne represents
    List.mem_cons_self rfl rfl fourMembers_holds fourMembers_sorted few scoreIs [] offsetIs
    limitIs looked
  have rank : lowerRank fourMembers.znode [1, 2, 3, 4] Score.one [] = 0 := by decide +kernel
  rw [rank] at slice
  refine ⟨after, reply, written, slice, ?_⟩
  obtain ⟨first, m, firstIs, mIs, -, -, replyIs⟩ := slice.inside (by decide) (by decide)
    (by decide) (by decide)
  have one : first = 1 := by omega
  have two : m = 2 := by
    rw [one] at mIs
    change (m : Int) = min 2 3 at mIs
    omega
  rw [replyIs, one, two]
  rfl

end RedisC
