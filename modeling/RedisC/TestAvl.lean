/-
The test program of the tree.

It fills containers, compares them with multisets and walks through them.  None of
its assertions fails, whatever `rand` returns and whatever unused addresses the
allocator gives out.
-/

import RedisC.AvlContainer

namespace RedisC.TestAvl

open BalancedTree Fallible Allocator

/-! ### The program -/

/-- The values of `i` in `for (uint32_t i = 0; i < sz; ++i)`. -/
def upTo (sz : UInt32) : List UInt32 := (List.range sz.toNat).map UInt32.ofNat

/-- The loop that calls `add` for each value; `malloc` gives the address for each call. -/
def addAll (malloc : Nat → Finset Ptr → Ptr) :
    List UInt32 → Memory → Container → Result (Memory × Container)
  | [], memory, c => .ok (memory, c)
  | val :: rest, memory, c => do
      let (memory, c) ← add memory c (malloc memory.calls memory.live) val
      addAll malloc rest memory c

/-- `ref.erase(val)` removes all that are equal to `val`. -/
def eraseAll (ref : Multiset UInt32) (val : UInt32) : Multiset UInt32 := ref.filter (· ≠ val)

section Program

variable (malloc : Nat → Finset Ptr → Ptr)

/-- The part that `test_insert` and `test_insert_dup` share. -/
def insertOne (values : List UInt32) (memory : Memory) (val : UInt32) : Result Memory := do
  let (memory, c) ← addAll malloc values memory {}
  let memory ← containerVerify memory c values
  let (memory, c) ← add memory c (malloc memory.calls memory.live) val
  let memory ← containerVerify memory c (val ::ₘ values)
  let (memory, _) ← dispose memory c
  pure memory

def testInsert (sz : UInt32) (memory : Memory) : Result Memory :=
  (upTo sz).foldlM
    (fun memory val => insertOne malloc ((upTo sz).filter (· ≠ val)) memory val) memory

def testInsertDup (sz : UInt32) (memory : Memory) : Result Memory :=
  (upTo sz).foldlM (fun memory val => insertOne malloc (upTo sz) memory val) memory

def testRemove (sz : UInt32) (memory : Memory) : Result Memory :=
  (upTo sz).foldlM (fun memory val => do
    let (memory, c) ← addAll malloc (upTo sz) memory {}
    let memory ← containerVerify memory c (upTo sz)
    let ((memory, c), found) ← del memory c val
    check .removed (found = true)
    let memory ← containerVerify memory c (eraseAll (upTo sz) val)
    let (memory, _) ← dispose memory c
    pure memory) memory

/-- `assert(container_of(avl_offset(node, offset), Data, node)->val == val)` -/
def checkOffset (memory : Memory) (node : Ptr) (offset : Int64) (val : UInt32) : Result Ptr := do
  match ← avlCall (avlOffset64 memory.avl node offset) with
  | none => .error (.program (.avl .nullDeref))
  | some found =>
      check .offset (memory.val found = val)
      pure found

/-- `assert(!avl_offset(node, offset))` -/
def checkPastEnd (memory : Memory) (node : Ptr) (offset : Int64) : Result Unit := do
  let found ← avlCall (avlOffset64 memory.avl node offset)
  check .pastEnds (found = none)

/-- The body of the outer loop of `test_offset`. -/
def offsetsFrom (sz : UInt32) (memory : Memory) (min : Ptr) (i : UInt32) : Result Unit := do
  let node ← checkOffset memory min (widen i) i
  (upTo sz).foldlM (fun _ j => do
    let _ ← checkOffset memory node (widen j - widen i) j
    pure ()) ()
  checkPastEnd memory node (-widen i - 1)
  checkPastEnd memory node (widen (sz - i))

def testOffset (sz : UInt32) (memory : Memory) : Result Memory := do
  let (memory, c) ← addAll malloc (upTo sz) memory {}
  match c.root with
  | none => .error (.program (.avl .nullDeref))
  | some root =>
      let min ← avlCall (leftmost avlFuel memory.avl root)
      (upTo sz).foldlM (fun _ i => offsetsFrom sz memory min i) ()
      let (memory, _) ← dispose memory c
      pure memory

/-- The loops of `main` that insert. -/
def addEach : List UInt32 → Memory → Container → Multiset UInt32 →
    Result (Memory × Container × Multiset UInt32)
  | [], memory, c, ref => .ok (memory, c, ref)
  | val :: rest, memory, c, ref => do
      let (memory, c) ← add memory c (malloc memory.calls memory.live) val
      let ref := val ::ₘ ref
      let memory ← containerVerify memory c ref
      addEach rest memory c ref

/-- The assertion on what `del` returns, and `ref.erase(it)` where `ref.find(val)` finds. -/
def checkDel (ref : Multiset UInt32) (val : UInt32) (found : Bool) : Result (Multiset UInt32) :=
  if val ∈ ref then do
    check .removed (found = true)
    pure (ref.erase val)
  else do
    check .absent (found = false)
    pure ref

/-- The loop of `main` that deletes. -/
def delEach : List UInt32 → Memory → Container → Multiset UInt32 →
    Result (Memory × Container × Multiset UInt32)
  | [], memory, c, ref => .ok (memory, c, ref)
  | val :: rest, memory, c, ref => do
      let ((memory, c), found) ← del memory c val
      let ref ← checkDel ref val found
      let memory ← containerVerify memory c ref
      delEach rest memory c ref

/-- The quick testing at the beginning of `main`. -/
def quickTesting : Result (Memory × Container) := do
  let memory ← containerVerify {} {} 0
  let (memory, c) ← add memory {} (malloc memory.calls memory.live) 123
  let memory ← containerVerify memory c {123}
  let ((memory, c), found) ← del memory c 124
  check .absent (found = false)
  let ((memory, c), found) ← del memory c 123
  check .removed (found = true)
  let memory ← containerVerify memory c 0
  pure (memory, c)

/-- Insertions and deletions at every position of a tree of one size. -/
def testSize (memory : Memory) (i : Nat) : Result Memory := do
  let memory ← testInsert malloc (UInt32.ofNat i) memory
  let memory ← testInsertDup malloc (UInt32.ofNat i) memory
  testRemove malloc (UInt32.ofNat i) memory

/-- The first container of `main`: the quick testing, the sequential and random
insertions and the random deletions.  `rand k` is what the call number `k` of `rand`
returns. -/
def firstContainer (rand : Nat → UInt32) : Result (Memory × Container × Multiset UInt32) := do
  let (memory, c) ← quickTesting malloc
  let (memory, c, ref) ← addEach malloc
    ((List.range 334).map fun i => UInt32.ofNat (3 * i)) memory c 0
  let (memory, c, ref) ← addEach malloc ((List.range 100).map fun i => rand i % 1000) memory c ref
  delEach ((List.range 200).map fun i => rand (100 + i) % 1000) memory c ref

/-- The call of `dispose` on the first container is commented out. -/
def main (rand : Nat → UInt32) : Result Memory := do
  let (memory, _) ← firstContainer malloc rand
  let memory ← (List.range 200).foldlM (testSize malloc) memory
  (List.range' 1 499).foldlM (fun memory i => testOffset malloc (UInt32.ofNat i) memory) memory

end Program

/-! ### No assertion of the program fails -/

private theorem length_upTo (sz : UInt32) : (upTo sz).length = sz.toNat := by
  rw [upTo, List.length_map, List.length_range]

section

variable {malloc : Nat → Finset Ptr → Ptr}
  (fresh : ∀ (call : Nat) (live : Finset Ptr), live.card < 2 ^ 32 → malloc call live ∉ live)
  {memory : Memory} {c : Container} {ref : Multiset UInt32} {others : Multiset Ptr}

include fresh

theorem add_fresh_spec (stands : Stands memory c ref others) (val : UInt32)
    (room : ref.card + others.card < 2 ^ 32) :
    Meets (fun _ => False)
      (fun result : Memory × Container => Stands result.1 result.2 (val ::ₘ ref) others)
      (add memory c (malloc memory.calls memory.live) val) := by
  apply add_spec stands
  apply fresh
  rw [stands.card_live]
  exact room

theorem addAll_spec (values : List UInt32) (stands : Stands memory c ref others)
    (room : values.length + ref.card + others.card ≤ 2 ^ 32) :
    Meets (fun _ => False)
      (fun result : Memory × Container => Stands result.1 result.2 (values + ref) others)
      (addAll malloc values memory c) := by
  induction values generalizing memory c ref with
  | nil =>
      rw [addAll, Multiset.coe_nil, zero_add]
      exact stands
  | cons val rest ih =>
      rw [List.length_cons] at room
      rw [addAll]
      refine (add_fresh_spec fresh stands val (by omega)).bind ?_
      rintro ⟨memoryNew, cNew⟩ standsNew
      refine (ih standsNew (by rw [Multiset.card_cons]; omega)).mono ?_
      intro result standsLast
      rw [← Multiset.cons_coe, Multiset.cons_add, ← Multiset.add_cons]
      exact standsLast

theorem fill_spec (values : List UInt32) (room : values.length + memory.live.card ≤ 2 ^ 32) :
    Meets (fun _ => False)
      (fun result : Memory × Container => Stands result.1 result.2 values memory.live.val)
      (addAll malloc values memory {}) := by
  refine (addAll_spec fresh values (stands_empty memory) ?_).mono ?_
  · rw [Multiset.card_zero, ← Finset.card_def]
    exact room
  · intro result stands
    rw [add_zero] at stands
    exact stands

theorem insertOne_spec (values : List UInt32) (val : UInt32)
    (room : values.length + 1 + memory.live.card < 2 ^ 32) :
    Meets (fun _ => False) (fun after => after.live = memory.live)
      (insertOne malloc values memory val) := by
  unfold insertOne
  refine (fill_spec fresh values (by omega)).bind ?_
  rintro ⟨filled, c⟩ stands
  have size : (values : Multiset UInt32).card = values.length := Multiset.coe_card values
  dsimp only at stands ⊢
  rw [containerVerify_eq stands (by omega), ok_bind]
  refine (add_fresh_spec fresh stands val (by rw [← Finset.card_def]; omega)).bind ?_
  rintro ⟨grown, c⟩ standsNew
  dsimp only at standsNew ⊢
  rw [containerVerify_eq standsNew (by rw [Multiset.card_cons]; omega), ok_bind]
  refine (dispose_spec standsNew).bind ?_
  rintro ⟨after, empty⟩ ⟨-, liveIs⟩
  exact Finset.val_injective liveIs

theorem testInsert_spec (sz : UInt32) (room : sz.toNat + 1 + memory.live.card < 2 ^ 32) :
    Meets (fun _ => False) (fun after => after.live = memory.live)
      (testInsert malloc sz memory) := by
  unfold testInsert
  apply Meets.foldlM
  · rfl
  intro state val _ same
  rw [← same]
  apply insertOne_spec fresh
  have shorter := List.length_filter_le (· ≠ val) (upTo sz)
  rw [length_upTo] at shorter
  rw [same]
  omega

theorem testInsertDup_spec (sz : UInt32) (room : sz.toNat + 1 + memory.live.card < 2 ^ 32) :
    Meets (fun _ => False) (fun after => after.live = memory.live)
      (testInsertDup malloc sz memory) := by
  unfold testInsertDup
  apply Meets.foldlM
  · rfl
  intro state val _ same
  rw [← same]
  apply insertOne_spec fresh
  rw [length_upTo, same]
  exact room

omit fresh in
private theorem upTo_ordered (sz : UInt32) : (upTo sz).Pairwise (· < ·) := by
  rw [upTo, List.pairwise_map]
  refine List.pairwise_lt_range.imp_of_mem ?_
  intro lower upper lowerMember upperMember less
  have bound := sz.toNat_lt
  have lowerLess := List.mem_range.mp lowerMember
  have upperLess := List.mem_range.mp upperMember
  rw [UInt32.lt_iff_toNat_lt, UInt32.toNat_ofNat_of_lt' (Nat.lt_trans lowerLess bound),
    UInt32.toNat_ofNat_of_lt' (Nat.lt_trans upperLess bound)]
  exact less

omit fresh in
private theorem upTo_nodup (sz : UInt32) : (upTo sz).Nodup :=
  (upTo_ordered sz).imp fun less => UInt32.ne_of_lt less

theorem testRemove_spec (sz : UInt32) (room : sz.toNat + memory.live.card < 2 ^ 32) :
    Meets (fun _ => False) (fun after => after.live = memory.live)
      (testRemove malloc sz memory) := by
  have small := sz.toNat_lt
  have size : (upTo sz : Multiset UInt32).card = sz.toNat := by
    rw [Multiset.coe_card, length_upTo]
  unfold testRemove
  apply Meets.foldlM
  · rfl
  intro state val member same
  rw [← same] at room ⊢
  refine (fill_spec fresh (upTo sz) (by rw [length_upTo]; omega)).bind ?_
  rintro ⟨filled, c⟩ stands
  dsimp only at stands ⊢
  rw [containerVerify_eq stands (by omega), ok_bind]
  refine (del_spec stands val).bind ?_
  rintro ⟨⟨shrunk, c⟩, found⟩ ⟨foundIs, standsNew⟩
  have removed : eraseAll (upTo sz) val = (upTo sz : Multiset UInt32).erase val :=
    (Multiset.Nodup.erase_eq_filter val (Multiset.coe_nodup.mpr (upTo_nodup sz))).symm
  have fewer := Multiset.card_le_card (Multiset.erase_le val (upTo sz : Multiset UInt32))
  dsimp only at foundIs standsNew ⊢
  rw [check_of .removed (foundIs.trans (decide_eq_true (Multiset.mem_coe.mpr member))), ok_bind,
    removed, containerVerify_eq standsNew (by omega), ok_bind]
  refine (dispose_spec standsNew).bind ?_
  rintro ⟨after, empty⟩ ⟨-, liveIs⟩
  exact Finset.val_injective liveIs

end

/-! ### Offsets -/

section

variable {memory : Memory} {c : Container} {nodes : List Ptr} {others : Multiset Ptr}
  {sz : UInt32} {node : Ptr} {start : Nat}

theorem Holds.map_val_eq (holds : Holds memory c nodes others)
    (same : (nodes.map memory.val : Multiset UInt32) = upTo sz) :
    nodes.map memory.val = upTo sz := by
  have sorted : (nodes.map memory.val).Pairwise (· ≤ ·) := List.pairwise_map.mpr holds.sorted
  have ordered : (upTo sz).Pairwise (· ≤ ·) := (upTo_ordered sz).imp UInt32.le_of_lt
  exact (Multiset.coe_eq_coe.mp same).eq_of_pairwise
    (fun _ _ _ _ low high => UInt32.le_antisymm low high) sorted ordered

private theorem length_of_map_val (numbers : nodes.map memory.val = upTo sz) :
    nodes.length = sz.toNat := by
  rw [← length_upTo, ← numbers, List.length_map]

private theorem val_of_map_val (numbers : nodes.map memory.val = upTo sz) {i : UInt32} {found : Ptr}
    (foundIs : nodes[i.toNat]? = some found) : memory.val found = i := by
  have inside : i.toNat < sz.toNat := by
    rw [← length_of_map_val numbers]
    exact (List.getElem?_eq_some_iff.mp foundIs).1
  have listed := congrArg (·[i.toNat]?) numbers
  simp only [List.getElem?_map, foundIs, upTo, Option.map_some,
    List.getElem?_range inside, Option.some.injEq] at listed
  rw [listed]
  exact UInt32.ofNat_toNat

theorem Holds.avlOffset64_eq (holds : Holds memory c nodes others)
    (numbers : nodes.map memory.val = upTo sz) (here : nodes[start]? = some node)
    (offset : Int64) :
    avlCall (avlOffset64 memory.avl node offset) =
      .ok (nodeAtRank nodes (start + offset.toInt)) := by
  obtain ⟨tree, -, linked, -, nodesAre⟩ := holds.tree
  have distinct := holds.distinct
  have few : tree.numNodes < 2 ^ 32 := by
    rw [← length_inorder, nodesAre, length_of_map_val numbers]
    exact sz.toNat_lt
  rw [← nodesAre] at distinct here ⊢
  rw [RedisC.avlOffset64_eq linked.counted distinct few (List.mem_of_getElem? here) offset,
    avlOffset_spec linked.counted distinct few here]
  rfl

theorem Holds.checkOffset_eq (holds : Holds memory c nodes others)
    (numbers : nodes.map memory.val = upTo sz) (here : nodes[start]? = some node)
    (offset : Int64) {j : UInt32} (inside : j.toNat < sz.toNat)
    (offsetIs : start + offset.toInt = j.toNat) :
    ∃ found, checkOffset memory node offset j = .ok found ∧ nodes[j.toNat]? = some found := by
  have short : j.toNat < nodes.length := by
    rw [length_of_map_val numbers]
    exact inside
  obtain ⟨found, foundIs⟩ : ∃ found, nodes[j.toNat]? = some found :=
    ⟨_, List.getElem?_eq_getElem short⟩
  have ranked : nodeAtRank nodes (start + offset.toInt) = some found := by
    rw [offsetIs, nodeAtRank, if_pos (Int.natCast_nonneg _), Int.toNat_natCast, foundIs]
  refine ⟨found, ?_, foundIs⟩
  rw [checkOffset, holds.avlOffset64_eq numbers here, ranked, ok_bind]
  dsimp only
  rw [check_of .offset (val_of_map_val numbers foundIs)]
  rfl

theorem Holds.checkPastEnd_eq (holds : Holds memory c nodes others)
    (numbers : nodes.map memory.val = upTo sz) (here : nodes[start]? = some node)
    (offset : Int64)
    (outside : start + offset.toInt < 0 ∨ (nodes.length : Int) ≤ start + offset.toInt) :
    checkPastEnd memory node offset = .ok () := by
  rw [checkPastEnd, holds.avlOffset64_eq numbers here, nodeAtRank_outside outside, ok_bind]
  exact check_of .pastEnds rfl

private theorem mem_upTo {i : UInt32} (member : i ∈ upTo sz) : i.toNat < sz.toNat := by
  obtain ⟨value, inside, rfl⟩ := List.mem_map.mp member
  have less := List.mem_range.mp inside
  rw [UInt32.toNat_ofNat_of_lt' (Nat.lt_trans less sz.toNat_lt)]
  exact less

private theorem toInt_neg_widen_sub_one (i : UInt32) : (-widen i - 1).toInt = -i.toNat - 1 := by
  have small := i.toNat_lt
  have negated : (-widen i).toInt = -i.toNat := Int64.toInt_neg_ofNat_of_le (by omega)
  rw [Int64.toInt_sub, negated]
  exact Int.bmod_eq_of_le (by rw [Int64.toInt_one]; omega) (by rw [Int64.toInt_one]; omega)

theorem Holds.offsetsFrom_eq (holds : Holds memory c nodes others)
    (numbers : nodes.map memory.val = upTo sz) {first : Ptr} (firstIs : nodes[0]? = some first)
    {i : UInt32} (inside : i.toNat < sz.toNat) :
    offsetsFrom sz memory first i = .ok () := by
  have small := i.toNat_lt
  have length := length_of_map_val numbers
  obtain ⟨node, nodeIs, here⟩ := holds.checkOffset_eq numbers firstIs (widen i) inside
    (by rw [toInt_widen, Nat.cast_zero, zero_add])
  have inner : Meets (fun _ => False) (fun _ : Unit => True)
      ((upTo sz).foldlM (fun _ j => do
        let _ ← checkOffset memory node (widen j - widen i) j
        pure ()) ()) := by
    apply Meets.foldlM
    · trivial
    intro _ j member _
    have wide := toInt_widen j
    have bound := j.toNat_lt
    obtain ⟨found, foundIs, -⟩ := holds.checkOffset_eq numbers here (widen j - widen i)
      (mem_upTo member) (by rw [toInt_sub_widen (by omega) (by omega), wide]; omega)
    rw [foundIs]
    trivial
  obtain ⟨_, looped, -⟩ := inner.returns
  have below : checkPastEnd memory node (-widen i - 1) = .ok () :=
    holds.checkPastEnd_eq numbers here _ (.inl (by rw [toInt_neg_widen_sub_one]; omega))
  have beyond : checkPastEnd memory node (widen (sz - i)) = .ok () := by
    apply holds.checkPastEnd_eq numbers here
    right
    rw [toInt_widen, UInt32.toNat_sub_of_le _ _ (UInt32.le_iff_toNat_le.mpr (Nat.le_of_lt inside))]
    omega
  rw [offsetsFrom, nodeIs, ok_bind, looped, ok_bind, below, ok_bind, beyond]

theorem Holds.leftmost_eq (holds : Holds memory c nodes others) {root : Ptr}
    (rootIs : c.root = some root) :
    ∃ first, leftmost avlFuel memory.avl root = .ok first ∧ nodes[0]? = some first := by
  obtain ⟨tree, treeRoot, linked, balanced, nodesAre⟩ := holds.tree
  have distinct := holds.distinct
  rw [← nodesAre] at distinct
  have low := height_lt_of_balanced balanced distinct
  obtain ⟨context, first, right, treeIs, nothing, -, found⟩ :=
    leftmost_spec linked (treeRoot.trans rootIs) (show _ ≤ avlFuel by unfold avlFuel; omega)
  refine ⟨first, found, ?_⟩
  rw [← nodesAre, treeIs, inorder_plug, nothing]
  rfl

end

section

variable {malloc : Nat → Finset Ptr → Ptr}
  (fresh : ∀ (call : Nat) (live : Finset Ptr), live.card < 2 ^ 32 → malloc call live ∉ live)
  {memory : Memory} {c : Container} {ref : Multiset UInt32} {others : Multiset Ptr}

include fresh

theorem testOffset_spec (sz : UInt32) (positive : 0 < sz.toNat)
    (room : sz.toNat + memory.live.card < 2 ^ 32) :
    Meets (fun _ => False) (fun after => after.live = memory.live)
      (testOffset malloc sz memory) := by
  unfold testOffset
  refine (fill_spec fresh (upTo sz) (by rw [length_upTo]; omega)).bind ?_
  rintro ⟨filled, c⟩ stands
  obtain ⟨nodes, holds, same⟩ := id stands
  have numbers := holds.map_val_eq same
  dsimp only at stands holds numbers ⊢
  cases rootIs : c.root with
  | none =>
      have stored := holds.tree
      rw [rootIs] at stored
      have empty := length_of_map_val numbers
      rw [stored.eq_nil, List.length_nil] at empty
      omega
  | some root =>
      obtain ⟨first, found, firstIs⟩ := holds.leftmost_eq rootIs
      have looped : Meets (fun _ => False) (fun _ : Unit => True)
          ((upTo sz).foldlM (fun _ i => offsetsFrom sz filled first i) ()) := by
        apply Meets.foldlM
        · trivial
        intro _ i member _
        rw [holds.offsetsFrom_eq numbers firstIs (mem_upTo member)]
        trivial
      dsimp only
      rw [found]
      refine looped.bind ?_
      intro _ _
      refine (dispose_spec stands).bind ?_
      rintro ⟨after, empty⟩ ⟨-, liveIs⟩
      exact Finset.val_injective liveIs

theorem addEach_spec (values : List UInt32) (stands : Stands memory c ref others)
    (room : values.length + ref.card + others.card < 2 ^ 32) :
    Meets (fun _ => False)
      (fun result : Memory × Container × Multiset UInt32 =>
        Stands result.1 result.2.1 result.2.2 others ∧
          result.2.2.card = values.length + ref.card)
      (addEach malloc values memory c ref) := by
  induction values generalizing memory c ref with
  | nil => exact ⟨stands, (Nat.zero_add _).symm⟩
  | cons val rest ih =>
      rw [List.length_cons] at room ⊢
      have size := Multiset.card_cons val ref
      rw [addEach]
      refine (add_fresh_spec fresh stands val (by omega)).bind ?_
      rintro ⟨memoryNew, cNew⟩ standsNew
      dsimp only at standsNew ⊢
      rw [containerVerify_eq standsNew (by omega), ok_bind]
      refine (ih standsNew (by omega)).mono ?_
      rintro result ⟨standsLast, sizeLast⟩
      exact ⟨standsLast, by omega⟩

omit fresh in
private theorem checkDel_eq {val : UInt32} {found : Bool} (foundIs : found = decide (val ∈ ref)) :
    checkDel ref val found = .ok (ref.erase val) := by
  unfold checkDel
  by_cases member : val ∈ ref
  · rw [if_pos member, check_of .removed (foundIs.trans (decide_eq_true member))]
    rfl
  · rw [if_neg member, check_of .absent (foundIs.trans (decide_eq_false member)),
      Multiset.erase_of_notMem member]
    rfl

omit fresh in
theorem delEach_spec (values : List UInt32) (stands : Stands memory c ref others)
    (few : ref.card < 2 ^ 32) :
    Meets (fun _ => False)
      (fun result : Memory × Container × Multiset UInt32 =>
        Stands result.1 result.2.1 result.2.2 others ∧ result.2.2.card ≤ ref.card)
      (delEach values memory c ref) := by
  induction values generalizing memory c ref with
  | nil => exact ⟨stands, Nat.le_refl _⟩
  | cons val rest ih =>
      have fewer := Multiset.card_le_card (Multiset.erase_le val ref)
      rw [delEach]
      refine (del_spec stands val).bind ?_
      rintro ⟨⟨memoryNew, cNew⟩, found⟩ ⟨foundIs, standsNew⟩
      dsimp only at foundIs standsNew ⊢
      rw [checkDel_eq foundIs, ok_bind, containerVerify_eq standsNew (by omega), ok_bind]
      refine (ih standsNew (by omega)).mono ?_
      rintro result ⟨standsLast, sizeLast⟩
      exact ⟨standsLast, by omega⟩

theorem testSize_spec (i : Nat) (room : i + 1 + memory.live.card < 2 ^ 32) :
    Meets (fun _ => False) (fun after => after.live = memory.live)
      (testSize malloc memory i) := by
  have size : (UInt32.ofNat i).toNat = i := UInt32.toNat_ofNat_of_lt' (show i < 2 ^ 32 by omega)
  unfold testSize
  refine (testInsert_spec fresh _ (by omega)).bind ?_
  intro first firstSame
  rw [← firstSame] at room ⊢
  refine (testInsertDup_spec fresh _ (by omega)).bind ?_
  intro second secondSame
  rw [← secondSame] at room ⊢
  exact testRemove_spec fresh _ (by omega)

theorem quickTesting_spec :
    Meets (fun _ => False)
      (fun result : Memory × Container => Stands result.1 result.2 0 0) (quickTesting malloc) := by
  have start : Stands {} {} 0 0 := stands_empty {}
  have absent : (124 : UInt32) ∉ (123 ::ₘ 0 : Multiset UInt32) := by decide
  unfold quickTesting
  rw [containerVerify_eq start (by decide), ok_bind]
  refine (add_fresh_spec fresh start 123 (by decide)).bind ?_
  rintro ⟨memory, c⟩ one
  dsimp only at one ⊢
  have single : ({123} : Multiset UInt32) = 123 ::ₘ 0 := rfl
  rw [single, containerVerify_eq one (by decide), ok_bind]
  refine (del_spec one 124).bind ?_
  rintro ⟨⟨memory, c⟩, found⟩ ⟨foundIs, still⟩
  dsimp only at foundIs still ⊢
  rw [check_of .absent (foundIs.trans (decide_eq_false absent)), ok_bind]
  rw [Multiset.erase_of_notMem absent] at still
  refine (del_spec still 123).bind ?_
  rintro ⟨⟨memory, c⟩, found⟩ ⟨foundIs, none⟩
  dsimp only at foundIs none ⊢
  rw [check_of .removed (foundIs.trans (by decide)), ok_bind]
  rw [Multiset.erase_cons_head] at none
  rw [containerVerify_eq none (by decide)]
  exact none

def GivesBack (memory : Memory) (test : Result Memory) : Prop :=
  ∃ after, test = .ok after ∧ after.live = memory.live

theorem firstContainer_spec (rand : Nat → UInt32) :
    Meets (fun _ => False)
      (fun result : Memory × Container × Multiset UInt32 =>
        Stands result.1 result.2.1 result.2.2 0 ∧ result.2.2.card ≤ 434)
      (firstContainer malloc rand) := by
  have noBlocks : (0 : Multiset Ptr).card = 0 := rfl
  have noNumbers : (0 : Multiset UInt32).card = 0 := rfl
  unfold firstContainer
  refine (quickTesting_spec fresh).bind ?_
  rintro ⟨memory, c⟩ stands
  refine (addEach_spec fresh _ stands
    (by rw [List.length_map, List.length_range]; omega)).bind ?_
  rintro ⟨memory, c, ref⟩ ⟨stands, size⟩
  rw [List.length_map, List.length_range] at size
  dsimp only at stands size ⊢
  refine (addEach_spec fresh _ stands
    (by rw [List.length_map, List.length_range]; omega)).bind ?_
  rintro ⟨memory, c, ref⟩ ⟨stands, total⟩
  rw [List.length_map, List.length_range] at total
  dsimp only at stands total ⊢
  refine (delEach_spec _ stands (by omega)).mono ?_
  rintro ⟨memory, c, ref⟩ ⟨stands, fewer⟩
  exact ⟨stands, by omega⟩

theorem main_rest_spec (few : memory.live.card ≤ 434) :
    Meets (fun _ => False) (fun after : Memory => after.live = memory.live)
      ((List.range 200).foldlM (testSize malloc) memory >>= fun memory =>
        (List.range' 1 499).foldlM (fun memory i => testOffset malloc (UInt32.ofNat i) memory)
          memory) := by
  have sizes : Meets (fun _ => False) (fun after : Memory => after.live = memory.live)
      ((List.range 200).foldlM (testSize malloc) memory) := by
    apply Meets.foldlM
    · rfl
    intro state i member same
    have small := List.mem_range.mp member
    rw [← same] at few ⊢
    exact testSize_spec fresh i (by omega)
  refine sizes.bind ?_
  intro tested same
  apply Meets.foldlM
  · exact same
  intro state i member kept
  obtain ⟨low, high⟩ := List.mem_range'_1.mp member
  have sz : (UInt32.ofNat i).toNat = i := UInt32.toNat_ofNat_of_lt' (show i < 2 ^ 32 by omega)
  rw [← kept] at few ⊢
  exact testOffset_spec fresh _ (by omega) (by omega)

/-- Whatever unused addresses the allocator gives out call after call, the tests pass at
every size and give back what they have taken, and the program ends whatever `rand`
returns, with the nodes of its first container left over. -/
theorem main_passes :
    (∀ (memory : Memory) (sz : UInt32), sz.toNat + 1 + memory.live.card < 2 ^ 32 →
      GivesBack memory (testInsert malloc sz memory) ∧
      GivesBack memory (testInsertDup malloc sz memory) ∧
      GivesBack memory (testRemove malloc sz memory) ∧
      (0 < sz.toNat → GivesBack memory (testOffset malloc sz memory))) ∧
    ∀ rand, ∃ first c ref memory, firstContainer malloc rand = .ok (first, c, ref) ∧
      Stands first c ref 0 ∧ ref.card ≤ 434 ∧
      main malloc rand = .ok memory ∧ memory.live = first.live := by
  constructor
  · intro memory sz room
    refine ⟨(testInsert_spec fresh sz room).returns, (testInsertDup_spec fresh sz room).returns,
      (testRemove_spec fresh sz (by omega)).returns, fun positive => ?_⟩
    exact (testOffset_spec fresh sz positive (by omega)).returns
  · intro rand
    obtain ⟨⟨first, c, ref⟩, returned, stands, few⟩ := (firstContainer_spec fresh rand).returns
    dsimp only at stands few
    have noBlocks : (0 : Multiset Ptr).card = 0 := rfl
    have live : first.live.card ≤ 434 := by
      rw [stands.card_live]
      omega
    obtain ⟨memory, rest, same⟩ := (main_rest_spec fresh live).returns
    refine ⟨first, c, ref, memory, returned, stands, few, ?_, same⟩
    unfold main
    rw [returned, ok_bind]
    exact rest

end

def candidates (call : Nat) (live : Finset Ptr) : List Ptr :=
  (List.range (live.card + 1)).map fun i => UInt64.ofNat (call + i)

def nextUnused (call : Nat) (live : Finset Ptr) : Ptr :=
  ((candidates call live).find? (· ∉ live)).getD 0

private theorem candidates_nodup (call : Nat) {live : Finset Ptr} (few : live.card < 2 ^ 32) :
    (candidates call live).Nodup := by
  refine List.nodup_range.map_on fun lower lowerMember upper upperMember same => ?_
  have lowerLess := List.mem_range.mp lowerMember
  have upperLess := List.mem_range.mp upperMember
  have values := congrArg UInt64.toNat same
  rw [UInt64.toNat_ofNat', UInt64.toNat_ofNat'] at values
  omega

private theorem nextUnused_fresh (call : Nat) (live : Finset Ptr) (few : live.card < 2 ^ 32) :
    nextUnused call live ∉ live := by
  unfold nextUnused
  cases found : (candidates call live).find? (· ∉ live) with
  | some address =>
      have unused := List.find?_some found
      exact of_decide_eq_true unused
  | none =>
      -- One address more than there are in use, so they cannot all be.
      have inside : (candidates call live).toFinset ⊆ live := by
        intro address member
        have used := List.find?_eq_none.mp found address (List.mem_toFinset.mp member)
        exact of_not_not fun contrary => used (decide_eq_true contrary)
      have many := Finset.card_le_card inside
      rw [List.toFinset_card_of_nodup (candidates_nodup call few), candidates, List.length_map,
        List.length_range] at many
      omega

theorem main_passes_nextUnused :
    GivesBack {} (testOffset nextUnused 7 {}) ∧
      ∃ first c ref memory,
        firstContainer nextUnused (fun k => UInt32.ofNat (k * k)) = .ok (first, c, ref) ∧
        Stands first c ref 0 ∧ ref.card ≤ 434 ∧
        main nextUnused (fun k => UInt32.ofNat (k * k)) = .ok memory ∧
        memory.live = first.live := by
  obtain ⟨tests, program⟩ := main_passes nextUnused_fresh
  obtain ⟨-, -, -, offsets⟩ := tests {} 7 (by decide)
  exact ⟨offsets (by decide), program _⟩

end RedisC.TestAvl
