/-
The two indexes of a sorted set stay in step.

`zset.Holds nodes` says that `nodes` are the nodes of the tree, in order, and
also the nodes of the hash map, with distinct names.  Every operation keeps it
and can fail only where a call of the hash map does not return.  The order of
the nodes is a property of its own, since it is lost to names of `2 ^ 32` bytes
while the rest is not.
-/

import RedisC.KeyedMap
import RedisC.ZsetTree

namespace RedisC

open BalancedTree Fallible

variable {zset : ZSet} {nodes : List Ptr}

structure ZSet.Holds (zset : ZSet) (nodes : List Ptr) : Prop where
  keyed : Keyed (fun node => (zset.znode node).name) strHash zset.hmap nodes
  tree : AvlTree zset.avl zset.tree nodes

/-- Strictly increasing in the score, then the bytes of the name, then the length. -/
def Ordered (znode : Ptr → ZNode) (nodes : List Ptr) : Prop :=
  nodes.Pairwise fun lower upper => (znode lower).key < (znode upper).key

def ShortNames (znode : Ptr → ZNode) (nodes : List Ptr) : Prop :=
  ∀ node ∈ nodes, (znode node).name.length < 2 ^ 32

/-- The tuples of the set, as a partial function from names to scores. -/
def Scores (znode : Ptr → ZNode) (nodes : List Ptr) (members : Bytes → Option Score) : Prop :=
  ∀ name score, members name = some score ↔
    ∃ node ∈ nodes, (znode node).name = name ∧ (znode node).score = score

structure ZSet.Represents (zset : ZSet) (nodes : List Ptr) (members : Bytes → Option Score) :
    Prop where
  holds : zset.Holds nodes
  scores : Scores zset.znode nodes members

structure ZSet.Sorted (zset : ZSet) (nodes : List Ptr) : Prop where
  short : ShortNames zset.znode nodes
  ordered : Ordered zset.znode nodes

theorem ZSet.Holds.empty : ({} : ZSet).Holds [] :=
  ⟨Keyed.empty _ _, .nil, rfl, trivial, trivial, rfl⟩

private theorem memcmp_eq_zero_iff {lhs rhs : Bytes} (lengths : lhs.length = rhs.length) :
    memcmp lhs rhs rhs.length = 0 ↔ lhs = rhs := by
  induction lhs generalizing rhs with
  | nil =>
      cases rhs with
      | nil => simp [memcmp]
      | cons r rhs => cases lengths
  | cons l lhs ih =>
      cases rhs with
      | nil => cases lengths
      | cons r rhs =>
          simp only [List.length_cons, Nat.add_right_cancel_iff] at lengths
          rw [List.length_cons, memcmp, List.cons.injEq]
          by_cases same : l = r
          · rw [if_pos same, ih lengths]
            exact ⟨fun rest => ⟨same, rest⟩, And.right⟩
          · have apart : l.toNat ≠ r.toNat := fun equal => same (UInt8.toNat_inj.mp equal)
            rw [if_neg same]
            refine ⟨fun zero => ?_, fun both => absurd both.1 same⟩
            omega

private theorem hcmp_iff {name : Bytes} {node : HNode Ptr} :
    hcmp zset name node = true ↔
      node.hcode = strHash name ∧ (zset.znode node.owner).name = name := by
  unfold hcmp
  by_cases hashed : node.hcode = strHash name
  · rw [if_neg (not_not.mpr hashed)]
    by_cases lengths : (zset.znode node.owner).name.length = name.length
    · rw [if_neg (not_not.mpr lengths), decide_eq_true_eq, eq_comm,
        memcmp_eq_zero_iff lengths]
      exact ⟨fun same => ⟨hashed, same⟩, And.right⟩
    · rw [if_pos lengths]
      refine ⟨fun compared => absurd compared (by decide), fun both => ?_⟩
      exact absurd (congrArg List.length both.2) lengths
  · rw [if_pos hashed]
    exact ⟨fun compared => absurd compared (by decide), fun both => absurd both.1 hashed⟩

theorem ZSet.Holds.decides (holds : zset.Holds nodes) (name : Bytes) :
    Decides zset.hmap (strHash name) (hcmp zset name)
      (fun node => (zset.znode node).name = name) := by
  constructor
  · intro node member
    rw [hcmp_iff]
    refine ⟨And.right, fun same => ⟨?_, same⟩⟩
    rw [holds.keyed.hashed node member, same]
  · intro node member same
    rw [holds.keyed.hashed node member, same]

/-- The search answers the node of the name and moves nodes of the map only. -/
theorem ZSet.Holds.zsetLookup_spec (holds : zset.Holds nodes) (name : Bytes) :
    Meets (· = .spin)
      (fun result : ZSet × Option Ptr =>
        (∃ hmap, result.1 = { zset with hmap := hmap }) ∧ result.1.Holds nodes ∧
          Sought nodes (fun node => (zset.znode node).name = name) result.2)
      (zsetLookup zset name) := by
  unfold zsetLookup
  split
  · rename_i empty
    have stored := holds.tree
    rw [empty] at stored
    cases stored.eq_nil
    exact ⟨⟨zset.hmap, rfl⟩, holds, fun _ member => absurd member List.not_mem_nil⟩
  · refine (holds.keyed.hmLookup_spec (holds.decides name) hmFuel).bind ?_
    intro result looked
    rcases result with ⟨hmap, found⟩
    rcases looked with ⟨keyed, sought⟩
    exact ⟨⟨hmap, rfl⟩, ⟨keyed, holds.tree⟩, sought⟩

/-! ### Insertion into the tree -/

theorem AvlTree.congr {mem memNew : AvlMem} {root : Option Ptr}
    (stored : AvlTree mem root nodes) (same : ∀ node ∈ nodes, memNew node = mem node) :
    AvlTree memNew root nodes := by
  obtain ⟨tree, rootIs, linked, balanced, rfl⟩ := stored
  exact ⟨tree, rootIs, linked.congr same, balanced, rfl⟩

/-- The cut found by the comparisons is the place of the node in the order. -/
theorem TreeAdded.ordered {node : Ptr} {front back : List Ptr} {after : ZSet}
    (added : TreeAdded zset node nodes front back after) (ordered : Ordered zset.znode nodes)
    (short : (zset.znode node).name.length < 2 ^ 32)
    (apart : ∀ other ∈ nodes, (zset.znode other).name ≠ (zset.znode node).name) :
    Ordered zset.znode (front ++ node :: back) := by
  have less : ∀ other, zless (zset.znode node) (zset.znode other) = true ↔
      (zset.znode node).key < (zset.znode other).key := fun other => zless_iff short
  obtain ⟨frontLow, backHigh⟩ := added.cut (ordered.imp fun {lower upper} below goesLeft => by
    rw [less] at goesLeft ⊢
    exact lt_trans goesLeft below)
  have split := added.split
  subst split
  rw [Ordered, List.pairwise_append] at ordered
  obtain ⟨frontOrdered, backOrdered, across⟩ := ordered
  have frontBelow : ∀ other ∈ front, (zset.znode other).key < (zset.znode node).key := by
    intro other member
    have notLess : ¬(zset.znode node).key < (zset.znode other).key := by
      rw [← less, frontLow other member]
      decide
    refine lt_of_le_of_ne (not_lt.mp notLess) (key_ne_of_name_ne ?_)
    exact apart other (List.mem_append_left _ member)
  have backAbove : ∀ other ∈ back, (zset.znode node).key < (zset.znode other).key :=
    fun other member => (less other).mp (backHigh other member)
  rw [Ordered, List.pairwise_append, List.pairwise_cons]
  refine ⟨frontOrdered, ⟨backAbove, backOrdered⟩, ?_⟩
  intro lower inFront upper inBack
  rcases List.mem_cons.mp inBack with rfl | inside
  · exact frontBelow lower inFront
  · exact across lower inFront upper inside

/-! ### The tuples -/

section Tuples

variable {znode : Ptr → ZNode} {members : Bytes → Option Score}

theorem Scores.perm {others : List Ptr} (scores : Scores znode nodes members)
    (perm : nodes.Perm others) : Scores znode others members := by
  intro name score
  rw [scores name score]
  constructor
  · intro listed
    rcases listed with ⟨node, member, same⟩
    exact ⟨node, perm.mem_iff.mp member, same⟩
  · intro listed
    rcases listed with ⟨node, member, same⟩
    exact ⟨node, perm.mem_iff.mpr member, same⟩

theorem Scores.sought (scores : Scores znode nodes members) {name : Bytes}
    {found : Option Ptr} (sought : Sought nodes (fun node => (znode node).name = name) found) :
    members name = found.map fun node => (znode node).score := by
  cases found with
  | some node => exact (scores name _).mpr ⟨node, sought.1, sought.2, rfl⟩
  | none =>
      cases absent : members name with
      | none => rfl
      | some score =>
          obtain ⟨node, member, same, _⟩ := (scores name score).mp absent
          exact absurd same (sought node member)

theorem Scores.insert (scores : Scores znode nodes members) {fresh : Ptr} {name : Bytes}
    (score : Score) (away : fresh ∉ nodes) (absent : ∀ node ∈ nodes, (znode node).name ≠ name) :
    Scores (Function.update znode fresh { score := score, name := name }) (fresh :: nodes)
      (Function.update members name (some score)) := by
  have kept : ∀ node ∈ nodes, node ≠ fresh := by
    intro node member same
    subst same
    exact away member
  intro other given
  by_cases same : other = name
  · subst same
    rw [Function.update_self, Option.some.injEq]
    constructor
    · intro same
      subst same
      exact ⟨fresh, List.mem_cons_self, by simp⟩
    · intro listed
      rcases listed with ⟨node, member, nameIs, scoreIs⟩
      rcases List.mem_cons.mp member with rfl | old
      · rw [Function.update_self] at scoreIs
        exact scoreIs
      · rw [Function.update_of_ne (kept node old)] at nameIs
        exact absurd nameIs (absent node old)
  · rw [Function.update_of_ne same, scores other given]
    constructor
    · intro listed
      rcases listed with ⟨node, member, both⟩
      refine ⟨node, List.mem_cons_of_mem _ member, ?_⟩
      rw [Function.update_of_ne (kept node member)]
      exact both
    · intro listed
      rcases listed with ⟨node, member, nameIs, scoreIs⟩
      rcases List.mem_cons.mp member with rfl | old
      · rw [Function.update_self] at nameIs
        exact absurd nameIs.symm same
      · rw [Function.update_of_ne (kept node old)] at nameIs scoreIs
        exact ⟨node, old, nameIs, scoreIs⟩

theorem eq_of_name_eq (distinct : (nodes.map fun node => (znode node).name).Nodup)
    {node other : Ptr} (member : node ∈ nodes) (otherMember : other ∈ nodes)
    (same : (znode node).name = (znode other).name) : node = other :=
  List.inj_on_of_nodup_map distinct member otherMember same

private theorem rescored_name (znode : Ptr → ZNode) (node : Ptr) (score : Score) (address : Ptr) :
    (Function.update znode node { znode node with score := score } address).name =
      (znode address).name := by
  by_cases same : address = node
  · rw [same, Function.update_self]
  · rw [Function.update_of_ne same]

theorem Scores.rescore (scores : Scores znode nodes members) {node : Ptr}
    (member : node ∈ nodes) (distinct : (nodes.map fun node => (znode node).name).Nodup)
    (score : Score) :
    Scores (Function.update znode node { znode node with score := score }) nodes
      (Function.update members (znode node).name (some score)) := by
  have nameKept := rescored_name znode node score
  intro other given
  simp only [nameKept]
  by_cases same : other = (znode node).name
  · subst same
    rw [Function.update_self, Option.some.injEq]
    constructor
    · intro same
      subst same
      exact ⟨node, member, rfl, by rw [Function.update_self]⟩
    · intro listed
      rcases listed with ⟨found, foundMember, nameIs, scoreIs⟩
      cases eq_of_name_eq distinct foundMember member nameIs
      rw [Function.update_self] at scoreIs
      exact scoreIs
  · rw [Function.update_of_ne same, scores other given]
    have apart : ∀ found, (znode found).name = other → found ≠ node := by
      intro found nameIs same
      subst same
      exact same nameIs.symm
    constructor
    · intro listed
      rcases listed with ⟨found, foundMember, nameIs, scoreIs⟩
      refine ⟨found, foundMember, nameIs, ?_⟩
      rw [Function.update_of_ne (apart found nameIs)]
      exact scoreIs
    · intro listed
      rcases listed with ⟨found, foundMember, nameIs, scoreIs⟩
      rw [Function.update_of_ne (apart found nameIs)] at scoreIs
      exact ⟨found, foundMember, nameIs, scoreIs⟩

theorem Scores.erase (scores : Scores znode nodes members) {node : Ptr}
    (member : node ∈ nodes) (distinct : (nodes.map fun node => (znode node).name).Nodup) :
    Scores znode (nodes.erase node)
      (Function.update members (znode node).name none) := by
  have nodup : nodes.Nodup := List.Nodup.of_map _ distinct
  intro other given
  by_cases same : other = (znode node).name
  · subst same
    rw [Function.update_self]
    refine ⟨fun absent => (by cases absent), ?_⟩
    intro listed
    rcases listed with ⟨found, foundMember, nameIs, _⟩
    obtain ⟨apart, old⟩ := nodup.mem_erase_iff.mp foundMember
    exact absurd (eq_of_name_eq distinct old member nameIs) apart
  · rw [Function.update_of_ne same, scores other given]
    constructor
    · intro listed
      rcases listed with ⟨found, foundMember, nameIs, scoreIs⟩
      refine ⟨found, nodup.mem_erase_iff.mpr ⟨?_, foundMember⟩, nameIs, scoreIs⟩
      intro same
      subst same
      exact same nameIs.symm
    · intro listed
      rcases listed with ⟨found, foundMember, nameIs, scoreIs⟩
      exact ⟨found, (nodup.mem_erase_iff.mp foundMember).2, nameIs, scoreIs⟩

end Tuples

/-! ### The operations -/

/-- An update to an equal score leaves the old one: `-0` does not replace `+0`. -/
def keepScore (old : Option Score) (score : Score) : Score :=
  match old with
  | some old => if old.rank = score.rank then old else score
  | none => score

theorem Ordered.congr {znode znodeNew : Ptr → ZNode} (ordered : Ordered znode nodes)
    (same : ∀ node ∈ nodes, znodeNew node = znode node) : Ordered znodeNew nodes := by
  refine List.Pairwise.imp_of_mem ?_ ordered
  intro lower upper lowerMember upperMember less
  rw [same lower lowerMember, same upper upperMember]
  exact less

theorem TreeAdded.holds {node : Ptr} {front back : List Ptr} {after : ZSet}
    (added : TreeAdded zset node nodes front back after)
    (keyed : Keyed (fun node => (zset.znode node).name) strHash zset.hmap (node :: nodes)) :
    (front ++ node :: back).Perm (node :: nodes) ∧ after.Holds (front ++ node :: back) := by
  have perm : (front ++ node :: back).Perm (node :: nodes) := by
    rw [added.split]
    exact List.perm_middle
  refine ⟨perm, ?_, added.tree⟩
  rw [added.znode, added.hmap]
  exact keyed.of_perm perm.symm

theorem TreeAdded.sorted {node : Ptr} {front back : List Ptr} {after : ZSet}
    (added : TreeAdded zset node nodes front back after)
    (distinct : ((node :: nodes).map fun node => (zset.znode node).name).Nodup)
    (short : (zset.znode node).name.length < 2 ^ 32) (sorted : zset.Sorted nodes) :
    after.Sorted (front ++ node :: back) := by
  rw [List.map_cons, List.nodup_cons] at distinct
  have ordered := added.ordered sorted.ordered short fun other member same =>
    distinct.1 (List.mem_map.mpr ⟨other, member, same⟩)
  constructor
  · intro other member
    rw [added.znode]
    have perm : (front ++ node :: back).Perm (node :: nodes) := by
      rw [added.split]
      exact List.perm_middle
    rcases List.mem_cons.mp (perm.mem_iff.mp member) with rfl | old
    · exact short
    · exact sorted.short other old
  · rw [added.znode]
    exact ordered

/-- A node that is in the map already, with the links of a leaf, is put into the tree. -/
private theorem treeAdd_holds {node : Ptr}
    (keyed : Keyed (fun node => (zset.znode node).name) strHash zset.hmap (node :: nodes))
    (stored : AvlTree zset.avl zset.tree nodes)
    (leaf : zset.avl node = { depth := 1, count := 1 }) :
    Meets (fun _ => False)
      (fun after => ∃ nodesNew, nodesNew.Perm (node :: nodes) ∧ after.Holds nodesNew ∧
        after.znode = zset.znode ∧
        ((zset.znode node).name.length < 2 ^ 32 → zset.Sorted nodes → after.Sorted nodesNew))
      (treeAdd zset node) := by
  have nodup := List.nodup_cons.mp keyed.nodup
  apply (treeAdd_spec stored nodup.2 nodup.1 leaf).mono
  intro after placed
  obtain ⟨front, back, added⟩ := placed
  obtain ⟨perm, newHolds⟩ := added.holds keyed
  exact ⟨_, perm, newHolds, added.znode, added.sorted keyed.distinct⟩

theorem ZSet.Holds.zsetUpdate_spec (holds : zset.Holds nodes) {node : Ptr}
    (member : node ∈ nodes) (score : Score) :
    Meets (fun _ => False)
      (fun after => ∃ nodesNew, nodesNew.Perm nodes ∧ after.Holds nodesNew ∧
        after.znode = Function.update zset.znode node
          { zset.znode node with score := keepScore (some (zset.znode node).score) score } ∧
        (zset.Sorted nodes → after.Sorted nodesNew))
      (zsetUpdate zset node score) := by
  unfold zsetUpdate
  by_cases same : (zset.znode node).score.rank = score.rank
  · rw [if_pos same]
    refine ⟨nodes, List.Perm.refl _, holds, ?_, id⟩
    rw [keepScore, if_pos same]
    exact (Function.update_eq_self node zset.znode).symm
  · rw [if_neg same, keepScore, if_neg same]
    obtain ⟨front, back, rfl⟩ := List.append_of_mem member
    have nodup := holds.keyed.nodup
    have moved : (front ++ node :: back).Perm (node :: (front ++ back)) := List.perm_middle
    have away : node ∉ front ++ back := by
      rw [List.nodup_middle, List.nodup_cons] at nodup
      exact nodup.1
    have kept : ∀ other ∈ front ++ back, other ≠ node := by
      intro other inside same
      subst same
      exact away inside
    refine (holds.tree.delete nodup).bind ?_
    intro result reshaped
    rcases result with ⟨avl, tree⟩
    change Meets _ _ (treeAdd { zset with
      avl := avlInit avl node
      tree := tree
      znode := Function.update zset.znode node { zset.znode node with score := score } } node)
    generalize rescoredIs : ({ zset with
      avl := avlInit avl node
      tree := tree
      znode := Function.update zset.znode node { zset.znode node with score := score } } :
        ZSet) = rescored
    have znodeIs : rescored.znode =
        Function.update zset.znode node { zset.znode node with score := score } := by
      rw [← rescoredIs]
    have names : ∀ address, (rescored.znode address).name = (zset.znode address).name := by
      rw [znodeIs]
      exact rescored_name zset.znode node score
    have others : ∀ other ∈ front ++ back, rescored.znode other = zset.znode other := by
      intro other inside
      rw [znodeIs, Function.update_of_ne (kept other inside)]
    have keyed : Keyed (fun node => (rescored.znode node).name) strHash rescored.hmap
        (node :: (front ++ back)) := by
      rw [← rescoredIs]
      refine (holds.keyed.of_perm moved).congr (fun other _ => ?_)
      exact rescored_name zset.znode node score other
    have stored : AvlTree rescored.avl rescored.tree (front ++ back) := by
      rw [← rescoredIs]
      exact reshaped.tree.congr fun other inside => avlInit_ne avl (kept other inside)
    have leaf : rescored.avl node = { depth := 1, count := 1 } := by
      rw [← rescoredIs]
      exact avlInit_same avl node
    apply (treeAdd_holds keyed stored leaf).mono
    intro after placed
    obtain ⟨nodesNew, perm, newHolds, sameNodes, keeps⟩ := placed
    refine ⟨nodesNew, perm.trans moved.symm, newHolds, sameNodes.trans znodeIs, ?_⟩
    intro sorted
    refine keeps ?_ ⟨?_, ?_⟩
    · rw [names]
      exact sorted.short node member
    · intro other inside
      rw [names]
      exact sorted.short other (moved.mem_iff.mpr (List.mem_cons_of_mem _ inside))
    · refine Ordered.congr (sorted.ordered.sublist ?_) others
      exact List.Sublist.append_left (List.sublist_cons_self node back) front

theorem ZSet.Holds.insert_spec (holds : zset.Holds nodes) {fresh : Ptr} (away : fresh ∉ nodes)
    {name : Bytes} (absent : ∀ node ∈ nodes, (zset.znode node).name ≠ name) (score : Score) :
    Meets (· = .spin)
      (fun after => ∃ nodesNew, nodesNew.Perm (fresh :: nodes) ∧ after.Holds nodesNew ∧
        after.znode = Function.update zset.znode fresh ⟨score, name⟩ ∧
        (name.length < 2 ^ 32 → zset.Sorted nodes → after.Sorted nodesNew))
      (do
        let (zset, node) := znodeNew zset fresh name score
        let hmap ← hmInsert hmFuel zset.hmap node
        treeAdd { zset with hmap := hmap } fresh) := by
  have kept : ∀ node ∈ nodes, node ≠ fresh := by
    intro node inside same
    subst same
    exact away inside
  have keyedNew : Keyed
      (fun node => (Function.update zset.znode fresh ⟨score, name⟩ node).name) strHash
      zset.hmap nodes := by
    refine holds.keyed.congr (fun node inside => ?_)
    rw [Function.update_of_ne (kept node inside)]
  have hashed : strHash name =
      strHash (Function.update zset.znode fresh ⟨score, name⟩ fresh).name := by
    rw [Function.update_self]
  have freshName : ∀ node ∈ nodes,
      (Function.update zset.znode fresh ⟨score, name⟩ node).name ≠
        (Function.update zset.znode fresh ⟨score, name⟩ fresh).name := by
    intro node inside
    rw [Function.update_self, Function.update_of_ne (kept node inside)]
    exact absent node inside
  apply (keyedNew.hmInsert_spec ⟨fresh, strHash name⟩ hashed freshName hmFuel).bind
  intro hmapNew keyed
  generalize grownIs : ({ zset with
    hmap := hmapNew
    avl := avlInit zset.avl fresh
    znode := Function.update zset.znode fresh ⟨score, name⟩ } : ZSet) = grown
  have znodeIs : grown.znode = Function.update zset.znode fresh ⟨score, name⟩ := by
    rw [← grownIs]
  have stored : AvlTree grown.avl grown.tree nodes := by
    rw [← grownIs]
    exact holds.tree.congr fun node inside => avlInit_ne zset.avl (kept node inside)
  have leaf : grown.avl fresh = { depth := 1, count := 1 } := by
    rw [← grownIs]
    exact avlInit_same zset.avl fresh
  have keyedGrown : Keyed (fun node => (grown.znode node).name) strHash grown.hmap
      (fresh :: nodes) := by
    rw [← grownIs]
    exact keyed
  have others : ∀ node ∈ nodes, grown.znode node = zset.znode node := by
    intro node inside
    rw [znodeIs, Function.update_of_ne (kept node inside)]
  have grownName : (grown.znode fresh).name = name := by
    rw [znodeIs, Function.update_self]
  apply ((treeAdd_holds keyedGrown stored leaf).widen fun _ => False.elim).mono
  intro after placed
  obtain ⟨nodesNew, perm, newHolds, sameNodes, keeps⟩ := placed
  refine ⟨nodesNew, perm, newHolds, sameNodes.trans znodeIs, fun short sorted => ?_⟩
  refine keeps ?_ ⟨?_, sorted.ordered.congr others⟩
  · rw [grownName]
    exact short
  · intro other inside
    rw [others other inside]
    exact sorted.short other inside

/-- `zset_add` on the tuples: the answer says whether the name is new. -/
structure ZSet.Added (zset : ZSet) (nodes : List Ptr) (members : Bytes → Option Score)
    (fresh : Ptr) (name : Bytes) (score : Score) (nodesNew : List Ptr)
    (result : ZSet × Bool) : Prop where
  answer : result.2 = (members name).isNone
  represents : result.1.Represents nodesNew
    (Function.update members name (some (keepScore (members name) score)))
  sorted : name.length < 2 ^ 32 → zset.Sorted nodes → result.1.Sorted nodesNew

theorem ZSet.Represents.zsetAdd_spec {members : Bytes → Option Score}
    (represents : zset.Represents nodes members) {fresh : Ptr} (away : fresh ∉ nodes)
    (name : Bytes) (score : Score) :
    Meets (· = .spin)
      (fun result => ∃ nodesNew, zset.Added nodes members fresh name score nodesNew result)
      (zsetAdd zset fresh name score) := by
  unfold zsetAdd
  refine (represents.holds.zsetLookup_spec name).bind ?_
  intro result looked
  rcases result with ⟨searched, found⟩
  rcases looked with ⟨⟨hmap, searchedIs⟩, holds, sought⟩
  subst searchedIs
  have scoreIs := represents.scores.sought sought
  cases found with
  | some node =>
      obtain ⟨member, nameIs⟩ := sought
      refine ((holds.zsetUpdate_spec member score).widen fun _ => False.elim).bind ?_
      intro after updated
      obtain ⟨nodesNew, perm, newHolds, znodeIs, sorted⟩ := updated
      have rescored := represents.scores.rescore member holds.keyed.distinct
        (keepScore (some (zset.znode node).score) score)
      refine ⟨nodesNew, ?_, ⟨newHolds, ?_⟩, fun _ => ?_⟩
      · rw [scoreIs]
        rfl
      · rw [scoreIs, ← nameIs, znodeIs]
        exact rescored.perm perm.symm
      · exact fun old => sorted ⟨old.short, old.ordered⟩
  | none =>
      have absent : ∀ node ∈ nodes, (zset.znode node).name ≠ name := sought
      have inserted := represents.scores.insert score away absent
      change Meets _ _ (hmInsert hmFuel hmap _ >>= fun hmap => treeAdd _ fresh >>= _)
      rw [← bind_assoc]
      apply (holds.insert_spec away absent score).bind
      intro after placed
      obtain ⟨nodesNew, perm, newHolds, znodeIs, sorted⟩ := placed
      refine ⟨nodesNew, ?_, ⟨newHolds, ?_⟩, fun short old => ?_⟩
      · rw [scoreIs]
        rfl
      · rw [scoreIs, znodeIs]
        exact inserted.perm perm.symm
      · exact sorted short ⟨old.short, old.ordered⟩

/-- `zset_pop` on the tuples: the node of the name leaves both indexes. -/
structure ZSet.Popped (zset : ZSet) (nodes : List Ptr) (members : Bytes → Option Score)
    (name : Bytes) (nodesNew : List Ptr) (result : ZSet × Option Ptr) : Prop where
  sought : Sought nodes (fun node => (zset.znode node).name = name) result.2
  remaining : nodesNew = match result.2 with
    | some node => nodes.erase node
    | none => nodes
  represents : result.1.Represents nodesNew (Function.update members name none)
  sorted : zset.Sorted nodes → result.1.Sorted nodesNew

theorem ZSet.Represents.zsetPop_spec {members : Bytes → Option Score}
    (represents : zset.Represents nodes members) (name : Bytes) :
    Meets (· = .spin)
      (fun result => ∃ nodesNew, zset.Popped nodes members name nodesNew result)
      (zsetPop zset name) := by
  have holds := represents.holds
  have unchanged : ∀ found, Sought nodes (fun node => (zset.znode node).name = name) found →
      found = none → Function.update members name none = members := by
    intro found sought same
    subst same
    have absent : members name = none := represents.scores.sought sought
    rw [← absent, Function.update_eq_self]
  unfold zsetPop
  split
  · rename_i empty
    have stored := holds.tree
    rw [empty] at stored
    cases stored.eq_nil
    have sought : Sought [] (fun node => (zset.znode node).name = name) none :=
      fun _ member => absurd member List.not_mem_nil
    refine ⟨[], sought, rfl, ⟨holds, ?_⟩, id⟩
    rw [unchanged none sought rfl]
    exact represents.scores
  · refine (holds.keyed.hmPop_spec (holds.decides name) hmFuel).bind ?_
    intro result looked
    rcases result with ⟨hmap, found⟩
    rcases looked with ⟨sought, keyed⟩
    cases found with
    | none =>
        refine ⟨nodes, sought, rfl, ⟨⟨keyed, holds.tree⟩, ?_⟩, ?_⟩
        · rw [unchanged none sought rfl]
          exact represents.scores
        · exact fun sorted => ⟨sorted.short, sorted.ordered⟩
    | some found =>
        obtain ⟨member, nameIs⟩ := sought
        obtain ⟨front, back, -, nodesIs, erased⟩ := List.exists_erase_eq member
        have nodup := holds.keyed.nodup
        have stored := holds.tree
        rw [nodesIs] at nodup stored
        refine ((stored.delete nodup).widen fun _ => False.elim).bind ?_
        intro result reshaped
        rcases result with ⟨avl, tree⟩
        refine ⟨nodes.erase found.owner, ⟨member, nameIs⟩, rfl, ⟨⟨keyed, ?_⟩, ?_⟩, ?_⟩
        · rw [erased]
          exact reshaped.tree
        · rw [← nameIs]
          exact represents.scores.erase member holds.keyed.distinct
        · intro sorted
          refine ⟨fun other inside => ?_, sorted.ordered.sublist List.erase_sublist⟩
          exact sorted.short other (List.mem_of_mem_erase inside)

end RedisC
