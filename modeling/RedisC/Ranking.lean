/-
What `zquery` answers, in terms of the dictionary.

The reference dictionary leaves the reply of `zquery` open.  It is a part of the
members of the set in the order of score and name.  That the tree of every sorted set
is in this order is an invariant of the requests that come in frames, whose strings are
short, so in every run of `main` the replies to `zquery` are those parts.
-/

import RedisC.AvlContract
import RedisC.Serial
import RedisC.ZsetRuns
import RedisC.ZsetSlice

namespace RedisC

open BalancedTree Fallible LabelledRun

/-! ### One tree at an address -/

theorem Linked.unique {mem : AvlMem} {tree shadow : BinaryTree Ptr} {parent : Option Ptr}
    (linked : Linked mem parent tree) (shadowLinked : Linked mem parent shadow)
    (same : rootPtr tree = rootPtr shadow) : tree = shadow := by
  induction tree generalizing shadow parent with
  | nil => exact (eq_nil_of_rootPtr same.symm).symm
  | node value left right leftIh rightIh =>
      cases shadow with
      | nil => cases same
      | node other otherLeft otherRight =>
          cases same
          obtain ⟨wired, -, leftLinked, rightLinked⟩ := linked
          obtain ⟨otherWired, -, otherLeftLinked, otherRightLinked⟩ := shadowLinked
          rw [leftIh leftLinked otherLeftLinked (wired.left.symm.trans otherWired.left),
            rightIh rightLinked otherRightLinked (wired.right.symm.trans otherWired.right)]

theorem AvlTree.unique {mem : AvlMem} {root : Option Ptr} {nodes others : List Ptr}
    (stored : AvlTree mem root nodes) (storedToo : AvlTree mem root others) : nodes = others := by
  obtain ⟨tree, rootIs, linked, -, nodesAre⟩ := stored
  obtain ⟨shadow, shadowRoot, shadowLinked, -, othersAre⟩ := storedToo
  rw [← nodesAre, ← othersAre, linked.unique shadowLinked (rootIs.trans shadowRoot.symm)]

/-! ### The order is kept -/

def ZSet.Ranked (zset : ZSet) : Prop := ∀ nodes, zset.Holds nodes → zset.Sorted nodes

theorem ZSet.ranked_of_sorted {zset : ZSet} {nodes : List Ptr} (holds : zset.Holds nodes)
    (sorted : zset.Sorted nodes) : zset.Ranked := by
  intro others othersHold
  rw [← holds.tree.unique othersHold.tree]
  exact sorted

theorem ZSet.ranked_empty : ({} : ZSet).Ranked := by
  refine ZSet.ranked_of_sorted ZSet.Holds.empty ⟨?_, List.Pairwise.nil⟩
  intro node member
  cases member

def GData.Ranked (g : GData) : Prop := ∀ ent, ∀ zset ∈ (g.entry ent).zset, zset.Ranked

section

variable {strtod : Strtod} {g after : GData} {ents : List Ptr} {dict : Dict}
  {due : Bytes → Option UInt64} {alloc : Alloc}

theorem GData.Ranked.of_entry (ranked : g.Ranked) (same : after.entry = g.entry) :
    after.Ranked := by
  intro ent zset found
  rw [same] at found
  exact ranked ent zset found

theorem GData.Ranked.update (ranked : g.Ranked) {ent : Ptr} {entry : Entry}
    (entryRanked : ∀ zset ∈ entry.zset, zset.Ranked)
    (same : after.entry = Function.update g.entry ent entry) : after.Ranked := by
  intro other zset found
  rw [same] at found
  by_cases here : other = ent
  · rw [here, Function.update_self] at found
    exact entryRanked zset found
  · rw [Function.update_of_ne here] at found
    exact ranked other zset found

theorem GData.Ranked.setZset (ranked : g.Ranked) {zset : ZSet} (zsetRanked : zset.Ranked)
    (ent : Ptr) : (RedisC.setZset g ent zset).Ranked := by
  refine ranked.update ?_ rfl
  intro other found
  rw [← Option.some.inj found]
  exact zsetRanked

private theorem dbInsert_entry (g : GData) (ent : Ptr) (entry : Entry) :
    Meets (fun _ => True) (fun after => after.entry = Function.update g.entry ent entry)
      (dbInsert g ent entry) := by
  unfold dbInsert
  cases hmInsert hmFuel g.db { owner := ent, hcode := entry.hcode } with
  | error fault => trivial
  | ok db => rfl

private theorem entryDel_entry (g : GData) (ent : Ptr) :
    Meets (fun _ => True) (fun after => after.entry = g.entry) (entryDel g ent) := by
  unfold entryDel
  cases entrySetTtl g.timers ent (-1) 0 with
  | error fault => trivial
  | ok timers =>
      cases entryTooBig (g.entry ent) with
      | error fault => trivial
      | ok tooBig => rfl

theorem GData.Ranked.doGet (ranked : g.Ranked) (represents : g.Represents ents dict due)
    (key out : Bytes) :
    Meets (fun _ => True) (fun result => result.1.Ranked) (RedisC.doGet g key out) := by
  unfold RedisC.doGet
  apply represents.lookup_bind key trivial
  · intro after _ same _ _
    exact ranked.of_entry same
  · intro after ent record _ same _ _ _ _
    dsimp only
    split
    · exact ranked.of_entry same
    · trivial

theorem GData.Ranked.doSet (ranked : g.Ranked) (represents : g.Represents ents dict due)
    (key val out : Bytes) :
    Meets (fun _ => True) (fun result => result.1.Ranked)
      (RedisC.doSet g alloc key val out) := by
  unfold RedisC.doSet
  apply represents.lookup_bind key trivial
  · intro after _ same _ _
    apply (dbInsert_entry after alloc.entry _).bind
    intro inserted insertedIs
    refine (ranked.of_entry same).update ?_ insertedIs
    intro zset found
    cases found
  · intro after ent record _ same _ _ _ _
    have kept := ranked.of_entry same
    refine kept.update ?_ rfl
    exact kept ent

theorem GData.Ranked.doDel (ranked : g.Ranked) (key out : Bytes) :
    Meets (fun _ => True) (fun result => result.1.Ranked) (RedisC.doDel g key out) := by
  unfold RedisC.doDel
  cases hmPop hmFuel g.db (strHash key) (entryEq g key) with
  | error fault => trivial
  | ok result =>
      obtain ⟨db, found⟩ := result
      cases found with
      | none => exact ranked.of_entry rfl
      | some node =>
          apply (entryDel_entry { g with db := db } node.owner).bind
          intro deleted same
          exact ranked.of_entry same

theorem Entry.Is.zset_represents {entry : Entry} {record : Record} (is : entry.Is record)
    (type : entry.type = .zset) :
    ∃ zset nodes, entry.zset = some zset ∧ zset.Represents nodes record.members :=
  is.zset (is.type ▸ type)

theorem GData.Ranked.zaddEntry (ranked : g.Ranked) {ent : Ptr} {zset : ZSet} {nodes : List Ptr}
    {members : Bytes → Option Score} (zsetIs : (g.entry ent).zset = some zset)
    (zsetRepresents : zset.Represents nodes members) (away : alloc.znode ∉ nodes)
    (score : Score) {name : Bytes} (short : name.length < 2 ^ 32) (out : Bytes) :
    Meets (fun _ => True) (fun result => result.1.Ranked)
      (RedisC.zaddEntry g alloc ent score name out) := by
  unfold RedisC.zaddEntry
  simp only [zsetIs]
  have spec := (zsetRepresents.zsetAdd_spec away name score).widen fun _ _ => trivial
  apply spec.bind
  intro result added
  obtain ⟨nodesNew, added⟩ := added
  have sorted := ranked ent zset zsetIs nodes zsetRepresents.holds
  exact ranked.setZset (ZSet.ranked_of_sorted added.represents.holds (added.sorted short sorted))
    ent

theorem GData.Ranked.doZadd (ranked : g.Ranked) (represents : g.Represents ents dict due)
    (fresh : alloc.Fresh g.entry ents) (key score : Bytes) {name : Bytes}
    (short : name.length < 2 ^ 32) (out : Bytes) :
    Meets (fun _ => True) (fun result => result.1.Ranked)
      (RedisC.doZadd strtod g alloc key score name out) := by
  unfold RedisC.doZadd
  split
  · exact ranked
  · rename_i score _
    apply represents.lookup_bind key trivial
    · intro after _ same _ _
      apply (dbInsert_entry after alloc.entry _).bind
      intro inserted insertedIs
      have newRanked : inserted.Ranked := by
        refine (ranked.of_entry same).update ?_ insertedIs
        intro zset found
        rw [← Option.some.inj found]
        exact ZSet.ranked_empty
      have zsetIs : (inserted.entry alloc.entry).zset = some {} := by
        rw [insertedIs, Function.update_self]
      exact newRanked.zaddEntry zsetIs ZSet.after_nil.represents List.not_mem_nil score short out
    · intro after ent record _ same member _ _ is
      have kept := ranked.of_entry same
      dsimp only
      split
      · exact kept
      · rename_i isZset
        obtain ⟨zset, nodes, zsetIs, zsetRepresents⟩ := is.zset_represents (not_not.mp isZset)
        refine kept.zaddEntry zsetIs zsetRepresents ?_ score short out
        intro inside
        obtain ⟨node, inMap, owner⟩ := zsetRepresents.holds.keyed.exists_node inside
        rw [same] at zsetIs
        exact fresh.newZnode ent member zset zsetIs node inMap owner

theorem GData.Ranked.expect_bind (ranked : g.Ranked) (represents : g.Represents ents dict due)
    (key out : Bytes)
    {next : GData × Bytes × Option (Ptr × ZSet) → Except Fault (GData × Bytes)}
    (none : ∀ after out, GData.Ranked after →
      Meets (fun _ => True) (fun result => result.1.Ranked) (next (after, out, none)))
    (some : ∀ after ent zset nodes members, GData.Ranked after →
      (after.entry ent).zset = some zset → zset.Represents nodes members →
      Meets (fun _ => True) (fun result => result.1.Ranked) (next (after, out, some (ent, zset)))) :
    Meets (fun _ => True) (fun result => result.1.Ranked) (expectZset g key out >>= next) := by
  unfold expectZset
  simp only [bind_assoc]
  apply represents.lookup_bind key trivial
  · intro after _ same _ _
    exact none after _ (ranked.of_entry same)
  · intro after ent record _ same _ _ _ is
    have kept := ranked.of_entry same
    dsimp only
    cases type : (after.entry ent).type with
    | str => exact none after _ kept
    | zset =>
        obtain ⟨zset, nodes, zsetIs, zsetRepresents⟩ := is.zset_represents type
        rw [zsetIs]
        exact some after ent zset nodes _ kept zsetIs zsetRepresents

theorem GData.Ranked.doZrem (ranked : g.Ranked) (represents : g.Represents ents dict due)
    (key name out : Bytes) :
    Meets (fun _ => True) (fun result => result.1.Ranked) (RedisC.doZrem g key name out) := by
  unfold RedisC.doZrem
  apply ranked.expect_bind represents key out
  · intro after out kept
    exact kept
  · intro after ent zset nodes members kept zsetIs zsetRepresents
    have spec := (zsetRepresents.zsetPop_spec name).widen fun _ _ => trivial
    apply spec.bind
    intro result popped
    obtain ⟨nodesNew, popped⟩ := popped
    have sorted := kept ent zset zsetIs nodes zsetRepresents.holds
    exact kept.setZset (ZSet.ranked_of_sorted popped.represents.holds (popped.sorted sorted)) ent

theorem GData.Ranked.doZscore (ranked : g.Ranked) (represents : g.Represents ents dict due)
    (key name out : Bytes) :
    Meets (fun _ => True) (fun result => result.1.Ranked) (RedisC.doZscore g key name out) := by
  unfold RedisC.doZscore
  apply ranked.expect_bind represents key out
  · intro after out kept
    exact kept
  · intro after ent zset nodes members kept zsetIs zsetRepresents
    have spec := (zsetRepresents.holds.zsetLookup_spec name).widen fun _ _ => trivial
    apply spec.bind
    intro result looked
    obtain ⟨searched, found⟩ := result
    obtain ⟨⟨hmap, searchedIs⟩, holds, -⟩ := looked
    simp only at searchedIs holds
    subst searchedIs
    have sorted := kept ent zset zsetIs nodes zsetRepresents.holds
    have searchedRanked := kept.setZset
      (ZSet.ranked_of_sorted holds ⟨sorted.short, sorted.ordered⟩) ent
    cases found with
    | none => exact searchedRanked
    | some node => exact searchedRanked

theorem GData.Ranked.doZquery (ranked : g.Ranked) (represents : g.Represents ents dict due)
    (key score name offset limit out : Bytes) :
    Meets (fun _ => True) (fun result => result.1.Ranked)
      (RedisC.doZquery strtod g key score name offset limit out) := by
  unfold RedisC.doZquery
  split
  · exact ranked
  · exact ranked
  · exact ranked
  · rename_i score offset limit _ _ _
    apply ranked.expect_bind represents key out
    · intro after out kept
      dsimp only
      split
      · exact kept
      · exact kept
    · intro after ent zset nodes members kept _ _
      dsimp only
      cases zqueryEntry zset score name offset limit out with
      | error fault => trivial
      | ok written => exact kept

theorem GData.Ranked.doRequest (ranked : g.Ranked) (represents : g.Represents ents dict due)
    (fresh : alloc.Fresh g.entry ents) {cmd : List Bytes}
    (short : ∀ arg ∈ cmd, arg.length < 2 ^ 32) :
    Meets (fun _ => True) (fun result => result.1.Ranked)
      (RedisC.doRequest strtod g alloc cmd []) := by
  match cmd with
  | [] => exact ranked
  | [word] =>
      rw [RedisC.doRequest]
      split
      · exact ranked.of_entry rfl
      · exact ranked
  | [word, key] =>
      rw [RedisC.doRequest]
      split
      · exact ranked.doGet represents key []
      · split
        · exact ranked.doDel key []
        · exact ranked
  | [word, key, arg] =>
      rw [RedisC.doRequest]
      split
      · exact ranked.doSet represents key arg []
      · split
        · exact ranked.doZrem represents key arg []
        · split
          · exact ranked.doZscore represents key arg []
          · exact ranked
  | [word, key, score, name] =>
      rw [RedisC.doRequest]
      split
      · exact ranked.doZadd represents fresh key score (short name (by simp)) []
      · exact ranked
  | [word, key, score, name, offset] => exact ranked
  | [word, key, score, name, offset, limit] =>
      rw [RedisC.doRequest]
      split
      · exact ranked.doZquery represents key score name offset limit []
      · exact ranked
  | _ :: _ :: _ :: _ :: _ :: _ :: _ :: _ => exact ranked

end

/-! ### The reference -/

/-- The members in the order of score and name. -/
structure Ranking (members : Bytes → Option Score) (tuples : List (Bytes × Score)) : Prop where
  sorted : tuples.Pairwise fun lower upper =>
    tupleKey lower.2 lower.1 < tupleKey upper.2 upper.1
  lists : ∀ name score, members name = some score ↔ (name, score) ∈ tuples

namespace Reference

/-- The number of tuples before the one that is asked for. -/
def rankOf (tuples : List (Bytes × Score)) (score : Score) (name : Bytes) : Nat :=
  tuples.countP fun tuple => decide (tupleKey tuple.2 tuple.1 < tupleKey score name)

/-- Half of `limit` tuples, rounded up, from `offset` places behind `rank`. -/
def page (tuples : List (Bytes × Score)) (rank : Nat) (offset limit : Int) :
    List (Bytes × Score) :=
  if 0 < limit ∧ rank < tuples.length ∧ 0 ≤ rank + offset ∧ rank + offset < tuples.length then
    (tuples.drop (rank + offset).toNat).take ((limit + 1) / 2).toNat
  else []

def shownTuples (tuples : List (Bytes × Score)) : List Value :=
  tuples.flatMap fun tuple => [.str tuple.1, .dbl tuple.2.value]

/-- The reply of `zquery`. -/
def zquery (strtod : Strtod) (dict : Dict) (key score name offset limit : Bytes)
    (value : Value) : Prop :=
  match str2double strtod score, str2int offset, str2int limit with
  | none, _, _ => value = .err errArg (ascii "expecting fp number")
  | some _, none, _ => value = .err errArg (ascii "expecting int")
  | some _, some _, none => value = .err errArg (ascii "expecting int")
  | some score, some offset, some limit =>
      match dict key with
      | none => value = .arr []
      | some record =>
          if record.type ≠ .zset then value = .err errType (ascii "expecting zset")
          else ∃ tuples, Ranking record.members tuples ∧
            value = .arr (shownTuples (page tuples (rankOf tuples score name) offset limit))

end Reference

section

variable {strtod : Strtod} {g : GData} {ents : List Ptr} {dict : Dict}
  {due : Bytes → Option UInt64} {zset : ZSet} {nodes : List Ptr}

def ZNode.tuple (node : ZNode) : Bytes × Score := (node.name, node.score)

theorem ZSet.Represents.ranking {members : Bytes → Option Score}
    (represents : zset.Represents nodes members) (sorted : zset.Sorted nodes) :
    Ranking members (nodes.map fun node => (zset.znode node).tuple) := by
  constructor
  · exact List.pairwise_map.mpr sorted.ordered
  · intro name score
    rw [represents.scores name score, List.mem_map]
    constructor
    · intro ensured
      obtain ⟨node, member, nameIs, scoreIs⟩ := ensured
      exact ⟨node, member, Prod.ext nameIs scoreIs⟩
    · intro ensured
      obtain ⟨node, member, same⟩ := ensured
      obtain ⟨nameIs, scoreIs⟩ := Prod.mk.inj same
      exact ⟨node, member, nameIs, scoreIs⟩

private theorem shownAll_eq (znode : Ptr → ZNode) (part : List Ptr) :
    shownAll znode part = Reference.shownTuples (part.map fun node => (znode node).tuple) := by
  rw [shownAll, Reference.shownTuples, List.flatMap_map]
  rfl

private theorem lowerRank_eq_rankOf (znode : Ptr → ZNode) (nodes : List Ptr) (score : Score)
    (name : Bytes) :
    lowerRank znode nodes score name =
      Reference.rankOf (nodes.map fun node => (znode node).tuple) score name := by
  rw [lowerRank, Reference.rankOf, List.countP_map]
  rfl

/-- The slice that `do_zquery` writes is the page of the ranking. -/
theorem Slice.page {rank : Nat} {offset limit : Int} {reply : Bytes}
    (slice : Slice zset nodes rank offset limit reply) :
    reply = (Value.arr (Reference.shownTuples (Reference.page
      (nodes.map fun node => (zset.znode node).tuple) rank offset limit))).encode := by
  unfold Reference.page
  rw [List.length_map]
  by_cases inside : 0 < limit ∧ rank < nodes.length ∧ 0 ≤ rank + offset ∧
      rank + offset < nodes.length
  · obtain ⟨positive, below, low, high⟩ := inside
    obtain ⟨first, m, firstIs, mIs, full, -, replyIs⟩ := slice.inside positive below low high
    have firstNat : (rank + offset).toNat = first := by omega
    have sameTake : (nodes.drop first).take ((limit + 1) / 2).toNat =
        (nodes.drop first).take m := by
      rw [List.take_eq_take_iff, List.length_drop]
      omega
    rw [if_pos ⟨positive, below, low, high⟩, firstNat, ← List.map_drop, ← List.map_take, sameTake,
      ← shownAll_eq, Value.encode, length_shownAll, full]
    exact replyIs
  · rw [if_neg inside, slice.outside inside]
    rfl

private theorem zqueried_reference (represents : g.Represents ents dict due) (ranked : g.Ranked)
    {count : Nat} (few : EachRecord (Record.Few count) dict) (small : count < 2 ^ 31)
    (key : Bytes) (score : Score) (name : Bytes) (offset limit : Int) :
    Meets (fun _ => True)
      (fun result : GData × Bytes => ∃ value, result.2 = Value.encode value ∧
        match dict key with
        | none => value = .arr []
        | some record =>
            if record.type ≠ .zset then value = .err errType (ascii "expecting zset")
            else ∃ tuples, Ranking record.members tuples ∧ value = .arr (Reference.shownTuples
              (Reference.page tuples (Reference.rankOf tuples score name) offset limit)))
      (do
        match ← expectZset g key [] with
        | (g, out, none) =>
            if out.head? = some serNil then pure (g, outArr [] 0) else pure (g, out)
        | (g, out, some (_, zset)) =>
            let out ← zqueryEntry zset score name offset limit out
            pure (g, out)) := by
  unfold expectZset
  simp only [bind_assoc]
  apply represents.lookup_bind key trivial
  · intro after _ _ _ absent
    rw [absent]
    exact ⟨.arr [], rfl, rfl⟩
  · intro after ent record _ same _ keyIs found is
    have kept := ranked.of_entry same
    rw [found]
    dsimp only
    cases type : (after.entry ent).type with
    | str =>
        have notZset : record.type ≠ .zset := by
          rw [← is.type, type]
          decide
        refine ⟨_, outErr_eq [] _ _, ?_⟩
        rw [if_pos notZset]
    | zset =>
        have isZset : record.type = .zset := is.type.symm.trans type
        obtain ⟨zset, nodes, zsetIs, zsetRepresents⟩ := is.zset isZset
        have sorted := kept ent zset zsetIs nodes zsetRepresents.holds
        have fewNodes : nodes.length < 2 ^ 31 := by
          obtain ⟨names, covers, length⟩ := few key record found
          apply Nat.lt_of_le_of_lt _ small
          apply Nat.le_trans _ length
          rw [← List.length_map fun node => (zset.znode node).name]
          apply (List.subperm_of_subset zsetRepresents.holds.keyed.distinct _).length_le
          intro other listed
          obtain ⟨node, member, nameIs⟩ := List.mem_map.mp listed
          apply covers
          rw [(zsetRepresents.scores other _).mpr ⟨node, member, nameIs, rfl⟩]
          rfl
        rw [zsetIs]
        have walked : Meets (fun _ => True) _ _ := (sorted.zqueryEntry_slice
          zsetRepresents.holds fewNodes score name offset limit).widen fun _ _ => trivial
        apply walked.bind
        intro reply slice
        rw [lowerRank_eq_rankOf] at slice
        refine ⟨_, slice.page, ?_⟩
        rw [if_neg (not_not.mpr isZset)]
        exact ⟨_, zsetRepresents.ranking sorted, rfl⟩

private theorem doZquery_reference (represents : g.Represents ents dict due) (ranked : g.Ranked)
    {count : Nat} (few : EachRecord (Record.Few count) dict) (small : count < 2 ^ 31)
    (key score name offset limit : Bytes) :
    Meets (fun _ => True)
      (fun result => ∃ value, result.2 = Value.encode value ∧
        Reference.zquery strtod dict key score name offset limit value)
      (doZquery strtod g key score name offset limit []) := by
  unfold doZquery Reference.zquery
  cases str2double strtod score with
  | none => exact ⟨_, outErr_eq [] _ _, rfl⟩
  | some score =>
      cases str2int offset with
      | none => exact ⟨_, outErr_eq [] _ _, rfl⟩
      | some offset =>
          cases str2int limit with
          | none => exact ⟨_, outErr_eq [] _ _, rfl⟩
          | some limit =>
              exact zqueried_reference represents ranked few small key score name offset limit

end

/-! ### Runs -/

section

variable {strtod : Strtod} {refusal : Fault} {db after : Db} {dict : Dict}

private theorem short_of_framed {fd : Nat} {cmd : List Bytes} {out : Bytes}
    (framed : (Action.call fd cmd out).Framed) : ∀ arg ∈ cmd, arg.length < 2 ^ 32 := by
  obtain ⟨body, requested⟩ := framed
  intro arg member
  exact Nat.lt_of_le_of_lt (args_short requested.short requested.parsed arg member) (by decide)

theorem GData.Ranked.action {action : Action} (plain : db.Plain dict) (ranked : db.g.Ranked)
    (step : ServiceStep (redisSupplied strtod refusal) db action after)
    (framed : action.Framed) : after.g.Ranked := by
  obtain ⟨ents, represents⟩ := plain.represents
  cases action with
  | opened fd =>
      rw [show after = db from step]
      exact ranked
  | call fd cmd out =>
      change (if _ then _ else _) = _ at step
      split at step
      · rename_i unused
        obtain ⟨⟨g, reply⟩, returned, final⟩ := bind_eq_ok step
        cases final
        exact (ranked.doRequest represents (unused.fresh represents)
          (short_of_framed framed)).of_ok returned
      · cases step
  | expire now =>
      obtain ⟨g, expired, final⟩ := bind_eq_ok step
      cases final
      rw [processTtlTimers_of_undated represents now] at expired
      cases expired
      exact ranked

theorem Db.Plain.ranked_history {actions : List Action}
    (run : Runs (ServiceStep (redisSupplied strtod refusal)) db actions after)
    (plain : db.Plain dict) (ranked : db.g.Ranked)
    (framed : ∀ action ∈ actions, action.Framed) :
    ∃ dictNew, Runs (DictStep strtod) dict actions dictNew ∧ after.Plain dictNew ∧
      after.g.Ranked := by
  induction run generalizing dict with
  | nil state => exact ⟨dict, .nil _, plain, ranked⟩
  | cons head tail ih =>
      have headFramed := framed _ List.mem_cons_self
      obtain ⟨middle, step, plainMiddle⟩ := plain.step head headFramed
      obtain ⟨last, rest, plainLast, rankedLast⟩ := ih plainMiddle
        (ranked.action plain head headFramed)
        fun action member => framed action (List.mem_cons_of_mem _ member)
      exact ⟨last, .cons step rest, plainLast, rankedLast⟩

private theorem zquery_answered {supply : Nat → Alloc} {mem : ListPtr → DList ListPtr}
    {trace : List Polled} {loop : Loop Db}
    (run : Runs (RoundStep (redisSupplied strtod refusal)) (Loop.start { supply := supply } mem)
      trace loop) {before later : List Action} {fd : Nat}
    {word key score name offset limit out : Bytes} (isZquery : cmdIs word "zquery" = true)
    (called : history (redisSupplied strtod refusal) { db := { supply := supply } }
        ((Loop.start { supply := supply } mem).eventsOf (redisSupplied strtod refusal) trace) =
      before ++ .call fd [word, key, score, name, offset, limit] out :: later)
    (few : before.countP Action.isCall < 2 ^ 31) :
    ∃ dict value, Runs (DictStep strtod) (fun _ => none) before dict ∧
      out = Value.encode value ∧
      Reference.zquery strtod dict key score name offset limit value := by
  obtain ⟨server, events, -, -⟩ := Loop.start_follows run
  obtain ⟨actions, -, framed⟩ := server_history events (Server.recorded_start _)
  rw [called] at actions framed
  obtain ⟨db, early, late⟩ := actions.split
  have none : ({ supply := supply } : Db).g.Ranked := by
    intro ent zset found
    cases found
  obtain ⟨dict, reference, plain, ranked⟩ := (Db.plain_start supply).ranked_history early none
    fun action member => framed action (List.mem_append_left _ member)
  have records := few_of_runs reference (eachRecord_empty (Record.Few 0))
  rw [Nat.zero_add] at records
  obtain ⟨ents, represents⟩ := plain.represents
  cases late with
  | cons step rest =>
      change (if _ then _ else _) = _ at step
      split at step
      · obtain ⟨⟨g, reply⟩, returned, final⟩ := bind_eq_ok step
        cases final
        rw [doRequest, if_pos isZquery] at returned
        obtain ⟨value, written, answered⟩ := (doZquery_reference represents ranked records few key
          score name offset limit).of_ok returned
        exact ⟨dict, value, reference, written, answered⟩
      · cases step

end

/-- In every run of `main`, `do_zquery` writes the part of the ranking that was asked for, in
the dictionary as the requests before have left it.  This is the reply, unless it is too big
for one. -/
theorem main_answers_zquery (strtod : Strtod) (refusal : Fault) {supply : Nat → Alloc}
    {mem : ListPtr → DList ListPtr} {trace : List Polled} {loop : Loop Db}
    (run : Runs (RoundStep (redisSupplied strtod refusal)) (Loop.start { supply := supply } mem)
      trace loop) {before later : List Action} {fd : Nat}
    {word key score name offset limit out : Bytes} (isZquery : cmdIs word "zquery" = true)
    (called : history (redisSupplied strtod refusal) { db := { supply := supply } }
        ((Loop.start { supply := supply } mem).eventsOf (redisSupplied strtod refusal) trace) =
      before ++ .call fd [word, key, score, name, offset, limit] out :: later)
    (few : before.countP Action.isCall < 2 ^ 31) :
    ∃ dict value, Runs (DictStep strtod) (fun _ => none) before dict ∧
      out = Value.encode value ∧ packReply out = value.packed.encode ∧
      Reference.zquery strtod dict key score name offset limit value := by
  obtain ⟨dict, value, reference, outIs, answered⟩ := zquery_answered run isZquery called few
  refine ⟨dict, value, reference, outIs, ?_, answered⟩
  rw [outIs]
  exact packReply_encode value

def askedForSecond : List Polled :=
  [⟨fun _ => none, 0, some ⟨some 4, some 9, 1⟩⟩,
    ⟨fun _ => some ⟨2, [.data (frame (encodeReq [ascii "zadd", [122], ascii "1", [110]]) ++
      frame (encodeReq [ascii "zadd", [122], ascii "1", [109]]) ++
      frame (encodeReq [ascii "zquery", [122], ascii "1", [], ascii "1", ascii "9"]))],
      [.wrote 100, .wrote 100, .wrote 100]⟩, 3, none⟩]

theorem main_answers_zquery_second :
    ∃ loop before, Runs (RoundStep (redisSupplied strtodOne .spin)) mainStart askedForSecond loop ∧
      history (redisSupplied strtodOne .spin) redisStart
          (mainStart.eventsOf (redisSupplied strtodOne .spin) askedForSecond) =
        before ++ [.call 4 [ascii "zquery", [122], ascii "1", [], ascii "1", ascii "9"]
          (Value.arr [.str [110], .dbl Score.one.value]).encode, .expire 3] ∧
      ∃ dict value, Runs (DictStep strtodOne) (fun _ => none) before dict ∧
        packReply (Value.arr [.str [110], .dbl Score.one.value]).encode = value.packed.encode ∧
        Reference.zquery strtodOne dict [122] (ascii "1") [] (ascii "1") (ascii "9") value := by
  have followed : (follow (roundNext (redisSupplied strtodOne .spin)) mainStart
      askedForSecond).isSome = true := by
    decide +kernel
  obtain ⟨loop, run⟩ := runs_of_follow (roundNext_sound _) followed
  have called : history (redisSupplied strtodOne .spin) redisStart
      (mainStart.eventsOf (redisSupplied strtodOne .spin) askedForSecond) =
      (history (redisSupplied strtodOne .spin) redisStart
        (mainStart.eventsOf (redisSupplied strtodOne .spin) askedForSecond)).take 4 ++
        [.call 4 [ascii "zquery", [122], ascii "1", [], ascii "1", ascii "9"]
          (Value.arr [.str [110], .dbl Score.one.value]).encode, .expire 3] := by
    decide +kernel
  have few : ((history (redisSupplied strtodOne .spin) redisStart
      (mainStart.eventsOf (redisSupplied strtodOne .spin) askedForSecond)).take 4).countP
        Action.isCall < 2 ^ 31 := by
    decide +kernel
  obtain ⟨dict, value, reference, -, replied, answered⟩ := main_answers_zquery strtodOne .spin
    run (by decide) called few
  exact ⟨loop, _, run, called, dict, value, reference, replied, answered⟩

/-! ### Pages -/

def dictAfter (strtod : Strtod) (dict : Dict) : List Action → Dict
  | [] => dict
  | .call _ cmd _ :: rest => dictAfter strtod (Reference.request strtod dict cmd).1 rest
  | _ :: rest => dictAfter strtod dict rest

private theorem eq_dictAfter {strtod : Strtod} {dict dictNew : Dict} {actions : List Action}
    (run : Runs (DictStep strtod) dict actions dictNew) :
    dictNew = dictAfter strtod dict actions := by
  induction run with
  | nil state => rfl
  | cons head tail ih =>
      rename_i first middle last label labels
      cases label with
      | opened fd =>
          rw [show middle = first from head] at ih
          exact ih
      | expire now =>
          rw [show middle = first from head] at ih
          exact ih
      | call fd cmd out =>
          obtain ⟨value, -, -, middleIs⟩ := head
          rw [middleIs] at ih
          exact ih

theorem Ranking.unique {members : Bytes → Option Score} {tuples others : List (Bytes × Score)}
    (ranking : Ranking members tuples) (other : Ranking members others) : tuples = others := by
  have nodup : ∀ {list : List (Bytes × Score)}, Ranking members list → list.Nodup := by
    intro list ranks
    apply ranks.sorted.imp
    intro lower upper below same
    rw [same] at below
    exact lt_irrefl _ below
  have perm : tuples.Perm others := by
    rw [List.perm_ext_iff_of_nodup (nodup ranking) (nodup other)]
    intro tuple
    rw [← ranking.lists tuple.1 tuple.2, ← other.lists tuple.1 tuple.2]
  refine perm.eq_of_pairwise ?_ ranking.sorted other.sorted
  intro lower upper _ _ below above
  exact absurd (below.trans above) (lt_irrefl _)

private theorem page_eq (tuples : List (Bytes × Score)) (rank : Nat) {size : Nat}
    (positive : 0 < size)
    (index : Nat) :
    Reference.page tuples rank (index * size : Nat) (2 * size : Nat) =
      ((tuples.drop rank).drop (index * size)).take size := by
  have half : ((((2 * size : Nat) : Int) + 1) / 2).toNat = size := by omega
  have start : ((rank : Int) + (index * size : Nat)).toNat = rank + index * size := by omega
  unfold Reference.page
  rw [List.drop_drop, half, start]
  split
  · rfl
  · rename_i outside
    have past : tuples.length ≤ rank + index * size := by
      generalize index * size = place at outside
      omega
    rw [List.drop_eq_nil_of_le past, List.take_nil]

private theorem flatMap_pages {α : Type} (list : List α) (size count : Nat) :
    ((List.range count).flatMap fun index => (list.drop (index * size)).take size) =
      list.take (count * size) := by
  induction count with
  | zero => rw [List.range_zero, List.flatMap_nil, Nat.zero_mul, List.take_zero]
  | succ count ih =>
      rw [List.range_succ, List.flatMap_append, ih, List.flatMap_singleton, Nat.succ_mul,
        List.take_add]

/-- Pages of a sorted set: clients that ask for `size` tuples from the places `0`, `size`,
`2 * size` and so on, at times when the dictionary is the same, get the tuples from the place
of `score` and `name` on, each once and in order, if every page fits into a reply. -/
theorem zquery_pages_cover (strtod : Strtod) (refusal : Fault) {supply : Nat → Alloc}
    {mem : ListPtr → DList ListPtr} {trace : List Polled} {loop : Loop Db}
    (run : Runs (RoundStep (redisSupplied strtod refusal)) (Loop.start { supply := supply } mem)
      trace loop) {dict : Dict} {key score name limit : Bytes} {record : Record} {place : Score}
    (found : dict key = some record) (isZset : record.type = .zset)
    (scoreIs : str2double strtod score = some place) {size count : Nat} (positive : 0 < size)
    (limitIs : str2int limit = some ((2 * size : Nat) : Int)) (nonempty : 0 < count)
    {offset out : Nat → Bytes}
    (asked : ∀ index < count, str2int (offset index) = some ((index * size : Nat) : Int) ∧
      ∃ before later fd word, cmdIs word "zquery" = true ∧
        before.countP Action.isCall < 2 ^ 31 ∧
        dictAfter strtod (fun _ => none) before = dict ∧
        history (redisSupplied strtod refusal) { db := { supply := supply } }
            ((Loop.start { supply := supply } mem).eventsOf (redisSupplied strtod refusal)
              trace) =
          before ++ .call fd [word, key, score, name, offset index, limit] (out index) :: later)
    (fits : ∀ index < count, 4 + (out index).length ≤ kMaxMsg) :
    ∃ tuples pages, Ranking record.members tuples ∧
      (∀ index < count, packReply (out index) =
        (Value.arr (Reference.shownTuples (pages index))).encode) ∧
      (List.range count).flatMap pages =
        (tuples.drop (Reference.rankOf tuples place name)).take (count * size) := by
  have answers : ∀ index < count, ∃ tuples, Ranking record.members tuples ∧
      out index = (Value.arr (Reference.shownTuples (((tuples.drop
        (Reference.rankOf tuples place name)).drop (index * size)).take size))).encode := by
    intro index inside
    obtain ⟨offsetIs, before, later, fd, word, isZquery, few, dictIs, called⟩ := asked index inside
    obtain ⟨dictThere, value, reference, outIs, answered⟩ :=
      zquery_answered run isZquery called few
    rw [eq_dictAfter reference, dictIs] at answered
    unfold Reference.zquery at answered
    rw [scoreIs, offsetIs, limitIs, found] at answered
    dsimp only at answered
    rw [if_neg (not_not.mpr isZset)] at answered
    obtain ⟨tuples, ranking, valueIs⟩ := answered
    refine ⟨tuples, ranking, ?_⟩
    rw [outIs, valueIs, page_eq tuples _ positive index]
  obtain ⟨tuples, ranking, -⟩ := answers 0 nonempty
  refine ⟨tuples, fun index => ((tuples.drop (Reference.rankOf tuples place name)).drop
    (index * size)).take size, ranking, ?_, flatMap_pages _ size count⟩
  intro index inside
  obtain ⟨others, otherRanking, outIs⟩ := answers index inside
  rw [ranking.unique otherRanking, packReply, if_neg (Nat.not_lt.mpr (fits index inside))]
  exact outIs

private theorem dictAfter_append (strtod : Strtod) (dict : Dict) (actions more : List Action) :
    dictAfter strtod dict (actions ++ more) =
      dictAfter strtod (dictAfter strtod dict actions) more := by
  induction actions generalizing dict with
  | nil => rfl
  | cons action actions ih =>
      cases action with
      | opened fd => exact ih dict
      | call fd cmd out => exact ih _
      | expire now => exact ih dict

def twoPages (index : Nat) : List Bytes :=
  [ascii "zquery", [122], ascii "1", [], if index = 0 then ascii "0" else ascii "1", ascii "2"]

def twoPagesReply (index : Nat) : Bytes :=
  (Value.arr [.str (if index = 0 then [109] else [110]), .dbl Score.one.value]).encode

def askedForPages : List Polled :=
  [⟨fun _ => none, 0, some ⟨some 4, some 9, 1⟩⟩,
    ⟨fun _ => some ⟨2, [.data (frame (encodeReq [ascii "zadd", [122], ascii "1", [110]]) ++
      frame (encodeReq [ascii "zadd", [122], ascii "1", [109]]) ++
      frame (encodeReq (twoPages 0)) ++ frame (encodeReq (twoPages 1)))],
      [.wrote 100, .wrote 100, .wrote 100, .wrote 100]⟩, 3, none⟩]

def pagesHistory : List Action :=
  history (redisSupplied strtodOne .spin) redisStart
    (mainStart.eventsOf (redisSupplied strtodOne .spin) askedForPages)

theorem zquery_pages_cover_two :
    ∃ loop record tuples, ∃ pages : Nat → List (Bytes × Score),
      Runs (RoundStep (redisSupplied strtodOne .spin)) mainStart askedForPages loop ∧
      dictAfter strtodOne (fun _ => none) (pagesHistory.take 4) [122] = some record ∧
      Ranking record.members tuples ∧
      (∀ index < 2, packReply (twoPagesReply index) =
        (Value.arr (Reference.shownTuples (pages index))).encode) ∧
      (List.range 2).flatMap pages =
        (tuples.drop (Reference.rankOf tuples Score.one [])).take 2 := by
  have followed : (follow (roundNext (redisSupplied strtodOne .spin)) mainStart
      askedForPages).isSome = true := by
    decide +kernel
  obtain ⟨loop, run⟩ := runs_of_follow (roundNext_sound _) followed
  have stored : ((dictAfter strtodOne (fun _ => none) (pagesHistory.take 4) [122]).any fun record =>
      decide (record.type = .zset)) = true := by
    decide +kernel
  obtain ⟨record, found, isZset⟩ := (Option.any_eq_true _ _).mp stored
  have calls : ∀ index < 2, pagesHistory = pagesHistory.take (4 + index) ++
      .call 4 (twoPages index) (twoPagesReply index) :: pagesHistory.drop (5 + index) := by
    decide +kernel
  have same : ∀ index < 2, dictAfter strtodOne (fun _ => none) (pagesHistory.take (4 + index)) =
      dictAfter strtodOne (fun _ => none) (pagesHistory.take 4) := by
    intro index inside
    match index with
    | 0 => rfl
    | 1 =>
        have between : pagesHistory.take 5 = pagesHistory.take 4 ++
            [.call 4 (twoPages 0) (twoPagesReply 0)] := by
          decide +kernel
        rw [between, dictAfter_append]
        generalize dictAfter strtodOne _ (pagesHistory.take 4) = dict
        rfl
  have few : ∀ index < 2, (pagesHistory.take (4 + index)).countP Action.isCall < 2 ^ 31 := by
    decide +kernel
  have fits : ∀ index < 2, 4 + (twoPagesReply index).length ≤ kMaxMsg := by
    decide +kernel
  have asked : ∀ index < 2,
      str2int (if index = 0 then ascii "0" else ascii "1") = some ((index * 1 : Nat) : Int) ∧
      ∃ before later fd word, cmdIs word "zquery" = true ∧
        before.countP Action.isCall < 2 ^ 31 ∧
        dictAfter strtodOne (fun _ => none) before =
          dictAfter strtodOne (fun _ => none) (pagesHistory.take 4) ∧
        pagesHistory = before ++ .call fd [word, [122], ascii "1", [],
          if index = 0 then ascii "0" else ascii "1", ascii "2"] (twoPagesReply index) ::
            later := by
    intro index inside
    refine ⟨?_, _, _, _, _, ?_, few index inside, same index inside, calls index inside⟩
    · revert index
      decide +kernel
    · decide
  obtain ⟨tuples, pages, ranking, replied, covered⟩ := zquery_pages_cover strtodOne .spin run found
    (of_decide_eq_true isZset) (show str2double strtodOne (ascii "1") = some Score.one by decide)
    Nat.one_pos (show str2int (ascii "2") = some ((2 * 1 : Nat) : Int) by decide +kernel)
    Nat.two_pos asked fits
  exact ⟨loop, record, tuples, pages, run, found, ranking, replied, covered⟩

end RedisC
