/-
The keyspace is a dictionary with deadlines.

`g.Represents ents dict due` says that the entries `ents` are those of the map,
that `dict` gives the record of each key and `due` its deadline.  The lemmas
below are the four ways in which the handlers touch the keyspace: a search, a
new entry, a new record for an entry, and the removal of an entry.
-/

import RedisC.EntryTtl
import RedisC.HashtableReturns
import RedisC.Keyspace
import RedisC.ZsetInvariant

namespace RedisC

open Fallible

structure Record where
  type : EntryType := .str
  val : Bytes := []
  members : Bytes → Option Score := fun _ => none

abbrev Dict := Bytes → Option Record

structure Entry.Is (entry : Entry) (record : Record) : Prop where
  type : entry.type = record.type
  val : entry.val = record.val
  zset : record.type = .zset →
    ∃ zset nodes, entry.zset = some zset ∧ zset.Represents nodes record.members

structure GData.Represents (g : GData) (ents : List Ptr) (dict : Dict)
    (due : Bytes → Option UInt64) : Prop where
  keyed : Keyed (fun ent => (g.entry ent).key) strHash g.db ents
  hashed : ∀ ent ∈ ents, (g.entry ent).hcode = strHash (g.entry ent).key
  recorded : ∀ ent ∈ ents, ∃ record,
    dict (g.entry ent).key = some record ∧ (g.entry ent).Is record
  absent : ∀ key, (∀ ent ∈ ents, (g.entry ent).key ≠ key) → dict key = none ∧ due key = none
  linked : g.timers.Linked
  undated : ∀ ent, ent ∉ ents → g.timers.deadline ent = none
  dated : ∀ ent ∈ ents, g.timers.deadline ent = due (g.entry ent).key

/-- The addresses that `new` and `malloc` return are not in use. -/
structure Alloc.Fresh (alloc : Alloc) (entry : Ptr → Entry) (ents : List Ptr) : Prop where
  newEntry : alloc.entry ∉ ents
  newZnode : ∀ ent ∈ ents, ∀ zset ∈ (entry ent).zset,
    ∀ node ∈ zset.hmap.nodes, node.owner ≠ alloc.znode

theorem Timers.Linked.heapIdx_eq_none {timers : Timers} (linked : timers.Linked) {ent : Ptr}
    (undated : timers.deadline ent = none) : timers.heapIdx ent = none := by
  cases index : timers.heapIdx ent with
  | none => rfl
  | some i =>
      rcases linked.listed index with ⟨item, found, refIs⟩
      have dated := linked.deadline_eq_some_iff.mpr
        ⟨item, List.mem_of_getElem? found, refIs, rfl⟩
      rw [undated] at dated
      cases dated

theorem GData.Represents.empty : ({} : GData).Represents [] (fun _ => none) (fun _ => none) where
  keyed := Keyed.empty _ _
  hashed := by
    intro ent member
    cases member
  recorded := by
    intro ent member
    cases member
  absent := fun _ _ => ⟨rfl, rfl⟩
  linked := Timers.linked_empty
  undated := fun _ _ => rfl
  dated := by
    intro ent member
    cases member

section

variable {g : GData} {ents : List Ptr} {dict : Dict} {due : Bytes → Option UInt64}

theorem GData.Represents.eq_of_key (represents : g.Represents ents dict due) {ent other : Ptr}
    (member : ent ∈ ents) (otherMember : other ∈ ents)
    (same : (g.entry other).key = (g.entry ent).key) : other = ent :=
  List.inj_on_of_nodup_map represents.keyed.distinct otherMember member same

/-! ### Search -/

private theorem entryEq_iff {key : Bytes} {node : HNode Ptr} :
    entryEq g key node = true ↔ node.hcode = strHash key ∧ (g.entry node.owner).key = key := by
  rw [entryEq, Bool.and_eq_true, beq_iff_eq, beq_iff_eq]

theorem GData.Represents.decides (represents : g.Represents ents dict due) (key : Bytes) :
    Decides g.db (strHash key) (entryEq g key) (fun ent => (g.entry ent).key = key) := by
  have hashedAs : ∀ node ∈ g.db.nodes, (g.entry node.owner).key = key →
      node.hcode = strHash key := by
    intro node member same
    rw [represents.keyed.hashed node member, same]
  constructor
  · intro node member
    rw [entryEq_iff]
    exact ⟨And.right, fun same => ⟨hashedAs node member same, same⟩⟩
  · exact hashedAs

theorem GData.Represents.withDb (represents : g.Represents ents dict due) {db : HMap Ptr}
    (keyed : Keyed (fun ent => (g.entry ent).key) strHash db ents) :
    ({ g with db := db } : GData).Represents ents dict due :=
  ⟨keyed, represents.hashed, represents.recorded, represents.absent, represents.linked,
    represents.undated, represents.dated⟩

theorem GData.Represents.dbLookup_spec (represents : g.Represents ents dict due) (key : Bytes) :
    Meets (· = .spin)
      (fun result : GData × Option Ptr =>
        result.1.Represents ents dict due ∧ result.1.entry = g.entry ∧
          Sought ents (fun ent => (g.entry ent).key = key) result.2)
      (dbLookup g key) := by
  unfold dbLookup
  apply (represents.keyed.hmLookup_spec (represents.decides key) hmFuel).bind
  intro result searched
  exact ⟨represents.withDb searched.1, rfl, searched.2⟩

/-- The search for `key` never returns. -/
def GData.LookupSpins (g : GData) (key : Bytes) (fault : Fault) : Prop :=
  fault = .spin ∧ (HmCall.lookup (strHash key) (entryEq g key)).Diverges g.db

theorem GData.Represents.lookupSpins (represents : g.Represents ents dict due) {key : Bytes}
    {fault : Fault} (stopped : dbLookup g key = .error fault) : g.LookupSpins key fault := by
  refine ⟨(represents.dbLookup_spec key).of_error stopped, ?_⟩
  cases searched : hmLookup hmFuel g.db (strHash key) (entryEq g key) with
  | error other => exact represents.keyed.wellFormed.diverges searched
  | ok result =>
      unfold dbLookup at stopped
      rw [searched] at stopped
      cases stopped

/-- The rule for a handler that starts with a search. -/
theorem GData.Represents.lookup_meets {β : Type} {allowed : Fault → Prop} {post : β → Prop}
    {next : GData × Option Ptr → Except Fault β} (represents : g.Represents ents dict due)
    (key : Bytes) (spins : ∀ fault, g.LookupSpins key fault → allowed fault)
    (missing : ∀ after : GData, after.Represents ents dict due → after.entry = g.entry →
      (∀ ent ∈ ents, (after.entry ent).key ≠ key) → dict key = none →
      Meets allowed post (next (after, none)))
    (present : ∀ (after : GData) ent record, after.Represents ents dict due →
      after.entry = g.entry → ent ∈ ents → (after.entry ent).key = key →
      dict key = some record → (after.entry ent).Is record →
      Meets allowed post (next (after, some ent))) :
    Meets allowed post (dbLookup g key >>= next) := by
  have searched := represents.dbLookup_spec key
  cases returned : dbLookup g key with
  | error fault => exact spins fault (represents.lookupSpins returned)
  | ok result =>
      rcases result with ⟨after, answer⟩
      rcases searched.of_ok returned with ⟨afterRepresents, same, sought⟩
      rw [← same] at sought
      cases answer with
      | none =>
          exact missing after afterRepresents same sought (afterRepresents.absent key sought).1
      | some ent =>
          rcases sought with ⟨member, keyIs⟩
          rcases afterRepresents.recorded ent member with ⟨record, recorded, is⟩
          rw [keyIs] at recorded
          exact present after ent record afterRepresents same member keyIs recorded is

theorem GData.Represents.lookup_bind {β : Type} {allowed : Fault → Prop} {post : β → Prop}
    {next : GData × Option Ptr → Except Fault β} (represents : g.Represents ents dict due)
    (key : Bytes) (spins : allowed .spin)
    (missing : ∀ after : GData, after.Represents ents dict due → after.entry = g.entry →
      (∀ ent ∈ ents, (after.entry ent).key ≠ key) → dict key = none →
      Meets allowed post (next (after, none)))
    (present : ∀ (after : GData) ent record, after.Represents ents dict due →
      after.entry = g.entry → ent ∈ ents → (after.entry ent).key = key →
      dict key = some record → (after.entry ent).Is record →
      Meets allowed post (next (after, some ent))) :
    Meets allowed post (dbLookup g key >>= next) := by
  apply represents.lookup_meets key _ missing present
  intro fault spun
  rw [spun.1]
  exact spins

/-! ### A new record for an entry -/

/-- The entry keeps its key and gets the record `record`. -/
theorem GData.Represents.store (represents : g.Represents ents dict due) {ent : Ptr}
    (member : ent ∈ ents) (entry : Entry) (record : Record)
    (keyIs : entry.key = (g.entry ent).key) (hcodeIs : entry.hcode = (g.entry ent).hcode)
    (is : entry.Is record) :
    ({ g with entry := Function.update g.entry ent entry } : GData).Represents ents
      (Function.update dict (g.entry ent).key (some record)) due := by
  have keys : ∀ other, (Function.update g.entry ent entry other).key = (g.entry other).key := by
    intro other
    by_cases same : other = ent
    · rw [same, Function.update_self, keyIs]
    · rw [Function.update_of_ne same]
  refine ⟨?_, ?_, ?_, ?_, represents.linked, represents.undated, ?_⟩
  · exact represents.keyed.congr fun other _ => keys other
  · intro other otherMember
    change (Function.update g.entry ent entry other).hcode =
      strHash (Function.update g.entry ent entry other).key
    rw [keys]
    by_cases same : other = ent
    · rw [same, Function.update_self, hcodeIs]
      exact represents.hashed ent member
    · rw [Function.update_of_ne same]
      exact represents.hashed other otherMember
  · intro other otherMember
    change ∃ given, Function.update dict _ _ (Function.update g.entry ent entry other).key =
      some given ∧ (Function.update g.entry ent entry other).Is given
    rw [keys]
    by_cases same : other = ent
    · rw [same, Function.update_self, Function.update_self]
      exact ⟨record, rfl, is⟩
    · have apart : (g.entry other).key ≠ (g.entry ent).key :=
        fun equal => same (represents.eq_of_key member otherMember equal)
      rw [Function.update_of_ne apart, Function.update_of_ne same]
      exact represents.recorded other otherMember
  · intro key missing
    have before : ∀ other ∈ ents, (g.entry other).key ≠ key := by
      intro other otherMember
      rw [← keys]
      exact missing other otherMember
    rw [Function.update_of_ne (before ent member).symm]
    exact represents.absent key before
  · intro other otherMember
    change g.timers.deadline other = due (Function.update g.entry ent entry other).key
    rw [keys]
    exact represents.dated other otherMember

/-! ### A new entry -/

theorem GData.Represents.dbInsert_spec (represents : g.Represents ents dict due) {ent : Ptr}
    (fresh : ent ∉ ents) {entry : Entry} {record : Record}
    (missing : ∀ other ∈ ents, (g.entry other).key ≠ entry.key)
    (hashed : entry.hcode = strHash entry.key) (is : entry.Is record) :
    Meets (· = .spin)
      (fun after : GData =>
        after.Represents (ent :: ents) (Function.update dict entry.key (some record)) due ∧
          after.entry = Function.update g.entry ent entry)
      (dbInsert g ent entry) := by
  have others : ∀ other ∈ ents, Function.update g.entry ent entry other = g.entry other := by
    intro other member
    apply Function.update_of_ne
    intro same
    rw [same] at member
    exact fresh member
  have here : Function.update g.entry ent entry ent = entry := Function.update_self ..
  have keyed : Keyed (fun other => (Function.update g.entry ent entry other).key) strHash g.db
      ents := by
    apply represents.keyed.congr
    intro other member
    rw [others other member]
  have untimed : Function.update g.timers.heapIdx ent none = g.timers.heapIdx := by
    rw [← represents.linked.heapIdx_eq_none (represents.undated ent fresh),
      Function.update_eq_self]
  unfold dbInsert
  refine (keyed.hmInsert_spec { owner := ent, hcode := entry.hcode } ?_ ?_ hmFuel).bind ?_
  · rw [here]
    exact hashed
  · intro other member
    rw [others other member, here]
    exact missing other member
  · intro db keyedNew
    rw [untimed]
    refine ⟨⟨keyedNew, ?_, ?_, ?_, represents.linked, ?_, ?_⟩, rfl⟩
    · intro other member
      change (Function.update g.entry ent entry other).hcode =
        strHash (Function.update g.entry ent entry other).key
      rcases List.mem_cons.mp member with same | old
      · rw [same, here]
        exact hashed
      · rw [others other old]
        exact represents.hashed other old
    · intro other member
      change ∃ given, Function.update dict _ _ (Function.update g.entry ent entry other).key =
        some given ∧ (Function.update g.entry ent entry other).Is given
      rcases List.mem_cons.mp member with same | old
      · rw [same, here, Function.update_self]
        exact ⟨record, rfl, is⟩
      · rw [others other old, Function.update_of_ne (missing other old)]
        exact represents.recorded other old
    · intro key absent
      have apart := absent ent List.mem_cons_self
      change (Function.update g.entry ent entry ent).key ≠ key at apart
      rw [here] at apart
      rw [Function.update_of_ne apart.symm]
      apply represents.absent
      intro other member
      have otherApart := absent other (List.mem_cons_of_mem _ member)
      change (Function.update g.entry ent entry other).key ≠ key at otherApart
      rw [others other member] at otherApart
      exact otherApart
    · intro other outside
      exact represents.undated other fun member => outside (List.mem_cons_of_mem _ member)
    · intro other member
      change g.timers.deadline other = due (Function.update g.entry ent entry other).key
      rcases List.mem_cons.mp member with same | old
      · rw [same, here, represents.undated ent fresh, (represents.absent _ missing).2]
      · rw [others other old]
        exact represents.dated other old

/-! ### Removal -/

theorem Entry.Is.tooBig_spec {entry : Entry} {record : Record} (is : entry.Is record) :
    Meets (fun _ => False) (fun _ => True) (entryTooBig entry) := by
  unfold entryTooBig
  cases typeIs : entry.type with
  | str => trivial
  | zset =>
      rcases is.zset (is.type.symm.trans typeIs) with ⟨zset, nodes, zsetIs, _⟩
      rw [zsetIs]
      trivial

theorem GData.Represents.entryDel_spec (represents : g.Represents ents dict due) {ent : Ptr}
    (member : ent ∈ ents) {db : HMap Ptr}
    (keyed : Keyed (fun ent => (g.entry ent).key) strHash db (ents.erase ent)) :
    Meets (fun _ => False)
      (fun after : GData =>
        after.Represents (ents.erase ent) (Function.update dict (g.entry ent).key none)
            (Function.update due (g.entry ent).key none) ∧
          after.entry = g.entry ∧
          after.timers.deadline = Function.update g.timers.deadline ent none)
      (entryDel { g with db := db } ent) := by
  have nodup := represents.keyed.nodup
  have remains : ∀ other, other ∈ ents.erase ent ↔ other ≠ ent ∧ other ∈ ents :=
    fun other => nodup.mem_erase_iff
  have apart : ∀ other ∈ ents.erase ent, (g.entry other).key ≠ (g.entry ent).key := by
    intro other inside same
    rcases (remains other).mp inside with ⟨different, otherMember⟩
    exact different (represents.eq_of_key member otherMember same)
  rcases represents.recorded ent member with ⟨record, _, is⟩
  unfold entryDel
  apply (entrySetTtl_spec represents.linked ent (-1) 0).bind
  intro timers set
  apply is.tooBig_spec.bind
  intro tooBig _
  have deadline : timers.deadline = Function.update g.timers.deadline ent none := set.deadline
  refine ⟨⟨keyed, ?_, ?_, ?_, set.linked, ?_, ?_⟩, rfl, deadline⟩
  · intro other inside
    exact represents.hashed other ((remains other).mp inside).2
  · intro other inside
    change ∃ given, Function.update dict _ _ (g.entry other).key = some given ∧ _
    rw [Function.update_of_ne (apart other inside)]
    exact represents.recorded other ((remains other).mp inside).2
  · intro key missing
    by_cases same : key = (g.entry ent).key
    · rw [same, Function.update_self, Function.update_self]
      exact ⟨rfl, rfl⟩
    · rw [Function.update_of_ne same, Function.update_of_ne same]
      apply represents.absent
      intro other otherMember equal
      by_cases isEnt : other = ent
      · rw [isEnt] at equal
        exact same equal.symm
      · exact missing other ((remains other).mpr ⟨isEnt, otherMember⟩) equal
  · intro other outside
    change timers.deadline other = none
    rw [deadline]
    by_cases isEnt : other = ent
    · rw [isEnt, Function.update_self]
    · rw [Function.update_of_ne isEnt]
      apply represents.undated
      intro inside
      exact outside ((remains other).mpr ⟨isEnt, inside⟩)
  · intro other inside
    change timers.deadline other = Function.update due _ _ (g.entry other).key
    rw [deadline, Function.update_of_ne ((remains other).mp inside).1,
      Function.update_of_ne (apart other inside)]
    exact represents.dated other ((remains other).mp inside).2

end

end RedisC
