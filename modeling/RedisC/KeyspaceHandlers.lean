/-
The command handlers against a reference dictionary.

`Reference` says what each command does to a dictionary of records and what it
replies, without tables, entries or addresses.  Each handler gets one
specification: it follows the reference and writes the reply, or stops for a
reason that is named.
-/

import RedisC.KeyspaceInvariant
import RedisC.ZsetQuery

namespace RedisC

open Fallible

/-! ### The reference -/

namespace Reference

def get (dict : Dict) (key : Bytes) : Dict × Value :=
  match dict key with
  | none => (dict, .nil)
  | some record => (dict, .str record.val)

def set (dict : Dict) (key val : Bytes) : Dict × Value :=
  match dict key with
  | none => (Function.update dict key (some { val := val }), .nil)
  | some record => (Function.update dict key (some { record with val := val }), .nil)

def del (dict : Dict) (key : Bytes) : Dict × Value :=
  match dict key with
  | none => (dict, .int 0)
  | some _ => (Function.update dict key none, .int 1)

/-- A score that compares equal to the old one leaves the old one, so that `+0` does
not replace `-0`. -/
def addMember (record : Record) (name : Bytes) (score : Score) : Record :=
  { record with
    members := Function.update record.members name
      (some (keepScore (record.members name) score)) }

def zadd (strtod : Strtod) (dict : Dict) (key score name : Bytes) : Dict × Value :=
  match str2double strtod score with
  | none => (dict, .err errArg (ascii "expected fp number"))
  | some score =>
      match dict key with
      | none => (Function.update dict key (some (addMember { type := .zset } name score)), .int 1)
      | some record =>
          if record.type = .str then (dict, .err errType (ascii "expecting zset"))
          else
            (Function.update dict key (some (addMember record name score)),
              .int (if (record.members name).isNone then 1 else 0))

def zrem (dict : Dict) (key name : Bytes) : Dict × Value :=
  match dict key with
  | none => (dict, .nil)
  | some record =>
      if record.type = .str then (dict, .err errType (ascii "expecting zset"))
      else
        (Function.update dict key
            (some { record with members := Function.update record.members name none }),
          .int (if (record.members name).isSome then 1 else 0))

def zscore (dict : Dict) (key name : Bytes) : Dict × Value :=
  match dict key with
  | none => (dict, .nil)
  | some record =>
      if record.type = .str then (dict, .err errType (ascii "expecting zset"))
      else
        match record.members name with
        | none => (dict, .nil)
        | some score => (dict, .dbl score.value)

end Reference

/-! ### Handlers -/

section

variable {g : GData} {ents : List Ptr} {dict : Dict} {due : Bytes → Option UInt64}

/-- A handler has brought the keyspace to `dict` and `due` and written `value`. -/
structure Replies (dict : Dict) (due : Bytes → Option UInt64) (out : Bytes) (value : Value)
    (result : GData × Bytes) : Prop where
  represents : ∃ ents, result.1.Represents ents dict due
  written : result.2 = out ++ value.encode

theorem doGet_spec (represents : g.Represents ents dict due) (key out : Bytes) :
    Meets
      (fun fault => fault = .spin ∨ (fault = .assertion .doGet ∧
        ∃ record, dict key = some record ∧ kMaxMsg < record.val.length))
      (Replies (Reference.get dict key).1 due out (Reference.get dict key).2)
      (doGet g key out) := by
  unfold doGet Reference.get
  apply represents.lookup_bind key
  · exact .inl rfl
  · intro after afterRepresents _ _ missing
    simp only [missing]
    exact ⟨⟨ents, afterRepresents⟩, outNil_eq out⟩
  · intro after ent record afterRepresents _ _ _ found is
    simp only [found]
    by_cases short : (after.entry ent).val.length ≤ kMaxMsg
    · rw [if_pos short, is.val]
      exact ⟨⟨ents, afterRepresents⟩, outStr_eq out record.val⟩
    · rw [if_neg short]
      rw [is.val] at short
      exact .inr ⟨rfl, record, rfl, Nat.lt_of_not_le short⟩

theorem doSet_spec (represents : g.Represents ents dict due) {alloc : Alloc}
    (fresh : alloc.Fresh g.entry ents) (key val out : Bytes) :
    Meets (· = .spin)
      (Replies (Reference.set dict key val).1 due out (Reference.set dict key val).2)
      (doSet g alloc key val out) := by
  unfold doSet Reference.set
  apply represents.lookup_bind key
  · rfl
  · intro after afterRepresents _ absent missing
    simp only [missing]
    have is : ({ hcode := strHash key, key := key, val := val } : Entry).Is { val := val } :=
      ⟨rfl, rfl, fun contrary => by cases contrary⟩
    apply (afterRepresents.dbInsert_spec fresh.newEntry absent rfl is).bind
    intro inserted stored
    exact ⟨⟨_, stored.1⟩, outNil_eq out⟩
  · intro after ent record afterRepresents _ member keyIs found is
    simp only [found]
    have stored := afterRepresents.store member { after.entry ent with val := val }
      { record with val := val } rfl rfl ⟨is.type, rfl, is.zset⟩
    rw [keyIs] at stored
    exact ⟨⟨_, stored⟩, outNil_eq out⟩

theorem doDel_spec (represents : g.Represents ents dict due) (key out : Bytes) :
    Meets (· = .spin)
      (Replies (Reference.del dict key).1 (Function.update due key none) out
        (Reference.del dict key).2)
      (doDel g key out) := by
  unfold doDel Reference.del
  apply (represents.keyed.hmPop_spec (represents.decides key) hmFuel).bind
  intro result popped
  rcases result with ⟨db, answer⟩
  rcases popped with ⟨sought, keyed⟩
  cases answer with
  | none =>
      have missing := represents.absent key sought
      simp only [missing.1]
      rw [← missing.2, Function.update_eq_self]
      exact ⟨⟨ents, represents.withDb keyed⟩, outInt_eq out 0⟩
  | some node =>
      rcases sought with ⟨member, keyIs⟩
      rcases represents.recorded node.owner member with ⟨record, found, _⟩
      rw [keyIs] at found
      simp only [found]
      apply ((represents.entryDel_spec member keyed).widen fun _ => False.elim).bind
      intro after deleted
      have remaining := deleted.1
      rw [keyIs] at remaining
      exact ⟨⟨_, remaining⟩, outInt_eq out 1⟩

/-! The array of `do_keys` -/

private theorem foldl_cbScan (nodes : List (HNode Ptr)) (out : Bytes) :
    nodes.foldl (cbScan g) out =
      out ++ Value.encodeAll (nodes.map fun node => .str (g.entry node.owner).key) := by
  induction nodes generalizing out with
  | nil => exact (List.append_nil out).symm
  | cons node rest ih =>
      rw [List.foldl_cons, ih, cbScan, outStr_eq, List.append_assoc, List.map_cons,
        Value.encodeAll]

/-- `keys` is a list without repetition of the keys of the dictionary. -/
structure Lists (dict : Dict) (keys : List Bytes) : Prop where
  nodup : keys.Nodup
  exactly : ∀ key, key ∈ keys ↔ (dict key).isSome = true

theorem GData.Represents.lists (represents : g.Represents ents dict due) :
    Lists dict (g.db.nodes.map fun node => (g.entry node.owner).key) := by
  have perm : (g.db.nodes.map fun node => (g.entry node.owner).key).Perm
      (ents.map fun ent => (g.entry ent).key) := by
    have mapped := represents.keyed.nodes_perm.map fun ent => (g.entry ent).key
    rw [List.map_map] at mapped
    exact mapped
  constructor
  · exact perm.nodup_iff.mpr represents.keyed.distinct
  · intro key
    rw [perm.mem_iff, List.mem_map]
    constructor
    · intro listed
      rcases listed with ⟨ent, member, keyIs⟩
      rcases represents.recorded ent member with ⟨record, found, _⟩
      rw [← keyIs, found]
      rfl
    · intro present
      by_contra unlisted
      have missing := represents.absent key fun ent member keyIs => unlisted ⟨ent, member, keyIs⟩
      rw [missing.1] at present
      cases present

theorem doKeys_spec (represents : g.Represents ents dict due) (out : Bytes) :
    Meets (fun _ => False)
      (fun result => ∃ keys, Lists dict keys ∧
        Replies dict due out (.arr (keys.map .str)) result)
      (doKeys g out) := by
  refine ⟨_, represents.lists, ⟨ents, represents⟩, ?_⟩
  have form := represents.keyed.wellFormed
  have count : hmSize g.db = g.db.nodes.length := by
    rw [represents.keyed.size, ← represents.keyed.nodes_perm.length_eq, List.length_map]
  change hScan g.db.htFrom (cbScan g) (hScan g.db.htTo (cbScan g)
    (outArr out (UInt32.ofNat (hmSize g.db)))) = _
  rw [form.htTo.hScan_eq, form.htFrom.hScan_eq, ← List.foldl_append, foldl_cbScan, outArr_eq,
    count, Value.encode, List.length_map, List.length_map, List.map_map, List.append_assoc]
  rfl

/-! Sorted sets -/

theorem GData.Represents.setZset (represents : g.Represents ents dict due) {ent : Ptr}
    (member : ent ∈ ents) {record : Record} (is : (g.entry ent).Is record) {zset : ZSet}
    {nodes : List Ptr} {members : Bytes → Option Score}
    (zsetRepresents : zset.Represents nodes members) :
    (setZset g ent zset).Represents ents
      (Function.update dict (g.entry ent).key (some { record with members := members })) due :=
  represents.store member { g.entry ent with zset := some zset }
    { record with members := members } rfl rfl
    ⟨is.type, is.val, fun _ => ⟨zset, nodes, rfl, zsetRepresents⟩⟩

theorem zaddEntry_spec (represents : g.Represents ents dict due) {ent : Ptr}
    (member : ent ∈ ents) {record : Record} (is : (g.entry ent).Is record)
    (type : record.type = .zset) {alloc : Alloc}
    (fresh : ∀ zset, (g.entry ent).zset = some zset →
      ∀ node ∈ zset.hmap.nodes, node.owner ≠ alloc.znode)
    (score : Score) (name out : Bytes) :
    Meets (· = .spin)
      (Replies
        (Function.update dict (g.entry ent).key (some (Reference.addMember record name score)))
        due out (.int (if (record.members name).isNone then 1 else 0)))
      (zaddEntry g alloc ent score name out) := by
  rcases is.zset type with ⟨zset, nodes, zsetIs, zsetRepresents⟩
  have away : alloc.znode ∉ nodes := by
    intro inside
    rcases zsetRepresents.holds.keyed.exists_node inside with ⟨node, inMap, owner⟩
    exact fresh zset zsetIs node inMap owner
  unfold zaddEntry
  rw [zsetIs]
  apply (zsetRepresents.zsetAdd_spec away name score).bind
  intro result added
  rcases added with ⟨nodesNew, added⟩
  rw [← added.answer]
  exact ⟨⟨ents, represents.setZset member is added.represents⟩, outInt_eq out _⟩

theorem ZSet.Represents.empty : ({} : ZSet).Represents [] (fun _ => none) := by
  refine ⟨ZSet.Holds.empty, ?_⟩
  intro name score
  constructor
  · intro found
    cases found
  · intro found
    rcases found with ⟨node, member, _⟩
    cases member

theorem doZadd_spec (strtod : Strtod) (represents : g.Represents ents dict due)
    {alloc : Alloc} (fresh : alloc.Fresh g.entry ents) (key score name out : Bytes) :
    Meets (· = .spin)
      (Replies (Reference.zadd strtod dict key score name).1 due out
        (Reference.zadd strtod dict key score name).2)
      (doZadd strtod g alloc key score name out) := by
  unfold doZadd Reference.zadd
  cases str2double strtod score with
  | none => exact ⟨⟨ents, represents⟩, outErr_eq out _ _⟩
  | some score =>
      apply represents.lookup_bind key
      · rfl
      · intro after afterRepresents _ absent missing
        simp only [missing]
        have is : ({ hcode := strHash key, key := key, type := .zset, zset := some {} } :
            Entry).Is { type := .zset } :=
          ⟨rfl, rfl, fun _ => ⟨{}, [], rfl, ZSet.Represents.empty⟩⟩
        apply (afterRepresents.dbInsert_spec fresh.newEntry absent rfl is).bind
        intro inserted stored
        have here : inserted.entry alloc.entry =
            { hcode := strHash key, key := key, type := .zset, zset := some {} } := by
          rw [stored.2, Function.update_self]
        rw [← here] at is
        have unused : ∀ zset, (inserted.entry alloc.entry).zset = some zset →
            ∀ node ∈ zset.hmap.nodes, node.owner ≠ alloc.znode := by
          intro zset zsetIs node inMap
          rw [here] at zsetIs
          cases zsetIs
          cases inMap
        have added := zaddEntry_spec stored.1 List.mem_cons_self is rfl unused score name out
        rw [here, Function.update_idem] at added
        exact added
      · intro after ent record afterRepresents same member keyIs found is
        simp only [found]
        cases type : record.type with
        | str =>
            have mismatch : (after.entry ent).type ≠ .zset := by
              rw [is.type, type]
              decide
            rw [if_pos rfl, if_pos mismatch]
            exact ⟨⟨ents, afterRepresents⟩, outErr_eq out _ _⟩
        | zset =>
            rw [if_neg (fun contrary => by cases contrary),
              if_neg (not_not.mpr (is.type.trans type)), ← keyIs]
            apply zaddEntry_spec afterRepresents member is type
            rw [same]
            exact fresh.newZnode ent member

/-- The rule for a handler that starts with `expect_zset`. -/
theorem GData.Represents.expect_bind {β : Type} {allowed : Fault → Prop} {post : β → Prop}
    {next : GData × Bytes × Option (Ptr × ZSet) → Except Fault β}
    (represents : g.Represents ents dict due) (key out : Bytes) (spins : allowed .spin)
    (missing : ∀ after : GData, after.Represents ents dict due → dict key = none →
      Meets allowed post (next (after, outNil out, none)))
    (wrong : ∀ (after : GData) record, after.Represents ents dict due →
      dict key = some record → record.type = .str →
      Meets allowed post (next (after, outErr out errType "expecting zset", none)))
    (present : ∀ (after : GData) ent record zset nodes, after.Represents ents dict due →
      ent ∈ ents → (after.entry ent).key = key → dict key = some record →
      record.type = .zset → (after.entry ent).Is record →
      ZSet.Represents zset nodes record.members →
      Meets allowed post (next (after, out, some (ent, zset)))) :
    Meets allowed post (expectZset g key out >>= next) := by
  unfold expectZset
  rw [bind_assoc]
  apply represents.lookup_bind key spins
  · intro after afterRepresents _ _ absent
    exact missing after afterRepresents absent
  · intro after ent record afterRepresents _ member keyIs found is
    cases type : record.type with
    | str =>
        simp only [is.type.trans type]
        exact wrong after record afterRepresents found type
    | zset =>
        rcases is.zset type with ⟨zset, nodes, zsetIs, zsetRepresents⟩
        simp only [is.type.trans type, zsetIs]
        exact present after ent record zset nodes afterRepresents member keyIs found type is
          zsetRepresents

theorem doZrem_spec (represents : g.Represents ents dict due) (key name out : Bytes) :
    Meets (· = .spin)
      (Replies (Reference.zrem dict key name).1 due out (Reference.zrem dict key name).2)
      (doZrem g key name out) := by
  unfold doZrem Reference.zrem
  apply represents.expect_bind key out
  · rfl
  · intro after afterRepresents absent
    simp only [absent]
    exact ⟨⟨ents, afterRepresents⟩, outNil_eq out⟩
  · intro after record afterRepresents found type
    simp only [found, if_pos type]
    exact ⟨⟨ents, afterRepresents⟩, outErr_eq out _ _⟩
  · intro after ent record zset nodes afterRepresents member keyIs found type is zsetRepresents
    have isZset : record.type ≠ .str := by
      rw [type]
      decide
    simp only [found, if_neg isZset]
    apply (zsetRepresents.zsetPop_spec name).bind
    intro result popped
    rcases popped with ⟨nodesNew, popped⟩
    have stored := afterRepresents.setZset member is popped.represents
    have answer : (record.members name).isSome = result.2.isSome := by
      rw [zsetRepresents.scores.sought popped.sought, Option.isSome_map]
    rw [answer]
    rw [keyIs] at stored
    exact ⟨⟨ents, stored⟩, outInt_eq out _⟩

theorem doZscore_spec (represents : g.Represents ents dict due) (key name out : Bytes) :
    Meets (· = .spin)
      (Replies (Reference.zscore dict key name).1 due out (Reference.zscore dict key name).2)
      (doZscore g key name out) := by
  unfold doZscore Reference.zscore
  apply represents.expect_bind key out
  · rfl
  · intro after afterRepresents absent
    simp only [absent]
    exact ⟨⟨ents, afterRepresents⟩, outNil_eq out⟩
  · intro after record afterRepresents found type
    simp only [found, if_pos type]
    exact ⟨⟨ents, afterRepresents⟩, outErr_eq out _ _⟩
  · intro after ent record zset nodes afterRepresents member keyIs found type is zsetRepresents
    have isZset : record.type ≠ .str := by
      rw [type]
      decide
    simp only [found, if_neg isZset]
    apply (zsetRepresents.holds.zsetLookup_spec name).bind
    intro result searched
    rcases result with ⟨searchedZset, answer⟩
    rcases searched with ⟨⟨hmap, searchedIs⟩, holds, sought⟩
    simp only at searchedIs holds sought
    have given := zsetRepresents.scores.sought sought
    have kept : searchedZset.Represents nodes record.members := by
      refine ⟨holds, ?_⟩
      rw [searchedIs]
      exact zsetRepresents.scores
    have stored := afterRepresents.setZset member is kept
    rw [keyIs, ← found, Function.update_eq_self] at stored
    cases answer with
    | none =>
        simp only [given, Option.map_none]
        exact ⟨⟨ents, stored⟩, outNil_eq out⟩
    | some znode =>
        simp only [given, Option.map_some, searchedIs]
        rw [searchedIs] at stored
        exact ⟨⟨ents, stored⟩, outDouble_eq out _⟩

/-- The members do not fit in `2 ^ 32 - 1` names. -/
def Record.Huge (record : Record) : Prop :=
  ∀ names : List Bytes, (∀ name, (record.members name).isSome = true → name ∈ names) →
    2 ^ 32 ≤ names.length

theorem ZSet.Represents.few_of_not_huge {record : Record} {zset : ZSet} {nodes : List Ptr}
    (represents : zset.Represents nodes record.members) (notHuge : ¬record.Huge) :
    nodes.length < 2 ^ 32 := by
  unfold Record.Huge at notHuge
  push Not at notHuge
  rcases notHuge with ⟨names, covers, few⟩
  apply Nat.lt_of_le_of_lt _ few
  rw [← List.length_map fun node => (zset.znode node).name]
  apply (List.subperm_of_subset represents.holds.keyed.distinct _).length_le
  intro name listed
  rcases List.mem_map.mp listed with ⟨node, member, nameIs⟩
  apply covers
  rw [(represents.scores name _).mpr ⟨node, member, nameIs, rfl⟩]
  rfl

theorem doZquery_spec (strtod : Strtod) (represents : g.Represents ents dict due)
    (key score name offset limit : Bytes) :
    Meets (fun fault => fault = .spin ∨ ∃ record, dict key = some record ∧ record.Huge)
      (fun result => ∃ value, Replies dict due [] value result)
      (doZquery strtod g key score name offset limit []) := by
  unfold doZquery
  split
  · exact ⟨_, ⟨ents, represents⟩, outErr_eq [] _ _⟩
  · exact ⟨_, ⟨ents, represents⟩, outErr_eq [] _ _⟩
  · exact ⟨_, ⟨ents, represents⟩, outErr_eq [] _ _⟩
  · rename_i score offset limit _ _ _
    apply represents.expect_bind key []
    · exact .inl rfl
    · intro after afterRepresents absent
      exact ⟨.arr [], ⟨ents, afterRepresents⟩, outArr_zero⟩
    · intro after record afterRepresents found type
      exact ⟨_, ⟨ents, afterRepresents⟩, outErr_eq [] _ _⟩
    · intro after ent record zset nodes afterRepresents member keyIs found type is zsetRepresents
      have writes := zqueryEntry_writes zset score name offset limit
      have walked : Meets (fun fault => fault = .spin ∨ ∃ record, dict key = some record ∧
          record.Huge) (fun result => ∃ elements, result = (Value.arr elements).encode)
          (zqueryEntry zset score name offset limit []) := by
        by_cases huge : record.Huge
        · exact writes.widen fun _ _ => .inr ⟨record, found, huge⟩
        · have few := zsetRepresents.few_of_not_huge huge
          have returns := zsetRepresents.holds.zqueryEntry_returns few score name offset limit
          exact ((returns.and_of_ok writes).mono fun _ => And.right).widen fun _ => False.elim
      apply walked.bind
      intro out written
      rcases written with ⟨elements, written⟩
      exact ⟨.arr elements, ⟨ents, afterRepresents⟩, written⟩

end

end RedisC
