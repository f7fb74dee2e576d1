/-
What has been stored can be read back.

A value or the name of a member has come in a request of at most `K_MAX_MSG` bytes,
and the other parts of that request take more room than the other parts of the
reply that returns it: for a member by one byte.

The walk of a `zquery` is followed here without the counts of the tree, which wrap
in large sets: it never leaves the nodes of the tree, whatever the counts are.
-/

import RedisC.ServeRuns
import RedisC.ZsetSlice

namespace RedisC

open BalancedTree Fallible LabelledRun

/-! ### The walk stays in the tree -/

structure Enclosed (mem : AvlMem) (nodes : List Ptr) : Prop where
  left : ∀ node ∈ nodes, ∀ other, (mem node).left = some other → other ∈ nodes
  right : ∀ node ∈ nodes, ∀ other, (mem node).right = some other → other ∈ nodes
  parent : ∀ node ∈ nodes, ∀ other, (mem node).parent = some other → other ∈ nodes

theorem Linked.enclosed {mem : AvlMem} {tree : BinaryTree Ptr} {parent : Option Ptr}
    {around : List Ptr} (linked : Linked mem parent tree) (inside : inorder tree ⊆ around)
    (above : ∀ other, parent = some other → other ∈ around) :
    ∀ node ∈ inorder tree, ∀ other,
      ((mem node).left = some other ∨ (mem node).right = some other ∨
        (mem node).parent = some other) → other ∈ around := by
  induction tree generalizing parent with
  | nil =>
      intro node member
      cases member
  | node value left right leftIh rightIh =>
      obtain ⟨wired, _, leftLinked, rightLinked⟩ := linked
      have leftInside : inorder left ⊆ around :=
        fun node member => inside (List.mem_append_left _ member)
      have rightInside : inorder right ⊆ around :=
        fun node member => inside (List.mem_append_right _ (List.mem_cons_of_mem _ member))
      have valueInside : ∀ other, some value = some other → other ∈ around := by
        intro other same
        cases same
        exact inside (List.mem_append_right _ List.mem_cons_self)
      intro node member other pointer
      rcases List.mem_append.mp member with inLeft | rest
      · exact leftIh leftLinked leftInside valueInside node inLeft other pointer
      · rcases List.mem_cons.mp rest with here | inRight
        · subst here
          rcases pointer with toLeft | toRight | toParent
          · exact leftInside (rootPtr_mem (wired.left.symm.trans toLeft))
          · exact rightInside (rootPtr_mem (wired.right.symm.trans toRight))
          · exact above other (wired.parent.symm.trans toParent)
        · exact rightIh rightLinked rightInside valueInside node inRight other pointer

theorem AvlTree.enclosed {mem : AvlMem} {root : Option Ptr} {nodes : List Ptr}
    (stored : AvlTree mem root nodes) : Enclosed mem nodes := by
  obtain ⟨tree, _, linked, _, rfl⟩ := stored
  have all := linked.enclosed (List.Subset.refl _) (fun _ contrary => by cases contrary)
  exact ⟨fun node member other pointer => all node member other (.inl pointer),
    fun node member other pointer => all node member other (.inr (.inl pointer)),
    fun node member other pointer => all node member other (.inr (.inr pointer))⟩

section

variable {mem : AvlMem} {nodes : List Ptr} {zset : ZSet}

def Within (nodes : List Ptr) (answer : Option Ptr) : Prop :=
  ∀ node, answer = some node → node ∈ nodes

private theorem within_none : Within nodes none := fun _ contrary => by cases contrary

theorem Enclosed.avlOffsetLoop_within (enclosed : Enclosed mem nodes) (offset : Int)
    (fuel : Nat) {node : Ptr} (member : node ∈ nodes) (pos : Int) :
    Meets (fun _ => True) (Within nodes) (avlOffsetLoop mem offset fuel node pos) := by
  induction fuel generalizing node pos with
  | zero => trivial
  | succ fuel ih =>
      rw [avlOffsetLoop]
      split
      · intro other same
        cases same
        exact member
      · split
        · cases right : (mem node).right with
          | none => trivial
          | some next => exact ih (enclosed.right node member next right) _
        · split
          · cases left : (mem node).left with
            | none => trivial
            | some next => exact ih (enclosed.left node member next left) _
          · cases parent : (mem node).parent with
            | none => exact within_none
            | some next =>
                have inside := enclosed.parent node member next parent
                simp only
                split
                · exact ih inside _
                · exact ih inside _

theorem Enclosed.zsetSeek_within (enclosed : Enclosed zset.avl nodes) (score : Score)
    (name : Bytes) (fuel : Nat) {found curr : Option Ptr} (foundIn : Within nodes found)
    (currIn : Within nodes curr) :
    Meets (fun _ => True) (Within nodes) (zsetSeek zset score name fuel found curr) := by
  induction fuel generalizing found curr with
  | zero => trivial
  | succ fuel ih =>
      cases curr with
      | none => exact foundIn
      | some curr =>
          have member := currIn curr rfl
          rw [zsetSeek]
          split
          · exact ih foundIn (enclosed.right curr member)
          · exact ih currIn (enclosed.left curr member)

theorem ZSet.Holds.zsetQuery_within (holds : zset.Holds nodes) (score : Score) (name : Bytes)
    (offset : Int) :
    Meets (fun _ => True) (Within nodes) (zsetQuery zset score name offset) := by
  have enclosed := holds.tree.enclosed
  have root : Within nodes zset.tree := by
    obtain ⟨tree, rootIs, _, _, rfl⟩ := holds.tree
    rw [← rootIs]
    exact fun node => rootPtr_mem
  unfold zsetQuery
  apply (enclosed.zsetSeek_within score name avlFuel within_none root).bind
  intro found foundIn
  cases found with
  | none => exact within_none
  | some start => exact enclosed.avlOffsetLoop_within offset avlFuel (foundIn start rfl) 0

theorem ZSet.Holds.zqueryLoop_within (holds : zset.Holds nodes) (limit : Int) (fuel : Nat)
    {curr : Option Ptr} (currIn : Within nodes curr) (n : UInt32) (out : Bytes) :
    Meets (fun _ => True)
      (fun result => ∃ part : List Ptr, part ⊆ nodes ∧
        Counts out n (shownAll zset.znode part) result)
      (zqueryLoop zset limit fuel curr n out) := by
  induction fuel generalizing curr n out with
  | zero => trivial
  | succ fuel ih =>
      cases curr with
      | none =>
          exact ⟨[], List.nil_subset _, (List.append_nil out).symm, (UInt32.add_zero n).symm⟩
      | some znode =>
          have member := currIn znode rfl
          rw [zqueryLoop]
          split
          · simp only [outStr_outDouble]
            have walked := holds.tree.enclosed.avlOffsetLoop_within 1 avlFuel member 0
            apply Meets.bind walked
            intro next nextIn
            apply (ih nextIn (n + 2) _).mono
            intro result counts
            obtain ⟨part, inside, written, counted⟩ := counts
            refine ⟨znode :: part, List.cons_subset.mpr ⟨member, inside⟩, ?_, ?_⟩
            · rw [written, shownAll_cons, encodeAll_append, List.append_assoc]
            · rw [counted, shownAll_cons, List.length_append, UInt32.ofNat_add,
                ← UInt32.add_assoc]
              rfl
          · exact ⟨[], List.nil_subset _, (List.append_nil out).symm, (UInt32.add_zero n).symm⟩

theorem ZSet.Holds.zqueryEntry_within (holds : zset.Holds nodes) (score : Score) (name : Bytes)
    (offset limit : Int) :
    Meets (fun _ => True)
      (fun reply => ∃ part : List Ptr, part ⊆ nodes ∧
        reply = (Value.arr (shownAll zset.znode part)).encode)
      (zqueryEntry zset score name offset limit []) := by
  unfold zqueryEntry
  split
  · exact ⟨[], List.nil_subset _, outArr_zero⟩
  · apply (holds.zsetQuery_within score name offset).bind
    intro start startIn
    apply (holds.zqueryLoop_within limit avlFuel startIn 0 (outArr [] 0)).bind
    intro result counts
    obtain ⟨part, inside, counts⟩ := counts
    exact meets_of_eq_ok counts.outUpdateArr_eq ⟨part, inside, rfl⟩

end

/-! ### The room in a request -/

/-- The longest value of a `set`: the count, three lengths and the command word are in the
request as well. -/
def valRoom : Nat := kMaxMsg - (4 + (4 + 3) + 4 + 4)

/-- The longest name of a `zadd`, with an empty key and an empty score. -/
def nameRoom : Nat := kMaxMsg - (4 + (4 + 4) + 4 + 4 + 4)

structure Record.Storable (record : Record) : Prop where
  val : record.val.length ≤ valRoom
  members : ∀ name score, record.members name = some score → name.length ≤ nameRoom

theorem Record.storable_new (type : EntryType) : ({ type := type } : Record).Storable :=
  ⟨Nat.zero_le _, fun _ _ contrary => by cases contrary⟩

private theorem length_cmdIs {word : Bytes} {cmd : String} (isCmd : cmdIs word cmd = true) :
    (ascii cmd).length ≤ word.length := by
  rw [cmdIs, beq_iff_eq] at isCmd
  have lengths := congrArg List.length isCmd
  rw [List.length_map, List.length_map] at lengths
  rw [← lengths]
  exact (List.takeWhile_prefix _).length_le

private theorem length_args {body : Bytes} {cmd : List Bytes} (short : body.length ≤ kMaxMsg)
    (parsed : parseReq body = .ok (0, cmd)) : 4 + (encodeArgs cmd).length ≤ kMaxMsg := by
  have small : body.length < 2 ^ 32 := Nat.lt_of_le_of_lt short (by decide)
  obtain ⟨_, _, same⟩ := (parseReq_eq_ok_iff small cmd).mp parsed
  rw [same, encodeReq, List.length_append, length_bytesU32] at short
  exact short

private theorem set_room {body word key val : Bytes} (short : body.length ≤ kMaxMsg)
    (parsed : parseReq body = .ok (0, [word, key, val])) (isSet : cmdIs word "set" = true) :
    val.length ≤ valRoom := by
  have args := length_args short parsed
  have words : 3 ≤ word.length := length_cmdIs isSet
  simp only [length_encodeArgs_cons] at args
  unfold valRoom
  omega

private theorem zadd_room {body word key score name : Bytes} (short : body.length ≤ kMaxMsg)
    (parsed : parseReq body = .ok (0, [word, key, score, name]))
    (isZadd : cmdIs word "zadd" = true) : name.length ≤ nameRoom := by
  have args := length_args short parsed
  have words : 4 ≤ word.length := length_cmdIs isZadd
  simp only [length_encodeArgs_cons] at args
  unfold nameRoom
  omega

private theorem storable_kept (strtod : Strtod) : KeptByRequests strtod Record.Storable := by
  intro dict body cmd key record short parsed records origin
  cases origin with
  | kept _ found => exact records key record found
  | @set word val old isSet source is =>
      have oldStorable : old.Storable := by
        rcases source with present | created
        · exact records key old present
        · rw [created.2]
          exact Record.storable_new .str
      rw [is]
      exact ⟨set_room short parsed isSet, oldStorable.members⟩
  | @zadd word _ name score old isZadd _ source is =>
      have oldStorable : old.Storable := by
        rcases source with present | created
        · exact records key old present.1
        · rw [created.2]
          exact Record.storable_new .zset
      rw [is]
      refine ⟨oldStorable.val, ?_⟩
      intro other given found
      rcases PartialMap.update_eq_some found with new | kept
      · rw [new.1]
        exact zadd_room short parsed isZadd
      · exact oldStorable.members other given kept.2
  | @zrem _ name old _ found _ is =>
      have oldStorable := records key old found
      rw [is]
      refine ⟨oldStorable.val, ?_⟩
      intro other given present
      exact oldStorable.members other given (PartialMap.eq_some_of_update_none present)

/-! ### The room in a reply -/

private theorem length_encode_str (text : Bytes) :
    (Value.str text).encode.length = 5 + text.length % 2 ^ 32 := by
  rw [Value.encode, List.length_cons, List.length_append, length_bytesU32, length_take_mod]
  omega

private theorem length_encode_tuple (member : Bytes) (value : Double) :
    (Value.arr [.str member, .dbl value]).encode.length = 19 + member.length % 2 ^ 32 := by
  simp only [Value.encode, Value.encodeAll, arrHeader, List.length_append, List.length_cons,
    List.length_nil, length_bytesU32, length_bytesU64, length_take_mod]
  omega

private theorem packReply_eq {out : Bytes} (short : 4 + out.length ≤ kMaxMsg) :
    packReply out = out :=
  if_neg (Nat.not_lt.mpr short)

private theorem length_of_encode_str {left right more rest : Bytes}
    (same : (Value.str left).encode ++ more = (Value.str right).encode ++ rest) :
    left.length % 2 ^ 32 = right.length % 2 ^ 32 := by
  rw [Value.encode, Value.encode, List.cons_append, List.cons_append, List.append_assoc,
    List.append_assoc] at same
  have words := (List.append_inj (List.cons.inj same).2 (by simp)).1
  have lengths := congrArg UInt32.toNat (bytesU32_inj words)
  rw [UInt32.toNat_ofNat', UInt32.toNat_ofNat'] at lengths
  exact lengths

/-- A reply that reads as one tuple is as long as the first name that was written. -/
private theorem length_shownAll_tuple {znode : Ptr → ZNode} {part : List Ptr} {member : Bytes}
    {value : Double} {bound : Nat} (short : ∀ node ∈ part, (znode node).name.length ≤ bound)
    (same : (Value.arr (shownAll znode part)).encode =
      (Value.arr [.str member, .dbl value]).encode) :
    (Value.arr (shownAll znode part)).encode.length ≤ 19 + bound := by
  have tuple := length_encode_tuple member value
  rw [← same] at tuple
  rw [Value.encode, Value.encode] at same
  have elements := (List.append_inj same (by simp [arrHeader])).2
  cases part with
  | nil => cases elements
  | cons node rest =>
      have sizes : (znode node).name.length % 2 ^ 32 = member.length % 2 ^ 32 := by
        rw [shownAll_cons, encodeAll_append, ZNode.shown, Value.encodeAll, List.append_assoc,
          Value.encodeAll] at elements
        exact length_of_encode_str elements
      have named := short node List.mem_cons_self
      have cut := Nat.mod_le (znode node).name.length (2 ^ 32)
      omega

section

variable {g : GData} {ents : List Ptr} {dict : Dict} {due : Bytes → Option UInt64}

private theorem length_get_le (storable : EachRecord Record.Storable dict) (key : Bytes) :
    4 + (Reference.get dict key).2.encode.length ≤ kMaxMsg := by
  unfold Reference.get
  cases found : dict key with
  | none =>
      change 4 + Value.nil.encode.length ≤ kMaxMsg
      decide
  | some record =>
      have bound := (storable key record found).val
      have cut := Nat.mod_le record.val.length (2 ^ 32)
      change 4 + (Value.str record.val).encode.length ≤ kMaxMsg
      rw [length_encode_str]
      unfold valRoom kMaxMsg at *
      omega

private theorem doZquery_tuple_fits (strtod : Strtod) (represents : g.Represents ents dict due)
    (storable : EachRecord Record.Storable dict) (key score name offset limit : Bytes) :
    Meets (fun _ => True)
      (fun result : GData × Bytes => ∀ member value,
        result.2 = (Value.arr [.str member, .dbl value]).encode → 4 + result.2.length ≤ kMaxMsg)
      (doZquery strtod g key score name offset limit []) := by
  have noNumber : 4 + (outErr [] errArg "expecting fp number").length ≤ kMaxMsg := by decide
  have noInt : 4 + (outErr [] errArg "expecting int").length ≤ kMaxMsg := by decide
  have noZset : 4 + (outErr [] errType "expecting zset").length ≤ kMaxMsg := by decide
  have nothing : 4 + (outArr [] 0).length ≤ kMaxMsg := by decide
  unfold doZquery
  split
  · exact fun _ _ _ => noNumber
  · exact fun _ _ _ => noInt
  · exact fun _ _ _ => noInt
  · rename_i score offset limit _ _ _
    apply represents.expect_bind key [] trivial
    · intro after _ _
      exact fun _ _ _ => nothing
    · intro after record _ _ _
      exact fun _ _ _ => noZset
    · intro after ent record zset nodes _ _ _ found _ _ zsetRepresents
      apply (zsetRepresents.holds.zqueryEntry_within score name offset limit).bind
      intro reply written
      obtain ⟨part, inside, replyIs⟩ := written
      intro member value same
      have short : ∀ node ∈ part, (zset.znode node).name.length ≤ nameRoom := by
        intro node inPart
        apply (storable key record found).members _ (zset.znode node).score
        exact (zsetRepresents.scores _ _).mpr ⟨node, inside inPart, rfl, rfl⟩
      have replied : reply = (Value.arr [.str member, .dbl value]).encode := same
      rw [replyIs] at replied
      have bound := length_shownAll_tuple short replied
      change 4 + reply.length ≤ kMaxMsg
      rw [replyIs]
      unfold nameRoom kMaxMsg at *
      omega

end

/-- In every state that requests have led to, the assertion in `do_get` holds and the
reply to a `get` is packed as it is; so is the reply to a `zquery` that is a single
tuple. -/
theorem stored_data_fits_replies (strtod : Strtod) {trace : List ServeCall} {g : GData}
    (run : Runs (ServeStep strtod) {} trace g) {alloc : Alloc} (unused : alloc.Unused g)
    (word key : Bytes) :
    (cmdIs word "get" = true →
      Meets (· = .spin) (fun result : GData × Bytes => packReply result.2 = result.2)
        (doRequest strtod g alloc [word, key] [])) ∧
    ∀ score name offset limit after out member value, cmdIs word "zquery" = true →
      doRequest strtod g alloc [word, key, score, name, offset, limit] [] = .ok (after, out) →
      out = (Value.arr [.str member, .dbl value]).encode → packReply out = out := by
  obtain ⟨ents, dict, due, represents, storable⟩ := serve_runs_each (storable_kept strtod) run
  constructor
  · intro isGet
    have follows :=
      doRequest_keeps_due strtod represents (unused.fresh represents) [word, key]
    apply (follows.mono _).widen
    · intro fault excused
      cases excused with
      | spin => rfl
      | longValue _ found long =>
          have bound := (storable key _ found).val
          unfold valRoom at bound
          omega
    · intro result follows
      obtain ⟨value, admitted, _, written⟩ := follows
      have out : result.2 = value.encode := written
      rw [Reference.request, if_pos isGet] at admitted
      rw [out, show value = (Reference.get dict key).2 from admitted]
      apply packReply_eq
      exact length_get_le storable key
  · intro score name offset limit after out member value isZquery returned same
    rw [doRequest, if_pos isZquery] at returned
    apply packReply_eq
    exact (doZquery_tuple_fits strtod represents storable key score name offset limit).of_ok
      returned member value same

def storeBoth : List ServeCall :=
  [.request ⟨1, 1⟩ { rbuf := frame (encodeReq [ascii "set", [97], [98]]) } [],
    .request ⟨2, 1⟩ { rbuf := frame (encodeReq [ascii "zadd", [122], ascii "1", [109]]) } []]

def oneTuple : Bytes := (Value.arr [.str [109], .dbl ⟨0x3FF0000000000000⟩]).encode

theorem stored_data_fits_replies_both :
    ∃ g, Runs (ServeStep strtodOne) {} storeBoth g ∧
      (∃ after, doRequest strtodOne g ⟨3, 2⟩
        [ascii "zquery", [122], ascii "1", [], ascii "0", ascii "9"] [] =
          .ok (after, oneTuple)) ∧
      packReply oneTuple = oneTuple := by
  have followed : ((follow (serveNext strtodOne) {} storeBoth).any fun g =>
      decide (Alloc.Unused ⟨3, 2⟩ g) &&
        (doRequest strtodOne g ⟨3, 2⟩
          [ascii "zquery", [122], ascii "1", [], ascii "0", ascii "9"] []).toOption.any
            fun result => decide (result.2 = oneTuple)) = true := by
    decide +kernel
  obtain ⟨g, gIs, both⟩ := (Option.any_eq_true _ _).mp followed
  obtain ⟨unused, queried⟩ := Bool.and_eq_true_iff.mp both
  obtain ⟨⟨after, out⟩, resultIs, replied⟩ := (Option.any_eq_true _ _).mp queried
  have run := runs_of_follow_eq (serveNext_sound strtodOne) gIs
  have returned := eq_ok_of_toOption resultIs
  rw [show out = oneTuple from of_decide_eq_true replied] at returned
  refine ⟨g, run, ⟨after, returned⟩, ?_⟩
  exact (stored_data_fits_replies strtodOne run (of_decide_eq_true unused)
    (ascii "zquery") [122]).2 _ _ _ _ after oneTuple _ _ (by decide) returned rfl

end RedisC
