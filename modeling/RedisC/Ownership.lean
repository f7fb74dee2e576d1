/-
What the handlers allocate and release.

`new`, `malloc`, `delete` and `free` concern three kinds of blocks: entries, the
`ZSet` of an entry, and the nodes of a sorted set.  The handlers that touch them are
given again with a record of what they do to these blocks; without the record they
are the handlers of the keyspace.

`Accounts` balances the books of one call: what the entries of the map hold
afterwards, with what is released or handed on, is what they held before, with
what is new.
-/

import RedisC.Lib.Allocator
import RedisC.ExpiryRuns

namespace RedisC

open Fallible LabelledRun

/-- A `ZSet` is known by the entry that points to it. -/
inductive Block
  | entry (ent : Ptr)
  | zset (ent : Ptr)
  | znode (node : Ptr)
  deriving DecidableEq, Repr

/-- What one call does to the blocks.  An entry that is deleted is destroyed by the caller
or, if it is large, by the thread pool. -/
inductive MemEffect
  | none
  | allocates (blocks : List Block)
  | frees (block : Block)
  | destroys (ent : Ptr)
  | queues (ent : Ptr)
  deriving DecidableEq, Repr

/-! ### Handlers with a record -/

def untracked {α : Type} (run : Except Fault α) : Except Fault (α × MemEffect) := do
  let result ← run
  pure (result, .none)

def doSetTracked (g : GData) (alloc : Alloc) (key val out : Bytes) :
    Except Fault ((GData × Bytes) × MemEffect) := do
  match ← dbLookup g key with
  | (g, some ent) =>
      let entry := Function.update g.entry ent { g.entry ent with val := val }
      pure (({ g with entry := entry }, outNil out), .none)
  | (g, none) =>
      let g ← dbInsert g alloc.entry { hcode := strHash key, key := key, val := val }
      pure ((g, outNil out), .allocates [.entry alloc.entry])

def entryDelTracked (g : GData) (ent : Ptr) : Except Fault (GData × MemEffect) := do
  let timers ← entrySetTtl g.timers ent (-1) 0
  let tooBig ← entryTooBig (g.entry ent)
  pure ({ g with timers := timers, tp := if tooBig then g.tp ++ [ent] else g.tp },
    if tooBig then .queues ent else .destroys ent)

def doDelTracked (g : GData) (key out : Bytes) :
    Except Fault ((GData × Bytes) × MemEffect) := do
  match ← hmPop hmFuel g.db (strHash key) (entryEq g key) with
  | (db, none) => pure (({ g with db := db }, outInt out 0), .none)
  | (db, some node) =>
      let (g, effect) ← entryDelTracked { g with db := db } node.owner
      pure ((g, outInt out 1), effect)

/-- `blocks` are those that the handler has allocated before. -/
def zaddEntryTracked (g : GData) (alloc : Alloc) (ent : Ptr) (score : Score) (name out : Bytes)
    (blocks : List Block) : Except Fault ((GData × Bytes) × MemEffect) :=
  match (g.entry ent).zset with
  | none => .error .nullDeref
  | some zset => do
      let (zset, added) ← zsetAdd zset alloc.znode name score
      let blocks := if added then blocks ++ [.znode alloc.znode] else blocks
      pure ((setZset g ent zset, outInt out (if added then 1 else 0)), .allocates blocks)

def doZaddTracked (strtod : Strtod) (g : GData) (alloc : Alloc) (key score name out : Bytes) :
    Except Fault ((GData × Bytes) × MemEffect) :=
  match str2double strtod score with
  | none => .ok ((g, outErr out errArg "expected fp number"), .none)
  | some score => do
      match ← dbLookup g key with
      | (g, none) =>
          let g ← dbInsert g alloc.entry
            { hcode := strHash key, key := key, type := .zset, zset := some {} }
          zaddEntryTracked g alloc alloc.entry score name out
            [.entry alloc.entry, .zset alloc.entry]
      | (g, some ent) =>
          if (g.entry ent).type ≠ .zset then
            pure ((g, outErr out errType "expecting zset"), .none)
          else
            zaddEntryTracked g alloc ent score name out []

def doZremTracked (g : GData) (key name out : Bytes) :
    Except Fault ((GData × Bytes) × MemEffect) := do
  match ← expectZset g key out with
  | (g, out, none) => pure ((g, out), .none)
  | (g, out, some (ent, zset)) =>
      match ← zsetPop zset name with
      | (zset, none) => pure ((setZset g ent zset, outInt out 0), .none)
      | (zset, some znode) => pure ((setZset g ent zset, outInt out 1), .frees (.znode znode))

def doRequestTracked (strtod : Strtod) (g : GData) (alloc : Alloc) (cmd : List Bytes)
    (out : Bytes) : Except Fault ((GData × Bytes) × MemEffect) :=
  match cmd with
  | [word, key] =>
      if cmdIs word "get" then untracked (doRequest strtod g alloc [word, key] out)
      else if cmdIs word "del" then doDelTracked g key out
      else untracked (doRequest strtod g alloc [word, key] out)
  | [word, key, arg] =>
      if cmdIs word "set" then doSetTracked g alloc key arg out
      else if cmdIs word "zrem" then doZremTracked g key arg out
      else untracked (doRequest strtod g alloc [word, key, arg] out)
  | [word, key, score, name] =>
      if cmdIs word "zadd" then doZaddTracked strtod g alloc key score name out
      else untracked (doRequest strtod g alloc [word, key, score, name] out)
  | cmd => untracked (doRequest strtod g alloc cmd out)

/-- One round of the loop of `process_timers` over the heap, if an item is due. -/
def expireRound (nowUs : UInt64) (g : GData) : Except Fault (Option (GData × MemEffect)) :=
  match g.timers.heap with
  | [] => .ok none
  | first :: _ =>
      if first.val < nowUs then do
        let ent := first.ref
        let (db, node) ← hmPop hmFuel g.db (g.entry ent).hcode (hnodeSame ent)
        if node.map HNode.owner = some ent then do
          let result ← entryDelTracked { g with db := db } ent
          pure (some result)
        else
          .error (.assertion .processTimers)
      else
        .ok none

/-! ### Without the record -/

section

variable {α β γ : Type}

private theorem map_bind_eq {run : Except Fault α} {next : α → Except Fault β} {f : β → γ}
    {other : α → Except Fault γ} (same : ∀ value, f <$> next value = other value) :
    f <$> (run >>= next) = run >>= other := by
  cases run with
  | error fault => rfl
  | ok value => exact same value

private theorem untracked_erased (run : Except Fault α) : Prod.fst <$> untracked run = run := by
  cases run with
  | error fault => rfl
  | ok value => rfl

private theorem doSetTracked_erased (g : GData) (alloc : Alloc) (key val out : Bytes) :
    Prod.fst <$> doSetTracked g alloc key val out = doSet g alloc key val out := by
  apply map_bind_eq
  intro result
  rcases result with ⟨g, found⟩
  cases found with
  | none => exact map_bind_eq fun _ => rfl
  | some ent => rfl

private theorem entryDelTracked_erased (g : GData) (ent : Ptr) :
    Prod.fst <$> entryDelTracked g ent = entryDel g ent := by
  apply map_bind_eq
  intro timers
  exact map_bind_eq fun _ => rfl

private theorem map_bind_of_erased {run : Except Fault (α × MemEffect)} {plain : Except Fault α}
    (erased : Prod.fst <$> run = plain) {next : α × MemEffect → Except Fault β} {f : β → γ}
    {other : α → Except Fault γ} (same : ∀ value, f <$> next value = other value.1) :
    f <$> (run >>= next) = plain >>= other := by
  subst erased
  cases run with
  | error fault => rfl
  | ok value => exact same value

private theorem doDelTracked_erased (g : GData) (key out : Bytes) :
    Prod.fst <$> doDelTracked g key out = doDel g key out := by
  apply map_bind_eq
  intro result
  rcases result with ⟨db, found⟩
  cases found with
  | none => rfl
  | some node => exact map_bind_of_erased (entryDelTracked_erased _ _) fun _ => rfl

private theorem zaddEntryTracked_erased (g : GData) (alloc : Alloc) (ent : Ptr) (score : Score)
    (name out : Bytes) (blocks : List Block) :
    Prod.fst <$> zaddEntryTracked g alloc ent score name out blocks =
      zaddEntry g alloc ent score name out := by
  unfold zaddEntryTracked zaddEntry
  cases (g.entry ent).zset with
  | none => rfl
  | some zset => exact map_bind_eq fun _ => rfl

private theorem doZaddTracked_erased (strtod : Strtod) (g : GData) (alloc : Alloc)
    (key score name out : Bytes) :
    Prod.fst <$> doZaddTracked strtod g alloc key score name out =
      doZadd strtod g alloc key score name out := by
  unfold doZaddTracked doZadd
  cases str2double strtod score with
  | none => rfl
  | some score =>
      apply map_bind_eq
      intro result
      rcases result with ⟨g, found⟩
      cases found with
      | none =>
          apply map_bind_eq
          intro g
          exact zaddEntryTracked_erased ..
      | some ent =>
          dsimp only
          split
          · rfl
          · exact zaddEntryTracked_erased ..

private theorem doZremTracked_erased (g : GData) (key name out : Bytes) :
    Prod.fst <$> doZremTracked g key name out = doZrem g key name out := by
  apply map_bind_eq
  intro result
  rcases result with ⟨g, out, found⟩
  cases found with
  | none => rfl
  | some pair =>
      apply map_bind_eq
      intro popped
      rcases popped with ⟨zset, znode⟩
      cases znode with
      | none => rfl
      | some znode => rfl

/-- The record changes nothing in what a request computes. -/
private theorem doRequestTracked_erased (strtod : Strtod) (g : GData) (alloc : Alloc)
    (cmd : List Bytes)
    (out : Bytes) :
    Prod.fst <$> doRequestTracked strtod g alloc cmd out = doRequest strtod g alloc cmd out := by
  unfold doRequestTracked
  split
  · rename_i word key
    split
    · exact untracked_erased _
    · rename_i notGet
      split
      · rename_i isDel
        rw [doDelTracked_erased, doRequest]
        rw [if_neg notGet, if_pos isDel]
      · exact untracked_erased _
  · rename_i word key arg
    split
    · rename_i isSet
      rw [doSetTracked_erased, doRequest]
      rw [if_pos isSet]
    · rename_i notSet
      split
      · rename_i isZrem
        rw [doZremTracked_erased, doRequest]
        rw [if_neg notSet, if_pos isZrem]
      · exact untracked_erased _
  · rename_i word key score name
    split
    · rename_i isZadd
      rw [doZaddTracked_erased, doRequest]
      rw [if_pos isZadd]
    · exact untracked_erased _
  · exact untracked_erased _

end

/-- The loop repeats the round until none is due or the limit is reached. -/
private theorem expireLoop_eq_rounds (nowUs : UInt64) (fuel nworks : Nat) (g : GData) :
    expireLoop nowUs (fuel + 1) nworks g = (do
      match ← expireRound nowUs g with
      | none => pure g
      | some (after, _) =>
          if nworks ≥ kMaxWorks then pure after else expireLoop nowUs fuel (nworks + 1) after) := by
  rw [expireLoop, expireRound]
  cases g.timers.heap with
  | nil => rfl
  | cons first others =>
      dsimp only
      split
      · rw [bind_assoc]
        congr 1
        funext result
        rcases result with ⟨db, node⟩
        dsimp only
        split
        · rw [← entryDelTracked_erased]
          cases entryDelTracked { g with db := db } first.ref with
          | error fault => rfl
          | ok result => rfl
        · rfl
      · rfl

/-! ### What entries hold -/

def ZSet.blocks (zset : ZSet) : Multiset Block :=
  ((zset.hmap.nodes.map HNode.owner : List Ptr) : Multiset Ptr).map Block.znode

/-- What `entry_destroy` has to release before the entry itself. -/
def Entry.held (entry : Entry) (ent : Ptr) : Multiset Block :=
  match entry.type, entry.zset with
  | .zset, some zset => {Block.zset ent} + zset.blocks
  | .zset, none => 0
  | .str, _ => 0

def Entry.blocks (entry : Entry) (ent : Ptr) : Multiset Block :=
  {Block.entry ent} + entry.held ent

def Entry.Sound (entry : Entry) : Prop :=
  entry.type = .zset → ∃ zset nodes, entry.zset = some zset ∧ zset.Holds nodes

def blocksOf (entry : Ptr → Entry) (ents : Multiset Ptr) : Multiset Block :=
  (ents.map fun ent => (entry ent).blocks ent).sum

theorem ZSet.Holds.blocks_eq {zset : ZSet} {nodes : List Ptr} (holds : zset.Holds nodes) :
    zset.blocks = (nodes : Multiset Ptr).map Block.znode := by
  rw [ZSet.blocks, Multiset.coe_eq_coe.mpr holds.keyed.nodes_perm]

theorem Entry.Is.sound {entry : Entry} {record : Record} (is : entry.Is record) :
    entry.Sound := by
  intro isZset
  obtain ⟨zset, nodes, zsetIs, represents⟩ := is.zset (is.type.symm.trans isZset)
  exact ⟨zset, nodes, zsetIs, represents.holds⟩

theorem Entry.blocks_of_zset {entry : Entry} {zset : ZSet} (type : entry.type = .zset)
    (zsetIs : entry.zset = some zset) (ent : Ptr) :
    entry.blocks ent = {Block.entry ent} + ({Block.zset ent} + zset.blocks) := by
  rw [Entry.blocks, Entry.held, type, zsetIs]

section

variable {entry entryNew : Ptr → Entry} {ents : Multiset Ptr} {ent : Ptr}

theorem blocksOf_cons (entry : Ptr → Entry) (ent : Ptr) (ents : Multiset Ptr) :
    blocksOf entry (ent ::ₘ ents) = (entry ent).blocks ent + blocksOf entry ents := by
  rw [blocksOf, Multiset.map_cons, Multiset.sum_cons, blocksOf]

theorem blocksOf_congr
    (same : ∀ ent ∈ ents, (entryNew ent).blocks ent = (entry ent).blocks ent) :
    blocksOf entryNew ents = blocksOf entry ents := by
  rw [blocksOf, Multiset.map_congr rfl same, blocksOf]

private theorem blocksOf_update_of_notMem (new : Entry) (outside : ent ∉ ents) :
    blocksOf (Function.update entry ent new) ents = blocksOf entry ents := by
  apply blocksOf_congr
  intro other member
  have apart : other ≠ ent := fun same => outside (same ▸ member)
  rw [Function.update_of_ne apart]

private theorem blocksOf_erase (entry : Ptr → Entry) (member : ent ∈ ents) :
    blocksOf entry ents = (entry ent).blocks ent + blocksOf entry (ents.erase ent) := by
  rw [← blocksOf_cons, Multiset.cons_erase member]

private theorem blocksOf_update (new : Entry) (nodup : ents.Nodup) (member : ent ∈ ents) :
    blocksOf (Function.update entry ent new) ents + (entry ent).blocks ent =
      blocksOf entry ents + new.blocks ent := by
  have outside : ent ∉ ents.erase ent := nodup.notMem_erase
  rw [blocksOf_erase _ member, blocksOf_erase entry member, Function.update_self,
    blocksOf_update_of_notMem new outside]
  abel

end

/-! ### Accounts -/

def MemEffect.allocated : MemEffect → Multiset Block
  | .allocates blocks => blocks
  | _ => 0

def MemEffect.deleted : MemEffect → Option Ptr
  | .destroys ent => some ent
  | .queues ent => some ent
  | _ => Option.none

def MemEffect.released (entry : Ptr → Entry) : MemEffect → Multiset Block
  | .frees block => {block}
  | .destroys ent => (entry ent).blocks ent
  | .queues ent => (entry ent).blocks ent
  | _ => 0

/-- The addresses that `new` and `malloc` return belong to none of these entries. -/
structure Alloc.Apart (alloc : Alloc) (entry : Ptr → Entry) (ents : List Ptr) : Prop where
  newEntry : alloc.entry ∉ ents
  newZnode : ∀ ent ∈ ents, Block.znode alloc.znode ∉ (entry ent).held ent

structure Accounts (g : GData) (ents : List Ptr) (effect : MemEffect) (after : GData)
    (entsNew : List Ptr) : Prop where
  frame : ∀ ent, ent ∉ ents → Block.entry ent ∉ effect.allocated →
    after.entry ent = g.entry ent
  balance : blocksOf after.entry entsNew + effect.released after.entry =
    blocksOf g.entry ents + effect.allocated
  sound : ∀ ent ∈ effect.deleted, (after.entry ent).Sound

def Accounted (g : GData) (ents : List Ptr) (effect : MemEffect) (after : GData) : Prop :=
  ∃ entsNew dict due, after.Represents entsNew dict due ∧ Accounts g ents effect after entsNew

section

variable {g after : GData} {ents : List Ptr} {dict dictNew : Dict}
variable {due dueNew : Bytes → Option UInt64} {ent : Ptr} {record : Record} {zset : ZSet}
variable {effect : MemEffect}

private theorem accounted_none (represents : after.Represents ents dict due)
    (same : after.entry = g.entry) : Accounted g ents .none after := by
  refine ⟨ents, dict, due, represents, ?_, ?_, ?_⟩
  · intro ent _ _
    rw [same]
  · rw [same]
    rfl
  · intro ent member
    cases member

private theorem accounted_store (represents : after.Represents ents dict due)
    (same : after.entry = g.entry) (member : ent ∈ ents) (new : Entry) (is : new.Is record)
    (keyIs : new.key = (g.entry ent).key) (hcodeIs : new.hcode = (g.entry ent).hcode)
    (handsOn : effect.deleted = Option.none)
    (balance : ∀ entry, new.blocks ent + effect.released entry =
      (g.entry ent).blocks ent + effect.allocated) :
    Accounted g ents effect
      { after with entry := Function.update after.entry ent new } := by
  rw [← same] at keyIs hcodeIs balance
  refine ⟨ents, _, due, represents.store member new record keyIs hcodeIs is, ?_, ?_, ?_⟩
  · intro other outside _
    have apart : other ≠ ent := fun equal => outside (equal ▸ member)
    rw [← same]
    exact Function.update_of_ne apart _ _
  · have exchanged := @blocksOf_update after.entry ents ent new
      (Multiset.coe_nodup.mpr represents.keyed.nodup) (Multiset.mem_coe.mpr member)
    have given := balance (Function.update after.entry ent new)
    rw [← same]
    apply add_right_cancel (b := (after.entry ent).blocks ent)
    calc blocksOf (Function.update after.entry ent new) ents +
            effect.released (Function.update after.entry ent new) + (after.entry ent).blocks ent
        = blocksOf (Function.update after.entry ent new) ents + (after.entry ent).blocks ent +
            effect.released (Function.update after.entry ent new) := by abel
      _ = blocksOf after.entry ents +
            (new.blocks ent + effect.released (Function.update after.entry ent new)) := by
          rw [exchanged, add_assoc]
      _ = blocksOf after.entry ents + effect.allocated + (after.entry ent).blocks ent := by
          rw [given]
          abel
  · intro other contrary
    rw [handsOn] at contrary
    cases contrary

private theorem accounted_setZset (represents : after.Represents ents dict due)
    (same : after.entry = g.entry) (member : ent ∈ ents) (is : (g.entry ent).Is record)
    (type : record.type = .zset) (zsetIs : (g.entry ent).zset = some zset) {zsetNew : ZSet}
    {nodes : List Ptr} {members : Bytes → Option Score}
    (representsNew : zsetNew.Represents nodes members) (handsOn : effect.deleted = Option.none)
    (balance : ∀ entry, zsetNew.blocks + effect.released entry =
      zset.blocks + effect.allocated) :
    Accounted g ents effect (setZset after ent zsetNew) := by
  have isZset := is.type.trans type
  have stored : ({ g.entry ent with zset := some zsetNew } : Entry).Is
      { record with members := members } :=
    ⟨is.type, is.val, fun _ => ⟨zsetNew, nodes, rfl, representsNew⟩⟩
  unfold setZset
  rw [show after.entry ent = g.entry ent by rw [same]]
  refine accounted_store represents same member _ stored rfl rfl handsOn ?_
  intro entry
  have held := Entry.blocks_of_zset isZset zsetIs ent
  have heldNew : ({ g.entry ent with zset := some zsetNew } : Entry).blocks ent =
      {Block.entry ent} + ({Block.zset ent} + zsetNew.blocks) := by
    apply Entry.blocks_of_zset
    · exact isZset
    · rfl
  calc ({ g.entry ent with zset := some zsetNew } : Entry).blocks ent + effect.released entry
      = {Block.entry ent} + {Block.zset ent} + (zsetNew.blocks + effect.released entry) := by
        rw [heldNew]
        abel
    _ = (g.entry ent).blocks ent + effect.allocated := by
        rw [balance entry, held]
        abel

private theorem accounted_insert (represents : after.Represents (ent :: ents) dict due)
    (outside : ent ∉ ents) {new : Entry} (entryIs : after.entry = Function.update g.entry ent new)
    {blocks : List Block} (balance : new.blocks ent = blocks) :
    Accounted g ents (.allocates blocks) after := by
  refine ⟨ent :: ents, dict, due, represents, ?_, ?_, ?_⟩
  · intro other _ away
    have apart : other ≠ ent := by
      intro same
      subst same
      apply away
      change _ ∈ (blocks : Multiset Block)
      rw [← balance]
      exact Multiset.mem_add.mpr (.inl (Multiset.mem_singleton_self _))
    rw [entryIs, Function.update_of_ne apart]
  · change blocksOf after.entry (ent ::ₘ (ents : Multiset Ptr)) + 0 = _ + (blocks : Multiset Block)
    rw [entryIs, blocksOf_cons, Function.update_self, ← balance,
      blocksOf_update_of_notMem new (Multiset.mem_coe.not.mpr outside)]
    abel
  · intro other contrary
    cases contrary

end

/-! ### Sorted sets -/

/-- `zset_add` allocates a node exactly if it says that the name is new. -/
theorem ZSet.Represents.zsetAdd_blocks {zset : ZSet} {nodes : List Ptr}
    {members : Bytes → Option Score} (represents : zset.Represents nodes members) {fresh : Ptr}
    (away : fresh ∉ nodes) (name : Bytes) (score : Score) :
    Meets (fun _ => True)
      (fun result => result.1.blocks =
        zset.blocks + (if result.2 then [Block.znode fresh] else [] : List Block))
      (zsetAdd zset fresh name score) := by
  have before := represents.holds.blocks_eq
  unfold zsetAdd
  refine ((represents.holds.zsetLookup_spec name).widen fun _ _ => trivial).bind ?_
  intro result looked
  rcases result with ⟨searched, found⟩
  rcases looked with ⟨⟨hmap, searchedIs⟩, holds, sought⟩
  subst searchedIs
  cases found with
  | some node =>
      refine ((holds.zsetUpdate_spec sought.1 score).widen fun _ => False.elim).bind ?_
      intro after updated
      obtain ⟨nodesNew, perm, newHolds, -⟩ := updated
      change after.blocks = zset.blocks + 0
      rw [newHolds.blocks_eq, before, Multiset.coe_eq_coe.mpr perm, add_zero]
  | none =>
      change Meets _ _ (hmInsert hmFuel hmap _ >>= fun hmap => treeAdd _ fresh >>= _)
      rw [← bind_assoc]
      apply ((holds.insert_spec away sought score).widen fun _ _ => trivial).bind
      intro after placed
      obtain ⟨nodesNew, perm, newHolds, -⟩ := placed
      change after.blocks = zset.blocks + ([Block.znode fresh] : List Block)
      rw [newHolds.blocks_eq, before, Multiset.coe_eq_coe.mpr perm, ← Multiset.cons_coe,
        Multiset.map_cons, ← Multiset.singleton_add, add_comm]
      rfl

theorem ZSet.Popped.blocks_eq {zset : ZSet} {nodes nodesNew : List Ptr}
    {members : Bytes → Option Score} {name : Bytes} {result : ZSet × Option Ptr}
    (popped : zset.Popped nodes members name nodesNew result) (holds : zset.Holds nodes) :
    zset.blocks = result.1.blocks + (result.2.map Block.znode).toList := by
  have remaining := popped.remaining
  rw [holds.blocks_eq, popped.represents.holds.blocks_eq, remaining]
  cases answer : result.2 with
  | none => exact (add_zero _).symm
  | some node =>
      have sought := popped.sought
      rw [answer] at sought
      have whole := Multiset.cons_erase (Multiset.mem_coe.mpr sought.1)
      rw [Multiset.coe_erase] at whole
      conv_lhs => rw [← whole]
      rw [Multiset.map_cons, ← Multiset.singleton_add, add_comm]
      rfl

/-! ### One call -/

section

variable {g : GData} {ents : List Ptr} {dict : Dict} {due : Bytes → Option UInt64}

private theorem meets_of_erased {α : Type} {allowed : Fault → Prop} {post : α → Prop}
    {run : Except Fault (α × MemEffect)} {plain : Except Fault α}
    (erased : Prod.fst <$> run = plain) (met : Meets allowed post plain) :
    Meets allowed (fun result => post result.1) run := by
  subst erased
  cases run with
  | error fault => exact met
  | ok value => exact met

private theorem doGet_accounts (represents : g.Represents ents dict due) (key out : Bytes) :
    Meets (fun _ => True) (fun result : GData × Bytes => Accounted g ents .none result.1)
      (doGet g key out) := by
  unfold doGet
  apply represents.lookup_bind key trivial
  · intro after afterRepresents same _ _
    exact accounted_none afterRepresents same
  · intro after ent record afterRepresents same _ _ _ _
    dsimp only
    split
    · exact accounted_none afterRepresents same
    · trivial

private theorem doSetTracked_accounts (represents : g.Represents ents dict due) {alloc : Alloc}
    (apart : alloc.Apart g.entry ents) (key val out : Bytes) :
    Meets (fun _ => True) (fun result => Accounted g ents result.2 result.1.1)
      (doSetTracked g alloc key val out) := by
  unfold doSetTracked
  apply represents.lookup_bind key trivial
  · intro after afterRepresents same absent _
    have is : ({ hcode := strHash key, key := key, val := val } : Entry).Is { val := val } :=
      ⟨rfl, rfl, fun contrary => by cases contrary⟩
    apply ((afterRepresents.dbInsert_spec apart.newEntry absent rfl is).widen
      fun _ _ => trivial).bind
    intro inserted stored
    rw [same] at stored
    exact accounted_insert stored.1 apart.newEntry stored.2 (add_zero _)
  · intro after ent record afterRepresents same member _ _ is
    have stored : ({ after.entry ent with val := val } : Entry).Is { record with val := val } :=
      ⟨is.type, rfl, is.zset⟩
    refine accounted_store afterRepresents same member _ stored ?_ ?_ rfl ?_
    · rw [same]
    · rw [same]
    · intro entry
      rw [same]
      rfl

private theorem entryDelTracked_effect (g : GData) (ent : Ptr) :
    Meets (fun _ => True)
      (fun result : GData × MemEffect =>
        result.2 = .destroys ent ∨ result.2 = .queues ent)
      (entryDelTracked g ent) := by
  unfold entryDelTracked
  cases entrySetTtl g.timers ent (-1) 0 with
  | error fault => trivial
  | ok timers =>
      cases entryTooBig (g.entry ent) with
      | error fault => trivial
      | ok tooBig =>
          cases tooBig with
          | false => exact .inl rfl
          | true => exact .inr rfl

private theorem entryDelTracked_accounts (represents : g.Represents ents dict due) {ent : Ptr}
    (member : ent ∈ ents) {db : HMap Ptr}
    (keyed : Keyed (fun ent => (g.entry ent).key) strHash db (ents.erase ent)) :
    Meets (fun _ => True) (fun result => Accounted g ents result.2 result.1)
      (entryDelTracked { g with db := db } ent) := by
  have deleted := meets_of_erased (entryDelTracked_erased _ _)
    (represents.entryDel_spec member keyed)
  have kinds := entryDelTracked_effect { g with db := db } ent
  apply ((deleted.and_of_ok kinds).widen fun _ => False.elim).mono
  intro result both
  obtain ⟨⟨remaining, same, -⟩, kind⟩ := both
  obtain ⟨record, -, is⟩ := represents.recorded ent member
  have balance : blocksOf result.1.entry (ents.erase ent : List Ptr) +
      (result.1.entry ent).blocks ent = blocksOf g.entry ents + 0 := by
    rw [same, ← Multiset.coe_erase, blocksOf_erase g.entry (Multiset.mem_coe.mpr member)]
    abel
  have sound : (result.1.entry ent).Sound := by
    rw [same]
    exact is.sound
  refine ⟨_, _, _, remaining, ?_, ?_, ?_⟩
  · intro other _ _
    rw [same]
  · rcases kind with kind | kind
    · rw [kind]
      exact balance
    · rw [kind]
      exact balance
  · intro other isEnt
    rcases kind with kind | kind
    · rw [kind] at isEnt
      cases isEnt
      exact sound
    · rw [kind] at isEnt
      cases isEnt
      exact sound

private theorem doDelTracked_accounts (represents : g.Represents ents dict due) (key out : Bytes) :
    Meets (fun _ => True) (fun result => Accounted g ents result.2 result.1.1)
      (doDelTracked g key out) := by
  unfold doDelTracked
  apply ((represents.keyed.hmPop_spec (represents.decides key) hmFuel).widen
    fun _ _ => trivial).bind
  intro result popped
  rcases result with ⟨db, answer⟩
  rcases popped with ⟨sought, keyed⟩
  cases answer with
  | none => exact accounted_none (represents.withDb keyed) rfl
  | some node =>
      apply (entryDelTracked_accounts represents sought.1 keyed).bind
      intro result accounted
      exact accounted

private theorem zaddEntryTracked_accounts {after : GData}
    (represents : after.Represents ents dict due)
    (same : after.entry = g.entry) {ent : Ptr} (member : ent ∈ ents) {record : Record}
    (is : (g.entry ent).Is record) (type : record.type = .zset) {alloc : Alloc}
    (apart : alloc.Apart g.entry ents) (score : Score) (name out : Bytes) :
    Meets (fun _ => True) (fun result => Accounted g ents result.2 result.1.1)
      (zaddEntryTracked after alloc ent score name out []) := by
  obtain ⟨zset, nodes, zsetIs, zsetRepresents⟩ := is.zset type
  have away : alloc.znode ∉ nodes := by
    intro inside
    apply apart.newZnode ent member
    rw [Entry.held, is.type.trans type, zsetIs]
    refine Multiset.mem_add.mpr (.inr ?_)
    rw [zsetRepresents.holds.blocks_eq]
    exact Multiset.mem_map_of_mem _ (Multiset.mem_coe.mpr inside)
  have added := (zsetRepresents.zsetAdd_spec away name score).widen fun _ _ => trivial
  have counted := zsetRepresents.zsetAdd_blocks away name score
  unfold zaddEntryTracked
  rw [same, zsetIs]
  apply (added.and_of_ok counted).bind
  intro result both
  obtain ⟨⟨nodesNew, added⟩, counted⟩ := both
  apply accounted_setZset represents same member is type zsetIs added.represents rfl
  intro entry
  change result.1.blocks + 0 = _
  rw [counted, add_zero, List.nil_append]
  rfl

private theorem doZaddTracked_accounts (strtod : Strtod) (represents : g.Represents ents dict due)
    {alloc : Alloc} (apart : alloc.Apart g.entry ents) (key score name out : Bytes) :
    Meets (fun _ => True) (fun result => Accounted g ents result.2 result.1.1)
      (doZaddTracked strtod g alloc key score name out) := by
  unfold doZaddTracked
  cases str2double strtod score with
  | none => exact accounted_none represents rfl
  | some score =>
      apply represents.lookup_bind key trivial
      · intro after afterRepresents same absent _
        have is : ({ hcode := strHash key, key := key, type := .zset, zset := some {} } :
            Entry).Is { type := .zset } :=
          ⟨rfl, rfl, fun _ => ⟨{}, [], rfl, ZSet.Represents.empty⟩⟩
        apply ((afterRepresents.dbInsert_spec apart.newEntry absent rfl is).widen
          fun _ _ => trivial).bind
        intro inserted stored
        have here : inserted.entry alloc.entry =
            { hcode := strHash key, key := key, type := .zset, zset := some {} } := by
          rw [stored.2, Function.update_self]
        rw [← here] at is
        have added := (ZSet.Represents.empty.zsetAdd_spec
          (List.not_mem_nil (a := alloc.znode)) name score).widen fun _ _ => trivial
        have counted := ZSet.Represents.empty.zsetAdd_blocks
          (List.not_mem_nil (a := alloc.znode)) name score
        unfold zaddEntryTracked
        rw [here]
        apply (added.and_of_ok counted).bind
        intro result both
        rcases result with ⟨zset, isNew⟩
        obtain ⟨⟨nodesNew, added⟩, counted⟩ := both
        have represented := stored.1.setZset List.mem_cons_self is added.represents
        cases added.answer
        have entryIs : (setZset inserted alloc.entry zset).entry =
            Function.update g.entry alloc.entry
              { hcode := strHash key, key := key, type := .zset, zset := some zset } := by
          change Function.update inserted.entry alloc.entry _ = _
          rw [here, stored.2, same, Function.update_idem]
        apply accounted_insert represented apart.newEntry entryIs
        rw [Entry.blocks_of_zset rfl rfl, counted]
        rfl
      · intro after ent record afterRepresents same member _ _ is
        dsimp only
        split
        · exact accounted_none afterRepresents same
        · rename_i isZset
          have type := is.type.symm.trans (not_not.mp isZset)
          rw [same] at is
          exact zaddEntryTracked_accounts afterRepresents same member is type apart score name out

/-- The rule for a handler that starts with `expect_zset`, with what the search leaves. -/
theorem GData.Represents.expect_accounts {β : Type} {post : β → Prop}
    {next : GData × Bytes × Option (Ptr × ZSet) → Except Fault β}
    (represents : g.Represents ents dict due) (key out : Bytes)
    (missing : ∀ (after : GData) reply, after.Represents ents dict due →
      after.entry = g.entry → Meets (fun _ => True) post (next (after, reply, none)))
    (present : ∀ (after : GData) ent record zset nodes, after.Represents ents dict due →
      after.entry = g.entry → ent ∈ ents → (g.entry ent).Is record → record.type = .zset →
      (g.entry ent).zset = some zset → zset.Represents nodes record.members →
      Meets (fun _ => True) post (next (after, out, some (ent, zset)))) :
    Meets (fun _ => True) post (expectZset g key out >>= next) := by
  unfold expectZset
  rw [bind_assoc]
  apply represents.lookup_bind key trivial
  · intro after afterRepresents same _ _
    exact missing after _ afterRepresents same
  · intro after ent record afterRepresents same member _ _ is
    have isHere : (g.entry ent).Is record := same ▸ is
    cases type : record.type with
    | str =>
        simp only [is.type.trans type]
        exact missing after _ afterRepresents same
    | zset =>
        obtain ⟨zset, nodes, zsetIs, zsetRepresents⟩ := isHere.zset type
        have zsetHere : (after.entry ent).zset = some zset := same ▸ zsetIs
        simp only [is.type.trans type, zsetHere]
        exact present after ent record zset nodes afterRepresents same member isHere type zsetIs
          zsetRepresents

private theorem doZremTracked_accounts (represents : g.Represents ents dict due)
    (key name out : Bytes) :
    Meets (fun _ => True) (fun result => Accounted g ents result.2 result.1.1)
      (doZremTracked g key name out) := by
  unfold doZremTracked
  apply represents.expect_accounts key out
  · intro after reply afterRepresents same
    exact accounted_none afterRepresents same
  · intro after ent record zset nodes afterRepresents same member is type zsetIs zsetRepresents
    apply ((zsetRepresents.zsetPop_spec name).widen fun _ _ => trivial).bind
    intro result popped
    obtain ⟨nodesNew, popped⟩ := popped
    have blocks := popped.blocks_eq zsetRepresents.holds
    have store := fun {effect : MemEffect} => @accounted_setZset g after ents dict due ent record
      zset effect afterRepresents same member is type zsetIs result.1 _ _ popped.represents
    rcases result with ⟨zsetNew, answer⟩
    cases answer with
    | none =>
        apply store rfl
        intro entry
        change zsetNew.blocks + 0 = zset.blocks + 0
        rw [add_zero, add_zero, blocks]
        exact (add_zero _).symm
    | some znode =>
        apply store rfl
        intro entry
        change zsetNew.blocks + {Block.znode znode} = zset.blocks + 0
        rw [blocks, add_zero]
        rfl

private theorem doZscore_accounts (represents : g.Represents ents dict due) (key name out : Bytes) :
    Meets (fun _ => True) (fun result : GData × Bytes => Accounted g ents .none result.1)
      (doZscore g key name out) := by
  unfold doZscore
  apply represents.expect_accounts key out
  · intro after reply afterRepresents same
    exact accounted_none afterRepresents same
  · intro after ent record zset nodes afterRepresents same member is type zsetIs zsetRepresents
    apply ((zsetRepresents.holds.zsetLookup_spec name).widen fun _ _ => trivial).bind
    intro result searched
    rcases result with ⟨zsetNew, answer⟩
    rcases searched with ⟨⟨hmap, zsetNewIs⟩, holds, -⟩
    dsimp only at zsetNewIs holds
    have kept : zsetNew.Represents nodes record.members := by
      refine ⟨holds, ?_⟩
      rw [zsetNewIs]
      exact zsetRepresents.scores
    have store := @accounted_setZset g after ents dict due ent record zset .none afterRepresents
      same member is type zsetIs zsetNew nodes record.members kept rfl (by
        intro entry
        rw [holds.blocks_eq, zsetRepresents.holds.blocks_eq]
        rfl)
    cases answer with
    | none => exact store
    | some znode => exact store

private theorem doZquery_accounts (strtod : Strtod) (represents : g.Represents ents dict due)
    (key score name offset limit out : Bytes) :
    Meets (fun _ => True) (fun result : GData × Bytes => Accounted g ents .none result.1)
      (doZquery strtod g key score name offset limit out) := by
  unfold doZquery
  split
  · exact accounted_none represents rfl
  · exact accounted_none represents rfl
  · exact accounted_none represents rfl
  · rename_i score offset limit _ _ _
    apply represents.expect_accounts key out
    · intro after reply afterRepresents same
      dsimp only
      split
      · exact accounted_none afterRepresents same
      · exact accounted_none afterRepresents same
    · intro after ent record zset nodes afterRepresents same _ _ _ _ _
      dsimp only
      cases zqueryEntry zset score name offset limit out with
      | error fault => trivial
      | ok written => exact accounted_none afterRepresents same

private theorem untracked_accounts {run : Except Fault (GData × Bytes)}
    (met : Meets (fun _ => True) (fun result => Accounted g ents .none result.1) run) :
    Meets (fun _ => True) (fun result => Accounted g ents result.2 result.1.1)
      (untracked run) := by
  cases run with
  | error fault => trivial
  | ok result => exact met

private theorem doRequestTracked_accounts (strtod : Strtod)
    (represents : g.Represents ents dict due)
    {alloc : Alloc} (apart : alloc.Apart g.entry ents) (cmd : List Bytes) (out : Bytes) :
    Meets (fun _ => True) (fun result => Accounted g ents result.2 result.1.1)
      (doRequestTracked strtod g alloc cmd out) := by
  have unknown : Meets (fun _ : Fault => True)
      (fun result : GData × Bytes => Accounted g ents .none result.1)
      (.ok (g, outErr out errUnknown "Unknown cmd")) := accounted_none represents rfl
  match cmd with
  | [] => exact untracked_accounts unknown
  | [word] =>
      apply untracked_accounts
      rw [doRequest]
      split
      · exact accounted_none represents rfl
      · exact unknown
  | [word, key] =>
      rw [doRequestTracked]
      split
      · rename_i isGet
        apply untracked_accounts
        rw [doRequest, if_pos isGet]
        exact doGet_accounts represents key out
      · rename_i notGet
        split
        · exact doDelTracked_accounts represents key out
        · rename_i notDel
          apply untracked_accounts
          rw [doRequest, if_neg notGet, if_neg notDel]
          exact unknown
  | [word, key, arg] =>
      rw [doRequestTracked]
      split
      · exact doSetTracked_accounts represents apart key arg out
      · rename_i notSet
        split
        · exact doZremTracked_accounts represents key arg out
        · rename_i notZrem
          apply untracked_accounts
          rw [doRequest, if_neg notSet, if_neg notZrem]
          split
          · exact doZscore_accounts represents key arg out
          · exact unknown
  | [word, key, score, name] =>
      rw [doRequestTracked]
      split
      · exact doZaddTracked_accounts strtod represents apart key score name out
      · rename_i notZadd
        apply untracked_accounts
        rw [doRequest, if_neg notZadd]
        exact unknown
  | [word, key, score, name, offset] => exact untracked_accounts unknown
  | [word, key, score, name, offset, limit] =>
      apply untracked_accounts
      rw [doRequest]
      split
      · exact doZquery_accounts strtod represents key score name offset limit out
      · exact unknown
  | _ :: _ :: _ :: _ :: _ :: _ :: _ :: _ => exact untracked_accounts unknown

private theorem doExpire_accounts (represents : g.Represents ents dict due) (now : UInt64)
    (key ttlMs out : Bytes) :
    Meets (fun _ => True) (fun result : GData × Bytes => Accounted g ents .none result.1)
      (doExpire g now key ttlMs out) := by
  unfold doExpire
  cases str2int ttlMs with
  | none => exact accounted_none represents rfl
  | some ttlMs =>
      apply represents.lookup_bind key trivial
      · intro after afterRepresents same _ _
        exact accounted_none afterRepresents same
      · intro after ent record afterRepresents same member _ _ _
        apply ((entrySetTtl_spec afterRepresents.linked ent ttlMs now).widen
          fun _ => False.elim).bind
        intro timers set
        exact accounted_none (afterRepresents.withTimers member set) same

private theorem doTtl_accounts (represents : g.Represents ents dict due) (now : UInt64)
    (key out : Bytes) :
    Meets (fun _ => True) (fun result : GData × Bytes => Accounted g ents .none result.1)
      (doTtl g now key out) := by
  unfold doTtl
  apply represents.lookup_bind key trivial
  · intro after afterRepresents same _ _
    exact accounted_none afterRepresents same
  · intro after ent record afterRepresents same _ _ _ _
    dsimp only
    split
    · exact accounted_none afterRepresents same
    · rename_i i _
      cases itemAt after.timers.heap i with
      | error fault => trivial
      | ok item => exact accounted_none afterRepresents same

private theorem expireRound_accounts (represents : g.Represents ents dict due) (nowUs : UInt64) :
    Meets (fun _ => True)
      (fun result => ∀ after effect, result = some (after, effect) →
        Accounted g ents effect after)
      (expireRound nowUs g) := by
  unfold expireRound
  split
  · intro after effect contrary
    cases contrary
  · rename_i first others heapIs
    have inHeap : first ∈ g.timers.heap := by
      rw [heapIs]
      exact List.mem_cons_self
    have member := (represents.ref_mem inHeap).1
    split
    · apply ((represents.keyed.hmPop_spec (represents.decides_same first.ref) hmFuel).widen
        fun _ _ => trivial).bind
      intro result popped
      rcases result with ⟨db, answer⟩
      rcases popped with ⟨sought, keyed⟩
      cases answer with
      | none => exact absurd rfl (sought first.ref member)
      | some node =>
          have owner : node.owner = first.ref := sought.2
          simp only [Option.map_some, owner, if_true]
          simp only [owner] at keyed
          apply (entryDelTracked_accounts represents member keyed).bind
          intro result accounted after effect isResult
          cases isResult
          exact accounted
    · intro after effect contrary
      cases contrary

end

/-! ### The calls of the main thread -/

/-- As `KeyCall`, but the loop of `process_timers` is taken apart, since other threads run
between its rounds. -/
inductive MainCall
  | request (alloc : Alloc) (cmd : List Bytes)
  | expire (now : UInt64) (key ttlMs : Bytes)
  | ttl (now : UInt64) (key : Bytes)
  | round (nowUs : UInt64)

def MainCall.exec (strtod : Strtod) (g : GData) : MainCall → Except Fault (GData × MemEffect)
  | .request alloc cmd => do
      let ((g, _), effect) ← doRequestTracked strtod g alloc cmd []
      pure (g, effect)
  | .expire now key ttlMs => do
      let (g, _) ← doExpire g now key ttlMs []
      pure (g, .none)
  | .ttl now key => do
      let (g, _) ← doTtl g now key []
      pure (g, .none)
  | .round nowUs => do
      match ← expireRound nowUs g with
      | none => pure (g, .none)
      | some result => pure result

def MainCall.Apart (entry : Ptr → Entry) (ents : List Ptr) : MainCall → Prop
  | .request alloc _ => alloc.Apart entry ents
  | _ => True

def MainCall.fresh : MainCall → List Block
  | .request alloc _ => [.entry alloc.entry, .zset alloc.entry, .znode alloc.znode]
  | _ => []

theorem MainCall.accounts (strtod : Strtod) {g : GData} {ents : List Ptr} {dict : Dict}
    {due : Bytes → Option UInt64} (represents : g.Represents ents dict due) (call : MainCall)
    (apart : call.Apart g.entry ents) :
    Meets (fun _ => True) (fun result => Accounted g ents result.2 result.1)
      (call.exec strtod g) := by
  cases call with
  | request alloc cmd =>
      apply (doRequestTracked_accounts strtod represents apart cmd []).bind
      intro result accounted
      exact accounted
  | expire now key ttlMs =>
      apply (doExpire_accounts represents now key ttlMs []).bind
      intro result accounted
      exact accounted
  | ttl now key =>
      apply (doTtl_accounts represents now key []).bind
      intro result accounted
      exact accounted
  | round nowUs =>
      apply (expireRound_accounts represents nowUs).bind
      intro result accounted
      cases result with
      | none => exact accounted_none represents rfl
      | some result => exact accounted _ _ rfl

/-! Only a request allocates, and only what it has been given. -/

private theorem meets_trivial {α : Type} (run : Except Fault α) :
    Meets (fun _ => True) (fun _ => True) run := by
  cases run with
  | error fault => trivial
  | ok value => trivial

section

variable {alloc : Alloc}

/-- The effect allocates no more than the addresses of `alloc` allow. -/
def AllocatesFrom (alloc : Alloc) (effect : MemEffect) : Prop :=
  effect.allocated ≤
    ([.entry alloc.entry, .zset alloc.entry, .znode alloc.znode] : List Block)

private theorem allocatesFrom_none : AllocatesFrom alloc .none := Multiset.zero_le _

private theorem allocatesFrom_sublist {blocks : List Block}
    (sublist : blocks.Sublist
      [.entry alloc.entry, .zset alloc.entry, .znode alloc.znode]) :
    AllocatesFrom alloc (.allocates blocks) :=
  Multiset.coe_le.mpr sublist.subperm

private theorem untracked_allocatesFrom {α : Type} (run : Except Fault α) :
    Meets (fun _ => True) (fun result => AllocatesFrom alloc result.2) (untracked run) := by
  cases run with
  | error fault => trivial
  | ok result => exact allocatesFrom_none

private theorem doSetTracked_allocatesFrom (g : GData) (key val out : Bytes) :
    Meets (fun _ => True) (fun result => AllocatesFrom alloc result.2)
      (doSetTracked g alloc key val out) := by
  apply (meets_trivial _).bind
  intro result _
  rcases result with ⟨g, found⟩
  cases found with
  | some ent => exact allocatesFrom_none
  | none =>
      apply (meets_trivial _).bind
      intro g _
      exact allocatesFrom_sublist (by simp)

private theorem entryDelTracked_allocated (g : GData) (ent : Ptr) :
    Meets (fun _ => True) (fun result : GData × MemEffect => result.2.allocated = 0)
      (entryDelTracked g ent) := by
  apply (entryDelTracked_effect g ent).mono
  intro result kind
  rcases kind with kind | kind
  · rw [kind]
    rfl
  · rw [kind]
    rfl

private theorem doDelTracked_allocatesFrom (g : GData) (key out : Bytes) :
    Meets (fun _ => True) (fun result => AllocatesFrom alloc result.2)
      (doDelTracked g key out) := by
  apply (meets_trivial _).bind
  intro result _
  rcases result with ⟨db, answer⟩
  cases answer with
  | none => exact allocatesFrom_none
  | some node =>
      apply (entryDelTracked_allocated _ node.owner).bind
      intro result nothing
      exact nothing.le.trans (Multiset.zero_le _)

private theorem zaddEntryTracked_allocatesFrom (g : GData) (ent : Ptr) (score : Score)
    (name out : Bytes)
    {blocks : List Block} (sublist : blocks.Sublist [.entry alloc.entry, .zset alloc.entry]) :
    Meets (fun _ => True) (fun result => AllocatesFrom alloc result.2)
      (zaddEntryTracked g alloc ent score name out blocks) := by
  unfold zaddEntryTracked
  split
  · trivial
  · apply (meets_trivial _).bind
    intro result _
    rcases result with ⟨zset, added⟩
    cases added with
    | true =>
        exact allocatesFrom_sublist (sublist.append (List.Sublist.refl [Block.znode alloc.znode]))
    | false => exact allocatesFrom_sublist (sublist.trans (List.sublist_append_left _ [_]))

private theorem doZaddTracked_allocatesFrom (strtod : Strtod) (g : GData)
    (key score name out : Bytes) :
    Meets (fun _ => True) (fun result => AllocatesFrom alloc result.2)
      (doZaddTracked strtod g alloc key score name out) := by
  unfold doZaddTracked
  split
  · exact allocatesFrom_none
  · apply (meets_trivial _).bind
    intro result _
    rcases result with ⟨g, found⟩
    cases found with
    | none =>
        apply (meets_trivial _).bind
        intro g _
        exact zaddEntryTracked_allocatesFrom g _ _ _ _ (List.Sublist.refl _)
    | some ent =>
        dsimp only
        split
        · exact allocatesFrom_none
        · exact zaddEntryTracked_allocatesFrom g _ _ _ _ (List.nil_sublist _)

private theorem doZremTracked_allocatesFrom (g : GData) (key name out : Bytes) :
    Meets (fun _ => True) (fun result => AllocatesFrom alloc result.2)
      (doZremTracked g key name out) := by
  apply (meets_trivial _).bind
  intro result _
  rcases result with ⟨g, out, found⟩
  cases found with
  | none => exact allocatesFrom_none
  | some pair =>
      apply (meets_trivial _).bind
      intro popped _
      rcases popped with ⟨zset, znode⟩
      cases znode with
      | none => exact allocatesFrom_none
      | some znode => exact Multiset.zero_le _

private theorem doRequestTracked_allocatesFrom (strtod : Strtod) (g : GData) (cmd : List Bytes)
    (out : Bytes) :
    Meets (fun _ => True) (fun result => AllocatesFrom alloc result.2)
      (doRequestTracked strtod g alloc cmd out) := by
  unfold doRequestTracked
  split
  · split
    · exact untracked_allocatesFrom _
    · split
      · exact doDelTracked_allocatesFrom g _ out
      · exact untracked_allocatesFrom _
  · split
    · exact doSetTracked_allocatesFrom g _ _ out
    · split
      · exact doZremTracked_allocatesFrom g _ _ out
      · exact untracked_allocatesFrom _
  · split
    · exact doZaddTracked_allocatesFrom strtod g _ _ _ out
    · exact untracked_allocatesFrom _
  · exact untracked_allocatesFrom _

end

private theorem expireRound_allocated (nowUs : UInt64) (g : GData) :
    Meets (fun _ => True)
      (fun result => ∀ after effect, result = some (after, effect) → effect.allocated = 0)
      (expireRound nowUs g) := by
  unfold expireRound
  split
  · intro after effect contrary
    cases contrary
  · split
    · apply (meets_trivial _).bind
      intro result _
      dsimp only
      split
      · apply (entryDelTracked_allocated _ _).bind
        intro result nothing after effect isResult
        cases isResult
        exact nothing
      · trivial
    · intro after effect contrary
      cases contrary

theorem MainCall.allocates (strtod : Strtod) (g : GData) (call : MainCall) :
    Meets (fun _ => True)
      (fun result => result.2.allocated ≤ (call.fresh : Multiset Block))
      (call.exec strtod g) := by
  cases call with
  | request alloc cmd =>
      apply (doRequestTracked_allocatesFrom strtod g cmd []).bind
      intro result within
      exact within
  | expire now key ttlMs =>
      apply (meets_trivial _).bind
      intro result _
      exact Multiset.zero_le _
  | ttl now key =>
      apply (meets_trivial _).bind
      intro result _
      exact Multiset.zero_le _
  | round nowUs =>
      apply (expireRound_allocated nowUs g).bind
      intro result nothing
      cases result with
      | none => exact Multiset.zero_le _
      | some result => exact (nothing _ _ rfl).le

def MainStep (strtod : Strtod) (g : GData) (call : MainCall) (after : GData) : Prop :=
  ∃ effect, call.exec strtod g = .ok (after, effect)

private theorem expireLoop_rounds (strtod : Strtod) {nowUs : UInt64} {fuel nworks : Nat}
    {g after : GData} (returned : expireLoop nowUs fuel nworks g = .ok after) :
    ∃ count, Runs (MainStep strtod) g (List.replicate count (.round nowUs)) after := by
  induction fuel generalizing nworks g with
  | zero => cases returned
  | succ fuel ih =>
      rw [expireLoop_eq_rounds] at returned
      obtain ⟨result, first, rest⟩ := bind_eq_ok returned
      cases result with
      | none =>
          cases rest
          exact ⟨0, .nil _⟩
      | some result =>
          obtain ⟨middle, effect⟩ := result
          have step : MainStep strtod g (.round nowUs) middle := by
            refine ⟨effect, ?_⟩
            rw [MainCall.exec, first]
            rfl
          dsimp only at rest
          split at rest
          · cases rest
            exact ⟨1, .cons step (.nil _)⟩
          · obtain ⟨count, run⟩ := ih rest
            exact ⟨count + 1, .cons step run⟩

/-- Every call on the keyspace is made of calls of the main thread. -/
theorem KeyCall.exec_eq_calls (strtod : Strtod) {g after : GData} (call : KeyCall)
    (returned : call.exec strtod g = .ok after) :
    ∃ calls, Runs (MainStep strtod) g calls after := by
  cases call with
  | request alloc cmd =>
      obtain ⟨⟨last, out⟩, replied, final⟩ := bind_eq_ok returned
      cases final
      rw [← doRequestTracked_erased] at replied
      cases tracked : doRequestTracked strtod g alloc cmd [] with
      | error fault =>
          rw [tracked] at replied
          cases replied
      | ok result =>
          obtain ⟨plain, effect⟩ := result
          rw [tracked] at replied
          cases replied
          refine ⟨[.request alloc cmd], .cons ⟨effect, ?_⟩ (.nil _)⟩
          rw [MainCall.exec, tracked]
          rfl
  | expire now key ttlMs =>
      obtain ⟨result, replied, final⟩ := bind_eq_ok returned
      cases final
      refine ⟨[.expire now key ttlMs], .cons ⟨.none, ?_⟩ (.nil _)⟩
      rw [MainCall.exec, replied]
      rfl
  | ttl now key =>
      obtain ⟨result, replied, final⟩ := bind_eq_ok returned
      cases final
      refine ⟨[.ttl now key], .cons ⟨.none, ?_⟩ (.nil _)⟩
      rw [MainCall.exec, replied]
      rfl
  | timers now =>
      obtain ⟨count, run⟩ := expireLoop_rounds strtod returned
      exact ⟨_, run⟩

end RedisC
