/-
The shape of a hash table and of a map in the middle of a resize.

A table is either absent or a power of two of chains with every node in the
bucket of its hash code and a true `size`.  Each function of the table gets one
specification, and the map keeps its shape through every operation whatever
the hash codes are.
-/

import RedisC.Lib.Fallible
import RedisC.Lib.Rows
import RedisC.Hashtable

namespace RedisC

open Fallible

variable {α : Type}

def HTable.nodes (htable : HTable α) : List (HNode α) :=
  (htable.table.getD []).flatten

def HMap.nodes (hmap : HMap α) : List (HNode α) :=
  hmap.htTo.nodes ++ hmap.htFrom.nodes

def HTable.chain (htable : HTable α) (bucket : Nat) : List (HNode α) :=
  ((htable.table.getD [])[bucket]?).getD []

/-- `buckets` is the bucket array of the table and every field agrees with it. -/
structure HTable.Live (htable : HTable α) (buckets : List (List (HNode α))) :
    Prop where
  table : htable.table = some buckets
  length : buckets.length = htable.mask + 1
  power : ∃ exponent, htable.mask + 1 = 2 ^ exponent
  size : htable.size = buckets.flatten.length
  placed : ∀ (bucket : Nat) (chain : List (HNode α)), buckets[bucket]? = some chain →
    ∀ node ∈ chain, node.hcode.toNat &&& htable.mask = bucket

def HTable.WellFormed (htable : HTable α) : Prop :=
  htable = {} ∨ ∃ buckets, htable.Live buckets

/-- The shape of a map between two calls: `ht_from` has a table only while a
resize is going on, and `resizing_pos` never leaves the first bucket. -/
structure HMap.WellFormed (hmap : HMap α) : Prop where
  htTo : hmap.htTo.WellFormed
  htFrom : hmap.htFrom.WellFormed
  paired : hmap.htFrom.table ≠ none → hmap.htTo.table ≠ none
  first : hmap.resizingPos = 0

section Table

variable {htable : HTable α} {buckets : List (List (HNode α))}

theorem HTable.Live.nodes_eq (live : htable.Live buckets) :
    htable.nodes = buckets.flatten := by
  simp [HTable.nodes, live.table]

theorem HTable.Live.chain_eq (live : htable.Live buckets) {bucket : Nat}
    {chain : List (HNode α)} (atBucket : buckets[bucket]? = some chain) :
    htable.chain bucket = chain := by
  simp [HTable.chain, live.table, atBucket]

theorem HTable.Live.bucket_exists (live : htable.Live buckets) (bucket : Nat)
    (inside : bucket ≤ htable.mask) :
    buckets[bucket]? = some (htable.chain bucket) := by
  have inRange : bucket < buckets.length := by
    rw [live.length]
    omega
  have atBucket : buckets[bucket]? = some buckets[bucket] :=
    List.getElem?_eq_getElem inRange
  rw [live.chain_eq atBucket, atBucket]

@[simp] theorem HTable.nodes_empty : ({} : HTable α).nodes = [] := rfl

theorem HTable.WellFormed.size_eq (wellFormed : htable.WellFormed) :
    htable.size = htable.nodes.length := by
  rcases wellFormed with rfl | ⟨buckets, live⟩
  · rfl
  · rw [live.nodes_eq, live.size]

theorem HTable.WellFormed.hScan_eq {β : Type} (wellFormed : htable.WellFormed)
    (visit : β → HNode α → β) (arg : β) :
    hScan htable visit arg = htable.nodes.foldl visit arg := by
  unfold hScan
  split
  · rename_i empty
    rw [wellFormed.size_eq, List.length_eq_zero_iff] at empty
    rw [empty, List.foldl_nil]
  · rename_i someNodes
    rcases wellFormed with rfl | ⟨buckets, live⟩
    · exact absurd rfl someNodes
    · rw [live.nodes_eq, live.table, Option.getD_some, ← live.length, List.take_length,
        List.foldl_flatten]

theorem HTable.WellFormed.live_of_table (wellFormed : htable.WellFormed)
    (present : htable.table ≠ none) : ∃ buckets, htable.Live buckets := by
  rcases wellFormed with rfl | live
  · exact absurd rfl present
  · exact live

theorem HTable.WellFormed.eq_empty (wellFormed : htable.WellFormed)
    (absent : htable.table = none) : htable = {} := by
  rcases wellFormed with rfl | ⟨buckets, live⟩
  · rfl
  · rw [live.table] at absent
    cases absent

theorem HTable.WellFormed.placed (wellFormed : htable.WellFormed)
    {node : HNode α} (member : node ∈ htable.nodes) :
    node ∈ htable.chain (node.hcode.toNat &&& htable.mask) := by
  rcases wellFormed with rfl | ⟨buckets, live⟩
  · cases member
  · rw [live.nodes_eq, Rows.mem_flatten_iff] at member
    obtain ⟨bucket, chain, atBucket, inChain⟩ := member
    rw [live.placed bucket chain atBucket node inChain, live.chain_eq atBucket]
    exact inChain

private theorem two_pow_assertion (exponent : Nat) :
    2 ^ exponent > 0 ∧ (2 ^ exponent - 1) &&& 2 ^ exponent = 0 := by
  refine ⟨Nat.two_pow_pos exponent, ?_⟩
  rw [Nat.and_comm, Nat.and_two_pow_sub_one_eq_mod, Nat.mod_self]

theorem hInit_spec (exponent : Nat) :
    Meets (fun _ => False)
      (fun htable : HTable α =>
        htable.Live (List.replicate (2 ^ exponent) []) ∧
          htable.mask = 2 ^ exponent - 1 ∧ htable.nodes = [])
      (hInit (2 ^ exponent)) := by
  have positive := Nat.two_pow_pos exponent
  have masked : 2 ^ exponent - 1 + 1 = 2 ^ exponent := by omega
  rw [hInit, if_pos (two_pow_assertion exponent), meets_ok]
  refine ⟨⟨rfl, ?_, ⟨exponent, masked⟩, ?_, ?_⟩, rfl, ?_⟩
  · simp only [List.length_replicate, masked]
  · rw [List.flatten_replicate_nil]
    rfl
  · intro bucket chain atBucket node member
    rw [List.getElem?_replicate] at atBucket
    split at atBucket
    · cases atBucket
      cases member
    · cases atBucket
  · exact List.flatten_replicate_nil

/-- `h_insert` puts the node in front of its chain and changes nothing else. -/
theorem HTable.Live.hInsert_spec (live : htable.Live buckets) (node : HNode α) :
    Meets (fun _ => False)
      (fun after : HTable α =>
        after.Live (buckets.set (node.hcode.toNat &&& htable.mask)
          (node :: htable.chain (node.hcode.toNat &&& htable.mask))) ∧
          after.mask = htable.mask ∧ after.size = htable.size + 1 ∧
          after.nodes.Perm (node :: htable.nodes))
      (hInsert htable node) := by
  have atBucket := live.bucket_exists (node.hcode.toNat &&& htable.mask)
    Nat.and_le_right
  have added := Rows.flatten_set_cons atBucket node
  unfold hInsert
  simp only [live.table, atBucket, meets_ok]
  refine ⟨⟨rfl, ?_, live.power, ?_, ?_⟩, trivial, trivial, ?_⟩
  · rw [List.length_set, live.length]
  · rw [added.length_eq, List.length_cons, live.size]
  · intro bucket chain atOther other member
    rw [List.getElem?_set] at atOther
    split at atOther
    · rename_i same
      split at atOther
      · cases atOther
        rcases List.mem_cons.mp member with rfl | older
        · exact same
        · rw [← same]
          exact live.placed _ _ atBucket other older
      · cases atOther
    · exact live.placed bucket chain atOther other member
  · rw [live.nodes_eq]
    exact added

/-- The first chain once `h_insert` has put `node` in front of its own. -/
theorem HTable.Live.first_chain_length (live : htable.Live buckets) {node : HNode α}
    {after : HTable α}
    (inserted : after.Live (buckets.set (node.hcode.toNat &&& htable.mask)
      (node :: htable.chain (node.hcode.toNat &&& htable.mask)))) :
    (after.chain 0).length =
      (htable.chain 0).length + if node.hcode.toNat &&& htable.mask = 0 then 1 else 0 := by
  have inside : 0 < buckets.length := by
    rw [live.length]
    exact Nat.succ_pos _
  have atFirst := live.bucket_exists 0 (Nat.zero_le _)
  split
  · rename_i hashed
    rw [hashed] at inserted
    rw [inserted.chain_eq (List.getElem?_set_self inside)]
    rfl
  · rename_i elsewhere
    rw [inserted.chain_eq ((List.getElem?_set_ne elsewhere).trans atFirst)]
    rfl

/-- `h_detach` takes the node of the slot out and changes nothing else. -/
theorem HTable.Live.hDetach_spec (live : htable.Live buckets) {slot : Slot}
    {node : HNode α} (found : htable.deref slot = some node) :
    Meets (fun _ => False)
      (fun result : HNode α × HTable α =>
        result.1 = node ∧
          result.2.Live (buckets.set slot.bucket
            ((htable.chain slot.bucket).eraseIdx slot.place)) ∧
          result.2.mask = htable.mask ∧ result.2.size + 1 = htable.size ∧
          (node :: result.2.nodes).Perm htable.nodes)
      (hDetach htable slot) := by
  obtain ⟨chain, atBucket, atPlace⟩ :
      ∃ chain, buckets[slot.bucket]? = some chain ∧ chain[slot.place]? = some node := by
    simpa [HTable.deref, live.table, Option.bind_eq_some_iff] using found
  have removed := Rows.flatten_set_eraseIdx atBucket atPlace
  have counted := removed.length_eq
  rw [List.length_cons] at counted
  unfold hDetach
  simp only [live.table, atBucket, atPlace, meets_ok, live.chain_eq atBucket]
  refine ⟨trivial, ⟨rfl, ?_, live.power, ?_, ?_⟩, trivial, ?_, ?_⟩
  · rw [List.length_set, live.length]
  · change htable.size - 1 = _
    rw [live.size]
    omega
  · intro bucket other atOther item member
    rw [List.getElem?_set] at atOther
    split at atOther
    · rename_i same
      split at atOther
      · cases atOther
        rw [← same]
        exact live.placed _ _ atBucket item (List.mem_of_mem_eraseIdx member)
      · cases atOther
    · exact live.placed bucket other atOther item member
  · rw [live.size]
    omega
  · rw [live.nodes_eq]
    exact removed

/-- The slot that `h_lookup` answers holds a matching node of the table; when
it answers null, no node in the bucket of the key matches. -/
theorem HTable.WellFormed.hLookup_spec (wellFormed : htable.WellFormed)
    (hcode : UInt64) (cmp : HNode α → Bool) :
    Meets (fun _ => False)
      (fun answer : Option Slot =>
        match answer with
        | some slot => ∃ node, htable.deref slot = some node ∧ cmp node = true
        | none => ∀ node ∈ htable.chain (hcode.toNat &&& htable.mask), cmp node = false)
      (hLookup htable hcode cmp) := by
  rcases wellFormed with rfl | ⟨buckets, live⟩
  · intro node member
    cases member
  · have atBucket := live.bucket_exists (hcode.toNat &&& htable.mask)
      Nat.and_le_right
    unfold hLookup
    simp only [live.table, atBucket, meets_ok]
    cases search : (htable.chain (hcode.toNat &&& htable.mask)).findIdx? cmp with
    | none =>
        simpa using search
    | some place =>
        obtain ⟨inChain, matched, _⟩ := List.findIdx?_eq_some_iff_getElem.mp search
        refine ⟨_, ?_, matched⟩
        simp [HTable.deref, live.table, atBucket, inChain]

theorem HTable.WellFormed.mem_of_deref (wellFormed : htable.WellFormed)
    {slot : Slot} {node : HNode α} (found : htable.deref slot = some node) :
    node ∈ htable.nodes := by
  rcases wellFormed with rfl | ⟨buckets, live⟩
  · cases found
  · obtain ⟨chain, atBucket, atPlace⟩ :
        ∃ chain, buckets[slot.bucket]? = some chain ∧ chain[slot.place]? = some node := by
      simpa [HTable.deref, live.table, Option.bind_eq_some_iff] using found
    rw [live.nodes_eq, Rows.mem_flatten_iff]
    exact ⟨slot.bucket, chain, atBucket, List.mem_of_getElem? atPlace⟩

theorem HTable.Live.deref_head (live : htable.Live buckets) (bucket : Nat) :
    htable.deref ⟨bucket, 0⟩ = (htable.chain bucket).head? := by
  cases atBucket : buckets[bucket]? with
  | none => simp [HTable.deref, HTable.chain, live.table, atBucket]
  | some chain =>
      simp [HTable.deref, HTable.chain, live.table, atBucket, List.head?_eq_getElem?]

end Table

section Map

variable {hmap : HMap α}

theorem HMap.wellFormed_empty : ({} : HMap α).WellFormed :=
  ⟨.inl rfl, .inl rfl, fun present => absurd rfl present, rfl⟩

theorem HMap.WellFormed.hmMigrateOne_spec (wellFormed : hmap.WellFormed)
    (resizing : hmap.htFrom.table ≠ none) {node : HNode α} {rest : List (HNode α)}
    (head : hmap.htFrom.chain hmap.resizingPos = node :: rest) :
    Meets (fun _ => False)
      (fun after : HMap α =>
        after.WellFormed ∧ after.htFrom.table ≠ none ∧
          after.htFrom.chain after.resizingPos = rest ∧
          after.htFrom.size + 1 = hmap.htFrom.size ∧
          after.htTo.mask = hmap.htTo.mask ∧ after.htFrom.mask = hmap.htFrom.mask ∧
          after.nodes.Perm hmap.nodes)
      (hmMigrateOne hmap) := by
  obtain ⟨fromBuckets, fromLive⟩ := wellFormed.htFrom.live_of_table resizing
  obtain ⟨toBuckets, toLive⟩ :=
    wellFormed.htTo.live_of_table (wellFormed.paired resizing)
  have found : hmap.htFrom.deref ⟨hmap.resizingPos, 0⟩ = some node := by
    rw [fromLive.deref_head, head]
    rfl
  unfold hmMigrateOne
  refine (fromLive.hDetach_spec found).bind ?_
  intro result ensured
  rcases result with ⟨detached, htFrom⟩
  rcases ensured with ⟨same, fromLive', fromMask, fromSize, fromPerm⟩
  dsimp only at same fromLive' fromMask fromSize fromPerm
  subst same
  refine (toLive.hInsert_spec detached).bind ?_
  intro htTo ensured
  rcases ensured with ⟨toLive', toMask, toSize, toPerm⟩
  have remaining : htFrom.chain hmap.resizingPos = rest := by
    have inside : hmap.resizingPos < fromBuckets.length := by
      rw [fromLive.length, wellFormed.first]
      exact Nat.succ_pos _
    apply fromLive'.chain_eq
    rw [List.getElem?_set_self inside, head]
    rfl
  refine ⟨⟨.inr ⟨_, toLive'⟩, .inr ⟨_, fromLive'⟩, ?_, wellFormed.first⟩, ?_,
    remaining, fromSize, toMask, fromMask, ?_⟩
  · intro _present
    change htTo.table ≠ none
    rw [toLive'.table]
    exact Option.some_ne_none _
  · change htFrom.table ≠ none
    rw [fromLive'.table]
    exact Option.some_ne_none _
  · change (htTo.nodes ++ htFrom.nodes).Perm (hmap.htTo.nodes ++ hmap.htFrom.nodes)
    calc
      (htTo.nodes ++ htFrom.nodes).Perm ((detached :: hmap.htTo.nodes) ++ htFrom.nodes) :=
        toPerm.append_right _
      List.Perm _ (hmap.htTo.nodes ++ detached :: htFrom.nodes) :=
        List.perm_middle.symm
      List.Perm _ (hmap.htTo.nodes ++ hmap.htFrom.nodes) :=
        fromPerm.append_left _

/-- What the migration loop has done when it ends: nodes moved, none lost, and
either the quota is used up or `ht_from` is empty. -/
structure HMap.Migrated (before after : HMap α) (quota : Nat) : Prop where
  wellFormed : after.WellFormed
  resizing : after.htFrom.table ≠ none
  toMask : after.htTo.mask = before.htTo.mask
  fromMask : after.htFrom.mask = before.htFrom.mask
  perm : after.nodes.Perm before.nodes
  done : after.htFrom.size = 0 ∨ after.htFrom.size + quota = before.htFrom.size

theorem HMap.WellFormed.hmHelpResizingLoop_spec (wellFormed : hmap.WellFormed)
    (resizing : hmap.htFrom.table ≠ none) (fuel workDone : Nat) :
    Meets (· = .spin)
      (fun after => hmap.Migrated after (kResizingWork - workDone))
      (hmHelpResizingLoop fuel workDone hmap) := by
  induction fuel generalizing workDone hmap with
  | zero => rfl
  | succ fuel ih =>
      unfold hmHelpResizingLoop
      split
      · rename_i more
        obtain ⟨buckets, live⟩ := wellFormed.htFrom.live_of_table resizing
        rw [live.deref_head]
        cases head : hmap.htFrom.chain hmap.resizingPos with
        | nil => exact ih wellFormed resizing workDone
        | cons node rest =>
            refine ((wellFormed.hmMigrateOne_spec resizing head).widen
              (fun _ impossible => impossible.elim)).bind ?_
            intro moved ensured
            rcases ensured with ⟨movedForm, movedResizing, _, movedSize, toMask, fromMask, perm⟩
            refine (ih movedForm movedResizing (workDone + 1)).mono ?_
            intro after migrated
            refine ⟨migrated.wellFormed, migrated.resizing,
              migrated.toMask.trans toMask, migrated.fromMask.trans fromMask,
              migrated.perm.trans perm, ?_⟩
            have done := migrated.done
            omega
      · rename_i stop
        refine ⟨wellFormed, resizing, rfl, rfl, List.Perm.refl _, ?_⟩
        omega

/-- What `hm_help_resizing` does to a map: it moves nodes between the tables
and drops `ht_from` once that is empty. -/
structure HMap.Helped (before after : HMap α) : Prop where
  wellFormed : after.WellFormed
  toMask : after.htTo.mask = before.htTo.mask
  perm : after.nodes.Perm before.nodes
  done : after.htFrom = {} ∨
    (before.htFrom.table ≠ none ∧ after.htFrom.mask = before.htFrom.mask ∧
      0 < after.htFrom.size ∧
      after.htFrom.size + kResizingWork = before.htFrom.size)

theorem HMap.WellFormed.hmHelpResizing_spec (wellFormed : hmap.WellFormed)
    (fuel : Nat) :
    Meets (· = .spin) (fun after => hmap.Helped after)
      (hmHelpResizing fuel hmap) := by
  unfold hmHelpResizing
  split
  · rename_i absent
    exact ⟨wellFormed, rfl, List.Perm.refl _, .inl (wellFormed.htFrom.eq_empty absent)⟩
  · rename_i table present
    have resizing : hmap.htFrom.table ≠ none := by
      rw [present]
      exact Option.some_ne_none _
    refine (wellFormed.hmHelpResizingLoop_spec resizing fuel 0).bind ?_
    intro moved migrated
    split
    · rename_i emptied
      have noNodes : moved.htFrom.nodes = [] := by
        apply List.eq_nil_of_length_eq_zero
        rw [← migrated.wellFormed.htFrom.size_eq, emptied]
      refine ⟨⟨migrated.wellFormed.htTo, .inl rfl, fun absent => absurd rfl absent,
        migrated.wellFormed.first⟩, migrated.toMask, ?_, .inl rfl⟩
      have perm := migrated.perm
      rw [HMap.nodes, noNodes] at perm
      exact perm
    · rename_i remaining
      refine ⟨migrated.wellFormed, migrated.toMask, migrated.perm,
        .inr ⟨resizing, migrated.fromMask, by omega, ?_⟩⟩
      rcases migrated.done with emptied | counted
      · exact absurd emptied remaining
      · exact counted

/-- The number of nodes in the first bucket of `ht_to` once `node` is in it. -/
def HMap.firstBucketLoad (hmap : HMap α) (node : HNode α) : Nat :=
  (hmap.htTo.chain 0).length +
    if node.hcode.toNat &&& hmap.htTo.mask = 0 then 1 else 0

/-- What `hm_insert` does before it helps the resize.  The three cases are an
insertion during a resize, one below the load factor, and one that starts a
resize. -/
structure HMap.Inserted (before : HMap α) (node : HNode α) (after : HMap α) :
    Prop where
  wellFormed : after.WellFormed
  perm : after.nodes.Perm (node :: before.nodes)
  grown :
    (before.htFrom.table ≠ none ∧ after.htFrom = before.htFrom ∧
      after.htTo.mask = before.htTo.mask ∧
      after.htTo.size = before.htTo.size + 1) ∨
    (before.htFrom = {} ∧ after.htFrom = {} ∧
      (before.htTo.size + 1) / (before.htTo.mask + 1) < kMaxLoadFactor ∧
      after.htTo.size = before.htTo.size + 1 ∧
      after.htTo.size / (after.htTo.mask + 1) < kMaxLoadFactor) ∨
    (before.htFrom = {} ∧
      kMaxLoadFactor ≤ (before.htTo.size + 1) / (before.htTo.mask + 1) ∧
      after.htFrom.table ≠ none ∧ after.htFrom.mask = before.htTo.mask ∧
      after.htFrom.size = before.htTo.size + 1 ∧
      (after.htFrom.chain after.resizingPos).length = before.firstBucketLoad node ∧
      after.htTo.size = 0 ∧ after.htTo.mask + 1 = (before.htTo.mask + 1) * 2)

/-- `ht_to` with a table, as `hm_insert` has it after its first test. -/
theorem HMap.WellFormed.hmInitTo_spec (wellFormed : hmap.WellFormed) :
    Meets (fun _ => False)
      (fun htable : HTable α =>
        (∃ buckets, htable.Live buckets) ∧ htable.nodes = hmap.htTo.nodes ∧
          htable.size = hmap.htTo.size ∧
          (hmap.htTo.table ≠ none → htable = hmap.htTo) ∧
          (hmap.htTo.table = none → hmap.htTo = {} ∧ htable.mask = 3))
      (hmInitTo hmap) := by
  unfold hmInitTo
  cases present : hmap.htTo.table with
  | none =>
      have absent := wellFormed.htTo.eq_empty present
      refine (hInit_spec 2).mono ?_
      intro htable ensured
      rcases ensured with ⟨live, mask, noNodes⟩
      refine ⟨⟨_, live⟩, ?_, ?_, fun impossible => absurd rfl impossible,
        fun _ => ⟨absent, mask⟩⟩
      · rw [noNodes, absent]
        rfl
      · rw [absent, live.size, List.flatten_replicate_nil]
        rfl
  | some table =>
      refine ⟨?_, rfl, rfl, fun _ => rfl, fun impossible => by cases impossible⟩
      apply wellFormed.htTo.live_of_table
      rw [present]
      exact Option.some_ne_none _

theorem HMap.WellFormed.hmStartResizing_spec (wellFormed : hmap.WellFormed)
    (idle : hmap.htFrom.table = none) (present : hmap.htTo.table ≠ none) :
    Meets (fun _ => False)
      (fun after : HMap α =>
        after.WellFormed ∧ after.htFrom = hmap.htTo ∧ after.resizingPos = 0 ∧
          after.nodes = hmap.htTo.nodes ∧ after.htTo.size = 0 ∧
          after.htTo.mask + 1 = (hmap.htTo.mask + 1) * 2)
      (hmStartResizing hmap) := by
  obtain ⟨buckets, live⟩ := wellFormed.htTo.live_of_table present
  obtain ⟨exponent, power⟩ := live.power
  have doubled : (hmap.htTo.mask + 1) * 2 = 2 ^ (exponent + 1) := by
    rw [power, Nat.pow_succ]
  have positive := Nat.two_pow_pos (exponent + 1)
  unfold hmStartResizing
  rw [idle, doubled]
  refine (hInit_spec (exponent + 1)).bind ?_
  intro htTo ensured
  rcases ensured with ⟨toLive, toMask, noNodes⟩
  refine ⟨⟨.inr ⟨_, toLive⟩, wellFormed.htTo, fun _ => ?_, rfl⟩, rfl, rfl, ?_, ?_, ?_⟩
  · change htTo.table ≠ none
    rw [toLive.table]
    exact Option.some_ne_none _
  · change htTo.nodes ++ hmap.htTo.nodes = hmap.htTo.nodes
    rw [noNodes, List.nil_append]
  · change htTo.size = 0
    rw [toLive.size, List.flatten_replicate_nil]
    rfl
  · change htTo.mask + 1 = 2 ^ (exponent + 1)
    omega

/-- A table of four buckets with one node is as far from the load factor as the absent
table with its zero mask. -/
theorem HMap.loaded_iff {mask : Nat}
    (kept : hmap.htTo.table ≠ none → mask = hmap.htTo.mask)
    (fresh : hmap.htTo.table = none → hmap.htTo = {} ∧ mask = 3) :
    kMaxLoadFactor ≤ (hmap.htTo.size + 1) / (mask + 1) ↔
      kMaxLoadFactor ≤ (hmap.htTo.size + 1) / (hmap.htTo.mask + 1) := by
  by_cases absent : hmap.htTo.table = none
  · obtain ⟨empty, maskIs⟩ := fresh absent
    rw [maskIs, empty]
    change 8 ≤ (0 + 1) / (3 + 1) ↔ 8 ≤ (0 + 1) / (0 + 1)
    decide
  · rw [kept absent]

theorem HMap.WellFormed.hmInsertNode_spec (wellFormed : hmap.WellFormed)
    (node : HNode α) :
    Meets (fun _ => False) (fun after => hmap.Inserted node after)
      (hmInsertNode hmap node) := by
  unfold hmInsertNode
  refine wellFormed.hmInitTo_spec.bind ?_
  intro htable ensured
  rcases ensured with ⟨⟨buckets, live⟩, sameNodes, sameSize, kept, fresh⟩
  refine (live.hInsert_spec node).bind ?_
  intro htTo ensured
  rcases ensured with ⟨toLive, toMask, toSize, toPerm⟩
  have toPresent : htTo.table ≠ none := by
    rw [toLive.table]
    exact Option.some_ne_none _
  have bothPerm : (htTo.nodes ++ hmap.htFrom.nodes).Perm (node :: hmap.nodes) := by
    rw [sameNodes] at toPerm
    exact toPerm.append_right _
  have bothForm : ({ hmap with htTo := htTo } : HMap α).WellFormed :=
    ⟨.inr ⟨_, toLive⟩, wellFormed.htFrom, fun _ => toPresent, wellFormed.first⟩
  cases idle : hmap.htFrom.table with
  | some table =>
      have resizing : hmap.htFrom.table ≠ none := by
        rw [idle]
        exact Option.some_ne_none _
      have unchanged := kept (wellFormed.paired resizing)
      simp only [idle, pure_eq_ok, meets_ok]
      refine ⟨bothForm, bothPerm, .inl ⟨resizing, rfl, ?_, ?_⟩⟩
      · rw [← unchanged]
        exact toMask
      · rw [← unchanged]
        exact toSize
  | none =>
      have fromEmpty := wellFormed.htFrom.eq_empty idle
      have sizeNow : htTo.size = hmap.htTo.size + 1 := by rw [toSize, sameSize]
      have sameLoad : kMaxLoadFactor ≤ htTo.size / (htTo.mask + 1) ↔
          kMaxLoadFactor ≤ (hmap.htTo.size + 1) / (hmap.htTo.mask + 1) := by
        rw [sizeNow, toMask]
        exact HMap.loaded_iff (fun present => by rw [kept present]) fresh
      simp only [idle, pure_eq_ok]
      split
      · rename_i loaded
        refine (bothForm.hmStartResizing_spec idle toPresent).mono ?_
        intro after ensured
        rcases ensured with ⟨form, fromIs, first, nodesAre, toEmpty, doubled⟩
        have present : hmap.htTo.table ≠ none := by
          intro absent
          obtain ⟨empty, _⟩ := fresh absent
          have heavy := sameLoad.mp loaded
          rw [empty] at heavy
          change 8 ≤ (0 + 1) / (0 + 1) at heavy
          exact absurd heavy (by decide)
        have unchanged := kept present
        subst unchanged
        refine ⟨form, ?_, .inr (.inr ⟨fromEmpty, sameLoad.mp loaded, ?_, ?_, ?_, ?_,
          toEmpty, ?_⟩)⟩
        · rw [nodesAre]
          have perm := bothPerm
          rw [fromEmpty, HTable.nodes_empty, List.append_nil] at perm
          exact perm
        · rw [fromIs]
          exact toPresent
        · rw [fromIs]
          exact toMask
        · rw [fromIs]
          exact toSize
        · rw [fromIs, first]
          exact live.first_chain_length toLive
        · rw [doubled]
          change (htTo.mask + 1) * 2 = _
          rw [toMask]
      · rename_i light
        rw [meets_ok]
        refine ⟨bothForm, bothPerm, .inr (.inl ⟨fromEmpty, fromEmpty, ?_, sizeNow, ?_⟩)⟩
        · exact Nat.lt_of_not_le (fun heavy => light (sameLoad.mpr heavy))
        · exact Nat.lt_of_not_le light

/-! ### Lookups and removals -/

/-- The answer of a search for `cmp` in a map with the given nodes. -/
structure Answers (nodes : List (HNode α)) (hcode : UInt64)
    (cmp : HNode α → Bool) (answer : Option (HNode α)) : Prop where
  sound : ∀ node, answer = some node → node ∈ nodes ∧ cmp node = true
  complete : answer = none →
    ∀ node ∈ nodes, node.hcode = hcode → cmp node = false

theorem Answers.perm {nodes others : List (HNode α)} {hcode : UInt64}
    {cmp : HNode α → Bool} {answer : Option (HNode α)}
    (answers : Answers nodes hcode cmp answer) (perm : nodes.Perm others) :
    Answers others hcode cmp answer :=
  ⟨fun node found =>
      ⟨perm.mem_iff.mp (answers.sound node found).1, (answers.sound node found).2⟩,
    fun missing node member => answers.complete missing node (perm.mem_iff.mpr member)⟩

theorem Answers.found {nodes : List (HNode α)} {hcode : UInt64}
    {cmp : HNode α → Bool} {node : HNode α} (member : node ∈ nodes)
    (matched : cmp node = true) : Answers nodes hcode cmp (some node) := by
  refine ⟨fun other same => ?_, fun missing => by cases missing⟩
  cases same
  exact ⟨member, matched⟩

theorem Answers.missed {nodes : List (HNode α)} {hcode : UInt64}
    {cmp : HNode α → Bool}
    (unmatched : ∀ node ∈ nodes, node.hcode = hcode → cmp node = false) :
    Answers nodes hcode cmp none :=
  ⟨fun _ impossible => absurd impossible.symm (Option.some_ne_none _),
    fun _ => unmatched⟩

theorem HTable.WellFormed.no_match {htable : HTable α}
    (wellFormed : htable.WellFormed) {hcode : UInt64} {cmp : HNode α → Bool}
    (missed : ∀ node ∈ htable.chain (hcode.toNat &&& htable.mask), cmp node = false) :
    ∀ node ∈ htable.nodes, node.hcode = hcode → cmp node = false := by
  intro node member hashed
  apply missed
  rw [← hashed]
  exact wellFormed.placed member

theorem HMap.WellFormed.missed (wellFormed : hmap.WellFormed) {hcode : UInt64}
    {cmp : HNode α → Bool}
    (inTo : ∀ node ∈ hmap.htTo.chain (hcode.toNat &&& hmap.htTo.mask), cmp node = false)
    (inFrom : ∀ node ∈ hmap.htFrom.chain (hcode.toNat &&& hmap.htFrom.mask),
      cmp node = false) :
    Answers hmap.nodes hcode cmp none := by
  apply Answers.missed
  intro node member hashed
  rcases List.mem_append.mp member with new | old
  · exact wellFormed.htTo.no_match inTo node new hashed
  · exact wellFormed.htFrom.no_match inFrom node old hashed

theorem HMap.WellFormed.hmLookup_spec (wellFormed : hmap.WellFormed) (fuel : Nat)
    (hcode : UInt64) (cmp : HNode α → Bool) :
    Meets (· = .spin)
      (fun result : HMap α × Option (HNode α) =>
        hmap.Helped result.1 ∧ Answers hmap.nodes hcode cmp result.2)
      (hmLookup fuel hmap hcode cmp) := by
  unfold hmLookup
  refine (wellFormed.hmHelpResizing_spec fuel).bind ?_
  intro after helped
  have toForm := helped.wellFormed.htTo
  have fromForm := helped.wellFormed.htFrom
  refine ((toForm.hLookup_spec hcode cmp).widen (fun _ no => no.elim)).bind ?_
  intro index found
  rcases index with _ | slot
  · refine ((fromForm.hLookup_spec hcode cmp).widen (fun _ no => no.elim)).bind ?_
    intro index foundOld
    rcases index with _ | slot
    · exact ⟨helped, (helped.wellFormed.missed found foundOld).perm helped.perm⟩
    · obtain ⟨node, atSlot, matched⟩ := foundOld
      simp only [atSlot, pure_eq_ok, meets_ok]
      have member : node ∈ after.nodes :=
        List.mem_append_right _ (fromForm.mem_of_deref atSlot)
      exact ⟨helped, (Answers.found member matched).perm helped.perm⟩
  · obtain ⟨node, atSlot, matched⟩ := found
    simp only [atSlot, pure_eq_ok, meets_ok]
    have member : node ∈ after.nodes :=
      List.mem_append_left _ (toForm.mem_of_deref atSlot)
    exact ⟨helped, (Answers.found member matched).perm helped.perm⟩

theorem HTable.WellFormed.hDetach_spec {htable : HTable α} (wellFormed : htable.WellFormed)
    {slot : Slot} {node : HNode α} (found : htable.deref slot = some node) :
    Meets (fun _ => False)
      (fun result : HNode α × HTable α =>
        result.1 = node ∧ (∃ buckets, result.2.Live buckets) ∧ htable.table ≠ none ∧
          result.2.mask = htable.mask ∧ result.2.size ≤ htable.size ∧
          (node :: result.2.nodes).Perm htable.nodes)
      (hDetach htable slot) := by
  rcases wellFormed with rfl | ⟨buckets, live⟩
  · cases found
  · apply (live.hDetach_spec found).mono
    intro result ensured
    rcases ensured with ⟨same, resultLive, mask, size, perm⟩
    have present : htable.table ≠ none := by
      rw [live.table]
      exact Option.some_ne_none _
    exact ⟨same, ⟨_, resultLive⟩, present, mask, by omega, perm⟩

def Removes (before after : List (HNode α)) : Option (HNode α) → Prop
  | none => after.Perm before
  | some node => (node :: after).Perm before

theorem HMap.WellFormed.hmPop_spec (wellFormed : hmap.WellFormed) (fuel : Nat)
    (hcode : UInt64) (cmp : HNode α → Bool) :
    Meets (· = .spin)
      (fun result : HMap α × Option (HNode α) =>
        result.1.WellFormed ∧ Answers hmap.nodes hcode cmp result.2 ∧
          Removes hmap.nodes result.1.nodes result.2)
      (hmPop fuel hmap hcode cmp) := by
  unfold hmPop
  refine (wellFormed.hmHelpResizing_spec fuel).bind ?_
  intro helpedMap helped
  have toForm := helped.wellFormed.htTo
  have fromForm := helped.wellFormed.htFrom
  refine ((toForm.hLookup_spec hcode cmp).widen (fun _ no => no.elim)).bind ?_
  intro index found
  rcases index with _ | slot
  · refine ((fromForm.hLookup_spec hcode cmp).widen (fun _ no => no.elim)).bind ?_
    intro index foundOld
    rcases index with _ | slot
    · exact ⟨helped.wellFormed, (helped.wellFormed.missed found foundOld).perm helped.perm,
        helped.perm⟩
    · obtain ⟨node, atSlot, matched⟩ := foundOld
      refine ((fromForm.hDetach_spec atSlot).widen (fun _ no => no.elim)).bind ?_
      intro result ensured
      rcases result with ⟨detached, htFrom⟩
      rcases ensured with ⟨same, fromLive, present, _, _, fromPerm⟩
      dsimp only at same fromLive fromPerm
      subst same
      have moved : (detached :: (helpedMap.htTo.nodes ++ htFrom.nodes)).Perm
          helpedMap.nodes :=
        List.perm_middle.symm.trans (fromPerm.append_left _)
      have member : detached ∈ helpedMap.nodes :=
        List.mem_append_right _ (fromForm.mem_of_deref atSlot)
      exact ⟨⟨toForm, .inr fromLive, fun _ => helped.wellFormed.paired present,
          helped.wellFormed.first⟩,
        (Answers.found member matched).perm helped.perm, moved.trans helped.perm⟩
  · obtain ⟨node, atSlot, matched⟩ := found
    refine ((toForm.hDetach_spec atSlot).widen (fun _ no => no.elim)).bind ?_
    intro result ensured
    rcases result with ⟨detached, htTo⟩
    rcases ensured with ⟨same, ⟨buckets, toLive⟩, _, _, _, toPerm⟩
    dsimp only at same toLive toPerm
    subst same
    have present : htTo.table ≠ none := by
      rw [toLive.table]
      exact Option.some_ne_none _
    have moved : (detached :: (htTo.nodes ++ helpedMap.htFrom.nodes)).Perm
        helpedMap.nodes := toPerm.append_right _
    have member : detached ∈ helpedMap.nodes :=
      List.mem_append_left _ (toForm.mem_of_deref atSlot)
    exact ⟨⟨.inr ⟨_, toLive⟩, fromForm, fun _ => present, helped.wellFormed.first⟩,
      (Answers.found member matched).perm helped.perm, moved.trans helped.perm⟩

theorem HMap.WellFormed.hmInsert_spec (wellFormed : hmap.WellFormed) (fuel : Nat)
    (node : HNode α) :
    Meets (· = .spin)
      (fun after : HMap α => after.WellFormed ∧ after.nodes.Perm (node :: hmap.nodes))
      (hmInsert fuel hmap node) := by
  unfold hmInsert
  refine ((wellFormed.hmInsertNode_spec node).widen (fun _ no => no.elim)).bind ?_
  intro grown inserted
  refine (inserted.wellFormed.hmHelpResizing_spec fuel).mono ?_
  intro after helped
  exact ⟨helped.wellFormed, helped.perm.trans inserted.perm⟩

end Map

end RedisC
