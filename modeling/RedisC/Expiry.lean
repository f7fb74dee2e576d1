/-
Deadlines of keys: `do_expire` and the expiry loop of `process_timers`.

The loop takes the least item of the heap, and the entry that the item refers to
is in the map, so the pop finds its node and the assertion holds.  Each round
removes one item that is due and leaves the heap in order, so the next root is
again the least, and the loop ends when none is due or at its limit.
-/

import RedisC.KeyspaceInvariant

namespace RedisC

open Fallible

variable {g : GData} {ents : List Ptr} {dict : Dict} {due : Bytes → Option UInt64}

theorem GData.Represents.withTimers (represents : g.Represents ents dict due) {ent : Ptr}
    (member : ent ∈ ents) {value : Option UInt64} {timers : Timers}
    (set : g.timers.SetTo ent value timers) :
    ({ g with timers := timers } : GData).Represents ents dict
      (Function.update due (g.entry ent).key value) := by
  refine ⟨represents.keyed, represents.hashed, represents.recorded, ?_, set.linked, ?_, ?_⟩
  · intro key missing
    have apart : key ≠ (g.entry ent).key := fun same => missing ent member same.symm
    rw [Function.update_of_ne apart]
    exact represents.absent key missing
  · intro other outside
    have apart : other ≠ ent := by
      intro same
      rw [same] at outside
      exact outside member
    change timers.deadline other = none
    rw [set.deadline, Function.update_of_ne apart]
    exact represents.undated other outside
  · intro other otherMember
    change timers.deadline other = Function.update due _ _ (g.entry other).key
    rw [set.deadline]
    by_cases same : other = ent
    · rw [same, Function.update_self, Function.update_self]
    · have apart : (g.entry other).key ≠ (g.entry ent).key :=
        fun equal => same (represents.eq_of_key member otherMember equal)
      rw [Function.update_of_ne same, Function.update_of_ne apart]
      exact represents.dated other otherMember

/-- The deadline that `do_expire` gives to a key that is there. -/
def expireAt (ttlMs : Int) (now : UInt64) : Option UInt64 :=
  if ttlMs < 0 then none else some (ttlDeadline ttlMs now)

def dueAfter (dict : Dict) (due : Bytes → Option UInt64) (now : UInt64) (key ttlMs : Bytes) :
    Bytes → Option UInt64 :=
  match str2int ttlMs, dict key with
  | some ttlMs, some _ => Function.update due key (expireAt ttlMs now)
  | _, _ => due

theorem doExpire_spec (represents : g.Represents ents dict due) (now : UInt64)
    (key ttlMs out : Bytes) :
    Meets (· = .spin)
      (fun result : GData × Bytes =>
        result.1.Represents ents dict (dueAfter dict due now key ttlMs))
      (doExpire g now key ttlMs out) := by
  unfold doExpire dueAfter
  cases str2int ttlMs with
  | none => exact represents
  | some ttlMs =>
      apply represents.lookup_bind key
      · rfl
      · intro after afterRepresents _ _ missing
        simp only [missing]
        exact afterRepresents
      · intro after ent record afterRepresents _ member keyIs found _
        simp only [found]
        apply ((entrySetTtl_spec afterRepresents.linked ent ttlMs now).widen
          fun _ => False.elim).bind
        intro timers set
        rw [← keyIs]
        exact afterRepresents.withTimers member set

/-! ### The loop -/

def without {β : Type} (all : Bytes → Option β) (gone : List Bytes) (key : Bytes) : Option β :=
  if key ∈ gone then none else all key

private theorem without_nil {β : Type} (all : Bytes → Option β) : without all [] = all := by
  funext key
  rw [without, if_neg List.not_mem_nil]

private theorem without_update {β : Type} (all : Bytes → Option β) (key : Bytes)
    (gone : List Bytes) :
    without (Function.update all key none) gone = without all (key :: gone) := by
  funext other
  unfold without
  by_cases later : other ∈ gone
  · rw [if_pos later, if_pos (List.mem_cons_of_mem _ later)]
  · rw [if_neg later]
    by_cases same : other = key
    · rw [same, Function.update_self, if_pos List.mem_cons_self]
    · have apart : other ∉ key :: gone := by
        intro member
        rcases List.mem_cons.mp member with now | contrary
        · exact same now
        · exact later contrary
      rw [Function.update_of_ne same, if_neg apart]

theorem GData.Represents.decides_same (represents : g.Represents ents dict due) (ent : Ptr) :
    Decides g.db (g.entry ent).hcode (hnodeSame ent) (· = ent) := by
  constructor
  · intro node _
    exact beq_iff_eq
  · intro node member same
    have inside := represents.keyed.owner_mem member
    rw [represents.keyed.hashed node member, same]
    rw [same] at inside
    exact (represents.hashed ent inside).symm

theorem GData.Represents.ref_mem (represents : g.Represents ents dict due) {item : HeapItem}
    (member : item ∈ g.timers.heap) :
    item.ref ∈ ents ∧ due (g.entry item.ref).key = some item.val := by
  have dated := represents.linked.deadline_eq_some_iff.mpr ⟨item, member, rfl, rfl⟩
  have inside : item.ref ∈ ents := by
    by_contra outside
    rw [represents.undated item.ref outside] at dated
    cases dated
  rw [represents.dated item.ref inside] at dated
  exact ⟨inside, dated⟩

theorem Timers.Linked.first_le {timers : Timers} (linked : timers.Linked) {first : HeapItem}
    {others : List HeapItem} (heapIs : timers.heap = first :: others) {item : HeapItem}
    (member : item ∈ timers.heap) : first.val ≤ item.val := by
  obtain ⟨i, found⟩ := List.getElem?_of_mem member
  have inside := (List.getElem?_eq_some_iff.mp found).1
  have root : timers.heap[0]? = some first := by
    rw [heapIs]
    rfl
  have least := linked.ordered.least inside
  rw [vals_of_getElem? root, vals_of_getElem? found] at least
  exact UInt64.le_iff_toNat_le.mpr least

/-- The number of items that are due. -/
def dueCount (nowUs : UInt64) (heap : List HeapItem) : Nat :=
  heap.countP fun item => decide (item.val < nowUs)

/-- What the loop has done: the entries in `gone` were due and have lost their deadlines,
none of those that are left is due before them, and nothing else has changed. -/
structure Swept (g : GData) (nowUs : UInt64) (gone : List Ptr) (after : GData) : Prop where
  entry : after.entry = g.entry
  deadline : ∀ ent, after.timers.deadline ent =
    if ent ∈ gone then none else g.timers.deadline ent
  wasDue : ∀ ent ∈ gone, ∃ deadline, g.timers.deadline ent = some deadline ∧
    deadline < nowUs ∧
    ∀ other later, after.timers.deadline other = some later → deadline ≤ later
  nodup : gone.Nodup

private theorem swept_nil (g : GData) (nowUs : UInt64) : Swept g nowUs [] g := by
  constructor
  · rfl
  · intro ent
    rw [if_neg List.not_mem_nil]
  · intro ent member
    cases member
  · exact List.nodup_nil

theorem Swept.cons {middle after : GData} {ent : Ptr} {first nowUs : UInt64} {gone : List Ptr}
    (swept : Swept middle nowUs gone after) (sameEntry : middle.entry = g.entry)
    (removed : middle.timers.deadline = Function.update g.timers.deadline ent none)
    (firstIs : g.timers.deadline ent = some first) (early : first < nowUs)
    (least : ∀ other later, g.timers.deadline other = some later → first ≤ later) :
    Swept g nowUs (ent :: gone) after := by
  have before : ∀ {other : Ptr} {later : UInt64}, middle.timers.deadline other = some later →
      other ≠ ent ∧ g.timers.deadline other = some later := by
    intro other later found
    rw [removed] at found
    by_cases same : other = ent
    · rw [same, Function.update_self] at found
      cases found
    · rw [Function.update_of_ne same] at found
      exact ⟨same, found⟩
  have left : ∀ {other : Ptr} {later : UInt64}, after.timers.deadline other = some later →
      middle.timers.deadline other = some later := by
    intro other later found
    rw [swept.deadline] at found
    split at found
    · cases found
    · exact found
  constructor
  · rw [swept.entry, sameEntry]
  · intro other
    rw [swept.deadline, removed]
    by_cases same : other = ent
    · rw [same, Function.update_self, ite_self, if_pos List.mem_cons_self]
    · rw [Function.update_of_ne same]
      apply ite_congr
      · rw [List.mem_cons, or_iff_right same]
      · exact fun _ => rfl
      · exact fun _ => rfl
  · intro other member
    rcases List.mem_cons.mp member with rfl | later
    · exact ⟨first, firstIs, early, fun last deadline found =>
        least last deadline (before (left found)).2⟩
    · obtain ⟨deadline, deadlineIs, due, lowest⟩ := swept.wasDue other later
      exact ⟨deadline, (before deadlineIs).2, due, lowest⟩
  · apply List.nodup_cons.mpr
    refine ⟨fun member => ?_, swept.nodup⟩
    obtain ⟨deadline, deadlineIs, -⟩ := swept.wasDue ent member
    exact (before deadlineIs).1 rfl

theorem Timers.Linked.mem_iff {timers : Timers} (linked : timers.Linked) (item : HeapItem) :
    item ∈ timers.heap ↔ timers.deadline item.ref = some item.val := by
  rw [linked.deadline_eq_some_iff]
  constructor
  · intro member
    exact ⟨item, member, rfl, rfl⟩
  · intro found
    obtain ⟨other, member, sameRef, sameVal⟩ := found
    cases item
    cases other
    cases sameRef
    cases sameVal
    exact member

theorem Timers.Linked.nodup {timers : Timers} (linked : timers.Linked) : timers.heap.Nodup :=
  linked.distinct.of_map

/-- The items that are left, when the deadlines of `gone` are removed. -/
theorem heap_perm_of_deadline {timers after : Timers} (linked : timers.Linked)
    (afterLinked : after.Linked) {gone : List Ptr}
    (deadline : ∀ ent, after.deadline ent = if ent ∈ gone then none else timers.deadline ent) :
    after.heap.Perm (timers.heap.filter fun item => item.ref ∉ gone) := by
  apply (List.perm_ext_iff_of_nodup afterLinked.nodup (linked.nodup.filter _)).mpr
  intro item
  rw [List.mem_filter, afterLinked.mem_iff, linked.mem_iff, deadline, decide_eq_true_eq]
  by_cases removed : item.ref ∈ gone
  · simp [removed]
  · simp [removed]

private theorem dueCount_of_removed {timers after : Timers} (linked : timers.Linked)
    (afterLinked : after.Linked) {item : HeapItem} {nowUs : UInt64} (member : item ∈ timers.heap)
    (early : item.val < nowUs)
    (removed : after.deadline = Function.update timers.deadline item.ref none) :
    dueCount nowUs timers.heap = dueCount nowUs after.heap + 1 := by
  have itemIs := (linked.mem_iff item).mp member
  have gone : item ∉ after.heap := by
    rw [afterLinked.mem_iff, removed, Function.update_self]
    exact Option.some_ne_none _ ∘ Eq.symm
  have perm : (item :: after.heap).Perm timers.heap := by
    apply (List.perm_ext_iff_of_nodup (List.nodup_cons.mpr ⟨gone, afterLinked.nodup⟩)
      linked.nodup).mpr
    intro other
    rw [List.mem_cons, afterLinked.mem_iff, linked.mem_iff, removed]
    by_cases same : other.ref = item.ref
    · rw [same, Function.update_self, itemIs]
      constructor
      · intro either
        rcases either with rfl | contrary
        · rfl
        · cases contrary
      · intro sameVal
        left
        cases item
        cases other
        cases same
        cases sameVal
        rfl
    · rw [Function.update_of_ne same]
      constructor
      · intro either
        rcases either with rfl | found
        · exact absurd rfl same
        · exact found
      · exact .inr
  rw [dueCount, ← perm.countP_eq, List.countP_cons, decide_eq_true early, if_pos rfl]
  rfl

/-- One of the first `limit` calls of `hm_pop` that the loop makes never returns. -/
inductive PopSpins (nowUs : UInt64) : Nat → GData → Prop
  | here {limit : Nat} {g : GData} {first : HeapItem} {others : List HeapItem}
      (heapIs : g.timers.heap = first :: others) (early : first.val < nowUs)
      (diverges : (HmCall.pop (g.entry first.ref).hcode (hnodeSame first.ref)).Diverges g.db) :
      PopSpins nowUs (limit + 1) g
  | later {limit : Nat} {g middle : GData} {first : HeapItem} {others : List HeapItem}
      {db : HMap Ptr} {node : Option (HNode Ptr)}
      (heapIs : g.timers.heap = first :: others) (early : first.val < nowUs)
      (popped : hmPop hmFuel g.db (g.entry first.ref).hcode (hnodeSame first.ref) =
        .ok (db, node)) (deleted : entryDel { g with db := db } first.ref = .ok middle)
      (rest : PopSpins nowUs limit middle) : PopSpins nowUs (limit + 1) g

/-- `process_timers` at `now` makes a call of `hm_pop` that never returns. -/
def GData.ExpirySpins (g : GData) (now : UInt64) (fault : Fault) : Prop :=
  fault = .spin ∧ PopSpins (now + 1000) (kMaxWorks + 1) g

/-- One round: the pop finds the node of the entry, which then leaves the keyspace. -/
theorem expireRound_spec {β : Type} {allowed : Fault → Prop} {post : β → Prop}
    {next : GData → Except Fault β} (represents : g.Represents ents dict due) {ent : Ptr}
    (member : ent ∈ ents)
    (spins : (HmCall.pop (g.entry ent).hcode (hnodeSame ent)).Diverges g.db → allowed .spin)
    (rest : ∀ (after : GData) db node,
      hmPop hmFuel g.db (g.entry ent).hcode (hnodeSame ent) = .ok (db, node) →
        entryDel { g with db := db } ent = .ok after →
        after.Represents (ents.erase ent) (Function.update dict (g.entry ent).key none)
          (Function.update due (g.entry ent).key none) → after.entry = g.entry →
        after.timers.deadline = Function.update g.timers.deadline ent none →
        Meets allowed post (next after)) :
    Meets allowed post (do
      let (db, node) ← hmPop hmFuel g.db (g.entry ent).hcode (hnodeSame ent)
      if node.map HNode.owner = some ent then do
        let g ← entryDel { g with db := db } ent
        next g
      else
        .error (.assertion .processTimers)) := by
  have pops := represents.keyed.hmPop_spec (represents.decides_same ent) hmFuel
  cases popped : hmPop hmFuel g.db (g.entry ent).hcode (hnodeSame ent) with
  | error fault =>
      rw [show fault = .spin from pops.of_error popped]
      exact spins (represents.keyed.wellFormed.diverges popped)
  | ok result =>
      rcases result with ⟨db, answer⟩
      rcases pops.of_ok popped with ⟨sought, keyed⟩
      rw [ok_bind]
      cases answer with
      | none => exact absurd rfl (sought ent member)
      | some node =>
          have owner : node.owner = ent := sought.2
          simp only [Option.map_some, owner, if_true]
          simp only [owner] at keyed
          obtain ⟨after, deleted, gone⟩ := (represents.entryDel_spec member keyed).returns
          rw [deleted, ok_bind]
          exact rest after db (some node) popped deleted gone.1 gone.2.1 gone.2.2

/-- The loop has removed entries that are due, all of them or `limit`. -/
def Sweeps (nowUs : UInt64) (limit : Nat) (g : GData) (ents : List Ptr) (dict : Dict)
    (due : Bytes → Option UInt64) (after : GData) : Prop :=
  ∃ gone, Swept g nowUs gone after ∧ gone ⊆ ents ∧
    gone.length = min (dueCount nowUs g.timers.heap) limit ∧
    after.Represents (ents.filter (· ∉ gone))
      (without dict (gone.map fun ent => (g.entry ent).key))
      (without due (gone.map fun ent => (g.entry ent).key))

private theorem sweeps_none (represents : g.Represents ents dict due) {nowUs : UInt64} {limit : Nat}
    (none : min (dueCount nowUs g.timers.heap) limit = 0) :
    Sweeps nowUs limit g ents dict due g := by
  refine ⟨[], swept_nil g nowUs, List.nil_subset _, none.symm, ?_⟩
  have all : ents.filter (· ∉ []) = ents := List.filter_eq_self.mpr fun _ _ => by simp
  rw [all, List.map_nil, without_nil, without_nil]
  exact represents

private theorem sweeps_cons (represents : g.Represents ents dict due) {first : HeapItem}
    {others : List HeapItem} (heapIs : g.timers.heap = first :: others) {nowUs : UInt64}
    (early : first.val < nowUs) {middle after : GData}
    (removed : middle.timers.deadline = Function.update g.timers.deadline first.ref none)
    (sameEntry : middle.entry = g.entry) (middleLinked : middle.timers.Linked) {limit : Nat}
    (rest : Sweeps nowUs limit middle (ents.erase first.ref)
      (Function.update dict (g.entry first.ref).key none)
      (Function.update due (g.entry first.ref).key none) after) :
    Sweeps nowUs (limit + 1) g ents dict due after := by
  obtain ⟨gone, swept, inside, count, afterRepresents⟩ := rest
  have inHeap : first ∈ g.timers.heap := by
    rw [heapIs]
    exact List.mem_cons_self
  have firstIs := (represents.linked.mem_iff first).mp inHeap
  have least : ∀ other later, g.timers.deadline other = some later → first.val ≤ later := by
    intro other later found
    obtain ⟨item, member, -, valIs⟩ := represents.linked.deadline_eq_some_iff.mp found
    rw [← valIs]
    exact represents.linked.first_le heapIs member
  refine ⟨first.ref :: gone, swept.cons sameEntry removed firstIs early least, ?_, ?_, ?_⟩
  · intro ent member
    rcases List.mem_cons.mp member with rfl | later
    · exact (represents.ref_mem inHeap).1
    · exact List.mem_of_mem_erase (inside later)
  · rw [List.length_cons, count,
      dueCount_of_removed represents.linked middleLinked inHeap early removed]
    omega
  · have remaining : (ents.erase first.ref).filter (· ∉ gone) =
        ents.filter (· ∉ first.ref :: gone) := by
      rw [represents.keyed.nodup.erase_eq_filter, List.filter_filter]
      apply List.filter_congr
      intro ent _
      by_cases same : ent = first.ref
      · simp [same]
      · simp [same]
    rw [remaining, sameEntry, without_update, without_update] at afterRepresents
    exact afterRepresents

/-- The loop removes the entries that are due, at most `k_max_works + 1` of them. -/
private theorem expireLoop_sweeps (nowUs : UInt64) {fuel nworks : Nat}
    (enough : fuel + nworks = kMaxWorks + 1) (few : nworks ≤ kMaxWorks)
    (represents : g.Represents ents dict due) :
    Meets (fun fault => fault = .spin ∧ PopSpins nowUs fuel g)
      (Sweeps nowUs fuel g ents dict due) (expireLoop nowUs fuel nworks g) := by
  induction fuel generalizing nworks g ents dict due with
  | zero => omega
  | succ fuel ih =>
      rw [expireLoop]
      split
      · rename_i heapIs
        apply sweeps_none represents
        rw [heapIs]
        exact Nat.zero_min _
      · rename_i first others heapIs
        have inHeap : first ∈ g.timers.heap := by
          rw [heapIs]
          exact List.mem_cons_self
        split
        · rename_i early
          apply expireRound_spec represents (represents.ref_mem inHeap).1
          · intro diverges
            exact ⟨rfl, .here heapIs early diverges⟩
          intro middle db node popped deleted middleRepresents sameEntry removed
          have step := fun {after : GData} {limit : Nat} =>
            @sweeps_cons _ _ _ _ represents _ _ heapIs _ early middle after removed sameEntry
              middleRepresents.linked limit
          by_cases stop : nworks ≥ kMaxWorks
          · have last : fuel = 0 := by omega
            rw [if_pos stop, last]
            exact step (sweeps_none middleRepresents (Nat.min_zero _))
          · rw [if_neg stop]
            apply ((ih (by omega) (by omega) middleRepresents).widen ?_).mono
            · intro after swept
              exact step swept
            · intro fault stopped
              exact ⟨stopped.1, .later heapIs early popped deleted stopped.2⟩
        · rename_i late
          apply sweeps_none represents
          have none : dueCount nowUs g.timers.heap = 0 := by
            apply List.countP_eq_zero.mpr
            intro item member contrary
            have before := represents.linked.first_le heapIs member
            exact late (UInt64.lt_of_le_of_lt before (of_decide_eq_true contrary))
          rw [none]
          exact Nat.zero_min _

theorem processTtlTimers_sweeps (represents : g.Represents ents dict due) (now : UInt64) :
    Meets (g.ExpirySpins now) (Sweeps (now + 1000) (kMaxWorks + 1) g ents dict due)
      (processTtlTimers g now) :=
  expireLoop_sweeps (now + 1000) (Nat.add_zero _) (Nat.zero_le _) represents

/-- Keys have left the keyspace, each with a deadline before `nowUs`. -/
structure Expired (dict : Dict) (due : Bytes → Option UInt64) (nowUs : UInt64)
    (gone : List Bytes) (after : GData) : Prop where
  represents : ∃ ents, after.Represents ents (without dict gone) (without due gone)
  wasDue : ∀ key ∈ gone, ∃ deadline, due key = some deadline ∧ deadline < nowUs
  present : ∀ key ∈ gone, (dict key).isSome = true

theorem processTtlTimers_spec (represents : g.Represents ents dict due) (now : UInt64) :
    Meets (g.ExpirySpins now) (fun after => ∃ gone, Expired dict due (now + 1000) gone after)
      (processTtlTimers g now) := by
  apply (processTtlTimers_sweeps represents now).mono
  intro after sweeps
  obtain ⟨gone, swept, inside, -, afterRepresents⟩ := sweeps
  refine ⟨gone.map fun ent => (g.entry ent).key, ⟨_, afterRepresents⟩, ?_, ?_⟩
  · intro key member
    obtain ⟨ent, entMember, rfl⟩ := List.mem_map.mp member
    obtain ⟨deadline, deadlineIs, early, -⟩ := swept.wasDue ent entMember
    rw [represents.dated ent (inside entMember)] at deadlineIs
    exact ⟨deadline, deadlineIs, early⟩
  · intro key member
    obtain ⟨ent, entMember, rfl⟩ := List.mem_map.mp member
    obtain ⟨record, found, -⟩ := represents.recorded ent (inside entMember)
    rw [found]
    rfl

/-! ### Heap and entries -/

def GData.owners (g : GData) : List Ptr := g.db.nodes.map HNode.owner

/-- A slot of the heap refers to an entry of the map whose index is that slot, and the
index of an entry is that of its item, if it has one. -/
structure GData.Indexed (g : GData) : Prop where
  slots : ∀ i item, g.timers.heap[i]? = some item →
    item.ref ∈ g.owners ∧ g.timers.heapIdx item.ref = some i
  listed : ∀ ent i, g.timers.heapIdx ent = some i →
    ∃ item, g.timers.heap[i]? = some item ∧ item.ref = ent
  ordered : ∀ i item above, 0 < i → g.timers.heap[i]? = some item →
    g.timers.heap[heapParent i]? = some above → above.val ≤ item.val

theorem GData.Represents.indexed (represents : g.Represents ents dict due) : g.Indexed := by
  have owners := fun ent => represents.keyed.nodes_perm.mem_iff (a := ent)
  have linked := represents.linked
  constructor
  · intro i item found
    refine ⟨(owners _).mpr ?_, linked.indexed i item found⟩
    exact (represents.ref_mem (List.mem_of_getElem? found)).1
  · intro ent i index
    exact linked.listed index
  · intro i item above positive found aboveFound
    have inside := (List.getElem?_eq_some_iff.mp found).1
    have ordered := linked.ordered i positive inside
    change vals _ (heapParent i) ≤ _ at ordered
    rw [vals_of_getElem? aboveFound, vals_of_getElem? found] at ordered
    exact UInt64.le_iff_toNat_le.mpr ordered

end RedisC
